import SymbolicPaths.CommandLine.Run
import SymbolicPaths.Gzip.Stored
import SymbolicPaths.Proofs.ArtifactWriting

/-!
# Artifacts survive being stored and shown

An artifact can be had back from each form in which it leaves the program: the compact text, the
text with one member per line, the compressed file, and the line that is printed when it is shown as
JSON (`Artifact.serialization_lossless`). What is shown is a text and not bytes, so for the last
form it matters that printing changes none of them (`Artifact.toUTF8_ofBytes_prettyText`).
-/

namespace SymbolicPaths

namespace Script

variable {ε α β : Type} {t t' : FileTree}

theorem run_map_of_pure {s : Script α} {f : α → β} {a : α} (h : s.run t = pure (a, t')) :
    (f <$> s).run t = pure (f a, t') := by
  rw [map_eq_pure_bind, run_bind, h]
  rfl

theorem run_bindExcept_of_ok {x : ExceptT ε Script α} {g : α → ExceptT ε Script β} {a : α}
    (h : x.run.run t = pure (.ok a, t')) : (x >>= g).run.run t = (g a).run.run t' := by
  rw [ExceptT.run_bind, run_bind, h]
  rfl

end Script

namespace CommandLine

variable {t : FileTree} {name : String} {bytes : List UInt8} {a : Artifact}

theorem run_locateInput_ok {found : Path} (h : (t.answer (.resolve ⟨name⟩)).1 = .ok found) :
    (locateInput name).run t = pure (found, t) := by
  change Script.run (.ask _ _) t = _
  rw [Script.run_ask, h]
  rfl

/-- Looking for an input leaves the tree alone and reports nothing. -/
theorem run_locateInput (name : String) (t : FileTree) :
    ∃ p, (locateInput name).run t = pure (p, t) := by
  cases hanswer : (t.answer (.resolve ⟨name⟩)).1 with
  | ok found => exact ⟨found, run_locateInput_ok hanswer⟩
  | error fault =>
    refine ⟨(Location.path t.current).join ⟨name⟩, ?_⟩
    change Script.run (.ask _ _) t = _
    rw [Script.run_ask, hanswer]
    rfl

theorem printedLines_runShow (h : t.read ((locateInput name).run t).value.1 = .content bytes)
    (ha : Artifact.ofStream bytes = .ok a) :
    printedLines ((runShow name true).run.run t).events = [Text.ofBytes a.prettyText] := by
  obtain ⟨p, hp⟩ := run_locateInput name t
  rw [hp] at h
  have hlocate : (liftM (locateInput name) : ExceptT CommandError Script Path).run.run t =
      pure (.ok p, t) := by
    rw [ExceptT.run_liftM, Script.run_map_of_pure hp]
  have hread : ((Artifact.readFrom p).adapt (CommandError.reading p)).run.run t = pure (.ok a, t) :=
    Script.run_map_of_pure (Artifact.run_readFrom h ha)
  rw [runShow, Script.run_bindExcept_of_ok hlocate, Script.run_bindExcept_of_ok hread]
  rfl

end CommandLine

namespace Artifact

open CommandLine

/-- **Nothing of an artifact is lost when it is stored or shown.** It is read back from both of its
texts, from any stream that unpacks to its compact text, from the file that a successful write has
made with any compressor, and from the line that is printed when a stored artifact is shown as
JSON. -/
theorem serialization_lossless (a : Artifact) :
    ofText a.compactText = .ok a ∧ ofText a.prettyText = .ok a ∧
    (∀ bytes, Gzip.unpack bytes = ⟨a.compactText, true⟩ → ofStream bytes = .ok a) ∧
    (∀ z p t t', ((a.writeTo z p).run.run t).value = (.ok (), t') →
      ((readFrom p).run.run t').value.1 = .ok a) ∧
    ∀ name t bytes, t.read ((locateInput name).run t).value.1 = .content bytes →
      ofStream bytes = .ok a →
      ∃ line, printedLines ((runShow name true).run.run t).events = [line] ∧
        ofText line.toUTF8.toList = .ok a := by
  refine ⟨a.ofText_compactText, a.ofText_prettyText, fun bytes h => ofStream_of_unpack h, ?_, ?_⟩
  · intro z p t t' h
    obtain ⟨l, -, hfind⟩ := find_of_writeTo h
    rw [run_readFrom_of_find hfind]
    rfl
  · intro name t bytes hread ha
    refine ⟨_, printedLines_runShow hread ha, ?_⟩
    rw [a.toUTF8_ofBytes_prettyText, a.ofText_prettyText]

/-- An artifact with the greatest numbers, and with names that have to be escaped. -/
def awkward : Artifact where
  binary := ⟨⟨"\"\\/\x00\x1f\x7f", 0xffffffff, .big⟩, 0xffffffffffffffff,
    .ofList [((0xffffffffffffffff : Address), ["", "é\n😀"])]⟩
  functions := [⟨0, "\t\x7b\x7d,:[]", 0xffffffffffffffff, 0, [], [0xffffffffffffffff],
    [⟨["null"], ["-0"], []⟩]⟩]
  blocks := []

theorem serialization_lossless_awkward :
    ∃ t', ((awkward.writeTo Gzip.stored ⟨"/a"⟩).run.run ⟨∅, []⟩).value = (.ok (), t') ∧
      ((readFrom ⟨"/a"⟩).run.run t').value.1 = .ok awkward ∧
      ∃ line, printedLines ((runShow "/a" true).run.run t').events = [line] ∧
        ofText line.toUTF8.toList = .ok awkward := by
  have hlocate : (⟨∅, []⟩ : FileTree).locate ⟨"/a"⟩ = .ok ["a"] := by decide
  have hpartial : (⟨∅, []⟩ : FileTree).locate ⟨"/a.partial"⟩ = .ok ["a.partial"] := by decide
  obtain ⟨t', ht'⟩ :
      ∃ t', ((awkward.writeTo Gzip.stored ⟨"/a"⟩).run.run ⟨∅, []⟩).value = (.ok (), t') :=
    awkward.run_writeTo_ok _ (by decide) (by decide : _ = Except.error FileFault.missing)
      (FileTree.create_named (Path.isNamed_unfinished ⟨"/a"⟩) hpartial (by decide))
  obtain ⟨l, hl, hfind⟩ := find_of_writeTo ht'
  obtain rfl : ["a"] = l := Except.ok.inj (hlocate.symm.trans hl)
  have hresolve : (locateInput "/a").run t' = pure (⟨"/a"⟩, t') := by
    refine run_locateInput_ok ?_
    change (t'.find ⟨"/a"⟩).map _ = _
    rw [hfind]
    rfl
  obtain ⟨-, -, -, hread, hshow⟩ := serialization_lossless awkward
  refine ⟨t', ht', hread _ ⟨"/a"⟩ _ t' ht',
    hshow "/a" t' _ ?_ (awkward.ofStream_stream Gzip.stored)⟩
  rw [hresolve]
  exact FileTree.read_eq_content.mpr ⟨_, hfind⟩

end Artifact

end SymbolicPaths
