import SymbolicPaths.Gzip.Stored
import SymbolicPaths.Proofs.ArtifactWriting
import SymbolicPaths.Proofs.LinkedTrees

/-!
# Writing an artifact is all or nothing

`Artifact.writeTo` writes an unfinished file and moves it to the target. Here it is set to work in a
tree with links, where every operation can fail at any time (`LinkedTree.Answers`). If the path of
the unfinished file is clear of links, that path is writable (`LinkedTree.writable`), so that what a
write can do at any point is known (`steps_writeTo_linked`): either nothing but the unfinished file
has changed, or the complete artifact has been moved to the target.

A link at the path of the unfinished file is followed when that file is created. If it leads to the
target, the target is emptied before anything is written.
-/

namespace SymbolicPaths

open Script

namespace LinkedTree

variable {g g' g₁ g₂ : LinkedTree} {l : Location} {p r : Path}

/-- The answers that a tree with links can give to the requests that writing and reading make.
Whatever operation is asked for may fail. -/
inductive Answers (g : LinkedTree) : (r : FileRequest) → r.Answer → LinkedTree → Prop
  | done {c : FileChange} {g' : LinkedTree} (h : g.apply c = some g') :
    Answers g (.change c) (.ok ()) g'
  | failed (c : FileChange) (fault : FileFault) : Answers g (.change c) (.error fault) g
  | torn {c d : FileChange} {g' : LinkedTree} (hd : c.Remnant d) (h : g.apply d = some g')
    (fault : FileFault) : Answers g (.change c) (.error fault) g'
  | read {p : Path} {bytes : List UInt8} (h : g.content? p = some bytes) :
    Answers g (.read p) (.content bytes) g

theorem Answers.apply_of_ok {c : FileChange} (h : g.Answers (.change c) (.ok ()) g') :
    g.apply c = some g' := by
  cases h with
  | done h => exact h

/-- An operation that is done in one go and fails has changed nothing. -/
theorem Answers.eq_of_error {c : FileChange} {fault : FileFault} (hc : ∀ d, ¬ c.Remnant d)
    (h : g.Answers (.change c) (.error fault) g') : g' = g := by
  cases h with
  | failed => rfl
  | torn hd => exact absurd hd (hc _)

theorem Beside.answers {c : FileChange} {answer : Except FileFault Unit} (h : Beside r g g₁)
    (hc : c.path? = some r) (hanswer : g₁.Answers (.change c) answer g₂) : Beside r g g₂ := by
  cases hanswer with
  | done happly => exact h.apply hc happly
  | failed => exact h
  | torn hd happly => exact h.apply (hd.path?_eq.trans hc) happly

/-- A path that is clear of links is writable. -/
theorem writable (r : Path) (g : LinkedTree) :
    Artifact.Writable Answers r (Beside r g) (Holds r) fun _ => True where
  keeps hc h hanswer := h.answers hc hanswer
  create h hanswer := h.holds_create hanswer.apply_of_ok
  append h hbefore hanswer := h.holds_append hbefore hanswer.apply_of_ok
  settled hc _ hholds hanswer := by
    rcases hc with rfl | rfl <;>
    · obtain ⟨-, rfl⟩ := flush_eq_some.mp hanswer.apply_of_ok
      exact hholds
  failed _ _ _ _ := trivial

end LinkedTree

namespace Artifact

open LinkedTree

variable {a : Artifact} {z : Gzip.Compressor} {p : Path} {g g' : LinkedTree} {acts : List Act}
  {s' : Script (Except ArtifactError Unit)}

/-- **What writing an artifact can do in a tree with links**, at every point and whatever fails. The
unfinished file has changed and nothing else has, or the artifact has been moved to the target. -/
theorem steps_writeTo_linked (hclear : g.Clear p.unfinished)
    (h : Steps Answers (a.writeTo z p).run g acts s' g') :
    (Beside p.unfinished g g' ∧ moved p ∉ acts ∧ s' ≠ .done (.ok ())) ∨
      s' = .done (.ok ()) ∧ moved p ∈ acts ∧
        ∃ old new, g.place p.unfinished = some old ∧ g.place p = some new ∧
          (∀ n, g.node? old = some n → n.isFile) ∧ g.node? new ≠ some .directory ∧
          MovedTo g g' old new (z.stream a.compactText) := by
  have hrename {fault : FileFault} {g g' : LinkedTree}
      (hanswer : g.Answers (.change (.rename p.unfinished p)) (.error fault) g') : g' = g :=
    hanswer.eq_of_error (by rintro d ⟨⟩)
  obtain hun | ⟨hs, hmem, g₁, hbeside, hholds, hanswer⟩ :=
    (writable p.unfinished g).steps_writeTo hrename (.refl hclear) h
  · refine .inl ⟨hun.inv, hun.not_mem, fun hs => ?_⟩
    obtain ⟨⟨e, he⟩, -⟩ := hun.gaveUp _ hs
    cases he
  · exact .inr ⟨hs, hmem, hbeside.movedTo (by decide) (by decide) hholds hanswer.apply_of_ok⟩

/-- A path that leads to a file which is an artifact is read. -/
theorem steps_readFrom (h : g.content? p = some (z.stream a.compactText)) :
    Steps Answers (readFrom p).run g [.exchange (.read p) (.content (z.stream a.compactText))]
      (.done (.ok a)) g := by
  obtain ⟨k, hask, hk⟩ : ∃ k, (readFrom p).run = .ask (.read p) k ∧
      k (.content (z.stream a.compactText)) =
        (ofExcept (ofStream (z.stream a.compactText)) :
          ExceptT ArtifactError Script Artifact).run :=
    ⟨_, rfl, rfl⟩
  rw [hask]
  refine .head (.ask (.read h)) ?_
  rw [hk, a.ofStream_stream z]
  exact .refl _ _

/-- **Writing an artifact is all or nothing.** Let there be files, directories and links, and let
the path of the unfinished file be clear of links. At every point of a write, whatever fails and
wherever it stops, the location of the target is as it was, or it holds the complete artifact if the
unfinished file has been moved there. A write that succeeds has moved it and leaves no unfinished
file; one that fails has not. No other location changes but the one of the unfinished file. If the
target is no symbolic link, the same holds of what paths lead to, and a write that succeeds is read
back. -/
theorem writeTo_allOrNothing (a : Artifact) (z : Gzip.Compressor) (p : Path) (g : LinkedTree)
    (hclear : g.Clear p.unfinished) (h : Steps Answers (a.writeTo z p).run g acts s' g') :
    (moved p ∈ acts → ∃ l, g.place p = some l ∧
      g'.node? l = some (.file (z.stream a.compactText))) ∧
    (moved p ∉ acts → ∀ l, g.place p = some l → g'.node? l = g.node? l) ∧
    (s' = .done (.ok ()) → moved p ∈ acts ∧
      ∀ l, g.place p.unfinished = some l → g'.node? l = none) ∧
    (∀ e, s' = .done (.error e) → moved p ∉ acts) ∧
    (g'.current = g.current ∧ ∀ l, g.place p ≠ some l → g.place p.unfinished ≠ some l →
      g'.node? l = g.node? l) ∧
    ((∀ l target, g.place p = some l → g.node? l ≠ some (.link target)) →
      (moved p ∈ acts → g'.content? p = some (z.stream a.compactText)) ∧
      (moved p ∉ acts → g'.content? p = g.content? p) ∧
      (s' = .done (.ok ()) → g'.content? p.unfinished = none ∧
        ∃ acts', Steps Answers (readFrom p).run g' acts' (.done (.ok a)) g') ∧
      ∀ q, (∀ l, g.landing q = some l → g.place p ≠ some l ∧ g.place p.unfinished ≠ some l) →
        g'.content? q = g.content? q) := by
  obtain ⟨hbeside, hmem, hs⟩ | ⟨rfl, hmem, old, new, hold, hnew, hfile, hdirectory, hmoved⟩ :=
    steps_writeTo_linked hclear h
  · have hkept (l : Location) (hl : g.place p = some l) : g'.node? l = g.node? l :=
      hbeside.others l fun hl' =>
        place_ne_of_append (s := ".partial") (by decide) (by decide) hl hl' rfl
    refine ⟨fun hmem' => absurd hmem' hmem, fun _ => hkept, fun hs' => absurd hs' hs,
      fun _ _ => hmem, ⟨hbeside.sameWays.current, fun l _ hl => hbeside.others l hl⟩,
      fun hlink => ⟨fun hmem' => absurd hmem' hmem, fun _ => ?_, fun hs' => absurd hs' hs, ?_⟩⟩
    · refine hbeside.sameWays.content?_eq fun l hl => hkept l ?_
      rwa [landing_eq_place hlink] at hl
    · exact fun q hq => hbeside.sameWays.content?_eq fun l hl => hbeside.others l (hq l hl).2
  · have hother (l : Location) (hl : g.place p ≠ some l) (hl' : g.place p.unfinished ≠ some l) :
        g'.node? l = g.node? l := by
      refine hmoved.others l ?_ ?_
      · rintro rfl
        exact hl' hold
      · rintro rfl
        exact hl hnew
    refine ⟨fun _ => ⟨new, hnew, hmoved.come⟩, fun hnot => absurd hmem hnot, fun _ => ⟨hmem, ?_⟩,
      ?_, ⟨hmoved.current, hother⟩, fun hlink => ?_⟩
    · intro l hl
      obtain rfl : old = l := Option.some.inj (hold.symm.trans hl)
      exact hmoved.gone
    · rintro e ⟨⟩
    -- neither a directory nor a link has gone, so all paths lead where they led before
    have hways : SameWays g g' := by
      refine hmoved.sameWays hfile fun n hn => ?_
      cases n with
      | file content => rfl
      | directory => exact absurd hn hdirectory
      | link target => exact absurd hn (hlink new target hnew)
    have hcontent : g'.content? p = some (z.stream a.compactText) := by
      rw [content?_eq, hways.place_eq, hnew, Option.bind_some, hmoved.come]
      intro l target hl
      rw [hways.place_eq] at hl
      obtain rfl : new = l := Option.some.inj (hnew.symm.trans hl)
      simp [hmoved.come]
    refine ⟨fun _ => hcontent, fun hnot => absurd hmem hnot,
      fun _ => ⟨?_, _, steps_readFrom hcontent⟩, fun q hq => ?_⟩
    · rw [content?_eq, hways.place_eq, hold, Option.bind_some, hmoved.gone]
      intro l target hl
      rw [hways.place_eq] at hl
      obtain rfl : old = l := Option.some.inj (hold.symm.trans hl)
      simp [hmoved.gone]
    · exact hways.content?_eq fun l hl => hother l (hq l hl).1 (hq l hl).2

/-! ### Two writes, and a link in the way -/

/-- An artifact without functions. -/
def bare : Artifact :=
  ⟨⟨⟨"x86_64", 64, .little⟩, 0x401000, ∅⟩, [], []⟩

end Artifact

namespace LinkedTree

/-- Does what it is asked for where that is possible and not to be refused. -/
def respond (refuses : FileChange → Bool) (g : LinkedTree) :
    (r : FileRequest) → r.Answer × LinkedTree
  | .change c =>
    if refuses c then (.error (.other "refused"), g)
    else match g.apply c with
      | some g' => (.ok (), g')
      | none => (.error .missing, g)
  | .read p => ((g.content? p).elim (.unopened .missing) .content, g)
  | .status _ => (.error .missing, g)
  | .resolve _ => (.error .missing, g)
  | .current => (Location.path g.current, g)

theorem answers_respond (refuses : FileChange → Bool) (g : LinkedTree) (c : FileChange) :
    g.Answers (.change c) (g.respond refuses (.change c)).1 (g.respond refuses (.change c)).2 := by
  dsimp only [respond]
  split
  · exact .failed c _
  · split
    · next happly => exact .done happly
    · exact .failed c _

/-- A file, a directory beside it, a link to the directory it is in, and, where the unfinished file
goes, nothing or a link. -/
def sample (link? : Option Path) : LinkedTree where
  entries l :=
    if l = ["x"] then some (.file 0)
    else if l = ["e"] then some .directory
    else if l = ["d"] then some (.link ⟨"/"⟩)
    else if l = ["x.partial"] then link?.map .link
    else none
  contents _ := [1]
  current := []
  next := 1
  fresh l n h := by
    have hn : n = 0 := by cases link? <;> grind
    omega

end LinkedTree

namespace Artifact

open LinkedTree

/-- What becomes of a write in which operations of some kinds are refused. -/
def attempt (refuses : FileChange → Bool) (p : Path) (g : LinkedTree) :
    Except ArtifactError Unit × LinkedTree :=
  ((bare.writeTo Gzip.stored p).run.runBy (respond refuses) g).2

theorem steps_attempt {refuses : FileChange → Bool} {x : Except ArtifactError Unit}
    (h : (attempt refuses p g).1 = x) :
    ∃ acts, Steps Answers (bare.writeTo Gzip.stored p).run g acts (.done x)
      (attempt refuses p g).2 := by
  rw [← h]
  refine ⟨_, steps_runBy (P := fun r => ∃ c, r = .change c) ?_ ?_ g⟩
  · exact bare.asksOnly_writeTo Gzip.stored p (fun c _ => ⟨c, rfl⟩) ⟨_, rfl⟩
  · rintro g _ ⟨c, rfl⟩
    exact answers_respond refuses g c

theorem clear_sample {r : Path} (h : (sample none).place r = some ["x.partial"]) :
    (sample none).Clear r := by
  have hnone : (sample none).entryAt ["x.partial"] = none := by decide +kernel
  constructor
  · intro l target hl
    obtain rfl : ["x.partial"] = l := Option.some.inj (h.symm.trans hl)
    simp [node?_eq_none.mpr hnone]
  · intro l n l' hl hn
    obtain rfl : ["x.partial"] = l := Option.some.inj (h.symm.trans hl)
    rw [hnone] at hn
    cases hn

/-- A write that replaces a file which its path leads to through a link, and one that fails when the
unfinished file is there and is not even able to remove it. -/
theorem writeTo_allOrNothing_sample :
    (∃ acts g', Steps Answers (bare.writeTo Gzip.stored ⟨"/d/x"⟩).run (sample none) acts
        (.done (.ok ())) g' ∧
      g'.content? ⟨"/d/x"⟩ = some (Gzip.stored.stream bare.compactText) ∧
      g'.content? ⟨"/d/x.partial"⟩ = none) ∧
    ∃ acts e g', Steps Answers (bare.writeTo Gzip.stored ⟨"/d/x"⟩).run (sample none) acts
        (.done (.error e)) g' ∧
      g'.content? ⟨"/d/x"⟩ = some [1] ∧ g'.content? ⟨"/d/x.partial"⟩ = some [] := by
  have hlink (l : Location) (target : Path) (hl : (sample none).place ⟨"/d/x"⟩ = some l) :
      (sample none).node? l ≠ some (.link target) := by
    obtain rfl : ["x"] = l := Option.some.inj ((by decide +kernel : _ = some ["x"]).symm.trans hl)
    rw [(by decide +kernel : (sample none).node? ["x"] = some (.file [1]))]
    simp
  have hclear : (sample none).Clear (Path.unfinished ⟨"/d/x"⟩) := clear_sample (by decide +kernel)
  constructor
  · have hok : (attempt (fun _ => false) ⟨"/d/x"⟩ (sample none)).1 = .ok () := by decide +kernel
    obtain ⟨acts, hrun⟩ := steps_attempt hok
    obtain ⟨-, -, hmoved, -, -, hpath⟩ :=
      writeTo_allOrNothing bare Gzip.stored ⟨"/d/x"⟩ (sample none) hclear hrun
    obtain ⟨hcontent, -, hunfinished, -⟩ := hpath hlink
    exact ⟨acts, _, hrun, hcontent (hmoved rfl).1, (hunfinished rfl).1⟩
  · let refuses : FileChange → Bool
      | .append _ _ | .remove _ => true
      | _ => false
    have herror : (attempt refuses ⟨"/d/x"⟩ (sample none)).1 = .error .stream := by decide +kernel
    have hleft : (attempt refuses ⟨"/d/x"⟩ (sample none)).2.content? ⟨"/d/x.partial"⟩ =
        some [] := by
      decide +kernel
    obtain ⟨acts, hrun⟩ := steps_attempt herror
    obtain ⟨-, -, -, hfailed, -, hpath⟩ :=
      writeTo_allOrNothing bare Gzip.stored ⟨"/d/x"⟩ (sample none) hclear hrun
    refine ⟨acts, _, _, hrun, ?_, hleft⟩
    rw [(hpath hlink).2.1 (hfailed _ rfl)]
    decide +kernel

/-- **A link in the way breaks it, and other paths can lead to the target.** If a symbolic link to
the target stands where the unfinished file goes, the target is empty before anything has been
moved. And what a path with `..` in it leads to changes although it is neither the target nor the
path of the unfinished file. -/
theorem writeTo_not_allOrNothing :
    (∃ acts s' g', Steps Answers (bare.writeTo Gzip.stored ⟨"/x"⟩).run (sample (some ⟨"/x"⟩)) acts
        s' g' ∧
      moved ⟨"/x"⟩ ∉ acts ∧ (sample (some ⟨"/x"⟩)).content? ⟨"/x"⟩ = some [1] ∧
      g'.content? ⟨"/x"⟩ = some []) ∧
    ∃ acts g', Steps Answers (bare.writeTo Gzip.stored ⟨"/x"⟩).run (sample none) acts
        (.done (.ok ())) g' ∧
      (sample none).content? ⟨"/e/../x"⟩ = some [1] ∧
      g'.content? ⟨"/e/../x"⟩ = some (Gzip.stored.stream bare.compactText) := by
  constructor
  · have hcreate : (sample (some ⟨"/x"⟩)).apply (.create (Path.unfinished ⟨"/x"⟩)) =
        some ((sample (some ⟨"/x"⟩)).write 0 []) :=
      create_eq_some.mpr ⟨["x"], by decide +kernel, .inr ⟨0, by decide +kernel, rfl⟩⟩
    exact ⟨_, _, _, .head (.ask (.done hcreate)) (.refl _ _), by simp [moved],
      by decide +kernel, by decide +kernel⟩
  · have hok : (attempt (fun _ => false) ⟨"/x"⟩ (sample none)).1 = .ok () := by decide +kernel
    obtain ⟨acts, hrun⟩ := steps_attempt hok
    have hclear : (sample none).Clear (Path.unfinished ⟨"/x"⟩) := clear_sample (by decide +kernel)
    obtain ⟨-, -, hs⟩ | ⟨-, -, old, new, -, hnew, hold, -, hmoved⟩ :=
      steps_writeTo_linked hclear hrun
    · exact absurd rfl hs
    obtain rfl : ["x"] = new :=
      Option.some.inj ((by decide +kernel : _ = some ["x"]).symm.trans hnew)
    have hfile (n : LinkedNode) (hn : (sample none).node? ["x"] = some n) : n.isFile := by
      rw [(by decide +kernel : (sample none).node? ["x"] = some (.file [1]))] at hn
      obtain rfl := Option.some.inj hn
      rfl
    refine ⟨acts, _, hrun, by decide +kernel, ?_⟩
    rw [content?, (hmoved.sameWays hold hfile).landing_eq,
      (by decide +kernel : (sample none).landing ⟨"/e/../x"⟩ = some ["x"])]
    dsimp only [Option.bind_eq_bind, Option.bind_some]
    rw [hmoved.come]

end Artifact

end SymbolicPaths
