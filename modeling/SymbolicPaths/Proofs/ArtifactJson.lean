import SymbolicPaths.ArtifactFile
import SymbolicPaths.Proofs.JsonReading

/-!
# Artifacts are read back from both of their texts

Each record is read off its tokens (`takes_read`), and its tokens are a value that layouts keep
apart (`isValue_tokens`). An artifact is therefore read from its compact text
(`Artifact.ofText_compactText`), from the text with one member per line
(`Artifact.ofText_prettyText`), and from its compressed text (`Artifact.ofStream_stream`). Printing
the text with one member per line changes no byte of it (`Artifact.toUTF8_ofBytes_prettyText`).
-/

namespace SymbolicPaths

open Json Json.Reader

theorem Endianness.takes_read (e : Endianness) : Endianness.read.Takes (text e.name) e := by
  intro rest
  have hkey := takes_key e.name rest
  rw [List.singleton_append] at hkey
  change (Reader.key (.text e.name :: rest) >>= _) = _
  rw [hkey, ok_bind]
  cases e <;> rfl

namespace Architecture

theorem isValue_tokens (a : Architecture) : IsValue a.tokens := by
  refine isValue_object ?_
  simp only [List.forall_mem_cons]
  exact ⟨isValue_text _, isValue_int _, isValue_text _, by simp⟩

theorem takes_read (a : Architecture) : Architecture.read.Takes a.tokens a := by
  refine takes_record (d := ⟨some a.name, some a.bits, some a.endianness⟩) ?_ rfl
  refine .cons rfl rfl ((takes_text _).return _) ?_
  refine .cons rfl rfl ((takes_halfWord _).return _) ?_
  exact .cons rfl rfl ((Endianness.takes_read _).return _) (.nil _)

end Architecture

namespace BinaryInfo

theorem isValue_routineTokens (routines : Std.ExtTreeMap Address (List String)) :
    IsValue (routineTokens routines) := by
  refine isValue_object fun m hm => ?_
  obtain ⟨r, -, rfl⟩ := List.mem_map.mp hm
  exact isValue_texts r.2

theorem isValue_tokens (b : BinaryInfo) : IsValue b.tokens := by
  refine isValue_object ?_
  simp only [List.forall_mem_cons]
  exact ⟨b.architecture.isValue_tokens, isValue_int _, isValue_routineTokens _, by simp⟩

theorem takes_read (b : BinaryInfo) : BinaryInfo.read.Takes b.tokens b := by
  refine takes_record (d := ⟨some b.architecture, some b.entry, some b.routines⟩) ?_ rfl
  refine .cons rfl rfl ((Architecture.takes_read _).return _) ?_
  refine .cons rfl rfl ((takes_word _).return _) ?_
  exact .cons rfl rfl ((takes_map takes_wordKey takes_texts _).return _) (.nil _)

end BinaryInfo

namespace InstructionRecord

theorem isValue_tokens (i : InstructionRecord) : IsValue i.tokens := by
  refine isValue_object ?_
  simp only [List.forall_mem_cons]
  exact ⟨isValue_int _, isValue_text _, isValue_text _, isValue_texts _, by simp⟩

theorem takes_read (i : InstructionRecord) : InstructionRecord.read.Takes i.tokens i := by
  refine takes_record (d := ⟨some i.address, some i.mnemonic, some i.operands, some i.fragments⟩)
    ?_ rfl
  refine .cons rfl rfl ((takes_word _).return _) ?_
  refine .cons rfl rfl ((takes_text _).return _) ?_
  refine .cons rfl rfl ((takes_text _).return _) ?_
  exact .cons rfl rfl ((takes_texts _).return _) (.nil _)

end InstructionRecord

namespace BlockRecord

theorem isValue_tokens (b : BlockRecord) : IsValue b.tokens := by
  refine isValue_object ?_
  simp only [List.forall_mem_cons]
  exact ⟨isValue_int _, isValue_int _, isValue_int _, isValue_array fun i _ => i.isValue_tokens,
    by simp⟩

theorem takes_read (b : BlockRecord) : BlockRecord.read.Takes b.tokens b := by
  refine takes_record (d := ⟨some b.address, some b.function, some b.size, some b.instructions⟩)
    ?_ rfl
  refine .cons rfl rfl ((takes_word _).return _) ?_
  refine .cons rfl rfl ((takes_word _).return _) ?_
  refine .cons rfl rfl ((takes_word _).return _) ?_
  exact .cons rfl rfl ((takes_list (fun i _ => i.takes_read) fun i _ => i.isValue_tokens).return _)
    (.nil _)

end BlockRecord

namespace ExecutionPath

theorem isValue_tokens (p : ExecutionPath) : IsValue p.tokens := by
  refine isValue_object ?_
  simp only [List.forall_mem_cons]
  exact ⟨isValue_texts _, isValue_texts _, isValue_words _, by simp⟩

theorem takes_read (p : ExecutionPath) : ExecutionPath.read.Takes p.tokens p := by
  refine takes_record (d := ⟨some p.unknowns, some p.values, some p.history⟩) ?_ rfl
  refine .cons rfl rfl ((takes_texts _).return _) ?_
  refine .cons rfl rfl ((takes_texts _).return _) ?_
  exact .cons rfl rfl ((takes_words _).return _) (.nil _)

end ExecutionPath

namespace FunctionRecord

theorem isValue_tokens (f : FunctionRecord) : IsValue f.tokens := by
  refine isValue_object ?_
  simp only [List.forall_mem_cons]
  exact ⟨isValue_int _, isValue_text _, isValue_int _, isValue_int _, isValue_words _,
    isValue_words _, isValue_array fun p _ => p.isValue_tokens, by simp⟩

theorem takes_read (f : FunctionRecord) : FunctionRecord.read.Takes f.tokens f := by
  refine takes_record (d := ⟨some f.address, some f.name, some f.blockCount, some f.size,
    some f.blocks, some f.endpoints, some f.paths⟩) ?_ rfl
  refine .cons rfl rfl ((takes_word _).return _) ?_
  refine .cons rfl rfl ((takes_text _).return _) ?_
  refine .cons rfl rfl ((takes_word _).return _) ?_
  refine .cons rfl rfl ((takes_word _).return _) ?_
  refine .cons rfl rfl ((takes_words _).return _) ?_
  refine .cons rfl rfl ((takes_words _).return _) ?_
  refine .cons rfl rfl (Takes.return (takes_list ?_ ?_) _) (.nil _)
  · exact fun p _ => p.takes_read
  · exact fun p _ => p.isValue_tokens

end FunctionRecord

namespace Artifact

theorem isValue_tokens (a : Artifact) : IsValue a.tokens := by
  refine isValue_object ?_
  simp only [List.forall_mem_cons]
  exact ⟨a.binary.isValue_tokens, isValue_array fun f _ => f.isValue_tokens,
    isValue_array fun b _ => b.isValue_tokens, by simp⟩

theorem takes_read (a : Artifact) : Artifact.read.Takes a.tokens a := by
  refine takes_record (d := ⟨some a.binary, some a.functions, some a.blocks⟩) ?_ rfl
  refine .cons rfl rfl ((BinaryInfo.takes_read _).return _) ?_
  refine .cons rfl rfl (Takes.return (takes_list ?_ ?_) _) ?_
  · exact fun f _ => f.takes_read
  · exact fun f _ => f.isValue_tokens
  refine .cons rfl rfl (Takes.return (takes_list ?_ ?_) _) (.nil _)
  · exact fun b _ => b.takes_read
  · exact fun b _ => b.isValue_tokens

/-- The last token of an artifact closes its object. -/
theorem tokens_eq_append (a : Artifact) : ∃ init, a.tokens = init ++ [.closeObject] :=
  ⟨_, rfl⟩

theorem ofText_compactText (a : Artifact) : ofText a.compactText = .ok a :=
  a.takes_read.readText (lex_compact a.isValue_tokens.toLegible (isNumeral_getLast?_object _))

theorem ofText_prettyText (a : Artifact) : ofText a.prettyText = .ok a :=
  a.takes_read.readText (lex_pretty a.isValue_tokens.toLegible (isNumeral_getLast?_object _))

theorem toUTF8_ofBytes_prettyText (a : Artifact) :
    (Text.ofBytes a.prettyText).toUTF8.toList = a.prettyText := by
  obtain ⟨init, hinit⟩ := a.tokens_eq_append
  have hwritten : ∀ t ∈ init, t.IsWritten := by
    intro t ht
    exact a.isValue_tokens.isWritten t (hinit ▸ List.mem_append_left _ ht)
  obtain ⟨bytes, hbytes, htext⟩ := pretty_eq_append hwritten
  have hpretty : a.prettyText = bytes ++ [0x7d] := by
    rw [prettyText, hinit, htext]
  rw [hpretty]
  exact Text.toUTF8_ofBytes hbytes

theorem ofStream_of_unpack {a : Artifact} {bytes : List UInt8}
    (h : Gzip.unpack bytes = ⟨a.compactText, true⟩) : ofStream bytes = .ok a := by
  simp [ofStream, h, ofText_compactText]

theorem ofStream_stream (z : Gzip.Compressor) (a : Artifact) :
    ofStream (z.stream a.compactText) = .ok a :=
  ofStream_of_unpack (z.unpack_stream a.compactText)

end Artifact

end SymbolicPaths
