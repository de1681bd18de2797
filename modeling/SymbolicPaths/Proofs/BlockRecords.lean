import Mathlib.Data.List.Induction
import SymbolicPaths.Proofs.KeyedMaps
import SymbolicPaths.Proofs.MarkerAttribution

/-!
# The record of a block is canonical

Instructions are decoded in any order, and an address may be decoded more than once. The record of a
block lists its instructions by ascending address, one for each address: the last one decoded there,
with the intermediate code that its address governs (`Block.record_canonical`). So the record
depends on what was decoded at each address, and not on how the addresses were interleaved
(`Reordered`).

All of this is about one map, which has the instructions of a block by address. It is known at each
address (`Block.getElem?_instructionMap`), and the record lists its values, which are in the order
of their addresses (`Block.pairwise_values_instructionMap`).
-/

namespace SymbolicPaths

/-! ### What was decoded at an address -/

/-- The instructions decoded at an address, in order. -/
def decodedAt (instructions : List Instruction) (a : Address) : List Instruction :=
  instructions.filter (·.address = a)

theorem decodedAt_concat (instructions : List Instruction) (i : Instruction) (a : Address) :
    decodedAt (instructions ++ [i]) a =
      decodedAt instructions a ++ if i.address = a then [i] else [] := by
  by_cases h : i.address = a <;> simp [decodedAt, h]

theorem isSome_getLast?_decodedAt {instructions : List Instruction} {a : Address} :
    (decodedAt instructions a).getLast?.isSome = true ↔ a ∈ instructions.map (·.address) := by
  simp [decodedAt]

/-- One list has the instructions of the other in another order, in which the instructions at each
address come as before. -/
def Reordered (instructions others : List Instruction) : Prop :=
  instructions.Perm others ∧ ∀ a, decodedAt instructions a = decodedAt others a

namespace InstructionMap

theorem ofInstructions_concat (instructions : List Instruction) (i : Instruction) :
    ofInstructions (instructions ++ [i]) =
      (ofInstructions instructions).insert i.address ⟨i.address, i.mnemonic, i.operands, []⟩ := by
  rw [ofInstructions, List.foldl_append]
  rfl

/-- At each address the last instruction decoded there counts. -/
theorem getElem?_ofInstructions (instructions : List Instruction) (a : Address) :
    (ofInstructions instructions)[a]? =
      (decodedAt instructions a).getLast?.map fun i => ⟨a, i.mnemonic, i.operands, []⟩ := by
  induction instructions using List.reverseRecOn with
  | nil => simp [ofInstructions, decodedAt]
  | append_singleton rest i ih =>
    simp only [ofInstructions_concat, decodedAt_concat, Std.ExtTreeMap.getElem?_insert,
      Std.compare_eq_iff_eq]
    by_cases h : i.address = a
    · rw [if_pos h, if_pos h, List.getLast?_concat, h]
      rfl
    · rw [if_neg h, if_neg h, List.append_nil, ih]

theorem ofInstructions_congr {instructions others : List Instruction}
    (h : ∀ a, decodedAt instructions a = decodedAt others a) :
    ofInstructions instructions = ofInstructions others := by
  refine Std.ExtTreeMap.ext_getElem? fun a => ?_
  rw [getElem?_ofInstructions, getElem?_ofInstructions, h]

end InstructionMap

/-! ### The instructions of a block -/

namespace Block

/-- The intermediate code of the instruction at an address. There is none if the lift failed. -/
def fragmentsAt (b : Block) (a : Address) : List String :=
  match b.code with
  | .ok code => governed code a
  | .error _ => []

/-- The instructions of a block by address, with their intermediate code. -/
def instructionMap (b : Block) : InstructionMap :=
  match b.code with
  | .ok code => (InstructionMap.ofInstructions b.instructions).attach code
  | .error _ => .ofInstructions b.instructions

variable (b : Block)

theorem value_record (a function : Address) :
    (b.record a function).value = ⟨a, function, b.size, b.instructionMap.values⟩ := by
  unfold record instructionMap
  cases b.code with
  | ok code => rfl
  | error e => rfl

theorem getElem?_instructionMap (a : Address) :
    b.instructionMap[a]? =
      (decodedAt b.instructions a).getLast?.map fun i =>
        ⟨a, i.mnemonic, i.operands, b.fragmentsAt a⟩ := by
  unfold instructionMap fragmentsAt
  cases b.code with
  | ok code =>
    simp only [InstructionMap.getElem?_attach, InstructionMap.getElem?_ofInstructions,
      Option.map_map, Function.comp_def, List.nil_append]
  | error e => exact InstructionMap.getElem?_ofInstructions b.instructions a

theorem keyed_instructionMap : Keyed (·.address) b.instructionMap := by
  intro a i h
  rw [getElem?_instructionMap] at h
  obtain ⟨d, -, rfl⟩ := Option.map_eq_some_iff.mp h
  rfl

theorem mem_values_instructionMap {i : InstructionRecord} :
    i ∈ b.instructionMap.values ↔ b.instructionMap[i.address]? = some i :=
  b.keyed_instructionMap.mem_values

theorem mem_addresses_instructionMap {a : Address} :
    a ∈ b.instructionMap.values.map (·.address) ↔ a ∈ b.instructions.map (·.address) := by
  rw [← isSome_getLast?_decodedAt, List.mem_map]
  constructor
  · rintro ⟨i, hi, rfl⟩
    rw [mem_values_instructionMap, getElem?_instructionMap] at hi
    rw [← Option.isSome_map, hi]
    rfl
  · intro h
    obtain ⟨d, hd⟩ := Option.isSome_iff_exists.mp h
    refine ⟨⟨a, d.mnemonic, d.operands, b.fragmentsAt a⟩, ?_, rfl⟩
    rw [mem_values_instructionMap, getElem?_instructionMap, hd]
    rfl

theorem pairwise_values_instructionMap :
    b.instructionMap.values.Pairwise fun i j => i.address < j.address :=
  b.keyed_instructionMap.pairwise_values

/-- **The record of a block is canonical.** Its instructions ascend strictly by address, and their
addresses are those decoded. Each has the mnemonic and the operands of the last instruction decoded
at its address, and the intermediate code that its address governs, which is none if the lift
failed. The record stays the same if the instructions are decoded in another order, as long as those
at one address come as before. -/
theorem record_canonical (a function : Address) :
    (∃ instructions, (b.record a function).value = ⟨a, function, b.size, instructions⟩ ∧
      (instructions.Pairwise fun i j => i.address < j.address) ∧
      (∀ x, x ∈ instructions.map (·.address) ↔ x ∈ b.instructions.map (·.address)) ∧
      ∀ i ∈ instructions, i.fragments = b.fragmentsAt i.address ∧
        ∃ d, (decodedAt b.instructions i.address).getLast? = some d ∧
          i.mnemonic = d.mnemonic ∧ i.operands = d.operands) ∧
    ∀ others, Reordered b.instructions others →
      ({ b with instructions := others }).record a function = b.record a function := by
  refine ⟨⟨_, b.value_record a function, b.pairwise_values_instructionMap,
    fun x => b.mem_addresses_instructionMap, fun i hi => ?_⟩, ?_⟩
  · rw [mem_values_instructionMap, getElem?_instructionMap] at hi
    obtain ⟨d, hd, hrecord⟩ := Option.map_eq_some_iff.mp hi
    rw [← hrecord]
    exact ⟨rfl, d, hd, rfl, rfl⟩
  · rintro others ⟨-, hothers⟩
    simp only [record, InstructionMap.ofInstructions_congr hothers]

/-- A block whose first address was decoded twice, the second time after the others. -/
def tangled : Block where
  size := 6
  instructions := [⟨0x1005, "ret", ""⟩, ⟨0x1000, "push", "rbx"⟩, ⟨0x1001, "mov", "rbp, rsp"⟩,
    ⟨0x1000, "push", "rbp"⟩]
  code := .ok [⟨none, "orphan"⟩, ⟨some 0x1000, "mark"⟩, ⟨none, "put"⟩]

/-- The instructions of `tangled` by ascending address. -/
def untangled : List Instruction :=
  [⟨0x1000, "push", "rbx"⟩, ⟨0x1000, "push", "rbp"⟩, ⟨0x1001, "mov", "rbp, rsp"⟩,
    ⟨0x1005, "ret", ""⟩]

theorem record_canonical_tangled : Reordered tangled.instructions untangled ∧
    ({ tangled with instructions := untangled }).record 0x1000 0x1000 =
      tangled.record 0x1000 0x1000 ∧
    (tangled.record 0x1000 0x1000).value.instructions =
      [⟨0x1000, "push", "rbp", ["mark", "put"]⟩, ⟨0x1001, "mov", "rbp, rsp", []⟩,
        ⟨0x1005, "ret", "", []⟩] := by
  have hreordered : Reordered tangled.instructions untangled := by
    refine ⟨by decide, fun a => ?_⟩
    grind [decodedAt, tangled, untangled]
  exact ⟨hreordered,
    (tangled.record_canonical 0x1000 0x1000).2 untangled hreordered, by decide +kernel⟩

end Block

end SymbolicPaths
