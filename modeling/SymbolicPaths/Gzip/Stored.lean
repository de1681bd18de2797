import SymbolicPaths.Gzip.Stream

/-!
# Stored streams

The simplest compressor stores content as it is (`stored`). `unpack` undoes what it does
(`unpack_pack`). Content is packed into stored blocks, so only that part of the inflater comes into
play: three bits that announce a stored block, the rest of their byte, the length with its
complement, and the bytes themselves (`Inflation.run_storedBlock`). The blocks of a long content are
read one after the other (`Inflation.run_blocks_deflate`), and the inflater is never short of fuel
because a block is longer than its content.
-/

namespace SymbolicPaths.Gzip

/-- The most that fits into a stored block. -/
def storedLimit : Nat := 65535

/-- A stored block. -/
def storedBlock (last : Bool) (content : List UInt8) : List UInt8 :=
  let low := UInt8.ofNat content.length
  let high := UInt8.ofNat (content.length / 256)
  (if last then 1 else 0) :: low :: high :: (low ^^^ 0xff) :: (high ^^^ 0xff) :: content

/-- Content as a sequence of stored blocks. -/
def deflate (content : List UInt8) : List UInt8 :=
  if content.length ≤ storedLimit then storedBlock true content
  else storedBlock false (content.take storedLimit) ++ deflate (content.drop storedLimit)
  termination_by content.length
  decreasing_by simp [storedLimit] at *; omega

/-- Content as a stream of stored blocks. -/
def pack (content : List UInt8) : List UInt8 :=
  plainHeader ++ deflate content ++ trailer content

/-! ### Reading stored blocks -/

namespace Inflation

variable {α β : Type}

/-- A step that succeeds hands on its value and its state. -/
theorem run_bind_of_ok {x : Inflation α} {s s' : Inflater} {a : α} (f : α → Inflation β)
    (h : x.run s = (.ok a, s')) : (x >>= f).run s = (f a).run s' := by
  change ExceptT.bindCont f (x.run s).1 (x.run s).2 = _
  rw [h]
  rfl

theorem run_bit {used : Nat} (b : UInt8) (rest : List UInt8) (output : Array UInt8)
    (h : used < 7) :
    bit.run ⟨used, b :: rest, output⟩ =
      (.ok ((b.toNat >>> used) % 2), ⟨used + 1, b :: rest, output⟩) := by
  rw [bit, run_bind_of_ok _ (rfl : (get : Inflation Inflater).run ⟨used, b :: rest, output⟩ = _)]
  simp only [if_pos h]
  rfl

theorem run_byte (b : UInt8) (rest : List UInt8) (output : Array UInt8) :
    byte.run ⟨0, b :: rest, output⟩ = (.ok b, ⟨0, rest, output⟩) :=
  rfl

/-- The kind of a stored block is zero, whether it is the last one or not. -/
theorem run_bits_two (last : Bool) (rest : List UInt8) (output : Array UInt8) :
    (bits 2).run ⟨1, (if last then 1 else 0) :: rest, output⟩ =
      (.ok 0, ⟨3, (if last then 1 else 0) :: rest, output⟩) := by
  have hsecond : (bits 1).run ⟨2, (if last then 1 else 0) :: rest, output⟩ =
      (.ok 0, ⟨3, (if last then 1 else 0) :: rest, output⟩) := by
    rw [bits, run_bind_of_ok _ (run_bit _ _ _ (by decide))]
    cases last <;> rfl
  rw [bits, run_bind_of_ok _ (run_bit _ _ _ (by decide)), run_bind_of_ok _ hsecond]
  cases last <;> rfl

theorem run_copyStored (content rest : List UInt8) (output : Array UInt8) :
    (copyStored content.length).run ⟨0, content ++ rest, output⟩ =
      (.ok (), ⟨0, rest, output ++ content.toArray⟩) := by
  have h : ¬ (content ++ rest).length < content.length := by simp
  rw [copyStored, run_bind_of_ok _ (rfl : (get : Inflation Inflater).run _ = _),
    run_bind_of_ok _ (rfl : (set _ : Inflation Unit).run _ = _)]
  simp only [if_neg h, List.take_left, List.drop_left]
  rfl

/-! ### Stored blocks -/

/-- Two bytes hold the length of a stored block. -/
theorem length_eq_bytes {n : Nat} (h : n ≤ storedLimit) :
    (UInt8.ofNat n).toNat + 256 * (UInt8.ofNat (n / 256)).toNat = n := by
  simp only [storedLimit] at h
  simp only [UInt8.toNat_ofNat']
  omega

theorem xor_complement (b : UInt8) : b ^^^ (b ^^^ 0xff) = 0xff := by
  rw [← UInt8.xor_assoc, UInt8.xor_self, UInt8.zero_xor]

theorem run_storedBlock {content : List UInt8} (first : UInt8) (rest : List UInt8)
    (output : Array UInt8) (h : content.length ≤ storedLimit) :
    storedBlock.run ⟨3, first :: (Gzip.storedBlock true content).tail ++ rest, output⟩ =
      (.ok (), ⟨0, rest, output ++ content.toArray⟩) := by
  rw [storedBlock, run_bind_of_ok _ (rfl : align.run _ = _)]
  -- what is left of the first byte has been dropped, and four bytes of length come next
  change (byte >>= _).run ⟨0, (_ :: _ :: _ :: _ :: content) ++ rest, output⟩ = _
  simp only [List.cons_append]
  rw [run_bind_of_ok _ (run_byte ..), run_bind_of_ok _ (run_byte ..),
    run_bind_of_ok _ (run_byte ..), run_bind_of_ok _ (run_byte ..),
    if_pos ⟨xor_complement _, xor_complement _⟩, length_eq_bytes h, run_copyStored]

theorem run_blocks_succ {content : List UInt8} (last : Bool) (rest : List UInt8)
    (output : Array UInt8) (fuel : Nat) (h : content.length ≤ storedLimit) :
    (blocks (fuel + 1)).run ⟨0, Gzip.storedBlock last content ++ rest, output⟩ =
      (if last then pure () else blocks fuel : Inflation Unit).run
        ⟨0, rest, output ++ content.toArray⟩ := by
  rw [blocks]
  change (bit >>= _).run
    ⟨0, (if last then 1 else 0) :: ((Gzip.storedBlock true content).tail ++ rest), output⟩ = _
  rw [run_bind_of_ok _ (run_bit _ _ _ (by decide)), run_bind_of_ok _ (run_bits_two ..)]
  change (storedBlock >>= _).run _ = _
  rw [← List.cons_append, run_bind_of_ok _ (run_storedBlock _ _ _ h)]
  cases last <;> rfl

/-- Inflating gives back what was deflated, and stops where that ends. -/
theorem run_blocks_deflate (content rest : List UInt8) (output : Array UInt8) (fuel : Nat)
    (h : content.length < fuel) :
    (blocks fuel).run ⟨0, deflate content ++ rest, output⟩ =
      (.ok (), ⟨0, rest, output ++ content.toArray⟩) := by
  fun_induction deflate content generalizing output fuel with
  | case1 content hshort =>
    obtain ⟨fuel, rfl⟩ : ∃ k, fuel = k + 1 := ⟨fuel - 1, by omega⟩
    rw [run_blocks_succ _ _ _ _ hshort]
    rfl
  | case2 content hlong ih =>
    obtain ⟨fuel, rfl⟩ : ∃ k, fuel = k + 1 := ⟨fuel - 1, by omega⟩
    have hlimit : (content.take storedLimit).length ≤ storedLimit := List.length_take_le _ _
    -- what is left is shorter by a full block, so one unit of fuel less is enough for it
    have hfuel : (content.drop storedLimit).length < fuel := by
      rw [List.length_drop]
      simp only [storedLimit] at hlong ⊢
      omega
    rw [List.append_assoc, run_blocks_succ _ _ _ _ hlimit]
    simp only [Bool.false_eq_true, if_false]
    rw [ih _ _ hfuel, Array.append_assoc, List.append_toArray (content.take storedLimit),
      List.take_append_drop]

end Inflation

/-! ### Streams -/

theorem le_length_deflate (content : List UInt8) : content.length ≤ (deflate content).length := by
  fun_induction deflate content with
  | case1 content h =>
    simp only [storedBlock, List.length_cons]
    omega
  | case2 content h ih =>
    rw [List.length_drop] at ih
    simp only [storedBlock, List.length_append, List.length_cons, List.length_take]
    omega

theorem inflate_deflate (content rest : List UInt8) :
    inflate (deflate content ++ rest) = ⟨content, .ok rest⟩ := by
  have hfuel : content.length < 8 * (deflate content ++ rest).length + 1 := by
    have := le_length_deflate content
    rw [List.length_append]
    omega
  rw [inflate, Inflation.run_blocks_deflate content rest #[] _ hfuel]
  simp

theorem afterHeader?_plainHeader (rest : List UInt8) :
    afterHeader? (plainHeader ++ rest) = some rest :=
  rfl

/-- **Unpacking undoes packing.** -/
theorem unpack_pack (content : List UInt8) : unpack (pack content) = ⟨content, true⟩ := by
  have htrailer : (trailer content).take 8 = trailer content := rfl
  rw [pack, List.append_assoc, unpack, afterHeader?_plainHeader]
  simp only [inflate_deflate, htrailer, decide_true]

/-- The compressor that stores content as it is. -/
def stored : Compressor where
  body content := plainHeader ++ deflate content
  ending := trailer
  unpack_stream := unpack_pack

end SymbolicPaths.Gzip
