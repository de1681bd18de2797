import SymbolicPaths.Proofs.ValueText

/-!
# Values and the widths of their variables

A variable of so many bits occupies whole bytes, and a solved value is laid out in all of them.
Decoding looks at the width for one purpose only, to see whether the value fits; what it shows is a
function of the value (`decodeValue_eq`).

* `decodeValue_width_irrelevant`: at all widths at which it fits, a value has the same textual form.
  A long value is shown as the text of all bytes of its variable, and a wider variable has more
  zeros in front. These make no difference, whatever the bytes behind them are
  (`Text.ofBytes_layout`).
* `decodeValue_overflow_iff`: a value does not fit exactly if it needs more bytes than its variable
  occupies. As the width is rounded up to whole bytes, some values are let through that need more
  bits than the variable has (`decodeValue_one_bit`). At a width of whole bytes there are none.
-/

namespace SymbolicPaths

/-! ### The textual form of a value -/

/-- The textual form of a value, whatever its variable is: none for zero, hexadecimal for a short
value, and the text of its own bytes for a long one. -/
def valueText (value : Nat) : Option String :=
  if value = 0 then none
  else some (if (Nat.digits 16 value).length < 62 then hexText value
    else Text.ofBytes (bigEndian value))

/-- **Decoding, without the layout.** A value that fits its variable has its textual form, and any
other is too large. -/
theorem decodeValue_eq (name : String) (value : Nat) (bits : UInt32) :
    decodeValue name value bits =
      if value < 256 ^ bytesForBits bits then .ok (valueText value)
        else .error ⟨name, value, bits⟩ := by
  by_cases hfits : value < 256 ^ bytesForBits bits
  · rw [if_pos hfits, valueText]
    by_cases hvalue : value = 0
    · rw [decodeValue, if_pos hvalue, if_pos hvalue]
    · rw [decodeValue_of_fits name hvalue hfits, if_neg hvalue]
  · -- zero fits everywhere, so that the value is another one, and it has too many bytes
    have hvalue : value ≠ 0 := by
      rintro rfl
      exact hfits (Nat.pow_pos (by decide))
    have hbytes : bytesForBits bits < byteLength value := by
      rw [← Nat.not_le, byteLength_le_iff]
      exact hfits
    rw [if_neg hfits, decodeValue, if_neg hvalue, if_pos hbytes]

theorem isOk_decodeValue_iff {name : String} {value : Nat} {bits : UInt32} :
    (decodeValue name value bits).isOk = true ↔ value < 256 ^ bytesForBits bits := by
  rw [decodeValue_eq]
  split
  · next hfits => exact iff_of_true rfl hfits
  · next hfits => exact iff_of_false Bool.false_ne_true hfits

theorem decodeValue_eq_error_iff {name : String} {value : Nat} {bits : UInt32} {o : Overflow} :
    decodeValue name value bits = .error o ↔
    256 ^ bytesForBits bits ≤ value ∧ o = ⟨name, value, bits⟩ := by
  rw [decodeValue_eq, ← Nat.not_lt]
  split
  · next hfits =>
    refine iff_of_false ?_ fun h => h.1 hfits
    intro h
    cases h
  · next hfits => simp only [Except.error.injEq, hfits, not_false_eq_true, true_and, eq_comm]

/-! ### All widths at which a value fits -/

/-- A long value is shown as the text of all bytes of its variable. -/
theorem decodeValue_of_long {name : String} {value : Nat} {bits : UInt32}
    (hfits : value < 256 ^ bytesForBits bits) (hlong : 62 ≤ (Nat.digits 16 value).length) :
    decodeValue name value bits = .ok (some (Text.ofBytes (layout bits value))) := by
  have hvalue : value ≠ 0 := by
    rintro rfl
    simp at hlong
  rw [decodeValue_of_fits name hvalue hfits, if_neg (Nat.not_lt.mpr hlong),
    Text.ofBytes_layout hfits]

/-- **The textual form of a value does not depend on the width of its variable.** Decoding gives the
same result at any two widths at which the value is not too large. This holds although a value of at
least 62 hexadecimal digits is shown at each of the two widths as the text of all bytes of a
variable of that width, of which the wider one has more. -/
theorem decodeValue_width_irrelevant (name : String) (value : Nat) (bits bits' : UInt32)
    (hok : (decodeValue name value bits).isOk = true)
    (hok' : (decodeValue name value bits').isOk = true) :
    decodeValue name value bits = decodeValue name value bits' ∧
    (62 ≤ (Nat.digits 16 value).length →
      decodeValue name value bits = .ok (some (Text.ofBytes (layout bits value))) ∧
      decodeValue name value bits' = .ok (some (Text.ofBytes (layout bits' value)))) := by
  have hfits : value < 256 ^ bytesForBits bits := isOk_decodeValue_iff.mp hok
  have hfits' : value < 256 ^ bytesForBits bits' := isOk_decodeValue_iff.mp hok'
  constructor
  · -- past the check for fitting, the width is not looked at
    rw [decodeValue_eq, decodeValue_eq, if_pos hfits, if_pos hfits']
  · intro hlong
    exact ⟨decodeValue_of_long hfits hlong, decodeValue_of_long hfits' hlong⟩

/-- Bytes that are in part no text, with NULs and with blanks on both sides of the last NUL, in a
variable of just these bytes and in a much wider one, and blanks alone in variables that differ by
one bit. -/
theorem decodeValue_width_irrelevant_samples :
    let torn := 0xff2061c3e299a5206200c3b6f09f99822c20f09f746f726ec020656e642000201c
    let blank := 0x20202020202020202020202020202020202020202020202020202020202020
    decodeValue "stdin" torn 264 = .ok (some " a♥ bö🙂, torn end ") ∧
    decodeValue "stdin" torn 264 = decodeValue "stdin" torn 1003 ∧
    decodeValue "stdin" torn 1003 = .ok (some (Text.ofBytes (layout 1003 torn))) ∧
    decodeValue "stdin" blank 248 = .ok (some "") ∧
    decodeValue "stdin" blank 248 = decodeValue "stdin" blank 249 := by
  intro torn blank
  have hlong : 62 ≤ (Nat.digits 16 torn).length :=
    (Nat.lt_digits_length_iff (by decide) torn).mpr (by decide +kernel)
  obtain ⟨hsame, htext⟩ := decodeValue_width_irrelevant "stdin" torn 264 1003
    (isOk_decodeValue_iff.mpr (by decide)) (isOk_decodeValue_iff.mpr (by decide))
  obtain ⟨hblank, -⟩ := decodeValue_width_irrelevant "stdin" blank 248 249
    (isOk_decodeValue_iff.mpr (by decide)) (isOk_decodeValue_iff.mpr (by decide))
  exact ⟨by decide +kernel, hsame, (htext hlong).2, by decide +kernel, hblank⟩

/-! ### Values that do not fit -/

/-- So many bytes have eight times as many bits. -/
theorem pow_bytesForBits (bits : UInt32) :
    256 ^ bytesForBits bits = 2 ^ (8 * ((bits.toNat + 7) / 8)) := by
  rw [bytesForBits, Nat.pow_mul]

/-- **Overflow is a matter of bytes.** A value is reported as too large exactly if it does not fit
into the bits of its variable, rounded up to whole bytes. The report names the variable, its value
and its width. Nothing is reported that fits into the bits, and at a width of whole bytes everything
is reported that does not. -/
theorem decodeValue_overflow_iff (name : String) (value : Nat) (bits : UInt32) :
    ((∃ o, decodeValue name value bits = .error o) ↔ 2 ^ (8 * ((bits.toNat + 7) / 8)) ≤ value) ∧
    (∀ o, decodeValue name value bits = .error o → o = ⟨name, value, bits⟩ ∧
      2 ^ bits.toNat ≤ value) ∧
    (8 ∣ bits.toNat → ((∃ o, decodeValue name value bits = .error o) ↔
      2 ^ bits.toNat ≤ value)) := by
  have hbytes : (∃ o, decodeValue name value bits = .error o) ↔
      2 ^ (8 * ((bits.toNat + 7) / 8)) ≤ value := by
    simp only [decodeValue_eq_error_iff, pow_bytesForBits, exists_and_left, exists_eq, and_true]
  refine ⟨hbytes, ?_, ?_⟩
  · -- rounding up only lets more values through
    intro o ho
    have hround : bits.toNat ≤ 8 * ((bits.toNat + 7) / 8) := by omega
    refine ⟨(decodeValue_eq_error_iff.mp ho).2, ?_⟩
    calc 2 ^ bits.toNat ≤ 2 ^ (8 * ((bits.toNat + 7) / 8)) :=
          Nat.pow_le_pow_right (by decide) hround
      _ ≤ value := hbytes.mp ⟨o, ho⟩
  · intro hwhole
    have hround : 8 * ((bits.toNat + 7) / 8) = bits.toNat := by omega
    rw [hbytes, hround]

/-- The least value that is too large for 33 bits, which occupy five bytes, the one below it, and a
value of nine bits for a single byte. -/
theorem decodeValue_overflow_iff_samples :
    decodeValue "len" (2 ^ 40) 33 = .error ⟨"len", 2 ^ 40, 33⟩ ∧
    (¬ ∃ o, decodeValue "len" (2 ^ 40 - 1) 33 = .error o) ∧
    ∃ o, decodeValue "flag" 0x1ff 8 = .error o := by
  refine ⟨?_, ?_, ?_⟩
  · have hlarge := decodeValue_overflow_iff "len" (2 ^ 40) 33
    obtain ⟨o, ho⟩ := hlarge.1.mpr (by decide)
    rw [ho, (hlarge.2.1 o ho).1]
  · rw [(decodeValue_overflow_iff "len" (2 ^ 40 - 1) 33).1]
    decide
  · exact ((decodeValue_overflow_iff "flag" 0x1ff 8).2.2 (by decide)).mpr (by decide)

/-- Two needs two bits, and a variable of one bit lets it through, for it occupies a byte. -/
theorem decodeValue_one_bit :
    decodeValue "flag" 2 1 = .ok (some "0x2") ∧
    ¬ ((∃ o, decodeValue "flag" 2 1 = .error o) ↔ 2 ^ (1 : UInt32).toNat ≤ 2) := by
  have htwo : decodeValue "flag" 2 1 = .ok (some "0x2") := by decide
  refine ⟨htwo, fun hiff => ?_⟩
  obtain ⟨o, ho⟩ := hiff.mpr (by decide)
  rw [htwo] at ho
  cases ho

end SymbolicPaths
