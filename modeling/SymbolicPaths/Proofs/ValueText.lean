import Mathlib.Data.Nat.Digits.Lemmas
import SymbolicPaths.Object.Image
import SymbolicPaths.Proofs.TextBytes
import SymbolicPaths.Value

/-!
# Values can be read off their text

The text of a solved value tells the value wherever it keeps the information
(`decodeValue_invertible`). A short value is shown in hexadecimal, and its digits read back to it. A
long value is shown as the text that its bytes spell, and the text of the number that the bytes of a
text make up is that text, unless it has NULs or ends in a blank.

For the first part the digits are read by `readHex?`, which knows the sixteen digits in lower case
and nothing else. A number of at least sixteen has the digits of its sixteenth part and one more,
and the reader and the absence of leading zeros follow this recursion (`readHex?_toDigits`,
`head?_toDigits_ne`).

For the second part a number is laid out in some number of bytes, most significant first. The bytes
of a text are a layout of the number that they make up (`lowBytes_number`), and so are the bytes of
the value itself, which has no leading zero bytes. Layouts of one number differ in leading zeros
(`lowBytes_add`). These turn into NULs, which are no blanks, keep no blank behind them from being
trimmed, and are left out in the end (`Text.ofBytes_zeros`), so that all layouts of a number have
one text (`Text.ofBytes_lowBytes`).
-/

namespace SymbolicPaths

/-! ### Hexadecimal digits -/

/-- The hexadecimal digits in lower case, in the order of their values. -/
def hexAlphabet : List Char :=
  ['0', '1', '2', '3', '4', '5', '6', '7', '8', '9', 'a', 'b', 'c', 'd', 'e', 'f']

/-- The number that lower-case hexadecimal digits stand for. Whatever else is among them makes them
unreadable. -/
def readHex? (digits : List Char) : Option Nat :=
  digits.foldlM (fun n c => (hexAlphabet.idxOf? c).map (16 * n + ·)) 0

theorem readHex?_concat (digits : List Char) (c : Char) :
    readHex? (digits ++ [c]) =
      readHex? digits >>= fun n => (hexAlphabet.idxOf? c).map (16 * n + ·) := by
  simp [readHex?]

theorem idxOf?_digitChar : ∀ d < 16, hexAlphabet.idxOf? (Nat.digitChar d) = some d := by
  decide

/-- The digits of a number read back to it. -/
theorem readHex?_toDigits (n : Nat) : readHex? (Nat.toDigits 16 n) = some n := by
  induction n using Nat.strong_induction_on with
  | _ n ih =>
    rcases Nat.lt_or_ge n 16 with hn | hn
    · rw [Nat.toDigits_of_lt_base hn, ← List.nil_append [n.digitChar], readHex?_concat,
        idxOf?_digitChar n hn]
      simp [readHex?]
    · have hdigit : n % 16 < 16 := Nat.mod_lt n (by decide)
      rw [Nat.toDigits_of_base_le (by decide) hn, readHex?_concat, ih (n / 16) (by omega),
        idxOf?_digitChar _ hdigit]
      exact congrArg some (Nat.div_add_mod n 16)

/-- The digits of a number other than zero do not begin with a zero. -/
theorem head?_toDigits_ne {n : Nat} (hn : n ≠ 0) : (Nat.toDigits 16 n).head? ≠ some '0' := by
  have hdigit : ∀ d < 16, d ≠ 0 → [Nat.digitChar d].head? ≠ some '0' := by decide
  induction n using Nat.strong_induction_on with
  | _ n ih =>
    rcases Nat.lt_or_ge n 16 with hlt | hge
    · rw [Nat.toDigits_of_lt_base hlt]
      exact hdigit n hlt hn
    · rw [Nat.toDigits_of_base_le (by decide) hge,
        List.head?_append_of_ne_nil _ Nat.toDigits_ne_nil]
      exact ih (n / 16) (by omega) (by omega)

/-- How long the text of a number is depends on how many digits the number has. -/
theorem length_hexDigits_le_iff {n k : Nat} (hk : 0 < k) :
    (hexDigits n).length ≤ k ↔ (Nat.digits 16 n).length ≤ k := by
  rw [hexDigits, String.length_ofList, Nat.length_toDigits_le_iff (by decide) hk,
    Nat.digits_length_le_iff (by decide)]

/-! ### Layouts of a number -/

/-- So many bytes suffice for a number exactly if it is below that power of 256. -/
theorem byteLength_le_iff {n width : Nat} : byteLength n ≤ width ↔ n < 256 ^ width := by
  by_cases hn : n = 0
  · subst hn
    simp [byteLength]
  · have hpow : 256 ^ width = 2 ^ (8 * width) := by rw [Nat.pow_mul]
    rw [byteLength, if_neg hn, hpow, ← Nat.log2_lt hn]
    omega

/-- A layout of zero is zeros. -/
theorem lowBytes_zero (width : Nat) (rest : List UInt8) :
    lowBytes width 0 rest = List.replicate width 0 ++ rest := by
  induction width generalizing rest with
  | zero => rfl
  | succ width ih =>
    rw [lowBytes, Nat.zero_div, ih, List.replicate_succ', List.append_assoc]
    rfl

/-- **Layouts differ in leading zeros.** More bytes than a number needs are zeros in front. -/
theorem lowBytes_add (more : Nat) {width n : Nat} (hn : n < 256 ^ width) (rest : List UInt8) :
    lowBytes (more + width) n rest = List.replicate more 0 ++ lowBytes width n rest := by
  induction width generalizing n rest with
  | zero =>
    obtain rfl : n = 0 := by simpa using hn
    exact lowBytes_zero more rest
  | succ width ih =>
    have hhigh : n / 256 < 256 ^ width := by
      rw [Nat.div_lt_iff_lt_mul (by decide), ← Nat.pow_succ]
      exact hn
    exact ih hhigh _

theorem number_concat (init : List UInt8) (b : UInt8) :
    Endianness.big.number (init ++ [b]) = 256 * Endianness.big.number init + b.toNat := by
  simp [Endianness.number]

/-- **Bytes are a layout of the number that they make up.** -/
theorem lowBytes_number (bytes rest : List UInt8) :
    lowBytes bytes.length (Endianness.big.number bytes) rest = bytes ++ rest := by
  -- the last byte is the lowest one, and a layout begins with it
  induction bytes using List.reverseRecOn generalizing rest with
  | nil => rfl
  | append_singleton init b ih =>
    have hb : b.toNat < 256 := b.toNat_lt
    have hhigh : (256 * Endianness.big.number init + b.toNat) / 256 =
        Endianness.big.number init := by omega
    have hlow : UInt8.ofNat (256 * Endianness.big.number init + b.toNat) = b := by
      rw [← UInt8.toNat_inj, UInt8.toNat_ofNat']
      omega
    rw [List.length_append, List.length_singleton, lowBytes, number_concat, hhigh, hlow, ih,
      List.append_assoc]
    rfl

theorem number_lt (bytes : List UInt8) : Endianness.big.number bytes < 256 ^ bytes.length := by
  induction bytes using List.reverseRecOn with
  | nil => decide
  | append_singleton init b ih =>
    have hb : b.toNat < 256 := b.toNat_lt
    rw [number_concat, List.length_append, List.length_singleton, Nat.pow_succ]
    omega

/-! ### The text of a layout -/

namespace Text

/-- A character in front that is no blank stays in front. -/
theorem trimEnd_cons {c : Char} (hc : isBlank c = false) (cs : List Char) :
    trimEnd (c :: cs) = c :: trimEnd cs := by
  unfold trimEnd
  rw [List.reverse_cons, List.dropWhile_append]
  split
  · next hall =>
    -- everything behind it is blank
    rw [List.isEmpty_iff.mp hall]
    simp [hc]
  · simp

/-- Leading zero bytes make no difference to a text. -/
theorem ofBytes_zeros (k : Nat) (bytes : List UInt8) :
    ofBytes (List.replicate k 0 ++ bytes) = ofBytes bytes := by
  induction k with
  | zero => rfl
  | succ k ih =>
    have hzero : ∀ bytes, decodeLossy (0 :: bytes) = '\x00' :: decodeLossy bytes := fun bytes => rfl
    rw [← ih, List.replicate_succ, List.cons_append]
    unfold ofBytes
    rw [hzero, trimEnd_cons (by decide), List.filter_cons_of_neg (by decide)]

/-- **All layouts of a number have the same text.** -/
theorem ofBytes_lowBytes {n width : Nat} (hn : n < 256 ^ width) :
    ofBytes (lowBytes width n []) = ofBytes (bigEndian n) := by
  have hwidth : byteLength n ≤ width := byteLength_le_iff.mpr hn
  have hown : n < 256 ^ byteLength n := byteLength_le_iff.mp le_rfl
  obtain ⟨more, rfl⟩ : ∃ more, width = more + byteLength n := ⟨width - byteLength n, by omega⟩
  rw [lowBytes_add more hown, ofBytes_zeros, bigEndian]

theorem length_toUTF8 (s : String) : s.toUTF8.toList.length = s.utf8ByteSize := by
  rw [toList_byteArray]
  rfl

end Text

/-! ### Decoding values -/

/-- The text of a variable depends on its value alone, provided that the value fits: zero bytes in
front of it turn into NULs, which text leaves out. -/
theorem Text.ofBytes_layout {bits : UInt32} {value : Nat}
    (hfits : value < 256 ^ bytesForBits bits) :
    ofBytes (layout bits value) = ofBytes (bigEndian value) :=
  ofBytes_lowBytes hfits

/-- A value that is not zero and fits is shown in hexadecimal if it is short, and as the text of its
bytes otherwise. -/
theorem decodeValue_of_fits (name : String) {value : Nat} {bits : UInt32} (hvalue : value ≠ 0)
    (hfits : value < 256 ^ bytesForBits bits) :
    decodeValue name value bits =
      .ok (some (if (Nat.digits 16 value).length < 62 then hexText value
        else Text.ofBytes (bigEndian value))) := by
  have hbytes : ¬ bytesForBits bits < byteLength value :=
    Nat.not_lt.mpr (byteLength_le_iff.mpr hfits)
  have hlength : (hexDigits value).length < textThreshold ↔ (Nat.digits 16 value).length < 62 := by
    rw [textThreshold, Nat.lt_succ_iff, Nat.lt_succ_iff, length_hexDigits_le_iff (by decide)]
  rw [decodeValue, if_neg hvalue, if_neg hbytes, Text.ofBytes_layout hfits]
  simp only [hlength]
  split <;> rfl

/-- **Values can be read off their text.** A value that is not zero, fits its width and has fewer
than 62 hexadecimal digits is shown as `0x` and lower-case digits without a leading zero which read
back to the value. For a text that has no NUL and does not end in a blank, if the big-endian number
made up of its bytes has at least 62 hexadecimal digits, then decoding this number, at any width
that has room for the bytes, gives the text. -/
theorem decodeValue_invertible (name : String) (bits : UInt32) :
    (∀ value : Nat, value ≠ 0 → value < 2 ^ bits.toNat → (Nat.digits 16 value).length < 62 →
      ∃ digits : String, decodeValue name value bits = .ok (some ("0x" ++ digits)) ∧
        digits.toList.head? ≠ some '0' ∧ readHex? digits.toList = some value) ∧
    (∀ s : String, '\x00' ∉ s.toList → (∀ c ∈ s.toList.getLast?, Text.isBlank c = false) →
      62 ≤ (Nat.digits 16 (Endianness.big.number s.toUTF8.toList)).length →
      8 * s.utf8ByteSize ≤ bits.toNat →
      decodeValue name (Endianness.big.number s.toUTF8.toList) bits = .ok (some s)) := by
  have hbits : bits.toNat ≤ 8 * bytesForBits bits := by
    unfold bytesForBits
    omega
  constructor
  · intro value hvalue hfits hshort
    have hroom : value < 256 ^ bytesForBits bits := by
      calc value < 2 ^ bits.toNat := hfits
        _ ≤ 2 ^ (8 * bytesForBits bits) := Nat.pow_le_pow_right (by decide) hbits
        _ = 256 ^ bytesForBits bits := by rw [Nat.pow_mul]
    refine ⟨hexDigits value, ?_, ?_, ?_⟩
    · rw [decodeValue_of_fits name hvalue hroom, if_pos hshort, hexText]
    · rw [hexDigits, String.toList_ofList]
      exact head?_toDigits_ne hvalue
    · rw [hexDigits, String.toList_ofList]
      exact readHex?_toDigits value
  · intro s hnul hend hlong hwidth
    set bytes := s.toUTF8.toList with hbytes
    set n := Endianness.big.number bytes with hn
    have hvalue : n ≠ 0 := by
      intro hzero
      rw [hzero] at hlong
      simp at hlong
    have hlength : bytes.length ≤ bytesForBits bits := by
      rw [hbytes, Text.length_toUTF8]
      omega
    have hroom : n < 256 ^ bytesForBits bits :=
      lt_of_lt_of_le (number_lt bytes) (Nat.pow_le_pow_right (by decide) hlength)
    -- both the bytes of the text and those of the value are layouts of the number
    have htext : Text.ofBytes (bigEndian n) = s := by
      calc Text.ofBytes (bigEndian n)
          = Text.ofBytes (lowBytes bytes.length n []) :=
            (Text.ofBytes_lowBytes (number_lt bytes)).symm
        _ = Text.ofBytes bytes := by rw [hn, lowBytes_number, List.append_nil]
        _ = s := Text.ofBytes_toUTF8 hnul hend
    rw [decodeValue_of_fits name hvalue hroom, if_neg (by omega), htext]

/-- A number of eight digits at the width of just these, and a text of 31 bytes with characters of
one to four bytes at a width of twice as many. -/
theorem decodeValue_invertible_samples :
    let s := "  größer als 雪 und 🙂, ja"
    (∃ digits : String, decodeValue "x" 0xdeadbeef 32 = .ok (some ("0x" ++ digits)) ∧
      digits.toList.head? ≠ some '0' ∧ readHex? digits.toList = some 0xdeadbeef) ∧
    s.utf8ByteSize = 31 ∧
    decodeValue "stdin" (Endianness.big.number s.toUTF8.toList) 512 = .ok (some s) := by
  intro s
  have hlong : 16 ^ 61 ≤ Endianness.big.number s.toUTF8.toList := by decide +kernel
  have hlast : s.toList.getLast? = some 'a' := by decide +kernel
  refine ⟨?_, by decide +kernel, ?_⟩
  · refine (decodeValue_invertible "x" 32).1 0xdeadbeef (by decide) (by decide) ?_
    exact Nat.lt_succ_of_le ((Nat.digits_length_le_iff (by decide) _).mpr (by decide +kernel))
  · refine (decodeValue_invertible "stdin" 512).2 s (by decide +kernel) ?_ ?_ (by decide +kernel)
    · intro c hc
      rw [hlast] at hc
      obtain rfl : 'a' = c := Option.some.inj hc
      decide
    · by_contra hshort
      have hlt :=
        (Nat.digits_length_le_iff (by decide) _).mp (Nat.le_of_lt_succ (Nat.not_le.mp hshort))
      exact absurd hlt (Nat.not_lt.mpr hlong)

end SymbolicPaths
