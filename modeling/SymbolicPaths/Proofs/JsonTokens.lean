import Mathlib.Data.List.TakeWhile
import SymbolicPaths.Json.Reader
import SymbolicPaths.Proofs.TextBytes

/-!
# What written strings and numbers stand for

A text is written byte by byte, and a byte in one of three ways (`escapeByte_cases`): as itself, as
a letter after a backslash, or by its code. All that is said about written texts, here and for the
lexer, goes by these three cases. What is written for a text stands for it (`text?_flatMap`).

A whole number is written in decimal digits. They begin with a zero only if nothing follows it
(`decimalDigits_eq_cons`), which is the one thing about digits that the grammar of numbers asks for
(`isNumber_int`). What is written for a number stands for it (`int?_int`).
-/

namespace SymbolicPaths.Json

/-! ### Strings -/

/-- How a byte of a text can be written: as itself, by a letter after a backslash, or by its
code. -/
theorem escapeByte_cases (b : UInt8) :
    (escapeByte b = [b] ∧ b ≠ 0x22 ∧ b ≠ 0x5c ∧ ¬ b < 0x20) ∨
    (∃ letter, escapeByte b = [0x5c, letter] ∧ letter ≠ 0x75 ∧ isEscapable letter = true ∧
      namedEscape letter = b) ∨
    (escapeByte b = [0x5c, 0x75, 0x30, 0x30, hexByte (b / 16), hexByte (b % 16)] ∧ b < 0x20) := by
  unfold escapeByte
  -- the seven bytes that have a letter
  by_cases hquote : b = 0x22
  · subst hquote
    exact .inr (.inl ⟨_, rfl, by decide, by decide, by decide⟩)
  by_cases hbackslash : b = 0x5c
  · subst hbackslash
    exact .inr (.inl ⟨_, rfl, by decide, by decide, by decide⟩)
  by_cases hback : b = 0x08
  · subst hback
    exact .inr (.inl ⟨_, rfl, by decide, by decide, by decide⟩)
  by_cases hfeed : b = 0x0c
  · subst hfeed
    exact .inr (.inl ⟨_, rfl, by decide, by decide, by decide⟩)
  by_cases hline : b = 0x0a
  · subst hline
    exact .inr (.inl ⟨_, rfl, by decide, by decide, by decide⟩)
  by_cases hreturn : b = 0x0d
  · subst hreturn
    exact .inr (.inl ⟨_, rfl, by decide, by decide, by decide⟩)
  by_cases htab : b = 0x09
  · subst htab
    exact .inr (.inl ⟨_, rfl, by decide, by decide, by decide⟩)
  rw [if_neg hquote, if_neg hbackslash, if_neg hback, if_neg hfeed, if_neg hline, if_neg hreturn,
    if_neg htab]
  by_cases hcontrol : b < 0x20
  · exact .inr (.inr ⟨if_pos hcontrol, hcontrol⟩)
  · exact .inl ⟨if_neg hcontrol, hquote, hbackslash, hcontrol⟩

/-- The bytes of a character below 128 are its code. -/
theorem encodeCode_of_lt {n : Nat} (h : n < 0x80) : encodeCode n = [.ofNat n] := by
  have hchar : (Char.ofNat n).val.toNat = n := by
    rw [Char.ofNat, dif_pos (.inl (by omega))]
    rfl
  rw [encodeCode, Text.toList_toUTF8]
  simp [String.utf8EncodeChar, hchar, show n ≤ 127 by omega]

theorem hexNumber_hexByte : ∀ n < 0x20,
    hexNumber 0x30 0x30 (hexByte (.ofNat n / 16)) (hexByte (.ofNat n % 16)) = n := by
  decide

theorem isHexDigit_hexByte : ∀ n < 0x20,
    isHexDigit (hexByte (.ofNat n / 16)) = true ∧ isHexDigit (hexByte (.ofNat n % 16)) = true := by
  decide

/-- What is written for a byte stands for that byte. -/
theorem unescape?_escapeByte (b : UInt8) (rest : List UInt8) :
    unescape? (escapeByte b ++ rest) = (unescape? rest).map (b :: ·) := by
  rcases escapeByte_cases b with ⟨h, -, hbackslash, -⟩ | ⟨letter, h, hcode, -, rfl⟩ | ⟨h, hb⟩
  · -- only a backslash begins an escape
    rw [h, List.singleton_append, unescape?]
    · intro a b c d rest' hb
      exact absurd hb hbackslash
    · intro a rest' hb
      exact absurd hb hbackslash
  · rw [h, List.cons_append, List.singleton_append, unescape?]
    intro a b c d rest' hletter
    exact absurd hletter hcode
  · have hlt : b.toNat < 0x20 := UInt8.lt_iff_toNat_lt.mp hb
    have hcode := hexNumber_hexByte b.toNat hlt
    rw [UInt8.ofNat_toNat] at hcode
    rw [h, unescape?.eq_def]
    change (if hexNumber _ _ _ _ < _ ∨ _ then _ else _) = _
    rw [hcode, if_pos (.inl (by omega)), encodeCode_of_lt (by omega), UInt8.ofNat_toNat]
    rfl

theorem unescape?_flatMap (bytes : List UInt8) :
    unescape? (bytes.flatMap escapeByte) = some bytes := by
  induction bytes with
  | nil => rfl
  | cons b rest ih =>
    rw [List.flatMap_cons, unescape?_escapeByte, ih]
    rfl

theorem text?_flatMap (s : String) : text? (s.toUTF8.toList.flatMap escapeByte) = some s := by
  rw [text?, unescape?_flatMap]
  exact Text.fromUTF8?_toUTF8 s

/-! ### Numbers -/

theorem digitByte : ∀ n < 10, n.digitChar.toNat.toUInt8 = 0x30 + UInt8.ofNat n ∧
    isDigit (0x30 + UInt8.ofNat n) = true ∧ (0x30 + UInt8.ofNat n).toNat - 0x30 = n := by
  decide

theorem decimalDigits_of_lt {n : Nat} (h : n < 10) : decimalDigits n = [0x30 + .ofNat n] := by
  rw [decimalDigits, Nat.toDigits_of_lt_base h, List.map_singleton, (digitByte n h).1]

theorem decimalDigits_of_le {n : Nat} (h : 10 ≤ n) :
    decimalDigits n = decimalDigits (n / 10) ++ [0x30 + .ofNat (n % 10)] := by
  rw [decimalDigits, Nat.toDigits_of_base_le (by decide) h, List.map_append, List.map_singleton,
    (digitByte (n % 10) (by omega)).1, decimalDigits]

theorem isDigit_of_mem_decimalDigits {n : Nat} : ∀ b ∈ decimalDigits n, isDigit b = true := by
  induction n using Nat.strongRecOn with
  | ind n ih =>
    by_cases h : n < 10
    · rw [decimalDigits_of_lt h]
      simpa using (digitByte n h).2.1
    · rw [decimalDigits_of_le (by omega), List.forall_mem_append]
      exact ⟨ih (n / 10) (by omega), by simpa using (digitByte (n % 10) (by omega)).2.1⟩

theorem decimalValue_append (digits : List UInt8) (b : UInt8) :
    decimalValue (digits ++ [b]) = decimalValue digits * 10 + (b.toNat - 0x30) := by
  rw [decimalValue, List.foldl_append]
  rfl

theorem decimalValue_decimalDigits (n : Nat) : decimalValue (decimalDigits n) = n := by
  induction n using Nat.strongRecOn with
  | ind n ih =>
    by_cases h : n < 10
    · rw [decimalDigits_of_lt h]
      change 0 * 10 + _ = n
      rw [(digitByte n h).2.2]
      omega
    · rw [decimalDigits_of_le (by omega), decimalValue_append, ih (n / 10) (by omega),
        (digitByte (n % 10) (by omega)).2.2]
      omega

/-- A number begins with a zero only if there is no other digit. -/
theorem decimalDigits_eq_cons (n : Nat) :
    ∃ b rest, decimalDigits n = b :: rest ∧ (b = 0x30 → rest = []) := by
  induction n using Nat.strongRecOn with
  | ind n ih =>
    by_cases h : n < 10
    · exact ⟨_, _, decimalDigits_of_lt h, fun _ => rfl⟩
    · obtain ⟨b, rest, hdigits, hzero⟩ := ih (n / 10) (by omega)
      refine ⟨b, rest ++ [0x30 + .ofNat (n % 10)], ?_, fun hb => ?_⟩
      · rw [decimalDigits_of_le (by omega), hdigits, List.cons_append]
      · -- the digits in front would be a single zero, and they stand for a tenth of the number
        have hvalue := decimalValue_decimalDigits (n / 10)
        rw [hdigits, hzero hb, hb] at hvalue
        have : n / 10 = 0 := hvalue.symm
        omega

theorem afterDigits?_of_all {digits : List UInt8} (hne : digits ≠ [])
    (h : ∀ b ∈ digits, isDigit b = true) : afterDigits? digits = some [] := by
  obtain ⟨b, rest, rfl⟩ := List.exists_cons_of_ne_nil hne
  obtain ⟨hb, hrest⟩ := List.forall_mem_cons.mp h
  rw [afterDigits?, if_pos hb, List.dropWhile_eq_nil_iff.mpr hrest]

theorem afterWhole?_decimalDigits (n : Nat) : afterWhole? (decimalDigits n) = some [] := by
  obtain ⟨b, rest, hdigits, hzero⟩ := decimalDigits_eq_cons n
  by_cases hb : b = 0x30
  · rw [hdigits, hzero hb, hb, afterWhole?]
  · have hall := isDigit_of_mem_decimalDigits (n := n)
    rw [hdigits] at hall ⊢
    rw [afterWhole?, afterDigits?_of_all (List.cons_ne_nil b rest) hall]
    intro rest' h
    exact hb (List.cons.inj h).1

theorem decimalDigits_ne_minus (n : Nat) (rest : List UInt8) : decimalDigits n ≠ 0x2d :: rest := by
  intro h
  have hdigit := isDigit_of_mem_decimalDigits (n := n) 0x2d (by rw [h]; exact List.mem_cons_self)
  exact absurd hdigit (by decide)

/-- What is written for a whole number is a number. -/
theorem isNumber_int {n : Int} {text : List UInt8} (h : Token.int n = .number text) :
    isNumber text = true := by
  cases n with
  | ofNat n =>
    obtain rfl := Token.number.inj h
    unfold isNumber
    split
    next rest heq => exact absurd heq (decimalDigits_ne_minus n rest)
    next => simp [afterWhole?_decimalDigits, afterFraction?, afterExponent?]
  | negSucc n =>
    obtain rfl := Token.number.inj h
    simp [isNumber, afterWhole?_decimalDigits, afterFraction?, afterExponent?]

/-- What is written for a whole number stands for it. -/
theorem int?_int {n : Int} {text : List UInt8} (h : Token.int n = .number text) :
    int? text = some n := by
  cases n with
  | ofNat n =>
    obtain rfl := Token.number.inj h
    have hall : (decimalDigits n).all isDigit = true :=
      List.all_eq_true.mpr isDigit_of_mem_decimalDigits
    -- digits do not begin with a sign
    unfold int?
    split
    next rest heq => exact absurd heq (decimalDigits_ne_minus n rest)
    next =>
      rw [if_pos hall, decimalValue_decimalDigits]
      rfl
  | negSucc n =>
    obtain rfl := Token.number.inj h
    have hall : (decimalDigits (n + 1)).all isDigit = true :=
      List.all_eq_true.mpr isDigit_of_mem_decimalDigits
    have hvalue := decimalValue_decimalDigits (n + 1)
    rw [int?, if_pos ⟨hall, by omega⟩, hvalue]
    rfl

theorem exists_int_eq (n : Int) : ∃ text, Token.int n = .number text := by
  cases n with
  | ofNat n => exact ⟨_, rfl⟩
  | negSucc n => exact ⟨_, rfl⟩

end SymbolicPaths.Json
