import SymbolicPaths.Text.Lossy

/-!
# The bytes of a text

A text is stored as the bytes of its characters (`toList_toUTF8`). Two readers undo this: the strict
one (`fromUTF8?_toUTF8`), which refuses anything that is no text, and the lossy one
(`decodeLossy_flatMap`), which passes over what is ill-formed and, as is shown here, over nothing
else.

The lossy reader is a machine on bytes, so the argument about it goes by the bytes of one character.
The first of them fixes how many follow and in which range the second one lies (`takeFirst_two`,
`takeFirst_three`, `takeFirst_four`). Each byte in its range adds six bits (`takeByte_of_range`).
-/

namespace SymbolicPaths.Text

/-! ### Bytes as a list -/

theorem loop_toList (bs : ByteArray) (i : Nat) (read : List UInt8) :
    ByteArray.toList.loop bs i read = read.reverse ++ bs.data.toList.drop i := by
  fun_induction ByteArray.toList.loop bs i read with
  | case1 i read h ih =>
    have hi : i < bs.data.toList.length := h
    rw [ih, List.drop_eq_getElem_cons hi, List.reverse_cons, List.append_assoc]
    congr 2
    simp [ByteArray.get!, getElem!_pos, h]
  | case2 i read h =>
    have hi : bs.data.toList.length ≤ i := Nat.le_of_not_lt h
    rw [List.drop_of_length_le hi, List.append_nil]

theorem toList_byteArray (bs : ByteArray) : bs.toList = bs.data.toList :=
  loop_toList bs 0 []

/-- The bytes of a text are those of its characters. -/
theorem toList_toUTF8 (s : String) : s.toUTF8.toList = s.toList.flatMap String.utf8EncodeChar := by
  rw [toList_byteArray, String.toUTF8_eq_toByteArray, ← String.utf8Encode_toList, List.utf8Encode,
    List.toList_data_toByteArray]

theorem fromUTF8?_toUTF8 (s : String) : String.fromUTF8? ⟨s.toUTF8.toList.toArray⟩ = some s := by
  have h : (⟨s.toUTF8.toList.toArray⟩ : ByteArray) = s.toByteArray := by
    rw [toList_byteArray, Array.toArray_toList, String.toUTF8_eq_toByteArray]
  rw [h, String.fromUTF8?, dif_pos s.isValidUTF8]
  rfl

/-! ### The lossy reader on one character -/

theorem takeFirst_one {n : Nat} (h : n < 0x80) :
    takeFirst (.ofNat n) = (some (Char.ofNat n), none) := by
  have hn : n % 2 ^ 8 = n := Nat.mod_eq_of_lt (by omega)
  have hlt : UInt8.ofNat n < 0x80 := by
    rw [UInt8.lt_iff_toNat_lt, UInt8.toNat_ofNat', hn]
    exact h
  rw [takeFirst, if_pos hlt, UInt8.toNat_ofNat', hn]

theorem takeFirst_two : ∀ n < 32, 2 ≤ n →
    takeFirst (.ofNat (n + 0xc0)) = (none, some ⟨n, 0x80, 0xBF, 0⟩) := by
  decide

-- after the least lead byte the code must not fit into two bytes, and after 0xED it must not be one
-- of the codes that are set aside for pairs
theorem takeFirst_three : ∀ n < 16, takeFirst (.ofNat (n + 0xe0)) =
    (none, some ⟨n, if n = 0 then 0xA0 else 0x80, if n = 13 then 0x9F else 0xBF, 1⟩) := by
  decide

theorem takeFirst_four : ∀ n < 5, takeFirst (.ofNat (n + 0xf0)) =
    (none, some ⟨n, if n = 0 then 0x90 else 0x80, if n = 4 then 0x8F else 0xBF, 2⟩) := by
  decide

/-- A byte in the range that may come next brings six more bits. -/
theorem takeByte_of_range {u : Unfinished} {n : Nat} (hn : n < 64) (hlow : u.low.toNat ≤ n + 0x80)
    (hhigh : n + 0x80 ≤ u.high.toNat) :
    (u.more = 0 → takeByte (some u) (.ofNat (n + 0x80)) =
      (some (Char.ofNat (u.code * 64 + n)), none)) ∧
    (∀ more, u.more = more + 1 → takeByte (some u) (.ofNat (n + 0x80)) =
      (none, some ⟨u.code * 64 + n, 0x80, 0xBF, more⟩)) := by
  have hbyte : (UInt8.ofNat (n + 0x80)).toNat = n + 0x80 := by
    rw [UInt8.toNat_ofNat']
    omega
  have hrange : u.low ≤ .ofNat (n + 0x80) ∧ .ofNat (n + 0x80) ≤ u.high := by
    rw [UInt8.le_iff_toNat_le, UInt8.le_iff_toNat_le, hbyte]
    exact ⟨hlow, hhigh⟩
  have hleast : (0x80 : UInt8) ≤ .ofNat (n + 0x80) := by
    rw [UInt8.le_iff_toNat_le, hbyte]
    exact Nat.le_add_left 0x80 n
  -- taking away the mark of a continuation leaves the six bits
  have hbits : (UInt8.ofNat (n + 0x80) - 0x80).toNat = n := by
    rw [UInt8.toNat_sub_of_le _ _ hleast, hbyte]
    exact Nat.add_sub_cancel n 0x80
  rw [takeByte, if_pos hrange, hbits]
  exact ⟨fun hmore => by rw [hmore], fun more hmore => by rw [hmore]⟩

theorem decodeFrom_cons (u : Option Unfinished) (b : UInt8) (rest : List UInt8) :
    decodeFrom u (b :: rest) = (takeByte u b).1.toList ++ decodeFrom (takeByte u b).2 rest :=
  rfl

theorem decodeFrom_last {u : Unfinished} {n : Nat} (rest : List UInt8) (hmore : u.more = 0)
    (hn : n < 64) (hlow : u.low.toNat ≤ n + 0x80) (hhigh : n + 0x80 ≤ u.high.toNat) :
    decodeFrom (some u) (.ofNat (n + 0x80) :: rest) =
      Char.ofNat (u.code * 64 + n) :: decodeFrom none rest := by
  rw [decodeFrom_cons, (takeByte_of_range hn hlow hhigh).1 hmore]
  rfl

theorem decodeFrom_more {u : Unfinished} {n more : Nat} (rest : List UInt8)
    (hmore : u.more = more + 1) (hn : n < 64) (hlow : u.low.toNat ≤ n + 0x80)
    (hhigh : n + 0x80 ≤ u.high.toNat) :
    decodeFrom (some u) (.ofNat (n + 0x80) :: rest) =
      decodeFrom (some ⟨u.code * 64 + n, 0x80, 0xBF, more⟩) rest := by
  rw [decodeFrom_cons, (takeByte_of_range hn hlow hhigh).2 more hmore]
  rfl

/-- The lossy reader reads a character off its bytes. -/
theorem decodeFrom_utf8EncodeChar (c : Char) (rest : List UInt8) :
    decodeFrom none (String.utf8EncodeChar c ++ rest) = c :: decodeFrom none rest := by
  have hchar : Char.ofNat c.val.toNat = c := Char.ofNat_toNat c
  have hvalid : c.val.toNat < 0xd800 ∨ 0xdfff < c.val.toNat ∧ c.val.toNat < 0x110000 := c.valid
  rw [String.utf8EncodeChar.eq_def]
  generalize c.val.toNat = v at hchar hvalid ⊢
  dsimp only
  by_cases h1 : v ≤ 0x7f
  · rw [if_pos h1, List.singleton_append, decodeFrom_cons, takeByte, takeFirst_one (by omega),
      hchar]
    rfl
  by_cases h2 : v ≤ 0x7ff
  · have hcode : v / 64 % 0x20 * 64 + v % 0x40 = v := by omega
    rw [if_neg h1, if_pos h2, List.cons_append, decodeFrom_cons, takeByte,
      takeFirst_two _ (by omega) (by omega), List.singleton_append]
    change decodeFrom (some _) _ = _
    rw [decodeFrom_last rest rfl (by omega) (by simp) (by simp; omega), hcode, hchar]
  by_cases h3 : v ≤ 0xffff
  · have hcode : (v / 4096 % 0x10 * 64 + v / 64 % 0x40) * 64 + v % 0x40 = v := by omega
    rw [if_neg h1, if_neg h2, if_pos h3, List.cons_append, decodeFrom_cons, takeByte,
      takeFirst_three _ (by omega), List.cons_append, List.singleton_append]
    change decodeFrom (some _) _ = _
    -- the narrower ranges of the second byte are where validity of the character comes in
    rw [decodeFrom_more _ rfl (by omega) (by dsimp only; split <;> simp; omega)
        (by dsimp only; split <;> simp <;> omega),
      decodeFrom_last rest rfl (by omega) (by simp) (by simp; omega), hcode, hchar]
  · have hcode : ((v / 262144 % 0x08 * 64 + v / 4096 % 0x40) * 64 + v / 64 % 0x40) * 64 +
        v % 0x40 = v := by
      omega
    rw [if_neg h1, if_neg h2, if_neg h3, List.cons_append, decodeFrom_cons, takeByte,
      takeFirst_four _ (by omega), List.cons_append, List.cons_append, List.singleton_append]
    change decodeFrom (some _) _ = _
    rw [decodeFrom_more _ rfl (by omega) (by dsimp only; split <;> simp; omega)
        (by dsimp only; split <;> simp <;> omega),
      decodeFrom_more _ rfl (by omega) (by simp) (by simp; omega),
      decodeFrom_last rest rfl (by omega) (by simp) (by simp; omega), hcode, hchar]

/-- The lossy reader loses nothing of a text. -/
theorem decodeLossy_flatMap (cs : List Char) :
    decodeLossy (cs.flatMap String.utf8EncodeChar) = cs := by
  induction cs with
  | nil => rfl
  | cons c rest ih =>
    rw [decodeLossy, List.flatMap_cons, decodeFrom_utf8EncodeChar]
    exact congrArg (c :: ·) ih

/-! ### Texts that are printed as they are -/

/-- The bytes of characters none of which is NUL. -/
def Readable (bytes : List UInt8) : Prop :=
  ∃ cs : List Char, bytes = cs.flatMap String.utf8EncodeChar ∧ '\x00' ∉ cs

theorem Readable.append {bytes more : List UInt8} (h : Readable bytes) (hmore : Readable more) :
    Readable (bytes ++ more) := by
  obtain ⟨cs, rfl, hcs⟩ := h
  obtain ⟨ds, rfl, hds⟩ := hmore
  exact ⟨cs ++ ds, by simp, by simp [hcs, hds]⟩

theorem readable_flatMap {α : Type} {as : List α} {f : α → List UInt8}
    (h : ∀ a ∈ as, Readable (f a)) : Readable (as.flatMap f) := by
  induction as with
  | nil => exact ⟨[], rfl, by simp⟩
  | cons a rest ih =>
    obtain ⟨ha, hrest⟩ := List.forall_mem_cons.mp h
    rw [List.flatMap_cons]
    exact ha.append (ih hrest)

/-- Whether a byte is a character by itself, other than NUL. -/
def isPlain (b : UInt8) : Bool :=
  b ≠ 0 && b < 0x80

theorem readable_of_isPlain {bytes : List UInt8} (h : ∀ b ∈ bytes, isPlain b = true) :
    Readable bytes := by
  have hone : ∀ b ∈ bytes, Readable [b] := by
    intro b hb
    obtain ⟨hzero, hlt⟩ : b ≠ 0 ∧ b.toNat < 0x80 := by
      simpa [isPlain, UInt8.lt_iff_toNat_lt] using h b hb
    -- below 128, a byte is the code of its character
    have hvalid : b.toNat.isValidChar := .inl (Nat.lt_trans hlt (by decide))
    have hnat : (Char.ofNat b.toNat).val.toNat = b.toNat := by
      rw [Char.ofNat, dif_pos hvalid]
      rfl
    refine ⟨[Char.ofNat b.toNat], ?_, ?_⟩
    · have hle : (Char.ofNat b.toNat).val.toNat ≤ 0x7f := by omega
      simp [String.utf8EncodeChar, hnat]
      omega
    · intro hmem
      rw [List.mem_singleton] at hmem
      apply hzero
      apply UInt8.toNat_inj.mp
      rw [← hnat, ← hmem]
      rfl
  simpa using readable_flatMap hone

/-- Each byte of a character that has several of them is above the plain ones. -/
theorem le_of_mem_utf8EncodeChar {c : Char} (h : 0x7f < c.val.toNat) :
    ∀ b ∈ String.utf8EncodeChar c, 0x80 ≤ b.toNat := by
  rw [String.utf8EncodeChar.eq_def]
  generalize c.val.toNat = v at h
  dsimp only
  rw [if_neg (Nat.not_le.mpr h)]
  intro b hb
  -- two, three or four bytes, each with a mark of at least 0x80
  split at hb
  · simp only [List.mem_cons, List.not_mem_nil, or_false] at hb
    rcases hb with rfl | rfl <;> simp <;> omega
  split at hb
  · simp only [List.mem_cons, List.not_mem_nil, or_false] at hb
    rcases hb with rfl | rfl | rfl <;> simp <;> omega
  · simp only [List.mem_cons, List.not_mem_nil, or_false] at hb
    rcases hb with rfl | rfl | rfl | rfl <;> simp <;> omega

/-- A text that does not end in a blank is trimmed to itself. -/
theorem trimEnd_eq_self {cs : List Char} (h : ∀ c ∈ cs.getLast?, isBlank c = false) :
    trimEnd cs = cs := by
  rcases List.eq_nil_or_concat cs with rfl | ⟨init, c, rfl⟩
  · rfl
  · have hc : isBlank c = false := h c (by simp)
    simp [trimEnd, hc]

/-- The bytes of a text without NULs that does not end in a blank are shown as that text. -/
theorem ofBytes_toUTF8 {s : String} (hnul : '\x00' ∉ s.toList)
    (hend : ∀ c ∈ s.toList.getLast?, isBlank c = false) : ofBytes s.toUTF8.toList = s := by
  have hkept : s.toList.filter (· != '\x00') = s.toList := by
    refine List.filter_eq_self.mpr fun c hc => ?_
    simpa using fun h : c = '\x00' => hnul (h ▸ hc)
  rw [toList_toUTF8, ofBytes, decodeLossy_flatMap, trimEnd_eq_self hend, hkept,
    String.ofList_toList]

/-- Nothing is lost of a text that ends in a bracket when it is printed. -/
theorem toUTF8_ofBytes {init : List UInt8} (h : Readable init) :
    (ofBytes (init ++ [0x7d])).toUTF8.toList = init ++ [0x7d] := by
  obtain ⟨cs, rfl, hcs⟩ := h
  have hbytes : (String.ofList (cs ++ ['}'])).toUTF8.toList =
      cs.flatMap String.utf8EncodeChar ++ [0x7d] := by
    rw [toList_toUTF8, String.toList_ofList, List.flatMap_append]
    rfl
  have hnul : '\x00' ∉ (String.ofList (cs ++ ['}'])).toList := by
    rw [String.toList_ofList]
    simp [hcs]
  -- the bracket is no blank, so no blanks before it are cut off
  have hend : ∀ c ∈ (String.ofList (cs ++ ['}'])).toList.getLast?, isBlank c = false := by
    intro c hc
    rw [String.toList_ofList, List.getLast?_concat] at hc
    obtain rfl : '}' = c := Option.some.inj hc
    decide
  rw [← hbytes, ofBytes_toUTF8 hnul hend]

end SymbolicPaths.Text
