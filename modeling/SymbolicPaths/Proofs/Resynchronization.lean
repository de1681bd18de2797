import Mathlib.Data.List.Chain
import Mathlib.Data.List.TakeWhile
import SymbolicPaths.Proofs.TextBytes

/-!
# The lossy reader after ill-formed bytes

A damaged text is a sequence of pieces: whole characters, bytes that begin no character, and
characters of which the last bytes are missing. The lossy reader finds all whole characters in it
and nothing else (`ofBytes_pieces`).

Between two bytes the reader has at most one unfinished character. Whatever it has read, that
character waits for a continuation, a byte from 0x80 to 0xBF (`waits_unfinishedAfter`). A byte that
is none is therefore looked at as if nothing were unfinished (`decodeFrom_eq_decodeFrom_none`), and
the first byte of a character is never one (`beginsNothing_iff`). A character of which bytes are
missing is not made up either: the first byte fixes how many have to follow (`decodeFrom_eq_nil`).
-/

namespace SymbolicPaths.Text

/-! ### What is unfinished -/

/-- A byte that can only be a later byte of a character. -/
def IsContinuation (b : UInt8) : Prop :=
  0x80 ≤ b ∧ b ≤ 0xBF

/-- The character that is unfinished after some bytes. -/
def unfinishedAfter (u : Option Unfinished) (bytes : List UInt8) : Option Unfinished :=
  bytes.foldl (fun u b => (takeByte u b).2) u

theorem decodeFrom_append (u : Option Unfinished) (bytes more : List UInt8) :
    decodeFrom u (bytes ++ more) =
      decodeFrom u bytes ++ decodeFrom (unfinishedAfter u bytes) more := by
  induction bytes generalizing u with
  | nil => rfl
  | cons b rest ih =>
    rw [List.cons_append, decodeFrom_cons, decodeFrom_cons, ih, List.append_assoc]
    rfl

/-- What is unfinished goes on with a continuation only. -/
def Waits (u : Option Unfinished) : Prop :=
  ∀ v ∈ u, 0x80 ≤ v.low ∧ v.high ≤ 0xBF

theorem waits_none : Waits none := by
  intro v hv
  cases hv

theorem waits_leadByte (b : UInt8) : Waits (leadByte b) := by
  intro v hv
  simp only [leadByte] at hv
  -- each range of lead bytes has a range of second bytes of its own
  repeat' split at hv
  all_goals cases hv
  all_goals
    dsimp only
    decide

/-- One byte leaves the reader with nothing that goes on otherwise. -/
theorem waits_takeByte (u : Option Unfinished) (b : UInt8) : Waits (takeByte u b).2 := by
  have hfirst : Waits (takeFirst b).2 := by
    unfold takeFirst
    split
    · exact waits_none
    · exact waits_leadByte b
  cases u with
  | none => exact hfirst
  | some u =>
    simp only [takeByte]
    split
    · split
      · exact waits_none
      · rintro v ⟨⟩
        exact ⟨UInt8.le_refl _, UInt8.le_refl _⟩
    · exact hfirst

theorem waits_unfinishedAfter {u : Option Unfinished} (h : Waits u) (bytes : List UInt8) :
    Waits (unfinishedAfter u bytes) := by
  induction bytes generalizing u with
  | nil => exact h
  | cons b rest ih => exact ih (waits_takeByte u b)

theorem takeByte_eq_takeFirst {u : Option Unfinished} (hu : Waits u) {b : UInt8}
    (hb : ¬ IsContinuation b) : takeByte u b = takeFirst b := by
  cases u with
  | none => rfl
  | some v =>
    obtain ⟨hlow, hhigh⟩ := hu v rfl
    exact if_neg fun h => hb ⟨UInt8.le_trans hlow h.1, UInt8.le_trans h.2 hhigh⟩

/-- A byte that is no continuation is looked at as if nothing were unfinished. -/
theorem decodeFrom_eq_decodeFrom_none {u : Option Unfinished} (hu : Waits u) {bytes : List UInt8}
    (h : ∀ b ∈ bytes.head?, ¬ IsContinuation b) : decodeFrom u bytes = decodeFrom none bytes := by
  cases bytes with
  | nil => rfl
  | cons b rest =>
    rw [decodeFrom_cons, decodeFrom_cons, takeByte_eq_takeFirst hu (h b rfl)]
    rfl

/-! ### The bytes of a character -/

theorem forall_byte {P : UInt8 → Prop} (h : ∀ n < 256, P (.ofNat n)) (b : UInt8) : P b := by
  have hb := h b.toNat b.toNat_lt
  rwa [UInt8.ofNat_toNat] at hb

theorem ofNat_range {n : Nat} (h : n < 0x80 ∨ 0xC1 < n ∧ n < 0xF5) :
    ¬ (0x80 ≤ UInt8.ofNat n ∧ UInt8.ofNat n ≤ 0xC1 ∨ 0xF5 ≤ UInt8.ofNat n) := by
  have hn : n % 2 ^ 8 = n := Nat.mod_eq_of_lt (by omega)
  simp only [UInt8.le_iff_toNat_le, UInt8.toNat_ofNat', hn]
  simp
  omega

theorem isContinuation_ofNat {n : Nat} (h : n < 0x40) : IsContinuation (.ofNat (n + 0x80)) := by
  have hn : (n + 0x80) % 2 ^ 8 = n + 0x80 := Nat.mod_eq_of_lt (by omega)
  simp only [IsContinuation, UInt8.le_iff_toNat_le, UInt8.toNat_ofNat', hn]
  simp
  omega

/-- The bytes of a character: the first of them lies outside of two ranges and fixes how many
follow, and what follows are continuations. -/
theorem utf8EncodeChar_eq_cons (c : Char) : ∃ b rest, String.utf8EncodeChar c = b :: rest ∧
    ¬ (0x80 ≤ b ∧ b ≤ 0xC1 ∨ 0xF5 ≤ b) ∧ (∀ b' ∈ rest, IsContinuation b') ∧
    (rest = [] ∨ ∃ u, takeFirst b = (none, some u) ∧ rest.length = u.more + 1) := by
  have hvalid : c.val.toNat < 0x110000 := by
    have := c.valid
    simp only [UInt32.isValidChar, Nat.isValidChar] at this
    omega
  rw [String.utf8EncodeChar.eq_def]
  generalize c.val.toNat = v at hvalid
  dsimp only
  by_cases h1 : v ≤ 0x7f
  · rw [if_pos h1]
    exact ⟨_, [], rfl, ofNat_range (by omega), by simp, .inl rfl⟩
  by_cases h2 : v ≤ 0x7ff
  · rw [if_neg h1, if_pos h2]
    refine ⟨_, _, rfl, ofNat_range (by omega), ?_,
      .inr ⟨_, takeFirst_two _ (by omega) (by omega), rfl⟩⟩
    simp only [List.forall_mem_cons]
    exact ⟨isContinuation_ofNat (by omega), by simp⟩
  by_cases h3 : v ≤ 0xffff
  · rw [if_neg h1, if_neg h2, if_pos h3]
    refine ⟨_, _, rfl, ofNat_range (by omega), ?_, .inr ⟨_, takeFirst_three _ (by omega), rfl⟩⟩
    simp only [List.forall_mem_cons]
    exact ⟨isContinuation_ofNat (by omega), isContinuation_ofNat (by omega), by simp⟩
  · rw [if_neg h1, if_neg h2, if_neg h3]
    refine ⟨_, _, rfl, ofNat_range (by omega), ?_, .inr ⟨_, takeFirst_four _ (by omega), rfl⟩⟩
    simp only [List.forall_mem_cons]
    exact ⟨isContinuation_ofNat (by omega), isContinuation_ofNat (by omega),
      isContinuation_ofNat (by omega), by simp⟩

/-- A byte that begins no character. -/
def BeginsNothing (b : UInt8) : Prop :=
  ∀ c, (String.utf8EncodeChar c).head? ≠ some b

/-- The least code of a character that begins with a given byte. -/
def leastCode (b : Nat) : Nat :=
  if b < 0x80 then b
  else if b < 0xE0 then (b - 0xC0) * 64
  else if b = 0xE0 then 0x800
  else if b < 0xF0 then (b - 0xE0) * 4096
  else if b = 0xF0 then 0x10000
  else (b - 0xF0) * 262144

theorem beginsNothing_iff {b : UInt8} : BeginsNothing b ↔ 0x80 ≤ b ∧ b ≤ 0xC1 ∨ 0xF5 ≤ b := by
  constructor
  · intro h
    -- each byte outside of the two ranges begins a character, for instance the one with the least
    -- code
    have hleast : ∀ b : UInt8, ¬ (0x80 ≤ b ∧ b ≤ 0xC1 ∨ 0xF5 ≤ b) →
        (String.utf8EncodeChar (.ofNat (leastCode b.toNat))).head? = some b :=
      forall_byte (by decide +kernel)
    exact Decidable.not_not.mp fun hb => h _ (hleast b hb)
  · intro hb c hc
    obtain ⟨first, rest, hbytes, hfirst, -⟩ := utf8EncodeChar_eq_cons c
    rw [hbytes, List.head?_cons] at hc
    exact hfirst (Option.some.inj hc ▸ hb)

theorem takeFirst_of_beginsNothing {b : UInt8} (h : BeginsNothing b) :
    takeFirst b = (none, none) := by
  have hall : ∀ b : UInt8, 0x80 ≤ b ∧ b ≤ 0xC1 ∨ 0xF5 ≤ b → takeFirst b = (none, none) :=
    forall_byte (by decide +kernel)
  exact hall b (beginsNothing_iff.mp h)

theorem IsContinuation.beginsNothing {b : UInt8} (h : IsContinuation b) : BeginsNothing b :=
  beginsNothing_iff.mpr (.inl ⟨h.1, UInt8.le_trans h.2 (by decide)⟩)

/-! ### Characters of which bytes are missing -/

/-- Continuations where no character has begun are passed over. -/
theorem decodeFrom_none_eq_nil {bytes : List UInt8} (h : ∀ b ∈ bytes, IsContinuation b) :
    decodeFrom none bytes = [] := by
  induction bytes with
  | nil => rfl
  | cons b rest ih =>
    obtain ⟨hb, hrest⟩ := List.forall_mem_cons.mp h
    rw [decodeFrom_cons, takeByte, takeFirst_of_beginsNothing hb.beginsNothing]
    exact ih hrest

/-- Fewer continuations than a character needs do not make it up. -/
theorem decodeFrom_eq_nil {u : Unfinished} {bytes : List UInt8} (h : ∀ b ∈ bytes, IsContinuation b)
    (hlength : bytes.length ≤ u.more) : decodeFrom (some u) bytes = [] := by
  induction bytes generalizing u with
  | nil => rfl
  | cons b rest ih =>
    obtain ⟨hb, hrest⟩ := List.forall_mem_cons.mp h
    rw [List.length_cons] at hlength
    obtain ⟨more, hmore⟩ : ∃ k, u.more = k + 1 := ⟨u.more - 1, by omega⟩
    rw [decodeFrom_cons]
    by_cases hrange : u.low ≤ b ∧ b ≤ u.high
    · rw [takeByte, if_pos hrange, hmore]
      exact ih hrest (by dsimp only; omega)
    · -- the byte is out of range, and what is left has lost its beginning
      rw [takeByte, if_neg hrange, takeFirst_of_beginsNothing hb.beginsNothing]
      exact decodeFrom_none_eq_nil hrest

/-- Some of the bytes of a character, from the first one on, but not all of them. -/
def IsBroken (bytes : List UInt8) : Prop :=
  bytes ≠ [] ∧ ∃ c, bytes <+: String.utf8EncodeChar c ∧ bytes ≠ String.utf8EncodeChar c

/-- A broken character has its first byte, and fewer of the later ones than that byte asks for. -/
theorem IsBroken.eq_cons {bytes : List UInt8} (h : IsBroken bytes) :
    ∃ b begun u, bytes = b :: begun ∧ ¬ BeginsNothing b ∧ takeFirst b = (none, some u) ∧
      (∀ b' ∈ begun, IsContinuation b') ∧
    begun.length ≤ u.more := by
  obtain ⟨hne, c, ⟨missing, hmissing⟩, hproper⟩ := h
  obtain ⟨b, rest, hbytes, hb, hrest, hlength⟩ := utf8EncodeChar_eq_cons c
  obtain ⟨first, begun, rfl⟩ := List.exists_cons_of_ne_nil hne
  rw [hbytes, List.cons_append, List.cons.injEq] at hmissing
  obtain ⟨rfl, rfl⟩ := hmissing
  have hmissing : missing ≠ [] := by
    rintro rfl
    rw [List.append_nil] at hbytes
    exact hproper hbytes.symm
  have hpos := List.length_pos_of_ne_nil hmissing
  rcases hlength with hnil | ⟨u, hu, hlength⟩
  · exact absurd (List.append_eq_nil_iff.mp hnil).2 hmissing
  · rw [List.length_append] at hlength
    exact ⟨first, begun, u, rfl, fun hnot => hb (beginsNothing_iff.mp hnot), hu,
      fun b' hb' => hrest b' (List.mem_append_left _ hb'), by omega⟩

theorem decodeFrom_of_isBroken {bytes : List UInt8} (h : IsBroken bytes) :
    decodeFrom none bytes = [] := by
  obtain ⟨b, begun, u, rfl, -, hu, hbegun, hlength⟩ := h.eq_cons
  rw [decodeFrom_cons, takeByte, hu]
  exact decodeFrom_eq_nil hbegun hlength

/-! ### Damaged texts -/

/-- A piece of a damaged text. -/
inductive Piece where
  /-- A whole character. -/
  | whole (c : Char)
  /-- A byte that begins no character. -/
  | stray (b : UInt8) (h : BeginsNothing b)
  /-- The beginning of a character. -/
  | broken (bytes : List UInt8) (h : IsBroken bytes)

namespace Piece

def bytes : Piece → List UInt8
  | .whole c => String.utf8EncodeChar c
  | .stray b _ => [b]
  | .broken bytes _ => bytes

/-- What can be read of a piece. -/
def chars : Piece → List Char
  | .whole c => [c]
  | .stray _ _ | .broken _ _ => []

/-- Whether one piece may come right before another: the second one must not look as if it went on
with a broken character. -/
def MayPrecede : Piece → Piece → Prop
  | .broken _ _, next => ∀ b ∈ next.bytes.head?, ¬ IsContinuation b
  | _, _ => True

end Piece

/-- A character is read whatever comes before it. -/
theorem decodeFrom_whole {u : Option Unfinished} (hu : Waits u) (c : Char) (rest : List UInt8) :
    decodeFrom u (String.utf8EncodeChar c ++ rest) = c :: decodeFrom none rest := by
  rw [← decodeFrom_utf8EncodeChar]
  refine decodeFrom_eq_decodeFrom_none hu fun b hb hcontinuation => ?_
  obtain ⟨first, more, hbytes, -⟩ := utf8EncodeChar_eq_cons c
  refine hcontinuation.beginsNothing c ?_
  rw [hbytes] at hb ⊢
  exact hb

/-- A broken character is passed over whatever comes before it, and leaves itself unfinished. -/
theorem decodeFrom_broken {u : Option Unfinished} (hu : Waits u) {bytes : List UInt8}
    (h : IsBroken bytes) (rest : List UInt8) :
    decodeFrom u (bytes ++ rest) = decodeFrom (unfinishedAfter none bytes) rest := by
  have hfresh : decodeFrom u (bytes ++ rest) = decodeFrom none (bytes ++ rest) := by
    obtain ⟨first, begun, -, rfl, hfirst, -⟩ := h.eq_cons
    refine decodeFrom_eq_decodeFrom_none hu ?_
    rintro b ⟨⟩ hcontinuation
    exact hfirst hcontinuation.beginsNothing
  rw [hfresh, decodeFrom_append, decodeFrom_of_isBroken h, List.nil_append]

/-- The reader at the beginning of a piece, with a character unfinished only if the piece does not
look as if it went on with it. -/
theorem decodeFrom_pieces {ps : List Piece} (h : ps.IsChain Piece.MayPrecede)
    {u : Option Unfinished} (hu : Waits u)
    (hfirst : ∀ p ∈ ps.head?, u = none ∨ ∀ b ∈ p.bytes.head?, ¬ IsContinuation b) :
    decodeFrom u (ps.flatMap Piece.bytes) = ps.flatMap Piece.chars := by
  induction ps generalizing u with
  | nil => rfl
  | cons p rest ih =>
    obtain ⟨hnext, hrest⟩ := List.isChain_cons.mp h
    have hfirst := hfirst p rfl
    rw [List.flatMap_cons, List.flatMap_cons]
    cases p with
    | whole c =>
      -- nothing is unfinished after a whole character, so the next piece may begin with any byte
      rw [Piece.bytes, decodeFrom_whole hu, ih hrest waits_none fun _ _ => .inl rfl]
      rfl
    | stray b hb =>
      have htake : takeByte u b = (none, none) := by
        rw [← takeFirst_of_beginsNothing hb]
        rcases hfirst with rfl | hfirst
        · rfl
        · exact takeByte_eq_takeFirst hu (hfirst b rfl)
      rw [Piece.bytes, List.singleton_append, decodeFrom_cons, htake]
      exact ih hrest waits_none fun _ _ => .inl rfl
    | broken bytes hbytes =>
      -- the character stays unfinished, but the next piece does not look as if it went on with it
      rw [Piece.bytes, decodeFrom_broken hu hbytes]
      exact ih hrest (waits_unfinishedAfter waits_none bytes) fun p hp => .inr (hnext p hp)

/-- Trimming takes the blanks at the end away, and all of them. -/
theorem exists_eq_trimEnd_append (cs : List Char) : ∃ blanks, cs = trimEnd cs ++ blanks ∧
    (∀ c ∈ blanks, isBlank c = true) ∧ ∀ c ∈ (trimEnd cs).getLast?, isBlank c = false := by
  refine ⟨(cs.reverse.takeWhile isBlank).reverse, ?_, ?_, ?_⟩
  · rw [trimEnd, ← List.reverse_append, List.takeWhile_append_dropWhile, List.reverse_reverse]
  · intro c hc
    exact List.mem_takeWhile_imp (List.mem_reverse.mp hc)
  · intro c hc
    have hnot := List.head?_dropWhile_not isBlank cs.reverse
    rw [trimEnd, List.getLast?_reverse] at hc
    rw [hc] at hnot
    exact hnot

/-- **Ill-formed bytes cost nothing but themselves.** A damaged text is shown as its whole
characters in order, without the blanks at its end and without NULs. Wherever a whole character
stands among any bytes, it is read as such, and what stands before and after it is read as if it
stood alone. -/
theorem ofBytes_pieces {ps : List Piece} (h : ps.IsChain Piece.MayPrecede) :
    ofBytes (ps.flatMap Piece.bytes) =
      String.ofList ((trimEnd (ps.flatMap Piece.chars)).filter (· != '\x00')) ∧
    (∃ blanks, ps.flatMap Piece.chars = trimEnd (ps.flatMap Piece.chars) ++ blanks ∧
      (∀ c ∈ blanks, isBlank c = true) ∧
      ∀ c ∈ (trimEnd (ps.flatMap Piece.chars)).getLast?, isBlank c = false) ∧
    ∀ before c after, decodeLossy (before ++ String.utf8EncodeChar c ++ after) =
      decodeLossy before ++ c :: decodeLossy after := by
  refine ⟨?_, exists_eq_trimEnd_append _, ?_⟩
  · rw [ofBytes, decodeLossy, decodeFrom_pieces h waits_none fun _ _ => .inl rfl]
  · intro before c after
    rw [decodeLossy, List.append_assoc, decodeFrom_append,
      decodeFrom_whole (waits_unfinishedAfter waits_none before)]
    rfl

/-- A text with a broken character before a byte that begins nothing, continuations where no
character has begun, and a broken character at its end. -/
def Piece.damaged : List Piece :=
  [.whole 'a', .broken [0xE2, 0x82] ⟨by decide, '€', by decide, by decide⟩,
    .stray 0xC0 (beginsNothing_iff.mpr (by decide)), .whole '€',
    .stray 0x80 (beginsNothing_iff.mpr (by decide)),
    .stray 0xBF (beginsNothing_iff.mpr (by decide)),
    .broken [0xF0, 0x9F, 0x98] ⟨by decide, '😀', by decide, by decide⟩,
    .whole '\x00', .whole 'é', .whole '\x1c',
    .broken [0xED] ⟨by decide, '한', by decide, by decide⟩]

theorem ofBytes_damaged : Piece.damaged.IsChain Piece.MayPrecede ∧
    ofBytes (Piece.damaged.flatMap Piece.bytes) = "a€é" := by
  have hchain : Piece.damaged.IsChain Piece.MayPrecede := by
    simp [Piece.damaged, Piece.MayPrecede, Piece.bytes, IsContinuation, String.utf8EncodeChar]
  refine ⟨hchain, ?_⟩
  rw [(ofBytes_pieces hchain).1]
  decide

end SymbolicPaths.Text
