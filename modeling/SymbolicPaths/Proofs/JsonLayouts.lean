import Mathlib.Data.List.Chain
import SymbolicPaths.Json.Layout
import SymbolicPaths.Proofs.JsonTokens

/-!
# Texts are taken apart into the tokens that were written

The lexer undoes both layouts (`lex_compact`, `lex_pretty`). They differ in their blanks only, so
the argument is about tokens with any blanks in front of each (`lex_spread`), and goes token by
token: after the text of a token the lexer stands between two tokens, unless the token is a number.
A number is over only when something comes that cannot be part of it (`Lexer.step_after`). Hence the
one condition on a sequence of tokens is that no number follows another one (`Legible`).
-/

namespace SymbolicPaths.Json

/-! ### Taking written tokens apart -/

/-- The tokens that writers make. -/
def Token.IsWritten : Token → Prop
  | .number text => ∃ n, Token.int n = .number text
  | .string raw => ∃ s, Token.text s = .string raw
  | .cut _ | .invalid => False
  | _ => True

/-- Whether a token is a number. Only the text of a number goes on until something else comes. -/
def Token.isNumeral : Token → Bool
  | .number _ => true
  | _ => false

namespace Lexer

/-- The lexer after a token: it is still in the token if that is a number. -/
def after (tokens : List Token) : Token → Lexer
  | .number text => ⟨tokens, .number text.reverse⟩
  | t => ⟨t :: tokens, .between⟩

theorem after_of_not_isNumeral {t : Token} (h : t.isNumeral = false) (tokens : List Token) :
    after tokens t = ⟨t :: tokens, .between⟩ := by
  cases t with
  | number text => cases h
  | _ => rfl

theorem foldl_step_blanks {blanks : List UInt8} (h : ∀ b ∈ blanks, isBlank b = true)
    (tokens : List Token) : blanks.foldl step ⟨tokens, .between⟩ = ⟨tokens, .between⟩ := by
  induction blanks with
  | nil => rfl
  | cons b rest ih =>
    obtain ⟨hb, hrest⟩ := List.forall_mem_cons.mp h
    have hstep : step ⟨tokens, .between⟩ b = ⟨tokens, .between⟩ := if_pos hb
    rw [List.foldl_cons, hstep, ih hrest]

theorem foldl_step_escapeByte (b : UInt8) (tokens : List Token) (read : List UInt8) :
    (escapeByte b).foldl step ⟨tokens, .string read⟩ =
      ⟨tokens, .string ((escapeByte b).reverse ++ read)⟩ := by
  rcases escapeByte_cases b with
    ⟨h, hquote, hbackslash, hcontrol⟩ | ⟨letter, h, hcode, hescape, -⟩ | ⟨h, hb⟩
  · simp [h, step, hquote, hbackslash, hcontrol]
  · simp [h, step, hcode, hescape]
  · have hhex := isHexDigit_hexByte b.toNat (UInt8.lt_iff_toNat_lt.mp hb)
    rw [UInt8.ofNat_toNat] at hhex
    have hzero : isHexDigit 0x30 = true := by decide
    simp [h, step, hhex.1, hhex.2, hzero]

theorem foldl_step_flatMap (bytes : List UInt8) (tokens : List Token) (read : List UInt8) :
    (bytes.flatMap escapeByte).foldl step ⟨tokens, .string read⟩ =
      ⟨tokens, .string ((bytes.flatMap escapeByte).reverse ++ read)⟩ := by
  induction bytes generalizing read with
  | nil => rfl
  | cons b rest ih =>
    rw [List.flatMap_cons, List.foldl_append, foldl_step_escapeByte, ih, List.reverse_append,
      List.append_assoc]

theorem foldl_step_numberBytes {text : List UInt8} (h : ∀ b ∈ text, isNumberByte b = true)
    (tokens : List Token) (read : List UInt8) :
    text.foldl step ⟨tokens, .number read⟩ = ⟨tokens, .number (text.reverse ++ read)⟩ := by
  induction text generalizing read with
  | nil => rfl
  | cons b rest ih =>
    obtain ⟨hb, hrest⟩ := List.forall_mem_cons.mp h
    have hstep : step ⟨tokens, .number read⟩ b = ⟨tokens, .number (b :: read)⟩ := if_pos hb
    rw [List.foldl_cons, hstep, ih hrest, List.reverse_cons, List.append_assoc]
    rfl

/-- A written number begins with a digit or a minus sign, and goes on with digits. -/
theorem int_eq_cons {n : Int} {text : List UInt8} (h : Token.int n = .number text) :
    ∃ b rest, text = b :: rest ∧ (b = 0x2d ∨ isDigit b = true) ∧ ∀ b ∈ rest, isDigit b = true := by
  cases n with
  | ofNat n =>
    obtain rfl := Token.number.inj h
    obtain ⟨b, rest, hdigits, -⟩ := decimalDigits_eq_cons n
    have hall := isDigit_of_mem_decimalDigits (n := n)
    rw [hdigits, List.forall_mem_cons] at hall
    exact ⟨b, rest, hdigits, .inr hall.1, hall.2⟩
  | negSucc n =>
    obtain rfl := Token.number.inj h
    exact ⟨0x2d, _, rfl, .inl rfl, isDigit_of_mem_decimalDigits⟩

theorem begin_number (l : Lexer) {b : UInt8} (h : b = 0x2d ∨ isDigit b = true) :
    l.begin b = { l with place := .number [b] } := by
  -- everything else that a token can begin with lies outside of this range
  have hrange : 0x2d ≤ b.toNat ∧ b.toNat ≤ 0x39 := by
    rcases h with rfl | h
    · decide
    · simp only [isDigit, Bool.and_eq_true, decide_eq_true_eq, UInt8.le_iff_toNat_le] at h
      exact ⟨Nat.le_trans (by decide) h.1, h.2⟩
  have hne {x : UInt8} (hx : x.toNat < 0x2d ∨ 0x39 < x.toNat) : b ≠ x := by
    rintro rfl
    omega
  have hblank : ¬ isBlank b = true := by
    simp [isBlank, hne (x := 0x20) (by decide), hne (x := 0x09) (by decide),
      hne (x := 0x0a) (by decide), hne (x := 0x0d) (by decide)]
  rw [begin, if_neg hblank, if_neg (hne (by decide)), if_neg (hne (by decide)),
    if_neg (hne (by decide)), if_neg (hne (by decide)), if_neg (hne (by decide)),
    if_neg (hne (by decide)), if_neg (hne (by decide)), if_neg (hne (by decide)),
    if_neg (hne (by decide)), if_neg (hne (by decide)), if_pos (by simpa using h)]

theorem foldl_step_number {n : Int} {text : List UInt8} (h : Token.int n = .number text)
    (tokens : List Token) :
    text.foldl step ⟨tokens, .between⟩ = ⟨tokens, .number text.reverse⟩ := by
  obtain ⟨b, rest, rfl, hfirst, hrest⟩ := int_eq_cons h
  have hbytes : ∀ b ∈ rest, isNumberByte b = true := by
    intro b hb
    simp [isNumberByte, hrest b hb]
  rw [List.foldl_cons]
  change rest.foldl step (begin ⟨tokens, .between⟩ b) = _
  rw [begin_number _ hfirst, foldl_step_numberBytes hbytes, List.reverse_cons]

/-- The text of a written token is read as that token. -/
theorem foldl_step_bytes {t : Token} (ht : t.IsWritten) (tokens : List Token) :
    t.bytes.foldl step ⟨tokens, .between⟩ = after tokens t := by
  cases t with
  | number text =>
    obtain ⟨n, hn⟩ := ht
    exact foldl_step_number hn tokens
  | string raw =>
    obtain ⟨s, hs⟩ := ht
    obtain rfl := Token.string.inj hs
    rw [Token.bytes, List.foldl_cons, List.foldl_append]
    change [0x22].foldl step (List.foldl step ⟨tokens, .string []⟩ _) = _
    rw [foldl_step_flatMap]
    simp [step, emit, after]
  | bool value => cases value <;> rfl
  | cut read => exact ht.elim
  | invalid => exact ht.elim
  | _ => rfl

theorem not_isNumberByte_of_isBlank {b : UInt8} (h : isBlank b = true) :
    isNumberByte b = false := by
  simp only [isBlank, Bool.or_eq_true, decide_eq_true_eq] at h
  obtain ((rfl | rfl) | rfl) | rfl := h <;> decide

/-- A token that is no number does not begin like the rest of one. -/
theorem head?_bytes {t : Token} (ht : t.IsWritten) (hnumeral : t.isNumeral = false) :
    ∃ b rest, t.bytes = b :: rest ∧ isNumberByte b = false := by
  cases t with
  | number text => cases hnumeral
  | bool value => cases value <;> exact ⟨_, _, rfl, by decide⟩
  | cut read => exact ht.elim
  | invalid => exact ht.elim
  | _ => exact ⟨_, _, rfl, by decide⟩

/-- A number ends where something comes that cannot be part of it. -/
theorem step_after {t : Token} (ht : t.IsWritten) (tokens : List Token) {b : UInt8}
    (hb : isNumberByte b = false) : (after tokens t).step b = step ⟨t :: tokens, .between⟩ b := by
  cases t with
  | number text =>
    obtain ⟨n, hn⟩ := ht
    change (if isNumberByte b then _ else if isNumber text.reverse.reverse then _ else _) = _
    rw [if_neg (by simp [hb]), List.reverse_reverse, if_pos (isNumber_int hn)]
    rfl
  | _ => rfl

end Lexer

/-! ### Layouts -/

/-- The text of tokens with blanks in front of each. -/
def spread (spaced : List (List UInt8 × Token)) : List UInt8 :=
  spaced.flatMap fun s => s.1 ++ s.2.bytes

/-- Tokens that can be told apart when they are written one after the other: no number follows
another one. -/
structure Legible (tokens : List Token) : Prop where
  isWritten : ∀ t ∈ tokens, t.IsWritten
  apart : tokens.IsChain fun s t => s.isNumeral = true → t.isNumeral = false

namespace Lexer

/-- Blanks and a token after another token. -/
theorem foldl_after {s t : Token} {blanks : List UInt8} (hs : s.IsWritten) (ht : t.IsWritten)
    (hapart : s.isNumeral = true → t.isNumeral = false) (hblanks : ∀ b ∈ blanks, isBlank b = true)
    (tokens : List Token) :
    (blanks ++ t.bytes).foldl step (after tokens s) = after (s :: tokens) t := by
  have hbetween : (blanks ++ t.bytes).foldl step ⟨s :: tokens, .between⟩ =
      after (s :: tokens) t := by
    rw [List.foldl_append, foldl_step_blanks hblanks, foldl_step_bytes ht]
  cases hnumeral : s.isNumeral with
  | false => rw [after_of_not_isNumeral hnumeral, hbetween]
  | true =>
    -- the number ends at the first blank, or at the beginning of the next token
    obtain ⟨b, rest, hfirst, hb⟩ : ∃ b rest, blanks ++ t.bytes = b :: rest ∧
        isNumberByte b = false := by
      cases blanks with
      | nil => exact head?_bytes ht (hapart hnumeral)
      | cons b blanks =>
        exact ⟨b, _, rfl, not_isNumberByte_of_isBlank (hblanks b List.mem_cons_self)⟩
    rw [← hbetween, hfirst, List.foldl_cons, List.foldl_cons, step_after hs tokens hb]

theorem finish_foldl_after {spaced : List (List UInt8 × Token)}
    (hblanks : ∀ s ∈ spaced, ∀ b ∈ s.1, isBlank b = true) {t : Token} (tokens : List Token)
    (h : Legible (t :: spaced.map (·.2)))
    (hlast : ∀ l ∈ (t :: spaced.map (·.2)).getLast?, l.isNumeral = false) :
    ((spread spaced).foldl step (after tokens t)).finish =
      tokens.reverse ++ t :: spaced.map (·.2) := by
  induction spaced generalizing t tokens with
  | nil =>
    -- the last token is no number, so there is nothing left to finish
    have ht : t.isNumeral = false := hlast t (by simp)
    rw [after_of_not_isNumeral ht]
    simp [spread, finish, Place.unfinished?]
  | cons s rest ih =>
    obtain ⟨hs, hrest⟩ := List.forall_mem_cons.mp hblanks
    obtain ⟨ht, hwritten⟩ := List.forall_mem_cons.mp h.isWritten
    obtain ⟨hapart, hchain⟩ := List.isChain_cons_cons.mp h.apart
    have hlegible : Legible (s.2 :: rest.map (·.2)) := ⟨hwritten, hchain⟩
    have hs2 : s.2.IsWritten := hwritten s.2 List.mem_cons_self
    rw [spread, List.flatMap_cons, List.foldl_append, foldl_after ht hs2 hapart hs]
    refine (ih hrest (t :: tokens) hlegible ?_).trans (by simp)
    simpa [List.getLast?_cons_cons] using hlast

end Lexer

/-- **Taking a text apart gives the tokens that were written.** Any blanks may stand in front of
each. -/
theorem lex_spread {spaced : List (List UInt8 × Token)}
    (hblanks : ∀ s ∈ spaced, ∀ b ∈ s.1, isBlank b = true) (h : Legible (spaced.map (·.2)))
    (hlast : ∀ l ∈ (spaced.map (·.2)).getLast?, l.isNumeral = false) :
    lex (spread spaced) = spaced.map (·.2) := by
  cases spaced with
  | nil => rfl
  | cons s rest =>
    obtain ⟨hs, hrest⟩ := List.forall_mem_cons.mp hblanks
    have hs2 : s.2.IsWritten := h.isWritten s.2 List.mem_cons_self
    rw [lex, spread, List.flatMap_cons, List.foldl_append, List.foldl_append, Lexer.start,
      Lexer.foldl_step_blanks hs, Lexer.foldl_step_bytes hs2]
    exact Lexer.finish_foldl_after hrest [] h hlast

theorem lex_compact {tokens : List Token} (h : Legible tokens)
    (hlast : ∀ l ∈ tokens.getLast?, l.isNumeral = false) : lex (compact tokens) = tokens := by
  have hspread : compact tokens = spread (tokens.map ([], ·)) := by
    rw [compact, spread, List.flatMap_map]
    rfl
  have htokens : (tokens.map ([], ·)).map (·.2 : List UInt8 × Token → Token) = tokens := by
    rw [List.map_map]
    exact List.map_id tokens
  rw [hspread, lex_spread _ (htokens.symm ▸ h) (htokens.symm ▸ hlast), htokens]
  simp

/-! ### One member per line -/

theorem isBlank_of_mem_newLine {depth : Nat} : ∀ b ∈ newLine depth, isBlank b = true := by
  intro b hb
  rcases List.mem_cons.mp hb with rfl | hb
  · decide
  · obtain rfl := List.eq_of_mem_replicate hb
    decide

theorem isBlank_of_mem_gap {depth : Nat} {s t : Token} : ∀ b ∈ gap depth s t, isBlank b = true := by
  have hspace : ∀ b ∈ [(0x20 : UInt8)], isBlank b = true := List.all_eq_true.mp (by decide)
  have hnone : ∀ b ∈ ([] : List UInt8), isBlank b = true := by simp
  unfold gap
  split
  · split
    · exact hnone
    · exact isBlank_of_mem_newLine
  · split
    · exact isBlank_of_mem_newLine
    · split
      · exact hspace
      · exact hnone

/-- What a page adds for a token are blanks and the token. -/
theorem Page.text_write (p : Page) (t : Token) :
    ∃ blanks, (∀ b ∈ blanks, isBlank b = true) ∧
      (p.write t).text.reverse = p.text.reverse ++ (blanks ++ t.bytes) := by
  cases hlast : p.last with
  | none => exact ⟨[], by simp, by simp [Page.write, hlast]⟩
  | some previous =>
    exact ⟨gap (if t.closes then p.depth - 1 else p.depth) previous t, isBlank_of_mem_gap,
      by simp [Page.write, hlast]⟩

theorem Page.text_foldl (tokens : List Token) (p : Page) :
    ∃ spaced, (∀ s ∈ spaced, ∀ b ∈ s.1, isBlank b = true) ∧ spaced.map (·.2) = tokens ∧
      (tokens.foldl Page.write p).text.reverse = p.text.reverse ++ spread spaced := by
  induction tokens generalizing p with
  | nil => exact ⟨[], by simp, rfl, by simp [spread]⟩
  | cons t rest ih =>
    obtain ⟨blanks, hblanks, htext⟩ := p.text_write t
    obtain ⟨spaced, hspaced, htokens, hrest⟩ := ih (p.write t)
    refine ⟨(blanks, t) :: spaced, List.forall_mem_cons.mpr ⟨hblanks, hspaced⟩, ?_, ?_⟩
    · rw [List.map_cons, htokens]
    · rw [List.foldl_cons, hrest, htext, List.append_assoc]
      rfl

theorem pretty_eq_spread (tokens : List Token) :
    ∃ spaced, (∀ s ∈ spaced, ∀ b ∈ s.1, isBlank b = true) ∧ spaced.map (·.2) = tokens ∧
      pretty tokens = spread spaced :=
  Page.text_foldl tokens ⟨[], 0, none⟩

theorem lex_pretty {tokens : List Token} (h : Legible tokens)
    (hlast : ∀ l ∈ tokens.getLast?, l.isNumeral = false) : lex (pretty tokens) = tokens := by
  obtain ⟨spaced, hspaced, rfl, htext⟩ := pretty_eq_spread tokens
  rw [htext, lex_spread hspaced h hlast]

/-! ### Written texts are readable -/

open Text (Readable isPlain readable_flatMap readable_of_isPlain le_of_mem_utf8EncodeChar
    toList_toUTF8)

theorem isPlain_of_mem_escapeByte {b : UInt8} (h : b < 0x80) :
    ∀ e ∈ escapeByte b, isPlain e = true := by
  have hall : ∀ n < 0x80, (escapeByte (.ofNat n)).all isPlain = true := by decide
  have hb := hall b.toNat (UInt8.lt_iff_toNat_lt.mp h)
  rw [UInt8.ofNat_toNat] at hb
  exact List.all_eq_true.mp hb

theorem escapeByte_of_le {b : UInt8} (h : 0x80 ≤ b.toNat) : escapeByte b = [b] := by
  have hne {x : UInt8} (hx : x.toNat < 0x80) : b ≠ x := by
    rintro rfl
    omega
  have hlt : ¬ b < 0x20 := by
    rw [UInt8.lt_iff_toNat_lt]
    exact fun hb => absurd (Nat.lt_trans hb (by decide)) (Nat.not_lt.mpr h)
  rw [escapeByte, if_neg (hne (by decide)), if_neg (hne (by decide)), if_neg (hne (by decide)),
    if_neg (hne (by decide)), if_neg (hne (by decide)), if_neg (hne (by decide)),
    if_neg (hne (by decide)), if_neg hlt]

/-- Escaping keeps the bytes of a character together. -/
theorem readable_escape (c : Char) : Readable ((String.utf8EncodeChar c).flatMap escapeByte) := by
  -- a character of one byte is escaped with plain bytes, and the bytes of any other stay as they
  -- are
  by_cases hc : c.val.toNat ≤ 0x7f
  · have hbytes : String.utf8EncodeChar c = [.ofNat c.val.toNat] := by
      rw [String.utf8EncodeChar.eq_def]
      exact if_pos hc
    have hlt : UInt8.ofNat c.val.toNat < 0x80 := by
      rw [UInt8.lt_iff_toNat_lt, UInt8.toNat_ofNat']
      exact Nat.lt_of_le_of_lt (Nat.mod_le _ _) (Nat.lt_succ_of_le hc)
    rw [hbytes, List.flatMap_singleton]
    exact readable_of_isPlain (isPlain_of_mem_escapeByte hlt)
  · have hescape : ∀ b ∈ String.utf8EncodeChar c, escapeByte b = [b] :=
      fun b hb => escapeByte_of_le (le_of_mem_utf8EncodeChar (Nat.not_le.mp hc) b hb)
    refine ⟨[c], ?_, ?_⟩
    · rw [List.flatMap_congr hescape, List.flatMap_singleton', List.flatMap_singleton]
    · intro hmem
      obtain rfl := List.mem_singleton.mp hmem
      exact hc (by decide)

theorem isPlain_of_isDigit {b : UInt8} (h : isDigit b = true) : isPlain b = true := by
  simp only [isDigit, Bool.and_eq_true, decide_eq_true_eq, UInt8.le_iff_toNat_le] at h
  have hzero : b ≠ 0 := by
    rintro rfl
    exact absurd h.1 (by decide)
  have hlt : b < 0x80 := UInt8.lt_iff_toNat_lt.mpr (Nat.lt_of_le_of_lt h.2 (by decide))
  simp [isPlain, hzero, hlt]

theorem isPlain_of_isBlank {b : UInt8} (h : isBlank b = true) : isPlain b = true := by
  simp only [isBlank, Bool.or_eq_true, decide_eq_true_eq] at h
  obtain ((rfl | rfl) | rfl) | rfl := h <;> decide

theorem Token.readable_bytes {t : Token} (ht : t.IsWritten) : Readable t.bytes := by
  cases t with
  | number text =>
    obtain ⟨n, hn⟩ := ht
    obtain ⟨b, rest, rfl, hb, hrest⟩ := Lexer.int_eq_cons hn
    refine readable_of_isPlain
      (List.forall_mem_cons.mpr ⟨?_, fun b hb => isPlain_of_isDigit (hrest b hb)⟩)
    rcases hb with rfl | hb
    · decide
    · exact isPlain_of_isDigit hb
  | string raw =>
    obtain ⟨s, hs⟩ := ht
    obtain rfl := Token.string.inj hs
    have hquote : Readable [0x22] := readable_of_isPlain (List.all_eq_true.mp (by decide))
    have hraw : Readable (s.toUTF8.toList.flatMap escapeByte) := by
      rw [toList_toUTF8, List.flatMap_assoc]
      exact readable_flatMap fun c _ => readable_escape c
    exact hquote.append (hraw.append hquote)
  | bool value => cases value <;> exact readable_of_isPlain (List.all_eq_true.mp (by decide))
  | cut read => exact ht.elim
  | invalid => exact ht.elim
  | _ => exact readable_of_isPlain (List.all_eq_true.mp (by decide))

theorem readable_spread {spaced : List (List UInt8 × Token)}
    (hblanks : ∀ s ∈ spaced, ∀ b ∈ s.1, isBlank b = true) (h : ∀ s ∈ spaced, s.2.IsWritten) :
    Readable (spread spaced) :=
  readable_flatMap fun s hs =>
    (readable_of_isPlain fun b hb => isPlain_of_isBlank (hblanks s hs b hb)).append
      (Token.readable_bytes (h s hs))

/-- A text with one member per line that ends in a bracket is a readable text up to it. -/
theorem pretty_eq_append {tokens : List Token} (h : ∀ t ∈ tokens, t.IsWritten) :
    ∃ init, Readable init ∧ pretty (tokens ++ [.closeObject]) = init ++ [0x7d] := by
  obtain ⟨spaced, hblanks, htokens, htext⟩ := pretty_eq_spread (tokens ++ [.closeObject])
  obtain ⟨front, back, rfl, rfl, hback⟩ := List.map_eq_append_iff.mp htokens
  obtain ⟨⟨gap, last⟩, rfl, rfl⟩ := List.map_eq_singleton_iff.mp hback
  have hfront : ∀ s ∈ front, s.2.IsWritten := fun s hs => h s.2 (List.mem_map_of_mem hs)
  have hgap : ∀ b ∈ gap, isBlank b = true := hblanks (gap, .closeObject) (by simp)
  refine ⟨spread front ++ gap, ?_, ?_⟩
  · refine (readable_spread (fun s hs => hblanks s (List.mem_append_left _ hs)) hfront).append ?_
    exact readable_of_isPlain fun b hb => isPlain_of_isBlank (hgap b hb)
  · rw [htext]
    simp [spread, Token.bytes]

end SymbolicPaths.Json
