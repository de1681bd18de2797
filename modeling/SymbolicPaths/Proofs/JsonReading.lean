import SymbolicPaths.Json.Writer
import SymbolicPaths.Proofs.JsonLayouts
import SymbolicPaths.Proofs.Outcomes

/-!
# Readers take what writers write

Two statements are made about each kind of value. The tokens that are written for it can be told
apart (`IsValue`), so that the lexer finds them in either layout. And a reader takes exactly these
tokens off the front of any sequence, and returns the value (`Reader.Takes`). Both are carried from
the parts of a value to the whole: through arrays (`isValue_array`, `Reader.takes_list`), through
objects (`isValue_object`) and maps (`Reader.takes_map`), and through records. The members of a
record fill its draft one by one (`Reader.Fills`), each naming a field that is not set yet.
-/

namespace SymbolicPaths.Json

variable {α β δ κ : Type}

/-! ### Values as token sequences -/

/-- Tokens that make up a value: they can be told apart, and the first of them closes nothing. -/
structure IsValue (tokens : List Token) : Prop extends Legible tokens where
  begins : ∃ t rest, tokens = t :: rest ∧ t.closes = false

theorem intercalate_comma (m : List Token) (ms : List (List Token)) :
    List.intercalate [.comma] (m :: ms) = m ++ ms.flatMap (.comma :: ·) := by
  induction ms generalizing m with
  | nil => simp [List.intercalate]
  | cons m' ms ih =>
    rw [List.flatMap_cons, List.cons_append, ← ih m']
    simp [List.intercalate]

theorem isValue_singleton {t : Token} (ht : t.IsWritten) (hclose : t.closes = false) :
    IsValue [t] := by
  refine ⟨⟨?_, List.isChain_singleton t⟩, t, [], rfl, hclose⟩
  intro t' ht'
  rwa [List.mem_singleton.mp ht']

theorem isWritten_text (s : String) : (Token.text s).IsWritten :=
  ⟨s, rfl⟩

theorem isWritten_int (n : Int) : (Token.int n).IsWritten := by
  obtain ⟨text, htext⟩ := exists_int_eq n
  rw [htext]
  exact ⟨n, htext⟩

theorem isValue_text (s : String) : IsValue (text s) :=
  isValue_singleton (isWritten_text s) rfl

theorem isValue_int (n : Int) : IsValue [.int n] := by
  refine isValue_singleton (isWritten_int n) ?_
  cases n <;> rfl

/-- Token sequences stay legible with a token between them that is no number. -/
theorem Legible.append_cons {first second : List Token} {t : Token} (hfirst : Legible first)
    (ht : t.IsWritten) (hnumeral : t.isNumeral = false) (hsecond : Legible second) :
    Legible (first ++ t :: second) := by
  refine ⟨?_, ?_⟩
  · rw [List.forall_mem_append, List.forall_mem_cons]
    exact ⟨hfirst.isWritten, ht, hsecond.isWritten⟩
  · rw [List.isChain_append]
    refine ⟨hfirst.apart, ?_, ?_⟩
    · refine List.isChain_cons.mpr ⟨fun _ _ h => ?_, hsecond.apart⟩
      rw [hnumeral] at h
      cases h
    · intro s _ t' ht' _
      obtain rfl : t = t' := by simpa using ht'
      exact hnumeral

theorem legible_nil : Legible [] :=
  ⟨by simp, List.isChain_nil⟩

theorem legible_intercalate {members : List (List Token)} (h : ∀ m ∈ members, Legible m) :
    Legible (List.intercalate [.comma] members) := by
  induction members with
  | nil => exact legible_nil
  | cons m rest ih =>
    obtain ⟨hm, hrest⟩ := List.forall_mem_cons.mp h
    cases rest with
    | nil => simpa [List.intercalate] using hm
    | cons m' rest =>
      have hsplit : List.intercalate [.comma] (m :: m' :: rest) =
          m ++ .comma :: List.intercalate [.comma] (m' :: rest) := by
        simp [List.intercalate]
      rw [hsplit]
      exact hm.append_cons trivial rfl (ih hrest)

theorem isValue_array {encode : α → List Token} {as : List α} (h : ∀ a ∈ as, IsValue (encode a)) :
    IsValue (array (as.map encode)) := by
  have hmember : ∀ m ∈ as.map encode, Legible m := by
    intro m hm
    obtain ⟨a, ha, rfl⟩ := List.mem_map.mp hm
    exact (h a ha).toLegible
  have hclosed :=
    (legible_intercalate hmember).append_cons (t := .closeArray) trivial rfl legible_nil
  exact ⟨legible_nil.append_cons (t := .openArray) trivial rfl hclosed, _, _, rfl, rfl⟩

theorem isValue_object {members : List (String × List Token)} (h : ∀ m ∈ members, IsValue m.2) :
    IsValue (object members) := by
  have hmember : ∀ m ∈ members.map fun m => Token.text m.1 :: .colon :: m.2, Legible m := by
    intro m hm
    obtain ⟨⟨name, value⟩, hvalue, rfl⟩ := List.mem_map.mp hm
    exact (isValue_text name).toLegible.append_cons (t := .colon) trivial rfl (h _ hvalue).toLegible
  have hclosed :=
    (legible_intercalate hmember).append_cons (t := .closeObject) trivial rfl legible_nil
  exact ⟨legible_nil.append_cons (t := .openObject) trivial rfl hclosed, _, _, rfl, rfl⟩

/-- The last token of an object closes it. -/
theorem isNumeral_getLast?_object (members : List (String × List Token)) :
    ∀ t ∈ (object members).getLast?, t.isNumeral = false := by
  intro t ht
  rw [object, List.getLast?_concat, Option.mem_some_iff] at ht
  rw [← ht]
  rfl

theorem isValue_words (l : List UInt64) : IsValue (words l) :=
  isValue_array fun n _ => isValue_int n.toNat

theorem isValue_texts (l : List String) : IsValue (texts l) :=
  isValue_array fun s _ => isValue_text s

namespace Reader

/-- The tokens are what a reader takes to read a value, whatever follows them. -/
def Takes (read : Reader α) (tokens : List Token) (a : α) : Prop :=
  ∀ rest, read (tokens ++ rest) = .ok (a, rest)

theorem Takes.bind {read : Reader α} {next : α → Reader β} {first second : List Token}
    {a : α} {b : β} (hread : read.Takes first a) (hnext : (next a).Takes second b) :
    (read >>= next).Takes (first ++ second) b := by
  intro rest
  change (read (first ++ second ++ rest) >>= fun r => next r.1 r.2) = _
  rw [List.append_assoc, hread, ok_bind]
  exact hnext rest

theorem takes_pure (a : α) : Takes (pure a) [] a :=
  fun _ => rfl

theorem Takes.return {read : Reader α} {tokens : List Token} {a : α} (h : read.Takes tokens a)
    (f : α → β) : Takes (do return f (← read)) tokens (f a) := by
  have hboth : (read >>= fun a => pure (f a)).Takes (tokens ++ []) (f a) :=
    h.bind (takes_pure (f a))
  rwa [List.append_nil] at hboth

theorem takes_text (s : String) : Reader.text.Takes (Json.text s) s := by
  intro rest
  simp only [Json.text, Token.text, List.singleton_append, Reader.text, text?_flatMap]

theorem takes_key (s : String) : Reader.key.Takes [.text s] s := by
  intro rest
  simp only [Token.text, List.singleton_append, Reader.key, text?_flatMap]

theorem takes_int (n : Int) : Reader.int.Takes [.int n] n := by
  intro rest
  obtain ⟨text, htext⟩ := exists_int_eq n
  simp only [htext, List.singleton_append, Reader.int, int?_int htext]

theorem takes_below {n limit : Nat} (h : n < limit) : (Reader.below limit).Takes [.int n] n := by
  intro rest
  change (Reader.int ([.int n] ++ rest) >>= _) = _
  rw [takes_int n rest]
  change (if (0 : Int) ≤ n ∧ (n : Int) < limit then _ else _ : Reader Nat) rest = _
  rw [if_pos (by omega)]
  rfl

theorem takes_word (n : UInt64) : Reader.word.Takes (Json.word n) n := by
  have h := (takes_below n.toNat_lt_size).return UInt64.ofNat
  rwa [UInt64.ofNat_toNat] at h

theorem takes_halfWord (n : UInt32) : Reader.halfWord.Takes [.int n.toNat] n := by
  have h := (takes_below n.toNat_lt_size).return UInt32.ofNat
  rwa [UInt32.ofNat_toNat] at h

theorem takes_byte (n : UInt8) : Reader.byte.Takes [.int n.toNat] n := by
  have h := (takes_below n.toNat_lt_size).return UInt8.ofNat
  rwa [UInt8.ofNat_toNat] at h

theorem takes_signed (n : Int64) : Reader.signed.Takes [.int n.toInt] n := by
  intro rest
  change (Reader.int ([.int n.toInt] ++ rest) >>= _) = _
  rw [takes_int n.toInt rest]
  change (if Int64.minValue.toInt ≤ n.toInt ∧ n.toInt ≤ Int64.maxValue.toInt then _ else _ :
    Reader Int64) rest = _
  rw [if_pos ⟨n.minValue_le_toInt, n.toInt_le⟩, Int64.ofInt_toInt]
  rfl

theorem takes_bool (b : Bool) : Reader.bool.Takes [.bool b] b :=
  fun _ => rfl

/-- A value that may be absent is read if it is there. -/
theorem Takes.optional {value : Reader α} {t : Token} {tokens : List Token} {a : α}
    (h : value.Takes (t :: tokens) a) (ht : t ≠ .null) :
    (Reader.optional value).Takes (t :: tokens) (some a) := by
  intro rest
  cases t with
  | null => exact absurd rfl ht
  | _ => exact h.return some rest

theorem takes_expect (t : Token) : (Reader.expect t).Takes [t] () := by
  intro rest
  exact if_pos rfl

/-! ### Arrays -/

theorem listRest_flatMap {value : Reader α} {encode : α → List Token} {as : List α}
    (hvalue : ∀ a ∈ as, value.Takes (encode a) a) {fuel : Nat} (hfuel : as.length < fuel)
    (read : List α) (rest : List Token) :
    listRest value fuel read ((as.flatMap fun a => .comma :: encode a) ++ .closeArray :: rest) =
      .ok (read.reverse ++ as, rest) := by
  -- each value takes a unit of fuel, and the bracket one more
  induction as generalizing fuel read with
  | nil =>
    obtain ⟨fuel, rfl⟩ : ∃ k, fuel = k + 1 := ⟨fuel - 1, by simp at hfuel; omega⟩
    simp [listRest]
  | cons a as ih =>
    obtain ⟨fuel, rfl⟩ : ∃ k, fuel = k + 1 := ⟨fuel - 1, by omega⟩
    obtain ⟨ha, has⟩ := List.forall_mem_cons.mp hvalue
    rw [List.flatMap_cons, List.cons_append, List.cons_append, List.append_assoc]
    simp only [listRest, ha _]
    rw [ih has (by simp at hfuel; omega)]
    simp

/-- Each member after the first one takes a token at least, its comma. -/
theorem le_length_flatMap_comma (as : List α) (encode : α → List Token) :
    as.length ≤ (as.flatMap fun a => Token.comma :: encode a).length := by
  induction as with
  | nil => exact Nat.le_refl 0
  | cons a rest ih =>
    rw [List.flatMap_cons, List.length_append, List.length_cons, List.length_cons]
    omega

theorem list_of_first {value : Reader α} {t : Token} (ht : t.closes = false)
    {tokens rest : List Token} {a : α} (h : value (t :: tokens) = .ok (a, rest)) :
    Reader.list value (.openArray :: t :: tokens) = listRest value (rest.length + 1) [a] rest := by
  cases t with
  | closeArray => cases ht
  | _ => simp only [Reader.list, h]

/-- An array of written values is read as their list. -/
theorem takes_list {value : Reader α} {encode : α → List Token} {as : List α}
    (hvalue : ∀ a ∈ as, value.Takes (encode a) a) (hencode : ∀ a ∈ as, IsValue (encode a)) :
    (Reader.list value).Takes (array (as.map encode)) as := by
  intro rest
  cases as with
  | nil => rfl
  | cons a as =>
    obtain ⟨ha, has⟩ := List.forall_mem_cons.mp hvalue
    -- a value does not begin with a bracket that closes, so the array is not taken to be empty
    obtain ⟨t, more, ht, hclose⟩ := (hencode a List.mem_cons_self).begins
    have htokens : array ((a :: as).map encode) ++ rest = .openArray ::
        (encode a ++ ((as.flatMap fun a => .comma :: encode a) ++ .closeArray :: rest)) := by
      rw [array, List.map_cons, intercalate_comma, List.flatMap_map]
      simp
    have hread := ha ((as.flatMap fun a => .comma :: encode a) ++ .closeArray :: rest)
    rw [htokens]
    rw [ht, List.cons_append] at hread ⊢
    rw [list_of_first hclose hread, listRest_flatMap has]
    · rfl
    · have := le_length_flatMap_comma as encode
      rw [List.length_append]
      omega

theorem takes_texts (l : List String) : (Reader.list Reader.text).Takes (texts l) l :=
  takes_list (fun s _ => takes_text s) (fun s _ => isValue_text s)

theorem takes_words (l : List UInt64) : (Reader.list Reader.word).Takes (words l) l :=
  takes_list (fun n _ => takes_word n) (fun n _ => isValue_int n.toNat)

/-! ### Records -/

/-- Members of an object that fill a draft, one field each. -/
inductive Fills (fields : List (Member δ)) : δ → List (String × List Token) → δ → Prop where
  | nil (d : δ) : Fills fields d [] d
  | cons {d d' d'' : δ} {f : Member δ} {name : String} {value : List Token}
      {members : List (String × List Token)}
      (hfind : fields.find? (·.name = name) = some f) (hset : f.isSet d = false)
      (hread : (f.read d).Takes value d') (hrest : Fills fields d' members d'') :
      Fills fields d ((name, value) :: members) d''

theorem Fills.append {fields : List (Member δ)} {d d' d'' : δ}
    {members more : List (String × List Token)} (h : Fills fields d members d')
    (hmore : Fills fields d' more d'') : Fills fields d (members ++ more) d'' := by
  induction h with
  | nil => exact hmore
  | cons hfind hset hread _ ih => exact .cons hfind hset hread (ih hmore)

theorem takes_member {fields : List (Member δ)} {d d' : δ} {f : Member δ} {name : String}
    {value : List Token} (hfind : fields.find? (·.name = name) = some f) (hset : f.isSet d = false)
    (hread : (f.read d).Takes value d') :
    (member fields d).Takes (.text name :: .colon :: value) d' := by
  refine (takes_key name).bind ?_
  simp only [hfind, hset, Bool.false_eq_true, if_false]
  exact (takes_expect .colon).bind hread

theorem Fills.membersRest {fields : List (Member δ)} {d d' : δ}
    {members : List (String × List Token)} (h : Fills fields d members d') {fuel : Nat}
    (hfuel : members.length < fuel) (rest : List Token) :
    membersRest fields fuel d
        ((members.flatMap fun m => .comma :: .text m.1 :: .colon :: m.2) ++ .closeObject :: rest) =
      .ok (d', rest) := by
  induction h generalizing fuel with
  | nil d =>
    obtain ⟨fuel, rfl⟩ : ∃ k, fuel = k + 1 := ⟨fuel - 1, by omega⟩
    rfl
  | cons hfind hset hread _ ih =>
    obtain ⟨fuel, rfl⟩ : ∃ k, fuel = k + 1 := ⟨fuel - 1, by omega⟩
    rw [List.length_cons] at hfuel
    have hmember := takes_member hfind hset hread
    rw [List.flatMap_cons, List.cons_append, List.cons_append, List.append_assoc]
    simp only [Reader.membersRest, hmember _]
    exact ih (by omega)

theorem draft_of_first {fields : List (Member δ)} {blank d : δ} {t : Token} (ht : t.closes = false)
    {tokens rest : List Token} (h : member fields blank (t :: tokens) = .ok (d, rest)) :
    draft fields blank (.openObject :: t :: tokens) =
      membersRest fields (rest.length + 1) d rest := by
  cases t with
  | closeObject => cases ht
  | _ => simp only [Reader.draft, h]

/-- An object whose members fill a draft is read as that draft. -/
theorem Fills.draft {fields : List (Member δ)} {blank d : δ} {members : List (String × List Token)}
    (h : Fills fields blank members d) : (draft fields blank).Takes (object members) d := by
  intro rest
  cases h with
  | nil => rfl
  | @cons _ d' _ f name value members hfind hset hread hrest =>
    have htokens : object ((name, value) :: members) ++ rest = .openObject :: .text name ::
        (.colon :: value ++ ((members.flatMap fun m => .comma :: .text m.1 :: .colon :: m.2) ++
          .closeObject :: rest)) := by
      rw [object, List.map_cons, intercalate_comma, List.flatMap_map]
      simp
    have hmember := takes_member hfind hset hread
      ((members.flatMap fun m => .comma :: .text m.1 :: .colon :: m.2) ++ .closeObject :: rest)
    rw [List.cons_append] at hmember
    rw [htokens, draft_of_first rfl hmember, hrest.membersRest]
    have := le_length_flatMap_comma members fun m => .text m.1 :: .colon :: m.2
    rw [List.length_append]
    omega

theorem takes_record {fields : List (Member δ)} {blank d : δ} {members : List (String × List Token)}
    {complete : δ → Option α} {a : α} (h : Fills fields blank members d)
    (ha : complete d = some a) : (record fields blank complete).Takes (object members) a := by
  intro rest
  change (draft fields blank (object members ++ rest) >>= _) = _
  rw [h.draft, ok_bind]
  simp only [ha]
  rfl

/-! ### Maps -/

theorem takes_entry {key : Reader κ} {value : Reader α} {name : String}
    {tokens : List Token} {k : κ} {a : α} (hkey : key.Takes [.text name] k)
    (hvalue : value.Takes tokens a) :
    (entriesRest.entry key value).Takes (.text name :: .colon :: tokens) (k, a) :=
  hkey.bind ((takes_expect .colon).bind (hvalue.return (Prod.mk k)))

theorem entriesRest_flatMap {key : Reader κ} {value : Reader α} {name : κ → String}
    {encode : α → List Token} (hkey : ∀ k, key.Takes [.text (name k)] k)
    (hvalue : ∀ a, value.Takes (encode a) a) {es : List (κ × α)} {fuel : Nat}
    (hfuel : es.length < fuel) (read : List (κ × α)) (rest : List Token) :
    entriesRest key value fuel read ((es.flatMap fun e =>
        .comma :: .text (name e.1) :: .colon :: encode e.2) ++ .closeObject :: rest) =
      .ok (read.reverse ++ es, rest) := by
  induction es generalizing fuel read with
  | nil =>
    obtain ⟨fuel, rfl⟩ : ∃ k, fuel = k + 1 := ⟨fuel - 1, by simp at hfuel; omega⟩
    simp [entriesRest]
  | cons e es ih =>
    obtain ⟨fuel, rfl⟩ : ∃ k, fuel = k + 1 := ⟨fuel - 1, by omega⟩
    rw [List.length_cons] at hfuel
    have hentry := takes_entry (hkey e.1) (hvalue e.2)
    rw [List.flatMap_cons, List.cons_append, List.cons_append, List.append_assoc]
    simp only [entriesRest, hentry _]
    rw [ih (by omega)]
    simp

theorem entries_of_first {key : Reader κ} {value : Reader α} {t : Token} (ht : t.closes = false)
    {tokens rest : List Token} {e : κ × α}
    (h : entriesRest.entry key value (t :: tokens) = .ok (e, rest)) :
    entries key value (.openObject :: t :: tokens) =
      entriesRest key value (rest.length + 1) [e] rest := by
  cases t with
  | closeObject => cases ht
  | _ => simp only [Reader.entries, h]

theorem takes_entries {key : Reader κ} {value : Reader α} {name : κ → String}
    {encode : α → List Token} (hkey : ∀ k, key.Takes [.text (name k)] k)
    (hvalue : ∀ a, value.Takes (encode a) a) (es : List (κ × α)) :
    (entries key value).Takes (object (es.map fun e => (name e.1, encode e.2))) es := by
  intro rest
  cases es with
  | nil => rfl
  | cons e es =>
    have htokens : object ((e :: es).map fun e => (name e.1, encode e.2)) ++ rest =
        .openObject :: .text (name e.1) :: (.colon :: encode e.2 ++ ((es.flatMap fun e =>
          .comma :: .text (name e.1) :: .colon :: encode e.2) ++ .closeObject :: rest)) := by
      rw [object, List.map_cons, List.map_cons, intercalate_comma, List.map_map, List.flatMap_map]
      simp
    have hentry := takes_entry (hkey e.1) (hvalue e.2) ((es.flatMap fun e =>
      .comma :: .text (name e.1) :: .colon :: encode e.2) ++ .closeObject :: rest)
    rw [List.cons_append] at hentry
    rw [htokens, entries_of_first rfl hentry, entriesRest_flatMap hkey hvalue]
    · rfl
    · have := le_length_flatMap_comma es fun e => .text (name e.1) :: .colon :: encode e.2
      rw [List.length_append]
      omega

section

variable [Ord κ] [Std.TransOrd κ] [Std.LawfulEqOrd κ] [BEq κ] [Std.LawfulBEqOrd κ]

/-- The entries of a map, put into an empty one, make up that map again. -/
theorem foldl_insert_toList (m : Std.ExtTreeMap κ α) :
    m.toList.foldl (fun n e => n.insert e.1 e.2) ∅ = m := by
  rw [← Std.ExtTreeMap.ofList_eq_foldl]
  refine Std.ExtTreeMap.ext_getElem? fun k => ?_
  cases hk : m[k]? with
  | some v =>
    exact Std.ExtTreeMap.getElem?_ofList_of_mem Std.ReflCmp.compare_self
      Std.ExtTreeMap.distinct_keys_toList (Std.ExtTreeMap.mem_toList_iff_getElem?_eq_some.mpr hk)
  | none =>
    refine Std.ExtTreeMap.getElem?_ofList_of_contains_eq_false ?_
    rw [Std.ExtTreeMap.map_fst_toList_eq_keys, Std.ExtTreeMap.contains_keys, Bool.eq_false_iff, Ne,
      Std.ExtTreeMap.contains_iff_mem]
    simpa using hk

/-- An object with an entry for each entry of a map is read as that map. -/
theorem takes_map {key : Reader κ} {value : Reader α} {name : κ → String} {encode : α → List Token}
    (hkey : ∀ k, key.Takes [.text (name k)] k) (hvalue : ∀ a, value.Takes (encode a) a)
    (m : Std.ExtTreeMap κ α) :
    (Reader.map key value).Takes (object (m.toList.map fun e => (name e.1, encode e.2))) m := by
  have h := (takes_entries hkey hvalue m.toList).return fun es =>
    es.foldl (fun (n : Std.ExtTreeMap κ α) e => n.insert e.1 e.2) ∅
  rwa [foldl_insert_toList] at h

end

/-! ### Numbers as keys -/

theorem escapeByte_digit : ∀ n < 10, escapeByte (0x30 + UInt8.ofNat n) = [0x30 + .ofNat n] := by
  decide

theorem flatMap_escapeByte_decimalDigits (n : Nat) :
    (decimalDigits n).flatMap escapeByte = decimalDigits n := by
  induction n using Nat.strongRecOn with
  | ind n ih =>
    by_cases h : n < 10
    · rw [decimalDigits_of_lt h, List.flatMap_singleton, escapeByte_digit n h]
    · rw [decimalDigits_of_le (by omega), List.flatMap_append, ih (n / 10) (by omega),
        List.flatMap_singleton, escapeByte_digit (n % 10) (by omega)]

theorem toUTF8_toString (n : Nat) : (toString n).toUTF8.toList = decimalDigits n := by
  have hchar : ∀ c ∈ Nat.toDigits 10 n, String.utf8EncodeChar c = [c.toNat.toUInt8] := by
    intro c hc
    have hdigit := Nat.isDigit_of_mem_toDigits (by decide) (by decide) hc
    simp only [Char.isDigit, Bool.and_eq_true, decide_eq_true_eq, ge_iff_le,
      UInt32.le_iff_toNat_le] at hdigit
    have hsmall : c.val.toNat ≤ 0x7f := Nat.le_trans hdigit.2 (by decide)
    rw [String.utf8EncodeChar.eq_def]
    exact if_pos hsmall
  rw [Text.toList_toUTF8]
  change (n.repr.toList).flatMap _ = _
  rw [Nat.toList_repr, List.flatMap_congr hchar, decimalDigits, List.map_eq_flatMap]

theorem text_toString (n : Nat) : Token.text (toString n) = .string (decimalDigits n) := by
  rw [Token.text, toUTF8_toString, flatMap_escapeByte_decimalDigits]

theorem takes_wordKey (n : UInt64) : Reader.wordKey.Takes [.text (toString n.toNat)] n := by
  intro rest
  have hnumber : isNumber (decimalDigits n.toNat) = true := isNumber_int (n := n.toNat) rfl
  have hint : int? (decimalDigits n.toNat) = some (n.toNat : Int) := int?_int (n := n.toNat) rfl
  have hrange : (0 : Int) ≤ n.toNat ∧ (n.toNat : Int) < UInt64.size := by
    have := n.toNat_lt_size
    omega
  simp only [text_toString, List.singleton_append, Reader.wordKey, hnumber, if_true, hint]
  rw [if_pos hrange, Int.toNat_natCast, UInt64.ofNat_toNat]

/-! ### Whole texts -/

/-- A text with the tokens of a value and nothing else is read as that value. -/
theorem Takes.readText {read : Reader α} {tokens : List Token} {a : α} (h : read.Takes tokens a)
    {bytes : List UInt8} (hlex : lex bytes = tokens) : Reader.readText read bytes = .ok a := by
  have hread := h []
  rw [List.append_nil] at hread
  simp only [Reader.readText, hlex, hread]

end Reader

end SymbolicPaths.Json
