import SymbolicPaths.Evaluation
import SymbolicPaths.Proofs.Outcomes

/-!
# Laws of state evaluation

How evaluations end, without the journal: one question for all variables that are kept
(`Evaluator.outcome_solve`), and then their texts one by one (`Evaluator.outcome_evaluate`,
`Evaluator.outcome_texts_cons`). Taken together, the texts are those that there are, unless a strict
evaluator meets a value that does not fit (`Evaluator.outcome_texts`). The path of a state has the
history of the state (`Evaluator.history_of_evaluate`), and a state without unknowns has a path
(`Evaluator.evaluate_of_unknowns_eq_nil`).
-/

namespace SymbolicPaths

open SymbolicState

/-- The text of the value that was solved for a variable, if it has one: zero has none, and neither
has a value that does not fit. -/
def solvedText? (solved : Variable × Nat) : Option String :=
  (decodeValue solved.1.key.name solved.2 solved.1.bits).toOption.join

theorem solvedText?_eq_some_iff {v : Variable} {value : Nat} {text : String} :
    solvedText? (v, value) = some text ↔ decodeValue v.key.name value v.bits = .ok (some text) := by
  unfold solvedText?
  cases decodeValue v.key.name value v.bits with
  | ok text' => simp [Except.toOption]
  | error o => simp [Except.toOption]

/-- What there is to report about the value that was solved for a variable: that it does not fit, or
nothing. -/
def solvedOverflow? (solved : Variable × Nat) : Option Overflow :=
  match decodeValue solved.1.key.name solved.2 solved.1.bits with
  | .ok _ => none
  | .error o => some o

/-- Nothing but the excluded registers is left out. -/
theorem Variable.isKept_iff {excluded : OffsetSet} {v : Variable} :
    v.isKept excluded = true ↔ ∀ offset ∈ excluded, v.key ≠ .register offset := by
  unfold Variable.isKept
  cases v.key with
  | register own =>
    rw [Bool.not_eq_true', ← Bool.not_eq_true, Std.ExtTreeSet.contains_iff_mem]
    constructor
    · intro hown offset hoffset heq
      obtain rfl := VariableKey.register.inj heq
      exact hown hoffset
    · exact fun h hown => h own hown rfl
  | api name => exact iff_of_true rfl fun _ _ => nofun
  | memory a => exact iff_of_true rfl fun _ _ => nofun
  | file name => exact iff_of_true rfl fun _ _ => nofun
  | other tag name => exact iff_of_true rfl fun _ _ => nofun

namespace Evaluator

/-- The texts of values, one by one. At a value that does not fit its variable a strict evaluator
ends, and a lenient one goes on without it. -/
theorem outcome_texts_cons (e : Evaluator) (v : Variable) (value : Nat)
    (rest : List (Variable × Nat)) :
    outcome (e.texts ((v, value) :: rest)) =
      match decodeValue v.key.name value v.bits with
      | .ok text => outcome (e.texts rest) >>= fun later => .ok (text.toList ++ later)
      | .error err => if e.strict then .error (.overflow err) else outcome (e.texts rest) := by
  simp only [texts]
  cases decodeValue v.key.name value v.bits with
  | ok text =>
    rw [outcome_bind]
    rfl
  | error err =>
    cases e.strict with
    | true => rfl
    | false => rfl

/-- The value that a strict evaluator objects to: the first one that does not fit. A lenient
evaluator has no objections. -/
def objection? (e : Evaluator) (pairs : List (Variable × Nat)) : Option Overflow :=
  if e.strict then pairs.findSome? solvedOverflow? else none

theorem objection?_of_lenient {e : Evaluator} (he : e.strict = false)
    (pairs : List (Variable × Nat)) : e.objection? pairs = none := by
  rw [objection?, he]
  rfl

/-- Objections are to values that do not fit. -/
theorem exists_of_objection {e : Evaluator} {pairs : List (Variable × Nat)} {o : Overflow}
    (h : e.objection? pairs = some o) :
    ∃ solved ∈ pairs, decodeValue solved.1.key.name solved.2 solved.1.bits = .error o := by
  unfold objection? at h
  split at h
  · obtain ⟨solved, hmem, hsolved⟩ := List.exists_of_findSome?_eq_some h
    refine ⟨solved, hmem, ?_⟩
    unfold solvedOverflow? at hsolved
    split at hsolved
    · cases hsolved
    · next hdecoded => rw [hdecoded, Option.some.inj hsolved]
  · cases h

/-- **The texts of all values.** They are those that there are, in order, unless there is an
objection. -/
theorem outcome_texts (e : Evaluator) (pairs : List (Variable × Nat)) :
    outcome (e.texts pairs) =
      (e.objection? pairs).elim (.ok (pairs.filterMap solvedText?)) fun o =>
        .error (.overflow o) := by
  induction pairs with
  | nil =>
    unfold objection?
    cases e.strict <;> rfl
  | cons first rest ih =>
    obtain ⟨v, value⟩ := first
    rw [outcome_texts_cons, ih, objection?, objection?, List.findSome?_cons, List.filterMap_cons,
      solvedText?, solvedOverflow?]
    dsimp only
    cases decodeValue v.key.name value v.bits with
    | error err =>
      -- the value has no text, and it is the first objection if there can be one
      cases e.strict <;> rfl
    | ok text =>
      -- nothing is objected to here, so that it depends on the rest whether there are texts at all
      dsimp only [Except.toOption, Option.join_some]
      cases (if e.strict then rest.findSome? solvedOverflow? else none) with
      | some o => rfl
      | none => cases text <;> rfl

variable {σ : Type} [SymbolicState σ]

/-- The solver is asked if there is anything to ask. -/
theorem outcome_solve (s : σ) (wanted : List Variable) :
    outcome (solve s wanted) =
      if wanted = [] then .ok [] else (resolve s wanted).mapError .query := by
  unfold solve
  cases wanted with
  | nil => rfl
  | cons v rest =>
    rw [if_neg (List.cons_ne_nil v rest)]
    cases resolve s (v :: rest) with
    | ok values => rfl
    | error cause => rfl

/-- The variables of a state that an evaluator asks for. -/
def kept (e : Evaluator) (s : σ) : List Variable :=
  (unknowns s).filter (·.isKept e.excluded)

theorem outcome_evaluate (e : Evaluator) (s : σ) :
    outcome (e.evaluate s) =
      outcome (solve s (e.kept s)) >>= fun values =>
        outcome (e.texts ((e.kept s).zip values)) >>= fun texts =>
          .ok ⟨(e.kept s).map (·.key.name), texts, history s⟩ := by
  simp only [evaluate, kept, outcome_bind, outcome_pure]

theorem history_of_evaluate {e : Evaluator} {s : σ} {p : ExecutionPath}
    (h : outcome (e.evaluate s) = .ok p) : p.history = history s := by
  simp only [outcome_evaluate, bind_eq_ok_iff] at h
  obtain ⟨values, -, texts, -, h⟩ := h
  obtain rfl := Except.ok.inj h
  rfl

theorem evaluate_of_unknowns_eq_nil (e : Evaluator) {s : σ} (h : unknowns s = []) :
    outcome (e.evaluate s) = .ok ⟨[], [], history s⟩ := by
  unfold evaluate
  rw [h]
  rfl

end Evaluator

end SymbolicPaths
