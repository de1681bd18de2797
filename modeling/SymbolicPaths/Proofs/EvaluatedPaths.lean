import SymbolicPaths.Proofs.EvaluationLaws
import SymbolicPaths.Proofs.ValueWidth

/-!
# What evaluated paths hold

The path of a state is determined by the variables that are kept and by the answer of the solver.

* `Evaluator.evaluate_strict_lenient`: the solver is asked once, for all variables that are kept, or
  not at all if there are none, and an evaluation fails because of the solver exactly if this query
  does. Otherwise a lenient evaluator gives a path with the names of all variables and the texts
  that their values have; a strict one gives the same path, or reports the first value that does not
  fit.
* `Evaluator.evaluate_values_nonzero`: the values of a path are texts of numbers other than zero.
  One of them may still read `0x0`, but only as what a long value spells
  (`Evaluator.evaluate_spelled_zero`), never as a number.

Variables and solved values are paired by position, and the answer may be too short or too long.
`Evaluator.Solved` says that a variable is paired with a value, and the values of a path are the
texts of such pairs (`Evaluator.mem_values_iff`).
-/

namespace SymbolicPaths

open SymbolicState

/-! ### Queries to the solver -/

/-- The number of variables that a query asks for, if the event is one. -/
def Event.queried? : Event → Option Nat
  | .queried count => some count
  | _ => none

section Queries

variable {ε α β : Type}

/-- The queries to the solver in a computation, each as the number of variables that it asks for. -/
def queries (x : ExceptT ε Journaled α) : List Nat :=
  x.run.events.filterMap Event.queried?

/-- If nothing is asked later, then all queries come first. -/
theorem queries_bind_of_forall {x : ExceptT ε Journaled α} {f : α → ExceptT ε Journaled β}
    (h : ∀ a, queries (f a) = []) : queries (x >>= f) = queries x := by
  unfold queries at h ⊢
  rw [ExceptT.run_bind, Journaled.events_bind, List.filterMap_append]
  cases x.run.value with
  | ok a =>
    dsimp only
    rw [h a, List.append_nil]
  | error err => exact List.append_nil _

end Queries

namespace Evaluator

theorem queries_texts (e : Evaluator) (pairs : List (Variable × Nat)) :
    queries (e.texts pairs) = [] := by
  induction pairs with
  | nil => rfl
  | cons first rest ih =>
    obtain ⟨v, value⟩ := first
    simp only [texts]
    cases decodeValue v.key.name value v.bits with
    | ok text => exact (queries_bind_of_forall fun later => rfl).trans ih
    | error err =>
      -- a strict evaluator is over, and a lenient one logs the value before it goes on
      cases e.strict with
      | true => rfl
      | false => exact queries_bind_of_forall fun _ => ih

variable {σ : Type} [SymbolicState σ]

theorem queries_solve (s : σ) (wanted : List Variable) :
    queries (solve s wanted) = if wanted = [] then [] else [wanted.length] := by
  unfold solve
  cases wanted with
  | nil => rfl
  | cons v rest =>
    rw [if_neg (List.cons_ne_nil v rest)]
    cases resolve s (v :: rest) with
    | ok values => rfl
    | error cause => rfl

/-- **One query.** All variables that are kept are asked for at once, if there are any. -/
theorem queries_evaluate (e : Evaluator) (s : σ) :
    queries (e.evaluate s) = if e.kept s = [] then [] else [(e.kept s).length] := by
  -- whatever the answer is, nobody is asked again
  have htexts : ∀ values, queries (do
      let texts ← e.texts ((e.kept s).zip values)
      return ExecutionPath.mk ((e.kept s).map (·.key.name)) texts (history s)) = [] := by
    intro values
    rw [queries_bind_of_forall fun _ => rfl]
    exact queries_texts e _
  calc queries (e.evaluate s) = queries (solve s (e.kept s)) := queries_bind_of_forall htexts
    _ = if e.kept s = [] then [] else [(e.kept s).length] := queries_solve s (e.kept s)

/-! ### Evaluation, given the answer of the solver -/

/-- The solver answers, or it is not asked; otherwise it is asked and fails. -/
theorem answer_cases (e : Evaluator) (s : σ) :
    (∃ values, e.kept s ≠ [] → resolve s (e.kept s) = .ok values) ∨
      e.kept s ≠ [] ∧ ∃ cause, resolve s (e.kept s) = .error cause := by
  by_cases hkept : e.kept s = []
  · exact Or.inl ⟨[], fun h => absurd hkept h⟩
  · cases hanswer : resolve s (e.kept s) with
    | ok values => exact Or.inl ⟨values, fun _ => rfl⟩
    | error cause => exact Or.inr ⟨hkept, cause, rfl⟩

/-- **Evaluation of a state whose variables are solved.** There is a path, unless there is an
objection. -/
theorem outcome_evaluate_of_answer {e : Evaluator} {s : σ} {values : List Nat}
    (h : e.kept s ≠ [] → resolve s (e.kept s) = .ok values) :
    outcome (e.evaluate s) = (e.objection? ((e.kept s).zip values)).elim
      (.ok ⟨(e.kept s).map (·.key.name), ((e.kept s).zip values).filterMap solvedText?, history s⟩)
      fun o => .error (.overflow o) := by
  -- without variables nobody is asked, and nothing is paired, whatever the values are
  have hsolve : ∃ answer, outcome (solve s (e.kept s)) = .ok answer ∧
      (e.kept s).zip answer = (e.kept s).zip values := by
    rw [outcome_solve]
    split
    · next hkept => exact ⟨[], rfl, by rw [hkept, List.zip_nil_left, List.zip_nil_left]⟩
    · next hkept => exact ⟨values, by rw [h hkept]; rfl, rfl⟩
  obtain ⟨answer, hanswer, hzip⟩ := hsolve
  rw [outcome_evaluate, hanswer, ok_bind, hzip, outcome_texts]
  cases e.objection? ((e.kept s).zip values) with
  | none => rfl
  | some o => rfl

theorem outcome_evaluate_of_failure {e : Evaluator} {s : σ} {cause : EngineError}
    (hkept : e.kept s ≠ []) (h : resolve s (e.kept s) = .error cause) :
    outcome (e.evaluate s) = .error (.query cause) := by
  rw [outcome_evaluate, outcome_solve, if_neg hkept, h]
  rfl

/-- An evaluation fails because of the solver exactly if the solver is asked and fails. -/
theorem evaluate_eq_query_iff {e : Evaluator} {s : σ} {cause : EngineError} :
    outcome (e.evaluate s) = .error (.query cause) ↔
      e.kept s ≠ [] ∧ resolve s (e.kept s) = .error cause := by
  constructor
  · intro h
    rcases answer_cases e s with ⟨values, hvalues⟩ | ⟨hkept, cause', hcause⟩
    · -- with an answer nothing but an objection can be in the way
      rw [outcome_evaluate_of_answer hvalues] at h
      generalize e.objection? ((e.kept s).zip values) = objection at h
      cases objection with
      | none => cases h
      | some o => cases h
    · rw [outcome_evaluate_of_failure hkept hcause] at h
      cases h
      exact ⟨hkept, hcause⟩
  · rintro ⟨hkept, hcause⟩
    exact outcome_evaluate_of_failure hkept hcause

/-- **Strict and lenient evaluation.** All variables are kept but the excluded registers. The solver
is asked once for those that are kept, and not at all if there are none; an evaluation fails because
of the solver exactly if it is asked and fails. Otherwise let its answer be paired with the
variables by position, as far as both go. The lenient evaluator gives the path with the names of all
variables that are kept, the texts of the values that have one, in order, and the history of the
state. The strict evaluator gives the same if all values fit, and otherwise it reports the first
that does not. -/
theorem evaluate_strict_lenient (excluded : OffsetSet) (s : σ) :
    let kept := (unknowns s).filter (·.isKept excluded)
    let evaluation (strict : Bool) := (Evaluator.mk excluded strict).evaluate s
    (∀ v : Variable, v.isKept excluded = true ↔ ∀ offset ∈ excluded, v.key ≠ .register offset) ∧
    (∀ strict, queries (evaluation strict) = if kept = [] then [] else [kept.length]) ∧
    (∀ strict cause, outcome (evaluation strict) = .error (.query cause) ↔
      kept ≠ [] ∧ resolve s kept = .error cause) ∧
    (∀ values, (kept ≠ [] → resolve s kept = .ok values) →
      outcome (evaluation false) =
        .ok ⟨kept.map (·.key.name), (kept.zip values).filterMap solvedText?, history s⟩ ∧
      outcome (evaluation true) =
        ((kept.zip values).findSome? solvedOverflow?).elim (outcome (evaluation false))
          fun o => .error (.overflow o)) := by
  intro kept evaluation
  refine ⟨fun v => Variable.isKept_iff, fun strict => queries_evaluate _ s,
    fun strict cause => evaluate_eq_query_iff, fun values hvalues => ?_⟩
  -- the two evaluators differ in nothing but their objections
  have hlenient : outcome (evaluation false) =
      .ok ⟨kept.map (·.key.name), (kept.zip values).filterMap solvedText?, history s⟩ :=
    outcome_evaluate_of_answer (e := ⟨excluded, false⟩) hvalues
  refine ⟨hlenient, ?_⟩
  rw [hlenient]
  exact outcome_evaluate_of_answer (e := ⟨excluded, true⟩) hvalues

end Evaluator

/-- A state that gives one answer, whatever it is asked. -/
structure AnsweringState where
  place : Address
  history : List Address
  inputs : List Variable
  answer : Except EngineError (List Nat)

instance : SymbolicState AnsweringState where
  address := AnsweringState.place
  history := AnsweringState.history
  halted _ := true
  unknowns := AnsweringState.inputs
  resolve s _ := s.answer

/-- A register that is left out, a value with a text, zero, two values that do not fit, and a
variable for which there is no value. The variables behind the register get the values that belong
to them. -/
theorem Evaluator.evaluate_strict_lenient_mixed :
    let excluded : OffsetSet := .ofList [(0x30 : UInt64)]
    let s : AnsweringState := ⟨0x1030, [0x1000, 0x1010],
      [⟨.memory 0x10, 8⟩, ⟨.register 0x30, 64⟩, ⟨.file "stdin", 8⟩, ⟨.memory 0x11, 16⟩,
        ⟨.api "recv", 1⟩, ⟨.other "unconstrained" "t7", 32⟩],
      .ok [0x41, 0, 0x10000, 0x100]⟩
    queries ((Evaluator.mk excluded true).evaluate s) = [5] ∧
    outcome ((Evaluator.mk excluded false).evaluate s) =
      .ok ⟨["mem_10", "stdin", "mem_11", "recv", "t7"], ["0x41"], [0x1000, 0x1010]⟩ ∧
    outcome ((Evaluator.mk excluded true).evaluate s) =
      .error (.overflow ⟨"mem_11", 0x10000, 16⟩) := by
  intro excluded s
  obtain ⟨-, hqueries, -, hanswer⟩ := Evaluator.evaluate_strict_lenient excluded s
  obtain ⟨hlenient, hstrict⟩ := hanswer [0x41, 0, 0x10000, 0x100] fun _ => rfl
  refine ⟨(hqueries true).trans ?_, hlenient.trans ?_, hstrict.trans ?_⟩
  · decide +kernel
  · decide +kernel
  · decide +kernel

namespace Evaluator

variable {σ : Type} [SymbolicState σ] {e : Evaluator} {s : σ}

/-! ### The values of a path -/

/-- The solver gave a variable that is kept this value: they stand at the same place among the
variables that were asked for and in the answer. -/
def Solved (e : Evaluator) (s : σ) (v : Variable) (value : Nat) : Prop :=
  ∃ values, resolve s (e.kept s) = .ok values ∧ (v, value) ∈ (e.kept s).zip values

theorem solved_iff {values : List Nat} (h : e.kept s ≠ [] → resolve s (e.kept s) = .ok values)
    {v : Variable} {value : Nat} : e.Solved s v value ↔ (v, value) ∈ (e.kept s).zip values := by
  -- where there is a pair, there is a variable to ask for
  have hkept : ∀ values', (v, value) ∈ (e.kept s).zip values' →
      resolve s (e.kept s) = .ok values := by
    intro values' hmem
    exact h (List.ne_nil_of_mem (List.of_mem_zip hmem).1)
  constructor
  · rintro ⟨values', hvalues', hmem⟩
    rw [hkept values' hmem] at hvalues'
    cases hvalues'
    exact hmem
  · intro hmem
    exact ⟨values, hkept values hmem, hmem⟩

/-- **The values of a path are the texts of the values that the solver gave.** -/
theorem mem_values_iff {p : ExecutionPath} (h : outcome (e.evaluate s) = .ok p) {text : String} :
    text ∈ p.values ↔
      ∃ v value, e.Solved s v value ∧ decodeValue v.key.name value v.bits = .ok (some text) := by
  rcases answer_cases e s with ⟨values, hvalues⟩ | ⟨hkept, cause, hcause⟩
  · rw [outcome_evaluate_of_answer hvalues] at h
    generalize e.objection? ((e.kept s).zip values) = objection at h
    cases objection with
    | some o => cases h
    | none =>
      -- no text is missing from the path
      obtain rfl := Except.ok.inj h
      simp only [List.mem_filterMap, Prod.exists, solvedText?_eq_some_iff, solved_iff hvalues]
  · rw [outcome_evaluate_of_failure hkept hcause] at h
    cases h

end Evaluator

/-! ### Zero -/

/-- The digits of no number but zero are those of zero. -/
theorem hexText_ne_zeroText {value : Nat} (hvalue : value ≠ 0) : hexText value ≠ "0x0" := by
  intro h
  have hdigits : Nat.toDigits 16 value = ['0'] := by
    simpa [hexText, hexDigits] using congrArg String.toList h
  have hhead : (Nat.toDigits 16 value).head? = some '0' := by
    rw [hdigits]
    rfl
  exact head?_toDigits_ne hvalue hhead

/-- A value reads `0x0` exactly if it is long and spells this. -/
theorem valueText_eq_zeroText_iff {value : Nat} :
    valueText value = some "0x0" ↔
      62 ≤ (Nat.digits 16 value).length ∧ Text.ofBytes (bigEndian value) = "0x0" := by
  unfold valueText
  by_cases hvalue : value = 0
  · simp [hvalue]
  rw [if_neg hvalue, Option.some.injEq]
  split
  · -- the text is a number, and the number is not zero
    next hshort =>
      exact iff_of_false (hexText_ne_zeroText hvalue) fun h => absurd h.1 (Nat.not_le.mpr hshort)
  · next hlong => exact (and_iff_right (Nat.not_lt.mp hlong)).symm

theorem decodeValue_eq_zeroText_iff {name : String} {value : Nat} {bits : UInt32} :
    decodeValue name value bits = .ok (some "0x0") ↔
      value < 256 ^ bytesForBits bits ∧ 62 ≤ (Nat.digits 16 value).length ∧
        Text.ofBytes (layout bits value) = "0x0" := by
  rw [decodeValue_eq]
  split
  · next hfits =>
    rw [Except.ok.injEq, valueText_eq_zeroText_iff, Text.ofBytes_layout hfits, and_iff_right hfits]
  · next hfits => exact iff_of_false nofun fun h => hfits h.1

namespace Evaluator

variable {σ : Type} [SymbolicState σ] {e : Evaluator} {s : σ}

/-- **No value of a path stands for zero.** Each is the text of a number other than zero that the
solver gave to a variable that is kept. A path has the value `0x0` exactly if one of these numbers
fits its variable, has at least 62 hexadecimal digits, and the bytes of the variable spell this
text. -/
theorem evaluate_values_nonzero {p : ExecutionPath} (h : outcome (e.evaluate s) = .ok p) :
    (∀ text ∈ p.values, ∃ v value, e.Solved s v value ∧ value ≠ 0 ∧
      decodeValue v.key.name value v.bits = .ok (some text)) ∧
    ("0x0" ∈ p.values ↔ ∃ v value, e.Solved s v value ∧ value < 256 ^ bytesForBits v.bits ∧
      62 ≤ (Nat.digits 16 value).length ∧ Text.ofBytes (layout v.bits value) = "0x0") := by
  constructor
  · intro text htext
    obtain ⟨v, value, hsolved, hdecoded⟩ := (mem_values_iff h).mp htext
    refine ⟨v, value, hsolved, ?_, hdecoded⟩
    -- zero has no text
    rintro rfl
    cases hdecoded
  · rw [mem_values_iff h]
    simp only [decodeValue_eq_zeroText_iff]

/-- Zero, which has no text, a number of one digit, and a text of 32 bytes that spells `0x0` before
its blanks. -/
theorem evaluate_values_nonzero_spelled :
    let spelled := 0x3078302020202020202020202020202020202020202020202020202020202020
    let s : AnsweringState := ⟨0x1030, [0x1000],
      [⟨.register 0x10, 64⟩, ⟨.memory 0x601040, 8⟩, ⟨.file "stdin", 256⟩], .ok [0, 7, spelled]⟩
    let e : Evaluator := ⟨∅, true⟩
    outcome (e.evaluate s) = .ok ⟨["reg_16", "mem_601040", "stdin"], ["0x7", "0x0"], [0x1000]⟩ ∧
    (∃ v value, e.Solved s v value ∧ value ≠ 0 ∧
      decodeValue v.key.name value v.bits = .ok (some "0x7")) ∧
    ∃ v value, e.Solved s v value ∧ value < 256 ^ bytesForBits v.bits ∧
      62 ≤ (Nat.digits 16 value).length ∧ Text.ofBytes (layout v.bits value) = "0x0" := by
  intro spelled s e
  have hpath : outcome (e.evaluate s) =
      .ok ⟨["reg_16", "mem_601040", "stdin"], ["0x7", "0x0"], [0x1000]⟩ := by
    decide +kernel
  obtain ⟨hnonzero, hzero⟩ := evaluate_values_nonzero hpath
  exact ⟨hpath, hnonzero "0x7" (by simp), hzero.mp (by simp)⟩

/-- A number of 64 digits whose bytes are `0x0` and blanks is not zero, and it is shown as `0x0`. -/
theorem evaluate_spelled_zero :
    let spelled := 0x3078302020202020202020202020202020202020202020202020202020202020
    let s : AnsweringState := ⟨0x1030, [0x1000], [⟨.file "stdin", 256⟩], .ok [spelled]⟩
    let e : Evaluator := ⟨∅, false⟩
    outcome (e.evaluate s) = .ok ⟨["stdin"], ["0x0"], [0x1000]⟩ ∧
    ¬ ∀ p, outcome (e.evaluate s) = .ok p → "0x0" ∉ p.values := by
  intro spelled s e
  have hpath : outcome (e.evaluate s) = .ok ⟨["stdin"], ["0x0"], [0x1000]⟩ := by decide +kernel
  exact ⟨hpath, fun hnever => hnever _ hpath List.mem_cons_self⟩

end Evaluator

end SymbolicPaths
