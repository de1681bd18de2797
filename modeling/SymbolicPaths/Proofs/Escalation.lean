import SymbolicPaths.Proofs.LenientDump

/-!
# Verbosity turns recovered failures into errors

Above verbosity 1 nothing is recovered from, and that is all that verbosity changes about an
artifact (`Project.dump_escalation`). The strict dump and the lenient one end alike unless the
strict one has given up at a failure that the lenient one puts up with: the exploration of a
function has failed, or a value does not fit the variable that it was solved for.

Strictness acts in two places, on the values of one state and on the exploration of one function,
and which error surfaces depends on the order in which states, starts and functions are gone
through. The two dumps are therefore aligned step by step. `Escalates` says how two outcomes
compare; it is kept by sequences (`Escalates.bind`), by going through a list (`Escalates.mapM`) and
by wrapping errors (`Escalates.mapError`), and each function of the evaluator, of the explorer and
of the dump is a sequence of such steps.
-/

namespace SymbolicPaths

open SymbolicState

/-! ### Comparing outcomes -/

section Escalates

variable {ε ε' α β : Type} {fatal : ε → Prop} {failed failed' : Prop} {strict lenient : Except ε α}

/-- The two computations end alike, or else the strict one has given up with a fatal error, and
something has failed. -/
def Escalates (fatal : ε → Prop) (failed : Prop) (strict lenient : Except ε α) : Prop :=
  strict = lenient ∨ (∃ err, strict = .error err ∧ fatal err) ∧ failed

namespace Escalates

theorem refl (x : Except ε α) : Escalates fatal failed x x :=
  Or.inl rfl

theorem imp (h : Escalates fatal failed strict lenient) (hfailed : failed → failed') :
    Escalates fatal failed' strict lenient :=
  Or.imp_right (And.imp_right hfailed) h

/-- If the first parts of two sequences end alike, then the rest decides; otherwise the strict
sequence is over. -/
theorem bind {f g : α → Except ε β} (h : Escalates fatal failed strict lenient)
    (hrest : ∀ a, lenient = .ok a → Escalates fatal failed (f a) (g a)) :
    Escalates fatal failed (strict >>= f) (lenient >>= g) := by
  rcases h with rfl | ⟨⟨err, rfl, hfatal⟩, hfailed⟩
  · cases hfirst : strict with
    | error err => exact refl _
    | ok a => exact hrest a hfirst
  · exact Or.inr ⟨⟨err, rfl, hfatal⟩, hfailed⟩

theorem mapError {fatal' : ε' → Prop} {wrap : ε → ε'} (h : Escalates fatal failed strict lenient)
    (hwrap : ∀ err, fatal err → fatal' (wrap err)) :
    Escalates fatal' failed (strict.mapError wrap) (lenient.mapError wrap) := by
  rcases h with rfl | ⟨⟨err, rfl, hfatal⟩, hfailed⟩
  · exact refl _
  · exact Or.inr ⟨⟨wrap err, rfl, hwrap err hfatal⟩, hfailed⟩

theorem mapM {f g : α → Except ε β} {as : List α}
    (h : ∀ a ∈ as, Escalates fatal failed (f a) (g a)) :
    Escalates fatal failed (as.mapM f) (as.mapM g) := by
  induction as with
  | nil => exact refl _
  | cons a rest ih =>
    rw [List.mapM_cons, List.mapM_cons]
    have hlater := ih fun b hb => h b (List.mem_cons_of_mem _ hb)
    exact (h a List.mem_cons_self).bind fun _ _ => hlater.bind fun _ _ => refl _

end Escalates

end Escalates

variable {σ : Type} [SymbolicState σ]

/-! ### One state -/

/-- The value has no text, because it does not fit the variable. -/
def Variable.Misfits (v : Variable) (value : Nat) : Prop :=
  ∃ err, decodeValue v.key.name value v.bits = .error err

namespace Evaluator

/-- Some value that an evaluator solves for does not fit its variable. -/
def Overflows (e : Evaluator) (s : σ) : Prop :=
  ∃ values, outcome (solve s (e.kept s)) = .ok values ∧
    ∃ solved ∈ (e.kept s).zip values, solved.1.Misfits solved.2

/-- Whether a strict evaluator finds all texts depends on the first value that does not fit. -/
theorem escalates_texts {e d : Evaluator} (hd : d.strict = false) (pairs : List (Variable × Nat)) :
    Escalates (fun _ => True) (∃ solved ∈ pairs, solved.1.Misfits solved.2)
      (outcome (e.texts pairs)) (outcome (d.texts pairs)) := by
  rw [outcome_texts, outcome_texts, objection?_of_lenient hd]
  cases hobjection : e.objection? pairs with
  | none => exact .refl _
  | some o =>
    -- the lenient evaluator leaves this value out, and the strict one is over
    obtain ⟨solved, hmem, hmisfits⟩ := exists_of_objection hobjection
    exact Or.inr ⟨⟨.overflow o, rfl, trivial⟩, solved, hmem, o, hmisfits⟩

theorem escalates_evaluate {e d : Evaluator} (hexcluded : e.excluded = d.excluded)
    (hd : d.strict = false) (s : σ) :
    Escalates (fun _ => True) (d.Overflows s)
      (outcome (e.evaluate s)) (outcome (d.evaluate s)) := by
  have hkept : e.kept s = d.kept s := by rw [kept, kept, hexcluded]
  rw [outcome_evaluate, outcome_evaluate, hkept]
  -- both ask the same question, so that only the texts can differ
  refine Escalates.bind (.refl _) fun values hvalues => ?_
  refine Escalates.bind ((escalates_texts hd _).imp fun hmisfit => ?_) fun _ _ => .refl _
  exact ⟨values, hvalues, hmisfit⟩

end Evaluator

/-! ### One function -/

namespace Explorer

variable {x : Explorer σ} {f : Function} {steps : Nat} {allowOverlap : Bool}

omit [SymbolicState σ] in
/-- The same explorer, except that it recovers from nothing. -/
def escalated (x : Explorer σ) : Explorer σ :=
  { x with strict := true, evaluator := { x.evaluator with strict := true } }

/-- The states whose paths are recorded by tracelets from the given starts. -/
inductive CollectsFrom (x : Explorer σ) (f : Function) (steps : Nat) (allowOverlap : Bool) :
    AddressSet → List Address → σ → Prop
  | here {claimed : AddressSet} {start : Address} {starts : List Address} {entry s : σ}
    {m : Stashes σ} : claimed.contains start = false → x.engine.entry start = .ok entry →
    outcome (x.traceletRounds f claimed steps (.start entry)) = .ok m → s ∈ m.recorded →
    CollectsFrom x f steps allowOverlap claimed (start :: starts) s
  | later {claimed : AddressSet} {start : Address} {starts : List Address}
      {paths : List ExecutionPath} {s : σ} :
    (if claimed.contains start then .ok [] else outcome (x.traceletFrom f steps claimed start)) =
      .ok paths →
    CollectsFrom x f steps allowOverlap
      (if allowOverlap then claimed else claimed.insertMany (paths.flatMap (·.history))) starts s →
    CollectsFrom x f steps allowOverlap claimed (start :: starts) s

/-- The states whose paths an exploration of `f` records: the dead ends of a full run, and whatever
is left of the tracelets. -/
def Collects (x : Explorer σ) (f : Function) (s : σ) : Prop :=
  match x.mode with
  | .full => ∃ entry, x.engine.entry f.address = .ok entry ∧
      ((Stashes.start entry).run x.engine x.loopBound).value.2 = none ∧
      s ∈ ((Stashes.start entry).run x.engine x.loopBound).value.1.deadended
  | .tracelet steps allowOverlap => x.CollectsFrom f steps.toNat allowOverlap ∅ f.blocks s

theorem escalates_evaluate (hx : x.evaluator.strict = false) (s : σ) :
    Escalates (fun _ => True) (x.evaluator.Overflows s)
      (outcome (x.escalated.evaluate f s)) (outcome (x.evaluate f s)) := by
  rw [outcome_evaluate, outcome_evaluate]
  have hstate :=
    Evaluator.escalates_evaluate (e := x.escalated.evaluator) (d := x.evaluator) rfl hx s
  exact Escalates.mapError hstate fun _ _ => trivial

/-- Several states: what fails is one of them. -/
theorem escalates_evaluateAll (hx : x.evaluator.strict = false) {collects : σ → Prop} {ss : List σ}
    (hss : ∀ s ∈ ss, collects s) :
    Escalates (fun _ => True) (∃ s, collects s ∧ x.evaluator.Overflows s)
      (ss.mapM fun s => outcome (x.escalated.evaluate f s))
      (ss.mapM fun s => outcome (x.evaluate f s)) :=
  Escalates.mapM fun s hs => (escalates_evaluate hx s).imp fun hoverflow => ⟨s, hss s hs, hoverflow⟩

theorem escalates_traceletFrom (hx : x.evaluator.strict = false) {claimed : AddressSet}
    {start : Address} (hfree : claimed.contains start = false) (starts : List Address) :
    Escalates (fun _ => True)
      (∃ s, x.CollectsFrom f steps allowOverlap claimed (start :: starts) s ∧
        x.evaluator.Overflows s)
      (outcome (x.escalated.traceletFrom f steps claimed start))
      (outcome (x.traceletFrom f steps claimed start)) := by
  rw [outcome_traceletFrom, outcome_traceletFrom]
  refine Escalates.bind (.refl _) fun m hm => ?_
  obtain ⟨entry, hentry, rfl⟩ := exists_entry_of_enter hm
  rw [outcome_traceletRounds_congr (x := x.escalated) (y := x) rfl rfl]
  refine Escalates.bind (.refl _) fun m' hm' => ?_
  exact escalates_evaluateAll hx fun s hs => .here hfree hentry hm' hs

/-- **All starts.** As long as no value overflows, the paths are the same, hence the claims. -/
theorem escalates_tracelets (hx : x.evaluator.strict = false) (claimed : AddressSet)
    (starts : List Address) :
    Escalates (fun _ => True)
      (∃ s, x.CollectsFrom f steps allowOverlap claimed starts s ∧ x.evaluator.Overflows s)
      (outcome (x.escalated.tracelets f steps allowOverlap claimed starts))
      (outcome (x.tracelets f steps allowOverlap claimed starts)) := by
  induction starts generalizing claimed with
  | nil => exact .refl _
  | cons start starts ih =>
    rw [outcome_tracelets_cons, outcome_tracelets_cons]
    refine Escalates.bind ?_ fun paths hpaths => ?_
    · split
      · exact .refl _
      · next hfree => exact escalates_traceletFrom hx (Bool.eq_false_iff.mpr hfree) starts
    · refine Escalates.bind ((ih _).imp ?_) fun _ _ => .refl _
      rintro ⟨s, hs, hoverflow⟩
      exact ⟨s, .later hpaths hs, hoverflow⟩

theorem escalates_exploreFull (hx : x.evaluator.strict = false) (hmode : x.mode = .full) :
    Escalates (fun _ => True) (∃ s, x.Collects f s ∧ x.evaluator.Overflows s)
      (outcome (x.escalated.exploreFull f)) (outcome (x.exploreFull f)) := by
  cases hentry : x.engine.entry f.address with
  | error err =>
    rw [outcome_exploreFull_error hentry, outcome_exploreFull_error (x := x.escalated) hentry]
    exact .refl _
  | ok entry =>
    rw [outcome_exploreFull hentry, outcome_exploreFull (x := x.escalated) hentry]
    dsimp only [escalated]
    -- the run is the same, and whether the engine has failed in it is decided before any evaluation
    cases herr : ((Stashes.start entry).run x.engine x.loopBound).value.2 with
    | some err => exact .refl _
    | none =>
      refine escalates_evaluateAll hx fun s hs => ?_
      unfold Collects
      rw [hmode]
      exact ⟨entry, hentry, herr, hs⟩

theorem escalates_explore (hx : x.evaluator.strict = false) (f : Function) :
    Escalates (fun _ => True) (∃ s, x.Collects f s ∧ x.evaluator.Overflows s)
      (outcome (x.escalated.explore f)) (outcome (x.explore f)) := by
  cases hmode : x.mode with
  | full =>
    unfold explore
    simp only [escalated, hmode]
    exact escalates_exploreFull hx hmode
  | tracelet steps allowOverlap =>
    rw [explore_tracelet hmode, explore_tracelet (x := x.escalated) hmode]
    unfold Collects
    rw [hmode]
    exact (escalates_tracelets hx ∅ f.blocks).bind fun _ _ => .refl _

/-- Something goes wrong with a function in a lenient exploration: it fails, or a value
overflows. -/
def HasFailure (x : Explorer σ) (f : Function) : Prop :=
  (∃ cause, outcome (x.explore f) = .error cause) ∨ ∃ s, x.Collects f s ∧ x.evaluator.Overflows s

theorem escalates_exploreOrRecover (hx : x.strict = false) (hx' : x.evaluator.strict = false)
    (f : Function) :
    Escalates (fun _ => True) (x.HasFailure f)
      (outcome (x.escalated.exploreOrRecover f)) (outcome (x.exploreOrRecover f)) := by
  rw [outcome_exploreOrRecover_strict (x := x.escalated) rfl, outcome_exploreOrRecover_lenient hx]
  cases hlenient : outcome (x.explore f) with
  | ok paths =>
    have hfound : x.foundPaths f = paths := by rw [foundPaths, hlenient]
    rw [hfound, ← hlenient]
    exact (escalates_explore hx' f).imp Or.inr
  | error cause =>
    -- the lenient explorer recovers from a failure with which the strict one ends in any case
    rcases escalates_explore hx' f with hsame | ⟨⟨err, herr, -⟩, -⟩
    · exact Or.inr ⟨⟨cause, hsame.trans hlenient, trivial⟩, Or.inl ⟨cause, hlenient⟩⟩
    · exact Or.inr ⟨⟨err, herr, trivial⟩, Or.inl ⟨cause, hlenient⟩⟩

end Explorer

/-! ### Dumps -/

namespace Project

variable {p : Project σ}

theorem escalates_dumpFunction {x : Explorer σ} (hx : x.strict = false)
    (hx' : x.evaluator.strict = false) (f : Function) :
    Escalates (fun err => ∃ cause, err = .exploration cause) (x.HasFailure f)
      (outcome (p.dumpFunction x.escalated f)) (outcome (p.dumpFunction x f)) := by
  rw [outcome_dumpFunction, outcome_dumpFunction]
  -- the records of the blocks come first, and no explorer has a part in them
  refine Escalates.bind (.refl _) fun blocks _ => ?_
  refine Escalates.bind ?_ fun paths _ => .refl _
  exact (Explorer.escalates_exploreOrRecover hx hx' f).mapError fun err _ => ⟨err, rfl⟩

omit [SymbolicState σ] in
theorem explorer_of_strict {o o' : Options} (ho : o = { o' with verbosity := o.verbosity })
    (hstrict : o.strict = true) (e : Engine σ) : p.explorer o e = (p.explorer o' e).escalated := by
  unfold explorer Explorer.escalated
  rw [hstrict, ho]
  rfl

/-- **All functions.** The strict dump gives up at a function with which something goes wrong in the
lenient one. -/
theorem escalates_dump (p : Project σ) (strict lenient : Options)
    (hsame : strict = { lenient with verbosity := strict.verbosity })
    (hstrict : strict.strict = true) (hlenient : lenient.strict = false) :
    Escalates (fun err => ∃ cause, err = .exploration cause)
      (∃ e, p.engine = .ok e ∧ ∃ f ∈ selectFunctions p.functions lenient.functions,
        (p.explorer lenient e).HasFailure f)
      (outcome (p.dump strict)) (outcome (p.dump lenient)) := by
  have hfunctions : strict.functions = lenient.functions := by rw [hsame]
  rw [outcome_dump, outcome_dump, hfunctions]
  refine Escalates.bind (.refl _) fun e he => ?_
  refine Escalates.bind (Escalates.mapM fun f hf => ?_) fun _ _ => .refl _
  rw [explorer_of_strict hsame hstrict]
  refine (escalates_dumpFunction (x := p.explorer lenient e) hlenient hlenient f).imp
    fun hfailure => ?_
  exact ⟨e, mapError_eq_ok_iff.mp he, f, hf, hfailure⟩

/-- **Verbosity only turns recovered failures into errors.** Compare a dump up to verbosity 1 with
one from verbosity 2 on that is the same otherwise. If the strict dump returns an artifact, then the
lenient one returns the same artifact; if the binary is at fault in the strict dump, then it is so,
for the same reason, in the lenient one. Where only the lenient dump returns an artifact, the strict
one has failed because of an exploration, and in the lenient dump the exploration of some chosen
function fails, or some state that is recorded for such a function has a value that does not fit its
variable. The lenient dump never fails because of an exploration. -/
theorem dump_escalation (p : Project σ) (o : Options) (quiet loud : UInt8) (hquiet : quiet ≤ 1)
    (hloud : 2 ≤ loud) :
    let lenient := { o with verbosity := quiet }
    let strict := { o with verbosity := loud }
    (∀ a, p.Returns strict (.ok a) → p.Returns lenient (.ok a)) ∧
    (∀ cause, p.Returns strict (.error (.binary cause)) →
      p.Returns lenient (.error (.binary cause))) ∧
    (∀ a err, p.Returns lenient (.ok a) → p.Returns strict (.error err) →
      (∃ cause, err = .exploration cause) ∧
      ∃ e, p.engine = .ok e ∧ ∃ f ∈ selectFunctions p.functions o.functions,
        (∃ cause, outcome ((p.explorer lenient e).explore f) = .error cause) ∨
        ∃ s, (p.explorer lenient e).Collects f s ∧ (p.explorer lenient e).evaluator.Overflows s) ∧
    ∀ cause, ¬ p.Returns lenient (.error (.exploration cause)) := by
  intro lenient strict
  have hlenient : lenient.strict = false := Options.strict_eq_false hquiet
  have hstrict : strict.strict = true := Options.strict_eq_true hloud
  -- explorations terminate or not whatever the verbosity
  have hterminates : p.Terminates strict → p.Terminates lenient := id
  have hescalates := escalates_dump p strict lenient rfl hstrict hlenient
  refine ⟨fun a h => ⟨hterminates h.1, ?_⟩, fun cause h => ⟨hterminates h.1, ?_⟩,
    fun a err h h' => ?_, fun cause h => ?_⟩
  · rcases hescalates with hsame | ⟨⟨err, herr, -⟩, -⟩
    · exact hsame.symm.trans h.2
    · cases herr.symm.trans h.2
  · rcases hescalates with hsame | ⟨⟨err, herr, cause', rfl⟩, -⟩
    · exact hsame.symm.trans h.2
    · cases herr.symm.trans h.2
  · rcases hescalates with hsame | ⟨⟨err', herr, hfatal⟩, hfailure⟩
    · cases h.2.symm.trans (hsame.symm.trans h'.2)
    · obtain rfl : err' = err := Except.error.inj (herr.symm.trans h'.2)
      exact ⟨hfatal, hfailure⟩
  · obtain ⟨cause', hbinary, -⟩ := of_dump_error hlenient h.2
    cases hbinary

end Project

/-- Before and after reading a byte from a gauge that shows more than a byte can hold. -/
inductive GaugeState where
  | fresh
  | read
  deriving DecidableEq

instance : SymbolicState GaugeState where
  address _ := 1
  history
    | .fresh => []
    | .read => [1]
  halted s := s = .read
  unknowns _ := [⟨.api "gauge", 8⟩]
  resolve _ wanted := .ok (wanted.map fun _ => 256)

/-- A function of one block that reads the gauge. -/
def Project.gauge : Project GaugeState where
  info := ⟨⟨"x86_64", 64, .little⟩, 1, ∅⟩
  functions := [⟨1, "read", 4, [1], [1]⟩]
  blocks := .ofList [((1 : Address), (⟨4, [], .ok []⟩ : Block))]
  graph := Graph.empty.addNode 1
  engine := .ok { entry := fun _ => .ok .fresh, step := fun _ => .ok [.read] }

/-- The lenient dump leaves the value out, and the strict one fails. -/
theorem Project.dump_escalation_gauge :
    let o : Options := { tracelet := 1 }
    let found : FunctionRecord := ⟨1, "read", 1, 4, [1], [1], [⟨["gauge"], [], [1]⟩]⟩
    gauge.Returns { o with verbosity := 1 } (.ok ⟨gauge.info, [found], [⟨1, 1, 4, []⟩]⟩) ∧
    gauge.Returns { o with verbosity := 2 }
      (.error (.exploration (.evaluation "read" (.overflow ⟨"gauge", 256, 8⟩)))) ∧
    ∃ e, gauge.engine = .ok e ∧ ∃ f ∈ gauge.functions,
      (∃ cause, outcome ((gauge.explorer { o with verbosity := 1 } e).explore f) = .error cause) ∨
      ∃ s, (gauge.explorer { o with verbosity := 1 } e).Collects f s ∧
        (gauge.explorer { o with verbosity := 1 } e).evaluator.Overflows s := by
  intro o found
  have hlenient : gauge.Returns { o with verbosity := 1 }
      (.ok ⟨gauge.info, [found], [⟨1, 1, 4, []⟩]⟩) := by
    -- the rounds of tracelets are counted
    refine ⟨fun e he f _ hmode => ?_, rfl⟩
    cases hmode
  have hstrict : gauge.Returns { o with verbosity := 2 }
      (.error (.exploration (.evaluation "read" (.overflow ⟨"gauge", 256, 8⟩)))) := by
    refine ⟨fun e he f _ hmode => ?_, rfl⟩
    cases hmode
  obtain ⟨-, -, hfailure, -⟩ := dump_escalation gauge o 1 2 (by decide) (by decide)
  exact ⟨hlenient, hstrict, (hfailure _ _ hlenient hstrict).2⟩

end SymbolicPaths
