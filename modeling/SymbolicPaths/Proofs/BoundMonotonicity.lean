import SymbolicPaths.Proofs.FullExploration

/-!
# Raising the loop bound loses no path

If a full exploration terminates and succeeds under some loop bound, then it does so under every
lower one, and the paths that it finds there are among those under the higher bound, in the same
order (`Explorer.explore_full_sublist`). Nothing is assumed about the engine, whose states need not
keep their histories.

Two runs are compared round by round. The lower bound lets fewer walks through
(`LoopBound.Narrower`), so that the states of the lower run are among those of the higher one, stash
by stash and in order (`Stashes.Within`). One round keeps this (`Within.next`): the lower run
executes some of the states that the higher one executes, and of the successors of each it keeps
some. What halts does so under either bound, and a state at which the engine fails is executed by
the higher run, too. By the time the higher run is over, so is the lower one (`Within.run`).
-/

namespace SymbolicPaths

open SymbolicState

namespace LoopBound

/-- `l'` lets every walk through that `l` lets through. -/
def Narrower (l l' : LoopBound) : Prop :=
  ∀ w, l.isSpinning w = false → l'.isSpinning w = false

/-- Which transitions step back is decided by the graph and its back edges, whatever the bound. -/
theorem backTransitionsFrom_ofGraph (g : Graph) (roots : List Address) (b b' : UInt32)
    (rest seen : List Address) (source : Address) :
    (ofGraph g roots b).backTransitionsFrom seen source rest =
      (ofGraph g roots b').backTransitionsFrom seen source rest := by
  induction rest generalizing seen source with
  | nil => rfl
  | cons target rest ih =>
    -- whether this transition steps back does not mention the bound, so `rfl` sees through it
    simp only [backTransitionsFrom, ih]
    rfl

theorem backTransitions_ofGraph (g : Graph) (roots : List Address) (b b' : UInt32)
    (w : List Address) :
    (ofGraph g roots b).backTransitions w = (ofGraph g roots b').backTransitions w := by
  cases w with
  | nil => rfl
  | cons first rest => exact backTransitionsFrom_ofGraph g roots b b' rest [first] first

/-- A lower bound is narrower. -/
theorem narrower_ofGraph (g : Graph) (roots : List Address) {b b' : UInt32} (hb : b ≤ b') :
    (ofGraph g roots b).Narrower (ofGraph g roots b') := by
  intro w h
  rw [isSpinning_eq_false_iff] at h ⊢
  intro t
  calc ((ofGraph g roots b').backTransitions w).count t
      = ((ofGraph g roots b).backTransitions w).count t := by
        rw [backTransitions_ofGraph g roots b' b]
    _ ≤ b.toNat := h t
    _ ≤ b'.toNat := UInt32.le_iff_toNat_le.mp hb

end LoopBound

namespace Stashes

variable {σ : Type}

/-- The active states and the dead ends of `m` are among those of `m'`, in order. -/
structure Within (m m' : Stashes σ) : Prop where
  active : m.active.Sublist m'.active
  deadended : m.deadended.Sublist m'.deadended

theorem Within.append {m₁ m₂ m₁' m₂' : Stashes σ} (h₁ : m₁.Within m₁') (h₂ : m₂.Within m₂') :
    (m₁ ++ m₂).Within (m₁' ++ m₂') where
  active := h₁.active.append h₂.active
  deadended := h₁.deadended.append h₂.deadended

theorem Within.append_left {m m' : Stashes σ} (h : m.Within m') (more : Stashes σ) :
    m.Within (more ++ m') where
  active := h.active.trans (List.sublist_append_right _ _)
  deadended := h.deadended.trans (List.sublist_append_right _ _)

theorem Within.refl (m : Stashes σ) : m.Within m :=
  ⟨List.Sublist.refl _, List.Sublist.refl _⟩

variable [SymbolicState σ] {e : Engine σ} {l l' : LoopBound} {m m' : Stashes σ}

theorem goesOn_of_narrower (hl : l.Narrower l') {s : σ} (h : goesOn l s = true) :
    goesOn l' s = true := by
  simp only [goesOn, Bool.and_eq_true, Bool.not_eq_true'] at h ⊢
  exact ⟨h.1, hl _ h.2⟩

/-- **One state.** Of its successors the narrower bound lets fewer go on, and the same ones halt. -/
theorem added_within (hl : l.Narrower l') (s : σ) (next : List σ) :
    (added l s next).Within (added l' s next) := by
  unfold added
  split
  · -- without successors the state itself is a dead end, whatever the bound
    exact .refl _
  · exact ⟨List.monotone_filter_right next fun _ => goesOn_of_narrower hl, List.Sublist.refl _⟩

/-- **One round.** It executes some of the states of the other one, so the engine fails at none of
them if it fails at none of the others. -/
theorem round_within (hl : l.Narrower l') {ss ss' : List σ} (hss : ss.Sublist ss')
    (hok : (round e l' ss').value.2 = none) :
    (round e l ss).value.2 = none ∧ (round e l ss).value.1.Within (round e l' ss').value.1 := by
  induction hss with
  | slnil => exact ⟨rfl, .refl _⟩
  | cons s _ ih =>
    -- only the other round executes `s`
    cases hs : e.step s with
    | error err =>
      rw [round_cons_error hs] at hok
      cases hok
    | ok next =>
      rw [round_cons_ok hs] at hok ⊢
      obtain ⟨herr, hwithin⟩ := ih hok
      exact ⟨herr, hwithin.append_left _⟩
  | cons_cons s _ ih =>
    -- both rounds execute `s`, and a failure would have been met by the other one
    cases hs : e.step s with
    | error err =>
      rw [round_cons_error hs] at hok
      cases hok
    | ok next =>
      rw [round_cons_ok hs] at hok ⊢
      rw [round_cons_ok hs]
      obtain ⟨herr, hwithin⟩ := ih hok
      exact ⟨herr, (added_within hl s next).append hwithin⟩

theorem Within.next (hl : l.Narrower l') (h : m.Within m')
    (hok : (m'.step e l').value.2 = none) :
    (m.step e l).value.2 = none ∧ (m.next e l).Within (m'.next e l') := by
  rw [step_value] at hok
  obtain ⟨herr, hwithin⟩ := round_within hl h.active hok
  refine ⟨herr, ?_⟩
  have hidle : Within { m with active := [] } { m' with active := [] } :=
    ⟨List.Sublist.refl _, h.deadended⟩
  exact hidle.append hwithin

/-- **All rounds.** If the run of `m'` stops without an engine error, then so does that of `m`, and
its dead ends are among those of the other one. -/
theorem Within.run (hl : l.Narrower l') {n : Nat} (hstops : StopsWithin e l' n m')
    (hok : (m'.run e l').value.2 = none) (h : m.Within m') :
    StopsWithin e l n m ∧ (m.run e l).value.2 = none ∧
      (m.run e l).value.1.deadended.Sublist (m'.run e l').value.1.deadended := by
  -- by induction on the rounds of the longer run, the one under the wider bound
  induction hstops generalizing m with
  | @idle n m' hnone =>
    have hnone' : m.active = [] := List.sublist_nil.mp (hnone ▸ h.active)
    rw [run_of_active_eq_nil hnone, run_of_active_eq_nil hnone']
    exact ⟨.idle hnone', rfl, h.deadended⟩
  | fails herr =>
    rw [run_of_error herr, herr] at hok
    cases hok
  | @round n m' hactive hstep hstops ih =>
    rw [run_of_step hactive hstep hstops] at hok ⊢
    obtain ⟨hstep', hnext⟩ := h.next hl hstep
    obtain ⟨hstops', hok', hsub⟩ := ih hok hnext
    by_cases hnone : m.active = []
    · -- the narrower run is over already, and waits for the other one
      rw [next_of_active_eq_nil hnone] at hok' hsub
      exact ⟨.idle hnone, hok', hsub⟩
    · rw [run_of_step hnone hstep' hstops']
      exact ⟨.round hnone hstep' hstops', hok', hsub⟩

end Stashes

namespace Explorer

variable {σ : Type} [SymbolicState σ]

/-- The same explorer under another loop bound. -/
def withBound (x : Explorer σ) (l : LoopBound) : Explorer σ :=
  { x with loopBound := l }

/-- **Raising the loop bound never loses a path.** Let a full exploration under the bound `b'`
terminate and succeed. Under a bound `b ≤ b'` made from the same graph and roots it then terminates
and succeeds, too, and its paths are among those under `b'`, in the same order. -/
theorem explore_full_sublist (x : Explorer σ) (g : Graph) (roots : List Address) {b b' : UInt32}
    (hb : b ≤ b') (f : Function) (paths' : List ExecutionPath) (hmode : x.mode = .full)
    (hterminates : (x.withBound (.ofGraph g roots b')).Terminates f)
    (hok : outcome ((x.withBound (.ofGraph g roots b')).explore f) = .ok paths') :
    (x.withBound (.ofGraph g roots b)).Terminates f ∧
    ∃ paths, outcome ((x.withBound (.ofGraph g roots b)).explore f) = .ok paths ∧
      paths.Sublist paths' := by
  have hl := LoopBound.narrower_ofGraph g roots hb
  simp only [explore, withBound, hmode, exploreFull_eq_ok_iff] at hok ⊢
  obtain ⟨s, hentry, herr, hpaths⟩ := hok
  obtain ⟨n, hstops⟩ := hterminates hmode s hentry
  -- both runs begin with the same state
  obtain ⟨hstops', herr', hdeadended⟩ := (Stashes.Within.refl (.start s)).run hl hstops herr
  -- dead ends are evaluated one by one, so fewer of them give fewer paths and no new failure
  obtain ⟨paths, hpaths', hsub⟩ := mapM_sublist hdeadended hpaths
  refine ⟨fun _ t ht => ?_, paths, ⟨s, hentry, herr', hpaths'⟩, hsub⟩
  obtain rfl : s = t := Except.ok.inj (hentry.symm.trans ht)
  exact ⟨n, hstops'⟩

/-- A loop that may be closed twice has the paths of a loop that may be closed once. -/
theorem explore_full_sublist_lasso :
    let x := walker Graph.lasso [1] 2 ⟨∅, false⟩ .full true
    let f : Function := ⟨1, "loop", 0, [1, 2, 3], [3]⟩
    ∃ paths paths',
      outcome ((x.withBound (.ofGraph Graph.lasso [1] 1)).explore f) = .ok paths ∧
      outcome ((x.withBound (.ofGraph Graph.lasso [1] 2)).explore f) = .ok paths' ∧
      paths.Sublist paths' := by
  intro x f
  have hnode : Graph.lasso.contains f.address = true := by decide
  obtain ⟨n, hstops⟩ := Stashes.stopsWithin_walker Graph.lasso [1] 2 hnode
  obtain ⟨k, -, hok⟩ := outcome_explore_full_walker ⟨∅, false⟩ true hnode hstops
  have hterminates := terminates_walker Graph.lasso [1] 2 ⟨∅, false⟩ .full true f
  obtain ⟨-, paths, hpaths, hsub⟩ :=
    explore_full_sublist x Graph.lasso [1] (by decide : (1 : UInt32) ≤ 2) f _ rfl hterminates hok
  exact ⟨paths, _, hpaths, hok, hsub⟩

end Explorer

end SymbolicPaths
