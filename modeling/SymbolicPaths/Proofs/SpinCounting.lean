import Mathlib.Data.Finset.Card
import Mathlib.Data.Finset.Range
import Mathlib.Data.List.Basic
import Mathlib.Logic.Function.Basic
import SymbolicPaths.LoopBound
import SymbolicPaths.Proofs.GraphLaws
import SymbolicPaths.Proofs.Spinning

/-!
# Counting back transitions

`LoopBound.isSpinning` lists the transitions of a walk that step back and counts them. This file
says the same in two other ways (`LoopBound.isSpinning_iff_backPositions`).

* By positions. At position `i` a walk goes from its address `i` to its address `i + 1`, and whether
  this is a step back depends on the edges of the graph and on the addresses up to `i`
  (`StepsBackAt`). The same transition can be new at one position and a step back at a later one. A
  walk spins exactly if some pair of addresses has more than `bound` positions (`backPositions`,
  `count_backTransitions`).
* By a loop over the walk with one counter of 32 bits for each transition (`LoopBound.tally`), which
  is over as soon as a counter goes beyond the bound. A counter that is not beyond the bound can be
  increased unless the bound is the largest word, and then it takes as many transitions as there are
  words to get it there. For shorter walks the verdict of the loop is that of the lists
  (`holds_tally`).

Walks only ever gain back transitions, and the loop does not look at what comes after its verdict,
so that either way whatever continues a spinning walk spins.
-/

namespace SymbolicPaths

namespace LoopBound

variable {l : LoopBound} {w : List Address} {u v : Address}

/-! ### Positions -/

/-- At position `i` the walk goes from `u` to `v`, and this is a step back: along a known edge if it
is a back edge, otherwise if `v` is among the addresses up to there. -/
def StepsBackAt (l : LoopBound) (w : List Address) (u v : Address) (i : Nat) : Prop :=
  w[i]? = some u ∧ w[i + 1]? = some v ∧
    (l.graph.Edge u v ∧ l.isBackEdge u v = true ∨ ¬ l.graph.Edge u v ∧ v ∈ w.take (i + 1))

instance (l : LoopBound) (w : List Address) (u v : Address) : DecidablePred (l.StepsBackAt w u v) :=
  fun i => inferInstanceAs (Decidable (w[i]? = some u ∧ w[i + 1]? = some v ∧
    (l.graph.Edge u v ∧ l.isBackEdge u v = true ∨ ¬ l.graph.Edge u v ∧ v ∈ w.take (i + 1))))

/-- The positions at which a walk steps back from `u` to `v`. The last address has no position. -/
def backPositions (l : LoopBound) (w : List Address) (u v : Address) : Finset Nat :=
  (Finset.range (w.length - 1)).filter (l.StepsBackAt w u v)

theorem stepsBack_iff {seen : List Address} :
    l.stepsBack seen u v = true ↔
      l.graph.Edge u v ∧ l.isBackEdge u v = true ∨ ¬ l.graph.Edge u v ∧ v ∈ seen := by
  unfold stepsBack
  split
  · next h => simp [Graph.hasEdge_iff.mp h]
  · next h => simp [show ¬ l.graph.Edge u v from h]

/-- In which order the addresses were seen makes no difference. -/
theorem stepsBack_congr {seen seen' : List Address} (h : v ∈ seen ↔ v ∈ seen') :
    l.stepsBack seen u v = l.stepsBack seen' u v := by
  rw [Bool.eq_iff_iff, stepsBack_iff, stepsBack_iff, h]

/-- One more address adds at most one back transition, from the last address so far. -/
theorem backTransitions_concat (w : List Address) (a b : Address) :
    l.backTransitions (w ++ [a] ++ [b]) =
      l.backTransitions (w ++ [a]) ++ if l.stepsBack (w ++ [a]) a b then [(a, b)] else [] := by
  cases w with
  | nil => rfl
  | cons first rest =>
    have hseen : l.stepsBack ((rest ++ [a]).reverse ++ [first]) a b =
        l.stepsBack (first :: (rest ++ [a])) a b := by
      refine stepsBack_congr ?_
      simp only [List.mem_append, List.mem_reverse, List.mem_cons, List.not_mem_nil, or_false]
      rw [or_comm]
    simp only [List.cons_append, backTransitions]
    rw [backTransitionsFrom_append, List.getLastD_concat]
    simp only [backTransitionsFrom, hseen]

/-- What happens at a position does not depend on how the walk goes on after it. -/
theorem stepsBackAt_append {i : Nat} (hi : i + 1 < w.length) (more : List Address) :
    l.StepsBackAt (w ++ more) u v i ↔ l.StepsBackAt w u v i := by
  unfold StepsBackAt
  rw [List.getElem?_append_left (Nat.lt_of_succ_lt hi), List.getElem?_append_left hi,
    List.take_append_of_le_length (Nat.le_of_lt hi)]

/-- At the last position a walk goes from its last address but one to its last address. -/
theorem stepsBackAt_concat (w : List Address) (a b : Address) :
    l.StepsBackAt (w ++ [a] ++ [b]) u v w.length ↔
      (a, b) = (u, v) ∧ l.stepsBack (w ++ [a]) a b = true := by
  have hsource : (w ++ [a] ++ [b])[w.length]? = some a := by simp
  have htarget : (w ++ [a] ++ [b])[w.length + 1]? = some b := by simp
  have hseen : (w ++ [a] ++ [b]).take (w.length + 1) = w ++ [a] := List.take_left' (by simp)
  unfold StepsBackAt
  rw [hsource, htarget, hseen, Prod.mk.injEq]
  constructor
  · rintro ⟨hu, hv, hback⟩
    obtain rfl := Option.some.inj hu
    obtain rfl := Option.some.inj hv
    exact ⟨⟨rfl, rfl⟩, stepsBack_iff.mpr hback⟩
  · rintro ⟨⟨rfl, rfl⟩, hback⟩
    exact ⟨rfl, rfl, stepsBack_iff.mp hback⟩

/-- One more address adds at most one position. -/
theorem card_backPositions_concat (w : List Address) (a b : Address) :
    (l.backPositions (w ++ [a] ++ [b]) u v).card =
      (l.backPositions (w ++ [a]) u v).card +
        if (a, b) = (u, v) ∧ l.stepsBack (w ++ [a]) a b = true then 1 else 0 := by
  have hlength : (w ++ [a] ++ [b]).length - 1 = w.length + 1 := by simp
  have hlength' : (w ++ [a]).length - 1 = w.length := by simp
  have hearlier : (Finset.range w.length).filter (l.StepsBackAt (w ++ [a] ++ [b]) u v) =
      l.backPositions (w ++ [a]) u v := by
    unfold backPositions
    rw [hlength']
    refine Finset.filter_congr fun i hi => stepsBackAt_append ?_ [b]
    simpa using Finset.mem_range.mp hi
  have hfresh : w.length ∉ l.backPositions (w ++ [a]) u v := by
    intro h
    have hlt := Finset.mem_range.mp (Finset.mem_filter.mp h).1
    omega
  rw [backPositions, hlength, Finset.range_add_one, Finset.filter_insert, hearlier]
  simp only [stepsBackAt_concat]
  split
  · exact Finset.card_insert_of_notMem hfresh
  · rfl

/-- **Counts are numbers of positions.** -/
theorem count_backTransitions (w : List Address) (u v : Address) :
    (l.backTransitions w).count (u, v) = (l.backPositions w u v).card := by
  -- the walk grows at its end, where the addresses seen so far are those before
  induction w using List.reverseRecOn with
  | nil => rfl
  | append_singleton w b ih =>
    rcases List.eq_nil_or_concat' w with rfl | ⟨w, a, rfl⟩
    · rfl
    · rw [backTransitions_concat, List.count_append, card_backPositions_concat, ih]
      congr 1
      by_cases hback : l.stepsBack (w ++ [a]) a b = true
      · rw [if_pos hback, List.count_singleton]
        simp only [beq_iff_eq, hback, and_true]
      · rw [if_neg hback, if_neg fun h => hback h.2]
        rfl

/-! ### Counters of 32 bits -/

/-- What counting comes to. -/
inductive Verdict where
  /-- A counter has gone beyond the bound. -/
  | spinning
  /-- No counter has. -/
  | calm
  /-- A counter had to go up from the largest word. -/
  | overflow
  deriving DecidableEq

/-- One more, unless that takes more than 32 bits. -/
def next? (n : UInt32) : Option UInt32 :=
  if n.toNat + 1 < UInt32.size then some (n + 1) else none

theorem toNat_of_next? {n m : UInt32} (h : next? n = some m) : m.toNat = n.toNat + 1 := by
  unfold next? at h
  split at h
  · next hn =>
    obtain rfl := Option.some.inj h
    rw [UInt32.toNat_add]
    exact Nat.mod_eq_of_lt hn
  · cases h

theorem size_le_of_next? {n : UInt32} (h : next? n = none) : UInt32.size ≤ n.toNat + 1 := by
  unfold next? at h
  split at h
  · cases h
  · next hn => exact Nat.le_of_not_lt hn

/-- Counts on along `rest`, with a counter for each transition. `seen` holds the addresses up to and
including `source`. The first counter beyond the bound decides. -/
def tallyFrom (l : LoopBound) (counters : Address × Address → UInt32) (seen : List Address)
    (source : Address) : (rest : List Address) → Verdict
  | [] => .calm
  | target :: rest =>
    if l.stepsBack seen source target then
      match next? (counters (source, target)) with
      | none => .overflow
      | some n =>
        if l.bound < n then .spinning
        else
          l.tallyFrom (Function.update counters (source, target) n) (target :: seen) target rest
    else l.tallyFrom counters (target :: seen) target rest

/-- Counts the back transitions of a walk. -/
def tally (l : LoopBound) : (walk : List Address) → Verdict
  | [] => .calm
  | first :: rest => l.tallyFrom (fun _ => 0) [first] first rest

/-- What a verdict says about the back transitions that were taken. -/
def Verdict.Holds (l : LoopBound) (taken : List (Address × Address)) : Verdict → Prop
  | .spinning => ∃ t, l.bound.toNat < taken.count t
  | .calm => ∀ t, taken.count t ≤ l.bound.toNat
  | .overflow => ∃ t, UInt32.size ≤ taken.count t

/-- **The counters are right.** Let them hold how often each transition has been taken so far, and
none more often than the bound. Then the verdict holds of what has been taken and what will be. -/
theorem holds_tallyFrom (rest : List Address) :
    ∀ (counters : Address × Address → UInt32) (taken : List (Address × Address))
    (seen : List Address)
      (source : Address),
      (∀ t, (counters t).toNat = taken.count t) → (∀ t, taken.count t ≤ l.bound.toNat) →
      (l.tallyFrom counters seen source rest).Holds l
        (taken ++ l.backTransitionsFrom seen source rest) := by
  induction rest with
  | nil =>
    intro counters taken seen source _ hcalm
    change ∀ t, (taken ++ []).count t ≤ l.bound.toNat
    rw [List.append_nil]
    exact hcalm
  | cons target rest ih =>
    intro counters taken seen source hcounters hcalm
    simp only [tallyFrom, backTransitionsFrom]
    by_cases hback : l.stepsBack seen source target = true
    · rw [if_pos hback, if_pos hback]
      set t := (source, target) with ht
      set later := l.backTransitionsFrom (target :: seen) target rest with hlater
      have hcount : taken.count t + 1 ≤ (taken ++ t :: later).count t := by
        rw [List.count_append, List.count_cons_self]
        omega
      cases hnext : next? (counters t) with
      | none =>
        have hsize := size_le_of_next? hnext
        rw [hcounters] at hsize
        exact ⟨t, hsize.trans hcount⟩
      | some n =>
        have hn : n.toNat = taken.count t + 1 := by rw [toNat_of_next? hnext, hcounters]
        dsimp only
        split
        · next hbeyond =>
          refine ⟨t, lt_of_lt_of_le ?_ hcount⟩
          rw [← hn]
          exact UInt32.lt_iff_toNat_lt.mp hbeyond
        · -- this transition has been taken once more, and the others have not
          next hwithin =>
          have hn' : n.toNat ≤ l.bound.toNat := Nat.le_of_not_lt hwithin
          have hself : (taken ++ [t]).count t = n.toNat := by
            rw [List.count_append, List.count_singleton_self, hn]
          have hother : ∀ t' ≠ t, (taken ++ [t]).count t' = taken.count t' := by
            intro t' h
            rw [List.count_append,
              List.count_eq_zero_of_not_mem fun hmem => h (List.mem_singleton.mp hmem),
              Nat.add_zero]
          rw [List.append_cons, hlater]
          refine ih _ _ (target :: seen) target (fun t' => ?_) fun t' => ?_
          · by_cases h : t' = t
            · rw [h, Function.update_self, hself]
            · rw [Function.update_of_ne h, hother t' h, hcounters]
          · by_cases h : t' = t
            · rw [h, hself]
              exact hn'
            · rw [hother t' h]
              exact hcalm t'
    · rw [if_neg hback, if_neg hback]
      exact ih _ _ (target :: seen) target hcounters hcalm

theorem holds_tally (l : LoopBound) (w : List Address) :
    (l.tally w).Holds l (l.backTransitions w) := by
  cases w with
  | nil => exact fun t => Nat.zero_le _
  | cons first rest =>
    -- at first nothing has been taken
    exact holds_tallyFrom rest (fun _ => 0) [] [first] first (fun _ => rfl) fun _ => Nat.zero_le _

/-- The loop does not look at what comes after a counter has gone beyond the bound. -/
theorem tallyFrom_append (more rest : List Address) :
    ∀ {counters : Address × Address → UInt32} {seen : List Address} {source : Address},
      l.tallyFrom counters seen source rest = .spinning →
        l.tallyFrom counters seen source (rest ++ more) = .spinning := by
  induction rest with
  | nil =>
    intro counters seen source h
    cases h
  | cons target rest ih =>
    intro counters seen source h
    rw [List.cons_append]
    simp only [tallyFrom] at h ⊢
    split
    · next hback =>
      rw [if_pos hback] at h
      cases hnext : next? (counters (source, target)) with
      | none =>
        rw [hnext] at h
        cases h
      | some n =>
        rw [hnext] at h
        dsimp only at h ⊢
        split
        · rfl
        · next hwithin =>
          rw [if_neg hwithin] at h
          exact ih h
    · next hback =>
      rw [if_neg hback] at h
      exact ih h

theorem tally_append (more : List Address) (h : l.tally w = .spinning) :
    l.tally (w ++ more) = .spinning := by
  cases w with
  | nil => cases h
  | cons first rest => exact tallyFrom_append more rest h

/-- A walk has at most as many back transitions as transitions. -/
theorem length_backTransitionsFrom_le (rest : List Address) :
    ∀ (seen : List Address) (source : Address),
      (l.backTransitionsFrom seen source rest).length ≤ rest.length := by
  induction rest with
  | nil => exact fun _ _ => Nat.le_refl 0
  | cons target rest ih =>
    intro seen source
    have hlater := ih (target :: seen) target
    simp only [backTransitionsFrom]
    split
    · exact Nat.succ_le_succ hlater
    · exact hlater.trans (Nat.le_succ _)

theorem length_backTransitions_le_transitions (l : LoopBound) (w : List Address) :
    (l.backTransitions w).length ≤ w.length - 1 := by
  cases w with
  | nil => exact Nat.le_refl 0
  | cons first rest => exact length_backTransitionsFrom_le rest [first] first

/-- A walk spins exactly if it has taken some transition back too often. -/
theorem isSpinning_iff :
    l.isSpinning w = true ↔ ∃ t, l.bound.toNat < (l.backTransitions w).count t := by
  rw [← Bool.not_eq_false, isSpinning_eq_false_iff]
  push Not
  rfl

/-- **Spinning is having taken a single back transition too often, and it is final.** Let a walk
have fewer transitions than there are words of 32 bits. It spins exactly if there are more than
`bound` positions at which it steps back from one and the same address to one and the same address.
The loop that counts in words of 32 bits never overflows, and it says so exactly if the walk spins.
Whatever continues a spinning walk spins, and the loop says so. -/
theorem isSpinning_iff_backPositions (l : LoopBound) (w : List Address)
    (hw : w.length - 1 < UInt32.size) :
    (l.isSpinning w = true ↔ ∃ u v, l.bound.toNat < (l.backPositions w u v).card) ∧
    l.tally w ≠ .overflow ∧
    (l.isSpinning w = true ↔ l.tally w = .spinning) ∧
    ∀ more, l.isSpinning w = true →
      l.isSpinning (w ++ more) = true ∧ l.tally (w ++ more) = .spinning := by
  have hholds := l.holds_tally w
  have hoverflow : l.tally w ≠ .overflow := by
    intro h
    rw [h] at hholds
    obtain ⟨t, ht⟩ := hholds
    have hcount := (List.count_le_length (a := t)).trans (l.length_backTransitions_le_transitions w)
    omega
  have htally : l.isSpinning w = true ↔ l.tally w = .spinning := by
    rw [isSpinning_iff]
    cases hverdict : l.tally w with
    | overflow => exact absurd hverdict hoverflow
    | spinning =>
      rw [hverdict] at hholds
      exact iff_of_true hholds rfl
    | calm =>
      rw [hverdict] at hholds
      refine iff_of_false ?_ (by simp)
      rintro ⟨t, ht⟩
      exact absurd (hholds t) (Nat.not_le_of_lt ht)
  refine ⟨?_, hoverflow, htally, fun more h => ⟨?_, tally_append more (htally.mp h)⟩⟩
  · simp only [isSpinning_iff, Prod.exists, count_backTransitions]
  · by_contra hcalm
    have hbefore := isSpinning_append more (Bool.not_eq_true _ ▸ hcalm)
    rw [h] at hbefore
    cases hbefore

/-- Back and forth between two addresses, of which the graph knows one transition. The other one is
new at its first position and a step back at the later ones. -/
theorem isSpinning_backAndForth :
    let l := ofGraph (Graph.empty.addEdge 1 2) [1] 1
    let w : List Address := [2, 1, 2, 1, 2, 1]
    w.length - 1 < UInt32.size ∧ l.backPositions w 2 1 = {2, 4} ∧ l.isSpinning w = true ∧
      l.tally w = .spinning ∧ ∀ more, l.isSpinning (w ++ more) = true := by
  intro l w
  have hw : w.length - 1 < UInt32.size := by decide
  have hpositions : l.backPositions w 2 1 = {2, 4} := by decide
  obtain ⟨hspinning, -, htally, hfinal⟩ := isSpinning_iff_backPositions l w hw
  have hbeyond : l.isSpinning w = true := hspinning.mpr ⟨2, 1, by rw [hpositions]; decide⟩
  exact ⟨hw, hpositions, hbeyond, htally.mp hbeyond, fun more => (hfinal more hbeyond).1⟩

end LoopBound

end SymbolicPaths
