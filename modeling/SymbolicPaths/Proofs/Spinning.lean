import Mathlib.Algebra.BigOperators.Group.Finset.Basic
import Mathlib.Algebra.Order.BigOperators.Group.Finset
import Mathlib.Data.Finset.Prod
import Mathlib.Tactic.Ring
import SymbolicPaths.LoopBound
import SymbolicPaths.Proofs.DepthFirstSearch

/-!
# Walks that do not spin

A walk spins once it has taken a single back transition more often than the bound allows. This file
collects what the later arguments need about that.

* What a walk has taken it keeps when it goes on (`backTransitions_append`), so that spinning is
  final (`isSpinning_append`).
* A walk along the known edges takes as back transitions exactly the back edges it goes along
  (`backTransitions_of_isChain`). It spins unless it is `Tame`.
* A walk over finitely many addresses that does not spin is short (`length_le_of_not_isSpinning`).

For the last of these, consider the transitions of a walk. Each one steps back, or leads to an
address that the walk has not seen, or follows a forward edge. There are at most `bound` of the
first kind for each pair of addresses, and fewer of the second kind than addresses. Forward edges
are well-founded, so that between two transitions of the other kinds a walk goes down in rank
(`exists_rank`).
-/

namespace SymbolicPaths

open Relation

namespace LoopBound

variable {l : LoopBound}

theorem isSpinning_eq_false_iff {w : List Address} :
    l.isSpinning w = false ↔ ∀ t, (l.backTransitions w).count t ≤ l.bound.toNat := by
  unfold isSpinning
  rw [List.any_eq_false]
  refine ⟨fun h t => ?_, fun h t _ => ?_⟩
  · by_cases ht : t ∈ l.backTransitions w
    · simpa using h t ht
    · rw [List.count_eq_zero_of_not_mem ht]
      exact Nat.zero_le _
  · simpa using h t

/-! ### Going on -/

theorem backTransitionsFrom_append (more : List Address) :
    ∀ (rest seen : List Address) (source : Address),
      l.backTransitionsFrom seen source (rest ++ more) =
        l.backTransitionsFrom seen source rest ++
          l.backTransitionsFrom (rest.reverse ++ seen) (rest.getLastD source) more := by
  intro rest
  induction rest with
  | nil => intro seen source; rfl
  | cons target rest ih =>
    intro seen source
    simp only [List.cons_append, backTransitionsFrom, ih, List.getLastD_cons, List.reverse_cons,
      List.append_assoc, List.nil_append]
    split
    · rfl
    · rfl

/-- What a walk has taken is the beginning of what its continuation has taken. -/
theorem backTransitions_append (w more : List Address) :
    l.backTransitions w <+: l.backTransitions (w ++ more) := by
  cases w with
  | nil => exact List.nil_prefix
  | cons first rest =>
    simp only [List.cons_append, backTransitions]
    rw [backTransitionsFrom_append]
    exact List.prefix_append _ _

/-- **Spinning is final.** A walk that goes on does not stop spinning. -/
theorem isSpinning_append {w : List Address} (more : List Address)
    (h : l.isSpinning (w ++ more) = false) : l.isSpinning w = false := by
  rw [isSpinning_eq_false_iff] at h ⊢
  exact fun t => ((backTransitions_append w more).sublist.count_le t).trans (h t)

/-! ### Walks along known edges -/

/-- The transitions of a walk. -/
def transitions (w : List Address) : List (Address × Address) :=
  w.zip w.tail

/-- No single back edge is traversed more often than the bound allows. -/
def Tame (l : LoopBound) (w : List Address) : Prop :=
  ∀ u v, l.isBackEdge u v = true → (transitions w).count (u, v) ≤ l.bound.toNat

theorem backTransitionsFrom_of_isChain :
    ∀ (rest seen : List Address) (source : Address), (source :: rest).IsChain l.graph.Edge →
      l.backTransitionsFrom seen source rest =
        (transitions (source :: rest)).filter fun t => l.isBackEdge t.1 t.2 := by
  intro rest
  induction rest with
  | nil => intro seen source _; rfl
  | cons target rest ih =>
    intro seen source h
    obtain ⟨hedge, hrest⟩ := List.isChain_cons_cons.mp h
    have hback : l.stepsBack seen source target = l.isBackEdge source target := by
      rw [stepsBack, if_pos (Graph.hasEdge_iff.mpr hedge)]
    simp only [backTransitionsFrom, hback, ih _ _ hrest]
    simp only [transitions, List.tail_cons, List.zip_cons_cons, List.filter_cons]

theorem backTransitions_of_isChain {w : List Address} (h : w.IsChain l.graph.Edge) :
    l.backTransitions w = (transitions w).filter fun t => l.isBackEdge t.1 t.2 := by
  cases w with
  | nil => rfl
  | cons first rest => exact backTransitionsFrom_of_isChain rest _ first h

/-- A walk along known edges spins exactly if some back edge is traversed too often. -/
theorem isSpinning_eq_false_iff_tame {w : List Address} (h : w.IsChain l.graph.Edge) :
    l.isSpinning w = false ↔ l.Tame w := by
  rw [isSpinning_eq_false_iff, backTransitions_of_isChain h]
  have hkept : ∀ u v, l.isBackEdge u v = true →
      ((transitions w).filter fun t => l.isBackEdge t.1 t.2).count (u, v) =
        (transitions w).count (u, v) :=
    fun u v hback => List.count_filter hback
  constructor
  · intro hcount u v hback
    rw [← hkept u v hback]
    exact hcount (u, v)
  · -- transitions that are no back edges are not counted at all
    rintro htame ⟨u, v⟩
    by_cases hback : l.isBackEdge u v = true
    · rw [hkept u v hback]
      exact htame u v hback
    · have hout : (u, v) ∉ (transitions w).filter fun t => l.isBackEdge t.1 t.2 :=
        fun ht => hback (List.mem_filter.mp ht).2
      rw [List.count_eq_zero_of_not_mem hout]
      exact Nat.zero_le _

/-! ### Walks over finitely many addresses -/

/-- A well-founded relation has ranks below the number of elements on every finite set. -/
theorem exists_rank {α : Type} {r : α → α → Prop} (hr : WellFounded fun b a => r a b)
    (A : Finset α) :
    ∃ rank : α → Nat, (∀ a ∈ A, rank a < A.card) ∧ ∀ a, ∀ b ∈ A, r a b → rank b < rank a := by
  classical
  have hirrefl : ∀ a, ¬ TransGen r a a := fun a ha =>
    hr.transGen.asymmetric a a (transGen_swap.mpr ha) (transGen_swap.mpr ha)
  -- the rank counts what can be reached
  refine ⟨fun a => (A.filter (TransGen r a)).card, fun a ha => ?_, fun a b hb hab => ?_⟩
  · exact Finset.card_lt_card (Finset.filter_ssubset.mpr ⟨a, ha, hirrefl a⟩)
  · refine Finset.card_lt_card ⟨fun c hc => ?_, fun hsub => ?_⟩
    · obtain ⟨hc, hbc⟩ := Finset.mem_filter.mp hc
      exact Finset.mem_filter.mpr ⟨hc, TransGen.head hab hbc⟩
    · have hmem : b ∈ A.filter (TransGen r a) := Finset.mem_filter.mpr ⟨hb, TransGen.single hab⟩
      exact hirrefl b (Finset.mem_filter.mp (hsub hmem)).2

section Length

variable {A : Finset Address} {rank : Address → Nat}

/-- The addresses of `A` that a walk has not seen. -/
def unseen (A : Finset Address) (seen : List Address) : Finset Address :=
  A.filter (· ∉ seen)

theorem unseen_cons_subset (A : Finset Address) (seen : List Address) (a : Address) :
    unseen A (a :: seen) ⊆ unseen A seen := by
  intro b hb
  obtain ⟨hb, hnew⟩ := Finset.mem_filter.mp hb
  exact Finset.mem_filter.mpr ⟨hb, fun h => hnew (List.mem_cons_of_mem _ h)⟩

theorem card_unseen_cons_lt {seen : List Address} {a : Address} (ha : a ∈ A) (hnew : a ∉ seen) :
    (unseen A (a :: seen)).card < (unseen A seen).card := by
  refine Finset.card_lt_card ⟨unseen_cons_subset A seen a, fun hsub => ?_⟩
  have hmem := hsub (Finset.mem_filter.mpr ⟨ha, hnew⟩)
  exact (Finset.mem_filter.mp hmem).2 List.mem_cons_self

/-- **The length of a walk.** Every transition steps back, leads to an address that was not seen, or
goes down in rank. -/
theorem length_le_backTransitionsFrom (hrank : ∀ a ∈ A, rank a < A.card)
    (hforward : ∀ a, ∀ b ∈ A, l.graph.Forward l.back a b → rank b < rank a) :
    ∀ (rest seen : List Address) (source : Address), source ∈ A → (∀ a ∈ rest, a ∈ A) →
      rest.length ≤
        ((l.backTransitionsFrom seen source rest).length + (unseen A seen).card) * A.card +
          rank source := by
  intro rest
  induction rest with
  | nil => intro seen source _ _; exact Nat.zero_le _
  | cons target rest ih =>
    intro seen source hsource hrest
    have htarget : target ∈ A := hrest target List.mem_cons_self
    have hlater :=
      ih (target :: seen) target htarget fun a ha => hrest a (List.mem_cons_of_mem _ ha)
    have hlt := hrank target htarget
    set later := l.backTransitionsFrom (target :: seen) target rest with hdef
    -- a transition of one of the first two kinds pays for a whole descent
    have hpaid : ∀ k, later.length + (unseen A (target :: seen)).card + 1 ≤ k →
        rest.length + 1 ≤ k * A.card + rank source := by
      intro k hk
      have hmul := Nat.mul_le_mul_right A.card hk
      rw [Nat.succ_mul] at hmul
      omega
    have hseen := Finset.card_le_card (unseen_cons_subset A seen target)
    simp only [backTransitionsFrom, ← hdef, List.length_cons]
    by_cases hback : l.stepsBack seen source target = true
    · rw [if_pos hback, List.length_cons]
      exact hpaid _ (by omega)
    · rw [if_neg hback]
      unfold stepsBack at hback
      split at hback
      · -- a forward edge takes nothing from the budget, but it goes down in rank
        next hedge =>
        have hdown := hforward source target htarget ⟨hedge, hback⟩
        have hmul := Nat.mul_le_mul_right A.card (Nat.add_le_add_left hseen later.length)
        omega
      · -- a transition that the graph does not know leads to an address seen for the first time
        next hedge =>
        have hnew := card_unseen_cons_lt htarget (by simpa using hback : target ∉ seen)
        exact hpaid _ (by omega)

theorem backTransitionsFrom_subset :
    ∀ (rest seen : List Address) (source : Address), source ∈ A → (∀ a ∈ rest, a ∈ A) →
      ∀ t ∈ l.backTransitionsFrom seen source rest, t ∈ A ×ˢ A := by
  intro rest
  induction rest with
  | nil => intro seen source _ _ t ht; exact absurd ht List.not_mem_nil
  | cons target rest ih =>
    intro seen source hsource hrest t ht
    have htarget : target ∈ A := hrest target List.mem_cons_self
    have hlater :=
      ih (target :: seen) target htarget fun a ha => hrest a (List.mem_cons_of_mem _ ha)
    simp only [backTransitionsFrom] at ht
    split at ht
    · rcases List.mem_cons.mp ht with rfl | ht
      · exact Finset.mem_product.mpr ⟨hsource, htarget⟩
      · exact hlater t ht
    · exact hlater t ht

/-- A walk that does not spin has at most `bound` back transitions for each pair of addresses. -/
theorem length_backTransitions_le {w : List Address} (hw : ∀ a ∈ w, a ∈ A)
    (hspin : l.isSpinning w = false) :
    (l.backTransitions w).length ≤ l.bound.toNat * A.card ^ 2 := by
  have hsub : ∀ t ∈ l.backTransitions w, t ∈ A ×ˢ A := by
    cases w with
    | nil => intro t ht; exact absurd ht List.not_mem_nil
    | cons first rest =>
      exact backTransitionsFrom_subset rest [first] first (hw first List.mem_cons_self)
        fun a ha => hw a (List.mem_cons_of_mem _ ha)
  rw [isSpinning_eq_false_iff] at hspin
  calc (l.backTransitions w).length
      = ∑ t ∈ A ×ˢ A, (l.backTransitions w).count t := by
        -- the two counts differ only in how they decide equality of transitions
        rw [← Multiset.coe_card, ← Multiset.sum_count_eq_card hsub]
        refine Finset.sum_congr rfl fun t _ => ?_
        rw [Multiset.coe_count]
        exact List.countP_congr fun x _ => by simp
    _ ≤ ∑ _t ∈ A ×ˢ A, l.bound.toNat := Finset.sum_le_sum fun t _ => hspin t
    _ = l.bound.toNat * A.card ^ 2 := by
        rw [Finset.sum_const, Finset.card_product, Nat.nsmul_eq_mul]
        ring

end Length

/-- **Walks that do not spin are short.** The bound of a graph allows only finitely many walks over
finitely many addresses, whether they follow the edges of the graph or not. -/
theorem length_le_of_not_isSpinning (g : Graph) (roots : List Address) (bound : UInt32)
    {A : Finset Address} {w : List Address} (hw : ∀ a ∈ w, a ∈ A)
    (hspin : (ofGraph g roots bound).isSpinning w = false) :
    w.length ≤ (bound.toNat * A.card ^ 2 + A.card) * A.card := by
  obtain ⟨rank, hrank, hforward⟩ := exists_rank (g.forward_wellFounded roots) A
  have hback := length_backTransitions_le hw hspin
  cases w with
  | nil => exact Nat.zero_le _
  | cons first rest =>
    have hfirst := hw first List.mem_cons_self
    have hrest := length_le_backTransitionsFrom (l := ofGraph g roots bound) hrank hforward rest
      [first] first hfirst fun a ha => hw a (List.mem_cons_of_mem _ ha)
    rw [← backTransitions] at hrest
    have hlt := hrank first hfirst
    -- the first address counts as seen, which leaves room for the rank of the first descent
    have hnew : (unseen A [first]).card + 1 ≤ A.card := by
      refine Finset.card_lt_card (Finset.filter_ssubset.mpr ⟨first, hfirst, ?_⟩)
      simp
    have hmul := Nat.mul_le_mul_right A.card (Nat.add_le_add hback hnew)
    rw [← Nat.add_assoc, Nat.succ_mul] at hmul
    change _ ≤ (bound.toNat * A.card ^ 2 + A.card) * A.card at hmul
    rw [List.length_cons]
    omega

end LoopBound

end SymbolicPaths
