import Std.Data.ExtTreeMap
import SymbolicPaths.Text.Hex

/-!
# Maps whose values know their address

Instructions and symbols are collected in maps by address and then listed. Each value has the
address at which it is kept (`Keyed`), so the list of values says all that the map says: its members
are the entries of the map (`Keyed.mem_values`), in strictly ascending order of address
(`Keyed.pairwise_values`).

First come two facts about all maps. The second one serves maps of sets, where a missing set is read
as the empty one.
-/

namespace SymbolicPaths

/-- The values of a map come in the order of its entries. -/
theorem values_eq_map_snd {κ α : Type} [Ord κ] [Std.TransOrd κ] (m : Std.ExtTreeMap κ α) :
    m.values = m.toList.map Prod.snd := by
  obtain ⟨⟨q⟩⟩ := m
  induction q using Quotient.inductionOn with
  | h t =>
    change t.inner.values = (Std.DTreeMap.Internal.Impl.Const.toList t.inner).map Prod.snd
    rw [Std.DTreeMap.Internal.Impl.values_eq_map_snd,
      Std.DTreeMap.Internal.Impl.Const.toList_eq_toListModel_map, List.map_map]
    rfl

/-- A map is determined by its keys and by the look-ups that replace a missing value. -/
theorem eq_of_mem_of_getD {κ α : Type} [Ord κ] [Std.TransOrd κ] [Std.LawfulEqOrd κ]
    {m m' : Std.ExtTreeMap κ α} (fallback : α) (hkeys : ∀ k, k ∈ m ↔ k ∈ m')
    (hvalues : ∀ k, m.getD k fallback = m'.getD k fallback) : m = m' := by
  refine Std.ExtTreeMap.ext_getElem? fun k => ?_
  by_cases hk : k ∈ m
  · have hk' : k ∈ m' := (hkeys k).mp hk
    have hvalue := hvalues k
    rw [Std.ExtTreeMap.getD_eq_getD_getElem?, Std.ExtTreeMap.getD_eq_getD_getElem?,
      Std.ExtTreeMap.getElem?_eq_some_getElem hk,
      Std.ExtTreeMap.getElem?_eq_some_getElem hk'] at hvalue
    rw [Std.ExtTreeMap.getElem?_eq_some_getElem hk, Std.ExtTreeMap.getElem?_eq_some_getElem hk']
    exact congrArg some hvalue
  · have hk' : k ∉ m' := fun h => hk ((hkeys k).mpr h)
    rw [Std.ExtTreeMap.getElem?_eq_none hk, Std.ExtTreeMap.getElem?_eq_none hk']

/-- Every value of the map has the address at which it is kept. -/
def Keyed {α : Type} (address : α → Address) (m : Std.ExtTreeMap Address α) : Prop :=
  ∀ a v, m[a]? = some v → address v = a

namespace Keyed

variable {α : Type} {address : α → Address} {m : Std.ExtTreeMap Address α}

theorem mem_values (h : Keyed address m) {v : α} : v ∈ m.values ↔ m[address v]? = some v := by
  rw [values_eq_map_snd, List.mem_map]
  constructor
  · rintro ⟨⟨a, v'⟩, hmem, rfl⟩
    have hentry := Std.ExtTreeMap.mem_toList_iff_getElem?_eq_some.mp hmem
    rwa [h a v' hentry]
  · intro hentry
    exact ⟨(address v, v), Std.ExtTreeMap.mem_toList_iff_getElem?_eq_some.mpr hentry, rfl⟩

theorem pairwise_values (h : Keyed address m) :
    m.values.Pairwise fun v w => address v < address w := by
  rw [values_eq_map_snd, List.pairwise_map]
  refine Std.ExtTreeMap.ordered_keys_toList.imp_of_mem fun {p q} hp hq hlt => ?_
  have hp' := h p.1 p.2 (Std.ExtTreeMap.mem_toList_iff_getElem?_eq_some.mp hp)
  have hq' := h q.1 q.2 (Std.ExtTreeMap.mem_toList_iff_getElem?_eq_some.mp hq)
  rw [hp', hq']
  exact Std.compare_eq_lt.mp hlt

end Keyed

end SymbolicPaths
