import Std.Data.ExtTreeMap
import Std.Data.ExtTreeSet

/-!
# Ordered sets and maps

Sets and maps whose order shows in an answer are the extensional tree sets and maps: two of them are
equal when they have the same members, and they list their members in ascending order.
-/

namespace FlowGauge

/-- A finite set of names. -/
abbrev NameSet : Type :=
  Std.ExtTreeSet String

/-- The map that sends every listed key to its value under `f`. -/
def tabulate {α β : Type} [Ord α] [Std.TransOrd α] (keys : List α) (f : α → β) :
    Std.ExtTreeMap α β :=
  .ofList (keys.map fun k ↦ (k, f k))

section Tabulate

variable {α β : Type} [Ord α] [Std.LawfulEqOrd α] {keys : List α} {f : α → β}

theorem tabulate_distinct (h : keys.Nodup) :
    (keys.map fun k ↦ (k, f k)).Pairwise fun a b ↦ ¬compare a.1 b.1 = .eq := by
  rw [List.pairwise_map]
  exact h.imp fun hne heq ↦ hne (Std.LawfulEqOrd.compare_eq_iff_eq.1 heq)

variable [Std.TransOrd α]

@[simp] theorem mem_tabulate [DecidableEq α] {k : α} : k ∈ tabulate keys f ↔ k ∈ keys := by
  simp [tabulate, Std.ExtTreeMap.mem_ofList]

/-- Tabulated keys are added to a map, or get a new value in it. -/
theorem getElem?_insertMany_map [DecidableEq α] {k : α} (m : Std.ExtTreeMap α β) :
    (m.insertMany (keys.map fun k ↦ (k, f k)))[k]? = if k ∈ keys then some (f k) else m[k]? := by
  induction keys generalizing m with
  | nil => simp
  | cons key keys ih =>
    rw [List.map_cons, Std.ExtTreeMap.insertMany_cons, ih, Std.ExtTreeMap.getElem?_insert]
    by_cases hkey : key = k
    · simp [hkey]
    · simp [hkey, Ne.symm hkey]

/-- A listed key has its value, any other key has none. A key may be listed more than once, because
its value depends on nothing else. -/
theorem getElem?_tabulate [DecidableEq α] {k : α} :
    (tabulate keys f)[k]? = if k ∈ keys then some (f k) else none := by
  rw [tabulate, Std.ExtTreeMap.ofList_eq_insertMany_empty, getElem?_insertMany_map,
    Std.ExtTreeMap.getElem?_empty]

theorem size_tabulate (h : keys.Nodup) : (tabulate keys f).size = keys.length := by
  rw [tabulate, Std.ExtTreeMap.size_ofList (tabulate_distinct h), List.length_map]

end Tabulate

/-- A map lists a key once. -/
theorem nodup_map_fst_filter {α β : Type} [Ord α] [Std.TransOrd α] [Std.LawfulEqOrd α]
    (m : Std.ExtTreeMap α β) (p : α × β → Bool) : ((m.toList.filter p).map Prod.fst).Nodup := by
  refine List.pairwise_map.2 ((Std.ExtTreeMap.distinct_keys_toList.filter p).imp ?_)
  exact fun hne heq ↦ hne (Std.LawfulEqOrd.compare_eq_iff_eq.2 heq)

/-- The values of a map are listed in the order of their keys. -/
theorem values_eq_map_toList {α β : Type} [Ord α] [Std.TransOrd α] (m : Std.ExtTreeMap α β) :
    m.values = m.toList.map Prod.snd := by
  obtain ⟨inner⟩ := m
  refine inner.inductionOn fun t ↦ ?_
  show t.inner.values = (Std.DTreeMap.Internal.Impl.Const.toList t.inner).map Prod.snd
  rw [Std.DTreeMap.Internal.Impl.values_eq_map_snd,
    Std.DTreeMap.Internal.Impl.Const.toList_eq_toListModel_map, List.map_map]
  rfl

theorem mem_values_iff {α β : Type} [Ord α] [Std.TransOrd α] [Std.LawfulEqOrd α]
    {m : Std.ExtTreeMap α β} {b : β} : b ∈ m.values ↔ ∃ k : α, m[k]? = some b := by
  simp only [values_eq_map_toList, List.mem_map, Prod.exists, exists_eq_right,
    Std.ExtTreeMap.mem_toList_iff_getElem?_eq_some]

/-- The values of tabulated keys are those of the keys, each once. -/
theorem values_tabulate {α β : Type} [Ord α] [Std.TransOrd α] [Std.LawfulEqOrd α] [DecidableEq α]
    {keys : List α} {f : α → β} : (tabulate keys f).values = (tabulate keys f).keys.map f := by
  rw [values_eq_map_toList, ← Std.ExtTreeMap.map_fst_toList_eq_keys, List.map_map]
  refine List.map_congr_left fun e he ↦ ?_
  have hvalue := Std.ExtTreeMap.mem_toList_iff_getElem?_eq_some.1 he
  rw [getElem?_tabulate] at hvalue
  split at hvalue
  · exact (Option.some.inj hvalue).symm
  · cases hvalue

end FlowGauge
