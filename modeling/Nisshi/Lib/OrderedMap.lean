import Mathlib.Tactic.Common

/-! Ordered maps and sets: what is left by a filter, the first key, and maps without entries. -/

namespace Nisshi.Lib.OrderedMap

open Std

universe u v

variable {K : Type u} {V : Type v} [Ord K] [TransOrd K] {m : ExtTreeMap K V} {s : ExtTreeSet K} {k : K}

theorem isEmpty_iff_forall_not_mem : m.isEmpty = true ↔ ∀ k, k ∉ m := by
  rw [← ExtTreeMap.isEmpty_keys, List.isEmpty_iff, List.eq_nil_iff_forall_not_mem]
  refine ⟨fun none k present => ?_, fun none k present => none k (ExtTreeMap.mem_of_mem_keys present)⟩
  have listed := ExtTreeMap.isEmpty_keys (t := m)
  rw [List.isEmpty_iff.mpr (List.eq_nil_iff_forall_not_mem.mpr none)] at listed
  rw [ExtTreeMap.isEmpty_iff.mp listed.symm] at present
  exact ExtTreeMap.not_mem_empty present

theorem exists_mem (filled : m.isEmpty = false) : ∃ k, k ∈ m := by
  by_contra none
  rw [isEmpty_iff_forall_not_mem.mpr fun k present => none ⟨k, present⟩] at filled
  cases filled

theorem isEmpty_eq_false (present : k ∈ m) : m.isEmpty = false := by
  cases empty : m.isEmpty with
  | false => rfl
  | true => exact absurd present (isEmpty_iff_forall_not_mem.mp empty k)

theorem mem_of_getElem? (found : m[k]? = some v) : k ∈ m := by
  rw [ExtTreeMap.mem_iff_isSome_getElem?, found]
  rfl

theorem mem_of_head? (first : m.keys.head? = some k) : k ∈ m :=
  ExtTreeMap.mem_of_mem_keys (List.mem_of_mem_head? first)

variable {f : K → V → Bool}

theorem filter_eq_self (all : ¬ (m.filter f).size < m.size) : m.filter f = m := by
  have same : (m.filter f).size = m.size :=
    Nat.le_antisymm ExtTreeMap.size_filter_le_size (Nat.le_of_not_lt all)
  exact ExtTreeMap.filter_eq_self_iff.mpr (ExtTreeMap.size_filter_eq_size_iff.mp same)

theorem size_filter_lt (present : k ∈ m) (dropped : k ∉ m.filter f) : (m.filter f).size < m.size := by
  by_contra all
  rw [filter_eq_self all] at dropped
  exact dropped present

variable [LawfulEqOrd K]

theorem getElem?_of_filter (found : (m.filter f)[k]? = some v) : m[k]? = some v := by
  rw [ExtTreeMap.getElem?_filter', Option.filter_eq_some_iff] at found
  exact found.1

theorem filter_eq_self_of_forall (all : ∀ k v, m[k]? = some v → f k v = true) : m.filter f = m := by
  refine ExtTreeMap.filter_eq_self_iff.mpr fun k present => ?_
  rw [ExtTreeMap.getKey_eq]
  exact all k _ (ExtTreeMap.getElem?_eq_some_getElem present)

theorem mem_filter_iff : k ∈ m.filter f ↔ ∃ value, m[k]? = some value ∧ f k value = true := by
  rw [ExtTreeMap.mem_filter]
  constructor
  · rintro ⟨present, kept⟩
    rw [ExtTreeMap.getKey_eq] at kept
    exact ⟨_, ExtTreeMap.getElem?_eq_some_getElem present, kept⟩
  · rintro ⟨_, found, kept⟩
    obtain ⟨present, rfl⟩ := ExtTreeMap.getElem?_eq_some_iff.mp found
    exact ⟨present, by rw [ExtTreeMap.getKey_eq]; exact kept⟩

theorem mem_filter_set_iff {f : K → Bool} : k ∈ s.filter f ↔ k ∈ s ∧ f k = true := by
  rw [ExtTreeSet.mem_filter]
  constructor
  · rintro ⟨present, kept⟩
    rw [ExtTreeSet.get_eq] at kept
    exact ⟨present, kept⟩
  · rintro ⟨present, kept⟩
    exact ⟨present, by rw [ExtTreeSet.get_eq]; exact kept⟩

theorem of_getElem?_foldl_insert {key : α → K} {value : α → V} {elements : List α}
    (held : (elements.foldl (fun m element => m.insert (key element) (value element)) m)[k]? = some v) :
    m[k]? = some v ∨ ∃ element ∈ elements, key element = k ∧ value element = v := by
  induction elements generalizing m with
  | nil => exact .inl held
  | cons first _ ih =>
    rcases ih held with before | ⟨element, member, same⟩
    · rw [ExtTreeMap.getElem?_insert] at before
      split at before
      next same =>
        cases before
        exact .inr ⟨first, List.mem_cons_self, LawfulEqOrd.eq_of_compare same, rfl⟩
      · exact .inl before
    · exact .inr ⟨element, List.mem_cons_of_mem _ member, same⟩

theorem mem_of_getElem?_ofList {elements : List (K × V)} (held : (ExtTreeMap.ofList elements)[k]? = some v) :
    (k, v) ∈ elements := by
  rw [ExtTreeMap.ofList_eq_insertMany_empty, ExtTreeMap.insertMany_list_eq_foldl] at held
  rcases of_getElem?_foldl_insert held with before | ⟨_, member, rfl, rfl⟩
  · cases before
  · exact member

theorem mem_foldl_insert {key : α → K} {value : α → V} {elements : List α} :
    k ∈ elements.foldl (fun m element => m.insert (key element) (value element)) m ↔
      k ∈ m ∨ ∃ element ∈ elements, key element = k := by
  induction elements generalizing m with
  | nil => simp
  | cons _ _ ih =>
    simp [ih, ExtTreeMap.mem_insert, or_assoc, or_left_comm]

theorem mem_foldl_insertIfNew {keys : List K} :
    k ∈ keys.foldl (fun m key => m.insertIfNew key value) m ↔ k ∈ m ∨ k ∈ keys := by
  induction keys generalizing m with
  | nil => simp
  | cons _ _ ih =>
    rw [List.foldl_cons, ih, ExtTreeMap.mem_insertIfNew, Std.compare_eq_iff_eq, List.mem_cons, or_assoc,
      or_left_comm, eq_comm]

end Nisshi.Lib.OrderedMap
