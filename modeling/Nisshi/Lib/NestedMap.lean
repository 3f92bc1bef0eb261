import Mathlib.Tactic.Common
import Mathlib.Order.Defs.LinearOrder

/-! Ordered maps of ordered maps, addressed by a pair of keys: look an entry up, put one in, take one out
together with an inner map that becomes empty. And the greatest key of an ordered map whose value
meets a condition. -/

namespace Nisshi.Lib.NestedMap

open Std List Option

universe u

variable {K L V : Type u} [Ord K] [Ord L] [TransOrd K] [TransOrd L]

def find (m : ExtTreeMap K (ExtTreeMap L V)) (key : K × L) : Option V :=
  m[key.1]?.bind fun inner => inner[key.2]?

/-- Puts `f` of the entry in its place, and makes the inner map when there is none. -/
def upsert (m : ExtTreeMap K (ExtTreeMap L V)) (key : K × L) (f : Option V → V) : ExtTreeMap K (ExtTreeMap L V) :=
  m.alter key.1 fun inner => some ((inner.getD ∅).alter key.2 fun value => some (f value))

def remove (m : ExtTreeMap K (ExtTreeMap L V)) (key : K × L) : ExtTreeMap K (ExtTreeMap L V) :=
  m.alter key.1 fun inner => inner.bind fun inner =>
    if (inner.erase key.2).isEmpty then none else some (inner.erase key.2)

def modify (m : ExtTreeMap K (ExtTreeMap L V)) (key : K × L) (f : V → V) : ExtTreeMap K (ExtTreeMap L V) :=
  m.modify key.1 fun inner => inner.modify key.2 f

@[simp]
theorem find_empty (key : K × L) : find (∅ : ExtTreeMap K (ExtTreeMap L V)) key = none := by
  simp [find]

@[simp]
theorem find_upsert_self (m : ExtTreeMap K (ExtTreeMap L V)) (key : K × L) (f : Option V → V) :
    find (upsert m key f) key = some (f (find m key)) := by
  cases present : m[key.1]? <;> simp [find, upsert, present]

@[simp]
theorem find_remove_self (m : ExtTreeMap K (ExtTreeMap L V)) (key : K × L) : find (remove m key) key = none := by
  simp only [find, remove, ExtTreeMap.getElem?_alter_self]
  cases present : m[key.1]? with
  | none => rfl
  | some =>
    rw [bind_some]
    split
    · rfl
    · rw [bind_some, ExtTreeMap.getElem?_erase_self]

variable [LawfulEqOrd K] [LawfulEqOrd L]

theorem find_upsert_of_ne (m : ExtTreeMap K (ExtTreeMap L V)) (f : Option V → V)
    (different : other ≠ key) : find (upsert m key f) other = find m other := by
  obtain ⟨k, l⟩ := key
  obtain ⟨k', l'⟩ := other
  by_cases outer : k = k'
  · subst outer
    have inner : l ≠ l' := fun same => different (by rw [same])
    cases present : m[k]? <;> simp [find, upsert, present, ExtTreeMap.getElem?_alter, inner]
  · simp [find, upsert, ExtTreeMap.getElem?_alter, outer]

theorem find_modify [DecidableEq K] [DecidableEq L] (m : ExtTreeMap K (ExtTreeMap L V)) (key other : K × L)
    (f : V → V) : find (modify m key f) other = if other = key then (find m other).map f else find m other := by
  obtain ⟨k, l⟩ := key
  obtain ⟨k', l'⟩ := other
  simp only [find, modify, ExtTreeMap.getElem?_modify, Std.compare_eq_iff_eq, Prod.mk.injEq]
  by_cases outer : k = k'
  · subst outer
    by_cases inner : l = l'
    · subst inner
      cases m[k]? <;> simp
    · have apart : l' ≠ l := fun same => inner same.symm
      cases m[k]? <;> simp [ExtTreeMap.getElem?_modify, inner, apart]
  · have apart : k' ≠ k := fun same => outer same.symm
    simp [outer, apart]

theorem mem_toList_iff_find {m : ExtTreeMap K (ExtTreeMap L V)} {l : L} :
    find m (k, l) = some v ↔ ∃ inner, (k, inner) ∈ m.toList ∧ (l, v) ∈ inner.toList := by
  simp only [find, bind_eq_some_iff, ExtTreeMap.mem_toList_iff_getElem?_eq_some]

def lastWhere (m : ExtTreeMap K V) (meets : V → Bool) : Option K :=
  (m.toList.reverse.find? fun entry => meets entry.2).map Prod.fst

theorem lastWhere_eq_some {m : ExtTreeMap K V} {meets : V → Bool} (last : lastWhere m meets = some k) :
    (∃ v, m[k]? = some v ∧ meets v = true) ∧
      ∀ k' v', m[k']? = some v' → meets v' = true → k' = k ∨ compare k' k = .lt := by
  obtain ⟨⟨k, v⟩, found, rfl⟩ := map_eq_some_iff.mp last
  obtain ⟨holds, later, earlier, split, none⟩ := find?_eq_some_iff_append.mp found
  have order := m.ordered_keys_toList
  rw [← reverse_reverse m.toList, split, reverse_append, reverse_cons, append_assoc] at order
  have listed : ∀ k' v', m[k']? = some v' → (k', v') ∈ later ++ (k, v) :: earlier := by
    intro k' v' present
    rw [← split, mem_reverse, ExtTreeMap.mem_toList_iff_getElem?_eq_some]
    exact present
  refine ⟨⟨v, ?_, holds⟩, ?_⟩
  · rw [← ExtTreeMap.mem_toList_iff_getElem?_eq_some, ← mem_reverse, split]
    simp
  · intro k' v' present holds'
    rcases mem_append.mp (listed k' v' present) with member | member
    · have fails := none _ member
      simp [holds'] at fails
    · rcases mem_cons.mp member with same | member
      · exact .inl (Prod.mk.inj same).1
      · exact .inr ((pairwise_append.mp order).2.2 (k', v') (mem_reverse.mpr member) (k, v)
          mem_cons_self)

theorem lastWhere_eq_none {m : ExtTreeMap K V} (last : lastWhere m meets = none)
    {k : K} (present : m[k]? = some v) : meets v = false := by
  rw [lastWhere, map_eq_none_iff, find?_eq_none] at last
  have fails := last (k, v) (by
    rw [mem_reverse, ExtTreeMap.mem_toList_iff_getElem?_eq_some]
    exact present)
  simpa using fails

end Nisshi.Lib.NestedMap
