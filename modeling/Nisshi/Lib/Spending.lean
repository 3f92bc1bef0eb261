import Mathlib.Algebra.Order.Group.Nat
import Mathlib.Algebra.BigOperators.Group.List.Basic
import Mathlib.Tactic.Common
import Mathlib.Algebra.GroupWithZero.Nat

/-! A limit that is spent item by item. Each purchase may go over what is left by its last item, and then
nothing is left to spend, so all purchases together go over the limit by one item. -/

namespace Nisshi.Lib.Spending

open List

universe u

variable {α : Type u} {size : α → Nat}

def total (size : α → Nat) (items : List α) : Nat :=
  (items.map size).sum

@[simp] theorem total_nil : total size [] = 0 :=
  rfl

@[simp] theorem total_append (first second : List α) :
    total size (first ++ second) = total size first + total size second := by
  rw [total, map_append, sum_append]
  rfl

theorem total_dropLast_le (items : List α) : total size items.dropLast ≤ total size items := by
  rcases items.eq_nil_or_concat with rfl | ⟨_, _, rfl⟩
  · exact le_rfl
  · rw [concat_eq_append, dropLast_concat, total_append]
    exact Nat.le_add_right _ _

/-- Of `limit`, `left` remains after the items were bought. -/
def Spent (size : α → Nat) (limit left : Nat) (items : List α) : Prop :=
  total size items + left ≤ limit ∨ left = 0 ∧ total size items.dropLast ≤ limit

namespace Spent

variable {limit left : Nat} {items : List α}

theorem nothing : Spent size limit limit [] :=
  .inl (by simp)

variable (spent : Spent size limit left items)

include spent

theorem dropLast_le : total size items.dropLast ≤ limit := by
  rcases spent with within | ⟨-, bounded⟩
  · exact (total_dropLast_le items).trans (by omega)
  · exact bounded

theorem append {bought : List α} (bounded : total size bought.dropLast ≤ left)
    (stopped : left = 0 → bought = []) : Spent size limit (left - total size bought) (items ++ bought) := by
  by_cases affordable : total size bought ≤ left
  · rcases spent with within | ⟨none, before⟩
    · exact .inl (by rw [total_append]; omega)
    · obtain rfl := stopped none
      rw [append_nil]
      exact .inr ⟨by omega, before⟩
  · -- The last item bought goes over what was left, and is the one to leave out.
    have some : bought ≠ [] := by
      rintro rfl
      exact affordable (Nat.zero_le _)
    rcases spent with within | ⟨none, -⟩
    · refine .inr ⟨by omega, ?_⟩
      rw [dropLast_append_of_ne_nil some, total_append]
      omega
    · exact absurd (stopped none) some

theorem anti (given : less ≤ left) : Spent size limit less items := by
  rcases spent with within | ⟨none, before⟩
  · exact .inl (by omega)
  · exact .inr ⟨by omega, before⟩

end Spent

end Nisshi.Lib.Spending
