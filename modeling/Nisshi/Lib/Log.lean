import Mathlib.Data.List.Basic

/-! Append-only logs as lists, oldest entry first: what is at a position stays there. -/

namespace Nisshi.Lib.Log

open List Option

universe u

variable {α : Type u} {log rest : List α} {n : Nat} {entry last : α}

theorem lt_length (found : log[n]? = some entry) : n < log.length :=
  (List.getElem?_eq_some_iff.mp found).1

theorem found_append (found : log[n]? = some entry) : (log ++ rest)[n]? = some entry := by
  rw [getElem?_append_left (lt_length found), found]

theorem found_concat (found : (log ++ [last])[n]? = some entry) :
    log[n]? = some entry ∨ (n = log.length ∧ entry = last) := by
  rcases Nat.lt_or_ge n log.length with inside | outside
  · rw [getElem?_append_left inside] at found
    exact .inl found
  · have bound := lt_length found
    rw [length_append, length_singleton] at bound
    obtain rfl : n = log.length := by omega
    rw [getElem?_concat_length, some.injEq] at found
    exact .inr ⟨rfl, found.symm⟩

theorem mem_concat : entry ∈ log ++ [last] ↔ entry ∈ log ∨ entry = last := by
  rw [mem_append, mem_singleton]

theorem forall_mem_concat {P : α → Prop} : (∀ x ∈ log ++ [last], P x) ↔ (∀ x ∈ log, P x) ∧ P last := by
  rw [forall_mem_append, forall_mem_singleton]

theorem pairwise_concat : (log ++ [last]).Pairwise R ↔ log.Pairwise R ∧ ∀ x ∈ log, R x last := by
  simp [pairwise_append]

theorem getLast?_eq_some (newest : log.getLast? = some entry) : ∃ n, log.length = n + 1 ∧ log[n]? = some entry := by
  rw [getLast?_eq_getElem?] at newest
  have bound := lt_length newest
  exact ⟨log.length - 1, by omega, newest⟩

theorem pairwise_trichotomy (ordered : log.Pairwise R) (first : x ∈ log) (second : y ∈ log) :
    x = y ∨ R x y ∨ R y x := by
  induction ordered with
  | nil => cases first
  | @cons z log before _ ih =>
    rcases mem_cons.mp first with here | inside <;> rcases mem_cons.mp second with here' | inside'
    · exact .inl (here.trans here'.symm)
    · exact .inr (.inl (here ▸ before y inside'))
    · exact .inr (.inr (here' ▸ before x inside))
    · exact ih inside inside'

end Nisshi.Lib.Log
