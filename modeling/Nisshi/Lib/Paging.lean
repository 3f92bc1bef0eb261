import Mathlib.Data.List.Infix
import Mathlib.Tactic.Common
import Mathlib.Algebra.GroupWithZero.Nat

/-! Reading a list page by page. A page is the front of what is left, up to a limit of its size or a deadline,
and the next page starts behind its last item. -/

namespace Nisshi.Lib.Paging

open List

universe u

variable {α : Type u}

/-- The items with a running total below the limit, and the one of ordinal one, from the total before them and
the ordinal of the first on. -/
def sized (size : α → Nat) (limit total ordinal : Nat) : List α → List α
  | [] => []
  | item :: rest =>
    let kept := sized size limit (total + size item) (ordinal + 1) rest
    if total + size item < limit ∨ ordinal = 1 then item :: kept else kept

/-- The items before the first that finds the deadline passed, from a number on. -/
def before (expired : Nat → Bool) : Nat → List α → List α
  | _, [] => []
  | number, item :: rest => if expired number then [] else item :: before expired (number + 1) rest

/-- The first item does not look at the deadline. -/
def taken (expired : Nat → Bool) : List α → List α
  | [] => []
  | first :: rest => first :: before expired 0 rest

section Sized

variable {size : α → Nat} {limit total ordinal : Nat} {items : List α}

theorem sized_eq_nil (full : limit ≤ total) (later : 1 < ordinal) : sized size limit total ordinal items = [] := by
  induction items generalizing total ordinal with
  | nil => rfl
  | cons item rest ih =>
    rw [sized, if_neg (by omega)]
    apply ih
    · omega
    · omega

/-- The running total only grows, so the items below the limit come first. -/
theorem sized_isPrefix (counted : 0 < ordinal) : sized size limit total ordinal items <+: items := by
  induction items generalizing total ordinal with
  | nil => exact prefix_rfl
  | cons item rest ih =>
    rw [sized]
    split
    next =>
      rw [prefix_cons_inj]
      apply ih
      omega
    next dropped =>
      rw [sized_eq_nil (by omega) (by omega)]
      exact nil_prefix

/-- The fronts that are kept: those with a total below the limit, and the one of ordinal one alone. -/
theorem isPrefix_sized_iff {front : List α} (some : front ≠ []) (counted : 0 < ordinal) :
    front <+: sized size limit total ordinal items ↔ front <+: items ∧
      (total + (front.map size).sum < limit ∨ ordinal = 1 ∧ front.length = 1) := by
  induction items generalizing total ordinal front with
  | nil => simp [sized, some]
  | cons item rest ih =>
    cases front with
    | nil => exact absurd rfl some
    | cons first front =>
      rw [sized, cons_prefix_cons, map_cons, sum_cons, length_cons]
      split
      next keeps =>
        rw [cons_prefix_cons]
        by_cases alone : front = []
        · subst alone
          simp only [ nil_prefix, and_true, map_nil, sum_nil, length_nil, Nat.zero_add, Nat.add_zero]
          exact ⟨by rintro rfl; exact ⟨rfl, keeps⟩, And.left⟩
        · have more := length_pos_iff.mpr alone
          rw [ih alone (by omega), and_assoc]
          refine and_congr_right ?_
          rintro rfl
          refine and_congr_right fun _ => ?_
          omega
      next dropped =>
        rw [sized_eq_nil (by omega) (by omega), prefix_nil]
        refine ⟨fun none => absurd none (cons_ne_nil _ _), ?_⟩
        rintro ⟨⟨rfl, -⟩, below⟩
        omega

theorem sized_ne_nil (nonempty : items ≠ []) : sized size limit total 1 items ≠ [] := by
  cases items with
  | nil => exact absurd rfl nonempty
  | cons =>
    rw [sized, if_pos (.inr rfl)]
    exact cons_ne_nil _ _

theorem sized_eq_self (below : total + (items.map size).sum < limit) :
    sized size limit total ordinal items = items := by
  induction items generalizing total ordinal with
  | nil => rfl
  | cons item rest ih =>
    rw [map_cons, sum_cons] at below
    rw [sized, if_pos (by omega), ih (by omega)]

end Sized

section Taken

variable (expired : Nat → Bool) (items : List α)

theorem before_isPrefix (number : Nat) : before expired number items <+: items := by
  induction items generalizing number with
  | nil => exact prefix_rfl
  | cons _ _ ih =>
    rw [before]
    split
    next => exact nil_prefix
    next =>
      rw [prefix_cons_inj]
      exact ih (number + 1)

theorem taken_isPrefix : taken expired items <+: items := by
  cases items with
  | nil => exact prefix_rfl
  | cons _ rest =>
    rw [taken, prefix_cons_inj]
    exact before_isPrefix expired rest 0

variable {items}

theorem taken_ne_nil (nonempty : items ≠ []) : taken expired items ≠ [] := by
  cases items with
  | nil => exact absurd rfl nonempty
  | cons => exact cons_ne_nil _ _

end Taken

/-- The pages of a list, from a number on. A page takes the first item in any case. -/
def pages (page : Nat → List α → List α) : Nat → List α → List (List α)
  | _, [] => []
  | number, first :: rest =>
    page number (first :: rest) :: pages page (number + 1) (rest.drop ((page number (first :: rest)).length - 1))
termination_by _ items => items.length
decreasing_by
  simp only [List.length_drop, List.length_cons]
  omega

/-- Each page is the front of what is left, and takes something. -/
structure Cuts (page : Nat → List α → List α) : Prop where
  isPrefix : ∀ number items, page number items <+: items
  ne_nil : ∀ number items, items ≠ [] → page number items ≠ []

section Pages

variable {page : Nat → List α → List α} {number : Nat} {items : List α}

theorem pages_nil : pages page number [] = [] := by
  rw [pages]

theorem pages_eq_cons (cuts : Cuts page) (nonempty : items ≠ []) : pages page number items =
    page number items :: pages page (number + 1) (items.drop (page number items).length) := by
  cases items with
  | nil => exact absurd rfl nonempty
  | cons =>
    have some := length_pos_iff.mpr (cuts.ne_nil number _ nonempty)
    rw [pages]
    rw [← drop_succ_cons, Nat.sub_add_cancel some]

theorem pages_induction (cuts : Cuts page) {motive : Nat → List α → Prop} (nil : ∀ number, motive number [])
    (cons : ∀ number items, items ≠ [] →
      motive (number + 1) (items.drop (page number items).length) → motive number items) :
    ∀ number items, motive number items := by
  intro number items
  induction size : items.length using Nat.strongRecOn generalizing number items with
  | ind size ih =>
    by_cases empty : items = []
    · rw [empty]
      exact nil number
    · apply cons number items empty
      have some := length_pos_iff.mpr (cuts.ne_nil number items empty)
      have length := length_pos_iff.mpr empty
      refine ih _ ?_ (number + 1) _ rfl
      rw [length_drop]
      omega

theorem flatten_pages (cuts : Cuts page) : (pages page number items).flatten = items := by
  refine pages_induction cuts (motive := fun number items => (pages page number items).flatten = items) ?_ ?_
    number items
  · intro number
    rw [pages_nil]
    rfl
  · intro number items nonempty ih
    rw [pages_eq_cons cuts nonempty, flatten_cons, ih]
    exact prefix_iff_eq_append.mp (cuts.isPrefix number items)

end Pages

theorem drop_eq_filter {key : α → Int} {items front : List α} {last : α}
    (sorted : items.Pairwise fun earlier later => key earlier < key later) (isPrefix : front <+: items)
    (ends : front.getLast? = some last) :
    items.drop front.length = items.filter fun item => key last < key item := by
  obtain ⟨rest, rfl⟩ := isPrefix
  obtain ⟨init, rfl⟩ := getLast?_eq_some_iff.mp ends
  obtain ⟨within, -, apart⟩ := pairwise_append.mp sorted
  have none : (init ++ [last]).filter (fun item => key last < key item) = [] := by
    rw [filter_eq_nil_iff]
    intro item member
    rw [decide_eq_true_eq]
    rcases mem_append.mp member with earlier | same
    · have := (pairwise_append.mp within).2.2 item earlier last (mem_singleton_self last)
      omega
    · rw [mem_singleton.mp same]
      omega
  have all : rest.filter (fun item => key last < key item) = rest := by
    rw [filter_eq_self]
    intro item member
    rw [decide_eq_true_eq]
    exact apart last (mem_append_right _ (mem_singleton_self last)) item member
  rw [drop_left, filter_append, none, all, nil_append]

end Nisshi.Lib.Paging
