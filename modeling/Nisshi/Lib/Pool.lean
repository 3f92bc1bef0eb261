import Nisshi.Lib.Log
import Mathlib.Data.List.Nodup
import Mathlib.Logic.Function.Basic

/-! Items that wait in queues until a worker takes a whole queue: an item is in one place at a time, and leaves
it only for the next one. -/

namespace Nisshi.Lib

open List Function

universe u v w

structure Pool (K : Type u) (C : Type v) (I : Type w) where
  queue : K → List I
  held : C → List I
  taken : List (List I)

namespace Pool

variable {K : Type u} {C : Type v} {I : Type w} {p q : Pool K C I} {k : K} {c : C} {i : I}

structure Fresh (p : Pool K C I) (i : I) : Prop where
  queue : ∀ k, i ∉ p.queue k
  taken : ∀ lot ∈ p.taken, i ∉ lot

def Present (p : Pool K C I) (i : I) : Prop :=
  (∃ k, i ∈ p.queue k) ∨ ∃ c, i ∈ p.held c

section Moves

variable [DecidableEq K] [DecidableEq C]

def put (p : Pool K C I) (k : K) (i : I) : Pool K C I :=
  { p with queue := Function.update p.queue k (p.queue k ++ [i]) }

def take (p : Pool K C I) (k : K) (c : C) : Pool K C I where
  queue := Function.update p.queue k []
  held := Function.update p.held c (p.queue k)
  taken := p.taken ++ [p.queue k]

def draw (p : Pool K C I) (c : C) (i : I) : Pool K C I :=
  { p with held := Function.update p.held c [i], taken := p.taken ++ [[i]] }

def release (p : Pool K C I) (c : C) : Pool K C I :=
  { p with held := Function.update p.held c [] }

inductive Moves (p : Pool K C I) : Pool K C I → Prop where
  | keep : Moves p p
  | put (k : K) (i : I) (fresh : p.Fresh i) : Moves p (p.put k i)
  | take (k : K) (c : C) (free : p.held c = []) : Moves p (p.take k c)
  | draw (c : C) (i : I) (free : p.held c = []) (fresh : p.Fresh i) : Moves p (p.draw c i)
  | release (c : C) : Moves p (p.release c)

end Moves

structure Exclusive (p : Pool K C I) : Prop where
  queues : ∀ {k l i}, i ∈ p.queue k → i ∈ p.queue l → k = l
  waitsOnce : ∀ k, (p.queue k).Nodup
  untaken : ∀ {k i lot}, i ∈ p.queue k → lot ∈ p.taken → i ∉ lot
  lots : ∀ {lot other i}, lot ∈ p.taken → other ∈ p.taken → i ∈ lot → i ∈ other → lot = other
  takenOnce : ∀ lot ∈ p.taken, lot.Nodup
  holds : ∀ {c i}, i ∈ p.held c → p.held c ∈ p.taken
  holders : ∀ {c d i}, i ∈ p.held c → i ∈ p.held d → c = d

theorem exclusive_empty : Exclusive ({ queue := fun _ => [], held := fun _ => [], taken := [] } : Pool K C I) where
  queues := fun none => absurd none not_mem_nil
  waitsOnce := fun _ => nodup_nil
  untaken := fun none => absurd none not_mem_nil
  lots := fun none => absurd none not_mem_nil
  takenOnce := fun _ none => absurd none not_mem_nil
  holds := fun none => absurd none not_mem_nil
  holders := fun none => absurd none not_mem_nil

variable [DecidableEq K] [DecidableEq C]

omit [DecidableEq C] in
theorem mem_queue_put {l : K} : j ∈ (p.put k i).queue l ↔ j ∈ p.queue l ∨ l = k ∧ j = i := by
  simp only [put]
  by_cases same : l = k
  · subst same
    simp
  · simp [same]

theorem mem_queue_take {l : K} : j ∈ (p.take k c).queue l ↔ j ∈ p.queue l ∧ l ≠ k := by
  simp only [take]
  by_cases same : l = k
  · subst same
    simp
  · simp [same]

theorem mem_held_update {held : C → List I} {d : C} :
    j ∈ Function.update held c lot d ↔ d = c ∧ j ∈ lot ∨ d ≠ c ∧ j ∈ held d := by
  by_cases same : d = c
  · subst same
    simp
  · simp [same]

namespace Exclusive

variable (exclusive : p.Exclusive)

include exclusive

omit [DecidableEq C] in
theorem put (fresh : p.Fresh i) : (p.put k i).Exclusive :=
  { exclusive with
    queues := by
      intro l m j first second
      rcases mem_queue_put.mp first with here | ⟨rfl, rfl⟩ <;> rcases mem_queue_put.mp second with there | ⟨rfl, same⟩
      · exact exclusive.queues here there
      · exact absurd (same ▸ here) (fresh.queue _)
      · exact absurd there (fresh.queue _)
      · rfl
    waitsOnce := by
      intro l
      simp only [Pool.put]
      by_cases same : l = k
      · subst same
        rw [update_self, nodup_append_comm]
        exact nodup_cons.mpr ⟨fresh.queue l, exclusive.waitsOnce l⟩
      · rw [update_of_ne same]
        exact exclusive.waitsOnce l
    untaken := by
      intro l j lot waits taken
      rcases mem_queue_put.mp waits with here | ⟨_, rfl⟩
      · exact exclusive.untaken here taken
      · exact fresh.taken lot taken }

omit [DecidableEq K] in
theorem hand (once : lot.Nodup) (untaken : ∀ other ∈ p.taken, ∀ j ∈ lot, j ∉ other)
    (unqueued : ∀ l, ∀ j ∈ lot, j ∉ q.queue l) (queues : ∀ {l j}, j ∈ q.queue l → j ∈ p.queue l)
    (waitsOnce : ∀ l, (q.queue l).Nodup) (held : q.held = Function.update p.held c lot)
    (taken : q.taken = p.taken ++ [lot]) : q.Exclusive where
  queues := fun first second => exclusive.queues (queues first) (queues second)
  waitsOnce := waitsOnce
  untaken := by
    intro l j other waits listed found
    rw [taken] at listed
    rcases Log.mem_concat.mp listed with before | rfl
    · exact exclusive.untaken (queues waits) before found
    · exact unqueued l j found waits
  lots := by
    intro one other j first second here there
    rw [taken] at first second
    rcases Log.mem_concat.mp first with before | rfl <;> rcases Log.mem_concat.mp second with earlier | rfl
    · exact exclusive.lots before earlier here there
    · exact absurd here (untaken one before j there)
    · exact absurd there (untaken other earlier j here)
    · rfl
  takenOnce := by
    intro other listed
    rw [taken] at listed
    rcases Log.mem_concat.mp listed with before | rfl
    · exact exclusive.takenOnce other before
    · exact once
  holds := by
    intro d j has
    rw [held] at has ⊢
    rw [taken]
    rcases mem_held_update.mp has with ⟨rfl, _⟩ | ⟨other, old⟩
    · rw [update_self]
      exact mem_append_right _ (mem_singleton_self lot)
    · rw [update_of_ne other]
      exact mem_append_left _ (exclusive.holds old)
  holders := by
    intro d e j first second
    rw [held] at first second
    rcases mem_held_update.mp first with ⟨rfl, here⟩ | ⟨_, old⟩ <;>
      rcases mem_held_update.mp second with ⟨rfl, there⟩ | ⟨_, older⟩
    · rfl
    · exact absurd older (untaken _ (exclusive.holds older) j here)
    · exact absurd old (untaken _ (exclusive.holds old) j there)
    · exact exclusive.holders old older

theorem take : (p.take k c).Exclusive := by
  refine exclusive.hand (exclusive.waitsOnce k) (fun other listed j waits => exclusive.untaken waits listed) ?_
    (fun waits => (mem_queue_take.mp waits).1) ?_ rfl rfl
  · intro l j waited waits
    obtain ⟨still, other⟩ := mem_queue_take.mp waits
    exact other (exclusive.queues still waited)
  · intro l
    simp only [Pool.take]
    by_cases same : l = k
    · subst same
      rw [update_self]
      exact nodup_nil
    · rw [update_of_ne same]
      exact exclusive.waitsOnce l

omit [DecidableEq K] in
theorem draw (fresh : p.Fresh i) : (p.draw c i).Exclusive := by
  refine exclusive.hand (nodup_singleton i) ?_ ?_ (fun waits => waits) exclusive.waitsOnce rfl rfl
  · intro other listed j mine
    rw [mem_singleton.mp mine]
    exact fresh.taken other listed
  · intro l j mine
    rw [mem_singleton.mp mine]
    exact fresh.queue l

omit [DecidableEq K] in
theorem release : (p.release c).Exclusive :=
  { exclusive with
    holds := by
      intro d j has
      simp only [Pool.release] at has ⊢
      rcases mem_held_update.mp has with ⟨_, none⟩ | ⟨other, old⟩
      · cases none
      · rw [update_of_ne other]
        exact exclusive.holds old
    holders := by
      intro d e j first second
      rcases mem_held_update.mp first with ⟨_, none⟩ | ⟨_, old⟩
      · cases none
      rcases mem_held_update.mp second with ⟨_, none⟩ | ⟨_, older⟩
      · cases none
      exact exclusive.holders old older }

theorem moves (moves : p.Moves q) : q.Exclusive := by
  cases moves with
  | keep => exact exclusive
  | put _ _ fresh => exact exclusive.put fresh
  | take => exact exclusive.take
  | draw _ _ _ fresh => exact exclusive.draw fresh
  | release => exact exclusive.release

omit [DecidableEq K] [DecidableEq C] in
theorem not_mem_lot (listed : lot ∈ p.taken) (other : lot ≠ p.held c) (has : i ∈ p.held c) : i ∉ lot :=
  fun found => other (exclusive.lots listed (exclusive.holds has) found has)

end Exclusive

namespace Present

/-! An item goes nowhere but to the worker that takes its queue, and is gone when its worker lets it go. -/

omit [DecidableEq C] in
theorem put {j : I} (present : p.Present i) : (p.put k j).Present i := by
  rcases present with ⟨l, waits⟩ | has
  · exact .inl ⟨l, mem_queue_put.mpr (.inl waits)⟩
  · exact .inr has

omit [DecidableEq K] in
theorem held_of_free (free : p.held c = []) (has : i ∈ p.held d) : ∃ d, i ∈ Function.update p.held c lot d := by
  have other : d ≠ c := by
    rintro rfl
    rw [free] at has
    cases has
  exact ⟨d, mem_held_update.mpr (.inr ⟨other, has⟩)⟩

theorem take (present : p.Present i) (free : p.held c = []) : (p.take k c).Present i := by
  rcases present with ⟨l, waits⟩ | ⟨_, has⟩
  · by_cases same : l = k
    · subst same
      exact .inr ⟨c, mem_held_update.mpr (.inl ⟨rfl, waits⟩)⟩
    · exact .inl ⟨l, mem_queue_take.mpr ⟨waits, same⟩⟩
  · exact .inr (held_of_free free has)

omit [DecidableEq K] in
theorem draw (present : p.Present i) (free : p.held c = []) : (p.draw c j).Present i := by
  rcases present with waits | ⟨_, has⟩
  · exact .inl waits
  · exact .inr (held_of_free free has)

omit [DecidableEq K] in
theorem release (present : p.Present i) : (p.release c).Present i ∨ i ∈ p.held c := by
  rcases present with waits | ⟨d, has⟩
  · exact .inl (.inl waits)
  · by_cases same : d = c
    · subst same
      exact .inr has
    · exact .inl (.inr ⟨d, mem_held_update.mpr (.inr ⟨same, has⟩)⟩)

end Present

namespace Fresh

/-! An item stays fresh until it is put or drawn. -/

omit [DecidableEq C] in
theorem put {j : I} (fresh : p.Fresh i) (other : i ≠ j) : (p.put k j).Fresh i where
  queue := by
    intro l waits
    rcases mem_queue_put.mp waits with here | ⟨_, same⟩
    · exact fresh.queue l here
    · exact other same
  taken := fresh.taken

theorem take (fresh : p.Fresh i) : (p.take k c).Fresh i where
  queue := fun l waits => fresh.queue l (mem_queue_take.mp waits).1
  taken := by
    exact Log.forall_mem_concat.mpr ⟨fresh.taken, fresh.queue k⟩

omit [DecidableEq K] in
theorem draw (fresh : p.Fresh i) (other : i ≠ j) : (p.draw c j).Fresh i where
  queue := fresh.queue
  taken := by
    exact Log.forall_mem_concat.mpr ⟨fresh.taken, fun same => other (mem_singleton.mp same)⟩

omit [DecidableEq K] in
theorem release (fresh : p.Fresh i) : (p.release c).Fresh i where
  queue := fresh.queue
  taken := fresh.taken

end Fresh

end Pool

end Nisshi.Lib
