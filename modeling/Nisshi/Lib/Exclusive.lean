import Mathlib.Logic.Function.Basic

/-! A lock that one party at a time holds: who is inside the section that it guards, as the parties move
between their phases. -/

namespace Nisshi.Lib

open Option Function

universe u v

variable {C : Type u} {P : Type v} {inside : P → Bool} {lock : Option C} {phase : C → P} {c d : C}

def Exclusive (inside : P → Bool) (lock : Option C) (phase : C → P) : Prop :=
  ∀ c, inside (phase c) = true ↔ lock = some c

namespace Exclusive

theorem unique (exclusive : Exclusive inside lock phase) (first : inside (phase c) = true)
    (second : inside (phase d) = true) : c = d :=
  some.inj (((exclusive c).mp first).symm.trans ((exclusive d).mp second))

theorem outside (exclusive : Exclusive inside lock phase) (different : lock ≠ some c) : inside (phase c) = false := by
  rw [← Bool.not_eq_true, exclusive c]
  exact different

variable [DecidableEq C]

theorem move (exclusive : Exclusive inside lock phase) (same : inside next = inside (phase c)) :
    Exclusive inside lock (Function.update phase c next) := by
  intro d
  by_cases mine : d = c
  · subst mine
    rw [update_self, same]
    exact exclusive d
  · rw [update_of_ne mine]
    exact exclusive d

theorem acquire (exclusive : Exclusive inside none phase) (enters : inside next = true) :
    Exclusive inside (some c) (Function.update phase c next) := by
  intro d
  by_cases mine : d = c
  · subst mine
    simp [enters]
  · have out := exclusive.outside (c := d) (by simp)
    rw [update_of_ne mine, out]
    simp [Ne.symm mine]

theorem release (exclusive : Exclusive inside lock phase) (holds : inside (phase c) = true)
    (leaves : inside next = false) : Exclusive inside none (Function.update phase c next) := by
  intro d
  by_cases mine : d = c
  · subst mine
    simp [leaves]
  · rw [update_of_ne mine]
    have out : inside (phase d) ≠ true := fun second => mine (exclusive.unique second holds)
    simp [out]

end Exclusive

end Nisshi.Lib
