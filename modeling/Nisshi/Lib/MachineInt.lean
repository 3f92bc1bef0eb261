import Mathlib.Data.Int.Init
import Mathlib.Tactic.Common
import Mathlib.Algebra.Group.Int.Defs

/-! Checked and saturating arithmetic of the signed machine integers. -/

namespace Nisshi.Lib.MachineInt

open Option

/-- The sum of two values of `i32`, where it is one. -/
def checkedSum32 (a b : Int) : Option Int :=
  if -2 ^ 31 ≤ a + b ∧ a + b < 2 ^ 31 then some (a + b) else none

def checkedAdd32 (a b : Int32) : Option Int32 :=
  (checkedSum32 a.toInt b.toInt).map Int32.ofInt

def checkedAdd64 (a b : Int64) : Option Int64 :=
  if -2 ^ 63 ≤ a.toInt + b.toInt ∧ a.toInt + b.toInt < 2 ^ 63 then some (a + b) else none

def saturatingAdd64 (a b : Int64) : Int64 :=
  if a.toInt + b.toInt < -2 ^ 63 then Int64.minValue
  else if 2 ^ 63 ≤ a.toInt + b.toInt then Int64.maxValue
  else a + b

def saturatingSub64 (a b : Int64) : Int64 :=
  if a.toInt - b.toInt < -2 ^ 63 then Int64.minValue
  else if 2 ^ 63 ≤ a.toInt - b.toInt then Int64.maxValue
  else a - b

theorem toInt_checkedAdd32 (fits : checkedAdd32 a b = some sum) : sum.toInt = a.toInt + b.toInt := by
  obtain ⟨_, checked, rfl⟩ := map_eq_some_iff.mp fits
  obtain ⟨bounds, rfl⟩ := ite_some_none_eq_some.mp checked
  exact Int32.toInt_ofInt_of_le bounds.1 bounds.2

theorem checkedAdd32_eq (above : -2 ^ 31 ≤ a.toInt + b.toInt) (below : a.toInt + b.toInt < 2 ^ 31) :
    checkedAdd32 a b = some (a + b) := by
  rw [checkedAdd32, checkedSum32, if_pos ⟨above, below⟩, map_some, Int32.ofInt_add, Int32.ofInt_toInt,
    Int32.ofInt_toInt]

theorem eq_of_checkedAdd32 (fits : checkedAdd32 a b = some sum) : sum = a + b := by
  obtain ⟨_, checked, rfl⟩ := map_eq_some_iff.mp fits
  obtain ⟨-, rfl⟩ := ite_some_none_eq_some.mp checked
  rw [Int32.ofInt_add, Int32.ofInt_toInt, Int32.ofInt_toInt]

theorem eq_of_checkedAdd64 (fits : checkedAdd64 a b = some sum) : sum = a + b := by
  rw [checkedAdd64] at fits
  split at fits
  next => exact (some.inj fits).symm
  next => cases fits

end Nisshi.Lib.MachineInt
