import Mathlib.Data.Int.Order.Basic
import Nisshi.Lib.Log
import Mathlib.Algebra.BigOperators.Group.List.Basic
import Mathlib.Algebra.Ring.Int.Defs

/-! Intervals handed out one after another, each starting where the one before it ended: no position
before the end is skipped and none is handed out twice. -/

namespace Nisshi.Lib

open List

universe u

variable {α : Type u} {size : α → Int} {start stop : Int} {tiles : List (α × Int)}

/-- `tiles` holds, in order, who got which interval of `[start, stop)`, by its first position. -/
inductive Tiled (size : α → Int) (start : Int) : List (α × Int) → Int → Prop where
  | nil : Tiled size start [] start
  | snoc {tiles : List (α × Int)} {stop : Int} (before : Tiled size start tiles stop) (a : α)
      (positive : 0 < size a) : Tiled size start (tiles ++ [(a, stop)]) (stop + size a)

namespace Tiled

variable (tiled : Tiled size start tiles stop)

include tiled

theorem start_le : start ≤ stop := by
  induction tiled with
  | nil => exact le_rfl
  | snoc _ _ positive ih => omega

theorem stop_eq : stop = start + (tiles.map fun tile => size tile.1).sum := by
  induction tiled with
  | nil => simp
  | snoc _ _ _ ih =>
    simp only [map_append, map_cons, map_nil, sum_append, sum_cons, sum_nil]
    omega

theorem bounds {a : α} (member : (a, first) ∈ tiles) : start ≤ first ∧ first + size a ≤ stop ∧ 0 < size a := by
  induction tiled with
  | nil => cases member
  | snoc before b positive ih =>
    rcases Log.mem_concat.mp member with old | new
    · have := ih old
      omega
    · obtain ⟨rfl, rfl⟩ := Prod.mk.inj new
      exact ⟨before.start_le, le_rfl, positive⟩

theorem ordered : tiles.Pairwise fun earlier later => earlier.2 + size earlier.1 ≤ later.2 := by
  induction tiled with
  | nil => exact List.Pairwise.nil
  | snoc before _ _ ih =>
    exact Log.pairwise_concat.mpr ⟨ih, fun _ member => (before.bounds member).2.1⟩

theorem eq_or_disjoint {a : α} (member : (a, first) ∈ tiles) (member' : (b, second) ∈ tiles) :
    (a = b ∧ first = second) ∨ first + size a ≤ second ∨ second + size b ≤ first := by
  rcases Log.pairwise_trichotomy tiled.ordered member member' with same | less | more
  · exact .inl (Prod.mk.inj same)
  · exact .inr (.inl less)
  · exact .inr (.inr more)

theorem le_of_lt {a : α} (member : (a, first) ∈ tiles) (member' : (b, second) ∈ tiles)
    (inside : second < first + size a) : second ≤ first := by
  have positive := (tiled.bounds member').2.2
  rcases tiled.eq_or_disjoint member member' with ⟨_, same⟩ | apart | apart <;> omega

theorem unique {a : α} (member : (a, first) ∈ tiles) (member' : (b, first) ∈ tiles) : a = b := by
  have positive := (tiled.bounds member).2.2
  have positive' := (tiled.bounds member').2.2
  rcases tiled.eq_or_disjoint member member' with ⟨same, _⟩ | apart | apart
  · exact same
  · omega
  · omega

theorem covered (low : start ≤ position) (high : position < stop) :
    ∃ a first, (a, first) ∈ tiles ∧ first ≤ position ∧ position < first + size a := by
  induction tiled with
  | nil => omega
  | @snoc tiles stop before b positive ih =>
    rcases lt_or_ge position stop with inside | outside
    · obtain ⟨a, first, member, low, high⟩ := ih inside
      exact ⟨a, first, mem_append_left _ member, low, high⟩
    · exact ⟨b, stop, mem_append_right _ (mem_singleton_self _), outside, high⟩

end Tiled

end Nisshi.Lib
