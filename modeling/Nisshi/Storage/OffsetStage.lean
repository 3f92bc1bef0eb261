import Nisshi.SansIo.ErrorCode
import Mathlib.Algebra.Order.Group.Int
import Mathlib.Tactic.Common

/-! The offsets of a partition that its readers see, and the cutoff of a deletion of records. -/

namespace Nisshi.Storage

open Nisshi.SansIo

structure OffsetStage where
  lastStable : Int
  highWatermark : Int
  logStart : Int
  deriving DecidableEq

def deleteRecordsCutoff (requested : Int) (stage : OffsetStage) : Except ErrorCode Int :=
  if requested = -1 then .ok stage.highWatermark
  else if requested < -1 ∨ requested > stage.highWatermark then .error .offsetOutOfRange
  else if requested ≤ stage.logStart then .ok stage.logStart
  else .ok requested

inductive IsolationLevel where
  | readUncommitted
  | readCommitted
  deriving DecidableEq

theorem deleteRecordsCutoff_bounds {requested : Int} (given : deleteRecordsCutoff requested stage = .ok cutoff)
    (ordered : stage.logStart ≤ stage.highWatermark) : stage.logStart ≤ cutoff ∧ cutoff ≤ stage.highWatermark := by
  unfold deleteRecordsCutoff at given
  split at given
  · cases given
    exact ⟨ordered, le_rfl⟩
  · split at given
    · cases given
    · split at given <;> cases given
      · exact ⟨le_rfl, ordered⟩
      · omega

end Nisshi.Storage
