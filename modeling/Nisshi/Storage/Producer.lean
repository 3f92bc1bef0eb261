import Nisshi.SansIo.ErrorCode

/-! The epochs of a producer that every storage engine checks a produced batch against. -/

namespace Nisshi.Storage.Producer

open Nisshi.SansIo

def i16Max : Int :=
  32767

/-- `InitProducerId` can no longer bump the epoch, so that `i16::MAX` stays free to fence. -/
def epochIsExhausted (epoch : Int) : Bool :=
  epoch ≥ i16Max - 1

def producerClaim : Option Int → Option Int → Except ErrorCode (Option (Int × Int))
  | none, none => .ok none
  | some id, some epoch =>
    if id = -1 ∧ epoch = -1 then .ok none
    else if id ≠ -1 ∧ epoch ≠ -1 then .ok (some (id, epoch))
    else .error .invalidRequest
  | _, _ => .error .invalidRequest

theorem producerClaim_ne_none : producerClaim producerId producerEpoch ≠ .error .none := by
  unfold producerClaim
  split
  · nofun
  · split
    · nofun
    · split <;> nofun
  · nofun

def checkClaim (stored claim : Int × Int) : ErrorCode :=
  if stored = claim then .none else .producerFenced

structure ProducerIdResponse where
  error : ErrorCode
  id : Int
  epoch : Int
  deriving DecidableEq

def ProducerIdResponse.failed (error : ErrorCode) : ProducerIdResponse :=
  { error, id := -1, epoch := -1 }

def olderEpochError : ErrorCode :=
  .invalidProducerEpoch

structure StoredEpochs where
  transactional : Bool
  newest : Int
  partition : Option Int
  deriving DecidableEq

inductive ProduceEpoch where
  | continue
  | start
  deriving DecidableEq

namespace StoredEpochs

def checkStart (producerEpoch baseSequence : Int) : Except ErrorCode ProduceEpoch :=
  if epochIsExhausted producerEpoch then .error .invalidProducerEpoch
  else if baseSequence ≠ 0 then .error .outOfOrderSequenceNumber
  else .ok .start

def checkBatch (stored : StoredEpochs) (producerEpoch baseSequence : Int) : Except ErrorCode ProduceEpoch :=
  if stored.newest = i16Max then .error .producerFenced
  else if stored.transactional then
    if producerEpoch = stored.newest then .ok .continue else .error .invalidProducerEpoch
  else
    match stored.partition with
    | some partition =>
      if producerEpoch = partition then .ok .continue
      else if producerEpoch < partition then .error olderEpochError
      else checkStart producerEpoch baseSequence
    | none => checkStart producerEpoch baseSequence

def isSuperseded (stored : StoredEpochs) (producerEpoch : Int) : Bool :=
  !stored.transactional && stored.newest != i16Max && stored.partition.any fun partition => partition > producerEpoch

theorem checkStart_eq_ok {producerEpoch : Int} (accepted : checkStart producerEpoch baseSequence = .ok verdict) :
    verdict = .start ∧ baseSequence = 0 := by
  simp only [checkStart] at accepted
  split at accepted
  · cases accepted
  · split at accepted
    · cases accepted
    next zero =>
      cases accepted
      exact ⟨rfl, by simpa using zero⟩

/-- What an accepted batch is: at the newest epoch of a transactional producer, at the partition's
epoch, or the first of an epoch above the partition's. -/
theorem checkBatch_eq_ok {stored : StoredEpochs} {producerEpoch : Int}
    (accepted : stored.checkBatch producerEpoch baseSequence = .ok verdict) :
    (stored.transactional = true ∧ producerEpoch = stored.newest ∧ verdict = .continue) ∨
    (stored.transactional = false ∧ stored.partition = some producerEpoch ∧ verdict = .continue) ∨
    (stored.transactional = false ∧ (∀ partition, stored.partition = some partition →
      partition < producerEpoch) ∧ verdict = .start ∧ baseSequence = 0) := by
  simp only [checkBatch] at accepted
  split at accepted
  · cases accepted
  · split at accepted
    next owned =>
      split at accepted
      next same =>
        cases accepted
        exact .inl ⟨owned, same, rfl⟩
      next => cases accepted
    next plain =>
      have plain : stored.transactional = false := by simpa using plain
      cases held : stored.partition with
      | none =>
        rw [held] at accepted
        exact .inr (.inr ⟨plain, nofun, checkStart_eq_ok accepted⟩)
      | some partition =>
        rw [held] at accepted
        simp only at accepted
        split at accepted
        next same =>
          cases accepted
          exact .inr (.inl ⟨plain, by rw [same], rfl⟩)
        next different =>
          split at accepted
          · cases accepted
          next notOlder =>
            refine .inr (.inr ⟨plain, ?_, checkStart_eq_ok accepted⟩)
            rintro _ ⟨⟩
            omega

end StoredEpochs

end Nisshi.Storage.Producer
