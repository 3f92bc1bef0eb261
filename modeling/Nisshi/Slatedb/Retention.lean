import Nisshi.Storage.Config
import Mathlib.Data.List.TakeWhile

/-! The retention of the SlateDB engine: `policy_delete`, for one partition of a topic with the delete policy. -/

namespace Nisshi.Slatedb

open Nisshi.Storage Nisshi.Lib.Decimal List Option

variable {B : Type}

structure Stored (B : Type) where
  offset : Int
  batch : B
  deriving DecidableEq

structure Watermark where
  low : Option Int
  high : Option Int
  deriving DecidableEq

/-- The batches of a partition, in the order of their keys, and its watermark. -/
structure Partition (B : Type) where
  batches : List (Stored B)
  watermark : Watermark
  deriving DecidableEq

namespace Partition

def logStart (partition : Partition B) : Int :=
  partition.watermark.low.getD 0

def highWatermark (partition : Partition B) : Int :=
  partition.watermark.high.getD 0

def saturatingSub (a b : Int) : Int :=
  max (-2 ^ 63) (min (a - b) (2 ^ 63 - 1))

def retentionMs (configured : Option String) : Int :=
  (configured.bind fun value => Config.parseI64 value.toList).getD (Config.defaultRetention * 1000)

/-- `policy_delete`, at `now` in milliseconds since the epoch. The scan stops at the first batch within the retention,
and the log start is left as it is when nothing was removed. -/
def policyDelete (maxTimestamp : B → Int) (now : Int) (configured : Option String) (partition : Partition B) :
    Partition B :=
  if 0 ≤ now ∧ now < 2 ^ 63 then
    let remaining := partition.batches.dropWhile fun stored =>
      !decide (saturatingSub now (maxTimestamp stored.batch) ≤ retentionMs configured)
    if remaining.length = partition.batches.length then partition
    else
      { batches := remaining
        watermark := { partition.watermark with
          low := some ((remaining.head?.map Stored.offset).getD partition.highWatermark) } }
  else partition

end Partition

/-- What `retention.ms` asks for: a batch that is more than it before `now`, and none for a negative one. -/
def expired (maxTimestamp : B → Int) (now retention : Int) (stored : Stored B) : Bool :=
  decide (0 ≤ retention) && decide (retention < now - maxTimestamp stored.batch)

/-- The longest prefix of expired batches is gone, and the log starts with what is kept. -/
structure FollowsRetention (maxTimestamp : B → Int) (now retention : Int) (partition next : Partition B) : Prop where
  batches : next.batches = partition.batches.dropWhile (expired maxTimestamp now retention)
  logStart : next.logStart = (next.batches.head?.map Stored.offset).getD partition.highWatermark
  highWatermark : next.highWatermark = partition.highWatermark

/-- A clock that the sweep can read. -/
abbrev Readable (now : Int) : Prop :=
  0 ≤ now ∧ now < 2 ^ 63

/-- The limit and the clock are ordinary ones, or the oldest batch is within the retention. Where nothing is to be
removed, the log starts with the oldest batch already. -/
structure Regular (maxTimestamp : B → Int) (now retention : Int) (partition : Partition B) : Prop where
  judged : (0 ≤ retention ∧ retention < 2 ^ 63 - 1 ∧ Readable now) ∨ ∀ oldest ∈ partition.batches.head?,
    now - maxTimestamp oldest.batch ≤ retention ∨ (retention < 0 ∧ ¬Readable now)
  starts : (∀ oldest ∈ partition.batches.head?, expired maxTimestamp now retention oldest = false) →
    partition.logStart = (partition.batches.head?.map Stored.offset).getD partition.highWatermark

theorem retentionMs_eq (accepted : Config.validateTopicConfig "retention.ms" value = .ok configured) :
    Partition.retentionMs configured = (Config.given value).getD (Config.defaultRetention * 1000) := by
  have stores := Config.stores_of_validateRetention accepted
  have long : ∀ n ∈ Config.given value, -2 ^ 63 ≤ n ∧ n < 2 ^ 63 := by
    intro n found
    obtain ⟨_, -, parsed⟩ := bind_eq_some_iff.mp found
    simpa using (filter_eq_some_iff.mp parsed).2
  generalize Config.given value = number at stores long
  cases stores with
  | unset => rfl
  | number n =>
    rw [Partition.retentionMs, bind_some, String.toList_ofList, Config.parseI64, readInt_intText, filter_some,
      if_pos (decide_eq_true (long n rfl))]

theorem dropWhile_ne_cons (p : α → Bool) : rest.dropWhile p ≠ first :: rest := by
  intro same
  have shorter := (dropWhile_suffix (l := rest) p).length_le
  rw [same, length_cons] at shorter
  omega

theorem lt_saturatingSub (atLeast : -2 ^ 63 ≤ retention) :
    ¬Partition.saturatingSub now stamp ≤ retention ↔ retention < now - stamp ∧ retention < 2 ^ 63 - 1 := by
  rw [Partition.saturatingSub]
  omega

/-- The sweep removes the batch when it comes first. -/
def removable (maxTimestamp : B → Int) (now retention : Int) (stored : Stored B) : Bool :=
  decide (Readable now ∧ retention < now - maxTimestamp stored.batch ∧ retention < 2 ^ 63 - 1)

/-- A batch that should be removed is, and no other is, exactly for an ordinary limit and clock or a batch within the
retention. -/
theorem removable_eq_iff (maxTimestamp : B → Int) (now retention : Int) (stored : Stored B) :
    removable maxTimestamp now retention stored = expired maxTimestamp now retention stored ↔
      (0 ≤ retention ∧ retention < 2 ^ 63 - 1 ∧ Readable now) ∨
        now - maxTimestamp stored.batch ≤ retention ∨ (retention < 0 ∧ ¬Readable now) := by
  rw [removable, expired, ← Bool.decide_and, decide_eq_decide]
  omega

section Sweep

variable {maxTimestamp : B → Int} {partition : Partition B} {oldest : Stored B} {rest : List (Stored B)}

theorem neg_two_pow_le_retentionMs (configured : Option String) : -2 ^ 63 ≤ Partition.retentionMs configured := by
  rw [Partition.retentionMs]
  cases parsed : configured.bind fun value => Config.parseI64 value.toList with
  | none => decide
  | some number =>
    obtain ⟨_, -, parsed⟩ := bind_eq_some_iff.mp parsed
    have long := (filter_eq_some_iff.mp parsed).2
    rw [decide_eq_true_eq] at long
    exact long.1

theorem policyDelete_nil (empty : partition.batches = []) :
    partition.policyDelete maxTimestamp now configured = partition := by
  rw [Partition.policyDelete, empty]
  exact ite_self _

/-- The first batch decides whether anything is removed. -/
theorem policyDelete_cons (listed : partition.batches = oldest :: rest) :
    partition.policyDelete maxTimestamp now configured =
      if removable maxTimestamp now (Partition.retentionMs configured) oldest then
        let remaining := rest.dropWhile (removable maxTimestamp now (Partition.retentionMs configured))
        { batches := remaining
          watermark := { partition.watermark with
            low := some ((remaining.head?.map Stored.offset).getD partition.highWatermark) } }
      else partition := by
  rw [Partition.policyDelete, listed]
  by_cases time : Readable now
  · have same : (fun stored : Stored B => !decide (Partition.saturatingSub now (maxTimestamp stored.batch) ≤
        Partition.retentionMs configured)) = removable maxTimestamp now (Partition.retentionMs configured) := by
      funext stored
      rw [← decide_not, removable, decide_eq_decide, lt_saturatingSub (neg_two_pow_le_retentionMs configured)]
      exact (and_iff_right time).symm
    rw [if_pos time, same]
    split
    next old =>
      have shorter := (dropWhile_suffix (l := rest)
        (removable maxTimestamp now (Partition.retentionMs configured))).length_le
      rw [dropWhile_cons_of_pos old]
      exact if_neg (by rw [length_cons]; omega)
    next kept =>
      rw [dropWhile_cons_of_neg kept]
      exact if_pos rfl
  · rw [if_neg time, if_neg fun old => time (of_decide_eq_true old).1]

variable (listed : partition.batches = oldest :: rest)
include listed

theorem followsRetention_self (kept : expired maxTimestamp now retention oldest = false) :
    FollowsRetention maxTimestamp now retention partition partition ↔ partition.logStart = oldest.offset := by
  constructor
  · intro follows
    have start := follows.logStart
    rwa [listed] at start
  · refine fun start => ⟨?_, ?_, rfl⟩
    · rw [listed, dropWhile_cons_of_neg (by rw [kept]; exact Bool.false_ne_true)]
    · rw [start, listed]
      rfl

end Sweep

/-- The sweep does what `retention.ms` asks for exactly if the limit and the clock are ordinary ones or the oldest
batch is within the retention, and a log of which nothing is removed starts with its oldest batch. -/
theorem policy_delete_follows_retention_iff (maxTimestamp : B → Int) (now : Int) (partition : Partition B)
    (accepted : Config.validateTopicConfig "retention.ms" value = .ok configured)
    (number : (Config.given value).getD (Config.defaultRetention * 1000) = retention) :
    FollowsRetention maxTimestamp now retention partition (partition.policyDelete maxTimestamp now configured) ↔
      Regular maxTimestamp now retention partition := by
  rw [← retentionMs_eq accepted] at number
  cases listed : partition.batches with
  | nil =>
    rw [policyDelete_nil listed]
    constructor
    · refine fun follows => ⟨.inr ?_, fun _ => follows.logStart⟩
      rw [listed]
      nofun
    · refine fun regular => ⟨by rw [listed]; rfl, regular.starts ?_, rfl⟩
      rw [listed]
      nofun
  | cons oldest rest =>
    have first : partition.batches.head? = some oldest := by rw [listed, head?_cons]
    have judged : (removable maxTimestamp now retention oldest = expired maxTimestamp now retention oldest) ↔
        ((0 ≤ retention ∧ retention < 2 ^ 63 - 1 ∧ Readable now) ∨ ∀ oldest ∈ partition.batches.head?,
          now - maxTimestamp oldest.batch ≤ retention ∨ (retention < 0 ∧ ¬Readable now)) := by
      rw [removable_eq_iff, first]
      simp only [mem_some_iff, forall_eq']
    rw [policyDelete_cons listed, number]
    split
    next old =>
      constructor
      · intro follows
        have due : expired maxTimestamp now retention oldest = true := by
          by_contra kept
          have batches := follows.batches
          rw [listed, dropWhile_cons_of_neg kept] at batches
          exact dropWhile_ne_cons _ batches
        refine ⟨judged.mp (old.trans due.symm), fun none => ?_⟩
        exact absurd ((none oldest first).symm.trans due) Bool.false_ne_true
      · intro regular
        have due : expired maxTimestamp now retention oldest = true := (judged.mpr regular.judged).symm.trans old
        have same : removable maxTimestamp now retention = expired maxTimestamp now retention := by
          have limited := (Bool.and_eq_true_iff.mp due).1
          have timed := of_decide_eq_true old
          exact funext fun stored => (removable_eq_iff ..).mpr (.inl ⟨of_decide_eq_true limited, timed.2.2, timed.1⟩)
        exact ⟨by rw [listed, dropWhile_cons_of_pos due, same], rfl, rfl⟩
    next kept =>
      constructor
      · intro follows
        have past : expired maxTimestamp now retention oldest = false := by
          by_contra due
          have batches := follows.batches
          rw [listed, dropWhile_cons_of_pos (Bool.of_not_eq_false due)] at batches
          exact dropWhile_ne_cons _ batches.symm
        refine ⟨judged.mp ((Bool.not_eq_true _ ▸ kept).trans past.symm), fun _ => ?_⟩
        rw [first]
        exact (followsRetention_self listed past).mp follows
      · intro regular
        have past : expired maxTimestamp now retention oldest = false :=
          (judged.mpr regular.judged).symm.trans (Bool.eq_false_of_not_eq_true kept)
        refine (followsRetention_self listed past).mpr ?_
        have start := regular.starts fun other found => by
          rw [first] at found
          cases found
          exact past
        rwa [first] at start

def twoBatches : Partition Int where
  batches := [⟨0, 0⟩, ⟨5, 9⟩]
  watermark := { low := none, high := some 10 }

theorem policy_delete_follows_retention_iff_five :
    FollowsRetention id 10 5 twoBatches (twoBatches.policyDelete id 10 (some "5")) := by
  have accepted : Config.validateTopicConfig "retention.ms" (some " 5") = .ok (some "5") := by decide +kernel
  have number : (Config.given (some " 5")).getD (Config.defaultRetention * 1000) = 5 := by decide +kernel
  refine (policy_delete_follows_retention_iff id 10 twoBatches accepted number).mpr ⟨.inl (by decide), fun none => ?_⟩
  exact absurd (none _ rfl) (by decide)

/-- A retention of -1 is accepted, and every batch that is not from the future is removed. -/
theorem unlimited_retention_removes_all : Config.validateTopicConfig "retention.ms" (some "-1") = .ok (some "-1") ∧
      (twoBatches.policyDelete id 10 (some "-1")).batches = [] ∧
      (twoBatches.policyDelete id 10 (some "-1")).logStart = 10 := by
  decide +kernel

end Nisshi.Slatedb
