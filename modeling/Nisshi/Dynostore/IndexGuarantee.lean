import Nisshi.Dynostore.TimestampLookup
import Nisshi.Dynostore.Truncation

/-! What the entries of the time index say of the batches before them, over produces, `delete_records` calls
and backfills in any interleaving. -/

namespace Nisshi.Dynostore

open Nisshi.Lib Nisshi.SansIo Option Function

namespace Watermark

@[simp]
theorem recordProducerEpoch_timeIndex (watermark : Watermark) (producerId producerEpoch : Int) :
    (watermark.recordProducerEpoch producerId producerEpoch).timeIndex = watermark.timeIndex := by
  simp only [recordProducerEpoch]
  split <;> rfl

theorem assignOffset_timeIndex {watermark : Watermark} (given : watermark.assignOffset deflated = (after, .ok offset)) :
    after.high.isSome = true ∧ after.timeIndex =
      (if watermark.high.isNone then watermark.timeIndex.markComplete else watermark.timeIndex).append
        deflated.maxTimestamp.toInt watermark.next deflated.batchLength.toInt.toNat := by
  unfold assignOffset at given
  dsimp only at given
  split at given
  · cases given
  · cases given
    cases IdempotentBatch.of deflated with
    | none => exact ⟨rfl, rfl⟩
    | some => exact ⟨by rw [recordProducerEpoch_high]; rfl, recordProducerEpoch_timeIndex _ _ _⟩

end Watermark

namespace Produce

/-- The offset whose object the attempt has yet to write. -/
@[simp]
def Phase.inFlight : Phase → Option Int
  | .assigned offset => some offset
  | .recorded offset => some offset
  | _ => none

@[simp]
theorem Phase.inFlight_ofCheck (check : Except ErrorCode SequenceCheck) : (Phase.ofCheck check).inFlight = none := by
  rcases check with _ | _ | _ <;> rfl

theorem Phase.inFlight_ofResult {next : α → Phase} (idle : ∀ value, (next value).inFlight = none)
    (result : Except ErrorCode α) : (Phase.ofResult next result).inFlight = none := by
  cases result with
  | error => rfl
  | ok value => exact idle value

variable {A : Type} [DecidableEq A] {topition : Topition} {program : A → Attempt} {s t : State A}
  {action : Action A}

theorem Step.inFlight (step : Step topition program s action t) (a : A) (flying : (t.phase a).inFlight = some offset) :
    (s.phase a).inFlight = some offset ∨ s.phase a = .started := by
  have moved {b : A} {next : Phase} (mine : next.inFlight = some offset →
      (s.phase b).inFlight = some offset ∨ s.phase b = .started)
      (flying : ((s.setPhase b next).phase a).inFlight = some offset) :
      (s.phase a).inFlight = some offset ∨ s.phase a = .started :=
    State.forall_setPhase (P := fun b phase => phase.inFlight = some offset →
      (s.phase b).inFlight = some offset ∨ s.phase b = .started) mine (fun _ _ same => .inl same) a flying
  cases step with
  | assign at_ => exact moved (fun _ => .inr at_) flying
  | recordRange at_ => exact moved (fun same => .inl (by rw [at_]; exact same)) flying
  | check =>
    exact moved (fun same => by rw [Phase.inFlight_ofCheck] at same; cases same) flying
  | ensure =>
    exact moved (fun same => by rw [Phase.inFlight_ofResult fun _ => rfl] at same; cases same) flying
  | readStart =>
    refine moved (fun same => ?_) flying
    split at same
    · cases same
    · split at same <;> cases same
  | _ =>
    refine moved (fun same => ?_) flying
    cases same

/-- A step gives a batch its offsets, which the time index takes note of, or leaves the time index alone. -/
theorem Step.watermark_cases (step : Step topition program s action t) :
    (t.watermark = s.watermark ∧ t.taken = s.taken) ∨
    ∃ a, action = .assign a ∧ s.phase a = .started ∧ t.taken = s.taken ++ [(a, s.watermark.next)] ∧
      t.watermark.high.isSome = true ∧ t.watermark.timeIndex =
        (if s.watermark.high.isNone then s.watermark.timeIndex.markComplete else s.watermark.timeIndex).append
          (program a).deflated.maxTimestamp.toInt s.watermark.next
          (program a).deflated.batchLength.toInt.toNat := by
  cases step with
  | @assign a watermark offset at_ given =>
    obtain ⟨high, index⟩ := Watermark.assignOffset_timeIndex given
    obtain ⟨rfl, -⟩ := Watermark.of_assigned given
    exact .inr ⟨a, rfl, at_, rfl, high, index⟩
  | assignRefused _ refused => exact .inl ⟨Watermark.eq_of_refused refused, rfl⟩
  | _ => exact .inl ⟨rfl, rfl⟩

def Alive (s : State A) (batch : A × Int) : Prop :=
  batch ∈ s.taken ∧ ((s.objects (batchPath batch.2)).isSome = true ∨ (s.phase batch.1).inFlight = some batch.2)

/-- A batch that failed or was deleted does not come back. -/
theorem Alive.of_step {stored : Fetch.Objects} (assigned : Assigned program { s with objects := stored })
    (step : Step topition program s action t) (member : batch ∈ s.taken) (alive : Alive t batch) : Alive s batch := by
  refine ⟨member, ?_⟩
  rcases alive.2 with present | flying
  · cases step with
    | @put a offset at_ free =>
      change (update s.objects (batchPath offset) _ (batchPath batch.2)).isSome = true at present
      by_cases path : batchPath batch.2 = batchPath offset
      · have mine : (a, offset) ∈ s.taken := assigned.holds a offset (by rw [show _ = _ from at_]; rfl)
        have same := batchPath_injective (assigned.tiled.bounds member).1 (assigned.tiled.bounds mine).1 path
        cases same
        obtain rfl := assigned.tiled.unique mine member
        exact .inr (by rw [at_]; rfl)
      · rw [update_of_ne path] at present
        exact .inl present
    | _ => exact .inl present
  · rcases step.inFlight batch.1 flying with same | started
    · exact .inr same
    · have place := assigned.taken batch.1 batch.2 member
      rw [show (State.phase _ _) = _ from started] at place
      simp at place

end Produce

namespace DeleteRecords

variable {A D : Type} [DecidableEq A] [DecidableEq D] {topition : Topition}
  {program : A → Produce.Attempt} {requested : D → Int} {s t : State A D} {action : Action A D}

theorem Step.timeIndex_cases (step : Step topition program requested s action t) :
    (t.log.watermark.timeIndex = s.log.watermark.timeIndex ∧
      t.log.watermark.high = s.log.watermark.high ∧ t.log.taken = s.log.taken) ∨
    ∃ a, action = .produce (.assign a) ∧ t.log.taken = s.log.taken ++ [(a, s.log.watermark.next)] ∧
      t.log.watermark.high.isSome = true ∧ t.log.watermark.timeIndex =
        (if s.log.watermark.high.isNone then s.log.watermark.timeIndex.markComplete
          else s.log.watermark.timeIndex).append (program a).deflated.maxTimestamp.toInt
            s.log.watermark.next (program a).deflated.batchLength.toInt.toNat := by
  cases step with
  | produce step =>
    rcases step.watermark_cases with ⟨same, taken⟩ | ⟨a, rfl, -, taken, high, index⟩
    · exact .inl ⟨congrArg _ same, congrArg _ same, taken⟩
    · exact .inr ⟨a, rfl, taken, high, index⟩
  | @cut d at_ =>
    refine .inl ?_
    unfold Watermark.deleteRecords
    dsimp only
    split <;> exact ⟨rfl, rfl, rfl⟩
  | _ => exact .inl ⟨rfl, rfl, rfl⟩

theorem Step.earlierWatermarks (step : Step topition program requested s action t)
    (earlier : watermark ∈ t.log.earlierWatermarks) : watermark ∈ s.log.watermark :: s.log.earlierWatermarks := by
  cases step with
  | produce step => exact (Fetch.Grows.of_step step).watermarks watermark earlier
  | cut => exact earlier
  | _ => exact List.mem_cons_of_mem _ earlier

theorem Alive.of_step (based : Based program s) (step : Step topition program requested s action t)
    (member : batch ∈ s.log.taken) (alive : Produce.Alive t.log batch) : Produce.Alive s.log batch := by
  cases step with
  | produce step => exact alive.of_step based.assigned step member
  | @delete d cutoff expired base at_ listed =>
    refine ⟨member, alive.2.imp_left fun present => ?_⟩
    change (update s.log.objects (batchPath base) none (batchPath batch.2)).isSome = true at present
    by_cases path : batchPath batch.2 = batchPath base
    · rw [path, update_self] at present
      cases present
    · rwa [update_of_ne path] at present
  | _ => exact ⟨member, alive.2⟩

end DeleteRecords

namespace Lookup

open Produce (Alive)
open DeleteRecords (Based)

variable {A D L : Type} {program : A → Produce.Attempt} {codec : Codec} {s t : State A D L}
  {index : TimeIndex} {batch : A × Int}

def stamp (codec : Codec) (program : A → Produce.Attempt) (batch : A × Int) : Int :=
  maxRecordTimestamp codec (program batch.1).deflated

/-- The batch has not a greater timestamp than the index's maximum, and a lesser one than each entry behind
it. -/
structure Seen (codec : Codec) (program : A → Produce.Attempt) (index : TimeIndex) (batch : A × Int) :
    Prop where
  max : stamp codec program batch ≤ index.maxTimestamp
  entries : ∀ timestamp offset : Int, index.entries[timestamp]? = some offset → batch.2 < offset →
    stamp codec program batch < timestamp

namespace Seen

theorem congr (seen : Seen codec program index batch) (entries : other.entries = index.entries)
    (max : other.maxTimestamp = index.maxTimestamp) : Seen codec program other batch where
  max := max ▸ seen.max
  entries := entries ▸ seen.entries

theorem append {maxTimestamp baseOffset : Int} {bytes : Nat} (seen : Seen codec program index batch) :
    Seen codec program (index.append maxTimestamp baseOffset bytes) batch where
  max := by
    rw [TimeIndex.maxTimestamp_append]
    exact seen.max.trans (le_max_left _ _)
  entries := by
    intro timestamp offset held before
    rcases TimeIndex.entries_append held with old | ⟨rfl, rfl, above⟩
    · exact seen.entries timestamp offset old before
    · exact lt_of_le_of_lt seen.max above

theorem append_self {maxTimestamp : Int} (batch : A × Int) (same : stamp codec program batch = maxTimestamp)
    (offsets : ∀ timestamp offset : Int, index.entries[timestamp]? = some offset → offset ≤ batch.2) :
    Seen codec program (index.append maxTimestamp batch.2 bytes) batch where
  max := by
    rw [TimeIndex.maxTimestamp_append, same]
    exact le_max_right _ _
  entries := by
    intro timestamp offset held before
    rcases TimeIndex.entries_append held with old | ⟨rfl, rfl, _⟩
    · exact absurd before (not_lt.mpr (offsets timestamp offset old))
    · exact absurd before (lt_irrefl _)

variable {candidate live : TimeIndex} {token : Nat}

theorem merge_live (seen : Seen codec program live batch)
    (entries : ∀ timestamp offset : Int, candidate.entries[timestamp]? = some offset → batch.2 < offset →
      stamp codec program batch < timestamp) : Seen codec program (.merge candidate live token) batch where
  max := seen.max.trans (TimeIndex.maxTimestamp_le_merge token).2
  entries := by
    intro timestamp offset held before
    rcases TimeIndex.entries_merge held with mine | ⟨kept, -⟩
    · exact entries timestamp offset mine before
    · exact seen.entries timestamp offset kept before

/-- A batch that the candidate has seen. A live entry is kept only above the candidate's maximum. -/
theorem merge_candidate (seen : Seen codec program candidate batch)
    (bounded : candidate.maxTimestamp < TimeIndex.maxI64) :
    Seen codec program (.merge candidate live token) batch where
  max := seen.max.trans (TimeIndex.maxTimestamp_le_merge token).1
  entries := by
    intro timestamp offset held before
    rcases TimeIndex.entries_merge held with mine | ⟨-, above⟩
    · exact seen.entries timestamp offset mine before
    · have max := seen.max
      unfold TimeIndex.saturatingAdd at above
      omega

end Seen

/-- Which batches a result is about: those that were given an offset at or above `start`, or those with an
offset at or above the log start. -/
inductive Scope where
  | given (start : Int)
  | stored

def Counts (scope : Scope) (program : A → Produce.Attempt) (s : State A D L) (batch : A × Int) : Prop :=
  Alive s.log batch ∧ match scope with
    | .given start => start ≤ batch.2
    | .stored => s.log.watermark.logStart < batch.2 + (program batch.1).size

variable {scope : Scope} {mark : Int}

/-- What the time index has seen: the batches from `mark` on, and all of them when it is complete. -/
structure Live (codec : Codec) (scope : Scope) (program : A → Produce.Attempt) (mark : Int)
    (s : State A D L) : Prop where
  offsets : ∀ timestamp offset : Int, s.index.entries[timestamp]? = some offset → offset ≤ s.log.watermark.next
  seen : ∀ batch, Counts scope program s batch → mark ≤ batch.2 → Seen codec program s.index batch
  complete : s.index.isComplete = true → ∀ batch, Counts scope program s batch → Seen codec program s.index batch
  given : ∀ start, scope = .given start → mark ≤ start
  version : s.index.isOlderVersion = true → s.index.backfill.isSome = true ∨ s.log.watermark.high = none
  high : ∀ watermark ∈ s.log.earlierWatermarks, watermark.high.isSome = true → s.log.watermark.high.isSome = true

structure Window (program : A → Produce.Attempt) (mark : Int) (s : State A D L) (hush : Prop)
    (token : Nat) (low high : Int) : Prop where
  low_le : low ≤ s.log.watermark.logStart
  mark_le : mark ≤ high
  high_le : high ≤ s.log.watermark.next
  boundary : ∀ batch ∈ s.log.taken, batch.2 < high → batch.2 + (program batch.1).size ≤ high
  owner : s.index.isOlderVersion = true → s.index.backfill = some token
  exists_ : s.log.watermark.high.isSome = true
  hushed : hush → high = s.log.watermark.next

def Names (listed : List (Int × Int)) (offset : Int) : Prop :=
  ∃ written, (offset, written) ∈ listed

structure Named (s : State A D L) (backfill : Backfill) (listed : List (Int × Int)) : Prop where
  nonneg : ∀ entry ∈ listed, 0 ≤ entry.1
  stored : ∀ entry ∈ listed, (s.partition.stored (batchPath entry.1)).isSome = true
  below : ∀ entry ∈ listed, entry.1 < backfill.high
  sorted : listed.Pairwise fun first second => first.1 < second.1

/-- A batch that a listing can miss: it ends behind the log start of the backfill, and no batch behind it is
old enough to settle it. -/
structure Late (program : A → Produce.Attempt) (backfill : Backfill) (listed : List (Int × Int))
    (batch : A × Int) : Prop where
  low : backfill.low < batch.2 + (program batch.1).size
  young : ∀ entry ∈ listed, batch.2 < entry.1 → backfill.began < entry.2 + batchSettledAfter

structure Listing (scope : Scope) (program : A → Produce.Attempt) (mark : Int) (s : State A D L)
    (hush : Prop) (backfill : Backfill) (atStart : Fetch.Objects) (listed : List (Int × Int)) : Prop where
  window : Window program mark s hush backfill.token backfill.low backfill.high
  named : Named s backfill listed
  kept : ∀ name, (atStart name).isSome = true → (s.partition.stored name).isSome = true
  began : backfill.began ≤ s.now
  late : ∀ batch, Counts scope program s batch → batch.2 < backfill.high →
    (atStart (batchPath batch.2)).isSome = true ∨ Late program backfill listed batch ∧
      ∀ base, batch.2 < base → (s.log.objects (batchPath base)).isSome = true →
        backfill.began < s.written base + batchSettledAfter
  hushed : hush → ∀ batch, Counts scope program s batch → (atStart (batchPath batch.2)).isSome = true

/-- What the candidate has seen: of the batches that the listing named, those before its queue. -/
structure Reading (codec : Codec) (scope : Scope) (program : A → Produce.Attempt) (mark : Int)
    (s : State A D L) (hush : Prop) (backfill : Backfill) (collect : Collect) : Prop where
  window : Window program mark s hush backfill.token backfill.low backfill.high
  named : Named s backfill collect.listed
  late : ∀ batch, Counts scope program s batch → batch.2 < backfill.high →
    Names collect.listed batch.2 ∨ Late program backfill collect.listed batch
  hushed : hush → ∀ batch, Counts scope program s batch → Names collect.listed batch.2
  visited : ∃ visited, collect.listed = visited ++ collect.queue ∧
    ∀ batch, Counts scope program s batch → Names visited batch.2 →
      stamp codec program batch ≤ collect.candidate.maxTimestamp
  entries : ∀ batch, Counts scope program s batch → ∀ timestamp offset : Int,
    collect.candidate.entries[timestamp]? = some offset → batch.2 < offset → stamp codec program batch < timestamp
  offsets : ∀ timestamp offset : Int, collect.candidate.entries[timestamp]? = some offset → offset < backfill.high
  bounded : collect.candidate.maxTimestamp < TimeIndex.maxI64
  incomplete : collect.candidate.isComplete = false
  covered : collect.settled = true → ∀ batch, Counts scope program s batch → batch.2 < backfill.high →
    (∀ expected, collect.nextOffset = some expected → batch.2 + (program batch.1).size ≤ expected) →
      Names collect.listed batch.2

/-- What holds of a lookup in its phase. `hush` is that nothing was in progress since it was called. -/
def Sound (codec : Codec) (scope : Scope) (program : A → Produce.Attempt) (mark : Int) (s : State A D L)
    (hush : Prop) : Phase → Prop
  | .waiting => s.log.watermark.high.isSome = true
  | .opening => s.log.watermark.high.isSome = true
  | .begun token low high _ => Window program mark s hush token low high
  | .listing backfill atStart listed => Listing scope program mark s hush backfill atStart listed
  | .reading backfill collect => Reading codec scope program mark s hush backfill collect
  | .committed merged => hush → ∀ batch, Counts scope program s batch → Seen codec program merged batch
  | .found index low => hush → low = s.log.watermark.logStart ∧
      ∀ batch, Counts scope program s batch → Seen codec program index batch
  | _ => True

/-- The lookup is one that an exact answer is asked of, and nothing was in progress since it was called. -/
def Hush (scope : Scope) (s : State A D L) (l : L) : Prop :=
  scope = .stored ∧ s.quiet l

structure Indexed (codec : Codec) (scope : Scope) (program : A → Produce.Attempt) (mark : Int)
    (s : State A D L) : Prop where
  live : Live codec scope program mark s
  sound : ∀ l, Sound codec scope program mark s (Hush scope s l) (s.lookup l)
  idle : ∀ l, s.quiet l → s.Idle

/-- An index of an older version that no backfill has begun to replace. -/
structure Stale (s : State A D L) : Prop where
  older : ∀ watermark ∈ s.log.watermark :: s.log.earlierWatermarks,
    watermark.timeIndex.isOlderVersion = true ∧ watermark.high.isSome = true
  token : s.index.backfill = none
  begun : s.begun = false
  lookup : ∀ l, s.lookup l = .start ∨ s.lookup l = .waiting ∨ s.lookup l = .opening ∨ s.lookup l = .failed
  idle : ∀ l, s.quiet l → s.Idle

/-! What the steps of the others keep for a lookup. -/

structure Moves (scope : Scope) (program : A → Produce.Attempt) (s t : State A D L) : Prop where
  counts : ∀ batch, Counts scope program t batch → Counts scope program s batch ∨ s.log.watermark.next ≤ batch.2
  taken : ∀ batch ∈ t.log.taken, batch ∈ s.log.taken ∨ s.log.watermark.next ≤ batch.2
  start : s.log.watermark.logStart ≤ t.log.watermark.logStart
  next : s.log.watermark.next ≤ t.log.watermark.next
  exists_ : s.log.watermark.high.isSome = true → t.log.watermark.high.isSome = true
  now : s.now ≤ t.now
  stored : ∀ key, (s.partition.stored key).isSome = true → (t.partition.stored key).isSome = true
  written : ∀ base, (t.log.objects (batchPath base)).isSome = true →
    ((s.log.objects (batchPath base)).isSome = true ∧ t.written base = s.written base) ∨ s.now ≤ t.written base
  token : t.index.isOlderVersion = true → s.index.isOlderVersion = true ∧ t.index.backfill = s.index.backfill

/-- What a lookup during which nothing is in progress finds as it was. -/
structure Still (scope : Scope) (program : A → Produce.Attempt) (s t : State A D L) : Prop where
  counts : ∀ batch, Counts scope program t batch → Counts scope program s batch
  start : t.log.watermark.logStart = s.log.watermark.logStart
  next : t.log.watermark.next = s.log.watermark.next

variable {hush hush' : Prop}

variable {token : Nat} {backfill : Backfill} {listed : List (Int × Int)} {atStart : Fetch.Objects}
  {phase : Phase} {l : L}

theorem Window.move (window : Window program mark s hush token low high) (moves : Moves scope program s t)
    (still : hush' → hush ∧ Still scope program s t) : Window program mark t hush' token low high where
  low_le := window.low_le.trans moves.start
  mark_le := window.mark_le
  high_le := window.high_le.trans moves.next
  boundary := by
    intro batch member below
    rcases moves.taken batch member with old | new
    · exact window.boundary batch old below
    · exact absurd (window.high_le.trans new) (not_le.mpr below)
  owner := by
    intro older
    obtain ⟨older, same⟩ := moves.token older
    rw [same]
    exact window.owner older
  exists_ := moves.exists_ window.exists_
  hushed := by
    intro quiet
    obtain ⟨quiet, still⟩ := still quiet
    rw [still.next]
    exact window.hushed quiet

theorem Named.move (named : Named s backfill listed) (moves : Moves scope program s t) : Named t backfill listed :=
  { named with
    stored := fun entry member => moves.stored _ (named.stored entry member) }

theorem Moves.counts_of_lt (moves : Moves scope program s t) (bound : high ≤ s.log.watermark.next)
    (counts : Counts scope program t batch) (below : batch.2 < high) : Counts scope program s batch := by
  rcases moves.counts batch counts with before | new
  · exact before
  · exact absurd (bound.trans new) (not_le.mpr below)

theorem Listing.move (listing : Listing scope program mark s hush backfill atStart listed)
    (moves : Moves scope program s t) (still : hush' → hush ∧ Still scope program s t) :
    Listing scope program mark t hush' backfill atStart listed where
  window := listing.window.move moves still
  named := listing.named.move moves
  kept := fun name there => moves.stored name (listing.kept name there)
  began := listing.began.trans moves.now
  late := by
    intro batch counts below
    have before := moves.counts_of_lt listing.window.high_le counts below
    rcases listing.late batch before below with present | ⟨late, young⟩
    · exact .inl present
    · refine .inr ⟨late, fun base above there => ?_⟩
      rcases moves.written base there with ⟨there, same⟩ | new
      · rw [same]
        exact young base above there
      · have began := listing.began
        have settled : 0 < batchSettledAfter := by decide
        omega
  hushed := by
    intro quiet batch counts
    obtain ⟨quiet, still⟩ := still quiet
    exact listing.hushed quiet batch (still.counts batch counts)

theorem Reading.move (reading : Reading codec scope program mark s hush backfill collect)
    (moves : Moves scope program s t) (still : hush' → hush ∧ Still scope program s t) :
    Reading codec scope program mark t hush' backfill collect :=
  { reading with
    window := reading.window.move moves still
    named := reading.named.move moves
    late := by
      intro batch counts below
      exact reading.late batch (moves.counts_of_lt reading.window.high_le counts below) below
    hushed := by
      intro quiet batch counts
      obtain ⟨quiet, still⟩ := still quiet
      exact reading.hushed quiet batch (still.counts batch counts)
    visited := by
      obtain ⟨visited, same, max⟩ := reading.visited
      refine ⟨visited, same, fun batch counts named => max batch ?_ named⟩
      obtain ⟨_, member⟩ := named
      have below := reading.named.below _ (same ▸ List.mem_append_left _ member)
      exact moves.counts_of_lt reading.window.high_le counts below
    entries := by
      intro batch counts timestamp offset held before
      have below := before.trans (reading.offsets timestamp offset held)
      exact reading.entries batch (moves.counts_of_lt reading.window.high_le counts below) timestamp offset held
        before
    covered := by
      intro settled batch counts below
      exact reading.covered settled batch (moves.counts_of_lt reading.window.high_le counts below) below }

theorem Sound.move (sound : Sound codec scope program mark s hush phase) (moves : Moves scope program s t)
    (still : hush' → hush ∧ Still scope program s t) : Sound codec scope program mark t hush' phase := by
  cases phase with
  | waiting | opening => exact moves.exists_ sound
  | begun => exact Window.move sound moves still
  | listing => exact Listing.move sound moves still
  | reading => exact Reading.move sound moves still
  | committed =>
    intro quiet batch counts
    obtain ⟨quiet, still⟩ := still quiet
    exact sound quiet batch (still.counts batch counts)
  | found =>
    intro quiet
    obtain ⟨quiet, still⟩ := still quiet
    obtain ⟨same, seen⟩ := sound quiet
    exact ⟨same.trans still.start.symm, fun batch counts => seen batch (still.counts batch counts)⟩
  | start | answered | failed => trivial

/-! The conditions under which the index is right. -/

/-- `batch` counts, and no listing can name it yet. -/
def Pending (scope : Scope) (program : A → Produce.Attempt) (s : State A D L) (batch : A × Int) : Prop :=
  Counts scope program s batch ∧ (s.log.phase batch.1).inFlight = some batch.2

def Allowed (codec : Codec) (scope : Scope) (program : A → Produce.Attempt) (s : State A D L) : Action A D L → Prop
  -- The header of a batch is that of its records, as `ProduceService` writes it.
  | .partition (.produce (.assign a)) => (program a).deflated.maxTimestamp.toInt =
      maxRecordTimestamp codec (program a).deflated
  | .read _ watermark => scope = .stored → s.Idle → watermark = s.log.watermark
  -- An index of an older version is cleared before a batch with a timestamp has its offset.
  | .begin _ => ∀ start, scope = .given start → s.index.isOlderVersion = true →
      s.index.backfill = none → ∀ batch, Counts scope program s batch →
        stamp codec program batch ≤ TimeIndex.noTimestamp
  -- A batch in flight is not all below the log start, and no batch behind it was written long ago.
  | .openListing l began => ∀ token low high wrote, s.lookup l = .begun token low high wrote →
      ∀ batch, Pending scope program s batch →
        (∀ start, scope = .given start → low < batch.2 + (program batch.1).size) ∧
        ∀ base, batch.2 < base → (s.log.objects (batchPath base)).isSome = true →
          began < s.written base + batchSettledAfter
  -- A batch is found deleted only when the listing named every batch.
  | .visitGone l => ∀ backfill collect, s.lookup l = .reading backfill collect →
      ∀ batch, Counts scope program s batch → batch.2 < backfill.high → Names collect.listed batch.2
  -- A listing is empty only when there is no batch.
  | .commit l => ∀ backfill collect, s.lookup l = .reading backfill collect → collect.listed = [] →
      ∀ batch, Counts scope program s batch → backfill.high ≤ batch.2
  | _ => True

theorem lt_next_of_mem (based : Based program s.partition) (member : batch ∈ s.log.taken) :
    batch.2 < s.log.watermark.next :=
  lt_of_lt_of_le (lt_add_of_pos_right _ (program batch.1).size_pos) (based.bounds member).2

theorem not_mem_taken_of_isNone (based : Based program s.partition) (none : s.log.watermark.high.isNone = true) :
    batch ∉ s.log.taken := by
  intro member
  have nonneg := (based.bounds member).1
  have less := lt_next_of_mem based member
  rw [Watermark.next, isNone_iff_eq_none.mp none] at less
  exact absurd less (not_lt.mpr nonneg)

section Partition

variable [DecidableEq A] [DecidableEq D] {topition : Topition} {requested : D → Int}
  {partition : DeleteRecords.State A D} {action : DeleteRecords.Action A D}

theorem moves_partition (based : Based program s.partition)
    (step : DeleteRecords.Step topition program requested s.partition action partition) :
    Moves scope program s (s.setPartition partition) := by
  obtain ⟨extends_, -⟩ := based.step step
  constructor
  case counts =>
    rintro batch ⟨alive, inside⟩
    rcases extends_.taken batch alive.1 with old | new
    · refine .inl ⟨DeleteRecords.Alive.of_step based step old alive, ?_⟩
      cases scope with
      | given => exact inside
      | stored => exact lt_of_le_of_lt extends_.start inside
    · exact .inr new
  case taken => exact extends_.taken
  case start => exact extends_.start
  case next => exact extends_.next
  case exists_ =>
    intro exists_
    rcases step.timeIndex_cases with ⟨-, high, -⟩ | ⟨-, -, -, high, -⟩
    · change partition.log.watermark.high.isSome = true
      rw [high]
      exact exists_
    · exact high
  case now => exact le_rfl
  case stored => exact extends_.stored
  case written =>
    intro base present
    change (partition.log.objects (batchPath base)).isSome = true at present
    simp only [State.setPartition]
    cases before : (s.log.objects (batchPath base)).isSome with
    | true => exact .inl ⟨rfl, by simp [isNone_iff_eq_none, isSome_iff_ne_none.mp before]⟩
    | false => exact .inr (by simp [isSome_eq_false_iff.mp before, present])
  case token =>
    intro older
    change partition.log.watermark.timeIndex.isOlderVersion = true at older
    change _ ∧ partition.log.watermark.timeIndex.backfill = _
    rcases step.timeIndex_cases with ⟨same, -, -⟩ | ⟨_, -, -, -, same⟩
    · rw [same] at older ⊢
      exact ⟨older, rfl⟩
    · rw [same] at older ⊢
      rw [TimeIndex.isOlderVersion_append] at older
      rw [TimeIndex.append_frame.2.2]
      split at older
      · cases older
      next known => rw [if_neg known]; exact ⟨older, rfl⟩

omit [DecidableEq A] [DecidableEq D] in
theorem Live.keepIndex (live : Live codec scope program mark s) (based : Based program s.partition)
    (moves : Moves scope program s (s.setPartition partition)) (index : (s.setPartition partition).index = s.index)
    (highs : partition.log.watermark.high = s.log.watermark.high) (taken : partition.log.taken = s.log.taken)
    (high : ∀ watermark ∈ partition.log.earlierWatermarks, watermark.high.isSome = true →
      partition.log.watermark.high.isSome = true) : Live codec scope program mark (s.setPartition partition) := by
  have before : ∀ batch, Counts scope program (s.setPartition partition) batch → Counts scope program s batch := by
    intro batch counts
    rcases moves.counts batch counts with before | new
    · exact before
    · exact absurd new (not_le.mpr (lt_next_of_mem based (taken ▸ counts.1.1)))
  constructor
  case offsets =>
    intro timestamp offset held
    rw [index] at held
    exact (live.offsets timestamp offset held).trans moves.next
  case seen =>
    intro batch counts above
    rw [index]
    exact live.seen batch (before batch counts) above
  case complete =>
    rw [index]
    exact fun complete batch counts => live.complete complete batch (before batch counts)
  case given => exact live.given
  case version =>
    rw [index]
    intro older
    change _ ∨ partition.log.watermark.high = none
    rw [highs]
    exact live.version older
  case high => exact high

omit [DecidableEq A] [DecidableEq D] in
theorem Live.noteBatch (live : Live codec scope program mark s) (based : Based program s.partition)
    (moves : Moves scope program s (s.setPartition partition))
    (taken : partition.log.taken = s.log.taken ++ [(a, s.log.watermark.next)])
    (index : (s.setPartition partition).index =
      (if s.log.watermark.high.isNone then s.index.markComplete else s.index).append
        (program a).deflated.maxTimestamp.toInt s.log.watermark.next (program a).deflated.batchLength.toInt.toNat)
    (allowed : Allowed codec scope program s (.partition (.produce (.assign a))))
    (high : ∀ watermark ∈ partition.log.earlierWatermarks, watermark.high.isSome = true →
      partition.log.watermark.high.isSome = true) : Live codec scope program mark (s.setPartition partition) := by
  -- The index that takes note of the batch is marked complete when the batch is the first of all.
  let noting := if s.log.watermark.high.isNone then s.index.markComplete else s.index
  have entries : noting.entries = s.index.entries := by
    simp only [noting]
    split <;> rfl
  have max : noting.maxTimestamp = s.index.maxTimestamp := by
    simp only [noting]
    split <;> rfl
  have offsets : ∀ timestamp offset : Int, noting.entries[timestamp]? = some offset →
      offset ≤ s.log.watermark.next := fun timestamp offset held =>
    live.offsets timestamp offset (entries ▸ held)
  have old : ∀ batch, Seen codec program s.index batch →
      Seen codec program (s.setPartition partition).index batch := by
    intro batch seen
    rw [index]
    exact (seen.congr entries max).append
  have cases : ∀ batch, Counts scope program (s.setPartition partition) batch →
      Counts scope program s batch ∨ Seen codec program (s.setPartition partition).index batch := by
    intro batch counts
    rcases moves.counts batch counts with before | new
    · exact .inl before
    · refine .inr ?_
      have member : batch ∈ s.log.taken ++ [(a, s.log.watermark.next)] := taken ▸ counts.1.1
      rcases Log.mem_concat.mp member with before | rfl
      · exact absurd new (not_le.mpr (lt_next_of_mem based before))
      · rw [index]
        exact Seen.append_self (a, s.log.watermark.next) allowed.symm offsets
  constructor
  case offsets =>
    intro timestamp offset held
    rw [index] at held
    rcases TimeIndex.entries_append held with before | ⟨-, rfl, -⟩
    · exact (offsets timestamp offset before).trans moves.next
    · exact moves.next
  case seen =>
    intro batch counts above
    rcases cases batch counts with before | new
    · exact old batch (live.seen batch before above)
    · exact new
  case complete =>
    intro complete batch counts
    rcases cases batch counts with before | new
    · rw [index, TimeIndex.isComplete_append] at complete
      split at complete
      next first => exact absurd before.1.1 (not_mem_taken_of_isNone based first)
      · exact old batch (live.complete complete batch before)
    · exact new
  case given => exact live.given
  case version =>
    intro older
    rw [index, TimeIndex.isOlderVersion_append] at older
    split at older
    · cases older
    next known =>
      rcases live.version older with token | none
      · refine .inl ?_
        rw [index, TimeIndex.append_frame.2.2, if_neg known]
        exact token
      · rw [none] at known
        exact absurd rfl known
  case high => exact high

theorem Live.setPartition (live : Live codec scope program mark s) (based : Based program s.partition)
    (step : DeleteRecords.Step topition program requested s.partition action partition)
    (allowed : Allowed codec scope program s (.partition action)) :
    Live codec scope program mark (s.setPartition partition) := by
  have moves : Moves scope program s (s.setPartition partition) := moves_partition based step
  have high : ∀ watermark ∈ partition.log.earlierWatermarks, watermark.high.isSome = true →
      partition.log.watermark.high.isSome = true := by
    intro watermark earlier exists_
    rcases List.mem_cons.mp (step.earlierWatermarks earlier) with rfl | before
    · exact moves.exists_ exists_
    · exact moves.exists_ (live.high watermark before exists_)
  rcases step.timeIndex_cases with ⟨same, highs, taken⟩ | ⟨a, rfl, taken, _, appended⟩
  · exact live.keepIndex based moves same highs taken high
  · exact live.noteBatch based moves taken appended allowed high

end Partition

/-! The steps of a lookup. -/

theorem moves_local (lookup : L → Phase) (later : s.now ≤ now) (begun : Bool) (quiet : L → Prop) :
    Moves scope program s { s with lookup, now, begun, quiet } where
  counts := fun _ counts => .inl counts
  taken := fun _ member => .inl member
  start := le_rfl
  next := le_rfl
  exists_ := fun exists_ => exists_
  now := later
  stored := fun _ present => present
  written := fun _ present => .inl ⟨present, rfl⟩
  token := fun older => ⟨older, rfl⟩

theorem still_local (lookup : L → Phase) (now : Int) (begun : Bool) (quiet : L → Prop) :
    Still scope program s { s with lookup, now, begun, quiet } where
  counts := fun _ counts => counts
  start := rfl
  next := rfl

theorem moves_setTimeIndex (lookup : L → Phase) (begun : Bool)
    (token : timeIndex.isOlderVersion = true → s.index.isOlderVersion = true ∧ timeIndex.backfill = s.index.backfill) :
    Moves scope program s { s.setTimeIndex timeIndex with lookup, begun } where
  counts := fun _ counts => .inl counts
  taken := fun _ member => .inl member
  start := le_rfl
  next := le_rfl
  exists_ := fun exists_ => exists_
  now := le_rfl
  stored := fun _ present => present
  written := fun _ present => .inl ⟨present, rfl⟩
  token := token

theorem still_setTimeIndex (timeIndex : TimeIndex) (lookup : L → Phase) (begun : Bool) :
    Still scope program s { s.setTimeIndex timeIndex with lookup, begun } where
  counts := fun _ counts => counts
  start := rfl
  next := rfl

theorem Live.of_local (live : Live codec scope program mark s) (lookup : L → Phase) (now : Int)
    (begun : Bool) (quiet : L → Prop) :
    Live codec scope program mark { s with lookup, now, begun, quiet } :=
  ⟨live.offsets, live.seen, live.complete, live.given, live.version, live.high⟩

theorem Indexed.setLookup [DecidableEq L] (indexed : Indexed codec scope program mark s)
    (sound : Sound codec scope program mark s (Hush scope s l) phase) :
    Indexed codec scope program mark (s.setLookup l phase) where
  live := indexed.live.of_local _ _ _ _
  sound := by
    have moves : Moves scope program s (s.setLookup l phase) := moves_local _ le_rfl _ _
    have still : Still scope program s (s.setLookup l phase) := still_local _ _ _ _
    refine (forall_update_iff s.lookup fun other =>
      Sound codec scope program mark (s.setLookup l phase) (Hush scope s other)).mpr ⟨?_, fun other _ => ?_⟩
    · exact sound.move moves fun hush => ⟨hush, still⟩
    · exact (indexed.sound other).move moves fun hush => ⟨hush, still⟩
  idle := indexed.idle

theorem Indexed.call [DecidableEq L] (indexed : Indexed codec scope program mark s)
    (sound : Sound codec scope program mark s (scope = .stored ∧ s.Idle) phase) :
    Indexed codec scope program mark ((s.setLookup l phase).setQuiet l s.Idle) where
  live := indexed.live.of_local _ _ _ _
  sound := by
    have moves : Moves scope program s ((s.setLookup l phase).setQuiet l s.Idle) :=
      moves_local _ le_rfl _ _
    have still : Still scope program s ((s.setLookup l phase).setQuiet l s.Idle) := still_local _ _ _ _
    intro other
    change Sound codec scope program mark _ (scope = .stored ∧ update s.quiet l s.Idle other)
      (update s.lookup l phase other)
    by_cases same : other = l
    · subst same
      rw [update_self, update_self]
      exact sound.move moves fun hush => ⟨hush, still⟩
    · rw [update_of_ne same, update_of_ne same]
      exact (indexed.sound other).move moves fun hush => ⟨hush, still⟩
  idle := (forall_update_iff s.quiet fun _ quiet => quiet → s.Idle).mpr
    ⟨fun idle => idle, fun other _ => indexed.idle other⟩

theorem Indexed.clock (indexed : Indexed codec scope program mark s) (later : s.now ≤ now) (begun : Bool) :
    Indexed codec scope program mark { s with now, begun } where
  live := indexed.live.of_local _ _ _ _
  sound := fun l => (indexed.sound l).move (moves_local _ later _ _) fun hush => ⟨hush, still_local _ _ _ _⟩
  idle := indexed.idle

theorem Indexed.setTimeIndex (indexed : Indexed codec scope program mark s)
    (live : Live codec scope program mark (s.setTimeIndex timeIndex))
    (token : timeIndex.isOlderVersion = true → s.index.isOlderVersion = true ∧
      timeIndex.backfill = s.index.backfill) : Indexed codec scope program mark (s.setTimeIndex timeIndex) where
  live := live
  sound := fun l => (indexed.sound l).move (moves_setTimeIndex _ _ token)
    fun hush => ⟨hush, still_setTimeIndex _ _ _⟩
  idle := indexed.idle

theorem Live.found (live : Live codec scope program mark s) (based : Based program s.partition)
    (ready : (s.index.isComplete || s.log.watermark.high.isNone) = true)
    (counts : Counts scope program s batch) : Seen codec program s.index batch := by
  rcases Bool.or_eq_true_iff.mp ready with complete | none
  · exact live.complete complete batch counts
  · exact absurd counts.1.1 (not_mem_taken_of_isNone based none)

theorem Live.ofRead (live : Live codec scope program mark s) (based : Based program s.partition)
    {watermark : Watermark} (read : watermark ∈ s.log.watermark :: s.log.earlierWatermarks)
    (newest : hush → watermark = s.log.watermark)
    (waits : s.log.watermark.high.isSome = true → Sound codec scope program mark s hush otherwise) :
    Sound codec scope program mark s hush (.ofRead watermark otherwise) := by
  unfold Phase.ofRead
  split
  next ready =>
    intro quiet
    obtain rfl := newest quiet
    exact ⟨rfl, fun batch counts => live.found based ready counts⟩
  next pending =>
    apply waits
    rw [Bool.or_eq_true, not_or, Bool.not_eq_true, Bool.not_eq_true, isNone_eq_false_iff] at pending
    rcases List.mem_cons.mp read with rfl | earlier
    · exact pending.2
    · exact live.high watermark earlier pending.2

theorem Window.openListing {low high wrote began : Int} (window : Window program mark s hush token low high)
    (based : Based program s.partition) (at_ : s.lookup l = .begun token low high wrote) (before : began ≤ s.now)
    (idle : hush → s.Idle)
    (allowed : Allowed codec scope program s (.openListing l began)) :
    Listing scope program mark s hush { token, low, high, began } s.log.objects [] where
  window := window
  named := ⟨nofun, nofun, nofun, List.Pairwise.nil⟩
  kept := fun _ => based.isSome_stored
  began := before
  late := by
    intro batch counts below
    rcases counts.1.2 with present | flying
    · exact .inl present
    · obtain ⟨start, young⟩ := allowed token low high wrote at_ batch ⟨counts, flying⟩
      refine .inr ⟨⟨?_, nofun⟩, young⟩
      cases scope with
      | given first => exact start first rfl
      | stored => exact lt_of_le_of_lt window.low_le counts.2
  hushed := by
    intro quiet batch counts
    rcases counts.1.2 with present | flying
    · exact present
    · rcases (idle quiet).1 batch.1 with start | ⟨_, answered⟩
      · rw [start] at flying
        cases flying
      · rw [answered] at flying
        cases flying

theorem Listing.list {base : Int} (listing : Listing scope program mark s hush backfill atStart listed)
    (based : Based program s.partition) (nonneg : 0 ≤ base) (below : base < backfill.high)
    (ascends : ∀ entry ∈ listed, entry.1 < base) (present : (s.log.objects (batchPath base)).isSome = true) :
    Listing scope program mark s hush backfill atStart (listed ++ [(base, s.written base)]) :=
  { listing with
    named := by
      have stored := based.isSome_stored present
      constructor
      · exact Log.forall_mem_concat.mpr ⟨listing.named.nonneg, nonneg⟩
      · exact Log.forall_mem_concat.mpr ⟨listing.named.stored, stored⟩
      · exact Log.forall_mem_concat.mpr ⟨listing.named.below, below⟩
      · exact Log.pairwise_concat.mpr ⟨listing.named.sorted, ascends⟩
    late := by
      intro batch counts less
      rcases listing.late batch counts less with there | ⟨late, young⟩
      · exact .inl there
      · refine .inr ⟨⟨late.low, fun entry member above => ?_⟩, young⟩
        rcases Log.mem_concat.mp member with old | rfl
        · exact late.young entry old above
        · exact young base above present }

/-- An attempt whose object was written has none left to write. -/
theorem present_of_stored (based : Based program s.partition) (counts : Counts scope program s batch)
    (stored : (s.partition.stored (batchPath batch.2)).isSome = true) :
    (s.log.objects (batchPath batch.2)).isSome = true := by
  obtain ⟨b, _⟩ := batch
  obtain ⟨_, stored⟩ := isSome_iff_exists.mp stored
  obtain ⟨_, _, held, path, -, done⟩ := based.assigned.object _ _ stored
  obtain rfl := batchPath_injective (based.bounds counts.1.1).1 (based.bounds held).1 path
  obtain rfl := based.assigned.tiled.unique counts.1.1 held
  rcases counts.1.2 with present | flying
  · exact present
  · cases at_ : s.log.phase b <;> simp [at_] at flying done

theorem not_indexes_default {timestamp : Int} : (default : TimeIndex).entries[timestamp]? ≠ some offset := by
  intro held
  have empty : ∅[timestamp]? = some offset := held
  cases empty

theorem Listing.endListing (listing : Listing scope program mark s hush backfill atStart listed)
    (based : Based program s.partition) (complete : ∀ baseOffset, 0 ≤ baseOffset → baseOffset < backfill.high →
      (atStart (batchPath baseOffset)).isSome = true → (s.log.objects (batchPath baseOffset)).isSome = true →
        Names listed baseOffset) :
    Reading codec scope program mark s hush backfill (.start backfill listed) := by
  have names {batch : A × Int} (counts : Counts scope program s batch) (below : batch.2 < backfill.high)
      (there : (atStart (batchPath batch.2)).isSome = true) : Names listed batch.2 :=
    complete batch.2 (based.bounds counts.1.1).1 below there (present_of_stored based counts (listing.kept _ there))
  exact {
    window := listing.window
    named := listing.named
    late := by
      intro batch counts below
      rcases listing.late batch counts below with there | ⟨late, -⟩
      · exact .inl (names counts below there)
      · exact .inr late
    hushed := by
      intro quiet batch counts
      have below := lt_next_of_mem based counts.1.1
      rw [← listing.window.hushed quiet] at below
      exact names counts below (listing.hushed quiet batch counts)
    visited := ⟨[], rfl, fun _ _ named => nomatch named.choose_spec⟩
    entries := fun _ _ _ _ held => absurd held not_indexes_default
    offsets := fun _ _ held => absurd held not_indexes_default
    bounded := show TimeIndex.noTimestamp < TimeIndex.maxI64 by decide
    incomplete := rfl
    covered := by
      intro _ batch counts below before
      rcases listing.late batch counts below with there | ⟨late, -⟩
      · exact names counts below there
      · exact absurd (before backfill.low rfl) (not_le.mpr late.low) }

section Visit

variable {backfill : Backfill} {collect : Collect} {base written : Int} {rest visited : List (Int × Int)} {a : A}

variable (reading : Reading codec scope program mark s hush backfill collect)

include reading

/-- A batch that is taken as settled is behind no batch that the listing missed, and so the candidate has
seen every batch before it. -/
theorem Reading.before (based : Based program s.partition)
    (split : collect.listed = visited ++ (base, written) :: rest) (member : (a, base) ∈ s.log.taken)
    (settles : collect.settles backfill base written = true) (counts : Counts scope program s batch)
    (less : batch.2 < base) : Names visited batch.2 := by
  have here : (base, written) ∈ collect.listed := split ▸ List.mem_append_right _ List.mem_cons_self
  have below := less.trans (reading.named.below _ here)
  have named : Names collect.listed batch.2 := by
    obtain ⟨settled, reason⟩ := Bool.and_eq_true_iff.mp settles
    rcases Bool.or_eq_true_iff.mp reason with continues | aged
    · refine reading.covered settled batch counts below fun expected next => ?_
      have apart := based.disjoint counts.1.1 member less
      rw [next] at continues
      exact apart.trans (of_decide_eq_true continues)
    · rcases reading.late batch counts below with named | late
      · exact named
      · have young := late.young _ here less
        have age := of_decide_eq_true aged
        have positive : 0 < batchSettledAfter := by decide
        omega
  obtain ⟨time, named⟩ := named
  rw [split] at named
  rcases List.mem_append.mp named with before | after
  · exact ⟨time, before⟩
  · have sorted := reading.named.sorted
    rw [split] at sorted
    rcases List.mem_cons.mp after with same | later
    · cases same
      exact absurd less (lt_irrefl _)
    · have ahead := (List.pairwise_cons.mp (List.pairwise_append.mp sorted).2.1).1 _ later
      exact absurd less (not_lt.mpr ahead.le)

theorem Reading.visit (based : Based program s.partition) (queued : collect.queue = (base, written) :: rest)
    (member : (a, base) ∈ s.log.taken) (bounded : stamp codec program (a, base) < TimeIndex.maxI64) :
    Reading codec scope program mark s hush backfill
      (collect.visit codec backfill base written rest (some (program a).deflated)) := by
  obtain ⟨visited, split, max⟩ := reading.visited
  rw [queued] at split
  have here : (base, written) ∈ collect.listed := split ▸ List.mem_append_right _ List.mem_cons_self
  have before : collect.settles backfill base written = true → ∀ batch, Counts scope program s batch →
      batch.2 < base → Names visited batch.2 :=
    fun settles batch counts less => reading.before based split member settles counts less
  have own : ∀ batch : A × Int, batch ∈ s.log.taken → batch.2 = base → batch = (a, base) := by
    rintro ⟨_, _⟩ held rfl
    rw [based.assigned.tiled.unique held member]
  -- The candidate after the visit: its maximum, and its entries.
  have raised : (collect.visit codec backfill base written rest
      (some (program a).deflated)).candidate.maxTimestamp =
      Max.max collect.candidate.maxTimestamp (stamp codec program (a, base)) := by
    simp only [Collect.visit]
    split
    · exact TimeIndex.maxTimestamp_append
    · rfl
  have held : ∀ timestamp offset : Int, (collect.visit codec backfill base written rest
      (some (program a).deflated)).candidate.entries[timestamp]? = some offset →
      collect.candidate.entries[timestamp]? = some offset ∨
        (collect.settles backfill base written = true ∧ timestamp = stamp codec program (a, base) ∧
          offset = base ∧ collect.candidate.maxTimestamp < timestamp) := by
    intro timestamp offset held
    simp only [Collect.visit] at held
    split at held
    next settles =>
      rcases TimeIndex.entries_append held with old | ⟨rfl, rfl, above⟩
      · exact .inl old
      · exact .inr ⟨settles, rfl, rfl, above⟩
    · exact .inl held
  refine { reading with
    visited := ?visited, entries := ?entries, offsets := ?offsets, bounded := ?bounded
    incomplete := ?incomplete, covered := ?covered }
  case visited =>
    refine ⟨visited ++ [(base, written)], by rw [List.append_assoc]; exact split, ?_⟩
    rintro batch counts ⟨time, named⟩
    rw [raised]
    rcases Log.mem_concat.mp named with old | new
    · exact (max batch counts ⟨time, old⟩).trans (le_max_left _ _)
    · have same : batch.2 = base := congrArg Prod.fst new
      rw [own batch counts.1.1 same]
      exact le_max_right _ _
  case entries =>
    intro batch counts timestamp offset entry less
    rcases held timestamp offset entry with old | ⟨settles, -, rfl, above⟩
    · exact reading.entries batch counts timestamp offset old less
    · exact lt_of_le_of_lt (max batch counts (before settles batch counts less)) above
  case offsets =>
    intro timestamp offset entry
    rcases held timestamp offset entry with old | ⟨-, -, rfl, -⟩
    · exact reading.offsets timestamp offset old
    · exact reading.named.below _ here
  case bounded =>
    rw [raised]
    exact max_lt reading.bounded bounded
  case incomplete =>
    simp only [Collect.visit]
    split
    · rw [TimeIndex.isComplete_append]
      exact reading.incomplete
    · exact reading.incomplete
  case covered =>
    intro settles batch counts below ends
    have ends := ends _ rfl
    rcases lt_trichotomy batch.2 base with less | same | greater
    · obtain ⟨time, named⟩ := before settles batch counts less
      exact ⟨time, split ▸ List.mem_append_left _ named⟩
    · exact ⟨written, by rw [same]; exact here⟩
    · have apart := based.disjoint member counts.1.1 greater
      have positive := (program batch.1).size_pos
      simp only [Produce.Attempt.size, Produce.Attempt.delta] at apart ends positive
      omega

theorem Reading.visitGone (based : Based program s.partition)
    (queued : collect.queue = (base, written) :: rest) (gone : s.log.objects (batchPath base) = none)
    (all : ∀ batch, Counts scope program s batch → batch.2 < backfill.high → Names collect.listed batch.2) :
    Reading codec scope program mark s hush backfill
      (collect.visit codec backfill base written rest none) := by
  obtain ⟨visited, split, max⟩ := reading.visited
  rw [queued] at split
  have here : (base, written) ∈ collect.listed := split ▸ List.mem_append_right _ List.mem_cons_self
  refine { reading with visited := ?visited, covered := ?covered }
  case visited =>
    refine ⟨visited ++ [(base, written)], by rw [List.append_assoc]; exact split, ?_⟩
    rintro ⟨_, _⟩ counts ⟨time, named⟩
    rcases Log.mem_concat.mp named with old | new
    · exact max _ counts ⟨time, old⟩
    · obtain ⟨rfl, -⟩ := Prod.mk.inj new
      have present := present_of_stored based counts (reading.named.stored _ here)
      rw [gone] at present
      cases present
  case covered => exact fun _ batch counts below _ => all batch counts below

end Visit

/-! The end of a backfill. -/

section Commit

variable {backfill : Backfill} {collect : Collect}

theorem Collect.finish_frame (backfill : Backfill) (collect : Collect) :
    (collect.finish backfill).entries = collect.candidate.entries ∧
      (collect.finish backfill).maxTimestamp = collect.candidate.maxTimestamp := by
  unfold finish
  split <;> exact ⟨rfl, rfl⟩

theorem Reading.seen (reading : Reading codec scope program mark s hush backfill collect)
    (done : collect.queue = []) (counts : Counts scope program s batch)
    (named : Names collect.listed batch.2) : Seen codec program (collect.finish backfill) batch := by
  obtain ⟨_, split, max⟩ := reading.visited
  rw [done, List.append_nil] at split
  obtain ⟨entries, same⟩ := collect.finish_frame backfill
  constructor
  case max =>
    rw [same]
    exact max batch counts (split ▸ named)
  case entries =>
    rw [entries]
    exact reading.entries batch counts

theorem Reading.named_of_complete (reading : Reading codec scope program mark s hush backfill collect)
    (complete : (collect.finish backfill).isComplete = true)
    (filled : collect.listed = [] → ∀ batch, Counts scope program s batch → backfill.high ≤ batch.2)
    (counts : Counts scope program s batch) (below : batch.2 < backfill.high) :
    Names collect.listed batch.2 := by
  unfold Collect.finish at complete
  split at complete
  next settles =>
    obtain ⟨settled, closed⟩ := Bool.and_eq_true_iff.mp settles
    refine reading.covered settled batch counts below fun expected next => ?_
    rw [next, Bool.not_eq_true', Bool.and_eq_false_iff, decide_eq_false_iff_not] at closed
    rcases closed with none | reached
    · have empty : collect.listed = [] := List.eq_nil_of_length_eq_zero (by omega)
      exact absurd (filled empty batch counts) (not_le.mpr below)
    · have ends := reading.window.boundary batch counts.1.1 below
      have high : backfill.high ≤ expected := by simpa using reached
      exact ends.trans high
  · rw [reading.incomplete] at complete
    cases complete

theorem Live.commit (live : Live codec scope program mark s)
    (reading : Reading codec scope program mark s hush backfill collect) (done : collect.queue = [])
    (filled : collect.listed = [] → ∀ batch, Counts scope program s batch → backfill.high ≤ batch.2) :
    Live codec scope program mark
      (s.setTimeIndex (.merge (collect.finish backfill) s.index backfill.token)) := by
  have frame := collect.finish_frame backfill
  have bounded : (collect.finish backfill).maxTimestamp < TimeIndex.maxI64 := by
    rw [frame.2]
    exact reading.bounded
  have seen : ∀ batch, Counts scope program s batch → mark ≤ batch.2 →
      Seen codec program (.merge (collect.finish backfill) s.index backfill.token) batch := by
    intro batch counts above
    refine (live.seen batch counts above).merge_live ?_
    rw [frame.1]
    exact reading.entries batch counts
  constructor
  case offsets =>
    intro timestamp offset held
    rcases TimeIndex.entries_merge held with mine | ⟨kept, -⟩
    · rw [frame.1] at mine
      exact (reading.offsets timestamp offset mine).le.trans reading.window.high_le
    · exact live.offsets timestamp offset kept
  case seen => exact seen
  case complete =>
    intro complete batch counts
    rcases lt_or_ge batch.2 backfill.high with below | above
    · have named := reading.named_of_complete (TimeIndex.isComplete_of_merge complete) filled counts below
      exact (reading.seen done counts named).merge_candidate bounded
    · exact seen batch counts (reading.window.mark_le.trans above)
  case given => exact live.given
  case version =>
    intro older
    have newer := TimeIndex.isOlderVersion_merge (collect.finish backfill) reading.window.owner
    exact Bool.noConfusion (newer.symm.trans older)
  case high =>
    intro watermark earlier exists_
    exact reading.window.exists_

theorem Indexed.commit [DecidableEq L] {l : L} (indexed : Indexed codec scope program mark s)
    (at_ : s.lookup l = .reading backfill collect)
    (done : collect.queue = []) (allowed : Allowed codec scope program s (.commit l)) :
    Indexed codec scope program mark
      ((s.setTimeIndex (.merge (collect.finish backfill) s.index backfill.token)).setLookup l
        (.committed (.merge (collect.finish backfill) s.index backfill.token))) := by
  have reading := indexed.sound l
  rw [at_] at reading
  have live := indexed.live.commit reading done (allowed backfill collect at_)
  have newer := TimeIndex.isOlderVersion_merge (collect.finish backfill) reading.window.owner
  refine (indexed.setTimeIndex live fun older => by rw [newer] at older; cases older).setLookup ?_
  intro quiet batch counts
  refine (reading.seen done counts (reading.hushed quiet batch counts)).merge_candidate ?_
  rw [(collect.finish_frame backfill).2]
  exact reading.bounded

end Commit

/-! The begin of a backfill. -/

theorem beginBackfill_keeps (token : Nat) (index : TimeIndex)
    (kept : index.isOlderVersion = true → index.backfill.isSome = true) :
    (index.beginBackfill token).1 = { index with backfill := some (index.backfill.getD token) } ∧
      (index.beginBackfill token).2 = index.backfill.getD token := by
  have same : (index.backfill.isNone && index.isOlderVersion) = false := by
    cases older : index.isOlderVersion with
    | false => exact Bool.and_false _
    | true => simp [kept older]
  unfold TimeIndex.beginBackfill
  rw [same]
  exact ⟨rfl, rfl⟩

theorem based_setTimeIndex (based : Based program s.partition) (timeIndex : TimeIndex) :
    Based program (s.setTimeIndex timeIndex).partition :=
  (based.setWatermark { s.log.watermark with timeIndex } rfl le_rfl based.high).2

theorem Window.of_begin (based : Based program s.partition) (bound : mark ≤ s.log.watermark.next)
    (exists_ : s.log.watermark.high.isSome = true)
    (owner : s.index.isOlderVersion = true → s.index.backfill = some token) :
    Window program mark s hush token s.log.watermark.logStart s.log.watermark.next where
  low_le := le_rfl
  mark_le := bound
  high_le := le_rfl
  boundary := fun _ member _ => (based.bounds member).2
  owner := owner
  exists_ := exists_
  hushed := fun _ => rfl

theorem Indexed.begin [DecidableEq L] (token : Nat) (indexed : Indexed codec scope program mark s)
    (based : Based program s.partition) (bound : mark ≤ s.log.watermark.next)
    (exists_ : s.log.watermark.high.isSome = true) :
    Indexed codec scope program mark ((s.setTimeIndex (s.index.beginBackfill token).1).noteBegun.setLookup l
      (.begun (s.index.beginBackfill token).2 s.log.watermark.logStart s.log.watermark.next s.now)) := by
  have live := indexed.live
  have token_of : s.index.isOlderVersion = true → s.index.backfill.isSome = true := by
    intro older
    rcases live.version older with token | none
    · exact token
    · rw [none] at exists_
      cases exists_
  obtain ⟨same, answer⟩ := beginBackfill_keeps token s.index token_of
  rw [same, answer]
  have owner : s.index.isOlderVersion = true → some (s.index.backfill.getD token) = s.index.backfill := by
    intro older
    obtain ⟨_, found⟩ := isSome_iff_exists.mp (token_of older)
    rw [found]
    rfl
  have marked : Live codec scope program mark
      (s.setTimeIndex { s.index with backfill := some (s.index.backfill.getD token) }) :=
    { offsets := live.offsets
      seen := fun batch counts above => (live.seen batch counts above).congr rfl rfl
      complete := fun complete batch counts => (live.complete complete batch counts).congr rfl rfl
      given := live.given
      version := fun _ => .inl rfl
      high := fun _ _ _ => exists_ }
  have kept := (indexed.setTimeIndex marked fun older => ⟨older, owner older⟩).clock le_rfl true
  exact kept.setLookup (Window.of_begin (based_setTimeIndex based _) bound exists_ fun _ => rfl)

/-! An index of an older version. -/

namespace Stale

theorem index_older (stale : Stale s) : s.index.isOlderVersion = true :=
  (stale.older _ List.mem_cons_self).1

theorem exists_ (stale : Stale s) : s.log.watermark.high.isSome = true :=
  (stale.older _ List.mem_cons_self).2

theorem setLookup [DecidableEq L] (stale : Stale s) {l : L}
    (early : phase = .start ∨ phase = .waiting ∨ phase = .opening ∨ phase = .failed) :
    Stale (s.setLookup l phase) :=
  { stale with
    lookup := (forall_update_iff s.lookup fun _ phase =>
      phase = .start ∨ phase = .waiting ∨ phase = .opening ∨ phase = .failed).mpr
      ⟨early, fun other _ => stale.lookup other⟩ }

theorem ofRead (stale : Stale s) (otherwise : Phase) (read : watermark ∈ s.log.watermark :: s.log.earlierWatermarks) :
    Phase.ofRead watermark otherwise = otherwise := by
  obtain ⟨older, exists_⟩ := stale.older watermark read
  unfold Phase.ofRead
  rw [TimeIndex.isComplete_of_older older, if_neg (by simpa using isSome_iff_ne_none.mp exists_)]

theorem setPartition [DecidableEq A] [DecidableEq D] {topition : Topition} {partition : DeleteRecords.State A D}
    (stale : Stale s) (step : DeleteRecords.Step topition program requested s.partition action partition) :
    Stale (s.setPartition partition) := by
  have kept : partition.log.watermark.timeIndex.isOlderVersion = true ∧
      partition.log.watermark.high.isSome = true ∧ partition.log.watermark.timeIndex.backfill = none := by
    rcases step.timeIndex_cases with ⟨index, high, -⟩ | ⟨_, -, -, high, index⟩
    · rw [index, high]
      exact ⟨stale.index_older, stale.exists_, stale.token⟩
    · have known : ¬s.log.watermark.high.isNone = true := by
        simpa using isSome_iff_ne_none.mp stale.exists_
      rw [if_neg known] at index
      rw [index, TimeIndex.isOlderVersion_append, TimeIndex.append_frame.2.2]
      exact ⟨stale.index_older, high, stale.token⟩
  constructor
  case older =>
    intro watermark member
    rcases List.mem_cons.mp member with rfl | earlier
    · exact ⟨kept.1, kept.2.1⟩
    · exact stale.older watermark (step.earlierWatermarks earlier)
  case token => exact kept.2.2
  case begun => exact stale.begun
  case lookup => exact stale.lookup
  case idle => nofun

/-- The first backfill replaces the index by an empty one. -/
theorem begin [DecidableEq L] {l : L} (token : Nat) (stale : Stale s) (based : Based program s.partition)
    (start : ∀ start, scope = .given start → start ≤ s.log.watermark.next)
    (allowed : Allowed codec scope program s (.begin l)) :
    ∃ mark, mark ≤ s.log.watermark.next ∧ Indexed codec scope program mark
      ((s.setTimeIndex (s.index.beginBackfill token).1).noteBegun.setLookup l
        (.begun (s.index.beginBackfill token).2 s.log.watermark.logStart s.log.watermark.next s.now)) := by
  have cleared : s.index.beginBackfill token = ({ (default : TimeIndex) with
      version := TimeIndex.currentVersion, backfill := some token }, token) := by
    unfold TimeIndex.beginBackfill
    rw [stale.token, stale.index_older]
    rfl
  rw [cleared]
  obtain ⟨mark, bound, given, seen⟩ : ∃ mark, mark ≤ s.log.watermark.next ∧
      (∀ start, scope = .given start → mark ≤ start) ∧
      ∀ batch, Counts scope program s batch → mark ≤ batch.2 → stamp codec program batch ≤ TimeIndex.noTimestamp := by
    cases scope with
    | given first =>
      refine ⟨first, start first rfl, ?_, fun batch counts _ =>
        allowed first rfl stale.index_older stale.token batch counts⟩
      rintro _ ⟨⟩
      exact le_rfl
    | stored =>
      refine ⟨s.log.watermark.next, le_rfl, nofun, fun batch counts above => ?_⟩
      exact absurd above (not_le.mpr (lt_next_of_mem based counts.1.1))
  have live : Live codec scope program mark (s.setTimeIndex { (default : TimeIndex) with
      version := TimeIndex.currentVersion, backfill := some token }) :=
    { offsets := fun _ _ held => absurd held not_indexes_default
      seen := fun batch counts above =>
        ⟨seen batch counts above, fun _ _ held _ => absurd held not_indexes_default⟩
      complete := nofun
      given := given
      version := nofun
      high := fun _ _ _ => stale.exists_ }
  have fresh : Indexed codec scope program mark (s.setTimeIndex { (default : TimeIndex) with
      version := TimeIndex.currentVersion, backfill := some token }) :=
    { live := live
      sound := fun other => by
        change Sound codec scope program mark _ _ (s.lookup other)
        rcases stale.lookup other with at_ | at_ | at_ | at_ <;> rw [at_]
        · trivial
        · exact stale.exists_
        · exact stale.exists_
        · trivial
      idle := stale.idle }
  exact ⟨mark, bound, (fresh.clock le_rfl true).setLookup
    (Window.of_begin (based_setTimeIndex based _) bound stale.exists_ nofun)⟩

end Stale

/-! Every run. -/

structure Guarded (codec : Codec) (scope : Scope) (program : A → Produce.Attempt) (s : State A D L) :
    Prop where
  based : Based program s.partition
  start : ∀ start, scope = .given start → start ≤ s.log.watermark.next ∧ ∀ batch ∈ s.log.taken, start ≤ batch.2 →
      (program batch.1).deflated.maxTimestamp.toInt = stamp codec program batch
  indexed : Stale s ∨ ∃ mark, mark ≤ s.log.watermark.next ∧ Indexed codec scope program mark s

namespace Guarded

variable [DecidableEq A] [DecidableEq D] [DecidableEq L] {topition : Topition} {requested : D → Int}
  {request : L → Request}

omit [DecidableEq L] in
theorem setPartition {partition : DeleteRecords.State A D} (guarded : Guarded codec scope program s)
    (step : DeleteRecords.Step topition program requested s.partition action partition)
    (allowed : Allowed codec scope program s (.partition action)) :
    Guarded codec scope program (s.setPartition partition) := by
  have based := guarded.based
  have moves : Moves scope program s (s.setPartition partition) := moves_partition based step
  refine ⟨(based.step step).2, fun start same => ?start, ?indexed⟩
  case start =>
    obtain ⟨bound, headers⟩ := guarded.start start same
    refine ⟨bound.trans moves.next, fun batch member above => ?_⟩
    rcases step.timeIndex_cases with ⟨-, -, taken⟩ | ⟨a, rfl, taken, -, -⟩
    · exact headers batch (taken ▸ member) above
    · have cases : batch ∈ s.log.taken ++ [(a, s.log.watermark.next)] := taken ▸ member
      rcases Log.mem_concat.mp cases with old | rfl
      · exact headers batch old above
      · exact allowed
  case indexed =>
    rcases guarded.indexed with stale | ⟨mark, bound, indexed⟩
    · exact .inl (stale.setPartition step)
    · refine .inr ⟨mark, bound.trans moves.next, indexed.live.setPartition based step allowed, ?_, nofun⟩
      exact fun l => (indexed.sound l).move moves fun hush => hush.2.elim

omit [DecidableEq A] [DecidableEq D] in
theorem setLookup (guarded : Guarded codec scope program s) {l : L}
    (early : Stale s → phase = .start ∨ phase = .waiting ∨ phase = .opening ∨ phase = .failed)
    (sound : ∀ mark, Indexed codec scope program mark s → Sound codec scope program mark s (Hush scope s l) phase) :
    Guarded codec scope program (s.setLookup l phase) := by
  refine ⟨guarded.based, guarded.start, ?_⟩
  rcases guarded.indexed with stale | ⟨mark, bound, indexed⟩
  · exact .inl (stale.setLookup (early stale))
  · exact .inr ⟨mark, bound, indexed.setLookup (sound mark indexed)⟩

omit [DecidableEq A] [DecidableEq D] in
/-- A lookup that is past its begin has ended the older index. -/
theorem proceed {next : Phase} (guarded : Guarded codec scope program s) (at_ : s.lookup l = phase)
    (late : phase ≠ .start ∧ phase ≠ .waiting ∧ phase ≠ .opening ∧ phase ≠ .failed)
    (sound : ∀ mark, Indexed codec scope program mark s → Sound codec scope program mark s (Hush scope s l) phase →
      Sound codec scope program mark s (Hush scope s l) next) : Guarded codec scope program (s.setLookup l next) := by
  refine guarded.setLookup (fun stale => ?_) fun mark indexed => sound mark indexed (at_ ▸ indexed.sound l)
  have early := stale.lookup l
  rw [at_] at early
  simp [late] at early

theorem step (guarded : Guarded codec scope program s)
    (bounded : ∀ a, maxRecordTimestamp codec (program a).deflated < TimeIndex.maxI64)
    (allowed : Allowed codec scope program s action) (step : Step topition program requested codec request s action t) :
    Guarded codec scope program t := by
  have based := guarded.based
  cases step with
  | partition step => exact guarded.setPartition step allowed
  | tick _ later =>
    refine ⟨based, guarded.start, ?_⟩
    rcases guarded.indexed with stale | ⟨mark, bound, indexed⟩
    · exact .inl ⟨stale.older, stale.token, stale.begun, stale.lookup, stale.idle⟩
    · exact .inr ⟨mark, bound, indexed.clock later s.begun⟩
  | @read l watermark at_ read =>
    refine ⟨based, guarded.start, ?_⟩
    rcases guarded.indexed with stale | ⟨mark, bound, indexed⟩
    · rw [stale.ofRead .waiting read]
      have waits : Stale (s.setLookup l .waiting) := stale.setLookup (.inr (.inl rfl))
      refine .inl ⟨waits.older, waits.token, waits.begun, waits.lookup, ?_⟩
      exact (forall_update_iff s.quiet fun _ quiet => quiet → s.Idle).mpr
        ⟨fun idle => idle, fun other _ => stale.idle other⟩
    · refine .inr ⟨mark, bound, indexed.call ?_⟩
      exact indexed.live.ofRead based read (fun hush => allowed hush.1 hush.2) fun exists_ => exists_
  | @reread l watermark at_ read =>
    refine guarded.setLookup (fun stale => ?_) fun mark indexed => ?_
    · exact .inr (.inr (.inl (stale.ofRead .opening read)))
    · exact indexed.live.ofRead based read (fun hush => allowed hush.1 (indexed.idle l hush.2)) fun exists_ => exists_
  | @begin l token at_ =>
    refine ⟨based_setTimeIndex based _, guarded.start, .inr ?_⟩
    rcases guarded.indexed with stale | ⟨mark, bound, indexed⟩
    · exact stale.begin token based (fun start same => (guarded.start start same).1) allowed
    · have exists_ := indexed.sound l
      rw [at_] at exists_
      exact ⟨mark, bound, indexed.begin token based bound exists_⟩
  | @openListing l token low high wrote began at_ after before =>
    refine guarded.proceed at_ (by simp) fun mark indexed window => ?_
    exact window.openListing based at_ before (fun hush => indexed.idle l hush.2) allowed
  | @list l backfill atStart listed base at_ nonneg below ascends present =>
    refine guarded.proceed at_ (by simp) fun mark indexed listing => ?_
    exact listing.list based nonneg below ascends present
  | @endListing l backfill atStart listed at_ complete =>
    refine guarded.proceed at_ (by simp) fun mark indexed listing => ?_
    exact listing.endListing based complete
  | @visit l backfill collect base written rest bytes batch remaining at_ queued present decoded =>
    refine guarded.proceed at_ (by simp) fun mark indexed reading => ?_
    have queue : (base, written) ∈ collect.listed := by
      obtain ⟨_, split, -⟩ := reading.visited
      rw [split, queued]
      exact List.mem_append_right _ List.mem_cons_self
    obtain ⟨a, member⟩ := based.of_stored (reading.named.nonneg _ queue) (reading.named.stored _ queue)
    rw [based.content member present, (Deflated.Batch.reads_tryFrom (program a).deflated).all] at decoded
    cases decoded
    exact reading.visit based queued member (bounded a)
  | @visitGone l backfill collect base written rest at_ queued gone =>
    refine guarded.proceed at_ (by simp) fun mark indexed reading => ?_
    exact reading.visitGone based queued gone (allowed backfill collect at_)
  | @commit l backfill collect at_ done =>
    refine ⟨based_setTimeIndex based _, guarded.start, .inr ?_⟩
    rcases guarded.indexed with stale | ⟨mark, bound, indexed⟩
    · have early := stale.lookup l
      rw [at_] at early
      simp at early
    · exact ⟨mark, bound, indexed.commit at_ done allowed⟩
  | @readLow l merged watermark at_ read =>
    refine guarded.proceed at_ (by simp) fun mark indexed seen => ?_
    intro hush
    rw [allowed hush.1 (indexed.idle l hush.2)]
    exact ⟨rfl, seen hush⟩
  | @scan l index low near at_ lists ascends =>
    exact guarded.proceed at_ (by simp) fun mark indexed index => trivial
  | @fail l running => exact guarded.setLookup (fun _ => .inr (.inr (.inr rfl))) fun mark indexed => trivial

end Guarded

/-- Where a run starts: a partition that produces and `delete_records` calls have made, whose index is complete
and empty before any batch, or of an older version. An older index that the first backfill does not
replace (its watermark has the token of a backfill, or no high watermark) names no offset above the high
watermark. -/
structure Initial (program : A → Produce.Attempt) (s : State A D L) : Prop where
  based : Based program s.partition
  index : (s.index.isComplete = true ∧ s.index.entries = ∅ ∧ ∀ batch, ¬Alive s.log batch) ∨
    (s.index.isOlderVersion = true ∧ ((s.index.backfill = none ∧ s.log.watermark.high.isSome = true) ∨
        ∀ timestamp offset : Int, s.index.entries[timestamp]? = some offset → offset ≤ s.log.watermark.next))
  newest : s.log.earlierWatermarks = []
  lookup : ∀ l, s.lookup l = .start
  begun : s.begun = false
  quiet : ∀ l, ¬s.quiet l

theorem Initial.guarded {s₀ : State A D L} (initial : Initial program s₀)
    (start : ∀ start, scope = .given start → start = s₀.log.watermark.next) :
    Guarded codec scope program s₀ := by
  have based := initial.based
  have below : ∀ batch, Counts scope program s₀ batch → ¬s₀.log.watermark.next ≤ batch.2 :=
    fun batch counts => not_le.mpr (lt_next_of_mem based counts.1.1)
  refine ⟨based, fun first same => ?start, ?indexed⟩
  case start =>
    obtain rfl := start first same
    exact ⟨le_rfl, fun batch member above => absurd above (not_le.mpr (lt_next_of_mem based member))⟩
  case indexed =>
    by_cases replaced : s₀.index.isOlderVersion = true ∧ s₀.index.backfill = none ∧ s₀.log.watermark.high.isSome = true
    · obtain ⟨older, token, exists_⟩ := replaced
      refine .inl ⟨?_, token, initial.begun, fun l => .inl (initial.lookup l), fun l quiet =>
        absurd quiet (initial.quiet l)⟩
      intro watermark member
      rw [initial.newest] at member
      obtain rfl := List.mem_singleton.mp member
      exact ⟨older, exists_⟩
    · refine .inr ⟨s₀.log.watermark.next, le_rfl, ?_, fun l => by rw [initial.lookup l]; trivial,
        fun l quiet => absurd quiet (initial.quiet l)⟩
      constructor
      case offsets =>
        intro timestamp offset held
        rcases initial.index with ⟨-, empty, -⟩ | ⟨older, keeps | offsets⟩
        · rw [empty] at held
          cases held
        · exact absurd ⟨older, keeps⟩ replaced
        · exact offsets timestamp offset held
      case seen => exact fun batch counts above => absurd above (below batch counts)
      case complete =>
        intro complete batch counts
        rcases initial.index with ⟨-, -, dead⟩ | ⟨older, -⟩
        · exact absurd counts.1 (dead batch)
        · rw [TimeIndex.isComplete_of_older older] at complete
          cases complete
      case given => exact fun first same => (start first same).ge
      case version =>
        intro older
        cases token : s₀.index.backfill with
        | some => exact .inl rfl
        | none =>
          refine .inr (not_isSome_iff_eq_none.mp fun exists_ => ?_)
          exact replaced ⟨older, token, exists_⟩
      case high =>
        intro watermark earlier
        rw [initial.newest] at earlier
        cases earlier

variable [DecidableEq A] [DecidableEq D] [DecidableEq L] {topition : Topition} {requested : D → Int}
  {request : L → Request} {s₀ : State A D L}

theorem guarded_of_reachable (initial : Initial program s₀)
    (start : ∀ start, scope = .given start → start = s₀.log.watermark.next)
    (bounded : ∀ a, maxRecordTimestamp codec (program a).deflated < TimeIndex.maxI64)
    (reached : (machine topition program requested codec request s₀).ReachableWhile
      (Allowed codec scope program) s) : Guarded codec scope program s :=
  reached.invariant (by rintro _ rfl; exact initial.guarded start)
    (fun _ _ _ guarded allowed step => guarded.step bounded allowed step)

/-- After the first backfill has begun, each entry of the index is above the timestamp of every batch before
it that was given its offset in the run and is stored or in flight. -/
theorem index_entries_exceed_earlier_batches (initial : Initial program s₀)
    (bounded : ∀ a, maxRecordTimestamp codec (program a).deflated < TimeIndex.maxI64)
    (reached : (machine topition program requested codec request s₀).ReachableWhile
      (Allowed codec (.given s₀.log.watermark.next) program) s) (begun : s.begun = true)
    {timestamp offset : Int} (entry : s.index.entries[timestamp]? = some offset) {a : A} {base : Int}
    (taken : (a, base) ∈ s.log.taken) (given : s₀.log.watermark.next ≤ base) (before : base < offset)
    (alive : (s.log.objects (batchPath base)).isSome = true ∨ (s.log.phase a).inFlight = some base) :
    (program a).deflated.maxTimestamp.toInt < timestamp := by
  have guarded := guarded_of_reachable initial (by rintro _ ⟨⟩; rfl) bounded reached
  rw [(guarded.start _ rfl).2 (a, base) taken given]
  rcases guarded.indexed with stale | ⟨mark, -, indexed⟩
  · rw [stale.begun] at begun
    cases begun
  · have above : mark ≤ base := (indexed.live.given _ rfl).trans given
    exact (indexed.live.seen (a, base) ⟨⟨taken, alive⟩, given⟩ above).entries timestamp offset entry before

section Examples

open Produce (plainAttempt plainBatch)

theorem measured_stamped : (56 : Int32).toInt =
    Deflated.fixedBatchLength + [12, 0, 0, 0, 1, 1, (0 : UInt8)].length := by
  decide

def stampedAttempt (timestamp : Int64) : Produce.Attempt :=
  { plainAttempt with
    deflated := { plainBatch with
      batchLength := 56
      baseTimestamp := timestamp
      maxTimestamp := timestamp
      recordData := [12, 0, 0, 0, 1, 1, 0]
      measured := measured_stamped } }

def twoStamps (first second : Int64) (later : Bool) : Produce.Attempt :=
  stampedAttempt (bif later then second else first)

def plainCodec : Codec where
  compress := fun _ _ => none
  inflate := fun _ _ => none
  crc32c := fun _ => 0

def olderPartition {A D L : Type} : State A D L where
  partition :=
    { log := { Produce.State.start ⟨∅, ∅⟩ with
        watermark := { (default : Watermark) with high := some 0 } }
      deletion := fun _ => .start
      stored := fun _ => none }
  lookup := fun _ => .start
  now := 0
  written := fun _ => 0
  begun := false
  quiet := fun _ => False

theorem initial_olderPartition {A D L : Type} (program : A → Produce.Attempt) :
    Initial program (olderPartition : State A D L) where
  based :=
    { assigned := (Produce.assigned_start ⟨∅, ∅⟩).congr rfl rfl rfl rfl
      stored := nofun
      start := by
        intro watermark member
        obtain rfl := List.mem_singleton.mp member
        exact ⟨le_rfl, le_rfl⟩
      high := le_rfl }
  index := .inr ⟨rfl, .inl ⟨rfl, rfl⟩⟩
  newest := rfl
  lookup := fun _ => rfl
  begun := rfl
  quiet := fun _ quiet => quiet

/-- A batch with timestamp 100 has offset 0 and is not written yet when the first backfill clears the index.
The batch with timestamp 50 at offset 1 then gets an entry. -/
theorem index_entry_below_batch_in_flight : ∃ s : State Bool Unit Unit,
    Initial (twoStamps 100 50) (olderPartition : State Bool Unit Unit) ∧
    (machine ⟨"t", 0⟩ (twoStamps 100 50) (fun _ => 0) plainCodec
      (fun _ => { target := 0, lastStable := none }) olderPartition).Reachable s ∧
    s.begun = true ∧ s.index.entries[(50 : Int)]? = some 1 ∧ (false, 0) ∈ s.log.taken ∧
    (s.log.phase false).inFlight = some 0 ∧ (stampedAttempt 100).deflated.maxTimestamp.toInt = 100 := by
  have start : (machine ⟨"t", 0⟩ (twoStamps 100 50) (fun _ : Unit => 0) plainCodec
    (fun _ : Unit => { target := 0, lastStable := none }) olderPartition).Reachable _ := .init rfl
  have first := (((start.step (.partition (.produce (.checkPlain (a := false) rfl rfl)))).step
    (.partition (.produce (.ensure (a := false) rfl List.mem_cons_self)))).step
    (.partition (.produce (.readStart (a := false) rfl List.mem_cons_self)))).step
    (.partition (.produce (.assign (a := false) rfl rfl)))
  have begun := ((first.step (.read (l := ()) rfl List.mem_cons_self)).step
    (.reread (l := ()) rfl List.mem_cons_self)).step (.begin (l := ()) 7 rfl)
  have second := (((begun.step (.partition (.produce (.checkPlain (a := true) rfl rfl)))).step
    (.partition (.produce (.ensure (a := true) rfl List.mem_cons_self)))).step
    (.partition (.produce (.readStart (a := true) rfl List.mem_cons_self)))).step
    (.partition (.produce (.assign (a := true) rfl rfl)))
  exact ⟨_, initial_olderPartition _, second, rfl, by decide +kernel, by decide, rfl, rfl⟩

/-- The first backfill clears the index before any batch has its offset. A batch without a timestamp at offset 0
is then below the entry of the batch with timestamp 100 at offset 1. -/
theorem index_entries_exceed_earlier_batches_second : ∃ s : State Bool Unit Unit,
    (machine ⟨"t", 0⟩ (twoStamps (-1) 100) (fun _ => 0) plainCodec
      (fun _ => { target := 0, lastStable := none }) olderPartition).ReachableWhile
      (Allowed plainCodec (.given (olderPartition : State Bool Unit Unit).log.watermark.next)
        (twoStamps (-1) 100)) s ∧
    s.begun = true ∧ s.index.entries[(100 : Int)]? = some 1 ∧ (s.log.phase false).inFlight = some 0 ∧
    (stampedAttempt (-1)).deflated.maxTimestamp.toInt < 100 := by
  have start : (machine ⟨"t", 0⟩ (twoStamps (-1) 100) (fun _ : Unit => 0) plainCodec
    (fun _ : Unit => { target := 0, lastStable := none }) olderPartition).ReachableWhile
    (Allowed plainCodec (.given (olderPartition : State Bool Unit Unit).log.watermark.next)
      (twoStamps (-1) 100)) _ := .init rfl
  have headers : ∀ later : Bool, (twoStamps (-1) 100 later).deflated.maxTimestamp.toInt =
      maxRecordTimestamp plainCodec (twoStamps (-1) 100 later).deflated := by decide +kernel
  have bounded : ∀ later : Bool, maxRecordTimestamp plainCodec
      (twoStamps (-1) 100 later).deflated < TimeIndex.maxI64 := by decide +kernel
  have begun := ((start.next (.read (l := ()) rfl List.mem_cons_self) nofun).next
    (.reread (l := ()) rfl List.mem_cons_self) nofun).next (.begin (l := ()) 7 rfl)
    (fun _ _ _ _ _ counts => nomatch counts.1.1)
  have first := (((begun.next (.partition (.produce (.checkPlain (a := false) rfl rfl))) trivial).next
    (.partition (.produce (.ensure (a := false) rfl List.mem_cons_self))) trivial).next
    (.partition (.produce (.readStart (a := false) rfl List.mem_cons_self))) trivial).next
    (.partition (.produce (.assign rfl rfl))) (headers false)
  have second := (((first.next (.partition (.produce (.checkPlain (a := true) rfl rfl))) trivial).next
    (.partition (.produce (.ensure (a := true) rfl List.mem_cons_self))) trivial).next
    (.partition (.produce (.readStart (a := true) rfl List.mem_cons_self))) trivial).next
    (.partition (.produce (.assign rfl rfl))) (headers true)
  obtain ⟨s, reached, noted, entry, member, flying⟩ : ∃ s : State Bool Unit Unit,
      (machine ⟨"t", 0⟩ (twoStamps (-1) 100) (fun _ => 0) plainCodec
        (fun _ => { target := 0, lastStable := none }) olderPartition).ReachableWhile
        (Allowed plainCodec (.given olderPartition.log.watermark.next)
          (twoStamps (-1) 100)) s ∧ s.begun = true ∧ s.index.entries[(100 : Int)]? = some 1 ∧
      (false, 0) ∈ s.log.taken ∧ (s.log.phase false).inFlight = some 0 :=
    ⟨_, second, rfl, by decide +kernel, by decide +kernel, rfl⟩
  have below := index_entries_exceed_earlier_batches (initial_olderPartition _) bounded reached noted entry
    member (by decide) (by decide) (.inr flying)
  exact ⟨s, reached, noted, entry, flying, below⟩

end Examples

end Lookup

end Nisshi.Dynostore
