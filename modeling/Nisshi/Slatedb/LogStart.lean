import Nisshi.Slatedb.Retention
import Nisshi.Storage.OffsetStage

/-! What moves the log start of a partition of the SlateDB engine: `produce`, `delete_records` and the two cleanup
policies. Each is one transaction, and here they run one after another. -/

namespace Nisshi.Slatedb

open Nisshi.Storage List Option

variable {B K : Type}

/-- What compaction makes of one batch, with the keys of its records. -/
inductive Compacted (B K : Type) where
  /-- A batch that cannot be inflated, or a control batch. -/
  | skipped
  | failed
  | kept (keys : List K)
  | emptied (keys : List K)
  | rewritten (keys : List K) (batch : B)

structure Format (B K : Type) where
  maxTimestamp : B → Int
  lastOffsetDelta : B → Int
  compact : (head : List K) → B → Compacted B K

namespace Partition

def start : Partition B where
  batches := []
  watermark := { low := none, high := none }

/-- `put` of a key, in the place that its offset has among the others. -/
def put (stored : Stored B) (batches : List (Stored B)) : List (Stored B) :=
  batches.takeWhile (·.offset < stored.offset) ++ stored :: batches.dropWhile (·.offset ≤ stored.offset)

def produce (format : Format B K) (batch : B) (partition : Partition B) : Partition B where
  batches := put { offset := partition.highWatermark, batch } partition.batches
  watermark := { partition.watermark with high := some (partition.highWatermark + format.lastOffsetDelta batch + 1) }

/-- The scan of `delete_records`: a batch goes when the next one begins at or below the cutoff. -/
def sweep (cutoff : Int) : Option (Stored B) → List (Stored B) → List (Stored B)
  | previous, [] => previous.toList
  | previous, stored :: rest =>
    if cutoff < stored.offset then previous.toList ++ stored :: rest
    else if stored.offset = cutoff then stored :: rest
    else sweep cutoff (some stored) rest

def deleteRecords (offset : Int) (partition : Partition B) : Partition B :=
  match deleteRecordsCutoff offset ⟨partition.highWatermark, partition.highWatermark, partition.logStart⟩ with
  | .error _ => partition
  | .ok cutoff =>
    { batches := if partition.logStart < cutoff then sweep cutoff none partition.batches else partition.batches
      watermark := { partition.watermark with low := some cutoff } }

/-- `policy_compact`, from the newest batch to the oldest. A batch that fails leaves the partition as it is. -/
def compacted (format : Format B K) : List (Stored B) → Option (List K × List (Stored B))
  | [] => some ([], [])
  | stored :: newer => do
    let (head, batches) ← compacted format newer
    match format.compact head stored.batch with
    | .failed => none
    | .skipped => some (head, stored :: batches)
    | .kept keys => some (head ++ keys, stored :: batches)
    | .emptied keys => some (head ++ keys, batches)
    | .rewritten keys batch => some (head ++ keys, { stored with batch } :: batches)

def policyCompact (format : Format B K) (partition : Partition B) : Partition B :=
  match compacted format partition.batches with
  | none => partition
  | some (_, batches) => { partition with batches }

end Partition

inductive Action (B : Type) where
  | produce (batch : B)
  | deleteRecords (offset : Int)
  | policyDelete (now : Int) (retentionMs : Option String)
  | policyCompact

def step (format : Format B K) (partition : Partition B) : Action B → Partition B
  | .produce batch => partition.produce format batch
  | .deleteRecords offset => partition.deleteRecords offset
  | .policyDelete now retentionMs => partition.policyDelete format.maxTimestamp now retentionMs
  | .policyCompact => partition.policyCompact format

def run (format : Format B K) (partition : Partition B) (actions : List (Action B)) : Partition B :=
  actions.foldl (step format) partition

/-- Only the first batch may begin below the log start: `delete_records` cuts inside it. -/
structure Sound (offsets : List Int) (low high : Int) : Prop where
  sorted : offsets.Pairwise (· < ·)
  below : ∀ offset ∈ offsets, offset ≤ high
  above : ∀ offset ∈ offsets.tail, low ≤ offset
  ordered : low ≤ high

namespace Sound

variable {offsets others : List Int} {low high : Int}

theorem sublist (sound : Sound offsets low high) (sub : others.Sublist offsets) : Sound others low high where
  sorted := sound.sorted.sublist sub
  below := fun offset member => sound.below offset (sub.subset member)
  above := fun offset member => sound.above offset (sub.tail.subset member)
  ordered := sound.ordered

theorem concat (sound : Sound offsets low high) (later : ∀ offset ∈ offsets, offset < high) (grows : high ≤ raised) :
    Sound (offsets ++ [high]) low raised where
  sorted := pairwise_append.mpr ⟨sound.sorted, pairwise_singleton .., fun offset member _ last =>
    mem_singleton.mp last ▸ later offset member⟩
  below := by
    intro offset member
    rcases mem_append.mp member with old | new
    · exact (sound.below offset old).trans grows
    · rwa [mem_singleton.mp new]
  above := by
    intro offset member
    cases offsets with
    | nil => cases member
    | cons =>
      rcases mem_append.mp member with old | new
      · exact sound.above offset old
      · exact mem_singleton.mp new ▸ sound.ordered
  ordered := sound.ordered.trans grows

theorem ofFirst (sound : Sound (first :: others) low high) : Sound (first :: others) first high where
  sorted := sound.sorted
  below := sound.below
  above := fun _ member => (rel_of_pairwise_cons sound.sorted member).le
  ordered := sound.below first mem_cons_self

end Sound

def Partition.Sound (partition : Partition B) : Prop :=
  Slatedb.Sound (partition.batches.map Stored.offset) partition.logStart partition.highWatermark

namespace Partition

variable {partition : Partition B} {format : Format B K} {batches : List (Stored B)}

theorem Sound.produce (sound : partition.Sound) {batch : B} (forward : -1 ≤ format.lastOffsetDelta batch) :
    (partition.produce format batch).Sound := by
  have gone : partition.batches.dropWhile (·.offset ≤ partition.highWatermark) = [] :=
    dropWhile_eq_nil_iff.mpr fun _ member => decide_eq_true (sound.below _ (mem_map_of_mem member))
  rw [Partition.Sound, Partition.produce, put]
  simp only [gone, map_append, map_cons, map_nil]
  refine Slatedb.Sound.concat (sound.sublist ((takeWhile_sublist _).map _)) ?_ ?_
  · intro offset member
    obtain ⟨_, listed, rfl⟩ := mem_map.mp member
    simpa using mem_takeWhile_imp listed
  · simp only [highWatermark, getD_some]
    omega

theorem sweep_sublist (cutoff : Int) (previous : Option (Stored B)) :
    (sweep cutoff previous batches).Sublist (previous.toList ++ batches) := by
  induction batches generalizing previous with
  | nil => simp [sweep]
  | cons _ _ ih =>
    rw [sweep]
    split
    · exact .refl _
    · split
      · exact sublist_append_right ..
      · exact (ih _).trans (sublist_append_right ..)

theorem sweep_above {previous : Option (Stored B)} (sorted : (batches.map Stored.offset).Pairwise (· < ·)) :
    ∀ offset ∈ ((sweep cutoff previous batches).map Stored.offset).tail, cutoff ≤ offset := by
  induction batches generalizing previous with
  | nil => cases previous <;> simp [sweep]
  | cons stored rest ih =>
    obtain ⟨first, others⟩ := pairwise_cons.mp sorted
    rw [sweep]
    split
    next past =>
      have all : ∀ offset ∈ stored.offset :: rest.map Stored.offset, cutoff ≤ offset :=
        forall_mem_cons.mpr ⟨past.le, fun offset member => (past.trans (first offset member)).le⟩
      cases previous with
      | none => exact fun offset member => all offset (mem_cons_of_mem _ member)
      | some => exact all
    next =>
      split
      next same => exact fun offset member => same ▸ (first offset member).le
      next => exact ih others

theorem Sound.deleteRecords (sound : partition.Sound) (offset : Int) : (partition.deleteRecords offset).Sound ∧
    partition.logStart ≤ (partition.deleteRecords offset).logStart := by
  rw [Partition.deleteRecords]
  split
  next => exact ⟨sound, le_rfl⟩
  next cutoff given =>
    obtain ⟨atLeast, atMost⟩ := deleteRecordsCutoff_bounds given sound.ordered
    refine ⟨?_, atLeast⟩
    split
    next =>
      have swept := sound.sublist ((sweep_sublist cutoff none).map Stored.offset)
      exact { swept with above := sweep_above sound.sorted, ordered := atMost }
    next same =>
      have equal : partition.logStart = cutoff := le_antisymm atLeast (not_lt.mp same)
      exact { sound with above := equal ▸ sound.above, ordered := atMost }

theorem Sound.policyDelete (sound : partition.Sound) (maxTimestamp : B → Int) (now : Int)
    (configured : Option String) : (partition.policyDelete maxTimestamp now configured).Sound ∧
      partition.logStart ≤ (partition.policyDelete maxTimestamp now configured).logStart := by
  rw [Partition.policyDelete]
  split
  next =>
    dsimp only
    split
    next => exact ⟨sound, le_rfl⟩
    next removed =>
      have suffix := dropWhile_suffix (l := partition.batches) fun stored =>
        !decide (saturatingSub now (maxTimestamp stored.batch) ≤ retentionMs configured)
      generalize partition.batches.dropWhile _ = remaining at suffix removed
      obtain ⟨expired, split⟩ := suffix
      have sub : remaining.Sublist partition.batches.tail := by
        rw [← split]
        cases expired with
        | nil => exact absurd (congrArg length split) removed
        | cons => exact sublist_append_right ..
      have kept := sound.sublist ((sub.trans (tail_sublist _)).map Stored.offset)
      cases remaining with
      | nil => exact ⟨⟨.nil, by simp, by simp, le_rfl⟩, sound.ordered⟩
      | cons first =>
        refine ⟨kept.ofFirst, sound.above first.offset ?_⟩
        rw [← map_tail]
        exact mem_map_of_mem (sub.subset mem_cons_self)
  next => exact ⟨sound, le_rfl⟩

theorem compacted_sublist {head : List K} (done : compacted format batches = some (head, kept)) :
    (kept.map Stored.offset).Sublist (batches.map Stored.offset) := by
  induction batches generalizing head kept with
  | nil =>
    cases done
    exact .slnil
  | cons _ _ ih =>
    obtain ⟨⟨_, _⟩, before, here⟩ := bind_eq_some_iff.mp done
    have sub := ih before
    dsimp only at here
    split at here <;> cases here
    · exact sub.cons_cons _
    · exact sub.cons_cons _
    · exact sub.cons _
    · exact sub.cons_cons _

theorem Sound.policyCompact (sound : partition.Sound) : (partition.policyCompact format).Sound ∧
    partition.logStart ≤ (partition.policyCompact format).logStart := by
  rw [Partition.policyCompact]
  split
  next => exact ⟨sound, le_rfl⟩
  next done => exact ⟨sound.sublist (compacted_sublist done), le_rfl⟩

/-- A batch that is produced does not move the high watermark back. -/
def Forward (format : Format B K) : Action B → Prop
  | .produce batch => -1 ≤ format.lastOffsetDelta batch
  | _ => True

theorem Sound.step (sound : partition.Sound) (forward : Forward format action) :
    (step format partition action).Sound ∧ partition.logStart ≤ (step format partition action).logStart := by
  cases action with
  | produce => exact ⟨sound.produce forward, le_rfl⟩
  | deleteRecords offset => exact sound.deleteRecords offset
  | policyDelete now configured => exact sound.policyDelete _ now configured
  | policyCompact => exact sound.policyCompact

theorem Sound.run (sound : partition.Sound) {actions : List (Action B)}
    (forward : ∀ action ∈ actions, Forward format action) :
    (run format partition actions).Sound ∧ partition.logStart ≤ (run format partition actions).logStart := by
  induction actions generalizing partition with
  | nil => exact ⟨sound, le_rfl⟩
  | cons _ _ ih =>
    obtain ⟨here, later⟩ := forall_mem_cons.mp forward
    obtain ⟨next, raised⟩ := sound.step here
    obtain ⟨last, more⟩ := ih next later
    exact ⟨last, raised.trans more⟩

end Partition

/-- The log start only moves up, and not above the high watermark. -/
theorem log_start_never_moves_back (format : Format B K) (before after : List (Action B))
    (forward : ∀ action ∈ before ++ after, Partition.Forward format action) :
    (run format .start before).logStart ≤ (run format .start (before ++ after)).logStart ∧
      (run format .start (before ++ after)).logStart ≤ (run format .start (before ++ after)).highWatermark := by
  have start : (Partition.start : Partition B).Sound := ⟨.nil, nofun, nofun, le_rfl⟩
  obtain ⟨first, second⟩ := forall_mem_append.mp forward
  obtain ⟨sound, -⟩ := start.run first
  obtain ⟨last, raised⟩ := sound.run second
  have whole : run format .start (before ++ after) = run format (run format .start before) after := foldl_append ..
  rw [whole]
  exact ⟨raised, last.ordered⟩

/-- A batch is its greatest timestamp and its last offset delta, and is not compacted. -/
def stampFormat : Format (Int × Int) Unit where
  maxTimestamp := Prod.fst
  lastOffsetDelta := Prod.snd
  compact := fun _ _ => .skipped

def cut : List (Action (Int × Int)) :=
  [.produce (0, 4), .produce (9, 4), .deleteRecords 7]

theorem log_start_never_moves_back_cut : (run stampFormat .start cut).logStart ≤
    (run stampFormat .start (cut ++ [.policyDelete 10 none])).logStart :=
  (log_start_never_moves_back stampFormat cut _ (by simp [cut, Partition.Forward, stampFormat])).1

theorem short_batch_moves_high_watermark_back :
    ¬(run stampFormat .start [.produce (0, -2)]).logStart ≤
      (run stampFormat .start [.produce (0, -2)]).highWatermark := by
  decide +kernel

end Nisshi.Slatedb
