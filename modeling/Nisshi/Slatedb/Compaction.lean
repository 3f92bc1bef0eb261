import Nisshi.Slatedb.LogStart

/-! `policy_compact` among the other operations on a partition. It scans the partition, begins its transaction and
commits it, and other operations may commit between any two of these. -/

namespace Nisshi.Slatedb

open List Option

variable {B H K V : Type}

structure Record (K V : Type) where
  key : Option K
  offsetDelta : Int
  value : V
  deriving DecidableEq

/-- A batch when it is inflated. The header is all that is not in its records. -/
structure Batch (H K V : Type) where
  header : H
  records : List (Record K V)
  deriving DecidableEq

structure Codec (H K V : Type) where
  maxTimestamp : H → Int
  lastOffsetDelta : H → Int
  /-- The batch cannot be inflated, or is a control batch. -/
  skips : Batch H K V → Bool
  /-- The header that the records that are left are built and encoded with. -/
  build : H → List (Record K V) → Option H

section

variable [DecidableEq K]

/-- The loop of `Batch::compact`: the delta of the last record for each key, and the number of removed records. -/
def compactStep (head : List K) (state : List (K × Int) × Nat) (record : Record K V) : List (K × Int) × Nat :=
  match record.key with
  | none => state
  | some key =>
    if key ∈ head then (state.1, state.2 + 1)
    else ((key, record.offsetDelta) :: state.1.filter (·.1 ≠ key),
      if key ∈ state.1.map Prod.fst then state.2 + 1 else state.2)

def retained (head : List K) (records : List (Record K V)) : List (Record K V) :=
  records.filter fun record =>
    record.key.isNone || record.offsetDelta ∈ (records.foldl (compactStep head) ([], 0)).1.map Prod.snd

def Codec.compact (codec : Codec H K V) (head : List K) (batch : Batch H K V) : Compacted (Batch H K V) K :=
  let keys := batch.records.filterMap Record.key
  let records := retained head batch.records
  if codec.skips batch then .skipped
  else if (batch.records.foldl (compactStep head) ([], 0)).2 = 0 then .kept keys
  else
    match codec.build batch.header records with
    | none => .failed
    | some header => if records.isEmpty then .emptied keys else .rewritten keys { header, records }

def Codec.format (codec : Codec H K V) : Format (Batch H K V) K where
  maxTimestamp := fun batch => codec.maxTimestamp batch.header
  lastOffsetDelta := fun batch => codec.lastOffsetDelta batch.header
  compact := codec.compact

end

inductive Op (B : Type) where
  | action (action : Action B)
  | deleteTopic

def Op.commit (format : Format B K) (partition : Partition B) : Op B → Partition B
  | .action taken => step format partition taken
  | .deleteTopic => .start

def commits (format : Format B K) (partition : Partition B) (ops : List (Op B)) : Partition B :=
  ops.foldl (Op.commit format) partition

/-- What the transaction of `policy_compact` makes of the `latest` batches when these are the batches of its scan. -/
def rewrite (format : Format B K) (latest : List (Stored B)) : List (Stored B) → Option (List K × List (Stored B))
  | [] => some ([], latest)
  | stored :: newer => do
    let (head, batches) ← rewrite format latest newer
    match format.compact head stored.batch with
    | .failed => none
    | .skipped => some (head, batches)
    | .kept keys => some (head ++ keys, batches)
    | .emptied keys => some (head ++ keys, batches.filter (·.offset ≠ stored.offset))
    | .rewritten keys batch => some (head ++ keys, Partition.put { stored with batch } batches)

/-- The operations of `between` commit after the scan, and those of `during` after the transaction has begun. One that
changes the partition writes the watermark, which the transaction reads and writes, and so makes it fail. -/
def compactAmong [DecidableEq B] (format : Format B K) (partition : Partition B) (between during : List (Op B)) :
    Partition B :=
  let begun := commits format partition between
  let latest := commits format begun during
  match rewrite format latest.batches partition.batches with
  | none => latest
  | some (_, batches) => if ∀ op ∈ during, op.commit format begun = begun then { latest with batches } else latest

theorem commits_eq {format : Format B K} {partition : Partition B}
    (idle : ∀ op ∈ ops, op.commit format partition = partition) : commits format partition ops = partition := by
  induction ops with
  | nil => rfl
  | cons op ops ih =>
    rw [commits, foldl_cons, idle op mem_cons_self]
    exact ih fun other member => idle other (mem_cons_of_mem _ member)

/-- Where the batches of its scan are still there, the transaction leaves what is compacted of them. -/
theorem rewrite_eq {format : Format B K} {front batches back : List (Stored B)}
    (sorted : ((front ++ (batches ++ back)).map Stored.offset).Pairwise (· < ·)) :
    rewrite format (front ++ (batches ++ back)) batches =
      (Partition.compacted format batches).map fun done => (done.1, front ++ (done.2 ++ back)) := by
  induction batches generalizing front with
  | nil => rfl
  | cons stored newer ih =>
    have here : rewrite format ((front ++ [stored]) ++ (newer ++ back)) newer = _ := ih (by rwa [append_assoc])
    rw [append_assoc] at here
    rw [rewrite, Partition.compacted]
    change (rewrite format (front ++ ([stored] ++ (newer ++ back))) newer).bind _ = _
    rw [here]
    cases done : Partition.compacted format newer with
    | none => rfl
    | some result =>
      obtain ⟨head, kept⟩ := result
      rw [map_append, pairwise_append] at sorted
      have below : ∀ old ∈ front, old.offset < stored.offset := fun old member =>
        sorted.2.2 _ (mem_map_of_mem member) _ mem_cons_self
      have above : ∀ new ∈ kept ++ back, stored.offset < new.offset := by
        intro new member
        refine rel_of_pairwise_cons sorted.2.1 ?_
        rw [append_eq, map_append, mem_append]
        exact (mem_append.mp member).imp (fun old => (Partition.compacted_sublist done).subset (mem_map_of_mem old))
          mem_map_of_mem
      have removed : (front ++ stored :: (kept ++ back)).filter (·.offset ≠ stored.offset) =
          front ++ (kept ++ back) := by
        rw [filter_append, filter_cons_of_neg (by simp),
          filter_eq_self.mpr fun old member => decide_eq_true (below old member).ne,
          filter_eq_self.mpr fun new member => decide_eq_true (above new member).ne']
      have replaced : ∀ batch, Partition.put { stored with batch } (front ++ stored :: (kept ++ back)) =
          front ++ { stored with batch } :: (kept ++ back) := by
        intro batch
        have stops : (kept ++ back).dropWhile (·.offset ≤ stored.offset) = kept ++ back := by
          cases behind : kept ++ back with
          | nil => rfl
          | cons new _ => exact dropWhile_cons_of_neg (by simpa using above new (behind ▸ mem_cons_self))
        rw [Partition.put, takeWhile_append_of_pos fun old member => decide_eq_true (below old member),
          dropWhile_append_of_pos fun old member => decide_eq_true (below old member).le]
        simp [stops]
      simp only [Option.map_some, bind_some, Option.bind_eq_bind, append_assoc, singleton_append]
      cases format.compact head stored.batch with
      | emptied => simp only [removed, Option.map_some]
      | rewritten => simp only [replaced, Option.map_some, cons_append]
      | failed | skipped | kept => rfl

variable [DecidableEq K] {codec : Codec H K V} {head : List K}

/-- The records of a partition, each with the offset of its batch. -/
def entries (batches : List (Stored (Batch H K V))) : List (Int × Record K V) :=
  batches.flatMap fun stored => stored.batch.records.map (stored.offset, ·)

def newest (key : K) (entries : List (Int × Record K V)) : Option (Int × Record K V) :=
  (entries.filter (·.2.key = some key)).getLast?

/-- The last record with a key is the one whose delta is kept for the key. -/
theorem mem_foldl_compactStep {records : List (Record K V)} (absent : key ∉ head)
    (last : (records.filter (·.key = some key)).getLast? = some record) :
    (key, record.offsetDelta) ∈ (records.foldl (compactStep head) ([], 0)).1 := by
  induction records using List.reverseRecOn with
  | nil => cases last
  | append_singleton records later ih =>
    rw [foldl_concat, compactStep]
    rw [filter_append, getLast?_append] at last
    by_cases same : later.key = some key
    · rw [filter_singleton, decide_eq_true same] at last
      cases last
      simp [same, absent]
    · rw [filter_singleton, decide_eq_false same] at last
      have before := ih last
      split
      next => exact before
      next other named =>
        split
        next => exact before
        next =>
          refine mem_cons_of_mem _ (mem_filter.mpr ⟨before, decide_eq_true fun equal => same ?_⟩)
          rw [named, ← equal]

def Compacted.keys : Compacted B K → List K
  | .skipped | .failed => []
  | .kept keys | .emptied keys | .rewritten keys _ => keys

def survivors (batch : Batch H K V) : Compacted (Batch H K V) K → List (Record K V)
  | .emptied _ => []
  | .rewritten _ rewritten => rewritten.records
  | _ => batch.records

theorem compact_spec (codec : Codec H K V) (head : List K) (batch : Batch H K V) :
    (∀ key ∈ (codec.compact head batch).keys, key ∈ batch.records.filterMap Record.key) ∧
      (survivors batch (codec.compact head batch) = batch.records ∨
        survivors batch (codec.compact head batch) = retained head batch.records) := by
  simp only [Codec.compact]
  split
  · exact ⟨by simp [Compacted.keys], .inl rfl⟩
  split
  · exact ⟨fun _ named => named, .inl rfl⟩
  split
  · exact ⟨by simp [Compacted.keys], .inl rfl⟩
  split
  next empty => exact ⟨fun _ named => named, .inr (isEmpty_iff.mp empty).symm⟩
  · exact ⟨fun _ named => named, .inr rfl⟩

theorem mem_survivors {batch : Batch H K V} (absent : key ∉ head)
    (last : (batch.records.filter (·.key = some key)).getLast? = some record) :
    record ∈ survivors batch (codec.compact head batch) := by
  have member := (mem_filter.mp (mem_of_getLast? last)).1
  rcases (compact_spec codec head batch).2 with same | fewer
  · exact same ▸ member
  · refine fewer ▸ mem_filter.mpr ⟨member, ?_⟩
    rw [Bool.or_eq_true, decide_eq_true_eq]
    exact .inr (mem_map_of_mem (mem_foldl_compactStep absent last))

theorem newest_append (key : K) (older newer : List (Int × Record K V)) :
    newest key (older ++ newer) = (newest key newer).or (newest key older) := by
  rw [newest, filter_append, getLast?_append, newest, newest]

/-- Compaction keeps the newest record of each key, and takes note of keys that a record has. -/
theorem compacted_keeps_newest {batches : List (Stored (Batch H K V))}
    (done : Partition.compacted codec.format batches = some (head, kept)) :
    (∀ key ∈ head, newest key (entries batches) ≠ none) ∧
      ∀ key entry, newest key (entries batches) = some entry → entry ∈ entries kept := by
  induction batches generalizing head kept with
  | nil =>
    cases done
    exact ⟨by simp, by simp [newest, entries]⟩
  | cons stored newer ih =>
    obtain ⟨⟨noted, batches⟩, before, here⟩ := bind_eq_some_iff.mp done
    obtain ⟨known, held⟩ := ih before
    obtain ⟨rfl, left⟩ : head = noted ++ (codec.compact noted stored.batch).keys ∧ entries kept =
        (survivors stored.batch (codec.compact noted stored.batch)).map (stored.offset, ·) ++ entries batches := by
      simp only [Codec.format] at here
      split at here <;> cases here <;> simp [*, Compacted.keys, survivors, entries]
    have own : ∀ key, newest key (stored.batch.records.map (stored.offset, ·)) =
        (stored.batch.records.filter (·.key = some key)).getLast?.map (stored.offset, ·) := by
      intro key
      rw [newest, List.filter_map, getLast?_map]
      rfl
    rw [entries, flatMap_cons, ← entries]
    simp only [newest_append, own]
    constructor
    · intro key named none
      obtain ⟨later, none⟩ := or_eq_none_iff.mp none
      rcases mem_append.mp named with old | new
      · exact known key old later
      · obtain ⟨record, listed, named⟩ := mem_filterMap.mp ((compact_spec codec noted _).1 key new)
        rw [map_eq_none_iff, getLast?_eq_none_iff, filter_eq_nil_iff] at none
        exact none record listed (decide_eq_true named)
    · intro key entry last
      rw [left]
      rcases or_eq_some_iff.mp last with later | ⟨none, last⟩
      · exact mem_append_right _ (held key entry later)
      · obtain ⟨record, found, rfl⟩ := map_eq_some_iff.mp last
        exact mem_append_left _ (mem_map_of_mem (mem_survivors (fun named => known key named none) found))

/-- When no operation between the scan of `policy_compact` and the start of its transaction removes or rewrites a batch
that the scan read, the commit stores no batch that was not there, and keeps the newest record of each key. -/
theorem compaction_brings_nothing_back [DecidableEq H] [DecidableEq V] (codec : Codec H K V)
    (partition : Partition (Batch H K V)) (between during : List (Op (Batch H K V)))
    (sorted : ((commits codec.format partition between).batches.map Stored.offset).Pairwise (· < ·))
    (kept : partition.batches <+: (commits codec.format partition between).batches)
    {before after : Partition (Batch H K V)}
    (latest : commits codec.format (commits codec.format partition between) during = before)
    (committed : compactAmong codec.format partition between during = after) :
    (∀ stored ∈ after.batches, stored.offset ∈ before.batches.map Stored.offset) ∧
      ∀ key entry, newest key (entries before.batches) = some entry → entry ∈ entries after.batches := by
  have unchanged : (∀ stored ∈ before.batches, stored.offset ∈ before.batches.map Stored.offset) ∧
      ∀ key entry, newest key (entries before.batches) = some entry → entry ∈ entries before.batches :=
    ⟨fun _ => mem_map_of_mem, fun _ _ last => (mem_filter.mp (mem_of_getLast? last)).1⟩
  rw [compactAmong, latest] at committed
  split at committed
  next =>
    subst committed
    exact unchanged
  next batches done =>
    split at committed
    next alone =>
      rw [commits_eq alone] at latest
      obtain ⟨newer, whole⟩ := kept
      rw [← whole] at sorted
      have same : rewrite codec.format ([] ++ (partition.batches ++ newer)) partition.batches = _ := rewrite_eq sorted
      rw [nil_append, whole, latest, done] at same
      obtain ⟨⟨head, kept⟩, compacted, equal⟩ := map_eq_some_iff.mp same.symm
      cases equal
      subst committed
      rw [← latest, ← whole]
      refine ⟨fun stored member => ?_, fun key entry last => ?_⟩
      · have member : stored ∈ kept ++ newer := member
        rw [map_append, mem_append]
        exact (mem_append.mp member).imp
          (fun old => (Partition.compacted_sublist compacted).subset (mem_map_of_mem old)) mem_map_of_mem
      · simp only [entries, flatMap_append, nil_append, mem_append] at last ⊢
        rw [newest_append] at last
        rcases or_eq_some_iff.mp last with later | ⟨-, last⟩
        · exact .inr (mem_filter.mp (mem_of_getLast? later)).1
        · exact .inl ((compacted_keeps_newest compacted).2 key entry last)
    next =>
      subst committed
      exact unchanged

def plainCodec : Codec Int Bool Unit where
  maxTimestamp := fun _ => 0
  lastOffsetDelta := fun header => header
  skips := fun _ => false
  build := fun header _ => some header

def twoKeys : Partition (Batch Int Bool Unit) :=
  commits plainCodec.format .start
    [.action (.produce { header := 1, records := [⟨some false, 0, ()⟩, ⟨some true, 1, ()⟩] }),
      .action (.produce { header := 0, records := [⟨some true, 0, ()⟩] })]

/-- A batch is produced after the scan. -/
theorem compaction_brings_nothing_back_produced :
    let between : List (Op (Batch Int Bool Unit)) :=
      [.action (.produce { header := 0, records := [⟨some false, 0, ()⟩] })]
    newest true (entries (commits plainCodec.format twoKeys between).batches) = some (2, ⟨some true, 0, ()⟩) ∧
      (2, ⟨some true, 0, ()⟩) ∈ entries (compactAmong plainCodec.format twoKeys between []).batches := by
  intro between
  have last : newest true (entries (commits plainCodec.format twoKeys between).batches) =
    some (2, ⟨some true, 0, ()⟩) := by decide +kernel
  exact ⟨last, (compaction_brings_nothing_back plainCodec twoKeys between [] (by decide +kernel) (by decide +kernel)
    rfl rfl).2 _ _ last⟩

/-- The first batch is removed after the scan has read it, and the commit stores it again. -/
theorem stale_scan_brings_batch_back :
    (commits plainCodec.format twoKeys [.action (.deleteRecords 2)]).batches.map Stored.offset = [2] ∧
      (compactAmong plainCodec.format twoKeys [.action (.deleteRecords 2)] []).batches.map Stored.offset = [0, 2] := by
  decide +kernel

end Nisshi.Slatedb
