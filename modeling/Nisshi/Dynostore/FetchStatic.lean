import Nisshi.Dynostore.Delivery
import Mathlib.Data.List.Sort

/-! One `DynoStore::fetch` of a partition that does not change meanwhile, as a function of the orders in
which the store's listings name the batches. The listing near the fetch offset is taken only when it is a
contiguous run of batches, and the listing of the whole partition answers otherwise: both give the batches
that the fetch is for. -/

namespace Nisshi.Dynostore.Fetch

open Std (ExtTreeSet)
open Nisshi.SansIo

/-- The loop of `batch_stream_holding` over one listing: the last batch at or below `offset` with what the
listing names behind it, or `none` when the listing descends. -/
def seek (offset : Int) : Option Int → List Int → Option (Option Int × List Int)
  | holding, [] => some (holding, [])
  | holding, base :: rest =>
    if holding.any fun holding => base ≤ holding then none
    else if base > offset then some (holding, base :: rest)
    else seek offset (some base) rest

variable {offset : Int} {entry : Int × Deflated.Batch} {near : Int → List Int} {full : List Int}

theorem startOffset_nextWindow {window : Nat} (above : startOffset offset window ≠ 0) :
    (startOffset offset (nextWindow window).toNat).toNat < (startOffset offset window).toNat := by
  have grown : window < nextWindow window := by
    unfold nextWindow fetchListingFirstWindow fetchListingGrowth
    split <;> omega
  unfold startOffset at above ⊢
  omega

/-- `batch_stream_holding`. `near start` is the order in which the store lists from `start` on: a fetch
lists once from each start. -/
def batchStreamHolding (near : Int → List Int) (offset : Int) (window : Nat) : Option (List Int) :=
  match seek offset none (near (startOffset offset window)) with
  | none => none
  | some (some holding, rest) => some (holding :: rest)
  | some (none, _) =>
    if _above : startOffset offset window = 0 then none
    else batchStreamHolding near offset (nextWindow window).toNat
termination_by (startOffset offset window).toNat
decreasing_by exact startOffset_nextWindow _above

/-- `read_fetched_batches` with a deadline that never passes. `none` is a batch that does not continue the
one before it. -/
def readFetchedBatches (objects : Objects) (bounds : Bounds) (requiresContiguous : Bool) :
    Option Int → Nat → List Int → Except ErrorCode (Option (List (Int × Deflated.Batch)))
  | _, _, [] => .ok (some [])
  | nextBaseOffset, bytesLeft, baseOffset :: rest =>
    if requiresContiguous && nextBaseOffset.any fun next => baseOffset != next then .ok none
    else if baseOffset ≥ bounds.highWatermark then .ok (some [])
    else
      match objects (batchPath baseOffset) with
      | none => readFetchedBatches objects bounds requiresContiguous none bytesLeft rest
      | some bytes =>
        match Deflated.Batch.tryFrom bytes with
        | none => .error .kafkaStorageError
        | some (batch, _) =>
          let lastOffset := baseOffset + batch.lastOffsetDelta.toInt
          let entry := (baseOffset, { batch with baseOffset := Int64.ofInt baseOffset })
          if lastOffset < bounds.offset then
            readFetchedBatches objects bounds requiresContiguous (some (lastOffset + 1)) bytesLeft rest
          else if batch.sizeInBytes > bytesLeft then .ok (some [entry])
          else
            (readFetchedBatches objects bounds requiresContiguous (some (lastOffset + 1))
              (bytesLeft - batch.sizeInBytes) rest).map fun read => read.map (entry :: ·)

def fetchNear (objects : Objects) (near : Int → List Int) (bounds : Bounds) :
    Except ErrorCode (Option (List (Int × Deflated.Batch))) :=
  match batchStreamHolding near bounds.offset 0 with
  | none => .ok none
  | some baseOffsets => readFetchedBatches objects bounds true none bounds.maxBytes baseOffsets

def fetchFromFullListing (objects : Objects) (full : List Int) (bounds : Bounds) :
    Except ErrorCode (List (Int × Deflated.Batch)) :=
  (readFetchedBatches objects bounds false none bounds.maxBytes (wanted bounds full)).map
    fun read => read.getD []

def fetch (objects : Objects) (near : Int → List Int) (full : List Int) (bounds : Bounds) :
    Except ErrorCode (List (Int × Deflated.Batch)) :=
  if bounds.offset ≥ bounds.highWatermark then .ok []
  else
    match fetchNear objects near bounds with
    | .error code => .error code
    | .ok (some batches) => .ok batches
    | .ok none => fetchFromFullListing objects full bounds

structure Listed (objects : Objects) (start : Int) (listed : List Int) : Prop where
  nodup : listed.Nodup
  named : ∀ base, base ∈ listed ↔ 0 ≤ base ∧ start ≤ base ∧ (objects (batchPath base)).isSome = true

/-! What a fetch is for, of the batches in offset order. -/

def lastOffset (entry : Int × Deflated.Batch) : Int :=
  entry.1 + entry.2.lastOffsetDelta.toInt

def asFetched (entry : Int × Deflated.Batch) : Int × Deflated.Batch :=
  (entry.1, { entry.2 with baseOffset := Int64.ofInt entry.1 })

def upTo : Nat → List (Int × Deflated.Batch) → List (Int × Deflated.Batch)
  | _, [] => []
  | bytes, entry :: rest =>
    if entry.2.sizeInBytes > bytes then [entry] else entry :: upTo (bytes - entry.2.sizeInBytes) rest

def inRange (bounds : Bounds) (entry : Int × Deflated.Batch) : Bool :=
  bounds.offset ≤ lastOffset entry && entry.1 < bounds.highWatermark

def remaining (bounds : Bounds) (bytes : Nat) (log : List (Int × Deflated.Batch)) : List (Int × Deflated.Batch) :=
  (upTo bytes (log.filter (inRange bounds))).map asFetched

/-- The batch objects of a partition, in offset order: their offset ranges are disjoint, with any gaps. -/
structure Holds (objects : Objects) (log : List (Int × Deflated.Batch)) : Prop where
  disjoint : log.Pairwise fun first second => lastOffset first < second.1
  base : ∀ entry ∈ log, 0 ≤ entry.1
  delta : ∀ entry ∈ log, 0 ≤ entry.2.lastOffsetDelta.toInt
  object : ∀ entry ∈ log, ∃ bytes rest, objects (batchPath entry.1) = some bytes ∧
    Deflated.Batch.tryFrom bytes = some (entry.2, rest)

def Lists (log : List (Int × Deflated.Batch)) (start : Int) (listed : List Int) : Prop :=
  listed.Perm ((log.map Prod.fst).filter (start ≤ ·))

variable {objects : Objects} {log : List (Int × Deflated.Batch)} {bounds : Bounds}

namespace Holds

theorem of_append (holds : Holds objects (before ++ after)) : Holds objects after where
  disjoint := (List.pairwise_append.mp holds.disjoint).2.1
  base := fun entry member => holds.base entry (List.mem_append_right _ member)
  delta := fun entry member => holds.delta entry (List.mem_append_right _ member)
  object := fun entry member => holds.object entry (List.mem_append_right _ member)

variable {entry : Int × Deflated.Batch}

theorem of_cons (holds : Holds objects (entry :: log)) : Holds objects log := by
  have whole : Holds objects ([entry] ++ log) := holds
  exact whole.of_append

theorem filter (holds : Holds objects log) (keep : Int × Deflated.Batch → Bool) : Holds objects (log.filter keep) where
  disjoint := holds.disjoint.filter keep
  base := fun entry member => holds.base entry (List.mem_filter.mp member).1
  delta := fun entry member => holds.delta entry (List.mem_filter.mp member).1
  object := fun entry member => holds.object entry (List.mem_filter.mp member).1

theorem base_of_cons (holds : Holds objects (entry :: log)) (member : other ∈ log) : lastOffset entry < other.1 :=
  (List.pairwise_cons.mp holds.disjoint).1 other member

theorem base_le_last (holds : Holds objects log) (member : entry ∈ log) : entry.1 ≤ lastOffset entry := by
  have nonneg := holds.delta entry member
  unfold lastOffset
  omega

theorem bases_sorted (holds : Holds objects log) : (log.map Prod.fst).Pairwise (· < ·) := by
  rw [List.pairwise_map]
  refine List.Pairwise.imp_of_mem ?_ holds.disjoint
  intro first second member _ below
  exact lt_of_le_of_lt (holds.base_le_last member) below

end Holds

theorem readFetchedBatches_cons {rest : List Int} {next : Option Int} (holds : Holds objects (entry :: log))
    (below : entry.1 < bounds.highWatermark)
    (continues : (requiresContiguous && next.any fun next => entry.1 != next) = false) :
    readFetchedBatches objects bounds requiresContiguous next bytesLeft (entry.1 :: rest) =
      if lastOffset entry < bounds.offset then
        readFetchedBatches objects bounds requiresContiguous (some (lastOffset entry + 1)) bytesLeft rest
      else if entry.2.sizeInBytes > bytesLeft then .ok (some [asFetched entry])
      else (readFetchedBatches objects bounds requiresContiguous (some (lastOffset entry + 1))
        (bytesLeft - entry.2.sizeInBytes) rest).map fun read => read.map (asFetched entry :: ·) := by
  obtain ⟨_, _, present, decoded⟩ := holds.object entry List.mem_cons_self
  conv_lhs => unfold readFetchedBatches
  rw [if_neg (by simp [continues]), if_neg (not_le.mpr below)]
  simp only [present, decoded]
  rfl

theorem remaining_cons (bytes : Nat) (below : entry.1 < bounds.highWatermark) : remaining bounds bytes (entry :: log) =
      if lastOffset entry < bounds.offset then remaining bounds bytes log
      else if entry.2.sizeInBytes > bytes then [asFetched entry]
      else asFetched entry :: remaining bounds (bytes - entry.2.sizeInBytes) log := by
  unfold remaining
  by_cases early : lastOffset entry < bounds.offset
  · rw [if_pos early, List.filter_cons_of_neg (by simp [inRange, early])]
  · rw [List.filter_cons_of_pos (by simp [inRange, below]; omega), upTo]
    split <;> rfl

theorem remaining_of_above (bytes : Nat) (above : ∀ entry ∈ log, bounds.highWatermark ≤ entry.1) :
    remaining bounds bytes log = [] := by
  have none : log.filter (inRange bounds) = [] := by
    rw [List.filter_eq_nil_iff]
    intro entry member
    have high := above entry member
    simp only [inRange, Bool.and_eq_true, decide_eq_true_eq]
    omega
  rw [remaining, none]
  rfl

theorem readFetchedBatches_sorted (holds : Holds objects log)
    (below : ∀ entry ∈ log, entry.1 < bounds.highWatermark) (next : Option Int) (bytes : Nat) :
    readFetchedBatches objects bounds false next bytes (log.map Prod.fst) =
      .ok (some (remaining bounds bytes log)) := by
  induction log generalizing next bytes with
  | nil => rfl
  | cons entry _ ih =>
    have first := below entry List.mem_cons_self
    have rest := fun next bytes =>
      ih holds.of_cons (fun other member => below other (List.mem_cons_of_mem _ member)) next bytes
    rw [List.map_cons, readFetchedBatches_cons holds first rfl, remaining_cons bytes first, rest, rest]
    split
    · rfl
    · split <;> rfl

/-- A read that takes only batches that continue each other, of a stream that names every batch of the log
and no other batch from `next` on: it meets a gap, or it is a read of the log. -/
theorem readFetchedBatches_contiguous {stream : List Int} (holds : Holds objects log)
    (starts : ∀ entry ∈ log, next ≤ entry.1) (named : ∀ base ∈ stream, next ≤ base → ∃ entry ∈ log, entry.1 = base)
    (all : ∀ entry ∈ log, entry.1 ∈ stream) (bytes : Nat) :
    ∃ read, readFetchedBatches objects bounds true (some next) bytes stream = .ok read ∧
      (read = none ∨ read = some (remaining bounds bytes log)) := by
  induction stream generalizing log next bytes with
  | nil =>
    have empty : log = [] := List.eq_nil_iff_forall_not_mem.mpr fun entry member => nomatch all entry member
    subst empty
    exact ⟨some [], rfl, .inr rfl⟩
  | cons base rest ih =>
    by_cases continues : base = next
    case neg =>
      refine ⟨none, ?_, .inl rfl⟩
      unfold readFetchedBatches
      rw [if_pos (by simp [continues])]
    case pos =>
      subst continues
      obtain ⟨entry, member, same⟩ := named base List.mem_cons_self (Int.le_refl _)
      cases log with
      | nil => cases member
      | cons head tail =>
        -- The batch at `base` begins the log: any other batch of the log begins later.
        have first : head.1 = base := by
          rcases List.mem_cons.mp member with rfl | later
          · exact same
          · have low := starts head List.mem_cons_self
            have ends := holds.base_le_last List.mem_cons_self
            have above := holds.base_of_cons later
            omega
        subst first
        by_cases high : bounds.highWatermark ≤ head.1
        · refine ⟨some [], ?_, .inr ?_⟩
          · unfold readFetchedBatches
            rw [if_neg (by simp), if_pos high]
          · rw [remaining_of_above]
            intro other member
            exact high.trans (starts other member)
        · have below := not_le.mp high
          have ends := holds.base_le_last List.mem_cons_self
          have starts : ∀ other ∈ tail, lastOffset head + 1 ≤ other.1 :=
            fun other member => holds.base_of_cons member
          have step := ih holds.of_cons starts (by
              intro base member above
              obtain ⟨other, inside, same⟩ := named base (List.mem_cons_of_mem _ member) (by omega)
              rcases List.mem_cons.mp inside with rfl | later
              · omega
              · exact ⟨other, later, same⟩) (by
              intro other member
              have above := holds.base_of_cons member
              rcases List.mem_cons.mp (all other (List.mem_cons_of_mem _ member)) with same | later
              · omega
              · exact later)
          rw [readFetchedBatches_cons holds below (by simp), remaining_cons bytes below]
          split
          · exact step bytes
          · split
            · exact ⟨_, rfl, .inr rfl⟩
            · obtain ⟨_, found, answer⟩ := step (bytes - head.2.sizeInBytes)
              rw [found]
              rcases answer with rfl | rfl
              · exact ⟨_, rfl, .inl rfl⟩
              · exact ⟨_, rfl, .inr rfl⟩

theorem seek_eq {holding : Option Int} (sought : seek offset holding listed = some (found, rest)) :
    ∃ scanned, listed = scanned ++ rest ∧ (∀ held, holding = some held → ∀ base ∈ scanned, held < base) ∧
      ((scanned = [] ∧ found = holding) ∨
        ∃ last ∈ scanned, found = some last ∧ last ≤ offset ∧ ∀ base ∈ scanned, base ≤ last) := by
  induction listed generalizing holding with
  | nil =>
    cases sought
    exact ⟨[], rfl, nofun, .inl ⟨rfl, rfl⟩⟩
  | cons base _ ih =>
    unfold seek at sought
    split at sought
    · cases sought
    next ascends =>
      split at sought
      · cases sought
        exact ⟨[], rfl, nofun, .inl ⟨rfl, rfl⟩⟩
      next low =>
        have above : ∀ held, holding = some held → held < base := by
          intro held same
          simpa [same] using ascends
        obtain ⟨scanned, same, later, last⟩ := ih sought
        refine ⟨base :: scanned, by rw [same]; rfl, fun held holds other member => ?_, .inr ?_⟩
        · rcases List.mem_cons.mp member with rfl | member
          · exact above held holds
          · exact (above held holds).trans (later base rfl other member)
        · rcases last with ⟨rfl, rfl⟩ | ⟨last, member, rfl, bound, top⟩
          · exact ⟨base, List.mem_cons_self, rfl, not_lt.mp low, fun other member => (List.mem_singleton.mp member).le⟩
          · refine ⟨last, List.mem_cons_of_mem _ member, rfl, bound, fun other inside => ?_⟩
            rcases List.mem_cons.mp inside with rfl | inside
            · exact (later _ rfl last member).le
            · exact top other inside

/-- The stream that `batch_stream_holding` answers with is the rest of one listing from a batch at or below
the offset, and what the listing named before it is not above that batch. -/
theorem batchStreamHolding_eq {window : Nat} (found : batchStreamHolding near offset window = some stream) :
    ∃ start scanned holding rest, 0 ≤ start ∧ near start = scanned ++ rest ∧ stream = holding :: rest ∧
      holding ∈ scanned ∧ holding ≤ offset ∧ ∀ base ∈ scanned, base ≤ holding := by
  fun_induction batchStreamHolding near offset window with
  | case1 => cases found
  | case2 window holding rest sought =>
    cases found
    obtain ⟨scanned, same, -, ⟨rfl, none⟩ | ⟨_, member, ⟨⟩, bound, top⟩⟩ := seek_eq sought
    · cases none
    · exact ⟨startOffset offset window, scanned, holding, rest, le_max_right _ _, same, rfl, member, bound, top⟩
  | case3 => cases found
  | case4 _ _ _ _ ih => exact ih found

theorem remaining_append (bytes : Nat) (early : ∀ entry ∈ before, lastOffset entry < bounds.offset) :
    remaining bounds bytes (before ++ log) = remaining bounds bytes log := by
  have none : before.filter (inRange bounds) = [] := by
    rw [List.filter_eq_nil_iff]
    intro entry member
    have ends := early entry member
    simp only [inRange, Bool.and_eq_true, decide_eq_true_eq]
    omega
  rw [remaining, List.filter_append, none]
  rfl

/-- The windowed listing answers with the batches that the fetch is for, or not at all. -/
theorem fetchNear_eq (holds : Holds objects log) (lists : ∀ start, Lists log start (near start))
    (below : bounds.offset < bounds.highWatermark) :
    ∃ read, fetchNear objects near bounds = .ok read ∧
      (read = none ∨ read = some (remaining bounds bounds.maxBytes log)) := by
  unfold fetchNear
  cases found : batchStreamHolding near bounds.offset 0 with
  | none => exact ⟨none, rfl, .inl rfl⟩
  | some stream =>
    obtain ⟨start, scanned, holding, rest, -, listed, rfl, member, bound, top⟩ :=
      batchStreamHolding_eq found
    have bases : ∀ base, base ∈ scanned ++ rest ↔ (∃ entry ∈ log, entry.1 = base) ∧ start ≤ base := by
      intro base
      rw [← listed, (lists start).mem_iff]
      simp
    obtain ⟨⟨entry, inside, rfl⟩, low⟩ := (bases holding).mp (List.mem_append_left _ member)
    obtain ⟨before, after, rfl⟩ := List.append_of_mem inside
    have holds' : Holds objects (entry :: after) := holds.of_append
    have ends := holds'.base_le_last List.mem_cons_self
    have ahead : ∀ other ∈ before, lastOffset other < entry.1 := fun other member =>
      (List.pairwise_append.mp holds.disjoint).2.2 other member entry List.mem_cons_self
    have early : ∀ other ∈ before, lastOffset other < bounds.offset :=
      fun other member => (ahead other member).trans_le bound
    have tail : ∀ bytes, ∃ read,
        readFetchedBatches objects bounds true (some (lastOffset entry + 1)) bytes rest = .ok read ∧
          (read = none ∨ read = some (remaining bounds bytes after)) :=
      readFetchedBatches_contiguous holds'.of_cons (fun other member => holds'.base_of_cons member) (by
        intro base member above
        obtain ⟨⟨other, inside, rfl⟩, -⟩ := (bases base).mp (List.mem_append_right _ member)
        rcases List.mem_append.mp inside with earlier | later
        · have := holds.base_le_last inside
          have := ahead other earlier
          omega
        · rcases List.mem_cons.mp later with rfl | later
          · omega
          · exact ⟨other, later, rfl⟩) (by
        intro other member
        have above := holds'.base_of_cons member
        rcases List.mem_append.mp ((bases other.1).mpr ⟨⟨other, by simp [member], rfl⟩, by omega⟩) with
          scanned | rest
        · have := top other.1 scanned
          omega
        · exact rest)
    have first : entry.1 < bounds.highWatermark := by omega
    simp only [remaining_append _ early]
    rw [readFetchedBatches_cons holds' first rfl, remaining_cons _ first]
    split
    · exact tail _
    · split
      · exact ⟨_, rfl, .inr rfl⟩
      · obtain ⟨_, found, answer⟩ := tail (bounds.maxBytes - entry.2.sizeInBytes)
        rw [found]
        rcases answer with rfl | rfl
        · exact ⟨_, rfl, .inl rfl⟩
        · exact ⟨_, rfl, .inr rfl⟩

theorem mem_wanted_of_inRange (holds : Holds objects log) (lists : Lists log 0 full) (member : entry ∈ log)
    (ranged : inRange bounds entry = true) : entry.1 ∈ wanted bounds full := by
  simp only [inRange, Bool.and_eq_true, decide_eq_true_eq] at ranged
  obtain ⟨ends, below⟩ := ranged
  have listed : entry.1 ∈ full := by
    rw [lists.mem_iff]
    simpa using ⟨⟨entry.2, member⟩, holds.base entry member⟩
  have kept : entry.1 ∈ (ExtTreeSet.ofList (full.filter (· < bounds.highWatermark))).toList :=
    mem_below.mpr ⟨listed, below⟩
  refine List.mem_filter.mpr ⟨kept, ?_⟩
  rw [decide_eq_true_eq]
  cases last : ((ExtTreeSet.ofList (full.filter (· < bounds.highWatermark))).toList.filter
      (· ≤ bounds.offset)).getLast? with
  | none =>
    -- No batch begins at or below the offset, so this one begins above it.
    rw [List.getLast?_eq_none_iff, List.filter_eq_nil_iff] at last
    have above := last entry.1 kept
    rw [decide_eq_true_eq, not_le] at above
    exact above.le
  | some holding =>
    -- A batch between this one and the offset would begin inside this one.
    obtain ⟨there, low⟩ := List.mem_filter.mp (List.mem_of_getLast? last)
    rw [decide_eq_true_eq] at low
    obtain ⟨other, inside, rfl⟩ :=
      List.mem_map.mp (List.mem_filter.mp (lists.mem_iff.mp (mem_below.mp there).1)).1
    change other.1 ≤ entry.1
    have := holds.base_le_last inside
    rcases Lib.Log.pairwise_trichotomy holds.disjoint member inside with rfl | ahead | behind <;> omega

theorem fetchFromFullListing_eq (holds : Holds objects log) (lists : Lists log 0 full) :
    fetchFromFullListing objects full bounds = .ok (remaining bounds bounds.maxBytes log) := by
  let kept := log.filter fun entry => entry.1 ∈ wanted bounds full
  have bases : wanted bounds full = kept.map Prod.fst := by
    refine (wanted_sorted bounds full).eq_of_mem_iff (holds.filter _).bases_sorted fun base => ?_
    simp only [kept, List.mem_map, List.mem_filter, decide_eq_true_eq]
    constructor
    · intro wanted
      have listed := (lists.mem_iff).mp (of_mem_wanted wanted).1
      obtain ⟨entry, member, rfl⟩ := List.mem_map.mp (List.mem_filter.mp listed).1
      exact ⟨entry, ⟨member, wanted⟩, rfl⟩
    · rintro ⟨_, ⟨_, wanted⟩, rfl⟩
      exact wanted
  have below : ∀ entry ∈ kept, entry.1 < bounds.highWatermark := by
    intro entry member
    have wanted := (List.mem_filter.mp member).2
    exact (of_mem_wanted (of_decide_eq_true wanted)).2
  have same : remaining bounds bounds.maxBytes kept = remaining bounds bounds.maxBytes log := by
    unfold remaining
    rw [List.filter_filter]
    congr 2
    apply List.filter_congr
    intro entry member
    cases ranged : inRange bounds entry with
    | false => rfl
    | true => simpa using mem_wanted_of_inRange holds lists member ranged
  unfold fetchFromFullListing
  rw [bases, readFetchedBatches_sorted (holds.filter _) below, same]
  rfl

theorem fetch_eq (holds : Holds objects log) (nearby : ∀ start, Lists log start (near start))
    (whole : Lists log 0 full) :
    fetch objects near full bounds = .ok (if bounds.highWatermark ≤ bounds.offset then []
      else remaining bounds bounds.maxBytes log) := by
  unfold fetch
  split
  · rfl
  next below =>
    obtain ⟨_, found, answer⟩ := fetchNear_eq holds nearby (not_le.mp below)
    rw [found]
    rcases answer with rfl | rfl
    · exact fetchFromFullListing_eq holds whole
    · rfl

/-- A fetch of batches that do not change returns, for any orders of its listings, nothing at or above the
high watermark, and below it the batches that end at or after the offset and begin below the high
watermark, up to and including the first with which they are larger than `max_bytes`. The full listing
gives these batches, and so does the windowed one whenever it answers. -/
theorem fetch_returns_batches_in_range (holds : Holds objects log) {near : Int → List Int}
    {full : List Int} (nearby : ∀ start, Lists log start (near start)) (whole : Lists log 0 full) :
    fetch objects near full bounds = .ok (if bounds.highWatermark ≤ bounds.offset then []
      else (upTo bounds.maxBytes (log.filter (inRange bounds))).map asFetched) ∧
    fetchFromFullListing objects full bounds =
      .ok ((upTo bounds.maxBytes (log.filter (inRange bounds))).map asFetched) ∧
    (bounds.offset < bounds.highWatermark → fetchNear objects near bounds = .ok none ∨ fetchNear objects near bounds =
        .ok (some ((upTo bounds.maxBytes (log.filter (inRange bounds))).map asFetched))) := by
  refine ⟨fetch_eq holds nearby whole, fetchFromFullListing_eq holds whole, fun below => ?_⟩
  obtain ⟨_, found, rfl | rfl⟩ := fetchNear_eq holds nearby below
  · exact .inl found
  · exact .inr found

section Examples

open Produce (plainBatch)

def objectsOf (log : List (Int × Deflated.Batch)) : Objects :=
  fun key => (log.find? fun entry => batchPath entry.1 == key).map fun entry => entry.2.toBytes

theorem holds_objectsOf (disjoint : log.Pairwise fun first second => lastOffset first < second.1)
    (base : ∀ entry ∈ log, 0 ≤ entry.1) (delta : ∀ entry ∈ log, 0 ≤ entry.2.lastOffsetDelta.toInt) :
    Holds (objectsOf log) log where
  disjoint := disjoint
  base := base
  delta := delta
  object := by
    intro entry member
    cases found : log.find? fun other => batchPath other.1 == batchPath entry.1 with
    | none => simpa using List.find?_eq_none.mp found entry member
    | some other =>
      have inside := List.mem_of_find?_eq_some found
      have path := List.find?_some found
      have same := batchPath_injective (base other inside) (base entry member) (beq_iff_eq.mp path)
      have first := delta other inside
      have second := delta entry member
      obtain rfl : other = entry := by
        rcases Lib.Log.pairwise_trichotomy disjoint inside member with same | before | after
        all_goals unfold lastOffset at *; omega
      exact ⟨other.2.toBytes, [], by rw [objectsOf, found]; rfl, (Deflated.Batch.reads_tryFrom other.2).all⟩

/-- Ten records from offset 0 and a high watermark inside them: the fetch is told the high watermark first
and reads nothing at or above it, also in a batch that begins below it. -/
theorem fetch_above_high_watermark_returns_nothing : Holds (objectsOf [(0, { plainBatch with lastOffsetDelta := 9 })])
      [(0, { plainBatch with lastOffsetDelta := 9 })] ∧
    fetch (objectsOf [(0, { plainBatch with lastOffsetDelta := 9 })]) (fun start => [0].filter (start ≤ ·))
      [0] { offset := 7, maxBytes := 1000, highWatermark := 5 } = .ok [] ∧
    inRange { offset := 7, maxBytes := 1000, highWatermark := 5 }
      (0, { plainBatch with lastOffsetDelta := 9 }) = true :=
  ⟨holds_objectsOf (by simp) (by decide) (by decide), rfl, by decide⟩

/-- Offset 1 is a gap and the store lists in descending order. -/
theorem fetch_returns_batches_in_range_gap :
    fetch (objectsOf [(0, plainBatch), (2, plainBatch)]) (fun start => [2, 0].filter (start ≤ ·)) [2, 0]
      { offset := 1, maxBytes := 1000, highWatermark := 3 } = .ok [asFetched (2, plainBatch)] := by
  have holds : Holds (objectsOf [(0, plainBatch), (2, plainBatch)]) [(0, plainBatch), (2, plainBatch)] :=
    holds_objectsOf (by decide) (by decide) (by decide)
  have lists : ∀ start, Lists [(0, plainBatch), (2, plainBatch)] start ([2, 0].filter (start ≤ ·)) :=
    fun start => (List.Perm.swap 0 2 []).filter _
  exact (fetch_returns_batches_in_range holds lists (lists 0)).1

end Examples

end Nisshi.Dynostore.Fetch
