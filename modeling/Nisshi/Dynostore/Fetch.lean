import Nisshi.Dynostore.Produce

/-! `DynoStore::fetch` by one consumer of a partition, beside any number of produces. A fetch reads the
high watermark, lists the batch objects near its offset or all of them, and reads the batches one by one.
A listing runs beside the produces: it names every object that was there when it began, in any order, and
may name one that was written meanwhile. -/

namespace Nisshi.Dynostore.Fetch

open Std Nisshi.Lib Nisshi.SansIo

def fetchListingFirstWindow : Int :=
  512

def fetchListingGrowth : Int :=
  8

def startOffset (offset window : Int) : Int :=
  max (offset - window) 0

def nextWindow (window : Int) : Int :=
  if window = 0 then fetchListingFirstWindow else window * fetchListingGrowth

structure Bounds where
  offset : Int
  maxBytes : Nat
  highWatermark : Int

abbrev Objects := String → Option (List UInt8)

/-- A LIST under way: where it starts, the objects when it began, and the base offsets it has named. -/
structure Listing where
  start : Int
  atStart : Objects
  listed : List Int

def Listing.begin (start : Int) (objects : Objects) : Listing :=
  { start, atStart := objects, listed := [] }

def Listing.add (listing : Listing) (base : Int) : Listing :=
  { listing with listed := base :: listing.listed }

def Listing.Complete (listing : Listing) : Prop :=
  ∀ base, listing.start ≤ base → (listing.atStart (batchPath base)).isSome = true → base ∈ listing.listed

/-- `read_fetched_batches` under way: the base offsets known ahead, the rest of the listing behind them,
and the batches read so far with their base offsets. -/
structure Read where
  requiresContiguous : Bool
  queue : List Int
  listing : Option Listing
  nextBaseOffset : Option Int
  bytesLeft : Nat
  batches : List (Int × Deflated.Batch)

def Read.begin (bounds : Bounds) (requiresContiguous : Bool) (queue : List Int) (listing : Option Listing) : Read :=
  { requiresContiguous, queue, listing, nextBaseOffset := none, bytesLeft := bounds.maxBytes,
    batches := [] }

inductive Phase where
  | idle
  /-- `batch_stream_holding` is about to list with this window. -/
  | seeking (bounds : Bounds) (window : Int)
  | probing (bounds : Bounds) (window : Int) (listing : Listing) (holding : Option Int)
  | reading (bounds : Bounds) (read : Read)
  | getting (bounds : Bounds) (read : Read) (baseOffset : Int)
  /-- The listing near the offset was no contiguous run of batches. -/
  | gapped (bounds : Bounds)
  | collecting (bounds : Bounds) (listing : Listing)
  | fetched (batches : List (Int × Deflated.Batch))

namespace Phase

def ofHolding (bounds : Bounds) (window : Int) (holding : Option Int) (afterHolding : List Int)
    (listing : Option Listing) : Phase :=
  match holding with
  | some holding => .reading bounds (.begin bounds true (holding :: afterHolding) listing)
  | none =>
    if startOffset bounds.offset window = 0 then .gapped bounds else .seeking bounds (nextWindow window)

def probe (bounds : Bounds) (window : Int) (listing : Listing) (holding : Option Int) (baseOffset : Int) : Phase :=
  if holding.any fun holding => baseOffset ≤ holding then .gapped bounds
  else if baseOffset > bounds.offset then
    .ofHolding bounds window holding [baseOffset] (some (listing.add baseOffset))
  else .probing bounds window (listing.add baseOffset) (some baseOffset)

def poll (bounds : Bounds) (read : Read) (baseOffset : Int) : Phase :=
  if read.requiresContiguous && read.nextBaseOffset.any fun next => baseOffset != next then .gapped bounds
  else if baseOffset ≥ bounds.highWatermark then .fetched read.batches
  else .getting bounds read baseOffset

/-- `read_fetched_batches` on a batch it has read. `expired` says that the deadline has passed. -/
def take (bounds : Bounds) (read : Read) (baseOffset : Int) (batch : Deflated.Batch) (expired : Bool) : Phase :=
  let lastOffset := baseOffset + batch.lastOffsetDelta.toInt
  let read := { read with nextBaseOffset := some (lastOffset + 1) }
  if lastOffset < bounds.offset then .reading bounds read
  else
    let batches := read.batches ++ [(baseOffset, { batch with baseOffset := Int64.ofInt baseOffset })]
    if batch.sizeInBytes > read.bytesLeft then .fetched batches
    else if expired then .fetched batches
    else .reading bounds { read with batches, bytesLeft := read.bytesLeft - batch.sizeInBytes }

end Phase

def wanted (bounds : Bounds) (listed : List Int) : List Int :=
  let baseOffsets := (ExtTreeSet.ofList (listed.filter (· < bounds.highWatermark))).toList
  let holding := (baseOffsets.filter (· ≤ bounds.offset)).getLast?.getD bounds.offset
  baseOffsets.filter (holding ≤ ·)

def positionAfter (offset : Int) (batches : List (Int × Deflated.Batch)) : Int :=
  batches.getLast?.elim offset fun batch => batch.1 + batch.2.lastOffsetDelta.toInt + 1

structure State (A : Type) where
  log : Produce.State A
  position : Int
  phase : Phase
  returned : List (Int × Deflated.Batch)

namespace State

variable {A : Type}

def start (store : Meta) : State A where
  log := .start store
  position := 0
  phase := .idle
  returned := []

def setPhase (s : State A) (phase : Phase) : State A :=
  { s with phase }

def setLog (s : State A) (log : Produce.State A) : State A :=
  { s with log }

def deliver (s : State A) (batches : List (Int × Deflated.Batch)) : State A :=
  { s with
    position := positionAfter s.position batches
    phase := .idle
    returned := s.returned ++ batches }

end State

inductive Action (A : Type) where
  | produce (action : Produce.Action A)
  | begin (watermark : Watermark) (maxBytes : Nat)
  | openListing
  | list (baseOffset : Int)
  | endListing
  | poll
  | get (expired : Bool)
  | deliver
  | abandon

variable {A : Type} [DecidableEq A]

inductive Step (topition : Topition) (program : A → Produce.Attempt) :
    State A → Action A → State A → Prop where
  | produce {s action log} (step : Produce.Step topition program s.log action log) :
      Step topition program s (.produce action) (s.setLog log)
  | begin {s watermark} (maxBytes : Nat) (at_ : s.phase = .idle)
      (read : watermark ∈ s.log.watermark :: s.log.earlierWatermarks) :
      Step topition program s (.begin watermark maxBytes) (s.setPhase
        (if s.position ≥ watermark.next then .fetched []
          else .seeking { offset := s.position, maxBytes, highWatermark := watermark.next } 0))
  | openProbe {s bounds window} (at_ : s.phase = .seeking bounds window) :
      Step topition program s .openListing (s.setPhase
        (.probing bounds window (.begin (startOffset bounds.offset window) s.log.objects) none))
  | listProbe {s bounds window listing holding} (baseOffset : Int)
      (at_ : s.phase = .probing bounds window listing holding) (low : listing.start ≤ baseOffset)
      (present : (s.log.objects (batchPath baseOffset)).isSome = true) :
      Step topition program s (.list baseOffset)
        (s.setPhase (.probe bounds window listing holding baseOffset))
  | endProbe {s bounds window listing holding}
      (at_ : s.phase = .probing bounds window listing holding) (complete : listing.Complete) :
      Step topition program s .endListing (s.setPhase (.ofHolding bounds window holding [] none))
  | pollQueue {s bounds read baseOffset rest} (at_ : s.phase = .reading bounds read)
      (ahead : read.queue = baseOffset :: rest) :
      Step topition program s .poll (s.setPhase (.poll bounds { read with queue := rest } baseOffset))
  | pollListing {s bounds read listing} (baseOffset : Int) (at_ : s.phase = .reading bounds read)
      (behind : read.queue = []) (live : read.listing = some listing)
      (low : listing.start ≤ baseOffset)
      (present : (s.log.objects (batchPath baseOffset)).isSome = true) :
      Step topition program s (.list baseOffset) (s.setPhase
        (.poll bounds { read with listing := some (listing.add baseOffset) } baseOffset))
  | pollEnd {s bounds read} (at_ : s.phase = .reading bounds read) (behind : read.queue = [])
      (complete : ∀ listing, read.listing = some listing → listing.Complete) :
      Step topition program s .endListing (s.setPhase (.fetched read.batches))
  | get {s bounds read baseOffset bytes batch rest} (expired : Bool)
      (at_ : s.phase = .getting bounds read baseOffset)
      (present : s.log.objects (batchPath baseOffset) = some bytes)
      (decoded : Deflated.Batch.tryFrom bytes = some (batch, rest)) :
      Step topition program s (.get expired) (s.setPhase (.take bounds read baseOffset batch expired))
  | getMissing {s bounds read baseOffset} (expired : Bool)
      (at_ : s.phase = .getting bounds read baseOffset)
      (absent : s.log.objects (batchPath baseOffset) = none) :
      Step topition program s (.get expired)
        (s.setPhase (.reading bounds { read with nextBaseOffset := none }))
  | getUnreadable {s bounds read baseOffset bytes} (expired : Bool)
      (at_ : s.phase = .getting bounds read baseOffset)
      (present : s.log.objects (batchPath baseOffset) = some bytes)
      (unreadable : Deflated.Batch.tryFrom bytes = none) :
      Step topition program s (.get expired) (s.setPhase .idle)
  | openFull {s bounds} (at_ : s.phase = .gapped bounds) :
      Step topition program s .openListing
        (s.setPhase (.collecting bounds (.begin 0 s.log.objects)))
  | listFull {s bounds listing} (baseOffset : Int) (at_ : s.phase = .collecting bounds listing)
      (low : listing.start ≤ baseOffset)
      (present : (s.log.objects (batchPath baseOffset)).isSome = true) :
      Step topition program s (.list baseOffset)
        (s.setPhase (.collecting bounds (listing.add baseOffset)))
  | endFull {s bounds listing} (at_ : s.phase = .collecting bounds listing)
      (complete : listing.Complete) :
      Step topition program s .endListing (s.setPhase
        (.reading bounds (.begin bounds false (wanted bounds listing.listed) none)))
  | deliver {s batches} (at_ : s.phase = .fetched batches) :
      Step topition program s .deliver (s.deliver batches)
  | abandon {s} : Step topition program s .abandon (s.setPhase .idle)

def machine (topition : Topition) (program : A → Produce.Attempt) (store : Meta) : Machine (State A) (Action A) where
  init := fun s => s = State.start store
  step := Step topition program

end Nisshi.Dynostore.Fetch
