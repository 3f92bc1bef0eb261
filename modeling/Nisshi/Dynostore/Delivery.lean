import Nisshi.Dynostore.Fetch
import Nisshi.Dynostore.Idempotence

/-! What a consumer is sure to get: on which runs every batch that a produce acknowledged below the
consumer's position has been returned to it. -/

namespace Nisshi.Dynostore.Fetch

open Option Function

open Std (ExtTreeSet)
open Nisshi.Lib Nisshi.SansIo Nisshi.Dynostore.Produce

variable {A : Type}

/-- What a produce never takes back: offsets are given upwards, an attempt that failed stays failed, and
an object stays as it was written. -/
structure Grows (s t : Produce.State A) : Prop where
  taken : ∀ entry ∈ t.taken, entry ∈ s.taken ∨ s.watermark.next ≤ entry.2
  kept : ∀ entry ∈ s.taken, entry ∈ t.taken
  watermark : s.watermark.next ≤ t.watermark.next
  watermarks : ∀ watermark ∈ t.earlierWatermarks, watermark ∈ s.watermark :: s.earlierWatermarks
  failed : ∀ a, (s.phase a).failed = true → (t.phase a).failed = true
  objects : ∀ key bytes, s.objects key = some bytes → t.objects key = some bytes

namespace Grows

variable {s t u : Produce.State A}

theorem trans (first : Grows s t) (second : Grows t u)
    (quiet : u.earlierWatermarks = t.earlierWatermarks) : Grows s u where
  taken := by
    intro entry member
    rcases second.taken entry member with old | new
    · exact first.taken entry old
    · exact .inr (first.watermark.trans new)
  kept := fun entry member => second.kept entry (first.kept entry member)
  watermark := first.watermark.trans second.watermark
  watermarks := quiet ▸ first.watermarks
  failed := fun a failed => second.failed a (first.failed a failed)
  objects := fun key bytes present => second.objects key bytes (first.objects key bytes present)

theorem setStore (store : Meta) : Grows s (s.setStore store) where
  taken := fun _ member => .inl member
  kept := fun _ member => member
  watermark := le_rfl
  watermarks := fun _ member => List.mem_cons_of_mem _ member
  failed := fun _ failed => failed
  objects := fun _ _ present => present

theorem setPhase [DecidableEq A] {a : A} (running : (s.phase a).failed = false) : Grows s (s.setPhase a next) :=
  { setStore s.store with
    failed := Produce.State.forall_setPhase
      (P := fun b phase => (s.phase b).failed = true → phase.failed = true)
      (fun failed => by rw [running] at failed; cases failed) (fun _ _ failed => failed) }

theorem noteAdvanced (a : A) (offset : Int) : Grows s (s.noteAdvanced a offset) :=
  { setStore s.store with }

theorem putObject {key : String} (absent : s.objects key = none) : Grows s (s.putObject key bytes) :=
  { setStore s.store with
    objects := by
      intro other old present
      have apart : other ≠ key := by
        rintro rfl
        rw [absent] at present
        cases present
      simp only [Produce.State.putObject, update_of_ne apart]
      exact present }

theorem setWatermark {watermark : Watermark} (raised : s.watermark.next ≤ watermark.next) :
    Grows s (s.setWatermark watermark) :=
  { setStore s.store with
    watermark := raised
    watermarks := fun _ member => member }

theorem noteTaken {watermark : Watermark} {a : A} (raised : s.watermark.next ≤ watermark.next)
    (fresh : s.watermark.next ≤ offset) :
    Grows s ((s.setWatermark watermark).noteTaken a offset) :=
  { setWatermark raised with
    taken := by
      intro entry member
      rcases Log.mem_concat.mp member with old | rfl
      · exact .inl old
      · exact .inr fresh
    kept := fun _ member => List.mem_append_left _ member }

theorem of_step [DecidableEq A] {program : A → Attempt} (step : Produce.Step topition program s action t) :
    Grows s t := by
  cases step with
  | checkPlain at_ | check at_ | ensure at_ | readStart at_ | readHigh at_ | putExists at_ | advancePlain at_ =>
    exact setPhase (by rw [at_]; rfl)
  | recordStart at_ | recordRange at_ | recordRangeRefused at_ | advanceRefused at_ =>
    exact (setStore _).trans (setPhase (by simp [Produce.State.setStore, at_])) rfl
  | @assign a watermark offset at_ given =>
    have raised : s.watermark.next ≤ watermark.next ∧ offset = s.watermark.next := by
      obtain ⟨same, next⟩ := Watermark.of_assigned given
      have positive := (program a).delta_nonneg
      exact ⟨by rw [next]; omega, same⟩
    exact (noteTaken raised.1 raised.2.ge).trans
      (setPhase (by simp [Produce.State.noteTaken, Produce.State.setWatermark, at_])) rfl
  | @assignRefused a watermark code at_ refused =>
    have same : s.watermark.next ≤ watermark.next := by rw [Watermark.eq_of_refused refused]
    exact (setWatermark same).trans (setPhase (by simp [Produce.State.setWatermark, at_])) rfl
  | put at_ absent =>
    exact (putObject absent).trans (setPhase (by simp [Produce.State.putObject, at_])) rfl
  | advance at_ =>
    exact ((setStore _).trans (noteAdvanced _ _) rfl).trans
      (setPhase (by simp [Produce.State.noteAdvanced, Produce.State.setStore, at_])) rfl
  | @stop a running =>
    refine setPhase ?_
    cases at_ : s.phase a with
    | answered answer => exact absurd at_ (running answer)
    | _ => rfl

end Grows

/-- Every batch that was given an offset in `[low, high)` meets `P`, or its produce has failed. -/
def Covered (log : Produce.State A) (low high : Int) (P : A → Int → Prop) : Prop :=
  ∀ a offset, (a, offset) ∈ log.taken → low ≤ offset → offset < high → P a offset ∨ (log.phase a).failed = true

namespace Covered

variable {log later : Produce.State A} {low high : Int} {P Q : A → Int → Prop}

theorem grow (covered : Covered log low high P) (grows : Grows log later)
    (below : high ≤ log.watermark.next) : Covered later low high P := by
  intro a offset member above under
  rcases grows.taken (a, offset) member with old | new
  · exact (covered a offset old above under).imp id (grows.failed a)
  · exact absurd (below.trans new) (not_le.mpr under)

theorem imp (covered : Covered log low high P)
    (weaker : ∀ a offset, (a, offset) ∈ log.taken → low ≤ offset → offset < high → P a offset →
      Q a offset) : Covered log low high Q :=
  fun a offset member above under =>
    (covered a offset member above under).imp_left (weaker a offset member above under)

theorem empty (none : high ≤ low) : Covered log low high P :=
  fun _ _ _ above under => absurd (none.trans above) (not_le.mpr under)

end Covered

/-! The base offsets of a full listing. -/

theorem wanted_sorted (bounds : Bounds) (listed : List Int) : (wanted bounds listed).Pairwise (· < ·) := by
  exact (ExtTreeSet.ordered_toList.imp fun below => Int.compare_eq_lt.mp below).filter _

variable {bounds : Bounds} {listed : List Int} {base : Int}

theorem mem_below : base ∈ (ExtTreeSet.ofList (listed.filter (· < bounds.highWatermark))).toList ↔
      base ∈ listed ∧ base < bounds.highWatermark := by
  rw [ExtTreeSet.mem_toList, ExtTreeSet.mem_ofList, List.contains_iff_mem, List.mem_filter, decide_eq_true_eq]

theorem of_mem_wanted (member : base ∈ wanted bounds listed) : base ∈ listed ∧ base < bounds.highWatermark :=
  mem_below.mp (List.mem_filter.mp member).1

theorem mem_wanted (member : base ∈ listed) (below : base < bounds.highWatermark)
    (above : bounds.offset ≤ base) : base ∈ wanted bounds listed := by
  refine List.mem_filter.mpr ⟨mem_below.mpr ⟨member, below⟩, ?_⟩
  rw [decide_eq_true_eq]
  refine le_trans ?_ above
  cases last : (List.filter (· ≤ bounds.offset)
      (ExtTreeSet.ofList (listed.filter (· < bounds.highWatermark))).toList).getLast? with
  | none => exact le_rfl
  | some holding => simpa using (List.mem_filter.mp (List.mem_of_getLast? last)).2

section Invariant

variable (program : A → Attempt) (log : Produce.State A) (position : Int)

def batchAt (a : A) (offset : Int) : Deflated.Batch :=
  { (program a).deflated with baseOffset := Int64.ofInt offset }

def Among (batches : List (Int × Deflated.Batch)) (a : A) (offset : Int) : Prop :=
  (offset, batchAt program a offset) ∈ batches

def Stored (base : Int) : Prop :=
  0 ≤ base ∧ (log.objects (batchPath base)).isSome = true

def Within (bounds : Bounds) : Prop :=
  bounds.offset = position ∧ bounds.highWatermark ≤ log.watermark.next

/-- A read that takes only batches that continue each other, from the batch that holds the position. -/
structure Contiguous (read : Read) : Prop where
  first : read.nextBaseOffset = none →
    read.batches = [] ∧ ∃ holding rest, read.queue = holding :: rest ∧ holding ≤ position
  next : ∀ next, read.nextBaseOffset = some next →
    next ≤ log.watermark.next ∧ Covered log position next (Among program read.batches)
  last : read.batches = [] ∨ position ≤ positionAfter position read.batches ∧
    read.nextBaseOffset = some (positionAfter position read.batches)

/-- A read of a sorted full listing: what it has not read is ahead of it or failed. -/
structure Sorted (bounds : Bounds) (read : Read) : Prop where
  ended : read.listing = none
  ordered : read.queue.Pairwise (· < ·)
  below : ∀ base ∈ read.queue, base < bounds.highWatermark
  covered : Covered log position bounds.highWatermark fun a offset =>
    Among program read.batches a offset ∨ offset ∈ read.queue
  last : ∀ last, read.batches.getLast? = some last → last.1 < bounds.highWatermark ∧
    (∀ base ∈ read.queue, last.1 < base) ∧
    ∃ a, (a, last.1) ∈ log.taken ∧ last.2 = batchAt program a last.1

structure Reading (bounds : Bounds) (read : Read) : Prop where
  within : Within log position bounds
  stored : ∀ base ∈ read.queue, Stored log base
  start : ∀ listing, read.listing = some listing → 0 ≤ listing.start
  contiguous : read.requiresContiguous = true → Contiguous program log position read
  sorted : read.requiresContiguous = false → Sorted program log position bounds read

def Sound : Phase → Prop
  | .idle => True
  | .seeking bounds _ => Within log position bounds
  | .probing bounds _ listing holding => Within log position bounds ∧ 0 ≤ listing.start ∧
      ∀ base, holding = some base → base ≤ position ∧ Stored log base
  | .reading bounds read => Reading program log position bounds read
  | .getting bounds read base =>
    Reading program log position bounds { read with queue := base :: read.queue } ∧
      (read.requiresContiguous = true → ∀ next, read.nextBaseOffset = some next → base = next)
  | .gapped bounds => Within log position bounds
  | .collecting bounds listing => Within log position bounds ∧ listing.start = 0 ∧
      Covered log position bounds.highWatermark
        (fun _ offset => (listing.atStart (batchPath offset)).isSome = true) ∧
      ∀ base ∈ listing.listed, Stored log base
  | .fetched batches => positionAfter position batches ≤ log.watermark.next ∧
      Covered log position (positionAfter position batches) (Among program batches)

end Invariant

section Grow

variable {program : A → Attempt} {log later : Produce.State A} {position : Int}

theorem Stored.grow (stored : Stored log base) (grows : Grows log later) : Stored later base := by
  obtain ⟨_, present⟩ := isSome_iff_exists.mp stored.2
  exact ⟨stored.1, by rw [grows.objects _ _ present]; rfl⟩

theorem Within.grow (within : Within log position bounds) (grows : Grows log later) : Within later position bounds :=
  ⟨within.1, within.2.trans grows.watermark⟩

theorem Reading.grow {read : Read} (reading : Reading program log position bounds read) (grows : Grows log later) :
    Reading program later position bounds read where
  within := reading.within.grow grows
  stored := fun base member => (reading.stored base member).grow grows
  start := reading.start
  contiguous := fun mode =>
    let contiguous := reading.contiguous mode
    { contiguous with
      next := fun next same =>
        ⟨(contiguous.next next same).1.trans grows.watermark,
          (contiguous.next next same).2.grow grows (contiguous.next next same).1⟩ }
  sorted := fun mode =>
    let sorted := reading.sorted mode
    { sorted with
      covered := sorted.covered.grow grows reading.within.2
      last := fun last same => by
        obtain ⟨below, ahead, a, member, batch⟩ := sorted.last last same
        exact ⟨below, ahead, a, grows.kept _ member, batch⟩ }

theorem Sound.grow (sound : Sound program log position phase) (grows : Grows log later) :
    Sound program later position phase := by
  cases phase with
  | idle => trivial
  | seeking | gapped => exact Within.grow sound grows
  | probing =>
    obtain ⟨within, start, held⟩ := sound
    exact ⟨within.grow grows, start, fun base same => ⟨(held base same).1, (held base same).2.grow grows⟩⟩
  | reading => exact Reading.grow sound grows
  | getting => exact ⟨Reading.grow sound.1 grows, sound.2⟩
  | collecting =>
    obtain ⟨within, start, covered, stored⟩ := sound
    exact ⟨within.grow grows, start, covered.grow grows within.2, fun base member => (stored base member).grow grows⟩
  | fetched => exact ⟨sound.1.trans grows.watermark, sound.2.grow grows sound.1⟩

end Grow

section Reads

variable {program : A → Attempt} {log : Produce.State A} {position : Int} {bounds : Bounds} {read : Read}

variable {base : Int}

theorem Stored.owner (assigned : Assigned program log) (stored : Stored log base) :
    ∃ a, (a, base) ∈ log.taken ∧ log.objects (batchPath base) = some (program a).deflated.toBytes := by
  obtain ⟨_, present⟩ := isSome_iff_exists.mp stored.2
  obtain ⟨a, _, member, path, rfl, _⟩ := assigned.object _ _ present
  obtain rfl := batchPath_injective stored.1 (assigned.tiled.bounds member).1 path
  exact ⟨a, member, present⟩

theorem positionAfter_concat (batches : List (Int × Deflated.Batch)) (a : A) (base : Int) :
    positionAfter position (batches ++ [(base, batchAt program a base)]) = base + (program a).size := by
  simp only [positionAfter, List.getLast?_concat, elim_some, batchAt, Attempt.size, Attempt.delta]
  omega

/-- Whatever a read stops at, it has skipped no batch before that. -/
theorem Reading.fetched (reading : Reading program log position bounds read)
    (assigned : Assigned program log) (below : position ≤ log.watermark.next) :
    Sound program log position (.fetched read.batches) := by
  have nothing : read.batches = [] → Sound program log position (.fetched read.batches) := by
    intro none
    rw [none]
    exact ⟨below, Covered.empty le_rfl⟩
  cases mode : read.requiresContiguous with
  | true =>
    have contiguous := reading.contiguous mode
    rcases contiguous.last with none | ⟨_, next⟩
    · exact nothing none
    · exact contiguous.next _ next
  | false =>
    have sorted := reading.sorted mode
    cases newest : read.batches.getLast? with
    | none => exact nothing (List.getLast?_eq_none_iff.mp newest)
    | some last =>
      obtain ⟨under, ahead, a, member, batch⟩ := sorted.last last newest
      have after : positionAfter position read.batches = last.1 + (program a).size := by
        simp only [positionAfter, newest, elim_some, batch, batchAt, Attempt.size, Attempt.delta]
        omega
      refine ⟨after ▸ (assigned.tiled.bounds member).2.1, ?_⟩
      intro b offset member' above inside
      have early := assigned.tiled.le_of_lt member member' (after ▸ inside)
      refine (sorted.covered b offset member' above (by omega)).imp_left ?_
      rintro (read | waiting)
      · exact read
      · exact absurd (ahead offset waiting) (not_lt.mpr early)

theorem Reading.skip {a : A} {next : Int}
    (reading : Reading program log position bounds { read with queue := base :: read.queue })
    (continues : read.requiresContiguous = true → ∀ next, read.nextBaseOffset = some next → base = next)
    (ends : next = base + (program a).size) (early : next ≤ position) (below : position ≤ log.watermark.next) :
    Reading program log position bounds { read with nextBaseOffset := some next } where
  within := reading.within
  stored := fun other member => reading.stored other (List.mem_cons_of_mem _ member)
  start := reading.start
  contiguous := by
    intro mode
    have contiguous := reading.contiguous mode
    have positive := (program a).size_pos
    refine ⟨nofun, ?_, ?_⟩
    · rintro _ ⟨⟩
      exact ⟨early.trans below, Covered.empty early⟩
    · rcases contiguous.last with none | ⟨above, same⟩
      · exact .inl none
      · have := continues mode _ same
        omega
  sorted := by
    intro mode
    have sorted := reading.sorted mode
    have positive := (program a).size_pos
    refine ⟨sorted.ended, sorted.ordered.of_cons, fun other member =>
      sorted.below other (List.mem_cons_of_mem _ member), ?_, ?_⟩
    · refine sorted.covered.imp fun b offset _ above _ => Or.imp_right fun waiting => ?_
      rcases List.mem_cons.mp waiting with rfl | ahead
      · omega
      · exact ahead
    · intro last newest
      obtain ⟨under, ahead, owner⟩ := sorted.last last newest
      exact ⟨under, fun other member => ahead other (List.mem_cons_of_mem _ member), owner⟩

theorem Reading.push (bytesLeft : Nat)
    (reading : Reading program log position bounds { read with queue := base :: read.queue })
    (continues : read.requiresContiguous = true → ∀ next, read.nextBaseOffset = some next → base = next)
    (assigned : Assigned program log) (member : (a, base) ∈ log.taken) (reaches : position < base + (program a).size) :
    Reading program log position bounds { read with
      nextBaseOffset := some (base + (program a).size)
      batches := read.batches ++ [(base, batchAt program a base)]
      bytesLeft } where
  within := reading.within
  stored := fun other member => reading.stored other (List.mem_cons_of_mem _ member)
  start := reading.start
  contiguous := by
    intro mode
    have contiguous := reading.contiguous mode
    refine ⟨nofun, ?_, ?_⟩
    · rintro _ ⟨⟩
      refine ⟨(assigned.tiled.bounds member).2.1, ?_⟩
      intro b offset member' above inside
      have early := assigned.tiled.le_of_lt member member' inside
      -- Below the batch, the earlier reads cover the offset; otherwise it is the batch's own.
      have own : base ≤ offset → Among program (read.batches ++ [(base, batchAt program a base)]) b
          offset := by
        intro late
        obtain rfl := le_antisymm early late
        obtain rfl := assigned.tiled.unique member member'
        exact List.mem_append_right _ (List.mem_singleton_self _)
      cases next : read.nextBaseOffset with
      | none =>
        obtain ⟨_, _, _, queue, low⟩ := contiguous.first next
        obtain ⟨rfl, _⟩ := List.cons.inj queue
        exact .inl (own (low.trans above))
      | some expected =>
        have same := continues mode expected next
        rcases lt_or_ge offset base with before | late
        · exact ((contiguous.next expected next).2 b offset member' above (same ▸ before)).imp_left
            (List.mem_append_left _)
        · exact .inl (own late)
    · rw [positionAfter_concat]
      exact .inr ⟨reaches.le, rfl⟩
  sorted := by
    intro mode
    have sorted := reading.sorted mode
    refine ⟨sorted.ended, sorted.ordered.of_cons, fun other member =>
      sorted.below other (List.mem_cons_of_mem _ member), ?_, ?_⟩
    · refine sorted.covered.imp fun b offset member' _ _ => ?_
      rintro (earlier | waiting)
      · exact .inl (List.mem_append_left _ earlier)
      · rcases List.mem_cons.mp waiting with rfl | ahead
        · obtain rfl := assigned.tiled.unique member member'
          exact .inl (List.mem_append_right _ (List.mem_singleton_self _))
        · exact .inr ahead
    · intro last newest
      rw [List.getLast?_concat, some.injEq] at newest
      subst newest
      exact ⟨sorted.below base List.mem_cons_self, (List.pairwise_cons.mp sorted.ordered).1, a, member, rfl⟩

theorem sound_ofHolding {window : Int} {afterHolding : List Int} (within : Within log position bounds)
    (held : ∀ base, holding = some base → base ≤ position ∧ Stored log base)
    (stored : ∀ base ∈ afterHolding, Stored log base) (start : ∀ live, listing = some live → 0 ≤ live.start) :
    Sound program log position (.ofHolding bounds window holding afterHolding listing) := by
  cases holding with
  | none =>
    simp only [Phase.ofHolding]
    split <;> exact within
  | some base =>
    obtain ⟨low, present⟩ := held base rfl
    refine ⟨within, ?_, start, fun _ => ⟨fun _ => ⟨rfl, base, afterHolding, rfl, low⟩, nofun, .inl rfl⟩, nofun⟩
    intro other member
    rcases List.mem_cons.mp member with rfl | after
    · exact present
    · exact stored other after

theorem sound_probe {listing : Listing} (sound : Sound program log position (.probing bounds window listing holding))
    (present : Stored log base) : Sound program log position (.probe bounds window listing holding base) := by
  obtain ⟨within, start, held⟩ := sound
  simp only [Phase.probe]
  split
  · exact within
  · split
    · refine sound_ofHolding within held ?_ ?_
      · intro other member
        rw [List.mem_singleton.mp member]
        exact present
      · rintro _ ⟨⟩
        exact start
    next low =>
      refine ⟨within, start, ?_⟩
      rintro _ ⟨⟩
      exact ⟨within.1 ▸ not_lt.mp low, present⟩

theorem sound_poll (reading : Reading program log position bounds { read with queue := base :: read.queue })
    (assigned : Assigned program log) (below : position ≤ log.watermark.next) :
    Sound program log position (.poll bounds read base) := by
  simp only [Phase.poll]
  split
  · exact reading.within
  next fits =>
    split
    · exact reading.fetched assigned below
    · refine ⟨reading, fun mode next same => ?_⟩
      simpa [mode, same] using fits

theorem sound_take {batch : Deflated.Batch} (expired : Bool)
    (sound : Sound program log position (.getting bounds read base)) (assigned : Assigned program log)
    (below : position ≤ log.watermark.next) (member : (a, base) ∈ log.taken) (same : batch = (program a).deflated) :
    Sound program log position (.take bounds read base batch expired) := by
  obtain ⟨reading, continues⟩ := sound
  subst same
  have offset : bounds.offset = position := reading.within.1
  have ends : base + (program a).deflated.lastOffsetDelta.toInt + 1 = base + (program a).size := by
    simp only [Attempt.size, Attempt.delta]
    omega
  simp only [Phase.take, offset]
  split
  next early => exact reading.skip continues ends (by omega) below
  next late =>
    have push := fun bytesLeft => reading.push bytesLeft continues assigned member (by omega)
    rw [← ends] at push
    split
    · exact (push 0).fetched assigned below
    · split
      · exact (push 0).fetched assigned below
      · exact push _

end Reads

/-- When a fetch starts to list the whole partition, no produce that has its offset in the range of the
fetch still has its batch to write. -/
def NoneInFlight (s : State A) : Action A → Prop
  | .openListing => ∀ bounds, s.phase = .gapped bounds → ∀ a offset,
      s.log.phase a = .assigned offset ∨ s.log.phase a = .recorded offset →
      offset < bounds.offset ∨ bounds.highWatermark ≤ offset
  | _ => True

structure Delivering (program : A → Attempt) (s : State A) : Prop where
  watermarks : ∀ watermark ∈ s.log.earlierWatermarks, watermark.next ≤ s.log.watermark.next
  below : s.position ≤ s.log.watermark.next
  settled : Covered s.log 0 s.position (Among program s.returned)
  sound : Sound program s.log s.position s.phase

section Runs

variable {program : A → Attempt} {s t : State A}

theorem Delivering.setPhase (delivering : Delivering program s) (sound : Sound program s.log s.position phase) :
    Delivering program (s.setPhase phase) :=
  { delivering with sound }

theorem Delivering.sound_at (delivering : Delivering program s) (at_ : s.phase = phase) :
    Sound program s.log s.position phase :=
  at_ ▸ delivering.sound

theorem Delivering.setLog (delivering : Delivering program s) (grows : Grows s.log log) :
    Delivering program (s.setLog log) where
  watermarks := by
    intro watermark member
    refine le_trans ?_ grows.watermark
    rcases List.mem_cons.mp (grows.watermarks watermark member) with rfl | old
    · exact le_rfl
    · exact delivering.watermarks watermark old
  below := delivering.below.trans grows.watermark
  settled := delivering.settled.grow grows delivering.below
  sound := delivering.sound.grow grows

theorem Delivering.deliver (delivering : Delivering program s) (at_ : s.phase = .fetched batches) :
    Delivering program (s.deliver batches) := by
  obtain ⟨below, covered⟩ := delivering.sound_at at_
  refine ⟨delivering.watermarks, below, ?_, trivial⟩
  intro a offset member low high
  rcases lt_or_ge offset s.position with before | fetched
  · exact (delivering.settled a offset member low before).imp_left (List.mem_append_left _)
  · exact (covered a offset member fetched high).imp_left (List.mem_append_right _)

/-- With no batch in flight below the high watermark, what a full listing can miss has failed. -/
theorem covered_of_noneInFlight {log : Produce.State A} (assigned : Assigned program log)
    (quiet : ∀ a offset, log.phase a = .assigned offset ∨ log.phase a = .recorded offset →
      offset < bounds.offset ∨ bounds.highWatermark ≤ offset) :
    Covered log bounds.offset bounds.highWatermark
      (fun _ offset => (log.objects (batchPath offset)).isSome = true) := by
  intro a offset member above under
  refine (assigned.taken a offset member).imp_left fun holds => ?_
  have written : (log.phase a).written = some offset := by
    cases at_ : log.phase a with
    | assigned first =>
      rw [at_] at holds
      cases holds
      have := quiet a offset (.inl at_)
      omega
    | recorded first =>
      rw [at_] at holds
      cases holds
      have := quiet a offset (.inr at_)
      omega
    | stored =>
      rw [at_] at holds
      exact holds
    | answered answer =>
      rw [at_] at holds
      cases answer <;> exact holds
    | _ =>
      rw [at_] at holds
      cases holds
  simp only [assigned.written a offset written, isSome_some]

variable {topition : Topition}

theorem Delivering.step [DecidableEq A] (delivering : Delivering program s) (assigned : Assigned program s.log)
    (quiet : NoneInFlight s action) (step : Step topition program s action t) : Delivering program t := by
  cases step with
  | produce step => exact delivering.setLog (.of_step step)
  | @begin watermark maxBytes at_ read =>
    refine delivering.setPhase ?_
    split
    · exact ⟨delivering.below, Covered.empty le_rfl⟩
    · refine ⟨rfl, ?_⟩
      rcases List.mem_cons.mp read with rfl | old
      · exact le_rfl
      · exact delivering.watermarks watermark old
  | openProbe at_ =>
    exact delivering.setPhase ⟨delivering.sound_at at_, le_max_right _ _, nofun⟩
  | listProbe _ at_ low present =>
    have sound := delivering.sound_at at_
    exact delivering.setPhase (sound_probe sound ⟨sound.2.1.trans low, present⟩)
  | endProbe at_ =>
    have sound := delivering.sound_at at_
    exact delivering.setPhase (sound_ofHolding sound.1 sound.2.2 nofun nofun)
  | @pollQueue bounds read base rest at_ ahead =>
    have reading : Reading program s.log s.position bounds read := delivering.sound_at at_
    refine delivering.setPhase (sound_poll ?_ assigned delivering.below)
    simp only [← ahead]
    exact reading
  | @pollListing bounds read listing base at_ behind live low present =>
    have reading : Reading program s.log s.position bounds read := delivering.sound_at at_
    have start := reading.start listing live
    refine delivering.setPhase (sound_poll ?_ assigned delivering.below)
    refine ⟨reading.within, ?_, ?_, ?_, ?_⟩
    · intro other member
      rw [behind] at member
      rw [List.mem_singleton.mp member]
      exact ⟨start.trans low, present⟩
    · rintro _ ⟨⟩
      exact start
    · intro mode
      have contiguous := reading.contiguous mode
      refine ⟨fun none => ?_, contiguous.next, contiguous.last⟩
      obtain ⟨_, _, _, queue, _⟩ := contiguous.first none
      rw [behind] at queue
      cases queue
    · intro mode
      have ended := (reading.sorted mode).ended
      rw [live] at ended
      cases ended
  | pollEnd at_ =>
    have reading : Reading program s.log s.position _ _ := delivering.sound_at at_
    exact delivering.setPhase (reading.fetched assigned delivering.below)
  | @get bounds read base bytes batch rest expired at_ present decoded =>
    have sound := delivering.sound_at at_
    obtain ⟨a, member, object⟩ := (sound.1.stored base List.mem_cons_self).owner assigned
    rw [object, some.injEq] at present
    rw [← present, (Deflated.Batch.reads_tryFrom (program a).deflated).all] at decoded
    cases decoded
    exact delivering.setPhase (sound_take expired sound assigned delivering.below member rfl)
  | @getMissing bounds read base expired at_ absent =>
    have sound := delivering.sound_at at_
    have stored := (sound.1.stored base List.mem_cons_self).2
    rw [absent] at stored
    cases stored
  | getUnreadable | abandon => exact delivering.setPhase trivial
  | @openFull bounds at_ =>
    have within : Within s.log s.position bounds := delivering.sound_at at_
    have covered := covered_of_noneInFlight assigned (quiet bounds at_)
    rw [within.1] at covered
    exact delivering.setPhase ⟨within, rfl, covered, nofun⟩
  | @listFull bounds listing base at_ low present =>
    obtain ⟨within, start, covered, stored⟩ := delivering.sound_at at_
    refine delivering.setPhase ⟨within, start, covered, fun other member => ?_⟩
    rcases List.mem_cons.mp member with rfl | old
    · exact ⟨start ▸ low, present⟩
    · exact stored other old
  | @endFull bounds listing at_ complete =>
    obtain ⟨within, start, covered, stored⟩ := delivering.sound_at at_
    refine delivering.setPhase ⟨within, fun base member => stored base (of_mem_wanted member).1, nofun,
      nofun, fun _ => ⟨rfl, wanted_sorted _ _, fun base member => (of_mem_wanted member).2, ?_, nofun⟩⟩
    refine covered.imp fun a offset member above under present => .inr ?_
    have low : listing.start ≤ offset := start ▸ (assigned.tiled.bounds member).1
    exact mem_wanted (complete offset low present) under (within.1 ▸ above)
  | deliver at_ => exact delivering.deliver at_

theorem delivering_start (store : Meta) : Delivering program (State.start store : State A) where
  watermarks := nofun
  below := le_rfl
  settled := nofun
  sound := trivial

theorem log_step [DecidableEq A] (step : Step topition program s action t) :
    t.log = s.log ∨ ∃ produced, Produce.Step topition program s.log produced t.log := by
  cases step with
  | produce step => exact .inr ⟨_, step⟩
  | _ => exact .inl rfl

theorem delivering_of_reachable [DecidableEq A]
    (reached : (machine topition program store).ReachableWhile NoneInFlight s)
    (unused : ∀ (producer : Int) pd, store.producers[producer]? = some pd →
      ∀ epoch, pd.batches.find epoch topition = none) :
    Assigned program s.log ∧ Recalled topition s.log ∧ Delivering program s := by
  refine Machine.ReachableWhile.invariant
    (P := fun s => Assigned program s.log ∧ Recalled topition s.log ∧ Delivering program s)
    ?initial ?preserved reached
  case initial =>
    rintro _ rfl
    refine ⟨assigned_start store, ⟨?_, nofun⟩, delivering_start store⟩
    rintro _ (_ | ⟨_, ⟨⟩⟩) producer pd present _ _ held
    rw [unused producer pd present] at held
    cases held
  case preserved =>
    rintro _ _ t ⟨assigned, recalled, delivering⟩ quiet step
    have kept : Assigned program t.log ∧ Recalled topition t.log := by
      rcases log_step step with same | ⟨_, produced⟩
      · rw [same]
        exact ⟨assigned, recalled⟩
      · exact ⟨assigned.step produced, recalled.step produced⟩
    exact ⟨kept.1, kept.2, delivering.step assigned quiet step⟩

/-- On a run in which no full listing starts while a batch in its range is in flight, every batch that
a produce acknowledged below the consumer's position was returned to the consumer. -/
theorem fetch_returns_acknowledged_batches [DecidableEq A] {topition : Topition} {store : Meta}
    (reached : (machine topition program store).ReachableWhile NoneInFlight s)
    (unused : ∀ (producer : Int) pd, store.producers[producer]? = some pd →
      ∀ epoch, pd.batches.find epoch topition = none) :
    (∀ a offset, s.log.phase a = .answered (.appended offset) → offset < s.position →
      (offset, batchAt program a offset) ∈ s.returned) ∧
    (∀ a offset, s.log.phase a = .answered (.duplicate offset) → offset < s.position →
      ∃ b, s.log.phase b = .answered (.appended offset) ∧ (offset, batchAt program b offset) ∈ s.returned) := by
  obtain ⟨assigned, recalled, delivering⟩ := delivering_of_reachable reached unused
  have appended : ∀ a offset, s.log.phase a = .answered (.appended offset) → offset < s.position →
      (offset, batchAt program a offset) ∈ s.returned := by
    intro a offset at_ below
    have member := assigned.holds a offset (by rw [at_]; rfl)
    rcases delivering.settled a offset member (assigned.tiled.bounds member).1 below with found | failed
    · exact found
    · rw [at_] at failed
      cases failed
  refine ⟨appended, fun a offset at_ below => ?_⟩
  obtain ⟨b, at'⟩ := recalled.answered a offset at_
  exact ⟨b, at', appended b offset at' below⟩

end Runs

section Overtaken

def secondOnly : Objects :=
  Function.update (fun _ => none) (batchPath 1) (some plainBatch.toBytes)

theorem complete_single {objects : Objects} (low : 0 ≤ base)
    (others : ∀ key, key ≠ batchPath base → objects key = none) :
    Listing.Complete { start := 0, atStart := objects, listed := [base] } := by
  intro other nonneg present
  by_contra missing
  have apart : batchPath other ≠ batchPath base := fun same =>
    missing (List.mem_singleton.mpr (batchPath_injective nonneg low same))
  simp only [others _ apart] at present
  cases present

theorem fetch_secondOnly {program : Bool → Attempt} {allowed : State Bool → Action Bool → Prop}
    (reached : (machine topition program store).ReachableWhile allowed s)
    (permitted : ∀ phase action, allowed (s.setPhase phase) action) (idle : s.phase = .idle)
    (position : s.position = 0) (objects : s.log.objects = secondOnly) (high : s.log.watermark.next = 2) :
    (machine topition program store).ReachableWhile allowed
      (s.deliver [(1, { plainBatch with baseOffset := Int64.ofInt 1 })]) := by
  have present : s.log.objects (batchPath 1) = some plainBatch.toBytes := by
    rw [objects, secondOnly, update_self]
  have listed : (s.log.objects (batchPath 1)).isSome = true := by rw [present]; rfl
  have complete : Listing.Complete { start := 0, atStart := s.log.objects, listed := [1] } := by
    rw [objects]
    exact complete_single (by decide) fun key other => update_of_ne other ..
  have low : (0 : Int) ≤ 1 := by decide
  have begun : (machine topition program store).ReachableWhile allowed
      (s.setPhase (.seeking { offset := 0, maxBytes := 1000, highWatermark := 2 } 0)) := by
    have step := reached.next (.begin 1000 idle List.mem_cons_self)
      (by have same := permitted .idle; rw [← idle] at same; exact same _)
    rw [position, high] at step
    exact step
  have gapped := (begun.next (.openProbe rfl) (permitted _ _)).next (.listProbe 1 rfl low listed)
    (permitted _ _)
  have collected := ((gapped.next (.openFull rfl) (permitted _ _)).next
    (.listFull 1 rfl low listed) (permitted _ _)).next (.endFull rfl complete) (permitted _ _)
  have queue : wanted { offset := 0, maxBytes := 1000, highWatermark := 2 } [1] = [1] := by
    decide +kernel
  have taken : Phase.take { offset := 0, maxBytes := 1000, highWatermark := 2 }
      { Read.begin { offset := 0, maxBytes := 1000, highWatermark := 2 } false [1] none with queue := [] } 1
      plainBatch true = .fetched [(1, { plainBatch with baseOffset := Int64.ofInt 1 })] := by
    simp [Phase.take, Read.begin, plainBatch, Deflated.Batch.sizeInBytes]
  have got := (collected.next (.pollQueue rfl queue) (permitted _ _)).next
    (.get true rfl present (Deflated.Batch.reads_tryFrom plainBatch).all) (permitted _ _)
  exact got.next (.deliver taken) (permitted _ _)

/-- The second of two produces writes its batch while the first has its offset and nothing more. The
consumer is given the second batch, and the first produce succeeds below the consumer's new position. -/
theorem fetch_steps_over_batch_in_flight : ∃ s : State Bool,
    (machine ⟨"t", 0⟩ (fun _ => plainAttempt) ⟨∅, ∅⟩).Reachable s ∧
    s.log.phase false = .answered (.appended 0) ∧ 0 < s.position ∧ ∀ batch, (0, batch) ∉ s.returned := by
  have start : (machine ⟨"t", 0⟩ (fun _ : Bool => plainAttempt) ⟨∅, ∅⟩).Reachable _ := .init rfl
  have first := (((start.step (.produce (.checkPlain (a := false) rfl rfl))).step
    (.produce (.ensure (a := false) rfl List.mem_cons_self))).step
    (.produce (.readStart (a := false) rfl List.mem_cons_self))).step
    (.produce (.assign (a := false) rfl rfl))
  have second := (((first.step (.produce (.checkPlain (a := true) rfl rfl))).step
    (.produce (.ensure (a := true) rfl List.mem_cons_self))).step
    (.produce (.readStart (a := true) rfl List.mem_cons_self))).step
    (.produce (.assign (a := true) rfl rfl))
  have written := ((second.step (.produce (.recordRange (a := true) rfl rfl))).step
    (.produce (.put (a := true) rfl rfl))).step (.produce (.advancePlain (a := true) rfl rfl))
  have fetched := fetch_secondOnly written (fun _ _ => trivial) rfl rfl rfl rfl
  have acknowledged := (((show Machine.Reachable _ _ from fetched).step
    (.produce (.recordRange (a := false) rfl rfl))).step
    (.produce (.put (a := false) rfl (by decide +kernel)))).step
    (.produce (.advancePlain (a := false) rfl rfl))
  refine ⟨_, acknowledged, rfl, by decide +kernel, ?_⟩
  intro batch member
  rcases List.mem_cons.mp member with same | none
  · cases same
  · cases none

/-- The first of the two produces stops before it writes, and the fetch then returns the second batch. -/
theorem fetch_returns_acknowledged_batches_past_gap : ∃ s : State Bool,
    (machine ⟨"t", 0⟩ (fun _ => plainAttempt) ⟨∅, ∅⟩).ReachableWhile NoneInFlight s ∧
    s.log.phase true = .answered (.appended 1) ∧ 1 < s.position ∧
    (1, batchAt (fun _ : Bool => plainAttempt) true 1) ∈ s.returned := by
  have start : (machine ⟨"t", 0⟩ (fun _ : Bool => plainAttempt) ⟨∅, ∅⟩).ReachableWhile NoneInFlight _ := .init rfl
  have first := ((((start.next (.produce (.checkPlain (a := false) rfl rfl)) trivial).next
    (.produce (.ensure (a := false) rfl List.mem_cons_self)) trivial).next
    (.produce (.readStart (a := false) rfl List.mem_cons_self)) trivial).next
    (.produce (.assign (a := false) rfl rfl)) trivial).next (.produce (.stop (a := false) nofun)) trivial
  have second := (((first.next (.produce (.checkPlain (a := true) rfl rfl)) trivial).next
    (.produce (.ensure (a := true) rfl List.mem_cons_self)) trivial).next
    (.produce (.readStart (a := true) rfl List.mem_cons_self)) trivial).next
    (.produce (.assign (a := true) rfl rfl)) trivial
  have written := ((second.next (.produce (.recordRange (a := true) rfl rfl)) trivial).next
    (.produce (.put (a := true) rfl rfl)) trivial).next
    (.produce (.advancePlain (a := true) rfl rfl)) trivial
  have fetched := fetch_secondOnly written ?_ rfl rfl rfl rfl
  · exact ⟨_, fetched, rfl, by decide +kernel,
      (fetch_returns_acknowledged_batches fetched (by simp)).1 true 1 rfl (by decide +kernel)⟩
  · rintro _ (_ | _) <;> try trivial
    rintro _ _ (_ | _) _ (at_ | at_) <;> cases at_

end Overtaken

end Nisshi.Dynostore.Fetch
