import Nisshi.Dynostore.DeleteRecords

/-! What `delete_records` may remove: the log start only rises, an object that is deleted ends below it,
and a fetch from the log start on reads what it would read had nothing been deleted. -/

namespace Nisshi.Dynostore

open Nisshi.Lib Nisshi.SansIo Nisshi.Storage List Option Function

namespace Watermark

def withoutLow (watermark : Watermark) : Watermark :=
  { watermark with low := none }

@[simp]
theorem withoutLow_next (watermark : Watermark) : watermark.withoutLow.next = watermark.next := rfl

theorem recordProducerEpoch_withoutLow (low high : Option Int) (timeIndex : TimeIndex)
    (producerEpochs : Std.ExtTreeMap Int Int) (producerId producerEpoch : Int) :
    (mk none high timeIndex producerEpochs).recordProducerEpoch producerId producerEpoch =
      ((mk low high timeIndex producerEpochs).recordProducerEpoch producerId producerEpoch).withoutLow := by
  unfold recordProducerEpoch
  by_cases held : producerEpoch ≤ 0 ∨ (producerEpochs[producerId]?.any fun newest =>
      newest ≥ producerEpoch) = true
  · conv_rhs => rw [if_pos held]
    exact if_pos held
  · conv_rhs => rw [if_neg held]
    exact if_neg held

theorem assignOffset_withoutLow (deflated : Deflated.Batch) (watermark : Watermark) :
    watermark.withoutLow.assignOffset deflated =
      ((watermark.assignOffset deflated).1.withoutLow, (watermark.assignOffset deflated).2) := by
  unfold assignOffset
  by_cases fenced : ((IdempotentBatch.of deflated).any fun batch =>
      watermark.isFenced batch.producerId batch.producerEpoch) = true
  · rw [if_pos fenced]
    exact if_pos fenced
  · rw [if_neg fenced]
    refine (if_neg fenced).trans ?_
    cases IdempotentBatch.of deflated with
    | none => rfl
    | some => exact congrArg (·, _) (recordProducerEpoch_withoutLow _ _ _ _ _ _)

theorem assignOffset_low (deflated : Deflated.Batch) (watermark : Watermark) :
    (watermark.assignOffset deflated).1.low = watermark.low := by
  unfold assignOffset
  simp only
  split
  · rfl
  · cases IdempotentBatch.of deflated with
    | none => rfl
    | some =>
      simp only [recordProducerEpoch]
      split <;> rfl

end Watermark

namespace Produce

variable {A : Type} {program : A → Attempt} {s t : State A} {earlier : List Watermark}
  {objects : Fetch.Objects}

def State.keeping (s : State A) (earlier : List Watermark) (objects : Fetch.Objects) : State A :=
  { s with watermark := s.watermark.withoutLow, earlierWatermarks := earlier, objects }

/-- `earlier` holds the watermark documents that the log has held, without their log starts. -/
def State.Recalls (s : State A) (earlier : List Watermark) : Prop :=
  ∀ watermark ∈ s.watermark :: s.earlierWatermarks, watermark.withoutLow ∈ s.watermark.withoutLow :: earlier

theorem State.Recalls.setWatermark (recalls : s.Recalls earlier) (watermark : Watermark) :
    (s.setWatermark watermark).Recalls (s.watermark.withoutLow :: earlier) := by
  intro other member
  rcases mem_cons.mp member with rfl | held
  · exact mem_cons_self
  · exact mem_cons_of_mem _ (recalls other held)

theorem or_eq_of_stored {present : Fetch.Objects}
    (stored : ∀ key bytes, present key = some bytes → objects key = some bytes) :
    (fun key => (present key).or (objects key)) = objects := by
  funext key
  cases held : present key with
  | none => rfl
  | some bytes => exact (stored key bytes held).symm

variable [DecidableEq A] {topition : Topition} {action : Action A}

theorem State.keeping_of_objects (same : t.objects = s.objects)
    (stored : ∀ key bytes, s.objects key = some bytes → objects key = some bytes) {action' : Action A}
    (step : Step topition program (s.keeping earlier objects) action' (t.keeping earlier' objects))
    (recalls : t.Recalls earlier') :
    ∃ action' earlier', Step topition program (s.keeping earlier objects) action'
      (t.keeping earlier' fun key => (t.objects key).or (objects key)) ∧ t.Recalls earlier' := by
  rw [same, or_eq_of_stored stored]
  exact ⟨action', earlier', step, recalls⟩

/-- Every step of a produce is one on the log that keeps its objects. -/
theorem Step.keeping (step : Step topition program s action t) (recalls : s.Recalls earlier)
    (stored : ∀ key bytes, s.objects key = some bytes → objects key = some bytes)
    (absent : ∀ a offset, s.phase a = .recorded offset → s.objects (batchPath offset) = none →
      objects (batchPath offset) = none) :
    ∃ action' earlier', Step topition program (s.keeping earlier objects) action'
      (t.keeping earlier' fun key => (t.objects key).or (objects key)) ∧ t.Recalls earlier' := by
  cases step with
  | @put a offset at_ free =>
    have fresh := absent a offset at_ free
    have joined : (fun key => (update s.objects (batchPath offset)
        (some (program a).deflated.toBytes) key).or (objects key)) =
        update objects (batchPath offset) (some (program a).deflated.toBytes) := by
      funext key
      by_cases path : key = batchPath offset
      · subst path
        simp
      · rw [update_of_ne path, update_of_ne path]
        exact congrFun (or_eq_of_stored stored) key
    refine ⟨.put a, earlier, ?_, recalls⟩
    change Step topition program _ _ (State.keeping _ _ fun key => (update s.objects _ _ key).or _)
    rw [joined]
    exact .put at_ fresh
  | putExists at_ present =>
    exact State.keeping_of_objects rfl stored (.putExists at_ (stored _ _ present)) recalls
  | @assign a watermark offset at_ given =>
    have kept := Watermark.assignOffset_withoutLow (program a).deflated s.watermark
    rw [given] at kept
    exact State.keeping_of_objects rfl stored (.assign at_ kept) (recalls.setWatermark watermark)
  | @assignRefused a watermark code at_ refused =>
    have kept := Watermark.assignOffset_withoutLow (program a).deflated s.watermark
    rw [refused] at kept
    exact State.keeping_of_objects rfl stored (.assignRefused at_ kept) (recalls.setWatermark watermark)
  | @readHigh a watermark at_ read =>
    have moved : Step topition program (s.keeping earlier objects) (.readHigh a watermark.withoutLow) _ :=
      .readHigh at_ (recalls watermark read)
    exact State.keeping_of_objects rfl stored moved recalls
  | advanceRefused at_ idempotent refused =>
    exact State.keeping_of_objects rfl stored (.advanceRefused at_ idempotent refused) recalls
  | stop running =>
    exact State.keeping_of_objects rfl stored (.stop running) recalls
  | _ =>
    apply State.keeping_of_objects ?_ stored
    · constructor <;> assumption
    · exact recalls
    · rfl

theorem Assigned.keeping (assigned : Assigned program { s with objects }) (step : Step topition program s action t)
    (stored : ∀ key bytes, s.objects key = some bytes → objects key = some bytes) :
    Assigned program { t with objects := fun key => (t.objects key).or (objects key) } := by
  have recalls : s.Recalls (s.earlierWatermarks.map Watermark.withoutLow) :=
    fun watermark member => mem_map_of_mem member
  have before : Assigned program (s.keeping (s.earlierWatermarks.map Watermark.withoutLow) objects) :=
    assigned.congr rfl rfl rfl rfl
  obtain ⟨_, _, kept, -⟩ := step.keeping recalls stored fun a offset at_ _ =>
    before.absent (by rw [State.keeping, at_]; rfl) (by rw [State.keeping, at_]; rfl)
  exact (before.step kept).congr rfl rfl rfl rfl

theorem Step.low (step : Step topition program s action t) : t.watermark.low = s.watermark.low := by
  cases step with
  | @assign a watermark offset at_ given =>
    have kept := Watermark.assignOffset_low (program a).deflated s.watermark
    rwa [given] at kept
  | @assignRefused a watermark code at_ refused =>
    have kept := Watermark.assignOffset_low (program a).deflated s.watermark
    rwa [refused] at kept
  | _ => rfl

end Produce

namespace Watermark

theorem deleteRecords_cases {watermark : Watermark} (requested : Int) (ordered : watermark.logStart ≤ watermark.next) :
    (∃ code, code ≠ .none ∧ watermark.deleteRecords requested = (watermark, code, -1, watermark.next)) ∨
    ∃ cutoff, watermark.deleteRecords requested =
        ({ watermark with low := some cutoff }, .none, cutoff, watermark.next) ∧
      watermark.logStart ≤ cutoff ∧ cutoff ≤ watermark.next := by
  unfold deleteRecords
  simp only
  split
  next code refused =>
    refine .inl ⟨code, ?_, rfl⟩
    rintro rfl
    unfold deleteRecordsCutoff at refused
    split at refused
    · cases refused
    · split at refused
      · cases refused
      · split at refused <;> cases refused
  next cutoff given => exact .inr ⟨cutoff, rfl, deleteRecordsCutoff_bounds given ordered⟩

end Watermark

namespace DeleteRecords

open Produce (Assigned)

theorem rel_of_mem_zip_tail {offsets : List Int} (sorted : offsets.Pairwise R)
    (member : window ∈ offsets.zip offsets.tail) : window.1 ∈ offsets ∧ window.2 ∈ offsets ∧ R window.1 window.2 := by
  induction offsets with
  | nil => cases member
  | cons _ rest ih =>
    cases rest with
    | nil => cases member
    | cons second =>
      rcases mem_cons.mp member with rfl | later
      · exact ⟨List.mem_cons_self, mem_cons_of_mem _ mem_cons_self, (pairwise_cons.mp sorted).1 second mem_cons_self⟩
      · obtain ⟨inside, inside', related⟩ := ih (pairwise_cons.mp sorted).2 later
        exact ⟨List.mem_cons_of_mem _ inside, mem_cons_of_mem _ inside', related⟩

theorem of_mem_expired {cutoff : Int} (nodup : listed.Nodup) (member : base ∈ expired cutoff highWatermark listed) :
    base ∈ listed ∧ ((∃ next ∈ listed, base < next ∧ next ≤ cutoff) ∨ (highWatermark ≤ cutoff ∧ base < cutoff)) := by
  have perm := perm_insertionSort (· ≤ ·) listed
  have sorted : (listed.insertionSort (· ≤ ·)).Pairwise (· < ·) := by
    have ascending := pairwise_insertionSort (· ≤ ·) listed
    have distinct : (listed.insertionSort (· ≤ ·)).Pairwise (· ≠ ·) := perm.nodup_iff.mpr nodup
    exact ascending.imp₂ (fun _ _ le ne => lt_of_le_of_ne le ne) distinct
  rcases mem_append.mp member with early | last
  · obtain ⟨window, inside, rfl⟩ := mem_map.mp early
    obtain ⟨zipped, below⟩ := mem_filter.mp inside
    obtain ⟨first, second, less⟩ := rel_of_mem_zip_tail sorted zipped
    exact ⟨perm.mem_iff.mp first, .inl ⟨window.2, perm.mem_iff.mp second, less, of_decide_eq_true below⟩⟩
  · split at last
    next high =>
      obtain ⟨inside, below⟩ := mem_filter.mp last
      have found := mem_of_getLast? (mem_toList.mp inside)
      exact ⟨perm.mem_iff.mp found, .inr ⟨high, of_decide_eq_true below⟩⟩
    · cases last

variable {A D : Type} {program : A → Produce.Attempt} {s t : State A D}

/-- `offset` is the end of a batch, or of none: no batch holds it and begins before it. -/
def Boundary (program : A → Produce.Attempt) (s : State A D) (offset : Int) : Prop :=
  ∀ a first, (a, first) ∈ s.log.taken → first < offset → first + (program a).size ≤ offset

/-- What the cleanup of a call knows of the log, from the update of the watermark on. -/
structure Cut (program : A → Produce.Attempt) (s : State A D) (cutoff highWatermark : Int) : Prop where
  start : cutoff ≤ s.log.watermark.logStart
  below : cutoff ≤ highWatermark
  high : highWatermark ≤ s.log.watermark.next
  boundary : Boundary program s highWatermark

def Sound (program : A → Produce.Attempt) (s : State A D) : Phase → Prop
  | .start => True
  | .cut cutoff highWatermark => Cut program s cutoff highWatermark
  | .listing cutoff highWatermark _ listed => Cut program s cutoff highWatermark ∧ listed.Nodup ∧
      ∀ base ∈ listed, 0 ≤ base ∧ (s.stored (batchPath base)).isSome = true
  | .deleting _ expired => ∀ base ∈ expired, ∃ a, (a, base) ∈ s.log.taken ∧
      base + (program a).size ≤ s.log.watermark.logStart
  | .answered _ _ => True

structure Extends (s t : State A D) : Prop where
  taken : ∀ entry ∈ t.log.taken, entry ∈ s.log.taken ∨ s.log.watermark.next ≤ entry.2
  kept : ∀ entry ∈ s.log.taken, entry ∈ t.log.taken
  start : s.log.watermark.logStart ≤ t.log.watermark.logStart
  next : s.log.watermark.next ≤ t.log.watermark.next
  stored : ∀ key, (s.stored key).isSome = true → (t.stored key).isSome = true

theorem Extends.setDeletion [DecidableEq D] (d : D) (phase : Phase) : Extends s (s.setDeletion d phase) where
  taken := fun _ member => .inl member
  kept := fun _ member => member
  start := le_rfl
  next := le_rfl
  stored := fun _ present => present

theorem Cut.extend (cut : Cut program s cutoff highWatermark) (extends_ : Extends s t) :
    Cut program t cutoff highWatermark where
  start := cut.start.trans extends_.start
  below := cut.below
  high := cut.high.trans extends_.next
  boundary := by
    intro a first member below
    rcases extends_.taken _ member with old | new
    · exact cut.boundary a first old below
    · have high := cut.high
      omega

theorem Sound.extend (sound : Sound program s phase) (extends_ : Extends s t) : Sound program t phase := by
  cases phase with
  | start | answered => trivial
  | cut => exact Cut.extend sound extends_
  | listing =>
    obtain ⟨cut, nodup, present⟩ := sound
    exact ⟨cut.extend extends_, nodup, fun base member =>
      ⟨(present base member).1, extends_.stored _ (present base member).2⟩⟩
  | deleting =>
    intro base member
    obtain ⟨a, taken, ends⟩ := sound base member
    exact ⟨a, extends_.kept _ taken, ends.trans extends_.start⟩

/-- The log with every object that was written tiles its offsets, and the log start lies within it. -/
structure Based (program : A → Produce.Attempt) (s : State A D) : Prop where
  assigned : Assigned program { s.log with objects := s.stored }
  stored : ∀ key bytes, s.log.objects key = some bytes → s.stored key = some bytes
  start : ∀ watermark ∈ s.log.watermark :: s.log.earlierWatermarks,
    0 ≤ watermark.logStart ∧ watermark.logStart ≤ s.log.watermark.logStart
  high : s.log.watermark.logStart ≤ s.log.watermark.next

namespace Based

variable (based : Based program s)

include based

theorem isSome_stored (present : (s.log.objects key).isSome = true) : (s.stored key).isSome = true := by
  obtain ⟨bytes, held⟩ := isSome_iff_exists.mp present
  exact isSome_of_eq_some (based.stored _ bytes held)

theorem bounds {a : A} (member : (a, offset) ∈ s.log.taken) :
    0 ≤ offset ∧ offset + (program a).size ≤ s.log.watermark.next := by
  have within := based.assigned.tiled.bounds member
  exact ⟨within.1, within.2.1⟩

theorem of_stored (nonneg : 0 ≤ base) (present : (s.stored (batchPath base)).isSome = true) :
    ∃ a, (a, base) ∈ s.log.taken := by
  obtain ⟨_, held⟩ := isSome_iff_exists.mp present
  obtain ⟨a, _, member, path, -, -⟩ := based.assigned.object _ _ held
  obtain rfl := batchPath_injective nonneg (based.bounds member).1 path
  exact ⟨a, member⟩

theorem content {a : A} (member : (a, offset) ∈ s.log.taken) (present : s.log.objects (batchPath offset) = some bytes) :
    bytes = (program a).deflated.toBytes := by
  obtain ⟨_, _, member', path, same, -⟩ := based.assigned.object _ _ (based.stored _ _ present)
  obtain rfl := batchPath_injective (based.bounds member).1 (based.bounds member').1 path
  obtain rfl := based.assigned.tiled.unique member member'
  exact same

theorem disjoint {a : A} (member : (a, first) ∈ s.log.taken) (member' : (b, second) ∈ s.log.taken)
    (less : first < second) : first + (program a).size ≤ second := by
  have positive := (program b).size_pos
  rcases based.assigned.tiled.eq_or_disjoint member member' with ⟨_, same⟩ | apart | apart
  · omega
  · exact apart
  · omega

theorem produce [DecidableEq A] {topition : Topition} {log : Produce.State A} {action : Produce.Action A}
    (step : Produce.Step topition program s.log action log) :
    Extends s (s.setLog log) ∧ Based program (s.setLog log) := by
  have grows := Fetch.Grows.of_step step
  have low : log.watermark.logStart = s.log.watermark.logStart := by
    rw [Watermark.logStart, step.low, Watermark.logStart]
  constructor
  · exact
      { taken := grows.taken
        kept := grows.kept
        start := low.ge
        next := grows.watermark
        stored := fun key present => by
          rw [State.setLog, isSome_or, present, Bool.or_true] }
  refine ⟨based.assigned.keeping step based.stored, ?stored, ?start, ?high⟩
  case stored =>
    intro key bytes present
    change (log.objects key).or (s.stored key) = some bytes
    rw [show log.objects key = some bytes from present]
    rfl
  case start =>
    intro watermark member
    change _ ∧ _ ≤ log.watermark.logStart
    rw [low]
    rcases mem_cons.mp member with rfl | earlier
    · change 0 ≤ log.watermark.logStart ∧ log.watermark.logStart ≤ _
      rw [low]
      exact ⟨(based.start _ mem_cons_self).1, le_rfl⟩
    · exact based.start _ (grows.watermarks _ earlier)
  case high =>
    change log.watermark.logStart ≤ log.watermark.next
    rw [low]
    exact based.high.trans grows.watermark

theorem setWatermark (watermark : Watermark) (next : watermark.next = s.log.watermark.next)
    (rises : s.log.watermark.logStart ≤ watermark.logStart) (high : watermark.logStart ≤ s.log.watermark.next) :
    Extends s (s.setWatermark watermark) ∧ Based program (s.setWatermark watermark) := by
  constructor
  · exact
      { taken := fun _ member => .inl member
        kept := fun _ member => member
        start := rises
        next := next.ge
        stored := fun _ present => present }
  refine ⟨based.assigned.congr next rfl rfl rfl, based.stored, ?start, high.trans next.ge⟩
  intro other member
  rcases mem_cons.mp member with rfl | held
  · exact ⟨(based.start _ mem_cons_self).1.trans rises, le_rfl⟩
  · obtain ⟨nonneg, le⟩ := based.start other held
    exact ⟨nonneg, le.trans rises⟩

theorem cut [DecidableEq D] {d : D} (requested : Int) :
    Extends s ((s.setWatermark (s.log.watermark.deleteRecords requested).1).setDeletion d
      (.ofCut (s.log.watermark.deleteRecords requested).2)) ∧
    Based program ((s.setWatermark (s.log.watermark.deleteRecords requested).1).setDeletion d
      (.ofCut (s.log.watermark.deleteRecords requested).2)) := by
  rcases Watermark.deleteRecords_cases requested based.high with ⟨_, -, same⟩ | ⟨cutoff, same, rises, high⟩
  · rw [same]
    obtain ⟨extends_, moved⟩ := based.setWatermark s.log.watermark rfl le_rfl based.high
    exact ⟨{ extends_ with }, { moved with }⟩
  · rw [same]
    obtain ⟨extends_, moved⟩ := based.setWatermark
      { s.log.watermark with low := some cutoff } rfl rises high
    exact ⟨{ extends_ with }, { moved with }⟩

theorem deleteObject (key : String) : Based program (s.deleteObject key) :=
  { based with
    stored := by
      intro other bytes present
      change update s.log.objects key none other = some bytes at present
      by_cases path : other = key
      · subst path
        rw [update_self] at present
        cases present
      · rw [update_of_ne path] at present
        exact based.stored other bytes present }

theorem step [DecidableEq A] [DecidableEq D] {requested : D → Int} (step : Step topition program requested s action t) :
    Extends s t ∧ Based program t := by
  have still : ∀ d phase, Extends s (s.setDeletion d phase) ∧ Based program (s.setDeletion d phase) :=
    fun d phase => ⟨.setDeletion d phase, { based with }⟩
  cases step with
  | produce step => exact based.produce step
  | @cut d at_ => exact based.cut (requested d)
  | openListing | list | endListing | failListing | keep | answer => exact still _ _
  | delete base =>
    exact ⟨{ Extends.setDeletion _ _ with }, { based.deleteObject (batchPath base) with }⟩

end Based

variable [DecidableEq A] {topition : Topition} {requested : D → Int} {store : Meta}

/-- The invariant of the partition: without the calls the produces would have reached the same log, with
every object that was written. -/
structure Truncated (topition : Topition) (program : A → Produce.Attempt) (store : Meta)
    (s : State A D) : Prop where
  based : Based program s
  undeleted : ∃ earlier, (Produce.machine topition program store).Reachable
    (s.log.keeping earlier s.stored) ∧ s.log.Recalls earlier
  deleted : ∀ a offset, (a, offset) ∈ s.log.taken → (s.stored (batchPath offset)).isSome = true →
    s.log.objects (batchPath offset) = none → offset + (program a).size ≤ s.log.watermark.logStart
  sound : ∀ d, Sound program s (s.deletion d)

namespace Truncated

variable (truncated : Truncated topition program store s)

include truncated

theorem of_expired {cutoff : Int} (cut : Cut program s cutoff highWatermark) (nodup : listed.Nodup)
    (present : ∀ base ∈ listed, 0 ≤ base ∧ (s.stored (batchPath base)).isSome = true)
    (member : base ∈ expired cutoff highWatermark listed) :
    ∃ a, (a, base) ∈ s.log.taken ∧ base + (program a).size ≤ s.log.watermark.logStart := by
  obtain ⟨inside, reason⟩ := of_mem_expired nodup member
  have batch := fun base member => truncated.based.of_stored (present base member).1 (present base member).2
  obtain ⟨a, taken⟩ := batch base inside
  refine ⟨a, taken, ?_⟩
  have start := cut.start
  rcases reason with ⟨next, listed, less, low⟩ | ⟨high, less⟩
  · obtain ⟨b, taken'⟩ := batch next listed
    have apart := truncated.based.disjoint taken taken' less
    omega
  · have below := cut.below
    have ends := cut.boundary a base taken (by omega)
    omega

theorem sound_at (at_ : s.deletion d = phase) : Sound program s phase :=
  at_ ▸ truncated.sound d

theorem setDeletion [DecidableEq D] {d : D} (sound : Sound program s phase) :
    Truncated topition program store (s.setDeletion d phase) :=
  { truncated with
    based := { truncated.based with }
    sound := (forall_update_iff s.deletion fun _ => Sound program (s.setDeletion d phase)).mpr
      ⟨sound.extend (.setDeletion d phase), fun other _ => (truncated.sound other).extend (.setDeletion d phase)⟩ }

theorem produce {log : Produce.State A} {action : Produce.Action A}
    (step : Produce.Step topition program s.log action log) :
    Truncated topition program store (s.setLog log) := by
  have grows := Fetch.Grows.of_step step
  obtain ⟨extends_, based⟩ := truncated.based.produce step
  obtain ⟨earlier, reached, recalls⟩ := truncated.undeleted
  have assigned := Produce.assigned_of_reachable reached
  obtain ⟨action', earlier', kept, recalls'⟩ := step.keeping recalls truncated.based.stored
    fun a offset at_ _ => assigned.absent (by rw [Produce.State.keeping, at_]; rfl)
      (by rw [Produce.State.keeping, at_]; rfl)
  refine ⟨based, ⟨earlier', reached.step kept, recalls'⟩, ?deleted, fun d => (truncated.sound d).extend extends_⟩
  intro a offset member present gone
  refine le_trans ?_ extends_.start
  change ((log.objects _).or (s.stored _)).isSome = true at present
  change log.objects _ = none at gone
  rw [gone] at present
  have absent : s.log.objects (batchPath offset) = none := by
    cases held : s.log.objects (batchPath offset) with
    | none => rfl
    | some => rw [grows.objects _ _ held] at gone; cases gone
  rcases grows.taken _ member with old | new
  · exact truncated.deleted a offset old present absent
  · obtain ⟨b, old⟩ := truncated.based.of_stored (based.bounds member).1 present
    have within := (truncated.based.bounds old).2
    have positive := (program b).size_pos
    omega

theorem setWatermark (watermark : Watermark) (same : watermark.withoutLow = s.log.watermark.withoutLow)
    (rises : s.log.watermark.logStart ≤ watermark.logStart) (high : watermark.logStart ≤ s.log.watermark.next) :
    Truncated topition program store (s.setWatermark watermark) := by
  have next : watermark.next = s.log.watermark.next := by
    rw [← Watermark.withoutLow_next, same, Watermark.withoutLow_next]
  obtain ⟨extends_, based⟩ := truncated.based.setWatermark watermark next rises high
  obtain ⟨earlier, reached, recalls⟩ := truncated.undeleted
  refine ⟨based, ⟨earlier, ?_, ?_⟩, ?deleted, fun d => (truncated.sound d).extend extends_⟩
  · change (Produce.machine topition program store).Reachable
      { s.log with watermark := watermark.withoutLow, earlierWatermarks := earlier, objects := s.stored }
    rw [same]
    exact reached
  · intro other member
    change other.withoutLow ∈ watermark.withoutLow :: earlier
    rw [same]
    rcases mem_cons.mp member with rfl | held
    · exact mem_cons.mpr (.inl same)
    · exact recalls other held
  case deleted =>
    intro a offset member present gone
    exact (truncated.deleted a offset member present gone).trans rises

theorem cut [DecidableEq D] {d : D} (requested : Int) : Truncated topition program store
      ((s.setWatermark (s.log.watermark.deleteRecords requested).1).setDeletion d
        (.ofCut (s.log.watermark.deleteRecords requested).2)) := by
  rcases Watermark.deleteRecords_cases requested truncated.based.high with
    ⟨code, refused, same⟩ | ⟨cutoff, same, rises, high⟩
  · rw [same]
    have moved := truncated.setWatermark s.log.watermark rfl le_rfl truncated.based.high
    refine moved.setDeletion ?_
    rw [Phase.ofCut]
    · trivial
    · exact fun same => refused same
  · rw [same]
    have moved := truncated.setWatermark { s.log.watermark with low := some cutoff } rfl rises high
    refine moved.setDeletion ?_
    change Sound _ _ (if cutoff ≤ 0 then .answered .none cutoff else .cut cutoff s.log.watermark.next)
    split
    · trivial
    · exact
        { start := le_rfl
          below := high
          high := le_rfl
          boundary := fun a first member _ => (truncated.based.bounds member).2 }

theorem deleteObject {a : A} (member : (a, base) ∈ s.log.taken)
    (ends : base + (program a).size ≤ s.log.watermark.logStart) :
    Truncated topition program store (s.deleteObject (batchPath base)) where
  based := truncated.based.deleteObject _
  undeleted := truncated.undeleted
  deleted := by
    intro b offset member' present gone
    by_cases path : batchPath offset = batchPath base
    · obtain rfl := batchPath_injective (truncated.based.bounds member').1 (truncated.based.bounds member).1 path
      obtain rfl := truncated.based.assigned.tiled.unique member member'
      exact ends
    · change update s.log.objects (batchPath base) none (batchPath offset) = none at gone
      rw [update_of_ne path] at gone
      exact truncated.deleted b offset member' present gone
  sound := fun d => (truncated.sound d).extend
    { taken := fun _ member => .inl member
      kept := fun _ member => member
      start := le_rfl
      next := le_rfl
      stored := fun _ present => present }

theorem step [DecidableEq D] (step : Step topition program requested s action t) :
    Truncated topition program store t := by
  cases step with
  | produce step => exact truncated.produce step
  | @cut d at_ => exact truncated.cut (requested d)
  | @openListing d cutoff highWatermark at_ =>
    have sound := truncated.sound_at at_
    exact truncated.setDeletion ⟨sound, nodup_nil, nofun⟩
  | @list d cutoff highWatermark atStart listed base at_ nonneg fresh present =>
    obtain ⟨cut, nodup, named⟩ := truncated.sound_at at_
    refine truncated.setDeletion ⟨cut, nodup_cons.mpr ⟨fresh, nodup⟩, fun other member => ?_⟩
    rcases mem_cons.mp member with rfl | earlier
    · exact ⟨nonneg, truncated.based.isSome_stored present⟩
    · exact named other earlier
  | @endListing d cutoff highWatermark atStart listed at_ complete =>
    obtain ⟨cut, nodup, named⟩ := truncated.sound_at at_
    exact truncated.setDeletion fun base member => truncated.of_expired cut nodup named member
  | failListing | answer => exact truncated.setDeletion trivial
  | @delete d cutoff expired base at_ member =>
    have sound := truncated.sound_at at_
    obtain ⟨_, taken, ends⟩ := sound base member
    exact (truncated.deleteObject taken ends).setDeletion
      fun other member => sound other (mem_of_mem_erase member)
  | @keep d cutoff expired base at_ member =>
    have sound := truncated.sound_at at_
    exact truncated.setDeletion fun other member => sound other (mem_of_mem_erase member)

end Truncated

theorem truncated_start : Truncated topition program store (State.start store : State A D) where
  based :=
    { assigned := Produce.assigned_start store
      stored := nofun
      start := by
        intro watermark member
        obtain rfl := mem_singleton.mp member
        exact ⟨le_rfl, le_rfl⟩
      high := le_rfl }
  undeleted := by
    refine ⟨[], .init ?_, ?_⟩
    · rfl
    · intro watermark member
      obtain rfl := mem_singleton.mp member
      exact mem_singleton_self _
  deleted := nofun
  sound := fun _ => trivial

variable [DecidableEq D]

theorem truncated_of_reachable (reached : (machine topition program requested store).Reachable s) :
    Truncated topition program store s :=
  reached.invariant (by rintro _ rfl; exact truncated_start)
    (fun _ _ _ truncated step => truncated.step step)

theorem Truncated.of_removed (truncated : Truncated topition program store s)
    (step : Step topition program requested s action t) {key : String} (present : s.log.objects key = some bytes)
    (removed : t.log.objects key = none) :
    ∃ a offset, (a, offset) ∈ s.log.taken ∧ key = batchPath offset ∧ bytes = (program a).deflated.toBytes ∧
      offset + (program a).size ≤ s.log.watermark.logStart := by
  cases step with
  | produce step =>
    have kept := (Fetch.Grows.of_step step).objects key bytes present
    exact nomatch removed.symm.trans kept
  | @delete d cutoff expired base at_ member =>
    have sound := truncated.sound_at at_
    obtain ⟨a, taken, ends⟩ := sound base member
    change update s.log.objects (batchPath base) none key = none at removed
    by_cases path : key = batchPath base
    · subst path
      exact ⟨a, base, taken, rfl, truncated.based.content taken present, ends⟩
    · rw [update_of_ne path, present] at removed
      cases removed
  | _ => exact nomatch removed.symm.trans present

end DeleteRecords

namespace Fetch

open Produce (Assigned)

variable {A : Type} {program : A → Produce.Attempt} {objects : Objects} {u : Produce.State A}

def batchesOf (program : A → Produce.Attempt) (objects : Objects) (taken : List (A × Int)) :
    List (Int × Deflated.Batch) :=
  taken.filterMap fun entry =>
    if (objects (batchPath entry.2)).isSome then some (entry.2, (program entry.1).deflated) else none

theorem mem_batchesOf {taken : List (A × Int)} : entry ∈ batchesOf program objects taken ↔ ∃ a, (a, entry.1) ∈ taken ∧
      (objects (batchPath entry.1)).isSome = true ∧ entry.2 = (program a).deflated := by
  unfold batchesOf
  rw [mem_filterMap]
  constructor
  · rintro ⟨⟨a, _⟩, member, found⟩
    split at found
    next present =>
      cases found
      exact ⟨a, member, present, rfl⟩
    · cases found
  · rintro ⟨a, member, present, same⟩
    exact ⟨(a, entry.1), member, by rw [if_pos present, ← same]⟩

theorem holds_batchesOf (assigned : Assigned program u)
    (kept : ∀ key bytes, objects key = some bytes → u.objects key = some bytes) :
    Holds objects (batchesOf program objects u.taken) where
  disjoint := by
    unfold batchesOf
    rw [pairwise_filterMap]
    refine assigned.tiled.ordered.imp ?_
    rintro ⟨a, first⟩ ⟨b, second⟩ apart _ mine _ yours
    split at mine <;> cases mine
    split at yours <;> cases yours
    simp only [lastOffset, Produce.Attempt.size, Produce.Attempt.delta] at apart ⊢
    omega
  base := by
    intro entry member
    obtain ⟨_, taken, -, -⟩ := mem_batchesOf.mp member
    exact (assigned.tiled.bounds taken).1
  delta := by
    intro entry member
    obtain ⟨a, -, -, same⟩ := mem_batchesOf.mp member
    rw [same]
    exact (program a).delta_nonneg
  object := by
    intro entry member
    obtain ⟨a, taken, present, same⟩ := mem_batchesOf.mp member
    obtain ⟨bytes, held⟩ := isSome_iff_exists.mp present
    obtain ⟨_, _, taken', path, content, -⟩ := assigned.object _ _ (kept _ _ held)
    obtain rfl := batchPath_injective (assigned.tiled.bounds taken).1 (assigned.tiled.bounds taken').1 path
    obtain rfl := assigned.tiled.unique taken taken'
    refine ⟨bytes, [], held, ?_⟩
    rw [content, same]
    exact (Deflated.Batch.reads_tryFrom (program a).deflated).all

theorem lists_batchesOf (assigned : Assigned program u)
    (kept : ∀ key bytes, objects key = some bytes → u.objects key = some bytes) {start : Int}
    (names : Listed objects start listed) : Lists (batchesOf program objects u.taken) start listed := by
  have holds := holds_batchesOf assigned kept
  refine (perm_ext_iff_of_nodup names.nodup (holds.bases_sorted.imp ne_of_lt |>.filter _)).mpr ?_
  intro base
  rw [names.named, mem_filter, List.mem_map, decide_eq_true_eq]
  constructor
  · rintro ⟨nonneg, low, present⟩
    obtain ⟨_, held⟩ := isSome_iff_exists.mp present
    obtain ⟨a, _, taken, path, -, -⟩ := assigned.object _ _ (kept _ _ held)
    obtain rfl := batchPath_injective nonneg (assigned.tiled.bounds taken).1 path
    exact ⟨⟨(base, (program a).deflated), mem_batchesOf.mpr ⟨a, taken, present, rfl⟩, rfl⟩, low⟩
  · rintro ⟨⟨_, member, rfl⟩, low⟩
    obtain ⟨_, taken, present, -⟩ := mem_batchesOf.mp member
    exact ⟨(assigned.tiled.bounds taken).1, low, present⟩

/-- Whether the log start has moved up to the fetch offset makes no difference to the bounds, or leaves
nothing to fetch. -/
theorem Bounds.ofStage_withoutLow {watermark : Watermark} {offset : Int}
    (nonneg : 0 ≤ watermark.logStart) (start : watermark.logStart ≤ offset)
    (openTransactionStart : Option Int) (isolationLevel : IsolationLevel) (maxBytes : Nat) :
    Bounds.ofStage (watermark.withoutLow.offsetStage openTransactionStart) isolationLevel offset maxBytes =
        .ofStage (watermark.offsetStage openTransactionStart) isolationLevel offset maxBytes ∨
      (Bounds.ofStage (watermark.withoutLow.offsetStage openTransactionStart) isolationLevel offset
          maxBytes).highWatermark ≤ offset ∧
        (Bounds.ofStage (watermark.offsetStage openTransactionStart) isolationLevel offset
          maxBytes).highWatermark ≤ offset := by
  cases isolationLevel with
  | readUncommitted => exact .inl rfl
  | readCommitted =>
    have last : ∀ stable : Int, max stable 0 = max stable watermark.logStart ∨
        max stable 0 ≤ offset ∧ max stable watermark.logStart ≤ offset := by
      omega
    rcases last (min (openTransactionStart.getD watermark.next) watermark.next) with same | below
    · exact .inl (congrArg (Bounds.mk offset maxBytes) same)
    · exact .inr below

end Fetch

namespace DeleteRecords

variable {A D : Type} [DecidableEq A] [DecidableEq D] {program : A → Produce.Attempt} {s : State A D}
  {topition : Topition} {requested : D → Int} {store : Meta}

omit [DecidableEq D] in
theorem Truncated.remaining_eq (truncated : Truncated topition program store s) {bounds : Fetch.Bounds}
    (start : s.log.watermark.logStart ≤ bounds.offset) (bytes : Nat) :
    Fetch.remaining bounds bytes (Fetch.batchesOf program s.log.objects s.log.taken) =
      Fetch.remaining bounds bytes (Fetch.batchesOf program s.stored s.log.taken) := by
  unfold Fetch.remaining Fetch.batchesOf
  rw [List.filter_filterMap, List.filter_filterMap]
  congr 2
  apply List.filterMap_congr
  rintro ⟨a, offset⟩ member
  cases held : s.log.objects (batchPath offset) with
  | some => simp [truncated.based.stored _ _ held]
  | none =>
    cases stored : s.stored (batchPath offset) with
    | none => rfl
    | some bytes =>
      have ends := truncated.deleted a offset member (by rw [stored]; rfl) held
      have early : Fetch.inRange bounds (offset, (program a).deflated) = false := by
        have below : ¬bounds.offset ≤ Fetch.lastOffset (offset, (program a).deflated) := by
          simp only [Produce.Attempt.size, Produce.Attempt.delta] at ends
          simp only [Fetch.lastOffset]
          omega
        simp [Fetch.inRange, below]
      simp [Option.filter, early]

omit [DecidableEq D] in
theorem Truncated.fetch_eq (truncated : Truncated topition program store s) {watermark : Watermark}
    (read : watermark ∈ s.log.watermark :: s.log.earlierWatermarks) {offset : Int}
    (start : s.log.watermark.logStart ≤ offset) (openTransactionStart : Option Int)
    (isolationLevel : IsolationLevel) (maxBytes : Nat) {near near' : Int → List Int}
    {full full' : List Int} (nearby : ∀ start, Fetch.Listed s.log.objects start (near start))
    (whole : Fetch.Listed s.log.objects 0 full) (nearby' : ∀ start, Fetch.Listed s.stored start (near' start))
    (whole' : Fetch.Listed s.stored 0 full') :
    Fetch.fetch s.log.objects near full
        (.ofStage (watermark.offsetStage openTransactionStart) isolationLevel offset maxBytes) =
      Fetch.fetch s.stored near' full'
        (.ofStage (watermark.withoutLow.offsetStage openTransactionStart) isolationLevel offset
          maxBytes) := by
  have assigned := truncated.based.assigned
  have stored := truncated.based.stored
  have kept : ∀ key bytes, s.stored key = some bytes → s.stored key = some bytes := fun _ _ present => present
  obtain ⟨nonneg, below⟩ := truncated.based.start watermark read
  rw [Fetch.fetch_eq (Fetch.holds_batchesOf assigned stored)
      (fun start => Fetch.lists_batchesOf assigned stored (nearby start))
      (Fetch.lists_batchesOf assigned stored whole),
    Fetch.fetch_eq (Fetch.holds_batchesOf assigned kept)
      (fun start => Fetch.lists_batchesOf assigned kept (nearby' start))
      (Fetch.lists_batchesOf assigned kept whole')]
  rcases Fetch.Bounds.ofStage_withoutLow nonneg (below.trans start) openTransactionStart isolationLevel
    maxBytes with same | ⟨low, low'⟩
  · rw [same]
    congr 2
    exact truncated.remaining_eq start _
  · exact (congrArg Except.ok (if_pos low')).trans (congrArg Except.ok (if_pos low)).symm

/-- The log start never falls and never passes the high watermark. An object that is removed is that of a
batch whose offsets are all below the log start. The same produces without any call reach a log that
differs only in its log start and in the objects that were deleted, and a fetch from the log start on
returns the same from both, on every watermark document that it may have read. -/
theorem deleteRecords_removes_only_below_log_start
    (reached : (machine topition program requested store).Reachable s) :
    (0 ≤ s.log.watermark.logStart ∧ s.log.watermark.logStart ≤ s.log.watermark.next) ∧
    (∀ action t, Step topition program requested s action t → s.log.watermark.logStart ≤ t.log.watermark.logStart ∧
      ∀ key bytes, s.log.objects key = some bytes → t.log.objects key = none →
        ∃ a offset, (a, offset) ∈ s.log.taken ∧ key = batchPath offset ∧ bytes = (program a).deflated.toBytes ∧
          offset + (program a).size ≤ s.log.watermark.logStart) ∧
    ∃ earlier, (Produce.machine topition program store).Reachable (s.log.keeping earlier s.stored) ∧
      ∀ watermark ∈ s.log.watermark :: s.log.earlierWatermarks,
        watermark.withoutLow ∈ s.log.watermark.withoutLow :: earlier ∧
        ∀ openTransactionStart isolationLevel offset maxBytes near full near' full', s.log.watermark.logStart ≤ offset →
          (∀ start, Fetch.Listed s.log.objects start (near start)) → Fetch.Listed s.log.objects 0 full →
          (∀ start, Fetch.Listed s.stored start (near' start)) → Fetch.Listed s.stored 0 full' →
          Fetch.fetch s.log.objects near full
              (.ofStage (watermark.offsetStage openTransactionStart) isolationLevel offset maxBytes) =
            Fetch.fetch s.stored near' full'
              (.ofStage (watermark.withoutLow.offsetStage openTransactionStart) isolationLevel offset
                maxBytes) := by
  have truncated := truncated_of_reachable reached
  obtain ⟨earlier, undeleted, recalls⟩ := truncated.undeleted
  refine ⟨⟨(truncated.based.start _ mem_cons_self).1, truncated.based.high⟩, fun action t step => ?_,
    earlier, undeleted, fun watermark read => ⟨recalls watermark read, ?_⟩⟩
  · exact ⟨(truncated.based.step step).1.start,
      fun key bytes present removed => truncated.of_removed step present removed⟩
  · intro openTransactionStart isolationLevel offset maxBytes near full near' full' start
    exact truncated.fetch_eq read start openTransactionStart isolationLevel maxBytes

section Cleanup

open Produce (plainAttempt)

theorem batchPath_zero_ne_one : batchPath 0 ≠ batchPath 1 := fun same =>
  absurd (batchPath_injective (le_refl 0) (by decide) same) (by decide)

theorem reachable_two_batches : ∃ s : State Bool Unit,
    (machine ⟨"t", 0⟩ (fun _ => plainAttempt) (fun _ => 1) ⟨∅, ∅⟩).Reachable s ∧
    s.log.objects = Function.update (Function.update (fun _ => none) (batchPath 0)
      (some plainAttempt.deflated.toBytes)) (batchPath 1) (some plainAttempt.deflated.toBytes) ∧
    s.log.watermark.low = none ∧ s.log.watermark.next = 2 ∧ s.deletion () = .start := by
  have start : (machine ⟨"t", 0⟩ (fun _ : Bool => plainAttempt) (fun _ : Unit => 1) ⟨∅, ∅⟩).Reachable _ := .init rfl
  have first := (((((start.step (.produce (.checkPlain (a := false) rfl rfl))).step
    (.produce (.ensure (a := false) rfl mem_cons_self))).step
    (.produce (.readStart (a := false) rfl mem_cons_self))).step
    (.produce (.assign (a := false) rfl rfl))).step
    (.produce (.recordRange (a := false) rfl rfl))).step (.produce (.put (a := false) rfl rfl))
  have second := (((((first.step (.produce (.checkPlain (a := true) rfl rfl))).step
    (.produce (.ensure (a := true) rfl mem_cons_self))).step
    (.produce (.readStart (a := true) rfl mem_cons_self))).step
    (.produce (.assign (a := true) rfl rfl))).step
    (.produce (.recordRange (a := true) rfl rfl))).step
    (.produce (.put (a := true) rfl (update_of_ne batchPath_zero_ne_one.symm ..)))
  exact ⟨_, second, rfl, rfl, rfl, rfl⟩

/-- Two plain batches and a call with offset 1: the cleanup deletes the object of the first batch. -/
theorem deleteRecords_removes_only_below_log_start_first : ∃ s t : State Bool Unit,
    (machine ⟨"t", 0⟩ (fun _ => plainAttempt) (fun _ => 1) ⟨∅, ∅⟩).Reachable s ∧
    Step ⟨"t", 0⟩ (fun _ => plainAttempt) (fun _ => 1) s (.delete () 0) t ∧
    t.log.objects (batchPath 0) = none ∧ s.log.watermark.logStart = 1 ∧
    ∃ a offset, (a, offset) ∈ s.log.taken ∧ batchPath 0 = batchPath offset ∧
      s.log.objects (batchPath 0) = some plainAttempt.deflated.toBytes ∧
      offset + plainAttempt.size ≤ s.log.watermark.logStart := by
  obtain ⟨s, reached, objects, low, next, at_⟩ := reachable_two_batches
  have first : s.log.objects (batchPath 0) = some plainAttempt.deflated.toBytes := by
    rw [objects, update_of_ne batchPath_zero_ne_one, update_self]
  have second : s.log.objects (batchPath 1) = some plainAttempt.deflated.toBytes := by
    rw [objects, update_self]
  have moved : s.log.watermark.deleteRecords 1 = ({ s.log.watermark with low := some 1 }, .none, 1, 2) := by
    simp [Watermark.deleteRecords, deleteRecordsCutoff, Watermark.logStart, low, next]
  have cut := reached.step (.cut at_)
  rw [moved] at cut
  have listed := ((cut.step (.openListing (d := ()) rfl)).step
    (.list (d := ()) 0 rfl (by decide) (by decide) (isSome_of_eq_some first))).step
    (.list (d := ()) 1 rfl (by decide) (by decide) (isSome_of_eq_some second))
  have ended := listed.step (.endListing (d := ()) rfl (by
    intro base nonneg present _
    by_cases one : base = 1
    · exact one ▸ mem_cons_self
    by_cases zero : base = 0
    · exact zero ▸ mem_cons_of_mem _ mem_cons_self
    have absent : s.log.objects (batchPath base) = none := by
      rw [objects, update_of_ne fun same => one (batchPath_injective nonneg (by decide) same),
        update_of_ne fun same => zero (batchPath_injective nonneg (by decide) same)]
    exact nomatch absent.symm.trans (eq_some_of_isSome present)))
  refine ⟨_, _, ended, .delete 0 rfl (by decide), update_self .., rfl, ?_⟩
  obtain ⟨a, offset, taken, path, -, ends⟩ := ((deleteRecords_removes_only_below_log_start ended).2.1 _ _
    (.delete (d := ()) 0 rfl (by decide))).2 _ _ first (update_self ..)
  exact ⟨a, offset, taken, path, first, ends⟩

end Cleanup

end DeleteRecords

end Nisshi.Dynostore
