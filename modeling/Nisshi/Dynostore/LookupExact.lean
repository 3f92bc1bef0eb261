import Nisshi.Dynostore.IndexGuarantee

/-! The answers of `DynoStore::timestamp_lookup`: the lowest record at or after the target, among the records of
the stored batches from the log start on. -/

namespace Nisshi.Dynostore.Lookup

open Nisshi.Lib Nisshi.SansIo List Option Function
open DeleteRecords (Based)

/-! The scan, over the records in the order of their offsets. -/

def recordsAt (codec : Codec) (objects : Fetch.Objects) (baseOffset : Int) : List (Int × Int64) :=
  match (objects (batchPath baseOffset)).bind fun bytes => (Deflated.Batch.tryFrom bytes).bind fun read =>
      Inflated.Batch.tryFrom codec read.1 with
  | none => []
  | some inflated => inflated.records.map fun record =>
      (baseOffset + record.offsetDelta.toInt, inflated.recordTimestamp record)

def qualifies (target low : Int) (record : Int × Int64) : Bool :=
  low ≤ record.1 && target ≤ record.2.toInt

def Readable (codec : Codec) (objects : Fetch.Objects) (baseOffset : Int) : Prop :=
  ∀ bytes, objects (batchPath baseOffset) = some bytes →
    ((Deflated.Batch.tryFrom bytes).bind fun read => Inflated.Batch.tryFrom codec read.1).isSome = true

variable {codec : Codec} {objects : Fetch.Objects} {target low : Int}

theorem sequentialTimestampScan_eq (readable : ∀ base ∈ bases, Readable codec objects base) :
    sequentialTimestampScan codec objects target low bases =
      .ok ((bases.flatMap (recordsAt codec objects)).find? (qualifies target low)) := by
  induction bases with
  | nil => rfl
  | cons base _ ih =>
    have later := ih fun other member => readable other (mem_cons_of_mem _ member)
    have mine := readable base mem_cons_self
    rw [sequentialTimestampScan, flatMap_cons, find?_append, recordsAt]
    cases present : objects (batchPath base) with
    | none => simpa using later
    | some bytes =>
      obtain ⟨inflated, decoded⟩ := isSome_iff_exists.mp (mine bytes present)
      simp only [bind_some, decoded, find?_map]
      have same : (fun record => decide (low ≤ base + record.offsetDelta.toInt) &&
          decide (target ≤ (inflated.recordTimestamp record).toInt)) = qualifies target low ∘ fun record =>
          (base + record.offsetDelta.toInt, inflated.recordTimestamp record) := rfl
      rw [same]
      cases inflated.records.find? (qualifies target low ∘ fun record =>
          (base + record.offsetDelta.toInt, inflated.recordTimestamp record)) with
      | none => simpa using later
      | some record => rfl

theorem le_of_find?_eq_some {records : List (Int × Int64)} {p : Int × Int64 → Bool}
    (ascends : records.Pairwise fun first second => first.1 < second.1) (first : records.find? p = some found)
    (member : other ∈ records) (has : p other = true) : found.1 ≤ other.1 := by
  obtain ⟨-, _, _, rfl, none⟩ := find?_eq_some_iff_append.mp first
  rcases mem_append.mp member with earlier | later
  · have not := none other earlier
    rw [has] at not
    cases not
  · rcases mem_cons.mp later with rfl | later
    · exact le_rfl
    · exact ((pairwise_cons.mp (pairwise_append.mp ascends).2.1).1 other later).le

/-! What an answer has to be. -/

def StoredRecord (codec : Codec) (objects : Fetch.Objects) (record : Int × Int64) : Prop :=
  ∃ base, 0 ≤ base ∧ record ∈ recordsAt codec objects base

def Exact (codec : Codec) (objects : Fetch.Objects) (target low : Int) : Except ErrorCode (Option (Int × Int64)) → Prop
  | .error _ => False
  | .ok none => ∀ record, StoredRecord codec objects record → qualifies target low record = false
  | .ok (some found) => StoredRecord codec objects found ∧ qualifies target low found = true ∧
      ∀ record, StoredRecord codec objects record → qualifies target low record = true → found.1 ≤ record.1

structure Recorded (codec : Codec) (batch : Deflated.Batch) (inflated : Inflated.Batch) : Prop where
  inflates : Inflated.Batch.tryFrom codec batch = some inflated
  ascends : inflated.records.Pairwise fun first second => first.offsetDelta.toInt < second.offsetDelta.toInt
  within : ∀ record ∈ inflated.records,
    0 ≤ record.offsetDelta.toInt ∧ record.offsetDelta.toInt ≤ batch.lastOffsetDelta.toInt

theorem le_foldl_max (values : List Int) (first : Int) :
    first ≤ values.foldl max first ∧ ∀ value ∈ values, value ≤ values.foldl max first := by
  induction values generalizing first with
  | nil => exact ⟨le_rfl, nofun⟩
  | cons value _ ih =>
    obtain ⟨start, others⟩ := ih (max first value)
    refine ⟨(le_max_left ..).trans start, fun other member => ?_⟩
    rcases mem_cons.mp member with rfl | later
    · exact (le_max_right ..).trans start
    · exact others other later

theorem recordTimestamp_le_max (inflated : Inflated.Batch) (member : record ∈ inflated.records) :
    (inflated.recordTimestamp record).toInt ≤ inflated.maxRecordTimestamp := by
  unfold Inflated.Batch.maxRecordTimestamp
  cases kind : TimestampType.from inflated.attributes with
  | logAppendTime =>
    simp only [Inflated.Batch.recordTimestamp, kind]
    exact le_rfl
  | createTime => exact (le_foldl_max _ _).2 _ (mem_map_of_mem member)

variable {A D L : Type} {program : A → Produce.Attempt} {s t : State A D L} {a : A} {base : Int}

section

variable (based : Based program s.partition)

include based

theorem recordsAt_eq (member : (a, base) ∈ s.log.taken)
    (present : (s.log.objects (batchPath base)).isSome = true)
    (recorded : Recorded codec (program a).deflated inflated) :
    recordsAt codec s.log.objects base = inflated.records.map fun record =>
      (base + record.offsetDelta.toInt, inflated.recordTimestamp record) := by
  obtain ⟨_, held⟩ := isSome_iff_exists.mp present
  have content := based.content member held
  rw [recordsAt, held, content, bind_some, (Deflated.Batch.reads_tryFrom (program a).deflated).all,
    bind_some, recorded.inflates]

variable (recorded : ∀ a, ∃ inflated, Recorded codec (program a).deflated inflated)

include recorded

theorem of_mem_recordsAt (nonneg : 0 ≤ base) (stored : record ∈ recordsAt codec s.log.objects base) :
    ∃ a, (a, base) ∈ s.log.taken ∧ (s.log.objects (batchPath base)).isSome = true ∧
      base ≤ record.1 ∧ record.1 < base + (program a).size ∧ record.2.toInt ≤ stamp codec program (a, base) := by
  have present : (s.log.objects (batchPath base)).isSome = true := by
    cases absent : s.log.objects (batchPath base) with
    | some => rfl
    | none =>
      rw [recordsAt, absent] at stored
      cases stored
  obtain ⟨bytes, held⟩ := isSome_iff_exists.mp present
  obtain ⟨a, member⟩ := based.of_stored nonneg (isSome_iff_exists.mpr ⟨bytes, based.stored _ _ held⟩)
  obtain ⟨inflated, recorded⟩ := recorded a
  rw [recordsAt_eq based member present recorded] at stored
  obtain ⟨record, inside, rfl⟩ := mem_map.mp stored
  obtain ⟨low, high⟩ := recorded.within record inside
  refine ⟨a, member, present, le_add_of_nonneg_right low, ?_, ?_⟩
  · unfold Produce.Attempt.size Produce.Attempt.delta
    omega
  · rw [stamp, maxRecordTimestamp, recorded.inflates]
    exact recordTimestamp_le_max inflated inside

theorem flatMap_recordsAt_ascends {bases : List Int} (nonneg : ∀ base ∈ bases, 0 ≤ base)
    (ascends : bases.Pairwise (· < ·)) :
    (bases.flatMap (recordsAt codec s.log.objects)).Pairwise fun first second => first.1 < second.1 := by
  refine pairwise_flatMap.mpr ⟨fun base listed => ?_, ascends.imp_of_mem ?_⟩
  · rcases eq_none_or_eq_some (s.log.objects (batchPath base)) with absent | ⟨bytes, held⟩
    · rw [recordsAt, absent]
      exact .nil
    · obtain ⟨a, member⟩ := based.of_stored (nonneg base listed)
        (isSome_iff_exists.mpr ⟨bytes, based.stored _ _ held⟩)
      obtain ⟨_, recorded⟩ := recorded a
      rw [recordsAt_eq based member (isSome_iff_exists.mpr ⟨bytes, held⟩) recorded, pairwise_map]
      exact recorded.ascends.imp fun less => Int.add_lt_add_left less base
  · intro first second listed listed' less record stored other stored'
    obtain ⟨_, member, -, -, below, -⟩ := of_mem_recordsAt based recorded (nonneg first listed) stored
    obtain ⟨_, member', -, above, -, -⟩ := of_mem_recordsAt based recorded (nonneg second listed') stored'
    exact lt_of_lt_of_le below ((based.disjoint member member' less).trans above)

theorem readable_of_nonneg (nonneg : 0 ≤ base) : Readable codec s.log.objects base := by
  intro bytes held
  obtain ⟨a, member⟩ := based.of_stored nonneg (isSome_iff_exists.mpr ⟨bytes, based.stored _ _ held⟩)
  obtain ⟨_, recorded⟩ := recorded a
  rw [based.content member held, (Deflated.Batch.reads_tryFrom (program a).deflated).all, bind_some, recorded.inflates]
  rfl

theorem reaches_qualifying (seen : ∀ batch, Counts .stored program s batch → Seen codec program index batch)
    (nonneg : 0 ≤ base)
    (stored : record ∈ recordsAt codec s.log.objects base)
    (qualified : qualifies target s.log.watermark.logStart record = true) :
    target ≤ index.maxTimestamp ∧ index.floorOffset target ≤ base := by
  obtain ⟨low, high⟩ := Bool.and_eq_true_iff.mp qualified
  have low := of_decide_eq_true low
  have high := of_decide_eq_true high
  obtain ⟨a, member, present, -, below, most⟩ := of_mem_recordsAt based recorded nonneg stored
  have counted : Seen codec program index (a, base) :=
    seen (a, base) ⟨⟨member, .inl present⟩, lt_of_le_of_lt low below⟩
  refine ⟨(high.trans most).trans counted.max, ?_⟩
  rcases index.floorOffset_cases target with floor | ⟨timestamp, entry, before⟩
  · rw [floor]
    exact nonneg
  · by_contra after
    have above := counted.entries timestamp _ entry (not_le.mp after)
    omega

theorem answer_exact (seen : ∀ batch, Counts .stored program s batch → Seen codec program index batch)
    (lists : ∀ start, Fetch.Listed s.log.objects start (near start))
    (ascends : ∀ start, (near start).Pairwise (· < ·)) (epoch : 0 ≤ request.target) (all : request.lastStable = none) :
    Exact codec s.log.objects request.target s.log.watermark.logStart
      (answer codec s.log.objects near request index s.log.watermark.logStart) := by
  have nonneg : ∀ base ∈ near (index.floorOffset request.target), 0 ≤ base :=
    fun base listed => (((lists _).named base).mp listed).1
  have listed {base : Int} (nonneg : 0 ≤ base) {record : Int × Int64}
      (stored : record ∈ recordsAt codec s.log.objects base)
      (qualified : qualifies request.target s.log.watermark.logStart record = true) :
      record ∈ (near (index.floorOffset request.target)).flatMap (recordsAt codec s.log.objects) := by
    obtain ⟨-, -, present, -⟩ := of_mem_recordsAt based recorded nonneg stored
    have floor := (reaches_qualifying based recorded seen nonneg stored qualified).2
    exact mem_flatMap.mpr ⟨base, ((lists _).named base).mpr ⟨nonneg, floor, present⟩, stored⟩
  unfold answer
  split
  next above =>
    rintro _ ⟨_, nonneg, stored⟩
    rw [Bool.eq_false_iff]
    intro qualified
    exact absurd (reaches_qualifying based recorded seen nonneg stored qualified).1 (not_le.mpr above)
  next =>
    rw [sequentialTimestampScan_eq fun base listed => readable_of_nonneg based recorded (nonneg base listed)]
    have ordered := flatMap_recordsAt_ascends based recorded nonneg (ascends _)
    cases first : ((near (index.floorOffset request.target)).flatMap (recordsAt codec s.log.objects)).find?
        (qualifies request.target s.log.watermark.logStart) with
    | none =>
      rintro record ⟨_, nonneg, stored⟩
      rw [Bool.eq_false_iff]
      intro qualified
      exact find?_eq_none.mp first record (listed nonneg stored qualified) qualified
    | some found =>
      have qualified := find?_some first
      obtain ⟨base, listed', stored⟩ := mem_flatMap.mp (mem_of_find?_eq_some first)
      have late : ¬found.2 < 0 := by
        have high := of_decide_eq_true (Bool.and_eq_true_iff.mp qualified).2
        rw [Int64.lt_iff_toInt_lt, Int64.toInt_zero]
        omega
      simp only [all, all_none, filter_some, toSystemTime, if_neg late, if_true]
      refine ⟨⟨base, nonneg base listed', stored⟩, qualified, ?_⟩
      rintro _ ⟨_, nonneg', stored'⟩ qualified'
      exact le_of_find?_eq_some ordered first (listed nonneg' stored' qualified') qualified'

end

def bases (program : A → Produce.Attempt) (s : State A D L) : List Int :=
  (Fetch.batchesOf program s.log.objects s.log.taken).map Prod.fst

theorem mem_bases (based : Based program s.partition) :
    base ∈ bases program s ↔ 0 ≤ base ∧ (s.log.objects (batchPath base)).isSome = true := by
  unfold bases
  rw [List.mem_map]
  constructor
  · rintro ⟨_, member, rfl⟩
    obtain ⟨_, taken, present, -⟩ := Fetch.mem_batchesOf.mp member
    exact ⟨(based.bounds taken).1, present⟩
  · rintro ⟨nonneg, present⟩
    obtain ⟨bytes, held⟩ := isSome_iff_exists.mp present
    obtain ⟨a, taken⟩ := based.of_stored nonneg (isSome_iff_exists.mpr ⟨bytes, based.stored _ _ held⟩)
    exact ⟨(base, (program a).deflated), Fetch.mem_batchesOf.mpr ⟨a, taken, present, rfl⟩, rfl⟩

theorem bases_ascends (based : Based program s.partition) : (bases program s).Pairwise (· < ·) :=
  (Fetch.holds_batchesOf based.assigned based.stored).bases_sorted

theorem listed_bases (based : Based program s.partition) (start : Int) :
    Fetch.Listed s.log.objects start ((bases program s).filter (start ≤ ·)) where
  nodup := ((bases_ascends based).imp ne_of_lt).filter _
  named := by
    intro base
    rw [mem_filter, mem_bases based, decide_eq_true_eq]
    tauto

theorem not_pending_of_idle (idle : s.Idle) (batch : A × Int) : ¬Pending .stored program s batch := by
  rintro ⟨-, flying⟩
  rcases idle.1 batch.1 with at_ | ⟨_, at_⟩ <;> rw [at_] at flying <;> cases flying

/-! Every run. -/

def Answered (codec : Codec) (request : L → Request) (s : State A D L) : Prop :=
  ∀ l answer, s.lookup l = .answered answer → s.quiet l → 0 ≤ (request l).target → (request l).lastStable = none →
    Exact codec s.log.objects (request l).target s.log.watermark.logStart answer

theorem Phase.ofRead_ne_answered (watermark : Watermark) (otherwise : Phase)
    (running : ∀ answer, otherwise ≠ .answered answer) (answer : Except ErrorCode (Option (Int × Int64))) :
    Phase.ofRead watermark otherwise ≠ .answered answer := by
  unfold Phase.ofRead
  split
  · nofun
  · exact running answer

variable {request : L → Request}

theorem Answered.setLookup [DecidableEq L] (answered : Answered codec request s) {l : L}
    (mine : ∀ answer, phase = .answered answer → s.quiet l → 0 ≤ (request l).target →
      (request l).lastStable = none → Exact codec s.log.objects (request l).target s.log.watermark.logStart answer) :
    Answered codec request (s.setLookup l phase) :=
  (forall_update_iff s.lookup fun other phase => ∀ answer, phase = .answered answer →
      s.quiet other → 0 ≤ (request other).target → (request other).lastStable = none →
      Exact codec s.log.objects (request other).target s.log.watermark.logStart answer).mpr
    ⟨mine, fun other _ => answered other⟩

theorem Answered.running [DecidableEq L] (answered : Answered codec request s) {l : L}
    (running : ∀ answer, phase ≠ .answered answer) : Answered codec request (s.setLookup l phase) :=
  answered.setLookup fun answer same => absurd same (running answer)

variable [DecidableEq A] [DecidableEq D] [DecidableEq L] {topition : Topition} {requested : D → Int}
  {s₀ : State A D L}

theorem Answered.step (answered : Answered codec request s) (guarded : Guarded codec .stored program s)
    (recorded : ∀ a, ∃ inflated, Recorded codec (program a).deflated inflated)
    (step : Step topition program requested codec request s action t) : Answered codec request t := by
  cases step with
  | partition => exact fun _ _ _ quiet => quiet.elim
  | tick => exact answered
  | @read l watermark at_ read =>
    have moved : Answered codec request (s.setLookup l (.ofRead watermark .waiting)) :=
      answered.running (Phase.ofRead_ne_answered watermark .waiting nofun)
    intro other answer at_ quiet
    by_cases same : other = l
    · subst same
      have waits := Phase.ofRead_ne_answered watermark .waiting nofun answer
      exact absurd ((update_self ..).symm.trans at_) waits
    · have before : s.quiet other := by
        change update s.quiet l s.Idle other at quiet
        rwa [update_of_ne same] at quiet
      exact moved other answer at_ before
  | @reread l watermark at_ read => exact answered.running (Phase.ofRead_ne_answered watermark .opening nofun)
  | begin => exact answered.running nofun
  | openListing | list | endListing | visit | visitGone | readLow | fail => exact answered.running nofun
  | commit => exact answered.running nofun
  | @scan l index low near at_ lists ascends =>
    refine answered.setLookup ?_
    rintro _ ⟨⟩ quiet epoch all
    rcases guarded.indexed with stale | ⟨_, -, indexed⟩
    · have early := stale.lookup l
      rw [at_] at early
      simp at early
    · have sound := indexed.sound l
      rw [at_] at sound
      obtain ⟨rfl, seen⟩ := sound ⟨rfl, quiet⟩
      exact answer_exact guarded.based recorded seen lists ascends epoch all

theorem guarded_answered_of_reachable (initial : Initial program s₀)
    (bounded : ∀ a, maxRecordTimestamp codec (program a).deflated < TimeIndex.maxI64)
    (recorded : ∀ a, ∃ inflated, Recorded codec (program a).deflated inflated)
    (reached : (machine topition program requested codec request s₀).ReachableWhile
      (Allowed codec .stored program) s) : Guarded codec .stored program s ∧ Answered codec request s := by
  refine reached.invariant (P := fun s => Guarded codec .stored program s ∧ Answered codec request s) ?_ ?_
  · rintro _ rfl
    refine ⟨initial.guarded nofun, fun l answer at_ => ?_⟩
    rw [initial.lookup l] at at_
    cases at_
  · rintro _ _ _ ⟨guarded, answered⟩ allowed step
    exact ⟨guarded.step bounded allowed step, answered.step guarded recorded step⟩

/-! A lookup that is called while nothing is in progress can go on to its answer. -/

section Completes

omit [DecidableEq A] [DecidableEq D] in
theorem State.setLookup_setLookup (s : State A D L) (l : L) (first second : Phase) :
    (s.setLookup l first).setLookup l second = s.setLookup l second :=
  congrArg (fun lookup => { s with lookup }) (Function.update_idem ..)

abbrev Reaches (topition : Topition) (program : A → Produce.Attempt) (requested : D → Int) (codec : Codec)
    (request : L → Request) (s₀ s : State A D L) : Prop :=
  (machine topition program requested codec request s₀).ReachableWhile (Allowed codec .stored program) s

variable {l : L}

theorem reach_list {backfill : Backfill} (listed rest : List Int)
    (reached : Reaches topition program requested codec request s₀
      (s.setLookup l (.listing backfill atStart (listed.map fun base => (base, s.written base)))))
    (ascends : (listed ++ rest).Pairwise (· < ·)) (nonneg : ∀ base ∈ rest, 0 ≤ base)
    (below : ∀ base ∈ rest, base < backfill.high)
    (present : ∀ base ∈ rest, (s.log.objects (batchPath base)).isSome = true) :
    Reaches topition program requested codec request s₀
      (s.setLookup l (.listing backfill atStart ((listed ++ rest).map fun base => (base, s.written base)))) := by
  induction rest generalizing listed with
  | nil => simpa using reached
  | cons base _ ih =>
    have earlier : ∀ entry ∈ listed.map fun base => (base, s.written base), entry.1 < base := by
      intro entry member
      obtain ⟨other, before, rfl⟩ := mem_map.mp member
      exact (pairwise_append.mp ascends).2.2 other before base mem_cons_self
    have named := reached.next (.list base (update_self ..) (nonneg base mem_cons_self)
      (below base mem_cons_self) earlier (present base mem_cons_self)) trivial
    rw [State.setLookup_setLookup] at named
    have moved : Reaches topition program requested codec request s₀ (s.setLookup l (.listing backfill atStart
          ((listed ++ [base]).map fun base => (base, s.written base)))) := by
      rw [map_append]
      exact named
    rw [append_cons]
    refine ih _ moved (append_cons .. ▸ ascends) ?_ ?_ ?_
    · exact fun other member => nonneg other (mem_cons_of_mem _ member)
    · exact fun other member => below other (mem_cons_of_mem _ member)
    · exact fun other member => present other (mem_cons_of_mem _ member)

theorem reach_visits {queue : List (Int × Int)}
    (reached : Reaches topition program requested codec request s₀ (s.setLookup l (.reading backfill collect)))
    (queued : collect.queue = queue)
    (present : ∀ entry ∈ queue, ∃ bytes batch remaining, s.log.objects (batchPath entry.1) = some bytes ∧
      Deflated.Batch.tryFrom bytes = some (batch, remaining)) :
    ∃ collected : Collect, collected.queue = [] ∧ collected.listed = collect.listed ∧
      Reaches topition program requested codec request s₀ (s.setLookup l (.reading backfill collected)) := by
  induction queue generalizing collect with
  | nil => exact ⟨collect, queued, rfl, reached⟩
  | cons entry _ ih =>
    obtain ⟨_, _, _, held, decoded⟩ := present entry mem_cons_self
    have visited := reached.next (.visit (update_self ..) queued held decoded) trivial
    rw [State.setLookup_setLookup] at visited
    obtain ⟨collected, done, listed, reached⟩ := ih visited rfl
      fun other member => present other (mem_cons_of_mem _ member)
    exact ⟨collected, done, listed, reached⟩

theorem reach_found (reached : (machine topition program requested codec request s₀).ReachableWhile allowed s)
    (permitted : allowed s (.read l s.log.watermark)) (at_ : s.lookup l = .start)
    (complete : (s.index.isComplete || s.log.watermark.high.isNone) = true) :
    (machine topition program requested codec request s₀).ReachableWhile allowed
      ((s.setLookup l (.found s.index s.log.watermark.logStart)).setQuiet l s.Idle) := by
  have called := reached.next (.read at_ mem_cons_self) permitted
  rwa [Phase.ofRead, if_pos complete] at called

theorem reach_scan (based : Based program s.partition) {index : TimeIndex}
    (reached : Reaches topition program requested codec request s₀ s) (at_ : s.lookup l = .found index low) :
    ∃ answer, Reaches topition program requested codec request s₀ (s.setLookup l (.answered answer)) :=
  ⟨_, reached.next (.scan _ at_ (listed_bases based) fun _ => (bases_ascends based).filter _) trivial⟩

structure Kept (s t : State A D L) : Prop where
  objects : t.log.objects = s.log.objects
  start : t.log.watermark.logStart = s.log.watermark.logStart
  quiet : t.quiet = s.quiet

/-- A backfill that begins while nothing is in progress lists every batch, reads it and commits. -/
theorem reach_backfill (based : Based program s.partition) (idle : s.Idle)
    (reached : Reaches topition program requested codec request s₀ s) (at_ : s.lookup l = .opening) :
    ∃ t merged, Reaches topition program requested codec request s₀ t ∧ Kept s t ∧ t.lookup l = .committed merged := by
  have begun := reached.next (.begin 0 at_) nofun
  have opened := begun.next (.openListing s.now (update_self ..) le_rfl le_rfl)
    fun _ _ _ _ _ batch pending => absurd pending (not_pending_of_idle idle batch)
  have sorted : ((bases program s).filter (· < s.log.watermark.next)).Pairwise (· < ·) :=
    (bases_ascends based).filter _
  have member {base : Int} (listed : base ∈ (bases program s).filter (· < s.log.watermark.next)) :
      (0 ≤ base ∧ (s.log.objects (batchPath base)).isSome = true) ∧ base < s.log.watermark.next := by
    obtain ⟨stored, below⟩ := mem_filter.mp listed
    exact ⟨(mem_bases based).mp stored, of_decide_eq_true below⟩
  have listed := reach_list [] _ opened sorted (fun base listed => (member listed).1.1)
    (fun base listed => (member listed).2) (fun base listed => (member listed).1.2)
  have complete : ∀ base, 0 ≤ base → base < s.log.watermark.next →
      (s.log.objects (batchPath base)).isSome = true → ∃ written,
        (base, written) ∈ ((bases program s).filter (· < s.log.watermark.next)).map fun base =>
          (base, s.written base) := by
    intro base nonneg below present
    have inside : base ∈ (bases program s).filter (· < s.log.watermark.next) :=
      mem_filter.mpr ⟨(mem_bases based).mpr ⟨nonneg, present⟩, decide_eq_true below⟩
    exact ⟨_, mem_map_of_mem inside⟩
  have ended := listed.next (.endListing (update_self ..) fun base nonneg below there _ =>
    complete base nonneg below there) trivial
  obtain ⟨_, done, named, reading⟩ := reach_visits ended rfl (by
    intro entry queued
    obtain ⟨_, inside, rfl⟩ := mem_map.mp queued
    obtain ⟨⟨nonneg, present⟩, -⟩ := member inside
    obtain ⟨bytes, held⟩ := isSome_iff_exists.mp present
    obtain ⟨a, taken⟩ := based.of_stored nonneg
      (isSome_iff_exists.mpr ⟨bytes, based.stored _ _ held⟩)
    have content := based.content taken held
    exact ⟨bytes, (program a).deflated, [], held, content ▸ (Deflated.Batch.reads_tryFrom _).all⟩)
  have committed := reading.next (.commit (update_self ..) done) (by
    intro backfill collect same empty batch counts
    change update _ l _ l = _ at same
    rw [update_self] at same
    cases same
    rw [named] at empty
    by_contra below
    rcases counts.1.2 with present | flying
    · obtain ⟨_, inside⟩ := complete batch.2 (based.bounds counts.1.1).1 (not_le.mp below) present
      exact absurd inside (eq_nil_iff_forall_not_mem.mp empty _)
    · exact not_pending_of_idle idle batch ⟨counts, flying⟩)
  exact ⟨_, _, committed, ⟨rfl, rfl, rfl⟩, update_self ..⟩

theorem reach_answer (initial : Initial program s₀)
    (bounded : ∀ a, maxRecordTimestamp codec (program a).deflated < TimeIndex.maxI64)
    (reached : Reaches topition program requested codec request s₀ s) (idle : s.Idle) (at_ : s.lookup l = .start) :
    ∃ t answer, Reaches topition program requested codec request s₀ t ∧ t.log.objects = s.log.objects ∧
      t.log.watermark.logStart = s.log.watermark.logStart ∧ t.lookup l = .answered answer ∧ t.quiet l := by
  have based {t : State A D L} (reached : Reaches topition program requested codec request s₀ t) :
    Based program t.partition :=
    (guarded_of_reachable initial (by rintro _ ⟨⟩) bounded reached).based
  have quiet : update s.quiet l s.Idle l := by
    rw [update_self]
    exact idle
  by_cases complete : (s.index.isComplete || s.log.watermark.high.isNone) = true
  · have found := reach_found reached (fun _ _ => rfl) at_ complete
    obtain ⟨answer, answered⟩ := reach_scan (based found) found (update_self ..)
    exact ⟨_, answer, answered, rfl, rfl, update_self .., quiet⟩
  · have waits (otherwise : Phase) : Phase.ofRead s.log.watermark otherwise = otherwise := if_neg complete
    have called := reached.next (.read at_ mem_cons_self) fun _ _ => rfl
    rw [waits] at called
    have reread := called.next (.reread (update_self ..) mem_cons_self) fun _ _ => rfl
    obtain ⟨u, _, committed, kept, at_⟩ := reach_backfill (based reread) idle reread
      ((update_self ..).trans (waits .opening))
    have read := committed.next (.readLow at_ mem_cons_self) fun _ _ => rfl
    obtain ⟨answer, answered⟩ := reach_scan (based read) read (update_self ..)
    refine ⟨_, answer, answered, kept.objects, kept.start, update_self .., ?_⟩
    change u.quiet l
    rw [kept.quiet]
    exact quiet

end Completes

/-- A lookup during which no produce and no `delete_records` call is in progress answers the lowest record from
the log start on that is at or after its target, or that there is none; and it can always go on to its
answer. -/
theorem timestamp_lookup_finds_lowest_record (initial : Initial program s₀)
    (bounded : ∀ a, maxRecordTimestamp codec (program a).deflated < TimeIndex.maxI64)
    (recorded : ∀ a, ∃ inflated, Recorded codec (program a).deflated inflated)
    (reached : (machine topition program requested codec request s₀).ReachableWhile
      (Allowed codec .stored program) s) {l : L} (epoch : 0 ≤ (request l).target)
    (all : (request l).lastStable = none) :
    (∀ answer, s.lookup l = .answered answer → s.quiet l →
      Exact codec s.log.objects (request l).target s.log.watermark.logStart answer) ∧
    (s.Idle → s.lookup l = .start → ∃ t answer,
      (machine topition program requested codec request s₀).ReachableWhile (Allowed codec .stored program) t ∧
      t.log.objects = s.log.objects ∧ t.log.watermark.logStart = s.log.watermark.logStart ∧
      t.lookup l = .answered answer ∧ t.quiet l) := by
  obtain ⟨-, answered⟩ := guarded_answered_of_reachable initial bounded recorded reached
  exact ⟨fun answer at_ quiet => answered l answer at_ quiet epoch all,
    fun idle at_ => reach_answer initial bounded reached idle at_⟩

section Examples

theorem listed_first (bytes : List UInt8) (start : Int) :
    Fetch.Listed (Function.update (fun _ => none) (batchPath 0) (some bytes)) start
        (if start ≤ 0 then [0] else []) ∧
      (if start ≤ 0 then [(0 : Int)] else []).Pairwise (· < ·) := by
  refine ⟨⟨by split <;> simp, fun base => ?_⟩, by split <;> simp⟩
  by_cases first : base = 0
  · subst first
    split <;> simp [*]
  · have absent : 0 ≤ base → update (fun _ => none) (batchPath 0) (some bytes) (batchPath base) = none :=
      fun nonneg => update_of_ne (fun same => first (batchPath_injective nonneg (le_refl 0) same)) ..
    constructor
    · intro listed
      split at listed
      · exact absurd (mem_singleton.mp listed) first
      · cases listed
    · rintro ⟨nonneg, -, present⟩
      rw [absent nonneg] at present
      cases present

/-- The first backfill lists the partition while the one batch has its offset and no object yet. It takes the
empty listing as complete, and a later lookup does not find the batch. -/
theorem lookup_misses_batch_in_flight : ∃ s : State Unit Unit Bool,
    Initial (fun _ => stampedAttempt 100) (olderPartition : State Unit Unit Bool) ∧
    (machine ⟨"t", 0⟩ (fun _ => stampedAttempt 100) (fun _ => 0) plainCodec
      (fun _ => { target := 50, lastStable := none }) olderPartition).Reachable s ∧
    s.lookup true = .answered (.ok none) ∧ s.quiet true ∧
    StoredRecord plainCodec s.log.objects (0, 100) ∧ qualifies 50 s.log.watermark.logStart (0, 100) = true := by
  have start : (machine ⟨"t", 0⟩ (fun _ : Unit => stampedAttempt 100)
    (fun _ : Unit => 0) plainCodec (fun _ : Bool => { target := 50, lastStable := none })
    olderPartition).Reachable _ := .init rfl
  have taken := (((start.step (.partition (.produce (.checkPlain (a := ()) rfl rfl)))).step
    (.partition (.produce (.ensure (a := ()) rfl mem_cons_self)))).step
    (.partition (.produce (.readStart (a := ()) rfl mem_cons_self)))).step
    (.partition (.produce (.assign (a := ()) rfl rfl)))
  have begun := ((taken.step (.read (l := false) rfl mem_cons_self)).step
    (.reread (l := false) rfl mem_cons_self)).step (.begin (l := false) 7 rfl)
  have committed := ((begun.step (.openListing (l := false) 0 rfl le_rfl le_rfl)).step
    (.endListing (l := false) rfl nofun)).step (.commit (l := false) rfl rfl)
  have stored := ((committed.step (.partition (.produce (.recordRange (a := ()) rfl rfl)))).step
    (.partition (.produce (.put (a := ()) rfl rfl)))).step
    (.partition (.produce (.advancePlain (a := ()) rfl rfl)))
  have found := reach_found (l := true) stored trivial rfl (by decide +kernel)
  have lists := listed_first (stampedAttempt 100).deflated.toBytes
  have answered := found.next (.scan (l := true) (fun start => if start ≤ 0 then [0] else []) rfl
    (fun start => (lists start).1) (fun start => (lists start).2)) trivial
  refine ⟨_, initial_olderPartition _, answered, ?_, ?_, ⟨0, le_rfl, ?_⟩, by decide +kernel⟩
  · exact congrArg Phase.answered (if_pos (by decide +kernel))
  · exact ⟨fun _ => .inr ⟨_, rfl⟩, fun _ => .inl rfl⟩
  · decide +kernel

theorem recorded_stampedAttempt : ∃ inflated, Recorded plainCodec (stampedAttempt 100).deflated inflated := by
  refine ⟨{ baseOffset := 0, partitionLeaderEpoch := -1, magic := 2, attributes := 0, lastOffsetDelta := 0
            baseTimestamp := 100, maxTimestamp := 100, producerId := -1, producerEpoch := -1
            baseSequence := -1
            records := [{ attributes := 0, timestampDelta := 0, offsetDelta := 0, key := none, value := none
                          headers := [] }] }, ?_, pairwise_singleton .., ?_⟩
  · decide +kernel
  · decide +kernel

/-- A lookup after a batch with timestamp 100 has been stored, with a backfill of its own. -/
theorem timestamp_lookup_finds_lowest_record_first : ∃ (t : State Unit Unit Unit)
    (answer : Except ErrorCode (Option (Int × Int64))),
    (machine ⟨"t", 0⟩ (fun _ => stampedAttempt 100) (fun _ => 0) plainCodec
      (fun _ => { target := 50, lastStable := none }) olderPartition).ReachableWhile
      (Allowed plainCodec .stored fun _ => stampedAttempt 100) t ∧
    StoredRecord plainCodec t.log.objects (0, 100) ∧ t.lookup () = .answered answer ∧
    Exact plainCodec t.log.objects 50 t.log.watermark.logStart answer := by
  have start : (machine ⟨"t", 0⟩ (fun _ : Unit => stampedAttempt 100)
    (fun _ : Unit => 0) plainCodec (fun _ : Unit => { target := 50, lastStable := none })
    olderPartition).ReachableWhile (Allowed plainCodec .stored fun _ => stampedAttempt 100) _ := .init rfl
  have taken := (((start.next (.partition (.produce (.checkPlain (a := ()) rfl rfl))) trivial).next
    (.partition (.produce (.ensure (a := ()) rfl mem_cons_self))) trivial).next
    (.partition (.produce (.readStart (a := ()) rfl mem_cons_self))) trivial).next
    (.partition (.produce (.assign (a := ()) rfl rfl))) (by decide +kernel : _ = _)
  have stored := ((taken.next (.partition (.produce (.recordRange (a := ()) rfl rfl))) trivial).next
    (.partition (.produce (.put (a := ()) rfl rfl))) trivial).next
    (.partition (.produce (.advancePlain (a := ()) rfl rfl))) trivial
  have bounded : ∀ _ : Unit, maxRecordTimestamp plainCodec (stampedAttempt 100).deflated < TimeIndex.maxI64 := by
    decide +kernel
  obtain ⟨t, answer, reached, objects, -, at_, quiet⟩ := (timestamp_lookup_finds_lowest_record
    (initial_olderPartition _) bounded (fun _ => recorded_stampedAttempt) stored (by decide) rfl).2
    ⟨fun _ => .inr ⟨_, rfl⟩, fun _ => .inl rfl⟩ rfl
  have lowest := (timestamp_lookup_finds_lowest_record (initial_olderPartition _) bounded
    (fun _ => recorded_stampedAttempt) reached (by decide) rfl).1 answer at_ quiet
  refine ⟨t, answer, reached, ⟨0, le_rfl, ?_⟩, at_, lowest⟩
  rw [objects]
  decide +kernel

end Examples

end Nisshi.Dynostore.Lookup
