import Nisshi.Dynostore.Topic
import Nisshi.Dynostore.Delivery

/-! What a topic that is created again holds of the one deleted before it: on which runs it holds nothing
of it, and a run on which it does. -/

namespace Nisshi.Dynostore

open Nisshi.Lib Nisshi.SansIo List Option Function

namespace Produce

variable {A : Type} {mine : A → Prop} [DecidablePred mine] {program : A → Attempt} {s t : State A}

/-- The log as the attempts in `mine` alone would have left their places in it. -/
def State.restrict (mine : A → Prop) [DecidablePred mine] (s : State A) : State A :=
  { s with
    phase := fun a => if mine a then s.phase a else .start
    taken := s.taken.filter fun entry => mine entry.1 }

namespace State

variable {a : A}

theorem restrict_phase (ours : mine a) : (s.restrict mine).phase a = s.phase a :=
  if_pos ours

variable [DecidableEq A]

theorem restrict_setPhase (ours : mine a) (next : Phase) :
    (s.setPhase a next).restrict mine = (s.restrict mine).setPhase a next := by
  unfold restrict setPhase
  congr 1
  funext b
  by_cases same : b = a
  · subst same
    simp [ours]
  · simp [same]

variable (mine) in
theorem restrict_setPhase_of_not (theirs : ¬ mine a) (next : Phase) :
    (s.setPhase a next).restrict mine = s.restrict mine := by
  unfold restrict setPhase
  congr 1
  funext b
  by_cases same : b = a
  · subst same
    simp [theirs]
  · simp [same]

omit [DecidableEq A] in
theorem restrict_noteTaken (ours : mine a) (offset : Int) :
    (s.noteTaken a offset).restrict mine = (s.restrict mine).noteTaken a offset := by
  simp [restrict, noteTaken, List.filter_append, ours]

end State

variable [DecidableEq A] {topition : Topition} {action : Action A}

/-- A step of an attempt in `mine` is a step of the restricted log. -/
theorem Step.restrict (step : Step topition program s action t) (ours : mine action.attempt) :
    Step topition program (s.restrict mine) action (t.restrict mine) := by
  cases step with
  | assign at_ given =>
    rw [State.restrict_setPhase ours, State.restrict_noteTaken ours]
    exact .assign ((State.restrict_phase ours).trans at_) given
  | stop running =>
    rw [State.restrict_setPhase ours]
    exact .stop fun answer at_ => running answer ((State.restrict_phase ours).symm.trans at_)
  -- The others move the phase of the attempt, and read what the restriction leaves alone.
  | _ at_ =>
    rw [State.restrict_setPhase ours]
    constructor
    · exact (State.restrict_phase ours).trans at_
    all_goals assumption

theorem Step.quiet (step : Step topition program s action t) (quiet : action.writes = false) :
    t.watermark = s.watermark ∧ t.objects = s.objects ∧ t.taken = s.taken ∧
      ∃ next, t.phase = Function.update s.phase action.attempt next := by
  cases step with
  | assign | assignRefused | put | putExists => cases quiet
  | _ => exact ⟨rfl, rfl, rfl, _, rfl⟩

theorem Step.others (step : Step topition program s action t) (other : b ≠ action.attempt) :
    t.phase b = s.phase b ∧ ∀ offset, (b, offset) ∈ t.taken → (b, offset) ∈ s.taken := by
  cases step with
  | assign =>
    refine ⟨Function.update_of_ne other .., fun offset member => ?_⟩
    rcases Log.mem_concat.mp member with old | new
    · exact old
    · exact absurd (Prod.mk.inj new).1 other
  | _ => exact ⟨Function.update_of_ne other .., fun _ member => member⟩

theorem Step.objects_of_ne_put (step : Step topition program s action t)
    (other : ∀ a, action ≠ .put a) : t.objects = s.objects := by
  cases step with
  | put | putExists => exact absurd rfl (other _)
  | _ => rfl

omit [DecidableEq A] in
theorem Assigned.of_empty (next : s.watermark.next = 0) (objects : ∀ key, s.objects key = none)
    (nobody : ∀ a, ¬ mine a) : Assigned program (s.restrict mine) := by
  have taken : (s.restrict mine).taken = [] := by simp [State.restrict, nobody]
  have phase : ∀ a, (s.restrict mine).phase a = .start := fun a => if_neg (nobody a)
  constructor
  case tiled =>
    rw [taken, show (s.restrict mine).watermark.next = 0 from next]
    exact .nil
  case taken =>
    rw [taken]
    nofun
  case holds =>
    intro a offset holds
    rw [phase] at holds
    cases holds
  case object =>
    intro key bytes present
    rw [show (s.restrict mine).objects key = none from objects key] at present
    cases present
  case written =>
    intro a offset written
    rw [phase] at written
    cases written

end Produce

namespace Fetch

variable {A : Type} {program : A → Produce.Attempt} {s t : State A}

def Phase.batches : Phase → List (Int × Deflated.Batch)
  | .reading _ read => read.batches
  | .getting _ read _ => read.batches
  | .fetched batches => batches
  | _ => []

theorem Phase.batches_ofHolding (bounds : Bounds) (window : Int) (holding : Option Int)
    (afterHolding : List Int) (listing : Option Listing) :
    (Phase.ofHolding bounds window holding afterHolding listing).batches = [] := by
  unfold Phase.ofHolding
  split
  · rfl
  · split <;> rfl

theorem Phase.batches_probe (bounds : Bounds) (window : Int) (listing : Listing) (holding : Option Int)
    (base : Int) : (Phase.probe bounds window listing holding base).batches = [] := by
  unfold Phase.probe
  split
  · rfl
  · split
    · exact Phase.batches_ofHolding ..
    · rfl

variable {entry : Int × Deflated.Batch}

theorem Phase.batches_poll (bounds : Bounds) (read : Read) (base : Int)
    (member : entry ∈ (Phase.poll bounds read base).batches) : entry ∈ read.batches := by
  unfold Phase.poll at member
  split at member
  · cases member
  · split at member <;> exact member

theorem Phase.batches_take (bounds : Bounds) (read : Read) (base : Int) (batch : Deflated.Batch)
    (expired : Bool) (member : entry ∈ (Phase.take bounds read base batch expired).batches) :
    entry ∈ read.batches ∨ entry = (base, { batch with baseOffset := Int64.ofInt base }) := by
  simp only [Phase.take] at member
  split at member
  · exact .inl member
  · have last : entry ∈ read.batches ++ [(base, { batch with baseOffset := Int64.ofInt base })] := by
      split at member
      · exact member
      · split at member <;> exact member
    rcases Log.mem_concat.mp last with old | new
    · exact .inl old
    · exact .inr new

theorem Step.batches [DecidableEq A] {topition : Topition} (step : Step topition program s action t)
    (running : s.phase ≠ .idle) (member : entry ∈ t.phase.batches) :
    entry ∈ s.phase.batches ∨ ∃ bounds read base bytes batch rest,
      s.phase = .getting bounds read base ∧ s.log.objects (batchPath base) = some bytes ∧
      Deflated.Batch.tryFrom bytes = some (batch, rest) ∧
      entry = (base, { batch with baseOffset := Int64.ofInt base }) := by
  cases step with
  | produce => exact .inl member
  | begin _ at_ => exact absurd at_ running
  | openProbe at_ | openFull at_ | abandon | listFull | getUnreadable | deliver | endFull => cases member
  | listProbe =>
    rw [State.setPhase, Phase.batches_probe] at member
    cases member
  | endProbe =>
    rw [State.setPhase, Phase.batches_ofHolding] at member
    cases member
  | pollQueue at_ | pollListing _ at_ =>
    have kept := Phase.batches_poll _ _ _ member
    rw [at_]
    exact .inl kept
  | pollEnd at_ | getMissing _ at_ =>
    rw [at_]
    exact .inl member
  | get _ at_ present decoded =>
    rcases Phase.batches_take _ _ _ _ _ member with old | new
    · rw [at_]
      exact .inl old
    · exact .inr ⟨_, _, _, _, _, _, at_, present, decoded, new⟩

end Fetch

namespace Topic

variable {A : Type} {program : A → Produce.Attempt} {s t : State A}

/-- No write of a produce is made while a topic is deleted or created, or in another topic than the one in
which the produce started: the topic is there, and none was created since the produce was called. -/
def Timely (s : State A) : Action A → Prop
  | .produce action => action.writes = true → s.Live ∧ s.began action.attempt = s.life
  | _ => True

def State.Vacant (s : State A) : Prop :=
  match s.admin with
  | .idle => s.topic = none
  | .sweeping _ _ => False
  | .swept => True
  | .creating _ => True
  | .created => True

def State.current (s : State A) : Produce.State A :=
  s.log.restrict fun a => s.began a = s.life

theorem State.current_phase (ours : s.began a = s.life) : s.current.phase a = s.log.phase a :=
  if_pos ours

/-- The partition holds what the attempts of the present topic stored, and nothing once it is swept. -/
structure Fresh (program : A → Produce.Attempt) (s : State A) : Prop where
  began : ∀ a, s.began a ≤ s.life
  waiting : ∀ a, s.entry a ≠ .admitted → s.log.phase a = .start ∧ ∀ offset, (a, offset) ∉ s.log.taken
  live : s.Live → Produce.Assigned program s.current
  owned : ∀ key bytes, s.log.objects key = some bytes → ∃ a, s.writer key = some a ∧
    s.began a = s.life ∧ bytes = (program a).deflated.toBytes
  sweeping : ∀ atStart deleted, s.admin = .sweeping atStart deleted → (∀ name bytes, s.log.objects name = some bytes →
      (atStart name).isSome = true ∧ .record name ∉ deleted) ∧
    (.watermark ∈ deleted → s.log.watermark.next = 0)
  vacant : s.Vacant → (∀ key, s.log.objects key = none) ∧ s.log.watermark.next = 0

theorem fresh_start (store : Meta) : Fresh program (State.start store : State A) where
  began := fun _ => Nat.le_refl _
  waiting := fun _ _ => ⟨rfl, nofun⟩
  live := fun live => by cases live.2
  owned := nofun
  sweeping := nofun
  vacant := fun _ => ⟨fun _ => rfl, rfl⟩

theorem State.Live.not_vacant (live : s.Live) : ¬ s.Vacant := by
  intro vacant
  unfold State.Vacant at vacant
  rw [live.1] at vacant
  have present := live.2
  rw [vacant] at present
  cases present

theorem State.reads_of_getting {read : Fetch.Read} {a : A} (at_ : s.consumer.phase = .getting bounds read base)
    (present : s.log.objects (batchPath base) = some bytes) (writer : s.writer (batchPath base) = some a) :
    s.reads = [(base, a)] := by
  unfold State.reads
  simp only [at_, present, writer]

namespace Fresh

section Calls

variable [DecidableEq A]

theorem call (fresh : Fresh program s) (at_ : s.entry a = .idle) :
    Fresh program ((s.noteCall a).setEntry a .called) := by
  have idle := fresh.waiting a (by rw [at_]; decide)
  have same : ((s.noteCall a).setEntry a .called).current = s.current := by
    unfold State.current Produce.State.restrict
    congr 1
    case e_phase =>
      funext b
      by_cases ours : b = a
      · subst ours
        change ite _ (s.log.phase b) _ = ite _ (s.log.phase b) _
        rw [idle.1, ite_self, ite_self]
      · change (if update s.began a s.life b = s.life then s.log.phase b else _) = _
        rw [update_of_ne ours]
    case e_taken =>
      apply filter_congr
      intro entry member
      have other : entry.1 ≠ a := by
        intro ours
        exact idle.2 entry.2 (ours ▸ member)
      change decide (update s.began a s.life entry.1 = s.life) = _
      rw [update_of_ne other]
  constructor
  case began =>
    exact (forall_update_iff s.began fun _ life => life ≤ s.life).mpr
      ⟨Nat.le_refl _, fun b _ => fresh.began b⟩
  case waiting =>
    intro b unadmitted
    by_cases ours : b = a
    · exact ours ▸ idle
    · exact fresh.waiting b (by simpa [State.setEntry, State.noteCall, ours] using unadmitted)
  case live =>
    intro live
    rw [same]
    exact fresh.live live
  case owned =>
    intro key bytes present
    obtain ⟨b, writer, began, content⟩ := fresh.owned key bytes present
    refine ⟨b, writer, ?_, content⟩
    change update s.began a s.life b = s.life
    by_cases ours : b = a
    · rw [ours, update_self]
    · rw [update_of_ne ours, began]
  case sweeping => exact fresh.sweeping
  case vacant => exact fresh.vacant

theorem setEntry (fresh : Fresh program s) (entry : Entry) (called : s.entry a = .called) :
    Fresh program (s.setEntry a entry) :=
  { fresh with
    waiting := by
      intro b unadmitted
      by_cases ours : b = a
      · exact fresh.waiting b (by rw [ours, called]; decide)
      · exact fresh.waiting b (by simpa [State.setEntry, ours] using unadmitted) }

end Calls

theorem setLog (fresh : Fresh program s) (watermark : log.watermark = s.log.watermark)
    (objects : log.objects = s.log.objects)
    (waiting : ∀ a, s.entry a ≠ .admitted → log.phase a = .start ∧ ∀ offset, (a, offset) ∉ log.taken)
    (assigned : s.Live → Produce.Assigned program s.current →
      Produce.Assigned program (log.restrict fun a => s.began a = s.life)) : Fresh program (s.setLog log) where
  began := fresh.began
  waiting := waiting
  live := fun live => assigned live (fresh.live live)
  owned := by
    change ∀ key bytes, log.objects key = some bytes → _
    rw [objects]
    exact fresh.owned
  sweeping := by
    change ∀ atStart deleted, s.admin = _ → (∀ name bytes, log.objects name = _ → _) ∧ (_ → log.watermark.next = 0)
    rw [objects, watermark]
    exact fresh.sweeping
  vacant := by
    change s.Vacant → (∀ key, log.objects key = none) ∧ log.watermark.next = 0
    rw [objects, watermark]
    exact fresh.vacant

section Steps

variable [DecidableEq A] {topition : Topition}

variable {log : Produce.State A}

section

variable (fresh : Fresh program s)

include fresh

theorem waiting_step (step : Produce.Step topition program s.log action log)
    (admitted : s.entry action.attempt = .admitted) (a : A) (unadmitted : s.entry a ≠ .admitted) :
    log.phase a = .start ∧ ∀ offset, (a, offset) ∉ log.taken := by
  have other : a ≠ action.attempt := by
    intro ours
    exact unadmitted (ours ▸ admitted)
  obtain ⟨phase, taken⟩ := step.others other
  obtain ⟨start, nowhere⟩ := fresh.waiting a unadmitted
  exact ⟨phase.trans start, fun offset member => nowhere offset (taken offset member)⟩

/-- A step that writes nothing: the log of the present topic moves by that step, or not at all when the
attempt started in an earlier one. -/
theorem produce_quiet (admitted : s.entry action.attempt = .admitted) (quiet : action.writes = false)
    (step : Produce.Step topition program s.log action log) : Fresh program (s.setLog log) := by
  obtain ⟨watermark, objects, taken, next, phase⟩ := step.quiet quiet
  refine fresh.setLog watermark objects (fresh.waiting_step step admitted) fun live assigned => ?_
  by_cases ours : s.began action.attempt = s.life
  · exact assigned.step (step.restrict ours)
  · refine assigned.congr (congrArg Watermark.next watermark) ?_ ?_ objects
    · simp only [Produce.State.restrict, State.current, taken]
    · have kept := Produce.State.restrict_setPhase_of_not (s := s.log)
        (fun b => s.began b = s.life) ours next
      have phases := congrArg Produce.State.phase kept
      simp only [Produce.State.restrict, Produce.State.setPhase] at phases
      simp only [Produce.State.restrict, State.current, phase, phases]

theorem produce_assign (admitted : s.entry a = .admitted) (live : s.Live) (ours : s.began a = s.life)
    (step : Produce.Step topition program s.log (.assign a) log) : Fresh program (s.setLog log) where
  began := fresh.began
  waiting := fresh.waiting_step step admitted
  live := fun _ => (fresh.live live).step (step.restrict ours)
  owned := by
    change ∀ key bytes, log.objects key = some bytes → _
    rw [step.objects_of_ne_put nofun]
    exact fresh.owned
  sweeping := by
    intro atStart deleted at_
    cases live.1.symm.trans at_
  vacant := fun vacant => absurd vacant live.not_vacant

theorem put (topition : Topition) {a : A} {offset : Int} (admitted : s.entry a = .admitted) (live : s.Live)
    (ours : s.began a = s.life) (at_ : s.log.phase a = .recorded offset) :
    Fresh program ((s.setLog ((s.log.putObject (batchPath offset)
      (program a).deflated.toBytes).setPhase a (.stored offset))).noteWriter (batchPath offset) a) := by
  have absent : s.log.objects (batchPath offset) = none := by
    have phase := (State.current_phase ours).trans at_
    exact (fresh.live live).absent (by rw [phase]; rfl) (by rw [phase]; rfl)
  have step : Produce.Step topition program s.log (.put a) _ := .put at_ absent
  constructor
  case began => exact fresh.began
  case waiting => exact fresh.waiting_step step admitted
  case live => exact fun _ => (fresh.live live).step (step.restrict ours)
  case owned =>
    intro key bytes present
    by_cases path : key = batchPath offset
    · subst path
      refine ⟨a, update_self .., ours, ?_⟩
      simpa [State.setLog, State.log, State.noteWriter, Fetch.State.setLog, Produce.State.setPhase,
        Produce.State.putObject] using present.symm
    · obtain ⟨b, writer, began, content⟩ := fresh.owned key bytes (by
        simpa [State.setLog, State.log, State.noteWriter, Fetch.State.setLog, Produce.State.setPhase,
          Produce.State.putObject, path] using present)
      exact ⟨b, (update_of_ne path ..).trans writer, began, content⟩
  case sweeping =>
    intro atStart deleted sweeping
    cases live.1.symm.trans sweeping
  case vacant => exact fun vacant => absurd vacant live.not_vacant

omit [DecidableEq A] in
theorem sweep {atStart : Fetch.Objects} (key : Key) (at_ : s.admin = .sweeping atStart deleted) :
    Fresh program ((s.setLog (key.delete s.log)).setAdmin (.sweeping atStart (key :: deleted))) := by
  obtain ⟨records, watermark⟩ := fresh.sweeping atStart deleted at_
  have fewer : ∀ name bytes, (key.delete s.log).objects name = some bytes →
      s.log.objects name = some bytes ∧ key ≠ .record name := by
    intro name bytes present
    cases key with
    | watermark => exact ⟨present, nofun⟩
    | record swept =>
      have other : name ≠ swept := by
        intro same
        simp [Key.delete, same] at present
      exact ⟨by simpa [Key.delete, other] using present, fun same => other (Key.record.inj same).symm⟩
  constructor
  case began => exact fresh.began
  case waiting =>
    intro a unadmitted
    have idle := fresh.waiting a unadmitted
    cases key <;> exact idle
  case live =>
    intro live
    cases live.1
  case owned => exact fun name bytes present => fresh.owned name bytes (fewer name bytes present).1
  case sweeping =>
    rintro _ _ ⟨⟩
    refine ⟨fun name bytes present => ?_, fun member => ?_⟩
    · obtain ⟨there, other⟩ := fewer name bytes present
      obtain ⟨known, kept⟩ := records name bytes there
      refine ⟨known, fun member => ?_⟩
      rcases mem_cons.mp member with same | old
      · exact other same.symm
      · exact kept old
    · cases key with
      | watermark => rfl
      | record =>
        rcases mem_cons.mp member with same | old
        · cases same
        · exact watermark old
  case vacant => exact False.elim

omit [DecidableEq A] in
theorem endSweep {atStart : Fetch.Objects} (at_ : s.admin = .sweeping atStart deleted)
    (watermark : .watermark ∈ deleted) (complete : ∀ name, (atStart name).isSome = true → .record name ∈ deleted) :
    Fresh program (s.setAdmin .swept) := by
  obtain ⟨records, next⟩ := fresh.sweeping atStart deleted at_
  refine { fresh with live := (fun live => ?_), sweeping := nofun, vacant := fun _ => ⟨?_, next watermark⟩ }
  · cases live.1
  · intro name
    cases present : s.log.objects name with
    | none => exact present
    | some bytes =>
      obtain ⟨known, kept⟩ := records name bytes present
      exact absurd (complete name known) kept

omit [DecidableEq A] in
theorem vacant_step (vacant : s.Vacant) {earlierTopics : List (Option TopicMetadata)}
    (notLive : ¬ State.Live { s with topic, earlierTopics, admin })
    (notSweeping : ∀ atStart deleted, admin ≠ .sweeping atStart deleted) :
    Fresh program { s with topic, earlierTopics, admin } :=
  { fresh with
    live := fun live => absurd live notLive
    sweeping := fun atStart deleted at_ => absurd at_ (notSweeping atStart deleted)
    vacant := fun _ => fresh.vacant vacant }

omit [DecidableEq A] in
theorem delete : Fresh program (s.setAdmin (.sweeping s.log.objects [])) :=
  { fresh with
    live := fun live => by cases live.1
    sweeping := by
      rintro _ _ ⟨⟩
      exact ⟨fun name bytes present => ⟨Option.isSome_of_eq_some present, nofun⟩, nofun⟩
    vacant := False.elim }

omit [DecidableEq A] in
theorem reset (at_ : s.admin = .creating numPartitions) : Fresh program ((s.setLog
      (if 0 ≤ topition.partition ∧ topition.partition < numPartitions then
        s.log.setWatermark s.log.watermark.recreate
      else s.log)).setAdmin .created) := by
  obtain ⟨objects, next⟩ := fresh.vacant (by unfold State.Vacant; rw [at_]; trivial)
  constructor
  case began => exact fresh.began
  case waiting =>
    intro a unadmitted
    have idle := fresh.waiting a unadmitted
    split <;> exact idle
  case live =>
    intro live
    cases live.1
  case owned => split <;> exact fresh.owned
  case sweeping => nofun
  case vacant =>
    intro _
    split
    · exact ⟨objects, Watermark.recreate_next _⟩
    · exact ⟨objects, next⟩

omit [DecidableEq A] in
theorem returnCreate (at_ : s.admin = .created) : Fresh program (s.setAdmin .idle).nextLife := by
  obtain ⟨objects, next⟩ := fresh.vacant (by unfold State.Vacant; rw [at_]; trivial)
  constructor
  case began => exact fun a => (fresh.began a).trans (Nat.le_succ _)
  case waiting => exact fresh.waiting
  case live =>
    refine fun _ => Produce.Assigned.of_empty next objects fun a ours => ?_
    have bound := fresh.began a
    change s.began a = s.life + 1 at ours
    omega
  case owned =>
    intro key bytes present
    cases (objects key).symm.trans present
  case sweeping => nofun
  case vacant => exact fun _ => ⟨objects, next⟩

end

omit [DecidableEq A] in
theorem setConsumer (fresh : Fresh program s) {consumer : Fetch.State A} {fetchBegan : Nat}
    {sources : List (Int × A)} (reading : consumer.log = s.log) :
    Fresh program { s with consumer, fetchBegan, sources } := by
  obtain ⟨_, _, _, _⟩ := consumer
  subst reading
  exact { fresh with }

omit [DecidableEq A] in
theorem began_of_reads (fresh : Fresh program s) {base : Int} {a : A} (member : (base, a) ∈ s.reads) :
    s.began a = s.life := by
  unfold State.reads at member
  split at member
  · split at member
    next present writer =>
      obtain ⟨_, writer', began, -⟩ := fresh.owned _ _ present
      rw [writer] at writer'
      cases writer'
      rw [(Prod.mk.inj (List.mem_singleton.mp member)).2]
      exact began
    · cases member
  · cases member

theorem step (fresh : Fresh program s) (named : topition.topic ≠ "") (timely : Timely s action)
    (step : Step topition program s action t) : Fresh program t := by
  cases step with
  | call at_ => exact fresh.call at_
  | enter at_ | refuse at_ => exact fresh.setEntry _ at_
  | @produce action log step admitted other =>
    cases writes : action.writes with
    | false => exact fresh.produce_quiet admitted writes step
    | true =>
      obtain ⟨live, ours⟩ := timely writes
      cases action with
      | assign => exact fresh.produce_assign admitted live ours step
      | put a => exact absurd rfl (other a)
      | _ => cases writes
  | put admitted at_ =>
    obtain ⟨live, ours⟩ := timely rfl
    exact fresh.put topition admitted live ours at_
  | putExists _ at_ present =>
    obtain ⟨live, ours⟩ := timely rfl
    have phase := (State.current_phase ours).trans at_
    have absent := (fresh.live live).absent (by rw [phase]; rfl) (by rw [phase]; rfl)
    cases absent.symm.trans present
  | others store =>
    exact fresh.setLog rfl rfl fresh.waiting fun _ assigned => assigned.setStore store
  | begin => exact fresh.setConsumer rfl
  | fetch reading => exact fresh.setConsumer reading
  | @delete found at_ read =>
    cases found with
    | none =>
      have same : s.setAdmin .idle = s := by
        unfold State.setAdmin
        rw [← at_]
      rw [same]
      exact fresh
    | some =>
      simp only [if_neg named]
      exact fresh.delete
  | sweep key at_ => exact fresh.sweep key at_
  | endSweep at_ watermark records => exact fresh.endSweep at_ watermark records
  | removeMetadata at_ =>
    refine fresh.vacant_step (by unfold State.Vacant; rw [at_]; trivial) (fun live => ?_) nofun
    cases live.2
  | create _ at_ absent =>
    refine fresh.vacant_step (by unfold State.Vacant; rw [at_]; exact absent) (fun live => ?_) nofun
    cases live.1
  | createExists => exact fresh
  | reset at_ => exact fresh.reset at_
  | returnCreate at_ => exact fresh.returnCreate at_

end Steps

end Fresh

/-- What a fetch has taken comes from objects of the topic in which it started, or of a later one. -/
structure Sourced (program : A → Produce.Attempt) (s : State A) : Prop where
  began : s.fetchBegan ≤ s.life
  sources : ∀ base a, (base, a) ∈ s.sources → s.fetchBegan ≤ s.began a
  batches : ∀ entry ∈ s.consumer.phase.batches, ∃ a, (entry.1, a) ∈ s.sources ∧
    entry.2 = Fetch.batchAt program a entry.1

namespace Sourced

variable [DecidableEq A] {topition : Topition}

theorem call (sourced : Sourced program s) (a : A) : Sourced program ((s.noteCall a).setEntry a .called) :=
  { sourced with
    sources := by
      intro base b member
      change s.fetchBegan ≤ update s.began a s.life b
      by_cases ours : b = a
      · rw [ours, update_self]
        exact sourced.began
      · rw [update_of_ne ours]
        exact sourced.sources base b member }

theorem fetch (sourced : Sourced program s) (fresh : Fresh program s) {action : Fetch.Action A}
    (running : s.consumer.phase ≠ .idle) (step : Fetch.Step topition program s.consumer action consumer) :
    Sourced program (s.noteRead.setConsumer consumer) := by
  constructor
  case began => exact sourced.began
  case sources =>
    intro base a member
    rcases mem_append.mp member with old | new
    · exact sourced.sources base a old
    · exact sourced.began.trans (fresh.began_of_reads new).ge
  case batches =>
    intro entry member
    rcases step.batches running member with old | ⟨_, _, base, _, _, _, at_, present, decoded, rfl⟩
    · obtain ⟨a, source, content⟩ := sourced.batches entry old
      exact ⟨a, mem_append_left _ source, content⟩
    · obtain ⟨a, writer, -, rfl⟩ := fresh.owned _ _ present
      have source : s.reads = [(base, a)] := State.reads_of_getting at_ present writer
      refine ⟨a, mem_append_right _ (source ▸ mem_singleton_self _), ?_⟩
      rw [(Deflated.Batch.reads_tryFrom (program a).deflated).all] at decoded
      cases decoded
      rfl

theorem step (sourced : Sourced program s) (fresh : Fresh program s) (step : Step topition program s action t) :
    Sourced program t := by
  cases step with
  | call => exact sourced.call _
  | begin =>
    refine ⟨Nat.le_refl _, nofun, fun entry member => ?_⟩
    split at member <;> cases member
  | fetch _ running step => exact sourced.fetch fresh running step
  | returnCreate => exact { sourced with began := sourced.began.trans (Nat.le_succ _) }
  | _ => exact { sourced with }

end Sourced

theorem fresh_of_reachable [DecidableEq A] {topition : Topition}
    (reached : (machine topition program store).ReachableWhile Timely s) (named : topition.topic ≠ "") :
    Fresh program s ∧ Sourced program s := by
  refine reached.invariant (P := fun s => Fresh program s ∧ Sourced program s) ?initial ?preserved
  case initial =>
    rintro _ rfl
    exact ⟨fresh_start store, Nat.le_refl _, nofun, nofun⟩
  case preserved =>
    rintro _ _ _ ⟨fresh, sourced⟩ timely step
    exact ⟨fresh.step named timely step, sourced.step fresh step⟩

/-- On a run in which each produce writes in the topic it started in, and while that is neither deleted
nor created, a fetch takes only batches whose produce started in the topic the fetch started in or in a
later one, and a produce finds no object where it stores its batch. -/
theorem recreated_topic_holds_its_own_batches [DecidableEq A] {topition : Topition} {store : Meta}
    (reached : (machine topition program store).ReachableWhile Timely s) (named : topition.topic ≠ "") :
    (∀ batches base batch, s.consumer.phase = .fetched batches → (base, batch) ∈ batches →
      ∃ a, (base, a) ∈ s.sources ∧ batch = Fetch.batchAt program a base ∧ s.fetchBegan ≤ s.began a) ∧
    (∀ a offset, Timely s (.produce (.put a)) → s.log.phase a = .recorded offset →
      s.log.objects (batchPath offset) = none) := by
  obtain ⟨fresh, sourced⟩ := fresh_of_reachable reached named
  constructor
  · intro batches base batch fetched member
    obtain ⟨a, source, content⟩ := sourced.batches (base, batch) (by rw [fetched]; exact member)
    exact ⟨a, source, content, sourced.sources base a source⟩
  · intro a offset timely at_
    obtain ⟨live, ours⟩ := timely rfl
    have phase := (State.current_phase ours).trans at_
    exact (fresh.live live).absent (by rw [phase]; rfl) (by rw [phase]; rfl)

section Overtaken

open Produce (plainAttempt plainBatch)

def State.fetching {A : Type} (s : State A) (phase : Fetch.Phase) (sources : List (Int × A)) : State A :=
  { s with
    consumer := { s.consumer with position := 0, phase }
    fetchBegan := s.life
    sources }

section First

variable {A : Type} [DecidableEq A] {program : A → Produce.Attempt} {allowed : State A → Action A → Prop} {s : State A}

theorem fetching_next {next : Fetch.Phase}
    (permitted : ∀ s action, (∀ produce, action ≠ .produce produce) → allowed s action)
    (reached : (machine topition program store).ReachableWhile allowed (s.fetching phase []))
    (running : phase ≠ .idle) (quiet : (s.fetching phase []).reads = [])
    (step : Fetch.Step topition program (s.fetching phase []).consumer action (s.fetching next []).consumer) :
    (machine topition program store).ReachableWhile allowed (s.fetching next []) := by
  have taken := reached.next (.fetch (show (s.fetching next []).consumer.log = _ from rfl) running step)
    (permitted _ _ nofun)
  rwa [State.noteRead, quiet] at taken

theorem fetch_first (reached : (machine topition program store).ReachableWhile allowed s)
    (permitted : ∀ s action, (∀ produce, action ≠ .produce produce) → allowed s action) {a : A}
    (idle : s.consumer.phase = .idle) (writer : s.writer (batchPath 0) = some a)
    (present : s.log.objects (batchPath 0) = some plainBatch.toBytes)
    (others : ∀ key, key ≠ batchPath 0 → s.log.objects key = none) :
    (machine topition program store).ReachableWhile allowed
      (s.fetching (.fetched [(0, { plainBatch with baseOffset := Int64.ofInt 0 })]) [(0, a)]) := by
  have complete : Fetch.Listing.Complete { start := 0, atStart := s.log.objects, listed := [0] } :=
    Fetch.complete_single (by decide) others
  have begun := reached.next (.begin 0 1000 1 idle) (permitted _ _ nofun)
  have listed := fetching_next permitted (fetching_next permitted begun nofun rfl (.openProbe rfl)) nofun rfl
    (.listProbe 0 rfl le_rfl (isSome_of_eq_some present))
  have polled := fetching_next permitted (fetching_next permitted listed nofun rfl (.endProbe rfl complete)) nofun rfl
    (.pollQueue rfl rfl)
  change (machine ..).ReachableWhile allowed (s.fetching (.getting _ _ 0) []) at polled
  have got := polled.next (.fetch (by rfl) nofun (.get true rfl present
    (Deflated.Batch.reads_tryFrom plainBatch).all)) (permitted _ _ nofun)
  rw [State.noteRead, State.reads_of_getting (s := s.fetching (.getting _ _ 0) []) rfl present writer] at got
  have taken : Fetch.Phase.take { offset := 0, maxBytes := 1000, highWatermark := 1 }
      { Fetch.Read.begin { offset := 0, maxBytes := 1000, highWatermark := 1 } true [0] none with queue := [] } 0
      plainBatch true = .fetched [(0, { plainBatch with baseOffset := Int64.ofInt 0 })] := by
    simp [Fetch.Phase.take, Fetch.Read.begin, plainBatch, Deflated.Batch.sizeInBytes]
  exact got

end First

/-- A produce takes its offset, the topic is deleted and created again, and the produce stores its batch.
A fetch of the new topic returns that batch, and a produce to the new topic that has passed every check
finds it where it has to store its own. -/
theorem recreated_topic_holds_a_deleted_batch : ∃ s : State Bool,
    (machine ⟨"t", 0⟩ (fun _ => plainAttempt) ⟨∅, ∅⟩).Reachable s ∧ s.Live ∧ s.life = 2 ∧
    (s.began false = 1 ∧ s.fetchBegan = 2 ∧ s.sources = [(0, false)] ∧
      s.consumer.phase = .fetched [(0, Fetch.batchAt (fun _ : Bool => plainAttempt) false 0)]) ∧
    s.began true = 2 ∧ s.log.phase true = .recorded 0 ∧
      s.log.objects (batchPath 0) = some plainAttempt.deflated.toBytes := by
  have start : (machine ⟨"t", 0⟩ (fun _ : Bool => plainAttempt) ⟨∅, ∅⟩).Reachable _ := .init rfl
  have first := ((start.step (.create { id := 1, numPartitions := 1 } rfl rfl)).step (.reset rfl)).step
    (.returnCreate rfl)
  have old := ((((((first.step (.call (a := false) rfl)).step
    (.enter (a := false) rfl mem_cons_self rfl)).step
    (.produce (.checkPlain (a := false) rfl rfl) rfl nofun)).step
    (.produce (.ensure (a := false) rfl mem_cons_self) rfl nofun)).step
    (.produce (.readStart (a := false) rfl mem_cons_self) rfl nofun)).step
    (.produce (.assign (a := false) rfl rfl) rfl nofun)).step
    (.produce (.recordRange (a := false) rfl rfl) rfl nofun)
  have deleted := (((old.step (.delete rfl mem_cons_self)).step (.sweep .watermark rfl)).step
    (.endSweep rfl mem_cons_self nofun)).step (.removeMetadata rfl)
  have second := ((deleted.step (.create { id := 2, numPartitions := 1 } rfl rfl)).step (.reset rfl)).step
    (.returnCreate rfl)
  have stored := second.step (.put (a := false) rfl rfl rfl)
  have new := ((((((stored.step (.call (a := true) rfl)).step
    (.enter (a := true) rfl mem_cons_self rfl)).step
    (.produce (.checkPlain (a := true) rfl rfl) rfl nofun)).step
    (.produce (.ensure (a := true) rfl mem_cons_self) rfl nofun)).step
    (.produce (.readStart (a := true) rfl mem_cons_self) rfl nofun)).step
    (.produce (.assign (a := true) rfl rfl) rfl nofun)).step
    (.produce (.recordRange (a := true) rfl rfl) rfl nofun)
  have fetched := fetch_first new (fun _ _ _ => trivial) rfl (update_self ..)
    (update_self ..) fun key other => update_of_ne other ..
  exact ⟨_, fetched, ⟨rfl, rfl⟩, rfl, ⟨rfl, rfl, rfl, rfl⟩, rfl, rfl, update_self ..⟩

/-- The topic is deleted with the batch that a produce stored in it, and a produce then stores a batch in
the new topic, which a fetch returns. -/
theorem recreated_topic_holds_its_own_batches_second : ∃ s : State Bool,
    (machine ⟨"t", 0⟩ (fun _ => plainAttempt) ⟨∅, ∅⟩).ReachableWhile Timely s ∧
    s.log.phase false = .answered (.appended 0) ∧ s.began false = 1 ∧ s.fetchBegan = 2 ∧
    ∃ a, (0, a) ∈ s.sources ∧ Fetch.batchAt (fun _ : Bool => plainAttempt) true 0 =
      Fetch.batchAt (fun _ : Bool => plainAttempt) a 0 ∧ s.fetchBegan ≤ s.began a := by
  have start : (machine ⟨"t", 0⟩ (fun _ : Bool => plainAttempt) ⟨∅, ∅⟩).ReachableWhile Timely _ := .init rfl
  have first := ((start.next (.create { id := 1, numPartitions := 1 } rfl rfl) trivial).next
    (.reset rfl) trivial).next (.returnCreate rfl) trivial
  have old := ((((((((first.next (.call (a := false) rfl) trivial).next
    (.enter (a := false) rfl mem_cons_self rfl) trivial).next
    (.produce (.checkPlain (a := false) rfl rfl) rfl nofun) nofun).next
    (.produce (.ensure (a := false) rfl mem_cons_self) rfl nofun) nofun).next
    (.produce (.readStart (a := false) rfl mem_cons_self) rfl nofun) nofun).next
    (.produce (.assign (a := false) rfl rfl) rfl nofun) fun _ => ⟨⟨rfl, rfl⟩, rfl⟩).next
    (.produce (.recordRange (a := false) rfl rfl) rfl nofun) nofun).next
    (.put (a := false) rfl rfl rfl) fun _ => ⟨⟨rfl, rfl⟩, rfl⟩).next
    (.produce (.advancePlain (a := false) rfl rfl) rfl nofun) nofun
  have deleted := ((((old.next (.delete rfl mem_cons_self) trivial).next
    (.sweep .watermark rfl) trivial).next (.sweep (.record (batchPath 0)) rfl) trivial).next
    (.endSweep rfl (by simp) (by
      intro name present
      by_contra missing
      have apart : name ≠ batchPath 0 := by
        intro same
        exact missing (same ▸ mem_cons_self)
      have absent := (update_of_ne apart ..).symm.trans (eq_some_of_isSome present)
      cases absent)) trivial).next (.removeMetadata rfl) trivial
  have second := ((deleted.next (.create { id := 2, numPartitions := 1 } rfl rfl) trivial).next
    (.reset rfl) trivial).next (.returnCreate rfl) trivial
  have new := (((((((second.next (.call (a := true) rfl) trivial).next
    (.enter (a := true) rfl mem_cons_self rfl) trivial).next
    (.produce (.checkPlain (a := true) rfl rfl) rfl nofun) nofun).next
    (.produce (.ensure (a := true) rfl mem_cons_self) rfl nofun) nofun).next
    (.produce (.readStart (a := true) rfl mem_cons_self) rfl nofun) nofun).next
    (.produce (.assign (a := true) rfl rfl) rfl nofun) fun _ => ⟨⟨rfl, rfl⟩, rfl⟩).next
    (.produce (.recordRange (a := true) rfl rfl) rfl nofun) nofun).next
    (.put (a := true) rfl rfl (update_self ..)) fun _ => ⟨⟨rfl, rfl⟩, rfl⟩
  have fetched := fetch_first new ?_ rfl (update_self ..) (update_self ..)
    fun key other => (update_of_ne other ..).trans ((update_of_ne other ..).trans
      (update_of_ne other ..))
  · exact ⟨_, fetched, rfl, rfl, rfl,
      (recreated_topic_holds_its_own_batches fetched (by decide)).1 _ 0 _ rfl (mem_singleton_self _)⟩
  · rintro _ (_ | _ | produce | _ | _ | _ | _ | _ | _ | _ | _ | _ | _) other <;> try trivial
    exact absurd rfl (other produce)

end Overtaken

end Topic

end Nisshi.Dynostore
