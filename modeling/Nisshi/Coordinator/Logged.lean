import Nisshi.Coordinator.Controller

/-! What the documents in storage are and what each request knows of them, in every run of the coordinators:
a document is what a request made of the one before it, and a cached group is a copy of a document. -/

namespace Nisshi.Coordinator

open Nisshi.SansIo Nisshi.Storage Nisshi.Lib List Option

/-! The handling of one request. -/

namespace Request

variable {request : Request} {delay : Duration} {uuid memberId other : String} {now : SystemTime}
  {group : Wrapper}

theorem run_sound (sound : group.Sound) : (request.run delay uuid now memberId group).1.Sound := by
  have settled : (group.settle now).Sound := sound.passes (group.settle_passes now)
  cases request with
  | join => exact settled.join
  | sync => exact settled.sync
  | leave => exact settled.passes (Wrapper.leave_passes _ now _ _)
  | heartbeat => exact settled.passes (Wrapper.heartbeat_passes _ now _ _ _)
  | offsetCommit detail =>
    have checked : ((group.settle now).checkOffsetCommit now detail).1.Sound :=
      settled.passes (Wrapper.checkOffsetCommit_passes _ now detail)
    simp only [run, handle]
    split
    all_goals
      next equation =>
        rw [equation] at checked
        exact checked

theorem run_held (held : (request.run delay uuid now memberId group).2 = .held other) :
    request.answersFromStorage = false := by
  cases request with
  | join | sync => rfl
  | leave | heartbeat => cases held
  | offsetCommit =>
    simp only [run, handle] at held
    split at held <;> cases held

theorem run_accepted (accepted : (request.run delay uuid now memberId group).2 = .accepted) :
    request.answersFromStorage = true := by
  cases request with
  | join request =>
    simp only [run, handle] at accepted
    generalize ((group.settle now).join now uuid (request.resolve memberId) delay).2 = reply at accepted
    cases reply <;> cases accepted
  | sync request =>
    simp only [run, handle] at accepted
    generalize ((group.settle now).sync now request).2 = reply at accepted
    cases reply <;> cases accepted
  | _ => rfl

/-- A request that neither stores the group nor reads it again ran on a group from storage, and did not
change it, when it is one that is answered from storage. -/
theorem unchanged_of_answersFromStorage {version : Option V} {updated : Wrapper}
    (reads : request.answersFromStorage = true) (cached : source = .cache → request.readsCache = true)
    (unstored : request.stores group updated version = false) (last : request.rereads source = false) :
    updated = group ∧ source = .storage := by
  cases request with
  | join | sync => cases reads
  | leave | heartbeat =>
    cases source with
    | cache => cases last
    | storage => exact ⟨by simpa [stores] using unstored, rfl⟩
  | offsetCommit =>
    cases source with
    | cache => cases cached rfl
    | storage =>
      have same : updated = group ∧ version.isSome = true := by simpa [stores] using unstored
      exact ⟨same.1, rfl⟩

end Request

/-! What the documents in storage are, and what a request knows of them. -/

variable {C R V : Type}

def documentAt (log : List (Entry R V)) : Nat → Option GroupDetail
  | 0 => none
  | n + 1 => log[n]?.map (·.document)

def Reads : Option GroupDetail → Wrapper → Prop
  | none, group => ∃ inception, group = .new inception
  | some detail, group => group = .withStorageGroupDetail detail

def Copies : Option GroupDetail → Wrapper → Prop
  | none, group => ∃ inception, group = .new inception
  | some detail, group => group = .withStorageGroupDetail detail ∨ group.toGroupDetail = detail

def Answers (request : Request) : Verdict → Body → Prop
  | .ready body, answer => answer = body
  | .held _, _ => False
  | .accepted, answer => ∃ response, answer = request.committed response

def Phase.isOpen : Phase V → Bool
  | .stored .. => false
  | .committing => false
  | .answered _ => false
  | _ => true

/-- A request that stored the group is answered, or about to be answered, with what it got in that step,
unless it is held. -/
def Acknowledged (request : Request) : Verdict → Phase V → Prop
  | .ready body, phase => phase = .answered body ∨ ∃ group version, phase = .stored group version (.ready body)
  | .held _, _ => True
  | .accepted, phase => (∃ response, phase = .answered (request.committed response)) ∨ phase = .committing ∨
      ∃ group version, phase = .stored group version .accepted

section Invariant

variable (program : R → Request) (broker : R → C) (config : C → GroupCoordinatorConfig)

def Ran (r : R) (memberId : String) (group updated : Wrapper) (verdict : Verdict) : Prop :=
  ∃ uuid now, (program r).run (config (broker r)).initialRebalanceDelay uuid now memberId group = (updated, verdict)

def IsStep (group : Wrapper) (entry : Entry R V) : Prop :=
  ∃ updated : Wrapper, Ran program broker config entry.request entry.memberId group updated entry.verdict ∧
    entry.document = updated.toGroupDetail

def Follows (document : Option GroupDetail) (entry : Entry R V) : Prop :=
  ∃ group, Reads document group ∧ IsStep program broker config group entry

/-- The request is answered as by a group that the answer does not change, read from the document that was
stored after `n` others. -/
def AnsweredAt (log : List (Entry R V)) (r : R) (n : Nat) (answer : Verdict → Prop) : Prop :=
  ∃ group memberId verdict, Reads (documentAt log n) group ∧
    Ran program broker config r memberId group group verdict ∧ answer verdict

/-- The group is a sound copy of the document that has this version. -/
structure Copy (log : List (Entry R V)) (version : Option V) (group : Wrapper) : Prop where
  sound : group.Sound
  unstored : version = none → ∃ inception, group = .new inception
  stored : ∀ v, version = some v → ∃ entry ∈ log, entry.version = v ∧ Copies (some entry.document) group

/-- The member ids that a request is run for: its own, and the one that an earlier run of it was held with. -/
inductive RunsFor (log : List (Entry R V)) (r : R) : String → Prop where
  | own : RunsFor log r (program r).memberId
  | held {version group memberId updated other} (runs : RunsFor log r memberId) (copy : Copy log version group)
      (ran : Ran program broker config r memberId group updated (.held other)) : RunsFor log r other

/-- The request has stored the group, or its answer comes from a document that was stored while it ran. -/
def Grounded (log : List (Entry R V)) (began : Nat) (r : R) (answer : Verdict → Prop) : Prop :=
  (∃ entry ∈ log, entry.request = r) ∨ ∃ n, began ≤ n ∧ n ≤ log.length ∧ AnsweredAt program broker config log r n answer

def Knows (log : List (Entry R V)) (began : Nat) (r : R) : Phase V → Prop
  | .looping memberId _ => RunsFor program broker config log r memberId
  | .missed memberId _ => RunsFor program broker config log r memberId
  | .fetched memberId _ found n => RunsFor program broker config log r memberId ∧ began ≤ n ∧ n ≤ log.length ∧
      documentAt log n = found.map (·.1) ∧
      ∀ detail version, found = some (detail, version) →
        ∃ entry ∈ log, entry.version = version ∧ entry.document = detail
  | .found memberId _ group version source n => RunsFor program broker config log r memberId ∧ Copy log version group ∧
      (source = .cache → (program r).readsCache = true) ∧
      (source = .storage → began ≤ n ∧ n ≤ log.length ∧ Reads (documentAt log n) group)
  | .storing memberId _ version updated verdict => RunsFor program broker config log r memberId ∧
      ∃ group, Copy log version group ∧ Ran program broker config r memberId group updated verdict
  | .stored updated version verdict => Copy log (some version) updated ∧
      (∃ entry ∈ log, entry.request = r) ∧ ∀ memberId, verdict = .held memberId →
        RunsFor program broker config log r memberId ∧ (program r).answersFromStorage = false
  | .outdated memberId _ current version => RunsFor program broker config log r memberId ∧
      ∃ entry ∈ log, entry.version = version ∧ entry.document = current
  | .held memberId _ => RunsFor program broker config log r memberId ∧ (program r).answersFromStorage = false
  | .committing => Grounded program broker config log began r (· = .accepted)
  | .answered body => (program r).answersFromStorage = true →
      Grounded program broker config log began r (Answers (program r) · body)
  | _ => True

structure Logged (s : State C R V) : Prop where
  sound : ∀ entry ∈ s.log, ∃ group : Wrapper, group.Sound ∧ entry.document = group.toGroupDetail
  named : ∀ entry ∈ s.log, ∀ other ∈ s.log, entry.version = other.version → entry.document = other.document
  steps : ∀ n entry, s.log[n]? = some entry →
    RunsFor program broker config (s.log.take n) entry.request entry.memberId ∧ ∃ group : Wrapper, group.Sound ∧
      Copies (documentAt s.log n) group ∧ IsStep program broker config group entry
  acknowledged : ∀ entry ∈ s.log, Acknowledged (program entry.request) entry.verdict (s.phase entry.request)
  cache : ∀ c learned, s.cache c = some learned → Copy s.log learned.version learned.group
  began : ∀ r, s.began r ≤ s.log.length
  knows : ∀ r, Knows program broker config s.log (s.began r) r (s.phase r)

end Invariant

section Lemmas

variable {program : R → Request} {broker : R → C} {config : C → GroupCoordinatorConfig}
  {log rest : List (Entry R V)} {n began : Nat} {r : R} {version : Option V} {group : Wrapper}

theorem documentAt_append (within : n ≤ log.length) : documentAt (log ++ rest) n = documentAt log n := by
  cases n with
  | zero => rfl
  | succ => rw [documentAt, documentAt, getElem?_append_left within]

theorem documentAt_length : documentAt log log.length = log.getLast?.map (·.document) := by
  rw [getLast?_eq_getElem?]
  cases size : log.length with
  | zero => rw [length_eq_zero_iff.mp size]; rfl
  | succ => rfl

theorem Copy.append (copy : Copy log version group) : Copy (log ++ rest) version group :=
  { copy with
    stored := fun v given => by
      obtain ⟨entry, member, named, copies⟩ := copy.stored v given
      exact ⟨entry, mem_append_left rest member, named, copies⟩ }

theorem RunsFor.append (runs : RunsFor program broker config log r memberId) :
    RunsFor program broker config (log ++ rest) r memberId := by
  induction runs with
  | own => exact .own
  | held _ copy ran ih => exact .held ih copy.append ran

theorem Grounded.append {answer : Verdict → Prop} (grounded : Grounded program broker config log began r answer) :
    Grounded program broker config (log ++ rest) began r answer := by
  rcases grounded with ⟨entry, member, stored⟩ | ⟨n, after, before, answered⟩
  · exact .inl ⟨entry, mem_append_left rest member, stored⟩
  · refine .inr ⟨n, after, Nat.le_trans before (by rw [length_append]; omega), ?_⟩
    rw [AnsweredAt, documentAt_append before]
    exact answered

theorem Knows.append {phase : Phase V} (knows : Knows program broker config log began r phase) :
    Knows program broker config (log ++ rest) began r phase := by
  have longer : ∀ {n}, n ≤ log.length → n ≤ (log ++ rest).length := by
    rw [length_append]
    omega
  cases phase with
  | looping | missed => exact RunsFor.append knows
  | held => exact ⟨knows.1.append, knows.2⟩
  | fetched =>
    obtain ⟨runs, after, before, document, known⟩ := knows
    refine ⟨runs.append, after, longer before, by rw [documentAt_append before]; exact document, ?_⟩
    intro detail version given
    obtain ⟨entry, member, same⟩ := known detail version given
    exact ⟨entry, mem_append_left rest member, same⟩
  | found =>
    obtain ⟨runs, copy, reads, read⟩ := knows
    refine ⟨runs.append, copy.append, reads, fun stored => ?_⟩
    obtain ⟨after, before, reads⟩ := read stored
    exact ⟨after, longer before, by rw [documentAt_append before]; exact reads⟩
  | storing =>
    obtain ⟨runs, group, copy, ran⟩ := knows
    exact ⟨runs.append, group, copy.append, ran⟩
  | stored =>
    obtain ⟨copy, ⟨entry, member, stored⟩, held⟩ := knows
    exact ⟨copy.append, ⟨entry, mem_append_left rest member, stored⟩,
      fun memberId given => (held memberId given).imp_left RunsFor.append⟩
  | outdated =>
    obtain ⟨runs, entry, member, same⟩ := knows
    exact ⟨runs.append, entry, mem_append_left rest member, same⟩
  | committing => exact Grounded.append knows
  | answered => exact fun reads => (knows reads).append
  | _ => exact knows

theorem Copy.copies {s : State C R V} (copy : Copy s.log version group)
    (named : ∀ entry ∈ s.log, ∀ other ∈ s.log, entry.version = other.version → entry.document = other.document)
    (same : s.stored.map (·.2) = version) : Copies (documentAt s.log s.log.length) group := by
  rw [documentAt_length]
  cases last : s.log.getLast? with
  | none =>
    rw [State.stored, last] at same
    exact copy.unstored same.symm
  | some entry =>
    rw [State.stored, last] at same
    obtain ⟨other, member, equal, copies⟩ := copy.stored _ same.symm
    rw [map_some, named entry (mem_of_getLast? last) other member equal.symm]
    exact copies

theorem Copy.read {entry : Entry R V} (member : entry ∈ log)
    (sound : ∃ group : Wrapper, group.Sound ∧ entry.document = group.toGroupDetail) :
    Copy log (some entry.version) (.withStorageGroupDetail entry.document) where
  sound := by
    obtain ⟨_, sound, same⟩ := sound
    rw [same]
    exact sound.withStorageGroupDetail
  unstored := nofun
  stored := by
    rintro _ ⟨⟩
    exact ⟨entry, member, rfl, .inl rfl⟩

theorem Copy.new : Copy log none (.new inception) :=
  ⟨Wrapper.sound_new inception, fun _ => ⟨inception, rfl⟩, nofun⟩

theorem reads_of_copies (sound : group.Sound)
    (copies : Copies document group) (known : document.all GroupDetail.leaderIsMember = true) :
    Reads document group := by
  cases document with
  | none => exact copies
  | some =>
    rcases copies with read | stored
    · exact read
    · rw [← stored] at known
      rw [← stored]
      exact (sound.read_back known).symm

theorem Acknowledged.of_isOpen {request : Request} {phase next : Phase V}
    (acknowledged : Acknowledged request verdict phase) (unanswered : phase.isOpen = true) :
    Acknowledged request verdict next := by
  cases verdict with
  | held => trivial
  | ready => rcases acknowledged with rfl | ⟨_, _, rfl⟩ <;> cases unanswered
  | accepted => rcases acknowledged with ⟨_, rfl⟩ | rfl | ⟨_, _, rfl⟩ <;> cases unanswered

namespace Logged

variable [DecidableEq C] [DecidableEq R] {s t : State C R V} {phase : Phase V}

omit [DecidableEq C] [DecidableEq R] in
theorem knows_at (logged : Logged program broker config s) (at_ : s.phase r = phase) :
    Knows program broker config s.log (s.began r) r phase :=
  at_ ▸ logged.knows r

omit [DecidableEq C] in
theorem setPhase (logged : Logged program broker config s)
    (knows : Knows program broker config s.log (s.began r) r phase) (acknowledged : ∀ entry ∈ s.log, entry.request = r →
      Acknowledged (program r) entry.verdict phase) : Logged program broker config (s.setPhase r phase) :=
  { logged with
    acknowledged := fun entry member => by
      by_cases acts : entry.request = r
      · subst acts
        simpa only [State.setPhase, Function.update_self] using acknowledged entry member rfl
      · simpa only [State.setPhase, Function.update_of_ne acts] using logged.acknowledged entry member
    knows := (Function.forall_update_iff s.phase fun q phase =>
      Knows program broker config s.log (s.began q) q phase).mpr ⟨knows, fun q _ => logged.knows q⟩ }

omit [DecidableEq C] in
theorem move (logged : Logged program broker config s) (unanswered : (s.phase r).isOpen = true)
    (knows : Knows program broker config s.log (s.began r) r phase) :
    Logged program broker config (s.setPhase r phase) :=
  logged.setPhase knows fun entry member acts => by
    subst acts
    exact (logged.acknowledged entry member).of_isOpen unanswered

omit [DecidableEq R] in
theorem learn (logged : Logged program broker config s) {c : C} {group : Wrapper} {version : V}
    (copy : Copy s.log (some version) group) : Logged program broker config (s.learn c group version) :=
  { logged with
    cache := (Function.forall_update_iff s.cache fun _ cached => ∀ learned, cached = some learned →
      Copy s.log learned.version learned.group).mpr
        ⟨by rintro _ ⟨⟩; exact copy, fun c _ => logged.cache c⟩ }

omit [DecidableEq C] in
theorem arrive (logged : Logged program broker config s) (at_ : s.phase r = .idle) {maxAge : Duration} :
    Logged program broker config ((s.begin r).setPhase r (.looping (program r).memberId maxAge)) := by
  have began : Logged program broker config (s.begin r) :=
    { logged with
      began := (Function.forall_update_iff s.began fun _ began => began ≤ s.log.length).mpr
        ⟨Nat.le_refl _, fun q _ => logged.began q⟩
      knows := fun q => by
        by_cases same : q = r
        · subst same
          simp only [State.begin, at_]
          trivial
        · simpa only [State.begin, Function.update_of_ne same] using logged.knows q }
  have idle : ((s.begin r).phase r).isOpen = true := by
    rw [State.begin, at_]
    rfl
  exact began.move idle .own

omit [DecidableEq C] [DecidableEq R] in
theorem knows_ofVerdict {updated : Wrapper} {verdict : Verdict} (held : ∀ memberId, verdict = .held memberId →
      RunsFor program broker config log r memberId ∧ (program r).answersFromStorage = false)
    (grounded : (program r).answersFromStorage = true ∨ verdict = .accepted →
      Grounded program broker config log began r (· = verdict)) :
    Knows program broker config log began r (.ofVerdict updated verdict) := by
  cases verdict with
  | held memberId => exact held memberId rfl
  | accepted => exact grounded (.inr rfl)
  | ready =>
    intro reads
    rcases grounded (.inl reads) with stored | ⟨n, after, before, group, memberId, _, read, ran, rfl⟩
    · exact .inl stored
    · exact .inr ⟨n, after, before, group, memberId, _, read, ran, rfl⟩

omit [DecidableEq C] [DecidableEq R] in
theorem knows_proceed {memberId : String} {maxAge : Duration} {version : Option V} {source : Source}
    {updated : Wrapper} {verdict : Verdict}
    (knows : Knows program broker config log began r (.found memberId maxAge group version source n))
    (ran : Ran program broker config r memberId group updated verdict) :
    Knows program broker config log began r
      ((program r).proceed memberId maxAge group version source updated verdict) := by
  obtain ⟨runs, copy, cached, read⟩ := knows
  rw [Request.proceed]
  split
  next => exact ⟨runs, group, copy, ran⟩
  next unstored =>
    split
    next => exact runs
    next last =>
      have step := ran
      obtain ⟨uuid, now, ran⟩ := ran
      have verdict_eq : ((program r).run (config (broker r)).initialRebalanceDelay uuid now memberId
        group).2 = verdict := by rw [ran]
      refine knows_ofVerdict (fun other held => ⟨.held runs copy (held ▸ step),
        Request.run_held (verdict_eq.trans held)⟩) fun reads => ?_
      have reads : (program r).answersFromStorage = true :=
        reads.elim id fun accepted => Request.run_accepted (verdict_eq.trans accepted)
      obtain ⟨rfl, stored⟩ := Request.unchanged_of_answersFromStorage reads cached (by simpa using unstored)
        (by simpa using last)
      obtain ⟨after, before, readFrom⟩ := read stored
      exact .inr ⟨n, after, before, updated, memberId, verdict, readFrom, step, rfl⟩

omit [DecidableEq C] in
theorem store (logged : Logged program broker config s) {memberId : String} {maxAge : Duration}
    {expected : Option V} {updated : Wrapper} {verdict : Verdict} {version : V}
    (at_ : s.phase r = .storing memberId maxAge expected updated verdict) (same : s.stored.map (·.2) = expected)
    (names : ∀ entry ∈ s.log, entry.version = version → entry.document = updated.toGroupDetail) :
    Logged program broker config
      ((s.store { request := r, memberId, document := updated.toGroupDetail, version, verdict }).setPhase r
        (.stored updated version verdict)) := by
  obtain ⟨runs, group, copy, ran⟩ := logged.knows_at at_
  have sound : updated.Sound := by
    obtain ⟨uuid, now, ran⟩ := ran
    have result : ((program r).run (config (broker r)).initialRebalanceDelay uuid now memberId group).1 =
      updated := by rw [ran]
    rw [← result]
    exact Request.run_sound copy.sound
  have held : ∀ other, verdict = .held other → RunsFor program broker config s.log r other ∧
      (program r).answersFromStorage = false := by
    rintro _ rfl
    refine ⟨.held runs copy ran, ?_⟩
    obtain ⟨_, _, ran⟩ := ran
    exact Request.run_held (congrArg Prod.snd ran)
  refine ⟨?sound, ?named, ?steps, ?acknowledged, fun c learned cached => (logged.cache c learned cached).append,
    ?began, ?knows⟩
  case sound =>
    exact Log.forall_mem_concat.mpr ⟨logged.sound, ⟨updated, sound, rfl⟩⟩
  case named =>
    intro entry member other otherMember equal
    rcases Log.mem_concat.mp member with earlier | rfl <;>
      rcases Log.mem_concat.mp otherMember with otherEarlier | rfl
    · exact logged.named entry earlier other otherEarlier equal
    · exact names entry earlier equal
    · exact (names other otherEarlier equal.symm).symm
    · rfl
  case steps =>
    intro n entry found
    rcases Log.found_concat found with earlier | ⟨rfl, rfl⟩
    · have within := Nat.le_of_lt (Log.lt_length earlier)
      rw [State.setPhase, State.store, documentAt_append within, take_append_of_le_length within]
      exact logged.steps n entry earlier
    · rw [State.setPhase, State.store, documentAt_append (Nat.le_refl _), take_left]
      exact ⟨runs, group, copy.sound, copy.copies logged.named same, updated, ran, rfl⟩
  case acknowledged =>
    intro entry member
    rcases Log.mem_concat.mp member with earlier | rfl
    · by_cases acts : entry.request = r
      · subst acts
        exact (logged.acknowledged entry earlier).of_isOpen (by rw [at_]; rfl)
      · simpa only [State.setPhase, State.store, Function.update_of_ne acts] using
          logged.acknowledged entry earlier
    · simp only [State.setPhase, Function.update_self]
      cases verdict with
      | ready => exact .inr ⟨_, _, rfl⟩
      | held => trivial
      | accepted => exact .inr (.inr ⟨_, _, rfl⟩)
  case began =>
    intro q
    have bound := logged.began q
    simp only [State.setPhase, State.store, List.length_append]
    omega
  case knows =>
    refine (Function.forall_update_iff s.phase fun q phase =>
      Knows program broker config _ (s.began q) q phase).mpr ⟨?_, fun q _ => (logged.knows q).append⟩
    have last : (⟨r, memberId, updated.toGroupDetail, version, verdict⟩ : Entry R V) ∈
      s.log ++ [⟨r, memberId, updated.toGroupDetail, version, verdict⟩] := List.mem_append_right _ List.mem_cons_self
    exact ⟨⟨sound, nofun, by rintro _ ⟨⟩; exact ⟨_, last, rfl, .inr rfl⟩⟩, ⟨_, last, rfl⟩,
      fun other given => (held other given).imp_left RunsFor.append⟩

omit [DecidableEq C] [DecidableEq R] in
theorem exists_of_stored {detail : GroupDetail} {version : V} (held : s.stored = some (detail, version)) :
    ∃ entry ∈ s.log, entry.version = version ∧ entry.document = detail := by
  obtain ⟨entry, last, pair⟩ := Option.map_eq_some_iff.mp held
  cases pair
  exact ⟨entry, List.mem_of_getLast? last, rfl, rfl⟩

theorem step (logged : Logged program broker config s) (step : Step program broker config s action t) :
    Logged program broker config t := by
  cases step with
  | @refuse r body at_ refused =>
    refine logged.move (by rw [at_]; rfl) fun reads => ?_
    cases request : program r with
    | join => rw [request] at reads; cases reads
    | _ => rw [request] at refused; cases refused
  | arrive at_ => exact logged.arrive at_
  | @hit r memberId maxAge elapsed learned at_ reads recent =>
    have knows := logged.knows_at at_
    have cached : s.cache (broker r) = some learned := by
      rw [cached] at recent
      split at recent
      exacts [recent, nomatch recent]
    exact logged.move (by rw [at_]; rfl) ⟨knows, logged.cache _ _ cached, fun _ => reads, nofun⟩
  | miss at_ =>
    have knows := logged.knows_at at_
    exact logged.move (by rw [at_]; rfl) knows
  | @read r memberId maxAge at_ =>
    have knows := logged.knows_at at_
    refine logged.move (by rw [at_]; rfl) ⟨knows, logged.began r, Nat.le_refl _, ?_, ?_⟩
    · rw [documentAt_length, State.stored, Option.map_map]
      rfl
    · exact fun detail version held => exists_of_stored held
  | learn at_ =>
    obtain ⟨runs, after, before, document, known⟩ := logged.knows_at at_
    obtain ⟨entry, member, rfl, rfl⟩ := known _ _ rfl
    have copy := Copy.read member (logged.sound entry member)
    refine (logged.learn copy).move (by simp only [State.learn, at_]; rfl)
      ⟨runs, copy, nofun, fun _ => ⟨after, before, ?_⟩⟩
    rw [State.learn, document]
    rfl
  | @make r memberId maxAge n inception at_ =>
    obtain ⟨runs, after, before, document, _⟩ := logged.knows_at at_
    refine logged.move (by rw [at_]; rfl) ⟨runs, Copy.new, nofun, fun _ => ⟨after, before, ?_⟩⟩
    rw [document]
    exact ⟨inception, rfl⟩
  | run at_ ran =>
    have knows := logged.knows_at at_
    exact logged.move (by rw [at_]; rfl) (knows_proceed knows ⟨_, _, ran⟩)
  | store at_ same names => exact logged.store at_ same names
  | conflict at_ held =>
    have knows := logged.knows_at at_
    exact logged.move (by rw [at_]; rfl) ⟨knows.1, exists_of_stored held⟩
  | cacheStored at_ =>
    obtain ⟨copy, stored, held⟩ := logged.knows_at at_
    refine (logged.learn copy).setPhase (knows_ofVerdict held fun _ => .inl stored) ?_
    rintro entry member rfl
    have acknowledged := logged.acknowledged entry member
    rw [at_] at acknowledged
    cases given : entry.verdict with
    | held => trivial
    | ready =>
      rw [given] at acknowledged
      rcases acknowledged with answered | ⟨_, _, same⟩
      · cases answered
      · cases same
        exact .inl rfl
    | accepted =>
      rw [given] at acknowledged
      rcases acknowledged with ⟨_, answered⟩ | committing | ⟨_, _, same⟩
      · cases answered
      · cases committing
      · cases same
        exact .inr (.inl rfl)
  | cacheOutdated at_ =>
    obtain ⟨runs, entry, member, rfl, rfl⟩ := logged.knows_at at_
    exact (logged.learn (Copy.read member (logged.sound entry member))).move
      (by simp only [State.learn, at_]; rfl) runs
  | wake at_ =>
    have knows := logged.knows_at at_
    exact logged.move (by rw [at_]; rfl) knows.1
  | giveUp at_ =>
    have knows := logged.knows_at at_
    refine logged.move (by rw [at_]; rfl) fun reads => ?_
    rw [knows.2] at reads
    cases reads
  | @commit r response at_ =>
    have knows := logged.knows_at at_
    refine logged.setPhase (fun _ => ?_) ?_
    · rcases knows with stored | ⟨n, after, before, group, memberId, _, read, ran, rfl⟩
      · exact .inl stored
      · exact .inr ⟨n, after, before, group, memberId, _, read, ran, response, rfl⟩
    · rintro entry member rfl
      have acknowledged := logged.acknowledged entry member
      rw [at_] at acknowledged
      cases given : entry.verdict with
      | held => trivial
      | ready =>
        rw [given] at acknowledged
        rcases acknowledged with answered | ⟨_, _, stored⟩
        · cases answered
        · cases stored
      | accepted => exact .inl ⟨response, rfl⟩
  | failRead at_ | failStore at_ => exact logged.move (by rw [at_]; rfl) trivial

end Logged

theorem logged_of_reachable [DecidableEq C] [DecidableEq R] {s : State C R V}
    (reached : (machine program broker config).Reachable s) : Logged program broker config s := by
  refine Machine.Reachable.invariant ?_ (fun _ _ _ logged step => logged.step step) reached
  rintro _ rfl
  have none : ∀ entry, entry ∉ (State.start : State C R V).log := fun _ => not_mem_nil
  refine ⟨fun entry member => absurd member (none entry), fun entry member => absurd member (none entry),
    fun n entry found => absurd (mem_of_getElem? found) (none entry),
    fun entry member => absurd member (none entry), fun _ _ cached => ?_, fun _ => Nat.le_refl 0,
    fun _ => trivial⟩
  cases cached

end Lemmas

end Nisshi.Coordinator
