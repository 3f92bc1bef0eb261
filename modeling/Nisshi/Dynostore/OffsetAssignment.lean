import Nisshi.Lib.Tiling
import Nisshi.Dynostore.Produce

/-! The offsets that the watermark hands out tile the log, and each batch object is written once, at the
offset its attempt was given. -/

namespace Nisshi.Dynostore.Produce

open Nisshi.Lib Nisshi.SansIo Option Function

namespace Phase

@[simp]
def offset : Phase → Option Int
  | .assigned offset => some offset
  | .recorded offset => some offset
  | .stored offset => some offset
  | .answered (.appended offset) => some offset
  | _ => none

@[simp]
def written : Phase → Option Int
  | .stored offset => some offset
  | .answered (.appended offset) => some offset
  | _ => none

@[simp]
def failed : Phase → Bool
  | .answered (.failed _) => true
  | _ => false

@[simp]
def finished : Phase → Bool
  | .stored _ => true
  | .answered _ => true
  | _ => false

end Phase

def Attempt.size (attempt : Attempt) : Int :=
  attempt.delta + 1

theorem Attempt.size_pos (attempt : Attempt) : 0 < attempt.size := by
  have := attempt.delta_nonneg
  simp only [Attempt.size, Attempt.delta]
  omega

variable {A : Type} {program : A → Attempt} {s : State A}

structure Assigned (program : A → Attempt) (s : State A) : Prop where
  tiled : Tiled (fun a => (program a).size) 0 s.taken s.watermark.next
  taken : ∀ a offset, (a, offset) ∈ s.taken → (s.phase a).offset = some offset ∨ (s.phase a).failed = true
  holds : ∀ a offset, (s.phase a).offset = some offset → (a, offset) ∈ s.taken
  object : ∀ key bytes, s.objects key = some bytes → ∃ a offset, (a, offset) ∈ s.taken ∧
    key = batchPath offset ∧ bytes = (program a).deflated.toBytes ∧ (s.phase a).finished = true
  written : ∀ a offset, (s.phase a).written = some offset →
    s.objects (batchPath offset) = some (program a).deflated.toBytes

theorem assigned_start (store : Meta) : Assigned program (State.start store : State A) where
  tiled := .nil
  taken := nofun
  holds := nofun
  object := nofun
  written := nofun

namespace Assigned

variable (assigned : Assigned program s)

include assigned

theorem congr (watermark : t.watermark.next = s.watermark.next) (taken : t.taken = s.taken)
    (phase : t.phase = s.phase) (objects : t.objects = s.objects) : Assigned program t where
  tiled := by rw [watermark, taken]; exact assigned.tiled
  taken := by rw [taken, phase]; exact assigned.taken
  holds := by rw [taken, phase]; exact assigned.holds
  object := by rw [taken, phase, objects]; exact assigned.object
  written := by rw [phase, objects]; exact assigned.written

theorem setPhase [DecidableEq A] {a : A}
    (moved : ∀ offset, (s.phase a).offset = some offset ∨ (s.phase a).failed = true →
      next.offset = some offset ∨ next.failed = true)
    (offset : ∀ offset, next.offset = some offset → (s.phase a).offset = some offset)
    (finished : (s.phase a).finished = true → next.finished = true) (written : ∀ offset, next.written = some offset →
      s.objects (batchPath offset) = some (program a).deflated.toBytes) : Assigned program (s.setPhase a next) where
  tiled := assigned.tiled
  taken := State.forall_setPhase
    (P := fun b phase => ∀ offset, (b, offset) ∈ s.taken → phase.offset = some offset ∨ phase.failed = true)
    (fun offset member => moved offset (assigned.taken a offset member)) (fun b _ => assigned.taken b)
  holds := State.forall_setPhase
    (P := fun b phase => ∀ first, phase.offset = some first → (b, first) ∈ s.taken)
    (fun first same => assigned.holds a first (offset first same)) (fun b _ => assigned.holds b)
  object := by
    intro key bytes present
    obtain ⟨b, first, member, path, same, done⟩ := assigned.object key bytes present
    refine ⟨b, first, member, path, same, ?_⟩
    exact State.forall_setPhase
      (P := fun b phase => (s.phase b).finished = true → phase.finished = true) finished
      (fun _ _ done => done) b done
  written := State.forall_setPhase
    (P := fun b phase => ∀ first, phase.written = some first →
      s.objects (batchPath first) = some (program b).deflated.toBytes)
    written (fun b _ => assigned.written b)

theorem pass [DecidableEq A] {a : A} {next : Phase}
    (waiting : (s.phase a).offset = none ∧ (s.phase a).finished = false) (offset : next.offset = none)
    (written : next.written = none) : Assigned program (s.setPhase a next) := by
  have running : (s.phase a).failed = false := by
    cases at_ : s.phase a <;> simp [at_] at waiting ⊢
  refine assigned.setPhase (fun first moved => ?_) (fun first same => ?_) (fun done => ?_)
    (fun first same => ?_)
  · rw [waiting.1, running] at moved
    rcases moved with moved | moved <;> cases moved
  · rw [offset] at same
    cases same
  · rw [waiting.2] at done
    cases done
  · rw [written] at same
    cases same

theorem fail [DecidableEq A] (a : A) (error : Error) : Assigned program (s.setPhase a (.answered (.failed error))) :=
  assigned.setPhase (fun _ _ => .inr rfl) nofun (fun _ => rfl) nofun

theorem setStore (store : Meta) : Assigned program (s.setStore store) :=
  { assigned with }

theorem noteAdvanced (a : A) (offset : Int) : Assigned program (s.noteAdvanced a offset) :=
  { assigned with }

theorem setWatermark (same : watermark.next = s.watermark.next) : Assigned program (s.setWatermark watermark) :=
  { assigned with tiled := by simpa only [State.setWatermark, same] using assigned.tiled }

theorem absent {a : A} (holds : (s.phase a).offset = some first) (unfinished : (s.phase a).finished = false) :
    s.objects (batchPath first) = none := by
  cases present : s.objects (batchPath first) with
  | none => rfl
  | some =>
    have mine := assigned.holds a first holds
    obtain ⟨_, _, member, path, _, done⟩ := assigned.object _ _ present
    obtain rfl := batchPath_injective (assigned.tiled.bounds mine).1 (assigned.tiled.bounds member).1 path
    obtain rfl := assigned.tiled.unique mine member
    rw [unfinished] at done
    cases done

theorem put [DecidableEq A] {a : A} {first : Int} (at_ : s.phase a = .recorded first) :
    Assigned program ((s.putObject (batchPath first) (program a).deflated.toBytes).setPhase a
      (.stored first)) := by
  have mine : (a, first) ∈ s.taken := assigned.holds a first (by rw [at_]; rfl)
  have absent : s.objects (batchPath first) = none := assigned.absent (by rw [at_]; rfl) (by rw [at_]; rfl)
  refine ⟨assigned.tiled, ?taken, ?holds, ?object, ?written⟩
  case taken =>
    refine State.forall_setPhase (P := fun b phase => ∀ offset, (b, offset) ∈ s.taken →
      phase.offset = some offset ∨ phase.failed = true) (fun offset member => ?_)
      (fun b _ => assigned.taken b)
    have place := assigned.taken a offset member
    simpa [at_] using place
  case holds =>
    refine State.forall_setPhase
      (P := fun b phase => ∀ first, phase.offset = some first → (b, first) ∈ s.taken) ?_
      (fun b _ => assigned.holds b)
    rintro _ ⟨⟩
    exact mine
  case object =>
    intro key bytes present
    by_cases path : key = batchPath first
    · subst path
      simp only [State.setPhase, State.putObject, update_self, some.injEq] at present
      exact ⟨a, first, mine, rfl, present.symm, by simp [State.setPhase]⟩
    · simp only [State.setPhase, State.putObject, update_of_ne path] at present
      obtain ⟨b, second, member, path, same, done⟩ := assigned.object key bytes present
      exact ⟨b, second, member, path, same, State.forall_setPhase
        (P := fun b phase => (s.phase b).finished = true → phase.finished = true) (fun _ => rfl)
        (fun _ _ done => done) b done⟩
  case written =>
    refine State.forall_setPhase (P := fun b phase => ∀ second, phase.written = some second →
      update s.objects (batchPath first) (some (program a).deflated.toBytes)
        (batchPath second) = some (program b).deflated.toBytes) ?_ ?_
    · rintro _ ⟨⟩
      exact update_self ..
    · intro b _ second same
      have present := assigned.written b second same
      have apart : batchPath second ≠ batchPath first := by
        intro path
        rw [path, absent] at present
        cases present
      rwa [update_of_ne apart]

theorem assign [DecidableEq A] {a : A} {watermark : Watermark} {first : Int} (at_ : s.phase a = .started)
    (given : s.watermark.assignOffset (program a).deflated = (watermark, .ok first)) :
    Assigned program
      (((s.setWatermark watermark).noteTaken a first).setPhase a (.assigned first)) := by
  obtain ⟨rfl, raised⟩ : first = s.watermark.next ∧ watermark.next = s.watermark.next + (program a).size := by
    obtain ⟨same, next⟩ := Watermark.of_assigned given
    exact ⟨same, by rw [next, Attempt.size, Attempt.delta]; omega⟩
  have fresh : ∀ offset, (a, offset) ∉ s.taken := by
    intro offset member
    have place := assigned.taken a offset member
    simp [at_] at place
  refine ⟨?tiled, ?taken, ?holds, ?object, ?written⟩
  case tiled =>
    have extended := assigned.tiled.snoc a (program a).size_pos
    rw [← raised] at extended
    exact extended
  case taken =>
    refine State.forall_setPhase (P := fun b phase => ∀ offset, (b, offset) ∈ s.taken ++ [(a, s.watermark.next)] →
        phase.offset = some offset ∨ phase.failed = true) ?_ ?_
    · intro offset member
      rcases Log.mem_concat.mp member with old | new
      · exact absurd old (fresh offset)
      · rw [(Prod.mk.inj new).2]
        exact .inl rfl
    · intro b different offset member
      rcases Log.mem_concat.mp member with old | new
      · exact assigned.taken b offset old
      · exact absurd (Prod.mk.inj new).1 different
  case holds =>
    refine State.forall_setPhase (P := fun b phase => ∀ first, phase.offset = some first →
      (b, first) ∈ s.taken ++ [(a, s.watermark.next)]) ?_
      (fun b _ first same => List.mem_append_left _ (assigned.holds b first same))
    simp
  case object =>
    intro key bytes present
    obtain ⟨b, second, member, path, same, done⟩ := assigned.object key bytes present
    refine ⟨b, second, List.mem_append_left _ member, path, same, ?_⟩
    refine State.forall_setPhase (P := fun b phase => (b, second) ∈ s.taken → (s.phase b).finished = true →
      phase.finished = true) (fun mine => absurd mine (fresh second)) (fun _ _ _ done => done) b member done
  case written =>
    exact State.forall_setPhase (P := fun b phase => ∀ first, phase.written = some first →
      s.objects (batchPath first) = some (program b).deflated.toBytes) nofun
      (fun b _ => assigned.written b)

theorem step [DecidableEq A] {t : State A} (step : Step topition program s action t) : Assigned program t := by
  cases step with
  | checkPlain at_ | readHigh at_ => exact assigned.pass (by simp [at_]) rfl rfl
  | @check a store batch at_ idempotent read =>
    cases store.checkIdempotentSequence topition batch (program a).transactional with
    | error => exact assigned.fail a _
    | ok check => cases check <;> exact assigned.pass (by simp [at_]) rfl rfl
  | @ensure a store at_ read =>
    cases ensurePartitionInTransaction topition (program a) store with
    | error => exact assigned.fail a _
    | ok => exact assigned.pass (by simp [at_]) rfl rfl
  | readStart at_ =>
    split
    · exact assigned.pass (by simp [at_]) rfl rfl
    · split <;> exact assigned.pass (by simp [at_]) rfl rfl
  | recordStart at_ =>
    exact (assigned.setStore _).pass (by simp [State.setStore, at_]) rfl rfl
  | assign at_ given => exact assigned.assign at_ given
  | @assignRefused a watermark code at_ refused =>
    exact (assigned.setWatermark (congrArg Watermark.next (Watermark.eq_of_refused refused))).fail a _
  | recordRange at_ =>
    exact (assigned.setStore _).setPhase (by simp [State.setStore, at_]) (by simp [State.setStore, at_])
      (by simp [State.setStore, at_]) nofun
  | recordRangeRefused | advanceRefused => exact (assigned.setStore _).fail _ _
  | put at_ => exact assigned.put at_
  | putExists | stop => exact assigned.fail _ _
  | @advancePlain a offset at_ plain =>
    have present := assigned.written a offset (by rw [at_]; rfl)
    exact assigned.setPhase (by simp [at_]) (by simp [at_]) (fun _ => rfl)
      (by rintro _ ⟨⟩; exact present)
  | @advance a offset batch store at_ idempotent done =>
    have present := assigned.written a offset (by rw [at_]; rfl)
    exact ((assigned.setStore store).noteAdvanced a offset).setPhase
      (by simp [State.noteAdvanced, State.setStore, at_])
      (by simp [State.noteAdvanced, State.setStore, at_]) (fun _ => rfl)
      (by rintro _ ⟨⟩; exact present)

end Assigned

variable [DecidableEq A] {topition : Topition} {store : Meta}

theorem assigned_of_reachable (reached : (machine topition program store).Reachable s) : Assigned program s :=
  Machine.Reachable.invariant (by rintro _ rfl; exact assigned_start store)
    (fun _ _ _ assigned step => assigned.step step) reached

/-- The batch objects hold disjoint ranges below the high watermark, no PUT meets an existing object, and
a produce that appended has left its batch at the offset that it answers. -/
theorem batch_objects_tile_the_log (reached : (machine topition program store).Reachable s) :
    (∀ key bytes, s.objects key = some bytes → ∃ base batch, key = batchPath base ∧
      Deflated.Batch.tryFrom bytes = some (batch, []) ∧ 0 ≤ base ∧
      base + batch.lastOffsetDelta.toInt < s.watermark.next) ∧
    (∀ base base' bytes bytes' batch batch', 0 ≤ base → 0 ≤ base' → base ≠ base' →
      s.objects (batchPath base) = some bytes → s.objects (batchPath base') = some bytes' →
      Deflated.Batch.tryFrom bytes = some (batch, []) → Deflated.Batch.tryFrom bytes' = some (batch', []) →
      base + batch.lastOffsetDelta.toInt < base' ∨ base' + batch'.lastOffsetDelta.toInt < base) ∧
    (∀ a offset, s.phase a = .recorded offset → s.objects (batchPath offset) = none) ∧
    (∀ a offset, s.phase a = .answered (.appended offset) → ∃ bytes, s.objects (batchPath offset) = some bytes ∧
      Deflated.Batch.tryFrom bytes = some ((program a).deflated, [])) := by
  have assigned := assigned_of_reachable reached
  have decoded := fun a => (Deflated.Batch.reads_tryFrom (program a).deflated).all
  refine ⟨?_, ?_, ?_, ?_⟩
  · intro key bytes present
    obtain ⟨a, base, member, path, rfl, _⟩ := assigned.object key bytes present
    obtain ⟨low, high, _⟩ := assigned.tiled.bounds member
    refine ⟨base, (program a).deflated, path, decoded a, low, ?_⟩
    simp only [Attempt.size, Attempt.delta] at high
    omega
  · intro base base' bytes bytes' batch batch' low low' different present present' reads reads'
    obtain ⟨a, _, member, path, rfl, _⟩ := assigned.object _ _ present
    obtain ⟨b, _, member', path', rfl, _⟩ := assigned.object _ _ present'
    obtain rfl := batchPath_injective low (assigned.tiled.bounds member).1 path
    obtain rfl := batchPath_injective low' (assigned.tiled.bounds member').1 path'
    rw [decoded a] at reads
    rw [decoded b] at reads'
    cases reads
    cases reads'
    rcases assigned.tiled.eq_or_disjoint member member' with ⟨_, same⟩ | apart | apart
    · exact absurd same different
    · exact .inl (by simp only [Attempt.size, Attempt.delta] at apart; omega)
    · exact .inr (by simp only [Attempt.size, Attempt.delta] at apart; omega)
  · intro a offset at_
    exact assigned.absent (by rw [at_]; rfl) (by rw [at_]; rfl)
  · intro a offset at_
    exact ⟨_, assigned.written a offset (by rw [at_]; rfl), decoded a⟩

def plainBatch : Deflated.Batch where
  baseOffset := 0
  batchLength := 57
  partitionLeaderEpoch := -1
  magic := 2
  crc := 0
  attributes := 0
  lastOffsetDelta := 0
  baseTimestamp := 1
  maxTimestamp := 1
  producerId := -1
  producerEpoch := -1
  baseSequence := -1
  recordCount := 1
  recordData := [14, 0, 0, 0, 1, 1, 1, 0]
  measured := by decide

def plainAttempt : Attempt :=
  { transactionId := none, deflated := plainBatch, delta_nonneg := by decide }

/-- Two produces of a plain batch: the second takes its offset while the first has not written yet. -/
theorem batch_objects_tile_the_log_two : ∃ s : State Bool,
    (machine ⟨"t", 0⟩ (fun _ => plainAttempt) ⟨∅, ∅⟩).Reachable s ∧
      s.phase true = .answered (.appended 1) ∧ s.phase false = .assigned 0 ∧
    ∃ bytes, s.objects (batchPath 1) = some bytes ∧ Deflated.Batch.tryFrom bytes = some (plainBatch, []) := by
  have start : (machine ⟨"t", 0⟩ (fun _ : Bool => plainAttempt) ⟨∅, ∅⟩).Reachable _ := .init rfl
  have first := (((start.step (.checkPlain (a := false) rfl rfl)).step (.ensure (a := false) rfl
    List.mem_cons_self)).step (.readStart (a := false) rfl List.mem_cons_self)).step
    (.assign (a := false) rfl rfl)
  have second := (((first.step (.checkPlain (a := true) rfl rfl)).step (.ensure (a := true) rfl
    List.mem_cons_self)).step (.readStart (a := true) rfl List.mem_cons_self)).step
    (.assign (a := true) rfl rfl)
  have stored := ((second.step (.recordRange (a := true) rfl rfl)).step (.put (a := true) rfl rfl)).step
    (.advancePlain (a := true) rfl rfl)
  exact ⟨_, stored, rfl, rfl, (batch_objects_tile_the_log stored).2.2.2 true 1 rfl⟩

end Nisshi.Dynostore.Produce
