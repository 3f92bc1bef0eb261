import Nisshi.Dynostore.OffsetAssignment

/-! Idempotent produce: what the sequence check, the offset, the record write and the sequence advance,
four steps on different documents, keep for one producer at one epoch, however attempts overlap, fail
and are retried. -/

namespace Nisshi.Dynostore.Produce

open Nisshi.Lib Nisshi.SansIo Nisshi.Storage.Producer Option Function

namespace Attempt

def firstSequence (attempt : Attempt) : Int :=
  attempt.deflated.baseSequence.toInt

def lastSequence (attempt : Attempt) : Int :=
  attempt.firstSequence + attempt.delta

def isBy (attempt : Attempt) (producerId : Int) : Bool :=
  attempt.idempotent.any fun batch => batch.producerId == producerId

theorem isBy_iff {attempt : Attempt} : attempt.isBy producerId = true ↔
      ∃ batch, attempt.idempotent = some batch ∧ batch.producerId = producerId := by
  simp [isBy, any_eq_true]

theorem idempotent_eq_some {attempt : Attempt} (idempotent : attempt.idempotent = some batch) :
    batch.baseSequence = attempt.firstSequence ∧ batch.lastOffsetDelta = attempt.delta := by
  obtain ⟨_, rfl⟩ := ite_some_none_eq_some.mp idempotent
  exact ⟨rfl, rfl⟩

end Attempt

variable {A : Type}

def State.advancedBy (program : A → Attempt) (producerId : Int) (s : State A) : List (A × Int) :=
  s.advanced.filter fun entry => (program entry.1).isBy producerId

def sequences (program : A → Attempt) (log : List (A × Int)) : List (A × Int) :=
  log.map fun entry => (entry.1, (program entry.1).firstSequence)

def recordCount (program : A → Attempt) (log : List (A × Int)) : Int :=
  (log.map fun entry => (program entry.1).size).sum

section Invariant

variable (program : A → Attempt) (producerId epoch : Int) (topition : Topition)

def nextSequence (detail : Option ProducerDetail) : Int :=
  detail.elim 0 fun pd => pd.nextSequence epoch topition

/-- What a stored detail of the producer, new or old, says about the batches advanced so far. -/
structure Snapshot (initial : Option ProducerDetail) (log : List (A × Int)) (next : Int)
    (pd : ProducerDetail) : Prop where
  coherent : pd.Coherent epoch topition
  behind : pd.nextSequence epoch topition ≤ next
  remembered : ∀ batches, pd.rememberedBatches epoch topition = some batches → ∀ batch ∈ batches,
    ∃ a, (a, batch.baseOffset) ∈ log ∧ batch.firstSequence = (program a).firstSequence ∧
      batch.lastSequence = (program a).lastSequence
  newer : ∃ before, initial = some before ∧ ∀ newer, epoch < newer →
    pd.sequences.find newer topition = before.sequences.find newer topition

def Current (initial : Option ProducerDetail) : Prop :=
  ∃ before, initial = some before ∧ before.NoneNewer epoch topition

/-- What an attempt of the producer knows. One that has its offset and would continue the sequence
was given that offset after every batch advanced so far. -/
def Sequence.Knows (initial : Option ProducerDetail) (log : List (A × Int)) (next : Int) (a : A) : Phase → Prop
  | .start => True
  | .assigned offset | .recorded offset | .stored offset =>
    Current epoch topition initial ∧ (program a).firstSequence ≤ next ∧
      ((program a).firstSequence = next → ∀ entry ∈ log, entry.2 < offset)
  | .answered (.appended offset) => (a, offset) ∈ log
  | .answered (.duplicate offset) => ∃ b, (b, offset) ∈ log ∧ (program b).firstSequence = (program a).firstSequence ∧
      (program b).lastSequence = (program a).lastSequence
  | .answered (.failed _) => True
  | _ => Current epoch topition initial ∧ (program a).firstSequence ≤ next

structure Sequenced (initial : Option ProducerDetail) (s : State A) : Prop where
  tiled : Tiled (fun a => (program a).size) 0 (sequences program (s.advancedBy program producerId))
    (nextSequence epoch topition s.store.producers[producerId]?)
  increasing : (s.advancedBy program producerId).Pairwise fun earlier later => earlier.2 < later.2
  snapshot : ∀ store ∈ s.store :: s.earlierStores, ∀ pd, store.producers[producerId]? = some pd →
    Snapshot program epoch topition initial (s.advancedBy program producerId)
      (nextSequence epoch topition s.store.producers[producerId]?) pd
  logged : ∀ a offset, (a, offset) ∈ s.advancedBy program producerId → s.phase a = .answered (.appended offset)
  knows : ∀ a, (program a).isBy producerId = true →
    Sequence.Knows program epoch topition initial (s.advancedBy program producerId)
      (nextSequence epoch topition s.store.producers[producerId]?) a (s.phase a)

end Invariant

variable {program : A → Attempt} {producerId epoch : Int} {topition : Topition}
  {initial : Option ProducerDetail} {log more : List (A × Int)} {next later : Int} {s : State A}

variable {pd : ProducerDetail}

theorem Snapshot.mono (snapshot : Snapshot program epoch topition initial log next pd) (grown : next ≤ later) :
    Snapshot program epoch topition initial (log ++ more) later pd :=
  { snapshot with
    behind := snapshot.behind.trans grown
    remembered := by
      intro batches held batch member
      obtain ⟨a, logged, first, last⟩ := snapshot.remembered batches held batch member
      exact ⟨a, List.mem_append_left _ logged, first, last⟩ }

theorem Snapshot.noneNewer (snapshot : Snapshot program epoch topition initial log next pd)
    (current : Current epoch topition initial) : pd.NoneNewer epoch topition := by
  obtain ⟨_, same, newer⟩ := snapshot.newer
  obtain ⟨_, same', noneNewer⟩ := current
  obtain rfl := some.inj (same.symm.trans same')
  intro other above
  rw [newer other above, noneNewer other above]

theorem Snapshot.current (snapshot : Snapshot program epoch topition initial log next pd)
    (noneNewer : pd.NoneNewer epoch topition) : Current epoch topition initial := by
  obtain ⟨before, same, newer⟩ := snapshot.newer
  exact ⟨before, same, fun other above => by rw [← newer other above, noneNewer other above]⟩

theorem Sequence.Knows.grow {a : A} (knows : Knows program epoch topition initial log next a phase)
    (grown : next < later) : Knows program epoch topition initial (log ++ more) later a phase := by
  have behind : Current epoch topition initial ∧ (program a).firstSequence ≤ next →
      Current epoch topition initial ∧ (program a).firstSequence ≤ later :=
    fun ⟨current, bound⟩ => ⟨current, by omega⟩
  have overtaken : ∀ offset : Int, (Current epoch topition initial ∧ (program a).firstSequence ≤ next ∧
      ((program a).firstSequence = next → ∀ entry ∈ log, entry.2 < offset)) →
      Current epoch topition initial ∧ (program a).firstSequence ≤ later ∧
        ((program a).firstSequence = later → ∀ entry ∈ log ++ more, entry.2 < offset) :=
    fun offset ⟨current, bound, _⟩ => ⟨current, by omega, fun same => by omega⟩
  cases phase with
  | start => trivial
  | answered answer =>
    cases answer with
    | appended => exact List.mem_append_left _ knows
    | duplicate =>
      obtain ⟨b, logged, same⟩ := knows
      exact ⟨b, List.mem_append_left _ logged, same⟩
    | failed => trivial
  | assigned offset | recorded offset | stored offset => exact overtaken offset knows
  | _ => exact behind knows

theorem Snapshot.advance {a : A} {verdict : ProduceEpoch} {offset : Int}
    (snapshot : Snapshot program epoch topition initial log next pd)
    (counted : (pd.advance epoch verdict topition (program a).firstSequence (program a).delta
      offset).nextSequence epoch topition = later) :
    Snapshot program epoch topition initial (log ++ [(a, offset)]) later
      (pd.advance epoch verdict topition (program a).firstSequence (program a).delta offset) where
  coherent := by
    intro absent
    rw [ProducerDetail.find_sequences_advance] at absent
    cases absent
  behind := counted.le
  remembered := by
    intro batches held batch member
    rw [ProducerDetail.rememberedBatches, ProducerDetail.find_batches_advance, some.injEq] at held
    rw [← held] at member
    rcases ProducedBatches.mem_remember member with old | rfl
    · cases before : pd.rememberedBatches epoch topition with
      | none => simp [before] at old
      | some remembered =>
        rw [before] at old
        obtain ⟨b, logged, first, last⟩ := snapshot.remembered remembered before batch old
        exact ⟨b, List.mem_append_left _ logged, first, last⟩
    · exact ⟨a, List.mem_append_right _ (List.mem_singleton_self _), rfl, rfl⟩
  newer := by
    obtain ⟨before, same, newer⟩ := snapshot.newer
    refine ⟨before, same, fun other above => ?_⟩
    rw [ProducerDetail.find_sequences_advance_of_newer _ _ _ _ _ _ _ above, newer other above]

namespace Sequenced

variable {a : A} {store : Meta} {batch : IdempotentBatch} {transactional : Bool}

variable (sequenced : Sequenced program producerId epoch topition initial s)

include sequenced

theorem knows_at (at_ : s.phase a = phase) (mine : (program a).isBy producerId = true) :
    Sequence.Knows program epoch topition initial (s.advancedBy program producerId)
      (nextSequence epoch topition s.store.producers[producerId]?) a phase :=
  at_ ▸ sequenced.knows a mine

theorem setPhase [DecidableEq A] (running : ∀ offset, s.phase a ≠ .answered (.appended offset))
    (knows : (program a).isBy producerId = true →
      Sequence.Knows program epoch topition initial (s.advancedBy program producerId)
        (nextSequence epoch topition s.store.producers[producerId]?) a phase) :
    Sequenced program producerId epoch topition initial (s.setPhase a phase) :=
  { sequenced with
    logged := State.forall_setPhase
      (P := fun b phase => ∀ offset, (b, offset) ∈ s.advancedBy program producerId →
        phase = .answered (.appended offset))
      (fun offset member => absurd (sequenced.logged a offset member) (running offset))
      (fun b _ => sequenced.logged b)
    knows := State.forall_setPhase
      (P := fun b phase => (program b).isBy producerId = true →
        Sequence.Knows program epoch topition initial (s.advancedBy program producerId)
          (nextSequence epoch topition s.store.producers[producerId]?) b phase)
      knows (fun b _ => sequenced.knows b) }

theorem setStore (same : store.producers[producerId]? = s.store.producers[producerId]?) :
    Sequenced program producerId epoch topition initial (s.setStore store) :=
  { sequenced with
    tiled := by
      simp only [State.setStore, same]
      exact sequenced.tiled
    snapshot := by
      intro read member pd present
      simp only [State.setStore, same]
      rcases List.mem_cons.mp member with rfl | old
      · exact sequenced.snapshot s.store List.mem_cons_self pd (same ▸ present)
      · exact sequenced.snapshot read old pd present
    knows := by
      simp only [State.setStore, same]
      exact sequenced.knows }

theorem setWatermark (watermark : Watermark) :
    Sequenced program producerId epoch topition initial (s.setWatermark watermark) :=
  { sequenced with }

theorem noteTaken (a : A) (offset : Int) : Sequenced program producerId epoch topition initial (s.noteTaken a offset) :=
  { sequenced with }

theorem putObject (key : String) (bytes : List UInt8) :
    Sequenced program producerId epoch topition initial (s.putObject key bytes) :=
  { sequenced with }

theorem noteAdvanced (other : (program a).isBy producerId = false) (offset : Int) :
    Sequenced program producerId epoch topition initial (s.noteAdvanced a offset) := by
  have same : (s.noteAdvanced a offset).advancedBy program producerId = s.advancedBy program producerId := by
    simp [State.advancedBy, State.noteAdvanced, other]
  exact {
    tiled := same ▸ sequenced.tiled
    increasing := same ▸ sequenced.increasing
    snapshot := same ▸ sequenced.snapshot
    logged := same ▸ sequenced.logged
    knows := same ▸ sequenced.knows }

theorem knows_check (idempotent : (program a).idempotent = some batch) (mine : batch.producerId = producerId)
    (current : batch.producerEpoch = epoch) (read : store ∈ s.store :: s.earlierStores) :
    Sequence.Knows program epoch topition initial (s.advancedBy program producerId)
      (nextSequence epoch topition s.store.producers[producerId]?) a
      (.ofCheck (store.checkIdempotentSequence topition batch transactional)) := by
  cases answered : store.checkIdempotentSequence topition batch transactional with
  | error => trivial
  | ok check =>
    obtain ⟨pd, _, _, present, known, accepted, fits⟩ :=
      Meta.checkIdempotentSequence_eq_ok answered
    obtain ⟨first, delta⟩ := Attempt.idempotent_eq_some idempotent
    subst mine current
    have snapshot := sequenced.snapshot store read pd present
    rw [ProducerDetail.sequenceState_of_accepted known snapshot.coherent accepted, first, delta] at fits
    cases check with
    | append =>
      have same := checkSequence_eq_append fits
      exact ⟨snapshot.current (ProducerDetail.noneNewer_of_accepted known accepted), same.trans_le snapshot.behind⟩
    | duplicate =>
      obtain ⟨batches, held, member⟩ := checkSequence_eq_duplicate fits
      obtain ⟨b, logged, first, last⟩ := snapshot.remembered batches held _ member
      exact ⟨b, logged, first.symm, last.symm⟩

theorem below_watermark (assigned : Assigned program s) :
    ∀ entry ∈ s.advancedBy program producerId, entry.2 < s.watermark.next := by
  rintro ⟨a, offset⟩ member
  have at_ := sequenced.logged a offset member
  have bounds := assigned.tiled.bounds (assigned.holds a offset (by rw [at_]; rfl))
  omega

/-- An advance that answers `Ok` for a batch of the producer has recorded it: no other epoch has
superseded it. -/
theorem advance_recorded (at_ : s.phase a = .stored offset) (idempotent : (program a).idempotent = some batch)
    (mine : batch.producerId = producerId) (current : batch.producerEpoch = epoch)
    (done : s.store.advanceIdempotentSequence topition batch transactional offset = (store, .ok ())) :
    ∃ pd verdict, s.store.producers[producerId]? = some pd ∧
      (program a).firstSequence = pd.nextSequence epoch topition ∧
      store.producers[producerId]? = some (pd.advance epoch verdict topition
        (program a).firstSequence (program a).delta offset) := by
  have byProducer : (program a).isBy producerId = true := Attempt.isBy_iff.mpr ⟨batch, idempotent, mine⟩
  have knows := sequenced.knows_at at_ byProducer
  obtain ⟨first, delta⟩ := Attempt.idempotent_eq_some idempotent
  subst mine current
  rcases Meta.advanceIdempotentSequence_cases s.store topition batch transactional offset with
    ⟨code, refused⟩ | ⟨pd, stored, present, known, superseded, _⟩ |
    ⟨pd, stored, verdict, present, known, accepted, fits, recorded⟩
  · rw [done] at refused
    cases refused
  · have snapshot := sequenced.snapshot s.store List.mem_cons_self pd present
    rw [ProducerDetail.not_superseded known (snapshot.noneNewer knows.1)] at superseded
    cases superseded
  · have snapshot := sequenced.snapshot s.store List.mem_cons_self pd present
    rw [ProducerDetail.sequenceState_of_accepted known snapshot.coherent accepted, first] at fits
    rw [done, first, delta] at recorded
    cases recorded
    exact ⟨pd, verdict, present, checkSequence_eq_append fits, Std.ExtTreeMap.getElem?_insert_self⟩

theorem advance [DecidableEq A] {offset : Int} (at_ : s.phase a = .stored offset)
    (idempotent : (program a).idempotent = some batch) (mine : batch.producerId = producerId)
    (current : batch.producerEpoch = epoch)
    (done : s.store.advanceIdempotentSequence topition batch transactional offset = (store, .ok ()))
    (fits : recordCount program ((s.noteAdvanced a offset).advancedBy program producerId) < 2 ^ 31) :
    Sequenced program producerId epoch topition initial
      (((s.setStore store).noteAdvanced a offset).setPhase a (.answered (.appended offset))) := by
  obtain ⟨pd, verdict, present, first, after⟩ :=
    sequenced.advance_recorded at_ idempotent mine current done
  have byProducer : (program a).isBy producerId = true := Attempt.isBy_iff.mpr ⟨batch, idempotent, mine⟩
  have knows := sequenced.knows a byProducer
  have tiled := sequenced.tiled
  have snapshots := sequenced.snapshot
  have others := sequenced.knows
  have grown : (s.noteAdvanced a offset).advancedBy program producerId =
      s.advancedBy program producerId ++ [(a, offset)] := by
    simp [State.advancedBy, State.noteAdvanced, byProducer]
  have position : nextSequence epoch topition s.store.producers[producerId]? =
      (program a).firstSequence := by rw [present, first]; rfl
  rw [position] at knows tiled snapshots others
  -- The count of records bounds the sequence, so that its addition does not wrap.
  have counted : (pd.advance epoch verdict topition (program a).firstSequence (program a).delta
      offset).nextSequence epoch topition = (program a).firstSequence + (program a).size := by
    have total := tiled.stop_eq
    have positive := (program a).size_pos
    rw [grown] at fits
    simp only [sequences, recordCount, List.map_map, List.map_append, List.map_cons, List.map_nil,
      List.sum_append, List.sum_cons, List.sum_nil, comp_def] at total fits
    rw [ProducerDetail.nextSequence, ProducerDetail.find_sequences_advance, ← first]
    apply wrap32_of_fits <;> simp only [Attempt.size] at * <;> have := tiled.start_le <;> omega
  have moved : nextSequence epoch topition store.producers[producerId]? =
      (program a).firstSequence + (program a).size := by rw [after, ← counted]; rfl
  have further : (program a).firstSequence < (program a).firstSequence + (program a).size := by
    have := (program a).size_pos
    omega
  rw [at_] at knows
  have fresh : ∀ o, (a, o) ∉ s.advancedBy program producerId := by
    intro o member
    rw [sequenced.logged a o member] at at_
    cases at_
  refine ⟨?tiled, ?increasing, ?snapshot, ?logged, ?knows⟩
  case tiled =>
    change Tiled _ 0 (sequences program ((s.noteAdvanced a offset).advancedBy program producerId))
      (nextSequence epoch topition store.producers[producerId]?)
    rw [grown, moved, sequences, List.map_append]
    exact tiled.snoc a (program a).size_pos
  case increasing =>
    change ((s.noteAdvanced a offset).advancedBy program producerId).Pairwise _
    rw [grown]
    exact Log.pairwise_concat.mpr ⟨sequenced.increasing, knows.2.2 rfl⟩
  case snapshot =>
    intro read member other found
    change Snapshot program epoch topition initial
      ((s.noteAdvanced a offset).advancedBy program producerId)
      (nextSequence epoch topition store.producers[producerId]?) other
    rw [grown, moved]
    rcases List.mem_cons.mp member with rfl | old
    · obtain rfl := some.inj (after.symm.trans found)
      exact (snapshots s.store List.mem_cons_self pd present).advance counted
    · exact (snapshots read old other found).mono further.le
  case logged =>
    refine State.forall_setPhase (P := fun b phase => ∀ o,
      (b, o) ∈ (s.noteAdvanced a offset).advancedBy program producerId → phase = .answered (.appended o)) ?_ ?_
    · intro o member
      rw [grown] at member
      rcases Log.mem_concat.mp member with old | new
      · exact absurd old (fresh o)
      · rw [(Prod.mk.inj new).2]
    · intro b different o member
      rw [grown] at member
      rcases Log.mem_concat.mp member with old | new
      · exact sequenced.logged b o old
      · exact absurd (Prod.mk.inj new).1 different
  case knows =>
    refine State.forall_setPhase (P := fun b phase => (program b).isBy producerId = true →
      Sequence.Knows program epoch topition initial
        ((s.noteAdvanced a offset).advancedBy program producerId)
        (nextSequence epoch topition store.producers[producerId]?) b phase) ?_ ?_
    · intro _
      rw [grown]
      exact List.mem_append_right _ (List.mem_singleton_self _)
    · intro b _ byProducer
      rw [grown, moved]
      exact (others b byProducer).grow further

end Sequenced

theorem producers_recordRange (done : recordRange topition attempt offset store = (after, result)) :
    after.producers = store.producers := by
  simp only [recordRange] at done
  split at done
  · cases done
    rfl
  · split at done <;> cases done <;> rfl

section Recalled

def Appended (s : State A) (offset : Int) : Prop :=
  ∃ a, s.phase a = .answered (.appended offset)

/-- Every offset that a document remembers, or that a duplicate was answered with, was appended at. -/
structure Recalled (topition : Topition) (s : State A) : Prop where
  remembered : ∀ store ∈ s.store :: s.earlierStores, ∀ (producer : Int) pd,
    store.producers[producer]? = some pd → ∀ epoch batches,
    pd.batches.find epoch topition = some batches → ∀ batch ∈ batches, Appended s batch.baseOffset
  answered : ∀ a offset, s.phase a = .answered (.duplicate offset) → Appended s offset

variable [DecidableEq A]

variable {offset : Int} {store : Meta}

theorem Appended.setPhase {a : A} (appended : Appended s offset) (running : ∀ answer, s.phase a ≠ .answered answer) :
    Appended (s.setPhase a phase) offset := by
  obtain ⟨b, at_⟩ := appended
  have other : b ≠ a := by
    rintro rfl
    exact running _ at_
  exact ⟨b, by simp only [State.setPhase, update_of_ne other, at_]⟩

theorem Recalled.setPhase {a : A} (recalled : Recalled topition s) (running : ∀ answer, s.phase a ≠ .answered answer)
    (duplicate : ∀ offset, phase = .answered (.duplicate offset) → Appended s offset) :
    Recalled topition (s.setPhase a phase) where
  remembered := fun store member producer pd present epoch batches held batch inside =>
    (recalled.remembered store member producer pd present epoch batches held batch inside).setPhase running
  answered := State.forall_setPhase
    (P := fun _ phase' => ∀ offset, phase' = .answered (.duplicate offset) → Appended (s.setPhase a phase) offset)
    (fun offset same => (duplicate offset same).setPhase running)
    (fun b _ offset same => (recalled.answered b offset same).setPhase running)

omit [DecidableEq A] in
theorem Recalled.setStore (recalled : Recalled topition s)
    (remembered : ∀ (producer : Int) pd, store.producers[producer]? = some pd → ∀ epoch batches,
      pd.batches.find epoch topition = some batches → ∀ batch ∈ batches, Appended s batch.baseOffset) :
    Recalled topition (s.setStore store) where
  remembered := by
    intro read member
    rcases List.mem_cons.mp member with rfl | old
    · exact remembered
    · exact recalled.remembered read old
  answered := recalled.answered

omit [DecidableEq A] in
theorem Recalled.ofCheck (recalled : Recalled topition s) {batch : IdempotentBatch} {transactional : Bool}
    (read : store ∈ s.store :: s.earlierStores)
    (duplicate : Phase.ofCheck (store.checkIdempotentSequence topition batch transactional) =
      .answered (.duplicate offset)) : Appended s offset := by
  cases answered : store.checkIdempotentSequence topition batch transactional with
  | error =>
    rw [answered] at duplicate
    cases duplicate
  | ok check =>
    rw [answered] at duplicate
    cases check with
    | append => cases duplicate
    | duplicate =>
      cases duplicate
      obtain ⟨pd, _, verdict, present, _, _, fits⟩ := Meta.checkIdempotentSequence_eq_ok answered
      obtain ⟨batches, held, member⟩ := checkSequence_eq_duplicate fits
      cases verdict with
      | «continue» => exact recalled.remembered store read _ pd present _ batches held _ member
      | start => cases held

theorem Recalled.advance (recalled : Recalled topition s) {a : A} {batch : IdempotentBatch}
    {transactional : Bool} (running : ∀ answer, s.phase a ≠ .answered answer)
    (done : s.store.advanceIdempotentSequence topition batch transactional offset = (store, .ok ())) :
    Recalled topition
      (((s.setStore store).noteAdvanced a offset).setPhase a (.answered (.appended offset))) := by
  have appended : Appended (s.setPhase a (.answered (.appended offset))) offset :=
    ⟨a, by simp [State.setPhase]⟩
  have before : Recalled topition (s.setPhase a (.answered (.appended offset))) :=
    recalled.setPhase running (by simp)
  have old := before.remembered s.store List.mem_cons_self
  have after : Recalled topition ((s.setPhase a (.answered (.appended offset))).setStore store) := by
    refine before.setStore fun producer pd present epoch batches held other inside => ?_
    rcases Meta.advanceIdempotentSequence_cases s.store topition batch transactional offset with
      ⟨_, refused⟩ | ⟨_, _, _, _, _, kept⟩ | ⟨pd', _, verdict, present', _, _, _, recorded⟩
    · rw [done] at refused
      cases refused
    · rw [done] at kept
      cases kept
      exact old producer pd present epoch batches held other inside
    · rw [done] at recorded
      cases recorded
      rw [Std.ExtTreeMap.getElem?_insert] at present
      split at present
      next =>
        cases present
        by_cases same : epoch = batch.producerEpoch
        · subst same
          rw [ProducerDetail.find_batches_advance, some.injEq] at held
          rw [← held] at inside
          rcases ProducedBatches.mem_remember inside with earlier | rfl
          · cases remembered : pd'.rememberedBatches batch.producerEpoch topition with
            | none => simp [remembered] at earlier
            | some batches =>
              rw [remembered] at earlier
              exact old _ pd' present' _ batches remembered other earlier
          · exact appended
        · exact old _ pd' present' epoch batches
            (ProducerDetail.find_batches_of_advance _ _ _ _ _ _ _ same held) other inside
      next => exact old producer pd present epoch batches held other inside
  exact { after with }

theorem Recalled.step {t : State A} (recalled : Recalled topition s) (step : Step topition program s action t) :
    Recalled topition t := by
  have unchanged : ∀ (store : Meta), store.producers = s.store.producers → Recalled topition (s.setStore store) := by
    intro store same
    refine recalled.setStore fun producer pd present => ?_
    rw [same] at present
    exact recalled.remembered s.store List.mem_cons_self producer pd present
  cases step with
  | checkPlain at_ | readHigh at_ | putExists at_ | advancePlain at_ =>
    exact recalled.setPhase (by simp [at_]) (by simp)
  | check at_ _ read => exact recalled.setPhase (by simp [at_]) fun _ => recalled.ofCheck read
  | @ensure a store at_ read =>
    refine recalled.setPhase (by simp [at_]) fun offset => ?_
    cases ensurePartitionInTransaction topition (program a) store <;> simp [Phase.ofResult]
  | readStart at_ =>
    refine recalled.setPhase (by simp [at_]) fun offset => ?_
    split
    · simp
    · split <;> simp
  | @recordStart a transactionId highWatermark at_ transaction =>
    have kept := unchanged (s.store.recordTransactionStart transactionId
      (program a).deflated.producerEpoch.toInt topition highWatermark) rfl
    exact kept.setPhase (by simp [State.setStore, at_]) (by simp)
  | @assign a watermark offset at_ given =>
    have same : Recalled topition ((s.setWatermark watermark).noteTaken a offset) := { recalled with }
    exact same.setPhase (by simp [State.noteTaken, State.setWatermark, at_]) (by simp)
  | @assignRefused a watermark code at_ refused =>
    have same : Recalled topition (s.setWatermark watermark) := { recalled with }
    exact same.setPhase (by simp [State.setWatermark, at_]) (by simp)
  | recordRange at_ done | recordRangeRefused at_ done =>
    exact (unchanged _ (producers_recordRange done)).setPhase (by simp [State.setStore, at_]) (by simp)
  | @put a offset at_ absent =>
    have same : Recalled topition (s.putObject (batchPath offset) (program a).deflated.toBytes) :=
      { recalled with }
    exact same.setPhase (by simp [State.putObject, at_]) (by simp)
  | advance at_ _ done => exact recalled.advance (by simp [at_]) done
  | @advanceRefused a offset batch store code at_ idempotent refused =>
    have same := Meta.advanceIdempotentSequence_eq_error refused
    exact (unchanged store (same ▸ rfl)).setPhase (by simp [State.setStore, at_]) (by simp)
  | stop running => exact recalled.setPhase running (by simp)

end Recalled

section Runs

variable [DecidableEq A]

variable {t : State A} {action : Action A}

theorem advanced_step (step : Step topition program s action t) :
    t.advanced = s.advanced ∨ ∃ a offset, t.advanced = s.advanced ++ [(a, offset)] := by
  cases step with
  | advance => exact .inr ⟨_, _, rfl⟩
  | _ => exact .inl rfl

theorem recordCount_step (step : Step topition program s action t) :
    recordCount program (s.advancedBy program producerId) ≤ recordCount program (t.advancedBy program producerId) := by
  rcases advanced_step step with same | ⟨a, offset, grown⟩
  · rw [State.advancedBy, State.advancedBy, same]
  · have positive := (program a).size_pos
    rw [State.advancedBy, State.advancedBy, grown, List.filter_append]
    simp only [recordCount, List.map_append, List.sum_append, List.filter_cons, List.filter_nil]
    split
    · simp only [List.map_cons, List.map_nil, List.sum_cons, List.sum_nil]
      omega
    · simp

theorem Sequenced.step (sequenced : Sequenced program producerId epoch topition initial s)
    (oneEpoch : ∀ a batch, (program a).idempotent = some batch → batch.producerId = producerId →
      batch.producerEpoch = epoch) (assigned : Assigned program s) (step : Step topition program s action t)
    (fits : recordCount program (t.advancedBy program producerId) < 2 ^ 31) :
    Sequenced program producerId epoch topition initial t := by
  cases step with
  | checkPlain at_ plain | advancePlain at_ plain =>
    refine sequenced.setPhase (by simp [at_]) fun mine => ?_
    obtain ⟨_, idempotent, _⟩ := Attempt.isBy_iff.mp mine
    rw [plain] at idempotent
    cases idempotent
  | check at_ idempotent read =>
    refine sequenced.setPhase (by simp [at_]) fun mine => ?_
    obtain ⟨_, same, byProducer⟩ := Attempt.isBy_iff.mp mine
    obtain rfl := some.inj (idempotent.symm.trans same)
    exact sequenced.knows_check idempotent byProducer (oneEpoch _ _ idempotent byProducer) read
  | @ensure a store at_ read =>
    refine sequenced.setPhase (by simp [at_]) fun mine => ?_
    have knows := sequenced.knows_at at_ mine
    cases ensurePartitionInTransaction topition (program a) store with
    | error => trivial
    | ok => exact knows
  | @readStart a store at_ read =>
    refine sequenced.setPhase (by simp [at_]) fun mine => ?_
    have knows := sequenced.knows_at at_ mine
    split
    · exact knows
    · split <;> exact knows
  | readHigh at_ => exact sequenced.setPhase (by simp [at_]) fun mine => (sequenced.knows_at at_ mine :)
  | @recordStart a transactionId highWatermark at_ transaction =>
    have kept : Sequenced program producerId epoch topition initial (s.setStore
        (s.store.recordTransactionStart transactionId (program a).deflated.producerEpoch.toInt topition
          highWatermark)) := sequenced.setStore rfl
    exact kept.setPhase (by simp [State.setStore, at_]) fun mine => (sequenced.knows_at at_ mine :)
  | @assign a watermark offset at_ given =>
    refine ((sequenced.setWatermark _).noteTaken _ _).setPhase
      (by simp [State.noteTaken, State.setWatermark, at_]) fun mine => ?_
    have knows := sequenced.knows_at at_ mine
    exact ⟨knows.1, knows.2, fun _ => (Watermark.of_assigned given).1 ▸ sequenced.below_watermark assigned⟩
  | assignRefused at_ =>
    exact (sequenced.setWatermark _).setPhase (by simp [State.setWatermark, at_]) fun _ => trivial
  | @recordRange a offset store at_ done =>
    have same := congrArg (·[producerId]?) (producers_recordRange done)
    exact (sequenced.setStore same).setPhase (by simp [State.setStore, at_])
      fun mine => ((sequenced.setStore same).knows_at at_ mine :)
  | recordRangeRefused at_ refused =>
    exact (sequenced.setStore (congrArg (·[producerId]?) (producers_recordRange refused))).setPhase
      (by simp [State.setStore, at_]) fun _ => trivial
  | put at_ =>
    exact (sequenced.putObject _ _).setPhase (by simp [State.putObject, at_])
      fun mine => (sequenced.knows_at at_ mine :)
  | putExists at_ => exact sequenced.setPhase (by simp [at_]) fun _ => trivial
  | @advance a offset batch store at_ idempotent done =>
    by_cases mine : batch.producerId = producerId
    · exact sequenced.advance at_ idempotent mine (oneEpoch a batch idempotent mine) done fits
    · have other : (program a).isBy producerId = false := by
        simp [Attempt.isBy, idempotent, mine]
      have same : store.producers[producerId]? = s.store.producers[producerId]? := by
        rcases Meta.advanceIdempotentSequence_cases s.store topition batch (program a).transactional
          offset with ⟨_, refused⟩ | ⟨_, _, _, _, _, kept⟩ | ⟨pd, _, verdict, _, _, _, _, recorded⟩
        · rw [done] at refused
          cases refused
        · rw [done] at kept
          cases kept
          rfl
        · rw [done] at recorded
          cases recorded
          simp [Std.ExtTreeMap.getElem?_insert, mine]
      exact ((sequenced.setStore same).noteAdvanced other offset).setPhase
        (by simp [State.noteAdvanced, State.setStore, at_]) fun mine => by simp [other] at mine
  | @advanceRefused a offset batch store code at_ idempotent refused =>
    have same := Meta.advanceIdempotentSequence_eq_error refused
    exact (sequenced.setStore (same ▸ rfl)).setPhase (by simp [State.setStore, at_]) fun _ => trivial
  | stop running => exact sequenced.setPhase (fun offset => running _) fun _ => trivial

omit [DecidableEq A] in
theorem sequenced_start {store : Meta} (fresh : ∀ pd, store.producers[producerId]? = some pd →
      pd.sequences.find epoch topition = none ∧ pd.batches.find epoch topition = none) :
    Sequenced program producerId epoch topition store.producers[producerId]? (State.start store) := by
  have zero : nextSequence epoch topition store.producers[producerId]? = 0 := by
    cases present : store.producers[producerId]? with
    | none => rfl
    | some pd => simp [nextSequence, ProducerDetail.nextSequence, (fresh pd present).1]
  refine ⟨?_, List.Pairwise.nil, ?_, fun _ _ member => absurd member List.not_mem_nil, fun _ _ => trivial⟩
  · simp only [State.start, zero]
    exact .nil
  · rintro _ (_ | ⟨_, ⟨⟩⟩) pd present
    obtain ⟨_, noBatches⟩ := fresh pd present
    refine ⟨fun _ => noBatches, ?_, ?_, ⟨pd, present, fun _ _ => rfl⟩⟩
    · simp only [present]
      exact le_rfl
    · intro batches held
      rw [ProducerDetail.rememberedBatches, noBatches] at held
      cases held

theorem sequenced_of_reachable (reached : (machine topition program store).Reachable s)
    (oneEpoch : ∀ a batch, (program a).idempotent = some batch → batch.producerId = producerId →
      batch.producerEpoch = epoch) (fresh : ∀ pd, store.producers[producerId]? = some pd →
      pd.sequences.find epoch topition = none ∧ pd.batches.find epoch topition = none)
    (fits : recordCount program (s.advancedBy program producerId) < 2 ^ 31) :
    Sequenced program producerId epoch topition store.producers[producerId]? s := by
  refine (Machine.Reachable.invariant (P := fun s => Assigned program s ∧
    (recordCount program (s.advancedBy program producerId) < 2 ^ 31 →
      Sequenced program producerId epoch topition store.producers[producerId]? s)) ?_ ?_ reached).2 fits
  · rintro _ rfl
    exact ⟨assigned_start store, fun _ => sequenced_start fresh⟩
  · rintro _ _ _ ⟨assigned, sequenced⟩ step
    refine ⟨assigned.step step, fun fits => ?_⟩
    exact (sequenced ((recordCount_step step).trans_lt fits)).step oneEpoch assigned step fits

/-- An idempotent producer's batches are stored exactly once and in order: the attempts that advanced
the sequence cover consecutive sequences from 0, their offsets grow with their sequences, and every
`Ok` answers the offset of the one of them with the batch's sequences, whose object is the batch. -/
theorem idempotent_produce_exactly_once {store : Meta} (reached : (machine topition program store).Reachable s)
    (oneEpoch : ∀ a batch, (program a).idempotent = some batch → batch.producerId = producerId →
      batch.producerEpoch = epoch)
    (oneBatch : ∀ a b, (program a).isBy producerId = true → (program b).isBy producerId = true →
      (program a).firstSequence = (program b).firstSequence → (program a).lastSequence = (program b).lastSequence →
      (program a).deflated = (program b).deflated)
    (fresh : ∀ pd, store.producers[producerId]? = some pd →
      pd.sequences.find epoch topition = none ∧ pd.batches.find epoch topition = none)
    (fits : recordCount program (s.advancedBy program producerId) < 2 ^ 31) :
    Tiled (fun a => (program a).size) 0 (sequences program (s.advancedBy program producerId))
      (recordCount program (s.advancedBy program producerId)) ∧
    (∀ earlier ∈ s.advancedBy program producerId, ∀ later ∈ s.advancedBy program producerId,
      (program earlier.1).firstSequence < (program later.1).firstSequence → earlier.2 < later.2) ∧
    (∀ a offset, (program a).isBy producerId = true →
      s.phase a = .answered (.appended offset) ∨ s.phase a = .answered (.duplicate offset) →
      ∃ b bytes, (b, offset) ∈ s.advancedBy program producerId ∧ (program b).firstSequence = (program a).firstSequence ∧
        (program b).lastSequence = (program a).lastSequence ∧ s.objects (batchPath offset) = some bytes ∧
        Deflated.Batch.tryFrom bytes = some ((program a).deflated, []) ∧ ∀ other ∈ s.advancedBy program producerId,
          (program other.1).firstSequence = (program a).firstSequence →
          (program other.1).lastSequence = (program a).lastSequence → other = (b, offset)) := by
  have assigned := assigned_of_reachable reached
  have sequenced := sequenced_of_reachable reached oneEpoch fresh fits
  have inSequence : ∀ entry ∈ s.advancedBy program producerId,
      (entry.1, (program entry.1).firstSequence) ∈ sequences program (s.advancedBy program producerId) :=
    fun entry member => List.mem_map.mpr ⟨entry, member, rfl⟩
  have counted := sequenced.tiled.stop_eq
  simp only [sequences, List.map_map, comp_def, Int.zero_add] at counted
  refine ⟨?consecutive, ?ordered, ?answers⟩
  case consecutive =>
    have tiled := sequenced.tiled
    rwa [counted] at tiled
  case ordered =>
    have forward := sequenced.increasing.imp (S := fun x y : A × Int =>
      (program x.1).firstSequence < (program y.1).firstSequence → x.2 < y.2) fun below _ => below
    have backward := (List.pairwise_map.mp sequenced.tiled.ordered).imp (S := flip fun x y : A × Int =>
        (program x.1).firstSequence < (program y.1).firstSequence → x.2 < y.2) (by
      rintro ⟨a, offset⟩ ⟨b, offset'⟩ apart crossed
      have positive := (program a).size_pos
      simp only at apart crossed
      omega)
    exact fun earlier member later member' => forward.forall_of_forall_of_flip
      (fun entry _ crossed => absurd crossed (lt_irrefl _)) backward member member'
  case answers =>
    intro a offset mine answered
    have knows := sequenced.knows a mine
    obtain ⟨b, logged, first, last⟩ : ∃ b, (b, offset) ∈ s.advancedBy program producerId ∧
        (program b).firstSequence = (program a).firstSequence ∧
        (program b).lastSequence = (program a).lastSequence := by
      rcases answered with appended | duplicate
      · rw [appended] at knows
        exact ⟨a, knows, rfl, rfl⟩
      · rw [duplicate] at knows
        exact knows
    have mine' : (program b).isBy producerId = true := (List.mem_filter.mp logged).2
    have same := oneBatch b a mine' mine first last
    have at_ := sequenced.logged b offset logged
    refine ⟨b, _, logged, first, last, assigned.written b offset (by rw [at_]; rfl), ?_, ?_⟩
    · rw [same]
      exact (Deflated.Batch.reads_tryFrom (program a).deflated).all
    · rintro ⟨c, offset'⟩ member first' _
      have together := inSequence _ member
      rw [first'.trans first.symm] at together
      obtain rfl := sequenced.tiled.unique together (inSequence _ logged)
      have at' := sequenced.logged c offset' member
      rw [at_] at at'
      cases at'
      rfl

end Runs

def firstBatch : Deflated.Batch :=
  { plainBatch with producerId := 7, producerEpoch := 0, baseSequence := 0, measured := by decide }

def firstAttempt : Attempt :=
  { transactionId := none, deflated := firstBatch, delta_nonneg := by decide }

def oneProducer : Meta where
  producers := (∅ : Std.ExtTreeMap Int ProducerDetail).insert 7
    { sequences := (∅ : ByEpoch Int).insert 0 ∅, batches := ∅, epochStarts := ∅ }
  transactions := ∅

/-- A batch that is sent twice: the second attempt starts when the first one is over, and is answered
with the offset that the first one stored the batch at. -/
theorem idempotent_produce_exactly_once_retry : ∃ s : State Bool,
    (machine ⟨"t", 0⟩ (fun _ => firstAttempt) oneProducer).Reachable s ∧
    s.phase true = .answered (.duplicate 0) ∧ ∃ b bytes, (b, 0) ∈ s.advancedBy (fun _ => firstAttempt) 7 ∧
      s.objects (batchPath 0) = some bytes ∧
      Deflated.Batch.tryFrom bytes = some (firstBatch, []) := by
  have start : (machine ⟨"t", 0⟩ (fun _ : Bool => firstAttempt)
    oneProducer).Reachable _ := .init rfl
  have assigned := (((start.step (.check (a := false) rfl rfl List.mem_cons_self)).step
    (.ensure (a := false) (by decide +kernel) List.mem_cons_self)).step
    (.readStart (a := false) rfl List.mem_cons_self)).step (.assign (a := false) rfl rfl)
  have stored := (assigned.step (.recordRange (a := false) rfl rfl)).step (.put (a := false) rfl rfl)
  have advanced := stored.step (.advance (a := false) rfl rfl (Prod.ext rfl (by decide +kernel)))
  have retried := advanced.step (.check (a := true) rfl rfl List.mem_cons_self)
  have oneEpoch : ∀ (_ : Bool) batch, firstAttempt.idempotent = some batch → batch.producerId = 7 →
      batch.producerEpoch = 0 := by
    rintro _ _ ⟨⟩ _
    rfl
  have duplicate := (idempotent_produce_exactly_once retried oneEpoch (fun _ _ _ _ _ _ => rfl)
    (fun pd present => by cases present; exact ⟨by decide +kernel, by decide +kernel⟩)
    (by decide +kernel)).2.2 true 0 (by decide +kernel) (.inr (by decide +kernel))
  obtain ⟨b, bytes, logged, _, _, object, decoded, _⟩ := duplicate
  exact ⟨_, retried, by decide +kernel, b, bytes, logged, object, decoded⟩

end Nisshi.Dynostore.Produce
