import Nisshi.Dynostore.Idempotence

/-! Epoch bumps of an idempotent producer: the fence in the watermark document keeps the producer's
batches in the order of their epochs, however its attempts overlap. -/

namespace Nisshi.Dynostore

open Std Nisshi.SansIo Nisshi.Storage.Producer Option
open List (mem_cons_self)

namespace Watermark

variable {watermark : Watermark} {producerId producerEpoch : Int}

/-- The document holds the producer's epoch without forgetting another producer. -/
def HasRoom (watermark : Watermark) (producerId producerEpoch : Int) : Prop :=
  0 < producerEpoch → (watermark.producerEpochs.insert producerId producerEpoch).size ≤ maxFencedProducers

theorem recordProducerEpoch_holds (room : watermark.HasRoom producerId producerEpoch) (positive : 0 < producerEpoch) :
    ∃ newest, (watermark.recordProducerEpoch producerId producerEpoch).producerEpochs[producerId]? =
      some newest ∧ producerEpoch ≤ newest := by
  unfold recordProducerEpoch
  split
  next kept =>
    rcases kept with nonpositive | held
    · omega
    · cases present : watermark.producerEpochs[producerId]? with
      | none => simp [present] at held
      | some newest => exact ⟨newest, rfl, by simpa [present] using held⟩
  next =>
    have fits := room positive
    simp only [if_neg (Nat.not_lt.mpr fits)]
    exact ⟨producerEpoch, ExtTreeMap.getElem?_insert_self, Int.le_refl _⟩

theorem recordProducerEpoch_mono (room : watermark.HasRoom producerId producerEpoch) {other : Int}
    (present : watermark.producerEpochs[other]? = some newest) :
    ∃ newest', (watermark.recordProducerEpoch producerId producerEpoch).producerEpochs[other]? =
      some newest' ∧ newest ≤ newest' := by
  unfold recordProducerEpoch
  split
  · exact ⟨newest, present, Int.le_refl _⟩
  next bumped =>
    obtain ⟨positive, newer⟩ := not_or.mp bumped
    have fits := room (by omega)
    simp only [if_neg (Nat.not_lt.mpr fits), ExtTreeMap.getElem?_insert]
    split
    next same =>
      obtain rfl := LawfulEqOrd.eq_of_compare same
      simp only [present, any_some, decide_eq_true_eq] at newer
      exact ⟨producerEpoch, rfl, by omega⟩
    next => exact ⟨newest, present, Int.le_refl _⟩

theorem not_fenced {deflated : Deflated.Batch} {offset : Int}
    (given : watermark.assignOffset deflated = (after, .ok offset))
    (idempotent : IdempotentBatch.of deflated = some batch)
    (present : watermark.producerEpochs[batch.producerId]? = some newest) :
    newest ≤ batch.producerEpoch := by
  unfold assignOffset at given
  simp only [idempotent, any_some] at given
  split at given
  · cases given
  next passes =>
    simp only [isFenced, present, any_some, decide_eq_true_eq] at passes
    omega

theorem assignOffset_producerEpochs {after : Watermark}
    (given : watermark.assignOffset deflated = (after, .ok offset)) :
    after.producerEpochs = match IdempotentBatch.of deflated with
      | none => watermark.producerEpochs
      | some batch =>
        (watermark.recordProducerEpoch batch.producerId batch.producerEpoch).producerEpochs := by
  unfold assignOffset at given
  simp only at given
  split at given
  · cases given
  · cases given
    cases IdempotentBatch.of deflated with
    | none => rfl
    | some =>
      simp only [recordProducerEpoch]
      split <;> rfl

end Watermark

namespace Produce

variable {A : Type} {program : A → Attempt} {producerId : Int} {s t : State A}

def Attempt.epoch (attempt : Attempt) : Int :=
  attempt.deflated.producerEpoch.toInt

def State.takenBy (program : A → Attempt) (producerId : Int) (s : State A) : List (A × Int) :=
  s.taken.filter fun entry => (program entry.1).isBy producerId

def HasRoom (program : A → Attempt) (s : State A) : Action A → Prop
  | .assign a => ∀ batch, (program a).idempotent = some batch → s.watermark.HasRoom batch.producerId batch.producerEpoch
  | _ => True

theorem isBy_idempotent {attempt : Attempt} (mine : attempt.isBy producerId = true) :
    ∃ batch, attempt.idempotent = some batch ∧ batch.producerId = producerId ∧ batch.producerEpoch = attempt.epoch := by
  obtain ⟨batch, idempotent, same⟩ := Attempt.isBy_iff.mp mine
  refine ⟨batch, idempotent, same, ?_⟩
  obtain ⟨_, rfl⟩ := ite_some_none_eq_some.mp idempotent
  rfl

/-- The document holds an epoch at least as new as that of every batch above epoch 0, and the batches are
in the order of their epochs. -/
structure Fenced (program : A → Attempt) (producerId : Int) (s : State A) : Prop where
  held : ∀ a offset, (a, offset) ∈ s.taken → (program a).isBy producerId = true →
    0 < (program a).epoch → ∃ newest, s.watermark.producerEpochs[producerId]? = some newest ∧ (program a).epoch ≤ newest
  ordered : (s.takenBy program producerId).Pairwise fun earlier later =>
    (program earlier.1).epoch ≤ (program later.1).epoch

variable [DecidableEq A] {topition : Topition} {store : Meta} {action : Action A}

theorem taken_step (step : Step topition program s action t) :
    (t.taken = s.taken ∧ t.watermark.producerEpochs = s.watermark.producerEpochs) ∨ ∃ a offset, action = .assign a ∧
      s.watermark.assignOffset (program a).deflated = (t.watermark, .ok offset) ∧
      t.taken = s.taken ++ [(a, offset)] := by
  cases step with
  | assign _ given => exact .inr ⟨_, _, rfl, given, rfl⟩
  | assignRefused _ refused => exact .inl ⟨rfl, congrArg _ (Watermark.eq_of_refused refused)⟩
  | _ => exact .inl ⟨rfl, rfl⟩

theorem Fenced.step (fenced : Fenced program producerId s)
    (single : ∀ a b, (program a).isBy producerId = true → (program b).isBy producerId = true →
      (program a).epoch ≤ 0 → (program b).epoch ≤ 0 → (program a).epoch = (program b).epoch)
    (room : HasRoom program s action) (step : Step topition program s action t) :
    Fenced program producerId t := by
  rcases taken_step step with ⟨taken, epochs⟩ | ⟨a, offset, rfl, given, taken⟩
  · refine ⟨?_, ?_⟩
    · rw [taken, epochs]
      exact fenced.held
    · rw [State.takenBy, taken]
      exact fenced.ordered
  · have recorded := Watermark.assignOffset_producerEpochs given
    -- What the document holds for a producer stays or grows, whoever the new batch is by.
    have grows : ∀ newest, s.watermark.producerEpochs[producerId]? = some newest →
        ∃ newest', t.watermark.producerEpochs[producerId]? = some newest' ∧ newest ≤ newest' := by
      intro newest present
      rw [recorded]
      split
      · exact ⟨newest, present, Int.le_refl _⟩
      next batch idempotent => exact Watermark.recordProducerEpoch_mono (room batch idempotent) present
    constructor
    · intro b first member mine positive
      rw [taken] at member
      rcases List.mem_append.mp member with old | new
      · obtain ⟨newest, present, bound⟩ := fenced.held b first old mine positive
        obtain ⟨newest', present', later⟩ := grows newest present
        exact ⟨newest', present', bound.trans later⟩
      · obtain ⟨rfl, rfl⟩ := Prod.mk.inj (List.mem_singleton.mp new)
        obtain ⟨batch, idempotent, rfl, epoch⟩ := isBy_idempotent mine
        rw [Attempt.idempotent] at idempotent
        rw [recorded, idempotent, ← epoch]
        rw [← epoch] at positive
        exact Watermark.recordProducerEpoch_holds (room batch idempotent) positive
    · rw [State.takenBy, taken, List.filter_append, List.pairwise_append]
      refine ⟨fenced.ordered, (List.pairwise_singleton _ _).filter _, ?_⟩
      rintro ⟨b, first⟩ member last member'
      obtain ⟨new, mine⟩ := List.mem_filter.mp member'
      obtain rfl := List.mem_singleton.mp new
      replace mine : (program a).isBy producerId = true := mine
      obtain ⟨old, mine'⟩ := List.mem_filter.mp member
      obtain ⟨batch, idempotent, same, epoch⟩ := isBy_idempotent mine
      by_cases positive : 0 < (program b).epoch
      · -- The document holds an epoch at least as new as the older batch's, and did not fence this one.
        obtain ⟨newest, present, bound⟩ := fenced.held b first old mine' positive
        rw [← same] at present
        have passes := Watermark.not_fenced given idempotent present
        change (program b).epoch ≤ (program a).epoch
        omega
      · change (program b).epoch ≤ (program a).epoch
        by_cases above : 0 < (program a).epoch
        · omega
        · exact (single b a mine' mine (by omega) (by omega)).le

theorem fenced_of_reachable
    (single : ∀ a b, (program a).isBy producerId = true → (program b).isBy producerId = true →
      (program a).epoch ≤ 0 → (program b).epoch ≤ 0 → (program a).epoch = (program b).epoch)
    (reached : (machine topition program store).ReachableWhile (HasRoom program) s) :
    Fenced program producerId s := by
  apply Lib.Machine.ReachableWhile.invariant ?_ ?_ reached
  · rintro _ rfl
    refine ⟨?_, List.Pairwise.nil⟩
    intro a offset member
    cases member
  · intro s action t fenced room step
    exact fenced.step single room step

/-- While a partition forgets no producer, a producer whose batches have no two epochs at or below 0 has
its batches in the log in the order of their epochs. -/
theorem epoch_bumps_keep_log_order
    (single : ∀ a b, (program a).isBy producerId = true → (program b).isBy producerId = true →
      (program a).epoch ≤ 0 → (program b).epoch ≤ 0 → (program a).epoch = (program b).epoch)
    (reached : (machine topition program store).ReachableWhile (HasRoom program) s) :
    ((s.takenBy program producerId).Pairwise fun earlier later =>
      earlier.2 < later.2 ∧ (program earlier.1).epoch ≤ (program later.1).epoch) ∧
    (∀ a b offset offset', (program a).isBy producerId = true → (program b).isBy producerId = true →
      (program a).epoch < (program b).epoch → s.phase a = .answered (.appended offset) →
      s.phase b = .answered (.appended offset') → offset < offset') := by
  have fenced := fenced_of_reachable single reached
  have assigned := assigned_of_reachable reached.reachable
  have rising : (s.takenBy program producerId).Pairwise fun earlier later => earlier.2 < later.2 := by
    refine (assigned.tiled.ordered.filter _).imp ?_
    intro earlier later apart
    have positive := (program earlier.1).size_pos
    omega
  have ordered := rising.and fenced.ordered
  refine ⟨ordered, ?_⟩
  intro a b offset offset' mine mine' below at_ at_'
  have member : (a, offset) ∈ s.takenBy program producerId :=
    List.mem_filter.mpr ⟨assigned.holds a offset (by rw [at_]; rfl), mine⟩
  have member' : (b, offset') ∈ s.takenBy program producerId :=
    List.mem_filter.mpr ⟨assigned.holds b offset' (by rw [at_']; rfl), mine'⟩
  rcases Lib.Log.pairwise_trichotomy ordered member member' with same | before | after
  · cases same
    omega
  · exact before.1
  · have bound : (program b).epoch ≤ (program a).epoch := after.2
    omega

def epochBatch (epoch : Int16) : Deflated.Batch :=
  { plainBatch with producerId := 7, producerEpoch := epoch, baseSequence := 0, measured := plainBatch.measured }

def epochAttempt (epoch : Int16) : Attempt :=
  { transactionId := none, deflated := epochBatch epoch, delta_nonneg := plainAttempt.delta_nonneg }

def twoEpochs (first second : Int16) (later : Bool) : Attempt :=
  epochAttempt (if later then second else first)

/-- Both batches are appended, and the second gets its offset before the first has been stored. -/
theorem both_appended {second : Int16} (epoch : second = 1 ∨ second = -1) : ∃ s : State Bool,
    (machine ⟨"t", 0⟩ (twoEpochs 0 second) oneProducer).ReachableWhile
      (HasRoom (twoEpochs 0 second)) s ∧
    s.phase false = .answered (.appended 0) ∧ s.phase true = .answered (.appended 1) ∧
    s.takenBy (twoEpochs 0 second) 7 = [(false, 0), (true, 1)] := by
  have start : (machine ⟨"t", 0⟩ (twoEpochs 0 second) oneProducer).ReachableWhile
    (HasRoom (twoEpochs 0 second)) _ := .init rfl
  rcases epoch with rfl | rfl
  all_goals
    have older := ((((start.next (.check (a := false) rfl rfl mem_cons_self) trivial).next
      (.ensure (a := false) (by decide +kernel) mem_cons_self) trivial).next
      (.readStart (a := false) rfl mem_cons_self) trivial).next (.assign (a := false) rfl rfl)
      (by rintro _ ⟨⟩ positive; exact absurd positive (by decide)))
    have newer := ((((older.next (.check (a := true) rfl rfl mem_cons_self) trivial).next
      (.ensure (a := true) (by decide +kernel) mem_cons_self) trivial).next
      (.readStart (a := true) rfl mem_cons_self) trivial).next (.assign (a := true) rfl rfl)
      (by rintro _ ⟨⟩ _; decide +kernel))
    have recorded := ((newer.next (.recordRange (a := true) rfl rfl) trivial).next (.put (a := true) rfl rfl)
      trivial).next (.recordRange (a := false) rfl rfl) trivial
    have stored := recorded.next (.put (a := false) rfl
      ((assigned_of_reachable recorded.reachable).absent (a := false) rfl rfl)) trivial
    have advanced := (stored.next (.advance (a := true) rfl rfl (Prod.ext rfl (by decide +kernel)))
      trivial).next (.advance (a := false) rfl rfl (Prod.ext rfl (by decide +kernel))) trivial
    exact ⟨_, advanced, rfl, rfl, by decide +kernel⟩

/-- A batch at epoch 1 that gets its offset before the batch at epoch 0 has been stored. -/
theorem epoch_bumps_keep_log_order_bump : ∃ s : State Bool,
    (machine ⟨"t", 0⟩ (twoEpochs 0 1) oneProducer).ReachableWhile
      (HasRoom (twoEpochs 0 1)) s ∧
    s.phase false = .answered (.appended 0) ∧ s.phase true = .answered (.appended 1) ∧
    ((s.takenBy (twoEpochs 0 1) 7).Pairwise fun earlier later =>
      earlier.2 < later.2 ∧ (twoEpochs 0 1 earlier.1).epoch ≤ (twoEpochs 0 1 later.1).epoch) := by
  obtain ⟨s, reached, first, second, -⟩ := both_appended (.inl rfl)
  exact ⟨s, reached, first, second, (epoch_bumps_keep_log_order (by decide) reached).1⟩

/-- A batch at epoch -1 passes the sequence check beside one at epoch 0, the watermark holds neither
epoch, and both produces append, in the wrong order. -/
theorem negative_epoch_overtakes : ∃ s : State Bool,
    (machine ⟨"t", 0⟩ (twoEpochs 0 (-1)) oneProducer).ReachableWhile
      (HasRoom (twoEpochs 0 (-1))) s ∧
    s.phase false = .answered (.appended 0) ∧ s.phase true = .answered (.appended 1) ∧
    (twoEpochs 0 (-1) true).epoch < (twoEpochs 0 (-1) false).epoch ∧
    s.takenBy (twoEpochs 0 (-1)) 7 = [(false, 0), (true, 1)] := by
  obtain ⟨s, reached, first, second, taken⟩ := both_appended (.inr rfl)
  exact ⟨s, reached, first, second, by decide, taken⟩

end Produce

end Nisshi.Dynostore
