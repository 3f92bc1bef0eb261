import Nisshi.Postgres.ProduceLog

/-! The batches of an idempotent producer without a transactional ID. What the epoch check found stays
true until the commit, since only a commit to the partition adds to its rows of `producer_detail` and
the watermark row's lock lets no other one through. -/

namespace Nisshi.Postgres.Produce

open Nisshi.Lib Nisshi.SansIo Nisshi.Storage.Producer List Option Function

namespace Attempt

def isBy (attempt : Attempt) (producer : Int) : Bool :=
  attempt.deflated.isIdempotent && attempt.producerId == producer

def isTransactional (attempt : Attempt) : Bool :=
  attempt.transactionId.isSome || attempt.deflated.isTransactional

end Attempt

namespace Tables

variable {tables : Tables} {work : Work} {attempt : Attempt} {producer : Int}

def Newest (tables : Tables) (producer epoch : Int) : Prop :=
  ∀ other, (tables.details producer other).isSome = true → other ≤ epoch

def Known (tables : Tables) (producer : Int) : Prop :=
  ∀ epoch, (tables.details producer epoch).isSome = true → epoch ∈ tables.epochs producer

theorem le_of_partition (known : tables.Known producer) (held : (tables.details producer other).isSome = true)
    (largest : ((tables.epochs producer).filter fun epoch =>
      (tables.details producer epoch).isSome).max? = some newest) : other ≤ newest :=
  (max?_eq_some_iff.mp largest).2 other (mem_filter.mpr ⟨known other held, held⟩)

theorem newest_of_idempotentEpochCheck (known : tables.Known attempt.producerId)
    (unowned : tables.owned attempt.producerId = false) (plain : attempt.isTransactional = false)
    (passes : tables.idempotentEpochCheck attempt = .ok verdict) :
    tables.Newest attempt.producerId attempt.producerEpoch := by
  have plain := Bool.or_eq_false_iff.mp plain
  rw [idempotentEpochCheck, storedEpochs] at passes
  cases newest : (tables.epochs attempt.producerId).max? with
  | none =>
    rw [newest] at passes
    cases passes
  | some =>
    rw [newest] at passes
    simp only [map_some, unowned, plain.1, plain.2, Bool.or_false] at passes
    intro other held
    rcases StoredEpochs.checkBatch_eq_ok passes with ⟨owned, _⟩ | ⟨_, same, _⟩ | ⟨_, below, _⟩
    · cases owned
    · exact le_of_partition known held same
    · have member : other ∈ (tables.epochs attempt.producerId).filter fun epoch =>
          (tables.details attempt.producerId epoch).isSome :=
        mem_filter.mpr ⟨known other held, held⟩
      obtain ⟨largest, found⟩ := isSome_iff_exists.mp (isSome_max?_of_mem member)
      exact (le_of_partition known held found).trans (below largest found).le

theorem details_commit_of_ne (other : attempt.producerId ≠ producer) :
    (work.commit attempt tables).details producer = tables.details producer := by
  cases detail : work.detail <;> by_cases starts : work.epoch = some .start <;>
    simp [Work.commit, append, setDetail, insertEpoch, detail, starts, Ne.symm other]

theorem details_commit_of_none (plain : work.detail = none) :
    (work.commit attempt tables).details = tables.details := by
  by_cases starts : work.epoch = some .start <;>
    simp [Work.commit, append, insertEpoch, plain, starts]

theorem details_commit {sequence : Int} (advanced : work.detail = some sequence) :
    (work.commit attempt tables).details attempt.producerId =
      Function.update (tables.details attempt.producerId) attempt.producerEpoch (some sequence) := by
  by_cases starts : work.epoch = some .start <;>
    simp [Work.commit, append, setDetail, insertEpoch, advanced, starts]

theorem mem_insertEpoch {epoch : Int} (member : other ∈ tables.epochs producer) :
    other ∈ (tables.insertEpoch p epoch).epochs producer := by
  by_cases same : producer = p
  · subst same
    simp only [insertEpoch, update_self]
    split
    · exact member
    · exact mem_cons_of_mem _ member
  · simp only [insertEpoch, update_of_ne same]
    exact member

theorem mem_insertEpoch_self (epoch : Int) : epoch ∈ (tables.insertEpoch producer epoch).epochs producer := by
  simp only [insertEpoch, update_self]
  split
  next found => exact found
  next => exact mem_cons_self

theorem epochs_commit : (work.commit attempt tables).epochs =
    (if work.epoch = some .start then tables.insertEpoch attempt.producerId attempt.producerEpoch
      else tables).epochs := by
  cases detail : work.detail <;> simp [Work.commit, append, setDetail, detail]

theorem mem_epochs_commit (member : epoch ∈ tables.epochs producer) :
    epoch ∈ (work.commit attempt tables).epochs producer := by
  rw [epochs_commit]
  split
  · exact mem_insertEpoch member
  · exact member

theorem mem_epochs_commit_self
    (visible : attempt.producerEpoch ∈ tables.epochs attempt.producerId ∨ work.epoch = some .start) :
    attempt.producerEpoch ∈ (work.commit attempt tables).epochs attempt.producerId := by
  rcases visible with found | starts
  · exact mem_epochs_commit found
  · rw [epochs_commit, if_pos starts]
    exact mem_insertEpoch_self _

end Tables

theorem idempotentSequenceCheck_eq_ok {sequence : Int}
    (passes : idempotentSequenceCheck sequence attempt = .ok increment) :
    sequence = attempt.baseSequence ∧ increment = attempt.size := by
  simp only [idempotentSequenceCheck] at passes
  split at passes
  next same =>
    cases passes
    exact ⟨same, attempt.size_eq.symm⟩
  next =>
    split at passes
    · cases passes
    · cases passes

theorem upsertSequence_eq_some {stored : Option Int} {sequence : Int}
    (fits : upsertSequence stored increment = some sequence) :
    sequence = stored.getD 0 + increment := by
  cases stored with
  | none =>
    cases fits
    simp
  | some =>
    simp only [upsertSequence] at fits
    split at fits
    · cases fits
      rfl
    · cases fits

@[simp]
def Knows (tables : Tables) (attempt : Attempt) : Phase → Prop
  | .start => True
  | .locked _ => True
  | .accepted _ => tables.Newest attempt.producerId attempt.producerEpoch
  | .started _ => tables.Newest attempt.producerId attempt.producerEpoch
  | .sequenced work increment => tables.Newest attempt.producerId attempt.producerEpoch ∧
      (attempt.producerEpoch ∈ tables.epochs attempt.producerId ∨ work.epoch = some .start) ∧
      tables.sequence attempt = attempt.baseSequence ∧ increment = attempt.size
  | .checked work | .copied work | .raised work =>
      tables.Newest attempt.producerId attempt.producerEpoch ∧
      (attempt.producerEpoch ∈ tables.epochs attempt.producerId ∨ work.epoch = some .start) ∧
      tables.sequence attempt = attempt.baseSequence ∧
      work.detail = some (attempt.baseSequence + attempt.size)
  | .answered _ => True

theorem Knows.outside {attempt : Attempt} (outside : phase.inTransaction = false) : Knows tables attempt phase := by
  cases phase <;> trivial

theorem Knows.mono {attempt : Attempt} (details : later.details attempt.producerId = tables.details attempt.producerId)
    (epochs : ∀ epoch ∈ tables.epochs attempt.producerId, epoch ∈ later.epochs attempt.producerId)
    (knows : Knows tables attempt phase) : Knows later attempt phase := by
  have newest (h : tables.Newest attempt.producerId attempt.producerEpoch) :
      later.Newest attempt.producerId attempt.producerEpoch := by
    rw [Tables.Newest, details]
    exact h
  have sequence : later.sequence attempt = tables.sequence attempt := by
    rw [Tables.sequence, Tables.sequence, details]
  cases phase with
  | start | locked | answered => trivial
  | accepted | started => exact newest knows
  | sequenced | checked work | copied work | raised work =>
    exact ⟨newest knows.1, knows.2.1.imp_left (epochs _), sequence.trans knows.2.2.1, knows.2.2.2⟩

variable {A : Type} {program : A → Attempt} {producer : Int} {s t : State A}

def sequences (program : A → Attempt) (producer epoch : Int) (stored : List (A × Int)) : List (A × Int) :=
  (stored.filter fun entry => (program entry.1).isBy producer &&
    (program entry.1).producerEpoch == epoch).map fun entry => (entry.1, (program entry.1).baseSequence)

theorem sequences_append_of_eq {offset : Int} (mine : (program a).isBy producer = true) :
    sequences program producer (program a).producerEpoch (stored ++ [(a, offset)]) =
      sequences program producer (program a).producerEpoch stored ++ [(a, (program a).baseSequence)] := by
  simp [sequences, filter_append, mine]

theorem sequences_append_of_ne {offset : Int}
    (other : ¬((program a).isBy producer = true ∧ (program a).producerEpoch = epoch)) :
    sequences program producer epoch (stored ++ [(a, offset)]) = sequences program producer epoch stored := by
  have skipped : ((program a).isBy producer && (program a).producerEpoch == epoch) = false := by
    rw [← Bool.not_eq_true, Bool.and_eq_true_iff, beq_iff_eq]
    exact other
  simp [sequences, filter_append, skipped]

/-- The producer's batches on the partition: at each epoch their sequences follow on each other up to
the sequence stored for the epoch, and no epoch comes after a newer one. -/
structure Sequenced (program : A → Attempt) (producer : Int) (s : State A) : Prop where
  known : s.tables.Known producer
  tiled : ∀ epoch, Tiled (fun a => (program a).size) 0 (sequences program producer epoch s.stored)
    ((s.tables.details producer epoch).getD 0)
  held : ∀ a offset, (a, offset) ∈ s.stored → (program a).isBy producer = true →
    (s.tables.details producer (program a).producerEpoch).isSome = true
  ordered : s.stored.Pairwise fun earlier later => (program earlier.1).isBy producer = true →
    (program later.1).isBy producer = true → (program earlier.1).producerEpoch ≤ (program later.1).producerEpoch
  knows : ∀ a, (program a).isBy producer = true → Knows s.tables (program a) (s.phase a)

namespace Sequenced

theorem producerId_of_isBy {attempt : Attempt} (mine : attempt.isBy producer = true) :
    attempt.producerId = producer := by
  simpa using (Bool.and_eq_true_iff.mp mine).2

theorem keep (sequenced : Sequenced program producer s)
    (details : t.tables.details producer = s.tables.details producer)
    (epochs : ∀ epoch ∈ s.tables.epochs producer, epoch ∈ t.tables.epochs producer) (stored : t.stored = s.stored)
    (knows : ∀ a, (program a).isBy producer = true → Knows t.tables (program a) (t.phase a)) :
    Sequenced program producer t where
  known := fun epoch held => epochs epoch (sequenced.known epoch (details ▸ held))
  tiled := by
    rw [details, stored]
    exact sequenced.tiled
  held := by
    rw [details, stored]
    exact sequenced.held
  ordered := by
    rw [stored]
    exact sequenced.ordered
  knows := knows

variable [DecidableEq A]

variable (sequenced : Sequenced program producer s)

include sequenced

theorem setPhase {a : A} (knows : (program a).isBy producer = true → Knows s.tables (program a) (s.phase a) →
      Knows s.tables (program a) phase) : Sequenced program producer (s.setPhase a phase) := by
  refine sequenced.keep rfl (fun _ member => member) rfl ?_
  exact (forall_update_iff s.phase fun b phase => (program b).isBy producer = true →
    Knows s.tables (program b) phase).mpr
      ⟨fun mine => knows mine (sequenced.knows a mine), fun b _ => sequenced.knows b⟩

theorem commit_other (logged : Logged program s) {a : A} (at_ : s.phase a = .raised work)
    (other : (program a).isBy producer = false) :
    Sequenced program producer (s.commit program a work answer) := by
  have inside : (s.phase a).inTransaction = true := by
    rw [at_]
    rfl
  have not_mine : ¬(program a).isBy producer = true := by simp [other]
  have same : (work.commit (program a) s.tables).details producer = s.tables.details producer := by
    rcases Bool.and_eq_false_iff.mp other with plain | different
    · have holds := logged.holds a
      rw [at_] at holds
      rw [Tables.details_commit_of_none (holds.plain work rfl plain).1]
    · exact Tables.details_commit_of_ne (by simpa using different)
  refine {
    known := fun epoch held => Tables.mem_epochs_commit (sequenced.known epoch (same ▸ held))
    tiled := fun epoch => ?_
    held := fun b offset member mine => ?_
    ordered := ?_
    knows := ?_ }
  · have kept := sequenced.tiled epoch
    rw [← same] at kept
    have entries : sequences program producer epoch (s.stored ++ [(a, work.high.getD 0)]) = _ :=
      sequences_append_of_ne fun both => not_mine both.1
    rw [← entries] at kept
    exact kept
  · rcases Log.mem_concat.mp member with old | new
    · have kept := sequenced.held b offset old mine
      rw [← same] at kept
      exact kept
    · obtain ⟨rfl, _⟩ := Prod.mk.inj new
      exact absurd mine not_mine
  · exact Log.pairwise_concat.mpr ⟨sequenced.ordered, fun _ _ _ mine => absurd mine not_mine⟩
  · exact (forall_update_iff s.phase fun b phase => (program b).isBy producer = true → Knows _ (program b) phase).mpr
        ⟨fun _ => trivial, fun b different _ => .outside (logged.outside inside different)⟩

theorem commit (logged : Logged program s) {a : A} {work : Work} (at_ : s.phase a = .raised work)
    (mine : (program a).isBy producer = true) :
    Sequenced program producer (s.commit program a work answer) := by
  obtain rfl := producerId_of_isBy mine
  have inside : (s.phase a).inTransaction = true := by
    rw [at_]
    rfl
  have knows := sequenced.knows a mine
  rw [at_] at knows
  obtain ⟨newest, visible, sequence, detail⟩ := knows
  have advanced : (work.commit (program a) s.tables).details (program a).producerId = _ :=
    Tables.details_commit detail
  have isSome_of {epoch : Int} (held : (s.tables.details (program a).producerId epoch).isSome = true) :
      ((work.commit (program a) s.tables).details (program a).producerId epoch).isSome = true := by
    rw [advanced]
    by_cases same : epoch = (program a).producerEpoch
    · subst same
      simp
    · rw [update_of_ne same]
      exact held
  have isSome_self : ((work.commit (program a) s.tables).details (program a).producerId
      (program a).producerEpoch).isSome = true := by
    rw [advanced, update_self]
    rfl
  refine {
    known := fun epoch held => ?_
    tiled := fun epoch => ?_
    held := fun b offset member other => ?_
    ordered := ?_
    knows := ?_ }
  · by_cases same : epoch = (program a).producerEpoch
    · subst same
      exact Tables.mem_epochs_commit_self visible
    · refine Tables.mem_epochs_commit (sequenced.known epoch ?_)
      have held : ((work.commit (program a) s.tables).details (program a).producerId epoch).isSome = true :=
        held
      rw [advanced, update_of_ne same] at held
      exact held
  · simp only [State.commit, State.setPhase, State.release, State.noteStored, State.setTables]
    rw [advanced]
    by_cases same : epoch = (program a).producerEpoch
    · subst same
      rw [sequences_append_of_eq mine, update_self, ← sequence]
      exact (sequenced.tiled _).snoc a (program a).size_pos
    · rw [sequences_append_of_ne (fun both => same both.2.symm), update_of_ne same]
      exact sequenced.tiled epoch
  · rcases Log.mem_concat.mp member with old | new
    · exact isSome_of (sequenced.held b offset old other)
    · obtain ⟨rfl, _⟩ := Prod.mk.inj new
      exact isSome_self
  · refine Log.pairwise_concat.mpr ⟨sequenced.ordered, fun stored earlier other _ => ?_⟩
    exact newest _ (sequenced.held stored.1 stored.2 earlier other)
  · exact (forall_update_iff s.phase fun b phase =>
      (program b).isBy (program a).producerId = true → Knows _ (program b) phase).mpr
        ⟨fun _ => trivial, fun b different _ => .outside (logged.outside inside different)⟩

/-- A step, at a time when no transactional ID owns the producer. -/
theorem step (logged : Logged program s)
    (plain : ∀ a, (program a).isBy producer = true → (program a).isTransactional = false)
    (unowned : s.everOwned producer = false) (step : Step program s action t) :
    Sequenced program producer t := by
  have unowned : s.tables.owned producer = false := by
    rw [← Bool.not_eq_true]
    intro owned
    rw [logged.owned producer owned] at unowned
    cases unowned
  have lock (lock : Option A) : Sequenced program producer { s with lock } :=
    sequenced.keep rfl (fun _ member => member) rfl sequenced.knows
  cases step with
  | lock => exact (lock (some _)).setPhase fun _ _ => trivial
  | @skip a work at_ notIdempotent =>
    refine sequenced.setPhase fun mine _ => ?_
    rw [(Bool.and_eq_true_iff.mp mine).1] at notIdempotent
    cases notIdempotent
  | @accept a work verdict at_ idempotent passes =>
    refine sequenced.setPhase fun mine _ => ?_
    obtain rfl := producerId_of_isBy mine
    exact Tables.newest_of_idempotentEpochCheck sequenced.known unowned (plain a mine) passes
  | insertEpoch at_ | copy at_ | raise at_ =>
    refine sequenced.setPhase fun mine knows => ?_
    rw [at_] at knows
    exact knows
  | readSequence at_ visible passes =>
    refine sequenced.setPhase fun mine knows => ?_
    rw [at_] at knows
    exact ⟨knows, visible, idempotentSequenceCheck_eq_ok passes⟩
  | upsertDetail at_ fits =>
    refine sequenced.setPhase fun mine knows => ?_
    rw [at_] at knows
    obtain ⟨newest, visible, sequence, rfl⟩ := knows
    refine ⟨newest, visible, sequence, ?_⟩
    rw [upsertSequence_eq_some fits, ← sequence]
    rfl
  | @commit a work at_ | @loseReply a work at_ =>
    cases mine : (program a).isBy producer with
    | true => exact sequenced.commit logged at_ mine
    | false => exact sequenced.commit_other logged at_ mine
  | refuseEpoch =>
    exact (lock none).setPhase fun _ _ => trivial
  | refuseSequence | abort => exact (lock none).setPhase fun _ _ => trivial
  | abortStart => exact sequenced.setPhase fun _ _ => trivial
  | addEpoch other epoch =>
    have grows (producer : Int) : ∀ old ∈ s.tables.epochs producer,
        old ∈ (s.tables.insertEpoch other epoch).epochs producer :=
      fun _ member => Tables.mem_insertEpoch member
    refine sequenced.keep rfl (grows producer) rfl fun a mine => ?_
    refine (sequenced.knows a mine).mono ?_ (grows _)
    rfl
  | own =>
    refine sequenced.keep rfl (fun _ member => member) rfl fun a mine => ?_
    exact (sequenced.knows a mine).mono rfl fun _ member => member

end Sequenced

theorem everOwned_of_step [DecidableEq A] (step : Step program s action t)
    (unowned : t.everOwned producer = false) : s.everOwned producer = false := by
  cases step <;> first | exact unowned | exact (Bool.or_eq_false_iff.mp unowned).1

theorem Sequenced.of_reachable [DecidableEq A] {epochs : Int → List Int}
    (plain : ∀ a, (program a).isBy producer = true → (program a).isTransactional = false)
    (reached : (machine program epochs owned).Reachable s) (unowned : s.everOwned producer = false) :
    Sequenced program producer s := by
  induction reached with
  | init start =>
    cases start
    exact {
      known := nofun
      tiled := fun _ => .nil
      held := nofun
      ordered := List.Pairwise.nil
      knows := fun _ _ => trivial }
  | step before _ taken ih =>
    have unowned := everOwned_of_step taken unowned
    exact (ih unowned).step (Logged.of_reachable before) plain unowned taken

theorem Sequenced.epoch_le (sequenced : Sequenced program producer s) (logged : Logged program s)
    {a : A} (stored : (a, first) ∈ s.stored) (stored' : (b, second) ∈ s.stored)
    (mine : (program a).isBy producer = true) (mine' : (program b).isBy producer = true)
    (before : first < second) : (program a).producerEpoch ≤ (program b).producerEpoch := by
  have all : ∀ x ∈ s.stored, ∀ y ∈ s.stored, x.2 < y.2 → (program x.1).isBy producer = true →
      (program y.1).isBy producer = true → (program x.1).producerEpoch ≤ (program y.1).producerEpoch := by
    refine List.Pairwise.forall_of_forall_of_flip (fun x _ less => absurd less (lt_irrefl _)) ?_ ?_
    · refine sequenced.ordered.imp fun {x y} le _ => ?_
      exact le
    · refine logged.tiled.ordered.imp fun {x y} above below => ?_
      have := (program x.1).size_pos
      omega
  exact all _ stored _ stored' before mine mine'

/-- The records of the call are in the log, in their order and from `first` on. -/
def Placed (program : A → Attempt) (s : State A) (a : A) (first : Int) : Prop :=
  ∀ (i : Nat) record, (program a).inflated.records[i]? = some record →
    ∃ attributes row, BatchAttribute.tryFrom (program a).deflated.attributes = some attributes ∧
      (program a).row attributes.toI16 (first + i) record = some row ∧ s.tables.records[first.toNat + i]? = some row

theorem Logged.existsUnique_place (logged : Logged program s) (low : 0 ≤ offset)
    (high : offset < s.tables.high.getD 0) :
    ∃! place : A × Nat, ∃ first, (place.1, first) ∈ s.stored ∧
      place.2 < (program place.1).inflated.records.length ∧ offset = first + place.2 := by
  obtain ⟨a, first, member, le, less⟩ := logged.tiled.covered low high
  simp only [Attempt.size] at less
  refine ⟨(a, (offset - first).toNat), ⟨first, member, ?_, ?_⟩, ?_⟩
  · simp only
    omega
  · omega
  · rintro ⟨b, i⟩ ⟨second, member', bound, rfl⟩
    simp only at bound le less
    rcases logged.tiled.eq_or_disjoint member member' with ⟨rfl, rfl⟩ | apart | apart
    · simp
    · simp only [Attempt.size] at apart
      omega
    · simp only [Attempt.size] at apart
      omega

theorem Logged.placed_of_stored (logged : Logged program s) {a : A} (stored : (a, first) ∈ s.stored) :
    Placed program s a first := by
  intro i record found
  obtain ⟨_, converted, placed⟩ := logged.placed a first stored
  obtain ⟨attributes, tried, from_⟩ := bind_eq_some_iff.mp converted
  obtain ⟨row, place, same⟩ := Attempt.row_of_rowsFrom from_ found
  exact ⟨attributes, row, tried, same, placed i row place⟩

/-- What the commit of a failed call left: none of its records, or all of them. -/
theorem Logged.none_or_all (logged : Logged program s) {a : A} (failed : s.phase a = .answered (.failed error)) :
    (∀ first, (a, first) ∉ s.stored) ∨
      error = none ∧ ∃ first, (a, first) ∈ s.stored ∧ Placed program s a first := by
  by_cases stored : ∃ first, (a, first) ∈ s.stored
  · obtain ⟨first, member⟩ := stored
    refine .inr ⟨?_, first, member, logged.placed_of_stored member⟩
    rcases (logged.finished a).ended first member with answered | answered
    · cases failed.symm.trans answered
    · cases failed.symm.trans answered
      rfl
  · exact .inl fun first member => stored ⟨first, member⟩

/-- For every interleaving of produce calls to the partition: the log holds one row for each offset below
the high watermark, and each such offset was given to one record of one call whose commit was applied; the
records of such a call are at its offset and the following ones, and the log holds no other rows. A call that is
answered `Ok` with an offset is stored there, one that fails with a code is not stored, and one that fails without a
code is stored once and as a whole or not at all. For a producer without transactions, the stored batches of an epoch
continue each other's sequences from zero, and no epoch is stored after a newer one. -/
theorem produce_fills_log_in_sequence [DecidableEq A] (program : A → Attempt) (epochs : Int → List Int)
    (owned : Int → Bool) {s : State A} (reached : (machine program epochs owned).Reachable s) :
    s.tables.records.map RecordRow.offset = (List.range (s.tables.high.getD 0).toNat).map (fun i : Nat => (i : Int)) ∧
    (∀ offset, 0 ≤ offset → offset < s.tables.high.getD 0 →
      ∃! place : A × Nat, ∃ first, (place.1, first) ∈ s.stored ∧
        place.2 < (program place.1).inflated.records.length ∧ offset = first + place.2) ∧
    (∀ row ∈ s.tables.records, ∃ a first rows, (a, first) ∈ s.stored ∧
      (program a).rows first = some rows ∧ row ∈ rows) ∧
    (∀ a first, s.phase a = .answered (.ok first) → (a, first) ∈ s.stored ∧ Placed program s a first) ∧
    (∀ a error, s.phase a = .answered (.failed error) → (∀ first, (a, first) ∉ s.stored) ∨
      error = none ∧ ∃ first, (a, first) ∈ s.stored ∧ Placed program s a first) ∧
    (∀ a first, (a, first) ∈ s.stored →
      s.phase a = .answered (.ok first) ∨ s.phase a = .answered (.failed none)) ∧
    (∀ a first second, (a, first) ∈ s.stored → (a, second) ∈ s.stored → first = second) ∧
    s.stored.Pairwise (fun earlier later => earlier.2 < later.2) ∧
    ∀ producer, (∀ a, (program a).isBy producer = true → (program a).isTransactional = false) →
      s.everOwned producer = false →
      (∀ epoch, Tiled (fun a => (program a).size) 0 (sequences program producer epoch s.stored)
        ((s.tables.details producer epoch).getD 0)) ∧
      ∀ a b first second, (a, first) ∈ s.stored → (b, second) ∈ s.stored →
        (program a).isBy producer = true → (program b).isBy producer = true → first < second →
        (program a).producerEpoch ≤ (program b).producerEpoch := by
  have logged := Logged.of_reachable reached
  refine ⟨logged.offsets, fun _ => logged.existsUnique_place, logged.source, fun a first answered => ?_,
    fun _ _ => logged.none_or_all, fun a => (logged.finished a).ended, fun a => (logged.finished a).once, ?_,
    fun producer plain unowned => ?_⟩
  · have stored := (logged.finished a).ok first answered
    exact ⟨stored, logged.placed_of_stored stored⟩
  · refine logged.tiled.ordered.imp fun {x y} le => ?_
    have := (program x.1).size_pos
    omega
  · have sequenced := Sequenced.of_reachable plain reached unowned
    exact ⟨sequenced.tiled, fun _ _ _ _ stored stored' => sequenced.epoch_le logged stored stored'⟩

theorem measured_nil : (49 : Int32).toInt = Deflated.fixedBatchLength + ([] : List UInt8).length := by
  decide

def Attempt.ofSequence (sequence : Int32) (key : UInt8) : Attempt :=
  let record (offsetDelta : Int32) : Record :=
    { attributes := 0, timestampDelta := 0, offsetDelta, key := some [key], value := none, headers := [] }
  { transactionId := none
    deflated :=
      { baseOffset := 0, batchLength := 49, partitionLeaderEpoch := -1, magic := 2, crc := 0
        attributes := 0, lastOffsetDelta := 1, baseTimestamp := 5, maxTimestamp := 5, producerId := 7
        producerEpoch := 0, baseSequence := sequence, recordCount := 2, recordData := []
        measured := measured_nil }
    inflated :=
      { baseOffset := 0, partitionLeaderEpoch := -1, magic := 2, attributes := 0, lastOffsetDelta := 1
        baseTimestamp := 5, maxTimestamp := 5, producerId := 7, producerEpoch := 0
        baseSequence := sequence, records := [record 0, record 1] }
    sameDelta := rfl
    counted := rfl
    nonempty := nofun
    fits := by
      change (1 : Int32).toInt + 1 < 2 ^ 31
      decide }

def Attempt.inTurn : Bool → Attempt
  | false => ofSequence 0 0
  | true => ofSequence 2 1

theorem produce_fills_log_in_sequence_in_turn : ∃ s : State Bool,
    (machine Attempt.inTurn (fun _ => [0]) fun _ => false).Reachable s ∧
      s.phase false = .answered (.failed none) ∧ s.phase true = .answered (.ok 2) ∧ Placed Attempt.inTurn s true 2 ∧
      s.tables.records.map RecordRow.offset = (List.range (s.tables.high.getD 0).toNat).map (fun i : Nat => (i : Int)) ∧
      Tiled (fun a => (Attempt.inTurn a).size) 0 (sequences Attempt.inTurn 7 0 s.stored)
        ((s.tables.details 7 0).getD 0) := by
  have started : (machine Attempt.inTurn (fun _ => [0]) fun _ => false).Reachable _ := .init rfl
  have first := started
    |>.step (.lock (a := false) rfl rfl)
    |>.step (.accept (a := false) rfl rfl rfl)
    |>.step (.insertEpoch (a := false) rfl)
    |>.step (.readSequence (a := false) rfl (.inr rfl) rfl)
    |>.step (.upsertDetail (a := false) rfl rfl)
    |>.step (.copy (a := false) rfl rfl fun _ _ _ stored => nomatch stored)
    |>.step (.raise (a := false) rfl)
    |>.step (.loseReply (a := false) rfl)
  have second := first
    |>.step (.lock (a := true) rfl rfl)
    |>.step (.accept (a := true) rfl rfl rfl)
    |>.step (.insertEpoch (a := true) rfl)
    |>.step (.readSequence (a := true) rfl (.inl (by decide)) rfl)
    |>.step (.upsertDetail (a := true) rfl rfl)
    |>.step (.copy (a := true) rfl rfl (by decide))
    |>.step (.raise (a := true) rfl)
    |>.step (.commit (a := true) rfl)
  obtain ⟨offsets, _, _, answered, _, _, _, _, sequenced⟩ := produce_fills_log_in_sequence _ _ _ second
  exact ⟨_, second, rfl, rfl, (answered true 2 rfl).2, offsets, (sequenced 7 (by decide) rfl).1 0⟩

/-- The first call is stored and its reply is lost. -/
theorem failed_produce_is_stored : ∃ s : State Bool,
    (machine Attempt.inTurn (fun _ => [0]) fun _ => false).Reachable s ∧
      s.phase false = .answered (.failed none) ∧ s.phase true = .start ∧
      s.tables.records.map RecordRow.offset = [0, 1] := by
  have started : (machine Attempt.inTurn (fun _ => [0]) fun _ => false).Reachable _ := .init rfl
  have first := started
    |>.step (.lock (a := false) rfl rfl)
    |>.step (.accept (a := false) rfl rfl rfl)
    |>.step (.insertEpoch (a := false) rfl)
    |>.step (.readSequence (a := false) rfl (.inr rfl) rfl)
    |>.step (.upsertDetail (a := false) rfl rfl)
    |>.step (.copy (a := false) rfl rfl fun _ _ _ stored => nomatch stored)
    |>.step (.raise (a := false) rfl)
    |>.step (.loseReply (a := false) rfl)
  exact ⟨_, first, rfl, rfl, rfl⟩

end Nisshi.Postgres.Produce
