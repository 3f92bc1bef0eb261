import Nisshi.Postgres.ProduceSequence
import Nisshi.Storage.OffsetStage

/-! `Postgres::list_offsets_on` by timestamp beside produces and `delete_records_partition` on one partition. A
produce and the watermark advance of a deletion each hold the lock of the watermark row until they commit. The
removal of the rows below the new log start is a transaction of its own, which may come late or fail. -/

namespace Nisshi.Postgres.ListOffsets

open Nisshi.Lib Nisshi.SansIo Nisshi.Storage Nisshi.Postgres.Produce List Option Function

def listLatestOffsetTimestamp (timestamp : Int64) (records : List RecordRow) : Option (Int × Int64) :=
  ((records.filter fun row => timestamp.toInt ≤ row.timestamp.toInt).minOn? RecordRow.offset).map fun row =>
    (row.offset, row.timestamp)

inductive Call where
  | produce (attempt : Attempt)
  | deleteRecords (offset : Int)
  | listOffsets (timestamp : Int64)

def Call.writes : Call → Bool
  | .listOffsets _ => false
  | _ => true

inductive Phase where
  | start
  /-- The transaction has read and locked the watermark row. -/
  | locked (low high : Option Int)
  /-- The log start is at the cutoff, and the rows below it are still to be removed. -/
  | advanced (cutoff : Int)
  /-- The removal of the rows has failed. -/
  | kept (cutoff : Int)
  | ended
  /-- The request has started, after the watermark advances to `earlier`. -/
  | listing (earlier : List Int)
  | listed (earlier : List Int) (found : Option (Int × Int64))
  deriving DecidableEq

def Phase.isLocked : Phase → Bool
  | .locked .. => true
  | _ => false

def Phase.leaves : Phase → Option Int
  | .advanced cutoff => some cutoff
  | .kept cutoff => some cutoff
  | _ => none

theorem Phase.leaves_of_isLocked {phase : Phase} (locked : phase.isLocked = true) : phase.leaves = none := by
  cases phase <;> first | rfl | cases locked

structure State (C : Type) where
  low : Option Int
  high : Option Int
  records : List RecordRow
  lock : Option C
  phase : C → Phase
  /-- The log starts that deletions have committed, newest first. -/
  advances : List Int

namespace State

variable {C : Type}

def start : State C where
  low := none
  high := none
  records := []
  lock := none
  phase := fun _ => .start
  advances := []

def logStart (s : State C) : Int :=
  s.low.getD 0

variable [DecidableEq C]

def setPhase (s : State C) (c : C) (phase : Phase) : State C :=
  { s with phase := Function.update s.phase c phase }

def release (s : State C) : State C :=
  { s with lock := none }

def updateWatermark (s : State C) (low high : Int) : State C :=
  { s with low := some low, high := some high }

end State

inductive Action (C : Type) where
  | lock (c : C)
  | append (c : C)
  | advance (c : C)
  | abort (c : C)
  | remove (c : C)
  | fail (c : C)
  | begin (c : C)
  | query (c : C)

section

variable {C : Type} [DecidableEq C]

inductive Step (program : C → Call) : State C → Action C → State C → Prop where
  | lock {s c} (at_ : s.phase c = .start) (writes : (program c).writes = true) (free : s.lock = none) :
      Step program s (.lock c) ({ s with lock := some c }.setPhase c (.locked s.low s.high))
  | append {s c low high attempt rows} (at_ : s.phase c = .locked low high)
      (call : program c = .produce attempt) (converted : attempt.rows (high.getD 0) = some rows) :
      Step program s (.append c)
        (({ s with records := s.records ++ rows }.updateWatermark (low.getD 0)
          (high.getD 0 + attempt.deflated.lastOffsetDelta.toInt + 1)).release.setPhase c .ended)
  | advance {s c low high offset cutoff} (at_ : s.phase c = .locked low high)
      (call : program c = .deleteRecords offset)
      (given : deleteRecordsCutoff offset { lastStable := high.getD 0, highWatermark := high.getD 0
                                            logStart := low.getD 0 } = .ok cutoff) :
      Step program s (.advance c)
        (({ s with advances := cutoff :: s.advances }.updateWatermark cutoff (high.getD 0)).release.setPhase c
          (if cutoff > low.getD 0 then .advanced cutoff else .ended))
  -- A call that a check refuses rolls back, as one that fails does.
  | abort {s c low high} (at_ : s.phase c = .locked low high) :
      Step program s (.abort c) (s.release.setPhase c .ended)
  | remove {s c cutoff} (at_ : s.phase c = .advanced cutoff) :
      Step program s (.remove c)
        ({ s with records := s.records.filter fun row => cutoff ≤ row.offset }.setPhase c .ended)
  | fail {s c cutoff} (at_ : s.phase c = .advanced cutoff) :
      Step program s (.fail c) (s.setPhase c (.kept cutoff))
  | begin {s c timestamp} (at_ : s.phase c = .start) (call : program c = .listOffsets timestamp) :
      Step program s (.begin c) (s.setPhase c (.listing s.advances))
  | query {s c earlier timestamp} (at_ : s.phase c = .listing earlier)
      (call : program c = .listOffsets timestamp) :
      Step program s (.query c)
        (s.setPhase c (.listed earlier (listLatestOffsetTimestamp timestamp s.records)))

def machine (program : C → Call) : Machine (State C) (Action C) where
  init := fun s => s = State.start
  step := Step program

/-- No request reads the rows while a deletion has yet to remove its own. -/
def Removed (s : State C) : Action C → Prop
  | .query _ => ∀ c, (s.phase c).leaves = none
  | _ => True

end

/-- What a call knows of the watermark, and what a request may answer. -/
def Knows (low high : Option Int) : Phase → Prop
  | .locked low' high' => low' = low ∧ high' = high
  | .listing earlier => ∀ cutoff ∈ earlier, cutoff ≤ low.getD 0
  | .listed earlier found => ∀ offset timestamp, found = some (offset, timestamp) → ∀ cutoff ∈ earlier, cutoff ≤ offset
  | _ => True

theorem Knows.raise {low high low' high' : Option Int} {phase : Phase} (knows : Knows low high phase)
    (unlocked : phase.isLocked = false) (raised : low.getD 0 ≤ low'.getD 0) : Knows low' high' phase := by
  cases phase with
  | locked => cases unlocked
  | listing => exact fun cutoff member => (knows cutoff member).trans raised
  | listed => exact knows
  | _ => trivial

variable {C : Type} {program : C → Call} {s t : State C}

structure Sound (s : State C) : Prop where
  exclusive : Exclusive Phase.isLocked s.lock s.phase
  ordered : s.logStart ≤ s.high.getD 0
  advances : ∀ cutoff ∈ s.advances, cutoff ≤ s.logStart
  /-- A row below the log start is one that a deletion has yet to remove. -/
  records : ∀ row ∈ s.records,
    s.logStart ≤ row.offset ∨ ∃ c cutoff, (s.phase c).leaves = some cutoff ∧ row.offset < cutoff
  knows : ∀ c, Knows s.low s.high (s.phase c)

namespace Sound

variable [DecidableEq C] {c : C} {phase : Phase}

theorem knows_setPhase (sound : Sound s) (knows : Knows s.low s.high phase) :
    ∀ d, Knows s.low s.high (Function.update s.phase c phase d) := by
  intro d
  rw [update_apply]
  split
  exacts [knows, sound.knows d]

theorem leaves_setPhase {row : RecordRow} (kept : ∀ cutoff, (s.phase c).leaves = some cutoff →
      row.offset < cutoff → phase.leaves = some cutoff)
    (left : ∃ d cutoff, (s.phase d).leaves = some cutoff ∧ row.offset < cutoff) :
    ∃ d cutoff, (Function.update s.phase c phase d).leaves = some cutoff ∧ row.offset < cutoff := by
  obtain ⟨d, cutoff, leaves, below⟩ := left
  refine ⟨d, cutoff, ?_, below⟩
  rw [update_apply]
  split
  next same => exact kept cutoff (same ▸ leaves) below
  next => exact leaves

theorem setPhase (sound : Sound s) (exclusive : Exclusive Phase.isLocked lock (Function.update s.phase c phase))
    (knows : Knows s.low s.high phase) (kept : phase.leaves = (s.phase c).leaves) :
    Sound ({ s with lock }.setPhase c phase) :=
  { sound with
    exclusive := exclusive
    records := fun row member => (sound.records row member).imp_right
      (leaves_setPhase fun _ leaves _ => kept.trans leaves)
    knows := sound.knows_setPhase knows }

theorem commit (sound : Sound s) {low high : Int} {records : List RecordRow} {advances : List Int}
    (locked : (s.phase c).isLocked = true) (unlocked : phase.isLocked = false)
    (knows : ∀ low high, Knows low high phase)
    (raised : s.logStart ≤ low) (ordered : low ≤ high) (advanced : ∀ cutoff ∈ advances, cutoff ≤ low)
    (above : ∀ row ∈ records, (∃ d cutoff, (s.phase d).leaves = some cutoff ∧ row.offset < cutoff) ∨
      low ≤ row.offset ∨ ∃ cutoff, phase.leaves = some cutoff ∧ row.offset < cutoff) :
    Sound (({ s with records, advances }.updateWatermark low high).release.setPhase c phase) where
  exclusive := sound.exclusive.release locked unlocked
  ordered := ordered
  advances := advanced
  records := by
    intro row member
    rcases above row member with left | stays | ⟨cutoff, leaves, below⟩
    · refine .inr (leaves_setPhase (fun cutoff (leaves : (s.phase c).leaves = some cutoff) _ => ?_) left)
      rw [Phase.leaves_of_isLocked locked] at leaves
      cases leaves
    · exact .inl stays
    · exact .inr ⟨c, cutoff, by simp [State.setPhase, leaves], below⟩
  knows := by
    intro d
    simp only [State.setPhase, State.release, State.updateWatermark, update_apply]
    split
    next => exact knows _ _
    next other =>
      refine (sound.knows d).raise ?_ raised
      exact sound.exclusive.outside fun holds => other
        (some.inj (holds.symm.trans ((sound.exclusive c).mp locked)))

theorem step (sound : Sound s) (removed : Removed s action) (step : Step program s action t) : Sound t := by
  cases step with
  | @lock c at_ writes free =>
    have exclusive := sound.exclusive
    rw [free] at exclusive
    exact sound.setPhase (exclusive.acquire rfl) ⟨rfl, rfl⟩ (by rw [at_]; rfl)
  | @append c low high attempt rows at_ call converted =>
    have knows := sound.knows c
    rw [at_] at knows
    obtain ⟨rfl, rfl⟩ := knows
    have ordered := sound.ordered
    have positive := attempt.size_pos
    rw [attempt.size_eq] at positive
    refine sound.commit (by rw [at_]; rfl) rfl (fun _ _ => trivial) le_rfl
      (by simp only [State.logStart] at ordered; omega) sound.advances fun row member => ?_
    rcases mem_append.mp member with old | new
    · exact (sound.records row old).symm.imp_right .inl
    · have offsets := mem_map_of_mem (f := RecordRow.offset) new
      rw [Attempt.offsets_of_rows converted] at offsets
      obtain ⟨i, _, same⟩ := mem_map.mp offsets
      simp only [State.logStart] at ordered
      omega
  | @advance c low high offset cutoff at_ call given =>
    have knows := sound.knows c
    rw [at_] at knows
    obtain ⟨rfl, rfl⟩ := knows
    have bounds := deleteRecordsCutoff_bounds given sound.ordered
    refine sound.commit (by rw [at_]; rfl) (by split <;> rfl) (fun _ _ => by split <;> trivial) bounds.1
      bounds.2 ?_ fun row member => ?_
    · intro other member
      rcases mem_cons.mp member with rfl | old
      exacts [le_rfl, (sound.advances other old).trans bounds.1]
    · rcases sound.records row member with above | left
      · refine .inr (Classical.or_iff_not_imp_left.mpr fun below => ⟨cutoff, ?_, Int.not_le.mp below⟩)
        have further : cutoff > s.low.getD 0 := Int.lt_of_le_of_lt above (Int.not_le.mp below)
        rw [if_pos further]
        rfl
      · exact .inl left
  | @abort c low high at_ =>
    exact sound.setPhase (sound.exclusive.release (by rw [at_]; rfl) rfl) trivial (by rw [at_]; rfl)
  | @remove c cutoff at_ =>
    refine ⟨sound.exclusive.move (by rw [at_]; rfl), sound.ordered, sound.advances, ?_, sound.knows_setPhase trivial⟩
    intro row member
    obtain ⟨member, above⟩ := mem_filter.mp member
    refine (sound.records row member).imp_right (leaves_setPhase fun other leaves below => ?_)
    rw [at_] at leaves
    cases leaves
    exact absurd (of_decide_eq_true above) (Int.not_le.mpr below)
  | fail at_ =>
    exact sound.setPhase (sound.exclusive.move (by rw [at_]; rfl)) trivial (by rw [at_]; rfl)
  | begin at_ =>
    exact sound.setPhase (sound.exclusive.move (by rw [at_]; rfl)) sound.advances (by rw [at_]; rfl)
  | @query c earlier timestamp at_ call =>
    have knows := sound.knows c
    rw [at_] at knows
    refine sound.setPhase (sound.exclusive.move (by rw [at_]; rfl)) ?_ (by rw [at_]; rfl)
    intro offset time found cutoff member
    obtain ⟨row, least, same⟩ := map_eq_some_iff.mp found
    cases same
    refine (knows cutoff member).trans ?_
    rcases sound.records row (mem_of_mem_filter (List.minOn?_mem least)) with above | ⟨d, _, leaves, _⟩
    · exact above
    · rw [removed d] at leaves
      cases leaves

end Sound

/-- A request by timestamp that reads the rows only when every deletion so far has removed its own answers no
offset below a log start that was committed before the request started. -/
theorem list_offsets_is_above_log_start [DecidableEq C]
    (reached : (machine program).ReachableWhile Removed s) {c : C} {earlier : List Int} {offset : Int}
    {timestamp : Int64} (listed : s.phase c = .listed earlier (some (offset, timestamp))) :
    ∀ cutoff ∈ earlier, cutoff ≤ offset := by
  have sound : Sound s := by
    refine reached.invariant ?_ fun _ _ _ sound removed step => sound.step removed step
    rintro _ rfl
    exact ⟨fun _ => by simp [State.start, Phase.isLocked], le_rfl, nofun, nofun, fun _ => trivial⟩
  have knows := sound.knows c
  rw [listed] at knows
  exact knows offset timestamp rfl

def deletingProgram : Fin 3 → Call
  | 0 => .produce (.ofSequence 0 0)
  | 1 => .deleteRecords 1
  | 2 => .listOffsets 0

/-- The request starts after the log start was raised to 1, and its query runs before the removal. -/
theorem list_offsets_answers_deleted_record : ∃ s : State (Fin 3),
    (machine deletingProgram).Reachable s ∧ s.phase 2 = .listed [1] (some (0, 5)) := by
  have start : (machine deletingProgram).Reachable _ := .init rfl
  have deleted := start
    |>.step (.lock (c := 0) rfl rfl rfl)
    |>.step (.append (c := 0) rfl rfl rfl)
    |>.step (.lock (c := 1) rfl rfl rfl)
    |>.step (.advance (c := 1) rfl rfl rfl)
  exact ⟨_, (deleted.step (.begin (c := 2) rfl rfl)).step (.query (c := 2) rfl rfl), by decide +kernel⟩

theorem list_offsets_is_above_log_start_removed : ∃ s : State (Fin 3),
    (machine deletingProgram).ReachableWhile Removed s ∧ s.phase 2 = .listed [1] (some (1, 5)) ∧
    ∀ cutoff ∈ [(1 : Int)], cutoff ≤ 1 := by
  have start : (machine deletingProgram).ReachableWhile Removed _ := .init rfl
  have removed := start
    |>.next (.lock (c := 0) rfl rfl rfl) trivial
    |>.next (.append (c := 0) rfl rfl rfl) trivial
    |>.next (.lock (c := 1) rfl rfl rfl) trivial
    |>.next (.advance (c := 1) rfl rfl rfl) trivial
    |>.next (.remove (c := 1) rfl) trivial
    |>.next (.begin (c := 2) rfl rfl) trivial
  have listed := removed.next (.query (c := 2) rfl rfl) (by decide +kernel : ∀ c : Fin 3, _)
  refine ⟨_, listed, ?_, list_offsets_is_above_log_start listed
    (show State.phase _ 2 = .listed [1] (some (1, 5)) by decide +kernel)⟩
  decide +kernel

end Nisshi.Postgres.ListOffsets
