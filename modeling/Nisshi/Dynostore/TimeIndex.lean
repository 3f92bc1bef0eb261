import Nisshi.Dynostore.DeleteRecords
import Nisshi.Lib.OrderedMap
import Nisshi.SansIo.BatchCodec

/-! The time index of a partition: its backfill token, the lookup of an offset to scan from, and the merge of
a backfill's candidate with the index that produces have kept meanwhile. -/

namespace Nisshi.SansIo.Inflated

def Batch.maxRecordTimestamp (batch : Batch) : Int :=
  match TimestampType.from batch.attributes with
  | .logAppendTime => batch.maxTimestamp.toInt
  | .createTime => (batch.records.map fun record => (batch.recordTimestamp record).toInt).foldl max (-1)

end Nisshi.SansIo.Inflated

namespace Nisshi.Dynostore

open Std (ExtTreeMap LawfulEqOrd)
open Nisshi.Lib Nisshi.SansIo

/-- `DynoStore::max_record_timestamp`: the header's for a batch that does not decode. -/
def maxRecordTimestamp (codec : Codec) (batch : Deflated.Batch) : Int :=
  ((Inflated.Batch.tryFrom codec batch).map Inflated.Batch.maxRecordTimestamp).getD
    batch.maxTimestamp.toInt

namespace TimeIndex

def isComplete (index : TimeIndex) : Bool :=
  index.complete && index.version ≥ currentVersion

def isOlderVersion (index : TimeIndex) : Bool :=
  index.version < currentVersion

/-- Marks a backfill in progress and gives its token, which is that of a backfill already in progress. -/
def beginBackfill (token : Nat) (index : TimeIndex) : TimeIndex × Nat :=
  let index :=
    if index.backfill.isNone && index.isOlderVersion then
      { (default : TimeIndex) with version := currentVersion }
    else index
  let token := index.backfill.getD token
  ({ index with backfill := some token }, token)

def observe (index : TimeIndex) (maxTimestamp : Int) : TimeIndex :=
  { index with maxTimestamp := max index.maxTimestamp maxTimestamp }

def floorOffset (index : TimeIndex) (target : Int) : Int :=
  ((index.entries.toList.filter fun entry => entry.1 ≤ target).getLast?.map Prod.snd).getD 0

def maxI64 : Int :=
  2 ^ 63 - 1

def saturatingAdd (value amount : Int) : Int :=
  min (value + amount) maxI64

def byOffset (candidate live : TimeIndex) : ExtTreeMap Int Int :=
  let kept := live.entries.toList.filter fun entry => saturatingAdd candidate.maxTimestamp 1 ≤ entry.1
  (candidate.entries.toList ++ kept).foldl (fun byOffset entry => byOffset.insert entry.2 entry.1) ∅

def replay (index : TimeIndex) (byOffset : List (Int × Int)) : TimeIndex :=
  byOffset.foldl (fun index entry => index.append entry.2 entry.1 index.intervalBytes) index

def merge (candidate live : TimeIndex) (token : Nat) : TimeIndex :=
  let owned := live.isComplete || live.backfill == some token
  let empty : TimeIndex :=
    { entries := ∅, maxTimestamp := noTimestamp, bytesSinceEntry := 0
      intervalBytes := max candidate.intervalBytes live.intervalBytes
      complete := candidate.isComplete && owned
      version := if owned then currentVersion else live.version
      backfill := none }
  let merged := empty.replay (byOffset candidate live).toList
  { merged with
    maxTimestamp := max (max merged.maxTimestamp candidate.maxTimestamp) live.maxTimestamp
    bytesSinceEntry := live.bytesSinceEntry }

/-! What the operations do to the entries. -/

variable {index candidate live : TimeIndex} {timestamp offset : Int}

theorem isComplete_of_older (older : index.isOlderVersion = true) : index.isComplete = false := by
  rw [isOlderVersion, decide_eq_true_eq] at older
  simp [isComplete, older]

theorem mem_of_mem_alternate {α : Type} {elements : List α} {element : α}
    (member : element ∈ alternate keep elements) : element ∈ elements := by
  induction elements generalizing keep with
  | nil => cases keep <;> cases member
  | cons _ _ ih =>
    cases keep with
    | false => exact List.mem_cons_of_mem _ (ih member)
    | true =>
      rcases List.mem_cons.mp member with rfl | later
      · exact List.mem_cons_self
      · exact List.mem_cons_of_mem _ (ih later)

theorem entries_thin (held : index.thin.entries[timestamp]? = some offset) :
    index.entries[timestamp]? = some offset := by
  have listed := mem_of_mem_alternate (OrderedMap.mem_of_getElem?_ofList held)
  exact ExtTreeMap.mem_toList_iff_getElem?_eq_some.mp listed

variable {maxTimestamp baseOffset : Int} {bytes : Nat}

theorem maxTimestamp_append :
    (index.append maxTimestamp baseOffset bytes).maxTimestamp = max index.maxTimestamp maxTimestamp := by
  unfold append
  dsimp only
  split
  next low => exact (max_eq_left low).symm
  next high =>
    have raised : max index.maxTimestamp maxTimestamp = maxTimestamp := max_eq_right (not_le.mp high).le
    split
    · split <;> exact raised.symm
    · exact raised.symm

theorem entries_append
    (held : (index.append maxTimestamp baseOffset bytes).entries[timestamp]? = some offset) :
    index.entries[timestamp]? = some offset ∨
      (timestamp = maxTimestamp ∧ offset = baseOffset ∧ index.maxTimestamp < maxTimestamp) := by
  unfold append at held
  dsimp only at held
  split at held
  · exact .inl held
  next high =>
    have inserted (held : (index.entries.insert maxTimestamp baseOffset)[timestamp]? = some offset) :
        index.entries[timestamp]? = some offset ∨
          (timestamp = maxTimestamp ∧ offset = baseOffset ∧ index.maxTimestamp < maxTimestamp) := by
      rw [ExtTreeMap.getElem?_insert] at held
      split at held
      next same =>
        cases held
        exact .inr ⟨(LawfulEqOrd.eq_of_compare same).symm, rfl, not_le.mp high⟩
      · exact .inl held
    split at held
    · split at held
      · exact inserted (entries_thin held)
      · exact inserted held
    · exact .inl held

theorem append_frame : (index.append maxTimestamp baseOffset bytes).complete = index.complete ∧
    (index.append maxTimestamp baseOffset bytes).version = index.version ∧
    (index.append maxTimestamp baseOffset bytes).backfill = index.backfill := by
  unfold append
  dsimp only
  split
  · exact ⟨rfl, rfl, rfl⟩
  · split
    · split <;> exact ⟨rfl, rfl, rfl⟩
    · exact ⟨rfl, rfl, rfl⟩

@[simp]
theorem isComplete_append : (index.append maxTimestamp baseOffset bytes).isComplete = index.isComplete := by
  rw [isComplete, append_frame.1, append_frame.2.1, isComplete]

@[simp]
theorem isOlderVersion_append : (index.append maxTimestamp baseOffset bytes).isOlderVersion = index.isOlderVersion := by
  rw [isOlderVersion, append_frame.2.1, isOlderVersion]

theorem replay_cons (entry : Int × Int) (rest : List (Int × Int)) :
    index.replay (entry :: rest) = (index.append entry.2 entry.1 index.intervalBytes).replay rest :=
  rfl

theorem entries_replay {entries : List (Int × Int)} (held : (index.replay entries).entries[timestamp]? = some offset) :
    index.entries[timestamp]? = some offset ∨ (offset, timestamp) ∈ entries := by
  induction entries generalizing index with
  | nil => exact .inl held
  | cons _ _ ih =>
    rcases ih held with before | later
    · rcases entries_append before with old | ⟨rfl, rfl, -⟩
      · exact .inl old
      · exact .inr List.mem_cons_self
    · exact .inr (List.mem_cons_of_mem _ later)

@[simp]
theorem isComplete_replay (entries : List (Int × Int)) : (index.replay entries).isComplete = index.isComplete := by
  induction entries generalizing index with
  | nil => rfl
  | cons _ _ ih => rw [replay_cons, ih, isComplete_append]

theorem version_replay (entries : List (Int × Int)) : (index.replay entries).version = index.version := by
  induction entries generalizing index with
  | nil => rfl
  | cons _ _ ih => rw [replay_cons, ih, append_frame.2.1]

theorem of_mem_byOffset (held : (byOffset candidate live)[offset]? = some timestamp) :
    candidate.entries[timestamp]? = some offset ∨
      (live.entries[timestamp]? = some offset ∧ saturatingAdd candidate.maxTimestamp 1 ≤ timestamp) := by
  rcases OrderedMap.of_getElem?_foldl_insert held with before | ⟨_, member, rfl, rfl⟩
  · cases before
  · rcases List.mem_append.mp member with mine | kept
    · exact .inl (ExtTreeMap.mem_toList_iff_getElem?_eq_some.mp mine)
    · obtain ⟨inside, above⟩ := List.mem_filter.mp kept
      exact .inr ⟨ExtTreeMap.mem_toList_iff_getElem?_eq_some.mp inside, of_decide_eq_true above⟩

theorem entries_merge (held : (merge candidate live token).entries[timestamp]? = some offset) :
    candidate.entries[timestamp]? = some offset ∨
      (live.entries[timestamp]? = some offset ∧ saturatingAdd candidate.maxTimestamp 1 ≤ timestamp) := by
  rcases entries_replay held with before | listed
  · cases before
  · exact of_mem_byOffset (ExtTreeMap.mem_toList_iff_getElem?_eq_some.mp listed)

theorem maxTimestamp_le_merge (token : Nat) : candidate.maxTimestamp ≤ (merge candidate live token).maxTimestamp ∧
      live.maxTimestamp ≤ (merge candidate live token).maxTimestamp :=
  ⟨(le_max_right _ _).trans (le_max_left _ _), le_max_right _ _⟩

theorem isComplete_of_merge (complete : (merge candidate live token).isComplete = true) :
    candidate.isComplete = true := by
  have replayed := (isComplete_replay (byOffset candidate live).toList).symm.trans complete
  rw [isComplete, Bool.and_eq_true, Bool.and_eq_true] at replayed
  exact replayed.1.1

theorem isOlderVersion_merge (candidate : TimeIndex) (owned : live.isOlderVersion = true → live.backfill = some token) :
    (merge candidate live token).isOlderVersion = false := by
  have version : (merge candidate live token).version =
      if live.isComplete || live.backfill == some token then currentVersion else live.version :=
    version_replay (byOffset candidate live).toList
  rw [isOlderVersion, version]
  cases older : live.isOlderVersion with
  | true => simp [owned older, currentVersion]
  | false =>
    split
    · rfl
    · exact older

theorem floorOffset_cases (index : TimeIndex) (target : Int) : index.floorOffset target = 0 ∨
      ∃ timestamp, index.entries[timestamp]? = some (index.floorOffset target) ∧ timestamp ≤ target := by
  unfold floorOffset
  cases last : (index.entries.toList.filter fun entry => entry.1 ≤ target).getLast? with
  | none => exact .inl rfl
  | some entry =>
    obtain ⟨member, low⟩ := List.mem_filter.mp (List.mem_of_getLast? last)
    exact .inr ⟨entry.1, ExtTreeMap.mem_toList_iff_getElem?_eq_some.mp member, of_decide_eq_true low⟩

end TimeIndex

end Nisshi.Dynostore
