import Nisshi.Sql.Consume

/-! How many bytes of record data a fetch returns. The query adds up keys and values; the batches also
hold the framing and the headers of each record, which the query does not see. -/

namespace Nisshi.Sql

open Nisshi.Lib Nisshi.SansIo List Option

/-- The rows, each with the first row of its run. -/
def placedRuns (runs : List (List Row)) : List (Row × Row) :=
  runs.flatMap fun run => run.map fun row => (run.headD row, row)

def placed (rows : List Row) : List (Row × Row) :=
  placedRuns (runs Row.continues rows)

/-- What the records of the rows take on the wire. -/
def encodedSize (headers : Row → List Header) (rows : List Row) : Nat :=
  ((placed rows).map fun place => (place.1.record headers place.2).size).sum

/-- Wherever the query goes on to a next row, since the keys and values are below the limit with it and the deadline
has not passed before it, the rows so far are within the limit as they are encoded. -/
def Engine.StaysWithin (engine : Engine) (hasDeadlineExpired : Nat → Bool) (table : Table)
    (offset highWatermark : Int64) (maxBytes : Nat) (key : Option (List UInt8)) : Prop :=
  ∀ rows next, rows ≠ [] → rows ++ [next] <+: engine.limit (table.candidates offset highWatermark key) →
    (∀ number < rows.length, hasDeadlineExpired number = false) → ((rows ++ [next]).map Row.bytes).sum < maxBytes →
      encodedSize (engine.headers key) rows ≤ maxBytes

def Engine.records (engine : Engine) (codec : Codec) (now : Int64) (hasDeadlineExpired : Nat → Bool)
    (table : Table) (offset highWatermark : Int64) (maxBytes : Nat) (key : Option (List UInt8)) :
    List Record :=
  (rebuilt (engine.env codec now hasDeadlineExpired key)
    (engine.recordFetch table offset highWatermark maxBytes key)).flatMap Inflated.Batch.records

section Returned

variable {engine : Engine} {hasDeadlineExpired : Nat → Bool} {table : Table} {offset highWatermark : Int64}
  {maxBytes : Nat} {key : Option (List UInt8)} {rows : List Row}

theorem isPrefix_beforeDeadline_iff {front : List Row} :
    front <+: beforeDeadline hasDeadlineExpired number rows ↔ front <+: rows ∧
      ∀ i, i + 1 < front.length → hasDeadlineExpired (number + i) = false := by
  induction rows generalizing number front with
  | nil =>
    refine ⟨fun none => ⟨none, ?_⟩, And.left⟩
    rw [prefix_nil.mp none]
    simp
  | cons row rest ih =>
    cases front with
    | nil => exact ⟨fun _ => ⟨ nil_prefix, by simp⟩, fun _ => nil_prefix⟩
    | cons first front =>
      rw [beforeDeadline, cons_prefix_cons, cons_prefix_cons, and_assoc, length_cons]
      refine and_congr_right fun _ => ?_
      split
      next expired =>
        rw [prefix_nil]
        refine ⟨by rintro rfl; exact ⟨ nil_prefix, by simp⟩, fun both => ?_⟩
        by_contra some
        have more := length_pos_iff.mpr some
        exact absurd expired (by rw [← Nat.add_zero number, both.2 0 (by omega)]; exact Bool.false_ne_true)
      next open_ =>
        rw [ih]
        refine and_congr_right fun _ => ⟨fun early i short => ?_, fun early i short => ?_⟩
        · cases i with
          | zero => exact Bool.eq_false_of_not_eq_true open_
          | succ i =>
            rw [Nat.add_comm i, ← Nat.add_assoc]
            exact early i (by omega)
        · rw [Nat.add_assoc, Nat.add_comm 1]
          exact early (i + 1) (by omega)

/-- The first rows that a fetch returns, two or more of them. -/
theorem isPrefix_returned_iff {next : Row} (some : rows ≠ []) :
    rows ++ [next] <+: engine.returned hasDeadlineExpired table offset highWatermark maxBytes key ↔
      rows ++ [next] <+: engine.limit (table.candidates offset highWatermark key) ∧
        (∀ number < rows.length, hasDeadlineExpired number = false) ∧
        ((rows ++ [next]).map Row.bytes).sum < maxBytes := by
  have several := length_pos_iff.mpr some
  have more : ¬rows.length + 1 = 1 := by omega
  rw [Engine.returned, isPrefix_beforeDeadline_iff, Engine.recordFetch, sized_eq,
    Paging.isPrefix_sized_iff (concat_ne_nil _ _) Nat.one_pos, and_assoc, and_comm (b := ∀ _, _)]
  simp only [Nat.zero_add, length_append, length_singleton, Nat.add_lt_add_iff_right, more, and_false, or_false]

end Returned

section Records

variable {env : Env} {rows : List Row}

theorem map_snd_placed (rows : List Row) : (placed rows).map Prod.snd = rows := by
  conv_rhs => rw [← flatten_runs Row.continues rows]
  rw [placed, placedRuns, map_flatMap, flatMap_def]
  congr 1
  conv_rhs => rw [← map_id (runs Row.continues rows)]
  refine map_congr_left fun run _ => ?_
  rw [List.map_map]
  exact map_id run

theorem placedRuns_isPrefix (base : Row) (tail rows rest : List Row) :
    placedRuns (runsFrom Row.continues base tail rows) <+:
      placedRuns (runsFrom Row.continues base tail (rows ++ rest)) := by
  induction rows generalizing base tail with
  | nil =>
    -- The run under way only gets longer.
    obtain ⟨more, others, same⟩ := exists_runsFrom_eq_cons Row.continues base tail rest
    rw [nil_append, same, runsFrom]
    simp [placedRuns]
  | cons row rows ih =>
    rw [cons_append, runsFrom, runsFrom]
    split
    next => exact ih base (tail ++ [row])
    next =>
      rw [placedRuns, placedRuns, flatMap_cons, flatMap_cons, prefix_append_right_inj]
      exact ih row []

theorem placed_isPrefix {more : List Row} (front : rows <+: more) : placed rows <+: placed more := by
  obtain ⟨rest, rfl⟩ := front
  cases rows with
  | nil => exact nil_prefix
  | cons first rows => exact placedRuns_isPrefix first [] rows rest

theorem placed_dropLast (rows : List Row) : placed rows.dropLast = (placed rows).dropLast := by
  have length (rows : List Row) : (placed rows).length = rows.length := by
    rw [← length_map Prod.snd, map_snd_placed]
  have front := prefix_iff_eq_take.mp (placed_isPrefix ( dropLast_prefix rows))
  rw [front, length, length_dropLast, dropLast_eq_take, length]

theorem encodedSize_mono {more : List Row} (front : rows <+: more) :
    encodedSize headers rows ≤ encodedSize headers more :=
  (((placed_isPrefix front).sublist.map _).sum_le_sum fun _ _ => Nat.zero_le _)

theorem records_rebuilt (env : Env) (rows : List Row) : (rebuilt env rows).flatMap Inflated.Batch.records =
      (placed (beforeDeadline env.hasDeadlineExpired 0 rows)).map fun place =>
        place.1.record env.headers place.2 := by
  cases rows with
  | nil => rfl
  | cons =>
    rw [rebuilt, placed, placedRuns, flatMap_map, map_flatMap]
    refine flatMap_congr fun run found => ?_
    obtain ⟨_, _, rfl, _⟩ := of_mem_runs found
    rw [List.map_map]
    rfl

theorem flatMap_recordData {batches : List Inflated.Batch} (plain : Plain batches)
    (made : batches.mapM (Inflated.Batch.deflated codec) = some wire) :
    wire.flatMap Deflated.Batch.recordData = (batches.flatMap Inflated.Batch.records).flatMap Record.bytes := by
  have related := mapM_eq_some_iff.mp made
  clear made
  induction related with
  | nil => rfl
  | @cons batch deflated rest others made _ ih =>
    have carries := Inflated.Batch.carries_of_deflated (plain batch mem_cons_self) made
    rw [flatMap_cons, flatMap_cons, flatMap_append, carries.recordData,
      ih fun other member => plain other (mem_cons_of_mem _ member)]

theorem mapM_rebuilt_of_batches (made : batches env rows = some wire) :
    (rebuilt env rows).mapM (Inflated.Batch.deflated env.codec) = some wire := by
  rw [batches_eq] at made
  split at made
  · exact made
  · cases made

theorem length_dropLast_records (env : Env) (rows : List Row) :
    ((((placed rows).map fun place => place.1.record env.headers place.2).dropLast).flatMap
      Record.bytes).length = encodedSize env.headers rows.dropLast := by
  rw [Deflated.length_flatMap_bytes, ← map_dropLast, List.map_map, encodedSize, placed_dropLast]
  rfl

end Records

def bareTable : Table where
  rows := [Row.bare 0 [], Row.bare 1 [], Row.bare 2 []]
  sorted := by decide

/-- The records of the table go over the limit of one byte before the last of them. -/
def Engine.OverrunsBare (engine : Engine) : Prop :=
  ∃ batches, engine.fetch verbatim 0 (fun _ => false) bareTable 0 3 1 none = some batches ∧
    batches.flatMap Deflated.Batch.recordData =
      (engine.records verbatim 0 (fun _ => false) bareTable 0 3 1 none).flatMap Record.bytes ∧
    1 < ((engine.records verbatim 0 (fun _ => false) bareTable 0 3 1 none).dropLast.flatMap
      Record.bytes).length

/-- The query counts nothing for such records, so it returns all of them whatever the limit is. -/
theorem overrunsBare (engine : Engine) : engine.OverrunsBare := by
  have data : (engine.fetch verbatim 0 (fun _ => false) bareTable 0 3 1 none).map
      (flatMap Deflated.Batch.recordData) =
        some ((engine.records verbatim 0 (fun _ => false) bareTable 0 3 1 none).flatMap Record.bytes) := by
    cases engine <;> decide +kernel
  obtain ⟨batches, fetched, same⟩ := map_eq_some_iff.mp data
  exact ⟨batches, fetched, same, by cases engine <;> decide +kernel⟩

end Nisshi.Sql
