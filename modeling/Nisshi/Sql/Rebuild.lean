import Nisshi.Sql.Fetch

/-! What the loop over the rows builds: one batch for each run of rows that share their attributes and
producer, up to the record at which the deadline has passed. -/

namespace Nisshi.Sql

open Nisshi.Lib Nisshi.SansIo List Option

def Row.continues (base row : Row) : Bool :=
  base.batchAttributes == row.batchAttributes && base.batchProducerId == row.batchProducerId &&
    base.batchProducerEpoch == row.batchProducerEpoch &&
    (TimestampType.from row.batchAttributes == .createTime || row.timestamp == base.timestamp)

def beforeDeadline (hasDeadlineExpired : Nat → Bool) : Nat → List Row → List Row
  | _, [] => []
  | number, row :: rest =>
    row :: if hasDeadlineExpired number then [] else beforeDeadline hasDeadlineExpired (number + 1) rest

def Engine.returned (engine : Engine) (hasDeadlineExpired : Nat → Bool) (table : Table)
    (offset highWatermark : Int64) (maxBytes : Nat) (key : Option (List UInt8)) : List Row :=
  beforeDeadline hasDeadlineExpired 0 (engine.recordFetch table offset highWatermark maxBytes key)

def Row.record (headers : Row → List Header) (base row : Row) : Record where
  attributes := 0
  timestampDelta := row.timestamp - base.timestamp
  offsetDelta := Int32.ofInt (row.offset.toInt - base.offset.toInt)
  key := row.key
  value := row.value
  headers := headers row

def runBuilder (env : Env) (base : Row) (tail : List Row) : Inflated.Batch :=
  { base.builder env.now with
    records := (base :: tail).map (base.record env.headers)
    lastOffsetDelta := Int32.ofInt ((tail.getLast?.getD base).offset.toInt - base.offset.toInt) }

def runBatch (env : Env) : List Row → Inflated.Batch
  | [] => builder env.now
  | base :: tail => (runBuilder env base tail).maxTimestampOfRecords

def rebuilt (env : Env) : List Row → List Inflated.Batch
  | [] => [builder env.now]
  | first :: rest =>
    (runs Row.continues (beforeDeadline env.hasDeadlineExpired 0 (first :: rest))).map (runBatch env)

def Near (rows : List Row) : Prop :=
  ∀ first ∈ rows, ∀ second ∈ rows, first.offset.toInt - second.offset.toInt < 2 ^ 31

instance : DecidablePred Near := fun rows =>
  inferInstanceAs (Decidable (∀ first ∈ rows, ∀ second ∈ rows, _))

theorem Near.mono (near : Near rows) (subset : others ⊆ rows) : Near others :=
  fun first member second member' => near first (subset member) second (subset member')

theorem toTimestamp_eq (row : Row) : toTimestamp row.timestamp = some row.timestamp :=
  if_neg row.sinceEpoch

theorem Row.continues_self (row : Row) : row.continues row = true := by
  simp [Row.continues]

variable {env : Env} {base row : Row} {tail rows : List Row}

theorem TimestampType.ne_logAppendTime {type : TimestampType} : (type == .logAppendTime) = !(type == .createTime) := by
  cases type <;> rfl

theorem cuts_eq (row base : Row) {builder : Inflated.Batch} (attributes : builder.attributes = base.batchAttributes)
    (producerId : builder.producerId = base.batchProducerId)
    (producerEpoch : builder.producerEpoch = base.batchProducerEpoch)
    (baseTimestamp : builder.baseTimestamp = base.timestamp) : row.cuts builder = !base.continues row := by
  simp only [Row.cuts, Row.continues, attributes, producerId, producerEpoch, baseTimestamp, bne,
    Bool.not_and, Bool.not_or, TimestampType.ne_logAppendTime]

def Row.Within (base row : Row) : Prop :=
  -2 ^ 31 ≤ row.offset.toInt - base.offset.toInt ∧ row.offset.toInt - base.offset.toInt < 2 ^ 31

instance (base row : Row) : Decidable (base.Within row) :=
  inferInstanceAs (Decidable (_ ∧ _))

theorem Row.within_self (row : Row) : row.Within row := by
  rw [Row.Within, Int.sub_self]
  decide

theorem Near.within (near : Near rows) (first : base ∈ rows) (second : row ∈ rows) : base.Within row := by
  have above := near row second base first
  have below := near base first row second
  exact ⟨by omega, above⟩

def RunWithin (run : List Row) : Prop :=
  ∀ row ∈ run, (run.headD row).Within row

instance (run : List Row) : Decidable (RunWithin run) :=
  inferInstanceAs (Decidable (∀ row ∈ run, _))

theorem Row.runWithin_singleton (row : Row) : RunWithin [row] := fun other member => by
  rw [mem_singleton.mp member]
  exact row.within_self

theorem RunWithin.append (started : RunWithin (base :: tail)) (within : base.Within row) :
    RunWithin (base :: (tail ++ [row])) := by
  intro other member
  rw [← cons_append] at member
  rcases Log.mem_concat.mp member with old | rfl
  · exact started other old
  · exact within

theorem push_builder (env : Env) (row : Row) :
    push (env.headers row) row (row.builder env.now) = some (runBuilder env row []) := by
  have delta : offsetDelta row.offset row.offset = some (Int32.ofInt (row.offset.toInt - row.offset.toInt)) :=
    if_pos row.within_self
  simp only [push, Row.builder, delta, bind_eq_bind, bind_some, runBuilder]
  rfl

theorem push_runBuilder : push (env.headers row) row (runBuilder env base tail) =
    if base.Within row then some (runBuilder env base (tail ++ [row])) else none := by
  by_cases within : base.Within row
  · have delta : offsetDelta row.offset base.offset = some _ := if_pos within
    simp only [push, runBuilder, Row.builder, delta, bind_eq_bind, bind_some, if_pos within]
    simp [Row.record]
  · have delta : offsetDelta row.offset base.offset = none := if_neg within
    simp only [push, runBuilder, Row.builder, delta, bind_eq_bind, bind_none, if_neg within]

def deflatedRun (env : Env) (run : List Row) : Option Deflated.Batch :=
  if RunWithin run then (runBatch env run).deflated env.codec else none

theorem deflatedRun_eq_none (outside : ¬base.Within row) : deflatedRun env (base :: (tail ++ [row]) ++ more) = none :=
  if_neg fun within => outside (within row (by simp))

theorem finish_eq (started : RunWithin (base :: tail)) (done : List Deflated.Batch) :
    (do let batch ← finish env.codec (runBuilder env base tail); pure (done ++ [batch])) =
      ((runsFrom Row.continues base tail []).mapM (deflatedRun env)).map (done ++ ·) := by
  have same : finish env.codec (runBuilder env base tail) = deflatedRun env (base :: tail) :=
    (if_pos started).symm
  rw [same, runsFrom, mapM_cons]
  cases deflatedRun env (base :: tail) <;> rfl

theorem rebuild_eq (started : RunWithin (base :: tail)) (number : Nat) (done : List Deflated.Batch) :
    rebuild env number rows done (runBuilder env base tail) =
      ((runsFrom Row.continues base tail (beforeDeadline env.hasDeadlineExpired number rows)).mapM
        (deflatedRun env)).map (done ++ ·) := by
  -- The run under way is `base :: tail`; a row extends it or starts the next one.
  induction rows generalizing number base tail done with
  | nil => exact finish_eq started done
  | cons row rest ih =>
    have cuts : row.cuts (runBuilder env base tail) = !base.continues row :=
      cuts_eq row base rfl rfl rfl rfl
    -- Once the row is in a batch, the loop stops or goes on with the rest.
    have after {base' : Row} {tail' : List Row} (started : RunWithin (base' :: tail'))
        (done : List Deflated.Batch) :
        (if env.hasDeadlineExpired number then do
            let batch ← finish env.codec (runBuilder env base' tail')
            pure (done ++ [batch])
          else rebuild env (number + 1) rest done (runBuilder env base' tail')) =
        ((runsFrom Row.continues base' tail' (if env.hasDeadlineExpired number then []
          else beforeDeadline env.hasDeadlineExpired (number + 1) rest)).mapM
            (deflatedRun env)).map (done ++ ·) := by
      cases env.hasDeadlineExpired number with
      | true => exact finish_eq started done
      | false => exact ih started (number + 1) done
    rw [rebuild, beforeDeadline, runsFrom, toTimestamp_eq, cuts]
    cases base.continues row with
    | true =>
      simp only [bind_eq_bind, bind_some, Bool.not_true, Bool.false_eq_true, if_false, if_true, push_runBuilder, pure]
      by_cases within : base.Within row
      · have extended : RunWithin (base :: (tail ++ [row])) := started.append within
        rw [if_pos within]
        exact after extended done
      · obtain ⟨_, _, run⟩ := exists_runsFrom_eq_cons Row.continues base (tail ++ [row])
          (if env.hasDeadlineExpired number = true then []
            else beforeDeadline env.hasDeadlineExpired (number + 1) rest)
        rw [if_neg within, run, mapM_cons, deflatedRun_eq_none within]
        rfl
    | false =>
      have same : finish env.codec (runBuilder env base tail) = deflatedRun env (base :: tail) :=
        (if_pos started).symm
      simp only [bind_eq_bind, bind_some, Bool.not_false, if_true, Bool.false_eq_true, if_false, mapM_cons, same]
      cases deflatedRun env (base :: tail) with
      | none => rfl
      | some batch =>
        simp only [bind_some, pure, push_builder]
        refine (after row.runWithin_singleton (done ++ [batch])).trans ?_
        cases mapM (deflatedRun env) _ with
        | none => rfl
        | some => simp

theorem batches_eq (env : Env) (rows : List Row) : batches env rows =
    if ∀ run ∈ runs Row.continues (beforeDeadline env.hasDeadlineExpired 0 rows), RunWithin run then
      (rebuilt env rows).mapM (Inflated.Batch.deflated env.codec) else none := by
  cases rows with
  | nil =>
    rfl
  | cons first rest =>
    have cuts : first.cuts (first.builder env.now) = false := by
      rw [cuts_eq first first rfl rfl rfl rfl, Row.continues_self]
      rfl
    rw [rebuilt, mapM_map, ← mapM_ite RunWithin]
    have loop : batches env (first :: rest) = ((runsFrom Row.continues first [] (if env.hasDeadlineExpired 0 then []
          else beforeDeadline env.hasDeadlineExpired 1 rest)).mapM (deflatedRun env)).map ([] ++ ·) := by
      rw [batches, rebuild, toTimestamp_eq, cuts]
      simp only [bind_eq_bind, bind_some, Bool.false_eq_true, if_false, push_builder, pure]
      cases env.hasDeadlineExpired 0 with
      | true => exact finish_eq first.runWithin_singleton []
      | false => exact rebuild_eq first.runWithin_singleton 1 []
    rw [loop]
    simp only [nil_append, Option.map_id']
    rfl

end Nisshi.Sql
