import Nisshi.SansIo.RoundTrip
import Nisshi.Sql.Consume
import Nisshi.Sql.Lite
import Mathlib.Data.List.TakeWhile

/-! A topic `base/key` on SQLite, read to its end: the records of `base` that have the key, as far as their
headers are found. -/

namespace Nisshi.Sql

open Nisshi.Lib Nisshi.SansIo Nisshi.Storage List Option

section Survives

def Survives (codec : Codec) (attributes : Int16) (records : List Record) : Prop :=
  ∃ compression recordData, Compression.tryFrom attributes = some compression ∧
    Deflated.written codec compression records = some recordData ∧
    Deflated.fixedBatchLength + recordData.length < 2 ^ 31 ∧
    (records.map (Record.decodedSize compression)).sum ≤ maxDecodedBatchBytes

variable {codec : Codec} {batch other : SansIo.Inflated.Batch} {wire : Deflated.Batch}

theorem fits_of_survives (survives : Survives codec batch.attributes batch.records) : batch.Fits := by
  obtain ⟨compression, recordData, -, made, small, budget⟩ := survives
  rw [Inflated.Batch.Fits, Inflated.Batch.recordDataSize]
  rw [Deflated.written] at made
  split at made
  next =>
    cases made
    rw [Deflated.length_flatMap_bytes] at small
    exact small
  next compressed =>
    -- What is compressed is charged to the budget with its size, which is far below the length field.
    rw [Record.sum_decodedSize compressed] at budget
    have limit : Deflated.fixedBatchLength + maxDecodedBatchBytes < 2 ^ 31 := by decide
    omega

theorem exists_deflated (survives : Survives codec batch.attributes batch.records) :
    ∃ wire, batch.deflated codec = some wire := by
  have fits := fits_of_survives survives
  have few := Deflated.seven_mul_length_le batch.records
  obtain ⟨compression, recordData, known, made, small, -⟩ := survives
  have encoded : Deflated.intoRecordData codec batch.records compression = some recordData := by
    rw [Deflated.intoRecordData_written fun record member => fits.record member, made]
  have count : batch.records.length < 2 ^ 32 := by
    rw [Inflated.Batch.Fits, Inflated.Batch.recordDataSize] at fits
    omega
  rw [Inflated.Batch.deflated, Inflated.Batch.build_eq fits, bind_some, Deflated.Batch.tryFromInflated, known]
  simp only [bind_eq_bind, bind_some, encoded, if_pos count, dif_pos small]
  exact ⟨_, rfl⟩

theorem deflated_bind_tryFrom_iff (lossless : codec.Lossless) :
    (batch.deflated codec).bind (Inflated.Batch.tryFrom codec) = some other ↔
      other = batch ∧ Survives codec batch.attributes batch.records := by
  constructor
  · intro carried
    obtain ⟨_, made, back⟩ := bind_eq_some_iff.mp carried
    obtain ⟨_, build, encodes⟩ := bind_eq_some_iff.mp made
    rw [Inflated.Batch.eq_of_build build] at encodes
    have data := encodes
    obtain ⟨compression, known, data⟩ := bind_eq_some_iff.mp data
    obtain ⟨recordData, encoded, data⟩ := bind_eq_some_iff.mp data
    rw [Deflated.intoRecordData_written (Deflated.intoRecordData_eq_some encoded).1] at encoded
    rw [Inflated.Batch.tryFrom_of_tryFromInflated lossless known encodes] at back
    obtain ⟨budget, same⟩ := ite_none_right_eq_some.mp back
    obtain ⟨-, data⟩ := ite_none_right_eq_some.mp data
    split at data
    next small => exact ⟨(some.inj same).symm, compression, recordData, known, encoded, small, budget⟩
    next => cases data
  · rintro ⟨rfl, survives⟩
    obtain ⟨_, made⟩ := exists_deflated survives
    obtain ⟨_, _, known, -, -, budget⟩ := survives
    obtain ⟨_, build, encodes⟩ := bind_eq_some_iff.mp made
    rw [Inflated.Batch.eq_of_build build] at encodes
    rw [made, bind_some, Inflated.Batch.tryFrom_of_tryFromInflated lossless known encodes, if_pos budget]

end Survives

structure RunSurvives (codec : Codec) (headers : Row → List Header) (run : List Row) : Prop where
  within : RunWithin run
  survives : Survives codec ((run.head?.map Row.batchAttributes).getD 0) (runRecords headers run)

theorem survives_runBatch_iff {env : Env} (nonempty : run ≠ []) :
    Survives env.codec (runBatch env run).attributes (runBatch env run).records ↔
      Survives env.codec ((run.head?.map Row.batchAttributes).getD 0) (runRecords env.headers run) := by
  cases run with
  | nil => exact absurd rfl nonempty
  | cons =>
    rfl

theorem survives_builder (codec : Codec) (now : Int64) :
    Survives codec (builder now).attributes (builder now).records := by
  have plain : Compression.tryFrom 0 = some .none := by decide
  exact ⟨.none, [], plain, rfl, by decide, Nat.zero_le _⟩

theorem batches_decoded_iff {env : Env} (lossless : env.codec.Lossless)
    (endless : env.hasDeadlineExpired = fun _ => false)
    {rows : List Row} {inflated : List SansIo.Inflated.Batch} :
    (batches env rows).bind (List.mapM (Inflated.Batch.tryFrom env.codec)) = some inflated ↔
      inflated = rebuilt env rows ∧ ∀ run ∈ runs Row.continues rows, RunSurvives env.codec env.headers run := by
  have all : beforeDeadline env.hasDeadlineExpired 0 rows = rows := by
    rw [endless]
    exact beforeDeadline_eq_self 0 rows
  have checked : ((rebuilt env rows).mapM (Inflated.Batch.deflated env.codec)).bind
      (mapM (Inflated.Batch.tryFrom env.codec)) = some inflated ↔
      inflated = rebuilt env rows ∧ ∀ batch ∈ rebuilt env rows, Survives env.codec batch.attributes batch.records := by
    rw [mapM_bind_mapM]
    exact mapM_check_iff fun batch other => deflated_bind_tryFrom_iff lossless
  have each : (∀ batch ∈ rebuilt env rows, Survives env.codec batch.attributes batch.records) ↔
      ∀ run ∈ runs Row.continues rows, Survives env.codec ((run.head?.map Row.batchAttributes).getD 0)
        (runRecords env.headers run) := by
    cases rows with
    | nil =>
      refine ⟨fun _ run found => absurd found not_mem_nil, fun _ batch member => ?_⟩
      rw [mem_singleton.mp member]
      exact survives_builder env.codec env.now
    | cons =>
      rw [rebuilt, all, List.forall_mem_map]
      refine forall₂_congr fun run found => survives_runBatch_iff ?_
      obtain ⟨_, _, rfl, _⟩ := of_mem_runs found
      exact cons_ne_nil _ _
  rw [batches_eq, all]
  split
  next within =>
    rw [checked, each]
    constructor
    · rintro ⟨same, survives⟩
      exact ⟨same, fun run found => ⟨within run found, survives run found⟩⟩
    · rintro ⟨same, survives⟩
      exact ⟨same, fun run found => (survives run found).survives⟩
  next outside =>
    constructor
    · intro none
      cases none
    · rintro ⟨-, survives⟩
      exact absurd (fun run found => (survives run found).within) outside

namespace Lite

section Loop

def endless (env : Env) : Env :=
  { env with hasDeadlineExpired := fun _ => false }

variable {env : Env}

theorem rebuild_eq (number : Nat) (stored : List Stored) (done : List Deflated.Batch)
    (builder : SansIo.Inflated.Batch) : rebuild env number stored done builder =
      ((Paging.before env.hasDeadlineExpired number stored).mapM Stored.row).bind fun rows =>
        Sql.rebuild (endless env) number rows done builder := by
  induction stored generalizing number done builder with
  | nil => rfl
  | cons first rest ih =>
    rw [rebuild, Paging.before]
    cases env.hasDeadlineExpired number with
    | true => rfl
    | false =>
      simp only [Bool.false_eq_true, if_false, mapM_cons]
      cases first.row with
      | none => rfl
      | some =>
        simp only [bind_eq_bind, bind_some, ih]
        cases (Paging.before env.hasDeadlineExpired (number + 1) rest).mapM Stored.row with
        | none =>
          simp
        | some =>
          simp only [bind_some, pure, Sql.rebuild, toTimestamp_eq, endless]
          rfl

theorem firstBuilder_eq (row : Row) : firstBuilder env row = runBuilder env row [] := by
  simp [firstBuilder, runBuilder, Row.record]

theorem batches_cons (row : Row) (rows : List Row) : Sql.batches (endless env) (row :: rows) =
    Sql.rebuild (endless env) 0 rows [] (firstBuilder env row) := by
  have cuts : row.cuts (row.builder (endless env).now) = false := by
    rw [cuts_eq row row rfl rfl rfl rfl, Row.continues_self]
    rfl
  have all (number : Nat) : beforeDeadline (endless env).hasDeadlineExpired number rows = rows :=
    beforeDeadline_eq_self number rows
  have started := @Sql.rebuild_eq (endless env) row [] rows row.runWithin_singleton
  rw [Sql.batches, Sql.rebuild, toTimestamp_eq, cuts]
  simp only [bind_eq_bind, bind_some, Bool.false_eq_true, if_false, push_builder, pure]
  change Sql.rebuild (endless env) 1 rows [] (runBuilder (endless env) row []) = _
  rw [firstBuilder_eq]
  change _ = Sql.rebuild (endless env) 0 rows [] (runBuilder (endless env) row [])
  rw [started, started, all, all]

theorem batches_eq (stored : List Stored) : batches env stored =
    ((Paging.taken env.hasDeadlineExpired stored).mapM Stored.row).bind (Sql.batches (endless env)) := by
  cases stored with
  | nil => rfl
  | cons first rest =>
    rw [batches, Paging.taken, mapM_cons]
    cases first.row with
    | none => rfl
    | some row =>
      simp only [bind_eq_bind, bind_some, rebuild_eq]
      cases (Paging.before env.hasDeadlineExpired 0 rest).mapM Stored.row with
      | none => rfl
      | some rows => exact (batches_cons row rows).symm

end Loop

def Stored.deliveredWith (found : Int64 → List Header) (stored : Stored) : Delivered where
  offset := stored.offset.toInt
  timestamp := stored.timestamp
  key := stored.key
  value := stored.value
  headers := found stored.offset

def Stored.delivered (stored : Stored) : Delivered :=
  stored.deliveredWith fun _ => stored.headers

/-- The rows of a page are delivered by one fetch: each has a time since the epoch, and the batch of each run
of them is encoded and decoded. -/
def PageSurvives (codec : Codec) (headers : Row → List Header) (page : List Stored) : Prop :=
  ∃ rows, page.mapM Stored.row = some rows ∧ ∀ run ∈ runs Row.continues rows, RunSurvives codec headers run

def received (codec : Codec) (answer : Option (List Deflated.Batch)) : Option (List Delivered) :=
  (answer.bind (List.mapM (Inflated.Batch.tryFrom codec))).map (List.flatMap Inflated.Batch.delivered)

section Answer

variable {env : Env} {found : Int64 → List Header} {stored : List Stored} {rows : List Row}

theorem eq_of_row {stored : Stored} {row : Row} (read : stored.row = some row) :
    row.offset = stored.offset ∧ row.headers = stored.headers ∧
      row.deliveredWith (fun row => found row.offset) = stored.deliveredWith found := by
  rw [Stored.row] at read
  split at read
  next =>
    cases read
    exact ⟨rfl, rfl, rfl⟩
  next => cases read

theorem map_deliveredWith_of_mapM (read : stored.mapM Stored.row = some rows) :
    rows.map (Row.deliveredWith fun row => found row.offset) = stored.map (Stored.deliveredWith found) := by
  have related := mapM_eq_some_iff.mp read
  rw [← forall₂_eq_eq_eq, forall₂_map_left_iff, forall₂_map_right_iff]
  exact related.flip.imp fun row stored here => (eq_of_row here).2.2

theorem received_batches_iff (lossless : env.codec.Lossless) (headers : env.headers = fun row => found row.offset)
    {records : List Delivered} : received env.codec (batches env stored) = some records ↔
      PageSurvives env.codec env.headers (Paging.taken env.hasDeadlineExpired stored) ∧
        records = (Paging.taken env.hasDeadlineExpired stored).map (Stored.deliveredWith found) := by
  rw [received, batches_eq, map_eq_some_iff]
  have decoded (rows : List Row) (inflated : List SansIo.Inflated.Batch) :=
    @batches_decoded_iff (endless env) lossless rfl rows inflated
  have delivered (rows : List Row) (survives : ∀ run ∈ runs Row.continues rows,
      RunSurvives env.codec env.headers run) : (rebuilt (endless env) rows).flatMap Inflated.Batch.delivered =
        rows.map (Row.deliveredWith env.headers) := by
    have all : beforeDeadline (endless env).hasDeadlineExpired 0 rows = rows := beforeDeadline_eq_self 0 rows
    rw [delivered_rebuilt, all]
    · rfl
    · rw [all]
      exact fun run found => (survives run found).within
  constructor
  · rintro ⟨inflated, answered, same⟩
    obtain ⟨_, made, back⟩ := bind_eq_some_iff.mp answered
    obtain ⟨rows, read, built⟩ := bind_eq_some_iff.mp made
    have carried : (Sql.batches (endless env) rows).bind (mapM (Inflated.Batch.tryFrom env.codec)) = some inflated := by
      rw [built]
      exact back
    obtain ⟨rfl, survives⟩ := (decoded rows inflated).mp carried
    refine ⟨⟨rows, read, survives⟩, ?_⟩
    rw [← same, delivered rows survives, headers, map_deliveredWith_of_mapM read]
  · rintro ⟨⟨rows, read, survives⟩, rfl⟩
    refine ⟨rebuilt (endless env) rows, ?_, ?_⟩
    · rw [read]
      exact (decoded rows _).mpr ⟨rfl, survives⟩
    · rw [delivered rows survives, headers, map_deliveredWith_of_mapM read]

end Answer

/-- Repeated fetches, each from the offset behind the last record, until one is answered without records. -/
inductive Reads (codec : Codec) (fetch : Nat → Int64 → Option (List Deflated.Batch)) :
    Nat → Int64 → List Delivered → Prop
  | done {number : Nat} {offset : Int64} (answer : received codec (fetch number offset) = some []) :
      Reads codec fetch number offset []
  | more {number : Nat} {offset : Int64} {records rest : List Delivered} {last : Delivered}
      (answer : received codec (fetch number offset) = some records) (ends : records.getLast? = some last)
      (reads : Reads codec fetch (number + 1) (Int64.ofInt (last.offset + 1)) rest) :
      Reads codec fetch number offset (records ++ rest)

theorem Reads.unique {fetch : Nat → Int64 → Option (List Deflated.Batch)} {offset : Int64}
    (one : Reads codec fetch number offset records)
    (two : Reads codec fetch number offset others) : records = others := by
  induction one generalizing others with
  | done answer =>
    cases two with
    | done => rfl
    | more answer' ends =>
      cases answer.symm.trans answer'
      cases ends
  | more answer ends _ ih =>
    cases two with
    | done answer' =>
      cases answer.symm.trans answer'
      cases ends
    | more answer' ends' reads =>
      cases answer.symm.trans answer'
      cases ends.symm.trans ends'
      rw [ih reads]

section Pages

def Request.page (requests : Nat → Request) (number : Nat) (wanted : List Stored) : List Stored :=
  Paging.taken (requests number).hasDeadlineExpired
    (Paging.sized Stored.bytes (requests number).maxBytes 0 1 wanted)

theorem cuts_page (requests : Nat → Request) : Paging.Cuts (Request.page requests) where
  isPrefix _ _ := (Paging.taken_isPrefix _ _).trans (Paging.sized_isPrefix Nat.one_pos)
  ne_nil _ _ nonempty := Paging.taken_ne_nil _ (Paging.sized_ne_nil nonempty)

variable {partition : Partition} {offset : Int64} {highWatermark : Int} {key : List UInt8}

theorem sorted_keyed : (partition.keyed offset highWatermark key).Pairwise
    fun earlier later => earlier.offset.toInt < later.offset.toInt := by
  refine (partition.sorted.filter _).imp ?_
  exact fun less => Int64.lt_iff_toInt_lt.mp less

/-- The fetch behind the last row of a page finds the rows behind the page. -/
theorem keyed_next {front : List Stored} (small : highWatermark < 2 ^ 63)
    (isPrefix : front <+: partition.keyed offset highWatermark key) (ends : front.getLast? = some last) :
    partition.keyed (Int64.ofInt (last.offset.toInt + 1)) highWatermark key =
      (partition.keyed offset highWatermark key).drop front.length := by
  have stored := isPrefix.subset (mem_of_getLast? ends)
  have here := of_mem_filter stored
  simp only [Bool.and_eq_true, decide_eq_true_eq, Int64.le_iff_toInt_le] at here
  have least := Int64.le_toInt last.offset
  have next : (Int64.ofInt (last.offset.toInt + 1)).toInt = last.offset.toInt + 1 :=
    Int64.toInt_ofInt_of_le (by omega) (by omega)
  rw [@Paging.drop_eq_filter Stored (fun row => row.offset.toInt) _ _ _ sorted_keyed isPrefix ends,
    Partition.keyed, Partition.keyed, List.filter_filter]
  apply filter_congr
  intro row _
  rw [Bool.eq_iff_iff]
  simp only [Bool.and_eq_true, decide_eq_true_eq, Int64.le_iff_toInt_le, next]
  constructor
  · rintro ⟨⟨later, stable⟩, same⟩
    exact ⟨by omega, ⟨by omega, stable⟩, same⟩
  · rintro ⟨later, ⟨-, stable⟩, same⟩
    exact ⟨⟨by omega, stable⟩, same⟩

end Pages

section Reading

variable {partition : Partition} {highWatermark : Int} {key : List UInt8} {codec : Codec}
  {fetch : Nat → Int64 → Option (List Deflated.Batch)} {requests : Nat → Request} {headers : Row → List Header}
  {found : Int64 → List Header}

theorem getLast?_deliveredWith {page : List Stored} (final : page.getLast? = some last) :
    (page.map (Stored.deliveredWith found)).getLast? = some (last.deliveredWith found) := by
  rw [getLast?_map, final]
  rfl

theorem exists_getLast? {page : List Stored} (ends : (page.map (Stored.deliveredWith found)).getLast? = some last) :
    ∃ row, page.getLast? = some row ∧ last.offset = row.offset.toInt := by
  rw [getLast?_map] at ends
  obtain ⟨row, final, rfl⟩ := map_eq_some_iff.mp ends
  exact ⟨row, final, rfl⟩

def AnswersPages (codec : Codec) (fetch : Nat → Int64 → Option (List Deflated.Batch)) (partition : Partition)
    (highWatermark : Int) (key : List UInt8) (requests : Nat → Request) (headers : Row → List Header)
    (found : Int64 → List Header) : Prop :=
  ∀ number offset records, received codec (fetch number offset) = some records ↔
    PageSurvives codec headers (Request.page requests number (partition.keyed offset highWatermark key)) ∧
      records = (Request.page requests number (partition.keyed offset highWatermark key)).map
        (Stored.deliveredWith found)

theorem delivered_of_reads (small : highWatermark < 2 ^ 63)
    (answers : AnswersPages codec fetch partition highWatermark key requests headers found)
    {offset : Int64} (reads : Reads codec fetch number offset records) :
    (∀ page ∈ Paging.pages (Request.page requests) number (partition.keyed offset highWatermark key),
      PageSurvives codec headers page) ∧
      records = (partition.keyed offset highWatermark key).map (Stored.deliveredWith found) := by
  have cuts := cuts_page requests
  induction reads with
  | @done number offset answer =>
    obtain ⟨-, none⟩ := (answers number offset []).mp answer
    have empty : partition.keyed offset highWatermark key = [] := by
      by_contra nonempty
      exact cuts.ne_nil number _ nonempty (map_eq_nil_iff.mp none.symm)
    rw [empty, Paging.pages_nil]
    exact ⟨nofun, rfl⟩
  | @more number offset records rest last answer ends _ ih =>
    obtain ⟨survives, rfl⟩ := (answers number offset records).mp answer
    obtain ⟨_, final, same⟩ := exists_getLast? ends
    have isPrefix := cuts.isPrefix number (partition.keyed offset highWatermark key)
    have nonempty : partition.keyed offset highWatermark key ≠ [] :=
      ne_nil_of_mem (isPrefix.subset (mem_of_getLast? final))
    rw [same, keyed_next small isPrefix final] at ih
    obtain ⟨others, rfl⟩ := ih
    rw [Paging.pages_eq_cons cuts nonempty, forall_mem_cons, ← map_append]
    refine ⟨⟨survives, others⟩, ?_⟩
    rw [prefix_iff_eq_append.mp isPrefix]

theorem reads_of_pages (small : highWatermark < 2 ^ 63)
    (answers : AnswersPages codec fetch partition highWatermark key requests headers found)
    (number : Nat) (offset : Int64)
    (survive : ∀ page ∈ Paging.pages (Request.page requests) number (partition.keyed offset highWatermark key),
      PageSurvives codec headers page) :
    Reads codec fetch number offset
      ((partition.keyed offset highWatermark key).map (Stored.deliveredWith found)) := by
  have cuts := cuts_page requests
  -- The induction is over the pages that are left; the offset moves behind each.
  refine Paging.pages_induction cuts
    (motive := fun number items => ∀ offset, partition.keyed offset highWatermark key = items →
      (∀ page ∈ Paging.pages (Request.page requests) number items, PageSurvives codec headers page) →
        Reads codec fetch number offset (items.map (Stored.deliveredWith found)))
    ?nil ?cons number _ offset rfl survive
  case nil =>
    intro number offset empty _
    apply Reads.done
    rw [answers, empty]
    exact ⟨⟨[], rfl, nofun⟩, rfl⟩
  case cons =>
    intro number items nonempty ih offset same survive
    subst same
    rw [Paging.pages_eq_cons cuts nonempty, forall_mem_cons] at survive
    obtain ⟨here, others⟩ := survive
    have isPrefix := cuts.isPrefix number (partition.keyed offset highWatermark key)
    have final := getLast?_eq_some_getLast (cuts.ne_nil number _ nonempty)
    have next := ih _ (keyed_next small isPrefix final) others
    have answer := (answers number offset _).mpr ⟨here, rfl⟩
    have whole := Reads.more answer (getLast?_deliveredWith final) next
    rw [← map_append, prefix_iff_eq_append.mp isPrefix] at whole
    exact whole

end Reading

section Names

variable {database : Database} {base key : String} {index : Int32} {partition : Partition}

theorem forall_ne_slash {text : List Char} (plain : '/' ∉ text) : ∀ c ∈ text, decide (c ≠ '/') = true := by
  intro c member
  rw [decide_eq_true_eq]
  rintro rfl
  exact plain member

theorem splitOnce_eq_none (plain : '/' ∉ base.toList) : splitOnce '/' base = none := by
  have none : base.toList.dropWhile (· ≠ '/') = [] := dropWhile_eq_nil_iff.mpr (forall_ne_slash plain)
  rw [splitOnce, none]

def viewName (base key : String) : String :=
  base ++ "/" ++ key

theorem splitOnce_viewName (plain : '/' ∉ base.toList) (key : String) :
    splitOnce '/' (viewName base key) = some (base, key) := by
  have text : (viewName base key).toList = base.toList ++ '/' :: key.toList := by
    rw [viewName, String.toList_append, String.toList_append, append_assoc]
    rfl
  have front : (base.toList ++ '/' :: key.toList).takeWhile (· ≠ '/') = base.toList := by
    rw [takeWhile_append_of_pos (forall_ne_slash plain)]
    simp
  have back : (base.toList ++ '/' :: key.toList).dropWhile (· ≠ '/') = '/' :: key.toList := by
    rw [dropWhile_append_of_pos (forall_ne_slash plain)]
    simp
  rw [splitOnce, text, back, front]
  simp only [String.ofList_toList]

theorem topicWithKey_base (plain : '/' ∉ base.toList) : database.topicWithKey base = (base, none) := by
  rw [Database.topicWithKey, splitOnce_eq_none plain]

theorem topicWithKey_viewName (plain : '/' ∉ base.toList) (isVirtual : database.isVirtual base = true) :
    database.topicWithKey (viewName base key) = (base, some key) := by
  rw [Database.topicWithKey, splitOnce_viewName plain]
  exact if_pos isVirtual

def Partition.highWatermark (partition : Partition) (isolationLevel : IsolationLevel) : Int :=
  if isolationLevel = .readCommitted then partition.offsetStage.lastStable
  else partition.offsetStage.highWatermark

theorem highWatermark_lt (isolationLevel : IsolationLevel) : partition.highWatermark isolationLevel < 2 ^ 63 := by
  rw [Partition.highWatermark]
  split
  next => exact Int64.toInt_lt _
  next => exact Int64.toInt_lt _

def Partition.filtered (partition : Partition) (isolationLevel : IsolationLevel) (offset : Int64) (key : String) :
    List Stored :=
  (partition.candidates offset (partition.highWatermark isolationLevel)).filter
    fun row => row.key = some (asBytes key)

theorem keyed_eq (isolationLevel : IsolationLevel) (offset : Int64) (key : String) :
    partition.keyed offset (partition.highWatermark isolationLevel) (asBytes key) =
      partition.filtered isolationLevel offset key := by
  rw [Partition.filtered, Partition.candidates, List.filter_filter]
  apply filter_congr
  intro row _
  rw [Bool.and_comm]

def Database.env (database : Database) (codec : Codec) (topic : String) (index : Int32) (request : Request) : Env where
  codec
  now := request.now
  headers := fun row => database.headerFetch topic index row.offset
  hasDeadlineExpired := request.hasDeadlineExpired

variable {codec : Codec} {isolationLevel : IsolationLevel} {request : Request} {offset : Int64}

theorem fetch_base (plain : '/' ∉ base.toList) (stored : database.partition base index = some partition) :
    database.fetch codec base index isolationLevel request offset =
      batches (database.env codec base index request) (Paging.sized Stored.bytes request.maxBytes 0 1
        (partition.candidates offset (partition.highWatermark isolationLevel))) := by
  simp only [Database.fetch, Database.offsetStage, Database.baseTopic, topicWithKey_base plain, stored,
    map_some, bind_eq_bind, bind_some, Database.recordFetch, getD_some]
  rfl

theorem fetch_viewName (plain : '/' ∉ base.toList) (isVirtual : database.isVirtual base = true)
    (stored : database.partition base index = some partition) :
    database.fetch codec (viewName base key) index isolationLevel request offset =
      batches (database.env codec (viewName base key) index request) (Paging.sized Stored.bytes request.maxBytes 0 1
        (partition.keyed offset (partition.highWatermark isolationLevel) (asBytes key))) := by
  simp only [Database.fetch, Database.offsetStage, Database.baseTopic, topicWithKey_viewName plain isVirtual, stored,
    map_some, bind_eq_bind, bind_some, Database.recordFetchKeyed, getD_some]
  rfl

theorem find?_offset {rows : List Stored} (sorted : rows.Pairwise fun earlier later => earlier.offset < later.offset)
    (member : row ∈ rows) :
    rows.find? (fun other => other.offset = row.offset) = some row := by
  induction rows with
  | nil => cases member
  | cons first rest ih =>
    obtain ⟨later, sorted⟩ := pairwise_cons.mp sorted
    cases member with
    | head => exact find?_cons_of_pos (by simp)
    | tail _ member =>
      have different : first.offset ≠ row.offset := by
        have less := Int64.lt_iff_toInt_lt.mp (later row member)
        intro same
        rw [same] at less
        omega
      rw [find?_cons_of_neg (by simpa using different)]
      exact ih sorted member

theorem headerFetch_eq (stored : database.partition base index = some partition) (member : row ∈ partition.rows) :
    database.headerFetch base index row.offset = row.headers := by
  rw [Database.headerFetch, stored, bind_some, find?_offset partition.sorted member]
  rfl

end Names

section View

variable {codec : Codec} {found : Int64 → List Header}

theorem runRecords_congr {headers : Row → List Header} (same : ∀ row ∈ run, headers row = others row) :
    runRecords headers run = runRecords others run := by
  cases run with
  | nil => rfl
  | cons =>
    refine map_congr_left fun row member => ?_
    rw [Row.record, Row.record, same row member]

/-- Where the headers of its rows are found, a page is delivered with the headers as they are stored. -/
theorem pageSurvives_congr (same : ∀ row ∈ page, found row.offset = row.headers) :
    PageSurvives codec (fun row => found row.offset) page ↔ PageSurvives codec Row.headers page := by
  refine exists_congr fun rows => and_congr_right fun read => forall₂_congr fun run member => ?_
  have equal : ∀ row ∈ run, found row.offset = row.headers := by
    intro row inside
    obtain ⟨stored, listed, here⟩ :=
      exists_left_of_forall₂ (mapM_eq_some_iff.mp read) (mem_of_mem_run member inside)
    obtain ⟨offset, headers, -⟩ := @eq_of_row found _ _ here
    rw [offset, headers]
    exact same stored listed
  have records : runRecords (fun row => found row.offset) run = runRecords Row.headers run := runRecords_congr equal
  constructor
  · rintro ⟨within, survives⟩
    rw [records] at survives
    exact ⟨within, survives⟩
  · rintro ⟨within, survives⟩
    rw [← records] at survives
    exact ⟨within, survives⟩

theorem map_delivered_iff {rows : List Stored} : rows.map Stored.delivered = rows.map (Stored.deliveredWith found) ↔
      ∀ row ∈ rows, found row.offset = row.headers := by
  rw [map_inj_left]
  simp [Stored.delivered, Stored.deliveredWith, eq_comm]

variable {database : Database} {base key : String} {index : Int32} {partition : Partition}
  {isolationLevel : IsolationLevel} {requests : Nat → Request}

theorem received_base (lossless : codec.Lossless) (plain : '/' ∉ base.toList)
    (stored : database.partition base index = some partition) {offset : Int64}
    (answer : received codec (database.fetch codec base index isolationLevel request offset) = some records) :
    ∃ rows, rows <+: partition.candidates offset (partition.highWatermark isolationLevel) ∧
      (partition.candidates offset (partition.highWatermark isolationLevel) ≠ [] → rows ≠ []) ∧
      records = rows.map Stored.delivered := by
  rw [fetch_base plain stored] at answer
  obtain ⟨-, rfl⟩ := (@received_batches_iff (database.env codec base index request) (database.headerFetch base index) _
    lossless rfl records).mp answer
  have isPrefix := (cuts_page fun _ => request).isPrefix 0
    (partition.candidates offset (partition.highWatermark isolationLevel))
  refine ⟨_, isPrefix, (cuts_page fun _ => request).ne_nil 0 _, ?_⟩
  refine (map_delivered_iff.mpr fun row member => ?_).symm
  exact headerFetch_eq stored (mem_of_mem_filter (isPrefix.subset member))

theorem answersPages_view (lossless : codec.Lossless) (plain : '/' ∉ base.toList)
    (isVirtual : database.isVirtual base = true) (stored : database.partition base index = some partition) :
    AnswersPages codec
      (fun number => database.fetch codec (viewName base key) index isolationLevel (requests number)) partition
      (partition.highWatermark isolationLevel) (asBytes key) requests
      (fun row => database.headerFetch (viewName base key) index row.offset)
      (database.headerFetch (viewName base key) index) := by
  intro number offset records
  dsimp only
  rw [fetch_viewName plain isVirtual stored]
  exact @received_batches_iff (database.env codec (viewName base key) index (requests number))
    (database.headerFetch (viewName base key) index) _ lossless rfl records

/-- A view by a key is read to its end as the records of its base topic that have the key, exactly when the
headers of each are also found under the name of the view, and the batches of each page are encoded and decoded. A
fetch of the base topic returns the records as they are stored. -/
theorem view_is_filter_iff (database : Database) (codec : Codec) (lossless : codec.Lossless) (base key : String)
    (index : Int32) (partition : Partition) (plain : '/' ∉ base.toList)
    (isVirtual : database.isVirtual base = true) (stored : database.partition base index = some partition)
    (isolationLevel : IsolationLevel) (requests : Nat → Request) (offset : Int64) :
    (∀ request start records,
      received codec (database.fetch codec base index isolationLevel request start) = some records →
        ∃ rows, rows <+: partition.candidates start (partition.highWatermark isolationLevel) ∧
          (partition.candidates start (partition.highWatermark isolationLevel) ≠ [] → rows ≠ []) ∧
          records = rows.map Stored.delivered) ∧
    (Reads codec (fun number => database.fetch codec (viewName base key) index isolationLevel (requests number))
        0 offset ((partition.filtered isolationLevel offset key).map Stored.delivered) ↔
      (∀ row ∈ partition.filtered isolationLevel offset key,
        database.headerFetch (viewName base key) index row.offset = row.headers) ∧
      ∀ page ∈ Paging.pages (Request.page requests) 0 (partition.filtered isolationLevel offset key),
        PageSurvives codec Row.headers page) := by
  refine ⟨fun request start records answer => received_base lossless plain stored answer, ?_⟩
  rw [← keyed_eq]
  have small := @highWatermark_lt partition isolationLevel
  have answers := @answersPages_view codec database base key index partition isolationLevel requests lossless plain
    isVirtual stored
  -- The pages are parts of the wanted rows, so their headers are found when those of the wanted rows are.
  have pages (same : ∀ row ∈ partition.keyed offset (partition.highWatermark isolationLevel) (asBytes key),
      database.headerFetch (viewName base key) index row.offset = row.headers) :
      ∀ page ∈ Paging.pages (Request.page requests) 0
        (partition.keyed offset (partition.highWatermark isolationLevel) (asBytes key)),
      (PageSurvives codec (fun row => database.headerFetch (viewName base key) index row.offset) page ↔
        PageSurvives codec Row.headers page) := by
    intro page member
    refine pageSurvives_congr fun row inside => same row ?_
    have whole := mem_flatten_of_mem member inside
    rwa [Paging.flatten_pages (cuts_page requests)] at whole
  constructor
  · intro reads
    obtain ⟨survive, same⟩ := delivered_of_reads small answers reads
    have headers := map_delivered_iff.mp same
    exact ⟨headers, fun page member => (pages headers page member).mp (survive page member)⟩
  · rintro ⟨headers, survive⟩
    rw [map_delivered_iff.mpr headers]
    exact reads_of_pages small answers 0 offset fun page member => (pages headers page member).mpr (survive page member)

end View

def orders (partition : Partition) : Database where
  topics :=
    [{ name := "orders"
       configurations := [("nisshi.virtual", some "true")]
       partitions := [(0, partition)]
       distinct := by simp }]
  distinct := by simp

def keyA (offset : Int64) (headers : List Header) : Stored where
  offset
  attributes := none
  timestamp := 70
  key := some (asBytes "a")
  value := some [1]
  producerId := none
  producerEpoch := none
  headers

def patient : Request where
  now := 0
  maxBytes := 100
  hasDeadlineExpired := fun _ => false

theorem lossless_verbatim : verbatim.Lossless := by
  intro compression bytes compressed same
  exact same.symm

def bare : Partition where
  low := some 0
  high := some 9
  ongoing := none
  rows := [keyA 3 [], { keyA 5 [] with key := some (asBytes "b") }, keyA 8 []]
  sorted := by decide

theorem view_is_filter_iff_bare : verbatim.Lossless ∧ (orders bare).isVirtual "orders" = true ∧
      bare.filtered .readUncommitted 4 "a" = [keyA 8 []] ∧
      (Reads verbatim (fun _ => (orders bare).fetch verbatim (viewName "orders" "a") 0 .readUncommitted patient)
          0 4 ((bare.filtered .readUncommitted 4 "a").map Stored.delivered) ↔
        (∀ row ∈ bare.filtered .readUncommitted 4 "a",
          (orders bare).headerFetch (viewName "orders" "a") 0 row.offset = row.headers) ∧
        ∀ page ∈ Paging.pages (Request.page fun _ => patient) 0 (bare.filtered .readUncommitted 4 "a"),
          PageSurvives verbatim Row.headers page) := by
  have isVirtual : (orders bare).isVirtual "orders" = true := by decide +kernel
  have wanted : bare.filtered .readUncommitted 4 "a" = [keyA 8 []] := by decide +kernel
  have applied := view_is_filter_iff (orders bare) verbatim lossless_verbatim "orders" "a" 0 bare (by decide)
    isVirtual rfl .readUncommitted (fun _ => patient) 4
  exact ⟨lossless_verbatim, isVirtual, wanted, applied.2⟩

def headed : Partition where
  low := some 0
  high := some 9
  ongoing := none
  rows := [keyA 3 [{ key := some [104], value := some [2] }]]
  sorted := List.pairwise_singleton _ _

/-- The record is read from the view without its header, and from the topic with it. -/
theorem view_loses_headers : received verbatim ((orders headed).fetch verbatim "orders" 0 .readUncommitted patient 0) =
        some (headed.rows.map Stored.delivered) ∧
      Reads verbatim (fun _ => (orders headed).fetch verbatim "orders/a" 0 .readUncommitted patient) 0 0
        [(keyA 3 []).delivered] ∧
      ¬Reads verbatim (fun _ => (orders headed).fetch verbatim "orders/a" 0 .readUncommitted patient) 0 0
        (headed.rows.map Stored.delivered) := by
  have base : received verbatim ((orders headed).fetch verbatim "orders" 0 .readUncommitted patient 0) =
      some (headed.rows.map Stored.delivered) := by
    decide +kernel
  have first : received verbatim ((orders headed).fetch verbatim "orders/a" 0 .readUncommitted patient 0) =
      some [(keyA 3 []).delivered] := by
    decide +kernel
  have second : received verbatim ((orders headed).fetch verbatim "orders/a" 0 .readUncommitted patient 4) =
    some [] := by
    decide +kernel
  have reads : Reads verbatim (fun _ => (orders headed).fetch verbatim "orders/a" 0 .readUncommitted patient) 0 0
      ([(keyA 3 []).delivered] ++ []) :=
    .more first rfl (.done second)
  refine ⟨base, reads, fun whole => ?_⟩
  exact absurd (reads.unique whole) (by decide +kernel)

end Lite

end Nisshi.Sql
