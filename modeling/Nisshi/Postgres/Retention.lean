import Nisshi.Storage.Config
import Mathlib.Data.List.Infix
import Mathlib.Data.List.Pairwise

/-! Retention on Postgres. `policy_delete.sql` removes the records whose timestamp has expired, below an offset
that it finds with a binary search over the times of their appends; `policy_delete_bytes.sql` then removes the
oldest records of a partition that has more bytes than its limit. Times are in microseconds. -/

namespace Nisshi.Postgres.Retention

open Nisshi.Lib.Decimal Nisshi.Storage List Option

/-- A row of `record`. -/
structure Row where
  offsetId : Nat
  timestamp : Option Int
  createdAt : Int
  k : Option (List UInt8)
  v : Option (List UInt8)
  deriving DecidableEq

/-- `coalesce(octet_length(k), 0) + coalesce(octet_length(v), 0)`. -/
def Row.bytes (row : Row) : Nat :=
  (row.k.map List.length).getD 0 + (row.v.map List.length).getD 0

structure Watermark where
  low : Option Nat
  high : Option Nat
  deriving DecidableEq

/-- A partition with its watermark, the configuration of its topic, and its rows in the order of the primary
key. -/
structure Partition where
  cluster : String
  cleanupPolicy : Option String
  retentionMs : Option String
  retentionBytes : Option String
  watermark : Option Watermark
  rows : List Row
  ordered : rows.Pairwise fun first second => first.offsetId < second.offsetId

def Partition.keep (partition : Partition) (kept : Row → Bool) : Partition :=
  { partition with rows := partition.rows.filter kept, ordered := partition.ordered.filter kept }

/-- `trim`, which removes spaces only. -/
def trim (text : List Char) : List Char :=
  ((text.dropWhile (· = ' ')).reverse.dropWhile (· = ' ')).reverse

/-- `~ '^[0-9]{1,18}$'`. -/
def isLimit (text : List Char) : Bool :=
  text.all Char.isDigit && 1 ≤ text.length && text.length ≤ 18

/-- `~ '^[-+]?[0-9]{1,18}$'`. -/
def isSignedLimit : List Char → Bool
  | '-' :: digits => isLimit digits
  | '+' :: digits => isLimit digits
  | digits => isLimit digits

/-- `cast(value as bigint)`, of a value that one of the patterns allows. -/
def castBigint (text : List Char) : Int :=
  (readInt (trim text)).getD 0

/-- `coalesce(policy, 'delete') like '%delete%'`. -/
def deletes (cleanupPolicy : Option String) : Bool :=
  "delete".toList <:+: (cleanupPolicy.getD "delete").toList

theorem deletes_none : deletes none = true := by
  decide +kernel

/-- `deletion`: the retention of a partition in seconds, if records of it can expire. -/
def retentionSecs (cluster : String) (partition : Partition) : Option Int :=
  if partition.cluster = cluster ∧ deletes partition.cleanupPolicy then
    match partition.retentionMs with
    | none => some Config.defaultRetention
    | some value =>
      if isSignedLimit (trim value.toList) ∧ 0 ≤ castBigint value.toList then
        some (castBigint value.toList / 1000)
      else none
  else none

/-- `extract(epoch from now) - extract(epoch from time) > retention_secs`. -/
def expired (now time retentionSecs : Int) : Bool :=
  now - time > retentionSecs * 1000000

theorem probe_bounds {rows : List Row} {middle hi : Nat} {probe : Row}
    (probed : (rows.find? fun row => middle ≤ row.offsetId ∧ row.offsetId < hi) = some probe) :
    middle ≤ probe.offsetId ∧ probe.offsetId < hi := by
  simpa only [decide_eq_true_eq] using List.find?_some probed

/-- `search`: `lo` is the first offset that may be kept, and `hi` the first that is known to be kept. -/
def search (rows : List Row) (now retentionSecs : Int) (lo hi : Nat) : Nat :=
  if _ : lo < hi then
    match probed : rows.find? fun row => (lo + hi) / 2 ≤ row.offsetId ∧ row.offsetId < hi with
    | none => search rows now retentionSecs lo ((lo + hi) / 2)
    | some probe =>
      if expired now probe.createdAt retentionSecs then search rows now retentionSecs (probe.offsetId + 1) hi
      else search rows now retentionSecs lo probe.offsetId
  else lo
termination_by hi - lo
decreasing_by
  · omega
  · have found := probe_bounds probed
    omega
  · have found := probe_bounds probed
    omega

/-- `boundary`: the retention of a partition that has a watermark, and the offset below which its records can
be deleted. -/
def boundary (cluster : String) (now : Int) (partition : Partition) : Option (Int × Nat) :=
  partition.watermark.bind fun watermark =>
    (retentionSecs cluster partition).map fun retentionSecs =>
      (retentionSecs, search partition.rows now retentionSecs (watermark.low.getD 0) (watermark.high.getD 0))

/-- `policy_delete.sql`. -/
def policyDeleteTime (cluster : String) (now : Int) (partition : Partition) : Partition :=
  match boundary cluster now partition with
  | none => partition
  | some (retentionSecs, offsetId) =>
    partition.keep fun row =>
      !(row.offsetId < offsetId && row.timestamp.any fun timestamp => expired now timestamp retentionSecs)

/-- `capped`: the limit of a partition in bytes. -/
def cap (cluster : String) (partition : Partition) : Option Int :=
  if partition.cluster = cluster ∧ deletes partition.cleanupPolicy then
    partition.retentionBytes.bind fun value =>
      if isLimit value.toList then some (castBigint value.toList) else none
  else none

/-- `retained`: the bytes of a row and the newer ones. -/
def retained (rows : List Row) (row : Row) : Nat :=
  ((rows.filter fun other => row.offsetId ≤ other.offsetId).map Row.bytes).sum

/-- `newest`: the place of a row, counted from the newest. -/
def newest (rows : List Row) (row : Row) : Nat :=
  (rows.filter fun other => row.offsetId ≤ other.offsetId).length

/-- `policy_delete_bytes.sql`. -/
def policyDeleteBytes (cluster : String) (partition : Partition) : Partition :=
  match cap cluster partition with
  | none => partition
  | some cap => partition.keep fun row => !(retained partition.rows row > cap && newest partition.rows row > 1)

/-- `Postgres::policy_delete`, of one partition: its queries treat each partition on its own. -/
def policyDelete (cluster : String) (now : Int) (partition : Partition) : Partition :=
  policyDeleteBytes cluster (policyDeleteTime cluster now partition)

/-! The queries read back the number that was validated. -/

section Stored

theorem trim_of_forall (plain : ∀ c ∈ text, c ≠ ' ') : trim text = text := by
  have keeps : ∀ text : List Char, (∀ c ∈ text, c ≠ ' ') → text.dropWhile (· = ' ') = text := by
    intro text plain
    cases text with
    | nil => rfl
    | cons first =>
      rw [dropWhile_cons_of_neg]
      simpa using plain first mem_cons_self
  rw [trim, keeps text plain, keeps text.reverse fun c member => plain c (mem_reverse.mp member), reverse_reverse]

theorem natText_plain {n : Nat} (member : c ∈ natText n) : c ≠ ' ' := by
  have digit := all_eq_true.mp (all_isDigit_natText n) c member
  intro space
  rw [space] at digit
  exact absurd digit (by decide)

theorem trim_intText (n : Int) : trim (intText n) = intText n := by
  apply trim_of_forall
  intro c member
  rw [intText] at member
  split at member
  next =>
    cases member with
    | head => decide
    | tail _ member => exact natText_plain member
  next => exact natText_plain member

theorem castBigint_intText (n : Int) : castBigint (intText n) = n := by
  rw [castBigint, trim_intText, readInt_intText, getD_some]

theorem isLimit_natText (n : Nat) : isLimit (natText n) = true ↔ n < 10 ^ 18 := by
  have some : 1 ≤ (natText n).length := length_pos_iff.mpr (natText_ne_nil n)
  rw [← length_natText_le_iff (by decide), isLimit, all_isDigit_natText]
  simp [some]

theorem isLimit_intText (n : Int) : isLimit (intText n) = true ↔ 0 ≤ n ∧ n < 10 ^ 18 := by
  rw [intText]
  split
  next negative =>
    have sign : isLimit ('-' :: natText n.natAbs) = false := rfl
    simp only [sign, Bool.false_eq_true, false_iff]
    omega
  next =>
    rw [isLimit_natText]
    omega

theorem isSignedLimit_natText (n : Nat) : isSignedLimit (natText n) = isLimit (natText n) := by
  cases text : natText n with
  | nil => exact absurd text (natText_ne_nil n)
  | cons first rest =>
    have digit := isDigit_of_head text
    rw [isSignedLimit]
    · rintro digits ⟨⟩
      exact absurd digit (by decide)
    · rintro digits ⟨⟩
      exact absurd digit (by decide)

theorem isSignedLimit_intText (natural : 0 ≤ n) : isSignedLimit (intText n) = true ↔ n < 10 ^ 18 := by
  rw [intText, if_neg (by omega), isSignedLimit_natText, isLimit_natText]
  omega

end Stored

def retentionMs (value : Option String) : Int :=
  (Config.given value).getD (Config.defaultRetention * 1000)

def retentionBytes (value : Option String) : Int :=
  (Config.given value).getD (-1)

section Applied

variable {value : Option String} {cluster : String} {partition : Partition}

/-- The records of a partition can expire if its retention is of at most 18 digits and not negative. It is
rounded down to seconds. -/
theorem retentionSecs_spec (stores : Config.Stores partition.retentionMs (Config.given value))
    (applies : retentionSecs cluster partition = some secs) :
    0 ≤ retentionMs value ∧ retentionMs value < 10 ^ 18 ∧ secs = retentionMs value / 1000 := by
  rw [retentionSecs, ite_none_right_eq_some] at applies
  obtain ⟨-, applies⟩ := applies
  rw [retentionMs]
  generalize partition.retentionMs = stored at applies stores
  generalize Config.given value = number at stores
  cases stores with
  | unset =>
    cases applies
    decide
  | number =>
    simp only [String.toList_ofList, trim_intText, castBigint_intText] at applies
    obtain ⟨guard, applies⟩ := ite_none_right_eq_some.mp applies
    cases applies
    exact ⟨guard.2, (isSignedLimit_intText guard.2).mp guard.1, rfl⟩

theorem retentionSecs_eq (stores : Config.Stores partition.retentionMs (Config.given value))
    (here : partition.cluster = cluster) (expires : deletes partition.cleanupPolicy = true)
    (natural : 0 ≤ retentionMs value) (small : retentionMs value < 10 ^ 18) :
    retentionSecs cluster partition = some (retentionMs value / 1000) := by
  rw [retentionSecs, if_pos ⟨here, expires⟩]
  rw [retentionMs] at natural small ⊢
  generalize partition.retentionMs = stored at stores
  generalize Config.given value = number at stores natural small
  cases stores with
  | unset => rfl
  | number =>
    simp only [String.toList_ofList, trim_intText, castBigint_intText]
    exact if_pos ⟨(isSignedLimit_intText natural).mpr small, natural⟩

theorem cap_spec (stores : Config.Stores partition.retentionBytes (Config.given value))
    (applies : cap cluster partition = some limit) : 0 ≤ limit ∧ limit = retentionBytes value := by
  rw [cap, ite_none_right_eq_some] at applies
  obtain ⟨-, applies⟩ := applies
  rw [retentionBytes]
  generalize partition.retentionBytes = stored at applies stores
  generalize Config.given value = number at stores
  cases stores with
  | unset => cases applies
  | number =>
    rw [bind_some, String.toList_ofList, castBigint_intText] at applies
    obtain ⟨guard, applies⟩ := ite_none_right_eq_some.mp applies
    cases applies
    exact ⟨((isLimit_intText _).mp guard).1, rfl⟩

end Applied

def newerBytes (rows : List Row) (offsetId : Nat) : Nat :=
  ((rows.filter fun other => offsetId < other.offsetId).map Row.bytes).sum

def Row.OlderThan (row : Row) (now retentionMs : Int) : Prop :=
  0 ≤ retentionMs ∧ ∃ timestamp, row.timestamp = some timestamp ∧ now - timestamp > retentionMs * 1000

def Row.Exceeds (row : Row) (stored left : List Row) (limit : Int) : Prop :=
  0 ≤ limit ∧ (∃ newer ∈ stored, row.offsetId < newer.offsetId) ∧ limit < row.bytes + newerBytes left row.offsetId

structure NotEarly (cluster : String) (now retentionMs retentionBytes : Int) (partition : Partition) : Prop where
  removed : ∀ row ∈ partition.rows, row ∉ (policyDelete cluster now partition).rows → row.OlderThan now retentionMs ∨
      row.Exceeds partition.rows (policyDeleteTime cluster now partition).rows retentionBytes
  unlimited : retentionMs < 0 → retentionBytes < 0 → (policyDelete cluster now partition).rows = partition.rows
  newest : ∀ row ∈ (policyDeleteTime cluster now partition).rows,
    (∀ other ∈ (policyDeleteTime cluster now partition).rows, other.offsetId ≤ row.offsetId) →
      row ∈ (policyDelete cluster now partition).rows

section Steps

variable {cluster : String} {now : Int} {partition : Partition} {row : Row}

theorem retentionBytes_policyDeleteTime :
    (policyDeleteTime cluster now partition).retentionBytes = partition.retentionBytes := by
  rw [policyDeleteTime]
  split <;> rfl

theorem mem_of_mem_policyDeleteTime (member : row ∈ (policyDeleteTime cluster now partition).rows) :
    row ∈ partition.rows := by
  rw [policyDeleteTime] at member
  split at member
  next => exact member
  next => exact mem_of_mem_filter member

theorem expired_of_removed (member : row ∈ partition.rows)
    (removed : row ∉ (policyDeleteTime cluster now partition).rows) :
    ∃ secs timestamp, retentionSecs cluster partition = some secs ∧ row.timestamp = some timestamp ∧
      now - timestamp > secs * 1000000 := by
  rw [policyDeleteTime] at removed
  split at removed
  next => exact absurd member removed
  next secs _ found =>
    obtain ⟨_, -, found⟩ := bind_eq_some_iff.mp found
    obtain ⟨secs, applies, ⟨⟩⟩ := map_eq_some_iff.mp found
    simp only [Partition.keep, mem_filter, member, true_and, Bool.not_eq_true', Bool.not_eq_false,
      Bool.and_eq_true, any_eq_true_iff_get, expired, decide_eq_true_eq] at removed
    obtain ⟨-, dated, late⟩ := removed
    exact ⟨secs, row.timestamp.get dated, applies, (some_get dated).symm, late⟩

theorem policyDeleteTime_eq_self (keeps : retentionSecs cluster partition = none) :
    policyDeleteTime cluster now partition = partition := by
  have unbounded : boundary cluster now partition = none := by
    rw [boundary, keeps]
    cases partition.watermark <;> rfl
  rw [policyDeleteTime, unbounded]

theorem filter_offsetId_le {rows : List Row}
    (ordered : rows.Pairwise fun first second => first.offsetId < second.offsetId) (member : row ∈ rows) :
    (rows.filter fun other => row.offsetId ≤ other.offsetId) =
      row :: rows.filter fun other => row.offsetId < other.offsetId := by
  induction rows with
  | nil => cases member
  | cons first rest ih =>
    obtain ⟨later, ordered⟩ := pairwise_cons.mp ordered
    cases member with
    | head =>
      rw [filter_cons_of_pos (by simp), filter_cons_of_neg (by simp)]
      congr 1
      apply filter_congr
      intro other member
      have := later other member
      simp only [decide_eq_decide]
      omega
    | tail _ member =>
      have := later row member
      rw [filter_cons_of_neg (by simpa using this), filter_cons_of_neg (by simp; omega), ih ordered member]

theorem retained_eq (member : row ∈ partition.rows) :
    retained partition.rows row = row.bytes + newerBytes partition.rows row.offsetId := by
  rw [retained, filter_offsetId_le partition.ordered member, map_cons, sum_cons, newerBytes]

theorem exists_newer (member : row ∈ partition.rows) (behind : newest partition.rows row > 1) :
    ∃ newer ∈ partition.rows, row.offsetId < newer.offsetId := by
  rw [newest, filter_offsetId_le partition.ordered member] at behind
  obtain ⟨newer, listed⟩ := exists_mem_of_length_pos (Nat.lt_of_succ_lt_succ behind)
  rw [mem_filter, decide_eq_true_eq] at listed
  exact ⟨newer, listed⟩

theorem exceeds_of_removed (member : row ∈ partition.rows)
    (removed : row ∉ (policyDeleteBytes cluster partition).rows) :
    ∃ limit, cap cluster partition = some limit ∧ (∃ newer ∈ partition.rows, row.offsetId < newer.offsetId) ∧
      limit < row.bytes + newerBytes partition.rows row.offsetId := by
  rw [policyDeleteBytes] at removed
  split at removed
  next => exact absurd member removed
  next limit applies =>
    simp only [Partition.keep, mem_filter, member, true_and, Bool.not_eq_true', Bool.not_eq_false,
      Bool.and_eq_true, decide_eq_true_eq, retained_eq member] at removed
    refine ⟨limit, applies, exists_newer member removed.2, ?_⟩
    exact_mod_cast removed.1

theorem mem_policyDeleteBytes_of_newest (member : row ∈ partition.rows)
    (newest : ∀ other ∈ partition.rows, other.offsetId ≤ row.offsetId) :
    row ∈ (policyDeleteBytes cluster partition).rows := by
  by_contra removed
  obtain ⟨-, -, ⟨newer, listed, later⟩, -⟩ := exceeds_of_removed member removed
  exact absurd (newest newer listed) (Nat.not_le.mpr later)

theorem mem_of_mem_policyDeleteBytes (member : row ∈ (policyDeleteBytes cluster partition).rows) :
    row ∈ partition.rows := by
  rw [policyDeleteBytes] at member
  split at member
  next => exact member
  next => exact mem_of_mem_filter member

theorem policyDeleteBytes_eq_self (keeps : cap cluster partition = none) :
    policyDeleteBytes cluster partition = partition := by
  rw [policyDeleteBytes, keeps]

end Steps

section Retention

variable {msValue bytesValue : Option String} {cluster : String} {now : Int} {partition : Partition}

/-- Rounding to seconds makes no retention shorter that can be applied. -/
def WholeSeconds (retentionMs : Int) : Prop :=
  retentionMs < 0 ∨ 10 ^ 18 ≤ retentionMs ∨ retentionMs % 1000 = 0

theorem notEarly_of_wholeSeconds (storesMs : Config.Stores partition.retentionMs (Config.given msValue))
    (storesBytes : Config.Stores partition.retentionBytes (Config.given bytesValue))
    (whole : WholeSeconds (retentionMs msValue)) :
    NotEarly cluster now (retentionMs msValue) (retentionBytes bytesValue) partition := by
  have storesLeft : Config.Stores (policyDeleteTime cluster now partition).retentionBytes
      (Config.given bytesValue) := by
    rwa [retentionBytes_policyDeleteTime]
  refine ⟨?removed, ?unlimited, ?newest⟩
  case removed =>
    intro row member removed
    by_cases left : row ∈ (policyDeleteTime cluster now partition).rows
    · right
      obtain ⟨_, applies, ⟨newer, listed, later⟩, more⟩ := exceeds_of_removed left removed
      obtain ⟨natural, same⟩ := cap_spec storesLeft applies
      rw [same] at natural more
      exact ⟨natural, ⟨newer, mem_of_mem_policyDeleteTime listed, later⟩, more⟩
    · left
      obtain ⟨secs, timestamp, applies, dated, late⟩ := expired_of_removed member left
      obtain ⟨natural, small, rounded⟩ := retentionSecs_spec storesMs applies
      refine ⟨natural, timestamp, dated, ?_⟩
      rw [WholeSeconds] at whole
      omega
  case unlimited =>
    intro noTime noLimit
    have unexpiring : retentionSecs cluster partition = none := by
      rw [eq_none_iff_forall_ne_some]
      intro secs applies
      exact absurd (retentionSecs_spec storesMs applies).1 (Int.not_le.mpr noTime)
    rw [policyDelete, policyDeleteTime_eq_self unexpiring]
    have uncapped : cap cluster partition = none := by
      rw [eq_none_iff_forall_ne_some]
      intro limit applies
      obtain ⟨natural, same⟩ := cap_spec storesBytes applies
      rw [same] at natural
      exact absurd natural (Int.not_le.mpr noLimit)
    rw [policyDeleteBytes_eq_self uncapped]
  case newest => exact fun row member newest => mem_policyDeleteBytes_of_newest member newest

def dueNow (storedMs storedBytes : Option String) (retentionMs : Int) : Partition where
  cluster := "nisshi"
  cleanupPolicy := none
  retentionMs := storedMs
  retentionBytes := storedBytes
  watermark := some ⟨some 0, some 1⟩
  rows := [⟨0, some (-(retentionMs * 1000)), -(retentionMs * 1000), none, none⟩]
  ordered := List.pairwise_singleton _ _

theorem search_dueNow {row : Row} (first : row.offsetId = 0)
    (late : expired now row.createdAt secs = true) : search [row] now secs 0 1 = 1 := by
  rw [search, dif_pos (by decide)]
  split
  next missing => simp [first] at missing
  next probe found =>
    have same : row = probe := by simpa [first] using found
    subst same
    rw [if_pos late, first, search, dif_neg (by decide)]

/-- The row of `dueNow` is removed when rounding to seconds makes its retention shorter. -/
theorem rows_policyDelete_dueNow {storedMs storedBytes : Option String}
    (stores : Config.Stores storedMs (Config.given msValue)) (rounds : ¬ WholeSeconds (retentionMs msValue)) :
    (policyDelete "nisshi" 0 (dueNow storedMs storedBytes (retentionMs msValue))).rows = [] := by
  have secs : retentionSecs "nisshi" (dueNow storedMs storedBytes (retentionMs msValue)) =
      some (retentionMs msValue / 1000) := by
    rw [WholeSeconds] at rounds
    exact retentionSecs_eq stores rfl deletes_none (by omega) (by omega)
  have late : expired 0 (-(retentionMs msValue * 1000)) (retentionMs msValue / 1000) = true := by
    rw [WholeSeconds] at rounds
    rw [expired, decide_eq_true_eq]
    omega
  have below : boundary "nisshi" 0 (dueNow storedMs storedBytes (retentionMs msValue)) =
      some (retentionMs msValue / 1000, 1) := by
    rw [boundary, secs]
    exact congrArg (fun lo => some (retentionMs msValue / 1000, lo)) (search_dueNow rfl late)
  have gone : (policyDeleteTime "nisshi" 0 (dueNow storedMs storedBytes (retentionMs msValue))).rows = [] := by
    rw [policyDeleteTime, below]
    simp [Partition.keep, dueNow, late]
  rw [eq_nil_iff_forall_not_mem] at gone ⊢
  exact fun row member => gone row (mem_of_mem_policyDeleteBytes member)

theorem not_notEarly_dueNow (stores : Config.Stores storedMs (Config.given msValue))
    (rounds : ¬ WholeSeconds (retentionMs msValue)) :
    ¬ NotEarly "nisshi" 0 (retentionMs msValue) (retentionBytes bytesValue)
      (dueNow storedMs storedBytes (retentionMs msValue)) := by
  intro notEarly
  have gone := @rows_policyDelete_dueNow msValue storedMs storedBytes stores rounds
  have removed := notEarly.removed _ mem_cons_self
  rw [gone] at removed
  rcases removed not_mem_nil with ⟨-, timestamp, dated, late⟩ | ⟨-, ⟨newer, listed, later⟩, -⟩
  · cases dated
    omega
  · cases mem_singleton.mp listed
    exact absurd later (Nat.lt_irrefl 0)

/-- A sweep removes no record before its retention exactly when the retention is negative, too long to be
applied, or a whole number of seconds. -/
theorem removes_none_early_iff (msValue bytesValue storedMs storedBytes : Option String)
    (acceptsMs : Config.validateTopicConfig "retention.ms" msValue = .ok storedMs)
    (acceptsBytes : Config.validateTopicConfig "retention.bytes" bytesValue = .ok storedBytes) :
    (∀ (cluster : String) (now : Int) (partition : Partition),
      partition.retentionMs = storedMs → partition.retentionBytes = storedBytes →
        NotEarly cluster now (retentionMs msValue) (retentionBytes bytesValue) partition) ↔
      WholeSeconds (retentionMs msValue) := by
  have storesMs := Config.stores_of_validateRetention acceptsMs
  have storesBytes := Config.stores_of_validateRetention acceptsBytes
  constructor
  · intro notEarly
    by_contra rounds
    exact not_notEarly_dueNow storesMs rounds (notEarly _ _ (dueNow storedMs storedBytes _) rfl rfl)
  · intro whole cluster now partition sameMs sameBytes
    exact notEarly_of_wholeSeconds (sameMs ▸ storesMs) (sameBytes ▸ storesBytes) whole

theorem removes_none_early_iff_minute :
    Config.validateTopicConfig "retention.ms" (some " 60000 ") = .ok (some "60000") ∧
      Config.validateTopicConfig "retention.bytes" (some "-1") = .ok (some "-1") ∧
      ((∀ (cluster : String) (now : Int) (partition : Partition),
        partition.retentionMs = some "60000" → partition.retentionBytes = some "-1" →
          NotEarly cluster now (retentionMs (some " 60000 ")) (retentionBytes (some "-1")) partition) ↔
        WholeSeconds (retentionMs (some " 60000 "))) := by
  have acceptsMs : Config.validateTopicConfig "retention.ms" (some " 60000 ") = .ok (some "60000") := by
    decide +kernel
  have acceptsBytes : Config.validateTopicConfig "retention.bytes" (some "-1") = .ok (some "-1") := by
    decide +kernel
  exact ⟨acceptsMs, acceptsBytes, removes_none_early_iff _ _ _ _ acceptsMs acceptsBytes⟩

def aged : Partition where
  cluster := "nisshi"
  cleanupPolicy := none
  retentionMs := some "1999"
  retentionBytes := none
  watermark := some ⟨some 0, some 1⟩
  rows := [⟨0, some (-1500000), -1500000, none, some [1]⟩]
  ordered := List.pairwise_singleton _ _

/-- The record of `aged` is removed 499 ms before its retention has passed. -/
theorem sweep_removes_early : Config.validateTopicConfig "retention.ms" (some "1999") = .ok aged.retentionMs ∧
      aged.rows.length = 1 ∧ (policyDelete "nisshi" 0 aged).rows = [] ∧
      ¬ NotEarly "nisshi" 0 (retentionMs (some "1999")) (retentionBytes none) aged := by
  have stored : Config.validateTopicConfig "retention.ms" (some "1999") = .ok aged.retentionMs := by
    decide +kernel
  have gone : (policyDelete "nisshi" 0 aged).rows = [] := by decide +kernel
  refine ⟨stored, rfl, gone, ?_⟩
  intro notEarly
  have removed := notEarly.removed _ mem_cons_self
  rw [gone] at removed
  rcases removed not_mem_nil with ⟨-, timestamp, dated, late⟩ | ⟨-, ⟨newer, listed, later⟩, -⟩
  · cases dated
    exact absurd late (by decide)
  · cases mem_singleton.mp listed
    exact absurd later (Nat.lt_irrefl 0)

end Retention

section Search

/-- The next row of `search`: the middle is computed as a `bigint` and rounded towards zero. -/
def searchStep (rows : List Row) (now retentionSecs : Int) (lo hi : Int) : Option (Int × Int) :=
  if -2 ^ 63 ≤ lo + hi ∧ lo + hi < 2 ^ 63 then
    match rows.find? fun row => (lo + hi).tdiv 2 ≤ row.offsetId ∧ row.offsetId < hi with
    | none => some (lo, (lo + hi).tdiv 2)
    | some probe =>
      if expired now probe.createdAt retentionSecs then some (probe.offsetId + 1, hi) else some (lo, probe.offsetId)
  else none

/-- The recursion of `search` ends, and `boundary` holds the offset. -/
inductive Finds (rows : List Row) (now retentionSecs : Int) : Int → Int → Int → Prop
  | met {lo hi : Int} (met : hi ≤ lo) : Finds rows now retentionSecs lo hi lo
  | next {lo hi lo' hi' found : Int} (apart : lo < hi)
      (step : searchStep rows now retentionSecs lo hi = some (lo', hi'))
      (finds : Finds rows now retentionSecs lo' hi' found) : Finds rows now retentionSecs lo hi found

variable {rows : List Row} {now secs : Int} {lo hi : Nat}

theorem searchStep_eq (apart : lo < hi) (small : hi ≤ 2 ^ 62) : searchStep rows now secs lo hi =
    match rows.find? fun row => (lo + hi) / 2 ≤ row.offsetId ∧ row.offsetId < hi with
    | none => some ((lo : Int), (((lo + hi) / 2 : Nat) : Int))
    | some probe =>
      if expired now probe.createdAt secs then some (((probe.offsetId + 1 : Nat) : Int), (hi : Int))
      else some ((lo : Int), (probe.offsetId : Int)) := by
  have middle : ((lo : Int) + hi).tdiv 2 = ((lo + hi) / 2 : Nat) := by
    rfl
  rw [searchStep, if_pos (by omega), middle]
  simp only [Int.ofNat_le, Int.ofNat_lt]
  rfl

theorem finds_iff_of_lt {lo hi lo' hi' found : Int} (apart : lo < hi)
    (step : searchStep rows now secs lo hi = some (lo', hi')) :
    Finds rows now secs lo hi found ↔ Finds rows now secs lo' hi' found := by
  constructor
  · intro finds
    cases finds with
    | met met => exact absurd met (not_le.mpr apart)
    | next _ step' finds =>
      cases step.symm.trans step'
      exact finds
  · exact .next apart step

theorem finds_iff (small : hi ≤ 2 ^ 62) {found : Int} :
    Finds rows now secs lo hi found ↔ found = search rows now secs lo hi := by
  fun_induction search rows now secs lo hi with
  | case1 lo hi below missing ih =>
    rw [← ih (by omega)]
    refine finds_iff_of_lt (by omega) ?_
    rw [searchStep_eq below small, missing]
  | case2 lo hi below probe probed late ih =>
    rw [← ih small]
    refine finds_iff_of_lt (by omega) ?_
    rw [searchStep_eq below small, probed]
    exact if_pos late
  | case3 lo hi below probe probed early ih =>
    have found := probe_bounds probed
    rw [← ih (by omega)]
    refine finds_iff_of_lt (by omega) ?_
    rw [searchStep_eq below small, probed]
    exact if_neg early
  | case4 lo hi met =>
    constructor
    · intro finds
      cases finds with
      | met => rfl
      | next apart => omega
    · rintro rfl
      exact .met (by omega)

theorem search_bounds (ordered : lo ≤ hi) : lo ≤ search rows now secs lo hi ∧ search rows now secs lo hi ≤ hi := by
  fun_induction search rows now secs lo hi with
  | case1 lo hi below missing ih =>
    omega
  | case2 lo hi below probe probed late ih =>
    have found := probe_bounds probed
    omega
  | case3 lo hi below probe probed early ih =>
    have found := probe_bounds probed
    omega
  | case4 => omega

def Rising (rows : List Row) : Prop :=
  ∀ first ∈ rows, ∀ second ∈ rows, first.offsetId ≤ second.offsetId → first.createdAt ≤ second.createdAt

theorem search_splits (rising : Rising rows) {row : Row} (member : row ∈ rows) (low : lo ≤ row.offsetId)
    (high : row.offsetId < hi) : row.offsetId < search rows now secs lo hi ↔ expired now row.createdAt secs = true := by
  fun_induction search rows now secs lo hi with
  | case1 lo hi below missing ih =>
    have outside := find?_eq_none.mp missing row member
    simp only [decide_eq_true_eq] at outside
    exact ih low (by omega)
  | case2 lo hi below probe probed late ih =>
    have found := probe_bounds probed
    by_cases before : row.offsetId ≤ probe.offsetId
    · have earlier := rising row member probe (mem_of_find?_eq_some probed) before
      have bounds := @search_bounds rows now secs (probe.offsetId + 1) hi (by omega)
      simp only [expired, decide_eq_true_eq] at late ⊢
      omega
    · exact ih (by omega) high
  | case3 lo hi below probe probed early ih =>
    have found := probe_bounds probed
    by_cases before : row.offsetId < probe.offsetId
    · exact ih low before
    · have later := rising probe (mem_of_find?_eq_some probed) row member (by omega)
      have bounds := @search_bounds rows now secs lo probe.offsetId (by omega)
      simp only [expired, decide_eq_true_eq] at early ⊢
      omega
  | case4 => omega

/-- For watermarks up to `2^62`, the search of a sweep ends with one boundary between them. When the append times
do not decrease, it parts the rows that have expired by them from the others. The sweep deletes the rows below
it whose timestamps have expired. -/
theorem sweep_finds_boundary (cluster : String) (now : Int) (partition : Partition) (watermark : Watermark)
    (marked : partition.watermark = some watermark) (secs : Int) (expires : retentionSecs cluster partition = some secs)
    (ordered : watermark.low.getD 0 ≤ watermark.high.getD 0) (small : watermark.high.getD 0 ≤ 2 ^ 62) :
    ∃ found : Nat, (∀ other, Finds partition.rows now secs (watermark.low.getD 0 : Nat)
        (watermark.high.getD 0 : Nat) other ↔ other = found) ∧
      watermark.low.getD 0 ≤ found ∧ found ≤ watermark.high.getD 0 ∧
      (Rising partition.rows → ∀ row ∈ partition.rows, watermark.low.getD 0 ≤ row.offsetId →
        row.offsetId < watermark.high.getD 0 → (row.offsetId < found ↔ expired now row.createdAt secs = true)) ∧
      (policyDeleteTime cluster now partition).rows = partition.rows.filter fun row =>
        !(row.offsetId < found && row.timestamp.any fun timestamp => expired now timestamp secs) := by
  have bounds := @search_bounds partition.rows now secs _ _ ordered
  refine ⟨_, fun other => finds_iff small, bounds.1, bounds.2,
    fun rising row member low high => search_splits rising member low high, ?_⟩
  rw [policyDeleteTime, boundary, marked, expires]
  rfl

def halfAged : Partition where
  cluster := "nisshi"
  cleanupPolicy := none
  retentionMs := some "1000"
  retentionBytes := none
  watermark := some ⟨some 0, some 3⟩
  rows := [⟨0, some (-2500000), -2500000, none, none⟩, ⟨1, some (-2000000), -2000000, none, none⟩,
    ⟨2, some (-500000), -500000, none, none⟩]
  ordered := by decide

theorem sweep_finds_boundary_half_aged : Finds halfAged.rows 0 1 0 3 2 ∧
    (policyDeleteTime "nisshi" 0 halfAged).rows = halfAged.rows.filter fun row =>
      !(row.offsetId < 2 && row.timestamp.any fun timestamp => expired 0 timestamp 1) := by
  obtain ⟨found, finds, -, -, splits, deleted⟩ := sweep_finds_boundary "nisshi" 0 halfAged ⟨some 0, some 3⟩ rfl 1
    (by decide +kernel) (by decide) (by decide)
  have rising : Rising halfAged.rows := by
    unfold Rising
    decide
  have second := splits rising ⟨1, some (-2000000), -2000000, none, none⟩ (by decide) (by decide) (by decide)
  have third := splits rising ⟨2, some (-500000), -500000, none, none⟩ (by decide) (by decide) (by decide)
  obtain rfl : found = 2 := by
    have above : 1 < found := second.mpr (by decide)
    have below : ¬ 2 < found := third.not.mpr (by decide)
    omega
  exact ⟨(finds 2).mpr rfl, deleted⟩

/-- The sum of two watermarks above `2^62` is no `bigint`, and the sweep fails. -/
theorem search_overflows : ¬∃ found, Finds [] 0 1 (2 ^ 62) (2 ^ 62 + 1) found := by
  rintro ⟨found, finds⟩
  cases finds with
  | met met => exact absurd met (by decide)
  | next _ step => cases step

end Search

end Nisshi.Postgres.Retention
