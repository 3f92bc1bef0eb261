import Nisshi.Lib.Decimal
import Nisshi.SansIo.ErrorCode
import Mathlib.Data.Finset.Dedup
import Mathlib.Data.Finset.Insert

/-! The values that the broker accepts for a topic configuration, and what it stores for them. A configuration that is
a list is also changed item by item. -/

namespace Nisshi.Storage.Config

open Nisshi.Lib.Decimal Nisshi.SansIo Option

/-- `char::is_whitespace`: the characters with the property `White_Space`. -/
def isWhitespace (c : Char) : Bool :=
  (0x9 ≤ c.toNat ∧ c.toNat ≤ 0xd) ∨ (0x2000 ≤ c.toNat ∧ c.toNat ≤ 0x200a) ∨
    c.toNat ∈ [0x20, 0x85, 0xa0, 0x1680, 0x2028, 0x2029, 0x202f, 0x205f, 0x3000]

def trim (text : List Char) : List Char :=
  ((text.dropWhile isWhitespace).reverse.dropWhile isWhitespace).reverse

def parseI64 (text : List Char) : Option Int :=
  (readInt text).filter fun n => -2 ^ 63 ≤ n ∧ n < 2 ^ 63

def defaultRetention : Nat :=
  7 * 24 * 60 * 60

namespace MessageTimestampType

def key : String :=
  "message.timestamp.type"

/-- `message_timestamp_type::parse`, of which only the error is used here. -/
def parse (configured : String) : Except String Unit :=
  let trimmed := String.ofList (trim configured.toList)
  if trimmed = "CreateTime" ∨ trimmed = "LogAppendTime" then .ok ()
  else .error s!"Invalid value {trimmed} for configuration {key}: String must be one of: CreateTime, LogAppendTime"

end MessageTimestampType

def invalidValue (value key reason : String) : String :=
  s!"Invalid value {value} for configuration {key}: {reason}"

/-- A retention configuration: a long, of at least `minimum`. The plain number is stored. -/
def validateRetention (key : String) (minimum : Option Int) : Option String → Except String (Option String)
  | none => .ok none
  | some value =>
    match parseI64 (trim value.toList), minimum with
    | none, _ => .error (invalidValue value key "Not a number of type LONG")
    | some number, some minimum =>
      if number < minimum then
        .error (invalidValue value key s!"Value must be at least {minimum}")
      else .ok (some (String.ofList (intText number)))
    | some number, none => .ok (some (String.ofList (intText number)))

def validateTopicConfig (key : String) (value : Option String) : Except String (Option String) :=
  if key = MessageTimestampType.key then
    match value with
    | none => .ok none
    | some value =>
      (MessageTimestampType.parse value).map fun _ => some (String.ofList (trim value.toList))
  else if key = "retention.bytes" then validateRetention key none value
  else if key = "retention.ms" then validateRetention key (some (-1)) value
  else .ok value

/-- What is stored for a retention configuration is nothing, or the text of the number that was given. -/
inductive Stores : Option String → Option Int → Prop
  | unset : Stores none none
  | number (n : Int) : Stores (some (String.ofList (intText n))) (some n)

def given (value : Option String) : Option Int :=
  value.bind fun value => parseI64 (trim value.toList)

theorem stores_of_validateRetention {minimum : Option Int} (ok : validateRetention key minimum value = .ok stored) :
    Stores stored (given value) := by
  cases value with
  | none =>
    cases ok
    exact .unset
  | some value =>
    rw [given, bind_some]
    cases parsed : parseI64 (trim value.toList) with
    | none => simp [validateRetention, parsed] at ok
    | some number =>
      cases minimum with
      | none =>
        simp only [validateRetention, parsed] at ok
        cases ok
        exact .number number
      | some =>
        simp only [validateRetention, parsed] at ok
        split at ok
        next => cases ok
        next =>
          cases ok
          exact .number number

inductive ConfigResource where
  | group
  | clientMetric
  | brokerLogger
  | broker
  | topic
  | unknown
  deriving DecidableEq

inductive OpType where
  | set
  | delete
  | append
  | subtract

def topicListConfigs : List String :=
  ["cleanup.policy", "leader.replication.throttled.replicas", "follower.replication.throttled.replicas"]

def isListConfig (resource : ConfigResource) (key : String) : Bool :=
  resource = .topic ∧ key ∈ topicListConfigs

section Items

variable [DecidableEq α]

/-- The loop of `APPEND`, which keeps the set of the items that are present. -/
def append : (items : List α) → (present : Finset α) → (changes : List α) → List α
  | items, _, [] => items
  | items, present, item :: changes =>
    if item ∈ present then append items present changes
    else append (items ++ [item]) (insert item present) changes

def removals (changes : List α) : α → Nat :=
  changes.foldl (fun removals item => Function.update removals item (removals item + 1)) fun _ => 0

def retain : (α → Nat) → List α → List α
  | _, [] => []
  | removals, item :: items =>
    if 0 < removals item then retain (Function.update removals item (removals item - 1)) items
    else item :: retain removals items

def subtract (items changes : List α) : List α :=
  retain (removals changes) items

/-- One item of `APPEND`, as Kafka adds it. -/
def added (items : List α) (item : α) : List α :=
  if item ∈ items then items else items ++ [item]

theorem append_eq {present : Finset α} (same : ∀ item, item ∈ present ↔ item ∈ items) :
    append items present changes = changes.foldl added items := by
  induction changes generalizing items present with
  | nil => rfl
  | cons change changes ih =>
    rw [append, List.foldl_cons, added]
    by_cases held : change ∈ items
    · rw [if_pos held, if_pos ((same change).mpr held)]
      exact ih same
    · rw [if_neg held, if_neg fun mem => held ((same change).mp mem)]
      apply ih
      intro item
      rw [Finset.mem_insert, same, List.mem_append, List.mem_singleton, or_comm]

theorem retain_zero (items : List α) : retain (fun _ => 0) items = items := by
  induction items with
  | nil => rfl
  | cons item items ih => rw [retain, if_neg (lt_irrefl 0), ih]

/-- One more removal of an item is the removal of its first occurrence. -/
theorem retain_succ [BEq α] [LawfulBEq α] (removals : α → Nat) (change : α) (items : List α) :
    retain (Function.update removals change (removals change + 1)) items = retain removals (items.erase change) := by
  induction items generalizing removals with
  | nil => rfl
  | cons item items ih =>
    by_cases same : item = change
    · subst same
      simp [retain]
    · rw [List.erase_cons_tail (by simpa using same), retain, retain, Function.update_of_ne same]
      split
      next =>
        rw [← ih, Function.update_comm same, Function.update_of_ne (Ne.symm same)]
      next => rw [ih]

theorem subtract_eq [BEq α] [LawfulBEq α] (items changes : List α) :
    subtract items changes = changes.foldl List.erase items := by
  suffices rounds : ∀ counted : α → Nat,
      retain (changes.foldl (fun removals item => Function.update removals item (removals item + 1)) counted) items =
        retain counted (changes.foldl List.erase items) from
    (rounds _).trans (retain_zero _)
  induction changes with
  | nil =>
    intro counted
    rfl
  | cons change changes ih =>
    intro counted
    rw [List.foldl_cons, ih, retain_succ, ← List.diff_eq_foldl, ← List.diff_eq_foldl, List.diff_cons_right]

end Items

def items (text : String) : List (List Char) :=
  (text.toList.splitOn ',').filter (· ≠ [])

def join (items : List (List Char)) : String :=
  String.ofList ([','].intercalate items)

def defaultCleanupPolicy : String :=
  "delete"

def listDefault (key : String) : String :=
  if key = "cleanup.policy" then defaultCleanupPolicy else ""

def applyOp (resource : ConfigResource) (key : String) (current : Option String) (op : OpType) (value : Option String) :
    Except ErrorCode (Option String) :=
  let alter edit :=
    if isListConfig resource key then
      .ok (some (join (edit (items (current.getD (listDefault key))) (items (value.getD "")))))
    else .error .invalidConfig
  match op with
  | .set => .ok value
  | .delete => .ok none
  | .append => alter fun items => append items items.toFinset
  | .subtract => alter subtract

/-- `APPEND` and `SUBTRACT` give what Kafka gives, whose updates go item by item. -/
theorem list_ops_edit_one_by_one (resource : ConfigResource) (key : String) (current value : Option String)
    (list : isListConfig resource key) :
    applyOp resource key current .append value =
        .ok (some (join ((items (value.getD "")).foldl added (items (current.getD (listDefault key)))))) ∧
      applyOp resource key current .subtract value =
        .ok (some (join ((items (value.getD "")).foldl List.erase (items (current.getD (listDefault key)))))) := by
  constructor
  · rw [← append_eq fun _ => List.mem_toFinset]
    exact if_pos list
  · rw [← subtract_eq]
    exact if_pos list

theorem list_ops_edit_one_by_one_repeated :
    isListConfig .topic "cleanup.policy" ∧
      applyOp .topic "cleanup.policy" (some "a,b,,a,a") .append (some "c,a,c") = .ok (some "a,b,a,a,c") ∧
      applyOp .topic "cleanup.policy" (some "a,b,,a,a") .subtract (some "a,c,,a") = .ok (some "b,a") := by
  refine ⟨by decide, ?_, ?_⟩
  · rw [(list_ops_edit_one_by_one .topic _ (some "a,b,,a,a") (some "c,a,c") (by decide)).1]
    exact congrArg (Except.ok ∘ some) (by decide +kernel)
  · rw [(list_ops_edit_one_by_one .topic _ (some "a,b,,a,a") (some "a,c,,a") (by decide)).2]
    exact congrArg (Except.ok ∘ some) (by decide +kernel)

end Nisshi.Storage.Config
