import Mathlib.Algebra.BigOperators.Group.List.Lemmas
import Mathlib.Data.List.Sort
import Mathlib.Data.List.Dedup
import Mathlib.Data.String.Basic
import Nisshi.Lib.Traverse
import Mathlib.Algebra.GroupWithZero.Nat

/-! The range and round-robin assignors of the consumer protocol: which member of a group gets which
partitions of the topics that the members subscribe to. -/

namespace Nisshi.SansIo.Consumer

open Nisshi.Lib Option Function

structure JoinGroupResponseMember where
  memberId : String
  metadata : List UInt8

structure SyncGroupRequestAssignment where
  memberId : String
  assignment : List UInt8
deriving DecidableEq

structure TopicPartition where
  topic : String
  partitions : List Int
deriving DecidableEq

structure MetadataResponseTopic where
  name : Option String
  /-- The `partition_index` of each partition. -/
  partitions : Option (List Int)

structure MetadataResponse where
  topics : Option (List MetadataResponseTopic)

/-- The bytes of the consumer protocol: the topics of a `MemberMetadata`, and a `MemberAssignment`. -/
structure Protocol where
  subscription : List UInt8 → Option (List String)
  assignment : List TopicPartition → Option (List UInt8)

def sortedSet [DecidableEq α] (r : α → α → Prop) [DecidableRel r] (elements : List α) : List α :=
  (elements.insertionSort r).dedup

/-- A member, the topics of its subscription and what it has been given so far. -/
structure Seat (α : Type) where
  member : JoinGroupResponseMember
  topics : List String
  given : List α

namespace Seat

variable {α : Type}

def push (seat : Seat α) (item : α) : Seat α :=
  { seat with given := seat.given ++ [item] }

def who (seat : Seat α) : JoinGroupResponseMember × List String :=
  (seat.member, seat.topics)

def held (name : String) (seat : Seat TopicPartition) : List Int :=
  (seat.given.filter (·.topic = name)).flatMap (·.partitions)

def size (seat : Seat TopicPartition) : Nat :=
  (seat.given.map (·.partitions.length)).sum

end Seat

def sorted (members : List JoinGroupResponseMember) : List JoinGroupResponseMember :=
  members.insertionSort (·.memberId ≤ ·.memberId)

def memberSubs (protocol : Protocol) (members : List JoinGroupResponseMember) : Option (List (Seat α)) :=
  (sorted members).mapM fun member =>
    (protocol.subscription member.metadata).map fun topics => { member, topics, given := [] }

def Protocol.sync (protocol : Protocol) (seat : Seat TopicPartition) : Option SyncGroupRequestAssignment :=
  (protocol.assignment seat.given).map fun assignment => { memberId := seat.member.memberId, assignment }

namespace RangeAssignor

def count (allocation remainder j : Nat) : Nat :=
  allocation + if j < remainder then 1 else 0

def hand (name : String) (count : Nat) (assigned : List Int) (seat : Seat TopicPartition) : Seat TopicPartition :=
  if count = 0 then seat else seat.push { topic := name, partitions := assigned }

/-- The loop over the members that subscribe to a topic, as one walk over all of them: `j` counts the
subscribed ones that came before, and `offset` the partitions they were given. -/
def deal (name : String) (partitions : List Int) (allocation remainder : Nat) :
    List (Seat TopicPartition) → Nat → Nat → List (Seat TopicPartition)
  | [], _, _ => []
  | seat :: rest, j, offset =>
    if name ∈ seat.topics then
      let count := count allocation remainder j
      hand name count ((partitions.drop offset).take count) seat ::
        deal name partitions allocation remainder rest (j + 1) (offset + count)
    else seat :: deal name partitions allocation remainder rest j offset

def dealTopic (seats : List (Seat TopicPartition)) (topic : MetadataResponseTopic) : List (Seat TopicPartition) :=
  match topic.name with
  | none => seats
  | some name =>
    let subscribed := seats.countP (name ∈ ·.topics)
    if subscribed = 0 then seats
    else
      let partitions := sortedSet (· ≤ ·) (topic.partitions.getD [])
      deal name partitions (partitions.length / subscribed) (partitions.length % subscribed) seats 0 0

def assign (protocol : Protocol) (members : List JoinGroupResponseMember) (metadata : MetadataResponse) :
    Option (List SyncGroupRequestAssignment) := do
  let seats ← memberSubs protocol members
  ((metadata.topics.getD []).foldl dealTopic seats).mapM protocol.sync

end RangeAssignor

structure Topition where
  topic : String
  partition : Int
deriving DecidableEq

def Topition.le (a b : Topition) : Prop :=
  a.topic < b.topic ∨ a.topic = b.topic ∧ a.partition ≤ b.partition

instance : DecidableRel Topition.le := fun _ _ => inferInstanceAs (Decidable (_ ∨ _))

def MetadataResponseTopic.topitions (topic : MetadataResponseTopic) : List Topition :=
  match topic.name with
  | none => []
  | some name => (topic.partitions.getD []).map fun partition => { topic := name, partition }

def topitions (metadata : MetadataResponse) : List Topition :=
  sortedSet Topition.le ((metadata.topics.getD []).flatMap (·.topitions))

namespace RoundRobinAssignor

def offer (topition : Topition) : Nat → Nat × List (Seat Topition) → Nat × List (Seat Topition)
  | 0, state => state
  | tries + 1, (counter, seats) =>
    match seats[counter % seats.length]? with
    | none => (counter, seats)
    | some seat =>
      if topition.topic ∈ seat.topics then
        (counter + 1, seats.set (counter % seats.length) (seat.push topition))
      else offer topition tries (counter + 1, seats)

def place (state : Nat × List (Seat Topition)) (topition : Topition) : Nat × List (Seat Topition) :=
  offer topition state.2.length state

def grouped (seat : Seat Topition) : Seat TopicPartition :=
  { seat with
    given := (sortedSet (· ≤ ·) (seat.given.map (·.topic))).map fun topic =>
      { topic, partitions := (seat.given.filter (·.topic = topic)).map (·.partition) } }

def assign (protocol : Protocol) (members : List JoinGroupResponseMember) (metadata : MetadataResponse) :
    Option (List SyncGroupRequestAssignment) := do
  let seats ← memberSubs protocol members
  (((topitions metadata).foldl place (0, seats)).2.map grouped).mapM protocol.sync

end RoundRobinAssignor

section Metadata

variable (metadata : MetadataResponse)

def names : List String :=
  (metadata.topics.getD []).filterMap (·.name)

def partitionsOf (name : String) : List Int :=
  sortedSet (· ≤ ·)
    ((metadata.topics.getD []).flatMap fun topic =>
      if topic.name = some name then topic.partitions.getD [] else [])

end Metadata

/-- Every member has a seat with its subscription; the partitions of a topic that has a subscriber are
shared out among the seats, each to exactly one of them; nobody is given a topic it does not subscribe to. -/
structure Assigns (protocol : Protocol) (members : List JoinGroupResponseMember)
    (metadata : MetadataResponse) (seats : List (Seat TopicPartition)) : Prop where
  members : (seats.map (·.member)).Perm members
  subscribed : ∀ seat ∈ seats, protocol.subscription seat.member.metadata = some seat.topics
  exactly : ∀ name, (∃ seat ∈ seats, name ∈ seat.topics) →
    (seats.flatMap (Seat.held name)).Perm (partitionsOf metadata name)
  only : ∀ seat ∈ seats, ∀ given ∈ seat.given, given.topic ∈ seat.topics

theorem partitionsOf_eq {topic : MetadataResponseTopic} (present : topic ∈ metadata.topics.getD [])
    (named : topic.name = some name)
    (distinct : (names metadata).Nodup) :
    partitionsOf metadata name = sortedSet (· ≤ ·) (topic.partitions.getD []) := by
  rw [names] at distinct
  rw [partitionsOf]
  generalize metadata.topics.getD [] = topics at present distinct
  induction topics with
  | nil => cases present
  | cons first rest ih =>
    rw [List.flatMap_cons]
    by_cases same : first.name = some name
    · rw [List.filterMap_cons_some same, List.nodup_cons] at distinct
      have absent : ∀ other ∈ rest, other.name ≠ some name := fun other among equal =>
        distinct.1 (List.mem_filterMap.mpr ⟨other, among, equal⟩)
      obtain rfl | later := List.mem_cons.mp present
      · rw [if_pos same, List.flatMap_eq_nil_iff.mpr fun other among => if_neg (absent other among), List.append_nil]
      · exact absurd named (absent topic later)
    · obtain rfl | later := List.mem_cons.mp present
      · exact absurd named same
      · rw [if_neg same, List.nil_append, ih later (distinct.sublist ((List.sublist_cons_self _ _).filterMap _))]

section SortedSet

variable [DecidableEq α] {r : α → α → Prop} [DecidableRel r] {elements : List α}

theorem mem_sortedSet : a ∈ sortedSet r elements ↔ a ∈ elements := by
  rw [sortedSet, List.mem_dedup, List.mem_insertionSort]

theorem nodup_sortedSet : (sortedSet r elements).Nodup :=
  List.nodup_dedup _

end SortedSet

section Members

variable {members : List JoinGroupResponseMember}

private theorem pairwise_sorted (members : List JoinGroupResponseMember) :
    (sorted members).Pairwise (·.memberId ≤ ·.memberId) :=
  have : Std.Total fun a b : JoinGroupResponseMember => a.memberId ≤ b.memberId :=
    ⟨fun a b => le_total a.memberId b.memberId⟩
  have : IsTrans JoinGroupResponseMember (·.memberId ≤ ·.memberId) :=
    ⟨fun _ _ _ first second => le_trans first second⟩
  List.pairwise_insertionSort _ members

theorem sorted_eq_of_perm (distinct : (members.map (·.memberId)).Nodup) (perm : others.Perm members) :
    sorted others = sorted members := by
  have same := List.perm_insertionSort (·.memberId ≤ ·.memberId) members
  have moved := (List.perm_insertionSort (·.memberId ≤ ·.memberId) others).trans perm
  refine List.Perm.eq_of_pairwise (fun a b first second le ge => ?_) (pairwise_sorted _)
    (pairwise_sorted _) (moved.trans same.symm)
  exact List.inj_on_of_nodup_map distinct (moved.mem_iff.mp first) (same.mem_iff.mp second) (le_antisymm le ge)

def Protocol.seat (protocol : Protocol) (member : JoinGroupResponseMember) : Seat α where
  member := member
  topics := (protocol.subscription member.metadata).getD []
  given := []

variable {protocol : Protocol}
  (decoded : ∀ member ∈ members, (protocol.subscription member.metadata).isSome)
include decoded

theorem memberSubs_eq :
    (memberSubs protocol members : Option (List (Seat α))) = some ((sorted members).map protocol.seat) := by
  refine mapM_eq_map fun member seated => ?_
  obtain ⟨_, found⟩ := isSome_iff_exists.mp (decoded member ((List.mem_insertionSort _).mp seated))
  rw [Protocol.seat, found]
  rfl

theorem seats_of_who {seats : List (Seat α)} (distinct : (members.map (·.memberId)).Nodup)
    (who : seats.map Seat.who = (sorted members).map fun member => (protocol.seat member : Seat α).who) :
    (seats.map (·.member)).Perm members ∧
      (∀ seat ∈ seats, protocol.subscription seat.member.metadata = some seat.topics) ∧
      seats.Pairwise (·.member.memberId < ·.member.memberId) := by
  have perm := List.perm_insertionSort (·.memberId ≤ ·.memberId) members
  have order : seats.map (·.member) = sorted members := by
    have firsts := congrArg (List.map Prod.fst) who
    rw [List.map_map, List.map_map] at firsts
    exact firsts.trans (List.map_id _)
  refine ⟨order ▸ perm, fun seat seated => ?_, ?_⟩
  · have among := List.mem_map_of_mem (f := Seat.who) seated
    rw [who] at among
    obtain ⟨_, there, same⟩ := List.mem_map.mp among
    obtain ⟨rfl, topics⟩ := Prod.mk.inj same
    obtain ⟨_, read⟩ := isSome_iff_exists.mp (decoded _ (perm.mem_iff.mp there))
    rw [← topics]
    change _ = some ((protocol.subscription _).getD [])
    rw [read]
    rfl
  · have ascending := pairwise_sorted members
    have different : (sorted members).Pairwise (·.memberId ≠ ·.memberId) :=
      List.pairwise_map.mp ((perm.map _).nodup_iff.mpr distinct)
    rw [← order, List.pairwise_map] at ascending different
    exact (ascending.and different).imp fun both => lt_of_le_of_ne both.1 both.2

end Members

namespace Seat

variable {α : Type} {topicOf : α → String} {p q r : String → Prop} {before after : List (Seat α)}

/-- What a seat is when it has been given more: items of topics that its member subscribes to, and which
satisfy `p`. -/
structure Grows (topicOf : α → String) (p : String → Prop) (before after : Seat α) : Prop where
  who : after.who = before.who
  given : ∃ more, after.given = before.given ++ more ∧ ∀ item ∈ more, p (topicOf item) ∧ topicOf item ∈ before.topics

theorem Grows.refl (seat : Seat α) : Grows topicOf p seat seat :=
  ⟨rfl, [], (List.append_nil _).symm, fun _ => nofun⟩

theorem Grows.push {seat : Seat α} (subscribes : topicOf item ∈ seat.topics)
    (holds : p (topicOf item)) : Grows topicOf p seat (seat.push item) :=
  ⟨rfl, [item], rfl, List.forall_mem_singleton.mpr ⟨holds, subscribes⟩⟩

theorem Grows.trans (one : Grows topicOf p first second)
    (two : Grows topicOf q second third) (left : ∀ name, p name → r name) (right : ∀ name, q name → r name) :
    Grows topicOf r first third := by
  obtain ⟨who, more, given, all⟩ := one
  obtain ⟨same, later, added, rest⟩ := two
  refine ⟨same.trans who, more ++ later, by rw [added, given, List.append_assoc], ?_⟩
  refine List.forall_mem_append.mpr ⟨fun item among => ?_, fun item among => ?_⟩
  · exact ⟨left _ (all item among).1, (all item among).2⟩
  · exact ⟨right _ (rest item among).1, (Prod.mk.inj who).2 ▸ (rest item among).2⟩

theorem grows_refl (seats : List (Seat α)) : List.Forall₂ (Grows topicOf p) seats seats :=
  List.forall₂_same.mpr fun seat _ => .refl seat

theorem grows_foldl {σ β : Type} {f : σ → β → σ} {p : β → String → Prop} (seatsOf : σ → List (Seat α))
    (step : ∀ state item, List.Forall₂ (Grows topicOf (p item)) (seatsOf state) (seatsOf (f state item)))
    (items : List β) (state : σ) :
    List.Forall₂ (Grows topicOf fun name => ∃ item ∈ items, p item name) (seatsOf state)
      (seatsOf (items.foldl f state)) := by
  induction items generalizing state with
  | nil => exact grows_refl _
  | cons item rest ih =>
    have first := step state item
    have second := ih (f state item)
    rw [List.foldl_cons]
    generalize seatsOf state = start, seatsOf (f state item) = middle, seatsOf (rest.foldl f (f state item)) = last
      at first second
    induction first generalizing last with
    | nil =>
      cases second
      exact .nil
    | cons here _ later =>
      cases second with
      | cons there others =>
        exact .cons (here.trans there (fun name holds => ⟨item, List.mem_cons_self, holds⟩)
          fun name ⟨other, among, holds⟩ => ⟨other, List.mem_cons_of_mem _ among, holds⟩) (later _ others)

theorem who_of_grows (grows : List.Forall₂ (Grows topicOf p) before after) : after.map who = before.map who := by
  induction grows with
  | nil => rfl
  | cons here _ ih => rw [List.map_cons, List.map_cons, here.who, ih]

theorem only_of_grows (grows : List.Forall₂ (Grows topicOf p) before after) (fresh : ∀ seat ∈ before, seat.given = []) :
    ∀ seat ∈ after, ∀ item ∈ seat.given, topicOf item ∈ seat.topics := by
  refine forall_mem_of_forall₂ grows fun old among seat here item given => ?_
  obtain ⟨_, same, all⟩ := here.given
  rw [same, fresh old among] at given
  exact (Prod.mk.inj here.who).2 ▸ (all item given).2

theorem subscriber_of_who {name : String} {after : List (Seat β)}
    (same : after.map who = before.map who) (subscriber : ∃ seat ∈ before, name ∈ seat.topics) :
    ∃ seat ∈ after, name ∈ seat.topics := by
  obtain ⟨_, seated, topic⟩ := subscriber
  have moved := List.mem_map_of_mem (f := who) seated
  rw [← same] at moved
  obtain ⟨now, among, equal⟩ := List.mem_map.mp moved
  exact ⟨now, among, (Prod.mk.inj equal).2 ▸ topic⟩

theorem Grows.held {name : String} (grows : Grows (·.topic) p seat now)
    (other : ¬ p name) : now.held name = seat.held name := by
  obtain ⟨more, same, all⟩ := grows.given
  have none : more.filter (·.topic = name) = [] := List.filter_eq_nil_iff.mpr fun item among equal =>
    other (of_decide_eq_true equal ▸ (all item among).1)
  rw [Seat.held, same, List.filter_append, none, List.append_nil, Seat.held]

end Seat

namespace RangeAssignor

variable {name : String} {partitions : List Int} {allocation remainder : Nat}
  {seats : List (Seat TopicPartition)} {j offset : Nat}

theorem held_hand (name : String) (count : Nat) (assigned : List Int) (seat : Seat TopicPartition) :
    (hand name count (assigned.take count) seat).held name = seat.held name ++ assigned.take count := by
  rw [hand]
  split
  next none => rw [none, List.take_zero, List.append_nil]
  next => simp [Seat.held, Seat.push, List.filter_append]

theorem grows_deal : List.Forall₂ (Seat.Grows (·.topic) (· = name)) seats
    (deal name partitions allocation remainder seats j offset) := by
  induction seats generalizing j offset with
  | nil => exact .nil
  | cons seat _ ih =>
    rw [deal]
    split
    next subscribes =>
      refine .cons ?_ ih
      rw [hand]
      split
      exacts [.refl seat, .push subscribes rfl]
    next => exact .cons (.refl seat) ih

/-- The partitions that are left when a member's turn comes are those the members from it on will get. -/
theorem held_deal (fresh : ∀ seat ∈ seats, seat.held name = [])
    (turn : j + seats.countP (name ∈ ·.topics) = subscribed) (few : remainder < subscribed)
    (left : partitions.length = offset + allocation * seats.countP (name ∈ ·.topics) + (remainder - j)) :
    (deal name partitions allocation remainder seats j offset).flatMap (Seat.held name) = partitions.drop offset ∧
      ∀ seat ∈ deal name partitions allocation remainder seats j offset, name ∈ seat.topics →
        allocation ≤ (seat.held name).length ∧ (seat.held name).length ≤ allocation + 1 := by
  induction seats generalizing j offset with
  | nil =>
    rw [List.countP_nil] at turn left
    refine ⟨(List.drop_eq_nil_of_le (by omega)).symm, fun seat dealt => ?_⟩
    cases dealt
  | cons seat rest ih =>
    obtain ⟨empty, later⟩ := List.forall_mem_cons.mp fresh
    rw [deal]
    by_cases subscribes : name ∈ seat.topics
    · rw [List.countP_cons_of_pos (by simpa using subscribes), Nat.mul_add] at left
      rw [List.countP_cons_of_pos (by simpa using subscribes)] at turn
      rw [if_pos subscribes]
      generalize counted : count allocation remainder j = size
      rw [count] at counted
      obtain ⟨tail, sizes⟩ := @ih (j + 1) (offset + size) later (by omega) (by split at counted <;> omega)
      have given := held_hand name size (partitions.drop offset) seat
      rw [empty, List.nil_append] at given
      refine ⟨?_, List.forall_mem_cons.mpr ⟨fun _ => ?_, sizes⟩⟩
      · rw [List.flatMap_cons, given, tail, ← List.drop_drop, List.take_append_drop]
      · rw [given, List.length_take, List.length_drop]
        split at counted <;> omega
    · rw [List.countP_cons_of_neg (by simpa using subscribes)] at turn left
      rw [if_neg subscribes]
      obtain ⟨tail, sizes⟩ := ih later turn left
      refine ⟨?_, List.forall_mem_cons.mpr ⟨fun topic => absurd topic subscribes, sizes⟩⟩
      rw [List.flatMap_cons, empty, tail, List.nil_append]

variable {topic : MetadataResponseTopic} {topics : List MetadataResponseTopic}

theorem grows_dealTopic (seats : List (Seat TopicPartition)) (topic : MetadataResponseTopic) :
    List.Forall₂ (Seat.Grows (·.topic) (topic.name = some ·)) seats (dealTopic seats topic) := by
  rw [dealTopic]
  split
  · exact Seat.grows_refl seats
  next named =>
    dsimp only
    split
    · exact Seat.grows_refl seats
    · exact grows_deal.imp fun _ _ grows => ⟨grows.who, grows.given.imp fun more both =>
        ⟨both.1, fun item among => ⟨by rw [(both.2 item among).1, named], (both.2 item among).2⟩⟩⟩

theorem grows_foldl (topics : List MetadataResponseTopic) (seats : List (Seat TopicPartition)) :
    List.Forall₂ (Seat.Grows (·.topic) fun name => ∃ topic ∈ topics, topic.name = some name) seats
      (topics.foldl dealTopic seats) :=
  Seat.grows_foldl id grows_dealTopic topics seats

/-- The partitions of a topic that the members hold, in the members' order, are those of the list, and no
member that subscribes to it has more than one more of them than another. -/
structure Dealt (name : String) (partitions : List Int) (seats : List (Seat TopicPartition)) : Prop where
  contiguous : seats.flatMap (Seat.held name) = partitions
  balanced : ∀ seat ∈ seats, name ∈ seat.topics → ∀ other ∈ seats, name ∈ other.topics →
    (seat.held name).length ≤ (other.held name).length + 1

theorem dealt_dealTopic (named : topic.name = some name) (fresh : ∀ seat ∈ seats, seat.held name = [])
    (subscriber : ∃ seat ∈ seats, name ∈ seat.topics) :
    Dealt name (sortedSet (· ≤ ·) (topic.partitions.getD [])) (dealTopic seats topic) := by
  obtain ⟨seat, seated, subscribes⟩ := subscriber
  have some : 0 < seats.countP (name ∈ ·.topics) :=
    List.countP_pos_iff.mpr ⟨seat, seated, by simpa using subscribes⟩
  rw [dealTopic, named]
  dsimp only
  rw [if_neg (Nat.ne_of_gt some)]
  generalize sortedSet (· ≤ ·) (topic.partitions.getD []) = partitions
  have total := Nat.div_add_mod' partitions.length (seats.countP (name ∈ ·.topics))
  have whole : partitions.length = 0 + partitions.length / seats.countP (name ∈ ·.topics) *
      seats.countP (name ∈ ·.topics) + (partitions.length % seats.countP (name ∈ ·.topics) - 0) := by
    rw [Nat.zero_add, Nat.sub_zero, total]
  obtain ⟨all, sizes⟩ := held_deal fresh (Nat.zero_add _) (Nat.mod_lt partitions.length some) whole
  refine ⟨by rw [all, List.drop_zero], fun first among topic second rest also => ?_⟩
  have := sizes first among topic
  have := sizes second rest also
  omega

theorem Dealt.transfer {p : String → Prop} (dealt : Dealt name partitions before) (other : ¬ p name)
    (grows : List.Forall₂ (Seat.Grows (·.topic) p) before after) : Dealt name partitions after := by
  refine ⟨?_, fun first among topic second rest also => ?_⟩
  · rw [← dealt.contiguous]
    clear dealt
    induction grows with
    | nil => rfl
    | cons here _ ih => rw [List.flatMap_cons, List.flatMap_cons, here.held other, ih]
  · obtain ⟨one, there, here⟩ := exists_left_of_forall₂ grows among
    obtain ⟨two, seated, now⟩ := exists_left_of_forall₂ grows rest
    rw [here.held other, now.held other]
    exact dealt.balanced one there ((Prod.mk.inj here.who).2 ▸ topic) two seated ((Prod.mk.inj now.who).2 ▸ also)

theorem dealt_foldl (topic : MetadataResponseTopic) (present : topic ∈ topics) (named : topic.name = some name)
    (distinct : (topics.filterMap (·.name)).Nodup) (fresh : ∀ seat ∈ seats, seat.held name = [])
    (subscriber : ∃ seat ∈ seats, name ∈ seat.topics) :
    Dealt name (sortedSet (· ≤ ·) (topic.partitions.getD [])) (topics.foldl dealTopic seats) := by
  induction topics generalizing seats with
  | nil => cases present
  | cons first rest ih =>
    obtain rfl | later := List.mem_cons.mp present
    · rw [List.filterMap_cons_some named, List.nodup_cons] at distinct
      refine (dealt_dealTopic named fresh subscriber).transfer ?_ (grows_foldl rest _)
      exact fun again => distinct.1 (List.mem_filterMap.mpr again)
    · have different : first.name ≠ some name := fun same => by
        rw [List.filterMap_cons_some same, List.nodup_cons] at distinct
        exact distinct.1 (List.mem_filterMap.mpr ⟨topic, later, named⟩)
      have grows := grows_dealTopic seats first
      refine ih later (distinct.sublist ((List.sublist_cons_self _ _).filterMap _)) ?_
        (Seat.subscriber_of_who (Seat.who_of_grows grows) subscriber)
      exact forall_mem_of_forall₂ grows fun old among seat here => (here.held different).trans (fresh old among)

/-- Every topic is shared out as a whole, in the order of the members' ids, and what is dealt does not depend
on the order in which the members are listed. -/
theorem assign_deals (protocol : Protocol) (members : List JoinGroupResponseMember)
    (metadata : MetadataResponse) (distinct : (members.map (·.memberId)).Nodup) (named : (names metadata).Nodup)
    (decoded : ∀ member ∈ members, (protocol.subscription member.metadata).isSome) :
    (∃ seats, assign protocol members metadata = seats.mapM protocol.sync ∧ Assigns protocol members metadata seats ∧
      seats.Pairwise (·.member.memberId < ·.member.memberId) ∧
      ∀ name, (∃ seat ∈ seats, name ∈ seat.topics) → Dealt name (partitionsOf metadata name) seats) ∧
    ∀ others, others.Perm members → assign protocol others metadata = assign protocol members metadata := by
  refine ⟨⟨(metadata.topics.getD []).foldl dealTopic ((sorted members).map protocol.seat), ?_, ?_⟩, ?_⟩
  · rw [assign, memberSubs_eq decoded]
    rfl
  · have fresh : ∀ seat ∈ (sorted members).map protocol.seat, Seat.given seat = ([] : List TopicPartition) :=
      List.forall_mem_map.mpr fun _ _ => rfl
    have empty : ∀ name, ∀ seat ∈ (sorted members).map protocol.seat, Seat.held name seat = [] :=
      fun name => List.forall_mem_map.mpr fun _ _ => rfl
    have grows := grows_foldl (metadata.topics.getD []) ((sorted members).map protocol.seat)
    have who := Seat.who_of_grows grows
    rw [List.map_map] at who
    obtain ⟨perm, subscribed, order⟩ := seats_of_who decoded distinct who
    have dealt : ∀ name, (∃ seat ∈ (metadata.topics.getD []).foldl dealTopic
        ((sorted members).map protocol.seat), name ∈ seat.topics) → Dealt name (partitionsOf metadata name)
          ((metadata.topics.getD []).foldl dealTopic ((sorted members).map protocol.seat)) := by
      intro name subscriber
      by_cases present : ∃ topic ∈ metadata.topics.getD [], topic.name = some name
      · obtain ⟨topic, among, same⟩ := present
        rw [partitionsOf_eq among same named]
        exact dealt_foldl topic among same named (empty name)
          (Seat.subscriber_of_who (Seat.who_of_grows grows).symm subscriber)
      · refine Dealt.transfer ⟨?_, fun seat seated _ other _ _ => ?_⟩ present grows
        · rw [partitionsOf, List.flatMap_eq_nil_iff.mpr (empty name), List.flatMap_eq_nil_iff.mpr
            fun topic among => if_neg fun same => present ⟨topic, among, same⟩]
          rfl
        · rw [empty name seat seated]
          exact Nat.zero_le _
    exact ⟨⟨perm, subscribed, fun name subscriber => .of_eq (dealt name subscriber).contiguous,
      Seat.only_of_grows grows fresh⟩, order, dealt⟩
  · intro others perm
    rw [assign, assign, memberSubs, memberSubs, sorted_eq_of_perm distinct perm]

/-- Each byte of this metadata is a topic, and each byte of an assignment a partition. -/
def byteProtocol : Protocol where
  subscription := fun metadata => some (metadata.map fun byte => if byte = 0 then "a" else "b")
  assignment := fun given => some (given.flatMap (·.partitions.map fun partition => .ofNat partition.toNat))

def twoMembers : List JoinGroupResponseMember :=
  [⟨"second", [1, 0]⟩, ⟨"first", [0]⟩]

def twoTopics : MetadataResponse where
  topics := some [⟨some "a", some [2, 0, 1]⟩, ⟨some "b", some [3]⟩, ⟨none, some [4]⟩]

theorem assign_deals_three : assign byteProtocol twoMembers twoTopics = some [⟨"first", [0, 1]⟩, ⟨"second", [2, 3]⟩] ∧
      ∃ seats, assign byteProtocol twoMembers twoTopics = seats.mapM byteProtocol.sync ∧
        Assigns byteProtocol twoMembers twoTopics seats := by
  obtain ⟨⟨seats, same, assigns, _⟩, _⟩ := assign_deals byteProtocol twoMembers twoTopics (by decide)
    (by decide) fun _ _ => rfl
  exact ⟨by decide +kernel, seats, same, assigns⟩

end RangeAssignor

namespace RoundRobinAssignor

variable {topition : Topition} {seats : List (Seat Topition)} {tries : Nat}

theorem offer_cases (topition : Topition) (counter : Nat) (few : tries ≤ seats.length) :
    (∃ before seat after, seats = before ++ seat :: after ∧ topition.topic ∈ seat.topics ∧
      (offer topition tries (counter, seats)).2 = before ++ seat.push topition :: after) ∨
    offer topition tries (counter, seats) = (counter + tries, seats) ∧
      ∀ k < tries, ∀ seat, seats[(counter + k) % seats.length]? = some seat → topition.topic ∉ seat.topics := by
  induction tries generalizing counter with
  | zero => exact .inr ⟨rfl, fun k none => absurd none (Nat.not_lt_zero k)⟩
  | succ tries ih =>
    have here : counter % seats.length < seats.length := Nat.mod_lt _ (by omega)
    rw [offer, List.getElem?_eq_getElem here]
    dsimp only
    split
    next subscribes =>
      obtain ⟨before, after, whole, _, placed⟩ := List.exists_of_set here
      exact .inl ⟨before, _, after, whole, subscribes, placed⟩
    next passes =>
      obtain given | ⟨same, none⟩ := ih (counter + 1) (by omega)
      · exact .inl given
      · refine .inr ⟨by rw [same, Nat.add_right_comm, Nat.add_assoc], fun k small seat found => ?_⟩
        cases k with
        | zero =>
          rw [Nat.add_zero, List.getElem?_eq_getElem here] at found
          cases found
          exact passes
        | succ k => exact none k (by omega) seat (by rw [← found]; congr 2; omega)

private theorem exists_turn {n i : Nat} (counter : Nat) (small : i < n) : ∃ k < n, (counter + k) % n = i := by
  have split := Nat.div_add_mod counter n
  have low := Nat.mod_lt counter (Nat.zero_lt_of_lt small)
  by_cases ahead : counter % n ≤ i
  · refine ⟨i - counter % n, by omega, ?_⟩
    rw [show counter + (i - counter % n) = n * (counter / n) + i by omega, Nat.mul_add_mod, Nat.mod_eq_of_lt small]
  · refine ⟨i + n - counter % n, by omega, ?_⟩
    rw [show counter + (i + n - counter % n) = n * (counter / n + 1) + i by rw [Nat.mul_succ]; omega,
      Nat.mul_add_mod, Nat.mod_eq_of_lt small]

variable {state : Nat × List (Seat Topition)} {items : List Topition}

theorem place_cases (state : Nat × List (Seat Topition)) (topition : Topition) :
    (∃ before seat after, state.2 = before ++ seat :: after ∧ topition.topic ∈ seat.topics ∧
      (place state topition).2 = before ++ seat.push topition :: after) ∨
    place state topition = (state.1 + state.2.length, state.2) ∧ ∀ seat ∈ state.2, topition.topic ∉ seat.topics := by
  obtain given | ⟨same, none⟩ := offer_cases topition state.1 (Nat.le_refl state.2.length)
  · exact .inl given
  · refine .inr ⟨same, fun seat seated => ?_⟩
    obtain ⟨_, small, found⟩ := List.mem_iff_getElem.mp seated
    obtain ⟨k, turn, here⟩ := exists_turn state.1 small
    exact none k turn seat (by rw [here, List.getElem?_eq_getElem small, found])

theorem grows_place (state : Nat × List (Seat Topition)) (topition : Topition) :
    List.Forall₂ (Seat.Grows (·.topic) fun _ => True) state.2 (place state topition).2 := by
  obtain ⟨before, _, after, whole, subscribes, placed⟩ | ⟨same, _⟩ := place_cases state topition
  · rw [placed, whole]
    exact List.rel_append (Seat.grows_refl before) (.cons (.push subscribes trivial) (Seat.grows_refl after))
  · rw [same]
    exact Seat.grows_refl _

theorem grows_foldl (items : List Topition) (state : Nat × List (Seat Topition)) :
    List.Forall₂ (Seat.Grows (·.topic) fun _ => ∃ item ∈ items, True) state.2 (items.foldl place state).2 :=
  Seat.grows_foldl Prod.snd grows_place items state

def subscribed (seats : List (Seat Topition)) (topition : Topition) : Bool :=
  seats.any (topition.topic ∈ ·.topics)

theorem subscribed_of_who (same : after.map Seat.who = before.map Seat.who) : subscribed after = subscribed before := by
  funext topition
  have names := congrArg (List.map Prod.snd) same
  rw [List.map_map, List.map_map] at names
  have any := congrArg (List.any · (topition.topic ∈ ·)) names
  rw [List.any_map, List.any_map] at any
  exact any

theorem given_place (state : Nat × List (Seat Topition)) (topition : Topition) :
    ((place state topition).2.flatMap (·.given)).Perm
      (state.2.flatMap (·.given) ++ [topition].filter (subscribed state.2)) := by
  obtain ⟨before, seat, after, whole, subscribes, placed⟩ | ⟨same, none⟩ := place_cases state topition
  · have wanted : subscribed state.2 topition = true :=
      List.any_eq_true.mpr ⟨seat, by rw [whole]; exact List.mem_append_right _ List.mem_cons_self,
        by simpa using subscribes⟩
    rw [placed, List.filter_cons_of_pos wanted, List.filter_nil, whole, List.perm_iff_count]
    simp only [List.flatMap_append, List.flatMap_cons, Seat.push, List.count_append]
    omega
  · have unwanted : ¬ subscribed state.2 topition = true := fun wanted => by
      obtain ⟨seat, seated, topic⟩ := List.any_eq_true.mp wanted
      exact none seat seated (by simpa using topic)
    rw [same, List.filter_cons_of_neg unwanted, List.filter_nil, List.append_nil]

theorem given_foldl : ((items.foldl place state).2.flatMap (·.given)).Perm
    (state.2.flatMap (·.given) ++ items.filter (subscribed state.2)) := by
  induction items generalizing state with
  | nil => rw [List.foldl_nil, List.filter_nil, List.append_nil]
  | cons topition _ ih =>
    refine ih.trans ?_
    rw [subscribed_of_who (Seat.who_of_grows (grows_place state topition)), ← List.singleton_append, List.filter_append,
      ← List.append_assoc]
    exact (given_place state topition).append_right _

def Alike {α : Type} (seats : List (Seat α)) : Prop :=
  ∀ seat ∈ seats, ∀ other ∈ seats, ∀ name ∈ seat.topics, name ∈ other.topics

theorem Alike.of_who {before : List (Seat α)} {after : List (Seat β)} (alike : Alike before)
    (same : after.map Seat.who = before.map Seat.who) : Alike after := by
  have old : ∀ seat ∈ after, ∃ was ∈ before, was.topics = seat.topics := fun seat seated => by
    have moved := List.mem_map_of_mem (f := Seat.who) seated
    rw [same] at moved
    obtain ⟨was, among, equal⟩ := List.mem_map.mp moved
    exact ⟨was, among, (Prod.mk.inj equal).2⟩
  intro seat seated other present name topic
  obtain ⟨one, first, subscribed⟩ := old seat seated
  obtain ⟨two, second, subscribes⟩ := old other present
  rw [← subscribes]
  exact alike one first two second name (subscribed ▸ topic)

/-- The members before the counter's are one partition ahead of those from it on. -/
def Level (state : Nat × List (Seat Topition)) : Prop :=
  ∃ level, ∀ i seat, state.2[i]? = some seat → seat.given.length = level + if i < state.1 % state.2.length then 1 else 0

theorem place_taken (found : state.2[state.1 % state.2.length]? = some seat)
    (subscribes : topition.topic ∈ seat.topics) :
    place state topition = (state.1 + 1, state.2.set (state.1 % state.2.length) (seat.push topition)) := by
  have some : 0 < state.2.length := List.length_pos_of_mem (List.mem_of_getElem? found)
  obtain ⟨n, length⟩ := Nat.exists_eq_succ_of_ne_zero (Nat.ne_of_gt some)
  calc place state topition = offer topition (n + 1) (state.1, state.2) := by rw [place, length]
    _ = _ := by
      rw [offer, found]
      exact if_pos subscribes

private theorem succ_mod {counter n : Nat} (some : 0 < n) :
    (counter + 1) % n = if counter % n + 1 = n then 0 else counter % n + 1 := by
  have split := Nat.div_add_mod counter n
  have low := Nat.mod_lt counter some
  split
  next last =>
    rw [show counter + 1 = n * (counter / n + 1) + 0 by rw [Nat.mul_succ]; omega, Nat.mul_add_mod, Nat.zero_mod]
  next inner =>
    nth_rewrite 1 [← split]
    rw [Nat.add_assoc, Nat.mul_add_mod, Nat.mod_eq_of_lt (by omega)]

theorem level_place (alike : Alike state.2) (flat : Level state) : Level (place state topition) := by
  obtain ⟨level, flat⟩ := flat
  obtain ⟨before, seat, after, whole, subscribes, _⟩ | ⟨same, _⟩ := place_cases state topition
  · have seated : seat ∈ state.2 := by
      rw [whole]
      exact List.mem_append_right _ List.mem_cons_self
    have some : 0 < state.2.length := List.length_pos_of_mem seated
    have low : state.1 % state.2.length < state.2.length := Nat.mod_lt _ some
    have found := List.getElem?_eq_getElem low
    rw [place_taken found (alike seat seated _ (List.getElem_mem low) _ subscribes)]
    refine ⟨if state.1 % state.2.length + 1 = state.2.length then level + 1 else level, fun i now here => ?_⟩
    rw [List.length_set, succ_mod some]
    rw [List.getElem?_set] at here
    split at here
    next same =>
      cases here
      have size := flat _ _ found
      rw [Seat.push, List.length_append, List.length_singleton, size]
      split_ifs <;> omega
    next other =>
      have small := (List.getElem?_eq_some_iff.mp here).1
      rw [flat i now here]
      split_ifs <;> omega
  · rw [same]
    refine ⟨level, fun i seat found => ?_⟩
    rw [flat i seat found, Nat.add_mod_right]

theorem level_foldl (alike : Alike state.2) (flat : Level state) : Level (items.foldl place state) := by
  induction items generalizing state with
  | nil => exact flat
  | cons topition _ ih =>
    exact ih (alike.of_who (Seat.who_of_grows (grows_place state topition))) (level_place alike flat)

theorem Level.le (flat : Level state) (seated : seat ∈ state.2)
    (present : other ∈ state.2) : seat.given.length ≤ other.given.length + 1 := by
  obtain ⟨level, flat⟩ := flat
  obtain ⟨i, first⟩ := List.getElem?_of_mem seated
  obtain ⟨j, second⟩ := List.getElem?_of_mem present
  rw [flat i seat first, flat j other second]
  split_ifs <;> omega

theorem held_grouped (name : String) (seat : Seat Topition) :
    (grouped seat).held name = (seat.given.filter (·.topic = name)).map (·.partition) := by
  rw [Seat.held, grouped, List.filter_map, List.flatMap_map]
  change ((sortedSet (· ≤ ·) (seat.given.map (·.topic))).filter (· = name)).flatMap _ = _
  rw [List.filter_eq]
  by_cases given : name ∈ seat.given.map (·.topic)
  · rw [List.count_eq_one_of_mem nodup_sortedSet (mem_sortedSet.mpr given), List.replicate_one, List.flatMap_singleton]
  · rw [List.count_eq_zero_of_not_mem fun mem => given (mem_sortedSet.mp mem),
      List.filter_eq_nil_iff.mpr fun item among => ?_]
    · rfl
    · intro same
      exact given (List.mem_map.mpr ⟨item, among, by simpa using same⟩)

theorem size_grouped (seat : Seat Topition) : (grouped seat).size = seat.given.length := by
  have topics := List.perm_insertionSort (· ≤ ·) (seat.given.map (·.topic))
  calc (grouped seat).size
      = ((sortedSet (· ≤ ·) (seat.given.map (·.topic))).map
          fun topic => ((seat.given.map (·.topic)).insertionSort (· ≤ ·)).count topic).sum := by
        rw [Seat.size, grouped, List.map_map]
        congr 1
        refine List.map_congr_left fun topic _ => ?_
        rw [topics.count_eq, comp_apply, List.length_map, List.count, List.countP_map, List.countP_eq_length_filter]
        rfl
    _ = seat.given.length := by
      rw [sortedSet, List.sum_map_count_dedup_eq_length, List.length_insertionSort, List.length_map]

theorem mem_topitions {name : String} :
    ⟨name, partition⟩ ∈ topitions metadata ↔ partition ∈ partitionsOf metadata name := by
  rw [topitions, partitionsOf, mem_sortedSet, mem_sortedSet, List.mem_flatMap, List.mem_flatMap]
  refine exists_congr fun topic => and_congr_right fun _ => ?_
  rw [MetadataResponseTopic.topitions]
  split
  next unnamed => simp [unnamed]
  next other named =>
    rw [named]
    obtain rfl | different := eq_or_ne other name
    · simp
    · simp [different]

theorem perm_partitionsOf {name : String}
    (all : ∀ topition : Topition, topition.topic = name → wanted topition = true) :
    ((((topitions metadata).filter wanted).filter (·.topic = name)).map (·.partition)).Perm
      (partitionsOf metadata name) := by
  have once : ((((topitions metadata).filter wanted).filter (·.topic = name)).map (·.partition)).Nodup := by
    refine ((nodup_sortedSet.filter _).filter _).map_on fun a first b second same => ?_
    have left : a.topic = name := by simpa using (List.mem_filter.mp first).2
    have right : b.topic = name := by simpa using (List.mem_filter.mp second).2
    cases a
    cases left
    cases right
    cases same
    rfl
  refine (List.perm_ext_iff_of_nodup once nodup_sortedSet).mpr fun partition => ?_
  rw [← partitionsOf, ← mem_topitions, List.mem_map]
  constructor
  · rintro ⟨topition, there, rfl⟩
    obtain ⟨listed, same⟩ := List.mem_filter.mp there
    obtain rfl : topition.topic = name := by simpa using same
    exact (List.mem_filter.mp listed).1
  · intro listed
    exact ⟨_, List.mem_filter.mpr ⟨List.mem_filter.mpr ⟨listed, all _ rfl⟩, decide_eq_true rfl⟩, rfl⟩

/-- Every partition that is subscribed to goes to one member, members with the same subscription get the same
number of partitions up to one, and the order in which the members are listed makes no difference. -/
theorem assign_rotates (protocol : Protocol) (members : List JoinGroupResponseMember)
    (metadata : MetadataResponse) (distinct : (members.map (·.memberId)).Nodup)
    (decoded : ∀ member ∈ members, (protocol.subscription member.metadata).isSome) :
    (∃ seats, assign protocol members metadata = seats.mapM protocol.sync ∧ Assigns protocol members metadata seats ∧
      (Alike seats → ∀ seat ∈ seats, ∀ other ∈ seats, seat.size ≤ other.size + 1)) ∧
    ∀ others, others.Perm members → assign protocol others metadata = assign protocol members metadata := by
  refine ⟨⟨((topitions metadata).foldl place (0, (sorted members).map protocol.seat)).2.map grouped, ?_, ?_, ?_⟩, ?_⟩
  · rw [assign, memberSubs_eq decoded]
    rfl
  · have fresh : ∀ seat ∈ (sorted members).map protocol.seat, Seat.given seat = ([] : List Topition) :=
      List.forall_mem_map.mpr fun _ _ => rfl
    have grows := grows_foldl (topitions metadata) (0, (sorted members).map protocol.seat)
    have given : (((topitions metadata).foldl place (0, (sorted members).map protocol.seat)).2.flatMap
        (·.given)).Perm _ := given_foldl
    rw [List.flatMap_eq_nil_iff.mpr fresh] at given
    generalize spread : (sorted members).map protocol.seat = start at *
    generalize ((topitions metadata).foldl place (0, start)).2 = final at *
    have same : (final.map grouped).map Seat.who = start.map Seat.who := by
      rw [List.map_map]
      exact Seat.who_of_grows grows
    obtain ⟨perm, subscribed, _⟩ := seats_of_who decoded distinct
      (same.trans (by rw [← spread, List.map_map]; rfl))
    refine ⟨perm, subscribed, fun name subscriber => ?_, ?_⟩
    · have held : (final.map grouped).flatMap (Seat.held name) =
          ((final.flatMap (·.given)).filter (·.topic = name)).map (·.partition) := by
        rw [List.flatMap_map, List.filter_flatMap, List.map_flatMap]
        exact List.flatMap_congr fun seat _ => held_grouped name seat
      rw [held]
      refine ((given.filter _).map _).trans (perm_partitionsOf ?_)
      rintro _ rfl
      obtain ⟨seat, seated, topic⟩ := Seat.subscriber_of_who same.symm subscriber
      exact List.any_eq_true.mpr ⟨seat, seated, decide_eq_true topic⟩
    · refine List.forall_mem_map.mpr fun seat seated item listed => ?_
      obtain ⟨_, among, rfl⟩ := List.mem_map.mp listed
      obtain ⟨topition, there, same⟩ := List.mem_map.mp (mem_sortedSet.mp among)
      exact same ▸ Seat.only_of_grows grows fresh seat seated topition there
  · intro alike
    refine List.forall_mem_map.mpr fun seat seated => List.forall_mem_map.mpr fun other present => ?_
    rw [size_grouped, size_grouped]
    refine (level_foldl ?_ ⟨0, fun i start found => ?_⟩).le seated present
    · refine alike.of_who ((Seat.who_of_grows (grows_foldl (topitions metadata) _)).symm.trans ?_)
      rw [List.map_map]
      rfl
    · obtain ⟨_, _, rfl⟩ := List.mem_map.mp (List.mem_of_getElem? found)
      rfl
  · intro others perm
    rw [assign, assign, memberSubs, memberSubs, sorted_eq_of_perm distinct perm]

def alikeMembers : List JoinGroupResponseMember :=
  [⟨"second", [0]⟩, ⟨"first", [0]⟩]

theorem assign_rotates_three : assign RangeAssignor.byteProtocol alikeMembers RangeAssignor.twoTopics =
      some [⟨"first", [0, 2]⟩, ⟨"second", [1]⟩] ∧
      ∃ seats, Assigns RangeAssignor.byteProtocol alikeMembers RangeAssignor.twoTopics seats ∧
        ∀ seat ∈ seats, ∀ other ∈ seats, seat.size ≤ other.size + 1 := by
  obtain ⟨⟨seats, _, assigns, balanced⟩, _⟩ := assign_rotates RangeAssignor.byteProtocol alikeMembers
    RangeAssignor.twoTopics (by decide) fun _ _ => rfl
  have topics : ∀ seat ∈ seats, seat.topics = ["a"] := by
    intro seat seated
    have given := assigns.subscribed seat seated
    have metadata : seat.member.metadata = [0] := by
      rcases List.mem_pair.mp (assigns.members.subset (List.mem_map_of_mem seated)) with same | same <;> rw [same]
    rw [metadata] at given
    exact (Option.some.inj given).symm
  refine ⟨by decide +kernel, seats, assigns, balanced fun seat seated other present name topic => ?_⟩
  rwa [topics other present, ← topics seat seated]

end RoundRobinAssignor

end Nisshi.SansIo.Consumer
