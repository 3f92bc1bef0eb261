import Nisshi.SansIo.GroupMessages
import Mathlib.Tactic.Common
import Mathlib.Algebra.Group.Nat.Defs

/-! The document of a group, as storage holds it. -/

namespace Nisshi.Storage

open Nisshi.SansIo
open Std (ExtTreeMap ExtTreeSet)

/-- A wall-clock time, in nanoseconds since the epoch. -/
abbrev SystemTime := Int

/-- A duration in nanoseconds. -/
abbrev Duration := Nat

def fromMillis (milliseconds : Nat) : Duration :=
  milliseconds * 1000000

def asMillis (duration : Duration) : Nat :=
  duration / 1000000

def durationSince (now earlier : SystemTime) : Duration :=
  (now - earlier).toNat

def u64Max : Nat :=
  2 ^ 64 - 1

structure GroupMember where
  joinResponse : JoinGroupResponseMember
  lastContact : Option SystemTime
  clientId : String
  clientHost : String
  deriving DecidableEq

inductive GroupState where
  | forming (protocolType protocolName leader : Option String)
  | formed (protocolType protocolName leader : String) (assignments : ExtTreeMap String (List UInt8))
  deriving DecidableEq

structure InitialDelay where
  delayMs : Nat
  /-- How much longer than the deadline the phase may still be extended. -/
  remainingMs : Nat
  newMemberAdded : Bool
  deriving DecidableEq

/-- A join phase: the coordinator holds each `JoinGroup` until the phase ends. -/
structure JoinPhase where
  deadline : SystemTime
  joined : ExtTreeSet String
  initialDelay : Option InitialDelay
  deriving DecidableEq

structure PendingSync where
  deadline : SystemTime
  members : ExtTreeSet String
  deriving DecidableEq

structure GroupRebalance where
  joinPhase : Option JoinPhase
  pendingSync : Option PendingSync
  pendingMembers : ExtTreeMap String SystemTime
  deriving DecidableEq

structure GroupDetail where
  sessionTimeoutMs : Int
  rebalanceTimeoutMs : Option Int
  members : ExtTreeMap String GroupMember
  generationId : Int
  skipAssignment : Option Bool
  inception : SystemTime
  state : GroupState
  rebalance : GroupRebalance
  deriving DecidableEq

end Nisshi.Storage
