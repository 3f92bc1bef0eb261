import Nisshi.SansIo.ErrorCode
import Mathlib.Data.List.Basic

/-! The SASL exchange of one connection: the stage that the handshake and the authenticate service share,
and what each of them does to it. The mechanisms are a library's: a session may answer a token in any way
and may report any identity. -/

namespace Nisshi.Auth

open Nisshi.SansIo List

structure Success where
  authId : String
  deriving DecidableEq

inductive AuthError where
  | bad
  | io
  | missingProperty (mechanism property : String)
  | noSuchUser
  | unknownMechanism (mechanism : String)
  deriving DecidableEq

inductive SessionState where
  | running
  | finished
  deriving DecidableEq

/-- The mechanism library under one configuration. `Ambient` is what a call reads besides its arguments:
randomness and the stored credentials. -/
structure Sasl (Mechname Session Ambient : Type) where
  available : List String
  parse : String → Option Mechname
  startSuggested : Ambient → Mechname → Option Session
  step : Ambient → Session → List UInt8 → Option (SessionState × List UInt8 × Session)
  validation : Session → Session × Option (Except AuthError Success)

/-- A `Server` holds only its configuration, which the extension keeps as well. -/
inductive Stage (Session : Type) where
  | server
  | session (session : Session)
  | finished (success : Option Success)
  deriving DecidableEq

/-- SCRAM finishes even on a bad proof, so a finished exchange needs a validated identity too. -/
def Stage.isAuthenticated {Session : Type} : Option (Stage Session) → Bool
  | some (.finished (some _)) => true
  | _ => false

def identity : Option (Except AuthError Success) → Option Success
  | some (.ok success) => some success
  | _ => none

structure SaslHandshakeResponse where
  errorCode : ErrorCode
  mechanisms : Option (List String)
  deriving DecidableEq

structure SaslAuthenticateResponse where
  errorCode : ErrorCode
  errorMessage : Option String
  authBytes : List UInt8
  sessionLifetimeMs : Option Int
  deriving DecidableEq

inductive Outcome where
  | failed
  | continued
  | finished (success : Option Success)
  | outOfOrder
  deriving DecidableEq

variable {Mechname Session Ambient : Type} (sasl : Sasl Mechname Session Ambient) (ambient : Ambient)

/-- The locked section of `SaslHandshakeService::serve`: the stage it leaves, and whether it accepted the
mechanism. -/
def handshake (mechanism : String) (stage : Option (Stage Session)) : Option (Stage Session) × Bool :=
  -- A stage other than `Server` is replaced by a fresh one, so that a connection can authenticate again.
  let stage := match stage with
    | some .server => stage
    | _ => some .server
  match stage, sasl.parse mechanism with
  | some .server, some name =>
    match sasl.startSuggested ambient name with
    | some session => (some (.session session), true)
    | none => (none, false)
  | _, _ => (none, false)

def handshakeResponse (accepted : Bool) : SaslHandshakeResponse :=
  { errorCode := if accepted then .none else .unsupportedSaslMechanism
    mechanisms := some sasl.available }

/-- The locked section of `SaslAuthenticateService::serve`: the stage it leaves, what the token did, and
the bytes that the session wrote. -/
def authenticate (authBytes : List UInt8) : Option (Stage Session) → Option (Stage Session) × Outcome × List UInt8
  | some (.session session) =>
    match sasl.step ambient session authBytes with
    | none => (none, .failed, [])
    | some (state, output, session) =>
      let (session, validated) := sasl.validation session
      match state with
      | .running => (some (.session session), .continued, output)
      | .finished =>
        (some (.finished (identity validated)), .finished (identity validated), output)
  | _ => (none, .outOfOrder, [])

def illegalSaslState : SaslAuthenticateResponse :=
  { errorCode := .illegalSaslState
    errorMessage := some "Request is not valid given the current SASL state."
    authBytes := []
    sessionLifetimeMs := some 0 }

def authenticateResponse (sessionLifetimeMs : Option Int) (outcome : Outcome) (output : List UInt8) :
    SaslAuthenticateResponse :=
  match outcome with
  | .failed =>
    { errorCode := .saslAuthenticationFailed
      errorMessage := some "SASL Authentication failed."
      authBytes := []
      sessionLifetimeMs := some 0 }
  | .outOfOrder => illegalSaslState
  | .continued | .finished _ =>
    { errorCode := .none
      errorMessage := some "NONE"
      authBytes := output
      sessionLifetimeMs }

/-! What the exchanges of a connection have come to, told by its SASL requests alone. -/

inductive Event where
  | handshake (accepted : Bool)
  | token (outcome : Outcome)
  deriving DecidableEq

def InProgress (history : List Event) : Prop :=
  ∃ earlier tokens, history = earlier ++ .handshake true :: List.replicate tokens (.token .continued)

/-- The exchange begun by the last handshake has finished with a validated identity, and no SASL request
has come since. -/
def Granted (history : List Event) : Prop :=
  ∃ exchange success, InProgress exchange ∧ history = exchange ++ [.token (.finished (some success))]

/-- A token is out of order exactly when no exchange is in progress. -/
inductive Orderly : List Event → Prop where
  | nil : Orderly []
  | handshake {history : List Event} (before : Orderly history) (accepted : Bool) :
      Orderly (history ++ [.handshake accepted])
  | token {history : List Event} {outcome : Outcome} (before : Orderly history)
      (inOrder : outcome = .outOfOrder ↔ ¬ InProgress history) :
      Orderly (history ++ [.token outcome])

variable {history : List Event}

theorem not_inProgress_nil : ¬ InProgress [] := by
  rintro ⟨earlier, _, same⟩
  cases earlier <;> cases same

theorem inProgress_snoc_handshake (accepted : Bool) :
    InProgress (history ++ [.handshake accepted]) ↔ accepted = true := by
  constructor
  · rintro ⟨_, tokens, same⟩
    cases tokens with
    | zero =>
      have last := (append_inj' same rfl).2
      cases last
      rfl
    | succ =>
      rw [replicate_succ', ← cons_append, ← append_assoc] at same
      have last := (append_inj' same rfl).2
      cases last
  · rintro rfl
    exact ⟨history, 0, rfl⟩

theorem inProgress_snoc_token (outcome : Outcome) :
    InProgress (history ++ [.token outcome]) ↔ outcome = .continued ∧ InProgress history := by
  constructor
  · rintro ⟨earlier, tokens, same⟩
    cases tokens with
    | zero =>
      have last := (append_inj' same rfl).2
      cases last
    | succ tokens =>
      rw [replicate_succ', ← cons_append, ← append_assoc] at same
      obtain ⟨front, last⟩ := append_inj' same rfl
      cases last
      exact ⟨rfl, earlier, tokens, front⟩
  · rintro ⟨rfl, earlier, tokens, rfl⟩
    refine ⟨earlier, tokens + 1, ?_⟩
    rw [replicate_succ', append_assoc, cons_append]

theorem not_granted_nil : ¬ Granted [] := by
  rintro ⟨exchange, _, _, same⟩
  cases exchange <;> cases same

theorem granted_snoc (event : Event) : Granted (history ++ [event]) ↔
      InProgress history ∧ ∃ success, event = .token (.finished (some success)) := by
  constructor
  · rintro ⟨_, success, progress, same⟩
    obtain ⟨rfl, last⟩ := append_inj' same rfl
    cases last
    exact ⟨progress, success, rfl⟩
  · rintro ⟨progress, success, rfl⟩
    exact ⟨history, success, progress, rfl⟩

structure Reflects (stage : Option (Stage Session)) (history : List Event) : Prop where
  inProgress : InProgress history ↔ ∃ session, stage = some (.session session)
  granted : Granted history ↔ Stage.isAuthenticated stage = true
  orderly : Orderly history

theorem reflects_server : Reflects (some .server : Option (Stage Session)) [] where
  inProgress := by simp [not_inProgress_nil]
  granted := by simp [not_granted_nil, Stage.isAuthenticated]
  orderly := .nil

variable {sasl ambient} {stage : Option (Stage Session)}

variable (sasl ambient stage) in
theorem handshake_cases (mechanism : String) :
    (∃ session, handshake sasl ambient mechanism stage = (some (.session session), true)) ∨
      handshake sasl ambient mechanism stage = (none, false) := by
  unfold handshake
  simp only
  split
  · split
    next session _ => exact .inl ⟨session, rfl⟩
    next => exact .inr rfl
  · exact .inr rfl

theorem Reflects.of_handshake (reflects : Reflects stage history) (mechanism : String) :
    Reflects (handshake sasl ambient mechanism stage).1
      (history ++ [.handshake (handshake sasl ambient mechanism stage).2]) := by
  have orderly := Orderly.handshake reflects.orderly (handshake sasl ambient mechanism stage).2
  rcases handshake_cases sasl ambient stage mechanism with
    ⟨session, started⟩ | refused
  · rw [started] at orderly ⊢
    exact ⟨by simp [inProgress_snoc_handshake], by simp [granted_snoc, Stage.isAuthenticated], orderly⟩
  · rw [refused] at orderly ⊢
    exact ⟨by simp [inProgress_snoc_handshake], by simp [granted_snoc, Stage.isAuthenticated], orderly⟩

variable (sasl ambient stage) in
theorem authenticate_cases (authBytes : List UInt8) : (∃ session output, stage = some (.session session) ∧
      ((authenticate sasl ambient authBytes stage = (none, .failed, output)) ∨
        (∃ next, authenticate sasl ambient authBytes stage = (some (.session next), .continued, output)) ∨
        (∃ success, authenticate sasl ambient authBytes stage =
          (some (.finished success), .finished success, output)))) ∨
      ((∀ session, stage ≠ some (.session session)) ∧
        authenticate sasl ambient authBytes stage = (none, .outOfOrder, [])) := by
  cases stage with
  | none => exact .inr ⟨nofun, rfl⟩
  | some stage =>
    cases stage with
    | server | finished => exact .inr ⟨nofun, rfl⟩
    | session session =>
      refine .inl ⟨session, ?_⟩
      simp only [authenticate, true_and]
      split
      next => exact ⟨[], .inl rfl⟩
      next state output _ _ =>
        refine ⟨output, .inr ?_⟩
        cases state with
        | running => exact .inl ⟨_, rfl⟩
        | finished => exact .inr ⟨_, rfl⟩

theorem Reflects.of_authenticate (reflects : Reflects stage history) (authBytes : List UInt8) :
    Reflects (authenticate sasl ambient authBytes stage).1
      (history ++ [.token (authenticate sasl ambient authBytes stage).2.1]) := by
  rcases authenticate_cases sasl ambient stage authBytes with
    ⟨session, output, at_, answered⟩ | ⟨idle, refused⟩
  · have progress : InProgress history := reflects.inProgress.mpr ⟨session, at_⟩
    rcases answered with failed | ⟨_, continued⟩ | ⟨success, finished⟩
    · rw [failed]
      refine ⟨by simp [inProgress_snoc_token], by simp [granted_snoc, Stage.isAuthenticated], ?_⟩
      exact .token reflects.orderly (by simp [progress])
    · rw [continued]
      refine ⟨by simp [inProgress_snoc_token, progress],
        by simp [granted_snoc, Stage.isAuthenticated], ?_⟩
      exact .token reflects.orderly (by simp [progress])
    · rw [finished]
      refine ⟨by simp [inProgress_snoc_token], ?_, ?_⟩
      · cases success <;> simp [granted_snoc, Stage.isAuthenticated, progress]
      · exact .token reflects.orderly (by simp [progress])
  · have none : ¬ InProgress history := by
      rw [reflects.inProgress]
      rintro ⟨session, at_⟩
      exact idle session at_
    rw [refused]
    refine ⟨by simp [inProgress_snoc_token], by simp [granted_snoc, Stage.isAuthenticated], ?_⟩
    exact .token reflects.orderly (by simp [none])

end Nisshi.Auth
