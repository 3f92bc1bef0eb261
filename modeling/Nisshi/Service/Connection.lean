import Nisshi.Lib.Machine
import Nisshi.Service.Frame

/-! The connections of a broker's listener. The broker builds a new stack of services for each connection
it accepts; a connection reads one frame, serves it and writes the response before it reads the next one,
and an error ends it. Connections run side by side. -/

namespace Nisshi.Service

open Nisshi.Lib Nisshi.SansIo Nisshi.Auth Function

def defaultMaximumFrameSize : Nat :=
  100 * 1024 * 1024

def defaultPreAuthenticationMaximumFrameSize : Nat :=
  512 * 1024

/-- A frame-size limit, with the setting that it comes from. -/
inductive FrameSizeLimit where
  | full (size : Nat)
  | preAuthentication (size : Nat)
  deriving DecidableEq

namespace FrameSizeLimit

def size : FrameSizeLimit → Nat
  | .full size => size
  | .preAuthentication size => size

def rejection (limit : FrameSizeLimit) (frameSize : Nat) : Error :=
  match limit with
  | .full _ => .frameTooBig frameSize
  | .preAuthentication limit => .preAuthenticationFrameTooBig frameSize limit

end FrameSizeLimit

structure TcpContext where
  maximumFrameSize : Option Nat
  preAuthenticationMaximumFrameSize : Option Nat
  deriving DecidableEq

variable {Mechname Session Ambient : Type}

structure Extensions (Mechname Session Ambient : Type) where
  context : TcpContext
  authentication : Option (AuthenticationExtension Mechname Session Ambient)

def TcpContext.full (context : TcpContext) : Option FrameSizeLimit :=
  context.maximumFrameSize.map .full

/-- The limit of a connection that has not authenticated: the smaller of the two settings. -/
def TcpContext.preAuthentication (context : TcpContext) : Option FrameSizeLimit :=
  match context.preAuthenticationMaximumFrameSize, context.full with
  | some preAuthentication, some full =>
    if full.size ≤ preAuthentication then some full else some (.preAuthentication preAuthentication)
  | some preAuthentication, none => some (.preAuthentication preAuthentication)
  | none, full => full

/-- The limit on the next frame. A connection that has no extension yet has not authenticated. -/
def effectiveMaximumFrameSize (heap : Heap Session) (extensions : Extensions Mechname Session Ambient) :
    Option FrameSizeLimit :=
  if extensions.authentication.any heap.isAuthenticated then extensions.context.full
  else extensions.context.preAuthentication

def wait (limit : Option FrameSizeLimit) (size : Int) : Except Error Nat :=
  if size < 0 then .error (.invalidFrameLength size)
  else
    match limit with
    | some limit =>
      if size.toNat > limit.size then .error (limit.rejection size.toNat) else .ok size.toNat
    | none => .ok size.toNat

/-- A request between frames, with the inner service, or over. -/
inductive Phase where
  | waiting
  | serving (admitted : Admitted)
  | closed (error : Option Error)
  deriving DecidableEq

structure Connection (Mechname Session Ambient : Type) where
  af : Option (AuthenticationFrame Mechname Session Ambient)
  extensions : Extensions Mechname Session Ambient
  phase : Phase
  /-- The responses that the peer has been sent, oldest first. -/
  written : List (List UInt8)
  /-- The SASL requests that its services have answered, oldest first. -/
  history : List Event
  /-- The API keys of the frames that reached the inner service, each with the history before it. -/
  passed : List (Int × List Event)

namespace Connection

variable (connection : Connection Mechname Session Ambient)

def setPhase (phase : Phase) : Connection Mechname Session Ambient :=
  { connection with phase }

def pass (admitted : Admitted) : Connection Mechname Session Ambient :=
  { connection with
    extensions :=
      { connection.extensions with
        authentication := match connection.extensions.authentication with
          | some authentication => some authentication
          | none => connection.af.map (·.authentication) }
    phase := .serving admitted
    passed := connection.passed ++ [(admitted.frame.apiKey, connection.history)] }

def receive (protocol : Protocol) (heap : Heap Session) (size : Int) (bytes : List UInt8) :
    Connection Mechname Session Ambient :=
  match wait (effectiveMaximumFrameSize heap connection.extensions) size with
  | .error error => connection.setPhase (.closed (some error))
  | .ok _ =>
    match passFrame protocol heap connection.af bytes with
    | .error error => connection.setPhase (.closed (some error))
    | .ok admitted => connection.pass admitted

def note (event : Option Event) : Connection Mechname Session Ambient :=
  { connection with history := connection.history ++ event.toList }

/-- The response is written unless a handler marked it, and the connection goes on unless it is marked to
close. -/
def write (bytes : List UInt8) (suppress close : Bool) : Connection Mechname Session Ambient :=
  { connection with
    written := if suppress then connection.written else connection.written ++ [bytes]
    phase := if close then .closed none else .waiting }

def serve (routes : Routes) (ambient : Ambient) (reply : Reply) (heap : Heap Session)
    (admitted : Admitted) : Heap Session × Connection Mechname Session Ambient :=
  let served := route routes ambient reply heap connection.extensions.authentication admitted.frame
  let connection := connection.note served.event
  match served.body with
  | .error error => (served.heap, connection.setPhase (.closed (some error)))
  | .ok body =>
    let heap := respondV0 served.heap connection.af admitted body
    match respond routes.protocol admitted body with
    | .error error => (heap, connection.setPhase (.closed (some error)))
    | .ok bytes => (heap, connection.write bytes reply.suppress served.close)

end Connection

structure Listener (Mechname Session Ambient : Type) where
  saslConfig : Option (Sasl Mechname Session Ambient)
  context : TcpContext
  routes : Routes

/-- The settings of `services`: only a listener with SASL has a limit before authentication. -/
def TcpContext.services (saslConfig : Option (Sasl Mechname Session Ambient)) : TcpContext :=
  { maximumFrameSize := some defaultMaximumFrameSize
    preAuthenticationMaximumFrameSize :=
      if saslConfig.isSome then some defaultPreAuthenticationMaximumFrameSize else none }

def Listener.accept (listener : Listener Mechname Session Ambient) (heap : Heap Session) :
    Heap Session × Connection Mechname Session Ambient :=
  let connection (af : Option (AuthenticationFrame Mechname Session Ambient)) :
      Connection Mechname Session Ambient :=
    { af, extensions := { context := listener.context, authentication := none }, phase := .waiting
      written := [], history := [], passed := [] }
  match listener.saslConfig with
  | none => (heap, connection none)
  | some config => ((heap.server config).1, connection (some (heap.server config).2))

structure State (C Mechname Session Ambient : Type) where
  heap : Heap Session
  connections : C → Option (Connection Mechname Session Ambient)

namespace State

variable {C : Type} [DecidableEq C]

def start : State C Mechname Session Ambient :=
  { heap := .empty, connections := fun _ => none }

def set (s : State C Mechname Session Ambient) (c : C) (heap : Heap Session)
    (connection : Connection Mechname Session Ambient) : State C Mechname Session Ambient :=
  { heap, connections := Function.update s.connections c (some connection) }

variable (s : State C Mechname Session Ambient) (c : C) (heap : Heap Session)
  (connection : Connection Mechname Session Ambient)

@[simp]
theorem set_connections_self : (s.set c heap connection).connections c = some connection :=
  update_self ..

theorem set_connections_of_ne (different : d ≠ c) : (s.set c heap connection).connections d = s.connections d :=
  update_of_ne different _ _

end State

variable {C : Type} [DecidableEq C]

inductive Step (listener : Listener Mechname Session Ambient) :
    State C Mechname Session Ambient → C → State C Mechname Session Ambient → Prop where
  | accept {s : State C Mechname Session Ambient} {c : C} (new : s.connections c = none) :
      Step listener s c (s.set c (listener.accept s.heap).1 (listener.accept s.heap).2)
  | receive {s : State C Mechname Session Ambient} {c : C}
      {connection : Connection Mechname Session Ambient} (size : Int32) (payload : List UInt8)
      (present : s.connections c = some connection) (at_ : connection.phase = .waiting)
      (declared : 0 ≤ size.toInt → payload.length = size.toInt) :
      Step listener s c (s.set c s.heap (connection.receive listener.routes.protocol s.heap size.toInt
        (Deflated.putI32 size ++ payload)))
  | serve {s : State C Mechname Session Ambient} {c : C}
      {connection : Connection Mechname Session Ambient} {admitted : Admitted} (ambient : Ambient)
      (reply : Reply) (present : s.connections c = some connection)
      (at_ : connection.phase = .serving admitted) :
      Step listener s c (s.set c
        (connection.serve listener.routes ambient reply s.heap admitted).1
        (connection.serve listener.routes ambient reply s.heap admitted).2)
  | hangUp {s : State C Mechname Session Ambient} {c : C}
      {connection : Connection Mechname Session Ambient} (present : s.connections c = some connection) :
      Step listener s c (s.set c s.heap (connection.setPhase (.closed none)))

def machine (listener : Listener Mechname Session Ambient) : Machine (State C Mechname Session Ambient) C where
  init := fun s => s = State.start
  step := Step listener

end Nisshi.Service
