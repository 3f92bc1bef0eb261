import Nisshi.Auth.Sasl
import Nisshi.SansIo.Deflated

/-! `BytesFrameService`: how the bytes of a request become a frame for the inner service, behind the
authentication gate, and how the inner service's answer becomes bytes again. Locked cells are shared
through handles into a heap, as `Arc<Mutex<_>>` shares them. -/

namespace Nisshi.Service

open Nisshi.SansIo Nisshi.Auth Function

def saslHandshakeKey : Int :=
  17

def apiVersionsKey : Int :=
  18

def saslAuthenticateKey : Int :=
  36

/-- The requests that the stack itself looks into, and any other one. -/
inductive RequestBody where
  | saslHandshake (mechanism : String)
  | saslAuthenticate (authBytes : List UInt8)
  | apiVersions
  | other (content : List UInt8)
  deriving DecidableEq

structure Frame where
  apiKey : Int
  apiVersion : Int
  correlationId : Int
  clientId : Option String
  body : RequestBody
  deriving DecidableEq

structure ApiVersion where
  apiKey : Int
  minVersion : Int
  maxVersion : Int
  deriving DecidableEq

structure ApiVersionsResponse where
  errorCode : ErrorCode
  apiKeys : List ApiVersion
  deriving DecidableEq

inductive ResponseBody where
  | saslHandshake (response : SaslHandshakeResponse)
  | saslAuthenticate (response : SaslAuthenticateResponse)
  | apiVersions (response : ApiVersionsResponse)
  | other (content : List UInt8)
  deriving DecidableEq

structure Protocol where
  requestFromBytes : List UInt8 → Option Frame
  response : (correlationId : Int) → ResponseBody → (apiKey apiVersion : Int) → Option (List UInt8)
  valid : Int → Option (Int × Int)

inductive Error where
  | notAuthenticated
  | codec
  | invalidFrameLength (size : Int)
  | frameTooBig (size : Nat)
  | preAuthenticationFrameTooBig (size limit : Nat)
  | unknownServiceFrame (apiKey apiVersion : Int)
  | unsupportedVersion (apiKey apiVersion : Int)
  | handler
  deriving DecidableEq

variable {Mechname Session Ambient : Type}

/-- `AuthenticationExtension`: the configuration, and the handle of the stage. -/
structure AuthenticationExtension (Mechname Session Ambient : Type) where
  config : Sasl Mechname Session Ambient
  stage : Nat

structure AuthenticationFrame (Mechname Session Ambient : Type) where
  authentication : AuthenticationExtension Mechname Session Ambient
  v0 : Nat

/-- The cells that handles point to. Those from `next` on are free. -/
structure Heap (Session : Type) where
  stages : Nat → Option (Stage Session)
  v0s : Nat → Option Bool
  next : Nat

namespace Heap

def empty : Heap Session :=
  { stages := fun _ => none, v0s := fun _ => none, next := 0 }

def server (heap : Heap Session) (config : Sasl Mechname Session Ambient) :
    Heap Session × AuthenticationFrame Mechname Session Ambient :=
  ({ stages := Function.update heap.stages heap.next (some .server)
     v0s := Function.update heap.v0s heap.next none
     next := heap.next + 1 },
   { authentication := { config, stage := heap.next }, v0 := heap.next })

def setStage (heap : Heap Session) (handle : Nat) (stage : Option (Stage Session)) : Heap Session :=
  { heap with stages := Function.update heap.stages handle stage }

@[simp]
theorem setStage_stages_self (heap : Heap Session) (handle : Nat) (stage : Option (Stage Session)) :
    (heap.setStage handle stage).stages handle = stage :=
  update_self ..

def setV0 (heap : Heap Session) (handle : Nat) (v0 : Option Bool) : Heap Session :=
  { heap with v0s := Function.update heap.v0s handle v0 }

def isAuthenticated (heap : Heap Session) (authentication : AuthenticationExtension Mechname Session Ambient) : Bool :=
  Stage.isAuthenticated (heap.stages authentication.stage)

end Heap

def peek (width : Nat) (bytes : List UInt8) (offset : Nat) : Option (List UInt8) :=
  if offset + width ≤ bytes.length then some ((bytes.drop offset).take width) else none

def peekI16 (bytes : List UInt8) (offset : Nat) : Option Int :=
  (peek 2 bytes offset).bind fun field => (Deflated.tryGetI16 field).map fun read => read.1.toInt

def peekI32 (bytes : List UInt8) (offset : Nat) : Option Int :=
  (peek 4 bytes offset).bind fun field => (Deflated.tryGetI32 field).map fun read => read.1.toInt

structure UnsupportedApiVersionsHeader where
  apiVersion : Int
  correlationId : Int
  deriving DecidableEq

structure Admitted where
  frame : Frame
  saslHandshakeV0 : Bool
  unsupportedApiVersions : Option Int
  deriving DecidableEq

section Gate

variable (protocol : Protocol) (heap : Heap Session)
  (af : Option (AuthenticationFrame Mechname Session Ambient))

def isWithinProtocolRange (apiKey apiVersion : Int) : Bool :=
  (protocol.valid apiKey).any fun range => range.1 ≤ apiVersion && apiVersion ≤ range.2

def unsupportedApiVersionsHeader (bytes : List UInt8) : Option UnsupportedApiVersionsHeader := do
  let apiKey ← peekI16 bytes 4
  let apiVersion ← peekI16 bytes 6
  let correlationId ← peekI32 bytes 8
  if apiKey = apiVersionsKey ∧ !isWithinProtocolRange protocol apiKey apiVersion then
    some { apiVersion, correlationId }
  else none

def isAuthenticated (apiKey : Int) : Bool :=
  af.all fun af => heap.isAuthenticated af.authentication || apiKey == saslHandshakeKey ||
    apiKey == saslAuthenticateKey || apiKey == apiVersionsKey

def saslHandshakeV0 : Bool :=
  (af.bind fun af => heap.v0s af.v0).getD false

def check (request : Admitted) : Except Error Admitted :=
  if isAuthenticated heap af request.frame.apiKey then .ok request else .error .notAuthenticated

def passFrame (bytes : List UInt8) : Except Error Admitted :=
  if saslHandshakeV0 heap af then
    -- After a v0 handshake a token comes without the Kafka headers.
    check heap af
      { frame :=
          { apiKey := saslAuthenticateKey, apiVersion := 0, correlationId := 0, clientId := none
            body := .saslAuthenticate (bytes.drop 4) }
        saslHandshakeV0 := true, unsupportedApiVersions := none }
  else if (peekI16 bytes 4).any fun apiKey => !isAuthenticated heap af apiKey then
    .error .notAuthenticated
  else
    match unsupportedApiVersionsHeader protocol bytes with
    | some header =>
      check heap af
        { frame :=
            { apiKey := apiVersionsKey, apiVersion := 0, correlationId := header.correlationId
              clientId := none, body := .apiVersions }
          saslHandshakeV0 := false, unsupportedApiVersions := some header.apiVersion }
    | none =>
      match protocol.requestFromBytes bytes with
      | none => .error .codec
      | some frame => check heap af { frame, saslHandshakeV0 := false, unsupportedApiVersions := none }

end Gate

/-- The routes of the broker. Those for the SASL requests and for `ApiVersions` are always there. -/
structure Routes where
  protocol : Protocol
  others : List Int
  apiVersions : ApiVersionsResponse
  sessionLifetimeMs : Option Int

/-- What a handler answers, and whether it marks the response as one that is not written. -/
structure Reply where
  body : Option ResponseBody
  suppress : Bool

/-- What the inner service does with a frame: the cells it leaves, its mark to close the connection, the
SASL event that it was, and its answer. -/
structure Served (Session : Type) where
  heap : Heap Session
  close : Bool
  event : Option Event
  body : Except Error ResponseBody

variable (routes : Routes) (ambient : Ambient) (reply : Reply) (heap : Heap Session)
  (authentication : Option (AuthenticationExtension Mechname Session Ambient))

def serveHandshake (mechanism : String) : Served Session :=
  match authentication with
  | none =>
    { heap, close := false, event := none
      body := .ok (.saslHandshake { errorCode := .illegalSaslState, mechanisms := some [] }) }
  | some authentication =>
    let (stage, accepted) :=
      Auth.handshake authentication.config ambient mechanism (heap.stages authentication.stage)
    { heap := heap.setStage authentication.stage stage, close := !accepted
      event := some (.handshake accepted)
      body := .ok (.saslHandshake (handshakeResponse authentication.config accepted)) }

def serveAuthenticate (authBytes : List UInt8) : Served Session :=
  match authentication with
  | none =>
    { heap, close := false, event := none, body := .ok (.saslAuthenticate illegalSaslState) }
  | some authentication =>
    let (stage, outcome, output) :=
      Auth.authenticate authentication.config ambient authBytes (heap.stages authentication.stage)
    { heap := heap.setStage authentication.stage stage, close := false
      event := some (.token outcome)
      body := .ok (.saslAuthenticate (authenticateResponse routes.sessionLifetimeMs outcome output)) }

/-- `FrameRouteService::serve`. Any other handler touches no authentication stage. -/
def route (frame : Frame) : Served Session :=
  let refuse (error : Error) : Served Session := { heap, close := false, event := none, body := .error error }
  if !(frame.apiKey == saslHandshakeKey || frame.apiKey == saslAuthenticateKey ||
      frame.apiKey == apiVersionsKey || routes.others.contains frame.apiKey) then
    refuse (.unknownServiceFrame frame.apiKey frame.apiVersion)
  else if !isWithinProtocolRange routes.protocol frame.apiKey frame.apiVersion then
    refuse (.unsupportedVersion frame.apiKey frame.apiVersion)
  else if frame.apiKey = saslHandshakeKey then
    match frame.body with
    | .saslHandshake mechanism => serveHandshake ambient heap authentication mechanism
    | _ => refuse .codec
  else if frame.apiKey = saslAuthenticateKey then
    match frame.body with
    | .saslAuthenticate authBytes => serveAuthenticate routes ambient heap authentication authBytes
    | _ => refuse .codec
  else if frame.apiKey = apiVersionsKey then
    match frame.body with
    | .apiVersions =>
      { heap, close := false, event := none, body := .ok (.apiVersions routes.apiVersions) }
    | _ => refuse .codec
  else
    match reply.body with
    | some body => { heap, close := false, event := none, body := .ok body }
    | none => refuse .handler

def fixApiVersions (protocol : Protocol) (unsupportedApiVersions : Option Int) : ResponseBody → ResponseBody
  | .apiVersions response =>
    if unsupportedApiVersions.isSome then
      .apiVersions
        { response with
          errorCode := .unsupportedVersion
          apiKeys := ((protocol.valid apiVersionsKey).map fun range =>
            { apiKey := apiVersionsKey, minVersion := range.1, maxVersion := range.2 }).toList }
    else .apiVersions response
  | body => body

/-- The `v0` cell after a request: a v0 handshake that was accepted opens the exchange of raw tokens,
and the token that authenticates ends it. -/
def respondV0 (af : Option (AuthenticationFrame Mechname Session Ambient)) (admitted : Admitted)
    (body : ResponseBody) : Heap Session :=
  match af with
  | none => heap
  | some af =>
    if admitted.saslHandshakeV0 then
      if heap.isAuthenticated af.authentication && (heap.v0s af.v0).isSome then heap.setV0 af.v0 none
      else heap
    else if admitted.frame.apiKey = saslHandshakeKey ∧ admitted.frame.apiVersion = 0 then
      match body with
      | .saslHandshake response =>
        if response.errorCode = .none then heap.setV0 af.v0 (some true) else heap
      | _ => heap
    else heap

def respond (protocol : Protocol) (admitted : Admitted) (body : ResponseBody) : Except Error (List UInt8) :=
  if admitted.saslHandshakeV0 then
    match body with
    | .saslAuthenticate response =>
      if response.authBytes.length < 2 ^ 31 then
        .ok (Lib.Bytes.putNat 4 response.authBytes.length ++ response.authBytes)
      else .error .codec
    | _ => .error .codec
  else
    match protocol.response admitted.frame.correlationId
      (fixApiVersions protocol admitted.unsupportedApiVersions body) admitted.frame.apiKey
      admitted.frame.apiVersion with
    | some bytes => .ok bytes
    | none => .error .codec

end Nisshi.Service
