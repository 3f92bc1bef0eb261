import Nisshi.Service.Connection

/-! The authentication gate: what reaches the inner service of a SASL listener, whatever frames its
connections send. -/

namespace Nisshi.Service

open Nisshi.Lib Nisshi.SansIo Nisshi.Auth Function

def Exempt (apiKey : Int) : Prop :=
  apiKey = saslHandshakeKey ∨ apiKey = saslAuthenticateKey ∨ apiKey = apiVersionsKey

variable {C Mechname Session Ambient : Type} {heap after : Heap Session}

section Gate

variable {protocol : Protocol} {af : Option (AuthenticationFrame Mechname Session Ambient)}
  {frame : AuthenticationFrame Mechname Session Ambient}

theorem isAuthenticated_iff : isAuthenticated heap (some frame) apiKey = true ↔
      heap.isAuthenticated frame.authentication = true ∨ Exempt apiKey := by
  simp only [isAuthenticated, Option.all_some, Bool.or_eq_true, beq_iff_eq, Exempt, or_assoc]

theorem check_eq_ok (passes : check heap af request = .ok admitted) :
    isAuthenticated heap af admitted.frame.apiKey = true := by
  unfold check at passes
  split at passes
  next allowed =>
    cases passes
    exact allowed
  next => cases passes

/-- Whatever bytes a frame is made from, the gate has checked the API key that it goes by. -/
theorem passFrame_eq_ok {bytes : List UInt8} (passes : passFrame protocol heap af bytes = .ok admitted) :
    isAuthenticated heap af admitted.frame.apiKey = true := by
  unfold passFrame at passes
  split at passes
  · exact check_eq_ok passes
  · split at passes
    · cases passes
    · split at passes
      · exact check_eq_ok passes
      · split at passes
        · cases passes
        · exact check_eq_ok passes

theorem passFrame_congr (stage : after.stages frame.authentication.stage = heap.stages frame.authentication.stage)
    (v0 : after.v0s frame.v0 = heap.v0s frame.v0) (bytes : List UInt8) :
    passFrame protocol after (some frame) bytes = passFrame protocol heap (some frame) bytes := by
  have authenticated : isAuthenticated after (some frame) = isAuthenticated heap (some frame) := by
    funext apiKey
    simp only [isAuthenticated, Option.all_some, Heap.isAuthenticated, stage]
  have raw : saslHandshakeV0 after (some frame) = saslHandshakeV0 heap (some frame) := by
    simp only [saslHandshakeV0, Option.bind_some, v0]
  unfold passFrame check
  rw [authenticated, raw]

end Gate

section Route

variable (routes : Routes) (ambient : Ambient) (reply : Reply)
  (authentication : AuthenticationExtension Mechname Session Ambient) (frame : Frame)

theorem route_cases : ((route routes ambient reply heap (some authentication) frame).heap = heap ∧
      (route routes ambient reply heap (some authentication) frame).event = none) ∨
    (∃ mechanism, route routes ambient reply heap (some authentication) frame =
      serveHandshake ambient heap (some authentication) mechanism) ∨
    (∃ authBytes, route routes ambient reply heap (some authentication) frame =
      serveAuthenticate routes ambient heap (some authentication) authBytes) := by
  unfold route
  split
  · exact .inl ⟨rfl, rfl⟩
  · split
    · exact .inl ⟨rfl, rfl⟩
    · split
      · split
        · exact .inr (.inl ⟨_, rfl⟩)
        · exact .inl ⟨rfl, rfl⟩
      · split
        · split
          · exact .inr (.inr ⟨_, rfl⟩)
          · exact .inl ⟨rfl, rfl⟩
        · split
          · split <;> exact .inl ⟨rfl, rfl⟩
          · split <;> exact .inl ⟨rfl, rfl⟩

theorem route_congr (same : after.stages authentication.stage = heap.stages authentication.stage) :
    (route routes ambient reply after (some authentication) frame).event =
        (route routes ambient reply heap (some authentication) frame).event ∧
      (route routes ambient reply after (some authentication) frame).close =
        (route routes ambient reply heap (some authentication) frame).close ∧
      (route routes ambient reply after (some authentication) frame).body =
        (route routes ambient reply heap (some authentication) frame).body := by
  unfold route serveHandshake serveAuthenticate
  simp only [same]
  split
  · exact ⟨rfl, rfl, rfl⟩
  · split
    · exact ⟨rfl, rfl, rfl⟩
    · split
      · split <;> exact ⟨rfl, rfl, rfl⟩
      · split
        · split <;> exact ⟨rfl, rfl, rfl⟩
        · split
          · split <;> exact ⟨rfl, rfl, rfl⟩
          · split <;> exact ⟨rfl, rfl, rfl⟩

end Route

/-- A step of one connection's stack on the heap: only the cells at its own handle change. -/
structure Touches (handle : Nat) (heap after : Heap Session) : Prop where
  stages : ∀ other, other ≠ handle → after.stages other = heap.stages other
  v0s : ∀ other, other ≠ handle → after.v0s other = heap.v0s other
  next : heap.next ≤ after.next

theorem Touches.refl (handle : Nat) (heap : Heap Session) : Touches handle heap heap :=
  ⟨fun _ _ => rfl, fun _ _ => rfl, le_rfl⟩

theorem Touches.setStage (handle : Nat) (stage : Option (Stage Session)) :
    Touches handle heap (heap.setStage handle stage) :=
  ⟨fun _ different => update_of_ne different _ _, fun _ _ => rfl, le_rfl⟩

theorem Touches.setV0 (touches : Touches handle heap after) (v0 : Option Bool) :
    Touches handle heap (after.setV0 handle v0) := by
  refine ⟨touches.stages, ?_, touches.next⟩
  intro other different
  rw [← touches.v0s other different]
  exact update_of_ne different _ _

/-- The connection's stack holds the cells at `handle`, and they tell how its exchanges stand. -/
structure Guarded (context : TcpContext) (config : Sasl Mechname Session Ambient) (heap : Heap Session)
    (connection : Connection Mechname Session Ambient) (handle : Nat) : Prop where
  allocated : handle < heap.next
  af : connection.af = some { authentication := { config, stage := handle }, v0 := handle }
  context : connection.extensions.context = context
  extension : connection.extensions.authentication = some { config, stage := handle } ∨
    connection.extensions.authentication = none ∧ heap.stages handle = some .server
  serving : ∀ admitted, connection.phase = .serving admitted →
    connection.extensions.authentication = some { config, stage := handle }
  reflects : Reflects (heap.stages handle) connection.history
  passed : ∀ apiKey history, (apiKey, history) ∈ connection.passed → Exempt apiKey ∨ Granted history

namespace Guarded

variable {context : TcpContext} {config : Sasl Mechname Session Ambient}
  {connection : Connection Mechname Session Ambient} {handle other : Nat}

section

variable (guarded : Guarded context config heap connection handle)

include guarded

theorem frame (touches : Touches other heap after) (different : handle ≠ other) :
    Guarded context config after connection handle :=
  { guarded with
    allocated := Nat.lt_of_lt_of_le guarded.allocated touches.next
    extension := by
      rw [touches.stages handle different]
      exact guarded.extension
    reflects := by
      rw [touches.stages handle different]
      exact guarded.reflects }

theorem close (error : Option Error) : Guarded context config heap (connection.setPhase (.closed error)) handle :=
  { guarded with serving := nofun }

theorem isAuthenticated_iff : isAuthenticated heap connection.af apiKey = true ↔
      Granted connection.history ∨ Exempt apiKey := by
  rw [guarded.af, Service.isAuthenticated_iff, guarded.reflects.granted]
  rfl

theorem pass {admitted : Admitted} (allowed : isAuthenticated heap connection.af admitted.frame.apiKey = true) :
    Guarded context config heap (connection.pass admitted) handle := by
  have inserted : (connection.pass admitted).extensions.authentication = some { config, stage := handle } := by
    unfold Connection.pass
    rcases guarded.extension with present | ⟨absent, _⟩
    · simp only [present]
    · simp only [absent, guarded.af, Option.map_some]
  refine { guarded with extension := .inl inserted, serving := fun _ _ => inserted, passed := ?_ }
  intro apiKey history member
  rcases Log.mem_concat.mp member with old | new
  · exact guarded.passed apiKey history old
  · obtain ⟨rfl, rfl⟩ := Prod.mk.inj new
    exact (guarded.isAuthenticated_iff.mp allowed).symm

theorem receive (protocol : Protocol) (size : Int) (bytes : List UInt8) :
    Guarded context config heap (connection.receive protocol heap size bytes) handle := by
  unfold Connection.receive
  split
  · exact guarded.close _
  · split
    · exact guarded.close _
    next passes => exact guarded.pass (passFrame_eq_ok passes)

theorem route (routes : Routes) (ambient : Ambient) (reply : Reply) (frame : Frame)
    (inserted : connection.extensions.authentication = some { config, stage := handle }) :
    Touches handle heap (Service.route routes ambient reply heap connection.extensions.authentication
      frame).heap ∧
    Guarded context config
      (Service.route routes ambient reply heap connection.extensions.authentication frame).heap
      (connection.note (Service.route routes ambient reply heap connection.extensions.authentication
        frame).event) handle := by
  have stays : ∀ {stage : Option (Stage Session)} {event : Option Event},
      Reflects stage (connection.history ++ event.toList) →
      Guarded context config (heap.setStage handle stage) (connection.note event) handle := by
    intro stage event reflects
    refine { guarded with extension := .inl inserted, reflects := ?_ }
    rw [Heap.setStage_stages_self]
    exact reflects
  rw [inserted]
  rcases route_cases routes ambient reply { config, stage := handle } frame with
    ⟨kept, silent⟩ | ⟨mechanism, answered⟩ | ⟨authBytes, answered⟩
  · rw [kept, silent]
    refine ⟨Touches.refl handle heap, { guarded with reflects := ?_ }⟩
    change Reflects (heap.stages handle) (connection.history ++ [])
    rw [List.append_nil]
    exact guarded.reflects
  · rw [answered]
    exact ⟨Touches.setStage handle _, stays (guarded.reflects.of_handshake mechanism)⟩
  · rw [answered]
    exact ⟨Touches.setStage handle _, stays (guarded.reflects.of_authenticate authBytes)⟩

theorem setV0 (v0 : Option Bool) : Guarded context config (heap.setV0 other v0) connection handle :=
  { guarded with }

end

theorem respondV0 (guarded : Guarded context config after connection handle)
    (touches : Touches handle heap after) (admitted : Admitted) (body : ResponseBody) :
    Touches handle heap (Service.respondV0 after connection.af admitted body) ∧
      Guarded context config (Service.respondV0 after connection.af admitted body) connection handle := by
  rw [guarded.af]
  unfold Service.respondV0
  simp only
  split
  · split
    · exact ⟨touches.setV0 none, guarded.setV0 none⟩
    · exact ⟨touches, guarded⟩
  · split
    · split
      · split
        · exact ⟨touches.setV0 (some true), guarded.setV0 (some true)⟩
        · exact ⟨touches, guarded⟩
      · exact ⟨touches, guarded⟩
    · exact ⟨touches, guarded⟩

variable (guarded : Guarded context config heap connection handle)

include guarded

theorem write (bytes : List UInt8) (suppress close : Bool) :
    Guarded context config heap (connection.write bytes suppress close) handle := by
  refine { guarded with serving := ?_ }
  intro admitted at_
  cases close <;> cases at_

theorem serve (at_ : connection.phase = .serving admitted) (routes : Routes) (ambient : Ambient) (reply : Reply) :
    Touches handle heap (connection.serve routes ambient reply heap admitted).1 ∧
      Guarded context config (connection.serve routes ambient reply heap admitted).1
        (connection.serve routes ambient reply heap admitted).2 handle := by
  obtain ⟨touches, routed⟩ :=
    guarded.route routes ambient reply admitted.frame (guarded.serving admitted at_)
  unfold Connection.serve
  simp only
  split
  · exact ⟨touches, routed.close _⟩
  next body _ =>
    obtain ⟨touches, responded⟩ := routed.respondV0 touches admitted body
    split
    · exact ⟨touches, responded.close _⟩
    · exact ⟨touches, responded.write _ _ _⟩

theorem serve_congr (at_ : connection.phase = .serving admitted) (touches : Touches other heap after)
    (different : handle ≠ other) (routes : Routes) (ambient : Ambient) (reply : Reply) :
    (connection.serve routes ambient reply after admitted).2 =
      (connection.serve routes ambient reply heap admitted).2 := by
  unfold Connection.serve
  simp only [guarded.serving admitted at_]
  obtain ⟨event, close, body⟩ := route_congr routes ambient reply { config, stage := handle }
    admitted.frame (touches.stages handle different)
  rw [event, close, body]
  split
  · rfl
  · split <;> rfl

theorem limit : (Granted connection.history → effectiveMaximumFrameSize heap connection.extensions = context.full) ∧
    (¬ Granted connection.history →
      effectiveMaximumFrameSize heap connection.extensions = context.preAuthentication) := by
  have authenticated : connection.extensions.authentication.any heap.isAuthenticated = true ↔
      Granted connection.history := by
    rw [guarded.reflects.granted]
    rcases guarded.extension with present | ⟨absent, server⟩
    · rw [present]
      rfl
    · rw [absent, server]
      simp [Stage.isAuthenticated]
  unfold effectiveMaximumFrameSize
  rw [guarded.context]
  constructor
  · intro granted
    rw [if_pos (authenticated.mpr granted)]
  · intro refused
    rw [if_neg (mt authenticated.mp refused)]

end Guarded

variable [DecidableEq C] {listener : Listener Mechname Session Ambient}
  {config : Sasl Mechname Session Ambient} {s t : State C Mechname Session Ambient} {c : C}

structure Apart (context : TcpContext) (config : Sasl Mechname Session Ambient)
    (s : State C Mechname Session Ambient) (handle : C → Nat) : Prop where
  guarded : ∀ c connection, s.connections c = some connection → Guarded context config s.heap connection (handle c)
  injective : ∀ c d, (s.connections c).isSome → (s.connections d).isSome → handle c = handle d → c = d

namespace Apart

variable {context : TcpContext} {handle : C → Nat}

theorem set (apart : Apart context config s handle) {connection : Connection Mechname Session Ambient}
    (present : (s.connections c).isSome) (touches : Touches (handle c) s.heap heap)
    (mine : Guarded context config heap connection (handle c)) :
    Apart context config (s.set c heap connection) handle := by
  have known : ∀ d, ((s.set c heap connection).connections d).isSome → (s.connections d).isSome := by
    intro d there
    by_cases same : d = c
    · rw [same]
      exact present
    · rwa [State.set_connections_of_ne _ _ _ _ same] at there
  refine ⟨?_, fun d e left right => apart.injective d e (known d left) (known e right)⟩
  intro d other there
  by_cases same : d = c
  · subst same
    rw [State.set_connections_self] at there
    cases there
    exact mine
  · rw [State.set_connections_of_ne _ _ _ _ same] at there
    refine (apart.guarded d other there).frame touches ?_
    intro shared
    exact same (apart.injective d c (by rw [there]; rfl) present shared)

variable (apart : Apart listener.context config s handle)

include apart

theorem accept (secured : listener.saslConfig = some config) (new : s.connections c = none) :
    Apart listener.context config (s.set c (listener.accept s.heap).1 (listener.accept s.heap).2)
      (Function.update handle c s.heap.next) := by
  have touches : Touches s.heap.next s.heap (s.heap.server config).1 :=
    ⟨fun _ different => update_of_ne different _ _, fun _ different => update_of_ne different _ _, Nat.le_succ _⟩
  have old : ∀ d connection, d ≠ c → (s.set c (listener.accept s.heap).1
      (listener.accept s.heap).2).connections d = some connection →
      s.connections d = some connection ∧ update handle c s.heap.next d = handle d := by
    intro d connection different there
    rw [State.set_connections_of_ne _ _ _ _ different] at there
    exact ⟨there, update_of_ne different _ _⟩
  have below : ∀ d, d ≠ c → (s.connections d).isSome → handle d < s.heap.next := by
    intro d _ there
    obtain ⟨connection, there⟩ := Option.isSome_iff_exists.mp there
    exact (apart.guarded d connection there).allocated
  have known : ∀ d, d ≠ c → ((s.set c (listener.accept s.heap).1
      (listener.accept s.heap).2).connections d).isSome → (s.connections d).isSome := by
    intro d different there
    rwa [State.set_connections_of_ne _ _ _ _ different] at there
  constructor
  · intro d connection there
    by_cases same : d = c
    · subst same
      rw [State.set_connections_self] at there
      cases there
      rw [update_self]
      unfold Listener.accept
      rw [secured]
      have cell : (s.heap.server config).1.stages s.heap.next = some .server := update_self ..
      exact
        { allocated := Nat.lt_succ_self _
          af := rfl
          context := rfl
          extension := .inr ⟨rfl, cell⟩
          serving := nofun
          reflects := by
            change Reflects ((s.heap.server config).1.stages s.heap.next) []
            rw [cell]
            exact reflects_server
          passed := nofun }
    · obtain ⟨there, kept⟩ := old d connection same there
      rw [kept]
      unfold Listener.accept
      rw [secured]
      refine (apart.guarded d connection there).frame touches ?_
      exact (below d same (by rw [there]; rfl)).ne
  · intro d e left right shared
    by_cases first : d = c <;> by_cases second : e = c
    · rw [first, second]
    · subst first
      rw [update_self, update_of_ne second] at shared
      exact absurd shared (below e second (known e second right)).ne'
    · subst second
      rw [update_self, update_of_ne first] at shared
      exact absurd shared (below d first (known d first left)).ne
    · rw [update_of_ne first, update_of_ne second] at shared
      exact apart.injective d e (known d first left) (known e second right) shared

theorem step (secured : listener.saslConfig = some config) (step : Step listener s c t) :
    ∃ handle', Apart listener.context config t handle' := by
  cases step with
  | accept new => exact ⟨_, apart.accept secured new⟩
  | receive _ _ present =>
    have guarded := apart.guarded c _ present
    exact ⟨handle, apart.set (by rw [present]; rfl) (Touches.refl _ _) (guarded.receive _ _ _)⟩
  | serve ambient reply present at_ =>
    obtain ⟨touches, guarded⟩ := (apart.guarded c _ present).serve at_ listener.routes ambient reply
    exact ⟨handle, apart.set (by rw [present]; rfl) touches guarded⟩
  | hangUp present =>
    have guarded := apart.guarded c _ present
    exact ⟨handle, apart.set (by rw [present]; rfl) (Touches.refl _ _) (guarded.close none)⟩

theorem touches (secured : listener.saslConfig = some config) (step : Step listener s c t) (different : d ≠ c)
    (there : (s.connections d).isSome) :
    t.connections d = s.connections d ∧ ∃ other, handle d ≠ other ∧ Touches other s.heap t.heap := by
  have unlike : (s.connections c).isSome → handle d ≠ handle c :=
    fun present shared => different (apart.injective d c there present shared)
  cases step with
  | accept =>
    refine ⟨Function.update_of_ne different _ _, s.heap.next, ?_, ?_⟩
    · obtain ⟨connection, there⟩ := Option.isSome_iff_exists.mp there
      exact (apart.guarded d connection there).allocated.ne
    · simp only [State.set, Listener.accept, secured]
      exact ⟨fun _ different => update_of_ne different _ _,
        fun _ different => update_of_ne different _ _, Nat.le_succ _⟩
  | receive _ _ present | hangUp present =>
    exact ⟨Function.update_of_ne different _ _, handle c, unlike (by rw [present]; rfl), Touches.refl _ _⟩
  | serve ambient reply present at_ =>
    exact ⟨Function.update_of_ne different _ _, handle c, unlike (by rw [present]; rfl),
      ((apart.guarded c _ present).serve at_ listener.routes ambient reply).1⟩

end Apart

theorem apart_of_reachable (secured : listener.saslConfig = some config) (reached : (machine listener).Reachable s) :
    ∃ handle, Apart listener.context config s handle := by
  apply Machine.Reachable.invariant
    ?_ ?_ reached
  · intro s start
    cases start
    refine ⟨fun _ => 0, ?_, ?_⟩
    · intro c connection present
      cases present
    · intro c d present
      cases present
  · rintro _ _ _ ⟨_, apart⟩ step
    exact apart.step secured step

/-- On a SASL listener a request beyond the exempt ones reaches the inner service only when the exchange
begun by the last handshake has finished with a validated identity; the steps of other connections change
no answer; and the limit before authentication holds exactly while there is no such exchange. -/
theorem nothing_passes_unauthenticated (secured : listener.saslConfig = some config)
    (reached : (machine listener).Reachable s) {connection : Connection Mechname Session Ambient}
    (present : s.connections c = some connection) :
    (∀ apiKey history, (apiKey, history) ∈ connection.passed → Exempt apiKey ∨ Granted history) ∧
    (∀ bytes admitted, passFrame listener.routes.protocol s.heap connection.af bytes = .ok admitted →
      Exempt admitted.frame.apiKey ∨ Granted connection.history) ∧
    Orderly connection.history ∧ (∀ earlier event, connection.history = earlier ++ [event] →
      (∀ success, event ≠ .token (.finished (some success))) →
      ∀ bytes admitted, passFrame listener.routes.protocol s.heap connection.af bytes = .ok admitted →
        Exempt admitted.frame.apiKey) ∧
    (∀ d t, d ≠ c → Step listener s d t → t.connections c = s.connections c ∧
      (∀ bytes, passFrame listener.routes.protocol t.heap connection.af bytes =
        passFrame listener.routes.protocol s.heap connection.af bytes) ∧
      (∀ ambient reply admitted, connection.phase = .serving admitted →
        (connection.serve listener.routes ambient reply t.heap admitted).2 =
          (connection.serve listener.routes ambient reply s.heap admitted).2) ∧
      effectiveMaximumFrameSize t.heap connection.extensions = effectiveMaximumFrameSize s.heap connection.extensions) ∧
    (Granted connection.history → effectiveMaximumFrameSize s.heap connection.extensions = listener.context.full) ∧
    (¬ Granted connection.history →
      effectiveMaximumFrameSize s.heap connection.extensions = listener.context.preAuthentication) := by
  obtain ⟨_, apart⟩ := apart_of_reachable secured reached
  have guarded := apart.guarded c connection present
  have gate : ∀ bytes admitted, passFrame listener.routes.protocol s.heap connection.af bytes = .ok admitted →
      Exempt admitted.frame.apiKey ∨ Granted connection.history :=
    fun bytes admitted passes => (guarded.isAuthenticated_iff.mp (passFrame_eq_ok passes)).symm
  refine ⟨guarded.passed, gate, guarded.reflects.orderly, ?_, ?_, guarded.limit⟩
  · intro earlier event last revokes bytes admitted passes
    rcases gate bytes admitted passes with exempt | granted
    · exact exempt
    · rw [last, granted_snoc] at granted
      obtain ⟨_, success, same⟩ := granted
      exact absurd same (revokes success)
  · intro d t different step
    obtain ⟨kept, _, unlike, touches⟩ :=
      apart.touches secured step different.symm (by rw [present]; rfl)
    refine ⟨kept, ?_, ?_, ?_⟩
    · intro bytes
      rw [guarded.af]
      exact passFrame_congr (touches.stages _ unlike) (touches.v0s _ unlike) bytes
    · intro ambient reply admitted at_
      exact guarded.serve_congr at_ touches unlike listener.routes ambient reply
    · have later := (guarded.frame touches unlike).limit
      by_cases granted : Granted connection.history
      · rw [later.1 granted, guarded.limit.1 granted]
      · rw [later.2 granted, guarded.limit.2 granted]

/-! A listener whose mechanism takes one token. -/

def loneSasl : Sasl Unit Unit Unit where
  available := ["SCRAM-SHA-256"]
  parse mechanism := if mechanism = "SCRAM-SHA-256" then some () else none
  startSuggested _ _ := some ()
  step _ _ token := if token = [1] then some (.finished, [2], ()) else none
  validation _ := ((), some (.ok { authId := "alice" }))

def loneProtocol : Protocol where
  requestFromBytes bytes := do
    let apiKey ← peekI16 bytes 4
    let apiVersion ← peekI16 bytes 6
    let correlationId ← peekI32 bytes 8
    let body := if apiKey = saslHandshakeKey then .saslHandshake "SCRAM-SHA-256"
      else if apiKey = saslAuthenticateKey then .saslAuthenticate (bytes.drop 12)
      else .other (bytes.drop 12)
    some { apiKey, apiVersion, correlationId, clientId := none, body }
  response _ _ _ _ := some []
  valid _ := some (0, 9)

def loneListener : Listener Unit Unit Unit where
  saslConfig := some loneSasl
  context := .services (some loneSasl)
  routes :=
    { protocol := loneProtocol, others := [0], apiVersions := { errorCode := .none, apiKeys := [] }
      sessionLifetimeMs := some 60000 }

def loneFrame (apiKey correlationId : Int) (body : RequestBody) : Admitted where
  frame := { apiKey, apiVersion := 1, correlationId, clientId := none, body }
  saslHandshakeV0 := false
  unsupportedApiVersions := none

/-- A produce request (API key 0) passes after a handshake and the token that authenticates. -/
theorem nothing_passes_unauthenticated_produce : ∃ (s : State Unit Unit Unit Unit)
    (connection : Connection Unit Unit Unit) (history : List Event),
    (machine loneListener).Reachable s ∧ s.connections () = some connection ∧
    (0, history) ∈ connection.passed ∧ Granted history := by
  have start : (machine loneListener).Reachable (State.start : State Unit Unit Unit Unit) := .init rfl
  have handshake := ((start.step (.accept (c := ()) rfl)).step (.receive 8 [0, 17, 0, 1, 0, 0, 0, 7]
    (State.set_connections_self ..) rfl (by decide))).step
    (.serve () { body := none, suppress := false } (State.set_connections_self ..)
      (show _ = Phase.serving (loneFrame 17 7 (.saslHandshake "SCRAM-SHA-256")) by decide +kernel))
  have token := (handshake.step (.receive 9 [0, 36, 0, 1, 0, 0, 0, 8, 1]
    (State.set_connections_self ..) (by decide +kernel) (by decide))).step
    (.serve () { body := none, suppress := false } (State.set_connections_self ..)
      (show _ = Phase.serving (loneFrame 36 8 (.saslAuthenticate [1])) by decide +kernel))
  have produce := token.step (.receive 8 [0, 0, 0, 1, 0, 0, 0, 9] (State.set_connections_self ..)
    (by decide +kernel) (by decide))
  have facts := nothing_passes_unauthenticated rfl produce (State.set_connections_self ..)
  have granted := (facts.1 0 [.handshake true, .token (.finished (some { authId := "alice" }))]
    (by decide +kernel)).resolve_left (by unfold Exempt; decide)
  exact ⟨_, _, _, produce, State.set_connections_self .., by decide +kernel, granted⟩

end Nisshi.Service
