import RelayMiner.Relayer.Relay
/-!
# The HTTP handler

`handleRelay`, exit by exit, as the list of what it does with one request, and
the task it leaves for the validation pool. What the handler asks of others (the
meter, the validator, the supplier cache, the queues, the backends) answers
freely: the answers are `Answers`. Metrics, logs, deadlines, the compression of
the response and the circuit breaker are left out, and so is what a health check
answers.
-/

namespace RelayMiner.Relayer

open List

structure HTTPRequest where
  health : Bool := false
  webSocketUpgrade : Bool := false
  grpcWeb : Bool := false
  grpc : Bool := false
  body : Option Bytes
  rpcType : String := ""
  simKeyID : String := ""

structure Proxy where
  config : Config
  grpcWebWrapper : Bool := true
  grpcRelayServer : Bool := true
  responseSigner : Bool := true
  supplierCache : Bool := true
  relayMeter : Bool := true
  validator : Bool := true
  relayPipeline : Bool := true
  relayProcessor : Bool := true
  publisher : Bool := true
  simVerifier : Bool := false

inductive SupplierAnswer where
  | failed
  | refused (reason clientMsg : String)
  | serve

structure Answers where
  storeSaturated : Bool := false
  supplier : SupplierAnswer := .serve
  height : Int
  priced : Bool := true
  queueFull : Bool := false
  publishQueued : Nat := 0
  validationQueued : Nat := 0
  admission : MeterAnswer
  healthyEager : Bool := true
  healthy : Bool := true
  validation : Option ValidationError := none
  attempts : Nat → Attempt
  signed : Bool := true
  simSlot : Bool := true
  simVerify : Option Rejection := none
  simAllowKey : Bool := true

/-! ## The handler -/

/-- `none` for every error, which all get one answer. -/
def parseRelayRequest (wire : Wire) (body : Bytes) : Option (RelayRequest × String) :=
  if body = [] then none
  else
    match wire.unmarshal body with
    | none => none
    | some request =>
      let serviceID := (request.sessionHeader.map (·.serviceId)).getD ""
      if serviceID = "" then none
      else if wire.deserializeHTTPRequest request.payload then some (request, serviceID)
      else none

def requestRPCType (svc : ServiceConfig) (header : String) : BackendType :=
  rpcTypeToBackendType
    (if header ≠ "" then header else if svc.defaultBackend ≠ "" then svc.defaultBackend else "jsonrpc")

structure Intake where
  request : RelayRequest
  body : Bytes
  serviceID : String
  svc : ServiceConfig
  rpcType : BackendType

def notAdmitting : String := "relayer is not admitting relays right now"

def supplierChecks (x : Intake) (e : Answers) : List (Bool × Rejection) :=
  (x.request.supplierOperatorAddress = "",
    ⟨400, "missing supplier operator address in relay request", "missing_supplier_address"⟩) ::
  match e.supplier with
  | .failed => [(true, ⟨503, "failed to verify supplier state", "supplier_cache_error"⟩)]
  | .refused reason clientMsg => [(true, ⟨503, clientMsg, reason⟩)]
  | .serve => []

def gates (p : Proxy) (x : Intake) (e : Answers) : List (Bool × Rejection) :=
  [(x.body.length > x.svc.maxRequestBodySize, ⟨413, "request body too large for service", "body_too_large"⟩),
    (x.request.sessionHeader.any fun sh =>
        !sessionHeightsPlausible sh.sessionStartBlockHeight sh.sessionEndBlockHeight e.height,
      ⟨400, "implausible session heights", "implausible_session_heights"⟩),
    (!p.relayMeter, ⟨503, notAdmitting, "metering_not_configured"⟩),
    (!e.priced, ⟨503, notAdmitting, "pricing_unavailable"⟩),
    (e.queueFull, ⟨503, notAdmitting, "publish_queue_full"⟩),
    (p.config.validationQueueMaxBytes x.svc ≤ e.publishQueued, ⟨429, notAdmitting, "service_publish_queue_full"⟩),
    -- A service with no queue is never full.
    ((p.config.validationQueueFor x.serviceID).any (· ≤ e.validationQueued),
      ⟨429, notAdmitting, "validation_queue_full"⟩)]

def routed (p : Proxy) (q : HTTPRequest) : Bool :=
  q.health || q.webSocketUpgrade || (p.grpcWebWrapper && q.grpcWeb) || (q.grpc && p.grpcRelayServer)

def readBody (p : Proxy) (q : HTTPRequest) (e : Answers) : Except Event Bytes :=
  if routed p q then .error .routed
  else if e.storeSaturated then
    .error (.rejected ⟨429, "relayer is not admitting relays: storage saturated", "storage_saturated"⟩)
  else
    match q.body with
    | none => .error (.rejected ⟨400, "failed to read request body", "read_body_error"⟩)
    | some body =>
      if body.length > p.config.maxRequestBodySizeAcrossServices then
        .error (.rejected ⟨413, "request body too large", "body_too_large"⟩)
      else .ok body

def identify (wire : Wire) (p : Proxy) (q : HTTPRequest) (body : Bytes) : Except Event Intake :=
  match parseRelayRequest wire body with
  | none =>
    .error (.rejected ⟨400, "invalid relay request: body must be a valid RelayRequest protobuf", "invalid_relay_request"⟩)
  | some (request, serviceID) =>
    if !p.responseSigner then
      .error (.rejected ⟨500, "relayer not properly configured", "response_signer_not_configured"⟩)
    else if !p.supplierCache then
      .error (.rejected ⟨500, "relayer not properly configured", "supplier_cache_not_configured"⟩)
    else
      match p.config.services.lookup serviceID with
      | none => .error (.rejected ⟨404, "unknown service: " ++ serviceID, "unknown_service"⟩)
      | some svc => .ok { request, body, serviceID, svc, rpcType := requestRPCType svc q.rpcType }

def Simulated (p : Proxy) (q : HTTPRequest) : Prop := q.simKeyID ≠ "" ∧ p.simVerifier = true

instance (p : Proxy) (q : HTTPRequest) : Decidable (Simulated p q) := inferInstanceAs (Decidable (_ ∧ _))

def serveSimulatedHTTP (e : Answers) : List Event :=
  if !e.simSlot then [.rejected ⟨429, "simulation concurrency limit reached", "rate_limited"⟩]
  else
    match e.simVerify with
    | some r => [.rejected r]
    | none =>
      if !e.simAllowKey then [.rejected ⟨429, "simulation rate limit reached", "rate_limited"⟩]
      else
        let out := (e.attempts 0).result
        out.events ++
          if out.err then if out.streaming then [] else [.rejected ⟨502, "backend error", "backend_error"⟩]
          else if out.streaming then [.answered out.body]
          else if out.status ≥ 500 then [.rejected ⟨out.status, "backend service error", "backend_error"⟩]
          else if e.signed then [.answered out.body]
          else [.rejected ⟨500, "failed to sign response", "sign_failed"⟩]

def validateRelayRequest (wire : Wire) (p : Proxy) (body : Bytes) (height : Int) (answer : Option ValidationError) :
    Except ValidationError (List Event) :=
  match wire.unmarshal body with
  | none => .error ⟨false, "invalid relay request"⟩
  | some request =>
    if !p.validator then .ok []
    else
      match answer with
      | some err => .error ⟨err.expired, "relay validation failed: " ++ err.text⟩
      | none => .ok [.validated request height]

structure Stage where
  events : List Event := []
  reservation : Option Reservation := none
  refusal : Option Rejection := none

def fastFail (serviceID : String) : Rejection :=
  ⟨503, "\x7b\"error\":\"service temporarily unavailable\",\"service\":\"" ++ serviceID ++ "\"\x7d", "backend_dial_failed"⟩

def admitRequest (x : Intake) (answer : MeterAnswer) : Stage :=
  match x.request.sessionHeader with
  | none => {}
  | some sh =>
    match answer with
    | .within cost =>
      let r : Reservation :=
        ⟨(sh.sessionId, x.request.supplierOperatorAddress), x.request.supplierOperatorAddress, cost⟩
      { events := [.admitted r], reservation := some r }
    | .failed true => { events := [.letThrough] }
    | .failed false => { refusal := some ⟨503, "relay metering unavailable", "meter_error"⟩ }
    | .over =>
      { refusal := some ⟨429, "session relay limit reached: claimable portion fully consumed", "stake_exhausted"⟩ }

def hasHealthy (p : Proxy) (x : Intake) (healthy : Bool) : Bool :=
  (p.config.getBackendConfig x.serviceID x.rpcType).isSome && healthy

def checkEagerly (wire : Wire) (p : Proxy) (x : Intake) (e : Answers) : Stage :=
  let a := admitRequest x e.admission
  if a.refusal.isSome then a
  else if !hasHealthy p x e.healthyEager then { a with refusal := some (fastFail x.serviceID) }
  else
    match validateRelayRequest wire p x.body e.height e.validation with
    | .error err =>
      { a with refusal := some ⟨403, err.text, if err.expired then "session_expired" else "validation_failed"⟩ }
    | .ok events => { a with events := a.events ++ events }

def answerClient (e : Answers) (out : BackendResult) : Except (List Event) Event :=
  if out.err then
    .error (if out.streaming then [.dropped out.outcome] else [.rejected ⟨502, "backend error", out.outcome⟩])
  else if out.status ≥ 500 then .error [.rejected ⟨out.status, "backend service error", "backend_5xx"⟩]
  else if out.streaming then .ok (.answered out.body)
  else if e.signed then .ok (.answered out.body)
  else .error [.rejected ⟨500, "failed to sign response", "signing_error"⟩]

def submitPublishTask (wire : Wire) (c : Config) (request : RelayRequest) (reqBody respBody : Bytes)
    (arrivalBlockHeight : Int) (serviceID : String) (rpcType : BackendType) : List Event :=
  let supplierAddr := request.supplierOperatorAddress
  let sessionID := (request.sessionHeader.map (·.sessionId)).getD ""
  let applicationAddr := (request.sessionHeader.map (·.applicationAddress)).getD ""
  if supplierAddr = "" then [.dropped "no_supplier"]
  else if sessionID = "" ∨ applicationAddr = "" then []
  else if (c.services.lookup serviceID).isNone then [.dropped "no_publish_queue"]
  else
    [.publishQueued
      { reqBody, respPayloadHash := wire.sha256 respBody, arrivalBlockHeight, serviceID, supplierAddr, sessionID
        applicationAddr, rpcType }]

def account (wire : Wire) (p : Proxy) (x : Intake) (e : Answers) (respBody : Bytes) : List Event :=
  match p.config.getServiceValidationMode x.serviceID with
  | .optimistic =>
    match p.config.validationQueueFor x.serviceID with
    | none => []
    | some _ =>
      [.validationQueued
        { request := x.request, reqBody := x.body, respBody, blockHeight := e.height, serviceID := x.serviceID
          rpcType := x.rpcType }]
  | .eager => submitPublishTask wire p.config x.request x.body respBody e.height x.serviceID x.rpcType

def settle (reservation : Option Reservation) : List Event := reservation.toList.map .settled

def release (reservation : Option Reservation) : List Event := reservation.toList.map .released

def serve (wire : Wire) (p : Proxy) (x : Intake) (e : Answers) : List Event :=
  let a := if p.config.getServiceValidationMode x.serviceID = .eager then checkEagerly wire p x e else {}
  match a.refusal with
  | some r => a.events ++ .rejected r :: release a.reservation
  | none =>
    if !hasHealthy p x e.healthy then a.events ++ .rejected (fastFail x.serviceID) :: release a.reservation
    else
      let (calls, out) := forward e.attempts (p.config.getMaxRetries x.serviceID x.rpcType)
      match answerClient e out with
      | .error events => a.events ++ calls ++ events ++ release a.reservation
      | .ok event => a.events ++ calls ++ event :: settle a.reservation ++ account wire p x e out.body

def handleRelay (wire : Wire) (p : Proxy) (q : HTTPRequest) (e : Answers) : List Event :=
  match (readBody p q e).bind (identify wire p q) with
  | .error event => [event]
  | .ok x =>
    if Simulated p q then .simulated :: serveSimulatedHTTP e
    else
      match firstRefusal (supplierChecks x e ++ gates p x e) with
      | some r => [.rejected r]
      | none => serve wire p x e

/-! ## The validation pool -/

def runValidation (wire : Wire) (p : Proxy) (t : ValidationTask) (validation : Option ValidationError)
    (meter : MeterAnswer) : List Event :=
  let publish := submitPublishTask wire p.config t.request t.reqBody t.respBody t.blockHeight t.serviceID t.rpcType
  match validateRelayRequest wire p t.reqBody t.blockHeight validation with
  | .error err => [.dropped (if err.expired then "session_expired" else "validation_failed")]
  | .ok events =>
    match p.relayMeter, t.request.sessionHeader with
    | true, some sh =>
      match meter with
      | .within cost =>
        events ++ .charged (sh.sessionId, t.request.supplierOperatorAddress) cost :: publish
      | .failed _ => events ++ .unbilled :: publish
      | .over => events ++ [.dropped "stake_exhausted"]
    | _, _ => events ++ publish

/-! ## What each part does -/

section parts

variable {wire : Wire} {p : Proxy} {q : HTTPRequest} {e : Answers} {x : Intake} {body : Bytes}
  {request : RelayRequest} {serviceID : String} {ev : Event} {height : Int}

theorem parseRelayRequest_spec (h : parseRelayRequest wire body = some (request, serviceID)) :
    wire.unmarshal body = some request ∧ ∃ sh, request.sessionHeader = some sh ∧ sh.serviceId = serviceID := by
  simp only [parseRelayRequest] at h
  split_ifs at h
  split at h
  · cases h
  next request' hreq =>
    split_ifs at h with hempty
    cases h
    refine ⟨hreq, ?_⟩
    cases hsh : request.sessionHeader with
    | none => simp [hsh] at hempty
    | some sh => exact ⟨sh, rfl, by simp⟩

/-- A request before its gates is the request of its own body, with a session
header that names its service; its header, or the service, names its transport. -/
structure Identified (wire : Wire) (p : Proxy) (q : HTTPRequest) (x : Intake) : Prop where
  body : q.body = some x.body
  parsed : parseRelayRequest wire x.body = some (x.request, x.serviceID)
  service : p.config.services.lookup x.serviceID = some x.svc
  rpcType : x.rpcType = requestRPCType x.svc q.rpcType

theorem Identified.unmarshal (h : Identified wire p q x) : wire.unmarshal x.body = some x.request :=
  (parseRelayRequest_spec h.parsed).1

theorem Identified.header (h : Identified wire p q x) :
    ∃ sh, x.request.sessionHeader = some sh ∧ sh.serviceId = x.serviceID := (parseRelayRequest_spec h.parsed).2

def TurnedAway (ev : Event) : Prop := ev = .routed ∨ ∃ r, ev = .rejected r

theorem readBody_error (h : readBody p q e = .error ev) : TurnedAway ev := by
  unfold readBody at h
  split_ifs at h
  · cases h; exact .inl rfl
  · cases h; exact .inr ⟨_, rfl⟩
  split at h
  · cases h; exact .inr ⟨_, rfl⟩
  · split_ifs at h
    cases h; exact .inr ⟨_, rfl⟩

theorem readBody_ok (h : readBody p q e = .ok body) : q.body = some body := by
  unfold readBody at h
  split_ifs at h
  split at h
  · cases h
  next hbody =>
    split_ifs at h
    cases h
    exact hbody

theorem identify_error (h : identify wire p q body = .error ev) : TurnedAway ev := by
  unfold identify at h
  split at h
  · cases h; exact .inr ⟨_, rfl⟩
  split_ifs at h
  · cases h; exact .inr ⟨_, rfl⟩
  · cases h; exact .inr ⟨_, rfl⟩
  split at h
  · cases h; exact .inr ⟨_, rfl⟩
  · cases h

theorem identify_ok (hbody : q.body = some body) (h : identify wire p q body = .ok x) : Identified wire p q x := by
  unfold identify at h
  split at h
  · cases h
  next request serviceID hparsed =>
    split_ifs at h
    split at h
    · cases h
    next svc hsvc =>
      cases h
      exact ⟨hbody, hparsed, hsvc, rfl⟩

/-- What the handler does: it turns the request away, serves it as a simulated
relay, refuses it at a gate, or serves it. -/
theorem handleRelay_cases (wire : Wire) (p : Proxy) (q : HTTPRequest) (e : Answers) :
    (∃ ev, handleRelay wire p q e = [ev] ∧ TurnedAway ev) ∨
    (Simulated p q ∧ handleRelay wire p q e = .simulated :: serveSimulatedHTTP e) ∨
    ¬ Simulated p q ∧ ∃ x, Identified wire p q x ∧ handleRelay wire p q e = serve wire p x e := by
  unfold handleRelay
  cases hread : readBody p q e with
  | error ev => exact .inl ⟨ev, rfl, readBody_error hread⟩
  | ok body =>
    cases hid : identify wire p q body with
    | error ev =>
      refine .inl ⟨ev, ?_, identify_error hid⟩
      simp only [Except.bind, hid]
    | ok x =>
      simp only [Except.bind, hid]
      split_ifs with hsim
      · exact .inr (.inl ⟨hsim, rfl⟩)
      split
      · exact .inl ⟨_, rfl, .inr ⟨_, rfl⟩⟩
      · exact .inr (.inr ⟨hsim, x, identify_ok (readBody_ok hread) hid, rfl⟩)

structure Metered (a : Stage) : Prop where
  events : ∀ ev ∈ a.events, (∃ r, ev = .admitted r ∧ a.reservation = some r) ∨ ev = .letThrough
  passed : a.refusal = none → .letThrough ∈ a.events ∨ ∃ r, a.reservation = some r ∧ .admitted r ∈ a.events

theorem admitRequest_spec {sh : SessionHeader} (hsh : x.request.sessionHeader = some sh) (answer : MeterAnswer) :
    Metered (admitRequest x answer) := by
  unfold admitRequest
  rw [hsh]
  match answer with
  | .within cost =>
    refine ⟨fun ev hev => .inl ⟨_, mem_singleton.1 hev, rfl⟩, fun _ => .inr ⟨_, rfl, mem_singleton_self _⟩⟩
  | .failed true => exact ⟨fun ev hev => .inr (mem_singleton.1 hev), fun _ => .inl (mem_singleton_self _)⟩
  | .failed false => exact ⟨by simp, nofun⟩
  | .over => exact ⟨by simp, nofun⟩

theorem validateRelayRequest_ok {answer : Option ValidationError} {events : List Event} (hval : p.validator = true)
    (hreq : wire.unmarshal body = some request) (h : validateRelayRequest wire p body height answer = .ok events) :
    events = [.validated request height] := by
  unfold validateRelayRequest at h
  rw [hreq] at h
  simp only [hval, Bool.not_true, Bool.false_eq_true, if_false] at h
  split at h
  · cases h
  · cases h
    rfl

structure Checked (request : RelayRequest) (height : Int) (a : Stage) : Prop where
  events : ∀ ev ∈ a.events,
    (∃ r, ev = .admitted r ∧ a.reservation = some r) ∨ ev = .letThrough ∨ ev = .validated request height
  passed : a.refusal = none →
    .validated request height ∈ a.events ∧
      (.letThrough ∈ a.events ∨ ∃ r, a.reservation = some r ∧ .admitted r ∈ a.events)

theorem checkEagerly_spec (hx : Identified wire p q x) (hval : p.validator = true) :
    Checked x.request e.height (checkEagerly wire p x e) := by
  obtain ⟨sh, hsh, -⟩ := hx.header
  have ha : Metered (admitRequest x e.admission) := admitRequest_spec hsh e.admission
  have hmetered : ∀ ev ∈ (admitRequest x e.admission).events,
      (∃ r, ev = .admitted r ∧ (admitRequest x e.admission).reservation = some r) ∨
      ev = .letThrough ∨ ev = .validated x.request e.height := fun ev hev => (ha.events ev hev).imp_right .inl
  simp only [checkEagerly]
  split_ifs with hrefused
  · exact ⟨hmetered, fun h => absurd hrefused (by rw [h]; exact Bool.false_ne_true)⟩
  · exact ⟨hmetered, nofun⟩
  split
  · exact ⟨hmetered, nofun⟩
  next events hok =>
    obtain rfl := validateRelayRequest_ok hval hx.unmarshal hok
    refine ⟨forall_mem_append.2 ⟨hmetered, forall_mem_singleton.2 (.inr (.inr rfl))⟩,
      fun h => ⟨mem_append_right _ mem_cons_self, ?_⟩⟩
    rcases ha.passed h with h | ⟨r, hr, h⟩
    · exact .inl (mem_append_left _ h)
    · exact .inr ⟨r, hr, mem_append_left _ h⟩

theorem answerClient_error {out : BackendResult} {events : List Event} (h : answerClient e out = .error events) :
    ∀ ev ∈ events, (∃ r, ev = .rejected r) ∨ ∃ reason, ev = .dropped reason := by
  have hrej : ∀ {r : Rejection} {ev : Event}, ev ∈ [Event.rejected r] →
      (∃ r, ev = .rejected r) ∨ ∃ reason, ev = .dropped reason :=
    fun hev => .inl ⟨_, mem_singleton.1 hev⟩
  unfold answerClient at h
  split_ifs at h
  · cases h; exact fun ev hev => .inr ⟨_, mem_singleton.1 hev⟩
  · cases h; exact fun ev => hrej
  · cases h; exact fun ev => hrej
  · cases h; exact fun ev => hrej

theorem answerClient_ok {out : BackendResult} (h : answerClient e out = .ok ev) : ev = .answered out.body := by
  unfold answerClient at h
  split_ifs at h
  · cases h; rfl
  · cases h; rfl

variable {reqBody respBody : Bytes}

/-- The task a relay is published by is made of its request, the hash of its response and its arrival height. -/
theorem submitPublishTask_spec {c : Config} {rpcType : BackendType}
    (h : ev ∈ submitPublishTask wire c request reqBody respBody height serviceID rpcType) :
    (∃ reason, ev = .dropped reason) ∨ ∃ t, ev = .publishQueued t ∧ t.reqBody = reqBody ∧
      t.respPayloadHash = wire.sha256 respBody ∧ t.arrivalBlockHeight = height ∧ t.serviceID = serviceID ∧
      t.supplierAddr = request.supplierOperatorAddress := by
  simp only [submitPublishTask] at h
  split_ifs at h
  · exact .inl ⟨_, mem_singleton.1 h⟩
  · cases h
  · exact .inl ⟨_, mem_singleton.1 h⟩
  · exact .inr ⟨_, mem_singleton.1 h, rfl, rfl, rfl, rfl, rfl⟩

variable {reservation : Option Reservation}

theorem settle_phase (h : ev ∈ settle reservation) : ev.phase = .budget := by
  obtain ⟨r, -, rfl⟩ := mem_map.1 h
  rfl

theorem release_phase (h : ev ∈ release reservation) : ev.phase = .budget := by
  obtain ⟨r, -, rfl⟩ := mem_map.1 h
  rfl

theorem submitPublishTask_onward {c : Config} {rpcType : BackendType}
    (h : ev ∈ submitPublishTask wire c request reqBody respBody height serviceID rpcType) :
    (∀ m, ev ≠ .published m) ∧ ∀ t, ev ≠ .validationQueued t := by
  rcases submitPublishTask_spec h with ⟨reason, rfl⟩ | ⟨t, rfl, -⟩
  · exact ⟨by simp, nofun⟩
  · exact ⟨by simp, nofun⟩

def Unserved (ev : Event) : Prop := (∃ r, ev = .rejected r) ∨ (∃ reason, ev = .dropped reason) ∨ ev.OfBackend

def stage (wire : Wire) (p : Proxy) (x : Intake) (e : Answers) : Stage :=
  if p.config.getServiceValidationMode x.serviceID = .eager then checkEagerly wire p x e else {}

/-- A relay past its gates is not served, and what it holds is given back; or it
is served, and what it holds is settled and the relay accounted for. -/
theorem serve_cases (wire : Wire) (p : Proxy) (x : Intake) (e : Answers) :
    (∃ tail, serve wire p x e = (stage wire p x e).events ++ tail ++ release (stage wire p x e).reservation ∧
      ∀ ev ∈ tail, Unserved ev) ∨
    (stage wire p x e).refusal = none ∧ hasHealthy p x e.healthy = true ∧ ∃ post body, (∀ ev ∈ post, ev.OfBackend) ∧
      serve wire p x e = (stage wire p x e).events ++ .backendCalled ::
        (post ++ .answered body :: (settle (stage wire p x e).reservation ++ account wire p x e body)) := by
  have hstage : (if p.config.getServiceValidationMode x.serviceID = .eager then checkEagerly wire p x e else {}) =
      stage wire p x e := rfl
  have hrejected : ∀ (r : Rejection), ∀ ev ∈ [Event.rejected r], Unserved ev :=
    fun r ev hev => .inl ⟨r, mem_singleton.1 hev⟩
  simp only [serve, hstage]
  split
  next r _ => exact .inl ⟨[.rejected r], by simp, hrejected r⟩
  next hpassed =>
    split_ifs with hhealthy
    · exact .inl ⟨[.rejected (fastFail x.serviceID)], by simp, hrejected _⟩
    obtain ⟨post, hcalls, hpost⟩ := forward_spec e.attempts (p.config.getMaxRetries x.serviceID x.rpcType)
    split
    next events herr =>
      refine .inl ⟨.backendCalled :: post ++ events, by rw [hcalls]; simp, fun ev hev => ?_⟩
      rcases mem_append.1 hev with h | h
      · rcases mem_cons.1 h with rfl | h
        · exact .inr (.inr (.inl rfl))
        · exact .inr (.inr (hpost ev h))
      · exact (answerClient_error herr ev h).imp_right .inl
    next ev hok =>
      obtain rfl := answerClient_ok hok
      refine .inr ⟨hpassed, by simpa using hhealthy, post,
        (forward e.attempts (p.config.getMaxRetries x.serviceID x.rpcType)).2.body, hpost, ?_⟩
      rw [hcalls]
      simp

theorem stage_eager (hmode : p.config.getServiceValidationMode x.serviceID = .eager) :
    stage wire p x e = checkEagerly wire p x e := if_pos hmode

theorem stage_optimistic (hmode : p.config.getServiceValidationMode x.serviceID = .optimistic) :
    stage wire p x e = {} := if_neg (by rw [hmode]; decide)

/-- Whatever the mode, the stage did nothing but to admit and to validate the request. -/
theorem stage_events (hx : Identified wire p q x) (hval : p.validator = true) (h : ev ∈ (stage wire p x e).events) :
    (∃ r, ev = .admitted r ∧ (stage wire p x e).reservation = some r) ∨ ev = .letThrough ∨
      ev = .validated x.request e.height := by
  cases hmode : p.config.getServiceValidationMode x.serviceID with
  | eager =>
    rw [stage_eager hmode] at h ⊢
    exact (checkEagerly_spec hx hval).events ev h
  | optimistic =>
    rw [stage_optimistic hmode] at h
    cases h

theorem stage_phase (hx : Identified wire p q x) (hval : p.validator = true) (h : ev ∈ (stage wire p x e).events) :
    ev.phase = .check := by
  rcases stage_events hx hval h with ⟨r, rfl, -⟩ | rfl | rfl
  · rfl
  · rfl
  · rfl

/-- The task a served relay leaves: for the validation pool, or for the publisher. -/
theorem account_events (h : ev ∈ account wire p x e body) :
    (∃ reason, ev = .dropped reason) ∨
    (p.config.getServiceValidationMode x.serviceID = .optimistic ∧ ev = .validationQueued
      ⟨x.request, x.body, body, e.height, x.serviceID, x.rpcType⟩) ∨
    p.config.getServiceValidationMode x.serviceID = .eager ∧
      ev ∈ submitPublishTask wire p.config x.request x.body body e.height x.serviceID x.rpcType := by
  unfold account at h
  split at h
  next hmode =>
    split at h
    · cases h
    · exact .inr (.inl ⟨hmode, mem_singleton.1 h⟩)
  next hmode => exact .inr (.inr ⟨hmode, h⟩)

theorem account_optimistic (hmode : p.config.getServiceValidationMode x.serviceID = .optimistic)
    (hqueue : (p.config.validationQueueFor x.serviceID).isSome) (body : Bytes) :
    account wire p x e body = [.validationQueued ⟨x.request, x.body, body, e.height, x.serviceID, x.rpcType⟩] := by
  obtain ⟨bound, hbound⟩ := Option.isSome_iff_exists.1 hqueue
  simp only [account, hmode, hbound]

/-- What the accounting of a relay past its gates leaves: nothing, or one task
for the message it was answered with. A task for the publisher is left by a relay
that was validated. -/
theorem serve_events (hx : Identified wire p q x) (hval : p.validator = true) (h : ev ∈ serve wire p x e) :
    ev.phase ≠ .account ∨ (∃ reason, ev = .dropped reason) ∨ ∃ body, .answered body ∈ serve wire p x e ∧
      (ev = .validationQueued ⟨x.request, x.body, body, e.height, x.serviceID, x.rpcType⟩ ∨
        .validated x.request e.height ∈ serve wire p x e ∧
          ev ∈ submitPublishTask wire p.config x.request x.body body e.height x.serviceID x.rpcType) := by
  have hstage : ∀ ev ∈ (stage wire p x e).events, ev.phase ≠ .account := by
    intro ev h
    rw [stage_phase hx hval h]
    decide
  rcases serve_cases wire p x e with ⟨tail, hserve, htail⟩ | ⟨hpassed, -, post, body, hpost, hserve⟩
  · rw [hserve] at h
    rcases mem_append.1 h with h | h
    · rcases mem_append.1 h with h | h
      · exact .inl (hstage ev h)
      · rcases htail ev h with ⟨r, rfl⟩ | hdropped | h
        · exact .inl nofun
        · exact .inr (.inl hdropped)
        · exact .inl (by rw [h.phase]; decide)
    · exact .inl (by rw [release_phase h]; decide)
  rw [hserve] at h
  rcases mem_append.1 h with h | h
  · exact .inl (hstage ev h)
  rcases mem_cons.1 h with rfl | h
  · exact .inl nofun
  rcases mem_append.1 h with h | h
  · exact .inl (by rw [(hpost ev h).phase]; decide)
  rcases mem_cons.1 h with rfl | h
  · exact .inl nofun
  rcases mem_append.1 h with h | h
  · exact .inl (by rw [settle_phase h]; decide)
  have hanswered : .answered body ∈ serve wire p x e := by rw [hserve]; simp
  rcases account_events h with hdropped | ⟨-, rfl⟩ | ⟨hmode, h⟩
  · exact .inr (.inl hdropped)
  · exact .inr (.inr ⟨body, hanswered, .inl rfl⟩)
  have hchecked : Checked x.request e.height (stage wire p x e) :=
    stage_eager hmode ▸ checkEagerly_spec hx hval
  have hvalid : .validated x.request e.height ∈ serve wire p x e := by
    rw [hserve]
    exact mem_append_left _ (hchecked.passed hpassed).1
  exact .inr (.inr ⟨body, hanswered, .inr ⟨hvalid, h⟩⟩)

/-- What the task of an optimistic relay does: it hands nothing on but what
`submitPublishTask` makes of a relay that it has validated. -/
theorem runValidation_events {t : ValidationTask} {validation : Option ValidationError} {meter : MeterAnswer}
    (hval : p.validator = true) (hreq : wire.unmarshal t.reqBody = some t.request)
    (h : ev ∈ runValidation wire p t validation meter) :
    (ev.isTask = false ∧ ∀ m, ev ≠ .published m) ∨
      .validated t.request t.blockHeight ∈ runValidation wire p t validation meter ∧
        ev ∈ submitPublishTask wire p.config t.request t.reqBody t.respBody t.blockHeight t.serviceID t.rpcType := by
  -- A charge, or its failure, stands between the validation and what is handed on.
  have hcharged : ∀ {charge : Event} {publish : List Event},
      ev ∈ .validated t.request t.blockHeight :: charge :: publish →
      (charge.isTask = false ∧ ∀ m, charge ≠ .published m) →
      (ev.isTask = false ∧ ∀ m, ev ≠ .published m) ∨ ev ∈ publish := by
    intro charge publish hev hcharge
    rcases mem_cons.1 hev with rfl | hev
    · exact .inl ⟨rfl, nofun⟩
    rcases mem_cons.1 hev with rfl | hev
    · exact .inl hcharge
    · exact .inr hev
  simp only [runValidation] at h ⊢
  split at h
  · rw [mem_singleton.1 h]
    exact .inl ⟨rfl, nofun⟩
  next events hok =>
    obtain rfl := validateRelayRequest_ok hval hreq hok
    split at h
    · split at h
      · exact (hcharged h ⟨rfl, nofun⟩).imp_right fun h => ⟨mem_cons_self, h⟩
      · exact (hcharged h ⟨rfl, nofun⟩).imp_right fun h => ⟨mem_cons_self, h⟩
      · exact (hcharged h ⟨rfl, nofun⟩).imp_right nofun
    rcases mem_cons.1 h with rfl | h
    · exact .inl ⟨rfl, nofun⟩
    · exact .inr ⟨mem_cons_self, h⟩

theorem serveSimulatedHTTP_billing (h : ev ∈ serveSimulatedHTTP e) : ev.billing = false := by
  have hanswered : ∀ (body : Bytes), ev ∈ [Event.answered body] → ev.billing = false := by
    intro body h
    rw [mem_singleton.1 h]
    rfl
  unfold serveSimulatedHTTP at h
  split at h
  · exact billing_of_rejected h
  split at h
  · exact billing_of_rejected h
  split at h
  · exact billing_of_rejected h
  rcases mem_append.1 h with h | h
  · exact (BackendResult.events_ofBackend h).billing
  split_ifs at h
  · cases h
  · exact billing_of_rejected h
  · exact hanswered _ h
  · exact billing_of_rejected h
  · exact hanswered _ h
  · exact billing_of_rejected h

end parts

end RelayMiner.Relayer
