import RelayMiner.Lib.Log
import RelayMiner.Relayer.RelayProcessor
/-!
# The gRPC handler

`handleSendRelay`, exit by exit, with the height it read when the call came in. A
relay is validated and admitted before its backend is called, and mined by the
handler itself once the client has its response. The transport of the payload is
resolved by the environment, as whether it has a healthy backend.
-/

namespace RelayMiner.Relayer

open List

structure GRPCCall where
  message : Except String RelayRequest
  simKeyID : String := ""

structure GRPCAnswers where
  storeSaturated : Bool := false
  hasSigner : Bool := true
  queueFull : Bool := false
  validation : Option ValidationError := none
  disconnected : Bool := false
  priced : Bool := true
  admission : MeterAnswer
  healthy : Bool := true
  backend : BackendResult
  cut : Bool := false
  signing : Option String := none
  sending : Option String := none
  processing : Processing := {}
  simSlot : Bool := true
  simVerify : Option Rejection := none
  simAllowKey : Bool := true

/-! ## The handler -/

def grpcChecks (p : Proxy) (request : RelayRequest) (sh : SessionHeader) (a : GRPCAnswers) : List (Bool × Rejection) :=
  (sh.serviceId = "", ⟨3, "missing service ID in session header", "missing_service_id"⟩) ::
  (request.supplierOperatorAddress = "",
    ⟨3, "missing supplier operator address in RelayRequest", "missing_supplier_address"⟩) ::
  (!p.responseSigner || !a.hasSigner,
    ⟨9, "no signer for supplier " ++ request.supplierOperatorAddress, "no_local_signer"⟩) ::
  match p.config.services.lookup sh.serviceId with
  | none => [(true, ⟨5, "unknown service: " ++ sh.serviceId, "unknown_service"⟩)]
  | some svc =>
    [(request.payload.length > svc.maxRequestBodySize,
      ⟨8, "request body too large for service: " ++ toString request.payload.length ++ " > " ++
        toString svc.maxRequestBodySize, "body_too_large"⟩)]

def grpcGates (p : Proxy) (a : GRPCAnswers) : List (Bool × Rejection) :=
  [(!p.relayPipeline, ⟨13, notAdmitting, "metering_not_configured"⟩),
    (a.queueFull, ⟨14, notAdmitting, "publish_queue_full"⟩)]

def clientDisconnected : Rejection := ⟨1, "client disconnected", "client_disconnected"⟩

def admitRelay (request : RelayRequest) (sh : SessionHeader) (a : GRPCAnswers) : Stage :=
  match a.admission with
  | .within cost =>
    let r : Reservation := ⟨(sh.sessionId, request.supplierOperatorAddress), request.supplierOperatorAddress, cost⟩
    { events := [.admitted r], reservation := some r }
  | .failed true => { events := [.letThrough] }
  | .failed false =>
    { refusal := some (if a.disconnected then clientDisconnected
        else ⟨14, "unable to process relay request", "meter_error"⟩) }
  | .over => { refusal := some ⟨8, "relay rejected - stake limit exceeded", "stake_exhausted"⟩ }

def checkCall (wire : Wire) (request : RelayRequest) (sh : SessionHeader) (height : Int) (a : GRPCAnswers) : Stage :=
  match a.validation with
  | some err =>
    { refusal := some (if a.disconnected then clientDisconnected
        else ⟨7, "relay validation failed: validation failed: " ++ err.text,
          if err.expired then "session_expired" else "validation_failed"⟩) }
  | none =>
    if !a.priced then
      { events := [.validated request height], refusal := some ⟨14, notAdmitting, "pricing_unavailable"⟩ }
    else
      let st := admitRelay request sh a
      let st := { st with events := .validated request height :: st.events }
      if st.refusal.isSome then st
      else if !wire.deserializeHTTPRequest request.payload then
        { st with refusal := some ⟨3, "failed to deserialize POKTHTTPRequest", "invalid_relay_request"⟩ }
      else if !a.healthy then
        { st with refusal := some ⟨14, "all backends unhealthy for service " ++ sh.serviceId, "backend_dial_failed"⟩ }
      else st

def answerCall (a : GRPCAnswers) : Except Event Event :=
  if a.backend.err then
    .error (.rejected (if a.cut then ⟨8, "relay cut: storage saturated", "storage_saturated"⟩
      else ⟨500, "backend error", a.backend.outcome⟩))
  else if a.backend.status ≥ 500 then
    .error (.rejected ⟨14, "backend service error: HTTP " ++ toString a.backend.status, "backend_5xx"⟩)
  else
    match a.signing, a.sending with
    | some err, _ => .error (.rejected ⟨13, "failed to build/sign response: " ++ err, "signing_error"⟩)
    | none, some err => .error (.rejected ⟨13, "failed to send response: " ++ err, "send_error"⟩)
    | none, none => .ok (.answered a.backend.body)

def mineCall (wire : Wire) (target : String → Int → Bytes) (p : Proxy) (request : RelayRequest) (sh : SessionHeader)
    (height : Int) (a : GRPCAnswers) : List Event :=
  if !p.relayProcessor then []
  else
    match wire.marshal request with
    | none => [.dropped "marshal_failed"]
    | some reqBz =>
      publish p.publisher (processRelay wire target reqBz a.backend.body request.supplierOperatorAddress sh.serviceId
        height a.processing)

def serveCall (wire : Wire) (target : String → Int → Bytes) (p : Proxy) (request : RelayRequest) (sh : SessionHeader)
    (height : Int) (a : GRPCAnswers) : List Event :=
  let st := checkCall wire request sh height a
  match st.refusal with
  | some r => st.events ++ .rejected r :: release st.reservation
  | none =>
    match answerCall a with
    | .error event => st.events ++ .backendCalled :: event :: release st.reservation
    | .ok event =>
      st.events ++ .backendCalled :: event :: settle st.reservation ++ mineCall wire target p request sh height a

def serveSimulatedGRPC (wire : Wire) (request : RelayRequest) (a : GRPCAnswers) : List Event :=
  if !a.simSlot then [.rejected ⟨8, "simulation concurrency limit reached", "rate_limited"⟩]
  else
    match a.simVerify with
    | some r => [.rejected r]
    | none =>
      if !a.simAllowKey then [.rejected ⟨8, "simulation rate limit reached", "rate_limited"⟩]
      else if !wire.deserializeHTTPRequest request.payload then
        [.rejected ⟨3, "failed to deserialize payload", "verify_failed"⟩]
      else if !a.healthy then [.rejected ⟨14, "backend unavailable", "backend_error"⟩]
      else
        let answer : Event :=
          if a.backend.err then .rejected ⟨14, "backend error", "backend_error"⟩
          else if a.backend.status ≥ 500 then
            .rejected ⟨14, "backend service error: HTTP " ++ toString a.backend.status, "backend_error"⟩
          else
            match a.signing, a.sending with
            | some err, _ => .rejected ⟨13, "failed to sign response: " ++ err, "sign_failed"⟩
            | none, some err => .rejected ⟨13, "failed to send response: " ++ err, "backend_error"⟩
            | none, none => .answered a.backend.body
        [.backendCalled, answer]

def GRPCCall.Simulated (p : Proxy) (c : GRPCCall) : Prop := c.simKeyID ≠ "" ∧ p.simVerifier = true

instance (p : Proxy) (c : GRPCCall) : Decidable (c.Simulated p) := inferInstanceAs (Decidable (_ ∧ _))

def serveSendRelay (wire : Wire) (target : String → Int → Bytes) (p : Proxy) (c : GRPCCall) (height : Int)
    (a : GRPCAnswers) : List Event :=
  match c.message with
  | .error err => [.rejected ⟨3, "failed to receive request: " ++ err, "recv_error"⟩]
  | .ok request =>
    match request.sessionHeader with
    | none => [.rejected ⟨3, "missing session header in RelayRequest", "invalid_relay_request"⟩]
    | some sh =>
      match firstRefusal (grpcChecks p request sh a) with
      | some r => [.rejected r]
      | none =>
        if c.Simulated p then .simulated :: serveSimulatedGRPC wire request a
        else
          match firstRefusal (grpcGates p a) with
          | some r => [.rejected r]
          | none => serveCall wire target p request sh height a

def handleSendRelay (wire : Wire) (target : String → Int → Bytes) (p : Proxy) (c : GRPCCall) (height : Int)
    (a : GRPCAnswers) : List Event :=
  if a.storeSaturated then
    [.rejected ⟨8, "relayer is not admitting relays: storage saturated", "storage_saturated"⟩]
  else serveSendRelay wire target p c height a

/-! ## What a call does -/

section calls

variable {wire : Wire} {target : String → Int → Bytes} {p : Proxy} {c : GRPCCall} {request : RelayRequest}
  {sh : SessionHeader} {height : Int} {a : GRPCAnswers} {ev : Event}

theorem admitRelay_events (h : ev ∈ (admitRelay request sh a).events) : (∃ r, ev = .admitted r) ∨ ev = .letThrough := by
  unfold admitRelay at h
  split at h
  · exact .inl ⟨_, mem_singleton.1 h⟩
  · exact .inr (mem_singleton.1 h)
  · cases h
  · cases h

/-- What is done before the backend is called: the request is validated first. -/
theorem checkCall_phase (h : ev ∈ (checkCall wire request sh height a).events) : ev.phase = .check := by
  have hadm : ∀ ev ∈ .validated request height :: (admitRelay request sh a).events, ev.phase = .check := by
    intro ev hev
    rcases mem_cons.1 hev with rfl | h
    · rfl
    rcases admitRelay_events h with ⟨r, rfl⟩ | rfl
    · rfl
    · rfl
  simp only [checkCall] at h
  split at h
  · cases h
  split_ifs at h
  · rw [mem_singleton.1 h]; rfl
  · exact hadm ev h
  · exact hadm ev h
  · exact hadm ev h
  · exact hadm ev h

theorem checkCall_validated (h : (checkCall wire request sh height a).refusal = none) :
    .validated request height ∈ (checkCall wire request sh height a).events := by
  simp only [checkCall] at h ⊢
  split at h
  · cases h
  split_ifs at h ⊢
  · exact mem_cons_self
  · exact mem_cons_self

theorem answerCall_error (h : answerCall a = .error ev) : ∃ r, ev = .rejected r := by
  unfold answerCall at h
  split at h
  · cases h; exact ⟨_, rfl⟩
  split at h
  · cases h; exact ⟨_, rfl⟩
  split at h
  · cases h; exact ⟨_, rfl⟩
  · cases h; exact ⟨_, rfl⟩
  · cases h

theorem answerCall_ok (h : answerCall a = .ok ev) : ev = .answered a.backend.body := by
  unfold answerCall at h
  split at h
  · cases h
  split at h
  · cases h
  split at h
  · cases h
  · cases h
  · cases h; rfl

/-- A message the call publishes is that of its own request, encoded again. -/
theorem mineCall_events (hsh : request.sessionHeader = some sh) (h : ev ∈ mineCall wire target p request sh height a) :
    (∃ reason, ev = .dropped reason) ∨ ∃ m, ev = .published m ∧ OwnNames wire target request sh a.backend.body m := by
  unfold mineCall at h
  split_ifs at h
  · cases h
  split at h
  · exact .inl ⟨_, mem_singleton.1 h⟩
  next reqBz hbz =>
    rcases publish_events h with hdropped | ⟨m, rfl, hm⟩
    · exact .inl hdropped
    · exact .inr ⟨m, rfl, processRelayPayloadHash_mined (wire.unmarshal_marshal request reqBz hbz) hsh hm⟩

/-- A call past its gates is not served, and nothing is accounted for; or it is served, and mined. -/
theorem serveCall_cases (wire : Wire) (target : String → Int → Bytes) (p : Proxy) (request : RelayRequest)
    (sh : SessionHeader) (height : Int) (a : GRPCAnswers) :
    (∀ ev ∈ serveCall wire target p request sh height a, ev.phase ≠ .account) ∨
    ∃ front, serveCall wire target p request sh height a = front ++ mineCall wire target p request sh height a ∧
      (∀ ev ∈ front, ev.phase ≠ .account) ∧ .validated request height ∈ front ∧ .answered a.backend.body ∈ front := by
  have hchecked : ∀ ev ∈ (checkCall wire request sh height a).events, ev.phase ≠ .account :=
    fun ev h => by rw [checkCall_phase h]; decide
  simp only [serveCall]
  split
  · left
    intro ev hev
    rcases mem_append.1 hev with h | h
    · exact hchecked ev h
    rcases mem_cons.1 h with rfl | h
    · exact nofun
    · rw [release_phase h]; decide
  next hpassed =>
    split
    next event herr =>
      obtain ⟨r, rfl⟩ := answerCall_error herr
      left
      intro ev hev
      rcases mem_append.1 hev with h | h
      · exact hchecked ev h
      rcases mem_cons.1 h with rfl | h
      · decide
      rcases mem_cons.1 h with rfl | h
      · exact nofun
      · rw [release_phase h]; decide
    next event hok =>
      obtain rfl := answerCall_ok hok
      refine .inr ⟨_, rfl, fun ev hev => ?_, mem_append_left _ (checkCall_validated hpassed), by simp⟩
      rcases mem_append.1 hev with h | h
      · exact hchecked ev h
      rcases mem_cons.1 h with rfl | h
      · decide
      rcases mem_cons.1 h with rfl | h
      · exact nofun
      · rw [settle_phase h]; decide

theorem serveSimulatedGRPC_billing (h : ev ∈ serveSimulatedGRPC wire request a) : ev.billing = false := by
  unfold serveSimulatedGRPC at h
  split at h
  · exact billing_of_rejected h
  split at h
  · exact billing_of_rejected h
  split at h
  · exact billing_of_rejected h
  split at h
  · exact billing_of_rejected h
  split at h
  · exact billing_of_rejected h
  rcases mem_cons.1 h with rfl | h
  · rfl
  rw [mem_singleton.1 h]
  split
  · rfl
  split
  · rfl
  split
  · rfl
  · rfl
  · rfl

/-- What the handler does: it refuses the call, serves it as a simulated one, or serves it. -/
theorem handleSendRelay_cases (wire : Wire) (target : String → Int → Bytes) (p : Proxy) (c : GRPCCall) (height : Int)
    (a : GRPCAnswers) :
    (∃ r, handleSendRelay wire target p c height a = [.rejected r]) ∨
    (∃ request, handleSendRelay wire target p c height a = .simulated :: serveSimulatedGRPC wire request a) ∨
    ¬ c.Simulated p ∧ ∃ request sh, request.sessionHeader = some sh ∧
      handleSendRelay wire target p c height a = serveCall wire target p request sh height a := by
  unfold handleSendRelay
  split
  · exact .inl ⟨_, rfl⟩
  unfold serveSendRelay
  split
  · exact .inl ⟨_, rfl⟩
  next request _ =>
    split
    · exact .inl ⟨_, rfl⟩
    next sh hsh =>
      split
      · exact .inl ⟨_, rfl⟩
      split_ifs with hsim
      · exact .inr (.inl ⟨request, rfl⟩)
      split
      · exact .inl ⟨_, rfl⟩
      · exact .inr (.inr ⟨hsim, request, sh, hsh, rfl⟩)

end calls

end RelayMiner.Relayer
