import RelayMiner.Lib.Log
import RelayMiner.Relayer.RelayProcessor
/-!
# The WebSocket bridge

A connection carries one service, one supplier and one application. A frame of the
gateway is validated when it is handled, and becomes the request that every later
message of the backend answers, until the next frame; each of those messages is
charged and mined. The bridge reads the height for each frame and each message.
The handshake is left to the environment: a bridge opens for any service, with or
without an owner, simulated or not.
-/

namespace RelayMiner.Relayer

open List

structure Bridge where
  serviceID : String
  simulated : Bool := false
  owner : Option String := none
  application : Option String := none
  backendConn : Bool := false
  latestRequest : Option (Nat × RelayRequest) := none
  closed : Bool := false

def Bridge.close (b : Bridge) : Bridge := { b with closed := true }

def Bridge.ownerAddress (b : Bridge) : String := b.owner.getD ""

/-! ## Frames of the gateway -/

/-- One service, one application, one supplier: the first frame gives the
connection those it has not. What a refused frame gave it stays, on a connection
that is closed. -/
def adoptOrVerifyIdentity (b : Bridge) (relayReq : RelayRequest) : Option Rejection × Bridge :=
  let reqSupplier := relayReq.supplierOperatorAddress
  if reqSupplier = "" then (some ⟨4001, "relay request names no supplier", "missing_supplier_address"⟩, b.close)
  else
    match relayReq.sessionHeader with
    | none => (some ⟨4001, "relay request carries no session header", "invalid_relay_request"⟩, b.close)
    | some sh =>
      if sh.serviceId ≠ b.serviceID then
        (some ⟨4001, "service does not match this connection", "service_changed"⟩, b.close)
      else if b.application.any (· ≠ sh.applicationAddress) then
        (some ⟨4001, "application does not match this connection", "application_changed"⟩, b.close)
      else
        let b := { b with application := some sh.applicationAddress }
        if b.owner.any (· ≠ reqSupplier) then
          (some ⟨4001, "supplier does not own this connection", "supplier_changed"⟩, b.close)
        else (none, { b with owner := some reqSupplier })

structure FrameAnswers where
  queueFull : Bool := false
  validation : Option ValidationError := none
  /-- `CheckBudget`, which reserves and charges nothing. -/
  budget : MeterAnswer
  dialed : Bool := true
  written : Bool := true
  simSlot : Bool := true
  simVerify : Option Rejection := none
  simAllowKey : Bool := true

def simulateFrame (a : FrameAnswers) : Option Rejection :=
  if !a.simSlot then some ⟨1013, "simulation concurrency limit reached", "rate_limited"⟩
  else if a.simVerify.isSome then a.simVerify
  else if !a.simAllowKey then some ⟨1013, "simulation rate limit reached", "rate_limited"⟩
  else none

def admitFrame (p : Proxy) (b : Bridge) (relayReq : RelayRequest) (height : Int) (a : FrameAnswers) :
    List Event × Option Rejection :=
  if b.simulated then ([.simulated], simulateFrame a)
  else if !p.relayPipeline then
    ([], some ⟨1011, "relayer is not admitting relays right now", "metering_not_configured"⟩)
  else if a.queueFull then ([], some ⟨1013, "relayer publish queue is full", "publish_queue_full"⟩)
  else
    match a.validation, a.budget with
    | some err, _ =>
      ([], some ⟨4001, "relay validation failed", if err.expired then "session_expired" else "validation_failed"⟩)
    | none, .within _ => ([.validated relayReq height], none)
    | none, .failed true => ([.validated relayReq height, .letThrough], none)
    | none, .failed false =>
      ([.validated relayReq height], some ⟨1013, "unable to process relay request", "meter_error"⟩)
    | none, .over => ([.validated relayReq height], some ⟨4002, "stake limit exceeded", "stake_exhausted"⟩)

/-- A frame that is no relay request is forwarded as it is, once a relay has
established the connection. -/
def forwardToBackend (b : Bridge) (a : FrameAnswers) : List Event × Bridge :=
  if !b.backendConn then
    ([.rejected ⟨4001, "no relay request has established this connection", "no_relay_yet"⟩], b.close)
  else ([], if a.written then b else b.close)

/-- The frame is relay `id`. It may come after the connection was closed: the
loop may take up a waiting message before it sees its context end. -/
def handleGatewayMessage (wire : Wire) (p : Proxy) (b : Bridge) (id : Nat) (data : Bytes) (height : Int)
    (a : FrameAnswers) : List Event × Bridge :=
  match wire.unmarshal data with
  | none => forwardToBackend b a
  | some relayReq =>
    match adoptOrVerifyIdentity b relayReq with
    | (some r, b) => ([.rejected r], b)
    | (none, b) =>
      match admitFrame p b relayReq height a with
      | (events, some r) => (events ++ [.rejected r], b.close)
      | (events, none) =>
        if !b.backendConn && !a.dialed then
          (events ++ [.rejected ⟨1013, "backend unavailable", "backend_dial_failed"⟩], b.close)
        else
          let b := { b with backendConn := true, latestRequest := some (id, relayReq) }
          (events ++ [.backendCalled], if a.written then b else b.close)

/-! ## Messages of the backend -/

structure PushAnswers where
  dispatcherHealthy : Bool := true
  queueFull : Bool := false
  signed : Bool := true
  written : Bool := true
  charge : Option (Int × Bool)
  processing : Processing := {}

def chargeServedMessage (b : Bridge) (req : RelayRequest) (a : PushAnswers) : List Event × Bool :=
  if b.simulated then ([], false)
  else
    match a.charge with
    | none => ([.unbilled], false)
    | some (cost, atBudget) =>
      ([.charged ((req.sessionHeader.map (·.sessionId)).getD "", b.ownerAddress) cost], atBudget)

def emitRelay (wire : Wire) (target : String → Int → Bytes) (p : Proxy) (b : Bridge) (req : RelayRequest)
    (respPayload : Bytes) (height : Int) (a : PushAnswers) : List Event :=
  if b.simulated then []
  else if !p.publisher then []
  else if b.ownerAddress = "" then [.dropped "no_supplier"]
  else
    match wire.marshal req with
    | none => [.dropped "marshal_failed"]
    | some reqBytes =>
      publish p.publisher (processRelay wire target reqBytes respPayload b.ownerAddress b.serviceID height a.processing)

def pushChecks (b : Bridge) (a : PushAnswers) : List (Bool × Rejection) :=
  [(!b.simulated && !a.dispatcherHealthy, ⟨1013, "unable to process relay request", "meter_error"⟩),
    (!b.simulated && a.queueFull, ⟨1013, "relayer publish queue is full", "publish_queue_full"⟩),
    (!a.signed, ⟨1011, "unable to sign response", "signing_error"⟩),
    (!a.written, ⟨1011, "client write failed", ""⟩)]

/-- A message after the connection was closed is neither written nor charged; one
before any request is the client's as it is. -/
def handleBackendMessage (wire : Wire) (target : String → Int → Bytes) (p : Proxy) (b : Bridge) (data : Bytes)
    (height : Int) (a : PushAnswers) : List Event × Bridge :=
  if b.closed then ([], b)
  else
    match b.latestRequest with
    | none => ([], if a.written then b else b.close)
    | some (_, latestReq) =>
      match firstRefusal (pushChecks b a) with
      | some r => ([.rejected r], b.close)
      | none =>
        let (charged, atBudget) := chargeServedMessage b latestReq a
        (.answered data :: charged ++ emitRelay wire target p b latestReq data height a,
          if atBudget then b.close else b)

/-! ## What a bridge keeps -/

section bridges

variable {wire : Wire} {target : String → Int → Bytes} {p : Proxy} {b b' : Bridge} {id : Nat} {relayReq : RelayRequest}
  {data : Bytes} {height : Int}

/-- A frame that passes names the connection's service and its owner, whom no frame changes. -/
theorem adoptOrVerifyIdentity_ok (h : adoptOrVerifyIdentity b relayReq = (none, b')) :
    (∃ sh, relayReq.sessionHeader = some sh ∧ sh.serviceId = b'.serviceID) ∧
      b'.owner = some relayReq.supplierOperatorAddress := by
  simp only [adoptOrVerifyIdentity] at h
  split at h
  · cases h
  split at h
  · cases h
  next sh hsh =>
    split at h
    · cases h
    next hservice =>
      split_ifs at h
      · cases h
      · cases h
      · cases h
        exact ⟨⟨sh, hsh, not_not.1 hservice⟩, rfl⟩

structure Keeps (b b' : Bridge) : Prop where
  serviceID : b'.serviceID = b.serviceID
  simulated : b'.simulated = b.simulated
  latestRequest : b'.latestRequest = b.latestRequest
  owner : ∀ o, b.owner = some o → b'.owner = some o

theorem Keeps.refl (b : Bridge) : Keeps b b := ⟨rfl, rfl, rfl, fun _ h => h⟩

theorem Keeps.close {b b' : Bridge} (h : Keeps b b') : Keeps b b'.close := ⟨h.1, h.2, h.3, h.4⟩

theorem adoptOrVerifyIdentity_keeps (b : Bridge) (relayReq : RelayRequest) :
    Keeps b (adoptOrVerifyIdentity b relayReq).2 := by
  simp only [adoptOrVerifyIdentity]
  split
  · exact (Keeps.refl b).close
  split
  · exact (Keeps.refl b).close
  split
  · exact (Keeps.refl b).close
  split
  · exact (Keeps.refl b).close
  split
  · exact Keeps.close ⟨rfl, rfl, rfl, fun _ h => h⟩
  next howner =>
    refine ⟨rfl, rfl, rfl, fun o h => ?_⟩
    rw [h] at howner
    have hsame : o = relayReq.supplierOperatorAddress := by simpa using howner
    rw [hsame]

structure Bound (b : Bridge) (req : RelayRequest) (sh : SessionHeader) : Prop where
  header : req.sessionHeader = some sh
  serviceID : sh.serviceId = b.serviceID
  owner : b.owner = some req.supplierOperatorAddress

theorem Bound.keeps {req : RelayRequest} {sh : SessionHeader} (h : Bound b req sh) (hk : Keeps b b') : Bound b' req sh :=
  ⟨h.header, h.serviceID.trans hk.serviceID.symm, hk.owner _ h.owner⟩

/-! ## What a frame does -/

variable {ev : Event}

theorem admitFrame_billing {a : FrameAnswers} (h : ev ∈ (admitFrame p b relayReq height a).1) :
    ev.billing = false := by
  have hvalidated : ∀ ev ∈ [Event.validated relayReq height], ev.billing = false := by
    intro ev h
    rw [mem_singleton.1 h]
    rfl
  unfold admitFrame at h
  split at h
  · rw [mem_singleton.1 h]; rfl
  split at h
  · cases h
  split at h
  · cases h
  split at h
  · cases h
  · exact hvalidated ev h
  · rcases mem_cons.1 h with rfl | h
    · rfl
    · rw [mem_singleton.1 h]; rfl
  · exact hvalidated ev h
  · exact hvalidated ev h

theorem admitFrame_validated (p : Proxy) (relayReq : RelayRequest) (height : Int) (a : FrameAnswers)
    (hsim : b.simulated = false) (h : (admitFrame p b relayReq height a).2 = none) :
    .validated relayReq height ∈ (admitFrame p b relayReq height a).1 := by
  unfold admitFrame at h ⊢
  rw [hsim] at h ⊢
  simp only [Bool.false_eq_true, if_false] at h ⊢
  split at h
  · cases h
  split at h
  · cases h
  split at h
  · cases h
  · simp_all
  · simp_all
  · cases h
  · cases h

structure Framed (id : Nat) (height : Int) (b : Bridge) (done : List Event × Bridge) : Prop where
  billing : ∀ ev ∈ done.1, ev.billing = false
  simulated : done.2.simulated = b.simulated
  latestRequest : Keeps b done.2 ∨ ∃ req sh, done.2.latestRequest = some (id, req) ∧ Bound done.2 req sh ∧
    (b.simulated = false → .validated req height ∈ done.1)

theorem handleGatewayMessage_spec (wire : Wire) (p : Proxy) (b : Bridge) (id : Nat) (data : Bytes) (height : Int)
    (a : FrameAnswers) : Framed id height b (handleGatewayMessage wire p b id data height a) := by
  unfold handleGatewayMessage
  split
  · -- A raw frame.
    unfold forwardToBackend
    split
    · exact ⟨fun _ => billing_of_rejected, rfl, .inl (Keeps.refl b).close⟩
    split
    · exact ⟨by simp, rfl, .inl (Keeps.refl b)⟩
    · exact ⟨by simp, rfl, .inl (Keeps.refl b).close⟩
  next relayReq _ =>
    have hkeeps := adoptOrVerifyIdentity_keeps b relayReq
    split
    next r b₁ hid =>
      rw [hid] at hkeeps
      exact ⟨fun _ => billing_of_rejected, hkeeps.simulated, .inl hkeeps⟩
    next b₁ hid =>
      rw [hid] at hkeeps
      have hbilling : ∀ {r : Event}, r.billing = false →
          ∀ ev ∈ (admitFrame p b₁ relayReq height a).1 ++ [r], ev.billing = false := by
        intro r hr
        exact forall_mem_append.2 ⟨fun _ => admitFrame_billing, forall_mem_singleton.2 hr⟩
      split
      next events r hadm =>
        rw [hadm] at hbilling
        exact ⟨hbilling rfl, hkeeps.simulated, .inl hkeeps.close⟩
      next events hadm =>
        have hvalidated := @admitFrame_validated b₁ p relayReq height a
        rw [hadm] at hbilling hvalidated
        split
        · exact ⟨hbilling rfl, hkeeps.simulated, .inl hkeeps.close⟩
        obtain ⟨⟨sh, hsh, hservice⟩, howner⟩ := adoptOrVerifyIdentity_ok hid
        have hval : b.simulated = false → .validated relayReq height ∈ events ++ [.backendCalled] :=
          fun hsim => mem_append_left _ (hvalidated (hkeeps.simulated.trans hsim) rfl)
        split
        · exact ⟨hbilling rfl, hkeeps.simulated, .inr ⟨relayReq, sh, rfl, ⟨hsh, hservice, howner⟩, hval⟩⟩
        · exact ⟨hbilling rfl, hkeeps.simulated, .inr ⟨relayReq, sh, rfl, ⟨hsh, hservice, howner⟩, hval⟩⟩

/-! ## What a message of the backend does -/

theorem chargeServedMessage_events {a : PushAnswers} (h : ev ∈ (chargeServedMessage b relayReq a).1) :
    b.simulated = false ∧ (ev = .unbilled ∨ ∃ key cost, ev = .charged key cost) := by
  unfold chargeServedMessage at h
  split at h
  · cases h
  next hsim =>
    refine ⟨Bool.eq_false_iff.2 hsim, ?_⟩
    split at h
    · exact .inl (mem_singleton.1 h)
    · exact .inr ⟨_, _, mem_singleton.1 h⟩

structure Pushed (wire : Wire) (target : String → Int → Bytes) (b : Bridge) (data : Bytes) (done : List Event × Bridge) :
    Prop where
  keeps : Keeps b done.2
  billing : b.simulated = true → ∀ ev ∈ done.1, ev.billing = false
  isTask : ∀ ev ∈ done.1, ev.isTask = false
  published : ∀ past m rest, done.1 = past ++ .published m :: rest → .answered data ∈ past ∧
    ∃ id req, b.latestRequest = some (id, req) ∧ ∀ sh, Bound b req sh → OwnNames wire target req sh data m

theorem emitRelay_events {a : PushAnswers} (h : ev ∈ emitRelay wire target p b relayReq data height a) :
    b.simulated = false ∧ ((∃ reason, ev = .dropped reason) ∨ ∃ m, ev = .published m ∧
      ∀ sh, Bound b relayReq sh → OwnNames wire target relayReq sh data m) := by
  unfold emitRelay at h
  split at h
  · cases h
  next hsim =>
    refine ⟨Bool.eq_false_iff.2 hsim, ?_⟩
    split_ifs at h
    · cases h
    · exact .inl ⟨_, mem_singleton.1 h⟩
    split at h
    · exact .inl ⟨_, mem_singleton.1 h⟩
    next reqBytes hbz =>
      rcases publish_events h with hdropped | ⟨m, rfl, hm⟩
      · exact .inl hdropped
      refine .inr ⟨m, rfl, fun sh hb => ?_⟩
      have howner : b.ownerAddress = relayReq.supplierOperatorAddress := by
        rw [Bridge.ownerAddress, hb.owner, Option.getD_some]
      rw [howner, ← hb.serviceID] at hm
      exact processRelayPayloadHash_mined (wire.unmarshal_marshal relayReq reqBytes hbz) hb.header hm

theorem handleBackendMessage_spec (wire : Wire) (target : String → Int → Bytes) (p : Proxy) (b : Bridge) (data : Bytes)
    (height : Int) (a : PushAnswers) : Pushed wire target b data (handleBackendMessage wire target p b data height a) := by
  have hnothing : ∀ b', Keeps b b' → Pushed wire target b data ([], b') := fun b' hk =>
    ⟨hk, by simp, by simp, fun past m rest h => by simp at h⟩
  unfold handleBackendMessage
  split
  · exact hnothing b (Keeps.refl b)
  split
  · split
    · exact hnothing b (Keeps.refl b)
    · exact hnothing b.close (Keeps.refl b).close
  next id latestReq hlatest =>
    split
    next r _ =>
      refine ⟨(Keeps.refl b).close, fun _ _ => billing_of_rejected, fun ev h => ?_, fun past m rest h => ?_⟩
      · rw [mem_singleton.1 h]; rfl
      have hm : Event.published m ∈ past ++ .published m :: rest := by simp
      rw [← h] at hm
      cases mem_singleton.1 hm
    have hkeeps : Keeps b (if (chargeServedMessage b latestReq a).2 then b.close else b) := by
      split
      · exact (Keeps.refl b).close
      · exact Keeps.refl b
    refine ⟨hkeeps, fun hsim ev h => ?_, fun ev h => ?_, fun past m rest h => ⟨?_, id, latestReq, hlatest, ?_⟩⟩
    · rcases mem_append.1 h with h | h
      · rcases mem_cons.1 h with rfl | h
        · rfl
        · exact absurd hsim (Bool.eq_false_iff.1 (chargeServedMessage_events h).1)
      · exact absurd hsim (Bool.eq_false_iff.1 (emitRelay_events h).1)
    · rcases mem_append.1 h with h | h
      · rcases mem_cons.1 h with rfl | h
        · rfl
        · rcases (chargeServedMessage_events h).2 with rfl | ⟨key, cost, rfl⟩
          · rfl
          · rfl
      · rcases (emitRelay_events h).2 with ⟨reason, rfl⟩ | ⟨m, rfl, -⟩
        · rfl
        · rfl
    · exact Lib.mem_past [.answered data] (by simp) h mem_cons_self
    have hm : Event.published m ∈ past ++ .published m :: rest := by simp
    rw [← h] at hm
    rcases mem_append.1 hm with hm | hm
    · rcases mem_cons.1 hm with hm | hm
      · cases hm
      · rcases (chargeServedMessage_events hm).2 with hm | ⟨key, cost, hm⟩
        · cases hm
        · cases hm
    rcases (emitRelay_events hm).2 with ⟨reason, hm⟩ | ⟨m', hm, hnames⟩
    · cases hm
    · cases hm
      exact hnames

end bridges

end RelayMiner.Relayer
