import RelayMiner.Relayer.HandleRelay
/-!
# The relay processor

What every transport mines a served relay with, and the task of the publish pool.
The processor is built with the response signer, so there is always one. The
target of a service at a session's start is what the difficulty source returns; it
may fail to, on any call.
-/

namespace RelayMiner.Relayer

/-! ## `ProcessRelayPayloadHash` -/

structure Processing where
  signing : Option String := none
  difficulty : Bool := true
  computeUnits : Nat := 1

def buildRelayResponse (wire : Wire) (relayReq : RelayRequest) (respPayloadHash : Bytes) (supplierAddr : String)
    (a : Processing) : Except String RelayResponse :=
  if respPayloadHash = wire.sha256 [] then .error "attempted to sign a relay response with an empty payload"
  else
    let relayResp : RelayResponse := { sessionHeader := relayReq.sessionHeader, payloadHash := respPayloadHash }
    match a.signing with
    | some err => .error ("failed to sign relay response: " ++ err)
    | none =>
      .ok { relayResp with supplierOperatorSignature := wire.sign supplierAddr (wire.getSignableBytesHash relayResp) }

/-- `.ok none` is a relay that is not mined. -/
def processRelayPayloadHash (wire : Wire) (target : String → Int → Bytes) (reqBody respPayloadHash : Bytes)
    (supplierAddr serviceID : String) (arrivalBlockHeight : Int) (a : Processing) :
    Except String (Option MinedRelayMessage) :=
  match wire.unmarshal reqBody with
  | none => .ok none
  | some relayReq =>
    match buildRelayResponse wire relayReq respPayloadHash supplierAddr a with
    | .error err => .error ("failed to build relay response: " ++ err)
    | .ok relayResp =>
      match wire.marshalRelay ⟨relayReq, relayResp⟩ with
      | none => .error "failed to marshal relay"
      | some relayBz =>
        let relayHash := wire.getRelayHashFromBytes relayBz
        let sessionStartHeight := (relayReq.sessionHeader.map (·.sessionStartBlockHeight)).getD 0
        -- A relay whose difficulty does not resolve is served and not mined.
        if !a.difficulty then .ok none
        else if !wire.isRelayVolumeApplicable relayHash (target serviceID sessionStartHeight) then .ok none
        else
          .ok (some
            { relayHash
              relayBytes := relayBz
              computeUnitsPerRelay := a.computeUnits
              sessionId := (relayReq.sessionHeader.map (·.sessionId)).getD ""
              sessionStartHeight
              sessionEndHeight := (relayReq.sessionHeader.map (·.sessionEndBlockHeight)).getD 0
              supplierOperatorAddress := supplierAddr
              serviceId := serviceID
              applicationAddress := (relayReq.sessionHeader.map (·.applicationAddress)).getD ""
              arrivalBlockHeight })

def processRelay (wire : Wire) (target : String → Int → Bytes) (reqBody respBody : Bytes)
    (supplierAddr serviceID : String) (arrivalBlockHeight : Int) (a : Processing) :
    Except String (Option MinedRelayMessage) :=
  processRelayPayloadHash wire target reqBody (wire.sha256 respBody) supplierAddr serviceID arrivalBlockHeight a

/-! ## Publishing -/

/-- What every transport does with the processor's answer. `.published` is the
message handed to the publisher, whatever that answers. -/
def publish (publisher : Bool) (processed : Except String (Option MinedRelayMessage)) : List Event :=
  match processed with
  | .error _ => [.dropped "process_failed"]
  | .ok none => []
  | .ok (some msg) => if publisher then [.published msg] else [.dropped "no_publisher"]

/-- The task of the publish pool. Without a processor it makes up a message. -/
def executePublish (wire : Wire) (target : String → Int → Bytes) (p : Proxy) (task : PublishTask) (a : Processing) :
    List Event :=
  if !p.publisher then [.dropped "no_publisher"]
  else if p.relayProcessor then
    publish p.publisher (processRelayPayloadHash wire target task.reqBody task.respPayloadHash task.supplierAddr
      task.serviceID task.arrivalBlockHeight a)
  else
    [.published
      { relayHash := []
        relayBytes := task.reqBody
        computeUnitsPerRelay := 1
        sessionId := task.sessionID
        sessionStartHeight := 0
        sessionEndHeight := 0
        supplierOperatorAddress := task.supplierAddr
        serviceId := task.serviceID
        applicationAddress := task.applicationAddr
        arrivalBlockHeight := task.arrivalBlockHeight }]

/-! ## What a mined message says -/

def signedResponse (wire : Wire) (request : RelayRequest) (body : Bytes) : RelayResponse :=
  let unsigned : RelayResponse := { sessionHeader := request.sessionHeader, payloadHash := wire.sha256 body }
  { unsigned with
    supplierOperatorSignature := wire.sign request.supplierOperatorAddress (wire.getSignableBytesHash unsigned) }

/-- The message is that of the request answered with the backend message, under
the request's own names, and meets the target of its service. -/
structure OwnNames (wire : Wire) (target : String → Int → Bytes) (request : RelayRequest) (sh : SessionHeader)
    (body : Bytes) (m : MinedRelayMessage) : Prop where
  header : request.sessionHeader = some sh
  relayBytes : wire.marshalRelay ⟨request, signedResponse wire request body⟩ = some m.relayBytes
  relayHash : m.relayHash = wire.getRelayHashFromBytes m.relayBytes
  target : wire.isRelayVolumeApplicable m.relayHash (target sh.serviceId sh.sessionStartBlockHeight) = true
  sessionId : m.sessionId = sh.sessionId
  sessionStartHeight : m.sessionStartHeight = sh.sessionStartBlockHeight
  sessionEndHeight : m.sessionEndHeight = sh.sessionEndBlockHeight
  applicationAddress : m.applicationAddress = sh.applicationAddress
  serviceId : m.serviceId = sh.serviceId
  supplierOperatorAddress : m.supplierOperatorAddress = request.supplierOperatorAddress

section spec

variable {wire : Wire} {target : String → Int → Bytes} {request : RelayRequest} {sh : SessionHeader} {body : Bytes}
  {a : Processing} {m : MinedRelayMessage}

theorem buildRelayResponse_ok {relayResp : RelayResponse}
    (h : buildRelayResponse wire request (wire.sha256 body) request.supplierOperatorAddress a = .ok relayResp) :
    relayResp = signedResponse wire request body := by
  simp only [buildRelayResponse] at h
  split_ifs at h
  split at h
  · cases h
  · cases h
    rfl

/-- A processor that is given the names of the request mines it under them. -/
theorem processRelayPayloadHash_mined {reqBody : Bytes} {height : Int} (hreq : wire.unmarshal reqBody = some request)
    (hsh : request.sessionHeader = some sh)
    (h : processRelayPayloadHash wire target reqBody (wire.sha256 body) request.supplierOperatorAddress sh.serviceId
      height a = .ok (some m)) : OwnNames wire target request sh body m := by
  simp only [processRelayPayloadHash, hreq] at h
  split at h
  · cases h
  next relayResp hresp =>
    obtain rfl := buildRelayResponse_ok hresp
    split at h
    · cases h
    next relayBz hbz =>
      split_ifs at h with hdifficulty happlicable
      · cases h
      · cases h
      cases h
      simp only [hsh, Option.map_some, Option.getD_some] at happlicable ⊢
      exact ⟨hsh, hbz, rfl, by simpa using happlicable, rfl, rfl, rfl, rfl, rfl, rfl⟩

theorem publish_events {publisher : Bool} {processed : Except String (Option MinedRelayMessage)} {ev : Event}
    (h : ev ∈ publish publisher processed) :
    (∃ reason, ev = .dropped reason) ∨ ∃ m, ev = .published m ∧ processed = .ok (some m) := by
  unfold publish at h
  split at h
  · exact .inl ⟨_, List.mem_singleton.1 h⟩
  · cases h
  split_ifs at h
  · exact .inr ⟨_, List.mem_singleton.1 h, rfl⟩
  · exact .inl ⟨_, List.mem_singleton.1 h⟩

theorem executePublish_events {p : Proxy} {task : PublishTask} {ev : Event} (hproc : p.relayProcessor = true)
    (h : ev ∈ executePublish wire target p task a) :
    (∃ reason, ev = .dropped reason) ∨ ∃ m, ev = .published m ∧
      processRelayPayloadHash wire target task.reqBody task.respPayloadHash task.supplierAddr task.serviceID
        task.arrivalBlockHeight a = .ok (some m) := by
  unfold executePublish at h
  split at h
  · exact .inl ⟨_, List.mem_singleton.1 h⟩
  · exact publish_events h

end spec

end RelayMiner.Relayer
