import RelayMiner.Relayer.Config
import RelayMiner.Relayer.Meter
/-!
# Relays

The messages of a relay, what third-party code does with them (`Wire`), and what
a transport does with one relay, as the list of its effects in order (`Event`).
-/

namespace RelayMiner.Relayer

open List

abbrev Bytes := List UInt8

structure SessionHeader where
  applicationAddress : String
  serviceId : String
  sessionId : String
  sessionStartBlockHeight : Int
  sessionEndBlockHeight : Int
  deriving DecidableEq

structure RelayRequest where
  sessionHeader : Option SessionHeader
  supplierOperatorAddress : String
  signature : Bytes
  payload : Bytes
  deriving DecidableEq

/-- A response as it is mined: the hash of its payload, and no payload. -/
structure RelayResponse where
  sessionHeader : Option SessionHeader
  payloadHash : Bytes
  supplierOperatorSignature : Bytes := []

structure Relay where
  req : RelayRequest
  res : RelayResponse

structure MinedRelayMessage where
  relayHash : Bytes
  relayBytes : Bytes
  computeUnitsPerRelay : Nat
  sessionId : String
  sessionStartHeight : Int
  sessionEndHeight : Int
  supplierOperatorAddress : String
  serviceId : String
  applicationAddress : String
  arrivalBlockHeight : Int
  deriving DecidableEq

/-- The protobuf codecs, the hashes and the signatures. A supplier's address
belongs to one key, so `sign` is a function of the address. -/
structure Wire where
  unmarshal : Bytes → Option RelayRequest
  marshal : RelayRequest → Option Bytes
  unmarshal_marshal : ∀ r b, marshal r = some b → unmarshal b = some r
  deserializeHTTPRequest : Bytes → Bool
  marshalRelay : Relay → Option Bytes
  sha256 : Bytes → Bytes
  getRelayHashFromBytes : Bytes → Bytes
  isRelayVolumeApplicable : Bytes → Bytes → Bool
  getSignableBytesHash : RelayResponse → Bytes
  sign : String → Bytes → Bytes

def Wire.only (request : RelayRequest) (body : Bytes) : Wire where
  unmarshal b := if b = body then some request else none
  marshal r := if r = request then some body else none
  unmarshal_marshal := by
    intro r b h
    split_ifs at h with hr
    rw [if_pos (Option.some.inj h).symm, hr]
  deserializeHTTPRequest _ := true
  marshalRelay r := some (r.res.payloadHash ++ r.res.supplierOperatorSignature)
  sha256 b := b
  getRelayHashFromBytes b := b
  isRelayVolumeApplicable _ _ := true
  getSignableBytesHash res := res.payloadHash
  sign _ b := b

abbrev Reservation := Meter.Reservation (String × String) String

/-- The answer of `Admit` or `CheckAndConsumeRelay`: the cost fits the budget,
it does not, or the meter could not tell; `allowed` is then whether it was the
chain and not the store that failed. -/
inductive MeterAnswer where
  | within (cost : Int)
  | over
  | failed (allowed : Bool)

structure ValidationError where
  expired : Bool
  text : String

structure Rejection where
  status : Nat
  message : String
  reason : String
  deriving DecidableEq

structure ValidationTask where
  request : RelayRequest
  reqBody : Bytes
  respBody : Bytes
  blockHeight : Int
  serviceID : String
  rpcType : BackendType
  deriving DecidableEq

structure PublishTask where
  reqBody : Bytes
  respPayloadHash : Bytes
  arrivalBlockHeight : Int
  serviceID : String
  supplierAddr : String
  sessionID : String
  applicationAddr : String
  rpcType : BackendType
  deriving DecidableEq

inductive Event where
  | routed
  | rejected (r : Rejection)
  | simulated
  | admitted (r : Reservation)
  /-- Served although the meter could not answer. -/
  | letThrough
  | validated (request : RelayRequest) (height : Int)
  | backendCalled
  | batchSent
  /-- The client has been sent the whole of a signed response to this backend message. -/
  | answered (body : Bytes)
  | settled (r : Reservation)
  | released (r : Reservation)
  | charged (key : String × String) (cost : Int)
  | unbilled
  | validationQueued (t : ValidationTask)
  | publishQueued (t : PublishTask)
  | dropped (reason : String)
  | published (m : MinedRelayMessage)
  deriving DecidableEq

inductive Phase where
  | gate
  | check
  | backend
  | answer
  | budget
  | account
  deriving DecidableEq

def Event.phase : Event → Phase
  | .routed | .rejected _ | .simulated => .gate
  | .admitted _ | .letThrough | .validated _ _ => .check
  | .backendCalled | .batchSent => .backend
  | .answered _ => .answer
  | .settled _ | .released _ => .budget
  | .charged _ _ | .unbilled | .validationQueued _ | .publishQueued _ | .dropped _ | .published _ => .account

def Event.isTask : Event → Bool
  | .validationQueued _ | .publishQueued _ => true
  | _ => false

def Event.billing : Event → Bool
  | .admitted _ | .settled _ | .charged _ _ | .unbilled | .validationQueued _ | .publishQueued _ | .published _ => true
  | _ => false

variable {ev : Event}

theorem billing_of_rejected {r : Rejection} (h : ev ∈ [Event.rejected r]) : ev.billing = false := by
  rw [mem_singleton.1 h]
  rfl

def firstRefusal (checks : List (Bool × Rejection)) : Option Rejection := (checks.find? (·.1)).map (·.2)

def maxPlausibleSessionLengthBlocks : Int := 10000

def maxSessionLookbackBlocks : Int := 10000

def maxSessionLookaheadBlocks : Int := 10000

def sessionHeightsPlausible (startHeight endHeight arrivalHeight : Int) : Bool :=
  if startHeight ≤ 0 ∨ endHeight ≤ startHeight then false
  else if endHeight - startHeight > maxPlausibleSessionLengthBlocks then false
  else if arrivalHeight ≤ 0 then true
  else if startHeight > arrivalHeight + maxSessionLookaheadBlocks then false
  else if endHeight < arrivalHeight - maxSessionLookbackBlocks then false
  else true

/-! ## The backend -/

structure BackendResult where
  err : Bool
  retryable : Bool
  status : Nat
  streaming : Bool
  batches : Nat
  body : Bytes
  outcome : String

structure Attempt where
  stopped : Bool
  result : BackendResult

def BackendResult.events (r : BackendResult) : List Event :=
  .backendCalled :: List.replicate (if r.streaming then r.batches else 0) .batchSent

def BackendResult.final (r : BackendResult) : Bool := (!r.err && r.status < 500) || !r.retryable || r.streaming

def retry (attempts : Nat → Attempt) : Nat → Nat → BackendResult → List Event × BackendResult
  | 0, _, r => ([], r)
  | retries + 1, n, r =>
    if r.final || (attempts n).stopped then ([], r)
    else
      let next := (attempts n).result
      let (events, out) := retry attempts retries (n + 1) next
      (next.events ++ events, out)

def forward (attempts : Nat → Attempt) (maxRetries : Nat) : List Event × BackendResult :=
  let first := (attempts 0).result
  let (events, out) := retry attempts maxRetries 1 first
  (first.events ++ events, out)

def Event.OfBackend (ev : Event) : Prop := ev = .backendCalled ∨ ev = .batchSent

theorem Event.OfBackend.phase (h : ev.OfBackend) : ev.phase = .backend := by
  rcases h with rfl | rfl
  · rfl
  · rfl

theorem Event.OfBackend.billing (h : ev.OfBackend) : ev.billing = false := by
  rcases h with rfl | rfl
  · rfl
  · rfl

theorem BackendResult.events_ofBackend {r : BackendResult} (h : ev ∈ r.events) : ev.OfBackend := by
  rcases mem_cons.1 h with h | h
  · exact .inl h
  · exact .inr (eq_of_mem_replicate h)

theorem retry_ofBackend {attempts : Nat → Attempt} (retries n : Nat) (r : BackendResult)
    (h : ev ∈ (retry attempts retries n r).1) : ev.OfBackend := by
  induction retries generalizing n r with
  | zero => cases h
  | succ retries ih =>
    unfold retry at h
    split_ifs at h
    · cases h
    rcases mem_append.1 h with h | h
    · exact BackendResult.events_ofBackend h
    · exact ih (n + 1) _ h

theorem forward_spec (attempts : Nat → Attempt) (maxRetries : Nat) :
    ∃ post, (forward attempts maxRetries).1 = .backendCalled :: post ∧ ∀ ev ∈ post, ev.OfBackend := by
  refine ⟨_, cons_append, fun ev hev => ?_⟩
  rcases mem_append.1 hev with h | h
  · exact .inr (eq_of_mem_replicate h)
  · exact retry_ofBackend _ _ _ h

end RelayMiner.Relayer
