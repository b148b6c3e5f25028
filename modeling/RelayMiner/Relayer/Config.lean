import Mathlib.Data.UInt
/-!
# The relayer's services

What `Config` says about a service: its backends by transport, when its relays
are validated, and whether they can enter a validation queue. The queues are
decided once, from the backends of the service; which backend a request uses is
decided for each request, from its `Rpc-Type` header.
-/

namespace RelayMiner.Relayer

inductive ValidationMode where
  | eager
  | optimistic
  deriving DecidableEq

/-- A transport. `other` is a name no backend can be configured under. -/
inductive BackendType where
  | jsonrpc
  | rest
  | websocket
  | grpc
  | cometbft
  | other (name : String)
  deriving DecidableEq

def isKnownBackendType : BackendType → Bool
  | .other _ => false
  | _ => true

def rpcTypeToBackendType (rpcType : String) : BackendType :=
  match rpcType with
  | "1" | "grpc" => .grpc
  | "2" | "websocket" => .websocket
  | "3" | "jsonrpc" => .jsonrpc
  | "4" | "rest" => .rest
  | "5" | "cometbft" => .cometbft
  | name => .other name

structure BackendConfig where
  maxRetries : Option Nat := none

structure ServiceConfig where
  validationMode : Option ValidationMode := none
  defaultBackend : String := ""
  backends : List (BackendType × BackendConfig)
  validationQueueMaxMiB : Nat := 0
  maxRequestBodySize : Nat
  maxResponseBodySize : Nat

structure Config where
  services : List (String × ServiceConfig)
  defaultValidationMode : ValidationMode
  defaultValidationQueueMaxMiB : Nat := 0

structure ServiceConfig.Accepted (svc : ServiceConfig) : Prop where
  backends : svc.backends ≠ []
  known : ∀ b ∈ svc.backends, isKnownBackendType b.1
  maxRetries : ∀ b ∈ svc.backends, ∀ n ∈ b.2.maxRetries, n ≤ 3

def Config.Accepted (c : Config) : Prop := ∀ s ∈ c.services, s.2.Accepted

def Config.getServiceValidationMode (c : Config) (serviceID : String) : ValidationMode :=
  ((c.services.lookup serviceID).bind (·.validationMode)).getD c.defaultValidationMode

/-- The backend of a service for a transport. `BuildPools` makes a pool for each, so this is also `GetPool`. -/
def Config.getBackendConfig (c : Config) (serviceID : String) (rpcType : BackendType) : Option BackendConfig :=
  (c.services.lookup serviceID).bind fun svc => svc.backends.lookup rpcType

def Config.getMaxRetries (c : Config) (serviceID : String) (rpcType : BackendType) : Nat :=
  ((c.getBackendConfig serviceID rpcType).bind (·.maxRetries)).getD 1

def Config.maxRequestBodySizeAcrossServices (c : Config) : Nat :=
  c.services.foldl (fun n s => max n s.2.maxRequestBodySize) 0

def ServiceConfig.validationQueueFloorBytes (svc : ServiceConfig) : Nat :=
  2 * svc.maxRequestBodySize + svc.maxResponseBodySize

def Config.validationQueueMaxBytes (c : Config) (svc : ServiceConfig) : Nat :=
  let mib := if svc.validationQueueMaxMiB > 0 then svc.validationQueueMaxMiB else c.defaultValidationQueueMaxMiB
  let mib := if mib = 0 then 128 else mib
  max (mib * 2 ^ 20) svc.validationQueueFloorBytes

def serviceQueuesOnHTTP (svc : ServiceConfig) : Bool :=
  svc.backends.any fun b => match b.1 with
    | .websocket | .grpc => false
    | _ => true

def Config.serviceQueuesForValidation (c : Config) (serviceID : String) : Bool :=
  if c.getServiceValidationMode serviceID ≠ .optimistic then false
  else match c.services.lookup serviceID with
    | none => false
    | some svc => serviceQueuesOnHTTP svc

def Config.validationQueueFor (c : Config) (serviceID : String) : Option Nat :=
  if c.serviceQueuesForValidation serviceID then (c.services.lookup serviceID).map c.validationQueueMaxBytes else none

def BackendType.Http (t : BackendType) : Prop := t ≠ .websocket ∧ t ≠ .grpc

/-- An optimistic service that has a backend for an HTTP transport has a validation queue. -/
theorem validationQueueFor_of_backend {c : Config} {serviceID : String} {rpcType : BackendType}
    (hmode : c.getServiceValidationMode serviceID = .optimistic) (hhttp : rpcType.Http)
    (hpool : (c.getBackendConfig serviceID rpcType).isSome) : (c.validationQueueFor serviceID).isSome := by
  unfold Config.getBackendConfig at hpool
  cases hsvc : c.services.lookup serviceID with
  | none => simp [hsvc] at hpool
  | some svc =>
    obtain ⟨b, hb⟩ : ∃ b, (rpcType, b) ∈ svc.backends := by simpa [hsvc] using hpool
    have hany : serviceQueuesOnHTTP svc = true := by
      refine List.any_eq_true.2 ⟨(rpcType, b), hb, ?_⟩
      cases rpcType with
      | websocket => exact absurd rfl hhttp.1
      | grpc => exact absurd rfl hhttp.2
      | _ => rfl
    simp [Config.validationQueueFor, Config.serviceQueuesForValidation, hmode, hsvc, hany]

end RelayMiner.Relayer
