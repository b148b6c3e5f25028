import Mathlib.Data.List.Basic
/-!
# Session states and the session record

`SessionState` and its predicates are `session_store.go`'s. The record keeps the
fields the store's scripts read or write; the identity of the session (its ids,
heights, application) is fixed at creation and no script looks at it.
-/

namespace RelayMiner.Session

inductive SessionState where
  | active | claiming
  -- claim outcomes
  | claimed | claimWindowClosed | claimTxError | claimMissing | claimSkipped
  -- proof outcomes
  | proving | proved | probabilisticProved | proofWindowClosed | proofTxError
  deriving DecidableEq

namespace SessionState

def isTerminal : SessionState → Bool
  | proved | probabilisticProved | claimWindowClosed | claimTxError | claimMissing | claimSkipped
  | proofWindowClosed | proofTxError => true
  | active | claiming | claimed | proving => false

/-- At or past `claimed`, whatever happened to the proof after it. -/
def holdsClaimOnChain : SessionState → Bool
  | claimed | proving | proved | probabilisticProved | proofWindowClosed | proofTxError => true
  | active | claiming | claimWindowClosed | claimTxError | claimMissing | claimSkipped => false

def isSuccess : SessionState → Bool
  | proved | probabilisticProved => true
  | _ => false

end SessionState

/-- How marking a session failed counted it; `none` is the absent field. -/
inductive Verdict where
  | none | lost | forgone | attempt | ejectedUnrecoverable
  deriving DecidableEq

abbrev Bytes := List UInt8

def smstRootLen : Nat := 48

/-- The stored session. An empty hash or root is the absent field, as `decodeSnapshot` reads it. -/
structure SessionSnapshot where
  state : SessionState
  relayCount : Nat := 0
  totalComputeUnits : Nat := 0
  claimedRootHash : Bytes := []
  claimTxHash : String := ""
  proofTxHash : String := ""
  claimMissingVerdict : Verdict := .none
  deriving DecidableEq

/-- `ClaimMissingVerdictFor`: money already counted as claimed is lost, the rest was never in the book. -/
def claimMissingVerdictFor (s : SessionState) : Verdict := if s.holdsClaimOnChain then .lost else .forgone

end RelayMiner.Session
