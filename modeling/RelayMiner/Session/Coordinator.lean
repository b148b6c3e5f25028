import RelayMiner.Session.Store
/-!
# The coordinator's callbacks as calls on the store

Each definition is the sequence of store operations the method of the same name
makes, with the branches it takes on what it reads. Metrics, logging and the
in-memory callbacks make no store operation and are left out.
-/
open RelayMiner.Lib

namespace RelayMiner.Session

def save (snap : SessionSnapshot) : Call :=
  .op .get fun r =>
    match r with
    | .snapshot (some _) => .op (.hset true snap) fun _ => .ret
    | _ => .op (.hset false snap) fun _ => .ret

def updateState (newState : SessionState) (verdict : Verdict) : Call :=
  .op (.updateState newState verdict) fun _ => .ret

def trackSession (snap : SessionSnapshot) : Call := save snap

/-! ## Claim phase -/

def onSessionClaimed (root : Bytes) (claimTxHash : String) : Call :=
  .op .get fun r =>
    match r with
    | .snapshot (some _) => .op (.reactivateClaimed root claimTxHash) fun _ => .ret
    | _ => .ret

/-- `wired` is whether a lifecycle callback re-tracks the session. -/
def onClaimObservedOnChain (root : Bytes) (claimTxHash : String) (wired : Bool) : Call :=
  if root.length ≠ smstRootLen then .ret
  else .op .get fun _ => .op (.reactivateClaimed root claimTxHash) fun r =>
    match r with
    | .reactivation (some _) =>
      if wired then
        -- Re-read, since tracking saves what it is handed.
        .op .get fun r =>
          match r with
          | .snapshot (some s) => trackSession s
          | _ => .ret
      else .ret
    | _ => .ret

def onClaimDeferred : Call := updateState .active .none

def onClaimWindowClosed : Call := updateState .claimWindowClosed .none

def onClaimSkipped : Call := updateState .claimSkipped .none

def onClaimTxError (verdict : Verdict) : Call :=
  .op .get fun r =>
    match r with
    | .snapshot (some s) =>
      if s.state = .claimed ∨ s.claimTxHash ≠ "" then .ret
      else if s.state = .claimTxError then .ret
      else updateState .claimTxError verdict
    -- Not found, or the read failed: marked without a verdict.
    | _ => updateState .claimTxError .none

def onClaimMissing : Call :=
  .op .get fun r =>
    match r with
    | .snapshot (some s) =>
      if s.state = .claimMissing then .ret
      else if s.state.isSuccess then .ret
      else updateState .claimMissing (claimMissingVerdictFor s.state)
    | _ => updateState .claimMissing .none

/-! ## Proof phase -/

def onProofSubmitted (proofTxHash : String) : Call :=
  .op .get fun r =>
    match r with
    | .snapshot (some s) => save { s with proofTxHash := proofTxHash }
    | _ => .ret

def onSessionProved : Call := updateState .proved .none

def onProofObservedOnChain (proofTxHash : String) : Call := .op (.reactivateProved proofTxHash) fun _ => .ret

def onProofWindowClosed : Call := updateState .proofWindowClosed .none

def onProofTxError : Call :=
  .op .get fun r =>
    match r with
    | .snapshot (some s) =>
      if s.state = .proved ∨ s.state = .probabilisticProved ∨ s.proofTxHash ≠ "" then .ret
      else updateState .proofTxError .none
    | _ => updateState .proofTxError .none

def onProofDeferred : Call :=
  .op .get fun r =>
    match r with
    | .snapshot (some s) =>
      if s.state.isTerminal ∨ s.proofTxHash ≠ "" then .ret else updateState .claimed .none
    | _ => .ret

def onProbabilisticProved : Call := updateState .probabilisticProved .none

def persistProving : Call := updateState .proving .none

end RelayMiner.Session
