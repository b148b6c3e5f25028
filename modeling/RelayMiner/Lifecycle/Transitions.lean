import RelayMiner.Session.Coordinator
/-!
# The lifecycle's transition table

`determineTransition` and the predicates beside it in `session_lifecycle.go`,
over the windows the chain's shared params give a session.
-/
open RelayMiner.Lib RelayMiner.Session

namespace RelayMiner.Lifecycle

/-- The windows of a session, from the params at its end height. A proof window follows the claim window. -/
structure Windows where
  claimOpen : Nat
  claimClose : Nat
  proofOpen : Nat
  proofClose : Nat
  claim_lt : claimOpen < claimClose
  close_le : claimClose ≤ proofOpen
  proof_lt : proofOpen < proofClose

theorem Windows.claimClose_lt_proofClose (w : Windows) : w.claimClose < w.proofClose :=
  Nat.lt_of_le_of_lt w.close_le w.proof_lt

/-! Windows of the example runs. -/

def Windows.spaced : Windows := ⟨10, 20, 30, 40, by decide, by decide, by decide⟩

def Windows.joined : Windows := ⟨10, 20, 20, 30, by decide, by decide, by decide⟩

def Windows.short : Windows := ⟨11, 15, 15, 20, by decide, by decide, by decide⟩

def determineTransition (session : SessionSnapshot) (height : Nat) :
    Option Windows → Option (SessionState × String)
  | none => none
  | some params =>
    match session.state with
    | .active =>
      if params.claimClose ≤ height then some (.claimWindowClosed, "claim_window_timeout")
      else if params.claimOpen ≤ height then some (.claiming, "claim_window_open")
      else none
    | .claiming => if params.claimClose ≤ height then some (.claimWindowClosed, "claim_timeout") else none
    | .claimed =>
      if params.proofClose ≤ height then some (.proofWindowClosed, "proof_timeout")
      else if params.proofOpen ≤ height then some (.proving, "proof_window_open")
      else none
    | .proving =>
      if params.proofClose ≤ height then
        if session.proofTxHash ≠ "" then some (.proved, "proof_submitted_before_close")
        else some (.proofWindowClosed, "proof_timeout")
      else none
    | _ => none

/-- A session that may have a claim on chain no record shows; `resumed` is whether it was loaded in claiming
and moved back to active. -/
def mayHaveClaimOnChain (session : SessionSnapshot) (resumed : Bool) : Bool :=
  (session.state = .claiming ∧ session.claimTxHash = "") || resumed

/-- poktroll takes a claim in block `claimClose` itself, so "no claim" is final only above it. -/
def claimReadIsFinal (height claimClose : Nat) : Bool := claimClose < height

def resumeTo (session : SessionSnapshot) : Option SessionState :=
  if session.state = .proving ∧ session.proofTxHash = "" then some .claimed
  else if session.state = .claiming ∧ session.claimTxHash = "" then some .active
  else none

variable {height : Nat} {s : SessionSnapshot} {w : Windows}

attribute [local simp] determineTransition

theorem claiming_of_active (h : s.state = .active) (hopen : w.claimOpen ≤ height) (hclose : height < w.claimClose) :
    determineTransition s height (some w) = some (.claiming, "claim_window_open") := by
  simp [h, hopen, Nat.not_le.2 hclose]

theorem proving_of_claimed (h : s.state = .claimed) (hopen : w.proofOpen ≤ height) (hclose : height < w.proofClose) :
    determineTransition s height (some w) = some (.proving, "proof_window_open") := by
  simp [h, hopen, Nat.not_le.2 hclose]

end RelayMiner.Lifecycle
