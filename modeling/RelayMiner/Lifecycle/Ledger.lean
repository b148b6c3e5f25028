import RelayMiner.Lifecycle.Writes
/-!
# The money series

What `metrics.go` counts a session's money in when the miner books an event of
its life, and the ways a booking is reversed: a claim found on chain reinstates
the session from the series its failure went to.
-/
open RelayMiner.Session

namespace RelayMiner.Lifecycle.Ledger

inductive Money where
  | claimed
  | lost
  | forgone
  | proved
  | unresolvedOpened
  | unresolvedResolved
  | reinstated (book : Verdict)
  deriving DecidableEq

/-! ## Bookings -/

def recordClaimWindowClosed (claimTxHash : String) : List Money := if claimTxHash = "" then [.forgone] else [.lost]

def recordClaimMissing (verdict : Verdict) : List Money := if verdict = .forgone then [.forgone] else [.lost]

/-- An attempt takes no money: the inclusion reconciler will answer for it. -/
def recordClaimTxErrorVerdict : Verdict → List Money
  | .forgone | .ejectedUnrecoverable => [.forgone]
  | .none | .lost | .attempt => []

def recordProofWindowClosed (proofTxHash : String) : List Money := if proofTxHash = "" then [.lost] else []

def recordProofTxError (resolvable : Bool) : List Money := if resolvable then [.unresolvedOpened] else [.lost]

/-! ## Reactivations -/

structure Reactivation where
  src : SessionState
  claimTxHash : String
  claimMissingVerdict : Verdict

def reinstatedBook (r : Reactivation) : Verdict :=
  match r.src with
  | .claimMissing => r.claimMissingVerdict
  | .claimWindowClosed => if r.claimTxHash ≠ "" then .lost else .forgone
  | .claimTxError =>
    if r.claimMissingVerdict = .forgone ∨ r.claimMissingVerdict = .ejectedUnrecoverable then .forgone else .none
  | _ => .none

def creditsClaimed (r : Reactivation) : Bool :=
  match r.src with
  | .active | .claiming | .claimTxError => true
  | .claimWindowClosed | .claimMissing => reinstatedBook r = .forgone
  | _ => false

def bookReactivation (weighed : Bool) (r : Reactivation) : List Money :=
  if weighed then
    (if creditsClaimed r then [.claimed] else []) ++
      if reinstatedBook r ≠ .none then [.reinstated (reinstatedBook r)] else []
  else []

/-! ## The inclusion reconciler -/

inductive Outcome where
  | found | missing | rejected | pollError
  deriving DecidableEq

/-- The money of an entry, once the chain has answered for it, on the replica that owns the supplier and with the
session read. A confirmed submission was counted when it was made. -/
def settleLedgerOutcome (phase : Phase) (origTxHash : String) (outcome : Outcome) : List Money :=
  if outcome = .pollError ∨ origTxHash ≠ "" then []
  else
    match phase, outcome with
    | .claim, .found => []
    | .claim, _ => [.forgone]
    | .proof, .found => [.unresolvedResolved, .proved]
    | .proof, _ => [.unresolvedResolved, .lost]

end RelayMiner.Lifecycle.Ledger
