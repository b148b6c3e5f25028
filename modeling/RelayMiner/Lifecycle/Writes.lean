import RelayMiner.Session.Coordinator
/-!
# What a cycle writes

The coordinator's callbacks as the lifecycle makes them on the sessions of a
batch, none of which expires meanwhile; the rebroadcast store; and the trees.
With no fault a callback is a function of the record, `book`.
-/
open RelayMiner.Lib RelayMiner.Session Function

namespace RelayMiner.Lifecycle

abbrev SessionID := Nat

inductive Callback where
  | claiming
  | onSessionClaimed (root : Bytes) (claimTxHash : String)
  | claimed
  | onClaimDeferred
  | onClaimTxError (verdict : Verdict)
  | onClaimWindowClosed
  | onClaimSkipped
  | onClaimObservedOnChain (root : Bytes) (claimTxHash : String)
  | onClaimMissing
  | proving
  | onProofSubmitted (proofTxHash : String)
  | onProofTxError
  | onProofDeferred
  | onProbabilisticProved
  | onProofWindowClosed
  | onSessionProved

def Callback.body : Callback → Call
  | .claiming => updateState .claiming .none
  | .onSessionClaimed root tx => Session.onSessionClaimed root tx
  | .claimed => updateState .claimed .none
  | .onClaimDeferred => Session.onClaimDeferred
  | .onClaimTxError v => Session.onClaimTxError v
  | .onClaimWindowClosed => Session.onClaimWindowClosed
  | .onClaimSkipped => Session.onClaimSkipped
  | .onClaimObservedOnChain root tx => Session.onClaimObservedOnChain root tx true
  | .onClaimMissing => Session.onClaimMissing
  | .proving => Session.persistProving
  | .onProofSubmitted tx => Session.onProofSubmitted tx
  | .onProofTxError => Session.onProofTxError
  | .onProofDeferred => Session.onProofDeferred
  | .onProbabilisticProved => Session.onProbabilisticProved
  | .onProofWindowClosed => Session.onProofWindowClosed
  | .onSessionProved => Session.onSessionProved

/-- The record after a callback whose reads and writes all go through. -/
def Callback.book (c : Callback) (s : SessionSnapshot) : SessionSnapshot := (c.body.complete apply (some s)).getD s

/-! ## What each callback books -/

@[simp] theorem decodeSnapshot_claimTxHash (s : SessionSnapshot) : (decodeSnapshot s).claimTxHash = s.claimTxHash := by
  unfold decodeSnapshot
  split <;> rfl

@[simp] theorem decodeSnapshot_proofTxHash (s : SessionSnapshot) : (decodeSnapshot s).proofTxHash = s.proofTxHash := by
  unfold decodeSnapshot
  split <;> rfl

theorem complete_updateState (newState : SessionState) (v : Verdict) (s : SessionSnapshot) :
    (updateState newState v).complete apply (some s) =
      some (if (checkStateWrite s newState).isSome then s
        else { s with
          state := newState
          claimMissingVerdict := if v ≠ .none ∧ s.state ≠ newState then v else s.claimMissingVerdict }) := by
  simp only [updateState, Prog.complete, apply, updateStateScript]
  cases checkStateWrite s newState <;> rfl

attribute [local simp] Callback.book Callback.body checkStateWrite Prog.complete Session.onClaimObservedOnChain

attribute [local simp] reactivateClaimedScript

theorem book_onSessionClaimed (root : Bytes) (tx : String) (s : SessionSnapshot) :
    (Callback.onSessionClaimed root tx).book s =
      if canReactivateClaimed s.state then
        { s with
          state := .claimed
          claimedRootHash := root
          claimMissingVerdict := .none
          claimTxHash := if tx = "" then s.claimTxHash else tx }
      else s := by
  cases hc : canReactivateClaimed s.state <;>
    simp [Session.onSessionClaimed, apply, hc]

attribute [local simp] complete_updateState

theorem book_claimed (s : SessionSnapshot) :
    Callback.claimed.book s = if (checkStateWrite s .claimed).isSome then s else { s with state := .claimed } := by
  simp

theorem book_onClaimDeferred (s : SessionSnapshot) :
    Callback.onClaimDeferred.book s =
      if s.state = .claiming ∧ s.claimTxHash = "" then { s with state := .active } else s := by
  simp only [Callback.book, Callback.body, Session.onClaimDeferred, complete_updateState, checkStateWrite]
  by_cases h : s.state = .claiming <;> by_cases h' : s.claimTxHash = "" <;> simp [h, h']

theorem book_onClaimTxError (v : Verdict) (s : SessionSnapshot) :
    (Callback.onClaimTxError v).book s =
      if s.claimTxHash ≠ "" ∨ s.state = .claimTxError ∨ s.state.holdsClaimOnChain then s
      else { s with state := .claimTxError, claimMissingVerdict := if v = .none then s.claimMissingVerdict else v } := by
  simp only [Callback.book, Callback.body, Session.onClaimTxError, Prog.complete, apply, Option.map_some,
    decodeSnapshot_state, decodeSnapshot_claimTxHash]
  by_cases h' : s.claimTxHash = "" <;> cases hs : s.state <;>
    simp [h', hs, SessionState.holdsClaimOnChain]

theorem book_onClaimWindowClosed (s : SessionSnapshot) :
    Callback.onClaimWindowClosed.book s =
      if s.state.holdsClaimOnChain then s else { s with state := .claimWindowClosed } := by
  cases h : s.state.holdsClaimOnChain <;>
    simp [Session.onClaimWindowClosed, h]

theorem book_onClaimSkipped (s : SessionSnapshot) :
    Callback.onClaimSkipped.book s = { s with state := .claimSkipped } := by
  simp [Session.onClaimSkipped]

/-- The re-read and the tracking that follow the reactivation write back what it wrote. -/
theorem book_onClaimObservedOnChain (root : Bytes) (tx : String) (s : SessionSnapshot) :
    (Callback.onClaimObservedOnChain root tx).book s =
      if root.length = smstRootLen ∧ canReactivateClaimed s.state then
        { s with
          state := .claimed
          claimedRootHash := root
          claimMissingVerdict := .none
          claimTxHash := if tx = "" then s.claimTxHash else tx }
      else s := by
  by_cases hr : root.length = smstRootLen
  · cases hc : canReactivateClaimed s.state
    · simp [hr, apply, hc]
    · simp [hr, apply, hc, trackSession, save, decodeSnapshot, saveScript]
  · simp [hr]

theorem book_onClaimMissing (s : SessionSnapshot) :
    Callback.onClaimMissing.book s =
      if s.state = .claimMissing ∨ s.state.isSuccess then s
      else { s with state := .claimMissing, claimMissingVerdict := claimMissingVerdictFor s.state } := by
  simp only [Callback.book, Callback.body, Session.onClaimMissing, Prog.complete, apply, Option.map_some,
    decodeSnapshot_state]
  cases hs : s.state <;>
    simp [hs, SessionState.isSuccess, claimMissingVerdictFor, SessionState.holdsClaimOnChain]

theorem book_onProofSubmitted (tx : String) (s : SessionSnapshot) :
    (Callback.onProofSubmitted tx).book s = { decodeSnapshot s with
      proofTxHash := tx, relayCount := s.relayCount, totalComputeUnits := s.totalComputeUnits } := by
  simp [Session.onProofSubmitted, apply, save, saveScript]

section
variable (s : SessionSnapshot)
include s

theorem book_onProofTxError :
    Callback.onProofTxError.book s =
      if s.state.isSuccess ∨ s.proofTxHash ≠ "" then s else { s with state := .proofTxError } := by
  simp only [Callback.book, Callback.body, Session.onProofTxError, Prog.complete, apply, Option.map_some,
    decodeSnapshot_state, decodeSnapshot_proofTxHash]
  by_cases h' : s.proofTxHash = "" <;> cases hs : s.state <;>
    simp [h', hs, SessionState.isSuccess]

theorem book_onProofDeferred :
    Callback.onProofDeferred.book s =
      if s.state.isTerminal ∨ s.proofTxHash ≠ "" then s else { s with state := .claimed } := by
  simp only [Callback.book, Callback.body, Session.onProofDeferred, Prog.complete, apply, Option.map_some,
    decodeSnapshot_state, decodeSnapshot_proofTxHash]
  by_cases h' : s.proofTxHash = "" <;> cases hs : s.state <;>
    simp [h', hs, SessionState.isTerminal]

theorem book_onProbabilisticProved :
    Callback.onProbabilisticProved.book s = { s with state := .probabilisticProved } := by
  simp [Session.onProbabilisticProved]

theorem book_onProofWindowClosed :
    Callback.onProofWindowClosed.book s = { s with state := .proofWindowClosed } := by
  simp [Session.onProofWindowClosed]

theorem book_onSessionProved :
    Callback.onSessionProved.book s = { s with state := .proved } := by
  simp [Session.onSessionProved]
end

inductive Phase where
  | claim | proof
  deriving DecidableEq

structure Entry where
  msg : Bytes
  submitHeight : Nat
  txHash : String
  deriving DecidableEq

structure Stores where
  sessions : SessionID → SessionSnapshot
  entries : Phase → SessionID → Option Entry
  trees : SessionID → Bool

inductive Write where
  | session (id : SessionID) (c : Callback)
  | put (phase : Phase) (id : SessionID) (e : Entry)
  | deleteTree (id : SessionID)

def execWrite (s : Stores) : Write → Stores
  | .session id c => { s with sessions := update s.sessions id (c.book (s.sessions id)) }
  | .put phase id e => { s with entries := update s.entries phase (update (s.entries phase) id (some e)) }
  | .deleteTree id => { s with trees := update s.trees id false }

end RelayMiner.Lifecycle
