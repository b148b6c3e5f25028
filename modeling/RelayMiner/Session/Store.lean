import RelayMiner.Lib.Calls
import RelayMiner.Session.State
/-!
# The shared session store

The operations of `RedisSessionStore` on one session's key, each one round trip:
the read, the pipeline `Save` ends in, and the three Lua scripts. A script reads
and writes in one step; `Save` does not, its read and its write are two
operations. Pre-hash (legacy JSON) keys are left out.
-/
open RelayMiner.Lib

namespace RelayMiner.Session

inductive Op where
  | get
  | hset (existing : Bool) (snap : SessionSnapshot)
  | updateState (newState : SessionState) (verdict : Verdict)
  | reactivateClaimed (root : Bytes) (claimTxHash : String)
  | reactivateProved (proofTxHash : String)

inductive Reply where
  | failed
  | snapshot (s : Option SessionSnapshot)
  | saved
  | notFound
  | claimAlreadyOnChain
  | notDeferred
  | updated (old : SessionState)
  | reactivation (src : Option SessionState)
  deriving DecidableEq

/-- `decodeSnapshot`: a root of the wrong length is dropped. -/
def decodeSnapshot (s : SessionSnapshot) : SessionSnapshot :=
  if s.claimedRootHash.length = smstRootLen then s else { s with claimedRootHash := [] }

@[simp] theorem decodeSnapshot_state (s : SessionSnapshot) : (decodeSnapshot s).state = s.state := by
  unfold decodeSnapshot
  split <;> rfl

/-- The pipeline of `Save`. Over a key `Save` read as existing only metadata is written, and optional
fields the snapshot lacks are removed; over one it read as absent everything is, and nothing is removed. -/
def saveScript (existing : Bool) (snap : SessionSnapshot) (key : Option SessionSnapshot) : SessionSnapshot :=
  match existing, key with
  | true, some cur =>
    { snap with relayCount := cur.relayCount, totalComputeUnits := cur.totalComputeUnits }
  | true, none => { snap with relayCount := 0, totalComputeUnits := 0 }
  | false, some cur =>
    { snap with
      claimedRootHash := if snap.claimedRootHash = [] then cur.claimedRootHash else snap.claimedRootHash
      claimTxHash := if snap.claimTxHash = "" then cur.claimTxHash else snap.claimTxHash
      proofTxHash := if snap.proofTxHash = "" then cur.proofTxHash else snap.proofTxHash
      claimMissingVerdict :=
        if snap.claimMissingVerdict = .none then cur.claimMissingVerdict else snap.claimMissingVerdict }
  | false, none => snap

@[simp] theorem saveScript_state (existing : Bool) (snap : SessionSnapshot) (key : Option SessionSnapshot) :
    (saveScript existing snap key).state = snap.state := by
  cases existing <;> cases key <;> rfl

/-- Why `newState` may not be written over `s`, or `none`: `checkStateWrite`, and the guards of `updateStateScript`. -/
def checkStateWrite (s : SessionSnapshot) (newState : SessionState) : Option Reply :=
  if (newState = .claimWindowClosed ∨ newState = .claimTxError) ∧ s.state.holdsClaimOnChain then
    some .claimAlreadyOnChain
  -- Only a deferred claim writes active, and only over an unsent claim.
  else if newState = .active ∧ (s.state ≠ .claiming ∨ s.claimTxHash ≠ "") then some .notDeferred
  -- claimed is never written over a proof that was sent or a proof phase that ended.
  else if newState = .claimed ∧ (s.proofTxHash ≠ "" ∨ s.state = .proved ∨ s.state = .probabilisticProved ∨
      s.state = .proofWindowClosed ∨ s.state = .proofTxError) then some .notDeferred
  else none

def updateStateScript (newState : SessionState) (verdict : Verdict) :
    Option SessionSnapshot → Option SessionSnapshot × Reply
  | none => (none, .notFound)
  | some s =>
    match checkStateWrite s newState with
    | some refusal => (some s, refusal)
    | none =>
      (some { s with
        state := newState
        claimMissingVerdict :=
          if verdict ≠ .none ∧ s.state ≠ newState then verdict else s.claimMissingVerdict }, .updated s.state)

def canReactivateClaimed : SessionState → Bool
  | .active | .claiming | .claimWindowClosed | .claimTxError | .claimMissing => true
  | _ => false

def reactivateClaimedScript (root : Bytes) (claimTxHash : String) :
    Option SessionSnapshot → Option SessionSnapshot × Reply
  | none => (none, .notFound)
  | some s =>
    if canReactivateClaimed s.state then
      (some { s with
        state := .claimed
        claimedRootHash := root
        claimMissingVerdict := .none
        claimTxHash := if claimTxHash = "" then s.claimTxHash else claimTxHash }, .reactivation (some s.state))
    else (some s, .reactivation none)

def canReactivateProved (state : SessionState) (proofTxHash : String) : Bool :=
  match state with
  | .claimed | .proving | .proofTxError => true
  | .proofWindowClosed => proofTxHash ≠ ""
  | _ => false

def reactivateProvedScript (proofTxHash : String) :
    Option SessionSnapshot → Option SessionSnapshot × Reply
  | none => (none, .notFound)
  | some s =>
    if canReactivateProved s.state s.proofTxHash then
      (some { s with
        state := .proved
        proofTxHash := if s.proofTxHash = "" ∧ proofTxHash ≠ "" then proofTxHash else s.proofTxHash },
        .reactivation (some s.state))
    else (some s, .reactivation none)

def apply (key : Option SessionSnapshot) : Op → Option SessionSnapshot × Reply
  | .get => (key, .snapshot (key.map decodeSnapshot))
  | .hset existing snap => (some (saveScript existing snap key), .saved)
  | .updateState newState verdict => updateStateScript newState verdict key
  | .reactivateClaimed root claimTxHash => reactivateClaimedScript root claimTxHash key
  | .reactivateProved proofTxHash => reactivateProvedScript proofTxHash key

def exec (key : Option SessionSnapshot) (o : Op) : Fault → Option SessionSnapshot × Reply
  | .ok => apply key o
  | .refused => (key, .failed)
  | .lost => ((apply key o).1, .failed)

variable (key : Option SessionSnapshot)

/-- An operation leaves the key as it was, or does to it what it does when it works. -/
theorem exec_fst (o : Op) (f : Fault) :
    (exec key o f).1 = key ∨ (exec key o f).1 = (apply key o).1 := by
  cases f <;> simp [exec]

def expire (_ : Option SessionSnapshot) (_ : Unit) : Option SessionSnapshot := none

abbrev Call := Prog Op Reply

abbrev Miners := Conf (Option SessionSnapshot) Op Reply

def idle (key : Option SessionSnapshot) : Miners := ⟨key, fun _ => .ret⟩

@[simp] theorem idle_store : (idle key).store = key := rfl

@[simp] theorem idle_calls (i : Nat) : (idle key).calls i = .ret := rfl

end RelayMiner.Session
