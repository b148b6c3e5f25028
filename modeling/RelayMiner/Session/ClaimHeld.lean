import RelayMiner.Session.Coordinator
/-!
# A claim on chain and the claim-phase verdicts

Any number of miners run the claim-phase callbacks on one session.
`updateStateScript` refuses `claim_window_closed` and `claim_tx_error` over a
session that holds its claim, and the reactivation only ever moves a session
forward; `claim_missing` and `claim_skipped` are written over any state, the
first because the chain itself was asked.
-/
open RelayMiner.Lib

namespace RelayMiner.Session

inductive ClaimCall where
  | onSessionClaimed (root : Bytes) (claimTxHash : String)
  | onClaimObservedOnChain (root : Bytes) (claimTxHash : String) (wired : Bool)
  | onClaimDeferred
  | onClaimTxError (verdict : Verdict)
  | onClaimMissing
  | onClaimWindowClosed
  | onClaimSkipped
  | reactivateClaimed (root : Bytes) (claimTxHash : String)
  | reactivateProved (proofTxHash : String)

def ClaimCall.body : ClaimCall → Call
  | .onSessionClaimed root tx => Session.onSessionClaimed root tx
  | .onClaimObservedOnChain root tx wired => Session.onClaimObservedOnChain root tx wired
  | .onClaimDeferred => Session.onClaimDeferred
  | .onClaimTxError v => Session.onClaimTxError v
  | .onClaimMissing => Session.onClaimMissing
  | .onClaimWindowClosed => Session.onClaimWindowClosed
  | .onClaimSkipped => Session.onClaimSkipped
  | .reactivateClaimed root tx => .op (.reactivateClaimed root tx) fun _ => .ret
  | .reactivateProved tx => .op (.reactivateProved tx) fun _ => .ret

def holdsClaim (key : Option SessionSnapshot) : Bool := key.any fun s => s.state.holdsClaimOnChain

@[simp] theorem holdsClaim_none : holdsClaim none = false := rfl

variable (s : SessionSnapshot)

@[simp] theorem holdsClaim_some : holdsClaim (some s) = s.state.holdsClaimOnChain := rfl

def heldOrGone (key : Option SessionSnapshot) : Bool := key.all fun s => s.state.holdsClaimOnChain

@[simp] theorem heldOrGone_none : heldOrGone none = true := rfl

@[simp] theorem heldOrGone_some : heldOrGone (some s) = s.state.holdsClaimOnChain := rfl

/-! ## What an operation does to a session that holds its claim -/

def Op.keepsClaim : Op → Bool
  | .get | .reactivateClaimed _ _ | .reactivateProved _ => true
  | .hset _ snap => snap.state.holdsClaimOnChain
  | .updateState newState _ => newState ≠ .claiming

variable {o : Op} {key : Option SessionSnapshot}

attribute [local simp] Op.keepsClaim updateStateScript SessionState.holdsClaimOnChain

def Op.flipped : Op → Reply → Bool
  | .reactivateClaimed _ _, .reactivation (some _) => true
  | _, _ => false

def Op.answers (held : Bool) : Op → Reply → Prop
  | .get, r => held → ∀ s, r = .snapshot (some s) → s.state.holdsClaimOnChain
  | _, _ => True

theorem answers_exec (key : Option SessionSnapshot) (o : Op) (f : Fault) :
    o.answers (heldOrGone key) (exec key o f).2 := by
  cases o with
  | get =>
    intro hk s hs
    cases f with
    | ok =>
      cases key with
      | none => simp [exec, apply] at hs
      | some t =>
        simp only [exec, apply, Option.map_some, Reply.snapshot.injEq, Option.some.injEq] at hs
        simpa [← hs] using hk
    | refused | lost => simp [exec] at hs
  | _ => trivial

/-! ## The calls -/

def KeepsClaim : Bool → Call → Prop
  | _, .ret => True
  | held, .op o k => o.keepsClaim ∧ ∀ r, o.answers held r → KeepsClaim (held || o.flipped r) (k r)

theorem answers_mono {r : Reply} (h : o.answers true r) : o.answers false r := by
  cases o with
  | get => exact fun hf => by simp at hf
  | _ => trivial

/-- Knowing more about the store only rules answers out. -/
theorem KeepsClaim.mono {p : Call} (h : KeepsClaim false p) : ∀ held, KeepsClaim held p := by
  induction p with
  | ret => exact fun _ => trivial
  | op o k ih =>
    intro held
    cases held with
    | false => exact h
    | true =>
      refine ⟨h.1, fun r hr => ?_⟩
      have hk := h.2 r (answers_mono hr)
      cases hfl : o.flipped r with
      | false => exact ih r (by simpa [hfl] using hk) _
      | true => simpa [hfl] using hk

end RelayMiner.Session
