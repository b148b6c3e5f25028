import Mathlib.Data.List.Basic
/-!
# Resending a stored claim or proof

One resend of an entry of the rebroadcast store, from `ResubmitMessage` down to
`BroadcastTx`, and what `rebroadcast` keeps of it on the entry. `Resend` is what the
node, the chain and the rest of the process answer; the message codecs, the
signature and the hash of a transaction are third-party code.
-/

namespace RelayMiner.Inclusion

abbrev Bytes := List UInt8

abbrev SessionID := String

inductive RebroadcastPhase where
  | claim
  | proof
  deriving DecidableEq

inductive SessionProofState where
  | unknown
  | pending
  | validated
  | rejected
  deriving DecidableEq

/-! ## Errors -/

inductive TxStage where
  | simulate
  | checkTx
  | broadcast
  deriving DecidableEq

structure TxRejection where
  stage : TxStage
  abciCode : Nat := 0
  codespace : String := ""
  proofNotRequired : Bool := false
  deriving DecidableEq

inductive SendError where
  | saturated
  | failed
  | rejected (r : TxRejection)
  | proofNotRequired (r : TxRejection)
  | proofAlreadyJudged
  deriving DecidableEq

def SendError.rejection? : SendError → Option TxRejection
  | .rejected r | .proofNotRequired r => some r
  | _ => none

def abciCodeTxInMempoolCache : Nat := 19

def abciCodeMempoolIsFull : Nat := 20

def abciCodespaceSDK : String := "sdk"

def isAlreadyQueuedRejection (codespace : String) (code : Nat) : Bool :=
  code = abciCodeTxInMempoolCache && codespace = abciCodespaceSDK

/-- `errors.Is` for `ErrTxAlreadyQueued`, which `broadcastRaw` wraps around such a CheckTx rejection and no other. -/
def SendError.alreadyQueued (err : SendError) : Bool :=
  match err.rejection? with
  | some r => r.stage = .checkTx && isAlreadyQueuedRejection r.codespace r.abciCode
  | none => false

def nothingWasSpent (err : SendError) : Bool := err = .saturated || err.alreadyQueued

def rejectionPreservesBytes : Option SendError → Bool
  | none => true
  | some err =>
    match err.rejection? with
    | none => true
    | some r =>
      if r.stage = .broadcast then true
      else if r.stage ≠ .checkTx ∨ r.codespace ≠ abciCodespaceSDK then false
      else r.abciCode = abciCodeTxInMempoolCache || r.abciCode = abciCodeMempoolIsFull

/-! ## The transaction client -/

inductive TxReply where
  | lost (proofNotRequired : Bool)
  | response (code : Nat) (codespace : String) (proofNotRequired : Bool)

def TxReply.err : TxReply → Option SendError
  | .lost notRequired => some (.rejected ⟨.broadcast, 0, "", notRequired⟩)
  | .response code codespace notRequired =>
    if code = 0 then none else some (.rejected ⟨.checkTx, code, codespace, notRequired⟩)

inductive Answer where
  | success
  | alreadyQueued
  | noReply
  | mempoolFull
  | rejected
  deriving DecidableEq

def TxReply.answer : TxReply → Answer
  | .lost _ => .noReply
  | .response code codespace _ =>
    if code = 0 then .success
    else if codespace ≠ "sdk" then .rejected
    else if code = 19 then .alreadyQueued
    else if code = 20 then .mempoolFull
    else .rejected

def Answer.unjudged : Answer → Bool
  | .noReply | .mempoolFull => true
  | _ => false

structure SignedTxPayload where
  bytes : Bytes := []
  hash : String := ""
  timeoutAt : Option Int := none
  timeoutHeight : Int := 0

inductive Signing where
  | signed (bytes : Bytes) (offset : Int)
  | refused (proofNotRequired : Bool)
  | failed

inductive Permit where
  | free
  | taken
  | closed
  deriving DecidableEq

structure Resend where
  client : Bool := true
  chainNow : Option Int
  unmarshals : Bool := true
  judged : Option SessionProofState := none
  permit : Permit := .free
  signing : Signing
  reply : TxReply

inductive Wire where
  | nothing
  | reinjected (bytes : Bytes)
  | signed (bytes : Bytes)
  deriving DecidableEq

def Wire.bytes? : Wire → Option Bytes
  | .nothing => none
  | .reinjected b | .signed b => some b

structure Resubmitted where
  hash : String := ""
  sent : SignedTxPayload := {}
  err : Option SendError := none
  wire : Wire := .nothing

def defaultTxTimeoutMax : Int := 589990000000

/-- The budget a resend inherits, in nanoseconds, or `WindowTimeout(0, 0)`. -/
def resendTimeout (timeoutSeconds : Int) : Int :=
  if timeoutSeconds * 1000000000 ≤ 0 then defaultTxTimeoutMax else timeoutSeconds * 1000000000

section

variable (txHashOf : Bytes → String)

def broadcastRaw (bytes : Bytes) (reply : TxReply) : String × Option SendError :=
  match reply with
  | .lost _ => ("", reply.err)
  | .response _ _ _ => (txHashOf bytes, reply.err)

def signAndBroadcast (timeoutSeconds timeoutHeight : Int) (r : Resend) : Resubmitted :=
  match r.permit with
  | .closed => { err := some .failed }
  | .taken => { err := some .saturated }
  | .free =>
    match r.chainNow, r.signing with
    | some anchor, .signed bytes offset =>
      let (hash, err) := broadcastRaw txHashOf bytes r.reply
      { hash := hash
        sent := ⟨bytes, txHashOf bytes, some (anchor + resendTimeout timeoutSeconds + offset), timeoutHeight⟩
        err := err
        wire := .signed bytes }
    | some _, .refused notRequired =>
      { err := some (.rejected { stage := .simulate, proofNotRequired := notRequired }) }
    | some _, .failed => { err := some .failed }
    | none, _ => { err := some .failed }

def createClaims (timeoutSeconds timeoutHeight : Int) (r : Resend) : Resubmitted :=
  let s := signAndBroadcast txHashOf timeoutSeconds timeoutHeight r
  if s.err = none then s else { s with hash := "" }

/-- A refusal of a proof that was not required comes back under its own sentinel, without the payload. -/
def submitProofs (timeoutSeconds timeoutHeight : Int) (r : Resend) : Resubmitted :=
  let s := signAndBroadcast txHashOf timeoutSeconds timeoutHeight r
  match s.err with
  | none => s
  | some (.rejected rejection) =>
    if rejection.proofNotRequired then { err := some (.proofNotRequired rejection), wire := s.wire }
    else { s with hash := "" }
  | some _ => { s with hash := "" }

end

/-! ## The entry -/

structure Entry where
  msgBytes : Bytes
  submitHeight : Int
  txHash : String
  origTxHash : String
  serviceID : String := ""
  rebroadcasts : Nat := 0
  timeoutSeconds : Int := 0
  lastAttemptHeight : Int := 0
  signedBytes : Bytes := []
  signedTimeoutAt : Int := 0
  signedTimeoutHeight : Int := 0

def persistRebroadcastEntry (msgBytes : Bytes) (submitHeight : Int) (txHash : String) (signed : SignedTxPayload)
    (attemptErr : Option SendError) (serviceID : String) (timeoutSeconds : Int) : Entry :=
  let signed := if rejectionPreservesBytes attemptErr then signed else {}
  { msgBytes := msgBytes
    submitHeight := submitHeight
    txHash := txHash
    origTxHash := txHash
    serviceID := serviceID
    timeoutSeconds := timeoutSeconds
    signedBytes := signed.bytes
    signedTimeoutAt := signed.timeoutAt.getD 0
    signedTimeoutHeight := signed.timeoutHeight }

/-- The transaction a resend is handed. A stored deadline is never the zero time. -/
def Entry.cached (e : Entry) : SignedTxPayload :=
  ⟨e.signedBytes, e.txHash, some e.signedTimeoutAt, e.signedTimeoutHeight⟩

def reusable (cached : SignedTxPayload) (chainNow : Option Int) : Bool :=
  match cached.timeoutAt, chainNow with
  | some timeoutAt, some now => cached.bytes ≠ [] && now < timeoutAt
  | _, _ => false

def proofAlreadyJudged (state : Option SessionProofState) : Bool :=
  state = some .validated || state = some .rejected

section

variable (txHashOf : Bytes → String) (phase : RebroadcastPhase)

/-- `ResubmitMessage`: the cached bytes while they are valid on the chain's clock, else a new transaction. -/
def resubmitMessage (e : Entry) (timeoutHeight : Int) (r : Resend) : Resubmitted :=
  if !r.client then { err := some .failed }
  else if reusable e.cached r.chainNow then
    let (hash, err) := broadcastRaw txHashOf e.signedBytes r.reply
    ⟨hash, e.cached, err, .reinjected e.signedBytes⟩
  else if !r.unmarshals then { err := some .failed }
  else
    match phase with
    | .claim => createClaims txHashOf e.timeoutSeconds timeoutHeight r
    | .proof =>
      if proofAlreadyJudged r.judged then { err := some .proofAlreadyJudged }
      else submitProofs txHashOf e.timeoutSeconds timeoutHeight r

def Resend.signs (e : Entry) (r : Resend) : Bool :=
  r.client && !reusable e.cached r.chainNow && r.unmarshals &&
    !(phase = .proof && proofAlreadyJudged r.judged) && r.permit = .free && r.chainNow.isSome &&
    match r.signing with
    | .signed _ _ => true
    | _ => false

end

def reinjectionStallBlocks : Int := 3

def Entry.stuckSince (e : Entry) : Int := if e.lastAttemptHeight = 0 then e.submitHeight else e.lastAttemptHeight

def Entry.stuckTooLong (e : Entry) (height : Int) : Bool := reinjectionStallBlocks ≤ height - e.stuckSince

def Entry.dropBytes (e : Entry) : Entry :=
  { e with signedBytes := [], signedTimeoutAt := 0, signedTimeoutHeight := 0 }

def Entry.keepBytes (e : Entry) (sent : SignedTxPayload) : Entry :=
  if sent.bytes ≠ [] then
    { e with signedBytes := sent.bytes, signedTimeoutAt := sent.timeoutAt.getD 0, signedTimeoutHeight := sent.timeoutHeight }
  else e

def Entry.cache (e : Entry) (height : Int) (out : Resubmitted) : Entry :=
  match out.err with
  | none => e.keepBytes out.sent
  | some err =>
    if (!nothingWasSpent err && !rejectionPreservesBytes out.err) || e.stuckTooLong height then e.dropBytes
    else e.keepBytes out.sent

def Entry.count (e : Entry) (height : Int) (err : Option SendError) : Entry :=
  match err with
  | some err =>
    if nothingWasSpent err then e else { e with rebroadcasts := e.rebroadcasts + 1, lastAttemptHeight := height }
  | none => { e with rebroadcasts := e.rebroadcasts + 1, lastAttemptHeight := height }

def Entry.noteHash (e : Entry) (out : Resubmitted) : Entry :=
  if out.err = none ∧ out.hash ≠ "" then { e with txHash := out.hash } else e

def Entry.afterResend (e : Entry) (height : Int) (out : Resubmitted) : Entry :=
  ((e.cache height out).count height out.err).noteHash out

def SendError.settles : SendError → Bool
  | .proofNotRequired _ | .proofAlreadyJudged => true
  | _ => false

def Resubmitted.settles (out : Resubmitted) : Bool :=
  match out.err with
  | some err => err.settles
  | none => false

/-! ## What a reply makes of the bytes -/

theorem TxReply.err_eq_none_iff (reply : TxReply) : reply.err = none ↔ reply.answer = .success := by
  cases reply with
  | lost _ => simp [err, answer]
  | response code codespace _ =>
    simp only [err, answer]
    split_ifs <;> simp_all

variable {err : SendError} {reply : TxReply}

section
variable (h : reply.err = some err)
include h

theorem TxReply.settles_err : err.settles = false := by
  cases reply with
  | lost _ =>
    cases h
    rfl
  | response code codespace _ =>
    simp only [TxReply.err] at h
    split_ifs at h
    cases h
    rfl

theorem TxReply.nothingWasSpent_err :
    nothingWasSpent err = decide (reply.answer = .alreadyQueued) := by
  cases reply with
  | lost _ =>
    cases h
    simp [nothingWasSpent, SendError.alreadyQueued, SendError.rejection?, answer]
  | response code codespace _ =>
    simp only [TxReply.err] at h
    split_ifs at h with h0
    cases h
    simp only [nothingWasSpent, SendError.alreadyQueued, SendError.rejection?, isAlreadyQueuedRejection,
      abciCodeTxInMempoolCache, abciCodespaceSDK, answer, if_neg h0]
    split_ifs <;> simp_all

theorem TxReply.preserves_err :
    rejectionPreservesBytes reply.err = decide (reply.answer ≠ .rejected) := by
  cases reply with
  | lost _ => rfl
  | response code codespace _ =>
    simp only [TxReply.err] at h ⊢
    split_ifs at h ⊢ with h0
    simp only [rejectionPreservesBytes, SendError.rejection?, abciCodeTxInMempoolCache, abciCodeMempoolIsFull,
      abciCodespaceSDK, answer, if_neg h0]
    by_cases hs : codespace = "sdk"
    · by_cases h19 : code = 19
      · simp [hs, h19]
      · by_cases h20 : code = 20 <;> simp [hs, h19, h20]
    · simp [hs]
end

/-! ## What a resend can be -/

section

variable (txHashOf : Bytes → String) {reply : TxReply}

structure Answered (reply : TxReply) (p : SignedTxPayload) (out : Resubmitted) : Prop where
  sent : out.sent = p
  err : out.err = reply.err
  hash : out.err = none → out.hash = txHashOf p.bytes

structure SignedOut (r : Resend) (out : Resubmitted) (b : Bytes) : Prop where
  permit : r.permit = .free
  clock : r.chainNow.isSome = true
  signing : ∃ offset, r.signing = .signed b offset
  wire : out.wire = .signed b

structure Unsent (out : Resubmitted) : Prop where
  wire : out.wire = .nothing
  sent : out.sent = {}
  err : out.err ≠ none

theorem broadcastRaw_hash (bytes : Bytes) (h : reply.err = none) :
    (broadcastRaw txHashOf bytes reply).1 = txHashOf bytes := by
  cases reply with
  | lost _ => cases h
  | response _ _ _ => rfl

theorem broadcastRaw_err (bytes : Bytes) (reply : TxReply) : (broadcastRaw txHashOf bytes reply).2 = reply.err := by
  cases reply <;> rfl

theorem answered_broadcastRaw (p : SignedTxPayload) (reply : TxReply) (wire : Wire) :
    Answered txHashOf reply p
      ⟨(broadcastRaw txHashOf p.bytes reply).1, p, (broadcastRaw txHashOf p.bytes reply).2, wire⟩ :=
  ⟨rfl, broadcastRaw_err txHashOf p.bytes reply,
    fun h => broadcastRaw_hash txHashOf p.bytes ((broadcastRaw_err txHashOf p.bytes reply).symm.trans h)⟩

theorem Answered.noHash {p : SignedTxPayload} {out : Resubmitted} (h : Answered txHashOf reply p out)
    (herr : out.err ≠ none) : Answered txHashOf reply p { out with hash := "" } :=
  ⟨h.sent, h.err, fun h' => absurd h' herr⟩

attribute [local simp] signAndBroadcast resubmitMessage Resubmitted.settles SendError.settles

variable (timeoutSeconds timeoutHeight : Int)

theorem signAndBroadcast_cases (r : Resend) :
    let out := signAndBroadcast txHashOf timeoutSeconds timeoutHeight r
    (∃ b t, SignedOut r out b ∧ Answered txHashOf r.reply ⟨b, txHashOf b, some t, timeoutHeight⟩ out) ∨
    Unsent out := by
  cases hp : r.permit with
  | closed | taken => exact .inr (by constructor <;> simp [hp])
  | free =>
    cases hn : r.chainNow with
    | none => exact .inr (by constructor <;> simp [hp, hn])
    | some anchor =>
      cases hs : r.signing with
      | refused _ | failed => exact .inr (by constructor <;> simp [hp, hn, hs])
      | signed b offset =>
        refine .inl ⟨b, anchor + resendTimeout timeoutSeconds + offset, ⟨hp, by simp [hn], ⟨offset, hs⟩, ?_⟩, ?_⟩
        · simp [hp, hn, hs]
        · simp only [signAndBroadcast, hp, hn, hs]
          exact answered_broadcastRaw txHashOf ⟨b, txHashOf b, _, timeoutHeight⟩ r.reply (.signed b)

theorem createClaims_cases (r : Resend) :
    let out := createClaims txHashOf timeoutSeconds timeoutHeight r
    (∃ b t, SignedOut r out b ∧ Answered txHashOf r.reply ⟨b, txHashOf b, some t, timeoutHeight⟩ out) ∨
    Unsent out := by
  intro out
  have hcases := signAndBroadcast_cases txHashOf timeoutSeconds timeoutHeight r
  by_cases he : (signAndBroadcast txHashOf timeoutSeconds timeoutHeight r).err = none
  · rw [show out = signAndBroadcast txHashOf timeoutSeconds timeoutHeight r from if_pos he]
    exact hcases
  rw [show out = { signAndBroadcast txHashOf timeoutSeconds timeoutHeight r with hash := "" } from if_neg he]
  rcases hcases with ⟨b, t, hb, ha⟩ | h
  · exact .inl ⟨b, t, { hb with }, ha.noHash txHashOf he⟩
  · exact .inr { h with }

theorem submitProofs_cases (r : Resend) :
    let out := submitProofs txHashOf timeoutSeconds timeoutHeight r
    (∃ b t, SignedOut r out b ∧
      (out.settles = true ∨ Answered txHashOf r.reply ⟨b, txHashOf b, some t, timeoutHeight⟩ out)) ∨
    Unsent out := by
  intro out
  have hout : out = submitProofs txHashOf timeoutSeconds timeoutHeight r := rfl
  have hcases := signAndBroadcast_cases txHashOf timeoutSeconds timeoutHeight r
  simp only [submitProofs] at hout
  generalize signAndBroadcast txHashOf timeoutSeconds timeoutHeight r = s at hout hcases
  -- A failed send keeps its payload, with the one exception of a proof that was not required.
  have hfailed : s.err ≠ none → out = { s with hash := "" } →
      (∃ b t, SignedOut r out b ∧
        (out.settles = true ∨ Answered txHashOf r.reply ⟨b, txHashOf b, some t, timeoutHeight⟩ out)) ∨
      Unsent out := by
    intro herr hout
    rw [hout]
    rcases hcases with ⟨b, t, hb, ha⟩ | h
    · exact .inl ⟨b, t, { hb with }, .inr (ha.noHash txHashOf herr)⟩
    · exact .inr { h with }
  split at hout
  · rw [hout]
    rcases hcases with ⟨b, t, hb, ha⟩ | h
    · exact .inl ⟨b, t, hb, .inr ha⟩
    · exact .inr h
  next rejection herr =>
    split_ifs at hout with hnr
    · rw [hout]
      rcases hcases with ⟨b, t, hb, -⟩ | h
      · exact .inl ⟨b, t, { hb with }, .inl rfl⟩
      · exact .inr ⟨h.wire, rfl, nofun⟩
    · exact hfailed (by simp [herr]) hout
  next err hne herr => exact hfailed (by simp [herr]) hout

/-- What becomes of a resend: the cached bytes go out again, a new transaction is signed and goes out, or nothing does. -/
def Resent (phase : RebroadcastPhase) (e : Entry) (timeoutHeight : Int) (r : Resend) (out : Resubmitted) : Prop :=
  (r.client = true ∧ reusable e.cached r.chainNow = true ∧ out.wire = .reinjected e.signedBytes ∧
    Answered txHashOf r.reply e.cached out) ∨
  (∃ b offset t, r.signs phase e = true ∧ r.signing = .signed b offset ∧ out.wire = .signed b ∧
    (out.settles = true ∨ Answered txHashOf r.reply ⟨b, txHashOf b, some t, timeoutHeight⟩ out)) ∨
  ((r.client && reusable e.cached r.chainNow) = false ∧ Unsent out)

theorem resubmitMessage_cases (phase : RebroadcastPhase) (e : Entry) (timeoutHeight : Int) (r : Resend) :
    Resent txHashOf phase e timeoutHeight r (resubmitMessage txHashOf phase e timeoutHeight r) := by
  obtain ⟨out, hout⟩ : ∃ out, out = resubmitMessage txHashOf phase e timeoutHeight r := ⟨_, rfl⟩
  rw [← hout]
  unfold Resent
  cases hc : r.client with
  | false =>
    refine .inr (.inr ⟨rfl, ?_⟩)
    constructor <;> simp [hout, hc]
  | true =>
    cases hr : reusable e.cached r.chainNow with
    | true =>
      refine .inl ⟨rfl, rfl, ?_⟩
      simp only [hout, resubmitMessage, hc, hr, Bool.not_true, Bool.false_eq_true, if_false, if_true, true_and]
      exact answered_broadcastRaw txHashOf e.cached r.reply (.reinjected e.signedBytes)
    | false =>
      cases hu : r.unmarshals with
      | false =>
        refine .inr (.inr ⟨rfl, ?_⟩)
        constructor <;> simp [hout, hc, hr, hu]
      | true =>
        cases phase with
        | claim =>
          rw [show out = createClaims txHashOf e.timeoutSeconds timeoutHeight r by
            simp [hout, hc, hr, hu]]
          rcases createClaims_cases txHashOf e.timeoutSeconds timeoutHeight r with ⟨b, t, hb, ha⟩ | h
          · obtain ⟨offset, hs⟩ := hb.signing
            have hsigns : r.signs .claim e = true := by simp [Resend.signs, hc, hr, hu, hb.permit, hb.clock, hs]
            exact .inr (.inl ⟨b, offset, t, hsigns, hs, hb.wire, .inr ha⟩)
          · exact .inr (.inr ⟨rfl, h⟩)
        | proof =>
          cases hj : proofAlreadyJudged r.judged with
          | true =>
            refine .inr (.inr ⟨rfl, ?_⟩)
            constructor <;> simp [hout, hc, hr, hu, hj]
          | false =>
            rw [show out = submitProofs txHashOf e.timeoutSeconds timeoutHeight r by
              simp [hout, hc, hr, hu, hj]]
            rcases submitProofs_cases txHashOf e.timeoutSeconds timeoutHeight r with ⟨b, t, hb, ha⟩ | h
            · obtain ⟨offset, hs⟩ := hb.signing
              have hsigns : r.signs .proof e = true := by
                simp [Resend.signs, hc, hr, hu, hj, hb.permit, hb.clock, hs]
              exact .inr (.inl ⟨b, offset, t, hsigns, hs, hb.wire, ha⟩)
            · exact .inr (.inr ⟨rfl, h⟩)

theorem Answered.not_settles {p : SignedTxPayload} {out : Resubmitted} (h : Answered txHashOf reply p out) :
    out.settles = false := by
  unfold Resubmitted.settles
  split
  next err herr => exact TxReply.settles_err (h.err.symm.trans herr)
  · rfl

theorem settles_signAndBroadcast (r : Resend) :
    (signAndBroadcast txHashOf timeoutSeconds timeoutHeight r).settles = false := by
  cases hp : r.permit with
  | closed | taken => simp [hp]
  | free =>
    cases hn : r.chainNow with
    | none => simp [hp, hn]
    | some anchor =>
      cases hs : r.signing with
      | refused _ | failed => simp [hp, hn, hs]
      | signed b offset =>
        simp only [signAndBroadcast, hp, hn, hs]
        exact (answered_broadcastRaw txHashOf ⟨b, txHashOf b, _, timeoutHeight⟩ r.reply (.signed b)).not_settles

/-- Only a resend of a proof is told that none is required or that it is judged. -/
theorem phase_of_settles {phase : RebroadcastPhase} {e : Entry} {timeoutHeight : Int} {r : Resend}
    (h : (resubmitMessage txHashOf phase e timeoutHeight r).settles = true) : phase = .proof := by
  cases phase with
  | proof => rfl
  | claim =>
    simp only [resubmitMessage] at h
    split_ifs at h
    · cases h
    · have hno := (answered_broadcastRaw txHashOf e.cached r.reply (.reinjected e.signedBytes)).not_settles
      exact absurd (h.symm.trans hno) (by decide)
    · cases h
    have hsame : (createClaims txHashOf e.timeoutSeconds timeoutHeight r).settles =
        (signAndBroadcast txHashOf e.timeoutSeconds timeoutHeight r).settles := by
      simp only [createClaims]
      split_ifs <;> rfl
    rw [hsame, settles_signAndBroadcast] at h
    cases h

end

end RelayMiner.Inclusion
