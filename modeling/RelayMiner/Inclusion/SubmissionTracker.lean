import RelayMiner.Lib.Calls
/-!
# The submission record of a session

`SubmissionTracker` (`submission_tracker.go`) keeps one record for a session: what
was sent of its claim and of its proof, and what became of each on chain. A call
reads the record, sets its part and writes the whole back. Here is the record of
one session; a call's times and the hash of its proof are among its arguments.
-/
open RelayMiner.Lib

namespace RelayMiner.Inclusion.SubmissionTracker

structure Session where
  supplier : String := ""
  service : String := ""
  application : String := ""
  sessionID : String := ""
  sessionStart : Int := 0
  sessionEnd : Int := 0

inductive ClaimBroadcast where
  | accepted | rejected

structure ClaimSent where
  claimHash : String := ""
  claimTxHash : String := ""
  claimSuccess : Bool := false
  claimBroadcastOutcome : Option ClaimBroadcast := none
  claimErrorReason : String := ""
  claimSubmitHeight : Int := 0
  claimSubmitTimestamp : Int := 0
  claimSubmitTimeUTC : String := ""
  claimCurrentHeight : Int := 0

structure ProofSent where
  proofHash : String := ""
  proofSizeBytes : Int := 0
  proofTxHash : String := ""
  proofSuccess : Bool := false
  proofErrorReason : String := ""
  proofSubmitHeight : Int := 0
  proofSubmitTimestamp : Int := 0
  proofSubmitTimeUTC : String := ""
  proofCurrentHeight : Int := 0

structure Metadata where
  numRelays : Int := 0
  computeUnits : Int := 0
  proofRequired : Bool := false
  proofRequirementSeed : String := ""

structure SubmissionTrackingRecord extends Session, ClaimSent, ProofSent, Metadata where
  claimOnChainOutcome : String := ""
  claimInclusionHeight : Int := 0
  claimRebroadcasts : Int := 0
  proofOnChainOutcome : String := ""
  proofInclusionHeight : Int := 0
  proofRejectionCause : String := ""
  proofRebroadcasts : Int := 0

/-- What is under the session's key: a record, or bytes that do not unmarshal. -/
abbrev Stored := Option (Option SubmissionTrackingRecord)

inductive TrackError where
  | notFound | get | unmarshal | set

def getRecord (s : Stored) (fails : Bool) : Except TrackError SubmissionTrackingRecord :=
  if fails then .error .get
  else match s with
    | none => .error .notFound
    | some none => .error .unmarshal
    | some (some r) => .ok r

def set (s : Stored) (r : SubmissionTrackingRecord) : Fault → Stored × Option TrackError
  | .ok => (some (some r), none)
  | .lost => (some (some r), some .set)
  | .refused => (s, some .set)

def claimBroadcastOutcome (success : Bool) : ClaimBroadcast := if success then .accepted else .rejected

inductive Act where
  | trackClaimSubmission (id : Session) (sent : ClaimSent) (m : Metadata) (f : Fault)
  | trackProofSubmission (id : Session) (sent : ProofSent) (proofRequired : Bool) (proofRequirementSeed : String)
      (readFails : Bool) (f : Fault)
  | updateClaimOnChainOutcome (txHash outcome : String) (inclusionHeight rebroadcasts : Int) (readFails : Bool) (f : Fault)
  | updateProofOnChainOutcome (outcome : String) (inclusionHeight : Int) (newProofTxHash : String) (rebroadcasts : Int)
      (rejectionCause : String) (readFails : Bool) (f : Fault)

/-- One call: what it leaves stored, and the error it returns. -/
def call (s : Stored) : Act → Stored × Option TrackError
  | .trackClaimSubmission id sent m f =>
    set s
      { toSession := id
        toClaimSent := { sent with claimBroadcastOutcome := some (claimBroadcastOutcome sent.claimSuccess) }
        toMetadata := m } f
  | .trackProofSubmission id sent proofRequired proofRequirementSeed readFails f =>
    match getRecord s readFails with
    | .ok r => set s { r with toProofSent := sent, proofRequired, proofRequirementSeed } f
    | .error .unmarshal => (s, some .unmarshal)
    -- Any error of the read, not only that of a missing key.
    | .error _ =>
      set s { supplier := id.supplier, sessionID := id.sessionID, sessionEnd := id.sessionEnd, toProofSent := sent } f
  | .updateClaimOnChainOutcome txHash outcome inclusionHeight rebroadcasts readFails f =>
    if txHash = "" then (s, none)
    else match getRecord s readFails with
      | .error .notFound => (s, none)
      | .error e => (s, some e)
      | .ok r =>
        if r.claimTxHash ≠ txHash then (s, none)
        else set s
          { r with
            claimOnChainOutcome := outcome
            claimInclusionHeight := inclusionHeight
            claimRebroadcasts := if rebroadcasts > 0 then rebroadcasts else r.claimRebroadcasts } f
  | .updateProofOnChainOutcome outcome inclusionHeight newProofTxHash rebroadcasts rejectionCause readFails f =>
    match getRecord s readFails with
    | .error .notFound => (s, none)
    | .error e => (s, some e)
    | .ok r => set s
        { r with
          proofOnChainOutcome := outcome
          proofInclusionHeight := inclusionHeight
          proofRejectionCause := if rejectionCause ≠ "" then rejectionCause else r.proofRejectionCause
          proofRebroadcasts := if rebroadcasts > 0 then rebroadcasts else r.proofRebroadcasts
          proofTxHash := if newProofTxHash ≠ "" then newProofTxHash else r.proofTxHash } f

def step (s : Stored) (a : Act) : Stored := (call s a).1

/-- The claim's transaction, what its broadcast was told, and what became of it on chain. -/
def claimKnown : Stored → String × Option ClaimBroadcast × String
  | some (some r) => (r.claimTxHash, r.claimBroadcastOutcome, r.claimOnChainOutcome)
  | _ => ("", none, "")

/-- A call for the proof; one that could not read the record writes only where nothing is known about the claim. -/
def ForProof (s : Stored) : Act → Prop
  | .trackProofSubmission _ _ _ _ readFails f => readFails = true → f = .refused ∨ claimKnown s = ("", none, "")
  | .updateProofOnChainOutcome .. => True
  | _ => False

theorem claimKnown_set {s : Stored} {r : SubmissionTrackingRecord} {f : Fault}
    (h : f = .refused ∨ claimKnown s = claimKnown (some (some r))) : claimKnown (set s r f).1 = claimKnown s := by
  cases f with
  | refused => rfl
  | ok | lost => exact (h.resolve_left nofun).symm

theorem getRecord_ok {s : Stored} {fails : Bool} {r : SubmissionTrackingRecord} (h : getRecord s fails = .ok r) :
    s = some (some r) := by
  unfold getRecord at h
  split at h
  · cases h
  split at h <;> cases h
  rfl

theorem getRecord_error {s : Stored} {fails : Bool} {e : TrackError} (h : getRecord s fails = .error e) :
    fails = true ∨ claimKnown s = ("", none, "") := by
  unfold getRecord at h
  split at h
  next hf => exact .inl hf
  split at h
  · exact .inr rfl
  · exact .inr rfl
  · cases h

theorem claimKnown_step (s : Stored) (a : Act) (ha : ForProof s a) : claimKnown (step s a) = claimKnown s := by
  cases a with
  | trackClaimSubmission | updateClaimOnChainOutcome => exact ha.elim
  | trackProofSubmission id sent required seed readFails f =>
    simp only [step, call]
    split
    next r hr => exact claimKnown_set (.inr (getRecord_ok hr ▸ rfl))
    · rfl
    next e hne he =>
      refine claimKnown_set ?_
      rcases getRecord_error he with hf | hk
      · exact ha hf
      · exact .inr hk
  | updateProofOnChainOutcome outcome height hash n cause readFails f =>
    simp only [step, call]
    split
    · rfl
    · rfl
    next r hr => exact claimKnown_set (.inr (getRecord_ok hr ▸ rfl))

/-- After any calls, calls for the proof leave what is known about the claim. -/
theorem proof_keeps_claim (s : Stored) (as bs : List Act) (h : Meets step ForProof (run step s as) bs) :
    claimKnown (run step s (as ++ bs)) = claimKnown (run step s as) := by
  rw [run_append]
  exact inv_of_meets (fun s' => claimKnown s' = claimKnown (run step s as))
    (fun s' b hs hb => (claimKnown_step s' b hb).trans hs) rfl h

def claimAccepted : Act := .trackClaimSubmission {} { claimTxHash := "c", claimSuccess := true } {} .ok

def unreadProof (f : Fault) : Act := .trackProofSubmission {} {} true "" true f

theorem proof_keeps_claim_refused :
    claimKnown (run step none [claimAccepted, unreadProof .refused]) = ("c", some .accepted, "") :=
  (proof_keeps_claim none [claimAccepted] [unreadProof .refused] ⟨fun _ => .inl rfl, trivial⟩).trans rfl

theorem failed_read_erases_claim :
    let s := run step none [claimAccepted]
    claimKnown s = ("c", some .accepted, "") ∧
      claimKnown (step s (unreadProof .ok)) = ("", none, "") ∧ (call s (unreadProof .ok)).2 = none :=
  ⟨rfl, rfl, rfl⟩

end RelayMiner.Inclusion.SubmissionTracker
