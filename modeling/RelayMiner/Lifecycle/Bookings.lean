import RelayMiner.Lifecycle.Ledger
import RelayMiner.Lifecycle.Transitions
/-!
# Where a session's end is booked

The calls that claim cycles, proof cycles, the sweep, a new owner and the
inclusion reconciler make on one session, and what each of them counts. A call is
taken at the moment its write reaches the store. What it has read before may be
any older record, its write may fail or its answer be lost, and calls of any
number of miners come in any order. Some places count once the write has been
answered, others count first.
-/
open RelayMiner.Lib RelayMiner.Session

namespace RelayMiner.Lifecycle.Bookings

open Ledger

/-! ## A call -/

/-- A call as far as its first write: a read sees `seen`, the write meets the fault. -/
def perform (seen : Reply) (f : Fault) : Call → SessionSnapshot → SessionSnapshot × Option Reply
  | .ret, s => (s, none)
  | .op o k, s =>
    match o with
    | .get => perform seen f (k seen) s
    | o => (((exec (some s) o f).1).getD s, some (exec (some s) o f).2)

def made : Option Reply → Bool
  | some (.updated _) => true
  | _ => false

def readable : Reply → Bool
  | .snapshot (some _) => true
  | _ => false

variable {s : SessionSnapshot} {st : SessionState} {c : Call}

theorem made_of_checkStateWrite {r : Reply} (h : checkStateWrite s st = some r) : made (some r) = false := by
  unfold checkStateWrite at h
  split at h
  · cases h; rfl
  split at h
  · cases h; rfl
  split at h
  · cases h; rfl
  · cases h

attribute [local simp] perform

theorem perform_updateState (seen : Reply) (v : Verdict) (h : checkStateWrite s st = none) :
    perform seen .ok (updateState st v) s =
      ({ s with
        state := st
        claimMissingVerdict := if v ≠ .none ∧ s.state ≠ st then v else s.claimMissingVerdict },
        some (.updated s.state)) := by
  simp [updateState, exec, apply, updateStateScript, h]

theorem perform_updateState_refused {r : Reply} (seen : Reply) (v : Verdict) (h : checkStateWrite s st = some r) :
    perform seen .ok (updateState st v) s = (s, some r) := by
  simp [updateState, exec, apply, updateStateScript, h]

inductive Only (st : SessionState) : Call → Prop
  | ret : Only st .ret
  | get {k : Reply → Call} (h : ∀ r, Only st (k r)) : Only st (.op .get k)
  | write (v : Verdict) : Only st (updateState st v)

/-- Either nothing was written, or `st` was, over a record that allows it. -/
theorem Only.perform (h : Only st c) (seen : Reply) (f : Fault) (s : SessionSnapshot) :
    ((perform seen f c s).1 = s ∧ made (perform seen f c s).2 = false) ∨
    ((perform seen f c s).1.state = st ∧ checkStateWrite s st = none ∧
      ((perform seen f c s).2 = some (.updated s.state) ∨ made (perform seen f c s).2 = false)) := by
  induction h with
  | ret => exact .inl ⟨rfl, rfl⟩
  | get _ ih => exact ih seen
  | write v =>
    cases f with
    | refused => exact .inl ⟨rfl, rfl⟩
    | ok =>
      simp only [updateState, Bookings.perform, exec, apply, updateStateScript]
      cases hc : checkStateWrite s st with
      | none => exact .inr ⟨rfl, rfl, .inl rfl⟩
      | some refusal => exact .inl ⟨rfl, made_of_checkStateWrite hc⟩
    | lost =>
      simp only [updateState, Bookings.perform, exec, apply, updateStateScript]
      cases hc : checkStateWrite s st with
      | none => exact .inr ⟨rfl, rfl, .inr rfl⟩
      | some refusal => exact .inl ⟨rfl, rfl⟩

theorem only_onClaimTxError (v : Verdict) : Only .claimTxError (Session.onClaimTxError v) := by
  refine .get fun r => ?_
  split
  · split
    · exact .ret
    · split
      · exact .ret
      · exact .write _
  · exact .write _

theorem only_onClaimMissing : Only .claimMissing Session.onClaimMissing := by
  refine .get fun r => ?_
  split
  · split
    · exact .ret
    · split
      · exact .ret
      · exact .write _
  · exact .write _

theorem only_onProofTxError : Only .proofTxError Session.onProofTxError := by
  refine .get fun r => ?_
  split
  · split
    · exact .ret
    · exact .write _
  · exact .write _

theorem perform_save_state (seen : Reply) (f : Fault) (snap s : SessionSnapshot) :
    (perform seen f (save snap) s).1.state = s.state ∨ (perform seen f (save snap) s).1.state = snap.state := by
  have hset : ∀ b k, (perform seen f (.op (.hset b snap) k) s).1.state = s.state ∨
      (perform seen f (.op (.hset b snap) k) s).1.state = snap.state := by
    intro b k
    cases f with
    | refused => exact .inl rfl
    | ok | lost => exact .inr (saveScript_state b snap (some s))
  simp only [save, perform]
  split
  · exact hset _ _
  · exact hset _ _

theorem exec_reactivateClaimed_state (f : Fault) (root : Bytes) (txHash : String) (s : SessionSnapshot) :
    ((exec (some s) (.reactivateClaimed root txHash) f).1.getD s).state = s.state ∨
      canReactivateClaimed s.state = true := by
  cases hc : canReactivateClaimed s.state with
  | true => exact .inr rfl
  | false => cases f <;> simp [exec, apply, reactivateClaimedScript, hc]

theorem perform_onSessionClaimed_state (seen : Reply) (f : Fault) (root : Bytes) (txHash : String)
    (s : SessionSnapshot) :
    (perform seen f (Session.onSessionClaimed root txHash) s).1.state = s.state ∨
      canReactivateClaimed s.state = true := by
  simp only [Session.onSessionClaimed, perform]
  split
  · exact exec_reactivateClaimed_state f root txHash s
  · exact .inl rfl

theorem perform_onClaimObservedOnChain_state (seen : Reply) (f : Fault) (root : Bytes) (txHash : String)
    (wired : Bool) (s : SessionSnapshot) :
    (perform seen f (Session.onClaimObservedOnChain root txHash wired) s).1.state = s.state ∨
      canReactivateClaimed s.state = true := by
  unfold Session.onClaimObservedOnChain
  split
  · exact .inl rfl
  · exact exec_reactivateClaimed_state f root txHash s

theorem perform_onProofObservedOnChain_state (seen : Reply) (f : Fault) (txHash : String) (s : SessionSnapshot) :
    (perform seen f (onProofObservedOnChain txHash) s).1.state = s.state ∨
      (perform seen f (onProofObservedOnChain txHash) s).1.state = .proved := by
  cases hc : canReactivateProved s.state s.proofTxHash <;> cases f <;>
    simp [onProofObservedOnChain, exec, apply, reactivateProvedScript, hc]

/-! ## The places that make calls -/

inductive Plain where
  | claiming | claimed | claimDeferred | claimSkipped | proving | proofDeferred | proved

def Plain.callback : Plain → Callback
  | .claiming => .claiming
  | .claimed => .claimed
  | .claimDeferred => .onClaimDeferred
  | .claimSkipped => .onClaimSkipped
  | .proving => .proving
  | .proofDeferred => .onProofDeferred
  | .proved => .onSessionProved

inductive ClaimFailure where
  | attempt (entry : Bool)
  | forgone
  | ejectedUnrecoverable
  deriving DecidableEq

def ClaimFailure.verdict : ClaimFailure → Verdict
  | .attempt _ => .attempt
  | .forgone => .forgone
  | .ejectedUnrecoverable => .ejectedUnrecoverable

inductive Site where
  | plain (c : Plain)
  | track (snap : SessionSnapshot)
  | claimAccepted (root : Bytes) (txHash : String) (entry : Bool)
  | claimObserved (root : Bytes) (txHash : String)
  /-- `markAndCountClaimWindowClosed`, or the sweep's `executeTransition`, with the hash in its copy of the session. -/
  | claimWindowClosed (claimTxHash : String)
  | claimFailed (how : ClaimFailure)
  | claimHeld
  | claimMissing
  | notRequired
  /-- `settleNotRequiredBatch` for a session that was not named, or the attempts have run out. -/
  | proofFailed (resolvable : Bool)
  | proofHeld
  | rootUnavailable
  | proofWindowClosed (proofTxHash : String)
  | proofAccepted (txHash : String) (entry : Bool)
  /-- The reconciler has an outcome for the entry, and removes it or keeps it. -/
  | reconcileClaim (o : Outcome) (root : Bytes) (txHash : String) (clears : Bool)
  | reconcileProof (o : Outcome) (txHash : String) (clears : Bool)
  | entryRemoved (phase : Phase)

inductive Booking where
  | probabilisticProved | claimWindowClosed | claimTxError | proofTxError | proofWindowClosed
  | claimMissing | claimed | proofSubmitted | reconciled
  deriving DecidableEq

def Booking.ends : Booking → Bool
  | .probabilisticProved | .claimWindowClosed | .claimTxError | .proofTxError | .proofWindowClosed => true
  | .claimMissing | .claimed | .proofSubmitted | .reconciled => false

/-- One call of the ledger: which booking, what it adds, and whether the session's write beside it was made. -/
structure Record where
  booking : Booking
  money : List Money
  wrote : Bool

structure World where
  session : SessionSnapshot
  claimEntry : Option String := none
  proofEntry : Option String := none
  records : List Record := []

structure Step where
  site : Site
  seen : Reply := .failed
  fault : Fault := .ok

/-- What the site does to the session: a callback, or nothing where only an entry is kept or removed. -/
def Site.body (w : World) : Site → Call
  | .plain c => c.callback.body
  | .track snap => trackSession snap
  | .claimAccepted root txHash _ => Callback.body (.onSessionClaimed root txHash)
  | .claimObserved root txHash => Callback.body (.onClaimObservedOnChain root txHash)
  | .claimWindowClosed _ => Callback.body .onClaimWindowClosed
  | .claimFailed how => Callback.body (.onClaimTxError how.verdict)
  | .claimMissing => Callback.body .onClaimMissing
  | .notRequired => Callback.body .onProbabilisticProved
  | .proofFailed _ | .rootUnavailable => Callback.body .onProofTxError
  | .proofWindowClosed _ => Callback.body .onProofWindowClosed
  | .proofAccepted txHash _ => Callback.body (.onProofSubmitted txHash)
  | .reconcileClaim .found root txHash _ =>
    if w.claimEntry.isSome then Callback.body (.onClaimObservedOnChain root txHash) else .ret
  | .reconcileProof .found txHash _ => if w.proofEntry.isSome then onProofObservedOnChain txHash else .ret
  | .claimHeld | .proofHeld | .reconcileClaim _ _ _ _ | .reconcileProof _ _ _ | .entryRemoved _ => .ret

/-- What a claim seen on chain books, if the call moved the session. -/
def bookFlip (w : World) (seen : Reply) : Option Reply → List Record
  | some (.reactivation (some src)) =>
    [⟨.claimed, bookReactivation (readable seen) ⟨src, w.session.claimTxHash, w.session.claimMissingVerdict⟩, true⟩]
  | _ => []

def bookEntry (phase : Phase) (entry : Option String) (o : Outcome) : List Record :=
  match entry with
  | some origTxHash => [⟨.reconciled, settleLedgerOutcome phase origTxHash o, true⟩]
  | none => []

/-- What the site books, by what it read and what its write was answered. -/
def Site.records (w : World) (seen : Reply) (reply : Option Reply) : Site → List Record
  | .claimWindowClosed claimTxHash =>
    if made reply then [⟨.claimWindowClosed, recordClaimWindowClosed claimTxHash, true⟩] else []
  | .proofWindowClosed proofTxHash =>
    if made reply then [⟨.proofWindowClosed, recordProofWindowClosed proofTxHash, true⟩] else []
  -- The coordinator counts the call that moved the session, if it could weigh it.
  | .claimFailed how =>
    if made reply ∧ reply ≠ some (.updated .claimTxError) ∧ readable seen then
      [⟨.claimTxError, recordClaimTxErrorVerdict how.verdict, true⟩]
    else []
  | .claimMissing =>
    match seen with
    | .snapshot (some s) =>
      if made reply then [⟨.claimMissing, recordClaimMissing (claimMissingVerdictFor s.state), true⟩] else []
    | _ => []
  -- Counted before the coordinator is called.
  | .notRequired => [⟨.probabilisticProved, [.proved], made reply⟩]
  | .proofFailed resolvable => [⟨.proofTxError, recordProofTxError resolvable, made reply⟩]
  | .proofAccepted _ _ => [⟨.proofSubmitted, [.proved], reply = some .saved⟩]
  | .claimAccepted _ _ _ | .claimObserved _ _ => bookFlip w seen reply
  | .reconcileClaim .found _ _ _ => bookFlip w seen reply
  | .reconcileClaim o _ _ _ => bookEntry .claim w.claimEntry o
  -- Only the delivery whose flip moved the session settles.
  | .reconcileProof .found _ _ =>
    match reply with
    | some (.reactivation (some _)) => bookEntry .proof w.proofEntry .found
    | _ => []
  | .reconcileProof o _ _ => bookEntry .proof w.proofEntry o
  | .plain _ | .track _ | .claimHeld | .proofHeld | .rootUnavailable | .entryRemoved _ => []

/-- The claim's rebroadcast entry afterwards, by the hash it was first sent under. -/
def Site.claimEntry (w : World) : Site → Option String
  | .claimAccepted _ txHash entry => if entry ∧ txHash ≠ "" then some txHash else w.claimEntry
  | .claimFailed (.attempt true) | .claimHeld => some ""
  | .reconcileClaim _ _ _ true | .entryRemoved .claim => none
  | _ => w.claimEntry

def Site.proofEntry (w : World) : Site → Option String
  | .proofAccepted txHash entry => if entry ∧ txHash ≠ "" then some txHash else w.proofEntry
  | .proofFailed true | .proofHeld => some ""
  | .reconcileProof _ _ true | .entryRemoved .proof => none
  | _ => w.proofEntry

/-- A site is passed: the session, both entries and the ledger afterwards. -/
def step (w : World) (a : Step) : World :=
  let r := perform a.seen a.fault (a.site.body w) w.session
  { session := r.1
    claimEntry := a.site.claimEntry w
    proofEntry := a.site.proofEntry w
    records := w.records ++ a.site.records w a.seen r.2 }

/-! ## Each end is booked once -/

def World.ends (w : World) : List Record := w.records.filter (·.booking.ends)

/-- At most one end is booked, with its state written in the same call. -/
structure BookedOnce (w : World) : Prop where
  once : w.ends.length ≤ 1
  wrote : ∀ r ∈ w.ends, r.wrote = true

def Running (w : World) : Prop := w.session.state.isTerminal = false

instance (w : World) : Decidable (Running w) := by
  unfold Running
  infer_instance

/-- The session is never reactivated: no claim seen on chain finds it ended without one. -/
def NotReactivated (w : World) (a : Step) : Prop :=
  match a.site with
  | .claimAccepted _ _ _ | .claimObserved _ _ | .reconcileClaim .found _ _ _ =>
    Running w ∨ canReactivateClaimed w.session.state = false
  | _ => True

def unproved : Reply → Bool
  | .snapshot (some s) => s.state.isSuccess = false ∧ s.proofTxHash = ""
  | _ => true

def ended : Reply → Bool
  | .snapshot (some s) => s.state.isTerminal
  | _ => true

/-- No call that books an end, or writes the session as running, finds it ended; and where the count comes first,
the write is made. -/
def InTurn (w : World) (a : Step) : Prop :=
  match a.site with
  | .claimWindowClosed _ => Running w ∨ w.session.state.holdsClaimOnChain
  | .claimFailed _ => Running w ∨ w.session.state.holdsClaimOnChain ∨ w.session.state = .claimTxError
  | .proofWindowClosed _ => Running w
  | .plain .claiming | .plain .claimed | .plain .proving | .plain .proofDeferred => Running w
  | .track snap => Running w ∨ snap.state.isTerminal
  | .proofAccepted _ _ => Running w ∨ ended a.seen
  | .notRequired => Running w ∧ a.fault = .ok
  | .proofFailed _ => Running w ∧ a.fault = .ok ∧ unproved a.seen
  | _ => True

instance (w : World) (a : Step) : Decidable (NotReactivated w a) := by
  unfold NotReactivated
  split <;> infer_instance

instance (w : World) (a : Step) : Decidable (InTurn w a) := by
  unfold InTurn
  split <;> infer_instance

structure Inv (w : World) : Prop where
  running : Running w → w.ends = []
  booked : BookedOnce w

section

variable {w w' : World}

/-- A call that books no end and does not run an ended session again. -/
theorem Inv.quiet (hi : Inv w) (he : w'.ends = w.ends) (hr : Running w' → Running w) : Inv w' where
  running h := he.trans (hi.running (hr h))
  booked := ⟨he ▸ hi.booked.once, he ▸ hi.booked.wrote⟩

/-- A call that ends a running session and books it, with its write made. -/
theorem Inv.ending (hi : Inv w) (hr : Running w) {r : Record} (he : w'.ends = w.ends ++ [r]) (hw : r.wrote = true)
    (ht : ¬ Running w') : Inv w' := by
  rw [hi.running hr, List.nil_append] at he
  refine ⟨fun h => absurd h ht, ⟨?_, ?_⟩⟩
  · simp [he]
  intro r' hr'
  rw [he, List.mem_singleton] at hr'
  exact hr' ▸ hw

end

section

/-- The place books no end, whatever its call is answered. -/
def BooksNone (w : World) (seen : Reply) (site : Site) : Prop :=
  ∀ reply, (site.records w seen reply).filter (·.booking.ends) = []

/-- A call in its turn keeps the session's ends in order. -/
def Keeps (w : World) (seen : Reply) (f : Fault) (site : Site) : Prop :=
  InTurn w ⟨site, seen, f⟩ → Inv (step w ⟨site, seen, f⟩)

variable {w : World} {site : Site} {seen : Reply} {f : Fault}

theorem ends_step (w : World) (site : Site) (seen : Reply) (f : Fault) :
    (step w ⟨site, seen, f⟩).ends =
      w.ends ++ (site.records w seen (perform seen f (site.body w) w.session).2).filter (·.booking.ends) :=
  List.filter_append _ _

theorem ends_step_of_nil (h : (site.records w seen (perform seen f (site.body w) w.session).2).filter
    (·.booking.ends) = []) : (step w ⟨site, seen, f⟩).ends = w.ends := by
  rw [ends_step, h, List.append_nil]

variable (hi : Inv w)
include hi

/-- A place that books an end once its write of `st` has been answered. -/
theorem inv_written {st : SessionState} (hst : st.isTerminal = true) (hc : Only st (site.body w)) (r : Record)
    (hw : r.wrote = true)
    (hrec : ∀ reply, (site.records w seen reply).filter (·.booking.ends) = [] ∨
      (made reply = true ∧ (site.records w seen reply).filter (·.booking.ends) = [r] ∧
        (checkStateWrite w.session st = none → reply = some (.updated w.session.state) → Running w))) :
    Inv (step w ⟨site, seen, f⟩) := by
  rcases hc.perform seen f w.session with ⟨hs, hm⟩ | ⟨hs, hg, hm⟩
  · -- Nothing was written, so nothing is counted.
    rcases hrec (perform seen f (site.body w) w.session).2 with hn | ⟨hmade, -, -⟩
    · exact hi.quiet (ends_step_of_nil hn) fun h => by rwa [Running, step, hs] at h
    · rw [hm] at hmade
      cases hmade
  have ht : ¬ Running (step w ⟨site, seen, f⟩) := by
    simp only [Running, step, hs, hst, Bool.true_eq_false, not_false_eq_true]
  rcases hrec (perform seen f (site.body w) w.session).2 with hn | ⟨hmade, hone, hr⟩
  · exact hi.quiet (ends_step_of_nil hn) fun h => absurd h ht
  rcases hm with hm | hm
  · exact hi.ending (hr hg hm) (by rw [ends_step, hone]) hw ht
  · rw [hm] at hmade
    cases hmade

/-- A place that books no end and writes only ends. -/
theorem inv_unbooked {st : SessionState} (hst : st.isTerminal = true) (hc : Only st (site.body w))
    (hrec : BooksNone w seen site) : Inv (step w ⟨site, seen, f⟩) := by
  refine hi.quiet (ends_step_of_nil (hrec _)) fun h => ?_
  rcases hc.perform seen f w.session with ⟨hs, -⟩ | ⟨hs, -, -⟩
  · rwa [Running, step, hs] at h
  · rw [Running, step, hs, hst] at h
    cases h

theorem inv_idle (hc : site.body w = .ret) (hrec : BooksNone w seen site) : Inv (step w ⟨site, seen, f⟩) :=
  hi.quiet (ends_step_of_nil (hrec _)) fun h => by rwa [Running, step, hc] at h

attribute [local simp] checkStateWrite SessionState.isTerminal

/-- A claim seen on chain, of a session that is not reactivated. -/
theorem inv_observed (hr : Running w ∨ canReactivateClaimed w.session.state = false)
    (hs : (step w ⟨site, seen, f⟩).session.state = w.session.state ∨ canReactivateClaimed w.session.state = true)
    (hrec : BooksNone w seen site) :
    Inv (step w ⟨site, seen, f⟩) := by
  refine hi.quiet (ends_step_of_nil (hrec _)) fun h => ?_
  rcases hr with hr | hr
  · exact hr
  rcases hs with hs | hs
  · rwa [Running, hs] at h
  · rw [hr] at hs
    cases hs

theorem inv_rerun (hr : Running w) (hrec : BooksNone w seen site) : Inv (step w ⟨site, seen, f⟩) :=
  hi.quiet (ends_step_of_nil (hrec _)) fun _ => hr

/-! ## One lemma per place -/

theorem inv_plain (c : Plain) : Keeps w seen f (.plain c) := by
  intro h
  have hrec : BooksNone w seen (.plain c) := fun _ => rfl
  cases c with
  | claiming | claimed | proving | proofDeferred => exact inv_rerun hi h hrec
  | claimSkipped | proved => exact inv_unbooked hi rfl (.write .none) hrec
  | claimDeferred =>
    refine hi.quiet (ends_step_of_nil (hrec _)) fun h => ?_
    rcases (Only.write .none : Only .active _).perform seen f w.session with ⟨hs, -⟩ | ⟨-, hg, -⟩
    · have hs' : (step w ⟨.plain .claimDeferred, seen, f⟩).session = w.session := hs
      rwa [Running, hs'] at h
    -- The script writes active over claiming only.
    by_cases hc : w.session.state = .claiming
    · simp [Running, hc]
    · simp [hc] at hg

theorem inv_track (snap : SessionSnapshot) : Keeps w seen f (.track snap) := by
  intro h
  refine hi.quiet (ends_step_of_nil rfl) fun hr => ?_
  rcases h with h | h
  · exact h
  have hs : (step w ⟨.track snap, seen, f⟩).session.state = w.session.state ∨
      (step w ⟨.track snap, seen, f⟩).session.state = snap.state := perform_save_state seen f snap w.session
  rcases hs with hs | hs
  · rwa [Running, hs] at hr
  · rw [Running, hs, h] at hr
    cases hr

variable (txHash : String)

theorem inv_proofAccepted (entry : Bool) : Keeps w seen f (.proofAccepted txHash entry) := by
  intro h
  refine hi.quiet (ends_step_of_nil rfl) fun hr => ?_
  rcases h with h | h
  · exact h
  simp only [Running, step, Site.body, Callback.body, Session.onProofSubmitted, perform] at hr
  split at hr
  next s =>
    rcases perform_save_state (.snapshot (some s)) f { s with proofTxHash := txHash } w.session with hs | hs
    · rwa [hs] at hr
    · rw [hs] at hr
      simp only [ended, hr, Bool.false_eq_true] at h
  · exact hr

theorem inv_claimWindowClosed : Keeps w seen f (.claimWindowClosed txHash) := by
  intro h
  refine inv_written hi rfl (.write .none)
    ⟨.claimWindowClosed, recordClaimWindowClosed txHash, true⟩ rfl fun reply => ?_
  simp only [Site.records]
  by_cases hm : made reply = true
  · refine .inr ⟨hm, by simp [hm, Booking.ends], fun hg _ => h.resolve_right fun hh => ?_⟩
    simp [hh] at hg
  · exact .inl (by simp [hm])

theorem inv_proofWindowClosed : Keeps w seen f (.proofWindowClosed txHash) := by
  intro h
  refine inv_written hi rfl (.write .none)
    ⟨.proofWindowClosed, recordProofWindowClosed txHash, true⟩ rfl fun reply => ?_
  simp only [Site.records]
  by_cases hm : made reply = true
  · exact .inr ⟨hm, by simp [hm, Booking.ends], fun _ _ => h⟩
  · exact .inl (by simp [hm])

theorem inv_claimFailed (how : ClaimFailure) : Keeps w seen f (.claimFailed how) := by
  intro h
  refine inv_written hi rfl (only_onClaimTxError how.verdict)
    ⟨.claimTxError, recordClaimTxErrorVerdict how.verdict, true⟩ rfl fun reply => ?_
  simp only [Site.records]
  by_cases hm : made reply = true ∧ reply ≠ some (.updated .claimTxError) ∧ readable seen = true
  · refine .inr ⟨hm.1, by simp [hm, Booking.ends], fun hg hu => ?_⟩
    rcases h with h | h | h
    · exact h
    · simp [h] at hg
    · exact absurd (h ▸ hu) hm.2.1
  · exact .inl (by rw [if_neg hm]; rfl)

theorem inv_notRequired : Keeps w seen f .notRequired := by
  rintro ⟨hr, rfl⟩
  have hg : checkStateWrite w.session .probabilisticProved = none := by simp
  have hp : perform seen .ok (Site.notRequired.body w) w.session =
      ({ w.session with state := .probabilisticProved }, some (.updated w.session.state)) :=
    perform_updateState seen .none hg
  refine hi.ending hr (r := ⟨.probabilisticProved, [.proved], true⟩) ?_ rfl ?_
  · rw [ends_step, hp]; rfl
  · simp [Running, step, hp]

theorem inv_proofFailed (resolvable : Bool) : Keeps w seen f (.proofFailed resolvable) := by
  rintro ⟨hr, rfl, hu⟩
  have hg : checkStateWrite w.session .proofTxError = none := by simp
  have hp : perform seen .ok ((Site.proofFailed resolvable).body w) w.session =
      ({ w.session with state := .proofTxError }, some (.updated w.session.state)) := by
    have hw : perform seen .ok (updateState .proofTxError .none) w.session =
        ({ w.session with state := .proofTxError }, some (.updated w.session.state)) :=
      perform_updateState seen .none hg
    simp only [Site.body, Callback.body, onProofTxError, perform]
    split
    · rw [if_neg, hw]
      simp only [unproved, decide_eq_true_eq] at hu
      rintro (hs | hs | hs)
      · simp [hs, SessionState.isSuccess] at hu
      · simp [hs, SessionState.isSuccess] at hu
      · exact hs hu.2
    · exact hw
  refine hi.ending hr (r := ⟨.proofTxError, recordProofTxError resolvable, true⟩) ?_ rfl ?_
  · rw [ends_step, hp]; rfl
  · simp [Running, step, hp]

omit hi in
theorem filter_ends_bookFlip (w : World) (seen : Reply) (reply : Option Reply) :
    (bookFlip w seen reply).filter (·.booking.ends) = [] := by
  unfold bookFlip
  split <;> rfl

omit hi in
theorem filter_ends_bookEntry (phase : Phase) (entry : Option String) (o : Outcome) :
    (bookEntry phase entry o).filter (·.booking.ends) = [] := by
  cases entry <;> rfl

theorem inv_reconcileClaim (o : Outcome) (root : Bytes) (txHash : String) (clears : Bool)
    (h : NotReactivated w ⟨.reconcileClaim o root txHash clears, seen, f⟩) :
    Inv (step w ⟨.reconcileClaim o root txHash clears, seen, f⟩) := by
  cases o with
  | found =>
    refine inv_observed hi h ?_ fun reply => filter_ends_bookFlip w seen reply
    simp only [step, Site.body]
    split
    · exact perform_onClaimObservedOnChain_state ..
    · exact .inl rfl
  | _ => exact inv_idle hi rfl fun _ => filter_ends_bookEntry ..

theorem inv_reconcileProof (o : Outcome) (txHash : String) (clears : Bool) :
    Inv (step w ⟨.reconcileProof o txHash clears, seen, f⟩) := by
  cases o with
  | found =>
    refine hi.quiet (ends_step_of_nil ?_) fun h => ?_
    · simp only [Site.records]
      split
      · exact filter_ends_bookEntry ..
      · rfl
    simp only [Running, step, Site.body] at h
    split at h
    · rcases perform_onProofObservedOnChain_state seen f txHash w.session with hs | hs
      · rwa [hs] at h
      · rw [hs] at h
        cases h
    · exact h
  | _ => exact inv_idle hi rfl fun _ => filter_ends_bookEntry ..

theorem inv_claimMissing : Inv (step w ⟨.claimMissing, seen, f⟩) := by
  refine inv_unbooked hi rfl only_onClaimMissing fun reply => ?_
  simp only [Site.records]
  split
  · split <;> rfl
  · rfl

end

theorem inv_step (w : World) (a : Step) (hi : Inv w) (h : NotReactivated w a ∧ InTurn w a) : Inv (step w a) := by
  obtain ⟨site, seen, f⟩ := a
  obtain ⟨hn, ht⟩ := h
  cases site with
  | plain c => exact inv_plain hi c ht
  | track snap => exact inv_track hi snap ht
  | claimAccepted root txHash entry =>
    exact inv_observed hi hn (perform_onSessionClaimed_state ..) fun reply => filter_ends_bookFlip w seen reply
  | claimObserved root txHash =>
    exact inv_observed hi hn (perform_onClaimObservedOnChain_state ..) fun reply => filter_ends_bookFlip w seen reply
  | claimWindowClosed txHash => exact inv_claimWindowClosed hi txHash ht
  | claimFailed how => exact inv_claimFailed hi how ht
  | claimHeld | proofHeld | entryRemoved => exact inv_idle hi rfl fun _ => rfl
  | claimMissing => exact inv_claimMissing hi
  | notRequired => exact inv_notRequired hi ht
  | proofFailed resolvable => exact inv_proofFailed hi resolvable ht
  | rootUnavailable => exact inv_unbooked hi rfl only_onProofTxError fun _ => rfl
  | proofWindowClosed txHash => exact inv_proofWindowClosed hi txHash ht
  | proofAccepted txHash entry => exact inv_proofAccepted hi txHash entry ht
  | reconcileClaim o root txHash clears => exact inv_reconcileClaim hi o root txHash clears hn
  | reconcileProof o txHash clears => exact inv_reconcileProof hi o txHash clears

/-- Of a session that is not reactivated one end is booked, if any, with its state written, as long as no call that
ends or runs it comes after its end and the writes counted ahead of are made. -/
theorem end_booked_once {s : SessionSnapshot} {as : List Step}
    (hm : Meets step (fun w a => NotReactivated w a ∧ InTurn w a) { session := s } as) :
    BookedOnce (run step { session := s } as) := by
  have h0 : Inv { session := s } := by
    refine ⟨fun _ => rfl, ⟨by simp [World.ends], ?_⟩⟩
    intro r hr
    cases hr
  exact (inv_of_meets Inv inv_step h0 hm).booked

/-- The sweep closes a claim window: its count follows its write, over the session it may close. -/
theorem claim_window_closed_after_retry :
    BookedOnce (run step { session := { state := .active } }
      [{ site := .plain .claiming }, { site := .claimWindowClosed "", fault := .refused },
        { site := .claimWindowClosed "" }]) :=
  end_booked_once (by decide)

def windows : Windows := .short

/-- A claimed session needs no proof and is counted as probabilistically proved. The write of it fails, so the session
stays proving: the sweep finds its proof window closed, and counts it again. -/
theorem proved_then_window_closed :
    let claimed : List Step := [{ site := .plain .claiming },
      { site := .claimAccepted (List.replicate smstRootLen 0) "claim" false, seen := .snapshot (some { state := .claiming }) },
      { site := .plain .proving }]
    let notRequired : List Step := claimed ++ [{ site := .notRequired, fault := .refused }]
    let closed : List Step := notRequired ++ [{ site := .proofWindowClosed "" }]
    let start : World := { session := { state := .active } }
    Meets step NotReactivated start closed ∧
      determineTransition (run step start notRequired).session 20 (some windows) =
        some (.proofWindowClosed, "proof_timeout") ∧
      (run step start notRequired).ends.map (·.wrote) = [false] ∧
      (run step start closed).ends.map (·.booking) = [.probabilisticProved, .proofWindowClosed] ∧
      ¬ BookedOnce (run step start closed) := by
  refine ⟨by decide, by decide, by decide, by decide, fun h => ?_⟩
  exact absurd h.once (by decide)

end RelayMiner.Lifecycle.Bookings
