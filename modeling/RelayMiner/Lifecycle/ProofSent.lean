import RelayMiner.Lifecycle.Transitions
import RelayMiner.Lifecycle.Writes
import RelayMiner.Session.ClaimHeld
/-!
# A proof that was sent

What the lifecycle makes of one session around the close of its proof window:
passes at any heights, each with the proof cycle or the terminal write that
follows from its read, the load of a restart, the claim-phase callbacks and the
reconciler's observation of a proof. Each is a call that makes one store
operation at a time, and any number of them run side by side.

The hash of a proof is written by one call and the move to proving by another.
`determineTransition` looks at the hash of a session in proving and not at that
of one in claimed, and `persistProving` lets a cycle go on although Redis, out of
memory, refused the move.
-/
open RelayMiner.Lib RelayMiner.Session

namespace RelayMiner.Lifecycle.ProofSent

inductive SweepOp where
  | store (o : Op)
  | read (height : Nat) (params : Option Windows)

abbrev SweepCall := Prog SweepOp Reply

def execSweep (key : Option SessionSnapshot) : SweepOp → Fault → Option SessionSnapshot × Reply
  | .store o, f => exec key o f
  | .read _ _, f => exec key .get f

def onStore (p : Session.Call) : SweepCall := p.mapOp .store

inductive CycleEnd where
  | untouched
  | deferred
  | claimMissing
  | notRequired
  | txError
  | windowClosed
  | validated
  | accepted (txHash : String)
  deriving DecidableEq

def settleProof : Session.Call := (updateState .proved .none).andThen onSessionProved

def CycleEnd.writes : CycleEnd → Session.Call
  | .untouched => .ret
  | .deferred => onProofDeferred
  | .claimMissing => onClaimMissing
  | .notRequired => onProbabilisticProved
  | .txError => onProofTxError
  | .windowClosed => onProofWindowClosed
  | .validated => settleProof
  | .accepted txHash => (onProofSubmitted txHash).andThen settleProof

def proofCycle (s : SessionSnapshot) (e : CycleEnd) : Session.Call :=
  if s.proofTxHash ≠ "" ∧ e ≠ .deferred then .ret else e.writes

def prove (s : SessionSnapshot) (oom : Bool) (e : CycleEnd) : SweepCall :=
  .op (.store (.updateState .proving .none)) fun
    | .updated _ => onStore (proofCycle s e)
    | .failed => if oom then onStore (proofCycle s e) else .ret
    | _ => .ret

def executeTransition (newState : SessionState) : SweepCall :=
  .op (.store (.updateState newState .none)) fun
    | .updated _ => if newState = .proved then onStore onSessionProved else .ret
    | _ => .ret

def checkSession (height : Nat) (params : Option Windows) (oom : Bool) (e : CycleEnd) : SweepCall :=
  .op (.read height params) fun
    | .snapshot (some s) =>
      if s.state.isTerminal then .ret
      else
        match determineTransition s height params with
        | none => .ret
        | some (.claiming, _) => onStore (updateState .claiming .none)
        | some (.proving, _) => prove s oom e
        | some (newState, _) => executeTransition newState
    | _ => .ret

def resume : Session.Call :=
  .op .get fun
    | .snapshot (some s) =>
      if s.state.isTerminal then .ret
      else
        match resumeTo s with
        | some state => updateState state .none
        | none => .ret
    | _ => .ret

inductive LifecycleCall where
  | checkSession (height : Nat) (params : Option Windows) (oom : Bool) (e : CycleEnd)
  | resume
  | claim (c : ClaimCall)
  | onProofObservedOnChain (proofTxHash : String)

def LifecycleCall.body : LifecycleCall → SweepCall
  | .checkSession height params oom e => ProofSent.checkSession height params oom e
  | .resume => onStore ProofSent.resume
  | .claim c => onStore c.body
  | .onProofObservedOnChain tx => onStore (Session.onProofObservedOnChain tx)

abbrev Sweeps := Conf (Option SessionSnapshot) SweepOp Reply

abbrev SweepMove := Move LifecycleCall Fault Unit

def step : Sweeps → SweepMove → Sweeps := stepCalls LifecycleCall.body execSweep expire

def idle (key : Option SessionSnapshot) : Sweeps := ⟨key, fun _ => .ret⟩

/-! ## What keeps the record of a sent proof -/

/-- The stored record carries the hash of a proof, and is not closed as if none had gone out. -/
def sent (key : Option SessionSnapshot) : Bool :=
  key.any fun s => s.proofTxHash ≠ "" && s.state ≠ .proofWindowClosed

def timedOut (key : Option SessionSnapshot) : Bool :=
  key.any fun s => s.proofTxHash ≠ "" && s.state = .proofWindowClosed

def keepsSent : Op → Bool
  | .get | .reactivateClaimed _ _ | .reactivateProved _ => true
  | .hset existing snap => (!existing || snap.proofTxHash ≠ "") && snap.state ≠ .proofWindowClosed
  | .updateState newState _ => newState ≠ .proofWindowClosed

variable {key : Option SessionSnapshot} {s : SessionSnapshot} {newState : SessionState}

theorem exists_of_sent (h : sent key = true) :
    ∃ s, key = some s ∧ s.proofTxHash ≠ "" ∧ s.state ≠ .proofWindowClosed := by
  cases key with
  | none => cases h
  | some s => exact ⟨s, rfl, by simpa [sent] using h⟩

attribute [local simp] keepsSent updateStateScript

theorem sent_apply (hhash : s.proofTxHash ≠ "") (hstate : s.state ≠ .proofWindowClosed) {o : Op}
    (ho : keepsSent o = true) : sent (apply (some s) o).1 = true := by
  cases o with
  | get => simp [apply, sent, hhash, hstate]
  | hset existing snap =>
    cases existing with
    | true =>
      obtain ⟨hsnap, hclosed⟩ : snap.proofTxHash ≠ "" ∧ snap.state ≠ .proofWindowClosed := by
        simpa using ho
      simp [apply, saveScript, sent, hsnap, hclosed]
    | false =>
      have hclosed : snap.state ≠ .proofWindowClosed := by simpa using ho
      by_cases hsnap : snap.proofTxHash = ""
      · simp [apply, saveScript, sent, hsnap, hclosed, hhash]
      · simp [apply, saveScript, sent, hsnap, hclosed]
  | updateState newState v =>
    have hclosed : newState ≠ .proofWindowClosed := by simpa using ho
    cases hc : checkStateWrite s newState with
    | none => simp [apply, hc, sent, hhash, hclosed]
    | some r => simp [apply, hc, sent, hhash, hstate]
  | reactivateClaimed root tx =>
    cases hc : canReactivateClaimed s.state with
    | false => simp [apply, reactivateClaimedScript, hc, sent, hhash, hstate]
    | true => simp [apply, reactivateClaimedScript, hc, sent, hhash]
  | reactivateProved tx =>
    cases hc : canReactivateProved s.state s.proofTxHash with
    | false => simp [apply, reactivateProvedScript, hc, sent, hhash, hstate]
    | true => simp [apply, reactivateProvedScript, hc, sent, hhash]

theorem sent_exec (hk : sent key = true) {o : Op} (ho : keepsSent o = true) (f : Fault) :
    sent (exec key o f).1 = true := by
  obtain ⟨s, rfl, hhash, hstate⟩ := exists_of_sent hk
  rcases exec_fst (some s) o f with he | he <;> rw [he]
  · simp [sent, hhash, hstate]
  · exact sent_apply hhash hstate ho

def Answers : SweepOp → Reply → Prop
  | .store .get, r => r = .failed ∨ ∃ s : SessionSnapshot, r = .snapshot (some s) ∧ s.proofTxHash ≠ "" ∧
    s.state ≠ .proofWindowClosed
  | .read height params, r => r = .failed ∨ ∃ s : SessionSnapshot, r = .snapshot (some s) ∧ s.proofTxHash ≠ "" ∧
    s.state ≠ .proofWindowClosed ∧ ∀ w ∈ params, w.proofClose ≤ height → s.state ≠ .claimed
  | _, _ => True

def KeepsSent : SweepCall → Prop
  | .ret => True
  | .op (.store o) k => keepsSent o = true ∧ ∀ r, Answers (.store o) r → KeepsSent (k r)
  | .op (.read height params) k => ∀ r, Answers (.read height params) r → KeepsSent (k r)

theorem keepsSent_updateState (h : newState ≠ .proofWindowClosed) (v : Verdict) :
    KeepsSent (onStore (updateState newState v)) :=
  ⟨by simpa using h, fun _ _ => trivial⟩

theorem keepsSent_reading {p : SessionSnapshot → Session.Call} {q : Session.Call}
    (hp : ∀ s : SessionSnapshot, s.proofTxHash ≠ "" → s.state ≠ .proofWindowClosed → KeepsSent (onStore (p s)))
    (hq : KeepsSent (onStore q)) :
    KeepsSent (onStore (.op .get fun r => match r with
      | .snapshot (some s) => p s
      | _ => q)) := by
  refine ⟨rfl, ?_⟩
  rintro r (rfl | ⟨s, rfl, hhash, hstate⟩)
  · exact hq
  · exact hp s hhash hstate

theorem keepsSent_save {snap : SessionSnapshot} (hhash : snap.proofTxHash ≠ "") (hstate : snap.state ≠ .proofWindowClosed) :
    KeepsSent (onStore (save snap)) := by
  refine keepsSent_reading (fun _ _ _ => ⟨?_, fun _ _ => trivial⟩) ⟨?_, fun _ _ => trivial⟩
  · simpa using ⟨hhash, hstate⟩
  · simpa using hstate

theorem keepsSent_onProofDeferred : KeepsSent (onStore onProofDeferred) := by
  refine keepsSent_reading (fun s hhash _ => ?_) trivial
  rw [if_pos (.inr hhash)]
  trivial

theorem keepsSent_claim (c : ClaimCall) : KeepsSent (onStore c.body) := by
  cases c with
  | onSessionClaimed root tx => exact keepsSent_reading (fun _ _ _ => ⟨rfl, fun _ _ => trivial⟩) trivial
  | onClaimObservedOnChain root tx wired =>
    simp only [ClaimCall.body, onClaimObservedOnChain]
    split
    · trivial
    refine ⟨rfl, fun _ _ => ⟨rfl, fun r _ => ?_⟩⟩
    cases r with
    | reactivation src =>
      cases src with
      | none => trivial
      | some src =>
        split
        · exact keepsSent_reading (fun s hhash hstate => keepsSent_save hhash hstate) trivial
        · trivial
    | _ => trivial
  | onClaimDeferred | onClaimWindowClosed | onClaimSkipped => exact keepsSent_updateState (by decide) _
  | onClaimTxError | onClaimMissing =>
    refine keepsSent_reading (fun s _ _ => ?_) (keepsSent_updateState (by decide) _)
    split_ifs
    · trivial
    · trivial
    · exact keepsSent_updateState (by decide) _
  | reactivateClaimed | reactivateProved => exact ⟨rfl, fun _ _ => trivial⟩

theorem keepsSent_prove (hhash : s.proofTxHash ≠ "") (oom : Bool) (e : CycleEnd) : KeepsSent (prove s oom e) := by
  have hcycle : KeepsSent (onStore (proofCycle s e)) := by
    unfold proofCycle
    split
    · trivial
    next h =>
      obtain rfl : e = .deferred := by simpa [hhash] using h
      exact keepsSent_onProofDeferred
  refine ⟨rfl, fun r _ => ?_⟩
  cases r with
  | updated old => exact hcycle
  | failed =>
    cases oom with
    | false => trivial
    | true => exact hcycle
  | _ => trivial

theorem keepsSent_executeTransition (h : newState ≠ .proofWindowClosed) :
    KeepsSent (executeTransition newState) := by
  refine ⟨by simpa using h, fun r _ => ?_⟩
  cases r with
  | updated old =>
    split
    · exact keepsSent_updateState (by decide) _
    · trivial
  | _ => trivial

/-- With the hash stored, a verdict is proof_window_closed only for a session in claimed at the close. -/
theorem verdict_of_sent (hhash : s.proofTxHash ≠ "") {height : Nat} {params : Option Windows}
    (hclaimed : ∀ w ∈ params, w.proofClose ≤ height → s.state ≠ .claimed) {why : String}
    (h : determineTransition s height params = some (newState, why)) : newState ≠ .proofWindowClosed := by
  rintro rfl
  cases params with
  | none => cases h
  | some w =>
    have hne := hclaimed w rfl
    cases hs : s.state <;> simp only [determineTransition, hs] at h hne <;> grind

theorem keepsSent_checkSession (height : Nat) (params : Option Windows) (oom : Bool) (e : CycleEnd) :
    KeepsSent (checkSession height params oom e) := by
  rintro r (rfl | ⟨s, rfl, hhash, -, hclaimed⟩)
  · trivial
  dsimp only
  split
  · trivial
  split
  · trivial
  · exact keepsSent_updateState (by decide) _
  · exact keepsSent_prove hhash oom e
  next h => exact keepsSent_executeTransition (verdict_of_sent hhash hclaimed h)

theorem keepsSent_body (c : LifecycleCall) : KeepsSent c.body := by
  cases c with
  | checkSession height params oom e => exact keepsSent_checkSession height params oom e
  | resume =>
    refine keepsSent_reading (fun s hhash _ => ?_) trivial
    split
    · trivial
    split
    next state h =>
      refine keepsSent_updateState ?_ _
      rintro rfl
      unfold resumeTo at h
      split_ifs at h <;> cases h
    · trivial
  | claim c => exact keepsSent_claim c
  | onProofObservedOnChain tx => exact ⟨rfl, fun _ _ => trivial⟩

/-! ## Runs -/

def carries (key : Option SessionSnapshot) : Bool := key.any fun s => s.proofTxHash ≠ ""

theorem carries_of_sent (h : sent key = true) : carries key = true := by
  obtain ⟨s, rfl, hhash, -⟩ := exists_of_sent h
  simpa [carries] using hhash

theorem sent_or_timedOut (h : carries key = true) : sent key = true ∨ timedOut key = true := by
  cases key with
  | none => cases h
  | some s =>
    have hhash : s.proofTxHash ≠ "" := by simpa [carries] using h
    by_cases hs : s.state = .proofWindowClosed
    · exact .inr (by simp [timedOut, hhash, hs])
    · exact .inl (by simp [sent, hhash, hs])

theorem timedOut_of_sent (h : sent key = true) : timedOut key = false := by
  obtain ⟨s, rfl, -, hstate⟩ := exists_of_sent h
  simp [timedOut, hstate]

theorem timedOut_of_not_carries (h : carries key = false) : timedOut key = false := by
  cases key with
  | none => rfl
  | some s =>
    have hhash : s.proofTxHash = "" := by simpa [carries] using h
    simp [timedOut, hhash]

/-- A pass at or past the close of the proof window does not find the session in claimed with a proof's hash. When a
hash comes to be stored the session is not closed, and no call in flight has still to close it or to save a snapshot
without the hash. -/
def Undisturbed (c : Sweeps) : SweepMove → Prop
  | .next i f =>
    match c.calls i with
    | .ret => True
    | .op (.read height params) _ =>
      f = .ok → ∀ s ∈ c.store, s.proofTxHash ≠ "" → ∀ w ∈ params, w.proofClose ≤ height → s.state ≠ .claimed
    | .op (.store o) k =>
      carries c.store = false → carries (exec c.store o f).1 = true →
        timedOut (exec c.store o f).1 = false ∧ (∀ r, KeepsSent (k r)) ∧ ∀ j, j ≠ i → KeepsSent (c.calls j)
  | _ => True

structure Inv (c : Sweeps) : Prop where
  open_ : timedOut c.store = false
  calls : sent c.store = true → ∀ i, KeepsSent (c.calls i)

theorem answers_exec (hk : sent key = true) (o : SweepOp) (f : Fault)
    (hread : ∀ height params, o = .read height params → f = .ok → ∀ s ∈ key, ∀ w ∈ params, w.proofClose ≤ height →
      s.state ≠ .claimed) : Answers o (execSweep key o f).2 := by
  obtain ⟨s, rfl, hhash, hstate⟩ := exists_of_sent hk
  cases o with
  | store o =>
    cases o with
    | get =>
      cases f with
      | ok => exact .inr ⟨decodeSnapshot s, rfl, by simpa using hhash, by simpa using hstate⟩
      | refused | lost => exact .inl rfl
    | _ => trivial
  | read height params =>
    cases f with
    | ok =>
      refine .inr ⟨decodeSnapshot s, rfl, by simpa using hhash, by simpa using hstate, fun w hw hclose => ?_⟩
      simpa using hread height params rfl rfl s rfl w hw hclose
    | refused | lost => exact .inl rfl

theorem read_fst (key : Option SessionSnapshot) (f : Fault) : (exec key .get f).1 = key := by
  cases f <;> rfl

/-- A call makes its next operation on a record with the hash. -/
theorem sent_next (hk : sent key = true) {o : SweepOp} {k : Reply → SweepCall} (hkeeps : KeepsSent (.op o k))
    (f : Fault)
    (hread : ∀ height params, o = .read height params → f = .ok → ∀ s ∈ key, ∀ w ∈ params, w.proofClose ≤ height →
      s.state ≠ .claimed) : sent (execSweep key o f).1 = true ∧ KeepsSent (k (execSweep key o f).2) := by
  have hans := answers_exec hk o f hread
  cases o with
  | store o => exact ⟨sent_exec hk hkeeps.1 f, hkeeps.2 _ hans⟩
  | read height params =>
    refine ⟨?_, hkeeps _ hans⟩
    show sent (exec key .get f).1 = true
    rw [read_fst]
    exact hk

theorem inv_step (c : Sweeps) (m : SweepMove) (h : Inv c) (hu : Undisturbed c m) :
    Inv (step c m) ∧ (sent c.store = true → (∀ e, m ≠ .env e) → sent (step c m).store = true) := by
  unfold step
  rcases stepCalls_cases LifecycleCall.body execSweep expire c m with
    he | ⟨i, call, rfl, hfree, he⟩ | ⟨i, f, o, k, rfl, hc, he⟩ | ⟨i, rfl, he⟩ | ⟨e, rfl, he⟩ <;> rw [he]
  · exact ⟨h, fun hs _ => hs⟩
  · exact ⟨⟨h.open_, fun hs => forall_update i (h.calls hs) (keepsSent_body call)⟩, fun hs _ => hs⟩
  · by_cases hs : sent c.store = true
    · have hkeeps : KeepsSent (.op o k) := hc ▸ h.calls hs i
      obtain ⟨hs', hk'⟩ := sent_next hs hkeeps f (by
        rintro height params rfl hf s hsome w hw hclose
        obtain ⟨s', hs', hhash, -⟩ := exists_of_sent hs
        obtain rfl : s' = s := Option.some.inj (hs'.symm.trans hsome)
        simp only [Undisturbed, hc] at hu
        exact hu hf s' hsome hhash w hw hclose)
      exact ⟨⟨timedOut_of_sent hs', fun _ => forall_update i (h.calls hs) hk'⟩, fun _ _ => hs'⟩
    -- No hash is stored before the operation: the condition speaks about one that is stored by it.
    have hcarries : carries c.store = false := by
      by_contra hne
      rcases sent_or_timedOut (by simpa using hne) with hs' | ht
      · exact hs hs'
      · rw [h.open_] at ht
        cases ht
    refine ⟨?_, fun hs' => absurd hs' hs⟩
    cases o with
    | read height params =>
      have hsame : (execSweep c.store (.read height params) f).1 = c.store := read_fst c.store f
      refine ⟨?_, fun hs' => ?_⟩
      · rw [hsame]
        exact h.open_
      · rw [hsame] at hs'
        exact absurd hs' hs
    | store o =>
      simp only [Undisturbed, hc] at hu
      refine ⟨?_, fun hs' => ?_⟩
      · cases hafter : carries (exec c.store o f).1 with
        | true => exact (hu hcarries hafter).1
        | false => exact timedOut_of_not_carries hafter
      obtain ⟨-, hk, hothers⟩ := hu hcarries (carries_of_sent hs')
      intro j
      by_cases hj : j = i
      · subst hj
        simpa using hk _
      · simpa [Function.update_of_ne hj] using hothers j hj
  · exact ⟨⟨h.open_, fun hs => forall_update i (h.calls hs) trivial⟩, fun hs _ => hs⟩
  · exact ⟨⟨rfl, nofun⟩, fun _ hne => absurd rfl (hne e)⟩

theorem sent_run {c : Sweeps} (h : Inv c) {ms : List SweepMove} (hm : Meets step Undisturbed c ms)
    (henv : ∀ e, .env e ∉ ms) (hs : sent c.store = true) : sent (run step c ms).store = true := by
  induction ms generalizing c with
  | nil => exact hs
  | cons m ms ih =>
    obtain ⟨hstep, hkeep⟩ := inv_step c m h hm.1
    refine ih hstep hm.2 (fun e he => henv e (List.mem_cons_of_mem m he)) (hkeep hs fun e he => henv e ?_)
    rw [he]
    exact List.mem_cons_self

def applySweep (key : Option SessionSnapshot) (o : SweepOp) : Option SessionSnapshot × Reply := execSweep key o .ok

/-- At the close, a pass that runs alone takes a session in proving with its hash to proved. -/
theorem proved_at_close (hhash : s.proofTxHash ≠ "") (hs : s.state = .proving) {w : Windows} {height : Nat}
    (hclose : w.proofClose ≤ height) (oom : Bool) (e : CycleEnd) :
    ((checkSession height (some w) oom e).complete applySweep (some s)).map (·.state) = some .proved := by
  have hverdict : determineTransition (decodeSnapshot s) height (some w) =
      some (.proved, "proof_submitted_before_close") := by
    simp [determineTransition, hs, hclose, hhash]
  simp [checkSession, Prog.complete, applySweep, execSweep, exec, apply, hs, SessionState.isTerminal, hverdict,
    executeTransition, checkStateWrite, onStore, Prog.mapOp, onSessionProved, updateState]

/-- From any record that is not already closed with a proof's hash, in every run of undisturbed moves: the record is
never closed as if no proof had gone out while it carries one's hash; a hash, once stored, stays until the key is lost;
and a pass at the close takes a session in proving that has one to proved. -/
theorem sent_proof_never_times_out (key : Option SessionSnapshot) (h0 : timedOut key = false) (ms : List SweepMove)
    (h : Meets step Undisturbed (idle key) ms) :
    timedOut (run step (idle key) ms).store = false ∧
      (∀ pre post, ms = pre ++ post → (∀ e, .env e ∉ post) → sent (run step (idle key) pre).store = true →
        sent (run step (idle key) ms).store = true) ∧
      ∀ s, (run step (idle key) ms).store = some s → s.proofTxHash ≠ "" → s.state = .proving →
        ∀ (w : Windows) (height : Nat), w.proofClose ≤ height → ∀ oom e,
          ((checkSession height (some w) oom e).complete applySweep (some s)).map (·.state) = some .proved := by
  have hstart : Inv (idle key) := ⟨h0, fun _ _ => trivial⟩
  have hinv : ∀ {ms}, Meets step Undisturbed (idle key) ms → Inv (run step (idle key) ms) :=
    fun hm => inv_of_meets Inv (fun c a hc ha => (inv_step c a hc ha).1) hstart hm
  refine ⟨(hinv h).open_, ?_, fun s _ hhash hs w height hclose oom e => proved_at_close hhash hs hclose oom e⟩
  rintro pre post rfl henv hs
  obtain ⟨hpre, hpost⟩ := (meets_append _ pre post).1 h
  rw [run_append]
  exact sent_run (hinv hpre) hpost henv hs

def windows : Windows := .joined

def sentAndLost (f : Fault) (oom : Bool) : List SweepMove :=
  [.start 0 (.checkSession 25 (some windows) oom (.accepted "a")), .next 0 .ok, .next 0 f, .next 0 .ok, .next 0 .ok,
    .next 0 .ok, .drop 0]

def closing : List SweepMove :=
  [.start 0 (.checkSession 30 (some windows) false .untouched), .next 0 .ok, .next 0 .ok, .next 0 .ok]

theorem sent_proof_never_times_out_killed :
    (run step (idle (some { state := .claimed })) (sentAndLost .ok false ++ closing)).store =
        some { state := .proved, proofTxHash := "a" } ∧
      timedOut (run step (idle (some { state := .claimed })) (sentAndLost .ok false ++ closing)).store = false := by
  refine ⟨by decide, (sent_proof_never_times_out (some { state := .claimed }) (by decide) _ ?_).1⟩
  simp +contextual [sentAndLost, closing, Undisturbed, step, stepCalls, idle, Function.update_of_ne, LifecycleCall.body,
    checkSession, execSweep, exec, apply, decodeSnapshot, smstRootLen, SessionState.isTerminal, determineTransition,
    windows, Windows.joined, prove, updateStateScript, checkStateWrite, onStore, proofCycle, CycleEnd.writes, onProofSubmitted,
    settleProof, onSessionProved, updateState, save, saveScript, Prog.mapOp, Prog.andThen, carries, timedOut, KeepsSent,
    keepsSent, executeTransition]

/-- Redis refuses the move to proving, out of memory, and takes the hash: the session is in claimed when its window
closes. Or a pass at the close reads the session before the cycle stores the hash, and writes after it. -/
theorem sent_proof_timed_out :
    (run step (idle (some { state := .claimed })) (sentAndLost .refused true ++ closing)).store =
        some { state := .proofWindowClosed, proofTxHash := "a" } ∧
      (run step (idle (some { state := .claimed }))
        [.start 0 (.checkSession 29 (some windows) false (.accepted "a")), .next 0 .ok, .next 0 .ok,
          .start 1 (.checkSession 30 (some windows) false .untouched), .next 1 .ok, .next 0 .ok, .next 0 .ok, .next 0 .ok,
          .next 1 .ok]).store =
        some { state := .proofWindowClosed, proofTxHash := "a" } := by
  decide

end RelayMiner.Lifecycle.ProofSent
