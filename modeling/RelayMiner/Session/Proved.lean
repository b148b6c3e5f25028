import RelayMiner.Session.Coordinator
/-!
# A proved session stays proved

Any number of miners run the proof-phase callbacks on one session. The guarded
writes (`ReactivateProved`, and `OnProofTxError`'s look before it writes) keep a
proved session proved; `Save` and the unguarded state writes do not, so what a
call still has to write when the session becomes proved decides.
-/
open RelayMiner.Lib

namespace RelayMiner.Session

inductive ProofCall where
  | onProofSubmitted (proofTxHash : String)
  | onSessionProved
  | onProofObservedOnChain (proofTxHash : String)
  | onProofTxError
  | onProofWindowClosed
  | onProbabilisticProved
  | trackSession (snap : SessionSnapshot)
  | persistProving

def ProofCall.body : ProofCall → Call
  | .onProofSubmitted h => Session.onProofSubmitted h
  | .onSessionProved => Session.onSessionProved
  | .onProofObservedOnChain h => Session.onProofObservedOnChain h
  | .onProofTxError => Session.onProofTxError
  | .onProofWindowClosed => Session.onProofWindowClosed
  | .onProbabilisticProved => Session.onProbabilisticProved
  | .trackSession snap => Session.trackSession snap
  | .persistProving => Session.persistProving

abbrev ProofMove := Move ProofCall Fault Unit

def proofStep : Miners → ProofMove → Miners := stepCalls ProofCall.body exec expire

def isProved (key : Option SessionSnapshot) : Bool := key.any fun s => s.state.isSuccess

@[simp] theorem isProved_none : isProved none = false := rfl

@[simp] theorem isProved_some (s : SessionSnapshot) : isProved (some s) = s.state.isSuccess := rfl

variable {key : Option SessionSnapshot} {o : Op}

theorem exists_of_isProved (h : isProved key) : ∃ s, key = some s ∧ s.state.isSuccess := by
  cases key with
  | none => simp at h
  | some s => exact ⟨s, rfl, h⟩

/-- In the run `ms` from `c`, a proved session is proved or gone after every next move. -/
def StaysProved (c : Miners) (ms : List ProofMove) : Prop :=
  ∀ pre m, pre ++ [m] <+: ms → isProved (run proofStep c pre).store →
    isProved (run proofStep c (pre ++ [m])).store ∨ (run proofStep c (pre ++ [m])).store = none

/-! ## What an operation does to a proved session -/

def Op.keepsProved : Op → Bool
  | .get | .reactivateClaimed _ _ | .reactivateProved _ => true
  | .hset _ snap => snap.state.isSuccess
  | .updateState newState _ =>
    match newState with
    | .proved | .probabilisticProved | .active | .claimed | .claimWindowClosed | .claimTxError => true
    | .claiming | .claimMissing | .claimSkipped | .proving | .proofWindowClosed | .proofTxError => false

def Op.proves : Op → Bool
  | .get | .reactivateClaimed _ _ => false
  | .reactivateProved _ => true
  | .hset _ snap => snap.state.isSuccess
  | .updateState newState _ => newState.isSuccess

def Reply.ofProved : Op → Reply → Prop
  | .get, r => ∃ s : SessionSnapshot, s.state.isSuccess ∧ r = .snapshot (some s)
  | _, _ => True

def KeepsProved : Call → Prop
  | .ret => True
  | .op o k => o.keepsProved ∧ ∀ r, Reply.ofProved o r → KeepsProved (k r)

@[simp] theorem keepsProved_ret : KeepsProved .ret := trivial

@[simp] theorem keepsProved_op (o : Op) (k : Reply → Call) :
    KeepsProved (.op o k) ↔ o.keepsProved ∧ ∀ r, Reply.ofProved o r → KeepsProved (k r) := Iff.rfl

attribute [local simp] SessionState.isSuccess updateStateScript Op.keepsProved

theorem isProved_updateStateScript {s : SessionSnapshot} (hs : s.state.isSuccess) {newState : SessionState}
    {v : Verdict} (h : (Op.updateState newState v).keepsProved) :
    isProved (updateStateScript newState v (some s)).1 := by
  have hc : checkStateWrite s newState = none → newState.isSuccess := by
    cases hst : s.state <;> cases newState <;>
      simp_all [checkStateWrite, SessionState.holdsClaimOnChain]
  cases hn : checkStateWrite s newState with
  | none => simpa [hn] using hc hn
  | some r => simpa [hn] using hs

theorem isProved_apply {s : SessionSnapshot} (hs : s.state.isSuccess) (h : o.keepsProved) :
    isProved (apply (some s) o).1 := by
  cases o with
  | get => exact hs
  | hset existing snap => simpa [apply] using h
  | updateState newState v => exact isProved_updateStateScript hs h
  | reactivateClaimed root tx =>
    have : canReactivateClaimed s.state = false := by
      cases hst : s.state <;> simp_all [canReactivateClaimed]
    simpa [apply, reactivateClaimedScript, this] using hs
  | reactivateProved tx =>
    have : canReactivateProved s.state s.proofTxHash = false := by
      cases hst : s.state <;> simp_all [canReactivateProved]
    simpa [apply, reactivateProvedScript, this] using hs

theorem isProved_exec (hk : isProved key) (h : o.keepsProved) (f : Fault) : isProved (exec key o f).1 := by
  obtain ⟨s, rfl, hs⟩ := exists_of_isProved hk
  rcases exec_fst (some s) o f with he | he <;> rw [he]
  · exact hs
  · exact isProved_apply hs h

/-- Only an operation that can prove a session makes one proved. -/
theorem proves_of_exec {f : Fault} (hk : isProved key = false) (h : isProved (exec key o f).1) : o.proves := by
  rcases exec_fst key o f with he | he <;> rw [he] at h
  · simp [hk] at h
  cases o with
  | get => simp [apply, hk] at h
  | hset existing snap => simpa [apply, Op.proves] using h
  | updateState newState v =>
    cases key with
    | none => simp [apply] at h
    | some s =>
      cases hc : checkStateWrite s newState with
      | none => simpa [apply, hc, Op.proves] using h
      | some r => simp_all [apply]
  | reactivateClaimed root tx =>
    cases key with
    | none => simp [apply, reactivateClaimedScript] at h
    | some s =>
      simp only [apply, reactivateClaimedScript] at h
      split at h
      · simp at h
      · simp [hk] at h
  | reactivateProved tx => rfl

/-- With the session proved, a read that works answers so. -/
theorem ofProved_exec (hk : isProved key) (o : Op) {f : Fault} (hf : o = .get → f = .ok) :
    Reply.ofProved o (exec key o f).2 := by
  obtain ⟨s, rfl, hs⟩ := exists_of_isProved hk
  cases o with
  | get => rw [hf rfl]; exact ⟨decodeSnapshot s, by simpa using hs, rfl⟩
  | _ => trivial

/-! ## Which callbacks keep a proved session -/

theorem keepsProved_updateState (newState : SessionState) (v : Verdict) :
    KeepsProved (updateState newState v) ↔ (Op.updateState newState v).keepsProved := by
  simp [updateState]

theorem keepsProved_save (snap : SessionSnapshot) : KeepsProved (save snap) ↔ snap.state.isSuccess := by
  constructor
  · intro h
    obtain ⟨-, h⟩ := h
    have := h (.snapshot (some { state := .proved })) ⟨_, rfl, rfl⟩
    simpa using this
  intro h
  refine ⟨rfl, ?_⟩
  rintro r ⟨s, -, rfl⟩
  simpa using h

theorem keepsProved_onProofSubmitted (h : String) : KeepsProved (onProofSubmitted h) := by
  refine ⟨rfl, ?_⟩
  rintro r ⟨s, hs, rfl⟩
  exact (keepsProved_save _).2 hs

theorem keepsProved_onProofTxError : KeepsProved onProofTxError := by
  refine ⟨rfl, ?_⟩
  rintro r ⟨s, hs, rfl⟩
  have : s.state = .proved ∨ s.state = .probabilisticProved := by
    cases hst : s.state <;> simp_all
  rcases this with h | h <;> simp [h]

def ProofCall.guarded : ProofCall → Bool
  | .onProofWindowClosed | .persistProving => false
  | .trackSession snap => snap.state.isSuccess
  | .onProofSubmitted _ | .onSessionProved | .onProofObservedOnChain _ | .onProofTxError
  | .onProbabilisticProved => true

theorem keepsProved_body (call : ProofCall) : KeepsProved call.body ↔ call.guarded := by
  cases call with
  | onProofSubmitted h => exact iff_of_true (keepsProved_onProofSubmitted h) rfl
  | onSessionProved => exact keepsProved_updateState .proved .none
  | onProofObservedOnChain h => simp [ProofCall.body, onProofObservedOnChain, ProofCall.guarded]
  | onProofTxError => exact iff_of_true keepsProved_onProofTxError rfl
  | onProofWindowClosed => exact keepsProved_updateState .proofWindowClosed .none
  | onProbabilisticProved => exact keepsProved_updateState .probabilisticProved .none
  | trackSession snap => exact keepsProved_save snap
  | persistProving => exact keepsProved_updateState .proving .none

/-! ## The condition on the moves -/

/-- A call that starts on a proved session is a guarded one; a read of a proved session works; and when
an operation is about to prove the session, no call in flight still has another state to write. -/
def Undisturbed (c : Miners) : ProofMove → Prop
  | .start _ call => isProved c.store → call.guarded
  | .next i f =>
    match c.calls i with
    | .ret => True
    | .op o k =>
      if isProved c.store then o = .get → f = .ok
      else o.proves → (∀ r, KeepsProved (k r)) ∧ ∀ j, j ≠ i → KeepsProved (c.calls j)
  | .drop _ => True
  | .env _ => True

def ProvedInv (c : Miners) : Prop := isProved c.store → ∀ i, KeepsProved (c.calls i)

theorem provedInv_step (c : Miners) (m : ProofMove) (hi : ProvedInv c) (hg : Undisturbed c m) :
    ProvedInv (proofStep c m) ∧
      (isProved c.store → isProved (proofStep c m).store ∨ (proofStep c m).store = none) := by
  unfold proofStep
  rcases stepCalls_cases ProofCall.body exec expire c m with
    h | ⟨i, call, rfl, hfree, h⟩ | ⟨i, f, o, k, rfl, hc, h⟩ | ⟨i, rfl, h⟩ | ⟨e, rfl, h⟩ <;> rw [h]
  · exact ⟨hi, .inl⟩
  · exact ⟨fun hp => forall_update i (hi hp) ((keepsProved_body call).2 (hg hp)), .inl⟩
  · simp only [Undisturbed, hc] at hg
    by_cases hp : isProved c.store
    · rw [if_pos hp] at hg
      obtain ⟨hko, hkr⟩ := (keepsProved_op o k).1 (hc ▸ hi hp i)
      exact ⟨fun _ => forall_update i (hi hp) (hkr _ (ofProved_exec hp o hg)), fun _ => .inl (isProved_exec hp hko f)⟩
    rw [if_neg hp] at hg
    refine ⟨fun hp' j => ?_, fun h => absurd h hp⟩
    obtain ⟨hk, ho⟩ := hg (proves_of_exec (by simpa using hp) hp')
    by_cases hj : j = i
    · subst hj; simpa using hk _
    · simpa [Function.update_of_ne hj] using ho j hj
  · exact ⟨fun hp => forall_update i (hi hp) keepsProved_ret, .inl⟩
  · exact ⟨fun hp => by simp [expire] at hp, fun _ => .inr rfl⟩

/-- From a store with no call in flight, in every run of undisturbed moves a proved session stays proved. -/
theorem proved_stays (key : Option SessionSnapshot) (ms : List ProofMove)
    (h : Meets proofStep Undisturbed (idle key) ms) : StaysProved (idle key) ms := by
  have h0 : ProvedInv (idle key) := fun _ _ => keepsProved_ret
  rintro pre m ⟨post, rfl⟩ hp
  obtain ⟨hpre, hm, -⟩ := (meets_append _ pre [m]).1 ((meets_append _ (pre ++ [m]) post).1 h).1
  have hi := inv_of_meets ProvedInv (fun c a hc ha => (provedInv_step c a hc ha).1) h0 hpre
  rw [run_append]
  exact (provedInv_step _ m hi hm).2 hp

/-- A proof is sent and recorded, the session is proved, and a second miner's failed send and late
record of the same proof find it proved. -/
def provedRun : List ProofMove :=
  [.start 0 .persistProving, .next 0 .ok, .start 0 (.onProofSubmitted "a"), .next 0 .ok, .next 0 .ok, .next 0 .ok,
    .start 0 .onSessionProved, .next 0 .ok, .start 0 .onProofTxError, .start 1 (.onProofSubmitted "b"),
    .next 1 .ok, .next 0 .ok, .next 1 .ok, .next 1 .ok]

theorem proved_stays_run :
    Meets proofStep Undisturbed (idle (some { state := .claimed })) provedRun ∧
      isProved (run proofStep (idle (some { state := .claimed })) provedRun).store ∧
      StaysProved (idle (some { state := .claimed })) provedRun := by
  have h : Meets proofStep Undisturbed (idle (some { state := .claimed })) provedRun := by
    simp +contextual [provedRun, Undisturbed, proofStep, stepCalls, idle, ProofCall.body, persistProving,
      updateState, onProofSubmitted, save, onSessionProved, onProofTxError, exec, apply, updateStateScript,
      checkStateWrite, saveScript, decodeSnapshot, smstRootLen, Op.proves, SessionState.isSuccess,
      ProofCall.guarded]
  exact ⟨h, by decide, proved_stays _ _ h⟩

/-- One miner reads the session to record its proof hash; another marks it proved; the first one's
`Save` writes back the `proving` it read. -/
theorem proved_overwritten_by_save :
    ¬ StaysProved (idle (some { state := .proving }))
      [.start 0 (.onProofSubmitted "a"), .next 0 .ok, .start 1 .onSessionProved, .next 1 .ok,
        .next 0 .ok, .next 0 .ok] := by
  intro h
  have := h [.start 0 (.onProofSubmitted "a"), .next 0 .ok, .start 1 .onSessionProved, .next 1 .ok, .next 0 .ok]
    (.next 0 .ok) (by simp) (by decide)
  revert this
  decide

end RelayMiner.Session
