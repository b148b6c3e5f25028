import RelayMiner.Lifecycle.Transitions
/-!
# The lifecycle's tracked set

A session is followed to its proof as long as `activeSessions` has it: a pass
looks at nothing else. The record in the store and the entry in memory are
written by different steps of different calls, any number of which run side by
side: passes, the transitions they hand to the pool, the coordinator's
callbacks, and the reconciler's observation of a claim on chain.
-/
open RelayMiner.Lib RelayMiner.Session Function

namespace RelayMiner.Lifecycle.Tracking

structure Book where
  key : Option SessionSnapshot
  tracked : Bool
  due : Bool := false

inductive TrackOp where
  | store (o : Op)
  | read
  | flip (root : Bytes) (claimTxHash : String)
  | reread (src : SessionState)
  | isTracked
  | track
  | untrack
  | returns (ok : Bool)

inductive TrackReply where
  | store (r : Reply)
  | tracked (b : Bool)
  | done

def onStore (b : Book) (o : Op) (f : Fault) : Book × TrackReply :=
  ({ b with key := (exec b.key o f).1 }, .store (exec b.key o f).2)

def execTrack (b : Book) (o : TrackOp) (f : Fault) : Book × TrackReply :=
  match o with
  | .store o => onStore b o f
  | .read => onStore b .get .ok
  | .flip root tx => onStore b (.reactivateClaimed root tx) f
  | .reread _ => onStore b .get f
  | .isTracked => (b, .tracked b.tracked)
  | .track => ({ b with tracked := true }, .done)
  | .untrack => ({ b with tracked := false }, .done)
  | .returns ok => ({ b with due := !ok }, .done)

abbrev TrackCall := Prog TrackOp TrackReply

def storing (o : Op) (k : Reply → TrackCall) : TrackCall :=
  .op (.store o) fun r =>
    match r with
    | .store r => k r
    | _ => .ret

def saving (snap : SessionSnapshot) (k : Bool → TrackCall) : TrackCall :=
  storing .get fun r =>
    storing (.hset (r matches .snapshot (some _)) snap) fun r => k (r matches .saved)

/-! ## The coordinator -/

def markTerminal (newState : SessionState) (verdict : Verdict) (k : TrackCall) : TrackCall :=
  storing (.updateState newState verdict) fun r =>
    match r with
    | .updated _ => .op .untrack fun _ => k
    | _ => k

/-- `OnSessionProved`: a write that failed is logged, and the terminal callback is made all the same. -/
def onSessionProved (k : TrackCall) : TrackCall :=
  storing (.updateState .proved .none) fun _ => .op .untrack fun _ => k

def onClaimTxError (verdict : Verdict) : TrackCall :=
  storing .get fun r =>
    match r with
    | .snapshot (some s) =>
      if s.state = .claimed ∨ s.claimTxHash ≠ "" then .ret
      else if s.state = .claimTxError then .ret
      else markTerminal .claimTxError verdict .ret
    | _ => markTerminal .claimTxError .none .ret

def onClaimMissing : TrackCall :=
  storing .get fun r =>
    match r with
    | .snapshot (some s) =>
      if s.state = .claimMissing then .ret
      else if s.state.isSuccess then .ret
      else markTerminal .claimMissing (claimMissingVerdictFor s.state) .ret
    | _ => markTerminal .claimMissing .none .ret

def onProofTxError : TrackCall :=
  storing .get fun r =>
    match r with
    | .snapshot (some s) =>
      if s.state = .proved ∨ s.state = .probabilisticProved ∨ s.proofTxHash ≠ "" then .ret
      else markTerminal .proofTxError .none .ret
    | _ => markTerminal .proofTxError .none .ret

def onProofObservedOnChain (proofTxHash : String) : TrackCall :=
  storing (.reactivateProved proofTxHash) fun r =>
    match r with
    | .reactivation (some _) => .op .untrack fun _ => .ret
    | _ => .ret

def onProofDeferred : TrackCall :=
  storing .get fun r =>
    match r with
    | .snapshot (some s) =>
      if s.state.isTerminal ∨ s.proofTxHash ≠ "" then .ret else storing (.updateState .claimed .none) fun _ => .ret
    | _ => .ret

def onProofSubmitted (proofTxHash : String) : TrackCall :=
  storing .get fun r =>
    match r with
    | .snapshot (some s) => saving { s with proofTxHash := proofTxHash } fun _ => .ret
    | _ => .ret

def onSessionClaimed (root : Bytes) (claimTxHash : String) : TrackCall :=
  storing .get fun r =>
    match r with
    | .snapshot (some _) => storing (.reactivateClaimed root claimTxHash) fun _ => .ret
    | _ => .ret

inductive Observed where
  | booked | failed | unusable
  deriving DecidableEq

def onClaimObservedOnChain (root : Bytes) (claimTxHash : String) (k : Observed → TrackCall) : TrackCall :=
  if root.length ≠ smstRootLen then k .unusable
  else storing .get fun _ => .op (.flip root claimTxHash) fun r =>
    match r with
    | .store (.reactivation (some src)) =>
      .op (.reread src) fun r =>
        match r with
        -- `TrackSession` tracks the session before it saves it.
        | .store (.snapshot (some s)) => .op .track fun _ => saving s fun ok => k (if ok then .booked else .failed)
        | _ => k .failed
    | .store (.reactivation none) => k .booked
    | _ => k .failed

/-! ## The lifecycle -/

def observeClaimOnChain (answer : Option Bytes) (claimTxHash : String) (observed notObserved : TrackCall) : TrackCall :=
  match answer with
  | none => notObserved
  | some root => onClaimObservedOnChain root claimTxHash fun
    | .booked => observed
    | .failed | .unusable => .ret

def checkSessionTransitions (height : Nat) (params : Option Windows) (answer : Option Bytes) : TrackCall :=
  .op .isTracked fun
    | .tracked true => .op .read fun
      | .store (.snapshot (some s)) =>
        if s.state.isTerminal then .op .untrack fun _ => .ret
        else
          match determineTransition s height params with
          | some (.claiming, _) => storing (.updateState .claiming .none) fun _ => .ret
          | some (.proving, _) => storing (.updateState .proving .none) fun _ => .ret
          | some (.claimWindowClosed, _) =>
            observeClaimOnChain answer s.claimTxHash
              (storing .get fun
                | .snapshot (some _) => .op .track fun _ => .ret
                | _ => .ret)
              .ret
          | _ => .ret
      | _ => .op .untrack fun _ => .ret
    | _ => .ret

def executeTransition (newState : SessionState) : TrackCall :=
  storing (.updateState newState .none) fun r =>
    match r with
    | .updated _ =>
      let remove : TrackCall := if newState.isTerminal then .op .untrack fun _ => .ret else .ret
      match newState with
      | .proved => onSessionProved remove
      | .probabilisticProved => markTerminal .probabilisticProved .none remove
      | _ => remove
    | _ => .ret

def settleProof : TrackCall :=
  storing (.updateState .proved .none) fun _ => onSessionProved (.op .untrack fun _ => .ret)

inductive Call where
  | checkSessionTransitions (height : Nat) (params : Option Windows) (answer : Option Bytes)
  | executeTransition (newState : SessionState)
  | settleClaim
  | settleProof
  | markClaimWindowClosed (answer : Option Bytes) (claimTxHash : String)
  | onSessionClaimed (root : Bytes) (claimTxHash : String)
  | onClaimObservedOnChain (root : Bytes) (claimTxHash : String)
  | onClaimDeferred
  | onClaimTxError (verdict : Verdict)
  | onClaimMissing
  | onClaimSkipped
  | onProofSubmitted (proofTxHash : String)
  | onProofDeferred
  | onProofTxError
  | onProofWindowClosed
  | onProbabilisticProved
  | onSessionProved
  | onProofObservedOnChain (proofTxHash : String)

def Call.body : Call → TrackCall
  | .checkSessionTransitions height params answer => Tracking.checkSessionTransitions height params answer
  | .executeTransition newState => Tracking.executeTransition newState
  | .settleClaim => storing (.updateState .claimed .none) fun _ => .ret
  | .settleProof => Tracking.settleProof
  | .markClaimWindowClosed answer tx => observeClaimOnChain answer tx .ret (markTerminal .claimWindowClosed .none .ret)
  | .onSessionClaimed root tx => Tracking.onSessionClaimed root tx
  -- A root that cannot be used is no error to the reconciler, which then lets the entry go.
  | .onClaimObservedOnChain root tx =>
    Tracking.onClaimObservedOnChain root tx fun r => .op (.returns (r ≠ .failed)) fun _ => .ret
  | .onClaimDeferred => storing (.updateState .active .none) fun _ => .ret
  | .onClaimTxError v => Tracking.onClaimTxError v
  | .onClaimMissing => Tracking.onClaimMissing
  | .onClaimSkipped => markTerminal .claimSkipped .none .ret
  | .onProofSubmitted tx => Tracking.onProofSubmitted tx
  | .onProofDeferred => Tracking.onProofDeferred
  | .onProofTxError => Tracking.onProofTxError
  | .onProofWindowClosed => markTerminal .proofWindowClosed .none .ret
  | .onProbabilisticProved => markTerminal .probabilisticProved .none .ret
  | .onSessionProved => Tracking.onSessionProved .ret
  | .onProofObservedOnChain tx => Tracking.onProofObservedOnChain tx

inductive Act where
  | start (i : Nat) (c : Call)
  | next (i : Nat) (f : Fault)
  | expire

abbrev Process := Conf Book TrackOp TrackReply

def Act.move : Act → Move Call Fault Unit
  | .start i c => .start i c
  | .next i f => .next i f
  | .expire => .env ()

def step (c : Process) (a : Act) : Process :=
  stepCalls Call.body execTrack (fun b _ => { b with key := none }) c a.move

def idle (b : Book) : Process := ⟨b, fun _ => .ret⟩

variable {q : TrackCall} {k : TrackReply → TrackCall} {o : Op} {tx : String} {f : Fault}

variable {p : SessionSnapshot → TrackCall}

/-! ## Careful histories -/

def Live (key : Option SessionSnapshot) : Prop := ∃ s ∈ key, s.state.isTerminal = false

instance (key : Option SessionSnapshot) : Decidable (Live key) := by
  unfold Live
  infer_instance

def Op.LeavesEnded (key : Option SessionSnapshot) : Op → Prop
  | .get | .reactivateProved _ => True
  | .hset _ snap => snap.state.isTerminal = false → Live key
  | .updateState newState _ => ∀ s ∈ key, s.state.isTerminal → newState.isTerminal ∨ (checkStateWrite s newState).isSome
  | .reactivateClaimed _ _ => ∀ s ∈ key, canReactivateClaimed s.state → s.state.isTerminal = false

instance (key : Option SessionSnapshot) (o : Op) : Decidable (Op.LeavesEnded key o) := by
  cases o <;> unfold Op.LeavesEnded <;> infer_instance

/-- The next step of a call: the entry is removed only over a record that has ended; only an observed claim brings
an ended record back, and then it gets the answers it needs to track the session. -/
def CarefulOp (b : Book) (f : Fault) : TrackOp → Prop
  | .store o => Op.LeavesEnded b.key o
  | .flip _ _ => f = .lost → ∀ s ∈ b.key, s.state.isTerminal = false
  | .reread src => src.isTerminal → f = .ok
  | .untrack => ¬ Live b.key
  | .read | .isTracked | .track | .returns _ => True

instance (b : Book) (f : Fault) (o : TrackOp) : Decidable (CarefulOp b f o) := by
  cases o <;> unfold CarefulOp <;> infer_instance

def Careful (c : Process) : Act → Prop
  | .next i f => ∀ o ∈ (c.calls i).next?, CarefulOp c.store f o
  | .start _ _ | .expire => True

instance (c : Process) (a : Act) : Decidable (Careful c a) := by
  cases a <;> unfold Careful <;> infer_instance

/-! ## What the calls do with a session they bring back -/

def Bringing : TrackCall → Prop
  | .op .track _ => True
  | .op (.reread src) k => src.isTerminal = true ∧ ∀ s, ∃ k', k (.store (.snapshot (some s))) = .op .track k'
  | _ => False

def Retracks : TrackCall → Prop
  | .ret => True
  | .op o k => (∀ r, Retracks (k r)) ∧ (∀ root tx, o = .flip root tx → ∀ src, src.isTerminal = true →
      Bringing (k (.store (.reactivation (some src)))))

theorem retracks_op {o : TrackOp} (ho : ∀ root tx, o ≠ .flip root tx) (hk : ∀ r, Retracks (k r)) :
    Retracks (.op o k) :=
  ⟨hk, fun root tx h => absurd h (ho root tx)⟩

theorem retracks_storing {k : Reply → TrackCall} (hk : ∀ r, Retracks (k r)) : Retracks (storing o k) := by
  refine retracks_op nofun fun r => ?_
  cases r with
  | store r => exact hk r
  | tracked | done => trivial

theorem retracks_untrack {k : TrackCall} (hk : Retracks k) : Retracks (.op .untrack fun _ => k) :=
  retracks_op nofun fun _ => hk

theorem retracks_saving {snap : SessionSnapshot} {k : Bool → TrackCall} (hk : ∀ ok, Retracks (k ok)) :
    Retracks (saving snap k) :=
  retracks_storing fun _ => retracks_storing fun _ => hk _

variable {newState : SessionState}

theorem retracks_markTerminal {verdict : Verdict} {k : TrackCall} (hk : Retracks k) :
    Retracks (markTerminal newState verdict k) := by
  refine retracks_storing fun r => ?_
  split
  · exact retracks_untrack hk
  · exact hk

theorem retracks_onClaimObservedOnChain {root : Bytes} {k : Observed → TrackCall} (hk : ∀ r, Retracks (k r)) :
    Retracks (onClaimObservedOnChain root tx k) := by
  unfold onClaimObservedOnChain
  split
  · exact hk _
  refine retracks_storing fun _ => ⟨fun r => ?_, fun _ _ _ src hsrc => ⟨hsrc, fun s => ⟨_, rfl⟩⟩⟩
  dsimp only
  split
  · refine retracks_op nofun fun r => ?_
    split
    · exact retracks_op nofun fun _ => retracks_saving fun _ => hk _
    · exact hk _
  · exact hk _
  · exact hk _

theorem retracks_observeClaimOnChain {answer : Option Bytes} {p : TrackCall} (hp : Retracks p) (hq : Retracks q) :
    Retracks (observeClaimOnChain answer tx p q) := by
  unfold observeClaimOnChain
  split
  · exact hq
  refine retracks_onClaimObservedOnChain fun r => ?_
  cases r with
  | booked => exact hp
  | failed | unusable => trivial

theorem retracks_checkSessionTransitions {height : Nat} {params : Option Windows} {answer : Option Bytes} :
    Retracks (checkSessionTransitions height params answer) := by
  refine retracks_op nofun fun r => ?_
  split
  · refine retracks_op nofun fun r => ?_
    split
    · split
      · exact retracks_untrack trivial
      · split
        · exact retracks_storing fun _ => trivial
        · exact retracks_storing fun _ => trivial
        · refine retracks_observeClaimOnChain (retracks_storing fun r => ?_) trivial
          split
          · exact retracks_op nofun fun _ => trivial
          · trivial
        · trivial
    · exact retracks_untrack trivial
  · trivial

theorem retracks_executeTransition : Retracks (executeTransition newState) := by
  have hremove : Retracks (if newState.isTerminal then .op .untrack fun _ => .ret else .ret : TrackCall) := by
    split
    · exact retracks_untrack trivial
    · trivial
  refine retracks_storing fun r => ?_
  split
  · dsimp only
    split
    · exact retracks_storing fun _ => retracks_untrack hremove
    · exact retracks_markTerminal hremove
    · exact hremove
  · trivial

theorem retracks_reading (hp : ∀ s, Retracks (p s)) (hq : Retracks q) :
    Retracks (storing .get fun r => match r with | .snapshot (some s) => p s | _ => q) := by
  refine retracks_storing fun r => ?_
  split
  · exact hp _
  · exact hq

theorem retracks_body (c : Call) : Retracks c.body := by
  have hmark : ∀ v verdict, Retracks (markTerminal v verdict .ret) := fun v verdict => retracks_markTerminal trivial
  cases c with
  | checkSessionTransitions height params answer => exact retracks_checkSessionTransitions
  | executeTransition newState => exact retracks_executeTransition
  | settleClaim | onClaimDeferred => exact retracks_storing fun _ => trivial
  | settleProof => exact retracks_storing fun _ => retracks_storing fun _ => retracks_untrack (retracks_untrack trivial)
  | markClaimWindowClosed answer tx => exact retracks_observeClaimOnChain trivial (hmark _ _)
  | onSessionClaimed root tx => exact retracks_reading (fun _ => retracks_storing fun _ => trivial) trivial
  | onClaimObservedOnChain root tx =>
    exact retracks_onClaimObservedOnChain fun r =>
      retracks_op (o := .returns (r ≠ .failed)) (k := fun _ => .ret) nofun fun _ => trivial
  | onClaimTxError | onClaimMissing | onProofTxError =>
    exact retracks_reading (fun s => by split_ifs <;> first | trivial | exact hmark _ _) (hmark _ _)
  | onClaimSkipped | onProofWindowClosed | onProbabilisticProved => exact hmark _ _
  | onProofSubmitted tx => exact retracks_reading (fun _ => retracks_saving fun _ => trivial) trivial
  | onProofDeferred =>
    exact retracks_reading (fun s => by split_ifs <;> first | trivial | exact retracks_storing fun _ => trivial) trivial
  | onSessionProved => exact retracks_storing fun _ => retracks_untrack trivial
  | onProofObservedOnChain tx =>
    refine retracks_storing fun r => ?_
    split
    · exact retracks_untrack trivial
    · trivial

/-! ## A live session is tracked -/

variable {key : Option SessionSnapshot}

theorem live_of_apply (ho : Op.LeavesEnded key o) (h : Live (apply key o).1) :
    Live key := by
  obtain ⟨s, hs, hlive⟩ := h
  cases o with
  | get => exact ⟨s, hs, hlive⟩
  | hset existing snap =>
    cases hs
    exact ho (by simpa using hlive)
  | updateState newState v =>
    cases key with
    | none => cases hs
    | some r =>
      refine ⟨r, rfl, Bool.eq_false_iff.2 fun hr => ?_⟩
      simp only [apply, updateStateScript] at hs
      rcases ho r rfl hr with hn | hc
      · split at hs <;> cases hs
        · rw [hr] at hlive
          cases hlive
        · rw [show newState.isTerminal = true from hn] at hlive
          cases hlive
      obtain ⟨refusal, hc⟩ := Option.isSome_iff_exists.1 hc
      rw [hc] at hs
      cases hs
      rw [hr] at hlive
      cases hlive
  | reactivateClaimed root tx =>
    cases key with
    | none => cases hs
    | some r =>
      simp only [apply, reactivateClaimedScript] at hs
      split at hs
      next hc => exact ⟨r, rfl, ho r rfl hc⟩
      · exact ⟨s, hs, hlive⟩
  | reactivateProved tx =>
    cases key with
    | none => cases hs
    | some r =>
      simp only [apply, reactivateProvedScript] at hs
      split at hs
      · cases hs
        cases hlive
      · exact ⟨s, hs, hlive⟩

theorem live_of_exec (ho : Op.LeavesEnded key o) (h : Live (exec key o f).1) :
    Live key := by
  rcases exec_fst key o f with he | he <;> rw [he] at h
  · exact h
  · exact live_of_apply ho h

structure TrackInv (c : Process) : Prop where
  live : Live c.store.key → c.store.tracked = true ∨ ∃ i, Bringing (c.calls i)
  retracks : ∀ i, Retracks (c.calls i)

variable {c : Process} {i : Nat}

/-- A step of a call that is not about to track the session, and leaves the entry as it is. -/
theorem TrackInv.move (h : TrackInv c) {b : Book} {p : TrackCall} (hi : ¬ Bringing (c.calls i)) (hp : Retracks p)
    (hlive : Live b.key → Live c.store.key) (htracked : b.tracked = c.store.tracked) :
    TrackInv ⟨b, update c.calls i p⟩ := by
  refine ⟨fun hl => ?_, forall_update i h.retracks hp⟩
  rcases h.live (hlive hl) with ht | ⟨j, hj⟩
  · exact .inl (htracked.trans ht)
  · have hne : j ≠ i := fun he => hi (he ▸ hj)
    exact .inr ⟨j, by simpa [update_of_ne hne] using hj⟩

/-- The flip of an observed claim: a session that was not live is one the call goes on to track. -/
theorem TrackInv.flip (h : TrackInv c) {root : Bytes} (hc : c.calls i = .op (.flip root tx) k)
    (hcare : CarefulOp c.store f (.flip root tx)) :
    TrackInv ⟨(execTrack c.store (.flip root tx) f).1,
      update c.calls i (k (execTrack c.store (.flip root tx) f).2)⟩ := by
  obtain ⟨hk, hflip⟩ : Retracks (.op (.flip root tx) k) := hc ▸ h.retracks i
  by_cases hl : Live c.store.key
  · exact h.move (by rw [hc]; exact id) (hk _) (fun _ => hl) rfl
  refine ⟨fun hl' => .inr ⟨i, ?_⟩, forall_update i h.retracks (hk _)⟩
  dsimp only
  rw [update_self]
  -- The record had ended, so it is the flip that brought it back, and its answer came.
  have hl' : Live (exec c.store.key (.reactivateClaimed root tx) f).1 := hl'
  cases hkey : c.store.key with
  | none =>
    rw [hkey] at hl'
    rcases exec_fst none (.reactivateClaimed root tx) f with he | he <;> rw [he] at hl' <;>
      (obtain ⟨s, hs, -⟩ := hl'; cases hs)
  | some s =>
    have hended : s.state.isTerminal = true := by
      by_contra hn
      exact hl ⟨s, hkey, Bool.eq_false_iff.2 hn⟩
    have hcan : canReactivateClaimed s.state = true := by
      by_contra hn
      refine hl ?_
      rw [hkey] at hl' ⊢
      rcases exec_fst (some s) (.reactivateClaimed root tx) f with he | he <;> rw [he] at hl'
      · exact hl'
      · simpa [apply, reactivateClaimedScript, hn] using hl'
    cases f with
    | ok =>
      have hr : (execTrack c.store (.flip root tx) .ok).2 = .store (.reactivation (some s.state)) := by
        simp [execTrack, onStore, exec, apply, reactivateClaimedScript, hkey, hcan]
      rw [hr]
      exact hflip root tx rfl s.state hended
    | refused => exact absurd hl' hl
    | lost =>
      rw [hcare rfl s hkey] at hended
      cases hended

theorem TrackInv.next (h : TrackInv c) {o : TrackOp} (hc : c.calls i = .op o k) (hcare : CarefulOp c.store f o) :
    TrackInv ⟨(execTrack c.store o f).1, update c.calls i (k (execTrack c.store o f).2)⟩ := by
  have hk : ∀ r, Retracks (k r) := (hc ▸ h.retracks i : Retracks (.op o k)).1
  cases o with
  | store o => exact h.move (by rw [hc]; exact id) (hk _) (fun hl => live_of_exec hcare hl) rfl
  | read | isTracked | returns => exact h.move (by rw [hc]; exact id) (hk _) id rfl
  | flip root tx => exact h.flip hc hcare
  | track => exact ⟨fun _ => .inl rfl, forall_update i h.retracks (hk _)⟩
  | untrack => exact ⟨fun hl => absurd hl hcare, forall_update i h.retracks (hk _)⟩
  | reread src =>
    have hsame : (execTrack c.store (.reread src) f).1.key = c.store.key := by
      cases f <;> rfl
    by_cases hb : Bringing (c.calls i)
    · rw [hc] at hb
      obtain ⟨hsrc, htrack⟩ := hb
      obtain rfl : f = .ok := hcare hsrc
      refine ⟨fun hl => .inr ⟨i, ?_⟩, forall_update i h.retracks (hk _)⟩
      obtain ⟨s, hs, -⟩ := hl
      have hr : (execTrack c.store (.reread src) .ok).2 = .store (.snapshot (some (decodeSnapshot s))) := by
        simp [execTrack, onStore, exec, apply, show c.store.key = some s from hs]
      obtain ⟨k', hk'⟩ := htrack (decodeSnapshot s)
      dsimp only
      rw [update_self, hr, hk']
      trivial
    · exact h.move hb (hk _) (fun hl => by rwa [hsame] at hl) rfl

theorem TrackInv.step (h : TrackInv c) {a : Act} (hcare : Careful c a) : TrackInv (step c a) := by
  rcases stepCalls_cases Call.body execTrack (fun b _ => { b with key := none }) c a.move with
    hs | ⟨i, k, -, hi, hs⟩ | ⟨i, f, o, k, hm, hi, hs⟩ | ⟨i, hm, -⟩ | ⟨e, -, hs⟩
  · rw [Tracking.step, hs]
    exact h
  · rw [Tracking.step, hs]
    exact h.move (by rw [hi]; exact id) (retracks_body k) id rfl
  · rw [Tracking.step, hs]
    cases a with
    | next j g =>
      cases hm
      exact h.next hi (hcare o (by rw [hi]; rfl))
    | start | expire => cases hm
  · cases a <;> cases hm
  · rw [Tracking.step, hs]
    exact ⟨(fun ⟨s, hs, _⟩ => nomatch hs), h.retracks⟩

/-- On the process that owns the supplier, from a session that is tracked if it has not ended: along every careful
history, whenever no call is running, a session booked as claimed or proving is tracked. -/
theorem held_claim_tracked (b : Book) (hb : Live b.key → b.tracked = true) (as : List Act)
    (hcare : Meets Tracking.step Careful (idle b) as) (hquiet : ∀ i, (run Tracking.step (idle b) as).calls i = .ret)
    (s : SessionSnapshot) (hs : (run Tracking.step (idle b) as).store.key = some s)
    (hstate : s.state = .claimed ∨ s.state = .proving) : (run Tracking.step (idle b) as).store.tracked = true := by
  have hinv : TrackInv (run Tracking.step (idle b) as) :=
    inv_of_meets TrackInv (fun _ _ h hc => h.step hc) ⟨fun hl => .inl (hb hl), fun _ => trivial⟩ hcare
  have hlive : s.state.isTerminal = false := by
    rcases hstate with h | h <;> rw [h] <;> rfl
  rcases hinv.live ⟨s, hs, hlive⟩ with ht | ⟨i, hi⟩
  · exact ht
  · rw [hquiet i] at hi
    exact hi.elim

/-! ## Three histories -/

def exampleRoot : Bytes := List.replicate smstRootLen 7

def failedClaim : Book := { key := some { state := .claimTxError, claimMissingVerdict := .attempt }, tracked := false }

def nexts (i n : Nat) : List Act := List.replicate n (.next i .ok)

def observedThenProving : List Act :=
  .start 0 (.onClaimObservedOnChain exampleRoot "tx") :: nexts 0 7 ++
    .start 1 (.checkSessionTransitions 30 (some .spaced) none) :: nexts 1 3

theorem observed_claim_tracked :
    (run step (idle failedClaim) observedThenProving).store.tracked = true := by
  have hcare : Meets step Careful (idle failedClaim) observedThenProving := by decide
  have hquiet : ∀ i, (run step (idle failedClaim) observedThenProving).calls i = .ret
    | 0 => rfl
    | 1 => rfl
    | _ + 2 => rfl
  exact held_claim_tracked failedClaim (by decide) observedThenProving hcare hquiet
    { state := .proving, claimedRootHash := exampleRoot, claimTxHash := "tx" } (by decide) (.inr rfl)

/-- The read after the flip fails; the repeat finds the session claimed and returns. -/
def rereadFails : List Act :=
  .start 0 (.onClaimObservedOnChain exampleRoot "tx") :: nexts 0 2 ++ [.next 0 .refused, .next 0 .ok] ++
    .start 0 (.onClaimObservedOnChain exampleRoot "tx") :: nexts 0 3

/-- The window's close is booked, the claim observed and tracked, and then the transition removes the entry. -/
def observedWithinTransition : List Act :=
  [.start 1 (.executeTransition .claimWindowClosed), .next 1 .ok] ++
    .start 0 (.onClaimObservedOnChain exampleRoot "tx") :: nexts 0 7 ++ [.next 1 .ok]

/-- The submission is accepted while the window's close is being booked. -/
def claimedAfterClose : List Act :=
  .start 1 (.executeTransition .claimWindowClosed) :: nexts 1 2 ++
    .start 0 (.onSessionClaimed exampleRoot "tx") :: nexts 0 2

theorem held_claim_untracked :
    (let c := run step (idle failedClaim) rereadFails;
      (∀ i, c.calls i = .ret) ∧ c.store.due = false ∧ c.store.key.map (·.state) = some .claimed ∧
        c.store.tracked = false) ∧
    (let c := run step (idle { key := some { state := .claiming }, tracked := true }) observedWithinTransition;
      (∀ i, c.calls i = .ret) ∧ c.store.due = false ∧ c.store.key.map (·.state) = some .claimed ∧
        c.store.tracked = false) ∧
    (let c := run step (idle { key := some { state := .claiming }, tracked := true }) claimedAfterClose;
      (∀ i, c.calls i = .ret) ∧ c.store.due = false ∧ c.store.key.map (·.state) = some .claimed ∧
        c.store.tracked = false) := by
  refine ⟨⟨fun i => ?_, by decide⟩, ⟨fun i => ?_, by decide⟩, fun i => ?_, by decide⟩
  · match i with
    | 0 => rfl
    | _ + 1 => rfl
  · match i with
    | 0 => rfl
    | 1 => rfl
    | _ + 2 => rfl
  match i with
  | 0 => rfl
  | 1 => rfl
  | _ + 2 => rfl

end RelayMiner.Lifecycle.Tracking
