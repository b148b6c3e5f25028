import RelayMiner.Lifecycle.Transitions
/-!
# The passes of the lifecycle manager

`checkSessionTransitions` over all the sessions a manager tracks: the filter on
what is in memory, the read of each session that passes it, the verdict, and the
groups that are handed to the pool. What the store, the chain and the callbacks
answer in a pass is the pass's own data, so that any read of it may fail. A
session that is not tracked is never looked at again by this manager.
-/
open RelayMiner.Lib RelayMiner.Session

namespace RelayMiner.Lifecycle.Passes

open List

structure Session where
  snap : SessionSnapshot
  sessionEndHeight : Int

inductive Read where
  | failed
  | absent
  | found (s : Session)

structure Pass (κ : Type) where
  height : Nat
  params : Int → Option Windows
  get : κ → Read
  observe : Option (κ → Except Unit Bool)
  reread : κ → Read
  persisted : κ → Bool

inductive Task (κ : Type) where
  | claim (ids : List κ)
  | proof (ids : List κ)
  | terminal (id : κ) (newState : SessionState)

structure Manager (κ : Type) where
  activeSessions : List (κ × Session) := []
  resumedUnsentClaims : List κ := []
  pool : List (Task κ) := []

def sessionMightNeedTransition (s : Session) (height : Nat) (params : Option Windows) : Bool :=
  if s.snap.state.isTerminal then true
  else
    match params with
    | none => true
    | some w =>
      match s.snap.state with
      | .active => w.claimOpen ≤ height
      | .claimed => w.proofOpen ≤ height
      | _ => true

/-- The filter keeps every session that its state in memory has something due for. -/
theorem mightNeed_of_determineTransition {s : Session} {height : Nat} {params : Option Windows}
    (h : determineTransition s.snap height params ≠ none) : sessionMightNeedTransition s height params = true := by
  cases params with
  | none => exact absurd rfl h
  | some w =>
    have hclaim := w.claim_lt
    have hproof := w.proof_lt
    unfold sessionMightNeedTransition
    unfold determineTransition at h
    cases hs : s.snap.state with
    | active =>
      simp only [hs] at h
      have hopen : w.claimOpen ≤ height := by
        by_contra hlt
        rw [if_neg (by omega), if_neg hlt] at h
        exact h rfl
      simp [hopen]
    | claimed =>
      simp only [hs] at h
      have hopen : w.proofOpen ≤ height := by
        by_contra hlt
        rw [if_neg (by omega), if_neg hlt] at h
        exact h rfl
      simp [hopen]
    | _ => simp

section

variable {κ : Type}

def Manager.tracked (m : Manager κ) (id : κ) : Prop := id ∈ m.activeSessions.map Prod.fst

def Manager.candidates (m : Manager κ) (p : Pass κ) : List κ :=
  (m.activeSessions.filter fun e => sessionMightNeedTransition e.2 p.height (p.params e.2.sessionEndHeight)).map Prod.fst

theorem tracked_of_candidate {m : Manager κ} {p : Pass κ} {id : κ} (h : id ∈ m.candidates p) : m.tracked id := by
  obtain ⟨e, he, rfl⟩ := mem_map.1 h
  exact mem_map.2 ⟨e, (mem_filter.1 he).1, rfl⟩

variable [DecidableEq κ]

namespace Manager

instance (m : Manager κ) (id : κ) : Decidable (m.tracked id) := inferInstanceAs (Decidable (_ ∈ _))

def delete (m : Manager κ) (id : κ) : Manager κ :=
  { m with
    activeSessions := m.activeSessions.filter (·.1 ≠ id)
    resumedUnsentClaims := m.resumedUnsentClaims.filter (· ≠ id) }

def store (m : Manager κ) (id : κ) (s : Session) : Manager κ :=
  { m with activeSessions := (id, s) :: m.activeSessions.filter (·.1 ≠ id) }

def forgetResumed (m : Manager κ) (id : κ) : Manager κ :=
  { m with resumedUnsentClaims := m.resumedUnsentClaims.filter (· ≠ id) }

def askForClaim (m : Manager κ) (p : Pass κ) (id : κ) (claimClose : Nat) : Manager κ × Bool :=
  if !claimReadIsFinal p.height claimClose then (m, false)
  else
    match p.observe with
    | none => (m.forgetResumed id, true)
    | some observer =>
      match observer id with
      | .error _ => (m, false)
      | .ok false => (m.forgetResumed id, true)
      | .ok true =>
        match p.reread id with
        | .found fresh => ((m.forgetResumed id).store id fresh, false)
        | _ => (m.forgetResumed id, false)

def examine (m : Manager κ) (p : Pass κ) (id : κ) : Manager κ × Option SessionState :=
  match p.get id with
  | .failed | .absent => (m.delete id, none)
  | .found s =>
    if s.snap.state.isTerminal then (m.delete id, none)
    else
      let params := p.params s.sessionEndHeight
      match determineTransition s.snap p.height params, params with
      | some (.claimWindowClosed, _), some w =>
        if mayHaveClaimOnChain s.snap (id ∈ m.resumedUnsentClaims) then
          let (m, booked) := m.askForClaim p id w.claimClose
          (m, if booked then some .claimWindowClosed else none)
        else (m, some .claimWindowClosed)
      | some (newState, _), _ => if newState = s.snap.state then (m, none) else (m, some newState)
      | none, _ => (m, none)

def sweep (p : Pass κ) : Manager κ → List κ → Manager κ × List (κ × SessionState)
  | m, [] => (m, [])
  | m, id :: ids =>
    let (m, verdict) := m.examine p id
    let (m, verdicts) := sweep p m ids
    (m, verdict.toList.map (id, ·) ++ verdicts)

end Manager

def Pass.batch (p : Pass κ) (state : SessionState) (verdicts : List (κ × SessionState)) : List κ :=
  (verdicts.filter fun v => v.2 = state ∧ p.persisted v.1).map Prod.fst

def Pass.tasks (p : Pass κ) (verdicts : List (κ × SessionState)) : List (Task κ) :=
  let claims := p.batch .claiming verdicts
  let proofs := p.batch .proving verdicts
  (if claims = [] then [] else [.claim claims]) ++ (if proofs = [] then [] else [.proof proofs]) ++
    (verdicts.filter (·.2.isTerminal)).map fun v => .terminal v.1 v.2

def Manager.checkSessionTransitions (m : Manager κ) (p : Pass κ) : Manager κ :=
  let (m', verdicts) := Manager.sweep p m (m.candidates p)
  { m' with pool := m'.pool ++ p.tasks verdicts }

def Task.ends (done : κ → Bool) : Task κ → List κ
  | .claim _ => []
  | .proof ids => ids.filter done
  | .terminal id newState => if done id ∧ newState.isTerminal then [id] else []

inductive Act (κ : Type) where
  | track (id : κ) (s : Session)
  | removeSession (id : κ)
  | checkSessionTransitions (p : Pass κ)
  | execute (i : Nat) (done : κ → Bool)

/-- A session is tracked or removed, a pass is made, or a pooled transition runs. -/
def step (m : Manager κ) : Act κ → Manager κ
  | .track id s => m.store id s
  | .removeSession id => m.delete id
  | .checkSessionTransitions p => m.checkSessionTransitions p
  | .execute i done =>
    match m.pool[i]? with
    | none => m
    | some t => (t.ends done).foldl Manager.delete { m with pool := m.pool.eraseIdx i }

/-! ## The filter -/

def Skipped (p : Pass κ) (s : Session) : Prop :=
  sessionMightNeedTransition s p.height (p.params s.sessionEndHeight) = false

theorem examine_of_skipped {p : Pass κ} {id : κ} {s : Session} (hget : p.get id = .found s) (h : Skipped p s)
    (m : Manager κ) : m.examine p id = (m, none) := by
  have hdue : determineTransition s.snap p.height (p.params s.sessionEndHeight) = none := by
    by_contra hne
    exact Bool.false_ne_true (h.symm.trans (mightNeed_of_determineTransition hne))
  have hterm : s.snap.state.isTerminal = false := by
    by_contra hne
    simp [Skipped, sessionMightNeedTransition, hne] at h
  simp [Manager.examine, hget, hterm, hdue]

/-- A pass that reads every tracked session makes the same verdicts and leaves the same sessions tracked, as long as
the store has what the filter skips in a record the filter skips too. -/
theorem checkSessionTransitions_filter (m : Manager κ) (p : Pass κ)
    (h : ∀ e ∈ m.activeSessions, Skipped p e.2 → ∃ s, p.get e.1 = .found s ∧ Skipped p s) :
    Manager.sweep p m (m.candidates p) = Manager.sweep p m (m.activeSessions.map Prod.fst) := by
  unfold Manager.candidates
  generalize m.activeSessions = es at h
  induction es generalizing m with
  | nil => rfl
  | cons e es ih =>
    have hrest := fun m => ih m (forall_mem_cons.1 h).2
    cases hmight : sessionMightNeedTransition e.2 p.height (p.params e.2.sessionEndHeight) with
    | true => simp [hmight, Manager.sweep, hrest]
    | false =>
      obtain ⟨s, hget, hs⟩ := h e mem_cons_self hmight
      simp [hmight, Manager.sweep, hrest, examine_of_skipped hget hs]

/-- A session whose claim window is open moves on, beside one that waits for its proof window. -/
theorem checkSessionTransitions_filter_waiting :
    let due : Session := ⟨{ state := .active }, 0⟩
    let waiting : Session := ⟨{ state := .claimed }, 0⟩
    let pass : Pass Nat :=
      { height := 15, params := fun _ => some .spaced, get := fun id => .found (if id = 0 then due else waiting)
        observe := none, reread := fun _ => .failed, persisted := fun _ => true }
    let m : Manager Nat := { activeSessions := [(0, due), (1, waiting)] }
    (Manager.sweep pass m (m.candidates pass)).2 = [(0, .claiming)] ∧ m.candidates pass = [0] ∧
      Manager.sweep pass m (m.candidates pass) = Manager.sweep pass m (m.activeSessions.map Prod.fst) := by
  refine ⟨rfl, rfl, checkSessionTransitions_filter _ _ (forall_mem_cons.2 ⟨fun h => ?_, ?_⟩)⟩
  · exact absurd (show true = false from h) (by decide)
  · exact forall_mem_singleton.2 fun _ => ⟨_, rfl, rfl⟩

/-! ## The rule -/

def Read.Over : Read → Prop
  | .absent => True
  | .found s => s.snap.state.isTerminal = true
  | .failed => False

/-- Why a step may let a session go: the store's answer in a pass, or the manager's own removal of it. -/
def Explained (m : Manager κ) (id : κ) : Act κ → Prop
  | .track _ _ => False
  | .removeSession id' => id' = id
  | .checkSessionTransitions p => id ∈ m.candidates p ∧ (p.get id).Over
  | .execute i done => ∃ t ∈ m.pool[i]?, id ∈ t.ends done

/-- A session whose read failed is still tracked, and the passes at later heights read it. -/
def Retried (m : Manager κ) : Act κ → Prop
  | .checkSessionTransitions p => ∀ id ∈ m.candidates p, p.get id = .failed →
      (m.checkSessionTransitions p).tracked id ∧ ∀ later : Pass κ, p.height ≤ later.height → p.params = later.params →
        id ∈ (m.checkSessionTransitions p).candidates later
  | _ => True

def Keeps (m : Manager κ) (a : Act κ) : Prop :=
  (∀ id, m.tracked id → ¬ (step m a).tracked id → Explained m id a) ∧ Retried m a

def ReadsAnswered (m : Manager κ) : Act κ → Prop
  | .checkSessionTransitions p => ∀ id ∈ m.candidates p, p.get id ≠ .failed
  | _ => True

/-! ## What a pass does to the tracked set -/

def Read.Drops : Read → Prop
  | .failed => True
  | r => r.Over

variable {m : Manager κ} {p : Pass κ}

theorem tracked_delete (m : Manager κ) (id id' : κ) : (m.delete id).tracked id' ↔ m.tracked id' ∧ id' ≠ id := by
  simp only [Manager.tracked, Manager.delete, mem_map, mem_filter, decide_eq_true_eq]
  constructor
  · rintro ⟨e, ⟨he, hne⟩, rfl⟩
    exact ⟨⟨e, he, rfl⟩, hne⟩
  · rintro ⟨⟨e, he, rfl⟩, hne⟩
    exact ⟨e, ⟨he, hne⟩, rfl⟩

theorem tracked_store (m : Manager κ) (id : κ) (s : Session) (id' : κ) :
    (m.store id s).tracked id' ↔ id' = id ∨ m.tracked id' := by
  have h : (m.store id s).tracked id' ↔ id' = id ∨ (m.delete id).tracked id' := by
    simp only [Manager.tracked, Manager.store, Manager.delete, map_cons, mem_cons]
  rw [h, tracked_delete]
  tauto

theorem tracked_deleteAll (m : Manager κ) (ids : List κ) (id : κ) :
    (ids.foldl Manager.delete m).tracked id ↔ m.tracked id ∧ id ∉ ids := by
  induction ids generalizing m with
  | nil => simp
  | cons id' ids ih =>
    rw [foldl_cons, ih, tracked_delete, mem_cons]
    tauto

/-- Asking the chain keeps a tracked session tracked, and touches no other. -/
theorem tracked_askForClaim {id : κ} (h : m.tracked id) (claimClose : Nat) (id' : κ) :
    (m.askForClaim p id claimClose).1.tracked id' ↔ m.tracked id' := by
  unfold Manager.askForClaim
  split
  · rfl
  split
  · rfl
  split
  · rfl
  · rfl
  split
  · rw [tracked_store]
    exact ⟨fun hor => hor.elim (fun heq => heq ▸ h) (fun h' => h'), .inr⟩
  · rfl

/-- A turn of the loop lets its session go exactly if the read does. -/
theorem tracked_examine {id : κ} (h : m.tracked id ∨ (p.get id).Drops) (id' : κ) :
    (m.examine p id).1.tracked id' ↔ m.tracked id' ∧ ¬ (id' = id ∧ (p.get id).Drops) := by
  have hdrop : (p.get id).Drops → ((m.delete id).tracked id' ↔ m.tracked id' ∧ ¬ (id' = id ∧ (p.get id).Drops)) := by
    rw [tracked_delete]
    tauto
  have hkeep : ¬ (p.get id).Drops → (m.tracked id' ↔ m.tracked id' ∧ ¬ (id' = id ∧ (p.get id).Drops)) := by
    tauto
  unfold Manager.examine
  cases hg : p.get id with
  | failed | absent =>
    rw [hg] at hdrop
    exact hdrop trivial
  | found s =>
    rw [hg] at h hdrop hkeep
    by_cases hterm : s.snap.state.isTerminal = true
    · simp only [hterm, if_true]
      exact hdrop hterm
    have hlive : ¬ (Read.found s).Drops := hterm
    have ht : m.tracked id := h.resolve_right hlive
    simp only [hterm, Bool.false_eq_true, if_false]
    split
    · split
      · exact (tracked_askForClaim ht _ _).trans (hkeep hlive)
      · exact hkeep hlive
    · split
      · exact hkeep hlive
      · exact hkeep hlive
    · exact hkeep hlive

theorem tracked_sweep (ids : List κ) (h : ∀ id ∈ ids, m.tracked id ∨ (p.get id).Drops) (id : κ) :
    (Manager.sweep p m ids).1.tracked id ↔ m.tracked id ∧ ¬ (id ∈ ids ∧ (p.get id).Drops) := by
  induction ids generalizing m with
  | nil => simp [Manager.sweep]
  | cons a ids ih =>
    have hexamine := tracked_examine (h a mem_cons_self)
    have hrest : ∀ b ∈ ids, (m.examine p a).1.tracked b ∨ (p.get b).Drops := by
      intro b hb
      by_cases hd : (p.get b).Drops
      · exact .inr hd
      refine .inl ((hexamine b).2 ⟨(h b (mem_cons_of_mem a hb)).resolve_right hd, ?_⟩)
      rintro ⟨rfl, hd'⟩
      exact hd hd'
    simp only [Manager.sweep]
    rw [ih hrest, hexamine, mem_cons]
    constructor
    · rintro ⟨⟨ht, hna⟩, hnb⟩
      refine ⟨ht, ?_⟩
      rintro ⟨rfl | hb, hd⟩
      · exact hna ⟨rfl, hd⟩
      · exact hnb ⟨hb, hd⟩
    rintro ⟨ht, hn⟩
    refine ⟨⟨ht, ?_⟩, fun ⟨hb, hd⟩ => hn ⟨.inr hb, hd⟩⟩
    rintro ⟨rfl, hd⟩
    exact hn ⟨.inl rfl, hd⟩

/-- A pass lets a session go exactly if it reads it and the read drops it. -/
theorem tracked_checkSessionTransitions (m : Manager κ) (p : Pass κ) (id : κ) :
    (m.checkSessionTransitions p).tracked id ↔ m.tracked id ∧ ¬ (id ∈ m.candidates p ∧ (p.get id).Drops) :=
  tracked_sweep (m.candidates p) (fun _ h => .inl (tracked_of_candidate h)) id

/-! ## When the rule holds -/

theorem over_of_drops {r : Read} (h : r.Drops) (hr : r ≠ .failed) : r.Over := by
  cases r with
  | failed => exact absurd rfl hr
  | absent | found => exact h

/-- A pass keeps the rule exactly if the store answered all its reads. -/
theorem keeps_pass_iff (m : Manager κ) (p : Pass κ) :
    Keeps m (.checkSessionTransitions p) ↔ ReadsAnswered m (.checkSessionTransitions p) := by
  constructor
  · rintro ⟨-, hretried⟩ id hid hfailed
    have htracked := (hretried id hid hfailed).1
    exact ((tracked_checkSessionTransitions m p id).1 htracked).2 ⟨hid, hfailed ▸ trivial⟩
  intro hanswered
  refine ⟨fun id ht hn => ?_, fun id hid hfailed => absurd hfailed (hanswered id hid)⟩
  have hdrops : id ∈ m.candidates p ∧ (p.get id).Drops := by
    by_contra hnot
    exact hn ((tracked_checkSessionTransitions m p id).2 ⟨ht, hnot⟩)
  exact ⟨hdrops.1, over_of_drops hdrops.2 (hanswered id hdrops.1)⟩

theorem keeps_iff (m : Manager κ) (a : Act κ) : Keeps m a ↔ ReadsAnswered m a := by
  cases a with
  | checkSessionTransitions p => exact keeps_pass_iff m p
  | track id s =>
    exact ⟨fun _ => trivial, fun _ => ⟨fun id' ht hn => hn ((tracked_store m id s id').2 (.inr ht)), trivial⟩⟩
  | removeSession id =>
    refine ⟨fun _ => trivial, fun _ => ⟨fun id' ht hn => ?_, trivial⟩⟩
    by_contra hne
    exact hn ((tracked_delete m id id').2 ⟨ht, fun heq => hne heq.symm⟩)
  | execute i done =>
    refine ⟨fun _ => trivial, fun _ => ⟨fun id ht hn => ?_, trivial⟩⟩
    simp only [step] at hn
    split at hn
    · exact absurd ht hn
    next t hpool =>
      refine ⟨t, hpool, ?_⟩
      by_contra hnot
      exact hn ((tracked_deleteAll _ _ id).2 ⟨ht, hnot⟩)

/-- Along a run every step keeps the rule (a tracked session goes only by the store's answer in that pass or by the
manager's own removal, and one whose read failed stays and is read again) exactly if the store answers every read with
which a pass begins on a session. -/
theorem keeps_rule_iff_reads_answered (as : List (Act κ)) : Meets step Keeps {} as ↔ Meets step ReadsAnswered {} as :=
  ⟨Meets.imp fun m a => (keeps_iff m a).1, Meets.imp fun m a => (keeps_iff m a).2⟩

end

/-- A claimed session is tracked; at the height its proof is due the store times out once, and it is tracked no more. -/
theorem failed_read_forgets_session :
    let windows : Windows := ⟨10, 20, 20, 30, by decide, by decide, by decide⟩
    let pass : Pass Nat :=
      { height := 20, params := fun _ => some windows, get := fun _ => .failed, observe := none
        reread := fun _ => .failed, persisted := fun _ => true }
    let m := run step {} [.track 0 ⟨{ state := .claimed }, 5⟩]
    m.tracked 0 ∧ 0 ∈ m.candidates pass ∧ ¬ (step m (.checkSessionTransitions pass)).tracked 0 ∧
      ¬ Keeps m (.checkSessionTransitions pass) := by
  refine ⟨by decide, by decide, by decide, fun h => ?_⟩
  exact (keeps_pass_iff _ _).1 h 0 (by decide) rfl

end RelayMiner.Lifecycle.Passes
