import Mathlib.Data.List.Nodup
import RelayMiner.Inclusion.CachedBytes
import RelayMiner.Lib.Calls
/-!
# The inclusion reconciler

The pending payloads of one group (a supplier and a session end, in one phase) over
any blocks: the listing, the window, the on-chain answer, and for each entry its
verdict, its recording, its removal or its resend. Whatever is read or written may
fail. What happens is a log, and the store is what the log makes of it.
-/
open RelayMiner.Lib

namespace RelayMiner.Inclusion.Reconciler

open List

inductive Outcome where
  | found
  | missing
  | pollErr
  | rejected
  deriving DecidableEq

inductive InclusionVerdict where
  | missing
  | found
  | rejected

def claimPhaseVerdict (_ : SessionProofState) (present : Bool) : InclusionVerdict := if present then .found else .missing

def proofPhaseVerdict (state : SessionProofState) (_ : Bool) : InclusionVerdict :=
  match state with
  | .validated => .found
  | .rejected => .rejected
  | .unknown | .pending => .missing

def verdict (phase : RebroadcastPhase) (claim : Option SessionProofState) : InclusionVerdict :=
  match phase with
  | .claim => claimPhaseVerdict (claim.getD .unknown) claim.isSome
  | .proof => proofPhaseVerdict (claim.getD .unknown) claim.isSome

structure Windows where
  claimClose : Int
  proofClose : Int

def windowCloseHeight : RebroadcastPhase → Windows → Int
  | .claim, w => w.claimClose
  | .proof, w => w.proofClose

def claimPollRetryUntil (w : Windows) : Int := w.proofClose - 2

def pollRetryUntil : RebroadcastPhase → Windows → Option Int
  | .claim, w => some (claimPollRetryUntil w)
  | .proof, _ => none

structure Config where
  maxRebroadcasts : Option Nat := none
  rebroadcastSafetyBlocks : Nat := 0
  resubmitter : Bool := true

def canRebroadcast (cfg : Config) (e : Entry) (height windowClose : Int) : Bool :=
  (match cfg.maxRebroadcasts with
    | some cap => e.rebroadcasts < cap
    | none => true) &&
  e.submitHeight < height && height < windowClose - cfg.rebroadcastSafetyBlocks

/-! ## Recording an outcome -/

inductive Observed where
  | moved
  | rootUnusable
  | failed
  deriving DecidableEq

structure Recording where
  owned : Bool := true
  unmarshals : Bool := true
  observed : Observed := .moved
  tracked : Bool := true

/-- No error comes back. A claim that does not unmarshal or whose root is unusable is logged and given up. -/
def reactivateClaimedSession (r : Recording) : Bool := r.owned && (!r.unmarshals || r.observed ≠ .failed)

def markProvedSession (r : Recording) : Bool := r.owned && r.observed = .moved

/-- Nothing if the outcome could not be acted upon, else whether the tracker took it. The tracker's error does not rise. -/
def recordClaimOutcome (o : Outcome) (r : Recording) : Option Bool :=
  if o = .found ∧ reactivateClaimedSession r = false then none else some r.tracked

def recordProofOutcome (o : Outcome) (r : Recording) : Option Bool :=
  if o = .found ∧ markProvedSession r = false then none else some r.tracked

def recordOutcome : RebroadcastPhase → Outcome → Recording → Option Bool
  | .claim => recordClaimOutcome
  | .proof => recordProofOutcome

/-- An error rises only from a found outcome, so the other callers may discard it. -/
theorem recordOutcome_of_ne_found (phase : RebroadcastPhase) {o : Outcome} (r : Recording) (ho : o ≠ .found) :
    recordOutcome phase o r = some r.tracked := by
  cases phase <;> exact if_neg fun h => ho h.1

/-! ## What happens to the payloads -/

inductive Payload where
  | entry (e : Entry)
  | corrupt

inductive Event where
  | stored (id : SessionID) (raw : Payload)
  | expired
  | resent (id : SessionID) (e : Entry) (height windowClose : Int) (err : Option SendError)
  /-- `claim` is what the chain said of the session, if it answered. -/
  | recorded (id : SessionID) (o : Outcome) (height : Int) (windows : Windows) (claim : Option (Option SessionProofState))
    (tracked : Bool)
  | recordFailed (id : SessionID) (o : Outcome)
  | undecodable (id : SessionID)
  | notRequired (id : SessionID)
  | alreadyJudged (id : SessionID)
  | removed (id : SessionID)

abbrev Store := SessionID → Option Payload

def Store.after (s : Store) : Event → Store
  | .stored id raw => Function.update s id (some raw)
  | .removed id => Function.update s id none
  | .expired => fun _ => none
  | _ => s

def held (log : List Event) : Store := log.foldl Store.after fun _ => none

structure World where
  store : Store := fun _ => none
  lastHeight : Int := 0
  log : List Event := []

def World.add (w : World) (ev : Event) : World := { w with store := w.store.after ev, log := w.log ++ [ev] }

def World.put (w : World) (id : SessionID) (e : Entry) : Fault → World
  | .refused => w
  | .ok | .lost => w.add (.stored id (.entry e))

def World.clear (w : World) (id : SessionID) : Fault → World
  | .refused => w
  | .ok | .lost => w.add (.removed id)

/-! ## One group at one block -/

structure Turn where
  budget : Bool := true
  alive : Bool := true
  recording : Recording := {}
  delete : Fault := .ok
  resend : Resend
  put : Fault := .ok

/-- What one pass meets. The map of pending payloads is walked in any order, each session once. -/
structure Pass where
  height : Int
  active : Bool := true
  listed : Bool := true
  windows : Option Windows
  states : Option (SessionID → Option SessionProofState)
  order : List SessionID
  nodup : order.Nodup
  turn : SessionID → Turn

section

variable (cfg : Config) (txHashOf : Bytes → String) (phase : RebroadcastPhase)

/-- `recordOutcome` of the phase, and what it leaves in the log. -/
def record (w : World) (id : SessionID) (o : Outcome) (height : Int) (windows : Windows)
    (claim : Option (Option SessionProofState)) (r : Recording) : World × Bool :=
  match recordOutcome phase o r with
  | none => (w.add (.recordFailed id o), false)
  | some tracked => (w.add (.recorded id o height windows claim tracked), true)

/-- A reply that settles the proof removes the entry; after any other it is stored again. -/
def rebroadcast (w : World) (id : SessionID) (e : Entry) (height windowClose : Int) (t : Turn) : World :=
  if !cfg.resubmitter || !t.alive then w
  else
    let out := resubmitMessage txHashOf phase e windowClose t.resend
    let w := w.add (.resent id e height windowClose out.err)
    match out.err with
    | some (.proofNotRequired _) => (w.add (.notRequired id)).clear id t.delete
    | some .proofAlreadyJudged => (w.add (.alreadyJudged id)).clear id t.delete
    | _ => w.put id (e.afterResend height out) t.put

def dropCorrupt (w : World) (id : SessionID) (t : Turn) : World := (w.add (.undecodable id)).clear id t.delete

/-- The query failed with the window open. -/
def blindRebroadcast (height windowClose : Int) (t : Turn) (id : SessionID) (raw : Payload) (w : World) : World :=
  match raw with
  | .corrupt => dropCorrupt w id t
  | .entry e =>
    if canRebroadcast cfg e height windowClose then rebroadcast cfg txHashOf phase w id e height windowClose t else w

/-- The query failed with the window closed, and is not asked again. -/
def recordPollError (height : Int) (windows : Windows) (t : Turn) (id : SessionID) (raw : Payload) (w : World) : World :=
  match raw with
  | .corrupt => dropCorrupt w id t
  | .entry _ => (record phase w id .pollErr height windows none t.recording).1.clear id t.delete

/-- The chain answered: the entry is recorded and removed, resent, or left for the next block. -/
def reconcileEntry (height : Int) (windows : Windows) (claim : Option SessionProofState) (t : Turn) (id : SessionID)
    (raw : Payload) (w : World) : World :=
  match raw with
  | .corrupt => dropCorrupt w id t
  | .entry e =>
    match verdict phase claim with
    | .found =>
      let (w, ok) := record phase w id .found height windows (some claim) t.recording
      if ok then w.clear id t.delete else w
    | .rejected => (record phase w id .rejected height windows (some claim) t.recording).1.clear id t.delete
    | .missing =>
      let windowClose := windowCloseHeight phase windows
      if windowClose < height then (record phase w id .missing height windows (some claim) t.recording).1.clear id t.delete
      else if canRebroadcast cfg e height windowClose then rebroadcast cfg txHashOf phase w id e height windowClose t
      else w

/-- The pending payloads in turn, until the block's time is spent. -/
def walk (budget : SessionID → Bool) (f : SessionID → Payload → World → World) :
    List (SessionID × Payload) → World → World
  | [], w => w
  | (id, raw) :: rest, w => if budget id then walk budget f rest (f id raw w) else w

def pending (p : Pass) (w : World) : List (SessionID × Payload) :=
  p.order.filterMap fun id => (w.store id).map fun raw => (id, raw)

/-- The listing, the windows and the chain are read in turn, and each read may end the pass. -/
def reconcileGroup (p : Pass) (w : World) : World :=
  if !p.listed then w
  else
    match p.windows with
    | none => w
    | some windows =>
      let windowClose := windowCloseHeight phase windows
      match p.states with
      | none =>
        if p.height ≤ windowClose then
          walk (fun _ => true) (fun id => blindRebroadcast cfg txHashOf phase p.height windowClose (p.turn id) id)
            (pending p w) w
        else if (pollRetryUntil phase windows).any (p.height ≤ ·) then w
        else walk (fun _ => true) (fun id => recordPollError phase p.height windows (p.turn id) id) (pending p w) w
      | some states =>
        walk (fun id => (p.turn id).budget)
          (fun id => reconcileEntry cfg txHashOf phase p.height windows (states id) (p.turn id) id) (pending p w) w

/-- A height not past the last one is skipped. -/
def onBlock (p : Pass) (w : World) : World :=
  if p.height ≤ w.lastHeight then w
  else
    let w := { w with lastHeight := p.height }
    if p.active then reconcileGroup cfg txHashOf phase p w else w

inductive Act where
  | store (id : SessionID) (raw : Payload)
  | expire
  | restart
  | block (p : Pass)

def step (w : World) : Act → World
  | .store id raw => w.add (.stored id raw)
  | .expire => w.add .expired
  | .restart => { w with lastHeight := 0 }
  | .block p => onBlock cfg txHashOf phase p w

end

/-! ## What may happen -/

/-- Why an entry may be removed: the event its removal follows. -/
def Cause (phase : RebroadcastPhase) (id : SessionID) (past : List Event) : Event → Prop
  | .recorded id' o height windows claim _ => id' = id ∧
    match o, claim with
    | .found, some claim => verdict phase claim = .found
    | .rejected, some claim => verdict phase claim = .rejected
    | .missing, some claim => verdict phase claim = .missing ∧ windowCloseHeight phase windows < height
    | .pollErr, none => windowCloseHeight phase windows < height ∧ ∀ u ∈ pollRetryUntil phase windows, u < height
    | _, _ => False
  | .notRequired id' | .alreadyJudged id' => id' = id
  | .undecodable id' => id' = id ∧ held past id = some .corrupt
  | _ => False

/-- What each event follows. -/
def Rule (cfg : Config) (phase : RebroadcastPhase) (past : List Event) : Event → Prop
  | .removed id => ∃ ev, past.getLast? = some ev ∧ Cause phase id past ev
  | .resent id e height windowClose _ =>
    held past id = some (.entry e) ∧ e.submitHeight < height ∧ height < windowClose - cfg.rebroadcastSafetyBlocks
  -- The reply to the resend before it.
  | .notRequired id => phase = .proof ∧
    ∃ e height windowClose r, past.getLast? = some (.resent id e height windowClose (some (.proofNotRequired r)))
  | .alreadyJudged id => phase = .proof ∧
    ∃ e height windowClose, past.getLast? = some (.resent id e height windowClose (some .proofAlreadyJudged))
  | .recordFailed id o => o = .found ∧ ∃ e, held past id = some (.entry e)
  | _ => True

/-! ## The rule is kept by every event -/

section

variable {cfg : Config} {txHashOf : Bytes → String} {phase : RebroadcastPhase} {w w₁ w₂ : World} {id : SessionID}
  {ev : Event} {height : Int} {windows : Windows} {e : Entry} {raw : Payload}

structure Good (cfg : Config) (phase : RebroadcastPhase) (w : World) : Prop where
  store : w.store = held w.log
  rule : Each (Rule cfg phase) w.log

theorem held_snoc (log : List Event) (ev : Event) : held (log ++ [ev]) = (held log).after ev := by
  simp [held]

theorem Good.add (h : Good cfg phase w) (hr : Rule cfg phase w.log ev) : Good cfg phase (w.add ev) := by
  constructor
  · simp only [World.add, held_snoc, h.store]
  · refine (each_append w.log [ev]).2 ⟨h.rule, (each_singleton ev).2 ?_⟩
    simpa using hr

theorem Good.clear (h : Good cfg phase w) (hlast : w.log.getLast? = some ev) (hc : Cause phase id w.log ev)
    (f : Fault) : Good cfg phase (w.clear id f) := by
  cases f with
  | refused => exact h
  | ok | lost => exact h.add ⟨ev, hlast, hc⟩

theorem Good.put (h : Good cfg phase w) (id : SessionID) (e : Entry) (f : Fault) : Good cfg phase (w.put id e f) := by
  cases f with
  | refused => exact h
  | ok | lost => exact h.add trivial

@[simp] theorem getLast?_add (w : World) (ev : Event) : (w.add ev).log.getLast? = some ev := by
  simp [World.add]

/-! ## Whom an event is about -/

def Event.session : Event → Option SessionID
  | .expired => none
  | .stored id _ | .resent id _ _ _ _ | .recorded id _ _ _ _ _ | .recordFailed id _ | .undecodable id | .notRequired id
  | .alreadyJudged id | .removed id => some id

def Event.failed : Event → Bool
  | .recordFailed _ _ => true
  | _ => false

theorem after_of_ne (s : Store) (hev : ev.session = some id) {id' : SessionID} (hne : id' ≠ id) :
    s.after ev id' = s id' := by
  cases ev with
  | expired => cases hev
  | stored _ _ | removed _ =>
    cases hev
    simp [Store.after, Function.update_of_ne hne]
  | _ => rfl

structure Touches (id : SessionID) (w w' : World) : Prop where
  frame : ∀ id', id' ≠ id → w'.store id' = w.store id'
  log : ∃ new, w'.log = w.log ++ new ∧ ∀ ev ∈ new, ev.failed = false

theorem Touches.refl (id : SessionID) (w : World) : Touches id w w := ⟨fun _ _ => rfl, [], by simp, by simp⟩

theorem Touches.trans (h₁ : Touches id w w₁) (h₂ : Touches id w₁ w₂) : Touches id w w₂ := by
  obtain ⟨new₁, hlog₁, hnew₁⟩ := h₁.log
  obtain ⟨new₂, hlog₂, hnew₂⟩ := h₂.log
  refine ⟨fun id' hne => (h₂.frame id' hne).trans (h₁.frame id' hne), new₁ ++ new₂, ?_, ?_⟩
  · rw [hlog₂, hlog₁, append_assoc]
  · exact forall_mem_append.2 ⟨hnew₁, hnew₂⟩

theorem touches_add (w : World) (hev : ev.session = some id) (hf : ev.failed = false) :
    Touches id w (w.add ev) := by
  refine ⟨fun id' hne => after_of_ne w.store hev hne, [ev], rfl, ?_⟩
  intro ev' hev'
  rw [mem_singleton.1 hev']
  exact hf

theorem touches_clear (w : World) (id : SessionID) (f : Fault) : Touches id w (w.clear id f) := by
  cases f with
  | refused => exact Touches.refl id w
  | ok | lost => exact touches_add w rfl rfl

theorem touches_put (w : World) (id : SessionID) (e : Entry) (f : Fault) : Touches id w (w.put id e f) := by
  cases f with
  | refused => exact Touches.refl id w
  | ok | lost => exact touches_add w rfl rfl

structure Walked (ids : List SessionID) (w w' : World) : Prop where
  frame : ∀ id, id ∉ ids → w'.store id = w.store id
  log : ∃ new, w'.log = w.log ++ new ∧ ∀ id o, .recordFailed id o ∈ new → id ∈ ids ∧ w'.store id = w.store id

theorem Walked.refl (ids : List SessionID) (w : World) : Walked ids w w := ⟨fun _ _ => rfl, [], by simp, by simp⟩

theorem Touches.walked (h : Touches id w w₁) : Walked [id] w w₁ := by
  obtain ⟨new, hlog, hnew⟩ := h.log
  refine ⟨fun id' hid' => h.frame id' (by simpa using hid'), new, hlog, ?_⟩
  intro id' o hfail
  exact absurd (hnew _ hfail) (by simp [Event.failed])

theorem walked_recordFailed (w : World) (id : SessionID) (o : Outcome) : Walked [id] w (w.add (.recordFailed id o)) := by
  refine ⟨fun _ _ => rfl, [.recordFailed id o], rfl, ?_⟩
  intro id' o' hmem
  simp only [mem_singleton, Event.recordFailed.injEq] at hmem
  exact ⟨by simp [hmem.1], rfl⟩

/-- One more session, not among the rest, is handled first. -/
theorem Walked.cons {ids : List SessionID} (h₁ : Walked [id] w w₁) (h₂ : Walked ids w₁ w₂) (hid : id ∉ ids) :
    Walked (id :: ids) w w₂ := by
  obtain ⟨new₁, hlog₁, hnew₁⟩ := h₁.log
  obtain ⟨new₂, hlog₂, hnew₂⟩ := h₂.log
  refine ⟨fun id' hid' => ?_, new₁ ++ new₂, by rw [hlog₂, hlog₁, append_assoc], fun id' o hmem => ?_⟩
  · rw [mem_cons, not_or] at hid'
    rw [h₂.frame id' hid'.2, h₁.frame id' (by simpa using hid'.1)]
  rcases mem_append.1 hmem with hmem | hmem
  · obtain ⟨hin, hkept⟩ := hnew₁ id' o hmem
    rw [mem_singleton] at hin
    subst hin
    exact ⟨mem_cons_self, (h₂.frame id' hid).trans hkept⟩
  obtain ⟨hin, hkept⟩ := hnew₂ id' o hmem
  have hne : id' ≠ id := fun h => hid (h ▸ hin)
  exact ⟨mem_cons_of_mem id hin, hkept.trans (h₁.frame id' (by simpa using hne))⟩

/-! ## One entry -/

variable (cfg phase) in
/-- The work on `ids` keeps the log's rules and is theirs alone. -/
def Handles (ids : List SessionID) (w w' : World) : Prop := Good cfg phase w' ∧ Walked ids w w'

section
variable (hg : Good cfg phase w)
include hg

theorem addClear_spec (ev : Event) (hid : ev.session = some id) (hf : ev.failed = false)
    (hr : Rule cfg phase w.log ev) (hc : Cause phase id (w.log ++ [ev]) ev) (f : Fault) :
    Good cfg phase ((w.add ev).clear id f) ∧ Touches id w ((w.add ev).clear id f) := by
  constructor
  · exact (hg.add hr).clear (getLast?_add w ev) hc f
  · exact (touches_add w hid hf).trans (touches_clear _ id f)

theorem dropCorrupt_spec (hraw : w.store id = some .corrupt) (t : Turn) :
    Handles cfg phase [id] w (dropCorrupt w id t) := by
  have hheld : held (w.log ++ [.undecodable id]) id = some .corrupt := by
    rw [held_snoc, ← hg.store]
    exact hraw
  obtain ⟨hgood, htouch⟩ := addClear_spec hg (.undecodable id) rfl rfl trivial ⟨rfl, hheld⟩ t.delete
  exact ⟨hgood, htouch.walked⟩

theorem recorded_spec {o : Outcome} {claim : Option (Option SessionProofState)} {tracked : Bool}
    (hc : ∀ past, Cause phase id past (.recorded id o height windows claim tracked)) (t : Turn) :
    Handles cfg phase [id] w ((w.add (.recorded id o height windows claim tracked)).clear id t.delete) := by
  obtain ⟨hgood, htouch⟩ :=
    addClear_spec hg (.recorded id o height windows claim tracked) rfl rfl trivial (hc _) t.delete
  exact ⟨hgood, htouch.walked⟩

theorem recordClear_spec {o : Outcome} {claim : Option (Option SessionProofState)} (ho : o ≠ .found)
    (hc : ∀ past tracked, Cause phase id past (.recorded id o height windows claim tracked)) (t : Turn) :
    Handles cfg phase [id] w ((record phase w id o height windows claim t.recording).1.clear id t.delete) := by
  simp only [record, recordOutcome_of_ne_found phase t.recording ho]
  exact recorded_spec hg (fun past => hc past _) t

/-- A found outcome whose recording failed leaves the entry. -/
theorem recordFound_spec (hraw : w.store id = some (.entry e)) {claim : Option SessionProofState}
    (hfound : verdict phase claim = .found) (height : Int) (windows : Windows) (t : Turn) :
    let r := record phase w id .found height windows (some claim) t.recording
    Handles cfg phase [id] w (if r.2 then r.1.clear id t.delete else r.1) := by
  intro r
  cases hrec : recordOutcome phase .found t.recording with
  | none =>
    have hr : r = (w.add (.recordFailed id .found), false) := by simp only [r, record, hrec]
    rw [hr]
    have hrule : Rule cfg phase w.log (.recordFailed id .found) := ⟨rfl, e, by rw [← hg.store, hraw]⟩
    exact ⟨hg.add hrule, walked_recordFailed w id .found⟩
  | some tracked =>
    have hr : r = (w.add (.recorded id .found height windows (some claim) tracked), true) := by
      simp only [r, record, hrec]
    rw [hr]
    exact recorded_spec hg (fun _ => ⟨rfl, hfound⟩) t
end

theorem canRebroadcast_heights {windowClose : Int} (h : canRebroadcast cfg e height windowClose = true) :
    e.submitHeight < height ∧ height < windowClose - cfg.rebroadcastSafetyBlocks := by
  simp only [canRebroadcast, Bool.and_eq_true, decide_eq_true_eq] at h
  exact ⟨h.1.2, h.2⟩

theorem rebroadcast_spec (hg : Good cfg phase w) (hraw : w.store id = some (.entry e)) {windowClose : Int}
    (hcan : canRebroadcast cfg e height windowClose = true) (t : Turn) :
    Handles cfg phase [id] w (rebroadcast cfg txHashOf phase w id e height windowClose t) := by
  unfold rebroadcast
  split_ifs
  · exact ⟨hg, Walked.refl [id] w⟩
  have hresent (err) : Good cfg phase (w.add (.resent id e height windowClose err)) :=
    hg.add ⟨by rw [← hg.store, hraw], canRebroadcast_heights hcan⟩
  have htouch (err) : Touches id w (w.add (.resent id e height windowClose err)) := touches_add w rfl rfl
  -- The chain's answer that ends it comes to a proof only.
  have hproof : ∀ err, (resubmitMessage txHashOf phase e windowClose t.resend).err = some err →
      err.settles = true → phase = .proof := by
    intro err herr hset
    have hout : (resubmitMessage txHashOf phase e windowClose t.resend).settles = true := by
      simpa only [Resubmitted.settles, herr] using hset
    exact phase_of_settles txHashOf hout
  dsimp only
  split
  next r herr =>
    rw [herr]
    obtain ⟨hgood, hclear⟩ := addClear_spec (hresent _) (.notRequired id) rfl rfl
      ⟨hproof _ herr rfl, e, height, windowClose, r, getLast?_add w _⟩ rfl t.delete
    exact ⟨hgood, ((htouch _).trans hclear).walked⟩
  next herr =>
    rw [herr]
    obtain ⟨hgood, hclear⟩ := addClear_spec (hresent _) (.alreadyJudged id) rfl rfl
      ⟨hproof _ herr rfl, e, height, windowClose, getLast?_add w _⟩ rfl t.delete
    exact ⟨hgood, ((htouch _).trans hclear).walked⟩
  · exact ⟨(hresent _).put id _ t.put, ((htouch _).trans (touches_put _ id _ t.put)).walked⟩

theorem blindRebroadcast_spec (hg : Good cfg phase w) (hraw : w.store id = some raw) (height windowClose : Int)
    (t : Turn) : Handles cfg phase [id] w (blindRebroadcast cfg txHashOf phase height windowClose t id raw w) := by
  cases raw with
  | corrupt => exact dropCorrupt_spec hg hraw t
  | entry e =>
    simp only [blindRebroadcast]
    split_ifs with hcan
    · exact rebroadcast_spec hg hraw hcan t
    · exact ⟨hg, Walked.refl [id] w⟩

theorem recordPollError_spec (hg : Good cfg phase w) (hraw : w.store id = some raw)
    (hclosed : windowCloseHeight phase windows < height) (huntil : ∀ u ∈ pollRetryUntil phase windows, u < height)
    (t : Turn) : Handles cfg phase [id] w (recordPollError phase height windows t id raw w) := by
  cases raw with
  | corrupt => exact dropCorrupt_spec hg hraw t
  | entry e =>
    refine recordClear_spec hg (by decide) (fun _ _ => ?_) t
    exact ⟨rfl, hclosed, huntil⟩

theorem reconcileEntry_spec (hg : Good cfg phase w) (hraw : w.store id = some raw) (height : Int)
    (windows : Windows) (claim : Option SessionProofState) (t : Turn) :
    Handles cfg phase [id] w (reconcileEntry cfg txHashOf phase height windows claim t id raw w) := by
  cases raw with
  | corrupt => exact dropCorrupt_spec hg hraw t
  | entry e =>
    simp only [reconcileEntry]
    cases hverdict : verdict phase claim with
    | found => exact recordFound_spec hg hraw hverdict height windows t
    | rejected => exact recordClear_spec hg (by decide) (fun _ _ => ⟨rfl, hverdict⟩) t
    | missing =>
      dsimp only
      split_ifs with hclosed hcan
      · refine recordClear_spec hg (by decide) (fun _ _ => ?_) t
        exact ⟨rfl, hverdict, hclosed⟩
      · exact rebroadcast_spec hg hraw hcan t
      · exact ⟨hg, Walked.refl [id] w⟩

/-! ## A pass -/

/-- The walk handles each payload as it was listed: nothing before it touched its session. -/
theorem walk_spec (budget : SessionID → Bool) {f : SessionID → Payload → World → World}
    (hf : ∀ id raw w, Good cfg phase w → w.store id = some raw → Handles cfg phase [id] w (f id raw w))
    (todo : List (SessionID × Payload)) (hn : (todo.map (·.1)).Nodup) (w : World) (hg : Good cfg phase w)
    (hs : ∀ q ∈ todo, w.store q.1 = some q.2) :
    Handles cfg phase (todo.map (·.1)) w (walk budget f todo w) := by
  induction todo generalizing w with
  | nil => exact ⟨hg, Walked.refl [] w⟩
  | cons q rest ih =>
    obtain ⟨id, raw⟩ := q
    rw [map_cons, nodup_cons] at hn
    simp only [walk]
    split_ifs
    · obtain ⟨hg₁, hw₁⟩ := hf id raw w hg (hs (id, raw) mem_cons_self)
      have hs₁ : ∀ q ∈ rest, (f id raw w).store q.1 = some q.2 := by
        intro q hq
        have hne : q.1 ≠ id := by
          intro h
          exact hn.1 (mem_map.2 ⟨q, hq, h⟩)
        rw [hw₁.frame q.1 (by simpa using hne)]
        exact hs q (mem_cons_of_mem _ hq)
      obtain ⟨hg₂, hw₂⟩ := ih hn.2 _ hg₁ hs₁
      exact ⟨hg₂, hw₁.cons hw₂ hn.1⟩
    · exact ⟨hg, Walked.refl _ w⟩

theorem pending_store {p : Pass} {q : SessionID × Payload} (hq : q ∈ pending p w) : w.store q.1 = some q.2 := by
  obtain ⟨id, -, hid⟩ := mem_filterMap.1 hq
  obtain ⟨raw, hraw, rfl⟩ := Option.map_eq_some_iff.1 hid
  exact hraw

theorem pending_nodup (p : Pass) (w : World) : ((pending p w).map (·.1)).Nodup := by
  have hsub : ∀ order : List SessionID,
      ((order.filterMap fun id => (w.store id).map fun raw => (id, raw)).map (·.1)).Sublist order := by
    intro order
    induction order with
    | nil => exact List.Sublist.slnil
    | cons id order ih =>
      cases h : w.store id with
      | none => simpa [h] using ih.cons id
      | some raw => simpa [h] using ih.cons_cons id
  exact (hsub p.order).nodup p.nodup

theorem reconcileGroup_spec (txHashOf : Bytes → String) (hg : Good cfg phase w) (p : Pass) :
    ∃ ids, Handles cfg phase ids w (reconcileGroup cfg txHashOf phase p w) := by
  have hskip : ∃ ids, Handles cfg phase ids w w := ⟨[], hg, Walked.refl [] w⟩
  have hwalk : ∀ budget (f : SessionID → Payload → World → World),
      (∀ id raw w, Good cfg phase w → w.store id = some raw →
        Handles cfg phase [id] w (f id raw w)) →
      ∃ ids, Handles cfg phase ids w (walk budget f (pending p w) w) :=
    fun budget f hf => ⟨_, walk_spec budget hf _ (pending_nodup p w) w hg fun q hq => pending_store hq⟩
  unfold reconcileGroup
  split_ifs
  · exact hskip
  split
  · exact hskip
  next windows _ =>
    dsimp only
    split
    · split_ifs with hopen huntil
      · exact hwalk _ _ fun id raw w hg hraw => blindRebroadcast_spec hg hraw _ _ _
      · exact hskip
      · have hlate : ∀ u ∈ pollRetryUntil phase windows, u < p.height := by
          intro u hu
          rw [Option.mem_def] at hu
          simpa [hu] using huntil
        exact hwalk _ _ fun id raw w hg hraw => recordPollError_spec hg hraw (by omega) hlate _
    · exact hwalk _ _ fun id raw w hg hraw => reconcileEntry_spec hg hraw _ _ _ _

/-! ## Every run -/

theorem step_spec (txHashOf : Bytes → String) (hg : Good cfg phase w) (a : Act) :
    Good cfg phase (step cfg txHashOf phase w a) ∧
      ∃ new, (step cfg txHashOf phase w a).log = w.log ++ new ∧
        ∀ id o, .recordFailed id o ∈ new → (step cfg txHashOf phase w a).store id = w.store id := by
  cases a with
  | store id raw => exact ⟨hg.add trivial, [.stored id raw], rfl, by simp⟩
  | expire => exact ⟨hg.add trivial, [.expired], rfl, by simp⟩
  | restart => exact ⟨⟨hg.store, hg.rule⟩, [], by simp [step], by simp⟩
  | block p =>
    simp only [step, onBlock]
    split_ifs
    · exact ⟨hg, [], by simp, by simp⟩
    · have hg' : Good cfg phase { w with lastHeight := p.height } := ⟨hg.store, hg.rule⟩
      obtain ⟨ids, hgood, hwalked⟩ := reconcileGroup_spec txHashOf hg' p
      obtain ⟨new, hlog, hnew⟩ := hwalked.log
      exact ⟨hgood, new, hlog, fun id o hmem => (hnew id o hmem).2⟩
    · exact ⟨⟨hg.store, hg.rule⟩, [], by simp, by simp⟩

theorem good_empty : Good cfg phase {} := ⟨rfl, each_nil⟩

end

/-- In every run the store holds what the log leaves; each removal follows at once the record of the outcome, the
chain's answer or the failed decoding that is its cause; each resend is of an entry the store holds, after its submit
height and before the close of the window less the safety margin; and a pass in which the recording of a found outcome
fails leaves the entry where it is. -/
theorem pending_entry_never_abandoned (cfg : Config) (txHashOf : Bytes → String) (phase : RebroadcastPhase)
    (acts : List Act) :
    let w := run (step cfg txHashOf phase) {} acts
    w.store = held w.log ∧ Each (Rule cfg phase) w.log ∧
      ∀ a, ∃ new, (step cfg txHashOf phase w a).log = w.log ++ new ∧
        ∀ id o, .recordFailed id o ∈ new → (step cfg txHashOf phase w a).store id = w.store id := by
  intro w
  have hg : Good cfg phase w :=
    inv_of_run (Good cfg phase) (fun w a hw => (step_spec txHashOf hw a).1) acts good_empty
  exact ⟨hg.store, hg.rule, fun a => (step_spec txHashOf hg a).2⟩

end RelayMiner.Inclusion.Reconciler
