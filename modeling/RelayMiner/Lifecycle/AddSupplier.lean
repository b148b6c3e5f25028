import RelayMiner.Lifecycle.Writes
import RelayMiner.Lifecycle.Transitions
/-!
# A supplier is added

`addSupplierWithData` with the start of its lifecycle manager, the load of the
sessions it finds stored and the resume of each of them, and after it the relays
of its consumer, which create sessions. Each action is one call on the chain or
the store, with its answer; other processes write the sessions and the index at
any time in between.
-/
open RelayMiner.Lib RelayMiner.Session Function

namespace RelayMiner.Lifecycle.AddSupplier

open List

/-! ## The add -/

structure Clients where
  txClient : Bool
  blockClient : Bool
  sharedClient : Bool

def Clients.configured (c : Clients) : Bool := c.txClient && c.blockClient && c.sharedClient

inductive Stage where
  | idle
  | failed
  | starting
  | listing
  | fetching (ids : List SessionID) (sessions : List (SessionID × SessionSnapshot))
  | loading (sessions : List (SessionID × SessionSnapshot))
  | inserting
  | overtaken
  | consuming
  deriving DecidableEq

structure Load where
  id : SessionID
  read : SessionSnapshot
  copy : SessionSnapshot
  reply : Option Reply
  stored : Option SessionState

structure World where
  sessions : SessionID → Option SessionSnapshot
  index : List SessionID
  stage : Stage := .idle
  running : Bool := false
  activeSessions : SessionID → Option SessionSnapshot := fun _ => none
  resumedUnsentClaims : SessionID → Bool := fun _ => false
  acked : List SessionID := []
  -- What happened, for the statements.
  owed : List SessionID := []
  reached : Bool := false
  listed : List SessionID := []
  fetched : List (SessionID × Option SessionSnapshot) := []
  loaded : List Load := []
  created : List SessionID := []
  answered : List SessionID := []
  ended : List SessionID := []
  unread : List SessionID := []

structure Delivery where
  asks : Bool := true
  found : Bool := false
  metadata : Bool := true
  create : Fault := .ok
  indexed : Bool := true
  acks : Bool := true

inductive Action where
  | add (present opened : Bool)
  | params (ok : Bool)
  | list (ok : Bool)
  | fetch (ok : Bool)
  | load (f : Fault)
  | insert (taken : Bool)
  | relay (id : SessionID) (d : Delivery)
  | refresh (id : SessionID) (s : SessionSnapshot)
  /-- A pass looks at the session again, or its terminal write was taken; `ok` is whether it was read. -/
  | release (id : SessionID) (ok : Bool)
  | write (id : SessionID) (s : Option SessionSnapshot)
  | reindex (ids : List SessionID)

def isRunning : Option SessionSnapshot → Bool
  | some s => !s.state.isTerminal
  | none => false

def World.track (w : World) (id : SessionID) (s : SessionSnapshot) : World :=
  { w with activeSessions := update w.activeSessions id (some s) }

def resume (w : World) (id : SessionID) (s : SessionSnapshot) (f : Fault) : World :=
  match resumeTo s with
  | none => { w.track id s with loaded := w.loaded ++ [⟨id, s, s, none, (w.sessions id).map (·.state)⟩] }
  | some st =>
    let r := exec (w.sessions id) (.updateState st .none) f
    match r.2 with
    | .updated _ =>
      { w.track id { s with state := st } with
        sessions := update w.sessions id r.1
        resumedUnsentClaims := if s.state = .claiming then update w.resumedUnsentClaims id true
          else w.resumedUnsentClaims
        loaded := w.loaded ++ [⟨id, s, { s with state := st }, some r.2, r.1.map (·.state)⟩] }
    -- It stays as loaded.
    | _ =>
      { w.track id s with
        sessions := update w.sessions id r.1
        loaded := w.loaded ++ [⟨id, s, s, some r.2, r.1.map (·.state)⟩] }

/-- `OnSessionCreated`: the callback tracks the session only for the call that was told it created it. -/
def onSessionCreated (w : World) (id : SessionID) (d : Delivery) : World :=
  let snapshot : SessionSnapshot := { state := .active }
  match w.sessions id, d.create with
  | some _, _ | none, .refused => w
  | none, .lost =>
    { w with sessions := update w.sessions id (some snapshot), created := id :: w.created }
  | none, .ok =>
    let w' := { w with
      sessions := update w.sessions id (some snapshot)
      index := if d.indexed then id :: w.index else w.index
      created := id :: w.created
      answered := id :: w.answered }
    if w.running then w'.track id snapshot else w'

def ensureSession (w : World) (id : SessionID) (d : Delivery) : World :=
  if d.found then w
  else if d.metadata then onSessionCreated w id d
  else w

def handleRelay (w : World) (id : SessionID) (d : Delivery) : World :=
  let w := if d.asks then ensureSession w id d else w
  if d.acks then { w with acked := id :: w.acked } else w

/-- The next stage of an add, or what the workers and the lifecycle do meanwhile. -/
def step (c : Clients) (w : World) : Action → World
  | .add present opened =>
    match w.stage with
    | .idle | .failed =>
      if present then { w with stage := .overtaken }
      else if opened then
        { w with
          stage := if c.configured then .starting else .inserting
          owed := w.index.filter fun id => isRunning (w.sessions id) }
      else { w with stage := .failed }
    | _ => w
  | .params ok =>
    match w.stage with
    -- Without the params the add goes on, with no lifecycle.
    | .starting => if ok then { w with stage := .listing, reached := true } else { w with stage := .inserting }
    | _ => w
  | .list ok =>
    match w.stage with
    -- An index that cannot be read is taken for an empty one.
    | .listing =>
      if ok then { w with stage := .fetching w.index [], listed := w.index }
      else { w with stage := .inserting, running := true }
    | _ => w
  | .fetch ok =>
    match w.stage with
    | .fetching [] sessions => { w with stage := .loading sessions }
    | .fetching (id :: ids) sessions =>
      -- A session that cannot be read, or is gone, is left out.
      match (if ok then w.sessions id else none) with
      | some s =>
        { w with
          stage := .fetching ids (sessions ++ [(id, decodeSnapshot s)])
          fetched := w.fetched ++ [(id, some (decodeSnapshot s))] }
      | none => { w with stage := .fetching ids sessions, fetched := w.fetched ++ [(id, none)] }
    | _ => w
  | .load f =>
    match w.stage with
    | .loading [] => { w with stage := .inserting, running := true }
    | .loading ((id, s) :: rest) =>
      if s.state.isTerminal then { w with stage := .loading rest }
      else { resume w id s f with stage := .loading rest }
    | _ => w
  | .insert taken =>
    match w.stage with
    | .inserting => if taken then { w with stage := .overtaken, running := false } else { w with stage := .consuming }
    | _ => w
  | .relay id d => if w.stage = .consuming then handleRelay w id d else w
  | .refresh id s => if (w.activeSessions id).isSome then w.track id s else w
  -- A session is taken off when it has ended; one that cannot be read is taken for one that is gone.
  | .release id ok =>
    if ok = true ∧ id ∉ w.ended then w
    else
      { w with
        activeSessions := update w.activeSessions id none
        unread := if ok then w.unread else id :: w.unread }
  | .write id s =>
    { w with
      sessions := update w.sessions id s
      ended := if isRunning s then w.ended else id :: w.ended }
  | .reindex ids => { w with index := ids }

/-! ## What is asked of it -/

/-- Tracked, until the session has ended (it was written terminal, or deleted) or a read of it fails. -/
def Tracked (w : World) (id : SessionID) : Prop :=
  (w.activeSessions id).isSome = true ∨ (id ∈ w.ended ∨ id ∈ w.unread)

/-- From `copy` the transaction that `read` had not sent is asked for at every height of its window. -/
def AskedAgain (read copy : SessionSnapshot) : Prop :=
  ∀ (p : Windows) (height : Nat),
    (read.state = .claiming → p.claimOpen ≤ height → height < p.claimClose →
      determineTransition copy height (some p) = some (.claiming, "claim_window_open")) ∧
    (read.state = .proving → p.proofOpen ≤ height → height < p.proofClose →
      determineTransition copy height (some p) = some (.proving, "proof_window_open"))

/-- A session that needs it is moved back, in the store and in memory, if the store takes the write. Where the call
fails, or the session is gone or its transaction was sent meanwhile, it stays as loaded. -/
def Resumed (l : Load) : Prop :=
  match l.reply with
  | none => resumeTo l.read = none ∧ l.copy = l.read
  | some (.updated _) => resumeTo l.read = some l.copy.state ∧ l.stored = some l.copy.state ∧ AskedAgain l.read l.copy
  | some r => l.copy = l.read ∧ (r = .failed ∨ r = .notFound ∨ r = .notDeferred)

def AllFetched (w : World) : Prop := ∀ id ∈ w.listed, ∃ s, (id, s) ∈ w.fetched

def TakenOver (w : World) (rest : List (SessionID × SessionSnapshot)) : Prop :=
  ∀ id s, (id, some s) ∈ w.fetched → s.state.isTerminal = false →
    (id, s) ∈ rest ∨ ∃ l ∈ w.loaded, l.id = id ∧ l.read = s

structure Quiet (w : World) : Prop where
  acked : w.acked = []
  answered : w.answered = []
  running : w.running = false

def Unlisted (w : World) : Prop := w.listed = [] ∧ w.fetched = []

structure Started (c : Clients) (w : World) : Prop where
  running_iff : w.running = true ↔ c.configured = true ∧ w.reached = true
  fetched : w.running = true → AllFetched w
  loaded : w.running = true → TakenOver w []

def Progress (c : Clients) (w : World) : Prop :=
  match w.stage with
  | .idle | .failed => Quiet w ∧ w.reached = false ∧ Unlisted w
  | .starting => Quiet w ∧ w.reached = false ∧ Unlisted w ∧ c.configured = true
  | .listing => Quiet w ∧ w.reached = true ∧ Unlisted w ∧ c.configured = true
  | .fetching ids sessions =>
    Quiet w ∧ w.reached = true ∧ c.configured = true ∧ (∀ id ∈ w.listed, id ∈ ids ∨ ∃ s, (id, s) ∈ w.fetched) ∧
      ∀ id s, (id, some s) ∈ w.fetched → (id, s) ∈ sessions
  | .loading sessions => Quiet w ∧ w.reached = true ∧ c.configured = true ∧ AllFetched w ∧ TakenOver w sessions
  | .inserting => w.acked = [] ∧ w.answered = [] ∧ Started c w
  | .overtaken => w.acked = [] ∧ w.running = false
  | .consuming => Started c w

structure Inv (c : Clients) (w : World) : Prop where
  progress : Progress c w
  tracked : ∀ l ∈ w.loaded, Tracked w l.id
  resumed : ∀ l ∈ w.loaded, Resumed l
  answered : w.running = true → ∀ id ∈ w.answered, Tracked w id

attribute [local simp] World.track

theorem Tracked.track {w : World} {id : SessionID} (h : Tracked w id) (id' : SessionID) (s : SessionSnapshot) :
    Tracked (w.track id' s) id := by
  rcases h with h | h
  · by_cases he : id = id'
    · subst he
      exact .inl (by simp)
    · exact .inl (by simpa [update_of_ne he] using h)
  · exact .inr h

theorem tracked_track (w : World) (id : SessionID) (s : SessionSnapshot) : Tracked (w.track id s) id :=
  .inl (by simp)

section

variable {c : Clients} {w : World} {s : SessionSnapshot} {w' : World}

/-! ## One lemma per action -/

theorem inv_add (hi : Inv c w) (present opened : Bool) : Inv c (step c w (.add present opened)) := by
  have hbegin : Quiet w ∧ w.reached = false ∧ Unlisted w → Inv c (
      if present then { w with stage := .overtaken }
      else if opened then
        { w with
          stage := if c.configured then .starting else .inserting
          owed := w.index.filter fun id => isRunning (w.sessions id) }
      else { w with stage := .failed }) := by
    rintro ⟨hq, hr, hu⟩
    split
    · exact { hi with progress := ⟨hq.acked, hq.running⟩ }
    split
    · refine { hi with progress := ?_ }
      cases hc : c.configured with
      | true => exact ⟨{ hq with }, hr, hu, hc⟩
      | false =>
        refine ⟨hq.acked, hq.answered, ?_, ?_, ?_⟩
        · simp [hq.running, hc]
        · simp [hq.running]
        · simp [hq.running]
    · exact { hi with progress := ⟨{ hq with }, hr, hu⟩ }
  have hp := hi.progress
  simp only [step]
  split
  next hs => exact hbegin (by simpa only [Progress, hs] using hp)
  next hs => exact hbegin (by simpa only [Progress, hs] using hp)
  · exact hi

theorem inv_params (hi : Inv c w) (ok : Bool) : Inv c (step c w (.params ok)) := by
  have hp := hi.progress
  simp only [step]
  split
  next hs =>
    simp only [Progress, hs] at hp
    obtain ⟨hq, hr, hu, hc⟩ := hp
    split
    · exact { hi with progress := ⟨{ hq with }, rfl, hu, hc⟩ }
    refine { hi with progress := ⟨hq.acked, hq.answered, ?_, ?_, ?_⟩ }
    · simp [hq.running, hr]
    · simp [hq.running]
    · simp [hq.running]
  · exact hi

theorem inv_list (hi : Inv c w) (ok : Bool) : Inv c (step c w (.list ok)) := by
  have hp := hi.progress
  simp only [step]
  split
  next hs =>
    simp only [Progress, hs] at hp
    obtain ⟨hq, hr, ⟨hl, hf⟩, hc⟩ := hp
    split
    · refine { hi with progress := ⟨{ hq with }, hr, hc, fun id hid => .inl hid, ?_⟩ }
      simp [hf]
    -- Started, with nothing loaded.
    refine ⟨⟨hq.acked, hq.answered, ?_, ?_, ?_⟩, hi.tracked, hi.resumed, ?_⟩
    · simp [hc, hr]
    · intro _ id hid
      simp [hl] at hid
    · intro _ id s hs
      simp [hf] at hs
    · intro _ id hid
      simp [hq.answered] at hid
  · exact hi

theorem inv_fetch (hi : Inv c w) (ok : Bool) : Inv c (step c w (.fetch ok)) := by
  have hp := hi.progress
  simp only [step]
  split
  next sessions hs =>
    simp only [Progress, hs] at hp
    obtain ⟨hq, hr, hc, hl, hf⟩ := hp
    refine { hi with progress := ⟨{ hq with }, hr, hc, ?_, ?_⟩ }
    · exact fun id hid => (hl id hid).resolve_left (by simp)
    · exact fun id s hs _ => .inl (hf id s hs)
  next id ids sessions hs =>
    simp only [Progress, hs] at hp
    obtain ⟨hq, hr, hc, hl, hf⟩ := hp
    -- The id that was asked for has its answer, whichever it is.
    have hnext : ∀ a, ∀ id' ∈ w.listed, id' ∈ ids ∨ ∃ s, (id', s) ∈ w.fetched ++ [(id, a)] := by
      intro a id' hid'
      rcases hl id' hid' with h | ⟨s, h⟩
      · rcases mem_cons.1 h with rfl | h
        · exact .inr ⟨a, by simp⟩
        · exact .inl h
      · exact .inr ⟨s, mem_append_left _ h⟩
    split
    next s _ =>
      refine { hi with progress := ⟨{ hq with }, hr, hc, hnext _, ?_⟩ }
      intro id' s' hs'
      rcases mem_append.1 hs' with h | h
      · exact mem_append_left _ (hf id' s' h)
      · simp only [mem_singleton, Prod.mk.injEq, Option.some.injEq] at h
        exact mem_append_right _ (by simp [h])
    refine { hi with progress := ⟨{ hq with }, hr, hc, hnext _, ?_⟩ }
    intro id' s' hs'
    rcases mem_append.1 hs' with h | h
    · exact hf id' s' h
    · simp at h
  · exact hi

/-! ## A session is taken over -/

theorem askedAgain_of_resumeTo {st : SessionState} (h : resumeTo s = some st) :
    AskedAgain s { s with state := st } := by
  intro p height
  refine ⟨fun hs hopen hclose => ?_, fun hs hopen hclose => ?_⟩
  · have hst : st = .active := by
      simp only [resumeTo, hs] at h
      simp only [reduceCtorEq, false_and, if_false, true_and] at h
      split at h
      · exact (Option.some.inj h).symm
      · cases h
    exact claiming_of_active hst hopen hclose
  have hst : st = .claimed := by
    simp only [resumeTo, hs, true_and] at h
    split at h
    · exact (Option.some.inj h).symm
    · simp at h
  exact proving_of_claimed hst hopen hclose

/-- What the store may reply to a rewind, and the state it leaves when it takes it. -/
theorem exec_rewind {st : SessionState} (h : resumeTo s = some st) (key : Option SessionSnapshot) (f : Fault) :
    (∃ old, (exec key (.updateState st .none) f).2 = .updated old ∧
      (exec key (.updateState st .none) f).1.map (·.state) = some st) ∨
    ((exec key (.updateState st .none) f).2 = .failed ∨ (exec key (.updateState st .none) f).2 = .notFound ∨
      (exec key (.updateState st .none) f).2 = .notDeferred) := by
  have hst : st = .active ∨ st = .claimed := by
    unfold resumeTo at h
    split at h
    · exact .inr (Option.some.inj h).symm
    split at h
    · exact .inl (Option.some.inj h).symm
    · cases h
  cases f with
  | refused | lost => exact .inr (.inl rfl)
  | ok =>
    cases key with
    | none => exact .inr (.inr (.inl rfl))
    | some cur =>
      simp only [exec, apply, updateStateScript]
      cases hg : checkStateWrite cur st with
      | none => exact .inl ⟨cur.state, rfl, rfl⟩
      | some r =>
        have hr : r = .notDeferred := by
          unfold checkStateWrite at hg
          rcases hst with rfl | rfl <;> simp only [reduceCtorEq, false_and, or_false, if_false] at hg <;>
            split at hg <;> simp_all
        exact .inr (.inr (.inr (by rw [hr])))

/-- What taking over a session does: it is tracked, and one load is recorded. -/
theorem resume_spec (w : World) (id : SessionID) (s : SessionSnapshot) (f : Fault) :
    ∃ sessions resumed l, Resumed l ∧ l.id = id ∧ l.read = s ∧
      resume w id s f = { w.track id l.copy with
        sessions := sessions
        resumedUnsentClaims := resumed
        loaded := w.loaded ++ [l] } := by
  unfold resume
  split
  next hr =>
    exact ⟨w.sessions, w.resumedUnsentClaims, ⟨id, s, s, none, (w.sessions id).map (·.state)⟩, ⟨hr, rfl⟩, rfl, rfl, rfl⟩
  next st hr =>
    rcases exec_rewind hr (w.sessions id) f with ⟨old, hu, hst⟩ | hn
    · simp only [hu]
      exact ⟨_, _, ⟨id, s, { s with state := st }, some (.updated old), _⟩, ⟨hr, hst, askedAgain_of_resumeTo hr⟩,
        rfl, rfl, rfl⟩
    refine ⟨update w.sessions id (exec (w.sessions id) (.updateState st .none) f).1,
      w.resumedUnsentClaims, ⟨id, s, s, some (exec (w.sessions id) (.updateState st .none) f).2,
      (exec (w.sessions id) (.updateState st .none) f).1.map (·.state)⟩, ?_, rfl, rfl, ?_⟩
    · rcases hn with hn | hn | hn <;> rw [hn] <;> exact ⟨rfl, by simp⟩
    · rcases hn with hn | hn | hn <;> simp only [hn] <;> rfl

theorem inv_load (hi : Inv c w) (f : Fault) : Inv c (step c w (.load f)) := by
  have hp := hi.progress
  simp only [step]
  split
  next hs =>
    simp only [Progress, hs] at hp
    obtain ⟨hq, hr, hc, hl, ht⟩ := hp
    refine ⟨⟨hq.acked, hq.answered, ?_, fun _ => hl, fun _ => ht⟩, hi.tracked, hi.resumed, ?_⟩
    · simp [hc, hr]
    · intro _ id hid
      simp [hq.answered] at hid
  next id s rest hs =>
    simp only [Progress, hs] at hp
    obtain ⟨hq, hr, hc, hl, ht⟩ := hp
    split
    next hterm =>
      refine { hi with progress := ⟨{ hq with }, hr, hc, hl, ?_⟩ }
      intro id' s' hf hrun
      refine (ht id' s' hf hrun).imp_left fun h => ?_
      rcases mem_cons.1 h with h | h
      · cases h
        rw [hterm] at hrun
        cases hrun
      · exact h
    obtain ⟨sessions, resumed, l, hres, hid, hread, hw⟩ := resume_spec w id s f
    rw [hw]
    have hmem : ∀ l' ∈ w.loaded ++ [l], l' ∈ w.loaded ∨ l' = l := by simp
    refine ⟨⟨{ hq with }, hr, hc, hl, ?_⟩, ?_, ?_, ?_⟩
    · intro id' s' hf hrun
      rcases ht id' s' hf hrun with h | ⟨l', hl', h⟩
      · rcases mem_cons.1 h with h | h
        · cases h
          exact .inr ⟨l, mem_append_right _ (by simp), hid, hread⟩
        · exact .inl h
      · exact .inr ⟨l', mem_append_left _ hl', h⟩
    · intro l' hl'
      rcases hmem l' hl' with h | rfl
      · exact (hi.tracked l' h).track id l.copy
      · rw [hid]
        exact tracked_track w id l'.copy
    · intro l' hl'
      rcases hmem l' hl' with h | rfl
      · exact hi.resumed l' h
      · exact hres
    · intro hrun
      simp [hq.running] at hrun
  · exact hi

/-! ## After the add -/

theorem inv_insert (hi : Inv c w) (taken : Bool) : Inv c (step c w (.insert taken)) := by
  have hp := hi.progress
  simp only [step]
  split
  next hs =>
    simp only [Progress, hs] at hp
    split
    · exact ⟨⟨hp.1, rfl⟩, hi.tracked, hi.resumed, nofun⟩
    · exact { hi with progress := ⟨hp.2.2.running_iff, hp.2.2.fetched, hp.2.2.loaded⟩ }
  · exact hi

structure Frame (w w' : World) : Prop where
  stage : w'.stage = w.stage
  running : w'.running = w.running
  reached : w'.reached = w.reached
  listed : w'.listed = w.listed
  fetched : w'.fetched = w.fetched
  loaded : w'.loaded = w.loaded
  tracked : ∀ id, Tracked w id → Tracked w' id

theorem Frame.allFetched (hf : Frame w w') (h : AllFetched w) : AllFetched w' := by
  intro id hid
  rw [hf.listed] at hid
  rw [hf.fetched]
  exact h id hid

theorem Frame.takenOver (hf : Frame w w') {rest : List (SessionID × SessionSnapshot)} (h : TakenOver w rest) :
    TakenOver w' rest := by
  intro id s hs
  rw [hf.fetched] at hs
  rw [hf.loaded]
  exact h id s hs

theorem Frame.started (hf : Frame w w') (h : Started c w) : Started c w' := by
  refine ⟨?_, fun hr => hf.allFetched (h.fetched ?_), fun hr => hf.takenOver (h.loaded ?_)⟩
  · rw [hf.running, hf.reached]
    exact h.running_iff
  · rwa [hf.running] at hr
  · rwa [hf.running] at hr

theorem Inv.frame (hi : Inv c w) (hf : Frame w w') (hack : w'.acked = w.acked) (hans : w'.answered = w.answered) :
    Inv c w' := by
  have hq : Quiet w → Quiet w' := fun h =>
    ⟨hack.trans h.acked, hans.trans h.answered, hf.running.trans h.running⟩
  have hu : Unlisted w → Unlisted w' := fun h => ⟨hf.listed.trans h.1, hf.fetched.trans h.2⟩
  refine ⟨?_, ?_, ?_, ?_⟩
  · have hp := hi.progress
    unfold Progress at hp ⊢
    rw [hf.stage, hf.reached]
    cases hs : w.stage <;> simp only [hs] at hp ⊢
    case idle | failed => exact ⟨hq hp.1, hp.2.1, hu hp.2.2⟩
    case starting | listing => exact ⟨hq hp.1, hp.2.1, hu hp.2.2.1, hp.2.2.2⟩
    case fetching ids sessions =>
      rw [hf.listed, hf.fetched]
      exact ⟨hq hp.1, hp.2⟩
    case loading sessions =>
      obtain ⟨h, hr, hc, hl, ht⟩ := hp
      exact ⟨hq h, hr, hc, hf.allFetched hl, hf.takenOver ht⟩
    case inserting => exact ⟨hack.trans hp.1, hans.trans hp.2.1, hf.started hp.2.2⟩
    case overtaken => exact ⟨hack.trans hp.1, hf.running.trans hp.2⟩
    case consuming => exact hf.started hp
  · rw [hf.loaded]
    exact fun l hl => hf.tracked _ (hi.tracked l hl)
  · rw [hf.loaded]
    exact hi.resumed
  · rw [hf.running, hans]
    exact fun hr id hid => hf.tracked _ (hi.answered hr id hid)

theorem Frame.track (w : World) (id : SessionID) (s : SessionSnapshot) : Frame w (w.track id s) :=
  ⟨rfl, rfl, rfl, rfl, rfl, rfl, fun _ h => h.track id s⟩

theorem frame_release (w : World) (id : SessionID) (ok : Bool) : Frame w (step c w (.release id ok)) := by
  simp only [step]
  split
  · exact ⟨rfl, rfl, rfl, rfl, rfl, rfl, fun _ h => h⟩
  next hend =>
  refine ⟨rfl, rfl, rfl, rfl, rfl, rfl, fun id' h => ?_⟩
  by_cases he : id' = id
  · subst he
    cases ok with
    | true => exact .inr (.inl (by simpa using hend))
    | false => exact .inr (.inr mem_cons_self)
  rcases h with h | h
  · exact .inl (by simpa [update_of_ne he] using h)
  · refine .inr (h.imp_right fun hu => ?_)
    cases ok with
    | true => exact hu
    | false => exact mem_cons_of_mem _ hu

theorem frame_write (w : World) (id : SessionID) (s : Option SessionSnapshot) : Frame w (step c w (.write id s)) := by
  refine ⟨rfl, rfl, rfl, rfl, rfl, rfl, fun id' h => h.imp_right fun h => h.imp_left fun he => ?_⟩
  simp only [step]
  split
  · exact he
  · exact mem_cons_of_mem _ he

/-- A relay leaves the add where it is; a session it was told it created is tracked, if the lifecycle runs. -/
theorem onSessionCreated_spec (w : World) (id : SessionID) (d : Delivery) :
    Frame w (onSessionCreated w id d) ∧
      ∀ id' ∈ (onSessionCreated w id d).answered, id' ∈ w.answered ∨
        (w.running = true → Tracked (onSessionCreated w id d) id') := by
  have hsame : Frame w w := ⟨rfl, rfl, rfl, rfl, rfl, rfl, fun _ h => h⟩
  unfold onSessionCreated
  split
  · exact ⟨hsame, fun _ h => .inl h⟩
  · exact ⟨hsame, fun _ h => .inl h⟩
  · exact ⟨⟨rfl, rfl, rfl, rfl, rfl, rfl, fun _ h => h⟩, fun _ h => .inl h⟩
  by_cases hr : w.running = true
  · rw [if_pos hr]
    refine ⟨⟨rfl, rfl, rfl, rfl, rfl, rfl, fun _ h => Tracked.track h id _⟩, fun id' h => ?_⟩
    rcases mem_cons.1 h with rfl | h
    · exact .inr fun _ => tracked_track _ _ _
    · exact .inl h
  · rw [if_neg hr]
    exact ⟨⟨rfl, rfl, rfl, rfl, rfl, rfl, fun _ h => h⟩, fun _ _ => .inr fun h => absurd h hr⟩

theorem handleRelay_spec (w : World) (id : SessionID) (d : Delivery) :
    Frame w (handleRelay w id d) ∧
      ∀ id' ∈ (handleRelay w id d).answered, id' ∈ w.answered ∨
        (w.running = true → Tracked (handleRelay w id d) id') := by
  have hensure : Frame w (if d.asks then ensureSession w id d else w) ∧
      ∀ id' ∈ (if d.asks then ensureSession w id d else w).answered, id' ∈ w.answered ∨
        (w.running = true → Tracked (if d.asks then ensureSession w id d else w) id') := by
    have hsame : Frame w w ∧ ∀ id' ∈ w.answered, id' ∈ w.answered ∨ (w.running = true → Tracked w id') :=
      ⟨⟨rfl, rfl, rfl, rfl, rfl, rfl, fun _ h => h⟩, fun _ h => .inl h⟩
    unfold ensureSession
    split
    · split
      · exact hsame
      · split
        · exact onSessionCreated_spec w id d
        · exact hsame
    · exact hsame
  obtain ⟨hf, ha⟩ := hensure
  unfold handleRelay
  cases d.acks with
  | true => exact ⟨{ hf with }, ha⟩
  | false => exact ⟨hf, ha⟩

theorem inv_relay (hi : Inv c w) (id : SessionID) (d : Delivery) : Inv c (step c w (.relay id d)) := by
  simp only [step]
  split
  next hs =>
    obtain ⟨hf, ha⟩ := handleRelay_spec w id d
    have hstarted : Started c w := by simpa only [Progress, hs] using hi.progress
    refine ⟨?_, ?_, ?_, ?_⟩
    · have hs' := hf.stage.trans hs
      simpa only [Progress, hs'] using hf.started hstarted
    · rw [hf.loaded]
      exact fun l hl => hf.tracked _ (hi.tracked l hl)
    · rw [hf.loaded]
      exact hi.resumed
    intro hr id' hid'
    rw [hf.running] at hr
    rcases ha id' hid' with h | h
    · exact hf.tracked _ (hi.answered hr id' h)
    · exact h hr
  · exact hi

end

theorem inv_step (c : Clients) (w : World) (a : Action) (hi : Inv c w) : Inv c (step c w a) := by
  cases a with
  | add present opened => exact inv_add hi present opened
  | params ok => exact inv_params hi ok
  | list ok => exact inv_list hi ok
  | fetch ok => exact inv_fetch hi ok
  | load f => exact inv_load hi f
  | insert taken => exact inv_insert hi taken
  | relay id d => exact inv_relay hi id d
  | refresh id s =>
    simp only [step]
    split
    · exact hi.frame (.track w id s) rfl rfl
    · exact hi
  | release id ok =>
    refine hi.frame (frame_release w id ok) ?_ ?_ <;>
    · simp only [step]
      split <;> rfl
  | write id s => exact hi.frame (frame_write w id s) rfl rfl
  | reindex => exact hi.frame ⟨rfl, rfl, rfl, rfl, rfl, rfl, fun _ h => h⟩ rfl rfl

def windows : Windows := .short

end RelayMiner.Lifecycle.AddSupplier
