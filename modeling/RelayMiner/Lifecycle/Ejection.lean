import RelayMiner.Lib.Log
import RelayMiner.Lifecycle.Cycle
/-!
# The claim batch: retries, re-injection and ejection

`OnSessionsNeedClaim` for one group, from the build results on, with what
`Lifecycle.Cycle` leaves out: the parallel views of the batch, the signed bytes
of the last attempt and the errors as the loop reads them. The cycle keeps a log
of what it sent and of the verdict it gave to each session; the results are about
that log.
-/
open RelayMiner.Lib RelayMiner.Session

namespace RelayMiner.Lifecycle.Ejection

open List

/-! ## What a submission answers -/

/-- A `TxRejection` by its stage: only the simulation executes messages, so only it can name one. -/
inductive TxRejection where
  | simulate (msgIndex : Option Int)
  | checkTx (codespace : String) (abciCode : Nat)
  | broadcast
  deriving DecidableEq

structure SubmitError where
  windowExpired : Bool := false
  namesClaimWindow : Bool := false
  nothingWasSpent : Bool := false
  rejection : Option TxRejection := none
  deriving DecidableEq

def SubmitError.windowRefusal (e : SubmitError) : Bool := e.windowExpired || e.namesClaimWindow

def windowRefusalIsFinal (height : Nat) (e : SubmitError) (windowClose : Nat) : Bool :=
  e.windowExpired || windowClose ≤ height

def rejectionPreservesBytes (e : SubmitError) : Bool :=
  match e.rejection with
  | none | some .broadcast => true
  | some (.simulate _) => false
  | some (.checkTx codespace abciCode) => codespace = "sdk" && (abciCode = 19 || abciCode = 20)

def namedMessageIndex (e : SubmitError) (batchSize : Nat) : Option Nat :=
  match e.rejection with
  | some (.simulate (some i)) => if i < 0 ∨ (batchSize : Int) ≤ i then none else some i.toNat
  | _ => none

inductive Reply where
  | accepted (txHash : String)
  | failed (e : SubmitError)
  deriving DecidableEq

structure SignedTxPayload where
  bytes : Option (List Bytes) := none
  timeoutAt : Nat := 0
  deriving DecidableEq

structure Round where
  chainNow : Nat := 0
  signed : Option Nat := none
  reply : Reply
  entryLands : Bool := true
  ctxDone : Bool := false

def reusable (cached : SignedTxPayload) (chainNow : Nat) : Bool :=
  cached.bytes.isSome && cached.timeoutAt ≠ 0 && chainNow ≠ 0 && chainNow < cached.timeoutAt

def canReinject (previous : SignedTxPayload) (previousErr : Option SubmitError) (chainNow : Nat) : Bool :=
  match previousErr with
  | none => false
  | some e => previous.bytes.isSome && rejectionPreservesBytes e && reusable previous chainNow

structure Send where
  reinjected : Bool
  msgs : List Bytes
  deriving DecidableEq

def resendOrSignClaims (r : Round) (previous : SignedTxPayload) (previousErr : Option SubmitError)
    (msgs : List Bytes) : Send × SignedTxPayload :=
  if canReinject previous previousErr r.chainNow then (⟨true, previous.bytes.getD []⟩, previous)
  else
    (⟨false, msgs⟩,
      match r.signed with
      | some timeoutAt => ⟨some msgs, timeoutAt⟩
      | none => {})

/-! ## The loop -/

structure Views where
  claimMsgs : List Bytes
  rootHashes : List Bytes
  snapshots : List Snap
  iface : List Bytes
  deriving DecidableEq

def alignClaimBatch (built : List Built) : Views :=
  ⟨built.map (·.msg), built.map (·.root), built.map (·.snap), built.map (·.msg)⟩

structure Loop where
  group : Group
  remaining : List Built
  views : Views
  attempt : Nat
  claimSigned : SignedTxPayload
  lastErr : Option SubmitError
  deriving DecidableEq

def Loop.start (g : Group) (built : List Built) : Loop := ⟨g, built, alignClaimBatch built, 1, {}, none⟩

inductive Stage where
  | recheck (l : Loop)
  | sending (l : Loop)
  | ejected (l : Loop)
  | accepted (l : Loop) (txHash : String)
  | failed (l : Loop) (lastErr : SubmitError)
  | closing (close : Nat) (todo : List Snap)
  | done
  deriving DecidableEq

inductive Outcome where
  | skipped
  | ejected (v : Verdict)
  | windowClosed
  | observedOnChain (root : Bytes) (claimTxHash : String)
  | txError (v : Verdict)
  | claimed (root : Bytes) (txHash : String)
  deriving DecidableEq

inductive Event where
  | sent (s : Send) (reply : Reply)
  | verdict (id : SessionID) (o : Outcome)
  | entry (id : SessionID) (e : Entry)
  | deferred (id : SessionID)
  deriving DecidableEq

inductive Input where
  | go
  | round (r : Round)
  | claimQuery (q : ClaimQuery)

def skippedEvents (r : Snap × ClaimBuild) : List Event :=
  match r.2 with
  | .unprofitable | .cuprMismatch => [.verdict r.1.id .skipped]
  | _ => []

def Loop.eject (l : Loop) (i : Nat) (b : Built) : Loop :=
  { l with
    group := withoutSession l.group b.snap.id
    remaining := l.remaining.eraseIdx i
    views := alignClaimBatch (l.remaining.eraseIdx i)
    claimSigned := {} }

def settleEjectedClaim (cfg : Config) (height : Nat) (entryLands : Bool) (b : Built) : List Event :=
  if cfg.rebroadcastStore then
    [.entry b.snap.id ⟨b.msg, height, ""⟩,
      .verdict b.snap.id (.ejected (if entryLands then .attempt else .ejectedUnrecoverable))]
  else [.verdict b.snap.id (.ejected .forgone)]

def Loop.named (l : Loop) (e : SubmitError) : Option (Nat × Built) :=
  if 1 < l.remaining.length then
    (namedMessageIndex e l.remaining.length).bind fun i => (l.remaining[i]?).map fun b => (i, b)
  else none

def Loop.retry (cfg : Config) (l : Loop) (e : SubmitError) (ctxDone : Bool) : Stage :=
  if l.attempt < cfg.claimRetryAttempts then
    if ctxDone then .done else .sending { l with attempt := l.attempt + 1 }
  else .failed l e

def Loop.ejectOrRetry (cfg : Config) (height : Nat) (l : Loop) (r : Round) (e : SubmitError) : List Event × Stage :=
  match l.named e with
  | some (i, b) => (settleEjectedClaim cfg height r.entryLands b, .ejected (l.eject i b))
  | none => ([], l.retry cfg e r.ctxDone)

def Loop.refused (cfg : Config) (height : Nat) (l : Loop) (r : Round) (e : SubmitError) : List Event × Stage :=
  let close := (cfg.windows l.group.endHeight).claimClose
  if e.windowRefusal then
    if windowRefusalIsFinal height e close then ([], .closing close l.group.snaps)
    else (l.group.snaps.map fun s => .deferred s.id, .done)
  else l.ejectOrRetry cfg height r e

def Loop.turn (cfg : Config) (height : Nat) (l : Loop) (r : Round) : List Event × Stage :=
  let out := resendOrSignClaims r l.claimSigned l.lastErr l.views.iface
  match r.reply with
  | .accepted txHash => ([.sent out.1 r.reply], .accepted { l with claimSigned := out.2, lastErr := none } txHash)
  | .failed e =>
    let d := Loop.refused cfg height { l with claimSigned := out.2, lastErr := some e } r e
    (.sent out.1 r.reply :: d.1, d.2)

def persistRebroadcastEntries (cfg : Config) (height : Nat) (v : Views) (txHash : String) : List Event :=
  if cfg.rebroadcastStore then (v.snapshots.zip v.claimMsgs).map fun p => .entry p.1.id ⟨p.2, height, txHash⟩ else []

def acceptedEvents (cfg : Config) (height : Nat) (v : Views) (txHash : String) : List Event :=
  ((v.snapshots.zip v.rootHashes).map fun p => .verdict p.1.id (.claimed p.2 txHash)) ++
    if txHash ≠ "" then persistRebroadcastEntries cfg height v txHash else []

def failedEvents (cfg : Config) (height : Nat) (l : Loop) (lastErr : SubmitError) : List Event :=
  (if lastErr.nothingWasSpent then []
    else l.group.snaps.map fun s => .verdict s.id (.txError (if cfg.rebroadcastStore then .attempt else .forgone))) ++
    persistRebroadcastEntries cfg height l.views ""

def markAndCountClaimWindowClosed (height close : Nat) (s : Snap) : ClaimQuery → List Event
  | .found root _ => [.verdict s.id (.observedOnChain root s.claimTxHash)]
  | .notFound _ => if claimReadIsFinal height close then [.verdict s.id .windowClosed] else []
  | .error => []

def Loop.checkOpen (cfg : Config) (height : Nat) (l : Loop) : Stage :=
  let close := (cfg.windows l.group.endHeight).claimClose
  if close ≤ height then .closing close l.group.snaps else .sending l

def advance (cfg : Config) (height : Nat) : Stage → Input → List Event × Stage
  | .recheck l, _ | .ejected l, _ => ([], l.checkOpen cfg height)
  | .sending l, .round r => l.turn cfg height r
  | .accepted l txHash, _ => (acceptedEvents cfg height l.views txHash, .done)
  | .failed l lastErr, _ => (failedEvents cfg height l lastErr, .done)
  | .closing close (s :: todo), .claimQuery q => (markAndCountClaimWindowClosed height close s q, .closing close todo)
  | .closing _ [], _ => ([], .done)
  | stage, _ => ([], stage)

structure Builds where
  group : Group
  results : List (Snap × ClaimBuild)
  nodup : (group.snaps.map (·.id)).Nodup
  perm : (results.map (·.1)).Perm (candidates group)

def Builds.built (b : Builds) : List Built := b.results.filterMap builtOf

structure State where
  stage : Stage
  log : List Event

/-- An input at a height: what the stage does with it is logged. -/
def step (cfg : Config) (s : State) (a : Nat × Input) : State :=
  let d := advance cfg a.1 s.stage a.2
  ⟨d.2, s.log ++ d.1⟩

def Builds.skipped (b : Builds) : List Event := b.results.flatMap skippedEvents

def cycle (cfg : Config) (b : Builds) (as : List (Nat × Input)) : State :=
  run (step cfg) ⟨.recheck (.start b.group b.built), []⟩ as

/-! ## The log -/

def verdictId : Event → Option SessionID
  | .verdict id _ => some id
  | _ => none

def ejectedId : Event → Option SessionID
  | .verdict id (.ejected _) => some id
  | _ => none

def sendOf : Event → Option (Send × Reply)
  | .sent s reply => some (s, reply)
  | _ => none

def claimedId : Event → Option SessionID
  | .verdict id (.claimed _ _) => some id
  | _ => none

def verdictIds (log : List Event) : List SessionID := log.filterMap verdictId

def ejectedIds (log : List Event) : List SessionID := log.filterMap ejectedId

def sends (log : List Event) : List (Send × Reply) := log.filterMap sendOf

def claimedIds (log : List Event) : List SessionID := log.filterMap claimedId

def current (built : List Built) (log : List Event) : List Built := built.filter (·.snap.id ∉ ejectedIds log)

def SignedSince (msgs : List Bytes) (log : List Event) : Prop :=
  ∃ pre reply post, log = pre ++ .sent ⟨false, msgs⟩ reply :: post ∧ ejectedIds post = []

/-- The right session for the outcome, after the events of `past`. -/
def Outcome.Right (built : List Built) (past : List Event) (id : SessionID) : Outcome → Prop
  -- The last transaction was refused, and the session's message stood at the index it named.
  | .ejected _ => ∃ reinjected e i b,
      (sends past).getLast? = some (⟨reinjected, (current built past).map (·.msg)⟩, .failed e) ∧
      namedMessageIndex e (current built past).length = some i ∧
      (current built past)[i]? = some b ∧ b.snap.id = id
  -- The last transaction was accepted, and its next message was built from this session and root.
  | .claimed root txHash => ∃ reinjected b,
      (sends past).getLast? = some (⟨reinjected, (current built past).map (·.msg)⟩, .accepted txHash) ∧
      (current built past)[(claimedIds past).length]? = some b ∧ b.snap.id = id ∧ b.root = root
  | _ => True

def Allowed (built : List Built) (past : List Event) : Event → Prop
  | .sent s _ => s.msgs = (current built past).map (·.msg) ∧ (s.reinjected = true → SignedSince s.msgs past)
  | .verdict id o => o.Right built past id
  | _ => True

def maxSends (cfg : Config) (built : List Built) : Nat := (built.length - 1) + cfg.claimRetryAttempts

def Stage.isSending : Stage → Bool
  | .sending _ => true
  | _ => false

/-- The cycle ends, blames the right claim and settles each session once. -/
structure Sound (cfg : Config) (b : Builds) (s : State) : Prop where
  bounded : (sends s.log).length ≤ maxSends cfg b.built
  ends : s.stage.isSending = true → (sends s.log).length < maxSends cfg b.built
  allowed : Each (Allowed b.built) s.log
  once : (verdictIds (b.skipped ++ s.log)).Nodup

@[simp] theorem verdictIds_append (log new : List Event) : verdictIds (log ++ new) = verdictIds log ++ verdictIds new :=
  filterMap_append

@[simp] theorem ejectedIds_append (log new : List Event) : ejectedIds (log ++ new) = ejectedIds log ++ ejectedIds new :=
  filterMap_append

@[simp] theorem sends_append (log new : List Event) : sends (log ++ new) = sends log ++ sends new :=
  filterMap_append

@[simp] theorem claimedIds_append (log new : List Event) : claimedIds (log ++ new) = claimedIds log ++ claimedIds new :=
  filterMap_append

theorem current_append (built : List Built) (log new : List Event) :
    current built (log ++ new) = (current built log).filter (·.snap.id ∉ ejectedIds new) := by
  simp only [current, ejectedIds_append, mem_append, filter_filter]
  refine filter_congr fun b _ => ?_
  by_cases h : b.snap.id ∈ ejectedIds log <;> simp [h]

variable {new : List Event} {α : Type} {b : Builds} {log : List Event}

theorem current_append_of_no_ejection (built : List Built) (h : ejectedIds new = []) :
    current built (log ++ new) = current built log := by simp [current_append, h]

theorem SignedSince.append {msgs : List Bytes} (h : SignedSince msgs log)
    (hn : ejectedIds new = []) : SignedSince msgs (log ++ new) := by
  obtain ⟨pre, reply, post, rfl, hpost⟩ := h
  exact ⟨pre, reply, post ++ new, by simp, by simp [hpost, hn]⟩

def Quiet (new : List Event) : Prop := ∀ e ∈ new, verdictId e = none ∧ sendOf e = none

attribute [local simp] verdictId sendOf Loop.checkOpen

theorem ejectedId_of_verdictId_none {e : Event} (h : verdictId e = none) : ejectedId e = none := by
  cases e <;> simp_all [ejectedId]

theorem claimedId_of_verdictId_none {e : Event} (h : verdictId e = none) : claimedId e = none := by
  cases e <;> simp_all [claimedId]

theorem Quiet.verdictIds (h : Quiet new) : verdictIds new = [] :=
  filterMap_eq_nil_iff.2 fun e he => (h e he).1

theorem Quiet.sends (h : Quiet new) : sends new = [] :=
  filterMap_eq_nil_iff.2 fun e he => (h e he).2

theorem quiet_entries (cfg : Config) (height : Nat) (v : Views) (txHash : String) :
    Quiet (persistRebroadcastEntries cfg height v txHash) := by
  intro e he
  unfold persistRebroadcastEntries at he
  split at he
  · obtain ⟨p, -, rfl⟩ := mem_map.1 he
    exact ⟨rfl, rfl⟩
  · cases he

theorem quiet_deferred (snaps : List Snap) : Quiet (snaps.map fun s => .deferred s.id) := by
  intro e he
  obtain ⟨s, -, rfl⟩ := mem_map.1 he
  exact ⟨rfl, rfl⟩

/-! ## What a step may append -/

structure Fair (built : List Built) (log new : List Event) : Prop where
  allowed : Each (fun past => Allowed built (log ++ past)) new
  once : (verdictIds (log ++ new)).Nodup

theorem Fair.append {built : List Built} {log more : List Event} (h : Fair built log new)
    (h' : Fair built (log ++ new) more) : Fair built log (new ++ more) where
  allowed := by
    refine (each_append new more).2 ⟨h.allowed, ?_⟩
    simpa only [append_assoc] using h'.allowed
  once := by simpa only [append_assoc] using h'.once

theorem fair_of_quiet (built : List Built) (ho : (verdictIds log).Nodup) (h : Quiet new) :
    Fair built log new where
  allowed := by
    intro past e rest hnew
    have hv := (h e (by simp [hnew])).1
    have hs := (h e (by simp [hnew])).2
    cases e with
    | sent s reply => simp at hs
    | verdict id o => simp at hv
    | entry | deferred => trivial
  once := by simpa [h.verdictIds] using ho

theorem fair_nil (built : List Built) (ho : (verdictIds log).Nodup) : Fair built log [] :=
  fair_of_quiet built ho nofun

variable (id : α → SessionID)

theorem verdictIds_map_verdict (o : α → Outcome) (xs : List α) :
    verdictIds (xs.map fun x => .verdict (id x) (o x)) = xs.map id := by
  induction xs with
  | nil => rfl
  | cons x xs ih => simpa [verdictIds] using ih

theorem claimedIds_map_claimed (txHash : String) (xs : List Built) :
    claimedIds (xs.map fun b => .verdict b.snap.id (.claimed b.root txHash)) = xs.map (·.snap.id) := by
  induction xs with
  | nil => rfl
  | cons x xs ih => simpa [claimedIds, claimedId] using ih

@[simp] theorem sends_map_verdict (o : α → Outcome) (xs : List α) :
    sends (xs.map fun x => .verdict (id x) (o x)) = [] := by simp [sends]

/-- One verdict each, for sessions that have none. -/
theorem fair_verdicts (built : List Built) (id : α → SessionID) (o : α → Outcome) (xs : List α)
    (ho : (verdictIds log).Nodup) (hn : (xs.map id).Nodup) (hf : ∀ x ∈ xs, id x ∉ verdictIds log)
    (hr : ∀ pre x post, xs = pre ++ x :: post →
      (o x).Right built (log ++ pre.map fun y => .verdict (id y) (o y)) (id x)) :
    Fair built log (xs.map fun x => .verdict (id x) (o x)) where
  allowed := each_map _ xs hr
  once := by
    rw [verdictIds_append, verdictIds_map_verdict, nodup_append]
    refine ⟨ho, hn, fun a ha b hb => ?_⟩
    obtain ⟨x, hx, rfl⟩ := mem_map.1 hb
    rintro rfl
    exact hf x hx ha

theorem fair_verdict (built : List Built) {id : SessionID} {o : Outcome}
    (ho : (verdictIds log).Nodup) (hf : id ∉ verdictIds log) (hr : o.Right built log id) :
    Fair built log [.verdict id o] where
  allowed := (each_singleton _).2 (by simpa [Allowed] using hr)
  once := by
    rw [verdictIds_append]
    refine nodup_append.2 ⟨ho, nodup_singleton _, fun a ha b hb hab => hf ?_⟩
    obtain rfl := mem_singleton.1 hb
    exact hab ▸ ha

/-! ## The invariant -/

structure Unsettled (snaps : List Snap) (log : List Event) : Prop where
  nodup : (snaps.map (·.id)).Nodup
  fresh : ∀ s ∈ snaps, s.id ∉ verdictIds log

theorem Unsettled.append {snaps : List Snap} (h : Unsettled snaps log)
    (hn : ∀ s ∈ snaps, s.id ∉ verdictIds new) : Unsettled snaps (log ++ new) :=
  ⟨h.nodup, fun s hs => by
    rw [verdictIds_append, mem_append, not_or]
    exact ⟨h.fresh s hs, hn s hs⟩⟩

theorem Unsettled.sublist {snaps snaps' : List Snap} (h : Unsettled snaps log)
    (hs : snaps'.Sublist snaps) : Unsettled snaps' log :=
  ⟨(hs.map _).nodup h.nodup, fun s hm => h.fresh s (hs.subset hm)⟩

structure Running (cfg : Config) (built : List Built) (l : Loop) (log : List Event) : Prop where
  remaining : l.remaining = current built log
  views : l.views = alignClaimBatch l.remaining
  signed : ∀ msgs, l.claimSigned.bytes = some msgs → msgs = l.remaining.map (·.msg) ∧ SignedSince msgs log
  unsettled : Unsettled l.group.snaps log
  inGroup : ∀ b ∈ l.remaining, b.snap ∈ l.group.snaps
  unclaimed : claimedIds log = []
  attempt : l.attempt ≤ cfg.claimRetryAttempts

def Stage.Inv (cfg : Config) (built : List Built) (log : List Event) : Stage → Prop
  | .recheck l | .sending l | .ejected l | .failed l _ => Running cfg built l log
  | .accepted l txHash => Running cfg built l log ∧
      ∃ reinjected, (sends log).getLast? = some (⟨reinjected, l.remaining.map (·.msg)⟩, .accepted txHash)
  | .closing _ todo => Unsettled todo log
  | .done => True

def Stage.sendsLeft (cfg : Config) : Stage → Nat
  | .recheck l | .sending l | .ejected l => (l.remaining.length - 1) + (cfg.claimRetryAttempts + 1 - l.attempt)
  | _ => 0

structure Moves (cfg : Config) (built : List Built) (log : List Event) (left : Nat) (d : List Event × Stage) :
    Prop where
  fair : Fair built log d.1
  inv : d.2.Inv cfg built (log ++ d.1)
  paid : (sends d.1).length + d.2.sendsLeft cfg ≤ left

theorem filter_key_ne {β : Type} [DecidableEq β] (f : α → β) {xs : List α} {i : Nat} {x : α} (hn : (xs.map f).Nodup)
    (hx : xs[i]? = some x) : xs.filter (f · ≠ f x) = xs.eraseIdx i := by
  induction xs generalizing i with
  | nil => simp at hx
  | cons a xs ih =>
    obtain ⟨ha, hn⟩ := nodup_cons.1 hn
    cases i with
    | zero =>
      obtain rfl : a = x := by simpa using hx
      have hkeep : ∀ y ∈ xs, f y ≠ f a := fun y hy he => ha (he ▸ mem_map_of_mem hy)
      simpa using hkeep
    | succ i =>
      have hx' : xs[i]? = some x := by simpa using hx
      have hax : f a ≠ f x := fun he => ha (he ▸ mem_map_of_mem (mem_of_getElem? hx'))
      have := ih hn hx'
      simp only [ne_eq, decide_not] at this
      simp [hax, this]

section Steps

variable {cfg : Config} {built : List Built} {log : List Event} {l : Loop} {height : Nat} {new : List Event}
  {b : Built} {i : Nat} {e : SubmitError} {reinjected : Bool}

theorem Loop.checkOpen_cases (cfg : Config) (height : Nat) (l : Loop) :
    (∃ close, l.checkOpen cfg height = .closing close l.group.snaps) ∨ l.checkOpen cfg height = .sending l := by
  by_cases hc : (cfg.windows l.group.endHeight).claimClose ≤ height
  · exact .inl ⟨_, if_pos hc⟩
  · exact .inr (if_neg hc)

theorem Running.checkOpen (h : Running cfg built l log) (ho : (verdictIds log).Nodup) :
    Moves cfg built log ((Stage.sending l).sendsLeft cfg) ([], l.checkOpen cfg height) := by
  obtain ⟨close, hc⟩ | hc := l.checkOpen_cases cfg height <;> rw [hc]
  · exact ⟨fair_nil built ho, by simpa [Stage.Inv] using h.unsettled, by simp [sends, Stage.sendsLeft]⟩
  · exact ⟨fair_nil built ho, by simpa [Stage.Inv] using h, by simp [sends]⟩

/-! ### A send -/

theorem resendOrSignClaims_spec (r : Round) (previous : SignedTxPayload) (previousErr : Option SubmitError)
    {msgs : List Bytes} (h : ∀ m, previous.bytes = some m → m = msgs) :
    (resendOrSignClaims r previous previousErr msgs).1.msgs = msgs ∧
      ((resendOrSignClaims r previous previousErr msgs).1.reinjected = true →
        previous.bytes = some msgs ∧ (resendOrSignClaims r previous previousErr msgs).2 = previous) ∧
      ∀ m, (resendOrSignClaims r previous previousErr msgs).2.bytes = some m → m = msgs := by
  unfold resendOrSignClaims
  split
  next hc =>
    obtain ⟨m, hm⟩ : ∃ m, previous.bytes = some m := by
      unfold canReinject at hc
      cases previousErr with
      | none => cases hc
      | some e =>
        simp only [Bool.and_eq_true] at hc
        exact Option.isSome_iff_exists.1 hc.1.1
    obtain rfl := h m hm
    simp [hm]
  refine ⟨rfl, by simp, fun m hm => ?_⟩
  cases hr : r.signed with
  | none => simp [hr] at hm
  | some t => simpa [hr] using hm.symm

theorem Running.send (h : Running cfg built l log) (r : Round) {s : Send} {signed : SignedTxPayload}
    (hout : resendOrSignClaims r l.claimSigned l.lastErr l.views.iface = (s, signed)) (e : Option SubmitError) :
    Allowed built log (.sent s r.reply) ∧ s.msgs = l.remaining.map (·.msg) ∧
      Running cfg built { l with claimSigned := signed, lastErr := e } (log ++ [.sent s r.reply]) := by
  have hi : l.views.iface = l.remaining.map (·.msg) := by rw [h.views]; rfl
  rw [hi] at hout
  obtain ⟨hmsgs, hre, hsigned⟩ := resendOrSignClaims_spec r l.claimSigned l.lastErr fun m hm => (h.signed m hm).1
  rw [hout] at hmsgs hre hsigned
  have hne : ejectedIds [Event.sent s r.reply] = [] := rfl
  refine ⟨⟨by rw [hmsgs, h.remaining], fun hr => ?_⟩, hmsgs, ?_⟩
  · have := (h.signed _ (hre hr).1).2
    rwa [hmsgs]
  refine ⟨?_, h.views, fun m hm => ⟨hsigned m hm, ?_⟩, h.unsettled.append (by simp [verdictIds]), h.inGroup,
    by rw [claimedIds_append, h.unclaimed]; rfl, h.attempt⟩
  · rw [current_append_of_no_ejection built hne]
    exact h.remaining
  -- Bytes that came back were signed just now, or are the ones that were there before.
  obtain rfl := hsigned m hm
  cases hr : s.reinjected with
  | true => exact (h.signed _ (hre hr).1).2.append hne
  | false =>
    refine ⟨log, r.reply, [], ?_, rfl⟩
    obtain ⟨reinjected, msgs⟩ := s
    simp only at hr hmsgs
    rw [hr, hmsgs]

theorem fair_sent {s : Send} {reply : Reply} (ho : (verdictIds log).Nodup) (h : Allowed built log (.sent s reply)) :
    Fair built log [.sent s reply] where
  allowed := (each_singleton _).2 (by simpa using h)
  once := by
    rw [verdictIds_append]
    exact (append_nil _).symm ▸ ho

/-! ### What a refusal leads to -/

theorem settleEjectedClaim_eq (cfg : Config) (height : Nat) (entryLands : Bool) (b : Built) :
    ∃ new v, Quiet new ∧ settleEjectedClaim cfg height entryLands b = new ++ [.verdict b.snap.id (.ejected v)] := by
  unfold settleEjectedClaim
  split
  · refine ⟨[.entry b.snap.id ⟨b.msg, height, ""⟩], _, ?_, rfl⟩
    intro e he
    obtain rfl := mem_singleton.1 he
    exact ⟨rfl, rfl⟩
  · exact ⟨[], _, nofun, rfl⟩

theorem Quiet.ejectedIds (h : Quiet new) : ejectedIds new = [] :=
  filterMap_eq_nil_iff.2 fun e he => ejectedId_of_verdictId_none (h e he).1

theorem Quiet.claimedIds (h : Quiet new) : claimedIds new = [] :=
  filterMap_eq_nil_iff.2 fun e he => claimedId_of_verdictId_none (h e he).1

theorem Running.nodup (h : Running cfg built l log) (hb : (built.map (·.snap.id)).Nodup) :
    (l.remaining.map (·.snap.id)).Nodup := by
  rw [h.remaining]
  exact (filter_sublist.map _).nodup hb

theorem Loop.named_some (h : l.named e = some (i, b)) :
    1 < l.remaining.length ∧ namedMessageIndex e l.remaining.length = some i ∧ l.remaining[i]? = some b := by
  unfold Loop.named at h
  split at h
  next hl =>
    obtain ⟨j, hj, hb⟩ := Option.bind_eq_some_iff.1 h
    obtain ⟨c, hc, heq⟩ := Option.map_eq_some_iff.1 hb
    cases heq
    exact ⟨hl, hj, hc⟩
  · cases h

section
variable (h : Running cfg built l log)
include h

theorem Running.eject (hb : (built.map (·.snap.id)).Nodup)
    (hi : l.remaining[i]? = some b) (hq : Quiet new) (v : Verdict) :
    Running cfg built (l.eject i b) (log ++ (new ++ [.verdict b.snap.id (.ejected v)])) := by
  have hej : ejectedIds (new ++ [.verdict b.snap.id (.ejected v)]) = [b.snap.id] := by
    rw [ejectedIds_append, hq.ejectedIds]
    rfl
  have hve : verdictIds (new ++ [.verdict b.snap.id (.ejected v)]) = [b.snap.id] := by
    rw [verdictIds_append, hq.verdictIds]
    rfl
  have hdrop : l.remaining.eraseIdx i = l.remaining.filter (·.snap.id ≠ b.snap.id) :=
    (filter_key_ne (·.snap.id) (h.nodup hb) hi).symm
  refine ⟨?_, rfl, (fun m hm => nomatch hm), ?_, ?_, ?_, h.attempt⟩
  · rw [current_append, hej, ← h.remaining]
    exact hdrop.trans (filter_congr fun c _ => by simp)
  · refine (h.unsettled.sublist filter_sublist).append fun s hs => ?_
    rw [hve]
    simpa [withoutSession] using (mem_filter.1 hs).2
  · intro c hc
    have hc' : c ∈ l.remaining.filter (·.snap.id ≠ b.snap.id) := hdrop ▸ hc
    obtain ⟨hmem, hne⟩ := mem_filter.1 hc'
    exact mem_filter.2 ⟨h.inGroup c hmem, hne⟩
  · rw [claimedIds_append, h.unclaimed, claimedIds_append, hq.claimedIds]
    rfl

theorem Running.ejection (ho : (verdictIds log).Nodup)
    (hb : (built.map (·.snap.id)).Nodup) (hn : l.named e = some (i, b))
    (hs : (sends log).getLast? = some (⟨reinjected, l.remaining.map (·.msg)⟩, .failed e)) (lands : Bool) :
    Moves cfg built log ((l.remaining.length - 1) + (cfg.claimRetryAttempts - l.attempt))
      (settleEjectedClaim cfg height lands b, .ejected (l.eject i b)) := by
  obtain ⟨hlen, hidx, hi⟩ := Loop.named_some hn
  obtain ⟨new, v, hq, heq⟩ := settleEjectedClaim_eq cfg height lands b
  rw [heq]
  have hcur : current built (log ++ new) = l.remaining := by
    rw [current_append_of_no_ejection built hq.ejectedIds, ← h.remaining]
  have hfair := fair_of_quiet built ho hq
  refine ⟨hfair.append (fair_verdict built hfair.once ?_ ?_), h.eject hb hi hq v, ?_⟩
  · rw [verdictIds_append, hq.verdictIds, append_nil]
    exact h.unsettled.fresh _ (h.inGroup b (mem_of_getElem? hi))
  · refine ⟨reinjected, e, i, b, ?_, by rw [hcur]; exact hidx, by rw [hcur]; exact hi, rfl⟩
    rw [sends_append, hq.sends, append_nil, hcur]
    exact hs
  have herase : (l.remaining.eraseIdx i).length = l.remaining.length - 1 :=
    length_eraseIdx_of_lt (List.getElem?_eq_some_iff.1 hi).1
  rw [sends_append, hq.sends]
  simp only [nil_append, sends, sendOf, filterMap_cons, filterMap_nil, length_nil, Stage.sendsLeft,
    Loop.eject, herase]
  omega

theorem Running.retry (ho : (verdictIds log).Nodup) (e : SubmitError) (ctxDone : Bool) :
    Moves cfg built log ((l.remaining.length - 1) + (cfg.claimRetryAttempts - l.attempt))
      ([], l.retry cfg e ctxDone) := by
  refine ⟨fair_nil built ho, ?_, ?_⟩
  · rw [append_nil]
    unfold Loop.retry
    split
    · split
      · trivial
      · exact { h with attempt := by simp only; omega }
    · exact h
  simp only [sends, filterMap_nil, length_nil, Nat.zero_add, Loop.retry]
  split
  · split
    · exact Nat.zero_le _
    · simp only [Stage.sendsLeft]
      omega
  · exact Nat.zero_le _

theorem Running.refused (height : Nat) (ho : (verdictIds log).Nodup)
    (hb : (built.map (·.snap.id)).Nodup) (r : Round)
    (hs : (sends log).getLast? = some (⟨reinjected, l.remaining.map (·.msg)⟩, .failed e)) :
    Moves cfg built log ((l.remaining.length - 1) + (cfg.claimRetryAttempts - l.attempt))
      (l.refused cfg height r e) := by
  unfold Loop.refused
  dsimp only
  split
  · split
    · exact ⟨fair_nil built ho, by simpa [Stage.Inv] using h.unsettled, Nat.zero_le _⟩
    · have hq := quiet_deferred l.group.snaps
      refine ⟨fair_of_quiet built ho hq, trivial, ?_⟩
      rw [hq.sends]
      exact Nat.zero_le _
  unfold Loop.ejectOrRetry
  split
  next i b hn => exact h.ejection ho hb hn hs r.entryLands
  · exact h.retry ho e r.ctxDone

theorem Running.turn (ho : (verdictIds log).Nodup)
    (hb : (built.map (·.snap.id)).Nodup) (r : Round) :
    Moves cfg built log ((Stage.sending l).sendsLeft cfg) (l.turn cfg height r) := by
  have ha := h.attempt
  unfold Loop.turn
  obtain ⟨⟨s, signed⟩, hout⟩ : ∃ out, resendOrSignClaims r l.claimSigned l.lastErr l.views.iface = out := ⟨_, rfl⟩
  simp only [hout]
  have hsent : ∀ {reply}, r.reply = reply → s.msgs = l.remaining.map (·.msg) →
      (sends (log ++ [.sent s reply])).getLast? = some (⟨s.reinjected, l.remaining.map (·.msg)⟩, reply) := by
    intro reply _ hm
    rw [← hm]
    simp [sends]
  cases hreply : r.reply with
  | accepted txHash =>
    obtain ⟨hal, hm, hrun⟩ := h.send r hout none
    rw [hreply] at hal hrun
    refine ⟨fair_sent ho hal, ⟨hrun, s.reinjected, hsent hreply hm⟩, ?_⟩
    simp only [sends, sendOf, filterMap_cons, filterMap_nil, length_singleton, Stage.sendsLeft]
    omega
  | failed e =>
    obtain ⟨hal, hm, hrun⟩ := h.send r hout (some e)
    rw [hreply] at hal hrun
    have hfair := fair_sent ho hal
    have hrest := hrun.refused height hfair.once hb r (hsent hreply hm)
    refine ⟨hfair.append hrest.fair, by simpa using hrest.inv, ?_⟩
    have hpaid := hrest.paid
    simp only [sends, sendOf, filterMap_cons, length_cons, Stage.sendsLeft] at hpaid ⊢
    omega
end

/-! ### The end of the loop -/

theorem Running.accepted (h : Running cfg built l log) (ho : (verdictIds log).Nodup)
    (hb : (built.map (·.snap.id)).Nodup) {txHash : String}
    (hs : (sends log).getLast? = some (⟨reinjected, l.remaining.map (·.msg)⟩, .accepted txHash)) :
    Fair built log (acceptedEvents cfg height l.views txHash) := by
  have hzip : ((l.views.snapshots.zip l.views.rootHashes).map fun p => Event.verdict p.1.id (.claimed p.2 txHash)) =
      l.remaining.map fun b => .verdict b.snap.id (.claimed b.root txHash) := by
    rw [h.views]
    simp [alignClaimBatch, zip_map']
  unfold acceptedEvents
  rw [hzip]
  have hv : Fair built log (l.remaining.map fun b => .verdict b.snap.id (.claimed b.root txHash)) := by
    refine fair_verdicts built _ _ l.remaining ho (h.nodup hb)
      (fun b hm => h.unsettled.fresh _ (h.inGroup b hm)) fun pre b post hrem => ?_
    -- The claims recorded so far are the ones before this one.
    have hej : ejectedIds (pre.map fun b => .verdict b.snap.id (.claimed b.root txHash)) = [] := by
      simp [ejectedIds, ejectedId]
    have hse : sends (pre.map fun b => .verdict b.snap.id (.claimed b.root txHash)) = [] := by simp [sends]
    refine ⟨reinjected, b, ?_, ?_, rfl, rfl⟩
    · rw [sends_append, hse, append_nil, current_append_of_no_ejection built hej, ← h.remaining]
      exact hs
    rw [current_append_of_no_ejection built hej, ← h.remaining, claimedIds_append, h.unclaimed,
      claimedIds_map_claimed, hrem]
    simp
  split
  · exact hv.append (fair_of_quiet built hv.once (quiet_entries cfg height l.views txHash))
  · simpa using hv

theorem Running.failed (h : Running cfg built l log) (ho : (verdictIds log).Nodup) (e : SubmitError) :
    Fair built log (failedEvents cfg height l e) := by
  unfold failedEvents
  have hq := quiet_entries cfg height l.views ""
  split
  · exact fair_of_quiet built ho hq
  have hv := fair_verdicts built (·.id) (fun _ => .txError (if cfg.rebroadcastStore then .attempt else .forgone))
    l.group.snaps ho h.unsettled.nodup h.unsettled.fresh fun _ _ _ _ => trivial
  exact hv.append (fair_of_quiet built hv.once hq)

theorem markAndCountClaimWindowClosed_cases (height close : Nat) (s : Snap) (q : ClaimQuery) :
    markAndCountClaimWindowClosed height close s q = [] ∨
      ∃ o : Outcome, (∀ built past, o.Right built past s.id) ∧
        markAndCountClaimWindowClosed height close s q = [.verdict s.id o] := by
  cases q with
  | found root status => exact .inr ⟨.observedOnChain root s.claimTxHash, fun _ _ => trivial, rfl⟩
  | notFound answeredHeight =>
    by_cases hf : claimReadIsFinal height close = true
    · exact .inr ⟨.windowClosed, fun _ _ => trivial, if_pos hf⟩
    · exact .inl (if_neg hf)
  | error => exact .inl rfl

theorem Unsettled.mark {close : Nat} {s : Snap} {todo : List Snap} (h : Unsettled (s :: todo) log)
    (ho : (verdictIds log).Nodup) (q : ClaimQuery) :
    Moves cfg built log 0 (markAndCountClaimWindowClosed height close s q, .closing close todo) := by
  have htodo : Unsettled todo log := h.sublist (sublist_cons_self s todo)
  obtain hn | ⟨o, hr, hn⟩ := markAndCountClaimWindowClosed_cases height close s q
  · rw [hn]
    exact ⟨fair_nil built ho, by simpa [Stage.Inv] using htodo, Nat.le_refl _⟩
  rw [hn]
  refine ⟨fair_verdict built ho (h.fresh s mem_cons_self) (hr _ _), htodo.append fun s' hs' hmem => ?_,
    Nat.le_refl _⟩
  have hid : s'.id = s.id := mem_singleton.1 hmem
  exact (nodup_cons.1 h.nodup).1 (mem_map.2 ⟨s', hs', hid⟩)

theorem advance_moves {stage : Stage} (h : stage.Inv cfg built log) (ho : (verdictIds log).Nodup)
    (hb : (built.map (·.snap.id)).Nodup) (height : Nat) (a : Input) :
    Moves cfg built log (stage.sendsLeft cfg) (advance cfg height stage a) := by
  have hidle : Moves cfg built log (stage.sendsLeft cfg) ([], stage) :=
    ⟨fair_nil built ho, by simpa using h, by simp [sends]⟩
  cases stage with
  | recheck | ejected => exact Running.checkOpen h ho
  | sending l =>
    cases a with
    | round r => exact Running.turn h ho hb r
    | go | claimQuery => exact hidle
  | accepted l txHash =>
    obtain ⟨hrun, reinjected, hs⟩ := h
    refine ⟨hrun.accepted ho hb hs, trivial, ?_⟩
    have hq := (quiet_entries cfg height l.views txHash).sends
    simp only [advance, acceptedEvents, sends_append, sends_map_verdict, nil_append]
    split
    · rw [hq]
      exact Nat.zero_le _
    · exact Nat.zero_le _
  | failed l e =>
    refine ⟨Running.failed h ho e, trivial, ?_⟩
    have hq := (quiet_entries cfg height l.views "").sends
    simp only [advance, failedEvents, sends_append, hq, append_nil]
    split <;> simp [sends, Stage.sendsLeft]
  | closing close todo =>
    cases todo with
    | nil => exact ⟨fair_nil built ho, trivial, Nat.zero_le _⟩
    | cons s todo =>
      cases a with
      | claimQuery q => exact Unsettled.mark h ho q
      | go | round => exact hidle
  | done => exact hidle

end Steps

structure Inv (cfg : Config) (built : List Built) (s : State) : Prop where
  allowed : Each (Allowed built) s.log
  once : (verdictIds s.log).Nodup
  stage : s.stage.Inv cfg built s.log
  budget : (sends s.log).length + s.stage.sendsLeft cfg ≤ maxSends cfg built

theorem Inv.step {cfg : Config} {built : List Built} {s : State} (h : Inv cfg built s)
    (hb : (built.map (·.snap.id)).Nodup) (a : Nat × Input) : Inv cfg built (step cfg s a) := by
  obtain ⟨fair, inv, paid⟩ := advance_moves h.stage h.once hb a.1 a.2
  refine ⟨(each_append _ _).2 ⟨h.allowed, fair.allowed⟩, fair.once, inv, ?_⟩
  have hbudget := h.budget
  simp only [Ejection.step, sends_append, length_append]
  omega

/-! ## The batch at the start -/

theorem Builds.mem_group {s : Snap} (h : s ∈ b.results.map (·.1)) : s ∈ b.group.snaps :=
  mem_of_mem_filter (b.perm.mem_iff.1 h)

theorem Builds.built_nodup (b : Builds) : (b.built.map (·.snap.id)).Nodup := by
  have hcand : ((candidates b.group).map (·.id)).Nodup := (filter_sublist.map _).nodup b.nodup
  have hres : ((b.results.map (·.1)).map (·.id)).Nodup := (b.perm.map _).nodup_iff.2 hcand
  have hsub := (snap_builtOf_sublist b.results).map (·.id)
  rw [map_map] at hsub
  exact hsub.nodup hres

theorem inv_start (cfg : Config) (b : Builds) : Inv cfg b.built ⟨.recheck (.start b.group b.built), []⟩ where
  allowed := each_nil
  once := nodup_nil
  stage :=
    { remaining := by simp [Loop.start, current, ejectedIds]
      views := rfl
      signed := nofun
      unsettled := ⟨b.nodup, fun _ _ => not_mem_nil⟩
      inGroup := fun c hc =>
        Builds.mem_group ((snap_builtOf_sublist b.results).subset (mem_map_of_mem (f := (·.snap)) hc))
      unclaimed := rfl
      attempt := cfg.claim_pos }
  budget := by simp [sends, Stage.sendsLeft, Loop.start, maxSends]

theorem inv_cycle (cfg : Config) (b : Builds) (as : List (Nat × Input)) : Inv cfg b.built (cycle cfg b as) :=
  inv_of_run _ (fun _ a h => h.step b.built_nodup a) as (inv_start cfg b)

/-! ## The loop does what the claim cycle's stages do -/

def Event.writes : Event → List Write
  | .sent _ _ => []
  | .verdict id .skipped => [.deleteTree id, .session id .onClaimSkipped]
  | .verdict id (.ejected v) | .verdict id (.txError v) => [.session id (.onClaimTxError v)]
  | .verdict id .windowClosed => [.session id .onClaimWindowClosed]
  | .verdict id (.observedOnChain root tx) => [.session id (.onClaimObservedOnChain root tx)]
  | .verdict id (.claimed root tx) => [.session id (.onSessionClaimed root tx)]
  | .entry id e => [.put .claim id e]
  | .deferred id => [.session id .onClaimDeferred]

def SubmitError.submit (e : SubmitError) : Submit :=
  if e.windowExpired then .windowExpired
  else if e.namesClaimWindow then .windowRefused
  else
    match e.rejection with
    | some (.simulate (some (.ofNat i))) => .named i
    | _ => if e.nothingWasSpent then .nothingSpent else .refused

def Reply.submit : Reply → Submit
  | .accepted txHash => .accepted txHash
  | .failed e => e.submit

def Input.answer : Input → Answer
  | .go => .go
  | .round r => .submit r.reply.submit r.ctxDone
  | .claimQuery q => .claimQuery q

/-- The stages do not tell an entry that was not stored, nor an error that names a message and was not sent. -/
def Input.Plain : Input → Prop
  | .round r => r.entryLands = true ∧
      ∀ e, r.reply = .failed e → e.nothingWasSpent = true → ∀ i, e.rejection ≠ some (.simulate (some i))
  | _ => True

def Stage.Shows : Stage → ClaimStage → Prop
  | .recheck l, .recheck _ g remaining => g = l.group ∧ remaining = l.remaining ∧ 1 = l.attempt
  | .sending l, .sending _ g remaining attempt => g = l.group ∧ remaining = l.remaining ∧ attempt = l.attempt
  | .ejected l, .ejected _ g remaining attempt => g = l.group ∧ remaining = l.remaining ∧ attempt = l.attempt
  | .accepted l txHash, .accepted _ remaining txHash' => remaining = l.remaining ∧ txHash' = txHash
  | .failed l e, .failed _ g remaining r =>
    g = l.group ∧ remaining = l.remaining ∧ nothingWasSpent r = e.nothingWasSpent
  | .closing close todo, .closing _ close' todo' => close' = close ∧ todo' = todo
  | .done, .settling _ | .done, .next _ => True
  | _, _ => False

/-- The step of the loop is the step of the cycle: the same writes, and the same stage next. -/
def SameStep (d : List Event × Stage) (d' : List Write × ClaimStage) : Prop :=
  d'.1 = d.1.flatMap Event.writes ∧ d.2.Shows d'.2

section Simulation

variable {cfg : Config} {l : Loop} {m : Mem} {c : ClaimCtx} {e : SubmitError}

theorem flatMap_writes_map {α : Type} (f : α → Event) (w : α → Write) (xs : List α) (h : ∀ x, (f x).writes = [w x]) :
    (xs.map f).flatMap Event.writes = xs.map w := by
  induction xs with
  | nil => rfl
  | cons x xs ih => rw [map_cons, flatMap_cons, h, ih]; rfl

theorem writes_persistRebroadcastEntries (cfg : Config) (height : Nat) (remaining : List Built) (txHash : String) :
    (persistRebroadcastEntries cfg height (alignClaimBatch remaining) txHash).flatMap Event.writes =
      if cfg.rebroadcastStore then
        remaining.map fun b => persistRebroadcastEntry .claim b.snap.id height txHash b.msg
      else [] := by
  unfold persistRebroadcastEntries
  split
  · simp only [alignClaimBatch, zip_map', map_map]
    exact flatMap_writes_map _ _ _ fun _ => rfl
  · rfl

theorem sameStep_retry {r : Submit} (hr : nothingWasSpent r = e.nothingWasSpent) (ctxDone : Bool) :
    SameStep ([], l.retry cfg e ctxDone) ([], retryClaims cfg c l.group l.remaining l.attempt r ctxDone) := by
  refine ⟨rfl, ?_⟩
  unfold Loop.retry retryClaims
  split
  · split
    · trivial
    · exact ⟨rfl, rfl, rfl⟩
  · exact ⟨rfl, rfl, hr⟩

theorem sameStep_eject (height : Nat) (i : Nat) (b : Built) :
    SameStep (settleEjectedClaim cfg height true b, .ejected (l.eject i b))
      (Lifecycle.settleEjectedClaim cfg height b,
        .ejected c (withoutSession l.group b.snap.id) (l.remaining.eraseIdx i) l.attempt) := by
  refine ⟨?_, rfl, rfl, rfl⟩
  unfold settleEjectedClaim Lifecycle.settleEjectedClaim
  split <;> rfl

theorem Loop.named_index {n : Nat} (hn : e.rejection = some (.simulate (some (Int.ofNat n)))) :
    l.named e = if 1 < l.remaining.length then (l.remaining[n]?).map fun b => (n, b) else none := by
  unfold Loop.named
  split
  · by_cases hlen : n < l.remaining.length
    · have hidx : namedMessageIndex e l.remaining.length = some n := by
        simp only [namedMessageIndex, hn]
        exact if_neg (by simp only [Int.ofNat_eq_natCast]; omega)
      simp [hidx]
    · simp [namedMessageIndex, hn, Nat.le_of_not_lt hlen]
  · rfl

theorem Loop.named_none (hn : ∀ n, e.rejection ≠ some (.simulate (some (Int.ofNat n)))) : l.named e = none := by
  have hidx : namedMessageIndex e l.remaining.length = none := by
    unfold namedMessageIndex
    split
    next i hi =>
      cases i with
      | ofNat n => exact absurd hi (hn n)
      | negSucc n => simp [Int.negSucc_lt_zero]
    · rfl
  simp [Loop.named, hidx]

attribute [local simp] submitClaims Stage.Shows

variable (r : Round)

theorem sameStep_named {n : Nat} (hlands : r.entryLands = true) (hspent : e.nothingWasSpent = false)
    (hn : e.rejection = some (.simulate (some (Int.ofNat n)))) :
    SameStep (l.ejectOrRetry cfg m.height r e)
      (submitClaims cfg m c l.group l.remaining l.attempt (.named n) r.ctxDone) := by
  have hretry : SameStep ([], l.retry cfg e r.ctxDone)
      ([], retryClaims cfg c l.group l.remaining l.attempt (.named n) r.ctxDone) :=
    sameStep_retry (r := .named n) hspent.symm r.ctxDone
  unfold Loop.ejectOrRetry
  rw [Loop.named_index hn]
  cases hb : l.remaining[n]? with
  | none => simpa [hb] using hretry
  | some b =>
    by_cases hone : 1 < l.remaining.length
    · simpa [hb, hone, hlands] using sameStep_eject m.height n b
    · simpa [hb, hone] using hretry

theorem SubmitError.submit_unnamed (hexp : e.windowExpired = false) (hname : e.namesClaimWindow = false)
    (hn : ∀ n, e.rejection ≠ some (.simulate (some (Int.ofNat n)))) :
    e.submit = if e.nothingWasSpent then .nothingSpent else .refused := by
  -- `hn` rules the named branch of the match out.
  simp only [SubmitError.submit, hexp, hname, Bool.false_eq_true, if_false]

theorem sameStep_refused (hp : (Input.round r).Plain) (hr : r.reply = .failed e) :
    SameStep (l.refused cfg m.height r e)
      (submitClaims cfg m c l.group l.remaining l.attempt e.submit r.ctxDone) := by
  obtain ⟨hlands, hspent⟩ := hp
  have hspent := hspent e hr
  unfold Loop.refused SubmitError.windowRefusal windowRefusalIsFinal
  cases hexp : e.windowExpired with
  | true => simp [SubmitError.submit, hexp, SameStep]
  | false =>
    cases hname : e.namesClaimWindow with
    | true =>
      have hsub : e.submit = .windowRefused := by simp [SubmitError.submit, hexp, hname]
      rw [hsub]
      by_cases hc : (cfg.windows l.group.endHeight).claimClose ≤ m.height
      · simp [SameStep, hc]
      have hdefer := flatMap_writes_map (fun s : Snap => Event.deferred s.id) (fun s => .session s.id .onClaimDeferred)
        l.group.snaps fun _ => rfl
      simpa [SameStep, hc, deferClaims] using hdefer.symm
    | false =>
      by_cases hn : ∃ n, e.rejection = some (.simulate (some (Int.ofNat n)))
      · obtain ⟨n, hn⟩ := hn
        have hspent' : e.nothingWasSpent = false := Bool.eq_false_iff.2 fun h => hspent h _ hn
        have hsub : e.submit = .named n := by simp [SubmitError.submit, hexp, hname, hn]
        rw [hsub]
        exact sameStep_named r hlands hspent' hn
      have hn' : ∀ n, e.rejection ≠ some (.simulate (some (Int.ofNat n))) := fun n h => hn ⟨n, h⟩
      unfold Loop.ejectOrRetry
      rw [Loop.named_none hn', SubmitError.submit_unnamed hexp hname hn']
      cases hs : e.nothingWasSpent
      · exact sameStep_retry (r := .refused) hs.symm r.ctxDone
      · exact sameStep_retry (r := .nothingSpent) hs.symm r.ctxDone

theorem sameStep_turn (hp : (Input.round r).Plain) :
    SameStep (l.turn cfg m.height r) (submitClaims cfg m c l.group l.remaining l.attempt r.reply.submit r.ctxDone) := by
  unfold Loop.turn
  cases hr : r.reply with
  | accepted txHash => exact ⟨rfl, rfl, rfl⟩
  | failed e =>
    -- The refusal reads neither the bytes nor the last error.
    have hrest : SameStep
        (Loop.refused cfg m.height
          { l with
            claimSigned := (resendOrSignClaims r l.claimSigned l.lastErr l.views.iface).2
            lastErr := some e } r e)
        (submitClaims cfg m c l.group l.remaining l.attempt e.submit r.ctxDone) := sameStep_refused r hp hr
    exact ⟨hrest.1, hrest.2⟩

theorem sameStep_accepted (hv : l.views = alignClaimBatch l.remaining) (height : Nat) (txHash : String) :
    (acceptedEvents cfg height l.views txHash).flatMap Event.writes =
      acceptedClaims cfg height l.remaining txHash := by
  have hclaims : ((l.views.snapshots.zip l.views.rootHashes).map fun p =>
      Event.verdict p.1.id (.claimed p.2 txHash)).flatMap Event.writes =
      l.remaining.map fun b => .session b.snap.id (.onSessionClaimed b.root txHash) := by
    rw [hv]
    simp only [alignClaimBatch, zip_map', map_map]
    exact flatMap_writes_map _ _ _ fun _ => rfl
  unfold acceptedEvents acceptedClaims
  rw [flatMap_append, hclaims]
  congr 1
  by_cases ht : txHash = ""
  · simp [ht]
  · simp only [ne_eq, ht, not_false_eq_true, if_true, and_true]
    rw [hv, writes_persistRebroadcastEntries]

theorem sameStep_failed (hv : l.views = alignClaimBatch l.remaining) (height : Nat) {r : Submit}
    (hr : nothingWasSpent r = e.nothingWasSpent) :
    (failedEvents cfg height l e).flatMap Event.writes = failedClaims cfg height l.group l.remaining r := by
  unfold failedEvents failedClaims
  rw [flatMap_append, hv, writes_persistRebroadcastEntries, hr]
  congr 1
  split
  · rfl
  · exact flatMap_writes_map _ _ _ fun _ => rfl

/-- A step of the loop, its batch aligned, is the step the claim cycle takes. -/
theorem sameStep_advance {built : List Built} {log : List Event} {stage : Stage} {cs : ClaimStage} {a : Input}
    (h : stage.Inv cfg built log) (hs : stage.Shows cs) (hd : stage ≠ .done) (hp : a.Plain) :
    SameStep (advance cfg m.height stage a)
      ((claimNext cfg m cs a.answer).1, (claimNext cfg m cs a.answer).2.1) := by
  cases stage with
  | recheck l =>
    cases cs <;> simp only [Stage.Shows] at hs
    obtain ⟨rfl, rfl, hone⟩ := hs
    by_cases hc : (cfg.windows l.group.endHeight).claimClose ≤ m.height <;>
      simp [advance, claimNext, hc, SameStep, hone]
  | ejected l =>
    cases cs <;> simp only [Stage.Shows] at hs
    obtain ⟨rfl, rfl, rfl⟩ := hs
    by_cases hc : (cfg.windows l.group.endHeight).claimClose ≤ m.height <;>
      simp [advance, claimNext, hc, SameStep]
  | sending l =>
    cases cs <;> simp only [Stage.Shows] at hs
    obtain ⟨rfl, rfl, rfl⟩ := hs
    cases a with
    | round r => exact sameStep_turn (m := m.recordSent .claim (l.remaining.map (·.snap.id)) r.reply.submit) r hp
    | go | claimQuery => exact ⟨rfl, rfl, rfl, rfl⟩
  | accepted l txHash =>
    cases cs <;> simp only [Stage.Shows] at hs
    obtain ⟨rfl, rfl⟩ := hs
    exact ⟨(sameStep_accepted h.1.views m.height _).symm, trivial⟩
  | failed l e =>
    cases cs <;> simp only [Stage.Shows] at hs
    obtain ⟨rfl, rfl, hr⟩ := hs
    exact ⟨(sameStep_failed (Running.views h) m.height hr).symm, trivial⟩
  | closing close todo =>
    cases cs <;> simp only [Stage.Shows] at hs
    rename_i c close' todo'
    obtain ⟨rfl, rfl⟩ := hs
    cases todo' with
    | nil => exact ⟨rfl, trivial⟩
    | cons s todo =>
      cases a with
      | claimQuery q =>
        refine ⟨?_, rfl, rfl⟩
        cases q with
        | notFound answeredHeight =>
          simp only [claimNext, advance, Input.answer, markClaimWindowClosed, markAndCountClaimWindowClosed]
          split <;> rfl
        | found | error => rfl
      | go | round => exact ⟨rfl, rfl, rfl⟩
  | done => exact absurd rfl hd

/-- The builds come in: the skipped sessions are settled, the rest is the batch. -/
theorem sameStep_start (cfg : Config) (m : Mem) (c : ClaimCtx) (b : Builds) :
    SameStep (b.skipped, .recheck (.start b.group b.built))
      ((claimNext cfg m (.building c b.group) (.claimBuilds b.results)).1,
        (claimNext cfg m (.building c b.group) (.claimBuilds b.results)).2.1) := by
  have hwrites : ∀ r : Snap × ClaimBuild, (skippedEvents r).flatMap Event.writes = skippedWrites r := by
    rintro ⟨s, build⟩
    cases build <;> rfl
  simp only [claimNext, b.perm, if_true]
  refine ⟨?_, rfl, rfl, rfl⟩
  simp only [Builds.skipped, flatMap_assoc, hwrites]

/-- The stages of the claim cycle on the loop's heights and answers, with the writes so far. -/
def follow (cfg : Config) (w : List Write × ClaimStage × Mem) (a : Nat × Input) : List Write × ClaimStage × Mem :=
  let d := claimNext cfg { w.2.2 with height := a.1 } w.2.1 a.2.answer
  (w.1 ++ d.1, d.2)

def Follows (b : Builds) (s : State) (w : List Write × ClaimStage × Mem) : Prop :=
  SameStep (b.skipped ++ s.log, s.stage) (w.1, w.2.1)

def Goes (s : State) (a : Nat × Input) : Prop := s.stage ≠ .done ∧ a.2.Plain

theorem Follows.step {b : Builds} {s : State} {w : List Write × ClaimStage × Mem} {a : Nat × Input}
    (hi : Inv cfg b.built s) (h : Follows b s w) (hg : Goes s a) : Follows b (step cfg s a) (follow cfg w a) := by
  have hwrites : w.1 = (b.skipped ++ s.log).flatMap Event.writes := h.1
  have hstep := sameStep_advance (m := { w.2.2 with height := a.1 }) hi.stage h.2 hg.1 hg.2
  refine ⟨?_, hstep.2⟩
  calc w.1 ++ _ = (b.skipped ++ s.log).flatMap Event.writes ++ _ := by rw [hwrites, hstep.1]
    _ = _ := by rw [← flatMap_append, append_assoc]; rfl

/-- From its builds on the loop makes the writes of the claim cycle, in the cycle's order, and stands where the cycle
stands, over every run of heights and answers until it is done. -/
theorem cycle_follows (cfg : Config) (m : Mem) (c : ClaimCtx) (b : Builds) (as : List (Nat × Input))
    (h : Meets (step cfg) Goes ⟨.recheck (.start b.group b.built), []⟩ as) :
    Follows b (cycle cfg b as)
      (run (follow cfg) (claimNext cfg m (.building c b.group) (.claimBuilds b.results)) as) := by
  have hrun : ∀ s w, Inv cfg b.built s → Follows b s w → Meets (step cfg) Goes s as →
      Follows b (run (step cfg) s as) (run (follow cfg) w as) := by
    clear h
    induction as with
    | nil => exact fun _ _ _ h _ => h
    | cons a as ih => exact fun s w hi h hm => ih _ _ (hi.step b.built_nodup a) (h.step hi hm.1) hm.2
  refine hrun _ _ (inv_start cfg b) ?_ h
  simpa only [Follows, append_nil] using sameStep_start cfg m c b

/-- Of three sessions the second is ejected, after a send that failed and was tried again. -/
theorem cycle_follows_accepted :
    let cfg : Config := { windows := fun _ => Windows.spaced }
    let s (id : Nat) : Snap := ⟨id, 5, "", ""⟩
    let b : Builds := ⟨⟨5, [s 1, s 2, s 3]⟩,
      [(s 1, .built [1] [2]), (s 2, .built [3] [4]), (s 3, .built [5] [6])], by decide, .refl _⟩
    let as := [(15, .go), (15, .round { reply := .failed { rejection := some .broadcast } }),
      (15, .round { reply := .failed { rejection := some (.simulate (some 1)) } }), (16, .go),
      (16, .round { reply := .accepted "tx" }), (16, .go)]
    ejectedIds (cycle cfg b as).log = [2] ∧ claimedIds (cycle cfg b as).log = [1, 3] ∧
      Follows b (cycle cfg b as) (run (follow cfg)
        (claimNext cfg { height := 15 } (.building ⟨[], [], [s 1, s 2, s 3]⟩ b.group) (.claimBuilds b.results)) as) :=
  ⟨by decide, by decide, cycle_follows _ _ _ _ _ ⟨⟨by decide, trivial⟩, ⟨by decide, by simp [Input.Plain]⟩,
    ⟨by decide, by simp [Input.Plain]⟩, ⟨by decide, trivial⟩, ⟨by decide, by simp [Input.Plain]⟩,
    ⟨by decide, trivial⟩, trivial⟩⟩

end Simulation

/-! ## One verdict for each session -/

def settledByBuild : ClaimBuild → Bool
  | .unprofitable | .cuprMismatch => true
  | _ => false

theorem skippedEvents_eq (r : Snap × ClaimBuild) :
    skippedEvents r = if settledByBuild r.2 then [.verdict r.1.id .skipped] else [] := by
  obtain ⟨s, build⟩ := r
  cases build <;> rfl

theorem Builds.skipped_eq_nil (h : ∀ r ∈ b.results, settledByBuild r.2 = false) : b.skipped = [] := by
  refine flatMap_eq_nil_iff.2 fun r hr => ?_
  rw [skippedEvents_eq, h r hr]
  rfl

theorem Builds.mem_skipped {r : Snap × ClaimBuild} (hr : r ∈ b.results) (h : settledByBuild r.2 = true) :
    r.1.id ∈ verdictIds b.skipped := by
  refine mem_filterMap.2 ⟨.verdict r.1.id .skipped, mem_flatMap.2 ⟨r, hr, ?_⟩, rfl⟩
  rw [skippedEvents_eq, h]
  exact mem_singleton.2 rfl

theorem run_closing (cfg : Config) (close : Nat) (todo : List Snap) (log : List Event) :
    run (step cfg) ⟨.closing close todo, log⟩
        (List.replicate todo.length (close + 1, .claimQuery (.notFound 0))) =
      ⟨.closing close [], log ++ todo.map fun s => .verdict s.id .windowClosed⟩ := by
  induction todo generalizing log with
  | nil => simp
  | cons s todo ih =>
    have hstep : step cfg ⟨.closing close (s :: todo), log⟩ (close + 1, .claimQuery (.notFound 0)) =
        ⟨.closing close todo, log ++ [.verdict s.id .windowClosed]⟩ := by
      simp [step, advance, markAndCountClaimWindowClosed, claimReadIsFinal]
    rw [length_cons, replicate_succ, run_cons, hstep, ih]
    simp

theorem exists_closed_run (cfg : Config) (b : Builds) :
    ∃ as, (cycle cfg b as).log = b.group.snaps.map fun s => .verdict s.id .windowClosed := by
  obtain ⟨close, hclose⟩ : ∃ close, (cfg.windows b.group.endHeight).claimClose = close := ⟨_, rfl⟩
  have hstep : step cfg ⟨.recheck (.start b.group b.built), []⟩ (close + 1, .go) =
      ⟨.closing close b.group.snaps, []⟩ := by
    simp [step, advance, Loop.start, hclose]
  refine ⟨(close + 1, .go) :: List.replicate b.group.snaps.length (close + 1, .claimQuery (.notFound 0)), ?_⟩
  rw [cycle, run_cons, hstep, run_closing, nil_append]

/-- The cycle blames the right claim, ends, and settles each session once, whatever the submissions answer, if
and only if no session of its group was settled while the claims were built: those sessions stay in the group and
the group's verdict reaches them too. -/
theorem cycle_sound_iff (cfg : Config) (b : Builds) :
    (∀ as, Sound cfg b (cycle cfg b as)) ↔ ∀ r ∈ b.results, settledByBuild r.2 = false := by
  constructor
  · intro h r hr
    by_contra hsettled
    have hskip := Builds.mem_skipped hr (by simpa using hsettled)
    obtain ⟨as, has⟩ := exists_closed_run cfg b
    have honce := (h as).once
    rw [has, verdictIds_append, verdictIds_map_verdict] at honce
    have hgroup : r.1.id ∈ b.group.snaps.map (·.id) :=
      mem_map_of_mem (Builds.mem_group (mem_map_of_mem (f := (·.1)) hr))
    exact (nodup_append.1 honce).2.2 _ hskip _ hgroup rfl
  intro h as
  obtain ⟨allowed, once, stage, budget⟩ := inv_cycle cfg b as
  refine ⟨by omega, fun hs => ?_, allowed, by simpa [Builds.skipped_eq_nil h] using once⟩
  generalize cycle cfg b as = s at stage budget hs
  obtain ⟨stage', log⟩ := s
  cases stage' with
  | sending l =>
    have ha : l.attempt ≤ cfg.claimRetryAttempts := Running.attempt stage
    simp only [Stage.sendsLeft] at budget
    simp only
    omega
  | _ => simp [Stage.isSending] at hs

/-- A session is skipped as unprofitable, the batch without it misses the window, and the session is booked a second
time: the store takes `claim_window_closed` over `claim_skipped`. -/
theorem skipped_session_settled_twice :
    let cfg : Config := { windows := fun _ => ⟨10, 20, 30, 40, by decide, by decide, by decide⟩ }
    let b : Builds :=
      { group := ⟨5, [⟨1, 5, "", ""⟩, ⟨2, 5, "", ""⟩]⟩
        results := [(⟨1, 5, "", ""⟩, .unprofitable), (⟨2, 5, "", ""⟩, .built [1] [2])]
        nodup := by decide
        perm := .refl _ }
    let s := cycle cfg b [(15, .go), (15, .round { reply := .failed { windowExpired := true } }),
      (21, .claimQuery (.notFound 21)), (21, .claimQuery (.notFound 21)), (21, .go)]
    s.stage = .done ∧
      (b.skipped ++ s.log).filter (fun e => verdictId e = some 1) =
        [.verdict 1 .skipped, .verdict 1 .windowClosed] ∧
      (Callback.onClaimWindowClosed.book (Callback.onClaimSkipped.book { state := .claiming })).state =
        .claimWindowClosed := by
  decide

end RelayMiner.Lifecycle.Ejection
