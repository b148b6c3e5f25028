import Mathlib.Data.List.Sort
import RelayMiner.Lib.Process
import RelayMiner.Lifecycle.Transitions
import RelayMiner.Lifecycle.Writes
/-!
# The claim cycle and the proof cycle

`executeBatchedClaimTransition` with `OnSessionsNeedClaim`, and
`executeBatchedProofTransition` with `OnSessionsNeedProof`, as a process that
goes from stage to stage: at each stage it asks one question (a read, a build, a
submission) or looks at the height, and queues the writes it makes next. The
answers come from outside and are arbitrary; blocks pass at any time.
-/
open RelayMiner.Lib RelayMiner.Session

namespace RelayMiner.Lifecycle

open List

structure Snap where
  id : SessionID
  endHeight : Nat
  claimTxHash : String := ""
  proofTxHash : String := ""
  deriving DecidableEq

structure Config where
  claimRetryAttempts : Nat := 3
  proofRetryAttempts : Nat := 3
  claim_pos : 0 < claimRetryAttempts := by decide
  proof_pos : 0 < proofRetryAttempts := by decide
  rebroadcastStore : Bool := true
  preProofGuard : Bool := true
  windows : Nat → Windows

/-! ## What the world answers -/

inductive ClaimBuild where
  | built (root msg : Bytes)
  | failed
  | emptyTree
  | unprofitable
  | cuprMismatch
  deriving DecidableEq

/-- How a submission ends; `refused` is any error the cycle has no case for, a lost reply among them. -/
inductive Submit where
  | accepted (txHash : String)
  | windowExpired
  | windowRefused
  | named (i : Nat)
  | nothingSpent
  | notRequired (i : Option Nat)
  | closestRefused
  | refused
  deriving DecidableEq

inductive ProofStatus where
  | pending | validated | invalid | unknown
  deriving DecidableEq

/-- The chain's answer to `GetClaim`, with the height a negative was read at (0 if the node gave none). -/
inductive ClaimQuery where
  | found (root : Bytes) (status : ProofStatus)
  | notFound (answeredHeight : Nat)
  | error

inductive Requirement where
  | required | notRequired | unreadable | unavailable | error

inductive Answer where
  | go
  | read (ok : Bool)
  | claimBuilds (results : List (Snap × ClaimBuild))
  | proofBuild (msg : Option Bytes)
  | claimQuery (q : ClaimQuery)
  | requirement (r : Requirement)
  | submit (r : Submit) (ctxDone : Bool)
  | shapeChanged

structure Mem where
  height : Nat
  claimBuild : SessionID → Option ClaimBuild := fun _ => none
  proofBuild : SessionID → Option (Option Bytes) := fun _ => none
  judged : SessionID → Option ProofStatus := fun _ => none
  sent : Phase → SessionID → Option Submit := fun _ _ => none

def Mem.message (m : Mem) : Phase → SessionID → Option Bytes
  | .claim, id =>
    match m.claimBuild id with
    | some (.built _ msg) => some msg
    | _ => none
  | .proof, id => (m.proofBuild id).join

def happenBlocks (m : Mem) (blocks : Nat) : Mem := { m with height := m.height + blocks }

def Mem.recordClaimBuilds (m : Mem) (results : List (Snap × ClaimBuild)) : Mem :=
  { m with claimBuild := fun id => (((results.find? (·.1.id = id)).map (·.2)).or (m.claimBuild id)) }

def Mem.recordJudged (m : Mem) (id : SessionID) : ClaimQuery → Mem
  | .found _ status => { m with judged := Function.update m.judged id (some status) }
  | _ => m

def Mem.recordSent (m : Mem) (phase : Phase) (ids : List SessionID) (r : Submit) : Mem :=
  { m with sent := Function.update m.sent phase fun id => if id ∈ ids then some r else m.sent phase id }

def nothingWasSpent : Submit → Bool
  | .nothingSpent => true
  | _ => false

/-! ## Claims -/

structure Group where
  endHeight : Nat
  snaps : List Snap
  deriving DecidableEq

def insertGroup (s : Snap) : List Group → List Group
  | [] => [⟨s.endHeight, [s]⟩]
  | g :: gs => if g.endHeight = s.endHeight then { g with snaps := g.snaps ++ [s] } :: gs else g :: insertGroup s gs

/-- Sessions that share a window travel together, the window that closes first in front. -/
def groupByEndHeight (snaps : List Snap) : List Group :=
  (snaps.foldl (fun gs s => insertGroup s gs) []).insertionSort (·.endHeight ≤ ·.endHeight)

theorem perm_insertGroup (s : Snap) (gs : List Group) :
    ((insertGroup s gs).flatMap (·.snaps)).Perm (s :: gs.flatMap (·.snaps)) := by
  induction gs with
  | nil => simp [insertGroup]
  | cons g gs ih =>
    unfold insertGroup
    split
    · simp only [flatMap_cons, append_assoc]
      exact perm_middle
    · exact (ih.append_left _).trans perm_middle

/-- Grouping only reorders. -/
theorem perm_groupByEndHeight (snaps : List Snap) : ((groupByEndHeight snaps).flatMap (·.snaps)).Perm snaps := by
  have hfold : ∀ (xs : List Snap) (gs : List Group),
      ((xs.foldl (fun gs s => insertGroup s gs) gs).flatMap (·.snaps)).Perm (xs ++ gs.flatMap (·.snaps)) := by
    intro xs
    induction xs with
    | nil => exact fun gs => .refl _
    | cons x xs ih =>
      intro gs
      exact (ih _).trans (((perm_insertGroup x gs).append_left xs).trans perm_middle)
  have := hfold snaps []
  simp only [flatMap_nil, append_nil] at this
  exact ((perm_insertionSort _ _).flatMap_right _).trans this

structure Built where
  snap : Snap
  root : Bytes
  msg : Bytes
  deriving DecidableEq

structure ClaimCtx where
  rest : List Group
  claimed : List SessionID := []
  batch : List Snap
  deriving DecidableEq

inductive ClaimStage where
  | params (c : ClaimCtx) (g : Group)
  | waitOpen (c : ClaimCtx) (g : Group)
  | timeCheck (c : ClaimCtx) (g : Group)
  | building (c : ClaimCtx) (g : Group)
  | recheck (c : ClaimCtx) (g : Group) (remaining : List Built)
  | sending (c : ClaimCtx) (g : Group) (remaining : List Built) (attempt : Nat)
  | ejected (c : ClaimCtx) (g : Group) (remaining : List Built) (attempt : Nat)
  | accepted (c : ClaimCtx) (remaining : List Built) (txHash : String)
  | failed (c : ClaimCtx) (g : Group) (remaining : List Built) (lastErr : Submit)
  | closing (c : ClaimCtx) (close : Nat) (todo : List Snap)
  | settling (c : ClaimCtx)
  | next (c : ClaimCtx)
  | done
  deriving DecidableEq

def deferClaims (snaps : List Snap) : List Write := snaps.map fun s => .session s.id .onClaimDeferred

def persistRebroadcastEntry (phase : Phase) (id : SessionID) (height : Nat) (txHash : String) (msg : Bytes) : Write :=
  .put phase id ⟨msg, height, txHash⟩

def builtOf (r : Snap × ClaimBuild) : Option Built :=
  match r.2 with
  | .built root msg => some ⟨r.1, root, msg⟩
  | _ => none

theorem snap_builtOf {r : Snap × ClaimBuild} {b : Built} (h : builtOf r = some b) : b.snap = r.1 := by
  unfold builtOf at h
  split at h
  · rw [← Option.some.inj h]
  · cases h

theorem snap_builtOf_sublist (results : List (Snap × ClaimBuild)) :
    ((results.filterMap builtOf).map (·.snap)).Sublist (results.map (·.1)) := by
  induction results with
  | nil => simp
  | cons r results ih =>
    cases hr : builtOf r with
    | none => simpa [hr] using ih.cons r.1
    | some b => simpa [hr, snap_builtOf hr] using ih

/-- `OnClaimSkipped` for the sessions skipped for good; an empty tree is left alone, and so is a failed build. -/
def skippedWrites (r : Snap × ClaimBuild) : List Write :=
  match r.2 with
  | .unprofitable | .cuprMismatch => [.deleteTree r.1.id, .session r.1.id .onClaimSkipped]
  | _ => []

def settleEjectedClaim (cfg : Config) (height : Nat) (b : Built) : List Write :=
  if cfg.rebroadcastStore then
    [persistRebroadcastEntry .claim b.snap.id height "" b.msg, .session b.snap.id (.onClaimTxError .attempt)]
  else [.session b.snap.id (.onClaimTxError .forgone)]

def withoutSession (g : Group) (id : SessionID) : Group := { g with snaps := g.snaps.filter (·.id ≠ id) }

def markClaimWindowClosed (height close : Nat) (s : Snap) : ClaimQuery → List Write
  | .found root _ => [.session s.id (.onClaimObservedOnChain root s.claimTxHash)]
  | .notFound _ => if claimReadIsFinal height close then [.session s.id .onClaimWindowClosed] else []
  | .error => []

def acceptedClaims (cfg : Config) (height : Nat) (remaining : List Built) (txHash : String) : List Write :=
  (remaining.map fun b => .session b.snap.id (.onSessionClaimed b.root txHash)) ++
    if cfg.rebroadcastStore ∧ txHash ≠ "" then
      remaining.map fun b => persistRebroadcastEntry .claim b.snap.id height txHash b.msg
    else []

def failedClaims (cfg : Config) (height : Nat) (g : Group) (remaining : List Built) (lastErr : Submit) : List Write :=
  (if nothingWasSpent lastErr then []
    else g.snaps.map fun s =>
      .session s.id (.onClaimTxError (if cfg.rebroadcastStore then .attempt else .forgone))) ++
    if cfg.rebroadcastStore then remaining.map fun b => persistRebroadcastEntry .claim b.snap.id height "" b.msg else []

def retryClaims (cfg : Config) (c : ClaimCtx) (g : Group) (remaining : List Built) (attempt : Nat) (r : Submit)
    (ctxDone : Bool) : ClaimStage :=
  if attempt < cfg.claimRetryAttempts then
    if ctxDone then .next { c with rest := [] } else .sending c g remaining (attempt + 1)
  else .failed c g remaining r

def submitClaims (cfg : Config) (m : Mem) (c : ClaimCtx) (g : Group) (remaining : List Built) (attempt : Nat)
    (r : Submit) (ctxDone : Bool) : List Write × ClaimStage :=
  let close := (cfg.windows g.endHeight).claimClose
  match r with
  | .accepted txHash => ([], .accepted c remaining txHash)
  | .windowExpired => ([], .closing c close g.snaps)
  | .windowRefused =>
    -- Final only if our own height has reached the close: the node may be behind it.
    if close ≤ m.height then ([], .closing c close g.snaps) else (deferClaims g.snaps, .next c)
  | .named i =>
    match remaining[i]? with
    | some b =>
      if 1 < remaining.length then
        (settleEjectedClaim cfg m.height b,
          .ejected c (withoutSession g b.snap.id) (remaining.eraseIdx i) attempt)
      else ([], retryClaims cfg c g remaining attempt r ctxDone)
    | none => ([], retryClaims cfg c g remaining attempt r ctxDone)
  | _ => ([], retryClaims cfg c g remaining attempt r ctxDone)

def candidates (g : Group) : List Snap := g.snaps.filter (·.claimTxHash = "")

def claimNext (cfg : Config) (m : Mem) : ClaimStage → Answer → List Write × ClaimStage × Mem
  | .params c g, .read ok => if ok then ([], .waitOpen c g, m) else (deferClaims g.snaps, .next c, m)
  | .waitOpen c g, .read ok =>
    if ok then
      if (cfg.windows g.endHeight).claimOpen ≤ m.height then ([], .timeCheck c g, m) else ([], .waitOpen c g, m)
    else (deferClaims g.snaps, .next c, m)
  | .timeCheck c g, _ =>
    let close := (cfg.windows g.endHeight).claimClose
    if close ≤ m.height + 2 then ([], .closing c close g.snaps, m) else ([], .building c g, m)
  | .building c g, .claimBuilds results =>
    if (results.map (·.1)).Perm (candidates g) then
      (results.flatMap skippedWrites, .recheck c g (results.filterMap builtOf), m.recordClaimBuilds results)
    else ([], .building c g, m)
  | .recheck c g remaining, _ =>
    let close := (cfg.windows g.endHeight).claimClose
    if close ≤ m.height then ([], .closing c close g.snaps, m) else ([], .sending c g remaining 1, m)
  | .sending c g remaining attempt, .submit r ctxDone =>
    let m' := m.recordSent .claim (remaining.map (·.snap.id)) r
    let d := submitClaims cfg m' c g remaining attempt r ctxDone
    (d.1, d.2, m')
  | .ejected c g remaining attempt, _ =>
    let close := (cfg.windows g.endHeight).claimClose
    if close ≤ m.height then ([], .closing c close g.snaps, m) else ([], .sending c g remaining attempt, m)
  | .accepted c remaining txHash, _ =>
    (acceptedClaims cfg m.height remaining txHash,
      .settling { c with claimed := c.claimed ++ remaining.map (·.snap.id) }, m)
  | .failed c g remaining lastErr, _ => (failedClaims cfg m.height g remaining lastErr, .settling c, m)
  | .closing c close (s :: todo), .claimQuery q => (markClaimWindowClosed m.height close s q, .closing c close todo, m)
  | .closing c _ [], _ => ([], .next c, m)
  | .settling c, _ => ([], .next c, m)
  | .next c, _ =>
    match c.rest with
    | g :: rest => ([], .params { c with rest := rest } g, m)
    -- The end of the batched transition: the sessions the cycle named.
    | [] => ((c.batch.filter (·.id ∈ c.claimed)).map fun s => .session s.id .claimed, .done, m)
  | stage, _ => ([], stage, m)

/-- The snapshots `executeBatchedClaimTransition` goes on with: a session the store has as claimed is dropped,
and one it could not read is taken from memory. -/
def refresh (s : Stores) (readFails : SessionID → Bool) (batch : List Snap) : List Snap :=
  batch.filterMap fun snap =>
    let fresh := s.sessions snap.id
    if readFails snap.id then some snap
    else if fresh.claimTxHash ≠ "" ∨ fresh.state = .claimed then none
    else some { snap with claimTxHash := fresh.claimTxHash }

def startClaims (batch : List Snap) : ClaimStage := .next { rest := groupByEndHeight batch, batch := batch }

/-! ## Proofs -/

structure ProofCtx where
  rest : List Snap
  settled : List SessionID := []
  batch : List Snap
  deriving DecidableEq

inductive ProofStage where
  | params (c : ProofCtx) (s : Snap)
  | waitOpen (c : ProofCtx) (s : Snap)
  | waitSeed (c : ProofCtx) (s : Snap)
  | guard (c : ProofCtx) (s : Snap)
  | required (c : ProofCtx) (s : Snap)
  | waitEarliest (c : ProofCtx) (s : Snap)
  | timeCheck (c : ProofCtx) (s : Snap)
  | stillRequired (c : ProofCtx) (s : Snap)
  | building (c : ProofCtx) (s : Snap)
  | recheck (c : ProofCtx) (s : Snap) (msg : Bytes)
  | sending (c : ProofCtx) (s : Snap) (msg : Bytes) (attempt : Nat)
  | accepted (c : ProofCtx) (s : Snap) (msg : Bytes) (txHash : String)
  | failed (c : ProofCtx) (s : Snap) (msg : Bytes) (lastErr : Submit)
  | settling (c : ProofCtx)
  | next (c : ProofCtx)
  | done
  deriving DecidableEq

def groupOnePerSession (snaps : List Snap) : List Snap := snaps.insertionSort (·.endHeight ≤ ·.endHeight)

def deferProof (s : Snap) : List Write := [.session s.id .onProofDeferred]

def preProofGuard (w : Windows) (height : Nat) (c : ProofCtx) (s : Snap) : ClaimQuery → Option (List Write × ProofStage)
  | .found _ .validated => some ([], .next { c with settled := c.settled ++ [s.id] })
  | .found _ .invalid => some ([], .next c)
  | .found _ _ => none
  | .notFound answeredHeight =>
    if height + 1 < w.proofClose then some (deferProof s, .next c)
    else if answeredHeight < w.claimClose then none
    else some ([.session s.id .onClaimMissing], .next c)
  | .error => none

def checkRequired (c : ProofCtx) (s : Snap) (goOn : ProofStage) : Requirement → List Write × ProofStage
  | .unreadable => (deferProof s, .next c)
  | .unavailable => ([.session s.id .onProofTxError], .next c)
  | .notRequired => ([.session s.id .onProbabilisticProved], .next c)
  | .required | .error => ([], goOn)

/-- The chain needs no proof for the message it named; unnamed, the session takes the error. No entry is
stored either way. -/
def settleNotRequiredBatch (s : Snap) (named : Option Nat) : List Write :=
  if named = some 0 then [.session s.id .onProbabilisticProved] else [.session s.id .onProofTxError]

def retryProof (cfg : Config) (c : ProofCtx) (s : Snap) (msg : Bytes) (attempt : Nat) (r : Submit) (ctxDone : Bool) :
    ProofStage :=
  if attempt < cfg.proofRetryAttempts then
    if ctxDone then .next { c with rest := [] } else .sending c s msg (attempt + 1)
  else .failed c s msg r

def submitProof (cfg : Config) (m : Mem) (c : ProofCtx) (s : Snap) (msg : Bytes) (attempt : Nat) (r : Submit)
    (ctxDone : Bool) : List Write × ProofStage :=
  let close := (cfg.windows s.endHeight).proofClose
  match r with
  | .accepted txHash => ([], .accepted c s msg txHash)
  | .notRequired named => (settleNotRequiredBatch s named, .next c)
  | .closestRefused => (deferProof s, .next c)
  | .windowExpired => ([.session s.id .onProofWindowClosed], .next c)
  | .windowRefused =>
    if close ≤ m.height then ([.session s.id .onProofWindowClosed], .next c) else (deferProof s, .next c)
  | _ => ([], retryProof cfg c s msg attempt r ctxDone)

def acceptedProof (cfg : Config) (height : Nat) (s : Snap) (msg : Bytes) (txHash : String) : List Write :=
  .session s.id (.onProofSubmitted txHash) ::
    if cfg.rebroadcastStore ∧ txHash ≠ "" then [persistRebroadcastEntry .proof s.id height txHash msg] else []

def failedProof (cfg : Config) (height : Nat) (s : Snap) (msg : Bytes) (lastErr : Submit) : List Write :=
  (if nothingWasSpent lastErr then [] else [.session s.id .onProofTxError]) ++
    if cfg.rebroadcastStore then [persistRebroadcastEntry .proof s.id height "" msg] else []

def provedWrites (s : Snap) : List Write :=
  [.session s.id .onSessionProved, .deleteTree s.id, .session s.id .onSessionProved]

def proofNext (cfg : Config) (m : Mem) : ProofStage → Answer → List Write × ProofStage × Mem
  | .params c s, .read ok => if ok then ([], .waitOpen c s, m) else (deferProof s, .next c, m)
  | .waitOpen c s, .read ok =>
    if ok then
      if (cfg.windows s.endHeight).proofOpen ≤ m.height then ([], .waitSeed c s, m) else ([], .waitOpen c s, m)
    else (deferProof s, .next c, m)
  | .waitSeed c s, .read ok => if ok then ([], .guard c s, m) else (deferProof s, .next c, m)
  | .guard c s, .claimQuery q =>
    if s.proofTxHash ≠ "" then ([], .next c, m)
    else if cfg.preProofGuard then
      let m' := m.recordJudged s.id q
      match preProofGuard (cfg.windows s.endHeight) m.height c s q with
      | some d => (d.1, d.2, m')
      | none => ([], .required c s, m')
    else ([], .required c s, m)
  | .required c s, .requirement r =>
    let d := checkRequired c s (.waitEarliest c s) r
    (d.1, d.2, m)
  | .waitEarliest c s, .read ok => if ok then ([], .timeCheck c s, m) else (deferProof s, .next c, m)
  | .timeCheck c s, _ =>
    if (cfg.windows s.endHeight).proofClose ≤ m.height then ([.session s.id .onProofWindowClosed], .next c, m)
    else ([], .stillRequired c s, m)
  | .stillRequired c s, .requirement r =>
    let d := checkRequired c s (.building c s) r
    (d.1, d.2, m)
  | .building c s, .proofBuild msg =>
    let m' := { m with proofBuild := Function.update m.proofBuild s.id (some msg) }
    match msg with
    | some msg => ([], .recheck c s msg, m')
    -- Nothing is built: the session is not touched.
    | none => ([], .next c, m')
  | .recheck c s msg, _ =>
    if (cfg.windows s.endHeight).proofClose ≤ m.height then ([.session s.id .onProofWindowClosed], .next c, m)
    else ([], .sending c s msg 1, m)
  | .sending c s _ _, .shapeChanged => (deferProof s, .next c, m)
  | .sending c s msg attempt, .submit r ctxDone =>
    let m' := m.recordSent .proof [s.id] r
    let d := submitProof cfg m' c s msg attempt r ctxDone
    (d.1, d.2, m')
  | .accepted c s msg txHash, _ =>
    (acceptedProof cfg m.height s msg txHash, .settling { c with settled := c.settled ++ [s.id] }, m)
  | .failed c s msg lastErr, _ => (failedProof cfg m.height s msg lastErr, .settling c, m)
  | .settling c, _ => ([], .next c, m)
  | .next c, _ =>
    match c.rest with
    | s :: rest => ([], .params { c with rest := rest } s, m)
    | [] => ((c.batch.filter (·.id ∈ c.settled)).flatMap provedWrites, .done, m)
  | stage, _ => ([], stage, m)

def startProofs (batch : List Snap) : ProofStage := .next { rest := groupOnePerSession batch, batch := batch }

/-! ## What a cycle writes -/

section
variable {cfg : Config} {w : Write} {height : Nat} {txHash : String} {remaining : List Built} {x : Snap} {msg : Bytes}

theorem mem_skippedWrites {r : Snap × ClaimBuild} (h : w ∈ skippedWrites r) :
    builtOf r = none ∧ (w = .deleteTree r.1.id ∨ w = .session r.1.id .onClaimSkipped) := by
  obtain ⟨x, b⟩ := r
  cases b with
  | unprofitable | cuprMismatch => exact ⟨rfl, by simpa [skippedWrites] using h⟩
  | _ => cases h

theorem mem_settleEjectedClaim {b : Built} (h : w ∈ settleEjectedClaim cfg height b) :
    w = persistRebroadcastEntry .claim b.snap.id height "" b.msg ∨ ∃ v, w = .session b.snap.id (.onClaimTxError v) := by
  unfold settleEjectedClaim at h
  split at h
  · exact (mem_cons.1 h).imp_right fun h => ⟨_, mem_singleton.1 h⟩
  · exact .inr ⟨_, mem_singleton.1 h⟩

theorem mem_markClaimWindowClosed {close : Nat} {q : ClaimQuery} (h : w ∈ markClaimWindowClosed height close x q) :
    w = .session x.id .onClaimWindowClosed ∨ ∃ root, w = .session x.id (.onClaimObservedOnChain root x.claimTxHash) := by
  unfold markClaimWindowClosed at h
  split at h
  · exact .inr ⟨_, mem_singleton.1 h⟩
  · split at h
    · exact .inl (mem_singleton.1 h)
    · cases h
  · cases h

theorem mem_acceptedClaims (h : w ∈ acceptedClaims cfg height remaining txHash) :
    ∃ b ∈ remaining, w = .session b.snap.id (.onSessionClaimed b.root txHash) ∨
      w = persistRebroadcastEntry .claim b.snap.id height txHash b.msg := by
  rcases mem_append.1 h with h | h
  · obtain ⟨b, hb, rfl⟩ := mem_map.1 h
    exact ⟨b, hb, .inl rfl⟩
  split at h
  · obtain ⟨b, hb, rfl⟩ := mem_map.1 h
    exact ⟨b, hb, .inr rfl⟩
  · cases h

theorem mem_failedClaims {g : Group} {r : Submit} (h : w ∈ failedClaims cfg height g remaining r) :
    (∃ x ∈ g.snaps, ∃ v, w = .session x.id (.onClaimTxError v)) ∨
      ∃ b ∈ remaining, w = persistRebroadcastEntry .claim b.snap.id height "" b.msg := by
  rcases mem_append.1 h with h | h
  · split at h
    · cases h
    · obtain ⟨x, hx, rfl⟩ := mem_map.1 h
      exact .inl ⟨x, hx, _, rfl⟩
  split at h
  · obtain ⟨b, hb, rfl⟩ := mem_map.1 h
    exact .inr ⟨b, hb, rfl⟩
  · cases h

theorem mem_acceptedProof (h : w ∈ acceptedProof cfg height x msg txHash) :
    w = .session x.id (.onProofSubmitted txHash) ∨ w = persistRebroadcastEntry .proof x.id height txHash msg := by
  refine (mem_cons.1 h).imp_right fun h => ?_
  split at h
  · exact mem_singleton.1 h
  · cases h

theorem mem_failedProof {r : Submit} (h : w ∈ failedProof cfg height x msg r) :
    w = .session x.id .onProofTxError ∨ w = persistRebroadcastEntry .proof x.id height "" msg := by
  rcases mem_append.1 h with h | h
  · split at h
    · cases h
    · exact .inl (mem_singleton.1 h)
  split at h
  · exact .inr (mem_singleton.1 h)
  · cases h
end

/-! ## A cycle as a process -/

inductive Stage where
  | claims (t : ClaimStage)
  | proofs (t : ProofStage)
  deriving DecidableEq

def next (cfg : Config) (m : Mem) : Stage → Answer → List Write × Stage × Mem
  | .claims t, a => ((claimNext cfg m t a).1, .claims (claimNext cfg m t a).2.1, (claimNext cfg m t a).2.2)
  | .proofs t, a => ((proofNext cfg m t a).1, .proofs (proofNext cfg m t a).2.1, (proofNext cfg m t a).2.2)

abbrev Cycle := Proc Stores Write Stage Mem

abbrev CycleTick := Tick Answer Nat

/-- The next answer to the cycle, its next write, a block, or a crash. -/
def step (cfg : Config) : Cycle → CycleTick → Cycle := stepProc execWrite (next cfg) happenBlocks

end RelayMiner.Lifecycle
