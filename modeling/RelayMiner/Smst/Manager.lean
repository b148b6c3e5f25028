import RelayMiner.Smst.NodeStore
/-!
# The tree manager of one session

`RedisSMSTManager` (`smst_manager.go`), for one supplier and session. Calls take
the tree's pointer first and its lock later, so a tree evicted in between, and
replaced by a resumed one, may still be written by the call that holds it: trees
are kept by generation, and `resident` says which of them is in the map.

Every action makes at most one write to the store, so a crash between two
actions is a crash between two writes. A call that writes twice under the tree's
lock leaves what is still to be written in `phase`.

Left out: TTLs, `stats`, the compacted form of a settled session.
-/
open RelayMiner.Lib RelayMiner.Session Function

namespace RelayMiner.Smst

structure Records (K V : Type) where
  nodes : K → Option V := fun _ => none
  liveRoot : Option Bytes := none
  claimedRoot : Option Bytes := none

inductive Phase where
  | idle
  | liveRoot (unload : Bool)
  | exitRoot
  | claimedRoot
  deriving DecidableEq

/-- `redisSMST`. The trie is its root in memory and the root its last `Commit` handed over. -/
structure Tree (K V : Type) where
  root : Bytes
  committed : Bytes
  store : NodeStore K V := {}
  sealing : Bool := false
  claimedRoot : Option Bytes := none
  liveRoot : Option Bytes := none
  unloaded : Bool := false
  phase : Phase := .idle

structure Miner (K V : Type) where
  trees : Nat → Option (Tree K V) := fun _ => none
  resident : Option Nat := none
  treeGen : Nat := 0
  evictionCount : Nat := 0
  disk : Records K V := {}

def isValidSMSTRoot (r : Bytes) : Bool := r.length = smstRootLen

def persistentCorruptionThreshold : Nat := 3

variable {K V L : Type}

/-! ## Resume -/

structure ResumeEnv where
  claimedRead : Bool := true
  claimedImport : Bool := true
  liveRead : Bool := true
  liveImport : Bool := true
  delClaimed : Fault := .ok
  delLive : Fault := .ok

/-- A stored value as a read that may fail returns it; an absent key and an empty value read the same. -/
def readRoot (answered : Bool) (stored : Option Bytes) : Bytes := if answered then stored.getD [] else []

def delClaimedRoot (f : Fault) (d : Records K V) : Records K V :=
  if f = .refused then d else { d with claimedRoot := none }

def delLiveRoot (f : Fault) (d : Records K V) : Records K V :=
  if f = .refused then d else { d with liveRoot := none }

/-- The second half of `resumeTreeFromRedisLocked`: live_root, when no claimed_root is there. -/
def resumeLive (e : ResumeEnv) (d : Records K V) : Option (Tree K V) × Records K V :=
  let live := readRoot e.liveRead d.liveRoot
  if live = [] then (none, d)
  else if !isValidSMSTRoot live then (none, delLiveRoot e.delLive d)
  else if e.liveImport then (some { root := live, committed := live, liveRoot := some live }, d)
  else (none, delLiveRoot e.delLive d)

/-- `resumeTreeFromRedisLocked`. A read that fails is a root that is not there. -/
def resumeTreeFromRedis (e : ResumeEnv) (d : Records K V) : Option (Tree K V) × Records K V :=
  let claimed := readRoot e.claimedRead d.claimedRoot
  if claimed = [] then resumeLive e d
  else if !isValidSMSTRoot claimed then resumeLive e (delClaimedRoot e.delClaimed d)
  else if e.claimedImport then (some { root := claimed, committed := claimed, claimedRoot := some claimed }, d)
  else (none, delClaimedRoot e.delClaimed d)

def addTree (s : Miner K V) (t : Tree K V) : Miner K V :=
  { s with
    trees := update s.trees (s.treeGen + 1) (some t)
    resident := some (s.treeGen + 1)
    treeGen := s.treeGen + 1 }

def getOrCreateTree (T : Trie K V L) (e : ResumeEnv) (s : Miner K V) : Miner K V :=
  match s.resident with
  | some _ => s
  | none =>
    let r := resumeTreeFromRedis e s.disk
    addTree { s with disk := r.2 } (r.1.getD { root := T.empty, committed := T.empty })

variable [DecidableEq K]

/-! ## Commit -/

inductive CommitFault (K : Type) where
  | written (orphans : List K) (put : PutFault K)
  | stopped (handed : List K)

def commitLocked (T : Trie K V L) (t : Tree K V) (hash : K → Option V) (f : CommitFault K) :
    Tree K V × (K → Option V) × Bool :=
  let n := t.store.beginPipeline
  match f with
  | .stopped handed =>
    let p := T.commitPart (n, hash) t.committed t.root handed
    ({ t with store := p.1 }, p.2, false)
  | .written orphans put =>
    let p := T.commit (n, hash) t.committed t.root orphans
    let w := p.1.flushPipeline p.2 put
    ({ t with store := w.1, committed := t.root }, w.2.1, w.2.2)

inductive Purpose where
  | commitTree | checkpoint | unload | exit | flushTree
  deriving DecidableEq

def prepare (t : Tree K V) : Purpose → Tree K V × Bool
  | .commitTree => (t, true)
  | .checkpoint => (t, true)
  | .exit => (t, isValidSMSTRoot t.root)
  | .unload => (t, !(t.unloaded || (t.sealing && t.claimedRoot.isNone)))
  | .flushTree =>
    -- The second locked part of `FlushTree`, after the seal and the wait.
    if t.claimedRoot.isNone && !t.sealing then (t, false)
    else ({ t with claimedRoot := some (t.claimedRoot.getD t.root) }, isValidSMSTRoot (t.claimedRoot.getD t.root))

def afterCommit (t : Tree K V) : Purpose → Tree K V
  | .commitTree => t
  | .checkpoint => { t with phase := .liveRoot false }
  | .unload => if t.claimedRoot.isNone then { t with phase := .liveRoot true } else { t with unloaded := true }
  | .exit => { t with phase := .exitRoot }
  | .flushTree => { t with phase := .claimedRoot }

def setTree (s : Miner K V) (g : Nat) (t : Tree K V) : Miner K V :=
  { s with trees := update s.trees g (some t) }

def commitTree (T : Trie K V L) (s : Miner K V) (g : Nat) (t : Tree K V) (p : Purpose) (f : CommitFault K) :
    Miner K V :=
  let t0 := (prepare t p).1
  if (prepare t p).2 then
    let c := commitLocked T t0 s.disk.nodes f
    let s' := { s with disk := { s.disk with nodes := c.2.1 } }
    if c.2.2 then { setTree s' g (afterCommit c.1 p) with evictionCount := 0 } else setTree s' g c.1
  else setTree s g t0

/-! ## Storing a root -/

/-- `FlushOrphansWithLiveRoot`: buffered nodes first, then orphans and root in one transaction. -/
def storeLiveRoot (s : Miner K V) (g : Nat) (t : Tree K V) (unload : Bool) (put : PutFault K) (f : Fault) :
    Miner K V :=
  if !isValidSMSTRoot t.root then setTree s g { t with phase := .idle }
  else if !t.store.pipelineBuffer.isEmpty then
    let w := t.store.writePendingNodes s.disk.nodes put
    setTree { s with disk := { s.disk with nodes := w.2.1 } } g
      { t with store := w.1, phase := if w.2.2 then t.phase else .idle }
  else
    let disk := if f = .refused then s.disk else
      { s.disk with nodes := remove t.store.orphanBuffer s.disk.nodes, liveRoot := some t.root }
    let t' : Tree K V := if f = .ok then
        { t with
          store := { t.store with orphanBuffer := [] }
          liveRoot := some t.root
          unloaded := unload || t.unloaded }
      else t
    setTree { s with disk := disk } g { t' with phase := .idle }

/-- `setLiveRootIfUnchanged`: only over the live_root this manager knows, and no orphan is deleted. -/
def storeExitRoot (s : Miner K V) (g : Nat) (t : Tree K V) (f : Fault) : Miner K V :=
  if s.disk.liveRoot.getD [] = t.liveRoot.getD [] then
    let disk := if f = .refused then s.disk else { s.disk with liveRoot := some t.root }
    let t' := if f = .ok then { t with liveRoot := some t.root } else t
    setTree { s with disk := disk } g { t' with phase := .idle }
  else setTree s g { t with phase := .idle }

def storeClaimedRoot (s : Miner K V) (g : Nat) (t : Tree K V) (f : Fault) : Miner K V :=
  let disk := if f = .refused then s.disk else { s.disk with claimedRoot := t.claimedRoot }
  setTree { s with disk := disk } g { t with phase := .idle, unloaded := true }

def storeRoot (s : Miner K V) (g : Nat) (t : Tree K V) (put : PutFault K) (f : Fault) : Miner K V :=
  match t.phase with
  | .idle => s
  | .liveRoot unload => storeLiveRoot s g t unload put f
  | .exitRoot => storeExitRoot s g t f
  | .claimedRoot => storeClaimedRoot s g t f

/-! ## The rest -/

/-- `updateTree`, once it has the lock: a sealing or claimed tree takes no relay. -/
def updateTree (T : Trie K V L) (t : Tree K V) (l : L) : Tree K V :=
  if t.sealing || t.claimedRoot.isSome then t else { t with root := T.insert t.root l, unloaded := false }

def sealTree (t : Tree K V) : Tree K V := if t.claimedRoot.isNone then { t with sealing := true } else t

/-- `evictCorruptSessionLocked`: at the third eviction in a row every record of the session goes. -/
def evict (s : Miner K V) (f : Fault) : Miner K V :=
  if s.evictionCount + 1 < persistentCorruptionThreshold then
    { s with resident := none, evictionCount := s.evictionCount + 1 }
  else { s with resident := none, evictionCount := 0, disk := if f = .refused then s.disk else {} }

inductive Act (K L : Type) where
  | getOrCreate (e : ResumeEnv)
  | update (g : Nat) (l : L)
  | sealTree (g : Nat)
  | commit (g : Nat) (p : Purpose) (f : CommitFault K)
  | storeRoot (g : Nat) (put : PutFault K) (f : Fault)
  | evict (f : Fault)
  | crash

def onTree (s : Miner K V) (g : Nat) (act : Tree K V → Miner K V) : Miner K V :=
  match s.trees g with
  | none => s
  | some t => act t

/-- A call of the manager's on the tree of generation `g`; a crash leaves only what is stored. -/
def step (T : Trie K V L) (s : Miner K V) : Act K L → Miner K V
  | .getOrCreate e => getOrCreateTree T e s
  | .update g l => onTree s g fun t => if t.phase = .idle then setTree s g (updateTree T t l) else s
  | .sealTree g => onTree s g fun t => if t.phase = .idle then setTree s g (Smst.sealTree t) else s
  | .commit g p f => onTree s g fun t => if t.phase = .idle then commitTree T s g t p f else s
  | .storeRoot g put f => onTree s g fun t => Smst.storeRoot s g t put f
  | .evict f => Smst.evict s f
  | .crash => { disk := s.disk }

/-! ## What an action can change -/

variable (T : Trie K V L)

theorem commitLocked_tree (t : Tree K V) (hash : K → Option V) (f : CommitFault K) :
    ∃ n c, (commitLocked T t hash f).1 = { t with store := n, committed := c } := by
  cases f with
  | stopped handed => exact ⟨_, t.committed, rfl⟩
  | written orphans put => exact ⟨_, _, rfl⟩

variable (t : Tree K V)

omit [DecidableEq K] in
theorem prepare_cases (p : Purpose) :
    (prepare t p).1 = t ∨
      (p = .flushTree ∧ (prepare t p).1 = { t with claimedRoot := some (t.claimedRoot.getD t.root) }) := by
  cases p with
  | flushTree =>
    simp only [prepare]
    split
    · exact .inl rfl
    · exact .inr ⟨trivial, rfl⟩
  | _ => exact .inl rfl

structure Tree.Like (t t' : Tree K V) : Prop where
  root : t'.root = t.root
  sealing : t'.sealing = t.sealing
  claimedRoot : t'.claimedRoot = t.claimedRoot
  phase : t.phase ≠ .claimedRoot → t'.phase ≠ .claimedRoot

omit [DecidableEq K] in
theorem afterCommit_like {p : Purpose} (hp : p ≠ .flushTree) : t.Like (afterCommit t p) := by
  cases p with
  | unload =>
    simp only [afterCommit]
    split
    · exact ⟨rfl, rfl, rfl, by simp⟩
    · exact ⟨rfl, rfl, rfl, id⟩
  | commitTree => exact ⟨rfl, rfl, rfl, id⟩
  | checkpoint | exit => exact ⟨rfl, rfl, rfl, by simp [afterCommit]⟩
  | flushTree => exact absurd rfl hp

omit [DecidableEq K] in
theorem afterCommit_root (p : Purpose) : (afterCommit t p).root = t.root := by
  by_cases hp : p = .flushTree
  · rw [hp]
    rfl
  · exact (afterCommit_like t hp).root

/-- A commit writes nodes and leaves every root, in memory and in the store. -/
theorem commitTree_frame (s : Miner K V) (g : Nat) (t : Tree K V) (p : Purpose) (f : CommitFault K) :
    ∃ t' hash n, commitTree T s g t p f =
        { s with
          trees := update s.trees g (some t')
          disk := { s.disk with nodes := hash }
          evictionCount := n } ∧
      t'.root = t.root ∧ (p ≠ .flushTree → t.Like t') := by
  obtain ⟨n, c, he⟩ := commitLocked_tree T (prepare t p).1 s.disk.nodes f
  have hroot : (prepare t p).1.root = t.root := by rcases prepare_cases t p with hp | ⟨-, hp⟩ <;> rw [hp]
  have hlike : p ≠ .flushTree → t.Like { (prepare t p).1 with store := n, committed := c } := by
    intro hp
    rw [(prepare_cases t p).resolve_right fun h => hp h.1]
    exact ⟨rfl, rfl, rfl, id⟩
  unfold commitTree
  dsimp only
  rw [he]
  split
  · split
    · refine ⟨_, _, 0, rfl, (afterCommit_root _ p).trans hroot, fun hp => ?_⟩
      obtain ⟨h1, h2, h3, h4⟩ := afterCommit_like { (prepare t p).1 with store := n, committed := c } hp
      obtain ⟨l1, l2, l3, l4⟩ := hlike hp
      exact ⟨h1.trans l1, h2.trans l2, h3.trans l3, fun h => h4 (l4 h)⟩
    · exact ⟨_, _, s.evictionCount, rfl, hroot, hlike⟩
  · exact ⟨_, s.disk.nodes, s.evictionCount, rfl, hroot, fun hp => { hlike hp with }⟩

/-- Storing a root leaves the tree's own, and what it stores is that root or the one the tree is sealed at. -/
theorem storeRoot_frame {s : Miner K V} {g : Nat} {t : Tree K V} (hg : s.trees g = some t) (put : PutFault K)
    (f : Fault) :
    ∃ t' d', storeRoot s g t put f = { s with trees := update s.trees g (some t'), disk := d' } ∧ t.Like t' ∧
      ((d'.liveRoot = s.disk.liveRoot ∧ d'.claimedRoot = s.disk.claimedRoot) ∨
        (d'.liveRoot = some t.root ∧ d'.claimedRoot = s.disk.claimedRoot) ∨
        (t.phase = .claimedRoot ∧ d'.liveRoot = s.disk.liveRoot ∧ d'.claimedRoot = t.claimedRoot)) := by
  unfold storeRoot
  cases hp : t.phase with
  | idle => exact ⟨t, s.disk, by simp [← hg], ⟨rfl, rfl, rfl, id⟩, .inl ⟨rfl, rfl⟩⟩
  | liveRoot unload =>
    dsimp only [storeLiveRoot]
    split
    · exact ⟨_, s.disk, rfl, ⟨rfl, rfl, rfl, by simp⟩, .inl ⟨rfl, rfl⟩⟩
    split
    · refine ⟨_, _, rfl, ⟨rfl, rfl, rfl, ?_⟩, .inl ⟨rfl, rfl⟩⟩
      split
      · exact id
      · simp
    cases f with
    | refused => exact ⟨_, _, rfl, ⟨rfl, rfl, rfl, by simp⟩, .inl ⟨rfl, rfl⟩⟩
    | lost | ok => exact ⟨_, _, rfl, ⟨rfl, rfl, rfl, by simp⟩, .inr (.inl ⟨rfl, rfl⟩)⟩
  | exitRoot =>
    dsimp only [storeExitRoot]
    split
    · cases f with
      | refused => exact ⟨_, _, rfl, ⟨rfl, rfl, rfl, by simp⟩, .inl ⟨rfl, rfl⟩⟩
      | lost | ok => exact ⟨_, _, rfl, ⟨rfl, rfl, rfl, by simp⟩, .inr (.inl ⟨rfl, rfl⟩)⟩
    · exact ⟨_, s.disk, rfl, ⟨rfl, rfl, rfl, by simp⟩, .inl ⟨rfl, rfl⟩⟩
  | claimedRoot =>
    cases f with
    | refused => exact ⟨_, _, rfl, ⟨rfl, rfl, rfl, by simp⟩, .inl ⟨rfl, rfl⟩⟩
    | lost | ok => exact ⟨_, _, rfl, ⟨rfl, rfl, rfl, by simp⟩, .inr (.inr ⟨rfl, rfl, rfl⟩)⟩

/-- What one action can do. -/
theorem step_cases (s : Miner K V) (a : Act K L) :
    step T s a = s ∨
    (∃ e, a = .getOrCreate e ∧ step T s a = getOrCreateTree T e s) ∨
    -- A call that has the lock of tree `g`.
    (∃ g l t, a = .update g l ∧ s.trees g = some t ∧ t.phase = .idle ∧ step T s a = setTree s g (updateTree T t l)) ∨
    (∃ g t, a = .sealTree g ∧ s.trees g = some t ∧ t.phase = .idle ∧ step T s a = setTree s g (sealTree t)) ∨
    (∃ g p f t, a = .commit g p f ∧ s.trees g = some t ∧ t.phase = .idle ∧ step T s a = commitTree T s g t p f) ∨
    (∃ g put f t, a = .storeRoot g put f ∧ s.trees g = some t ∧ step T s a = storeRoot s g t put f) ∨
    -- The tree is dropped, or everything in memory is.
    (∃ f, a = .evict f ∧ step T s a = evict s f) ∨
    (a = .crash ∧ step T s a = { disk := s.disk }) := by
  have hidle : ∀ g (act : Tree K V → Miner K V),
      onTree s g (fun t => if t.phase = .idle then act t else s) = s ∨
      ∃ t, s.trees g = some t ∧ t.phase = .idle ∧
        onTree s g (fun t => if t.phase = .idle then act t else s) = act t := by
    intro g act
    unfold onTree
    cases hg : s.trees g with
    | none => exact .inl rfl
    | some t =>
      by_cases hp : t.phase = .idle
      · exact .inr ⟨t, rfl, hp, if_pos hp⟩
      · exact .inl (if_neg hp)
  cases a with
  | getOrCreate e => exact .inr (.inl ⟨e, rfl, rfl⟩)
  | update g l =>
    rcases hidle g fun t => setTree s g (updateTree T t l) with h | ⟨t, hg, hp, h⟩
    · exact .inl h
    · exact .inr (.inr (.inl ⟨g, l, t, rfl, hg, hp, h⟩))
  | sealTree g =>
    rcases hidle g fun t => setTree s g (Smst.sealTree t) with h | ⟨t, hg, hp, h⟩
    · exact .inl h
    · exact .inr (.inr (.inr (.inl ⟨g, t, rfl, hg, hp, h⟩)))
  | commit g p f =>
    rcases hidle g fun t => commitTree T s g t p f with h | ⟨t, hg, hp, h⟩
    · exact .inl h
    · exact .inr (.inr (.inr (.inr (.inl ⟨g, p, f, t, rfl, hg, hp, h⟩))))
  | storeRoot g put f =>
    cases hg : s.trees g with
    | none => exact .inl (by simp [step, onTree, hg])
    | some t =>
      exact .inr (.inr (.inr (.inr (.inr (.inl ⟨g, put, f, t, rfl, hg, by simp [step, onTree, hg]⟩)))))
  | evict f => exact .inr (.inr (.inr (.inr (.inr (.inr (.inl ⟨f, rfl, rfl⟩))))))
  | crash => exact .inr (.inr (.inr (.inr (.inr (.inr (.inr ⟨rfl, rfl⟩))))))

end RelayMiner.Smst
