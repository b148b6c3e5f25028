import RelayMiner.Smst.Growth
/-!
# The exit checkpoint beside a new owner

A supplier that leaves writes one more checkpoint of its trees
(`CheckpointLiveRootOnExit`, `CheckpointAllOnExit` in `smst_manager.go`): the
nodes, then live_root, if it still holds what this owner last wrote or resumed
from. Its lease may be gone by then and a new owner at work on the same records.
The exit deletes no orphan; the new owner's checkpoints delete its own.

`miner` holds the store and the trees of both owners by generation: the owner's
tree is the resident one, `old` the tree of the owner that is leaving. From
`takeOver` on the old owner makes exit checkpoints only, and its tree takes no
relay once one of them has set live_root. `wrote` is the live_root the new owner
last wrote. Left out, as in `Manager`: TTLs; and here corruption, and a third
owner.
-/
open RelayMiner.Lib RelayMiner.Session Function

namespace RelayMiner.Smst

variable {K V L : Type}

/-- The smt library leaves a trie as it is when it inserts a leaf the trie has. -/
def Trie.Stable (T : Trie K V L) : Prop :=
  ∀ r l, isValidSMSTRoot r = true → T.contains r l = true → T.insert r l = r

namespace Exit

/-- The miner; and once it is taken over, the old owner's tree and exit, and the live_root written last since. -/
structure World (K V : Type) where
  miner : Miner K V := {}
  taken : Bool := false
  old : Option Nat := none
  exited : Bool := false
  wrote : Option Bytes := none

inductive Act (K L : Type) where
  | getOrCreate
  | update (l : L)
  | sealTree
  | commit (p : Purpose) (orphans : List K) (put : PutFault K)
  | storeRoot (put : PutFault K) (f : Fault)
  | takeOver
  | exitUpdate (l : L)
  | exitCommit (orphans : List K) (put : PutFault K)
  | exitRoot (f : Fault)

variable [DecidableEq K] {r : Bytes} {t0 : Tree K V} {s' : Miner K V}

/-- The library orphans nodes of the root it committed last. -/
def orphansOf (T : Trie K V L) (t : Tree K V) (orphans : List K) : List K := orphans.filter (· ∈ T.nodes t.committed)

def onTree (w : World K V) (g : Option Nat) (act : Nat → Tree K V → World K V) : World K V :=
  match g with
  | none => w
  | some g =>
    match w.miner.trees g with
    | none => w
    | some t => act g t

def storesLive (t : Tree K V) (f : Fault) : Bool :=
  match t.phase with
  | .liveRoot _ => isValidSMSTRoot t.root && t.store.pipelineBuffer.isEmpty && decide (f ≠ .refused)
  | _ => false

/-- The owner's calls before the takeover; after it, the new owner's beside what the old one still does. -/
def step (T : Trie K V L) (w : World K V) : Act K L → World K V
  | .getOrCreate => { w with miner := getOrCreateTree T {} w.miner }
  | .update l => onTree w w.miner.resident fun g _ => { w with miner := Smst.step T w.miner (.update g l) }
  | .sealTree => onTree w w.miner.resident fun g _ => { w with miner := Smst.step T w.miner (.sealTree g) }
  | .commit p orphans put =>
    if p = .exit then w
    else onTree w w.miner.resident fun g t =>
      { w with miner := Smst.step T w.miner (.commit g p (.written (orphansOf T t orphans) put)) }
  | .storeRoot put f => onTree w w.miner.resident fun g t =>
      if t.phase = .exitRoot then w
      else
        { w with
          miner := Smst.step T w.miner (.storeRoot g put f)
          wrote := if w.taken && storesLive t f then some t.root else w.wrote }
  | .takeOver =>
    if w.taken then w
    else
      let w' := { w with miner := { w.miner with resident := none }, taken := true, old := w.miner.resident }
      match w.miner.resident with
      | none => w'
      -- The old owner's other writes are made under its lease.
      | some _ => onTree w w.miner.resident fun _ t => if t.phase = .idle then w' else w
  | .exitUpdate l =>
    if w.exited then w else onTree w w.old fun g _ => { w with miner := Smst.step T w.miner (.update g l) }
  | .exitCommit orphans put => onTree w w.old fun g t =>
      { w with miner := Smst.step T w.miner (.commit g .exit (.written (orphansOf T t orphans) put)) }
  | .exitRoot f => onTree w w.old fun g t =>
      if t.phase = .exitRoot then
        { w with
          miner := storeExitRoot w.miner g t f
          exited := w.exited || decide (f = .ok ∧ w.miner.disk.liveRoot.getD [] = t.liveRoot.getD []) }
      else w

/-! ## How far a root is ahead of the one the old owner expects -/

variable {T : Trie K V L}

def Past (T : Trie K V L) (e : Option Bytes) (r : Bytes) : Prop :=
  ∀ x, e = some x → ∃ l, T.contains r l = true ∧ ¬ T.contains x l = true

def Ahead (T : Trie K V L) (e : Option Bytes) (r : Bytes) : Prop := e = some r ∨ Past T e r

variable {e : Option Bytes}

omit [DecidableEq K] in
theorem Past.ne (h : Past T e r) : e ≠ some r := by
  intro he
  obtain ⟨l, hl, hn⟩ := h r he
  exact hn hl

omit [DecidableEq K] in
theorem Past.insert (h : Past T e r) (l : L) : Past T e (T.insert r l) := by
  intro x hx
  obtain ⟨l', hl', hn⟩ := h x hx
  exact ⟨l', (T.contains_insert r l l').2 (.inr hl'), hn⟩

omit [DecidableEq K] in
/-- A relay the expected root has leaves it, any other goes past it. -/
theorem Ahead.insert (hT : T.Stable) (hv : isValidSMSTRoot r = true) (h : Ahead T e r) (l : L) :
    (e = some r ∧ T.insert r l = r) ∨ Past T e (T.insert r l) := by
  rcases h with h | h
  · by_cases hl : T.contains r l = true
    · exact .inl ⟨h, hT r l hv hl⟩
    · refine .inr fun x hx => ⟨l, (T.contains_insert r l l).2 (.inl rfl), ?_⟩
      cases h.symm.trans hx
      exact hl
  · exact .inr (h.insert l)

/-! ## What an owner's action does to its tree and the records -/

inductive Effect (T : Trie K V L) (d : Records K V) (t : Tree K V) : Records K V → Tree K V → Prop
  | kept {t' : Tree K V} (hr : t'.root = t.root) (hc : t'.committed = t.committed)
      (ho : t'.store.orphanBuffer = t.store.orphanBuffer) (hl : t'.liveRoot = t.liveRoot) : Effect T d t d t'
  | grew {t' : Tree K V} (l : L) (hr : t'.root = T.insert t.root l) (hc : t'.committed = t.committed)
      (ho : t'.store.orphanBuffer = t.store.orphanBuffer) (hl : t'.liveRoot = t.liveRoot) : Effect T d t d t'
  | committed {t' : Tree K V} (landed : K → Bool) (buf : List (K × V)) (hb : Genuine T.content (buf.lookup ·))
      (hr : t'.root = t.root) (hl : t'.liveRoot = t.liveRoot)
      (hclean : t.committed = t.root → t.store.orphanBuffer = [] →
        t'.committed = t.root ∧ t'.store.orphanBuffer = []) :
      Effect T d t { d with nodes := land landed buf d.nodes } t'
  | checkpointed {t' : Tree K V} (hr : t'.root = t.root) (hc : t'.committed = t.committed)
      (ho : t'.store.orphanBuffer = t.store.orphanBuffer ∨ t'.store.orphanBuffer = [])
      (hl : t'.liveRoot = t.liveRoot ∨ t'.liveRoot = some t.root) : Effect T d t (Smst.checkpointed t d) t'
  | claimed {t' : Tree K V} (hr : t'.root = t.root) (hc : t'.committed = t.committed)
      (ho : t'.store.orphanBuffer = t.store.orphanBuffer) (hl : t'.liveRoot = t.liveRoot) :
      Effect T d t { d with claimedRoot := some t.root } t'

variable {s : Miner K V} {g : Nat} {t : Tree K V}

def Becomes (s : Miner K V) (g : Nat) (t' : Tree K V) (d' : Records K V) (s' : Miner K V) : Prop :=
  ∃ n, s' = { s with trees := update s.trees g (some t'), disk := d', evictionCount := n }

theorem effect_updateTree (d : Records K V) (t : Tree K V) (l : L) : Effect T d t d (updateTree T t l) := by
  unfold updateTree
  split
  · exact .kept rfl rfl rfl rfl
  · exact .grew l rfl rfl rfl rfl

theorem commitLocked_clean (hash : K → Option V) (orphans : List K) (put : PutFault K) (hc : t.committed = t.root)
    (ho : t.store.orphanBuffer = []) :
    (commitLocked T t hash (.written (orphansOf T t orphans) put)).1.committed = t.root ∧
      (commitLocked T t hash (.written (orphansOf T t orphans) put)).1.store.orphanBuffer = [] := by
  refine ⟨rfl, ?_⟩
  obtain ⟨n', he, -, hor⟩ := Trie.commit_spec (T := T) (n := t.store.beginPipeline) (c := t.committed) (r := t.root)
    hash rfl (orphansOf T t orphans)
  have hnil : n'.orphanBuffer = [] := by
    refine List.eq_nil_iff_forall_not_mem.2 fun k hk => ?_
    rcases (hor k).1 hk with ⟨hk, -⟩ | ⟨hk, hn⟩
    · simp [NodeStore.beginPipeline, ho] at hk
    · exact hn (hc ▸ by simpa using (List.mem_filter.1 hk).2)
  simp only [commitLocked, he, NodeStore.flushPipeline]
  rcases NodeStore.writePendingNodes_cases { n' with pipelineEnabled := false } hash put with
    ⟨n2, hw, -, ho2⟩ | ⟨landed, hw⟩ <;> rw [hw]
  · exact ho2.trans hnil
  · exact hnil

omit [DecidableEq K] in
theorem afterCommit_frame (t : Tree K V) (p : Purpose) :
    ∃ ph u, afterCommit t p = { t with phase := ph, unloaded := u } := by
  cases p with
  | unload =>
    simp only [afterCommit]
    split <;> exact ⟨_, _, rfl⟩
  | _ => exact ⟨_, _, rfl⟩

theorem effect_commitTree (ht : Tidy T t) (p : Purpose) (orphans : List K) (put : PutFault K) :
    ∃ t' d', Becomes s g t' d' (commitTree T s g t p (.written (orphansOf T t orphans) put)) ∧
      Effect T s.disk t d' t' ∧ t'.root = t.root ∧ t'.liveRoot = t.liveRoot := by
  -- `prepare` sets the claimed root at most.
  obtain ⟨c, hc⟩ : ∃ c, (prepare t p).1 = { t with claimedRoot := c } := by
    rcases prepare_cases t p with h | ⟨-, h⟩ <;> rw [h] <;> exact ⟨_, rfl⟩
  have ht0 := ht.prepare p
  rw [hc] at ht0
  unfold commitTree
  simp only [hc]
  obtain ⟨-, landed, buf, hb, hland⟩ := commitLocked_genuine s.disk.nodes (.written (orphansOf T t orphans) put) ht0.genuine
  have hclean := commitLocked_clean (T := T) (t := { t with claimedRoot := c }) s.disk.nodes orphans put
  obtain ⟨n, c', he⟩ := commitLocked_tree T { t with claimedRoot := c } s.disk.nodes (.written (orphansOf T t orphans) put)
  change _ → _ → (commitLocked T { t with claimedRoot := c } s.disk.nodes (.written (orphansOf T t orphans) put)).1.committed
      = _ ∧ (commitLocked T { t with claimedRoot := c } s.disk.nodes
        (.written (orphansOf T t orphans) put)).1.store.orphanBuffer = _ at hclean
  rw [hland]
  rw [he] at hclean ⊢
  split
  · split
    · obtain ⟨ph, u, ha⟩ := afterCommit_frame { { t with claimedRoot := c } with store := n, committed := c' } p
      rw [ha]
      exact ⟨_, _, ⟨0, rfl⟩, .committed landed buf hb rfl rfl hclean, rfl, rfl⟩
    · exact ⟨_, _, ⟨s.evictionCount, rfl⟩, .committed landed buf hb rfl rfl hclean, rfl, rfl⟩
  · exact ⟨_, _, ⟨s.evictionCount, rfl⟩, .kept rfl rfl rfl rfl, rfl, rfl⟩

attribute [local simp] storesLive

/-- The owner's second write: a checkpoint that reaches the store sets live_root, nothing else does. -/
theorem effect_storeRoot (hg : s.trees g = some t) (ht : Tidy T t) (hb : Backed T t s.disk) (hx : t.phase ≠ .exitRoot)
    (put : PutFault K) (f : Fault) :
    ∃ t' d', Becomes s g t' d' (storeRoot s g t put f) ∧ Effect T s.disk t d' t' ∧
      d'.liveRoot = if storesLive t f then some t.root else s.disk.liveRoot := by
  unfold storeRoot
  cases hp : t.phase with
  | idle => exact ⟨t, s.disk, ⟨s.evictionCount, by simp [← hg]⟩, .kept rfl rfl rfl rfl, by simp [hp]⟩
  | exitRoot => exact absurd hp hx
  | claimedRoot =>
    obtain ⟨hs, -⟩ := hb.claimPhase hp
    obtain ⟨r, hr⟩ := Option.isSome_iff_exists.1 hs
    obtain rfl : t.root = r := ht.atClaim r hr
    dsimp only [storeClaimedRoot]
    rw [hr]
    have hn : storesLive t f = false := by simp [hp]
    rw [hn]
    cases f with
    | refused => exact ⟨_, _, ⟨s.evictionCount, rfl⟩, .kept rfl rfl rfl rfl, rfl⟩
    | lost | ok => exact ⟨_, _, ⟨s.evictionCount, rfl⟩, .claimed rfl rfl rfl rfl, rfl⟩
  | liveRoot unload =>
    have hbuf : t.store.pipelineBuffer.isEmpty = true := by simp [(hb.ready (by simp [hp])).2]
    dsimp only [storeLiveRoot]
    by_cases hv : isValidSMSTRoot t.root = true
    · have hs : storesLive t f = decide (f ≠ .refused) := by simp [hp, hv, hbuf]
      rw [hs]
      simp only [hv, hbuf, Bool.not_true, Bool.false_eq_true, if_false]
      cases f with
      | refused => exact ⟨_, _, ⟨s.evictionCount, rfl⟩, .kept rfl rfl rfl rfl, rfl⟩
      | lost => exact ⟨_, _, ⟨s.evictionCount, rfl⟩, .checkpointed rfl rfl (.inl rfl) (.inl rfl), rfl⟩
      | ok => exact ⟨_, _, ⟨s.evictionCount, rfl⟩, .checkpointed rfl rfl (.inr rfl) (.inr rfl), rfl⟩
    have hs : storesLive t f = false := by simp [hp, hv]
    rw [if_pos (by simpa using hv), hs]
    exact ⟨_, _, ⟨s.evictionCount, rfl⟩, .kept rfl rfl rfl rfl, rfl⟩

/-! ## The invariant -/

structure Own (T : Trie K V L) (d : Records K V) (t : Tree K V) : Prop where
  grown : ∀ x, t.liveRoot = some x → Within T x t.root
  ahead : Ahead T t.liveRoot t.root
  stored : ∀ x, t.liveRoot = some x → ∃ r, d.liveRoot = some r ∧ Ahead T t.liveRoot r
  claimed : ∀ c, d.claimedRoot = some c → Ahead T t.liveRoot c

structure Beside (T : Trie K V L) (e : Option Bytes) (t : Tree K V) : Prop where
  ahead : Ahead T e t.root
  clean : e = some t.root → t.committed = t.root ∧ t.store.orphanBuffer = []

structure Carried (T : Trie K V L) (d : Records K V) (t : Tree K V) : Prop where
  carries : Carries T t.store d.nodes t.committed
  ready : t.phase ≠ .idle → t.committed = t.root ∧ t.store.pipelineBuffer = []

def Overtaken (T : Trie K V L) (s : Miner K V) (e : Option Bytes) : Prop :=
  (∃ r, s.disk.liveRoot = some r ∧ Past T e r) ∧
    ∃ g t, s.resident = some g ∧ s.trees g = some t ∧ Past T e t.root

structure Pending (T : Trie K V L) (s : Miner K V) (t : Tree K V) : Prop where
  own : Own T s.disk t
  beside : ∀ g t', s.resident = some g → s.trees g = some t' → Beside T t.liveRoot t'
  held : Carried T s.disk t ∨ Overtaken T s t.liveRoot

structure Inv (T : Trie K V L) (w : World K V) : Prop where
  complete : Complete T w.miner
  valid : ∀ g t, w.miner.trees g = some t → isValidSMSTRoot t.root = true
  young : ∀ g t, w.miner.trees g = some t → g ≤ w.miner.treeGen
  fresh : w.taken = false → w.old = none ∧ w.wrote = none ∧ w.exited = false
  own : w.taken = false → ∀ g t, w.miner.resident = some g → w.miner.trees g = some t → Own T w.miner.disk t
  leaving : ∀ g, w.old = some g → w.miner.resident ≠ some g ∧
    ∃ t, w.miner.trees g = some t ∧ if w.exited then t.liveRoot = some t.root else Pending T w.miner t
  wrote : ∀ r, w.wrote = some r → ∃ r', w.miner.disk.liveRoot = some r' ∧ Within T r r'

/-! ## One action of an owner -/

variable {d d' : Records K V} {t' : Tree K V} {e : Option Bytes}

theorem Effect.root (h : Effect T d t d' t') : t'.root = t.root ∨ ∃ l, t'.root = T.insert t.root l := by
  cases h with
  | kept hr | committed _ _ _ hr | checkpointed hr | claimed hr => exact .inl hr
  | grew l hr => exact .inr ⟨l, hr⟩

theorem Effect.valid (h : Effect T d t d' t') (hv : isValidSMSTRoot t.root = true) : isValidSMSTRoot t'.root = true := by
  rcases h.root with hr | ⟨l, hr⟩ <;> rw [hr]
  · exact hv
  · simp [isValidSMSTRoot, T.length_insert]

omit [DecidableEq K] in
theorem Own.kept (h : Own T d t) (hr : t'.root = t.root) (hl : t'.liveRoot = t.liveRoot)
    (hdl : d'.liveRoot = d.liveRoot) (hdc : d'.claimedRoot = d.claimedRoot) : Own T d' t' :=
  ⟨by rw [hl, hr]; exact h.grown, by rw [hl, hr]; exact h.ahead, by rw [hl, hdl]; exact h.stored,
    by rw [hl, hdc]; exact h.claimed⟩

omit [DecidableEq K] in
theorem Own.grew (hT : T.Stable) (h : Own T d t) (hv : isValidSMSTRoot t.root = true) {l : L}
    (hr : t'.root = T.insert t.root l) (hl : t'.liveRoot = t.liveRoot) : Own T d t' := by
  refine ⟨?_, ?_, by rw [hl]; exact h.stored, by rw [hl]; exact h.claimed⟩ <;> rw [hl, hr]
  · exact fun x hx => (h.grown x hx).trans (within_insert _ l)
  rcases h.ahead.insert hT hv l with ⟨h1, h2⟩ | h1
  · exact .inl (by rw [h2]; exact h1)
  · exact .inr h1

theorem Own.effect (hT : T.Stable) (h : Own T d t) (hv : isValidSMSTRoot t.root = true)
    (hcl : ∀ c, d.claimedRoot = some c → c = t.root) (he : Effect T d t d' t') : Own T d' t' := by
  cases he with
  | kept hr hc ho hl | committed _ _ _ hr hl => exact h.kept hr hl rfl rfl
  | grew l hr hc ho hl => exact h.grew hT hv hr hl
  | checkpointed hr hc ho hl =>
    rcases hl with hl | hl
    · have hk : Own T d t' := h.kept hr hl rfl rfl
      exact { hk with stored := fun x hx => ⟨t.root, rfl, hr ▸ hk.ahead⟩ }
    refine ⟨fun x hx => ?_, .inl (by rw [hl, hr]), fun x hx => ⟨t.root, rfl, .inl hl⟩, fun c hc => .inl ?_⟩
    · cases hl.symm.trans hx
      rw [hr]
      exact .refl _
    · rw [hl, hcl c hc]
  | claimed hr hc ho hl =>
    have hk : Own T d t' := h.kept hr hl rfl rfl
    refine { hk with claimed := fun c hc => ?_ }
    cases hc
    exact hr ▸ hk.ahead

theorem Beside.effect (hT : T.Stable) (h : Beside T e t) (hv : isValidSMSTRoot t.root = true)
    (he : Effect T d t d' t') : Beside T e t' := by
  cases he with
  | kept hr hc ho hl | claimed hr hc ho hl => exact ⟨by rw [hr]; exact h.ahead, by rw [hr, hc, ho]; exact h.clean⟩
  | committed _ _ _ hr hl hclean =>
    refine ⟨by rw [hr]; exact h.ahead, fun hx => ?_⟩
    rw [hr] at hx ⊢
    exact hclean (h.clean hx).1 (h.clean hx).2
  | checkpointed hr hc ho hl =>
    refine ⟨by rw [hr]; exact h.ahead, fun hx => ?_⟩
    rw [hr] at hx ⊢
    refine ⟨hc.trans (h.clean hx).1, ?_⟩
    rcases ho with ho | ho
    · exact ho.trans (h.clean hx).2
    · exact ho
  | grew l hr hc ho hl =>
    rcases h.ahead.insert hT hv l with ⟨h1, h2⟩ | h1
    · refine ⟨.inl (by rw [hr, h2]; exact h1), fun _ => ?_⟩
      rw [hc, ho, hr, h2]
      exact h.clean h1
    · exact ⟨.inr (by rw [hr]; exact h1), fun hx => absurd hx (by rw [hr]; exact h1.ne)⟩

theorem Own.beside (h : Own T d t0) (hb : Beside T t0.liveRoot t) (he : Effect T d t d' t') : Own T d' t0 := by
  cases he with
  | kept | grew => exact h
  | committed => exact { h with }
  | checkpointed => exact { h with stored := fun x hx => ⟨t.root, rfl, hb.ahead⟩ }
  | claimed =>
    refine { h with claimed := fun c hc => ?_ }
    cases hc
    exact hb.ahead

/-- The nodes the old owner relies on go only with a root that is past what it expects. -/
theorem Carried.beside (h : Carried T d t0) (hb : Beside T t0.liveRoot t) (he : Effect T d t d' t') :
    Carried T d' t0 ∨ (d'.liveRoot = some t.root ∧ t'.root = t.root ∧ Past T t0.liveRoot t.root) := by
  cases he with
  | kept | grew => exact .inl h
  | claimed => exact .inl ⟨h.carries, h.ready⟩
  | committed landed buf hbuf =>
    exact .inl ⟨⟨h.carries.genuine, h.carries.held.readThrough_land hbuf landed, h.carries.kept⟩, h.ready⟩
  | checkpointed hr =>
    rcases hb.ahead with hx | hp
    · left
      have hnodes : (Smst.checkpointed t d).nodes = d.nodes := by
        funext k
        simp [Smst.checkpointed, remove, (hb.clean hx).2]
      exact ⟨by rw [hnodes]; exact h.carries, h.ready⟩
    · exact .inr ⟨rfl, hr, hp⟩

theorem Pending.owner (hT : T.Stable) (h : Pending T s t0) (hr : s.resident = some g) (hg : s.trees g = some t)
    (hv : isValidSMSTRoot t.root = true) (he : Effect T s.disk t d' t') (n : Nat) :
    Pending T { s with trees := update s.trees g (some t'), disk := d', evictionCount := n } t0 := by
  have hb := h.beside g t hr hg
  refine ⟨h.own.beside hb he, fun g1 t1 hr1 hg1 => ?_, ?_⟩
  · cases hr.symm.trans hr1
    obtain rfl : t' = t1 := by simpa using hg1
    exact hb.effect hT hv he
  have hnew : ∀ r, d'.liveRoot = some r → Past T t0.liveRoot r → Past T t0.liveRoot t'.root →
      Overtaken T { s with trees := update s.trees g (some t'), disk := d', evictionCount := n } t0.liveRoot :=
    fun r hl hp hp' => ⟨⟨r, hl, hp⟩, g, t', hr, by simp, hp'⟩
  rcases h.held with hc | ⟨⟨r, hl, hp⟩, g1, t1, hr1, hg1, hp1⟩
  · rcases hc.beside hb he with hc' | ⟨hl, hroot, hp⟩
    · exact .inl hc'
    · exact .inr (hnew _ hl hp (by rw [hroot]; exact hp))
  cases hr.symm.trans hr1
  cases hg.symm.trans hg1
  refine .inr ?_
  cases he with
  | checkpointed hroot => exact hnew t.root rfl hp1 (by rw [hroot]; exact hp1)
  | kept hroot | committed _ _ _ hroot | claimed hroot => exact hnew r hl hp (by rw [hroot]; exact hp1)
  | grew l hroot => exact hnew r hl hp (by rw [hroot]; exact hp1.insert l)

variable {w : World K V}

omit [DecidableEq K] in
theorem forall_trees {P : Nat → Tree K V → Prop} (h : ∀ g t, s.trees g = some t → P g t) (h' : P g t') :
    ∀ g1 t1, update s.trees g (some t') g1 = some t1 → P g1 t1 := by
  intro g1 t1 h1
  by_cases hgg : g1 = g
  · subst hgg
    obtain rfl : t' = t1 := by simpa using h1
    exact h'
  · exact h g1 t1 (by simpa [update_of_ne hgg] using h1)

theorem Inv.owner (hT : T.Stable) (h : Inv T w) (hr : w.miner.resident = some g) (hg : w.miner.trees g = some t)
    (hs : Becomes w.miner g t' d' s') (he : Effect T w.miner.disk t d' t') (hc : Complete T s') {wr : Option Bytes}
    (hfresh : w.taken = false → wr = none) (hwr : ∀ r, wr = some r → ∃ r', d'.liveRoot = some r' ∧ Within T r r') :
    Inv T { w with miner := s', wrote := wr } := by
  obtain ⟨n, rfl⟩ := hs
  have hv := h.valid g t hg
  refine ⟨hc, forall_trees h.valid (he.valid hv), forall_trees h.young (h.young g t hg), fun ht => ?_,
    fun ht g1 t1 hr1 hg1 => ?_,
    fun g0 h0 => ?_, hwr⟩
  · exact ⟨(h.fresh ht).1, hfresh ht, (h.fresh ht).2.2⟩
  · cases hr.symm.trans hr1
    obtain rfl : t' = t1 := by simpa using hg1
    obtain ⟨t2, hg2, hb⟩ := h.complete.backed g hr
    cases hg.symm.trans hg2
    exact (h.own ht g t hr hg).effect hT hv (fun c hcl => ((h.complete.tidy g t hg).atClaim c (hb.claimed c hcl)).symm) he
  obtain ⟨hne, t0, hg0, hl⟩ := h.leaving g0 h0
  have hgg : g0 ≠ g := fun hgg => hne (hgg ▸ hr)
  refine ⟨hne, t0, by simpa [update_of_ne hgg] using hg0, ?_⟩
  cases hx : w.exited with
  | true => simpa [hx] using hl
  | false =>
    simp only [hx, Bool.false_eq_true, if_false] at hl ⊢
    exact hl.owner hT hr hg hv he n

theorem Inv.owner_live (hT : T.Stable) (h : Inv T w) (hr : w.miner.resident = some g)
    (hg : w.miner.trees g = some t) (hs : Becomes w.miner g t' d' s') (he : Effect T w.miner.disk t d' t')
    (hc : Complete T s') (hl : d'.liveRoot = w.miner.disk.liveRoot) : Inv T { w with miner := s' } :=
  h.owner hT hr hg hs he hc (fun ht => (h.fresh ht).2.1) (by rw [hl]; exact h.wrote)

theorem live_of_commitTree (T : Trie K V L) (s : Miner K V) (g : Nat) (t : Tree K V) (p : Purpose) (f : CommitFault K) :
    (commitTree T s g t p f).disk.liveRoot = s.disk.liveRoot ∧
      (commitTree T s g t p f).disk.claimedRoot = s.disk.claimedRoot := by
  obtain ⟨t', hash, n, he, -⟩ := commitTree_frame T s g t p f
  rw [he]
  exact ⟨rfl, rfl⟩

/-! ## The owner's steps -/

theorem inv_onTree (h : Inv T w) {o : Option Nat} {act : Nat → Tree K V → World K V}
    (hact : ∀ g t, o = some g → w.miner.trees g = some t → Inv T (act g t)) : Inv T (onTree w o act) := by
  unfold onTree
  split
  · exact h
  next g =>
    split
    · exact h
    next t hg => exact hact g t rfl hg

theorem inv_ite (h : Inv T w) {p : Prop} [Decidable p] (hc : Complete T (if p then s' else w.miner))
    (hact : p → Complete T s' → Inv T { w with miner := s' }) : Inv T { w with miner := if p then s' else w.miner } := by
  split at hc
  next hp =>
    rw [if_pos hp]
    exact hact hp hc
  next hp =>
    rw [if_neg hp]
    exact h

theorem inv_update (hT : T.Stable) (h : Inv T w) (l : L) : Inv T (step T w (.update l)) := by
  refine inv_onTree h fun g t hr hg => ?_
  have hc := complete_step h.complete (a := .update g l) trivial
  simp only [Smst.step, Smst.onTree, hg] at hc ⊢
  exact inv_ite h hc fun _ hc => h.owner_live hT hr hg ⟨_, rfl⟩ (effect_updateTree _ t l) hc rfl

theorem inv_sealTree (hT : T.Stable) (h : Inv T w) : Inv T (step T w (.sealTree : Act K L)) := by
  refine inv_onTree h fun g t hr hg => ?_
  have hc := complete_step h.complete (a := .sealTree g) trivial
  simp only [Smst.step, Smst.onTree, hg] at hc ⊢
  have he : Effect T w.miner.disk t w.miner.disk (Smst.sealTree t) := by
    unfold Smst.sealTree
    split <;> exact .kept rfl rfl rfl rfl
  exact inv_ite h hc fun _ hc => h.owner_live hT hr hg ⟨_, rfl⟩ he hc rfl

theorem inv_commit (hT : T.Stable) (h : Inv T w) (p : Purpose) (orphans : List K) (put : PutFault K) :
    Inv T (step T w (.commit p orphans put)) := by
  simp only [step]
  split
  · exact h
  refine inv_onTree h fun g t hr hg => ?_
  have hc := complete_step h.complete (a := .commit g p (.written (orphansOf T t orphans) put)) trivial
  simp only [Smst.step, Smst.onTree, hg] at hc ⊢
  refine inv_ite h hc fun _ hc => ?_
  obtain ⟨t', d', hs, he, -⟩ := effect_commitTree (s := w.miner) (g := g) (h.complete.tidy g t hg) p orphans put
  have hl := (live_of_commitTree T w.miner g t p (.written (orphansOf T t orphans) put)).1
  refine h.owner_live hT hr hg hs he hc ?_
  obtain ⟨n, hn⟩ := hs
  rw [hn] at hl
  exact hl

theorem inv_storeRoot (hT : T.Stable) (h : Inv T w) (put : PutFault K) (f : Fault) :
    Inv T (step T w (.storeRoot put f)) := by
  refine inv_onTree h fun g t hr hg => ?_
  split
  · exact h
  rename_i hx
  have hc := complete_step h.complete (a := .storeRoot g put f) hr
  obtain ⟨t1, hg1, hb⟩ := h.complete.backed g hr
  cases hg.symm.trans hg1
  simp only [Smst.step, Smst.onTree, hg] at hc ⊢
  obtain ⟨t', d', hs, he, hl⟩ := effect_storeRoot hg (h.complete.tidy g t hg) hb hx put f
  refine h.owner hT hr hg hs he hc (fun ht => ?_) fun r hwr => ?_
  · simp [ht, (h.fresh ht).2.1]
  cases hst : storesLive t f with
  | true =>
    rw [hst] at hwr hl
    cases htk : w.taken with
    | true =>
      obtain rfl : t.root = r := by simpa [htk] using hwr
      exact ⟨t.root, hl, .refl _⟩
    | false => simp [htk, (h.fresh htk).2.1] at hwr
  | false =>
    rw [hst] at hwr hl
    rw [show d'.liveRoot = w.miner.disk.liveRoot from hl]
    exact h.wrote r (by simpa using hwr)

omit [DecidableEq K] in
theorem past_none (r : Bytes) : Past T none r := nofun

omit [DecidableEq K] in
/-- The tree a resume gives, to its own owner and beside a tree that was resumed or stored before. -/
theorem resumed (hw : Whole T d) :
    ∃ t : Tree K V, resumeTreeFromRedis {} d = ((resumeTreeFromRedis {} d).1, d) ∧
      (resumeTreeFromRedis {} d).1.getD { root := T.empty, committed := T.empty } = t ∧
      isValidSMSTRoot t.root = true ∧ Own T d t ∧ ∀ t0, Own T d t0 → Beside T t0.liveRoot t := by
  rcases resume_whole (e := {}) hw ⟨rfl, rfl, rfl, rfl⟩ with ⟨r, hc, hr⟩ | ⟨r, hc, hl, hr⟩ | ⟨hc, hl, hr⟩ <;> rw [hr] <;>
    refine ⟨_, rfl, rfl, ?_, ?_, fun t0 h0 => ⟨?_, fun _ => ⟨rfl, rfl⟩⟩⟩
  · exact (hw.claimed r hc).1
  · exact ⟨nofun, .inr (past_none r), nofun, fun c _ => .inr (past_none c)⟩
  · exact h0.claimed r hc
  · exact (hw.live r hl).1
  · refine ⟨fun x hx => ?_, .inl rfl, fun x hx => ⟨r, hl, .inl rfl⟩, fun c hc' => by rw [hc] at hc'; cases hc'⟩
    cases hx
    exact .refl _
  · cases hx : t0.liveRoot with
    | none => exact .inr (past_none r)
    | some x =>
      obtain ⟨r', hl', ha⟩ := h0.stored x hx
      cases hl.symm.trans hl'
      exact hx ▸ ha
  · simp [isValidSMSTRoot, T.length_empty]
  · exact ⟨nofun, .inr (past_none _), nofun, fun c _ => .inr (past_none c)⟩
  cases hx : t0.liveRoot with
  | none => exact .inr (past_none _)
  | some x =>
    obtain ⟨r', hl', -⟩ := h0.stored x hx
    rw [hl] at hl'
    cases hl'

theorem inv_getOrCreate (h : Inv T w) : Inv T (step T w (.getOrCreate : Act K L)) := by
  have hc := complete_getOrCreate (e := {}) h.complete ⟨rfl, rfl, rfl, rfl⟩
  simp only [step]
  unfold getOrCreateTree at hc ⊢
  cases hres : w.miner.resident with
  | some g => simpa only [hres] using h
  | none =>
    obtain ⟨t, hd, ht, hv, hown, hbes⟩ := resumed h.complete.whole
    simp only [hres, ht] at hc ⊢
    rw [hd] at hc ⊢
    have hnew : ∀ g1 t1, some (w.miner.treeGen + 1) = some g1 →
        update w.miner.trees (w.miner.treeGen + 1) (some t) g1 = some t1 → t1 = t := by
      rintro g1 t1 hg1 h1
      cases hg1
      simpa [eq_comm] using h1
    refine ⟨hc, forall_trees h.valid hv, forall_trees (fun g1 t1 h1 => Nat.le_succ_of_le (h.young g1 t1 h1)) (Nat.le_refl _),
      h.fresh, fun _ g1 t1 hr1 hg1 => ?_, fun g0 h0 => ?_, h.wrote⟩
    · rw [hnew g1 t1 hr1 hg1]
      exact hown
    obtain ⟨-, t0, hg0, hl⟩ := h.leaving g0 h0
    have hlt : g0 ≠ w.miner.treeGen + 1 := by
      have := h.young g0 t0 hg0
      omega
    refine ⟨fun hx => hlt (Option.some.inj hx).symm, t0, by simpa [addTree, update_of_ne hlt] using hg0, ?_⟩
    cases hx : w.exited with
    | true => simpa [hx] using hl
    | false =>
      simp only [hx, Bool.false_eq_true, if_false] at hl ⊢
      refine ⟨hl.own, fun g1 t1 hr1 hg1 => ?_, hl.held.imp_right fun ho => ?_⟩
      · rw [hnew g1 t1 hr1 hg1]
        exact hbes t0 hl.own
      obtain ⟨-, g1, t1, hr1, -⟩ := ho
      rw [hres] at hr1
      cases hr1

theorem inv_takeOver (h : Inv T w) : Inv T (step T w (.takeOver : Act K L)) := by
  have hcomplete : Complete T { w.miner with resident := none } := ⟨h.complete.whole, h.complete.tidy, nofun⟩
  simp only [step]
  cases htk : w.taken with
  | true => exact h
  | false =>
    obtain ⟨-, hwr, hx⟩ := h.fresh htk
    simp only [Bool.false_eq_true, if_false]
    cases hres : w.miner.resident with
    | none => exact ⟨hcomplete, h.valid, h.young, nofun, nofun, nofun, h.wrote⟩
    | some g =>
      refine inv_onTree h fun g1 t hg1 hg => ?_
      cases hg1
      split
      next hi =>
        refine ⟨hcomplete, h.valid, h.young, nofun, nofun, fun g0 h0 => ?_, h.wrote⟩
        cases h0
        obtain ⟨t1, hg1, hb⟩ := h.complete.backed g hres
        cases hg.symm.trans hg1
        refine ⟨nofun, t, hg, ?_⟩
        rw [if_neg (by simp [hx])]
        exact ⟨h.own htk g t hres hg, (fun _ _ h => nomatch h), .inl ⟨hb.carries, hb.ready⟩⟩
      · exact h

/-! ## The old owner's steps -/

theorem Inv.leaver (h : Inv T w) (ho : w.old = some g) (hg : w.miner.trees g = some t)
    (hs : Becomes w.miner g t' d' s') (hc : Complete T s') (hv : isValidSMSTRoot t'.root = true) {x : Bool}
    (hfresh : w.taken = false → x = false) (hl : if x then t'.liveRoot = some t'.root else Pending T s' t')
    (hwr : ∀ r, w.wrote = some r → ∃ r', d'.liveRoot = some r' ∧ Within T r r') :
    Inv T { w with miner := s', exited := x } := by
  obtain ⟨n, rfl⟩ := hs
  obtain ⟨hne, -⟩ := h.leaving g ho
  refine ⟨hc, forall_trees h.valid hv, forall_trees h.young (h.young g t hg), fun ht => ?_, fun ht => ?_,
    fun g0 h0 => ?_, hwr⟩
  · exact ⟨(h.fresh ht).1, (h.fresh ht).2.1, hfresh ht⟩
  · rw [(h.fresh ht).1] at ho
    cases ho
  · cases ho.symm.trans h0
    exact ⟨hne, t', by simp, hl⟩

/-- Before it is done, a step of the old owner that leaves live_root and what it expects there. -/
theorem Pending.self (h : Pending T s t) (hne : s.resident ≠ some g) (hl : t'.liveRoot = t.liveRoot)
    (hdl : d'.liveRoot = s.disk.liveRoot) (hown : Own T d' t') (hcar : Carried T s.disk t → Carried T d' t') (n : Nat) :
    Pending T { s with trees := update s.trees g (some t'), disk := d', evictionCount := n } t' := by
  have hother : ∀ g1 t1, s.resident = some g1 → (update s.trees g (some t') g1 = some t1 ↔ s.trees g1 = some t1) := by
    intro g1 t1 hr1
    have hgg : g1 ≠ g := fun hgg => hne (hgg ▸ hr1)
    rw [update_of_ne hgg]
  refine ⟨hown, fun g1 t1 hr1 hg1 => ?_, ?_⟩
  · rw [hl]
    exact h.beside g1 t1 hr1 ((hother g1 t1 hr1).1 hg1)
  rw [hl]
  rcases h.held with hc | ⟨⟨r, hr, hp⟩, g1, t1, hr1, hg1, hp1⟩
  · exact .inl (hcar hc)
  · exact .inr ⟨⟨r, hdl.trans hr, hp⟩, g1, t1, hr1, (hother g1 t1 hr1).2 hg1, hp1⟩

theorem Inv.old_tree (h : Inv T w) (ho : w.old = some g) (hg : w.miner.trees g = some t) :
    w.miner.resident ≠ some g ∧ (w.exited = true → t.liveRoot = some t.root) ∧
      (w.exited = false → Pending T w.miner t) := by
  obtain ⟨hne, t1, hg1, hl⟩ := h.leaving g ho
  cases hg.symm.trans hg1
  refine ⟨hne, fun hx => ?_, fun hx => ?_⟩
  · rwa [if_pos hx] at hl
  · rwa [if_neg (by simp [hx])] at hl

theorem Inv.old_taken (h : Inv T w) (ho : w.old = some g) : w.taken = true := by
  cases ht : w.taken with
  | true => rfl
  | false =>
    rw [(h.fresh ht).1] at ho
    cases ho

theorem inv_exitUpdate (hT : T.Stable) (h : Inv T w) (l : L) : Inv T (step T w (.exitUpdate l)) := by
  simp only [step]
  by_cases hx : w.exited = true
  · rw [if_pos hx]
    exact h
  rw [if_neg hx]
  refine inv_onTree h fun g t ho hg => ?_
  obtain ⟨hne, -, hl⟩ := h.old_tree ho hg
  have hp := hl (by simpa using hx)
  have hc := complete_step h.complete (a := .update g l) trivial
  simp only [Smst.step, Smst.onTree, hg] at hc ⊢
  refine inv_ite h hc fun hi hc => ?_
  have hv := h.valid g t hg
  refine h.leaver ho hg ⟨_, rfl⟩ hc ((effect_updateTree w.miner.disk t l).valid hv) (fun ht => (h.fresh ht).2.2) ?_ h.wrote
  rw [if_neg hx]
  unfold updateTree
  split
  · exact hp.self hne rfl rfl hp.own id _
  · have hown : Own T w.miner.disk { t with root := T.insert t.root l, unloaded := false } := hp.own.grew hT hv rfl rfl
    exact hp.self hne (by rfl) rfl hown (fun hc => ⟨hc.carries, fun h => absurd hi h⟩) _

theorem Carried.commitTree (h : Carried T s.disk t) (hi : t.phase = .idle) (f : CommitFault K) :
    ∀ t', (commitTree T s g t .exit f).trees g = some t' → Carried T (commitTree T s g t .exit f).disk t' := by
  have hcar := commitLocked_carries f h.carries
  obtain ⟨n, c, he⟩ := commitLocked_tree T t s.disk.nodes f
  have h0 : (prepare t .exit).1 = t := rfl
  simp only [Smst.commitTree, h0]
  by_cases hv : (prepare t .exit).2 = true
  · simp only [if_pos hv]
    by_cases hok : (commitLocked T t s.disk.nodes f).2.2 = true
    · simp only [if_pos hok]
      obtain ⟨hc, hb⟩ := commitLocked_ok hok
      intro t' ht'
      obtain rfl : afterCommit (commitLocked T t s.disk.nodes f).1 .exit = t' := by simpa [setTree] using ht'
      exact ⟨hcar, fun _ => ⟨hc.trans (by rw [he]; rfl), hb⟩⟩
    simp only [if_neg hok]
    intro t' ht'
    obtain rfl : (commitLocked T t s.disk.nodes f).1 = t' := by simpa [setTree] using ht'
    exact ⟨hcar, fun hp => absurd (by rw [he]; exact hi) hp⟩
  simp only [if_neg hv]
  intro t' ht'
  obtain rfl : t = t' := by simpa [setTree] using ht'
  exact h

theorem inv_exitCommit (h : Inv T w) (orphans : List K) (put : PutFault K) :
    Inv T (step T w (.exitCommit orphans put)) := by
  refine inv_onTree h fun g t ho hg => ?_
  obtain ⟨hne, hdone, hl⟩ := h.old_tree ho hg
  have hc := complete_step h.complete (a := .commit g .exit (.written (orphansOf T t orphans) put)) trivial
  simp only [Smst.step, Smst.onTree, hg] at hc ⊢
  refine inv_ite h hc fun hi hc => ?_
  obtain ⟨t', d', hs, he, hroot⟩ := effect_commitTree (s := w.miner) (g := g) (h.complete.tidy g t hg) .exit orphans put
  obtain ⟨hlive, hclaimed⟩ := live_of_commitTree T w.miner g t .exit (.written (orphansOf T t orphans) put)
  have hcar := fun hc : Carried T w.miner.disk t =>
    hc.commitTree (T := T) (g := g) hi (.written (orphansOf T t orphans) put) t'
  obtain ⟨n, hn⟩ := hs
  rw [hn] at hlive hclaimed hcar hc ⊢
  refine h.leaver ho hg ⟨n, rfl⟩ hc (he.valid (h.valid g t hg)) (fun ht => (h.fresh ht).2.2) ?_
    (by rw [hlive]; exact h.wrote)
  split
  next hx =>
    rw [hroot.1, hroot.2]
    exact hdone hx
  next hx =>
    have hp := hl (by simpa using hx)
    exact hp.self hne hroot.2 hlive (hp.own.kept hroot.1 hroot.2 hlive hclaimed) (fun hc => hcar hc (by simp)) n

omit [DecidableEq K] in
/-- live_root holds what the old owner expects exactly when the comparison says so. -/
theorem live_eq_of_unchanged (hw : Whole T d) (he : ∀ x, e = some x → ∃ r, d.liveRoot = some r)
    (h : d.liveRoot.getD [] = e.getD []) : d.liveRoot = e := by
  cases hx : e with
  | some x =>
    obtain ⟨r, hr⟩ := he x hx
    rw [hr, hx] at h
    rw [hr, show r = x from h]
  | none =>
    cases hl : d.liveRoot with
    | none => rfl
    | some r =>
      obtain ⟨hv, -⟩ := hw.live r hl
      rw [hl, hx] at h
      obtain rfl : r = [] := h
      cases hv

/-- live_root set to a root whose nodes are stored, by a tree that is not the resident one. -/
theorem complete_setLive (h : Complete T s) (hg : s.trees g = some t) (hne : s.resident ≠ some g)
    (hv : isValidSMSTRoot r = true) (hn : Holds T.content s.disk.nodes (T.nodes r)) (ht : Tidy T t') :
    Complete T (setTree { s with disk := { s.disk with liveRoot := some r } } g t') := by
  refine h.put hg ⟨h.whole.genuine, fun r' hr' => ?_, h.whole.claimed⟩ ht (fun hr => absurd hr hne) fun _ t0 hb =>
    { hb with }
  cases hr'
  exact ⟨hv, hn⟩

/-- The condition holds, so the new owner has not overtaken this tree and its nodes are all there. -/
theorem Pending.nodes (h : Pending T s t) (hp : t.phase = .exitRoot)
    (hl : s.disk.liveRoot = t.liveRoot) : Holds T.content s.disk.nodes (T.nodes t.root) := by
  rcases h.held with hc | ⟨⟨r, hr, hpast⟩, -⟩
  · obtain ⟨hcom, hbuf⟩ := hc.ready (by simp [hp])
    exact hcom ▸ hc.carries.holds hbuf
  · exact absurd (hl.symm.trans hr) hpast.ne

/-- Where the comparison succeeds, live_root is what the old owner expects, and its tree has every relay of it. -/
theorem Inv.exit_matches (h : Inv T w) (ho : w.old = some g) (hg : w.miner.trees g = some t)
    (hm : w.miner.disk.liveRoot.getD [] = t.liveRoot.getD []) :
    w.miner.disk.liveRoot = t.liveRoot ∧ ∀ r, w.miner.disk.liveRoot = some r → Within T r t.root := by
  obtain ⟨-, hdone, hl⟩ := h.old_tree ho hg
  cases hx : w.exited with
  | true =>
    have hroot := hdone hx
    have hstored : ∀ x, t.liveRoot = some x → ∃ r, w.miner.disk.liveRoot = some r := by
      intro x _
      cases hlive : w.miner.disk.liveRoot with
      | some r => exact ⟨r, rfl⟩
      | none =>
        have hnil : [] = t.root := by rw [hlive, hroot] at hm; exact hm
        have hv := h.valid g t hg
        rw [← hnil] at hv
        cases hv
    have he := live_eq_of_unchanged h.complete.whole hstored hm
    refine ⟨he, fun r hr => ?_⟩
    cases hroot.symm.trans (he.symm.trans hr)
    exact .refl _
  | false =>
    have hown := (hl hx).own
    have he := live_eq_of_unchanged h.complete.whole (fun x hx => (hown.stored x hx).imp fun _ h => h.1) hm
    exact ⟨he, fun r hr => hown.grown r (he.symm.trans hr)⟩

/-- The exit checkpoint writes nothing, or what is there already: only the lock is let go. -/
theorem Inv.exit_kept (h : Inv T w) (ho : w.old = some g) (hg : w.miner.trees g = some t) :
    Inv T { w with miner := setTree w.miner g { t with phase := .idle } } := by
  obtain ⟨hne, hdone, hl⟩ := h.old_tree ho hg
  have ht := h.complete.tidy g t hg
  have hc : Complete T (setTree w.miner g { t with phase := .idle }) :=
    h.complete.putTree hg ⟨ht.genuine, ht.atClaim⟩ fun hb => hb.idle
  refine h.leaver ho hg ⟨w.miner.evictionCount, rfl⟩ hc (h.valid g t hg) (fun h1 => (h.fresh h1).2.2) ?_ h.wrote
  split
  next hx => exact hdone hx
  next hx =>
    have hp := hl (by simpa using hx)
    have hown : Own T w.miner.disk { t with phase := .idle } := hp.own.kept rfl rfl rfl rfl
    exact hp.self hne (by rfl) rfl hown (fun hc => ⟨hc.carries, fun h => absurd rfl h⟩) _

/-- The exit checkpoint sets live_root for the first time. Its owner learns of it or not. -/
theorem Inv.exit_set (h : Inv T w) (ho : w.old = some g) (hg : w.miner.trees g = some t) (hp : t.phase = .exitRoot)
    (hx : w.exited = false) (hm : w.miner.disk.liveRoot.getD [] = t.liveRoot.getD []) (learns : Bool) :
    Inv T
      { w with
        miner := setTree { w.miner with disk := { w.miner.disk with liveRoot := some t.root } } g
          { t with liveRoot := if learns then some t.root else t.liveRoot, phase := .idle }
        exited := learns } := by
  obtain ⟨hne, -, hl⟩ := h.old_tree ho hg
  have hpend := hl hx
  have hv := h.valid g t hg
  have ht := h.complete.tidy g t hg
  have hlive := (h.exit_matches ho hg hm).1
  have hc : Complete T (setTree { w.miner with disk := { w.miner.disk with liveRoot := some t.root } } g
      { t with liveRoot := if learns then some t.root else t.liveRoot, phase := .idle }) :=
    complete_setLive h.complete hg hne hv (hpend.nodes hp hlive) ⟨ht.genuine, ht.atClaim⟩
  refine h.leaver ho hg ⟨w.miner.evictionCount, rfl⟩ hc hv (fun h1 => ?_) ?_ fun r hr => ?_
  · rw [h.old_taken ho] at h1
    cases h1
  · cases learns with
    | true => rfl
    | false =>
      refine ⟨{ hpend.own with stored := fun x _ => ⟨t.root, rfl, hpend.own.ahead⟩ },
        fun g1 t1 hr1 hg1 => ?_, ?_⟩
      · have hgg : g1 ≠ g := fun hgg => hne (hgg ▸ hr1)
        exact hpend.beside g1 t1 hr1 (by simpa [setTree, update_of_ne hgg] using hg1)
      rcases hpend.held with hcar | ⟨⟨r, hr, hpast⟩, -⟩
      · exact .inl ⟨hcar.carries, fun h => absurd rfl h⟩
      · exact absurd (hlive.symm.trans hr) hpast.ne
  · obtain ⟨r', hr', hw⟩ := h.wrote r hr
    exact ⟨t.root, rfl, hw.trans (hpend.own.grown r' (hlive.symm.trans hr'))⟩

theorem inv_exitRoot (h : Inv T w) (f : Fault) : Inv T (step T w (.exitRoot f : Act K L)) := by
  refine inv_onTree h fun g t ho hg => ?_
  split
  swap
  · exact h
  rename_i hp
  obtain ⟨-, hdone, -⟩ := h.old_tree ho hg
  have hkept := h.exit_kept ho hg
  unfold storeExitRoot
  by_cases hm : w.miner.disk.liveRoot.getD [] = t.liveRoot.getD []
  swap
  · simpa [hm] using hkept
  cases hx : w.exited with
  | true =>
    -- It is there already.
    have hroot := hdone hx
    have hlive := (h.exit_matches ho hg hm).1.trans hroot
    have hdisk : { w.miner.disk with liveRoot := some t.root } = w.miner.disk := by rw [← hlive]
    have htree : { t with liveRoot := some t.root, phase := .idle } = { t with phase := .idle } := by rw [← hroot]
    cases f with
    | refused => simpa [hx] using hkept
    | lost => simpa [hdisk, hx] using hkept
    | ok => simpa [hdisk, htree, hx] using hkept
  | false =>
    cases f with
    | refused => simpa [hx] using hkept
    | lost => simpa [hm] using h.exit_set ho hg hp hx hm false
    | ok => simpa [hm] using h.exit_set ho hg hp hx hm true

/-! ## Every run -/

theorem inv_step (hT : T.Stable) (h : Inv T w) (a : Act K L) : Inv T (step T w a) := by
  cases a with
  | getOrCreate => exact inv_getOrCreate h
  | update l => exact inv_update hT h l
  | sealTree => exact inv_sealTree hT h
  | commit p orphans put => exact inv_commit hT h p orphans put
  | storeRoot put f => exact inv_storeRoot hT h put f
  | takeOver => exact inv_takeOver h
  | exitUpdate l => exact inv_exitUpdate hT h l
  | exitCommit orphans put => exact inv_exitCommit h orphans put
  | exitRoot f => exact inv_exitRoot h f

theorem inv_start : Inv T ({} : World K V) :=
  ⟨complete_start, (fun _ _ h => nomatch h), (fun _ _ h => nomatch h), fun _ => ⟨rfl, rfl, rfl⟩,
    (fun _ _ _ h => nomatch h), nofun, nofun⟩

def Act.IsExit : Act K L → Prop
  | .exitCommit .. | .exitRoot _ => True
  | _ => False

structure Kept (T : Trie K V L) (w : World K V) (d' : Records K V) : Prop where
  claimed : d'.claimedRoot = w.miner.disk.claimedRoot
  live : d'.liveRoot = w.miner.disk.liveRoot ∨
    ∃ g t, w.old = some g ∧ w.miner.trees g = some t ∧ w.miner.disk.liveRoot = t.liveRoot ∧ d'.liveRoot = some t.root ∧
      ∀ r, w.miner.disk.liveRoot = some r → Within T r t.root

theorem kept_exitCommit (w : World K V) (orphans : List K) (put : PutFault K) :
    Kept T w (step T w (.exitCommit orphans put)).miner.disk := by
  simp only [step, onTree]
  split
  · exact ⟨rfl, .inl rfl⟩
  rename_i g _
  split
  · exact ⟨rfl, .inl rfl⟩
  rename_i t hg
  simp only [Smst.step, Smst.onTree, hg]
  split
  · obtain ⟨hl, hc⟩ := live_of_commitTree T w.miner g t .exit (.written (orphansOf T t orphans) put)
    exact ⟨hc, .inl hl⟩
  · exact ⟨rfl, .inl rfl⟩

theorem kept_exitRoot (h : Inv T w) (f : Fault) : Kept T w (step T w (.exitRoot f : Act K L)).miner.disk := by
  simp only [step, onTree]
  split
  · exact ⟨rfl, .inl rfl⟩
  rename_i g ho
  split
  · exact ⟨rfl, .inl rfl⟩
  rename_i t hg
  split
  swap
  · exact ⟨rfl, .inl rfl⟩
  dsimp only [storeExitRoot]
  split
  next hm =>
    obtain ⟨hlive, hwithin⟩ := h.exit_matches ho hg hm
    cases f with
    | refused => exact ⟨rfl, .inl rfl⟩
    | lost | ok => exact ⟨rfl, .inr ⟨g, t, ho, hg, hlive, rfl, hwithin⟩⟩
  · exact ⟨rfl, .inl rfl⟩

/-- In every interleaving of the old owner's exit checkpoint with a new owner: a stored live_root has all its nodes;
it has every relay of the live_root the new owner last wrote; a step of the exit leaves claimed_root, and leaves
live_root too unless that still holds what the old owner last wrote or resumed from, and then it becomes the old
owner's root, which has every relay of it; and in that case a write that goes through does set it. -/
theorem exit_never_rolls_back (hT : T.Stable) (as : List (Act K L)) :
    let w := run (step T) {} as
    (∀ r, w.miner.disk.liveRoot = some r → Holds T.content w.miner.disk.nodes (T.nodes r)) ∧
    (∀ r, w.wrote = some r → ∃ r', w.miner.disk.liveRoot = some r' ∧ Within T r r') ∧
    (∀ a : Act K L, a.IsExit → Kept T w (step T w a).miner.disk) ∧
    ∀ g t, w.old = some g → w.miner.trees g = some t → t.phase = .exitRoot → w.miner.disk.liveRoot = t.liveRoot →
      (step T w (.exitRoot .ok)).miner.disk.liveRoot = some t.root := by
  intro w
  have h : Inv T w := inv_of_run (Inv T) (fun _ a hi => inv_step hT hi a) as inv_start
  refine ⟨fun r hr => (h.complete.whole.live r hr).2, h.wrote, fun a ha => ?_, fun g t ho hg hp hl => ?_⟩
  · cases a with
    | exitCommit orphans put => exact kept_exitCommit w orphans put
    | exitRoot f => exact kept_exitRoot h f
    | _ => exact ha.elim
  have hm : w.miner.disk.liveRoot.getD [] = t.liveRoot.getD [] := by rw [hl]
  simp only [step, onTree, ho, hg, if_pos hp, storeExitRoot, if_pos hm]
  rfl

/-! ## Two relays -/

def stableTrie : Trie Bytes Bytes Bool :=
  { pairTrie with
    insert := fun r l => if r.length = smstRootLen ∧ pairTrie.contains r l = true then r else pairTrie.insert r l
    length_insert := by
      intro r l
      split
      next h => exact h.1
      · exact pairTrie.length_insert r l
    contains_insert := by
      intro r l l'
      split
      next h =>
        refine ⟨.inr, ?_⟩
        rintro (rfl | h')
        · exact h.2
        · exact h'
      · exact pairTrie.contains_insert r l l' }

theorem stable_stableTrie : stableTrie.Stable := by
  intro r l hv hc
  exact if_pos ⟨by simpa [isValidSMSTRoot] using hv, hc⟩

/-- The old owner checkpoints the relay `true`, takes `false` and leaves; the new owner resumes, is handed `true`
again and checkpoints the same root; then the old owner's exit checkpoint goes through. -/
def handedAgain : List (Act Bytes Bool) :=
  [.getOrCreate, .update true, .commit .checkpoint [] .ok, .storeRoot .ok .ok, .update false, .takeOver,
    .getOrCreate, .update true, .commit .checkpoint [] .ok, .storeRoot .ok .ok, .exitCommit [] .ok, .exitRoot .ok]

theorem exit_never_rolls_back_handedAgain :
    let w := run (step stableTrie) {} handedAgain
    w.miner.disk.liveRoot = some (stableTrie.insert firstRoot false) ∧
      ∀ r, w.miner.disk.liveRoot = some r → Holds stableTrie.content w.miner.disk.nodes (stableTrie.nodes r) :=
  ⟨by decide, (exit_never_rolls_back stable_stableTrie handedAgain).1⟩

theorem live_root_not_new_owners :
    let w := run (step stableTrie) {} handedAgain
    w.wrote = some firstRoot ∧ w.miner.disk.liveRoot ≠ some firstRoot := by
  decide

end Exit

end RelayMiner.Smst
