import RelayMiner.Smst.Manager
/-!
# A stored root is complete

Every root in the store has all its nodes in the hash, at every crash point, as
long as roots are stored from the tree that is resident. The invariant of the
resident tree is that its node store carries the committed root (`Carries`), and
that a stored claimed_root is the root the tree is sealed at. A tree that is no
longer resident may still write nodes, never a root.
-/
open RelayMiner.Lib RelayMiner.Session

namespace RelayMiner.Smst

variable {K V L : Type} [DecidableEq K] {T : Trie K V L} {d : Records K V} {t : Tree K V} {s : Miner K V} {g : Nat}

/-- The stored roots have their nodes, and every node its bytes. -/
structure Whole (T : Trie K V L) (d : Records K V) : Prop where
  genuine : Genuine T.content d.nodes
  live : ∀ r, d.liveRoot = some r → isValidSMSTRoot r = true ∧ Holds T.content d.nodes (T.nodes r)
  claimed : ∀ r, d.claimedRoot = some r → isValidSMSTRoot r = true ∧ Holds T.content d.nodes (T.nodes r)

structure Tidy (T : Trie K V L) (t : Tree K V) : Prop where
  genuine : Genuine T.content (t.store.pipelineBuffer.lookup ·)
  atClaim : ∀ r, t.claimedRoot = some r → t.root = r

structure Backed (T : Trie K V L) (t : Tree K V) (d : Records K V) : Prop where
  carries : Carries T t.store d.nodes t.committed
  ready : t.phase ≠ .idle → t.committed = t.root ∧ t.store.pipelineBuffer = []
  claimPhase : t.phase = .claimedRoot → t.claimedRoot.isSome ∧ isValidSMSTRoot t.root = true
  exitPhase : t.phase = .exitRoot → isValidSMSTRoot t.root = true
  claimed : ∀ r, d.claimedRoot = some r → t.claimedRoot = some r

structure Complete (T : Trie K V L) (s : Miner K V) : Prop where
  whole : Whole T s.disk
  tidy : ∀ g t, s.trees g = some t → Tidy T t
  backed : ∀ g, s.resident = some g → ∃ t, s.trees g = some t ∧ Backed T t s.disk

/-- The condition on a run: roots are stored by the resident tree, and a resume gets its answers. -/
def ByResident (s : Miner K V) : Act K L → Prop
  | .storeRoot g _ _ => s.resident = some g
  | .getOrCreate e => e.claimedRead = true ∧ e.claimedImport = true ∧ e.liveRead = true ∧ e.liveImport = true
  | _ => True

/-! ## Nodes written by any tree -/

omit [DecidableEq K] in
theorem Whole.congr {d' : Records K V} (h : Whole T d) (hg : Genuine T.content d'.nodes)
    (hn : ∀ r, Holds T.content d.nodes (T.nodes r) → Holds T.content d'.nodes (T.nodes r))
    (hl : d'.liveRoot = d.liveRoot) (hc : d'.claimedRoot = d.claimedRoot) : Whole T d' :=
  ⟨hg, fun r hr => (h.live r (hl ▸ hr)).imp_right (hn r), fun r hr => (h.claimed r (hc ▸ hr)).imp_right (hn r)⟩

theorem Whole.land (h : Whole T d) {buf : List (K × V)} (hb : Genuine T.content (buf.lookup ·)) (landed : K → Bool) :
    Whole T { d with nodes := Lib.land landed buf d.nodes } :=
  h.congr (hb.land h.genuine landed) (fun _ hr => hr.land hb landed) rfl rfl

theorem Backed.land (h : Backed T t d) {buf : List (K × V)} (hb : Genuine T.content (buf.lookup ·))
    (landed : K → Bool) : Backed T t { d with nodes := Lib.land landed buf d.nodes } :=
  { h with carries := ⟨h.carries.genuine, h.carries.held.readThrough_land hb landed, h.carries.kept⟩ }

/-! ## Commit -/

theorem genuine_nil : Genuine T.content (([] : List (K × V)).lookup ·) := by simp [Genuine]

/-- A commit buffers and writes genuine nodes, whichever tree makes it. -/
theorem commitLocked_genuine (hash : K → Option V) (f : CommitFault K)
    (hg : Genuine T.content (t.store.pipelineBuffer.lookup ·)) :
    Genuine T.content ((commitLocked T t hash f).1.store.pipelineBuffer.lookup ·) ∧
      ∃ landed buf, Genuine T.content (buf.lookup ·) ∧ (commitLocked T t hash f).2.1 = Lib.land landed buf hash := by
  cases f with
  | stopped handed =>
    obtain ⟨n', he, -⟩ := Trie.commitPart_spec (T := T) (n := t.store.beginPipeline) (c := t.committed) (r := t.root)
      hash rfl handed
    refine ⟨genuine_commitPart (n := t.store.beginPipeline) hash rfl hg handed, fun _ => false, [], genuine_nil, ?_⟩
    simp only [commitLocked, he]
    rfl
  | written orphans put =>
    obtain ⟨n', he, -⟩ := Trie.commit_spec (T := T) (n := t.store.beginPipeline) (c := t.committed) (r := t.root)
      hash rfl orphans
    have hgen : Genuine T.content (n'.pipelineBuffer.lookup ·) := by
      have h := genuine_commit (T := T) (n := t.store.beginPipeline) (c := t.committed) (r := t.root) hash rfl hg orphans
      rwa [he] at h
    simp only [commitLocked, he, NodeStore.flushPipeline]
    rcases NodeStore.writePendingNodes_cases { n' with pipelineEnabled := false } hash put with
      ⟨n2, hw, hb, -⟩ | ⟨landed, hw⟩ <;> rw [hw]
    · exact ⟨by rw [hb]; exact genuine_nil, fun _ => true, n'.pipelineBuffer, hgen, rfl⟩
    · exact ⟨hgen, landed, n'.pipelineBuffer, hgen, rfl⟩

/-- A commit that succeeded has the root it committed and an empty buffer. -/
theorem commitLocked_ok {hash : K → Option V} {f : CommitFault K} (hok : (commitLocked T t hash f).2.2 = true) :
    (commitLocked T t hash f).1.committed = t.root ∧ (commitLocked T t hash f).1.store.pipelineBuffer = [] := by
  cases f with
  | stopped handed => cases hok
  | written orphans put =>
    refine ⟨rfl, ?_⟩
    simp only [commitLocked, NodeStore.flushPipeline] at hok ⊢
    rcases NodeStore.writePendingNodes_cases
      { (T.commit (t.store.beginPipeline, hash) t.committed t.root orphans).1 with pipelineEnabled := false }
      (T.commit (t.store.beginPipeline, hash) t.committed t.root orphans).2 put with ⟨n', hw, hb, -⟩ | ⟨landed, hw⟩ <;>
      rw [hw] at hok ⊢
    · exact hb
    · cases hok

/-- The resident tree's store carries what was committed last. -/
theorem commitLocked_carries {hash : K → Option V} (f : CommitFault K) (h : Carries T t.store hash t.committed) :
    Carries T (commitLocked T t hash f).1.store (commitLocked T t hash f).2.1
      (commitLocked T t hash f).1.committed := by
  cases f with
  | stopped handed =>
    obtain ⟨n', he, -⟩ := Trie.commitPart_spec (T := T) (n := t.store.beginPipeline) (c := t.committed) (r := t.root)
      hash rfl handed
    have hc := h.beginPipeline.commitPart (r := t.root) rfl handed
    simp only [commitLocked]
    rw [he] at hc ⊢
    exact hc
  | written orphans put =>
    obtain ⟨n', he, -⟩ := Trie.commit_spec (T := T) (n := t.store.beginPipeline) (c := t.committed) (r := t.root)
      hash rfl orphans
    have hc := h.beginPipeline.commit (r := t.root) rfl orphans
    simp only [commitLocked]
    rw [he] at hc ⊢
    exact hc.flushPipeline put

/-! ## One action on one tree -/

theorem Complete.put (h : Complete T s) {t' : Tree K V} {d' : Records K V} (hg : s.trees g = some t)
    (hw : Whole T d') (ht : Tidy T t') (hself : s.resident = some g → Backed T t s.disk → Backed T t' d')
    (hother : s.resident ≠ some g → ∀ t0, Backed T t0 s.disk → Backed T t0 d') :
    Complete T (setTree { s with disk := d' } g t') := by
  refine ⟨hw, fun g0 t0 h0 => ?_, fun g0 h0 => ?_⟩
  · by_cases hgg : g0 = g
    · subst hgg
      obtain rfl : t' = t0 := by simpa [setTree] using h0
      exact ht
    · exact h.tidy g0 t0 (by simpa [setTree, Function.update_of_ne hgg] using h0)
  obtain ⟨t0, ht0, hb⟩ := h.backed g0 h0
  by_cases hgg : g0 = g
  · subst hgg
    cases hg.symm.trans ht0
    exact ⟨t', by simp [setTree], hself h0 hb⟩
  · refine ⟨t0, by simpa [setTree, Function.update_of_ne hgg] using ht0, hother (fun hr => ?_) t0 hb⟩
    exact hgg (Option.some.inj (h0.symm.trans hr))

theorem Complete.putTree (h : Complete T s) {t' : Tree K V} (hg : s.trees g = some t) (ht : Tidy T t')
    (hself : Backed T t s.disk → Backed T t' s.disk) : Complete T (setTree s g t') :=
  show Complete T (setTree { s with disk := s.disk } g t') from
    h.put hg h.whole ht (fun _ => hself) fun _ _ hb => hb

theorem Tidy.getD_claimedRoot (h : Tidy T t) : t.claimedRoot.getD t.root = t.root := by
  cases hc : t.claimedRoot with
  | none => rfl
  | some r => exact (h.atClaim r hc).symm

theorem Tidy.prepare (h : Tidy T t) (p : Purpose) : Tidy T (prepare t p).1 := by
  rcases prepare_cases t p with he | ⟨-, he⟩ <;> rw [he]
  · exact h
  refine ⟨h.genuine, fun r hr => ?_⟩
  rw [h.getD_claimedRoot] at hr
  exact Option.some.inj hr

theorem Backed.prepare (hi : t.phase = .idle) (h : Backed T t d) (p : Purpose) : Backed T (prepare t p).1 d := by
  rcases prepare_cases t p with he | ⟨-, he⟩ <;> rw [he]
  · exact h
  refine ⟨h.carries, h.ready, fun hp => ?_, h.exitPhase, fun r hr => ?_⟩
  · rw [show t.phase = .idle from hi] at hp
    cases hp
  · simp [h.claimed r hr]

theorem Tidy.commitLocked (h : Tidy T t) (hash : K → Option V) (f : CommitFault K) :
    Tidy T (commitLocked T t hash f).1 := by
  refine ⟨(commitLocked_genuine hash f h.genuine).1, fun r hr => ?_⟩
  obtain ⟨n, c, he⟩ := commitLocked_tree T t hash f
  rw [he] at hr ⊢
  exact h.atClaim r hr

theorem Tidy.afterCommit (h : Tidy T t) (p : Purpose) : Tidy T (afterCommit t p) := by
  cases p with
  | commitTree => exact h
  | checkpoint | exit | flushTree => exact ⟨h.genuine, h.atClaim⟩
  | unload =>
    simp only [Smst.afterCommit]
    split
    · exact ⟨h.genuine, h.atClaim⟩
    · exact ⟨h.genuine, h.atClaim⟩

theorem Backed.commitLocked (hi : t.phase = .idle) (h : Backed T t d) (f : CommitFault K) :
    Backed T (commitLocked T t d.nodes f).1 { d with nodes := (Smst.commitLocked T t d.nodes f).2.1 } := by
  have hc := commitLocked_carries f h.carries
  obtain ⟨n, c, he⟩ := commitLocked_tree T t d.nodes f
  rw [he] at hc ⊢
  refine ⟨hc, fun hp => absurd hi hp, fun hp => ?_, fun hp => ?_, h.claimed⟩
  · rw [show t.phase = .idle from hi] at hp
    cases hp
  · rw [show t.phase = .idle from hi] at hp
    cases hp

/-- What `prepare` checked before it let a commit through. -/
theorem prepare_true (ht : Tidy T t) {p : Purpose} (h : (prepare t p).2 = true) :
    (p = .flushTree → (prepare t p).1.claimedRoot.isSome = true ∧ isValidSMSTRoot (prepare t p).1.root = true) ∧
    (p = .exit → isValidSMSTRoot (prepare t p).1.root = true) := by
  refine ⟨?_, ?_⟩
  · rintro rfl
    simp only [Smst.prepare, ht.getD_claimedRoot] at h ⊢
    split at h
    · cases h
    next hc =>
      rw [if_neg hc]
      exact ⟨rfl, h⟩
  · rintro rfl
    exact h

/-- A successful commit leaves the resident tree ready for the root it is about to store. -/
theorem Backed.afterCommit (h : Backed T t d) (hc : t.committed = t.root ∧ t.store.pipelineBuffer = [])
    {p : Purpose} (hf : p = .flushTree → t.claimedRoot.isSome = true ∧ isValidSMSTRoot t.root = true)
    (he : p = .exit → isValidSMSTRoot t.root = true) : Backed T (afterCommit t p) d := by
  cases p with
  | commitTree => exact h
  | checkpoint => exact ⟨h.carries, fun _ => hc, by rintro ⟨⟩, by rintro ⟨⟩, h.claimed⟩
  | exit => exact ⟨h.carries, fun _ => hc, by rintro ⟨⟩, fun _ => he rfl, h.claimed⟩
  | flushTree => exact ⟨h.carries, fun _ => hc, fun _ => hf rfl, by rintro ⟨⟩, h.claimed⟩
  | unload =>
    simp only [Smst.afterCommit]
    split
    · exact ⟨h.carries, fun _ => hc, by rintro ⟨⟩, by rintro ⟨⟩, h.claimed⟩
    · exact { h with }

theorem complete_commitTree (h : Complete T s) (hg : s.trees g = some t) (hi : t.phase = .idle) (p : Purpose)
    (f : CommitFault K) : Complete T (commitTree T s g t p f) := by
  have ht := (h.tidy g t hg).prepare p
  have hphase : (prepare t p).1.phase = .idle := by
    rcases prepare_cases t p with he | ⟨-, he⟩ <;> rw [he] <;> exact hi
  obtain ⟨-, landed, buf, hbuf, hland⟩ := commitLocked_genuine s.disk.nodes f ht.genuine
  have hw : Whole T { s.disk with nodes := (Smst.commitLocked T (prepare t p).1 s.disk.nodes f).2.1 } := by
    rw [hland]
    exact h.whole.land hbuf landed
  have hother : s.resident ≠ some g → ∀ t0, Backed T t0 s.disk →
      Backed T t0 { s.disk with nodes := (Smst.commitLocked T (prepare t p).1 s.disk.nodes f).2.1 } := by
    intro _ t0 hb
    rw [hland]
    exact hb.land hbuf landed
  unfold commitTree
  dsimp only
  split
  next hgo =>
    split
    next hok =>
      have hself : s.resident = some g → Backed T t s.disk →
          Backed T (Smst.afterCommit (Smst.commitLocked T (prepare t p).1 s.disk.nodes f).1 p)
            { s.disk with nodes := (Smst.commitLocked T (prepare t p).1 s.disk.nodes f).2.1 } := by
        intro _ hb
        obtain ⟨n, c, he⟩ := commitLocked_tree T (prepare t p).1 s.disk.nodes f
        have hcom := commitLocked_ok hok
        have hbc := (hb.prepare hi p).commitLocked hphase f
        obtain ⟨hf, hx⟩ := prepare_true (h.tidy g t hg) hgo
        rw [he] at hcom hbc ⊢
        exact hbc.afterCommit hcom hf hx
      have hc := h.put hg hw ((ht.commitLocked s.disk.nodes f).afterCommit p) hself hother
      exact { hc with }
    · exact h.put hg hw (ht.commitLocked s.disk.nodes f)
        (fun _ hb => (hb.prepare hi p).commitLocked hphase f) hother
  · exact h.putTree hg ht fun hb => hb.prepare hi p

/-! ## Storing a root -/

theorem Backed.idle (h : Backed T t d) : Backed T { t with phase := .idle } d :=
  ⟨h.carries, fun hp => absurd rfl hp, nofun, nofun, h.claimed⟩

theorem Complete.idle (h : Complete T s) (hg : s.trees g = some t) :
    Complete T (setTree s g { t with phase := .idle }) :=
  h.putTree hg ⟨(h.tidy g t hg).genuine, (h.tidy g t hg).atClaim⟩ fun hb => hb.idle

def checkpointed (t : Tree K V) (d : Records K V) : Records K V :=
  { d with nodes := remove t.store.orphanBuffer d.nodes, liveRoot := some t.root }

/-- A checkpoint deletes nothing a stored root needs: live_root moves with it, and claimed_root, if stored, is
the root it stores. -/
theorem Whole.checkpointed (h : Whole T d) (ht : Tidy T t) (hb : Backed T t d) (hp : t.phase ≠ .idle)
    (hv : isValidSMSTRoot t.root = true) : Whole T (checkpointed t d) := by
  obtain ⟨hcom, hbuf⟩ := hb.ready hp
  have hheld : Holds T.content (remove t.store.orphanBuffer d.nodes) (T.nodes t.root) :=
    hcom ▸ (hb.carries.holds hbuf).remove hb.carries.kept
  refine ⟨h.genuine.remove _, fun r hr => ?_, fun r hr => ?_⟩
  · cases hr
    exact ⟨hv, hheld⟩
  · obtain rfl : t.root = r := ht.atClaim r (hb.claimed r hr)
    exact ⟨hv, hheld⟩

theorem Backed.checkpointed (hb : Backed T t d) (hp : t.phase ≠ .idle) :
    Backed T { t with phase := .idle } (checkpointed t d) := by
  obtain ⟨-, hbuf⟩ := hb.ready hp
  refine Backed.idle { hb with carries := ⟨hb.carries.genuine, fun k hk => ?_, hb.carries.kept⟩ }
  have hheld := (hb.carries.holds hbuf).remove hb.carries.kept
  simpa [Smst.checkpointed, NodeStore.get, readThrough, hbuf] using hheld k hk

theorem complete_storeLiveRoot (h : Complete T s) (hg : s.trees g = some t) (hr : s.resident = some g)
    (hb : Backed T t s.disk) {unload : Bool} (hp : t.phase = .liveRoot unload) (put : PutFault K) (f : Fault) :
    Complete T (storeLiveRoot s g t unload put f) := by
  have ht := h.tidy g t hg
  have hne : t.phase ≠ .idle := by simp [hp]
  unfold storeLiveRoot
  by_cases hv : isValidSMSTRoot t.root = true
  · rw [if_neg (by simp [hv]), if_neg (by simp [(hb.ready hne).2])]
    have hw := h.whole.checkpointed ht hb hne hv
    have hother : s.resident ≠ some g → ∀ t0, Backed T t0 s.disk → Backed T t0 (checkpointed t s.disk) :=
      fun hn => absurd hr hn
    cases f with
    | refused => exact h.idle hg
    | lost => exact h.put hg hw ⟨ht.genuine, ht.atClaim⟩ (fun _ hb => hb.checkpointed hne) hother
    | ok =>
      refine h.put hg hw ⟨ht.genuine, ht.atClaim⟩ (fun _ hb => ?_) hother
      have hc := hb.checkpointed hne
      exact { hc with carries := ⟨hc.carries.genuine, hc.carries.held, by simp⟩ }
  · rw [if_pos (by simpa using hv)]
    exact h.idle hg

theorem complete_storeExitRoot (h : Complete T s) (hg : s.trees g = some t) (hb : Backed T t s.disk)
    (hp : t.phase = .exitRoot) (f : Fault) : Complete T (storeExitRoot s g t f) := by
  have ht := h.tidy g t hg
  obtain ⟨hcom, hbuf⟩ := hb.ready (by simp [hp])
  have hw : Whole T { s.disk with liveRoot := some t.root } := by
    refine ⟨h.whole.genuine, fun r hr => ?_, h.whole.claimed⟩
    cases hr
    exact ⟨hb.exitPhase hp, hcom ▸ hb.carries.holds hbuf⟩
  have hself : ∀ t0, Backed T t0 s.disk → Backed T t0 { s.disk with liveRoot := some t.root } :=
    fun t0 hb => { hb with }
  unfold storeExitRoot
  split
  · cases f with
    | refused => exact h.idle hg
    | lost => exact h.put hg hw ⟨ht.genuine, ht.atClaim⟩ (fun _ hb => (hself t hb).idle) fun _ => hself
    | ok =>
      refine h.put hg hw ⟨ht.genuine, ht.atClaim⟩ (fun _ hb => ?_) fun _ => hself
      have hi := (hself t hb).idle
      exact { hi with }
  · exact h.idle hg

theorem complete_storeClaimedRoot (h : Complete T s) (hg : s.trees g = some t) (hr : s.resident = some g)
    (hb : Backed T t s.disk) (hp : t.phase = .claimedRoot) (f : Fault) : Complete T (storeClaimedRoot s g t f) := by
  have ht := h.tidy g t hg
  obtain ⟨hcom, hbuf⟩ := hb.ready (by simp [hp])
  obtain ⟨-, hv⟩ := hb.claimPhase hp
  have hheld : Holds T.content s.disk.nodes (T.nodes t.root) := hcom ▸ hb.carries.holds hbuf
  unfold storeClaimedRoot
  by_cases hf : f = .refused
  · simp only [hf, if_true]
    refine h.putTree hg ⟨ht.genuine, ht.atClaim⟩ fun hb => ?_
    exact ⟨hb.carries, fun hp => absurd rfl hp, nofun, nofun, hb.claimed⟩
  simp only [hf, if_false]
  refine h.put hg ⟨h.whole.genuine, h.whole.live, fun r hr => ?_⟩ ⟨ht.genuine, ht.atClaim⟩ (fun _ hb => ?_)
    fun hn => absurd hr hn
  · obtain rfl : t.root = r := ht.atClaim r hr
    exact ⟨hv, hheld⟩
  · exact ⟨hb.carries, fun hp => absurd rfl hp, nofun, nofun, fun r hr => hr⟩

/-! ## Resume -/

omit [DecidableEq K] in
/-- With every read answered a resume imports a stored root, or there is none. -/
theorem resume_whole (h : Whole T d) {e : ResumeEnv}
    (he : e.claimedRead = true ∧ e.claimedImport = true ∧ e.liveRead = true ∧ e.liveImport = true) :
    (∃ r, d.claimedRoot = some r ∧
      resumeTreeFromRedis e d = (some { root := r, committed := r, claimedRoot := some r }, d)) ∨
    (∃ r, d.claimedRoot = none ∧ d.liveRoot = some r ∧
      resumeTreeFromRedis e d = (some { root := r, committed := r, liveRoot := some r }, d)) ∨
    (d.claimedRoot = none ∧ d.liveRoot = none ∧ resumeTreeFromRedis e d = (none, d)) := by
  obtain ⟨h1, h2, h3, h4⟩ := he
  have hne : ∀ r, isValidSMSTRoot r = true → r ≠ [] := by
    rintro r hr rfl
    cases hr
  cases hc : d.claimedRoot with
  | some r =>
    obtain ⟨hv, -⟩ := h.claimed r hc
    exact .inl ⟨r, rfl, by simp [resumeTreeFromRedis, readRoot, h1, h2, hc, hv, hne r hv]⟩
  | none =>
    cases hl : d.liveRoot with
    | some r =>
      obtain ⟨hv, -⟩ := h.live r hl
      exact .inr (.inl ⟨r, rfl, rfl,
        by simp [resumeTreeFromRedis, resumeLive, readRoot, h1, h3, h4, hc, hl, hv, hne r hv]⟩)
    | none => exact .inr (.inr ⟨rfl, rfl, by simp [resumeTreeFromRedis, resumeLive, readRoot, hc, hl]⟩)

theorem Complete.add (h : Complete T s) (hstore : t.store = {}) (hidle : t.phase = .idle)
    (hheld : Holds T.content s.disk.nodes (T.nodes t.committed)) (hat : ∀ r, t.claimedRoot = some r → t.root = r)
    (hclaim : ∀ r, s.disk.claimedRoot = some r → t.claimedRoot = some r) : Complete T (addTree s t) := by
  have htidy : Tidy T t := ⟨by rw [hstore]; exact genuine_nil, hat⟩
  refine ⟨h.whole, fun g0 t0 h0 => ?_, fun g0 h0 => ?_⟩
  · by_cases hg : g0 = s.treeGen + 1
    · subst hg
      obtain rfl : t = t0 := by simpa [addTree] using h0
      exact htidy
    · exact h.tidy g0 t0 (by simpa [addTree, Function.update_of_ne hg] using h0)
  cases h0
  refine ⟨t, by simp [addTree], ⟨htidy.genuine, fun k hk => ?_, by simp [hstore]⟩, fun hp => absurd hidle hp,
    fun hp => ?_, fun hp => ?_, hclaim⟩
  · simpa [hstore, NodeStore.get, readThrough, addTree] using hheld k hk
  · rw [hidle] at hp; cases hp
  · rw [hidle] at hp; cases hp

theorem complete_getOrCreate (h : Complete T s) {e : ResumeEnv}
    (he : e.claimedRead = true ∧ e.claimedImport = true ∧ e.liveRead = true ∧ e.liveImport = true) :
    Complete T (getOrCreateTree T e s) := by
  unfold getOrCreateTree
  cases hres : s.resident with
  | some g => exact h
  | none =>
    rcases resume_whole h.whole he with ⟨r, hc, hr⟩ | ⟨r, hc, hl, hr⟩ | ⟨hc, -, hr⟩ <;> rw [hr]
    · refine h.add rfl rfl (h.whole.claimed r hc).2 (by simp) fun r' hr' => ?_
      rw [hc] at hr'
      exact hr'
    · exact h.add rfl rfl (h.whole.live r hl).2 (by simp) (by simp [hc])
    · refine h.add rfl rfl ?_ (by simp) (by simp [hc])
      simp [T.nodes_empty, Holds]

/-! ## Every run -/

section
variable (h : Complete T s)
include h

theorem complete_evict (f : Fault) : Complete T (evict s f) := by
  unfold evict
  split
  · exact ⟨h.whole, h.tidy, nofun⟩
  refine ⟨?_, h.tidy, nofun⟩
  split
  · exact h.whole
  · exact ⟨nofun, nofun, nofun⟩

theorem complete_update (hg : s.trees g = some t) (hi : t.phase = .idle) (l : L) :
    Complete T (setTree s g (updateTree T t l)) := by
  have ht := h.tidy g t hg
  unfold updateTree
  split
  · exact h.putTree hg ht fun hb => hb
  next hopen =>
    obtain ⟨-, hnone⟩ : t.sealing = false ∧ t.claimedRoot = none := by simpa using hopen
    refine h.putTree hg ⟨ht.genuine, by simp [hnone]⟩ fun hb => ?_
    exact ⟨hb.carries, fun hp => absurd hi hp, fun hp => absurd (hi.symm.trans hp) nofun,
      fun hp => absurd (hi.symm.trans hp) nofun, hb.claimed⟩

theorem complete_sealTree (hg : s.trees g = some t) : Complete T (setTree s g (sealTree t)) := by
  have ht := h.tidy g t hg
  unfold sealTree
  split
  · exact h.putTree hg ⟨ht.genuine, ht.atClaim⟩ fun hb =>
      { hb with }
  · exact h.putTree hg ht fun hb => hb

theorem complete_storeRoot (hg : s.trees g = some t) (hr : s.resident = some g)
    (put : PutFault K) (f : Fault) : Complete T (storeRoot s g t put f) := by
  obtain ⟨t0, ht0, hb⟩ := h.backed g hr
  cases hg.symm.trans ht0
  unfold storeRoot
  cases hp : t.phase with
  | idle => exact h
  | liveRoot unload => exact complete_storeLiveRoot h hg hr hb hp put f
  | exitRoot => exact complete_storeExitRoot h hg hb hp f
  | claimedRoot => exact complete_storeClaimedRoot h hg hr hb hp f

theorem complete_step {a : Act K L} (ha : ByResident s a) : Complete T (step T s a) := by
  rcases step_cases T s a with
    he | ⟨e, rfl, he⟩ | ⟨g, l, t, rfl, hg, hi, he⟩ | ⟨g, t, rfl, hg, -, he⟩ | ⟨g, p, f, t, rfl, hg, hi, he⟩ |
    ⟨g, put, f, t, rfl, hg, he⟩ | ⟨f, rfl, he⟩ | ⟨rfl, he⟩ <;> rw [he]
  · exact h
  · exact complete_getOrCreate h ha
  · exact complete_update h hg hi l
  · exact complete_sealTree h hg
  · exact complete_commitTree h hg hi p f
  · exact complete_storeRoot h hg ha put f
  · exact complete_evict h f
  · exact ⟨h.whole, nofun, nofun⟩
end

theorem complete_start : Complete T ({} : Miner K V) := ⟨⟨nofun, nofun, nofun⟩, nofun, nofun⟩

/-- At every crash point of a run in which roots are stored from the resident tree, a stored live_root or
claimed_root has every node it reaches in the hash, with its bytes. -/
theorem stored_roots_complete (T : Trie K V L) (as : List (Act K L)) (h : Meets (step T) ByResident {} as) :
    let d := (run (step T) {} as).disk
    (∀ r, d.liveRoot = some r → Holds T.content d.nodes (T.nodes r)) ∧
    (∀ r, d.claimedRoot = some r → Holds T.content d.nodes (T.nodes r)) := by
  have hc : Complete T (run (step T) {} as) :=
    inv_of_meets (Complete T) (fun _ _ hi hg => complete_step hi hg) complete_start h
  exact ⟨fun r hr => (hc.whole.live r hr).2, fun r hr => (hc.whole.claimed r hr).2⟩

/-! ## Two relays -/

instance (s : Miner K V) : DecidablePred (ByResident s : Act K L → Prop)
  | .storeRoot g _ _ => inferInstanceAs (Decidable (s.resident = some g))
  | .getOrCreate e => inferInstanceAs (Decidable
      (e.claimedRead = true ∧ e.claimedImport = true ∧ e.liveRead = true ∧ e.liveImport = true))
  | .update _ _ | .sealTree _ | .commit _ _ _ | .evict _ | .crash => isTrue trivial

def firstRoot : Bytes := pairTrie.insert pairTrie.empty true

def sealedRun : List (Act Bytes Bool) :=
  [.getOrCreate {}, .update 1 true, .commit 1 .checkpoint (.written [] (.failed [[0]])),
    .commit 1 .checkpoint (.written [] .ok), .storeRoot 1 .ok .ok,
    .update 1 false, .commit 1 .checkpoint (.written [firstRoot] .ok), .storeRoot 1 .ok .lost,
    .evict .ok, .getOrCreate {}, .sealTree 2, .commit 2 .flushTree (.written [] .ok), .storeRoot 2 .ok .ok]

theorem stored_roots_complete_sealed :
    let d := (run (step pairTrie) {} sealedRun).disk
    d.claimedRoot = some (pairTrie.insert firstRoot false) ∧
      ∀ r, d.claimedRoot = some r → Holds pairTrie.content d.nodes (pairTrie.nodes r) :=
  ⟨by decide, (stored_roots_complete pairTrie sealedRun (by decide)).2⟩

/-- `FlushTree` seals tree 1 and waits; tree 1 is evicted, tree 2 resumed from live_root, grown and
checkpointed; then `FlushTree` goes on with tree 1. -/
def staleRun : List (Act Bytes Bool) :=
  [.getOrCreate {}, .update 1 true, .commit 1 .checkpoint (.written [] .ok), .storeRoot 1 .ok .ok, .sealTree 1,
    .evict .ok, .getOrCreate {}, .update 2 false, .commit 2 .checkpoint (.written [firstRoot] .ok),
    .storeRoot 2 .ok .ok, .commit 1 .flushTree (.written [] .ok), .storeRoot 1 .ok .ok]

theorem claimed_root_incomplete :
    (run (step pairTrie) {} staleRun).disk.claimedRoot = some firstRoot ∧ firstRoot ∈ pairTrie.nodes firstRoot ∧
      (run (step pairTrie) {} staleRun).disk.nodes firstRoot = none := by
  decide

end RelayMiner.Smst
