import RelayMiner.Smst.Growth
import RelayMiner.Smst.Resume
/-!
# Relays from the tree to the acknowledgement

`relayBatch` (`relay_batch.go`) and the end of `handleRelay`, over the tree
manager of one session. A relay goes into a tree, waits in the batch with the
generation of that tree, and is acknowledged when a flush has checkpointed
live_root and committed the batch; or it is finished on its own.

The consume loop handles one relay at a time (`relay`), and the batch's mutex
lets one flush run at a time (`flush`). Everything else the manager does is a
move of its own, between any two of these.
-/
open RelayMiner.Lib RelayMiner.Session RelayMiner.Smst Function

namespace RelayMiner.Relay.Batch

open List

variable {K V L : Type} {l : L} {s : Miner K V} {t : Tree K V} {checkpointed : Bool} {relays : List L}

inductive Current (L : Type) where
  | idle
  | inTree (l : L) (gen : Nat)
  | stored (l : L)

inductive Flush (L : Type) where
  | idle
  | checkpoint (g : Nat)
  | liveRoot (g : Nat)
  | commit (relays : List L)
  | fallback (checkpointed : Bool) (relays : List L)
  | oneByOne (checkpointed : Bool) (relays : List L)

structure Worker (K V L : Type) where
  miner : Miner K V := {}
  relay : Current L := .idle
  held : List (L × Nat) := []
  flush : Flush L := .idle
  /-- Relays counted and acknowledged behind a checkpoint of live_root. -/
  acked : List L := []
  /-- Relays counted and acknowledged after `CommitTree`, which stores nodes and no root. -/
  ackedUnrooted : List L := []

inductive CommitAnswer where
  | ok | lost | failed | refused

inductive Act (K L : Type) where
  | manager (a : Smst.Act K L)
  | insert (g : Nat) (l : L)
  | add
  | handBack
  | storeSingle (g : Nat) (f : CommitFault K)
  | ackSingle
  | beginFlush
  | flushNodes (f : CommitFault K)
  | flushLiveRoot (put : PutFault K) (f : Fault)
  | commitSession (r : CommitAnswer)
  | panicFlush
  | fallbackCommit (g : Option Nat) (f : CommitFault K)
  | ackNext (acked : Bool)
  | releaseAll

variable [DecidableEq K]

def free (s : Miner K V) (g : Nat) : Bool :=
  match s.trees g with
  | none => false
  | some t => t.phase = .idle

def accepts (s : Miner K V) (g : Nat) : Bool :=
  match s.trees g with
  | none => false
  | some t => !(t.sealing || t.claimedRoot.isSome)

def commits (T : Trie K V L) (s : Miner K V) (g : Nat) (p : Purpose) (f : CommitFault K) : Bool :=
  match s.trees g with
  | none => false
  | some t => (prepare t p).2 && (commitLocked T (prepare t p).1 s.disk.nodes f).2.2

def storesLiveRoot (s : Miner K V) (g : Nat) (f : Fault) : Bool :=
  match s.trees g with
  | none => false
  | some t => isValidSMSTRoot t.root && t.store.pipelineBuffer.isEmpty && f = .ok

def heldByFlush (w : Worker K V L) : Smst.Act K L → Bool
  | .storeRoot g _ _ => match w.flush with
    | .liveRoot g' => g = g'
    | _ => false
  | _ => false

def letGo (s : Miner K V) (g : Nat) : Miner K V := onTree s g fun t => setTree s g { t with phase := .idle }

def ack (w : Worker K V L) (checkpointed : Bool) (relays : List L) : Worker K V L :=
  if checkpointed then { w with acked := w.acked ++ relays }
  else { w with ackedUnrooted := w.ackedUnrooted ++ relays }

/-- A call of the manager, or a move of the worker that inserts, batches, flushes and acknowledges. -/
def step (T : Trie K V L) (w : Worker K V L) : Act K L → Worker K V L
  | .manager .crash =>
    { miner := Smst.step T w.miner .crash, acked := w.acked, ackedUnrooted := w.ackedUnrooted }
  | .manager a => if heldByFlush w a then w else { w with miner := Smst.step T w.miner a }
  -- `UpdateTreeGen` on the tree `GetOrCreateTree` handed out.
  | .insert g l =>
    match w.relay with
    | .idle =>
      if free w.miner g && accepts w.miner g then
        { w with miner := Smst.step T w.miner (.update g l), relay := .inTree l g }
      else w
    | _ => w
  | .add =>
    match w.relay, w.flush with
    | .inTree l g, .idle => { w with relay := .idle, held := w.held ++ [(l, g)] }
    | _, _ => w
  | .handBack => { w with relay := .idle }
  -- The end of `handleRelay` for a relay the batch does not take.
  | .storeSingle g f =>
    match w.relay with
    | .inTree l _ =>
      if free w.miner g then
        { w with
          miner := Smst.step T w.miner (.commit g .commitTree f)
          relay := if commits T w.miner g .commitTree f then .stored l else .idle }
      else w
    | _ => w
  | .ackSingle =>
    match w.relay with
    | .stored l => ack { w with relay := .idle } false [l]
    | _ => w
  | .beginFlush =>
    match w.flush, w.miner.resident with
    | .idle, none => { w with held := [] }
    | .idle, some g => { w with flush := .checkpoint g }
    | _, _ => w
  | .flushNodes f =>
    match w.flush with
    | .checkpoint g =>
      if free w.miner g then
        { w with
          miner := Smst.step T w.miner (.commit g .checkpoint f)
          flush := if commits T w.miner g .checkpoint f then .liveRoot g else .idle }
      else w
    | _ => w
  | .flushLiveRoot put f =>
    match w.flush with
    | .liveRoot g =>
      -- Relays of another generation are handed back.
      let own := w.held.filter (·.2 = g)
      if storesLiveRoot w.miner g f then
        { w with
          miner := Smst.step T w.miner (.storeRoot g put f)
          held := own
          flush := if own.isEmpty then .idle else .commit (own.map (·.1)) }
      else
        let miner := Smst.step T w.miner (.storeRoot g put f)
        { w with miner := miner, flush := if free miner g then .idle else .liveRoot g }
    | _ => w
  | .commitSession r =>
    match w.flush, r with
    | .commit relays, .ok => ack { w with flush := .idle, held := [] } true relays
    | .commit relays, .lost => ack { w with flush := .idle } true relays
    | .commit _, .failed => { w with flush := .idle }
    | .commit relays, .refused => { w with flush := .fallback true relays }
    | _, _ => w
  -- A panic of the flush finishes the relays it has one by one.
  | .panicFlush =>
    match w.flush with
    | .checkpoint _ => { w with flush := .fallback false (w.held.map (·.1)) }
    | .liveRoot g => { w with miner := letGo w.miner g, flush := .fallback false (w.held.map (·.1)) }
    | .commit relays => { w with flush := .fallback true relays }
    | _ => w
  | .fallbackCommit none _ =>
    match w.flush with
    | .fallback _ _ => { w with flush := .idle, held := [] }
    | _ => w
  | .fallbackCommit (some g) f =>
    match w.flush with
    | .fallback checkpointed relays =>
      if free w.miner g then
        let miner := Smst.step T w.miner (.commit g .commitTree f)
        if commits T w.miner g .commitTree f then
          { w with miner := miner, flush := .oneByOne checkpointed relays }
        else { w with miner := miner, flush := .idle, held := [] }
      else w
    | _ => w
  | .ackNext acked =>
    match w.flush with
    | .oneByOne checkpointed (l :: relays) =>
      let w := { w with flush := .oneByOne checkpointed relays }
      if acked then ack w checkpointed [l] else w
    | .oneByOne _ [] => { w with flush := .idle, held := [] }
    | _ => w
  | .releaseAll =>
    match w.flush with
    | .idle => { w with held := [] }
    | _ => w

/-! ## What is acknowledged is stored -/

variable {T : Trie K V L}

def InTree (T : Trie K V L) (s : Miner K V) (g : Nat) (l : L) : Prop :=
  ∃ t, s.trees g = some t ∧ T.contains t.root l = true

def Stored (T : Trie K V L) (s : Miner K V) (l : L) : Prop := T.contains (resumeRoot T s.disk) l = true

def FlushOk (T : Trie K V L) (s : Miner K V) : Flush L → Prop
  | .idle => True
  | .checkpoint _ => True
  | .liveRoot g => ∃ t, s.trees g = some t ∧ t.phase = .liveRoot false
  | .commit relays => ∀ l ∈ relays, Stored T s l
  | .fallback checkpointed relays => checkpointed = true → ∀ l ∈ relays, Stored T s l
  | .oneByOne checkpointed relays => checkpointed = true → ∀ l ∈ relays, Stored T s l

structure Kept (T : Trie K V L) (w : Worker K V L) : Prop where
  grown : Grown T w.miner
  acked : ∀ l ∈ w.acked, Stored T w.miner l
  relay : ∀ l g, w.relay = .inTree l g → InTree T w.miner g l
  held : ∀ p ∈ w.held, InTree T w.miner p.2 p.1
  flush : FlushOk T w.miner w.flush

def Flush.OfResident (resident : Option Nat) : Flush L → Prop
  | .liveRoot g => resident = some g
  | _ => True

/-- The condition on a run: roots are stored from the resident tree, a resume gets its answers, and no eviction
is the one that purges the session. -/
def Covered (w : Worker K V L) : Act K L → Prop
  | .manager a => ByResident w.miner a ∧ NoPurge w.miner a
  | .flushLiveRoot _ _ => w.flush.OfResident w.miner.resident
  | _ => True

variable {g : Nat}

omit [DecidableEq K] in
theorem InTree.keeps {s' : Miner K V} (hk : Keeps T s s') (h : InTree T s g l) : InTree T s' g l := by
  obtain ⟨t, hg, hl⟩ := h
  obtain ⟨t', hg', hw⟩ := hk.trees g t hg
  exact ⟨t', hg', hw l hl⟩

variable {w : Worker K V L}

/-- What the worker knows survives a step of the manager; where the flush stands is for the caller. -/
theorem Kept.of_keeps {s' : Miner K V} (h : Kept T w) (hg : Grown T s') (hk : Keeps T w.miner s') :
    Grown T s' ∧ (∀ l ∈ w.acked, Stored T s' l) ∧ (∀ l g, w.relay = .inTree l g → InTree T s' g l) ∧
      (∀ p ∈ w.held, InTree T s' p.2 p.1) :=
  ⟨hg, fun l hl => hk.stored l (h.acked l hl), fun l g hr => (h.relay l g hr).keeps hk,
    fun p hp => (h.held p hp).keeps hk⟩

attribute [local simp] setTree

/-- A tree whose lock is held is changed by nobody else. -/
theorem trees_of_locked (h : Grown T s) (hg : s.trees g = some t) (hp : t.phase ≠ .idle)
    {a : Smst.Act K L} (hcrash : a ≠ .crash) (hne : ∀ put f, a ≠ .storeRoot g put f) :
    (Smst.step T s a).trees g = some t := by
  have hother : ∀ {g' : Nat} {t' t'' : Tree K V}, s.trees g' = some t' → t'.phase = .idle →
      (setTree s g' t'').trees g = some t := by
    intro g' t' t'' hg' hi
    have hgg : g ≠ g' := by
      rintro rfl
      cases hg.symm.trans hg'
      exact hp hi
    simpa [update_of_ne hgg] using hg
  rcases step_cases T s a with
    he | ⟨e, rfl, he⟩ | ⟨g', l, t', rfl, hg', hi, he⟩ | ⟨g', t', rfl, hg', hi, he⟩ | ⟨g', p, f, t', rfl, hg', hi, he⟩ |
    ⟨g', put, f, t', rfl, hg', he⟩ | ⟨f, rfl, he⟩ | ⟨rfl, he⟩ <;> rw [he]
  · exact hg
  · unfold getOrCreateTree
    cases s.resident with
    | some _ => exact hg
    | none =>
      have hgg : g ≠ s.treeGen + 1 := by
        have := h.young g t hg
        omega
      simpa [addTree, update_of_ne hgg] using hg
  · exact hother hg' hi
  · exact hother hg' hi
  · obtain ⟨t'', hash, n, hc, -⟩ := commitTree_frame T s g' t' p f
    rw [hc]
    change (setTree s g' t'').trees g = some t
    exact hother hg' hi
  · obtain ⟨t'', d', hc, -⟩ := storeRoot_frame hg' put f
    have hgg : g ≠ g' := by
      rintro rfl
      exact hne put f rfl
    rw [hc]
    simpa [update_of_ne hgg] using hg
  · unfold evict
    split <;> exact hg
  · exact absurd rfl hcrash

/-- A checkpoint's commit that succeeds leaves the tree's lock held for live_root. -/
theorem phase_of_commits {f : CommitFault K} (hfree : free s g = true)
    (hok : commits T s g .checkpoint f = true) :
    ∃ t, (Smst.step T s (.commit g .checkpoint f)).trees g = some t ∧ t.phase = .liveRoot false := by
  unfold free at hfree
  unfold commits at hok
  cases hg : s.trees g with
  | none => simp [hg] at hfree
  | some t =>
    simp only [hg, decide_eq_true_eq] at hfree hok
    obtain ⟨hgo, hok⟩ : (prepare t .checkpoint).2 = true ∧ _ := by simpa using hok
    refine ⟨afterCommit (commitLocked T (prepare t .checkpoint).1 s.disk.nodes f).1 .checkpoint, ?_, rfl⟩
    simp only [Smst.step, onTree, hg, hfree, if_true, commitTree, hgo, hok, setTree, update_self]

/-- The transaction stored the tree's root: a resume finds it, as live_root or as the claimed_root it equals. -/
theorem resumeRoot_of_stored (h : Grown T s) (hg : s.trees g = some t) (hr : s.resident = some g)
    {u : Bool} (hp : t.phase = .liveRoot u) (put : PutFault K) {f : Fault} (hok : storesLiveRoot s g f = true) :
    resumeRoot T (Smst.step T s (.storeRoot g put f)).disk = t.root := by
  obtain ⟨t0, ht0, hb⟩ := h.complete.backed g hr
  cases hg.symm.trans ht0
  obtain ⟨hv, hbuf, rfl⟩ : isValidSMSTRoot t.root = true ∧ t.store.pipelineBuffer.isEmpty = true ∧ f = .ok := by
    simpa [storesLiveRoot, hg, and_assoc] using hok
  have hdisk : (Smst.step T s (.storeRoot g put .ok)).disk =
      { s.disk with nodes := remove t.store.orphanBuffer s.disk.nodes, liveRoot := some t.root } := by
    simp [Smst.step, onTree, hg, storeRoot, hp, storeLiveRoot, hv, isEmpty_iff.1 hbuf]
  rw [hdisk]
  cases hc : s.disk.claimedRoot with
  | none => simp [resumeRoot, hc]
  | some r => simp [resumeRoot, hc, (h.complete.tidy g t hg).atClaim r (hb.claimed r hc)]

/-- A write that was not the transaction, or failed, leaves the lock free or held for live_root. -/
theorem phase_of_storeRoot (hg : s.trees g = some t) (hp : t.phase = .liveRoot false) (put : PutFault K)
    (f : Fault) (hfree : free (Smst.step T s (.storeRoot g put f)) g = false) :
    ∃ t', (Smst.step T s (.storeRoot g put f)).trees g = some t' ∧ t'.phase = .liveRoot false := by
  have hstep : Smst.step T s (.storeRoot g put f) = storeLiveRoot s g t false put f := by
    simp [Smst.step, onTree, hg, storeRoot, hp]
  rw [hstep] at hfree ⊢
  -- Only the write of buffered nodes that succeeds keeps the lock.
  by_cases hv : isValidSMSTRoot t.root = true
  · by_cases hb : t.store.pipelineBuffer.isEmpty = true
    · simp [storeLiveRoot, hv, isEmpty_iff.1 hb, free] at hfree
    · simp only [storeLiveRoot, hv, hb, Bool.not_true, Bool.not_false, Bool.false_eq_true, if_false, if_true, free, setTree,
        update_self] at hfree ⊢
      cases hw : (t.store.writePendingNodes s.disk.nodes put).2.2 with
      | false => simp [hw] at hfree
      | true => exact ⟨_, rfl, by simp [hp]⟩
  · simp [storeLiveRoot, hv, free] at hfree

theorem Kept.manager (h : Kept T w) {a : Smst.Act K L} (ha : ByResident w.miner a)
    (hp : NoPurge w.miner a) (hcrash : a ≠ .crash) (hfl : heldByFlush w a = false) :
    Kept T { w with miner := Smst.step T w.miner a } := by
  obtain ⟨hg, hk⟩ := grown_step h.grown ha hp hcrash
  obtain ⟨-, hacked, hrelay, hheld⟩ := h.of_keeps hg hk
  refine ⟨hg, hacked, hrelay, hheld, ?_⟩
  have hflush := h.flush
  cases hf : w.flush with
  | idle | checkpoint => trivial
  | liveRoot g =>
    rw [hf] at hflush
    obtain ⟨t, hg, hphase⟩ := hflush
    refine ⟨t, trees_of_locked h.grown hg (by simp [hphase]) hcrash ?_, hphase⟩
    rintro put f rfl
    simp [heldByFlush, hf] at hfl
  | commit relays =>
    rw [hf] at hflush
    exact fun l hl => hk.stored l (hflush l hl)
  | fallback | oneByOne =>
    rw [hf] at hflush
    exact fun hc l hl => hk.stored l (hflush hc l hl)

theorem mem_map_fst {held : List (L × Nat)} (h : l ∈ held.map (·.1)) : ∃ g, (l, g) ∈ held := by
  obtain ⟨p, hp, rfl⟩ := mem_map.1 h
  exact ⟨p.2, hp⟩

/-! What each action makes of the worker, where it does anything. -/

section
variable (h : Kept T w)
include h

theorem Kept.noRelay : Kept T { w with relay := .idle } :=
  { h with relay := fun _ _ hr => nomatch hr }

theorem Kept.noHeld : Kept T { w with held := [] } :=
  { h with held := fun _ hp => nomatch hp }

theorem Kept.flushed : Kept T { w with flush := .idle } :=
  { h with flush := trivial }

/-- Relays acknowledged behind a checkpoint have to be stored; the others are not spoken of. -/
theorem Kept.ack (hs : checkpointed = true → ∀ l ∈ relays, Stored T w.miner l) :
    Kept T (ack w checkpointed relays) := by
  cases checkpointed with
  | false => exact { h with }
  | true =>
    exact { h with acked := List.forall_mem_append.2 ⟨h.acked, hs rfl⟩ }

theorem Kept.insert (l : L)
    (hacc : (free w.miner g && accepts w.miner g) = true) :
    Kept T { w with miner := Smst.step T w.miner (.update g l), relay := .inTree l g } := by
  have hm := h.manager (a := .update g l) trivial trivial nofun rfl
  refine { hm with relay := fun l' g' hr => ?_ }
  obtain ⟨rfl, rfl⟩ : l = l' ∧ g = g' := by simpa using hr
  unfold free accepts at hacc
  cases hg : w.miner.trees g with
  | none => simp [hg] at hacc
  | some t =>
    obtain ⟨hi, hs, hc⟩ : t.phase = .idle ∧ t.sealing = false ∧ t.claimedRoot = none := by simpa [hg] using hacc
    refine ⟨{ t with root := T.insert t.root l, unloaded := false }, ?_, (T.contains_insert t.root l l).2 (.inl rfl)⟩
    simp [Smst.step, onTree, hg, hi, updateTree, hs, hc]

theorem Kept.add (hr : w.relay = .inTree l g) :
    Kept T { w with relay := .idle, held := w.held ++ [(l, g)] } := by
  exact ⟨h.grown, h.acked, nofun, forall_mem_append.2 ⟨h.held, forall_mem_singleton.2 (h.relay l g hr)⟩, h.flush⟩

theorem Kept.flushNodes (f : CommitFault K)
    (hfree : free w.miner g = true) :
    Kept T { w with
      miner := Smst.step T w.miner (.commit g .checkpoint f)
      flush := if commits T w.miner g .checkpoint f then .liveRoot g else .idle } := by
  have hm := h.manager (a := .commit g .checkpoint f) trivial trivial nofun rfl
  refine { hm with flush := ?_ }
  split
  next hok => exact phase_of_commits hfree hok
  · trivial
end

section

variable {w : Worker K V L} {g : Nat}

theorem Kept.locked (h : Kept T w) (hf : w.flush = .liveRoot g) :
    ∃ t, w.miner.trees g = some t ∧ t.phase = .liveRoot false := by
  have hflush := h.flush
  rwa [hf] at hflush

theorem Kept.storeLiveRoot (h : Kept T w) (hf : w.flush = .liveRoot g) (hres : w.miner.resident = some g)
    (put : PutFault K) {f : Fault} (hok : storesLiveRoot w.miner g f = true) :
    let own := w.held.filter (·.2 = g)
    Kept T { w with
      miner := Smst.step T w.miner (.storeRoot g put f)
      held := own
      flush := if own.isEmpty then .idle else .commit (own.map (·.1)) } := by
  obtain ⟨t, hg, hphase⟩ := h.locked hf
  obtain ⟨hgrown, hk⟩ := grown_step h.grown (a := .storeRoot g put f) hres trivial nofun
  obtain ⟨-, hacked, hrelay, hheld⟩ := h.of_keeps hgrown hk
  refine ⟨hgrown, hacked, hrelay, fun p hp => hheld p (mem_filter.1 hp).1, ?_⟩
  split
  · trivial
  intro l hl
  obtain ⟨g', hp⟩ := mem_map_fst hl
  obtain ⟨hmem, hgen⟩ := mem_filter.1 hp
  obtain rfl : g' = g := by simpa using hgen
  obtain ⟨t', hg', hl'⟩ := h.held _ hmem
  cases hg.symm.trans hg'
  unfold Stored
  rw [resumeRoot_of_stored h.grown hg hres hphase put hok]
  exact hl'

theorem Kept.writeLiveRoot (h : Kept T w) (hf : w.flush = .liveRoot g) (hres : w.miner.resident = some g)
    (put : PutFault K) (f : Fault) :
    let miner := Smst.step T w.miner (.storeRoot g put f)
    Kept T { w with miner := miner, flush := if free miner g then .idle else .liveRoot g } := by
  obtain ⟨t, hg, hphase⟩ := h.locked hf
  obtain ⟨hgrown, hk⟩ := grown_step h.grown (a := .storeRoot g put f) hres trivial nofun
  obtain ⟨-, hacked, hrelay, hheld⟩ := h.of_keeps hgrown hk
  refine ⟨hgrown, hacked, hrelay, hheld, ?_⟩
  split
  · trivial
  next hfree => exact phase_of_storeRoot hg hphase put f (by simpa using hfree)

end

variable {w : Worker K V L}

/-- What a flush goes on with one by one is stored, if it had checkpointed. -/
theorem Kept.fallback (h : Kept T w)
    (hs : checkpointed = true → ∀ l ∈ relays, Stored T w.miner l) :
    Kept T { w with flush := .fallback checkpointed relays } :=
  { h with flush := hs }

theorem grown_letGo (h : Grown T s) (g : Nat) : Grown T (letGo s g) ∧ Keeps T s (letGo s g) := by
  unfold letGo onTree
  cases hg : s.trees g with
  | none => exact ⟨h, .refl s⟩
  | some t =>
    obtain ⟨hgen, hclaim⟩ := h.complete.tidy g t hg
    exact grown_setTree h hg (.refl _) (h.complete.putTree hg ⟨hgen, hclaim⟩ Backed.idle)

theorem Kept.letGo (h : Kept T w) (g : Nat) (relays : List L) :
    Kept T { w with miner := letGo w.miner g, flush := .fallback false relays } := by
  obtain ⟨hg, hk⟩ := grown_letGo h.grown g
  obtain ⟨-, hacked, hrelay, hheld⟩ := h.of_keeps hg hk
  exact ⟨hg, hacked, hrelay, hheld, nofun⟩

theorem Kept.fallbackCommit (h : Kept T w) (hf : w.flush = .fallback checkpointed relays)
    (g : Nat) (f : CommitFault K) :
    Kept T { w with miner := Smst.step T w.miner (.commit g .commitTree f), flush := .oneByOne checkpointed relays } := by
  have hm := h.manager (a := .commit g .commitTree f) trivial trivial nofun rfl
  have hflush := hm.flush
  rw [hf] at hflush
  exact { hm with flush := hflush }

theorem Kept.ackNext (h : Kept T w) (hf : w.flush = .oneByOne checkpointed (l :: relays))
    (acked : Bool) : let w' := { w with flush := .oneByOne checkpointed relays }
    Kept T (if acked then Batch.ack w' checkpointed [l] else w') := by
  have hflush := h.flush
  rw [hf] at hflush
  have hrest : Kept T { w with flush := .oneByOne checkpointed relays } :=
    { h with flush := fun hc l' hl' => hflush hc l' (mem_cons_of_mem _ hl') }
  cases acked with
  | false => exact hrest
  | true =>
    refine hrest.ack fun hc l' hl' => ?_
    obtain rfl := mem_singleton.1 hl'
    exact hflush hc l' mem_cons_self

/-- The step lemma: what has been acknowledged behind a checkpoint is under the root a resume finds. -/
theorem kept_step (h : Kept T w) {a : Act K L} (ha : Covered w a) : Kept T (step T w a) := by
  have hflush := h.flush
  cases a with
  | manager a =>
    by_cases hcrash : a = .crash
    · subst hcrash
      exact ⟨⟨⟨h.grown.complete.whole, nofun, nofun⟩, nofun, nofun⟩, h.acked, nofun, nofun, trivial⟩
    have hstep : step T w (.manager a) =
        if heldByFlush w a then w else { w with miner := Smst.step T w.miner a } := by
      cases a <;> first | rfl | exact absurd rfl hcrash
    rw [hstep]
    split
    · exact h
    next hfl => exact h.manager ha.1 ha.2 hcrash (by simpa using hfl)
  | insert g l =>
    simp only [step]
    split
    · split
      next hacc => exact h.insert l hacc
      · exact h
    · exact h
  | add =>
    simp only [step]
    split
    next l g hr hf => exact h.add hr
    · exact h
  | handBack => exact h.noRelay
  | storeSingle g f =>
    simp only [step]
    split
    · split
      · have hm := h.manager (a := .commit g .commitTree f) trivial trivial nofun rfl
        refine { hm with relay := fun l' g' hr => ?_ }
        split at hr <;> cases hr
      · exact h
    · exact h
  | ackSingle =>
    simp only [step]
    split
    · exact h.noRelay.ack nofun
    · exact h
  | beginFlush =>
    simp only [step]
    split
    · exact h.noHeld
    · exact { h with flush := trivial }
    · exact h
  | flushNodes f =>
    simp only [step]
    split
    · split
      next hfree => exact h.flushNodes f hfree
      · exact h
    · exact h
  | flushLiveRoot put f =>
    simp only [step]
    split
    next g hf =>
      have hres : w.miner.resident = some g := by simpa [Covered, hf, Flush.OfResident] using ha
      split
      next hok => exact h.storeLiveRoot hf hres put hok
      · exact h.writeLiveRoot hf hres put f
    · exact h
  | commitSession r =>
    simp only [step]
    split <;> rename_i hf
    · rw [hf] at hflush
      exact h.flushed.noHeld.ack fun _ => hflush
    · rw [hf] at hflush
      exact h.flushed.ack fun _ => hflush
    · exact h.flushed
    · rw [hf] at hflush
      exact h.fallback fun _ => hflush
    · exact h
  | panicFlush =>
    simp only [step]
    split
    · exact h.fallback nofun
    next g hf => exact h.letGo g _
    next relays hf =>
      rw [hf] at hflush
      exact h.fallback fun _ => hflush
    · exact h
  | fallbackCommit g f =>
    cases g with
    | none =>
      simp only [step]
      split
      · exact h.flushed.noHeld
      · exact h
    | some g =>
      simp only [step]
      split
      next checkpointed relays hf =>
        have hm := h.fallbackCommit hf g f
        split
        · split
          · exact hm
          · exact hm.flushed.noHeld
        · exact h
      · exact h
  | ackNext acked =>
    simp only [step]
    split
    next checkpointed l relays hf => exact h.ackNext hf acked
    · exact h.flushed.noHeld
    · exact h
  | releaseAll =>
    simp only [step]
    split
    · exact h.noHeld
    · exact h

theorem kept_start : Kept T ({} : Worker K V L) := ⟨⟨complete_start, nofun, nofun⟩, nofun, nofun, nofun, trivial⟩

/-- At every crash point, a resume rebuilds a tree that has every relay acknowledged behind a checkpoint, with
all its nodes in the store. -/
theorem acked_relays_survive (T : Trie K V L) (as : List (Act K L)) (h : Meets (step T) Covered {} as) :
    let w := run (step T) {} as
    ∀ l ∈ w.acked, ∃ t, residentTree (getOrCreateTree T {} { disk := w.miner.disk }) = some t ∧
      T.contains t.root l = true ∧ Holds T.content w.miner.disk.nodes (T.nodes t.root) := by
  intro w l hl
  have hk : Kept T w := inv_of_meets (Kept T) (fun _ _ hi hg => kept_step hi hg) kept_start h
  have hw := hk.grown.complete.whole
  have hroot := (resume_root hw (e := {}) ⟨rfl, rfl, rfl, rfl⟩).2
  refine ⟨_, residentTree_getOrCreate T {} rfl, ?_, ?_⟩
  · rw [hroot]
    exact hk.acked l hl
  · rw [hroot]
    exact hw.holds_resumeRoot

/-! ## Two relays -/

instance (s : Miner K V) : DecidablePred (NoPurge s : Smst.Act K L → Prop)
  | .evict _ => inferInstanceAs (Decidable (s.evictionCount + 1 < persistentCorruptionThreshold))
  | .getOrCreate _ | .update _ _ | .sealTree _ | .commit _ _ _ | .storeRoot _ _ _ | .crash => isTrue trivial

instance (resident : Option Nat) : DecidablePred (Flush.OfResident resident : Flush L → Prop)
  | .liveRoot g => inferInstanceAs (Decidable (resident = some g))
  | .idle | .checkpoint _ | .commit _ | .fallback _ _ | .oneByOne _ _ => isTrue trivial

instance (w : Worker K V L) : DecidablePred (Covered w)
  | .manager a => inferInstanceAs (Decidable (ByResident w.miner a ∧ NoPurge w.miner a))
  | .flushLiveRoot _ _ => inferInstanceAs (Decidable (w.flush.OfResident w.miner.resident))
  | .insert _ _ | .add | .handBack | .storeSingle _ _ | .ackSingle | .beginFlush | .flushNodes _ | .commitSession _
  | .panicFlush | .fallbackCommit _ _ | .ackNext _ | .releaseAll => isTrue trivial

def flushed (g : Nat) (l : Bool) (orphans : List Bytes) : List (Act Bytes Bool) :=
  [.manager (.getOrCreate {}), .insert g l, .add, .beginFlush, .flushNodes (.written orphans .ok), .flushLiveRoot .ok .ok]

/-- One relay acknowledged on its own after its commit was refused, one by a commit whose reply was lost; an
eviction between them and a crash at the end. -/
def survivingRun : List (Act Bytes Bool) :=
  flushed 1 true [] ++
    [.commitSession .refused, .fallbackCommit (some 1) (.written [] .ok), .ackNext true, .ackNext true,
      .manager (.evict .ok)] ++
    flushed 2 false [firstRoot] ++ [.commitSession .lost, .manager .crash]

theorem acked_relays_survive_crash :
    let w := run (step pairTrie) {} survivingRun
    w.acked = [true, false] ∧
      ∀ l ∈ w.acked, ∃ t, residentTree (getOrCreateTree pairTrie {} { disk := w.miner.disk }) = some t ∧
        pairTrie.contains t.root l = true ∧ Holds pairTrie.content w.miner.disk.nodes (pairTrie.nodes t.root) :=
  ⟨by decide, acked_relays_survive pairTrie survivingRun (by decide)⟩

def survives (T : Trie K V L) (w : Worker K V L) (l : L) : Bool :=
  (residentTree (getOrCreateTree T {} { disk := w.miner.disk })).any fun t => T.contains t.root l

def purgedRun : List (Act Bytes Bool) :=
  flushed 1 true [] ++
    [.commitSession .ok, .manager (.evict .ok), .manager (.getOrCreate {}), .manager (.evict .ok),
      .manager (.getOrCreate {}), .manager (.evict .ok)]

def singleRun : List (Act Bytes Bool) :=
  [.manager (.getOrCreate {}), .insert 1 true, .storeSingle 1 (.written [] .ok), .ackSingle, .manager .crash]

def panicRun : List (Act Bytes Bool) :=
  [.manager (.getOrCreate {}), .insert 1 true, .add, .beginFlush, .panicFlush, .fallbackCommit (some 1) (.written [] .ok),
    .ackNext true, .manager .crash]

theorem acked_relay_lost :
    (let w := run (step pairTrie) {} purgedRun; true ∈ w.acked ∧ survives pairTrie w true = false) ∧
    (let w := run (step pairTrie) {} singleRun; true ∈ w.ackedUnrooted ∧ survives pairTrie w true = false) ∧
    (let w := run (step pairTrie) {} panicRun; true ∈ w.ackedUnrooted ∧ survives pairTrie w true = false) := by
  decide

end RelayMiner.Relay.Batch
