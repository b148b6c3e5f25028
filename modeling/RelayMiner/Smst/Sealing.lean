import RelayMiner.Smst.Manager
/-!
# Sealing a session tree

`FlushTree` (`smst_manager.go`) sets the tree's sealing flag, drops its lock for
a while, and only then takes the root, writes the nodes and stores claimed_root.
Any number of its calls, relays on their way into the tree, checkpoints and
commits may interleave, and any write to the store may fail. Neither a failed
node write nor a failed write of claimed_root fails the call: the root is
returned from memory.

`accepted` lists the relays whose `updateTree` returned success. Left out, as in
`Manager`: TTLs and `stats`; and here a tree found corrupt.
-/
open RelayMiner.Lib RelayMiner.Session Function

namespace RelayMiner.Smst.Sealing

variable {K V L : Type} {d d' : Records K V} {t' t1 : Tree K V} {i : Nat}

inductive Flush where
  | found (g : Nat)
  | waiting (g : Nat)
  | storing (g : Nat)
  | returned (root : Bytes) (stored : Bool)
  | failed
  deriving DecidableEq

/-- The manager, the flushes under way, and the relays it has accepted. -/
structure World (K V L : Type) where
  miner : Miner K V := {}
  flushes : Nat → Option Flush := fun _ => none
  accepted : List L := []

inductive Act (K L : Type) where
  | getOrCreate (e : ResumeEnv)
  | updateTree (g : Nat) (l : L)
  | findTree (i : Nat) (e : ResumeEnv)
  | sealTree (i : Nat)
  | commitNodes (i : Nat) (orphans : List K) (put : PutFault K)
  | storeClaimedRoot (i : Nat) (f : Fault)
  | commit (g : Nat) (p : Purpose) (orphans : List K) (put : PutFault K)
  | storeRoot (g : Nat) (put : PutFault K) (f : Fault)

def setFlush (w : World K V L) (i : Nat) (c : Flush) : World K V L :=
  { w with flushes := update w.flushes i (some c) }

def findTree (w : World K V L) (i : Nat) (e : ResumeEnv) : World K V L :=
  match w.miner.resident with
  | some g => setFlush w i (.found g)
  | none =>
    let r := resumeTreeFromRedis e w.miner.disk
    match r.1 with
    | some t => setFlush { w with miner := addTree { w.miner with disk := r.2 } t } i (.found (w.miner.treeGen + 1))
    | none => setFlush { w with miner := { w.miner with disk := r.2 } } i .failed

def refuses (t : Tree K V) : Bool := t.sealing || t.claimedRoot.isSome

/-- A call that needs the lock of tree `g` waits until it is free. -/
def withLock (w : World K V L) (g : Nat) (act : Tree K V → World K V L) : World K V L :=
  match w.miner.trees g with
  | none => w
  | some t => if t.phase = .idle then act t else w

def commitNodes [DecidableEq K] (T : Trie K V L) (w : World K V L) (i g : Nat) (t : Tree K V) (f : CommitFault K) :
    World K V L :=
  let w' := { w with miner := commitTree T w.miner g t .flushTree f }
  let root := t.claimedRoot.getD []
  if !isValidSMSTRoot root then setFlush w' i .failed
  else if (commitLocked T t w.miner.disk.nodes f).2.2 then setFlush w' i (.storing g)
  else setFlush w' i (.returned root false)

/-- One locked part of a call; a flush gives the tree's lock back between its parts. -/
def step [DecidableEq K] (T : Trie K V L) (w : World K V L) : Act K L → World K V L
  | .getOrCreate e => { w with miner := getOrCreateTree T e w.miner }
  | .updateTree g l => withLock w g fun t =>
      { w with
        miner := setTree w.miner g (Smst.updateTree T t l)
        accepted := if refuses t then w.accepted else w.accepted ++ [l] }
  | .findTree i e => if w.flushes i = none then findTree w i e else w
  | .sealTree i =>
    match w.flushes i with
    | some (.found g) => withLock w g fun t =>
        if t.claimedRoot.isNone then setFlush { w with miner := setTree w.miner g (Smst.sealTree t) } i (.waiting g)
        else w
    | _ => w
  | .commitNodes i orphans put =>
    match w.flushes i with
    | some (.found g) => withLock w g fun t =>
        if t.claimedRoot.isSome then Sealing.commitNodes T w i g t (.written orphans put) else w
    -- The root read after the wait is the one kept, whatever another call has set.
    | some (.waiting g) => withLock w g fun t =>
        Sealing.commitNodes T w i g { t with claimedRoot := some t.root } (.written orphans put)
    | _ => w
  | .storeClaimedRoot i f =>
    match w.flushes i with
    | some (.storing g) =>
      match w.miner.trees g with
      | none => w
      | some t =>
        setFlush { w with miner := Smst.storeClaimedRoot w.miner g t f } i
          (.returned (t.claimedRoot.getD []) (decide (f = .ok)))
    | _ => w
  | .commit g p orphans put =>
    if p = .flushTree then w
    else withLock w g fun t => { w with miner := commitTree T w.miner g t p (.written orphans put) }
  | .storeRoot g put f =>
    match w.miner.trees g with
    | none => w
    | some t => if t.phase = .claimedRoot then w else { w with miner := Smst.storeRoot w.miner g t put f }

def rootOf (T : Trie K V L) (ls : List L) : Bytes := ls.foldl T.insert T.empty

def Flush.Started : Flush → Prop
  | .waiting _ | .storing _ | .returned .. => True
  | .found _ | .failed => False

/-! ## The invariant -/

def Knows (d : Records K V) (g : Nat) (t : Tree K V) : Flush → Prop
  | .found g' => g' = g
  | .waiting g' => g' = g ∧ t.sealing = true
  | .storing g' => g' = g ∧ t.phase = .claimedRoot
  | .returned root stored => t.claimedRoot = some root ∧ (stored = true → d.claimedRoot = some root)
  | .failed => True

def Single (fl : Nat → Option Flush) : Prop :=
  ∀ i j g g', fl i = some (.storing g) → fl j = some (.storing g') → i = j

structure Held (T : Trie K V L) (w : World K V L) (g : Nat) (t : Tree K V) : Prop where
  resident : w.miner.resident = some g
  tree : ∀ g' t', w.miner.trees g' = some t' ↔ g' = g ∧ t' = t
  root : t.root = rootOf T w.accepted
  claimed : ∀ r, t.claimedRoot = some r → r = t.root
  stored : ∀ r, w.miner.disk.claimedRoot = some r → t.claimedRoot = some r
  locked : t.phase = .claimedRoot → t.claimedRoot = some t.root ∧ ∃ j, w.flushes j = some (.storing g)
  single : Single w.flushes
  calls : ∀ i c, w.flushes i = some c → Knows w.miner.disk g t c

structure Blank (w : World K V L) : Prop where
  resident : w.miner.resident = none
  trees : ∀ g, w.miner.trees g = none
  accepted : w.accepted = []
  live : w.miner.disk.liveRoot = none
  claimed : w.miner.disk.claimedRoot = none
  calls : ∀ i c, w.flushes i = some c → c = .failed

def Inv (T : Trie K V L) (w : World K V L) : Prop := Blank w ∨ ∃ g t, Held T w g t

variable {T : Trie K V L} {w : World K V L} {g : Nat} {t : Tree K V} {c : Flush} {fl : Nat → Option Flush}

theorem length_rootOf (ls : List L) : isValidSMSTRoot (rootOf T ls) = true := by
  unfold rootOf
  rw [← List.reverse_reverse ls]
  cases ls.reverse with
  | nil => simp [isValidSMSTRoot, T.length_empty]
  | cons l ls => simp [isValidSMSTRoot, T.length_insert]

theorem resume_blank (hl : d.liveRoot = none) (hc : d.claimedRoot = none) (e : ResumeEnv) :
    resumeTreeFromRedis e d = (none, d) := by
  simp [resumeTreeFromRedis, resumeLive, readRoot, hl, hc]

def Next (T : Trie K V L) (w : World K V L) (g : Nat) (t : Tree K V) (w' : World K V L) : Prop :=
  ∃ t', Held T w' g t' ∧ (refuses t = true → refuses t' = true ∧ w'.accepted = w.accepted)

theorem Held.stay (h : Held T w g t) : Next T w g t w := ⟨t, h, fun hr => ⟨hr, rfl⟩⟩

theorem Held.withLock (h : Held T w g t) {g' : Nat} {act : Tree K V → World K V L}
    (hact : g' = g → t.phase = .idle → Next T w g t (act t)) : Next T w g t (Sealing.withLock w g' act) := by
  unfold Sealing.withLock
  cases hg : w.miner.trees g' with
  | none => exact h.stay
  | some t1 =>
    obtain ⟨hgg, rfl⟩ := (h.tree g' t1).1 hg
    dsimp only
    split
    next hi => exact hact hgg hi
    · exact h.stay

theorem Held.tree_eq (h : Held T w g t) : w.miner.trees g = some t := (h.tree g t).2 ⟨rfl, rfl⟩

/-! ## What a step does to the tree -/

/-- A call that goes on knows what its new place says; the others keep what they knew as long as a claimed root,
the seal and a stored claimed_root stay. -/
theorem Knows.mono (h : Knows d g t c) (hs : t.sealing = true → t'.sealing = true)
    (hc : ∀ r, t.claimedRoot = some r → t'.claimedRoot = some r)
    (hd : ∀ r, d.claimedRoot = some r → t'.claimedRoot = some r → d'.claimedRoot = some r)
    (hp : t.phase = .claimedRoot → (∃ g', c = .storing g') → t'.phase = .claimedRoot) : Knows d' g t' c := by
  cases c with
  | found g' => exact h
  | waiting g' => exact ⟨h.1, hs h.2⟩
  | storing g' => exact ⟨h.1, hp h.2 ⟨g', rfl⟩⟩
  | returned r st => exact ⟨hc r h.1, fun hst => hd r (h.2 hst) (hc r h.1)⟩
  | failed => trivial

theorem commitTree_flushTree [DecidableEq K] {s : Miner K V} {r : Bytes} (hr : t.claimedRoot = some r)
    (hv : isValidSMSTRoot r = true) (hi : t.phase = .idle) (f : CommitFault K) :
    ∃ t' hash n, commitTree T s g t .flushTree f =
        { s with
          trees := update s.trees g (some t')
          disk := { s.disk with nodes := hash }
          evictionCount := n } ∧
      t'.root = t.root ∧ t'.sealing = t.sealing ∧ t'.claimedRoot = some r ∧
      t'.phase = if (commitLocked T t s.disk.nodes f).2.2 then .claimedRoot else .idle := by
  have h0 : prepare t .flushTree = (t, true) := by
    have ht : { t with claimedRoot := some r } = t := by rw [← hr]
    simp [prepare, hr, hv, ht]
  obtain ⟨n, c, hc⟩ := commitLocked_tree T t s.disk.nodes f
  unfold commitTree
  simp only [h0, if_true]
  split
  · exact ⟨_, _, 0, rfl, by rw [hc]; rfl, by rw [hc]; rfl, by rw [hc]; exact hr, rfl⟩
  · exact ⟨_, _, s.evictionCount, rfl, by rw [hc], by rw [hc], by rw [hc]; exact hr, by rw [hc]; exact hi⟩

/-! ## The invariant is kept -/

section
variable (h : Held T w g t)
include h

theorem Held.put {n : Nat} {ls : List L} (hroot : t'.root = rootOf T ls)
    (hclaimed : ∀ r, t'.claimedRoot = some r → r = t'.root)
    (hstored : ∀ r, d'.claimedRoot = some r → t'.claimedRoot = some r)
    (hlocked : t'.phase = .claimedRoot → t'.claimedRoot = some t'.root ∧ ∃ j, fl j = some (.storing g))
    (hsingle : Single fl) (hcalls : ∀ i c, fl i = some c → Knows d' g t' c) :
    Held T
      { miner :=
          { w.miner with trees := update w.miner.trees g (some t'), disk := d', evictionCount := n }
        flushes := fl
        accepted := ls } g t' where
  resident := h.resident
  tree g' t1 := by
    by_cases hg : g' = g
    · subst hg
      simp [eq_comm]
    · simp only [update_of_ne hg, h.tree, hg, false_and]
  root := hroot
  claimed := hclaimed
  stored := hstored
  locked := hlocked
  single := hsingle
  calls := hcalls

/-- Another caller's step keeps the root, the seal and the claimed root. -/
theorem Held.other (hp : t.phase ≠ .claimedRoot) {n : Nat} (hl : t.Like t')
    (hd : d'.claimedRoot = w.miner.disk.claimedRoot) :
    Next T w g t
      { w with
        miner := { w.miner with trees := update w.miner.trees g (some t'), disk := d', evictionCount := n } } := by
  obtain ⟨hr, hs, hc, hp'⟩ := hl
  refine ⟨t', ?_, fun href => ⟨by rw [refuses, hs, hc]; exact href, rfl⟩⟩
  refine h.put (hr.trans h.root) (by rw [hc, hr]; exact h.claimed) (by rw [hd, hc]; exact h.stored)
    (fun hp1 => absurd hp1 (hp' hp)) h.single fun i c hi => (h.calls i c hi).mono ?_ ?_ ?_ fun hp1 => absurd hp1 hp
  · rw [hs]
    exact id
  · rw [hc]
    exact fun _ => id
  · rw [hd]
    exact fun _ h1 _ => h1

theorem Held.no_storing (hi : t.phase = .idle) {g' : Nat} :
    w.flushes i ≠ some (.storing g') := by
  intro hc
  have hk : Knows w.miner.disk g t (.storing g') := h.calls i _ hc
  simp [Knows, hi] at hk

theorem next_updateTree (hi : t.phase = .idle) (l : L) :
    Next T w g t
      { w with
        miner := setTree w.miner g (Smst.updateTree T t l)
        accepted := if refuses t then w.accepted else w.accepted ++ [l] } := by
  by_cases hs : refuses t = true
  · have hu : Smst.updateTree T t l = t := if_pos hs
    rw [hu, if_pos hs]
    exact ⟨t, h.put (n := w.miner.evictionCount) h.root h.claimed h.stored h.locked h.single h.calls, fun _ => ⟨hs, rfl⟩⟩
  have hu : Smst.updateTree T t l = { t with root := T.insert t.root l, unloaded := false } := if_neg hs
  have hc : t.claimedRoot = none := by
    cases hc : t.claimedRoot with
    | none => rfl
    | some r => simp [refuses, hc] at hs
  rw [hu, if_neg hs]
  refine ⟨_, h.put (n := w.miner.evictionCount) ?_ ?_ ?_ ?_ h.single ?_, fun hs' => absurd hs' hs⟩
  · simp [h.root, rootOf]
  · simp [hc]
  · exact h.stored
  · simp [hi]
  · exact fun i c hic => (h.calls i c hic).mono id (fun _ => id) (fun _ h1 _ => h1) fun hp => by simp [hi] at hp
end

theorem single_setFlush (h : Single fl) (hc : ∀ g, c = .storing g → ∀ j g', fl j ≠ some (.storing g')) :
    Single (update fl i (some c)) := by
  intro j k g g' hj hk
  by_cases hji : j = i <;> by_cases hki : k = i
  · rw [hji, hki]
  · subst hji
    rw [update_of_ne hki] at hk
    exact absurd hk (hc g (by simpa using hj) k g')
  · subst hki
    rw [update_of_ne hji] at hj
    exact absurd hj (hc g' (by simpa using hk) j g)
  rw [update_of_ne hji] at hj
  rw [update_of_ne hki] at hk
  exact h j k g g' hj hk

theorem knows_setFlush (hcalls : ∀ j c', fl j = some c' → Knows d g t c') (hc : Knows d' g t' c)
    (hmono : ∀ j c', j ≠ i → fl j = some c' → Knows d g t c' → Knows d' g t' c') :
    ∀ j c', update fl i (some c) j = some c' → Knows d' g t' c' := by
  intro j c' hj
  by_cases hji : j = i
  · subst hji
    obtain rfl : c = c' := by simpa using hj
    exact hc
  · rw [update_of_ne hji] at hj
    exact hmono j c' hji hj (hcalls j c' hj)

theorem held_sealTree (h : Held T w g t) (hi : t.phase = .idle) (hc : t.claimedRoot = none) (i : Nat) :
    Held T (setFlush { w with miner := setTree w.miner g (Smst.sealTree t) } i (.waiting g)) g
      { t with sealing := true } := by
  have hs : Smst.sealTree t = { t with sealing := true } := by simp [Smst.sealTree, hc]
  rw [hs]
  refine h.put (n := w.miner.evictionCount) h.root h.claimed h.stored ?_ (single_setFlush h.single (by simp)) ?_
  · simp [hi]
  · exact knows_setFlush h.calls ⟨rfl, rfl⟩ fun j c' _ _ hk =>
      hk.mono (fun _ => rfl) (fun _ => id) (fun _ h1 _ => h1) fun hp => by simp [hi] at hp

attribute [local simp] setFlush Sealing.refuses

/-- The commit under a claimed root: the root is the tree's, and the call goes on to store it or returns it. -/
theorem held_commitNodes [DecidableEq K] (h : Held T w g t) (hi : t.phase = .idle)
    (ht1 : t1 = { t with claimedRoot := some t.root }) (i : Nat) (f : CommitFault K) :
    ∃ t', Held T (commitNodes T w i g t1 f) g t' ∧
      (commitNodes T w i g t1 f).accepted = w.accepted ∧ t'.claimedRoot = some t.root ∧
      (commitNodes T w i g t1 f).flushes i = some
        (if (commitLocked T t1 w.miner.disk.nodes f).2.2 then .storing g else .returned t.root false) := by
  have hr : t1.claimedRoot = some t.root := by rw [ht1]
  have hv : isValidSMSTRoot t.root = true := by rw [h.root]; exact length_rootOf _
  obtain ⟨t', hash, n, he, hroot, hseal, hcl, hph⟩ :=
    commitTree_flushTree (T := T) (s := w.miner) (g := g) hr hv (by rw [ht1]; exact hi) f
  have hroot' : t'.root = t.root := hroot.trans (by rw [ht1])
  have hold : ∀ c, (∀ g', c ≠ .storing g') → Knows w.miner.disk g t c →
      Knows { w.miner.disk with nodes := hash } g t' c := fun c hne hk =>
    hk.mono (fun hs => by rw [hseal, ht1]; exact hs) (fun r hr' => by rw [hcl, h.claimed r hr']) (fun _ h1 _ => h1)
      fun _ ⟨g', hg'⟩ => absurd hg' (hne g')
  have hput : ∀ c, Knows { w.miner.disk with nodes := hash } g t' c →
      (t'.phase = .claimedRoot → c = .storing g) →
      Held T (setFlush { w with miner := commitTree T w.miner g t1 .flushTree f } i c) g t' := by
    intro c hk hlock
    rw [he]
    refine h.put (hroot'.trans h.root) (fun r h1 => ?_) (fun r h1 => ?_) (fun hp => ⟨hcl.trans (by rw [hroot']), i, ?_⟩)
      (single_setFlush h.single fun _ _ j g' => h.no_storing hi) ?_
    · exact (Option.some.inj (hcl.symm.trans h1)).symm.trans hroot'.symm
    · rw [hcl, h.claimed r (h.stored r h1)]
    · simp [hlock hp]
    · exact knows_setFlush h.calls hk fun j c' _ hj hk' =>
        hold c' (fun g' hg' => h.no_storing hi (hg' ▸ hj)) hk'
  unfold commitNodes
  simp only [hr, Option.getD_some, hv, Bool.not_true, Bool.false_eq_true, if_false]
  cases hok : (commitLocked T t1 w.miner.disk.nodes f).2.2 with
  | true =>
    refine ⟨t', hput (.storing g) ⟨rfl, by rw [hph, hok]; rfl⟩ fun _ => rfl, rfl, hcl, by simp⟩
  | false =>
    refine ⟨t', hput (.returned t.root false) ⟨hcl, by simp⟩ fun hp => ?_, rfl, hcl, by simp⟩
    rw [hph, hok] at hp
    cases hp

theorem next_commitNodes [DecidableEq K] (h : Held T w g t) (hi : t.phase = .idle)
    (ht1 : t1 = { t with claimedRoot := some t.root }) (i : Nat) (f : CommitFault K) :
    Next T w g t (commitNodes T w i g t1 f) := by
  obtain ⟨t', h', ha, hc, -⟩ := held_commitNodes h hi ht1 i f
  exact ⟨t', h', fun _ => ⟨by simp [refuses, hc], ha⟩⟩

theorem held_storeClaimedRoot (h : Held T w g t) (hi : w.flushes i = some (.storing g)) (f : Fault) :
    Held T
      (setFlush { w with miner := Smst.storeClaimedRoot w.miner g t f } i
        (.returned (t.claimedRoot.getD []) (decide (f = .ok)))) g { t with phase := .idle, unloaded := true } := by
  have hk : Knows w.miner.disk g t (.storing g) := h.calls i _ hi
  obtain ⟨hcl, -⟩ := h.locked hk.2
  have hdisk : ∀ r, (if f = .refused then w.miner.disk else { w.miner.disk with claimedRoot := t.claimedRoot }).claimedRoot
      = some r → t.claimedRoot = some r := by
    intro r hr
    split at hr
    · exact h.stored r hr
    · exact hr
  refine h.put (n := w.miner.evictionCount) h.root h.claimed hdisk (by simp) (single_setFlush h.single (by simp)) ?_
  refine knows_setFlush h.calls ⟨by simp [hcl], fun hf => ?_⟩ fun j c' hj hjc hk' => hk'.mono id (fun _ => id) ?_ ?_
  · obtain rfl : f = .ok := by simpa using hf
    simp [hcl]
  · intro r hd hr
    split
    · exact hd
    · exact hr
  · rintro - ⟨g', rfl⟩
    exact absurd (h.single j i g' g hjc hi) hj

theorem Blank.withLock (h : Blank w) (g : Nat) (act : Tree K V → World K V L) : Sealing.withLock w g act = w := by
  simp [Sealing.withLock, h.trees]

theorem held_create (h : Blank w) (e : ResumeEnv) :
    ∃ g t, Held T { w with miner := getOrCreateTree T e w.miner } g t ∧ t.phase = .idle := by
  refine ⟨w.miner.treeGen + 1, { root := T.empty, committed := T.empty }, ?_, rfl⟩
  simp only [getOrCreateTree, h.resident, resume_blank h.live h.claimed, Option.getD_none]
  refine ⟨rfl, fun g' t' => ?_, ?_, by simp, ?_, by simp, fun i j g g' hi => ?_, fun i c hi => ?_⟩
  · by_cases hg : g' = w.miner.treeGen + 1
    · subst hg
      simp [addTree, eq_comm]
    · simp [addTree, h.trees, hg]
  · simp [rootOf, h.accepted]
  · simp [addTree, h.claimed]
  · exact absurd (h.calls i _ hi) (by simp)
  · rw [h.calls i c hi]
    trivial

theorem Held.found (h : Held T w g t) (hi : w.flushes i = none) : Held T (setFlush w i (.found g)) g t where
  resident := h.resident
  tree := h.tree
  root := h.root
  claimed := h.claimed
  stored := h.stored
  locked hp := by
    obtain ⟨hc, j, hj⟩ := h.locked hp
    have hji : j ≠ i := fun e => by rw [e, hi] at hj; cases hj
    exact ⟨hc, j, by simpa [update_of_ne hji] using hj⟩
  single := single_setFlush h.single (by simp)
  calls := knows_setFlush h.calls rfl fun _ _ _ _ hk => hk

theorem Blank.findTree (h : Blank w) (i : Nat) (e : ResumeEnv) : Blank (Sealing.findTree w i e) := by
  have hr := resume_blank h.live h.claimed e
  refine ⟨?_, ?_, ?_, ?_, ?_, fun j c hj => ?_⟩ <;>
    simp only [Sealing.findTree, h.resident, hr, setFlush] at *
  · exact h.trees
  · exact h.accepted
  · exact h.live
  · exact h.claimed
  by_cases hji : j = i
  · subst hji
    simpa [eq_comm] using hj
  · rw [update_of_ne hji] at hj
    exact h.calls j c hj

variable [DecidableEq K]

theorem inv_blank (h : Blank w) (a : Act K L) : Inv T (step T w a) := by
  have hstay : Inv T w := .inl h
  cases a with
  | getOrCreate e =>
    obtain ⟨g, t, h', -⟩ := held_create (T := T) h e
    exact .inr ⟨g, t, h'⟩
  | findTree i e =>
    simp only [step]
    split
    · exact .inl (h.findTree i e)
    · exact hstay
  | updateTree g l => simpa only [step, h.withLock] using hstay
  | sealTree | commitNodes =>
    simp only [step, h.withLock]
    split <;> exact hstay
  | storeClaimedRoot i f =>
    simp only [step, h.trees]
    split <;> exact hstay
  | commit g p orphans put =>
    simp only [step, h.withLock, ite_self]
    exact hstay
  | storeRoot g put f => simpa only [step, h.trees] using hstay

omit [DecidableEq K] in
theorem Held.claimed_again (h : Held T w g t) (hs : t.claimedRoot.isSome = true) :
    t = { t with claimedRoot := some t.root } := by
  obtain ⟨r, hr⟩ := Option.isSome_iff_exists.1 hs
  have hroot := h.claimed r hr
  cases t
  simp_all

theorem next_step (h : Held T w g t) (a : Act K L) : Next T w g t (step T w a) := by
  cases a with
  | getOrCreate e => simpa only [step, getOrCreateTree, h.resident] using h.stay
  | findTree i e =>
    simp only [step]
    split
    next hi =>
      have he : findTree w i e = setFlush w i (.found g) := by simp [findTree, h.resident]
      exact ⟨t, he ▸ h.found hi, fun hr => ⟨hr, by rw [he]; rfl⟩⟩
    · exact h.stay
  | updateTree g' l =>
    refine h.withLock fun hg hi => ?_
    subst hg
    exact next_updateTree h hi l
  | sealTree i =>
    simp only [step]
    split
    next g' hc =>
      refine h.withLock fun hg hi => ?_
      subst hg
      split
      next hn => exact ⟨_, held_sealTree h hi (Option.isNone_iff_eq_none.1 hn) i, fun _ => ⟨rfl, rfl⟩⟩
      · exact h.stay
    · exact h.stay
  | commitNodes i orphans put =>
    simp only [step]
    split
    next g' hc =>
      refine h.withLock fun hg hi => ?_
      subst hg
      split
      next hs => exact next_commitNodes h hi (h.claimed_again hs) i _
      · exact h.stay
    next g' hc =>
      refine h.withLock fun hg hi => ?_
      subst hg
      exact next_commitNodes h hi rfl i _
    · exact h.stay
  | storeClaimedRoot i f =>
    simp only [step]
    split
    next g' hc =>
      obtain rfl : g' = g := (h.calls i _ hc).1
      simp only [h.tree_eq]
      exact ⟨_, held_storeClaimedRoot h hc f, fun hr => ⟨hr, rfl⟩⟩
    · exact h.stay
  | commit g' p orphans put =>
    simp only [step]
    split
    · exact h.stay
    next hp =>
      refine h.withLock fun hg hi => ?_
      subst hg
      obtain ⟨t', hash, n, he, -, hl⟩ := commitTree_frame T w.miner g' t p (.written orphans put)
      rw [he]
      exact h.other (by simp [hi]) (hl hp) rfl
  | storeRoot g' put f =>
    simp only [step]
    cases hg : w.miner.trees g' with
    | none => exact h.stay
    | some t1 =>
      obtain ⟨rfl, rfl⟩ := (h.tree g' t1).1 hg
      dsimp only
      split
      · exact h.stay
      next hp =>
        obtain ⟨t', d', he, hl, hd⟩ := storeRoot_frame hg put f
        rw [he]
        refine h.other (n := w.miner.evictionCount) hp hl ?_
        rcases hd with ⟨-, hd⟩ | ⟨-, hd⟩ | ⟨hc, -⟩
        · exact hd
        · exact hd
        · exact absurd hc hp

theorem inv_step (h : Inv T w) (a : Act K L) : Inv T (step T w a) := by
  rcases h with h | ⟨g, t, h⟩
  · exact inv_blank h a
  · obtain ⟨t', h', -⟩ := next_step h a
    exact .inr ⟨g, t', h'⟩

omit [DecidableEq K] in
theorem inv_start : Inv T ({} : World K V L) := .inl ⟨rfl, fun _ => rfl, rfl, rfl, rfl, nofun⟩

/-- A tree that refuses relays takes none for the rest of the run. -/
theorem accepted_run (h : Held T w g t) (hr : refuses t = true) (as : List (Act K L)) :
    (run (step T) w as).accepted = w.accepted := by
  induction as generalizing w t with
  | nil => rfl
  | cons a as ih =>
    obtain ⟨t', h', hn⟩ := next_step h a
    exact (ih h' (hn hr).1).trans (hn hr).2

omit [DecidableEq K] in
theorem Held.refuses (h : Held T w g t) (hi : w.flushes i = some c) (hc : c.Started) : refuses t = true := by
  have hk := h.calls i c hi
  cases c with
  | found | failed => exact hc.elim
  | waiting g' => simp [hk.2]
  | storing g' => simp [(h.locked hk.2).1]
  | returned r st => simp [hk.1]

/-! ## A call that is made again -/

theorem commitLocked_put_ok (T : Trie K V L) (t : Tree K V) (hash : K → Option V) (orphans : List K) :
    (commitLocked T t hash (.written orphans .ok)).2.2 = true := by
  simp only [commitLocked, NodeStore.flushPipeline, NodeStore.writePendingNodes]
  split <;> rfl

omit [DecidableEq K] in
theorem trees_setTree (s : Miner K V) (g : Nat) (t : Tree K V) : (setTree s g t).trees g = some t := by simp [setTree]

structure Released (T : Trie K V L) (w : World K V L) (g : Nat) (w' : World K V L) : Prop where
  idle : ∃ t, Held T w' g t ∧ t.phase = .idle
  fresh : ∀ i, w.flushes i = none → w'.flushes i = none
  accepted : w'.accepted = w.accepted

section
variable (h : Held T w g t)
include h

theorem Held.after (a : Act K L) (ht : (step T w a).miner.trees g = some t1) :
    Held T (step T w a) g t1 := by
  obtain ⟨t', h', -⟩ := next_step h a
  obtain ⟨-, rfl⟩ := (h'.tree g t1).1 ht
  exact h'

theorem step_storeRoot (hp : t.phase ≠ .claimedRoot) :
    step T w (.storeRoot g .ok .ok) = { w with miner := storeRoot w.miner g t .ok .ok } := by
  simp only [step, h.tree_eq, if_neg hp]

theorem released_storeRoot (hp : t.phase ≠ .claimedRoot)
    (ht : ∃ t1, (storeRoot w.miner g t .ok .ok).trees g = some t1 ∧ t1.phase = .idle) :
    Released T w g (step T w (.storeRoot g .ok .ok)) := by
  have he := step_storeRoot h hp
  obtain ⟨t1, ht1, hi⟩ := ht
  exact ⟨⟨t1, h.after _ (by rw [he]; exact ht1), hi⟩, fun i hi => by rw [he]; exact hi, by rw [he]⟩

theorem released_exitRoot (hp : t.phase = .exitRoot) :
    Released T w g (step T w (.storeRoot g .ok .ok)) := by
  refine released_storeRoot h (by simp [hp]) ?_
  simp only [storeRoot, hp, storeExitRoot]
  split <;> exact ⟨_, trees_setTree _ _ _, rfl⟩

theorem released_liveRoot {unload : Bool} (hp : t.phase = .liveRoot unload)
    (hb : t.store.pipelineBuffer.isEmpty = true) : Released T w g (step T w (.storeRoot g .ok .ok)) := by
  refine released_storeRoot h (by simp [hp]) ?_
  simp only [storeRoot, hp, storeLiveRoot, hb]
  split <;> exact ⟨_, trees_setTree _ _ _, rfl⟩

theorem writes_buffer {unload : Bool} (hp : t.phase = .liveRoot unload)
    (hb : t.store.pipelineBuffer.isEmpty = false) :
    ∃ t1, Held T (step T w (.storeRoot g .ok .ok)) g t1 ∧ t1.phase = .liveRoot unload ∧
      t1.store.pipelineBuffer.isEmpty = true := by
  have hv : isValidSMSTRoot t.root = true := by rw [h.root]; exact length_rootOf _
  have he := step_storeRoot h (by simp [hp])
  obtain ⟨t1, ht1, h1⟩ : ∃ t1, (step T w (.storeRoot g .ok .ok)).miner.trees g = some t1 ∧
      t1.phase = .liveRoot unload ∧ t1.store.pipelineBuffer.isEmpty = true := by
    rw [he]
    simp only [storeRoot, hp, storeLiveRoot, hv, hb, NodeStore.writePendingNodes]
    exact ⟨_, trees_setTree _ _ _, rfl, rfl⟩
  exact ⟨t1, h.after _ ht1, h1⟩

theorem released_claimedRoot {j : Nat} (hj : w.flushes j = some (.storing g)) :
    Released T w g (step T w (.storeClaimedRoot j .ok)) := by
  have he : step T w (.storeClaimedRoot j .ok) =
      setFlush { w with miner := Smst.storeClaimedRoot w.miner g t .ok } j (.returned (t.claimedRoot.getD []) true) := by
    simp only [step, hj, h.tree_eq]
    rfl
  rw [he]
  refine ⟨⟨_, held_storeClaimedRoot h hj .ok, rfl⟩, fun i hi => ?_, rfl⟩
  have hij : i ≠ j := fun e => by rw [e, hj] at hi; cases hi
  simpa [update_of_ne hij] using hi

/-- Whoever has the lock gives it back once the store answers. -/
theorem released : ∃ cs, Released T w g (run (step T) w cs) := by
  cases hp : t.phase with
  | idle => exact ⟨[], ⟨t, h, hp⟩, fun _ hi => hi, rfl⟩
  | exitRoot => exact ⟨[.storeRoot g .ok .ok], released_exitRoot h hp⟩
  | claimedRoot =>
    obtain ⟨-, j, hj⟩ := h.locked hp
    exact ⟨[.storeClaimedRoot j .ok], released_claimedRoot h hj⟩
  | liveRoot unload =>
    cases hb : t.store.pipelineBuffer.isEmpty with
    | true => exact ⟨[.storeRoot g .ok .ok], released_liveRoot h hp hb⟩
    | false =>
      obtain ⟨t1, h1, hp1, hb1⟩ := writes_buffer h hp hb
      obtain ⟨hidle, hfresh, hacc⟩ := released_liveRoot h1 hp1 hb1
      have he := step_storeRoot h (by simp [hp])
      refine ⟨[.storeRoot g .ok .ok, .storeRoot g .ok .ok], hidle, fun i hi => hfresh i (by rw [he]; exact hi), ?_⟩
      exact hacc.trans (by rw [he])

/-- The call that holds the lock, with the store answering, returns the root and has stored it. -/
theorem returns_of_storing (hi : w.flushes i = some (.storing g)) :
    (step T w (.storeClaimedRoot i .ok)).flushes i = some (.returned (rootOf T w.accepted) true) ∧
      (step T w (.storeClaimedRoot i .ok)).accepted = w.accepted := by
  have hk : Knows w.miner.disk g t (.storing g) := h.calls i _ hi
  obtain ⟨hc, -⟩ := h.locked hk.2
  simp only [step, hi, h.tree_eq, setFlush, hc, h.root]
  simp

/-- A call past the seal takes the lock and writes the nodes. -/
theorem storing_of_sealed (hp : t.phase = .idle)
    (hi : w.flushes i = some (.waiting g) ∨ (w.flushes i = some (.found g) ∧ t.claimedRoot.isSome = true)) :
    (∃ t', Held T (step T w (.commitNodes i [] .ok)) g t') ∧
      (step T w (.commitNodes i [] .ok)).flushes i = some (.storing g) ∧
      (step T w (.commitNodes i [] .ok)).accepted = w.accepted := by
  have he : step T w (.commitNodes i [] .ok) =
      commitNodes T w i g { t with claimedRoot := some t.root } (.written [] .ok) := by
    rcases hi with hi | ⟨hi, hs⟩
    · simp only [step, hi, withLock, h.tree_eq, hp, if_true]
    simp only [step, hi, withLock, h.tree_eq]
    rw [if_pos hp, if_pos hs]
    exact congrArg (fun t1 => commitNodes T w i g t1 _) (h.claimed_again hs)
  obtain ⟨t', h', hacc, -, hfl⟩ := held_commitNodes h hp rfl i (.written [] .ok)
  rw [he]
  refine ⟨⟨t', h'⟩, hfl.trans ?_, hacc⟩
  rw [commitLocked_put_ok]
  rfl

theorem flushTree_returns (hp : t.phase = .idle) (hf : w.flushes i = none) :
    ∃ cs, (run (step T) w cs).flushes i = some (.returned (rootOf T w.accepted) true) ∧
      (run (step T) w cs).accepted = w.accepted := by
  let w1 := step T w (.findTree i {})
  have he1 : w1 = setFlush w i (.found g) := by simp [w1, step, hf, findTree, h.resident]
  have h1 : Held T w1 g t := he1 ▸ h.found hf
  have hf1 : w1.flushes i = some (.found g) := by simp [he1]
  have ha1 : w1.accepted = w.accepted := by rw [he1]; rfl
  let w2 := step T w1 (.sealTree i)
  obtain ⟨t2, h2, hp2, hf2, ha2⟩ : ∃ t2, Held T w2 g t2 ∧ t2.phase = .idle ∧
      (w2.flushes i = some (.waiting g) ∨ (w2.flushes i = some (.found g) ∧ t2.claimedRoot.isSome = true)) ∧
      w2.accepted = w1.accepted := by
    cases hc : t.claimedRoot with
    | none =>
      have he2 : w2 = setFlush { w1 with miner := setTree w1.miner g (Smst.sealTree t) } i (.waiting g) := by
        simp only [w2, step, hf1, withLock, h1.tree_eq, hp, hc, if_true, Option.isNone_none]
      exact ⟨{ t with sealing := true }, he2 ▸ held_sealTree h1 hp hc i, hp, .inl (by simp [he2]), by rw [he2]; rfl⟩
    | some r =>
      have he2 : w2 = w1 := by
        simp only [w2, step, hf1, withLock, h1.tree_eq, hp, hc, if_true, Option.isNone_some]
        rfl
      exact ⟨t, he2 ▸ h1, hp, .inr ⟨he2 ▸ hf1, by simp [hc]⟩, by rw [he2]⟩
  obtain ⟨⟨t3, h3⟩, hf3, ha3⟩ := storing_of_sealed h2 hp2 hf2
  obtain ⟨hf4, ha4⟩ := returns_of_storing h3 hf3
  have hacc := ha3.trans (ha2.trans ha1)
  exact ⟨[.findTree i {}, .sealTree i, .commitNodes i [] .ok, .storeClaimedRoot i .ok], by rw [← hacc]; exact hf4,
    ha4.trans hacc⟩
end

/-- From any state, a call not made yet can still return the root of all accepted relays, stored. -/
theorem can_still_return (h : Inv T w) (hf : w.flushes i = none) :
    ∃ cs, (run (step T) w cs).flushes i = some (.returned (rootOf T w.accepted) true) ∧
      (run (step T) w cs).accepted = w.accepted := by
  rcases h with h | ⟨g, t, h⟩
  · obtain ⟨g, t, h1, hp⟩ := held_create (T := T) h {}
    obtain ⟨cs, hcs, hacc⟩ := flushTree_returns h1 hp hf
    exact ⟨.getOrCreate {} :: cs, hcs, hacc⟩
  obtain ⟨cs, ⟨t1, h1, hp⟩, hfresh, hacc⟩ := released h
  obtain ⟨ds, hds, hacc'⟩ := flushTree_returns h1 hp (hfresh i hf)
  refine ⟨cs ++ ds, ?_, ?_⟩
  · rw [run_append, hds, hacc]
  · rw [run_append, hacc', hacc]

/-- In every interleaving, with any write to the store failing: what `FlushTree` returns is the root of the tree
that holds exactly the accepted relays, it is stored as claimed_root if the call's own writes succeeded, and every
later call returns it again; once a call has set the seal no relay is accepted; no other claimed_root is ever
stored; and a further call can still return the root of all accepted relays and store it. -/
theorem sealing_exact (T : Trie K V L) (as bs : List (Act K L)) :
    let w := run (step T) {} as
    let w' := run (step T) w bs
    (∀ i r stored, w.flushes i = some (.returned r stored) →
      r = rootOf T w.accepted ∧ (stored = true → w.miner.disk.claimedRoot = some r) ∧
        ∀ j r' stored', w'.flushes j = some (.returned r' stored') → r' = r) ∧
    (∀ i c, w.flushes i = some c → c.Started → w'.accepted = w.accepted) ∧
    (∀ r, w.miner.disk.claimedRoot = some r → r = rootOf T w.accepted) ∧
    ∀ i, w.flushes i = none →
      ∃ cs, (run (step T) w cs).flushes i = some (.returned (rootOf T w.accepted) true) ∧
        (run (step T) w cs).accepted = w.accepted := by
  intro w w'
  have hw : Inv T w := inv_of_run (Inv T) (fun _ a h => inv_step h a) as inv_start
  have hw' : Inv T w' := inv_of_run (Inv T) (fun _ a h => inv_step h a) bs hw
  have hroot : ∀ {w : World K V L}, Inv T w → ∀ {i r st}, w.flushes i = some (.returned r st) → r = rootOf T w.accepted ∧
      (st = true → w.miner.disk.claimedRoot = some r) := by
    intro w h i r st hi
    rcases h with h | ⟨g, t, h⟩
    · cases h.calls i _ hi
    · obtain ⟨hc, hd⟩ : Knows w.miner.disk g t (.returned r st) := h.calls i _ hi
      exact ⟨(h.claimed r hc).trans h.root, hd⟩
  have hsealed : ∀ i c, w.flushes i = some c → c.Started → w'.accepted = w.accepted := by
    intro i c hi hc
    rcases hw with h | ⟨g, t, h⟩
    · rw [h.calls i c hi] at hc
      exact hc.elim
    · exact accepted_run h (h.refuses hi hc) bs
  refine ⟨fun i r st hi => ⟨(hroot hw hi).1, (hroot hw hi).2, fun j r' st' hj => ?_⟩, hsealed, fun r hr => ?_,
    fun i hf => can_still_return hw hf⟩
  · rw [(hroot hw' hj).1, (hroot hw hi).1, hsealed i _ hi trivial]
  rcases hw with h | ⟨g, t, h⟩
  · rw [h.claimed] at hr
    cases hr
  · exact (h.claimed r (h.stored r hr)).trans h.root

/-- A `FlushTree` whose write of claimed_root is refused returns the root all the same. -/
def refusedRun : List (Act Bytes Bool) :=
  [.getOrCreate {}, .updateTree 1 true, .findTree 0 {}, .sealTree 0, .commitNodes 0 [] .ok, .storeClaimedRoot 0 .refused]

theorem returned_not_stored :
    ∃ r stored, (run (step pairTrie) {} refusedRun).flushes 0 = some (.returned r stored) ∧
      (run (step pairTrie) {} refusedRun).miner.disk.claimedRoot = none :=
  ⟨pairTrie.insert pairTrie.empty true, false, by decide, by decide⟩

end RelayMiner.Smst.Sealing
