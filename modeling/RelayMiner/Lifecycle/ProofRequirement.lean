import RelayMiner.Lib.Runs
import RelayMiner.Session.State
/-!
# Which tree the proof decision reads

One `ProofRequirementChecker` serves every supplier of a process. A snapshot
that lost its claimed root gets it back from the checker's root provider, and
the provider is the tree manager of the supplier that was added last, whichever
supplier the snapshot belongs to; sessions are named by their id alone, and
several suppliers serve one session. `proof_decision_on_own_tree` says when a
decision is made on the right tree all the same.
-/
open RelayMiner.Lib RelayMiner.Session Function

namespace RelayMiner.Lifecycle.ProofRequirement

variable {κ σ : Type} {sid : σ}

/-! ## The tree managers -/

structure ManagedTree where
  claimedRoot : Option Bytes
  root : Bytes
  length_root : root.length = smstRootLen
  length_claimedRoot : ∀ r ∈ claimedRoot, r.length = smstRootLen

structure TreeRecords where
  claimedRoot : Option Bytes := none
  liveRoot : Option Bytes := none

structure SmstManager (κ σ : Type) where
  supplier : κ
  trees : σ → Option ManagedTree
  evictions : σ → Nat

/-- Every manager ever made, each supplier's own, the one provider of roots that all share, and the store. -/
structure World (κ σ : Type) where
  managers : Nat → Option (SmstManager κ σ)
  made : Nat
  suppliers : κ → Option Nat
  rootProvider : Option Nat
  store : κ → σ → TreeRecords

def World.empty : World κ σ := ⟨fun _ => none, 0, fun _ => none, none, fun _ _ => {}⟩

inductive Read where
  | ok | retryable | shutdown | permanent
  deriving DecidableEq

structure RootFaults where
  read : Read := .ok
  importPanics : Bool := false
  rootPanics : Bool := false

inductive RootError where
  | unreadable (r : Read)
  | notFound
  | emptyRoot
  | corruptRoot (len : Nat)
  | panicRecovered

def RootError.deferrable : RootError → Bool
  | .unreadable r => r = .retryable ∨ r = .shutdown
  | _ => false

def persistentCorruptionThreshold : Nat := 3

def loadTreeFromRedis (rec : TreeRecords) (e : RootFaults) : TreeRecords × Except RootError ManagedTree :=
  if e.read ≠ .ok then (rec, .error (.unreadable e.read))
  else
    match rec.claimedRoot with
    | none => (rec, .error .notFound)
    | some root =>
      if root = [] then (rec, .error .emptyRoot)
      else if h : root.length = smstRootLen then
        if e.importPanics then ({ rec with claimedRoot := none }, .error .panicRecovered)
        else (rec, .ok ⟨some root, root, h, fun r hr => by cases hr; exact h⟩)
      else ({ rec with claimedRoot := none }, .error (.corruptRoot root.length))

section

variable [DecidableEq κ] [DecidableEq σ]

def World.setTree (w : World κ σ) (i : Nat) (m : SmstManager κ σ) (sid : σ) (t : Option ManagedTree) : World κ σ :=
  { w with managers := update w.managers i (some { m with trees := update m.trees sid t }) }

def World.setRecords (w : World κ σ) (s : κ) (sid : σ) (rec : TreeRecords) : World κ σ :=
  { w with store := update w.store s (update (w.store s) sid rec) }

/-- `evictCorruptSession`: the third eviction in a row purges the session's records too. -/
def World.evictCorruptSession (w : World κ σ) (i : Nat) (m : SmstManager κ σ) (sid : σ) : World κ σ :=
  let m' := { m with
    trees := update m.trees sid none
    evictions := update m.evictions sid (m.evictions sid + 1) }
  let w' := { w with managers := update w.managers i (some m') }
  if m.evictions sid + 1 < persistentCorruptionThreshold then w' else w'.setRecords m.supplier sid {}

def World.rootOfTree (w : World κ σ) (i : Nat) (m : SmstManager κ σ) (sid : σ) (t : ManagedTree) (e : RootFaults) :
    World κ σ × Except RootError Bytes :=
  match t.claimedRoot with
  | some root => (w, .ok root)
  | none => if e.rootPanics then (w.evictCorruptSession i m sid, .error .panicRecovered) else (w, .ok t.root)

def World.getTreeRoot (w : World κ σ) (i : Nat) (m : SmstManager κ σ) (sid : σ) (e : RootFaults) :
    World κ σ × Except RootError Bytes :=
  match m.trees sid with
  | some t => w.rootOfTree i m sid t e
  | none =>
    match loadTreeFromRedis (w.store m.supplier sid) e with
    | (rec, .error err) => (w.setRecords m.supplier sid rec, .error err)
    | (_, .ok t) => (w.setTree i m sid (some t)).rootOfTree i m sid t e

/-! ## The checker -/

structure Snapshot (κ σ : Type) where
  supplierOperatorAddress : κ
  sessionID : σ
  claimedRootHash : Bytes := []

inductive CheckError where
  | claimedRootUnavailable
  | claimedRootUnreadable
  | getProofParams
  | getSharedParams
  | getRelayDifficulty
  | calculateClaimedAmount
  | calculateSampleValue

structure Claim (κ σ : Type) where
  supplierOperatorAddress : κ
  sessionID : σ
  rootHash : Bytes

def claimFromSnapshot (snapshot : Snapshot κ σ) (rootHash : Bytes) : Claim κ σ :=
  ⟨snapshot.supplierOperatorAddress, snapshot.sessionID, rootHash⟩

structure Chain (κ σ : Type) where
  proofParams : Option (Nat × Nat)
  sharedParams : Bool := true
  relayDifficulty : Bool := true
  claimedAmount : Claim κ σ → Option Nat
  sampleValue : Claim κ σ → Option Nat

def requirement (chain : Chain κ σ) (claim : Claim κ σ) : Except CheckError Bool :=
  match chain.proofParams with
  | none => .error .getProofParams
  | some (threshold, probability) =>
    if !chain.sharedParams then .error .getSharedParams
    else if !chain.relayDifficulty then .error .getRelayDifficulty
    else
      match chain.claimedAmount claim with
      | none => .error .calculateClaimedAmount
      | some amount =>
        if threshold ≤ amount then .ok true
        else
          match chain.sampleValue claim with
          | none => .error .calculateSampleValue
          | some sample => .ok (sample ≤ probability)

def World.provider (w : World κ σ) : Option (Nat × SmstManager κ σ) :=
  w.rootProvider.bind fun i => (w.managers i).map fun m => (i, m)

def resolveClaimedRoot (w : World κ σ) (snapshot : Snapshot κ σ) (e : RootFaults) :
    World κ σ × Snapshot κ σ × Except CheckError Bytes :=
  if snapshot.claimedRootHash ≠ [] then (w, snapshot, .ok snapshot.claimedRootHash)
  else
    match w.provider with
    | none => (w, snapshot, .error .claimedRootUnavailable)
    | some (i, m) =>
      match w.getTreeRoot i m snapshot.sessionID e with
      | (w', .error err) =>
        (w', snapshot, .error (if err.deferrable then .claimedRootUnreadable else .claimedRootUnavailable))
      | (w', .ok root) =>
        if root = [] then (w', snapshot, .error .claimedRootUnavailable)
        else (w', { snapshot with claimedRootHash := root }, .ok root)

def isProofRequired (w : World κ σ) (chain : Chain κ σ) (snapshot : Snapshot κ σ) (e : RootFaults) :
    World κ σ × Snapshot κ σ × Except CheckError Bool :=
  match resolveClaimedRoot w snapshot e with
  | (w', snapshot', .error err) => (w', snapshot', .error err)
  | (w', snapshot', .ok root) => (w', snapshot', requirement chain (claimFromSnapshot snapshot' root))

/-! ## Suppliers come and go -/

inductive Act (κ σ : Type) where
  | add (s : κ)
  /-- An add that another add of the same supplier overtakes: its manager is wired, and closed. -/
  | addOvertaken (s : κ)
  | remove (s : κ)
  | close (i : Nat)
  | tree (i : Nat) (sid : σ) (t : Option ManagedTree)
  | records (s : κ) (sid : σ) (rec : TreeRecords)
  | check (chain : Chain κ σ) (snapshot : Snapshot κ σ) (e : RootFaults)

def World.wire (w : World κ σ) (s : κ) : World κ σ :=
  { w with
    managers := update w.managers w.made (some ⟨s, fun _ => none, fun _ => 0⟩)
    made := w.made + 1
    rootProvider := some w.made }

/-- Suppliers come and go, trees and records change, and a requirement is checked. -/
def step (w : World κ σ) : Act κ σ → World κ σ
  | .add s =>
    match w.suppliers s with
    | some _ => w
    | none => { w.wire s with suppliers := update w.suppliers s (some w.made) }
  | .addOvertaken s =>
    match w.suppliers s with
    | some _ => w.wire s
    | none => w
  | .remove s => { w with suppliers := update w.suppliers s none }
  | .close i =>
    match w.managers i with
    | some m => { w with managers := update w.managers i (some { m with trees := fun _ => none }) }
    | none => w
  | .tree i sid t =>
    match w.managers i with
    | some m => w.setTree i m sid t
    | none => w
  | .records s sid rec => w.setRecords s sid rec
  | .check chain snapshot e => (isProofRequired w chain snapshot e).1

def World.newest (w : World κ σ) : Option (SmstManager κ σ) := if w.made = 0 then none else w.managers (w.made - 1)

end

/-! ## The provider is the manager made last -/

structure Wired (w : World κ σ) : Prop where
  provider : w.rootProvider = if w.made = 0 then none else some (w.made - 1)
  made : ∀ i, (w.managers i).isSome ↔ i < w.made

structure Frame (w w' : World κ σ) : Prop where
  provider : w'.rootProvider = w.rootProvider
  made : w'.made = w.made
  managers : ∀ i, (w'.managers i).isSome = (w.managers i).isSome

theorem Frame.refl (w : World κ σ) : Frame w w := ⟨rfl, rfl, fun _ => rfl⟩

theorem Frame.trans {w w' w'' : World κ σ} (h : Frame w w') (h' : Frame w' w'') : Frame w w'' :=
  ⟨h'.provider.trans h.provider, h'.made.trans h.made, fun i => (h'.managers i).trans (h.managers i)⟩

theorem Frame.wired {w w' : World κ σ} (h : Frame w w') (hw : Wired w) : Wired w' where
  provider := by rw [h.provider, h.made, hw.provider]
  made i := by rw [h.managers, h.made, hw.made]

variable {w : World κ σ}

theorem frame_update {i : Nat} (hm : (w.managers i).isSome) (m : SmstManager κ σ) :
    Frame w { w with managers := update w.managers i (some m) } where
  provider := rfl
  made := rfl
  managers j := by
    by_cases hj : j = i
    · subst hj
      simp [hm]
    · simp [update_of_ne hj]

theorem Wired.empty : Wired (World.empty : World κ σ) := ⟨rfl, fun i => by simp [World.empty]⟩

theorem Wired.wire (h : Wired w) (s : κ) : Wired (w.wire s) where
  provider := by simp [World.wire]
  made j := by
    by_cases hj : j = w.made
    · subst hj
      simp [World.wire]
    · simp only [World.wire, update_of_ne hj, h.made]
      omega

theorem provider_eq_some {i : Nat} {m : SmstManager κ σ} :
    w.provider = some (i, m) ↔ w.rootProvider = some i ∧ w.managers i = some m := by
  unfold World.provider
  cases hp : w.rootProvider with
  | none => simp
  | some j =>
    cases hm : w.managers j with
    | none =>
      constructor
      · simp [hm]
      rintro ⟨h, h'⟩
      cases h
      simp [hm] at h'
    | some m' =>
      simp only [Option.bind_some, hm, Option.map_some, Option.some.injEq, Prod.mk.injEq]
      constructor
      · rintro ⟨rfl, rfl⟩
        exact ⟨rfl, hm⟩
      · rintro ⟨rfl, hm'⟩
        exact ⟨rfl, Option.some.inj (hm.symm.trans hm')⟩

/-- In every world reached the checker asks the manager made last. -/
theorem Wired.provider_map (h : Wired w) : w.provider.map Prod.snd = w.newest := by
  unfold World.provider World.newest
  rw [h.provider]
  split
  · rfl
  · cases hm : w.managers (w.made - 1) <;> simp [hm]

variable [DecidableEq κ] [DecidableEq σ] {w : World κ σ} {i : Nat} {m : SmstManager κ σ} {e : RootFaults}
  {chain : Chain κ σ} {snapshot : Snapshot κ σ}

theorem frame_setRecords (w : World κ σ) (s : κ) (sid : σ) (rec : TreeRecords) : Frame w (w.setRecords s sid rec) :=
  ⟨rfl, rfl, fun _ => rfl⟩

theorem frame_rootOfTree (hm : (w.managers i).isSome) (sid : σ) (t : ManagedTree) (e : RootFaults) :
    Frame w (w.rootOfTree i m sid t e).1 := by
  unfold World.rootOfTree
  split
  · exact .refl w
  split
  · unfold World.evictCorruptSession
    split
    · exact frame_update hm _
    · exact (frame_update hm _).trans (frame_setRecords _ _ _ _)
  · exact .refl w

theorem frame_getTreeRoot (hm : (w.managers i).isSome) (sid : σ) (e : RootFaults) :
    Frame w (w.getTreeRoot i m sid e).1 := by
  unfold World.getTreeRoot
  split
  · exact frame_rootOfTree hm _ _ _
  split
  · exact frame_setRecords _ _ _ _
  next t _ =>
    have hset : Frame w (w.setTree i m sid (some t)) := frame_update hm _
    exact hset.trans (frame_rootOfTree ((hset.managers i).trans hm) _ _ _)

theorem frame_check (w : World κ σ) (chain : Chain κ σ) (snapshot : Snapshot κ σ) (e : RootFaults) :
    Frame w (isProofRequired w chain snapshot e).1 := by
  have hresolve : Frame w (resolveClaimedRoot w snapshot e).1 := by
    unfold resolveClaimedRoot
    split
    · exact .refl w
    split
    · exact .refl w
    next i m hprov =>
      have hm : (w.managers i).isSome := by simp [(provider_eq_some.1 hprov).2]
      have hroot := frame_getTreeRoot (m := m) hm snapshot.sessionID e
      split
      next hget => rwa [hget] at hroot
      next hget =>
        rw [hget] at hroot
        split
        · exact hroot
        · exact hroot
  unfold isProofRequired
  split
  next hres => rwa [hres] at hresolve
  next hres => rwa [hres] at hresolve

theorem Wired.step (h : Wired w) (a : Act κ σ) : Wired (step w a) := by
  cases a with
  | add s =>
    simp only [ProofRequirement.step]
    split
    · exact h
    · exact ⟨(h.wire s).provider, (h.wire s).made⟩
  | addOvertaken s =>
    simp only [ProofRequirement.step]
    split
    · exact h.wire s
    · exact h
  | remove s => exact ⟨h.provider, h.made⟩
  | close | tree =>
    simp only [ProofRequirement.step]
    split
    next m hm => exact (frame_update (by simp [hm]) _).wired h
    next => exact h
  | records s sid rec => exact (frame_setRecords _ _ _ _).wired h
  | check chain snapshot e => exact (frame_check w chain snapshot e).wired h

/-! ## The right tree -/

/-- The supplier has the session's tree: in memory, or sealed or checkpointed in the store. -/
def HasTree (w : World κ σ) (s : κ) (sid : σ) : Prop :=
  (∃ i m t, w.managers i = some m ∧ m.supplier = s ∧ m.trees sid = some t) ∨
    (w.store s sid).claimedRoot ≠ none ∨ (w.store s sid).liveRoot ≠ none

def OwnTreeRoot (w : World κ σ) (s : κ) (sid : σ) (root : Bytes) : Prop :=
  (∃ i m t, w.managers i = some m ∧ m.supplier = s ∧ m.trees sid = some t ∧ t.claimedRoot.getD t.root = root) ∨
    (w.store s sid).claimedRoot = some root

/-- The root a decision about the snapshot is to be made on. -/
def RightRoot (w : World κ σ) (snapshot : Snapshot κ σ) (root : Bytes) : Prop :=
  if snapshot.claimedRootHash ≠ [] then root = snapshot.claimedRootHash
  else OwnTreeRoot w snapshot.supplierOperatorAddress snapshot.sessionID root

/-- The decision and the snapshot have the right root, the root is given up for good only where there is no tree, and
no other supplier's manager is asked. -/
structure OnOwnTree (w : World κ σ) (chain : Chain κ σ) (snapshot : Snapshot κ σ) (e : RootFaults) : Prop where
  decides : ∀ required, (isProofRequired w chain snapshot e).2.2 = .ok required →
    ∃ root, RightRoot w snapshot root ∧ requirement chain (claimFromSnapshot snapshot root) = .ok required ∧
      (isProofRequired w chain snapshot e).2.1.claimedRootHash = root
  writes : (isProofRequired w chain snapshot e).2.1.claimedRootHash = snapshot.claimedRootHash ∨
    RightRoot w snapshot (isProofRequired w chain snapshot e).2.1.claimedRootHash
  unavailable : (isProofRequired w chain snapshot e).2.2 = .error .claimedRootUnavailable →
    ¬ HasTree w snapshot.supplierOperatorAddress snapshot.sessionID
  asks : snapshot.claimedRootHash = [] → ∀ i m, w.provider = some (i, m) → m.supplier = snapshot.supplierOperatorAddress

def Finds (w : World κ σ) (m : SmstManager κ σ) (sid : σ) (e : RootFaults) : Prop :=
  match m.trees sid with
  | some t => t.claimedRoot ≠ none ∨ e.rootPanics = false
  | none =>
    match e.read with
    | .retryable | .shutdown => True
    | .permanent => ¬ HasTree w m.supplier sid
    | .ok =>
      match (w.store m.supplier sid).claimedRoot with
      | none => ¬ HasTree w m.supplier sid
      | some root => root.length = smstRootLen ∧ e.importPanics = false

/-- The snapshot has its root, or the supplier added last is its own and finds it. -/
def Answerable (w : World κ σ) (snapshot : Snapshot κ σ) (e : RootFaults) : Prop :=
  snapshot.claimedRootHash ≠ [] ∨
    match w.newest with
    | none => ¬ HasTree w snapshot.supplierOperatorAddress snapshot.sessionID
    | some m => m.supplier = snapshot.supplierOperatorAddress ∧ Finds w m snapshot.sessionID e

theorem length_getD (t : ManagedTree) : (t.claimedRoot.getD t.root).length = smstRootLen := by
  cases h : t.claimedRoot with
  | none => exact t.length_root
  | some r => exact t.length_claimedRoot r h

theorem rootOfTree_snd (w : World κ σ) (i : Nat) (m : SmstManager κ σ) (sid : σ) (t : ManagedTree) (e : RootFaults) :
    (w.rootOfTree i m sid t e).2 =
      if t.claimedRoot = none ∧ e.rootPanics = true then .error .panicRecovered
      else .ok (t.claimedRoot.getD t.root) := by
  unfold World.rootOfTree
  cases t.claimedRoot with
  | some root => simp
  | none => cases e.rootPanics <;> simp

theorem getTreeRoot_none (hm : m.trees sid = none) (e : RootFaults) :
    (w.getTreeRoot i m sid e).2 =
      if e.read ≠ .ok then .error (.unreadable e.read)
      else
        match (w.store m.supplier sid).claimedRoot with
        | none => .error .notFound
        | some root =>
          if root = [] then .error .emptyRoot
          else if root.length = smstRootLen then
            if e.importPanics then .error .panicRecovered else .ok root
          else .error (.corruptRoot root.length) := by
  simp only [World.getTreeRoot, hm, loadTreeFromRedis]
  by_cases hread : e.read ≠ .ok
  · simp [hread]
  simp only [hread, if_false]
  cases hrec : (w.store m.supplier sid).claimedRoot with
  | none => rfl
  | some root =>
    by_cases hempty : root = []
    · simp [hempty]
    by_cases hlen : root.length = smstRootLen
    · cases e.importPanics <;> simp [hempty, hlen, rootOfTree_snd]
    · simp [hempty, hlen]

theorem getTreeRoot_ok {root : Bytes} (hm : w.managers i = some m) (h : (w.getTreeRoot i m sid e).2 = .ok root) :
    root ≠ [] ∧ OwnTreeRoot w m.supplier sid root := by
  have hne : ∀ r : Bytes, r.length = smstRootLen → r ≠ [] := by
    rintro r hr rfl
    cases hr
  cases ht : m.trees sid with
  | some t =>
    simp only [World.getTreeRoot, ht, rootOfTree_snd] at h
    split at h
    · cases h
    · cases h
      exact ⟨hne _ (length_getD t), .inl ⟨i, m, t, hm, rfl, ht, rfl⟩⟩
  | none =>
    rw [getTreeRoot_none ht] at h
    split at h
    · cases h
    split at h
    · cases h
    next r hrec =>
      split_ifs at h with _ hlen
      cases h
      exact ⟨hne _ hlen, .inr hrec⟩

/-- A manager fails for good only where there is no tree, if and only if it finds what there is. -/
theorem finds_iff (hm : w.managers i = some m) :
    Finds w m sid e ↔ ∀ err, (w.getTreeRoot i m sid e).2 = .error err → err.deferrable = false →
      ¬ HasTree w m.supplier sid := by
  unfold Finds
  cases ht : m.trees sid with
  | some t =>
    have hhas : HasTree w m.supplier sid := .inl ⟨i, m, t, hm, rfl, ht⟩
    simp only [World.getTreeRoot, ht, rootOfTree_snd]
    cases hc : t.claimedRoot <;> cases hp : e.rootPanics <;> simp [hhas, RootError.deferrable]
  | none =>
    rw [getTreeRoot_none ht]
    cases hread : e.read with
    | retryable | shutdown | permanent => simp [RootError.deferrable]
    | ok =>
      cases hrec : (w.store m.supplier sid).claimedRoot with
      | none => simp [RootError.deferrable]
      | some root =>
        have hhas : HasTree w m.supplier sid := .inr (.inl (by simp [hrec]))
        by_cases hempty : root = []
        · subst hempty
          simp [hhas, RootError.deferrable, smstRootLen]
        by_cases hlen : root.length = smstRootLen
        · cases hp : e.importPanics <;> simp [hempty, hlen, hhas, RootError.deferrable]
        · simp [hempty, hlen, hhas, RootError.deferrable]

omit [DecidableEq κ] [DecidableEq σ] in
theorem requirement_ne_unavailable (chain : Chain κ σ) (claim : Claim κ σ) :
    requirement chain claim ≠ .error .claimedRootUnavailable := by
  unfold requirement
  split
  · simp
  split
  · simp
  split
  · simp
  split
  · simp
  split
  · simp
  · split <;> simp

attribute [local simp] resolveClaimedRoot isProofRequired

/-- With its root on the snapshot nobody is asked. -/
theorem onOwnTree_of_root (h : snapshot.claimedRootHash ≠ []) : OnOwnTree w chain snapshot e := by
  have hcheck : isProofRequired w chain snapshot e =
      (w, snapshot, requirement chain (claimFromSnapshot snapshot snapshot.claimedRootHash)) := by
    simp [h]
  refine ⟨fun required hok => ?_, .inl (by rw [hcheck]), fun hun => ?_, fun he => absurd he h⟩
  · rw [hcheck] at hok ⊢
    exact ⟨_, by simp [RightRoot, h], hok, rfl⟩
  · rw [hcheck] at hun
    exact absurd hun (requirement_ne_unavailable chain _)

/-- Without it the decision is as good as the manager that is asked. -/
theorem onOwnTree_of_provider (h : snapshot.claimedRootHash = []) (hp : w.provider = some (i, m)) :
    OnOwnTree w chain snapshot e ↔
      m.supplier = snapshot.supplierOperatorAddress ∧ Finds w m snapshot.sessionID e := by
  have hm := (provider_eq_some.1 hp).2
  rw [finds_iff hm]
  obtain ⟨w', hget⟩ : ∃ w', w.getTreeRoot i m snapshot.sessionID e = (w', (w.getTreeRoot i m snapshot.sessionID e).2) :=
    ⟨_, rfl⟩
  generalize hans : (w.getTreeRoot i m snapshot.sessionID e).2 = answer at *
  cases answer with
  | error err =>
    have hresult : isProofRequired w chain snapshot e =
        (w', snapshot, .error (if err.deferrable then .claimedRootUnreadable else .claimedRootUnavailable)) := by
      simp [h, hp, hget]
    constructor
    · intro hown
      have hsup := hown.asks h i m hp
      refine ⟨hsup, fun err' he hdef => hsup ▸ hown.unavailable ?_⟩
      cases he
      rw [hresult]
      simp [hdef]
    rintro ⟨hsup, hfinds⟩
    refine ⟨fun required hok => ?_, .inl (by rw [hresult]), fun hun => hsup ▸ hfinds err rfl ?_, fun _ j m' hp' => ?_⟩
    · rw [hresult] at hok
      cases hok
    · rw [hresult] at hun
      cases hdef : err.deferrable with
      | false => rfl
      | true => simp [hdef] at hun
    rw [hp] at hp'
    cases hp'
    exact hsup
  | ok root =>
    obtain ⟨hne, hroot⟩ := getTreeRoot_ok hm hans
    have hresult : isProofRequired w chain snapshot e =
        (w', { snapshot with claimedRootHash := root }, requirement chain (claimFromSnapshot snapshot root)) := by
      simp [h, hp, hget, hne, claimFromSnapshot]
    constructor
    · exact fun hown => ⟨hown.asks h i m hp, nofun⟩
    rintro ⟨hsup, -⟩
    have hright : RightRoot w snapshot root := by simpa [RightRoot, h] using hsup ▸ hroot
    refine ⟨fun required hok => ?_, .inr (by rw [hresult]; exact hright), fun hun => ?_, fun _ j m' hp' => ?_⟩
    · rw [hresult] at hok ⊢
      exact ⟨root, hright, hok, rfl⟩
    · rw [hresult] at hun
      exact absurd hun (requirement_ne_unavailable chain _)
    rw [hp] at hp'
    cases hp'
    exact hsup

theorem onOwnTree_of_none (h : snapshot.claimedRootHash = []) (hp : w.provider = none) :
    OnOwnTree w chain snapshot e ↔ ¬ HasTree w snapshot.supplierOperatorAddress snapshot.sessionID := by
  have hresult : isProofRequired w chain snapshot e = (w, snapshot, .error .claimedRootUnavailable) := by
    simp [h, hp]
  constructor
  · exact fun hown => hown.unavailable (by rw [hresult])
  intro hno
  refine ⟨fun required hok => ?_, .inl (by rw [hresult]), fun _ => hno, fun _ j m' hp' => ?_⟩
  · rw [hresult] at hok
    cases hok
  · rw [hp] at hp'
    cases hp'

/-- In every world that adds, removals and the trees' own life lead to, a check is made on the session's own tree
exactly when it is answerable. -/
theorem proof_decision_on_own_tree (acts : List (Act κ σ)) (chain : Chain κ σ) (snapshot : Snapshot κ σ)
    (e : RootFaults) :
    OnOwnTree (run step World.empty acts) chain snapshot e ↔ Answerable (run step World.empty acts) snapshot e := by
  have hw : Wired (run step (World.empty : World κ σ) acts) := inv_of_run Wired (fun _ a h => h.step a) acts .empty
  generalize run step (World.empty : World κ σ) acts = w at *
  unfold Answerable
  by_cases h : snapshot.claimedRootHash = []
  · have hnewest := hw.provider_map
    cases hp : w.provider with
    | none =>
      rw [hp] at hnewest
      simp only [h, ne_eq, not_true_eq_false, false_or, ← hnewest, Option.map_none]
      exact onOwnTree_of_none h hp
    | some p =>
      rw [hp] at hnewest
      simp only [h, ne_eq, not_true_eq_false, false_or, ← hnewest, Option.map_some]
      exact onOwnTree_of_provider h hp
  · exact iff_of_true (onOwnTree_of_root h) (.inl h)

def sealedTree (b : UInt8) : ManagedTree :=
  ⟨some (List.replicate smstRootLen b), List.replicate smstRootLen b, by simp, fun r hr => by cases hr; simp⟩

def provesFirst : Chain Nat Nat where
  proofParams := some (10, 0)
  claimedAmount claim := some (if claim.rootHash = List.replicate smstRootLen 1 then 100 else 1)
  sampleValue _ := some 5

def twoSuppliers : List (Act Nat Nat) := [.add 1, .tree 0 7 (some (sealedTree 1)), .add 2]

/-- The first supplier's session is decided on the second's tree, and a proof the chain asks for is not required; where
the second has no tree the first's is given up for good. -/
theorem decided_on_another_tree :
    (isProofRequired (run step World.empty (twoSuppliers ++ [.tree 1 7 (some (sealedTree 2))])) provesFirst
        ⟨1, 7, []⟩ {}).2.1.claimedRootHash = List.replicate smstRootLen 2 ∧
      (isProofRequired (run step World.empty (twoSuppliers ++ [.tree 1 7 (some (sealedTree 2))])) provesFirst
        ⟨1, 7, []⟩ {}).2.2.toOption = some false ∧
      (requirement provesFirst (claimFromSnapshot ⟨1, 7, []⟩ (List.replicate smstRootLen 1))).toOption = some true ∧
      ¬ OnOwnTree (run step World.empty (twoSuppliers ++ [.tree 1 7 (some (sealedTree 2))])) provesFirst
        ⟨1, 7, []⟩ {} ∧
      (isProofRequired (run step World.empty twoSuppliers) provesFirst ⟨1, 7, []⟩ {}).2.2 =
        .error .claimedRootUnavailable ∧
      HasTree (run step World.empty twoSuppliers) 1 7 :=
  ⟨by decide, by decide, by decide, fun h => absurd (h.asks rfl _ _ rfl) (by decide), rfl,
    .inl ⟨0, _, sealedTree 1, rfl, rfl, rfl⟩⟩

end RelayMiner.Lifecycle.ProofRequirement
