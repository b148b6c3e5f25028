import RelayMiner.Smst.ColdLeaves
import RelayMiner.Smst.Manager
/-!
# Cold compaction

`CompactColdTree` reads the leaves of a claimed tree, stores them as a blob,
reads the blob back, rebuilds the tree from it, and only then deletes the nodes.
Any number of runs and of proof loads take turns here, one store call at a time,
in one process or several; a call may fail, and a run may die between any two.

The deletion is guarded: it takes the nodes only while the blob is the one that
was verified. The write of the blob is not. A run that reads the nodes after
another deleted them stores a blob of fewer leaves over the verified one, and
its clean-up removes even that. `claimed_tree_kept` is what holds while no such
blob is stored. The hash may hold nodes that the claimed tree does not have; a
blob of it fails its verification, and the nodes stay.
-/
open RelayMiner.Lib RelayMiner.Session Function

namespace RelayMiner.Smst

open List

inductive ColdCompactionResult where
  | compacted | alreadyCompacted | noTree | notReady | readFailed | setFailed | deleteFailed | mismatch
  deriving DecidableEq

structure ColdStore where
  claimedRoot : Option Bytes
  nodes : List (Bytes × Bytes)
  leaves : Option Bytes

inductive Stage where
  | idle
  | getClaimedRoot
  | existsNodes (claimedRoot : Bytes)
  | existsLeaves
  | rangeNodes (claimedRoot : Bytes) (seen : List Bytes) (leaves : List ColdLeaf)
  | setLeaves (claimedRoot blob : Bytes)
  | getLeaves (claimedRoot : Bytes)
  | delLeaves
  | deleteNodesIfLeaves (stored : Bytes)
  | done (result : ColdCompactionResult)
  | proveCompacted (claimedRoot : Bytes)
  | proveFromLeaves (claimedRoot : Bytes)
  | proveFromNodes
  | loaded (found : Bool)
  deriving DecidableEq

structure Turn where
  fault : Fault := .ok
  fields : List Bytes := []
  last : Bool := true

def ColdStore.found (s : ColdStore) (fields : List Bytes) : List (Bytes × Bytes) :=
  fields.filterMap fun f => s.nodes.find? fun p => p.1 = f

/-- A scan that ends has returned every field that is still there. -/
def ColdStore.covered (s : ColdStore) (seen : List Bytes) : Bool := s.nodes.all fun p => p.1 ∈ seen

def takeNodes : List (Bytes × Bytes) → List Bytes → List ColdLeaf → Except ColdError (List Bytes × List ColdLeaf)
  | [], seen, leaves => .ok (seen, leaves)
  | (field, node) :: rest, seen, leaves =>
    if field ∈ seen then takeNodes rest seen leaves
    else
      match readLeaf field node with
      | .error e => .error e
      | .ok none => takeNodes rest (seen ++ [field]) leaves
      | .ok (some l) => takeNodes rest (seen ++ [field]) (leaves ++ [l])

section

variable (C : Codec)

def verifies (blob claimedRoot : Bytes) : Bool := (verifyColdBlob C blob claimedRoot) matches .ok ()

/-- A proof is made from a blob whose leaves rebuild the claimed root, whatever root its header names. -/
def provable (blob claimedRoot : Bytes) : Bool :=
  match decodeColdLeaves C blob with
  | .error _ => false
  | .ok (_, leaves) => C.rebuild leaves = some claimedRoot

def advance (s : ColdStore) (e : Turn) : Stage → ColdStore × Stage
  | .getClaimedRoot =>
    if e.fault ≠ .ok then (s, .done .readFailed)
    else
      match s.claimedRoot with
      | none => (s, .done .notReady)
      | some root => if isValidSMSTRoot root then (s, .existsNodes root) else (s, .done .notReady)
  | .existsNodes root =>
    if e.fault ≠ .ok then (s, .done .readFailed)
    else if s.nodes = [] then (s, .existsLeaves)
    else (s, .rangeNodes root [] [])
  | .existsLeaves =>
    if e.fault ≠ .ok then (s, .done .readFailed)
    else (s, .done (if s.leaves.isSome then .alreadyCompacted else .noTree))
  | .rangeNodes root seen leaves =>
    if e.fault ≠ .ok then (s, .done .readFailed)
    else
      match takeNodes (s.found e.fields) seen leaves with
      | .error _ => (s, .done .readFailed)
      | .ok (seen, leaves) =>
        if e.last && s.covered seen then
          match encodeColdLeaves C root leaves with
          | .error _ => (s, .done .readFailed)
          | .ok blob => (s, .setLeaves root blob)
        else (s, .rangeNodes root seen leaves)
  | .setLeaves root blob =>
    match e.fault with
    | .ok => ({ s with leaves := some blob }, .getLeaves root)
    | .refused => (s, .done .setFailed)
    | .lost => ({ s with leaves := some blob }, .done .setFailed)
  | .getLeaves root =>
    if e.fault ≠ .ok then (s, .done .readFailed)
    else
      match s.leaves with
      | none => (s, .done .readFailed)
      | some stored => if verifies C stored root then (s, .deleteNodesIfLeaves stored) else (s, .delLeaves)
  | .delLeaves => (if e.fault = .refused then s else { s with leaves := none }, .done .mismatch)
  | .deleteNodesIfLeaves stored =>
    (if e.fault ≠ .refused ∧ s.leaves = some stored then { s with nodes := [] } else s,
      .done (if e.fault ≠ .ok then .deleteFailed else if s.leaves = some stored then .compacted else .mismatch))
  | .proveCompacted root =>
    if e.fault ≠ .ok then (s, .loaded false)
    else if s.leaves.isSome ∧ s.nodes = [] then (s, .proveFromLeaves root)
    else (s, .proveFromNodes)
  | .proveFromLeaves root =>
    (s, .loaded (e.fault = .ok && (s.leaves.map fun blob => provable C blob root).getD false))
  | .proveFromNodes =>
    if e.fault ≠ .ok ∨ (s.found e.fields).length ≠ e.fields.length then (s, .loaded false)
    else (s, if e.last then .loaded true else .proveFromNodes)
  | stage => (s, stage)

end

structure ColdConf where
  store : ColdStore
  runs : Nat → Stage
  deleted : Bool := false

inductive ColdAct where
  | compact (i : Nat)
  | prove (i : Nat) (claimedRoot : Bytes)
  | next (i : Nat) (e : Turn)
  | drop (i : Nat)
  | deleteSession

def ColdConf.set (c : ColdConf) (i : Nat) (stage : Stage) : ColdConf := { c with runs := update c.runs i stage }

def coldStep (C : Codec) (c : ColdConf) : ColdAct → ColdConf
  | .compact i => c.set i .getClaimedRoot
  | .prove i root => c.set i (.proveCompacted root)
  | .next i e => { c.set i (advance C c.store e (c.runs i)).2 with store := (advance C c.store e (c.runs i)).1 }
  | .drop i => c.set i .idle
  | .deleteSession => { c with store := ⟨none, [], none⟩, deleted := true }

/-! ## A claimed tree -/

def leavesOf (nodes : List (Bytes × Bytes)) : List ColdLeaf :=
  nodes.filterMap fun p => ((readLeaf p.1 p.2).toOption).join

/-- The nodes hash of a claimed session: the complete node set of the claimed root, and what else was committed. -/
structure ClaimedTree where
  root : Bytes
  tree : List (Bytes × Bytes)
  nodes : List (Bytes × Bytes)
  complete : tree ⊆ nodes
  fields_nodup : (nodes.map Prod.fst).Nodup
  /-- The path of a leaf is the hash of its relay. -/
  paths_nodup : ((leavesOf nodes).map ColdLeaf.path).Nodup

variable (C : Codec) (T : ClaimedTree) {stage : Stage} {c : ColdConf} {s s' : ColdStore}

def ColdStore.verified (s : ColdStore) : Bool := (s.leaves.map fun blob => verifies C blob T.root).getD false

def ColdStore.Held (s : ColdStore) : Prop := T.tree ⊆ s.nodes ∨ s.verified C T = true

/-- The blob of the whole hash. -/
def IsBlob (blob : Bytes) : Prop := encodeColdLeaves C T.root (leavesOf T.nodes) = .ok blob

/-! ## What a scan collects while the nodes are there -/

def Collected (seen : List Bytes) (leaves : List ColdLeaf) : Prop :=
  ∃ ps : List (Bytes × Bytes), ps ⊆ T.nodes ∧ ps.map Prod.fst = seen ∧ seen.Nodup ∧ leaves = leavesOf ps

variable {C T} {leaves leaves' : List ColdLeaf} {seen seen' : List Bytes} {batch : List (Bytes × Bytes)}

theorem Collected.start : Collected T [] [] := ⟨[], nil_subset _, rfl, nodup_nil, rfl⟩

theorem Collected.takeNodes (hbatch : batch ⊆ T.nodes) (h : Collected T seen leaves)
    (htake : takeNodes batch seen leaves = .ok (seen', leaves')) : Collected T seen' leaves' := by
  induction batch generalizing seen leaves with
  | nil =>
    cases htake
    exact h
  | cons p batch ih =>
    obtain ⟨field, node⟩ := p
    obtain ⟨hp, hrest⟩ := cons_subset.1 hbatch
    by_cases hseen : field ∈ seen
    · simp only [Smst.takeNodes, hseen, if_true] at htake
      exact ih hrest h htake
    obtain ⟨ps, hsub, hfields, hnodup, rfl⟩ := h
    have hmore : ∀ more, ((readLeaf field node).toOption).join.toList = more →
        Collected T (seen ++ [field]) (leavesOf ps ++ more) := by
      rintro more rfl
      refine ⟨ps ++ [(field, node)], append_subset.2 ⟨hsub, by simpa using hp⟩, by simp [hfields], ?_, ?_⟩
      · exact nodup_append.2 ⟨hnodup, nodup_singleton field, by rintro a ha b hb rfl; exact hseen (mem_singleton.1 hb ▸ ha)⟩
      · cases hjoin : ((readLeaf field node).toOption).join <;> simp [leavesOf, hjoin]
    simp only [Smst.takeNodes, hseen, if_false] at htake
    cases hread : readLeaf field node with
    | error e => simp [hread] at htake
    | ok leaf =>
      cases leaf with
      | none =>
        simp only [hread] at htake
        exact ih hrest (by simpa [hread, Except.toOption] using hmore [] (by simp [hread, Except.toOption])) htake
      | some l =>
        simp only [hread] at htake
        exact ih hrest (hmore [l] (by simp [hread, Except.toOption])) htake

/-- A scan of the whole hash has its leaves. -/
theorem Collected.perm (h : Collected T seen leaves)
    (hall : ∀ p ∈ T.nodes, p.1 ∈ seen) : leaves.Perm (leavesOf T.nodes) := by
  obtain ⟨ps, hsub, hfields, hnodup, rfl⟩ := h
  refine List.Perm.filterMap _ ((perm_ext_iff_of_nodup ?_ ?_).2 fun p => ⟨fun hp => hsub hp, fun hp => ?_⟩)
  · exact List.Nodup.of_map Prod.fst (hfields ▸ hnodup)
  · exact List.Nodup.of_map Prod.fst T.fields_nodup
  obtain ⟨q, hq, hfield⟩ := mem_map.1 (hfields ▸ hall p hp)
  have : q = p := inj_on_of_nodup_map T.fields_nodup (hsub hq) hp hfield
  exact this ▸ hq

instance : Std.Total byPath := ⟨fun l l' => List.le_total l.path l'.path⟩

instance : IsTrans ColdLeaf byPath := ⟨fun _ _ _ => List.le_trans⟩

/-- The leaves are sorted by path, so that every scan of the whole hash is written as one blob. -/
theorem Collected.blob (h : Collected T seen leaves) (hall : ∀ p ∈ T.nodes, p.1 ∈ seen) {blob : Bytes}
    (henc : encodeColdLeaves C T.root leaves = .ok blob) : IsBlob C T blob := by
  have hperm := h.perm hall
  have hsort : leaves.insertionSort byPath = (leavesOf T.nodes).insertionSort byPath := by
    have hmem : ∀ {l}, l ∈ leaves.insertionSort byPath → l ∈ leavesOf T.nodes := fun hl =>
      hperm.mem_iff.1 ((perm_insertionSort byPath _).mem_iff.1 hl)
    refine Perm.eq_of_pairwise (fun l l' hl hl' hle hle' => ?_) (pairwise_insertionSort byPath _)
      (pairwise_insertionSort byPath _)
      ((perm_insertionSort byPath _).trans (hperm.trans (perm_insertionSort byPath _).symm))
    exact inj_on_of_nodup_map T.paths_nodup (hmem hl) ((perm_insertionSort byPath _).mem_iff.1 hl')
      (List.le_antisymm hle hle')
  rw [IsBlob, ← henc, encodeColdLeaves, encodeColdLeaves, hsort]

theorem found_subset (s : ColdStore) (fields : List Bytes) : s.found fields ⊆ s.nodes := by
  intro p hp
  obtain ⟨f, -, hf⟩ := mem_filterMap.1 hp
  exact mem_of_find?_eq_some hf

/-! ## The invariant -/

variable (C T)

/-- The hash is as the claim left it and a blob is the hash's own; or the hash is gone, its blob was verified, and the
blob in the store is too. -/
def ColdStore.Safe (s : ColdStore) : Prop :=
  (s.nodes = T.nodes ∧ ∀ blob ∈ s.leaves, IsBlob C T blob) ∨
    (s.nodes = [] ∧ (∃ blob, IsBlob C T blob ∧ verifies C blob T.root = true) ∧ s.verified C T = true)

def Stage.Sound (s : ColdStore) : Stage → Prop
  | .existsNodes root | .getLeaves root => root = T.root
  | .rangeNodes root seen leaves => root = T.root ∧ (s.nodes = T.nodes → Collected T seen leaves)
  | .setLeaves root blob => root = T.root ∧ (s.nodes = T.nodes → IsBlob C T blob)
  | .delLeaves => ∀ blob, IsBlob C T blob → verifies C blob T.root = false
  | .deleteNodesIfLeaves stored => verifies C stored T.root = true
  | _ => True

structure Kept (c : ColdConf) : Prop where
  claimed : c.store.claimedRoot = some T.root
  safe : c.store.Safe C T
  runs : ∀ i, (c.runs i).Sound C T c.store

structure Change (s s' : ColdStore) : Prop where
  claimed : s'.claimedRoot = s.claimedRoot
  nodes : s'.nodes = s.nodes ∨ s'.nodes = []
  verified : s.verified C T = true → s'.verified C T = true
  safe : s'.Safe C T

variable {C T}

theorem ColdStore.Safe.held (h : s.Safe C T) : s.Held C T := by
  rcases h with ⟨hn, -⟩ | ⟨-, -, hver⟩
  · exact .inl (hn ▸ T.complete)
  · exact .inr hver

theorem Change.refl (h : s.Safe C T) : Change C T s s := ⟨rfl, .inl rfl, id, h⟩

theorem Stage.Sound.change (hc : Change C T s s') (h : s.Safe C T) (hs : stage.Sound C T s) : stage.Sound C T s' := by
  have hback : s'.nodes = T.nodes → s.nodes = T.nodes := by
    intro he
    rcases hc.nodes with hn | hn
    · exact hn ▸ he
    rcases h with ⟨hw, -⟩ | ⟨hg, -⟩
    · exact hw
    · exact hg.trans (hn.symm.trans he)
  cases stage with
  | rangeNodes root seen leaves | setLeaves root blob => exact ⟨hs.1, fun he => hs.2 (hback he)⟩
  | getLeaves | delLeaves | existsNodes | deleteNodesIfLeaves => exact hs
  | _ => trivial

/-! ## One store call -/

/-- A blob that is stored when the nodes are gone rebuilds the claimed root: its scan ended while they were there. -/
def Stage.Careful (C : Codec) (s : ColdStore) (e : Turn) : Stage → Prop
  | .setLeaves root blob => e.fault ≠ .refused → s.nodes = [] → verifies C blob root = true
  | _ => True

instance (s : ColdStore) (e : Turn) (stage : Stage) : Decidable (stage.Careful C s e) := by
  cases stage <;> unfold Stage.Careful <;> infer_instance

variable (C T) in
def Fits (s : ColdStore) (p : ColdStore × Stage) : Prop := Change C T s p.1 ∧ p.2.Sound C T p.1

theorem Fits.stay (h : s.Safe C T) (hs : stage.Sound C T s) : Fits C T s (s, stage) := ⟨.refl h, hs⟩

theorem ColdStore.verified_of_leaves {stored : Bytes} (hs : s.leaves = some stored) :
    s.verified C T = verifies C stored T.root := by simp [ColdStore.verified, hs]

/-- Over the nodes a blob is the hash's own and verifies if the one before it did. -/
theorem Change.setLeaves {blob : Bytes} (h : s.Safe C T) (hs : s.nodes = T.nodes → IsBlob C T blob)
    (hcare : s.nodes = [] → verifies C blob T.root = true) : Change C T s { s with leaves := some blob } := by
  rcases h with ⟨hn, hblob⟩ | ⟨hn, hgood, -⟩
  · refine ⟨rfl, .inl rfl, fun hver => ?_, .inl ⟨hn, fun b hb => Option.some.inj hb ▸ hs hn⟩⟩
    cases hl : s.leaves with
    | none => simp [ColdStore.verified, hl] at hver
    | some b =>
      rw [ColdStore.verified_of_leaves hl] at hver
      have hsame : b = blob := Except.ok.inj ((hblob b hl).symm.trans (hs hn))
      rw [ColdStore.verified_of_leaves rfl, ← hsame, hver]
  · have hver : ({ s with leaves := some blob } : ColdStore).verified C T = true := hcare hn
    exact ⟨rfl, .inl rfl, fun _ => hver, .inr ⟨hn, hgood, hver⟩⟩

/-- The clean-up of a run finds no blob that verifies. -/
theorem Change.delLeaves (h : s.Safe C T) (hs : ∀ blob, IsBlob C T blob → verifies C blob T.root = false) :
    Change C T s { s with leaves := none } := by
  rcases h with ⟨hn, hblob⟩ | ⟨-, ⟨blob, hb, hver⟩, -⟩
  · refine ⟨rfl, .inl rfl, fun hver => ?_, .inl ⟨hn, nofun⟩⟩
    cases hl : s.leaves with
    | none => simp [ColdStore.verified, hl] at hver
    | some b =>
      rw [ColdStore.verified_of_leaves hl, hs b (hblob b hl)] at hver
      cases hver
  · rw [hs blob hb] at hver
    cases hver

theorem Change.deleteNodes {stored : Bytes} (h : s.Safe C T) (hl : s.leaves = some stored)
    (hgood : verifies C stored T.root = true) : Change C T s { s with nodes := [] } := by
  have hver : s.verified C T = true := by rw [ColdStore.verified_of_leaves hl, hgood]
  refine ⟨rfl, .inr rfl, id, .inr ⟨rfl, ?_, hver⟩⟩
  rcases h with ⟨-, hblob⟩ | ⟨-, hgood, -⟩
  · exact ⟨stored, hblob stored hl, hgood⟩
  · exact hgood

theorem fits_advance {e : Turn} (hroot : s.claimedRoot = some T.root) (h : s.Safe C T) (hs : stage.Sound C T s)
    (hcare : stage.Careful C s e) : Fits C T s (advance C s e stage) := by
  cases stage with
  | getClaimedRoot =>
    simp only [advance, hroot]
    split_ifs
    · exact .stay h trivial
    · exact .stay h rfl
    · exact .stay h trivial
  | existsNodes root =>
    simp only [advance]
    split_ifs
    · exact .stay h trivial
    · exact .stay h trivial
    · exact .stay h ⟨hs, fun _ => .start⟩
  | rangeNodes root seen leaves =>
    -- The nodes are all there, or none is and nothing depends on what was read.
    obtain ⟨rfl, hc⟩ := hs
    simp only [advance]
    split
    · exact .stay h trivial
    split
    · exact .stay h trivial
    next seen' leaves' htake =>
      have hcol : s.nodes = T.nodes → Collected T seen' leaves' := fun hn =>
        (hc hn).takeNodes (hn ▸ found_subset s e.fields) htake
      split
      next hlast =>
        split
        · exact .stay h trivial
        next blob henc =>
          refine .stay h ⟨rfl, fun hn => (hcol hn).blob (fun p hp => ?_) henc⟩
          simpa using all_eq_true.1 (Bool.and_eq_true_iff.1 hlast).2 p (hn ▸ hp)
      next => exact .stay h ⟨rfl, hcol⟩
  | setLeaves root blob =>
    obtain ⟨rfl, hblob⟩ := hs
    have hset := fun hf => Change.setLeaves h hblob (hcare hf)
    simp only [advance]
    split
    next hf => exact ⟨hset (by simp [hf]), rfl⟩
    next hf => exact .stay h trivial
    next hf => exact ⟨hset (by simp [hf]), trivial⟩
  | getLeaves root =>
    obtain rfl : root = T.root := hs
    simp only [advance]
    split
    · exact .stay h trivial
    split
    · exact .stay h trivial
    next stored hstored =>
      split
      next hver => exact .stay h hver
      next hver =>
        refine .stay h fun blob hb => ?_
        rcases h with ⟨-, hblob⟩ | ⟨-, -, hgood⟩
        · obtain rfl : stored = blob := Except.ok.inj ((hblob stored hstored).symm.trans hb)
          simpa using hver
        · exact absurd (ColdStore.verified_of_leaves hstored ▸ hgood) hver
  | delLeaves =>
    refine ⟨?_, trivial⟩
    simp only [advance]
    split
    · exact .refl h
    · exact .delLeaves h hs
  | deleteNodesIfLeaves stored =>
    refine ⟨?_, trivial⟩
    simp only [advance]
    split
    next hdel => exact .deleteNodes h hdel.2 hs
    next => exact .refl h
  | existsLeaves | proveCompacted | proveFromNodes =>
    simp only [advance]
    split_ifs <;> exact .stay h trivial
  | _ => exact .stay h trivial

/-! ## Runs -/

def CarefulAct (C : Codec) (c : ColdConf) : ColdAct → Prop
  | .next i e => c.deleted = false → (c.runs i).Careful C c.store e
  | _ => True

instance (c : ColdConf) (a : ColdAct) : Decidable (CarefulAct C c a) := by
  cases a <;> unfold CarefulAct <;> infer_instance

attribute [local simp] ColdConf.set

theorem Kept.set (h : Kept C T c) {i : Nat} (hs : stage.Sound C T c.store) : Kept C T (c.set i stage) where
  claimed := h.claimed
  safe := h.safe
  runs j := by
    by_cases hj : j = i
    · subst hj
      simpa using hs
    · simpa [update_of_ne hj] using h.runs j

theorem Kept.next (h : Kept C T c) (i : Nat) {e : Turn} (hcare : (c.runs i).Careful C c.store e) :
    Kept C T (coldStep C c (.next i e)) ∧
      (c.store.verified C T = true → (coldStep C c (.next i e)).store.verified C T = true) := by
  obtain ⟨hchange, hsound⟩ := fits_advance h.claimed h.safe (h.runs i) hcare
  refine ⟨⟨hchange.claimed.trans h.claimed, hchange.safe, fun j => ?_⟩, hchange.verified⟩
  by_cases hj : j = i
  · subst hj
    simpa [coldStep] using hsound
  · simpa [coldStep, update_of_ne hj] using (h.runs j).change hchange h.safe

variable (C T) in
/-- The session was deleted, or its tree is kept, and if `v` in a blob. -/
def KeptAs (v : Prop) (c : ColdConf) : Prop :=
  c.deleted = true ∨ c.deleted = false ∧ Kept C T c ∧ (v → c.store.verified C T = true)

theorem KeptAs.step {v : Prop} {a : ColdAct} (h : KeptAs C T v c) (ha : CarefulAct C c a) :
    KeptAs C T v (coldStep C c a) := by
  rcases h with hd | ⟨hd, hk, hv⟩
  · refine .inl ?_
    cases a with
    | deleteSession => rfl
    | _ => exact hd
  cases a with
  | compact | prove | drop => exact .inr ⟨hd, hk.set trivial, hv⟩
  | next i e =>
    obtain ⟨hk', hv'⟩ := hk.next i (ha hd)
    exact .inr ⟨hd, hk', fun h => hv' (hv h)⟩
  | deleteSession => exact .inl rfl

theorem KeptAs.run {v : Prop} {acts : List ColdAct} (h : KeptAs C T v c) (hm : Meets (coldStep C) (CarefulAct C) c acts) :
    KeptAs C T v (run (coldStep C) c acts) :=
  inv_of_meets (KeptAs C T v) (fun _ _ => KeptAs.step) h hm

/-- The session as its claim leaves it. -/
def ClaimedTree.start (T : ClaimedTree) : ColdConf := { store := ⟨some T.root, T.nodes, none⟩, runs := fun _ => .idle }

variable (C T) in
/-- Until the session is deleted the store holds the complete node set or a blob that rebuilds the claimed root, and
once it holds such a blob it goes on holding one, whichever run fails its verification. -/
theorem claimed_tree_kept (acts : List ColdAct) (hm : Meets (coldStep C) (CarefulAct C) T.start acts) :
    ((run (coldStep C) T.start acts).deleted = true ∨ (run (coldStep C) T.start acts).store.Held C T) ∧
      ∀ pre post, acts = pre ++ post → (run (coldStep C) T.start pre).store.verified C T = true →
        (run (coldStep C) T.start acts).deleted = true ∨
          (run (coldStep C) T.start acts).store.verified C T = true := by
  have hstart : KeptAs C T False T.start := .inr ⟨rfl, ⟨rfl, .inl ⟨rfl, nofun⟩, fun _ => trivial⟩, False.elim⟩
  refine ⟨(hstart.run hm).imp id fun h => h.2.1.safe.held, ?_⟩
  rintro pre post rfl hver
  obtain ⟨hpre, hpost⟩ := (meets_append _ pre post).1 hm
  have hmid : KeptAs C T True (run (coldStep C) T.start pre) :=
    (hstart.run hpre).imp id fun h => ⟨h.1, h.2.1, fun _ => hver⟩
  rw [run_append]
  exact (hmid.run hpost).imp id fun h => h.2.2 trivial

/-! ## One leaf -/

def oneLeaf : ColdLeaf := ⟨List.replicate 32 5, [7], 3⟩

def oneRoot : Bytes := List.replicate 48 1

def plainCodec : Codec where
  compress := id
  decompress := some
  count _ := 1
  sum _ := 3
  rebuild leaves := if leaves = [oneLeaf] then some oneRoot else some (List.replicate 48 0)
  decompress_compress _ _ := rfl
  count_lt _ := by decide
  sum_lt _ := by decide

/-- The hash of one leaf, and of what `stray` adds to it. -/
def oneTree (stray : Bool) : ClaimedTree where
  root := oneRoot
  tree := [([9], leafNode oneLeaf)]
  nodes := ([9], leafNode oneLeaf) :: if stray then [([8], leafNode ⟨List.replicate 32 4, [6], 2⟩)] else []
  complete := by simp
  fields_nodup := by cases stray <;> decide
  paths_nodup := by cases stray <;> decide

def verifiedRun (i : Nat) : List ColdAct :=
  [.compact i, .next i {}, .next i {}, .next i { fields := [[9], [8]] }, .next i {}, .next i {}]

/-- A second run stores its blob before the first deletes the nodes. -/
def sideBySide : List ColdAct :=
  [.compact 1, .next 1 {}, .next 1 {}, .next 1 { fields := [[9], [8]] }] ++ verifiedRun 0 ++
    [.next 1 {}, .next 0 {}, .next 1 {}, .next 1 {}]

theorem compacted_tree_kept :
    ((run (coldStep plainCodec) (oneTree false).start sideBySide).runs 0 = .done .compacted ∧
      (run (coldStep plainCodec) (oneTree false).start sideBySide).runs 1 = .done .compacted ∧
      ((run (coldStep plainCodec) (oneTree false).start sideBySide).deleted = true ∨
        (run (coldStep plainCodec) (oneTree false).start sideBySide).store.Held plainCodec (oneTree false))) ∧
    (run (coldStep plainCodec) (oneTree true).start sideBySide).runs 0 = .done .mismatch ∧
      ((run (coldStep plainCodec) (oneTree true).start sideBySide).deleted = true ∨
        (run (coldStep plainCodec) (oneTree true).start sideBySide).store.Held plainCodec (oneTree true)) :=
  ⟨⟨by decide +kernel, by decide +kernel,
      (claimed_tree_kept plainCodec (oneTree false) sideBySide (by decide +kernel)).1⟩,
    by decide +kernel, (claimed_tree_kept plainCodec (oneTree true) sideBySide (by decide +kernel)).1⟩

/-- A second run finds the nodes there, and reads and stores what is left of them after the first has deleted them. -/
def overtaken : List ColdAct :=
  verifiedRun 0 ++ [.compact 1, .next 1 {}, .next 1 {}, .next 0 {}, .next 1 {}, .next 1 {}]

/-- No call fails and no run dies: the store is left with a blob of no leaves, and then with nothing. -/
theorem claimed_tree_lost :
    let c := run (coldStep plainCodec) (oneTree false).start overtaken
    let c' := run (coldStep plainCodec) c [.next 1 {}, .next 1 {}]
    c.runs 0 = .done .compacted ∧ c.deleted = false ∧ ¬ c.store.Held plainCodec (oneTree false) ∧
      c'.store.nodes = [] ∧ c'.store.leaves = none ∧ c'.runs 1 = .done .mismatch := by
  unfold ColdStore.Held
  decide +kernel

end RelayMiner.Smst
