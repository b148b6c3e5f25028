import RelayMiner.Lib.Calls
import RelayMiner.Lib.Content
import RelayMiner.Session.State
/-!
# The node store of a session tree

`nodeStore` (`redis_mapstore.go`) sits between the smt library and the session's
node hash. A commit hands it new nodes and orphans; new nodes wait in
`pipelineBuffer` for one write, orphans in `orphanBuffer` for the next live_root
checkpoint, which deletes them and stores the root in one transaction.

The smt library is not part of the repository. `Trie` is what the miner relies on.
-/
open RelayMiner.Lib RelayMiner.Session

namespace RelayMiner.Smst

open List

/-- A sum trie over content-addressed nodes: a root fixes its nodes, and a key its node's bytes. -/
structure Trie (K V L : Type) where
  nodes : Bytes → List K
  content : K → V
  empty : Bytes
  insert : Bytes → L → Bytes
  contains : Bytes → L → Bool
  nodes_empty : nodes empty = []
  length_empty : empty.length = smstRootLen
  length_insert : ∀ r l, (insert r l).length = smstRootLen
  contains_insert : ∀ r l l', contains (insert r l) l' ↔ l' = l ∨ contains r l'

structure NodeStore (K V : Type) where
  pipelineEnabled : Bool := false
  pipelineBuffer : List (K × V) := []
  orphanBuffer : List K := []

/-- How the write of the buffered nodes goes. It is sent in pieces, so a failed one lands in part. -/
inductive PutFault (K : Type) where
  | ok
  | failed (landed : List K)

variable {K V L : Type} [DecidableEq K]

namespace NodeStore

def get (n : NodeStore K V) (hash : K → Option V) (k : K) : Option V := readThrough n.pipelineBuffer hash k

/-- The store after `Set`, and the hash. A direct write that is refused has already un-orphaned its field. -/
def set (n : NodeStore K V) (hash : K → Option V) (k : K) (v : V) (f : Fault) : NodeStore K V × (K → Option V) :=
  let n' := { n with orphanBuffer := n.orphanBuffer.filter (· ≠ k) }
  if n.pipelineEnabled then ({ n' with pipelineBuffer := putKey k v n.pipelineBuffer }, hash)
  else (n', if f = .refused then hash else Function.update hash k (some v))

/-- In pipeline mode the delete waits for the next checkpoint. -/
def delete (n : NodeStore K V) (hash : K → Option V) (k : K) (f : Fault) : NodeStore K V × (K → Option V) :=
  let n' := { n with pipelineBuffer := dropKey k n.pipelineBuffer }
  if n.pipelineEnabled then ({ n' with orphanBuffer := k :: n.orphanBuffer }, hash)
  else (n', if f = .refused then hash else Function.update hash k none)

def beginPipeline (n : NodeStore K V) : NodeStore K V := { n with pipelineEnabled := true }

/-- `writePendingNodesLocked`: the store, the hash, and whether it succeeded. A failed write keeps the buffer. -/
def writePendingNodes (n : NodeStore K V) (hash : K → Option V) (f : PutFault K) :
    NodeStore K V × (K → Option V) × Bool :=
  if n.pipelineBuffer.isEmpty then (n, hash, true)
  else match f with
    | .ok => ({ n with pipelineBuffer := [] }, land (fun _ => true) n.pipelineBuffer hash, true)
    | .failed landed => (n, land (fun k => decide (k ∈ landed)) n.pipelineBuffer hash, false)

def flushPipeline (n : NodeStore K V) (hash : K → Option V) (f : PutFault K) :
    NodeStore K V × (K → Option V) × Bool :=
  { n with pipelineEnabled := false }.writePendingNodes hash f

def setAll (content : K → V) (p : NodeStore K V × (K → Option V)) (ks : List K) : NodeStore K V × (K → Option V) :=
  ks.foldl (fun p k => p.1.set p.2 k (content k) .ok) p

def deleteAll (p : NodeStore K V × (K → Option V)) (ks : List K) : NodeStore K V × (K → Option V) :=
  ks.foldl (fun p k => p.1.delete p.2 k .ok) p

end NodeStore

def Trie.newNodes (T : Trie K V L) (c r : Bytes) : List K := (T.nodes r).filter (· ∉ T.nodes c)

/-- The library's `Commit` from the last committed root `c` to `r`: the new nodes, then the orphans, none of
which `r` reaches. -/
def Trie.commit (T : Trie K V L) (p : NodeStore K V × (K → Option V)) (c r : Bytes) (orphans : List K) :
    NodeStore K V × (K → Option V) :=
  NodeStore.deleteAll (NodeStore.setAll T.content p (T.newNodes c r)) (orphans.filter (· ∉ T.nodes r))

/-- A `Commit` that stops on the way has handed over some of the new nodes. -/
def Trie.commitPart (T : Trie K V L) (p : NodeStore K V × (K → Option V)) (c r : Bytes) (handed : List K) :
    NodeStore K V × (K → Option V) :=
  NodeStore.setAll T.content p ((T.newNodes c r).filter (· ∈ handed))

/-! ## What a commit leaves in the buffers -/

namespace NodeStore

variable {n : NodeStore K V} (hash : K → Option V)

theorem ite_mem_cons {k x : K} {ks : List K} (v : K → Option V) (old : Option V) :
    (if k ∈ ks then v k else if k = x then v x else old) = if k ∈ x :: ks then v k else old := by
  by_cases hx : k = x
  · simp [hx]
  · simp [hx]

theorem setAll_pipelined (content : K → V) (hn : n.pipelineEnabled = true) (ks : List K) :
    ∃ n', setAll content (n, hash) ks = (n', hash) ∧ n'.pipelineEnabled = true ∧
      (∀ k, n'.pipelineBuffer.lookup k = if k ∈ ks then some (content k) else n.pipelineBuffer.lookup k) ∧
      ∀ k, k ∈ n'.orphanBuffer ↔ k ∈ n.orphanBuffer ∧ k ∉ ks := by
  induction ks generalizing n with
  | nil => exact ⟨n, rfl, hn, by simp, by simp⟩
  | cons x ks ih =>
    obtain ⟨n', he, hp, hbuf, horph⟩ := ih (n := { n with
      pipelineBuffer := putKey x (content x) n.pipelineBuffer
      orphanBuffer := n.orphanBuffer.filter (· ≠ x) }) hn
    refine ⟨n', ?_, hp, fun k => ?_, fun k => ?_⟩
    · rw [← he, setAll, foldl_cons]
      simp only [set, hn, if_true]
      rfl
    · rw [hbuf, lookup_putKey]
      exact ite_mem_cons (fun k => some (content k)) _
    rw [horph, mem_filter]
    simp only [ne_eq, decide_not, Bool.not_eq_true', decide_eq_false_iff_not, mem_cons, not_or]
    tauto

theorem deleteAll_pipelined (hn : n.pipelineEnabled = true) (ks : List K) :
    ∃ n', deleteAll (n, hash) ks = (n', hash) ∧ n'.pipelineEnabled = true ∧
      (∀ k, n'.pipelineBuffer.lookup k = if k ∈ ks then none else n.pipelineBuffer.lookup k) ∧
      ∀ k, k ∈ n'.orphanBuffer ↔ k ∈ n.orphanBuffer ∨ k ∈ ks := by
  induction ks generalizing n with
  | nil => exact ⟨n, rfl, hn, by simp, by simp⟩
  | cons x ks ih =>
    obtain ⟨n', he, hp, hbuf, horph⟩ := ih (n := { n with
      pipelineBuffer := dropKey x n.pipelineBuffer
      orphanBuffer := x :: n.orphanBuffer }) hn
    refine ⟨n', ?_, hp, fun k => ?_, fun k => ?_⟩
    · rw [← he, deleteAll, foldl_cons]
      simp only [delete, hn, if_true]
      rfl
    · rw [hbuf, lookup_dropKey]
      exact ite_mem_cons (fun _ => none) _
    · rw [horph, mem_cons, mem_cons]
      tauto

end NodeStore

section

variable (T : Trie K V L)

theorem Trie.mem_newNodes {c r : Bytes} {k : K} : k ∈ T.newNodes c r ↔ k ∈ T.nodes r ∧ k ∉ T.nodes c := by
  simp [Trie.newNodes]

structure Carries (n : NodeStore K V) (hash : K → Option V) (c : Bytes) : Prop where
  genuine : Genuine T.content (n.pipelineBuffer.lookup ·)
  held : Holds T.content (n.get hash) (T.nodes c)
  kept : ∀ k ∈ n.orphanBuffer, k ∉ T.nodes c

variable {T} {n : NodeStore K V} {hash : K → Option V} {c r : Bytes}

theorem Trie.commit_spec (hash : K → Option V) (hn : n.pipelineEnabled = true) (orphans : List K) :
    ∃ n', T.commit (n, hash) c r orphans = (n', hash) ∧
      (∀ k, n'.pipelineBuffer.lookup k =
        if k ∈ orphans ∧ k ∉ T.nodes r then none
        else if k ∈ T.newNodes c r then some (T.content k) else n.pipelineBuffer.lookup k) ∧
      ∀ k, k ∈ n'.orphanBuffer ↔ (k ∈ n.orphanBuffer ∧ k ∉ T.newNodes c r) ∨ (k ∈ orphans ∧ k ∉ T.nodes r) := by
  obtain ⟨n1, h1, hp1, hb1, ho1⟩ := NodeStore.setAll_pipelined hash T.content hn (T.newNodes c r)
  obtain ⟨n2, h2, -, hb2, ho2⟩ :=
    NodeStore.deleteAll_pipelined hash hp1 (orphans.filter (· ∉ T.nodes r))
  refine ⟨n2, by rw [Trie.commit, h1, h2], fun k => ?_, fun k => ?_⟩
  · rw [hb2, hb1]
    simp
  · rw [ho2, ho1]
    simp

theorem genuine_commit (hash : K → Option V) (hn : n.pipelineEnabled = true)
    (hg : Genuine T.content (n.pipelineBuffer.lookup ·))
    (orphans : List K) : Genuine T.content ((T.commit (n, hash) c r orphans).1.pipelineBuffer.lookup ·) := by
  obtain ⟨n', he, hb, -⟩ := Trie.commit_spec (T := T) (c := c) (r := r) hash hn orphans
  intro k v hv
  rw [he] at hv
  simp only [hb] at hv
  split_ifs at hv
  · exact (Option.some.inj hv).symm
  · exact hg k v hv

/-- Committed from `c` to `r`, the store carries `r`: the nodes `r` shares with `c` were not orphans, and the
new ones no longer are. -/
theorem Carries.commit (hn : n.pipelineEnabled = true) (h : Carries T n hash c) (orphans : List K) :
    Carries T (T.commit (n, hash) c r orphans).1 hash r := by
  refine ⟨genuine_commit hash hn h.genuine orphans, fun k hk => ?_, fun k hk => ?_⟩
  · obtain ⟨n', he, hb, -⟩ := Trie.commit_spec (T := T) (c := c) (r := r) hash hn orphans
    rw [he]
    unfold NodeStore.get readThrough
    rw [hb, if_neg (by simp [hk])]
    by_cases hc : k ∈ T.nodes c
    · have hnew : k ∉ T.newNodes c r := by simp [T.mem_newNodes, hc]
      rw [if_neg hnew]
      exact h.held k hc
    · have hnew : k ∈ T.newNodes c r := T.mem_newNodes.2 ⟨hk, hc⟩
      simp [hnew]
  obtain ⟨n', he, -, ho⟩ := Trie.commit_spec (T := T) (c := c) (r := r) hash hn orphans
  rw [he, ho] at hk
  rcases hk with ⟨hk, hnew⟩ | ⟨-, hk⟩
  · intro hr
    exact h.kept k hk (by_contra fun hc => hnew (T.mem_newNodes.2 ⟨hr, hc⟩))
  · exact hk

/-- A commit that stops on the way adds genuine nodes and orphans nothing. -/
theorem Trie.commitPart_spec (hash : K → Option V) (hn : n.pipelineEnabled = true) (handed : List K) :
    ∃ n', T.commitPart (n, hash) c r handed = (n', hash) ∧
      (∀ k, n'.pipelineBuffer.lookup k = some (T.content k) ∨
        n'.pipelineBuffer.lookup k = n.pipelineBuffer.lookup k) ∧
      ∀ k ∈ n'.orphanBuffer, k ∈ n.orphanBuffer := by
  obtain ⟨n1, h1, -, hb1, ho1⟩ :=
    NodeStore.setAll_pipelined hash T.content hn ((T.newNodes c r).filter (· ∈ handed))
  refine ⟨n1, h1, fun k => ?_, fun k hk => ((ho1 k).1 hk).1⟩
  rw [hb1]
  split
  · exact .inl rfl
  · exact .inr rfl

theorem genuine_commitPart (hash : K → Option V) (hn : n.pipelineEnabled = true)
    (hg : Genuine T.content (n.pipelineBuffer.lookup ·))
    (handed : List K) : Genuine T.content ((T.commitPart (n, hash) c r handed).1.pipelineBuffer.lookup ·) := by
  obtain ⟨n', he, hb, -⟩ := Trie.commitPart_spec (T := T) (c := c) (r := r) hash hn handed
  intro k v hv
  rw [he] at hv
  rcases hb k with h | h <;> simp only [h] at hv
  · exact (Option.some.inj hv).symm
  · exact hg k v hv

theorem Carries.commitPart (hn : n.pipelineEnabled = true) (h : Carries T n hash c) (handed : List K) :
    Carries T (T.commitPart (n, hash) c r handed).1 hash c := by
  refine ⟨genuine_commitPart hash hn h.genuine handed, fun k hk => ?_, fun k hk => ?_⟩ <;>
    obtain ⟨n', he, hb, ho⟩ := Trie.commitPart_spec (T := T) (c := c) (r := r) hash hn handed
  · have hold := h.held k hk
    rw [he]
    unfold NodeStore.get readThrough at hold ⊢
    rcases hb k with hb | hb <;> rw [hb]
    · rfl
    · exact hold
  · rw [he] at hk
    exact h.kept k (ho k hk)

/-! ## The write of the buffer -/

/-- What the write does: the buffered nodes land, all of them or some, and the buffer is emptied or kept. -/
theorem NodeStore.writePendingNodes_cases (n : NodeStore K V) (hash : K → Option V) (f : PutFault K) :
    (∃ n', n.writePendingNodes hash f = (n', land (fun _ => true) n.pipelineBuffer hash, true) ∧
      n'.pipelineBuffer = [] ∧ n'.orphanBuffer = n.orphanBuffer) ∨
    ∃ landed, n.writePendingNodes hash f = (n, land landed n.pipelineBuffer hash, false) := by
  unfold writePendingNodes
  by_cases he : n.pipelineBuffer.isEmpty
  · left
    have hnil : n.pipelineBuffer = [] := isEmpty_iff.1 he
    refine ⟨n, ?_, hnil, rfl⟩
    rw [if_pos he, hnil]
    congr
  rw [if_neg he]
  cases f with
  | ok => exact .inl ⟨_, rfl, rfl, rfl⟩
  | failed landed => exact .inr ⟨_, rfl⟩

section
variable (h : Carries T n hash c)
include h

theorem Carries.write (f : PutFault K) :
    Carries T (n.writePendingNodes hash f).1 (n.writePendingNodes hash f).2.1 c := by
  rcases n.writePendingNodes_cases hash f with ⟨n', he, hbuf, horph⟩ | ⟨landed, he⟩ <;> rw [he]
  · refine ⟨by simp [hbuf, Genuine], ?_, by rw [horph]; exact h.kept⟩
    have hl : Holds T.content (land (fun _ => true) n.pipelineBuffer hash) (T.nodes c) := Holds.of_landed h.held
    intro k hk
    simpa [NodeStore.get, readThrough, hbuf] using hl k hk
  · exact ⟨h.genuine, h.held.readThrough_land h.genuine landed, h.kept⟩

theorem Carries.beginPipeline : Carries T n.beginPipeline hash c :=
  { h with }

theorem Carries.flushPipeline (f : PutFault K) :
    Carries T (n.flushPipeline hash f).1 (n.flushPipeline hash f).2.1 c :=
  Carries.write (n := { n with pipelineEnabled := false }) { h with } f

theorem Carries.holds (hb : n.pipelineBuffer = []) : Holds T.content hash (T.nodes c) := by
  intro k hk
  simpa [NodeStore.get, readThrough, hb] using h.held k hk
end

end

/-! ## A trie that meets the contract -/

/-- Two relays, `true` and `false`. A root spells out which of them it has and is the key of its own node;
each relay has a leaf node. -/
def pairTrie : Trie Bytes Bytes Bool where
  nodes r :=
    (if r.getD 0 0 = 1 ∨ r.getD 1 0 = 1 then [r] else []) ++
      (if r.getD 0 0 = 1 then [[0]] else []) ++ (if r.getD 1 0 = 1 then [[1]] else [])
  content := id
  empty := List.replicate 48 0
  insert r l := (if l then 1 else r.getD 0 0) :: (if l then r.getD 1 0 else 1) :: List.replicate 46 0
  contains r l := if l then r.getD 0 0 == 1 else r.getD 1 0 == 1
  nodes_empty := by decide
  length_empty := rfl
  length_insert _ _ := rfl
  contains_insert r l l' := by cases l <;> cases l' <;> simp

end RelayMiner.Smst
