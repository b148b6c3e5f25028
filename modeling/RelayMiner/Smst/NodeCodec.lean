import RelayMiner.Lib.Runs
import RelayMiner.Smst.ColdLeaves
/-!
# The stored form of a node

A node in the nodes hash is a raw smt node or one zstd frame of it
(`smst_node_codec.go`), and its first bytes say which: smt prefixes a node with
its kind. A hash written by an older binary has raw nodes only.

zstd is not part of the repository; `Zstd` is what the miner relies on. The limit
on what a frame may decode to is the miner's own.
-/
open RelayMiner.Lib RelayMiner.Session Function

namespace RelayMiner.Smst.NodeCodec

def zstdFrameMagic : Bytes := [0x28, 0xB5, 0x2F, 0xFD]

structure Zstd where
  encodeAll : Bytes → Bytes
  decode : Bytes → Option Bytes
  decode_encodeAll : ∀ b, decode (encodeAll b) = some b
  magic_encodeAll : ∀ b, b ≠ [] → zstdFrameMagic <+: encodeAll b

/-- `DecodeAll` of the decoder `coldCodec` builds with `WithDecoderMaxMemory`. -/
def Zstd.decodeAll (z : Zstd) (frame : Bytes) : Option Bytes :=
  (z.decode frame).filter (·.length ≤ coldDecodedMaxBytes)

inductive NodeError where
  | codec | decompress

/-- What `coldCodec` returns, `none` where it cannot be built. -/
abbrev ColdCodec := Option Zstd

def compressNode (codec : ColdCodec) (value : Bytes) : Bytes :=
  if value.length = 0 then value
  else match codec with
    | none => value
    | some z => if (z.encodeAll value).length ≥ value.length then value else z.encodeAll value

def isCompressedNode (value : Bytes) : Bool := zstdFrameMagic.isPrefixOf value

def decompressNode (codec : ColdCodec) (value : Bytes) : Except NodeError Bytes :=
  if isCompressedNode value then
    match codec with
    | none => .error .codec
    | some z => match z.decodeAll value with
      | none => .error .decompress
      | some node => .ok node
  else .ok value

/-- An encoding of the smt library: its first byte is the node's kind. -/
structure SmtNode where
  bytes : Bytes
  kind : ∃ b ∈ ([0, 1, 2] : List UInt8), bytes.head? = some b

variable {K : Type} [DecidableEq K] (codec : ColdCodec) (n : SmtNode)

/-- A write of a node, by a binary that compresses or by one before it. -/
structure Write (K : Type) where
  key : K
  node : SmtNode
  compresses : Bool

def Write.stored (w : Write K) : Bytes := if w.compresses then compressNode codec w.node.bytes else w.node.bytes

def put (hash : K → Option Bytes) (w : Write K) : K → Option Bytes := update hash w.key (some (w.stored codec))

def given (nodes : K → Option Bytes) (w : Write K) : K → Option Bytes := update nodes w.key (some w.node.bytes)

def get (hash : K → Option Bytes) (k : K) : Option (Except NodeError Bytes) := (hash k).map (decompressNode codec)

/-- A node stored raw, or of at most the bytes a frame may decode to. -/
def Restorable : Prop := compressNode codec n.bytes = n.bytes ∨ n.bytes.length ≤ coldDecodedMaxBytes

theorem not_isCompressedNode : isCompressedNode n.bytes = false := by
  obtain ⟨b, hb, hk⟩ := n.kind
  obtain ⟨rest, hn⟩ := List.head?_eq_some_iff.mp hk
  rw [hn]
  simp only [List.mem_cons, List.not_mem_nil, or_false] at hb
  rcases hb with rfl | rfl | rfl <;> rfl

theorem decompressNode_raw : decompressNode codec n.bytes = .ok n.bytes := by
  simp [decompressNode, not_isCompressedNode n]

theorem compressNode_cases :
    compressNode codec n.bytes = n.bytes ∨
      ∃ z, codec = some z ∧ compressNode codec n.bytes = z.encodeAll n.bytes ∧ n.bytes ≠ [] := by
  unfold compressNode
  split
  · exact .inl rfl
  next h0 =>
  split
  · exact .inl rfl
  next z =>
  split
  · exact .inl rfl
  · exact .inr ⟨z, rfl, rfl, fun h => h0 (by simp [h])⟩

theorem decompressNode_compressNode :
    decompressNode codec (compressNode codec n.bytes) = .ok n.bytes ↔ Restorable codec n := by
  obtain hraw | ⟨z, rfl, hz, hne⟩ := compressNode_cases codec n
  · simp [hraw, Restorable, decompressNode_raw codec n]
  have hframe : isCompressedNode (z.encodeAll n.bytes) = true := by
    simpa [isCompressedNode] using z.magic_encodeAll n.bytes hne
  have hnot : z.encodeAll n.bytes ≠ n.bytes := by
    intro h
    rw [h, not_isCompressedNode n] at hframe
    cases hframe
  rw [Restorable, hz, decompressNode, if_pos hframe]
  by_cases hfit : n.bytes.length ≤ coldDecodedMaxBytes <;>
    simp [Zstd.decodeAll, z.decode_encodeAll, Option.filter, hfit, hnot]

/-- One write keeps the hash read as the nodes that were given. -/
theorem get_put {hash nodes : K → Option Bytes} {w : Write K} (h : w.compresses = true → Restorable codec w.node)
    (hm : ∀ k, get codec hash k = (nodes k).map .ok) (k : K) :
    get codec (put codec hash w) k = (given nodes w k).map .ok := by
  have hw : decompressNode codec (w.stored codec) = .ok w.node.bytes := by
    unfold Write.stored
    split
    next hc => exact (decompressNode_compressNode codec w.node).mpr (h hc)
    · exact decompressNode_raw codec w.node
  by_cases hk : k = w.key
  · subst hk
    simp [get, put, given, hw]
  · simpa [get, put, given, hk] using hm k

theorem get_run {ws : List (Write K)} {hash nodes : K → Option Bytes}
    (h : ∀ w ∈ ws, w.compresses = true → Restorable codec w.node) (hm : ∀ k, get codec hash k = (nodes k).map .ok) :
    ∀ k, get codec (run (put codec) hash ws) k = (run given nodes ws k).map .ok := by
  induction ws generalizing hash nodes with
  | nil => exact hm
  | cons w ws ih =>
    rw [List.forall_mem_cons] at h
    exact ih h.2 (get_put codec h.1 hm)

/-- No plain node is taken for a frame; a node is restored from its stored form exactly if it is
stored raw or a frame may decode to it; and a hash with any mix of such writes reads as given. -/
theorem nodes_read_back :
    isCompressedNode n.bytes = false ∧
    (decompressNode codec (compressNode codec n.bytes) = .ok n.bytes ↔ Restorable codec n) ∧
    ∀ ws : List (Write K), (∀ w ∈ ws, w.compresses = true → Restorable codec w.node) →
      ∀ k, get codec (run (put codec) (fun _ => none) ws) k = (run given (fun _ => none) ws k).map .ok :=
  ⟨not_isCompressedNode n, decompressNode_compressNode codec n, fun _ h => get_run codec h fun _ => rfl⟩

def hugeLeaf : SmtNode := ⟨List.replicate (coldDecodedMaxBytes + 1) 0, 0, by simp, by simp [List.replicate_succ]⟩

/-- A codec with a short frame for one node, and a frame of the bytes themselves for the others. -/
def shortFrame : Zstd where
  encodeAll b := zstdFrameMagic ++ if b = hugeLeaf.bytes then [0] else 1 :: b
  decode frame := match frame.drop 4 with
    | 1 :: b => some b
    | _ => some hugeLeaf.bytes
  decode_encodeAll b := by
    by_cases h : b = hugeLeaf.bytes <;> simp [zstdFrameMagic, h]
  magic_encodeAll b _ := List.prefix_append _ _

theorem huge_leaf_not_restored :
    decompressNode (some shortFrame) (compressNode (some shortFrame) hugeLeaf.bytes) = .error .decompress := by
  have hlen : hugeLeaf.bytes.length = coldDecodedMaxBytes + 1 := List.length_replicate
  have henc : shortFrame.encodeAll hugeLeaf.bytes = zstdFrameMagic ++ [0] := by simp [shortFrame]
  have hc : compressNode (some shortFrame) hugeLeaf.bytes = zstdFrameMagic ++ [0] := by
    simp [compressNode, hlen, henc, zstdFrameMagic, coldDecodedMaxBytes]
  have hd : shortFrame.decodeAll (zstdFrameMagic ++ [0]) = none := by
    rw [← henc, Zstd.decodeAll, shortFrame.decode_encodeAll]
    simp [hlen]
  rw [hc, decompressNode, if_pos (by rfl)]
  simp only [hd]

end RelayMiner.Smst.NodeCodec
