import RelayMiner.Lib.Wire
import RelayMiner.Session.State
/-!
# The leaves blob

A claimed tree is stored as its leaves: a header with the root and its counts,
then one zstd frame of the leaves sorted by path. What is written here is read
back whole, and a blob is trusted only if it names the claimed root and its
leaves rebuild it (`verifyColdBlob`).

zstd and the smt library are not part of the repository; `Codec` is what the
miner relies on.
-/
open RelayMiner.Lib RelayMiner.Session

namespace RelayMiner.Smst

open List

structure ColdLeaf where
  path : Bytes
  value : Bytes
  weight : Nat
  deriving DecidableEq

def coldLeavesVersion : UInt8 := 1

def coldLeavesCodecZstd : UInt8 := 1

def coldLeavesHeaderLen : Nat := 2 + 8 + 8 + smstRootLen

def coldLeafPathLen : Nat := 32

def coldLeafMetaLen : Nat := 16

def coldDecodedMaxBytes : Nat := 2 ^ 30

structure Codec where
  compress : Bytes → Bytes
  decompress : Bytes → Option Bytes
  count : Bytes → Nat
  sum : Bytes → Nat
  /-- The root of the trie the leaves are inserted into, unless the library fails. -/
  rebuild : List ColdLeaf → Option Bytes
  decompress_compress : ∀ raw, raw.length ≤ coldDecodedMaxBytes → decompress (compress raw) = some raw
  count_lt : ∀ r, count r < 2 ^ 64
  sum_lt : ∀ r, sum r < 2 ^ 64

inductive ColdError where
  | rootLength (len : Nat)
  | shorterThanHeader (len : Nat)
  | unknownVersion (v : UInt8)
  | unknownCodec (c : UInt8)
  | headerCount (header root : Nat)
  | headerSum (header root : Nat)
  | decompress
  | badValueLength (leaf : Nat)
  | truncated (leaf : Nat)
  | leafCount (held header : Nat)
  | leafNodeBytes (field : Bytes) (len : Nat)
  | leafNodeCount (field : Bytes) (count : Nat)
  | rebuild
  | rootMismatch (found claimed : Bytes)
  deriving DecidableEq

variable (C : Codec) {leaves : List ColdLeaf}

/-! ## Writing -/

def ColdLeaf.bytes (l : ColdLeaf) : Bytes :=
  uvarint 10 l.value.length ++ (l.path ++ (bigEndian 8 l.weight ++ l.value))

def byPath (l l' : ColdLeaf) : Prop := l.path ≤ l'.path

instance : DecidableRel byPath := fun l l' => inferInstanceAs (Decidable (l.path ≤ l'.path))

def encodeColdLeaves (root : Bytes) (leaves : List ColdLeaf) : Except ColdError Bytes :=
  if root.length ≠ smstRootLen then .error (.rootLength root.length)
  else .ok ([coldLeavesVersion, coldLeavesCodecZstd] ++ bigEndian 8 (C.count root) ++ bigEndian 8 (C.sum root) ++ root ++
    C.compress ((leaves.insertionSort byPath).flatMap ColdLeaf.bytes))

/-! ## Reading -/

def decodeFrame : Nat → Nat → Bytes → Except ColdError (List ColdLeaf)
  | _, _, [] => .ok []
  | 0, i, _ => .error (.truncated i)
  | k + 1, i, raw =>
    match readUvarint 0 raw with
    | none => .error (.badValueLength i)
    | some (n, rest) =>
      if rest.length < coldLeafPathLen + 8 + n then .error (.truncated i)
      else
        match decodeFrame k (i + 1) (rest.drop (coldLeafPathLen + 8 + n)) with
        | .error e => .error e
        | .ok leaves => .ok (⟨rest.take coldLeafPathLen, (rest.drop (coldLeafPathLen + 8)).take n,
            readBigEndian ((rest.drop coldLeafPathLen).take 8)⟩ :: leaves)

def decodeColdLeaves (blob : Bytes) : Except ColdError (Bytes × List ColdLeaf) :=
  let count := readBigEndian ((blob.drop 2).take 8)
  let sum := readBigEndian ((blob.drop 10).take 8)
  let root := (blob.drop 18).take smstRootLen
  if blob.length < coldLeavesHeaderLen then .error (.shorterThanHeader blob.length)
  else if blob.getD 0 0 ≠ coldLeavesVersion then .error (.unknownVersion (blob.getD 0 0))
  else if blob.getD 1 0 ≠ coldLeavesCodecZstd then .error (.unknownCodec (blob.getD 1 0))
  else if C.count root ≠ count then .error (.headerCount count (C.count root))
  else if C.sum root ≠ sum then .error (.headerSum sum (C.sum root))
  else
    match C.decompress (blob.drop coldLeavesHeaderLen) with
    | none => .error .decompress
    | some raw =>
      match decodeFrame raw.length 0 raw with
      | .error e => .error e
      | .ok leaves =>
        if leaves.length ≠ count then .error (.leafCount leaves.length count) else .ok (root, leaves)

/-- Nothing is wrong only when both the blob's own root and the rebuilt one are the claimed root. -/
def verifyColdBlob (blob claimedRoot : Bytes) : Except ColdError Unit :=
  match decodeColdLeaves C blob with
  | .error e => .error e
  | .ok (blobRoot, leaves) =>
    if blobRoot ≠ claimedRoot then .error (.rootMismatch blobRoot claimedRoot)
    else
      match C.rebuild leaves with
      | none => .error .rebuild
      | some rebuilt => if rebuilt ≠ claimedRoot then .error (.rootMismatch rebuilt claimedRoot) else .ok ()

def readLeaf (field node : Bytes) : Except ColdError (Option ColdLeaf) :=
  let valueEnd := node.length - coldLeafMetaLen
  if node.length = 0 ∨ node.getD 0 0 ≠ 0 then .ok none
  else if node.length < 1 + coldLeafPathLen + coldLeafMetaLen then .error (.leafNodeBytes field node.length)
  else if readBigEndian (node.drop (node.length - 8)) ≠ 1 then
    .error (.leafNodeCount field (readBigEndian (node.drop (node.length - 8))))
  else .ok (some ⟨(node.drop 1).take coldLeafPathLen, (node.take valueEnd).drop (1 + coldLeafPathLen),
    readBigEndian ((node.drop valueEnd).take 8)⟩)

/-! ## What is written is read -/

structure ColdLeaf.Fits (l : ColdLeaf) : Prop where
  path : l.path.length = coldLeafPathLen
  value : l.value.length < 2 ^ 64
  weight : l.weight < 2 ^ 64

theorem readUvarint_valueLength {n : Nat} (h : n < 2 ^ 64) (rest : Bytes) :
    readUvarint 0 (uvarint 10 n ++ rest) = some (n, rest) :=
  readUvarint_uvarint (k := 9) (by decide) h rest

/-- One turn of the reader over a leaf and what follows it. -/
theorem decodeFrame_bytes {l : ColdLeaf} (hl : l.Fits) (k i : Nat) (rest : Bytes) :
    decodeFrame (k + 1) i (l.bytes ++ rest) =
      match decodeFrame k (i + 1) rest with
      | .error e => .error e
      | .ok leaves => .ok (l :: leaves) := by
  have hbody : (l.path ++ (bigEndian 8 l.weight ++ l.value)).length = coldLeafPathLen + 8 + l.value.length := by
    simp [hl.path]
    omega
  have hread : readUvarint 0 (l.bytes ++ rest) =
      some (l.value.length, l.path ++ (bigEndian 8 l.weight ++ l.value) ++ rest) := by
    rw [ColdLeaf.bytes, append_assoc]
    exact readUvarint_valueLength hl.value _
  have hdrop : (l.path ++ (bigEndian 8 l.weight ++ l.value) ++ rest).drop (coldLeafPathLen + 8 + l.value.length) = rest :=
    drop_left' hbody
  have hpath : (l.path ++ (bigEndian 8 l.weight ++ l.value) ++ rest).take coldLeafPathLen = l.path := by
    rw [append_assoc]
    exact take_left' hl.path
  have hvalue : ((l.path ++ (bigEndian 8 l.weight ++ l.value) ++ rest).drop (coldLeafPathLen + 8)).take l.value.length =
      l.value := by
    rw [show l.path ++ (bigEndian 8 l.weight ++ l.value) ++ rest =
        (l.path ++ bigEndian 8 l.weight) ++ (l.value ++ rest) by simp,
      drop_left' (by simp [hl.path]), take_left' rfl]
  have hweight : readBigEndian (((l.path ++ (bigEndian 8 l.weight ++ l.value) ++ rest).drop coldLeafPathLen).take 8) =
      l.weight := by
    rw [append_assoc, drop_left' hl.path, append_assoc, take_left' (by simp)]
    exact readBigEndian_bigEndian hl.weight
  have hne : l.bytes ++ rest ≠ [] := by
    intro h
    rw [h] at hread
    cases hread
  rw [decodeFrame]
  · simp only [hread]
    rw [if_neg (by rw [length_append, hbody]; omega), hdrop, hpath, hvalue, hweight]
  · exact hne

theorem decodeFrame_flatMap (h : ∀ l ∈ leaves, l.Fits) {k : Nat} (hk : leaves.length ≤ k) (i : Nat) :
    decodeFrame k i (leaves.flatMap ColdLeaf.bytes) = .ok leaves := by
  induction leaves generalizing k i with
  | nil => cases k <;> rfl
  | cons l leaves ih =>
    obtain ⟨k, rfl⟩ : ∃ n, k = n + 1 := ⟨k - 1, by simp at hk; omega⟩
    rw [flatMap_cons, decodeFrame_bytes (h l mem_cons_self),
      ih (fun l' hl' => h l' (mem_cons_of_mem _ hl')) (by simpa using hk)]

theorem length_le_flatMap_bytes (leaves : List ColdLeaf) :
    leaves.length ≤ (leaves.flatMap ColdLeaf.bytes).length := by
  induction leaves with
  | nil => simp
  | cons l leaves ih =>
    have hpos : 0 < l.bytes.length := by
      simp only [ColdLeaf.bytes, length_append, length_bigEndian]
      omega
    simp only [flatMap_cons, length_append, length_cons]
    omega

variable {C}

theorem take_drop_append {pre mid post : Bytes} {m n : Nat} (hm : pre.length = m) (hn : mid.length = n) :
    ((pre ++ mid ++ post).drop m).take n = mid := by
  rw [append_assoc, drop_left' hm, take_left' hn]

/-- The reader takes the header of a written blob for what it is, and goes on to its frame. -/
theorem decodeColdLeaves_encode (leaves : List ColdLeaf) {root : Bytes} (hroot : root.length = smstRootLen) :
    ∃ blob, encodeColdLeaves C root leaves = .ok blob ∧ decodeColdLeaves C blob =
      match C.decompress (C.compress ((leaves.insertionSort byPath).flatMap ColdLeaf.bytes)) with
      | none => .error .decompress
      | some raw =>
        match decodeFrame raw.length 0 raw with
        | .error e => .error e
        | .ok read =>
          if read.length ≠ C.count root then .error (.leafCount read.length (C.count root)) else .ok (root, read) := by
  refine ⟨_, by rw [encodeColdLeaves, if_neg (by simp [hroot])], ?_⟩
  generalize C.compress ((leaves.insertionSort byPath).flatMap ColdLeaf.bytes) = frame
  generalize hblob : [coldLeavesVersion, coldLeavesCodecZstd] ++ bigEndian 8 (C.count root) ++ bigEndian 8 (C.sum root) ++
    root ++ frame = blob
  have hc : readBigEndian ((blob.drop 2).take 8) = C.count root := by
    rw [← hblob, append_assoc, append_assoc, take_drop_append (m := 2) rfl (length_bigEndian 8 _)]
    exact readBigEndian_bigEndian (C.count_lt root)
  have hs : readBigEndian ((blob.drop 10).take 8) = C.sum root := by
    rw [← hblob, append_assoc, take_drop_append (by simp) (length_bigEndian 8 _)]
    exact readBigEndian_bigEndian (C.sum_lt root)
  have hr : (blob.drop 18).take smstRootLen = root := by
    rw [← hblob, take_drop_append (by simp) hroot]
  have hz : blob.drop coldLeavesHeaderLen = frame := by
    rw [← hblob]
    exact drop_left' (by simp [hroot, coldLeavesHeaderLen]; omega)
  have hlen : ¬ blob.length < coldLeavesHeaderLen := by
    rw [← hblob]
    simp [hroot, coldLeavesHeaderLen]
    omega
  have hv : blob.getD 0 0 = coldLeavesVersion := by
    rw [← hblob]
    rfl
  have hz' : blob.getD 1 0 = coldLeavesCodecZstd := by
    rw [← hblob]
    rfl
  simp only [decodeColdLeaves, hc, hs, hr, hz, hlen, hv, hz', ne_eq, not_true_eq_false, if_false]

/-- The frame of leaves is read back as those leaves, sorted. -/
theorem decodeFrame_sorted (hleaves : ∀ l ∈ leaves, l.Fits) (raw : Bytes)
    (hraw : (leaves.insertionSort byPath).flatMap ColdLeaf.bytes = raw) :
    decodeFrame raw.length 0 raw = .ok (leaves.insertionSort byPath) := by
  subst hraw
  exact decodeFrame_flatMap (fun l hl => hleaves l ((perm_insertionSort byPath leaves).mem_iff.1 hl))
    (length_le_flatMap_bytes (leaves.insertionSort byPath)) 0

def leafNode (l : ColdLeaf) : Bytes := [0] ++ l.path ++ l.value ++ bigEndian 8 l.weight ++ bigEndian 8 1

end RelayMiner.Smst
