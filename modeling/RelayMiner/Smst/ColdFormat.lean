import RelayMiner.Lib.Slices
import RelayMiner.Smst.ColdLeaves
/-!
# The leaves blob, bounds and all

`decodeColdLeaves` and `coldRebuildEstimate` on arbitrary bytes, with what a
header can do to them: every slice expression is checked, the leaves' slice is
allocated for the count of the header, lengths are 64-bit integers and the
estimate a 64-bit word. Where the allocation succeeds the reader is the one of
`RelayMiner.Smst.ColdLeaves`.
-/
open RelayMiner.Lib RelayMiner.Session

namespace RelayMiner.Smst.ColdFormat

open List

/-- The bytes of a `coldLeaf`: two slices and a word. -/
def coldLeafSize : Nat := 24 + 24 + 8

/-- The largest allocation the runtime takes for possible. -/
def maxAlloc : Nat := 2 ^ 48

variable (C : Codec)

/-- The loop over the frame, from `pos` on. A loop that does not end runs out of `fuel`. -/
def decodeLoop (raw : Bytes) : Nat → Int → List ColdLeaf → Option (Except ColdError (List ColdLeaf))
  | 0, pos, leaves => if pos < raw.length then none else some (.ok leaves)
  | fuel + 1, pos, leaves =>
    if pos < raw.length then do
      let rest ← slice raw pos raw.length
      match readUvarint 0 rest with
      | none => some (.error (.badValueLength leaves.length))
      | some (n, after) =>
        let pos := pos + (rest.length - after.length)
        let stop := int64 (pos + coldLeafPathLen + 8 + int64 n)
        if raw.length < n ∨ raw.length < stop then some (.error (.truncated leaves.length))
        else
          let path ← slice raw pos (pos + coldLeafPathLen)
          let weight ← slice raw (pos + coldLeafPathLen) (pos + coldLeafPathLen + 8)
          let value ← slice raw (pos + coldLeafPathLen + 8) stop
          decodeLoop raw fuel stop (leaves ++ [⟨path, value, readBigEndian weight⟩])
    else some (.ok leaves)

/-- `none` is a panic; `available` is what the runtime can allocate. -/
def decodeColdLeaves (available : Nat) (blob : Bytes) : Option (Except ColdError (Bytes × List ColdLeaf)) :=
  if blob.length < coldLeavesHeaderLen then some (.error (.shorterThanHeader blob.length))
  else do
    let version ← blob[0]?
    if version ≠ coldLeavesVersion then some (.error (.unknownVersion version))
    else
      let codec ← blob[1]?
      if codec ≠ coldLeavesCodecZstd then some (.error (.unknownCodec codec))
      else
        let count := readBigEndian (← slice blob 2 10)
        let sum := readBigEndian (← slice blob 10 18)
        let root ← slice blob 18 coldLeavesHeaderLen
        if C.count root ≠ count then some (.error (.headerCount count (C.count root)))
        else if C.sum root ≠ sum then some (.error (.headerSum sum (C.sum root)))
        else
          match C.decompress (← slice blob coldLeavesHeaderLen blob.length) with
          | none => some (.error .decompress)
          | some raw =>
            if available < coldLeafSize * count then none
            else
              match ← decodeLoop raw raw.length 0 [] with
              | .error e => some (.error e)
              | .ok leaves =>
                if leaves.length ≠ count then some (.error (.leafCount leaves.length count))
                else some (.ok (root, leaves))

def rebuildLeafOverheadBytes : UInt64 := 1024

def coldRebuildEstimate (contentSize : Bytes → Option UInt64) : Option Bytes → Option (Option UInt64)
  | none => some none
  | some head =>
    if head.length < coldLeavesHeaderLen then some (some 0)
    else do
      let count := readBigEndian (← slice head 2 10)
      let decoded := (contentSize (← slice head coldLeavesHeaderLen head.length)).getD 0
      some (some (2 * decoded + UInt64.ofNat count * rebuildLeafOverheadBytes))

/-! ## The reader stays in bounds -/

def headerCount (blob : Bytes) : Nat := readBigEndian ((blob.drop 2).take 8)

variable {raw : Bytes}

section
variable (hraw : raw.length ≤ coldDecodedMaxBytes)
include hraw

/-- The end of a leaf at `pos` with a value that is no longer than the frame. -/
theorem stop_eq {pos n : Nat} (hpos : pos ≤ raw.length)
    (hn : n ≤ raw.length) : int64 (pos + coldLeafPathLen + 8 + int64 n) = (pos + (coldLeafPathLen + 8 + n) : Nat) := by
  unfold coldDecodedMaxBytes at hraw
  unfold coldLeafPathLen
  rw [int64_eq (n := n) ⟨by omega, by omega⟩, int64_eq ⟨by omega, by omega⟩]
  omega

theorem truncated_iff {pos : Nat} (hpos : pos ≤ raw.length) (n : Nat) :
    (raw.length < n ∨ raw.length < int64 (pos + coldLeafPathLen + 8 + int64 n)) ↔
      (raw.drop pos).length < coldLeafPathLen + 8 + n := by
  rw [length_drop]
  by_cases hn : raw.length < n
  · omega
  · rw [stop_eq hraw hpos (by omega)]
    omega

theorem decodeLoop_eq {fuel p : Nat} (hpos : p ≤ raw.length)
    (hfuel : raw.length - p ≤ fuel) (leaves : List ColdLeaf) :
    decodeLoop raw fuel p leaves =
      some (match decodeFrame fuel leaves.length (raw.drop p) with
        | .error e => .error e
        | .ok more => .ok (leaves ++ more)) := by
  induction fuel generalizing p leaves with
  | zero =>
    have hend : p = raw.length := by omega
    simp [decodeLoop, decodeFrame, hend]
  | succ fuel ih =>
    by_cases hlt : p < raw.length
    · have hne : raw.drop p ≠ [] := by simpa using hlt
      rw [decodeLoop, if_pos (by omega), slice_from rfl hpos, decodeFrame]
      simp only [Option.bind_eq_bind, Option.bind_some]
      cases hread : readUvarint 0 (raw.drop p) with
      | none => rfl
      | some p =>
        obtain ⟨n, after⟩ := p
        obtain ⟨pre, hpre, hsplit⟩ := readUvarint_suffix hread
        -- The length was `pre`; the leaf starts behind it.
        have hlen : (raw.drop p).length = pre.length + after.length := by rw [hsplit, length_append]
        have hle : p + pre.length ≤ raw.length := by
          rw [length_drop] at hlen
          omega
        have hafter : raw.drop (p + pre.length) = after := by
          rw [← drop_drop, hsplit, drop_left]
        have hat : (p : Int) + ((raw.drop p).length - after.length) = (p + pre.length : Nat) := by
          omega
        have htrunc := truncated_iff hraw hle n
        dsimp only
        rw [hat]
        by_cases hshort : after.length < coldLeafPathLen + 8 + n
        · rw [if_pos (htrunc.2 (hafter ▸ hshort)), if_pos hshort]
        have hwhole := mt htrunc.1 (hafter ▸ hshort)
        rw [if_neg hwhole, if_neg hshort, stop_eq hraw hle (Nat.le_of_not_lt fun hn => hwhole (.inl hn))]
        have hroom : p + pre.length + (coldLeafPathLen + 8 + n) ≤ raw.length := by
          rw [← hafter, length_drop] at hshort
          omega
        have hdrop : ∀ m, raw.drop (p + pre.length + m) = after.drop m := fun m => by rw [← drop_drop, hafter]
        rw [slice_eq (n := coldLeafPathLen) rfl (by omega) (by omega),
          slice_eq (m := p + pre.length + coldLeafPathLen) (n := 8) (by omega) (by omega) (by omega),
          slice_eq (m := p + pre.length + (coldLeafPathLen + 8)) (n := n) (by omega) (by omega) (by omega)]
        have hless : raw.length - (p + pre.length + (coldLeafPathLen + 8 + n)) ≤ fuel := by
          clear hwhole htrunc hraw ih
          omega
        simp only [Option.bind_some]
        rw [ih hroom hless, length_append, length_singleton, hdrop, hdrop, hdrop, hafter]
        cases decodeFrame fuel (leaves.length + 1) (after.drop (coldLeafPathLen + 8 + n)) with
        | error e => rfl
        | ok more => simp
      exact hne
    · have hend : p = raw.length := by omega
      simp [decodeLoop, decodeFrame, hend]
end

variable {C}

/-- The reader gets as far as the allocation: the header agrees with its root, and the frame decompresses. -/
structure Accepted (C : Codec) (blob : Bytes) : Prop where
  length : ¬ blob.length < coldLeavesHeaderLen
  version : blob.getD 0 0 = coldLeavesVersion
  codec : blob.getD 1 0 = coldLeavesCodecZstd
  count : C.count ((blob.drop 18).take smstRootLen) = headerCount blob
  sum : C.sum ((blob.drop 18).take smstRootLen) = readBigEndian ((blob.drop 10).take 8)
  frame : (C.decompress (blob.drop coldLeavesHeaderLen)).isSome = true

/-- Where the leaves' slice cannot be allocated the reader panics; elsewhere it is the one of the format. -/
theorem decodeColdLeaves_eq (hbound : ∀ b raw, C.decompress b = some raw → raw.length ≤ coldDecodedMaxBytes)
    (available : Nat) (blob : Bytes) :
    (Accepted C blob ∧ available < coldLeafSize * headerCount blob ∧ decodeColdLeaves C available blob = none) ∨
      ((Accepted C blob → coldLeafSize * headerCount blob ≤ available) ∧
        decodeColdLeaves C available blob = some (Smst.decodeColdLeaves C blob)) := by
  rw [decodeColdLeaves, Smst.decodeColdLeaves]
  by_cases hlen : blob.length < coldLeavesHeaderLen
  · exact .inr ⟨fun h => absurd hlen h.length, by simp only [if_pos hlen]⟩
  have hlong : 66 ≤ blob.length := Nat.le_of_not_lt hlen
  have hget : ∀ i : Nat, i < 66 → blob[i]? = some (blob.getD i 0) := fun i hi => by
    rw [getD_eq_getElem?_getD, List.getElem?_eq_getElem (by omega)]
    rfl
  have hc : slice blob 2 10 = some ((blob.drop 2).take 8) := slice_eq (m := 2) (n := 8) rfl rfl (by omega)
  have hs : slice blob 10 18 = some ((blob.drop 10).take 8) := slice_eq (m := 10) (n := 8) rfl rfl (by omega)
  have hr : slice blob 18 coldLeavesHeaderLen = some ((blob.drop 18).take smstRootLen) :=
    slice_eq (m := 18) (n := smstRootLen) rfl rfl hlong
  have hz : slice blob coldLeavesHeaderLen blob.length = some (blob.drop coldLeavesHeaderLen) := slice_from rfl hlong
  simp only [if_neg hlen, hget 0 (by decide), hget 1 (by decide), hc, hs, hr, hz, Option.bind_eq_bind, Option.bind_some]
  split
  next hv => exact .inr ⟨fun h => absurd h.version hv, rfl⟩
  next hv =>
  split
  next hcodec => exact .inr ⟨fun h => absurd h.codec hcodec, rfl⟩
  next hcodec =>
  split
  next hcount => exact .inr ⟨fun h => absurd h.count hcount, rfl⟩
  next hcount =>
  split
  next hsum => exact .inr ⟨fun h => absurd h.sum hsum, rfl⟩
  next hsum =>
  cases hd : C.decompress (blob.drop coldLeavesHeaderLen) with
  | none => exact .inr ⟨fun h => by simpa [hd] using h.frame, rfl⟩
  | some raw =>
    have hacc : Accepted C blob :=
      ⟨hlen, not_not.1 hv, not_not.1 hcodec, not_not.1 hcount, not_not.1 hsum, by rw [hd]; rfl⟩
    by_cases hroom : available < coldLeafSize * readBigEndian ((blob.drop 2).take 8)
    · exact .inl ⟨hacc, hroom, by simp only [if_pos hroom]⟩
    refine .inr ⟨fun _ => Nat.le_of_not_lt hroom, ?_⟩
    have hloop : decodeLoop raw raw.length 0 [] = _ :=
      decodeLoop_eq (p := 0) (hbound _ raw hd) (Nat.zero_le _) (Nat.sub_le _ _) []
    rw [length_nil, drop_zero] at hloop
    simp only [if_neg hroom, hloop, Option.bind_some]
    cases decodeFrame raw.length 0 raw with
    | error e => rfl
    | ok leaves =>
      dsimp only
      rw [nil_append]
      split <;> rfl

/-- A blob that is read was accepted, and holds as many leaves as its header says. -/
theorem accepted_of_decode {blob root : Bytes} {leaves : List ColdLeaf}
    (h : Smst.decodeColdLeaves C blob = .ok (root, leaves)) :
    Accepted C blob ∧ leaves.length = headerCount blob := by
  unfold Smst.decodeColdLeaves at h
  dsimp only at h
  split_ifs at h with hlen hv hcodec hcount hsum
  split at h
  · cases h
  next raw hd =>
  split at h
  · cases h
  split_ifs at h with hheld
  cases h
  exact ⟨⟨hlen, not_not.1 hv, not_not.1 hcodec, not_not.1 hcount, not_not.1 hsum, by rw [hd]; rfl⟩, not_not.1 hheld⟩

/-- A blob is read where the slice for its leaves can be allocated, and only there. -/
theorem decodeColdLeaves_returns (hbound : ∀ b raw, C.decompress b = some raw → raw.length ≤ coldDecodedMaxBytes)
    (available : Nat) (blob : Bytes) :
    (∃ r, decodeColdLeaves C available blob = some r) ↔
      (Accepted C blob → coldLeafSize * headerCount blob ≤ available) := by
  rcases decodeColdLeaves_eq hbound available blob with ⟨hacc, hlt, hnone⟩ | ⟨hroom, hsome⟩
  · simp only [hnone, reduceCtorEq, exists_false, false_iff]
    exact fun h => absurd (h hacc) (Nat.not_le_of_lt hlt)
  · exact ⟨fun _ => hroom, fun _ => ⟨_, hsome⟩⟩

/-- The leaves of a tree, in any order, and its root. -/
structure TreeLeaves (C : Codec) (root : Bytes) (leaves : List ColdLeaf) : Prop where
  length : root.length = smstRootLen
  fits : ∀ l ∈ leaves, l.Fits
  count : C.count root = leaves.length
  rebuild : ∀ read, read.Perm leaves → C.rebuild read = some root

/-- What is written for a tree is read back as its leaves where the decoder has room for them, and only there. -/
theorem round_trip (hbound : ∀ b raw, C.decompress b = some raw → raw.length ≤ coldDecodedMaxBytes)
    (hover : ∀ raw, coldDecodedMaxBytes < raw.length → C.decompress (C.compress raw) = none) (available : Nat)
    {root : Bytes} {leaves : List ColdLeaf} (ht : TreeLeaves C root leaves) :
    (∃ blob read, encodeColdLeaves C root leaves = .ok blob ∧
      decodeColdLeaves C available blob = some (.ok (root, read)) ∧ read.Perm leaves ∧ C.rebuild read = some root) ↔
      (leaves.flatMap ColdLeaf.bytes).length ≤ coldDecodedMaxBytes ∧ coldLeafSize * leaves.length ≤ available := by
  obtain ⟨blob, henc, hdec⟩ := decodeColdLeaves_encode (C := C) leaves ht.length
  have hperm : (leaves.insertionSort byPath).Perm leaves := perm_insertionSort byPath leaves
  have hframe := decodeFrame_sorted ht.fits _ rfl
  rw [← (hperm.flatMap_right ColdLeaf.bytes).length_eq]
  generalize hraw : (leaves.insertionSort byPath).flatMap ColdLeaf.bytes = raw at *
  constructor
  · rintro ⟨blob', read, henc', hread, -, -⟩
    obtain rfl : blob = blob' := Except.ok.inj (henc.symm.trans henc')
    rcases decodeColdLeaves_eq hbound available blob with ⟨-, -, hnone⟩ | ⟨hroom, hsome⟩
    · cases hnone.symm.trans hread
    have hok : Smst.decodeColdLeaves C blob = .ok (root, read) := Option.some.inj (hsome.symm.trans hread)
    have hsize : raw.length ≤ coldDecodedMaxBytes := by
      by_contra hbig
      rw [hdec, hover raw (Nat.lt_of_not_le hbig)] at hok
      cases hok
    rw [C.decompress_compress raw hsize] at hdec
    simp only [hframe, hperm.length_eq, ht.count, ne_eq, not_true_eq_false, if_false] at hdec
    obtain ⟨hacc, hcount⟩ := accepted_of_decode hdec
    rw [← hperm.length_eq, hcount]
    exact ⟨hsize, hroom hacc⟩
  · rintro ⟨hsize, hroom⟩
    rw [C.decompress_compress raw hsize] at hdec
    simp only [hframe, hperm.length_eq, ht.count, ne_eq, not_true_eq_false, if_false] at hdec
    refine ⟨blob, _, henc, ?_, hperm, ht.rebuild _ hperm⟩
    rcases decodeColdLeaves_eq hbound available blob with ⟨-, hlt, -⟩ | ⟨-, hsome⟩
    · rw [← (accepted_of_decode hdec).2, hperm.length_eq] at hlt
      omega
    · rw [hsome, hdec]

variable (contentSize : Bytes → Option UInt64)

theorem coldRebuildEstimate_eq {head : Bytes}
    (hlong : ¬ head.length < coldLeavesHeaderLen) :
    coldRebuildEstimate contentSize (some head) =
      some (some (2 * (contentSize (head.drop coldLeavesHeaderLen)).getD 0 +
        UInt64.ofNat (headerCount head) * rebuildLeafOverheadBytes)) := by
  have hlong' : 66 ≤ head.length := Nat.le_of_not_lt hlong
  have hc : slice head 2 10 = some ((head.drop 2).take 8) := slice_eq (m := 2) (n := 8) rfl rfl (by omega)
  have hz : slice head coldLeavesHeaderLen head.length = some (head.drop coldLeavesHeaderLen) := slice_from rfl hlong'
  simp only [coldRebuildEstimate, if_neg hlong, hc, hz, Option.bind_eq_bind, Option.bind_some]
  rfl

def impliedBytes (contentSize : Bytes → Option UInt64) (head : Bytes) : Nat :=
  if head.length < coldLeavesHeaderLen then 0
  else 2 * ((contentSize (head.drop coldLeavesHeaderLen)).getD 0).toNat + headerCount head * 1024

/-- The estimate is the implied amount as a 64-bit word. -/
theorem estimate_toNat (head : Bytes) :
    ∃ e, coldRebuildEstimate contentSize (some head) = some (some e) ∧
      e.toNat = impliedBytes contentSize head % 2 ^ 64 := by
  by_cases hshort : head.length < coldLeavesHeaderLen
  · exact ⟨0, by simp [coldRebuildEstimate, hshort], by simp [impliedBytes, hshort]⟩
  · refine ⟨_, coldRebuildEstimate_eq contentSize hshort, ?_⟩
    simp [impliedBytes, hshort, rebuildLeafOverheadBytes, UInt64.toNat_add, UInt64.toNat_mul]

/-- The leaves of a tree are read back as they were written, in some order, and rebuild its root, if and only if their
frame is one the decoder takes and their slice can be allocated. A blob is read without a panic if and only if the slice
for the count of an accepted header can be allocated. The estimate does not panic, and is no less than the amount the
header implies if and only if that is a 64-bit word. -/
theorem cold_leaves_lossless_and_total (contentSize : Bytes → Option UInt64) (available : Nat)
    (hbound : ∀ b raw, C.decompress b = some raw → raw.length ≤ coldDecodedMaxBytes)
    (hover : ∀ raw, coldDecodedMaxBytes < raw.length → C.decompress (C.compress raw) = none) :
    (∀ root leaves, TreeLeaves C root leaves →
      ((∃ blob read, encodeColdLeaves C root leaves = .ok blob ∧
        decodeColdLeaves C available blob = some (.ok (root, read)) ∧ read.Perm leaves ∧ C.rebuild read = some root) ↔
        (leaves.flatMap ColdLeaf.bytes).length ≤ coldDecodedMaxBytes ∧ coldLeafSize * leaves.length ≤ available)) ∧
      (∀ blob, (∃ r, decodeColdLeaves C available blob = some r) ↔
        (Accepted C blob → coldLeafSize * headerCount blob ≤ available)) ∧
      coldRebuildEstimate contentSize none = some none ∧
      ∀ head, ∃ e, coldRebuildEstimate contentSize (some head) = some (some e) ∧
        (impliedBytes contentSize head ≤ e.toNat ↔ impliedBytes contentSize head < 2 ^ 64) := by
  refine ⟨fun root leaves ht => round_trip hbound hover available ht, decodeColdLeaves_returns hbound available, rfl,
    fun head => ?_⟩
  obtain ⟨e, he, hnat⟩ := estimate_toNat contentSize head
  refine ⟨e, he, ?_⟩
  rw [hnat]
  exact ⟨fun h => h.trans_lt (Nat.mod_lt _ (by decide)), fun h => (Nat.mod_eq_of_lt h).ge⟩

def plain : Codec where
  compress raw := raw
  decompress b := if b.length ≤ coldDecodedMaxBytes then some b else none
  count root := readBigEndian ((root.drop 40).take 8)
  sum root := readBigEndian ((root.drop 32).take 8)
  rebuild leaves := some (List.replicate 40 0 ++ bigEndian 8 leaves.length)
  decompress_compress raw h := if_pos h
  count_lt root := (readBigEndian_lt _).trans_le (Nat.pow_le_pow_right (by decide) (by simp) : 256 ^ _ ≤ 256 ^ 8)
  sum_lt root := (readBigEndian_lt _).trans_le (Nat.pow_le_pow_right (by decide) (by simp) : 256 ^ _ ≤ 256 ^ 8)

def rootOf (n : Nat) : Bytes := List.replicate 40 0 ++ bigEndian 8 n

def header (n : Nat) : Bytes :=
  [coldLeavesVersion, coldLeavesCodecZstd] ++ bigEndian 8 n ++ bigEndian 8 0 ++ rootOf n

def noContentSize (_ : Bytes) : Option UInt64 := none

/-- A leaf is read back; a header for 2^63 leaves of a version that is not read is an error, not a panic. -/
theorem cold_leaves_lossless_and_total_plain :
    (∃ blob read, encodeColdLeaves plain (rootOf 1) [⟨List.replicate 32 7, [1, 2, 3], 5⟩] = .ok blob ∧
      decodeColdLeaves plain maxAlloc blob = some (.ok (rootOf 1, read)) ∧
      read.Perm [⟨List.replicate 32 7, [1, 2, 3], 5⟩] ∧ plain.rebuild read = some (rootOf 1)) ∧
    (∃ r, decodeColdLeaves plain maxAlloc (2 :: (header (2 ^ 63)).tail) = some r) ∧
    ∃ e, coldRebuildEstimate noContentSize (some (header 3)) = some (some e) ∧
      impliedBytes noContentSize (header 3) ≤ e.toNat := by
  have hbound : ∀ b raw, plain.decompress b = some raw → raw.length ≤ coldDecodedMaxBytes := by
    intro b raw h
    obtain ⟨hle, heq⟩ := Option.ite_none_right_eq_some.1 h
    rwa [← Option.some.inj heq]
  obtain ⟨hround, htotal, -, hestimate⟩ := cold_leaves_lossless_and_total noContentSize maxAlloc hbound
    fun raw h => if_neg (Nat.not_le_of_lt h)
  refine ⟨(hround _ _ ⟨by decide, ?_, by decide, fun read h => ?_⟩).2 (by decide), (htotal _).2 fun h => ?_, ?_⟩
  · intro l hl
    obtain rfl := mem_singleton.1 hl
    exact ⟨by decide, by decide, by decide⟩
  · simp only [plain, h.length_eq]
    rfl
  · exact absurd h.version (by decide)
  obtain ⟨e, he, hle⟩ := hestimate (header 3)
  exact ⟨e, he, hle.2 (by decide)⟩

/-- A header with its root for 2^63 leaves is allocated for before a leaf is read. A header for 2^54 leaves is estimated
to take nothing. -/
theorem cold_leaves_partial :
    decodeColdLeaves plain maxAlloc (header (2 ^ 63)) = none ∧
    coldRebuildEstimate noContentSize (some (header (2 ^ 54))) = some (some 0) ∧
    impliedBytes noContentSize (header (2 ^ 54)) = 2 ^ 64 := by
  exact ⟨by decide, by decide, by decide⟩

end RelayMiner.Smst.ColdFormat
