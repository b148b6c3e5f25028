import Mathlib.Data.UInt
import RelayMiner.Lib.Runs
/-!
# The nonces of unordered transactions

The chain knows an unordered transaction by its sender and its timeout timestamp
(`tx_client.go`), so two built against one block need timestamps of their own.
`nextTxNonceOffset` draws from one counter for all senders of the process. Times
are nanoseconds.
-/
open RelayMiner.Lib

namespace RelayMiner.Tx.Nonces

def txNonceSpread : Nat := 10 * 10 ^ 6

def txTimeoutHardCeiling : Int := 600 * 10 ^ 9

def txTimeoutSafetyMargin : Int := 10 * 10 ^ 9

def defaultTxTimeoutMax : Int := txTimeoutHardCeiling - txTimeoutSafetyMargin - txNonceSpread

inductive Regime where
  | window | ceiling | unknown

/-- The product is an int64, which wraps. -/
def windowTimeout (windowBlocks blockTimeSeconds : Int) : Int × Regime :=
  if windowBlocks ≤ 0 ∨ blockTimeSeconds ≤ 0 then (defaultTxTimeoutMax, .unknown)
  else
    let window := (windowBlocks * blockTimeSeconds * 10 ^ 9).bmod (2 ^ 64)
    if window > defaultTxTimeoutMax then (defaultTxTimeoutMax, .ceiling) else (window, .window)

/-- The budget the context carries; without one, or with one that is not positive, the ceiling. -/
def effectiveTxTimeout (raw : Option Int) : Int :=
  if raw.getD 0 ≤ 0 then (windowTimeout 0 0).1 else raw.getD 0

structure Process where
  txNonceBase : UInt64
  txNonceCounter : UInt64 := 0

def nextTxNonceOffset (p : Process) : Nat × Process :=
  let counter := p.txNonceCounter + 1
  ((p.txNonceBase + counter).toNat % txNonceSpread, { p with txNonceCounter := counter })

/-- One call of `signAndEncode`, with what it meets before and after it draws its offset. -/
structure Attempt where
  /-- The key, the account and the messages. -/
  prepared : Bool
  latestBlockTime : Option Int
  /-- The window's blocks and block time, when the caller set a budget. -/
  window : Option (Int × Int)
  /-- The gas, the signature and the encoding. -/
  encoded : Bool

structure Signed where
  anchor : Int
  timeoutDuration : Int
  offset : Nat
  deriving DecidableEq

def Signed.timeoutTimestamp (x : Signed) : Int := x.anchor + x.timeoutDuration + x.offset

def signAndEncode (p : Process) (a : Attempt) : Process × Option Signed :=
  match a.prepared, a.latestBlockTime with
  | true, some anchor =>
    let timeout := effectiveTxTimeout (a.window.map fun w => (windowTimeout w.1 w.2).1)
    ((nextTxNonceOffset p).2, if a.encoded then some ⟨anchor, timeout, (nextTxNonceOffset p).1⟩ else none)
  | _, _ => (p, none)

def step (p : Process) (a : Attempt) : Process := (signAndEncode p a).1

/-- The transaction attempt `i` signs. -/
def signedAt (p : Process) (as : List Attempt) (i : Nat) : Option Signed :=
  as[i]?.bind fun a => (signAndEncode (run step p (as.take i)) a).2

def Attempt.draws (a : Attempt) : Bool := a.prepared && a.latestBlockTime.isSome

/-- The 64-bit sum the last offset was reduced from. -/
def Process.sum (p : Process) : UInt64 := p.txNonceBase + p.txNonceCounter

variable (p : Process) {a : Attempt} {as : List Attempt} {i j : Nat} {x y : Signed}

theorem windowTimeout_le (w b : Int) : (windowTimeout w b).1 ≤ defaultTxTimeoutMax := by
  simp only [windowTimeout]
  split_ifs <;> simp_all

theorem effectiveTxTimeout_le (w : Option (Int × Int)) :
    effectiveTxTimeout (w.map fun w => (windowTimeout w.1 w.2).1) ≤ defaultTxTimeoutMax := by
  unfold effectiveTxTimeout
  split
  · exact windowTimeout_le 0 0
  next h =>
  cases w with
  | none => simp at h
  | some w => exact windowTimeout_le w.1 w.2

theorem sum_step (a : Attempt) : (step p a).sum = p.sum + UInt64.ofNat (if a.draws then 1 else 0) := by
  obtain ⟨prepared, time, window, encoded⟩ := a
  cases prepared <;> cases time <;>
    simp [step, signAndEncode, Attempt.draws, nextTxNonceOffset, Process.sum, UInt64.add_assoc]

theorem sum_run (as : List Attempt) : (run step p as).sum = p.sum + UInt64.ofNat (as.countP Attempt.draws) := by
  induction as generalizing p with
  | nil => simp
  | cons a as ih =>
    rw [run_cons, ih, sum_step, List.countP_cons, Nat.add_comm, UInt64.ofNat_add, UInt64.add_assoc]

theorem signAndEncode_some (h : (signAndEncode p a).2 = some x) :
    a.draws = true ∧ x.offset = (p.sum + 1).toNat % txNonceSpread ∧ x.timeoutDuration ≤ defaultTxTimeoutMax := by
  unfold signAndEncode at h
  split at h
  next anchor hp ht =>
    split at h <;> cases h
    exact ⟨by simp [Attempt.draws, hp, ht], by simp [nextTxNonceOffset, Process.sum, UInt64.add_assoc],
      effectiveTxTimeout_le a.window⟩
  · cases h

/-- An attempt that signs draws the offset after those of the attempts before it. -/
theorem signedAt_some (h : signedAt p as i = some x) :
    (∃ a, as[i]? = some a ∧ a.draws = true) ∧
    x.offset = (p.sum + UInt64.ofNat ((as.take i).countP Attempt.draws + 1)).toNat % txNonceSpread ∧
    x.timeoutDuration ≤ defaultTxTimeoutMax := by
  obtain ⟨a, ha, hx⟩ := Option.bind_eq_some_iff.mp h
  obtain ⟨hd, ho, ht⟩ := signAndEncode_some _ hx
  refine ⟨⟨a, ha, hd⟩, ?_, ht⟩
  rw [ho, sum_run, UInt64.ofNat_add, UInt64.add_assoc]
  rfl

theorem signedAt_bounds (h : signedAt p as i = some x) :
    x.offset < txNonceSpread ∧ x.timeoutTimestamp ≤ x.anchor + txTimeoutHardCeiling := by
  obtain ⟨-, ho, ht⟩ := signedAt_some p h
  have hlt : x.offset < txNonceSpread := ho ▸ Nat.mod_lt _ (by decide)
  simp only [Signed.timeoutTimestamp, defaultTxTimeoutMax, txTimeoutSafetyMargin] at ht ⊢
  omega

/-- Of two attempts that draw, the later one has drawn more before it. -/
theorem countP_take_lt (hij : i < j) (ha : as[i]? = some a) (hd : a.draws = true) :
    (as.take i).countP Attempt.draws < (as.take j).countP Attempt.draws := by
  have htake : as.take (i + 1) = as.take i ++ [a] := by
    rw [List.take_add_one, ha]
    rfl
  have hle := ((List.take_prefix_take_left (l := as) hij).sublist).countP_le (p := Attempt.draws)
  rw [htake, List.countP_append] at hle
  simp only [List.countP_singleton, hd, if_true] at hle
  omega

variable (hw : p.sum.toNat + as.countP Attempt.draws < 2 ^ 64) (hn : as.countP Attempt.draws ≤ txNonceSpread)
include hw hn

theorem offset_ne (hij : i < j) (hx : signedAt p as i = some x) (hy : signedAt p as j = some y) :
    x.offset ≠ y.offset := by
  obtain ⟨⟨a, ha, hda⟩, hox, -⟩ := signedAt_some p hx
  obtain ⟨⟨b, hb, hdb⟩, hoy, -⟩ := signedAt_some p hy
  have hlt := countP_take_lt hij ha hda
  have hle := countP_take_lt (List.getElem?_eq_some_iff.mp hb).1 hb hdb
  rw [List.take_length] at hle
  -- Sums that do not wrap and are less than a spread apart leave different remainders.
  have hsum (k : Nat) (hk : k < as.countP Attempt.draws) :
      (p.sum + UInt64.ofNat (k + 1)).toNat = p.sum.toNat + (k + 1) := by
    rw [UInt64.toNat_add, UInt64.toNat_ofNat', Nat.mod_eq_of_lt (by omega : k + 1 < 2 ^ 64)]
    exact Nat.mod_eq_of_lt (by omega)
  rw [hox, hoy, hsum _ (by omega), hsum _ hle]
  simp only [txNonceSpread] at hn ⊢
  omega

/-- The transactions of a process that draws at most a spread of offsets, its 64-bit sum not wrapping. -/
theorem nonces_differ :
    (∀ i x, signedAt p as i = some x →
      x.offset < txNonceSpread ∧ x.timeoutTimestamp ≤ x.anchor + txTimeoutHardCeiling) ∧
    ∀ i j x y, i < j → signedAt p as i = some x → signedAt p as j = some y → x.offset ≠ y.offset ∧
      (x.anchor = y.anchor → x.timeoutDuration = y.timeoutDuration → x.timeoutTimestamp ≠ y.timeoutTimestamp) := by
  refine ⟨fun i x => signedAt_bounds p, fun i j x y hij hx hy => ?_⟩
  have hne := offset_ne p hw hn hij hx hy
  refine ⟨hne, fun ha ht h => hne ?_⟩
  simp only [Signed.timeoutTimestamp, ha, ht] at h
  omega

omit hw hn

def claimAttempt : Attempt := ⟨true, some 0, some (10, 60), true⟩

/-- Two transactions signed at one anchor with one timeout. -/
theorem nonces_differ_two :
    let signed := signedAt ⟨7, 0⟩ [claimAttempt, claimAttempt]
    ∃ x y, signed 0 = some x ∧ signed 1 = some y ∧ x.offset < txNonceSpread ∧ x.offset ≠ y.offset ∧
      x.timeoutTimestamp ≠ y.timeoutTimestamp := by
  have hx : signedAt ⟨7, 0⟩ [claimAttempt, claimAttempt] 0 = some ⟨0, defaultTxTimeoutMax, 8⟩ := by decide
  have hy : signedAt ⟨7, 0⟩ [claimAttempt, claimAttempt] 1 = some ⟨0, defaultTxTimeoutMax, 9⟩ := by decide
  obtain ⟨hne, htime⟩ := (nonces_differ ⟨7, 0⟩ (by decide) (by decide)).2 0 1 _ _ (by decide) hx hy
  exact ⟨_, _, hx, hy, ((nonces_differ ⟨7, 0⟩ (by decide) (by decide)).1 0 _ hx).1, hne, htime rfl rfl⟩

theorem offset_repeats_when_sum_wraps :
    let as := List.replicate 9551617 claimAttempt
    ∃ x y, signedAt ⟨2 ^ 64 - 2, 0⟩ as 0 = some x ∧ signedAt ⟨2 ^ 64 - 2, 0⟩ as 9551616 = some y ∧
      x.offset = y.offset := by
  have hsome (i : Nat) (hi : i < 9551617) :
      ∃ x, signedAt ⟨2 ^ 64 - 2, 0⟩ (List.replicate 9551617 claimAttempt) i = some x := by
    simp only [signedAt, List.getElem?_replicate, hi, if_true]
    exact ⟨_, rfl⟩
  obtain ⟨x, hx⟩ := hsome 0 (by omega)
  obtain ⟨y, hy⟩ := hsome 9551616 (by omega)
  refine ⟨x, y, hx, hy, ?_⟩
  rw [(signedAt_some _ hx).2.1, (signedAt_some _ hy).2.1, List.take_replicate, List.take_replicate,
    List.countP_replicate, List.countP_replicate]
  decide +kernel

end RelayMiner.Tx.Nonces
