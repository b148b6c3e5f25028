import Mathlib.Data.UInt
/-!
# Numbers on the wire

Big-endian words of a fixed width and base-128 varints of at most ten bytes, as
`encoding/binary` writes and reads them. Each reader undoes its writer and
leaves what follows.
-/

namespace RelayMiner.Lib

open List

def bigEndian : Nat → Nat → List UInt8
  | 0, _ => []
  | k + 1, n => bigEndian k (n / 256) ++ [UInt8.ofNat (n % 256)]

def readBigEndian (bs : List UInt8) : Nat := bs.foldl (fun n b => n * 256 + b.toNat) 0

@[simp] theorem length_bigEndian (k n : Nat) : (bigEndian k n).length = k := by
  induction k generalizing n with
  | zero => rfl
  | succ k ih => simp [bigEndian, ih]

theorem readBigEndian_bigEndian {k n : Nat} (h : n < 256 ^ k) : readBigEndian (bigEndian k n) = n := by
  induction k generalizing n with
  | zero =>
    simp [bigEndian, readBigEndian]
    omega
  | succ k ih =>
    have hq : n / 256 < 256 ^ k := by
      rw [Nat.div_lt_iff_lt_mul (by decide), ← Nat.pow_succ]
      exact h
    have hb : (UInt8.ofNat (n % 256)).toNat = n % 256 := by
      simp
    have hrec := ih hq
    unfold readBigEndian at hrec ⊢
    rw [bigEndian, foldl_append, hrec]
    simp only [foldl_cons, foldl_nil, hb]
    omega

theorem readBigEndian_lt (bs : List UInt8) : readBigEndian bs < 256 ^ bs.length := by
  -- The number read so far is a digit string of its own.
  have hacc : ∀ acc, bs.foldl (fun n b => n * 256 + b.toNat) acc < (acc + 1) * 256 ^ bs.length := by
    induction bs with
    | nil => simp
    | cons b bs ih =>
      intro acc
      have hb := b.toNat_lt
      calc _ < (acc * 256 + b.toNat + 1) * 256 ^ bs.length := ih _
        _ ≤ (acc + 1) * 256 * 256 ^ bs.length := Nat.mul_le_mul_right _ (by omega)
        _ = (acc + 1) * 256 ^ (bs.length + 1) := by rw [Nat.mul_assoc, Nat.pow_succ, Nat.mul_comm 256]
  simpa [readBigEndian] using hacc 0

theorem append_lt_append {a b : List UInt8} (hl : a.length = b.length) (h : a < b) (x y : List UInt8) :
    a ++ x < b ++ y := by
  induction a generalizing b with
  | nil =>
    cases b with
    | nil => exact absurd h (List.lt_irrefl _)
    | cons c b => cases hl
  | cons c a ih =>
    cases b with
    | nil => cases hl
    | cons c' b =>
      rw [cons_append, cons_append, cons_lt_cons_iff]
      rcases cons_lt_cons_iff.1 h with hc | ⟨hc, hab⟩
      · exact .inl hc
      · exact .inr ⟨hc, ih (Nat.succ.inj hl) hab⟩

/-- Words of one width are in the order of their numbers, byte by byte. -/
theorem bigEndian_lt {k n m : Nat} (h : n < m) (hm : m < 256 ^ k) : bigEndian k n < bigEndian k m := by
  induction k generalizing n m with
  | zero =>
    omega
  | succ k ih =>
    have hq : m / 256 < 256 ^ k := by
      rw [Nat.div_lt_iff_lt_mul (by decide), ← Nat.pow_succ]
      exact hm
    by_cases heq : n / 256 = m / 256
    · rw [bigEndian, bigEndian, heq]
      refine append_left_lt (cons_lt_cons_iff.2 (.inl ?_))
      rw [UInt8.lt_iff_toNat_lt]
      simp
      omega
    · exact append_lt_append (by simp) (ih (by omega) hq) _ _

/-- `AppendUvarint`, for a number of at most `k` groups of seven bits. -/
def uvarint : Nat → Nat → List UInt8
  | 0, _ => []
  | k + 1, n => if n < 128 then [UInt8.ofNat n] else UInt8.ofNat (n % 128 + 128) :: uvarint k (n / 128)

/-- `Uvarint` from the byte number `i` on: the number and what follows it, or `none` when the bytes end or ten of them
do not end the number or hold more than 64 bits. -/
def readUvarint : Nat → List UInt8 → Option (Nat × List UInt8)
  | _, [] => none
  | i, b :: bs =>
    if i = 10 then none
    else if b.toNat < 128 then
      if i = 9 ∧ 1 < b.toNat then none else some (b.toNat, bs)
    else (readUvarint (i + 1) bs).map fun p => (b.toNat % 128 + 128 * p.1, p.2)

/-- What was read is not empty, and stands before what follows. -/
theorem readUvarint_suffix {i n : Nat} {bs rest : List UInt8} (h : readUvarint i bs = some (n, rest)) :
    ∃ pre, pre ≠ [] ∧ bs = pre ++ rest := by
  induction bs generalizing i n with
  | nil => cases h
  | cons b bs ih =>
    rw [readUvarint] at h
    split_ifs at h with h10 hlast hbig
    · obtain ⟨-, rfl⟩ := Prod.mk.inj (Option.some.inj h)
      exact ⟨[b], by simp, rfl⟩
    obtain ⟨p, hp, heq⟩ := Option.map_eq_some_iff.1 h
    obtain ⟨-, rfl⟩ := Prod.mk.inj heq
    obtain ⟨pre, -, rfl⟩ := ih hp
    exact ⟨b :: pre, by simp, rfl⟩

/-- With `k` groups left of ten, a number that fits in what is left of 64 bits is read back. -/
theorem readUvarint_uvarint {k n : Nat} (hk : k < 10) (hn : n < 2 ^ (64 - 7 * (9 - k))) (rest : List UInt8) :
    readUvarint (9 - k) (uvarint (k + 1) n ++ rest) = some (n, rest) := by
  induction k generalizing n with
  | zero =>
    have hb : (UInt8.ofNat n).toNat = n := by
      simp
      omega
    simp only [uvarint, show n < 128 by omega, if_true, singleton_append, readUvarint, hb]
    simp
    omega
  | succ k ih =>
    by_cases hlt : n < 128
    · have hb : (UInt8.ofNat n).toNat = n := by
        simp
        omega
      simp only [uvarint, hlt, if_true, singleton_append, readUvarint, hb]
      rw [if_neg (by omega), if_neg (by omega)]
    have hb : (UInt8.ofNat (n % 128 + 128)).toNat = n % 128 + 128 := by
      simp
      omega
    have hq : n / 128 < 2 ^ (64 - 7 * (9 - k)) := by
      rw [Nat.div_lt_iff_lt_mul (by decide), show (128 : Nat) = 2 ^ 7 from rfl, ← Nat.pow_add]
      exact Nat.lt_of_lt_of_le hn (Nat.pow_le_pow_right (by decide) (by omega))
    have hrec := ih (by omega) hq
    have hi : 9 - (k + 1) + 1 = 9 - k := by omega
    rw [uvarint, if_neg hlt, cons_append, readUvarint, hb, if_neg (by omega), if_neg (by omega), hi, hrec]
    simp only [Option.map_some, Option.some.injEq, Prod.mk.injEq, and_true]
    omega

end RelayMiner.Lib
