import Mathlib.Data.UInt
/-!
# Strings of bytes

Keys and set members as a Go program formats them: bytes, with numbers in
decimal between separators. A number is read back from its digits, and a string
from both sides of the separator it was joined at.
-/

namespace RelayMiner.Lib

open List

def byteOf (c : Char) : UInt8 := UInt8.ofNat c.toNat

def charOf (b : UInt8) : Char := Char.ofNat b.toNat

def ascii (s : String) : List UInt8 := s.toList.map byteOf

/-! ## Separators -/

def cutLast (sep : UInt8) : List UInt8 → Option (List UInt8 × List UInt8)
  | [] => none
  | b :: bs =>
    match cutLast sep bs with
    | some (pre, post) => some (b :: pre, post)
    | none => if b = sep then some ([], bs) else none

variable {sep : UInt8} {c : Char}

theorem cutLast_eq_none {bs : List UInt8} (h : sep ∉ bs) : cutLast sep bs = none := by
  induction bs with
  | nil => rfl
  | cons b bs ih =>
    obtain ⟨hb, hbs⟩ := not_or.1 (mt mem_cons.2 h)
    simp [cutLast, ih hbs, Ne.symm hb]

theorem cutLast_join (pre : List UInt8) {post : List UInt8} (h : sep ∉ post) :
    cutLast sep (pre ++ sep :: post) = some (pre, post) := by
  induction pre with
  | nil => simp [cutLast, cutLast_eq_none h]
  | cons b pre ih => simp [cutLast, ih]

/-- Strings joined at a separator that neither has before it are joined at the same place. -/
theorem join_inj {a a' b b' : List UInt8} (ha : sep ∉ a) (ha' : sep ∉ a') (h : a ++ sep :: b = a' ++ sep :: b') :
    a = a' ∧ b = b' := by
  induction a generalizing a' with
  | nil =>
    cases a' with
    | nil => exact ⟨rfl, (List.cons.inj h).2⟩
    | cons c a' => exact absurd (List.cons.inj h).1 fun hc => ha' (hc ▸ mem_cons_self)
  | cons c a ih =>
    cases a' with
    | nil => exact absurd (List.cons.inj h).1 fun hc => ha (hc ▸ mem_cons_self)
    | cons c' a' =>
      obtain ⟨rfl, htail⟩ := List.cons.inj (cons_append ▸ cons_append ▸ h)
      obtain ⟨rfl, rfl⟩ := ih (mt (mem_cons_of_mem c) ha) (mt (mem_cons_of_mem c) ha') htail
      exact ⟨rfl, rfl⟩

/-! ## Decimal numbers -/

/-- `%d` of an `int64`. -/
def formatInt (x : Int64) : List UInt8 :=
  (if x.toInt < 0 then [byteOf '-'] else []) ++ (Nat.toDigits 10 x.toInt.natAbs).map byteOf

/-- The digits `strconv.ParseUint` takes in base 10. -/
def parseDigits (ds : List UInt8) : Option Nat :=
  if ds ≠ [] ∧ ds.all (fun b => (charOf b).isDigit) then some (Nat.ofDigitChars 10 (ds.map charOf) 0) else none

/-- `strconv.ParseInt` in base 10 for 64 bits. -/
def parseInt : List UInt8 → Option Int64
  | [] => none
  | b :: ds =>
    if b = byteOf '-' then
      (parseDigits ds).bind fun n => if n ≤ 2 ^ 63 then some (Int64.ofInt (-n)) else none
    else
      (parseDigits (if b = byteOf '+' then ds else b :: ds)).bind fun n =>
        if n < 2 ^ 63 then some (Int64.ofInt n) else none

theorem charOf_byteOf_of_isDigit (h : c.isDigit) : charOf (byteOf c) = c := by
  have hn : c.toNat ≤ 57 := (Char.isDigit_iff_toNat.1 h).2
  have hb : (byteOf c).toNat = c.toNat := by
    simp [byteOf]
    omega
  rw [charOf, hb, Char.ofNat_toNat]

theorem isDigit_of_mem_digits {n : Nat} (h : c ∈ Nat.toDigits 10 n) : c.isDigit :=
  Nat.isDigit_of_mem_toDigits (by decide) (Nat.le_refl 10) h

theorem byteOf_notMem_digits (hc : c.isDigit = false) (hb : charOf (byteOf c) = c) (n : Nat) :
    byteOf c ∉ (Nat.toDigits 10 n).map byteOf := by
  intro h
  obtain ⟨d, hd, heq⟩ := mem_map.1 h
  have hdig := isDigit_of_mem_digits hd
  have : d = c := by rw [← charOf_byteOf_of_isDigit hdig, heq, hb]
  rw [this, hc] at hdig
  cases hdig

theorem parseDigits_digits (n : Nat) : parseDigits ((Nat.toDigits 10 n).map byteOf) = some n := by
  have hback : ((Nat.toDigits 10 n).map byteOf).map charOf = Nat.toDigits 10 n := by
    rw [map_map]
    exact (map_congr_left fun c hc => charOf_byteOf_of_isDigit (isDigit_of_mem_digits hc)).trans (map_id _)
  have hall : ((Nat.toDigits 10 n).map byteOf).all (fun b => (charOf b).isDigit) = true := by
    rw [all_map, all_eq_true]
    intro c hc
    have hdig := isDigit_of_mem_digits hc
    simpa [charOf_byteOf_of_isDigit hdig] using hdig
  rw [parseDigits, if_pos ⟨by simp [Nat.toDigits_ne_nil], hall⟩, hback, Nat.ofDigitChars_ten_toDigits]

theorem parseInt_formatInt (x : Int64) : parseInt (formatInt x) = some x := by
  have hlo := x.le_toInt
  have hhi := x.toInt_lt
  unfold formatInt
  split_ifs with hneg
  · rw [singleton_append, parseInt, if_pos rfl, parseDigits_digits, Option.bind_some, if_pos (by omega),
      show -(x.toInt.natAbs : Int) = x.toInt by omega, Int64.ofInt_toInt]
  rw [nil_append]
  have hminus := byteOf_notMem_digits (c := '-') (by decide) (by decide) x.toInt.natAbs
  have hplus := byteOf_notMem_digits (c := '+') (by decide) (by decide) x.toInt.natAbs
  have hdigits := parseDigits_digits x.toInt.natAbs
  cases hds : (Nat.toDigits 10 x.toInt.natAbs).map byteOf with
  | nil => exact absurd (map_eq_nil_iff.1 hds) Nat.toDigits_ne_nil
  | cons b ds =>
    rw [hds] at hminus hplus hdigits
    have hb : b ≠ byteOf '-' := fun h => hminus (h ▸ mem_cons_self)
    have hb' : b ≠ byteOf '+' := fun h => hplus (h ▸ mem_cons_self)
    rw [parseInt, if_neg hb, if_neg hb', hdigits, Option.bind_some, if_pos (by omega),
      show (x.toInt.natAbs : Int) = x.toInt by omega, Int64.ofInt_toInt]

theorem colon_notMem_formatInt (x : Int64) : byteOf ':' ∉ formatInt x := by
  rw [formatInt, mem_append, not_or]
  refine ⟨?_, byteOf_notMem_digits (by decide) (by decide) _⟩
  split_ifs
  · decide
  · exact not_mem_nil

end RelayMiner.Lib
