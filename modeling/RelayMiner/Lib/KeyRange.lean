import Mathlib.Data.List.Basic
/-!
# Ranges of keys

Byte keys in their order, read and deleted by range. The range from a prefix to
its upper bound is the keys with that prefix.
-/

namespace RelayMiner.Lib

open List

/-- The last byte that can be incremented is, and what follows it goes; with none there is no bound. -/
def keyUpperBound : List UInt8 → Option (List UInt8)
  | [] => none
  | b :: bs =>
    match keyUpperBound bs with
    | some u => some (b :: u)
    | none => if b = 255 then none else some [b + 1]

def inRange (lo : List UInt8) (hi : Option (List UInt8)) (k : List UInt8) : Bool :=
  decide (lo ≤ k) && hi.all fun hi => decide (k < hi)

theorem inRange_some {lo hi k : List UInt8} : inRange lo (some hi) k = true ↔ lo ≤ k ∧ k < hi := by
  simp [inRange]

theorem inRange_none {lo k : List UInt8} : inRange lo none k = true ↔ lo ≤ k := by
  simp [inRange]

theorem lt_succ_iff_le {b c : UInt8} (h : b ≠ 255) : c < b + 1 ↔ c ≤ b := by
  have hb : b.toNat ≠ 255 := fun hb => h (UInt8.toNat_inj.1 hb)
  have hlt := b.toNat_lt
  have hadd : (b + 1).toNat = b.toNat + 1 := by
    simp
    omega
  rw [UInt8.lt_iff_toNat_lt, UInt8.le_iff_toNat_le, hadd]
  omega

attribute [local simp] keyUpperBound

/-- The range of a prefix is the keys that start with it. -/
theorem inRange_keyUpperBound {p k : List UInt8} : inRange p (keyUpperBound p) k = true ↔ p <+: k := by
  induction p generalizing k with
  | nil => simp [inRange]
  | cons b bs ih =>
    cases k with
    | nil => simp [inRange]
    | cons c cs =>
      rw [cons_prefix_cons, ← ih]
      cases hu : keyUpperBound bs with
      | some u =>
        rw [show keyUpperBound (b :: bs) = some (b :: u) by simp [hu], inRange_some, inRange_some,
          cons_le_cons_iff, cons_lt_cons_iff]
        constructor
        · rintro ⟨hlt | ⟨rfl, hle⟩, hgt | ⟨heq, hup⟩⟩
          · exact absurd hgt (UInt8.lt_asymm hlt)
          · exact absurd hlt (heq ▸ UInt8.lt_irrefl _)
          · exact absurd hgt (UInt8.lt_irrefl _)
          · exact ⟨rfl, hle, hup⟩
        · rintro ⟨rfl, hle, hup⟩
          exact ⟨.inr ⟨rfl, hle⟩, .inr ⟨rfl, hup⟩⟩
      | none =>
        -- Nothing after `b` can be incremented: it is `b` that is, or the range has no end.
        rw [inRange_none]
        by_cases hb : b = 255
        · rw [show keyUpperBound (b :: bs) = none by simp [hu, hb], inRange_none, cons_le_cons_iff]
          have hmax : ¬ b < c := by
            rw [hb, UInt8.lt_iff_toNat_lt]
            exact Nat.not_lt.2 (Nat.le_of_lt_succ c.toNat_lt)
          simp [hmax]
        rw [show keyUpperBound (b :: bs) = some [b + 1] by simp [hu, hb], inRange_some,
          cons_le_cons_iff, cons_lt_cons_iff, lt_succ_iff_le hb]
        constructor
        · rintro ⟨hlt | h, hle | ⟨-, hnil⟩⟩
          · exact absurd hle (UInt8.not_le.2 hlt)
          · exact absurd hnil (not_lt_nil cs)
          · exact h
          · exact absurd hnil (not_lt_nil cs)
        · rintro ⟨rfl, hle⟩
          exact ⟨.inr ⟨rfl, hle⟩, .inl (UInt8.le_refl b)⟩

/-- A scan of a prefix finds, under what follows it, what a lookup does. -/
theorem lookup_scan {V : Type} (p k : List UInt8) (db : List (List UInt8 × V)) :
    ((db.filter fun e => inRange p (keyUpperBound p) e.1).map fun e => (e.1.drop p.length, e.2)).lookup k =
      db.lookup (p ++ k) := by
  induction db with
  | nil => rfl
  | cons e db ih =>
    obtain ⟨a, v⟩ := e
    rw [filter_cons]
    split
    next hin =>
      obtain ⟨b, rfl⟩ := inRange_keyUpperBound.1 hin
      rw [map_cons, lookup_cons, lookup_cons, ih, drop_left]
      by_cases hk : k = b
      · simp [hk]
      · rw [beq_eq_false_iff_ne.2 hk, beq_eq_false_iff_ne.2 fun h => hk (append_cancel_left h)]
    next hin =>
      have hne : p ++ k ≠ a := fun hk => hin (inRange_keyUpperBound.2 ⟨k, hk⟩)
      rw [ih, lookup_cons, beq_eq_false_iff_ne.2 hne]

end RelayMiner.Lib
