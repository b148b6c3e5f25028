import Mathlib.Data.UInt
/-!
# Slices

Slice expressions, whose bounds are checked when they are evaluated: `none` is
the panic. Indices are 64-bit integers, and so is a length that was read as an
unsigned word and converted. And slices that begin their array, with memory the
list of the arrays allocated so far: slices share memory when they are of one
array, and an array is not used again while a slice of it is left.
-/

namespace RelayMiner.Lib

variable {α : Type}

def slice (b : List α) (lo hi : Int) : Option (List α) :=
  if 0 ≤ lo ∧ lo ≤ hi ∧ hi ≤ b.length then some ((b.drop lo.toNat).take (hi - lo).toNat) else none

/-- What an int64 holds of `n`. -/
def int64 (n : Int) : Int := n.bmod (2 ^ 64)

def IsInt64 (n : Int) : Prop := -2 ^ 63 ≤ n ∧ n < 2 ^ 63

instance (n : Int) : Decidable (IsInt64 n) := inferInstanceAs (Decidable (_ ∧ _))

theorem int64_eq {n : Int} (h : IsInt64 n) : int64 n = n := by
  obtain ⟨hlo, hhi⟩ := h
  exact Int.bmod_eq_of_le (by omega) (by omega)

theorem slice_eq {b : List α} {lo hi : Int} {m n : Nat} (hlo : lo = m) (hhi : hi = (m + n : Nat)) (hb : m + n ≤ b.length) :
    slice b lo hi = some ((b.drop m).take n) := by
  subst hlo hhi
  rw [slice, if_pos ⟨by omega, by omega, by omega⟩, Int.toNat_natCast, show ((m + n : Nat) - (m : Int)).toNat = n by omega]

theorem slice_from {b : List α} {lo : Int} {m : Nat} (hlo : lo = m) (hb : m ≤ b.length) :
    slice b lo b.length = some (b.drop m) := by
  rw [slice_eq (n := b.length - m) hlo (by omega) (by omega), List.take_of_length_le (by simp)]

/-! ## Memory -/

abbrev Heap (α : Type) := List (List α)

structure Slice where
  array : Nat
  len : Nat

def Heap.array (h : Heap α) (s : Slice) : List α := (h[s.array]?).getD []

def Heap.read (h : Heap α) (s : Slice) : List α := (h.array s).take s.len

def Heap.spare (h : Heap α) (s : Slice) : Nat := (h.array s).length - s.len

def Heap.allocated (h : Heap α) : Nat := (h.map List.length).sum

/-- `append`, in place; where there is no room it writes to an array of its own. -/
def Heap.append (h : Heap α) (s : Slice) (suffix : List α) : Heap α :=
  if suffix.length ≤ h.spare s then
    h.set s.array (h.read s ++ suffix ++ (h.array s).drop (s.len + suffix.length))
  else h

def Slice.Holds (h : Heap α) (s : Slice) (b rest : List α) : Prop :=
  h[s.array]? = some (b ++ rest) ∧ s.len = b.length

variable {h : Heap α} {s : Slice} {b rest : List α}

section
variable (hs : s.Holds h b rest)
include hs

theorem Slice.Holds.lt : s.array < h.length := (List.getElem?_eq_some_iff.mp hs.1).1

theorem Slice.Holds.read : h.read s = b := by
  simp [Heap.read, Heap.array, hs.1, hs.2]

theorem Slice.Holds.spare : h.spare s = rest.length := by
  simp [Heap.spare, Heap.array, hs.1, hs.2]

theorem Slice.Holds.grow (extra : Heap α) : s.Holds (h ++ extra) b rest :=
  ⟨by rw [List.getElem?_append_left hs.lt, hs.1], hs.2⟩
end

theorem holds_last (h : Heap α) (b rest : List α) : Slice.Holds (h ++ [b ++ rest]) ⟨h.length, b.length⟩ b rest :=
  ⟨by simp, rfl⟩

/-- An append in place is behind the bytes of every slice that begins the array as `r` does. -/
theorem Slice.Holds.append (hs : s.Holds h b rest) {r : Slice} (hr : r.array = s.array → r = s) (suffix : List α) :
    ∃ rest', s.Holds (h.append r suffix) b rest' := by
  unfold Heap.append
  split
  · by_cases ha : r.array = s.array
    · obtain rfl := hr ha
      refine ⟨suffix ++ (h.array r).drop (r.len + suffix.length), ?_, hs.2⟩
      rw [List.getElem?_set_self hs.lt, hs.read, List.append_assoc]
    · exact ⟨rest, by rw [List.getElem?_set_ne ha, hs.1], hs.2⟩
  · exact ⟨rest, hs⟩

theorem Heap.length_append (h : Heap α) (r : Slice) (suffix : List α) : (h.append r suffix).length = h.length := by
  unfold Heap.append
  split <;> simp

end RelayMiner.Lib
