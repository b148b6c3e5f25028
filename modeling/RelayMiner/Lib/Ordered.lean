import Mathlib.Data.List.Basic
import Mathlib.Order.Lattice
/-!
# A map ordered by its keys

A key-value store that is read in the order of its keys, as the list of its
entries in that order. A write puts an entry in its place.
-/

namespace RelayMiner.Lib

open List

variable {κ V : Type} [LinearOrder κ] {l : List (κ × V)} {p : κ × V}

def insertKey (k : κ) (v : V) : List (κ × V) → List (κ × V)
  | [] => [(k, v)]
  | p :: l => if k < p.1 then (k, v) :: p :: l else if k = p.1 then (k, v) :: l else p :: insertKey k v l

def Ordered (l : List (κ × V)) : Prop := l.Pairwise fun p q => p.1 < q.1

theorem forall_mem_insertKey {P : κ × V → Prop} {k : κ} {v : V} (hk : P (k, v)) (h : ∀ p ∈ l, P p) :
    ∀ p ∈ insertKey k v l, P p := by
  induction l with
  | nil => exact forall_mem_singleton.2 hk
  | cons q l ih =>
    obtain ⟨hq, hl⟩ := forall_mem_cons.1 h
    unfold insertKey
    split_ifs
    · exact forall_mem_cons.2 ⟨hk, h⟩
    · exact forall_mem_cons.2 ⟨hk, hl⟩
    · exact forall_mem_cons.2 ⟨hq, ih hl⟩

theorem ordered_insertKey (h : Ordered l) (k : κ) (v : V) : Ordered (insertKey k v l) := by
  induction l with
  | nil => exact pairwise_singleton _ _
  | cons q l ih =>
    obtain ⟨hq, hl⟩ := pairwise_cons.1 h
    unfold insertKey
    split_ifs with hlt heq
    · exact pairwise_cons.2 ⟨forall_mem_cons.2 ⟨hlt, fun p hp => lt_trans hlt (hq p hp)⟩, h⟩
    · exact pairwise_cons.2 ⟨fun p hp => heq ▸ hq p hp, hl⟩
    · exact pairwise_cons.2 ⟨forall_mem_insertKey (lt_of_le_of_ne (not_lt.1 hlt) (Ne.symm heq)) hq, ih hl⟩

/-- A key has one entry. -/
theorem Ordered.lookup_eq [BEq κ] [LawfulBEq κ] (h : Ordered l) (hp : p ∈ l) : l.lookup p.1 = some p.2 := by
  induction l with
  | nil => cases hp
  | cons q l ih =>
    obtain ⟨hq, hl⟩ := pairwise_cons.1 h
    rw [lookup_cons]
    rcases mem_cons.1 hp with rfl | hp
    · simp
    · rw [beq_eq_false_iff_ne.2 (ne_of_gt (hq p hp))]
      exact ih hl hp

/-- What is not among the first entries comes after them. -/
theorem Ordered.mem_take_or (h : Ordered l) (hp : p ∈ l) (n : Nat) : p ∈ l.take n ∨ ∀ q ∈ l.take n, q.1 < p.1 := by
  rw [← take_append_drop n l, mem_append] at hp
  refine hp.imp id fun hp q hq => ?_
  have hsplit : (l.take n ++ l.drop n).Pairwise fun p q => p.1 < q.1 := by rwa [take_append_drop]
  exact (pairwise_append.1 hsplit).2.2 q hq p hp

end RelayMiner.Lib
