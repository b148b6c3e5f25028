import Mathlib.Algebra.BigOperators.Group.List.Basic
import RelayMiner.Lib.Slices
/-!
# The charge ledger

Per consumed counter, what was served and not written yet. The meter adds to it
and reads it to admit; a dispatch takes every queued charge, and what it took
counts as pending until the write's outcome is reported (`commit`, `forget`,
`retry`, `untake`).

Amounts are positive (`Add` ignores any other). The code adds them in int64: a
number here stands for the int64 it is congruent to modulo `2 ^ 64`, which is
what `Pending` returns and `finishLocked` compares. Go visits a map in any order,
so `takeAll` is given the order it finds.
-/
open RelayMiner.Lib

namespace RelayMiner.Transport

open List Function

structure Charge (K S : Type) where
  key : K
  supplier : S
  amount : Nat
  ttl : Nat
  attempts : Nat := 0
  deriving DecidableEq

def maxPublishAttempts : Nat := 10

variable {K S : Type} [DecidableEq K]

def owed (cs : List (Charge K S)) (k : K) : Nat := ((cs.filter (·.key = k)).map (·.amount)).sum

@[simp] theorem owed_nil (k : K) : owed ([] : List (Charge K S)) k = 0 := rfl

theorem owed_cons (c : Charge K S) (cs : List (Charge K S)) (k : K) :
    owed (c :: cs) k = (if c.key = k then c.amount else 0) + owed cs k := by
  unfold owed
  by_cases h : c.key = k
  · simp [h]
  · simp [h]

theorem owed_append (as bs : List (Charge K S)) (k : K) : owed (as ++ bs) k = owed as k + owed bs k := by
  simp [owed]

theorem owed_perm {as bs : List (Charge K S)} (h : as.Perm bs) (k : K) : owed as k = owed bs k :=
  ((h.filter _).map _).sum_eq

theorem owed_eq_zero {cs : List (Charge K S)} {k : K} (h : k ∉ cs.map (·.key)) : owed cs k = 0 := by
  induction cs with
  | nil => rfl
  | cons c cs ih =>
    rw [map_cons, mem_cons, not_or] at h
    rw [owed_cons, if_neg (Ne.symm h.1), ih h.2]

/-- One queued charge a counter, and the amount taken for each and without an outcome. -/
structure ChargeLedger (K S : Type) where
  pending : List (Charge K S) := []
  writing : K → Nat := fun _ => 0
  keys : (pending.map (·.key)).Nodup := by exact List.nodup_nil

namespace ChargeLedger

def upsert (l : ChargeLedger K S) (c : Charge K S) (f : Charge K S → Charge K S) (hf : ∀ x, (f x).key = x.key) :
    ChargeLedger K S :=
  if h : c.key ∈ l.pending.map (·.key) then
    { l with
      pending := l.pending.map fun x => if x.key = c.key then f x else x
      keys := by
        have hkeys : (l.pending.map fun x => if x.key = c.key then f x else x).map (·.key) = l.pending.map (·.key) := by
          rw [List.map_map]
          refine List.map_congr_left fun x _ => ?_
          simp only [comp_apply]
          split
          · exact hf x
          · rfl
        rw [hkeys]
        exact l.keys }
  else
    { l with
      pending := l.pending ++ [c]
      keys := by
        rw [List.map_append]
        exact l.keys.append (List.nodup_singleton _) (by simpa using h) }

def add (l : ChargeLedger K S) (key : K) (supplier : S) (amount ttl : Nat) : ChargeLedger K S :=
  if amount = 0 then l
  else l.upsert { key, supplier, amount, ttl } (fun c => { c with amount := c.amount + amount }) (fun _ => rfl)

/-- `Pending`: queued, and taken by a dispatch that waits for its outcome. -/
def total (l : ChargeLedger K S) (key : K) : Int :=
  int64 (l.writing key + match l.pending.find? (·.key = key) with
    | some c => c.amount
    | none => 0)

def drop (l : ChargeLedger K S) (key : K) : ChargeLedger K S :=
  { l with
    pending := l.pending.filter (·.key ≠ key)
    keys := l.keys.sublist (List.filter_sublist.map _) }

/-- What is left of the entry; one that is not positive is deleted. -/
def finishWrite (l : ChargeLedger K S) (key : K) (amount : Nat) : ChargeLedger K S :=
  { l with writing := update l.writing key (int64 (l.writing key - amount)).toNat }

def takeAll [DecidableEq S] (l : ChargeLedger K S) (order : List (Charge K S)) : List (Charge K S) × ChargeLedger K S :=
  let out := if order.isPerm l.pending then order else l.pending
  (out, { writing := out.foldl (fun w c => update w c.key (w c.key + c.amount)) l.writing })

def requeueLocked (l : ChargeLedger K S) (c : Charge K S) : ChargeLedger K S :=
  l.upsert c (fun cur => { cur with amount := cur.amount + c.amount, attempts := max cur.attempts c.attempts })
    (fun _ => rfl)

def untake (l : ChargeLedger K S) (c : Charge K S) : ChargeLedger K S :=
  (l.finishWrite c.key c.amount).requeueLocked c

def retry (l : ChargeLedger K S) (c : Charge K S) : ChargeLedger K S × Bool :=
  let l' := l.finishWrite c.key c.amount
  if maxPublishAttempts ≤ c.attempts + 1 then (l'.drop c.key, false)
  else (l'.requeueLocked { c with attempts := c.attempts + 1 }, true)

def forget (l : ChargeLedger K S) (c : Charge K S) : ChargeLedger K S := l.finishWrite c.key c.amount

/-- `commit`; its callback ends with `FinishWrite`. -/
def commit (l : ChargeLedger K S) (c : Charge K S) : ChargeLedger K S := l.finishWrite c.key c.amount

/-! ## What is owed after each call -/

variable (l : ChargeLedger K S)

/-- An int64 holds what is pending for `k`. -/
def Exact (k : K) : Prop := l.writing k + owed l.pending k < 2 ^ 63

theorem total_eq {key : K} (h : l.Exact key) : l.total key = (l.writing key + owed l.pending key : Nat) := by
  rw [total, ← int64_eq (n := (l.writing key + owed l.pending key : Nat)) ⟨by omega, by exact_mod_cast h⟩, Nat.cast_add]
  congr 2
  have hkeys := l.keys
  generalize l.pending = cs at hkeys ⊢
  induction cs with
  | nil => rfl
  | cons c cs ih =>
    rw [map_cons, nodup_cons] at hkeys
    rw [owed_cons, List.find?_cons]
    by_cases hk : c.key = key
    · subst hk
      simp [owed_eq_zero hkeys.1]
    · simpa [hk] using ih hkeys.2

variable {f : Charge K S → Charge K S}

theorem owed_map_upsert {cs : List (Charge K S)} (hkeys : (cs.map (·.key)).Nodup) {c : Charge K S}
    (hkey : ∀ x, (f x).key = x.key) (hamount : ∀ x, (f x).amount = x.amount + c.amount)
    (hc : c.key ∈ cs.map (·.key)) (k : K) :
    owed (cs.map fun x => if x.key = c.key then f x else x) k = owed cs k + if c.key = k then c.amount else 0 := by
  induction cs with
  | nil => cases hc
  | cons x cs ih =>
    rw [map_cons, nodup_cons] at hkeys
    rw [map_cons, owed_cons, owed_cons]
    by_cases hx : x.key = c.key
    · -- The one charge of this counter: the rest of the list is left as it is.
      have hrest : (cs.map fun y => if y.key = c.key then f y else y) = cs := by
        refine (map_congr_left fun y hy => ?_).trans (map_id cs)
        have hne : ¬ y.key = c.key := fun heq => hkeys.1 (mem_map.2 ⟨y, hy, heq.trans hx.symm⟩)
        exact if_neg hne
      rw [if_pos hx, hrest, hkey, hamount, hx]
      split <;> omega
    have hmem : c.key ∈ cs.map (·.key) := (mem_cons.1 hc).resolve_left (Ne.symm hx)
    rw [if_neg hx, ih hkeys.2 hmem]
    omega

theorem owed_upsert {c : Charge K S} (hkey : ∀ x, (f x).key = x.key)
    (hamount : ∀ x, (f x).amount = x.amount + c.amount) (k : K) :
    owed (l.upsert c f hkey).pending k = owed l.pending k + if c.key = k then c.amount else 0 := by
  unfold upsert
  split
  next hc => exact owed_map_upsert l.keys hkey hamount hc k
  · rw [owed_append, owed_cons, owed_nil, Nat.add_zero]

variable (c : Charge K S)

@[simp] theorem writing_upsert (f : Charge K S → Charge K S) (hf : ∀ x, (f x).key = x.key) :
    (l.upsert c f hf).writing = l.writing := by
  unfold upsert
  split <;> rfl

theorem owed_add (key : K) (supplier : S) (amount ttl : Nat) (k : K) :
    owed (l.add key supplier amount ttl).pending k = owed l.pending k + if key = k then amount else 0 := by
  unfold add
  split
  next h0 => simp [h0]
  · exact l.owed_upsert _ (fun _ => rfl) k

@[simp] theorem writing_add (key : K) (supplier : S) (amount ttl : Nat) :
    (l.add key supplier amount ttl).writing = l.writing := by
  unfold add
  split
  · rfl
  · exact l.writing_upsert _ _ _

theorem owed_requeueLocked (k : K) :
    owed (l.requeueLocked c).pending k = owed l.pending k + if c.key = k then c.amount else 0 :=
  l.owed_upsert _ (fun _ => rfl) k

@[simp] theorem writing_requeueLocked : (l.requeueLocked c).writing = l.writing :=
  l.writing_upsert _ _ _

theorem owed_drop (key k : K) : owed (l.drop key).pending k = if key = k then 0 else owed l.pending k := by
  simp only [drop, owed, filter_filter]
  split
  next hk =>
    subst hk
    simp
  next hk =>
    congr 2
    refine filter_congr fun c _ => ?_
    by_cases hc : c.key = k
    · simp [hc, Ne.symm hk]
    · simp [hc]

section
variable {l c} {k : K} (hl : l.Exact k) (hc : c.key = k → c.amount ≤ l.writing k)
include hl hc

theorem writing_finishWrite :
    (l.finishWrite c.key c.amount).writing k = l.writing k - if c.key = k then c.amount else 0 := by
  unfold Exact at hl
  unfold finishWrite
  by_cases hk : c.key = k
  · subst hk
    have hle := hc rfl
    dsimp only
    rw [update_self, if_pos rfl, int64_eq ⟨by omega, by omega⟩]
    omega
  · simp [hk, update_of_ne (Ne.symm hk)]

theorem writing_untake :
    (l.untake c).writing k = l.writing k - if c.key = k then c.amount else 0 := by
  rw [untake, writing_requeueLocked, writing_finishWrite hl hc]

theorem writing_retry :
    (l.retry c).1.writing k = l.writing k - if c.key = k then c.amount else 0 := by
  unfold retry
  split
  · exact writing_finishWrite hl hc
  · rw [writing_requeueLocked, writing_finishWrite hl hc]

/-- What was taken goes back to the queue, at most. -/
theorem Exact.returned {l' : ChargeLedger K S}
    (hw : l'.writing k = l.writing k - if c.key = k then c.amount else 0)
    (hp : owed l'.pending k ≤ owed l.pending k + if c.key = k then c.amount else 0) : l'.Exact k := by
  unfold Exact at hl ⊢
  by_cases hk : c.key = k
  · have hle := hc hk
    rw [if_pos hk] at hw hp
    omega
  · rw [if_neg hk] at hw hp
    omega
end

theorem owed_untake (k : K) :
    owed (l.untake c).pending k = owed l.pending k + if c.key = k then c.amount else 0 :=
  owed_requeueLocked _ c k

theorem owed_retry_le (k : K) :
    owed (l.retry c).1.pending k ≤ owed l.pending k + if c.key = k then c.amount else 0 := by
  unfold retry
  split
  · rw [owed_drop]
    split
    · exact Nat.zero_le _
    · exact Nat.le_add_right _ _
  · rw [owed_requeueLocked]
    exact le_refl _

theorem Exact.add {l : ChargeLedger K S} {key k : K} (h : l.Exact k) (supplier : S) {amount : Nat} (ttl : Nat)
    (hfits : key = k → l.total k + amount < 2 ^ 63) : (l.add key supplier amount ttl).Exact k := by
  rw [l.total_eq h] at hfits
  unfold Exact at h ⊢
  rw [writing_add, owed_add]
  by_cases hk : key = k
  · have hlt := hfits hk
    rw [if_pos hk]
    omega
  · rw [if_neg hk]
    exact h

theorem Exact.drop {l : ChargeLedger K S} {k : K} (h : l.Exact k) (key : K) : (l.drop key).Exact k := by
  unfold Exact at h ⊢
  rw [owed_drop]
  exact lt_of_le_of_lt (Nat.add_le_add_left (by split <;> omega) _) h

theorem writing_foldl (cs : List (Charge K S)) (w : K → Nat) (k : K) :
    cs.foldl (fun w c => update w c.key (w c.key + c.amount)) w k = w k + owed cs k := by
  induction cs generalizing w with
  | nil => rfl
  | cons c cs ih =>
    rw [foldl_cons, ih, owed_cons]
    by_cases hk : c.key = k
    · subst hk
      simp [Nat.add_assoc]
    · simp [hk, update_of_ne (Ne.symm hk)]

section TakeAll

variable [DecidableEq S] (order : List (Charge K S))

theorem takeAll_perm : (l.takeAll order).1.Perm l.pending := by
  unfold takeAll
  split
  next h => exact isPerm_iff.1 h
  · exact List.Perm.refl _

@[simp] theorem pending_takeAll : (l.takeAll order).2.pending = [] := rfl

theorem writing_takeAll (k : K) : (l.takeAll order).2.writing k = l.writing k + owed (l.takeAll order).1 k :=
  writing_foldl _ _ k

theorem Exact.takeAll {l : ChargeLedger K S} {k : K} (h : l.Exact k) : (l.takeAll order).2.Exact k := by
  unfold Exact at h ⊢
  rw [writing_takeAll, owed_perm (l.takeAll_perm order), pending_takeAll]
  exact h

end TakeAll

end ChargeLedger

end RelayMiner.Transport
