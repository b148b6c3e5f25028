import Mathlib.Data.UInt
import RelayMiner.Lib.Runs
/-!
# The ingestion memory brake

`evaluateMemoryBrake` (`ingestion_memory_brake.go`) closes and reopens the brake
from one reading of the process's memory, once a second, in one goroutine. The
clock is in nanoseconds and 0 is the zero time. What an evaluation reads is the
environment's, and it reads again after a collection that it forces.
-/
open RelayMiner.Lib

namespace RelayMiner.Smst.MemoryBrake

def maxMargin : UInt64 := 2 ^ 30

def margin (limit : UInt64) : UInt64 := min maxMargin (limit / 8)

def closeAbove (limit : UInt64) : UInt64 := limit - margin limit

def reopenBelow (limit : UInt64) : UInt64 := limit - margin limit - margin limit / 2

def brakeOverageTicks : Nat := 2

def brakeReopenAfter : Int := 10 * 10 ^ 9

def brakeCollectAfter : Int := 60 * 10 ^ 9

structure Reading where
  mapped : UInt64
  live : UInt64

structure Evaluation where
  limit : UInt64
  first : Reading
  checkedAt : Int
  lastGC : Int
  collected : Reading
  now : Int

/-- The reading a closed brake decides by. -/
def Evaluation.final (e : Evaluation) : Reading :=
  if e.first.live ≥ reopenBelow e.limit ∧ e.checkedAt - e.lastGC ≥ brakeCollectAfter then e.collected else e.first

def Evaluation.over (e : Evaluation) : Prop := e.first.mapped > e.limit

def Evaluation.within (e : Evaluation) : Prop := e.final.live < reopenBelow e.limit ∧ e.final.mapped ≤ e.limit

instance (e : Evaluation) : Decidable e.over := inferInstanceAs (Decidable (_ > _))

structure Brake where
  brakeClosed : Bool := false
  brakeOverages : Nat := 0
  brakeWithinSince : Int := 0

def evaluateMemoryBrake (b : Brake) (e : Evaluation) : Brake :=
  let b := { b with brakeOverages := if e.over then b.brakeOverages + 1 else 0 }
  if b.brakeClosed = false then
    if b.brakeOverages ≥ brakeOverageTicks ∨ e.first.live > closeAbove e.limit then
      { b with brakeWithinSince := 0, brakeClosed := true }
    else b
  else if e.final.live ≥ reopenBelow e.limit ∨ e.final.mapped > e.limit then { b with brakeWithinSince := 0 }
  else if b.brakeWithinSince = 0 then { b with brakeWithinSince := e.now }
  else if e.now - b.brakeWithinSince < brakeReopenAfter then b
  else { b with brakeClosed := false }

/-- The brake with the evaluation before, the one that closed it and those made closed since. -/
structure World where
  brake : Brake := {}
  last : Option Evaluation := none
  closing : Option Evaluation := none
  since : List Evaluation := []

/-- Beside the brake: the evaluation before this, the one that closed it, and those made since. -/
def step (w : World) (e : Evaluation) : World :=
  { brake := evaluateMemoryBrake w.brake e
    last := some e
    closing := if w.brake.brakeClosed then w.closing else some e
    since := if w.brake.brakeClosed then e :: w.since else [] }

/-- The clock does not go back. -/
def Clock (w : World) (e : Evaluation) : Prop := ∀ p ∈ w.last, p.now ≤ e.now

def Closes (w : World) (e : Evaluation) : Prop :=
  w.brake.brakeClosed = false ∧ (evaluateMemoryBrake w.brake e).brakeClosed = true

def Reopens (w : World) (e : Evaluation) : Prop :=
  w.brake.brakeClosed = true ∧ (evaluateMemoryBrake w.brake e).brakeClosed = false

structure Inv (w : World) : Prop where
  overages : 0 < w.brake.brakeOverages → ∃ p ∈ w.last, p.over
  past : ∀ x ∈ w.since, ∃ p ∈ w.last, x.now ≤ p.now
  since : w.brake.brakeWithinSince ≠ 0 → ∀ x ∈ w.since, x.within ∨ x.now ≤ w.brake.brakeWithinSince
  closing : w.brake.brakeClosed = true → ∃ c ∈ w.closing, (∃ p ∈ w.last, c.now ≤ p.now) ∧
    (w.brake.brakeWithinSince ≠ 0 → c.now ≤ w.brake.brakeWithinSince)

variable {w : World} {e : Evaluation}

theorem not_within (h : ¬ (e.final.live ≥ reopenBelow e.limit ∨ e.final.mapped > e.limit)) : e.within := by
  obtain ⟨hl, hm⟩ := not_or.mp h
  exact ⟨UInt64.not_le.mp hl, UInt64.not_lt.mp hm⟩

theorem overages_evaluate (b : Brake) (e : Evaluation) :
    (evaluateMemoryBrake b e).brakeOverages = if e.over then b.brakeOverages + 1 else 0 := by
  simp only [evaluateMemoryBrake]
  split_ifs <;> rfl

/-- The stamp is kept while every evaluation is within, and is set to no earlier time than any before it. -/
theorem since_step (h : Inv w) (hc : Clock w e) (h0 : (step w e).brake.brakeWithinSince ≠ 0) :
    ∀ x ∈ (step w e).since, x.within ∨ x.now ≤ (step w e).brake.brakeWithinSince := by
  cases hb : w.brake.brakeClosed with
  | false => simp [step, hb]
  | true =>
    simp only [step, evaluateMemoryBrake, hb, Bool.true_eq_false, if_false, if_true] at h0 ⊢
    split at h0
    · exact absurd rfl h0
    next hw =>
    have hin := not_within hw
    simp only [hw, if_false]
    split
    · intro x hx
      obtain rfl | hx := List.mem_cons.mp hx
      · exact .inl hin
      · obtain ⟨p, hp, hxp⟩ := h.past x hx
        exact .inr (Int.le_trans hxp (hc p hp))
    next hz =>
    have hrest : ∀ x ∈ e :: w.since, x.within ∨ x.now ≤ w.brake.brakeWithinSince := by
      intro x hx
      obtain rfl | hx := List.mem_cons.mp hx
      · exact .inl hin
      · exact h.since hz x hx
    split <;> exact hrest

/-- The stamp is cleared when the brake closes, so it is never of an earlier time. -/
theorem closing_step (h : Inv w) (hc : Clock w e) (hclosed : (step w e).brake.brakeClosed = true) :
    ∃ c ∈ (step w e).closing, (∃ p ∈ (step w e).last, c.now ≤ p.now) ∧
      ((step w e).brake.brakeWithinSince ≠ 0 → c.now ≤ (step w e).brake.brakeWithinSince) := by
  cases hb : w.brake.brakeClosed with
  | false =>
    refine ⟨e, by simp [step, hb], ⟨e, rfl, Int.le_refl _⟩, fun h0 => absurd ?_ h0⟩
    simp only [step, evaluateMemoryBrake, hb, if_true] at hclosed ⊢
    generalize (if e.over then w.brake.brakeOverages + 1 else 0) = overages at hclosed ⊢
    split at hclosed
    next hcond => rw [if_pos hcond]
    · cases hclosed
  | true =>
    obtain ⟨c, hcl, ⟨p, hp, hcp⟩, hstamp⟩ := h.closing hb
    have hnow : c.now ≤ e.now := Int.le_trans hcp (hc p hp)
    refine ⟨c, by simpa [step, hb] using hcl, ⟨e, rfl, hnow⟩, fun h0 => ?_⟩
    simp only [step, evaluateMemoryBrake, hb, Bool.true_eq_false, if_false] at h0 ⊢
    split at h0
    · exact absurd rfl h0
    next hw =>
    simp only [hw, if_false]
    split
    · exact hnow
    next hz => split <;> exact hstamp hz

theorem inv_step (w : World) (e : Evaluation) (h : Inv w) (hc : Clock w e) : Inv (step w e) := by
  refine ⟨fun ho => ⟨e, rfl, ?_⟩, fun x hx => ⟨e, rfl, ?_⟩, since_step h hc, closing_step h hc⟩
  · simp only [step, overages_evaluate] at ho
    by_contra hno
    simp [hno] at ho
  · simp only [step] at hx
    split at hx
    · obtain rfl | hx := List.mem_cons.mp hx
      · exact Int.le_refl _
      · obtain ⟨p, hp, hxp⟩ := h.past x hx
        exact Int.le_trans hxp (hc p hp)
    · cases hx

theorem closes_cases (h : Inv w) (hclose : Closes w e) :
    e.first.live > closeAbove e.limit ∨ (e.over ∧ ∃ p ∈ w.last, p.over) := by
  obtain ⟨hb, hc⟩ := hclose
  by_contra hno
  obtain ⟨hlive, hover⟩ := not_or.mp hno
  have hfew : (if e.over then w.brake.brakeOverages + 1 else 0) < brakeOverageTicks := by
    split
    next ho =>
      have h0 : ¬ 0 < w.brake.brakeOverages := fun h0 => hover ⟨ho, h.overages h0⟩
      simp only [brakeOverageTicks]
      omega
    · decide
  simp [evaluateMemoryBrake, hb, hlive, Nat.not_le.mpr hfew] at hc

theorem reopens_within (h : Inv w) (hreopen : Reopens w e) :
    (∃ c ∈ w.closing, brakeReopenAfter ≤ e.now - c.now) ∧
      ∀ x ∈ e :: w.since, e.now - x.now < brakeReopenAfter → x.within := by
  obtain ⟨hb, hc⟩ := hreopen
  obtain ⟨c, hcl, -, hstamp⟩ := h.closing hb
  simp only [evaluateMemoryBrake, hb, Bool.true_eq_false, if_false] at hc
  split at hc
  · cases hc
  next hw =>
  split at hc
  · cases hc
  next hz =>
  split at hc
  · cases hc
  next hlong =>
  refine ⟨⟨c, hcl, by have := hstamp hz; omega⟩, fun x hx hrecent => ?_⟩
  obtain rfl | hx := List.mem_cons.mp hx
  · exact not_within hw
  · refine (h.since hz x hx).resolve_right fun hold => ?_
    omega

theorem margin_le (limit : UInt64) : (margin limit).toNat * 8 ≤ limit.toNat := by
  have h8 : (limit / 8).toNat = limit.toNat / 8 := UInt64.toNat_div _ _
  have hle : (margin limit).toNat ≤ (limit / 8).toNat := by
    show (if maxMargin ≤ limit / 8 then maxMargin else limit / 8).toNat ≤ _
    split
    next h => exact UInt64.le_iff_toNat_le.mp h
    · exact Nat.le_refl _
  omega

/-- Neither line wraps: each is below the limit by its margin. -/
theorem lines_ordered (limit : UInt64) :
    reopenBelow limit ≤ closeAbove limit ∧ (closeAbove limit).toNat + (margin limit).toNat = limit.toNat ∧
    (reopenBelow limit).toNat + (margin limit).toNat + (margin limit).toNat / 2 = limit.toNat := by
  have h := margin_le limit
  have hc : (closeAbove limit).toNat = limit.toNat - (margin limit).toNat :=
    UInt64.toNat_sub_of_le _ _ (UInt64.le_iff_toNat_le.mpr (by omega))
  unfold closeAbove at hc
  have h2 : (margin limit / 2).toNat = (margin limit).toNat / 2 := UInt64.toNat_div _ _
  have hr : (reopenBelow limit).toNat = (limit - margin limit).toNat - (margin limit / 2).toNat :=
    UInt64.toNat_sub_of_le _ _ (UInt64.le_iff_toNat_le.mpr (by omega))
  rw [UInt64.le_iff_toNat_le]
  unfold closeAbove
  omega

/-- The lines, and every history of evaluations by a clock that does not go back. -/
theorem brake_debounced :
    (∀ limit, reopenBelow limit ≤ closeAbove limit ∧ (closeAbove limit).toNat + (margin limit).toNat = limit.toNat ∧
      (reopenBelow limit).toNat + (margin limit).toNat + (margin limit).toNat / 2 = limit.toNat) ∧
    ∀ es e, Meets step Clock {} es →
      (Closes (run step {} es) e → e.first.live > closeAbove e.limit ∨
        (e.over ∧ ∃ p ∈ (run step {} es).last, p.over)) ∧
      (Reopens (run step {} es) e → (∃ c ∈ (run step {} es).closing, brakeReopenAfter ≤ e.now - c.now) ∧
        ∀ x ∈ e :: (run step {} es).since, e.now - x.now < brakeReopenAfter → x.within) := by
  refine ⟨lines_ordered, fun es e hm => ?_⟩
  have h : Inv (run step {} es) := inv_of_meets Inv inv_step ⟨nofun, nofun, nofun, nofun⟩ hm
  exact ⟨closes_cases h, reopens_within h⟩

/-- Closed by its live heap, within from the next second on, and open again ten seconds later. -/
theorem brake_debounced_reopens :
    let at' (s : Int) (live : UInt64) : Evaluation := ⟨80, ⟨40, live⟩, s * 10 ^ 9, s * 10 ^ 9, ⟨40, live⟩, s * 10 ^ 9⟩
    let w := run step {} [at' 1 75, at' 2 60, at' 7 60]
    Reopens w (at' 12 60) ∧ (∃ c ∈ w.closing, brakeReopenAfter ≤ (at' 12 60).now - c.now) ∧
      ∀ x ∈ at' 12 60 :: w.since, (at' 12 60).now - x.now < brakeReopenAfter → x.within := by
  intro at' w
  have hclock : Meets step Clock {} [at' 1 75, at' 2 60, at' 7 60] := by
    simp [Clock, step, at']
  have hreopens : Reopens w (at' 12 60) := ⟨by decide, by decide⟩
  exact ⟨hreopens, (brake_debounced.2 _ _ hclock).2 hreopens⟩

end RelayMiner.Smst.MemoryBrake
