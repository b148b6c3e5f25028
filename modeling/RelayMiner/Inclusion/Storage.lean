import RelayMiner.Inclusion.Resend
import RelayMiner.Lib.Runs
/-!
# `RebroadcastStorage`

What the inclusion reconciler asks of its store, and what both stores do with
it. A group has its payloads and one lifetime that every `Put` renews; the
outlook of a group is what `List` returns of it now and at any later time if
nothing more is done. Each operation changes the outlook of the group it names
and of no other (`Refines`), whatever keys, sets and records a store keeps for
that.

Time is in milliseconds, a lifetime in whole seconds, and the store's clock is
the server's.
-/
open RelayMiner.Lib Function

namespace RelayMiner.Inclusion.Storage

/-- A phase and one supplier's batch for a session end. A supplier address has no NUL byte. -/
structure Group where
  phase : RebroadcastPhase
  supplier : Bytes
  sessionEnd : Int64
  nonul : 0 ∉ supplier
  deriving DecidableEq

abbrev RebroadcastGroup := Bytes × Int64

def Group.listed (g : Group) : RebroadcastGroup := (g.supplier, g.sessionEnd)

theorem Group.ext_listed {g g' : Group} (hphase : g.phase = g'.phase) (hlisted : g.listed = g'.listed) : g = g' := by
  obtain ⟨phase, supplier, sessionEnd, _⟩ := g
  obtain ⟨rfl, rfl⟩ := Prod.mk.inj hlisted
  cases hphase
  rfl

/-- An operation on a store, or time that passes. `committed` is whether the batch in which the embedded store drops
groups reached the disk: it is the second commit of `Delete`, and the only one of the two after it. -/
inductive Op where
  | put (g : Group) (sessionID payload : Bytes)
  | delete (g : Group) (sessionID : Bytes) (committed : Bool)
  | cleanupIfEmpty (g : Group) (committed : Bool)
  | activeGroups (phase : RebroadcastPhase) (committed : Bool)
  | wait (ms : Nat)

/-- The lifetime both stores are built with, in milliseconds: an hour when none is given. -/
def lifetime (ttl : Nat) : Nat := 1000 * if ttl = 0 then 3600 else ttl

theorem lifetime_pos (ttl : Nat) : 0 < lifetime ttl := by
  unfold lifetime
  split <;> omega

/-! ## The outlook of a group -/

abbrev Payloads := Bytes → Option Bytes

def nothing : Payloads := fun _ => none

@[simp] theorem update_nothing (sessionID : Bytes) : update nothing sessionID none = nothing :=
  update_eq_self sessionID nothing

abbrev Outlook := Nat → Payloads

def Op.elapsed : Op → Nat
  | .wait ms => ms
  | _ => 0

def Op.concerns (g : Group) : Op → Bool
  | .put g' _ _ | .delete g' _ _ | .cleanupIfEmpty g' _ => g' = g
  | .activeGroups _ _ => false
  | .wait _ => true

def Op.effect (running : Nat → Nat → Bool) (ttl now : Nat) (g : Group) (f : Outlook) : Op → Outlook
  | .put g' sessionID payload =>
    if g' = g then
      fun t => if running t (now + lifetime ttl) then update (f now) sessionID (some payload) else nothing
    else f
  | .delete g' sessionID _ => if g' = g then fun t => update (f t) sessionID none else f
  | _ => f

variable {g : Group}

attribute [local simp] Op.effect

variable {running : Nat → Nat → Bool}

/-- An operation on another group has no effect. -/
theorem Op.effect_of_not_concerns {ttl now : Nat} {f : Outlook} {a : Op}
    (h : a.concerns g = false) : a.effect running ttl now g f = f ∧ a.elapsed = 0 := by
  cases a with
  | put g' sessionID payload | delete g' sessionID committed =>
    have hne : g' ≠ g := by simpa [Op.concerns] using h
    simp [Op.elapsed, hne]
  | cleanupIfEmpty | activeGroups => exact ⟨rfl, rfl⟩
  | wait ms => cases h

/-- What is not a `Put` of the group does the same at every time, in any store. -/
theorem Op.effect_of_ne_put {a : Op} (h : ∀ sessionID payload, a ≠ .put g sessionID payload) :
    ∃ F : Payloads → Payloads, F nothing = nothing ∧
      ∀ running ttl now f t, a.effect running ttl now g f t = F (f t) := by
  cases a with
  | put g' sessionID payload =>
    have hne : g' ≠ g := fun hg => h sessionID payload (by rw [hg])
    exact ⟨id, rfl, fun _ _ _ _ _ => by simp [hne]⟩
  | delete g' sessionID committed =>
    by_cases hg : g' = g
    · exact ⟨(update · sessionID none), update_nothing sessionID, fun _ _ _ _ _ => by simp [hg]⟩
    · exact ⟨id, rfl, fun _ _ _ _ _ => by simp [hg]⟩
  | _ => exact ⟨id, rfl, fun _ _ _ _ _ => rfl⟩

/-- The effect reads the outlook from now on. -/
theorem Op.effect_congr {ttl now : Nat} {f f' : Outlook}
    (h : ∀ t, now ≤ t → f t = f' t) (a : Op) {t : Nat} (ht : now ≤ t) :
    a.effect running ttl now g f t = a.effect running ttl now g f' t := by
  cases a with
  | put g' sessionID payload =>
    by_cases hg : g' = g
    · simp [hg, h now (Nat.le_refl now)]
    · simp [hg, h t ht]
  | delete g' sessionID committed =>
    by_cases hg : g' = g <;> simp [hg, h t ht]
  | _ => exact h t ht

/-! ## Stores that do as they are asked -/

section

variable {σ : Type} (running : Nat → Nat → Bool) (ttl : Nat)

structure Refines (I : σ → Prop) (clock : σ → Nat) (outlook : σ → Group → Outlook) (step : σ → Op → σ) : Prop where
  inv : ∀ s a, I s → I (step s a)
  ticks : ∀ s a, I s → clock (step s a) = clock s + a.elapsed
  acts : ∀ s a g t, I s → clock s + a.elapsed ≤ t →
    outlook (step s a) g t = a.effect running ttl (clock s) g (outlook s g) t

variable {running ttl} {I : σ → Prop} {clock : σ → Nat} {outlook : σ → Group → Outlook} {step : σ → Op → σ}

/-- Two states that look alike for a group look alike after the same operations on it, whatever is done to others. -/
theorem Refines.alike (h : Refines running ttl I clock outlook step) (g : Group) (ops : List Op) {s s' : σ}
    (hs : I s) (hs' : I s') (hc : clock s = clock s')
    (ho : ∀ t, clock s ≤ t → outlook s g t = outlook s' g t) :
    clock (run step s ops) = clock (run step s' (ops.filter (·.concerns g))) ∧
      ∀ t, clock (run step s ops) ≤ t →
        outlook (run step s ops) g t = outlook (run step s' (ops.filter (·.concerns g))) g t := by
  induction ops generalizing s s' with
  | nil => exact ⟨hc, ho⟩
  | cons a ops ih =>
    have hclock := h.ticks s a hs
    cases hcon : a.concerns g with
    | true =>
      rw [List.filter_cons_of_pos (by simpa using hcon)]
      refine ih (h.inv s a hs) (h.inv s' a hs') ?_ fun t ht => ?_
      · rw [hclock, h.ticks s' a hs', hc]
      rw [hclock] at ht
      rw [h.acts s a g t hs ht, h.acts s' a g t hs' (hc ▸ ht), ← hc]
      exact a.effect_congr ho (by omega)
    | false =>
      rw [List.filter_cons_of_neg (by simp [hcon])]
      have hid : ∀ f, a.effect running ttl (clock s) g f = f ∧ a.elapsed = 0 := fun f => Op.effect_of_not_concerns hcon
      have hel := (hid (outlook s g)).2
      refine ih (h.inv s a hs) hs' ?_ fun t ht => ?_
      · rw [hclock, hel, Nat.add_zero, hc]
      rw [hclock] at ht
      rw [h.acts s a g t hs ht, (hid _).1]
      exact ho t (by omega)

/-- What a store returns of a group now is what it would had nothing been done to another. -/
theorem Refines.isolated (h : Refines running ttl I clock outlook step) {s : σ} (hs : I s) (g : Group) (ops : List Op) :
    outlook (run step s ops) g (clock (run step s ops)) =
      outlook (run step s (ops.filter (·.concerns g))) g (clock (run step s (ops.filter (·.concerns g)))) := by
  obtain ⟨hclock, hout⟩ := h.alike g ops hs hs rfl fun _ _ => rfl
  rw [← hclock]
  exact hout _ (Nat.le_refl _)

end

end RelayMiner.Inclusion.Storage
