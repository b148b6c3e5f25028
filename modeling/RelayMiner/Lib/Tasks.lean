import Mathlib.Data.List.Basic
/-!
# Tasks over a store whose values expire

A task is the commands it sends, each one chosen from the reply to the one
before, and a result. `drive` runs it alone, one round trip at a time; when the
environment has no further round for it the process has died, and what it did
until then is done. A timed value is gone after its deadline, with nobody
deleting it.
-/

namespace RelayMiner.Lib

/-! ## Values that expire -/

structure Timed (α : Type) where
  value : α
  deadline : Nat

section

variable {α : Type}

def live (now : Nat) (t : Option (Timed α)) : Option α := t.bind fun t => if now ≤ t.deadline then some t.value else none

/-- Written at `now` to live for `ttl`; with no time to live it is not written at all. -/
def timed (now ttl : Nat) (v : α) : Option (Timed α) := if ttl = 0 then none else some ⟨v, now + ttl⟩

theorem live_eq_some {now : Nat} {t : Option (Timed α)} {v : α} :
    live now t = some v ↔ ∃ d, t = some ⟨v, d⟩ ∧ now ≤ d := by
  unfold live
  cases t with
  | none => simp
  | some t =>
    obtain ⟨u, d⟩ := t
    by_cases h : now ≤ d
    · simp [h]
    · simp [h]

theorem live_of_le {now later : Nat} (h : now ≤ later) {t : Option (Timed α)} {v : α} (hv : live later t = some v) :
    live now t = some v := by
  obtain ⟨d, ht, hd⟩ := live_eq_some.1 hv
  exact live_eq_some.2 ⟨d, ht, Nat.le_trans h hd⟩

theorem live_timed_self {now ttl : Nat} (h : 0 < ttl) (v : α) : live now (timed now ttl v) = some v := by
  rw [timed, if_neg (by omega)]
  exact live_eq_some.2 ⟨_, rfl, by omega⟩

end

/-! ## Tasks -/

inductive Task (ω ρ α : Type) where
  | done (a : α)
  | op (o : ω) (k : ρ → Task ω ρ α)

section

variable {σ ω ρ ε α : Type} (exec : σ → ω → ε → σ × ρ)

/-- The store after the task, and its result unless the process died on the way. -/
def Task.drive : Task ω ρ α → List ε → σ → σ × Option α
  | .done a, _, s => (s, some a)
  | .op _ _, [], s => (s, none)
  | .op o k, e :: es, s => (k (exec s o e).2).drive es (exec s o e).1

/-- Every round meets `G` in the state before it, and where the process dies the rest was not needed (`D`). -/
def Task.Meets (G : σ → ω → ε → Prop) (D : σ → ω → Prop) : Task ω ρ α → List ε → σ → Prop
  | .done _, _, _ => True
  | .op o _, [], s => D s o
  | .op o k, e :: es, s => G s o e ∧ (k (exec s o e).2).Meets G D es (exec s o e).1

def Task.Sends (P : ω → Prop) : Task ω ρ α → Prop
  | .done _ => True
  | .op o k => P o ∧ ∀ r, (k r).Sends P

variable {exec} {G : σ → ω → ε → Prop} {D : σ → ω → Prop}

/-- What every round of such a command keeps the task keeps, wherever it stops. -/
theorem Task.inv_of_meets {P : ω → Prop} {I : σ → Prop} (hstep : ∀ s o e, P o → I s → G s o e → I (exec s o e).1)
    {t : Task ω ρ α} (ht : t.Sends P) {es : List ε} {s : σ} (h0 : I s) (hm : t.Meets exec G D es s) :
    I (t.drive exec es s).1 := by
  induction t generalizing es s with
  | done a => exact h0
  | op o k ih =>
    cases es with
    | nil => exact h0
    | cons e es => exact ih _ (ht.2 _) (hstep s o e ht.1 h0 hm.1) hm.2

end

end RelayMiner.Lib
