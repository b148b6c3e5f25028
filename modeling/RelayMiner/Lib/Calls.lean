import RelayMiner.Lib.Runs
/-!
# Calls interleaved over one store

A call is the list of operations it makes on a shared store, each one chosen
from the reply to the one before. `stepCalls` moves any number of them in any
order, one store operation at a time; the reply and the effect of an operation
come from `exec`, with the fault the environment picked. A call whose process
dies between two operations is dropped where it stands.
-/

namespace RelayMiner.Lib

open Function

/-- How a round trip goes: it works, nothing reaches the store, or the write lands and its answer is lost. -/
inductive Fault where
  | ok | refused | lost
  deriving DecidableEq

/-- What is left of a call: nothing, or an operation and what follows its reply. -/
inductive Prog (ω ρ : Type) where
  | ret
  | op (o : ω) (k : ρ → Prog ω ρ)

variable {ω ρ : Type}

def Prog.next? : Prog ω ρ → Option ω
  | .ret => none
  | .op o _ => some o

@[simp] theorem Prog.next?_ret : (Prog.ret : Prog ω ρ).next? = none := rfl

@[simp] theorem Prog.next?_op (o : ω) (k : ρ → Prog ω ρ) : (Prog.op o k).next? = some o := rfl

theorem Prog.eq_op_of_next? {p : Prog ω ρ} {o : ω} (h : p.next? = some o) : ∃ k, p = .op o k := by
  cases p with
  | ret => cases h
  | op o k =>
    cases h
    exact ⟨k, rfl⟩

def Prog.andThen (p q : Prog ω ρ) : Prog ω ρ :=
  match p with
  | .ret => q
  | .op o k => .op o fun r => (k r).andThen q

def Prog.mapOp {ω ω' ρ : Type} (f : ω → ω') : Prog ω ρ → Prog ω' ρ
  | .ret => .ret
  | .op o k => .op (f o) fun r => (k r).mapOp f

def Prog.complete {σ ω ρ : Type} (apply : σ → ω → σ × ρ) : Prog ω ρ → σ → σ
  | .ret, s => s
  | .op o k, s => (k (apply s o).2).complete apply (apply s o).1

structure Conf (σ ω ρ : Type) where
  store : σ
  calls : Nat → Prog ω ρ

inductive Move (κ φ ε : Type) where
  | start (i : Nat) (c : κ)
  | next (i : Nat) (f : φ)
  | drop (i : Nat)
  | env (e : ε)

section

variable {σ ω ρ κ φ ε : Type} (body : κ → Prog ω ρ) (exec : σ → ω → φ → σ × ρ) (happen : σ → ε → σ)

def stepCalls (c : Conf σ ω ρ) : Move κ φ ε → Conf σ ω ρ
  | .start i k =>
    match c.calls i with
    | .ret => { c with calls := update c.calls i (body k) }
    | .op _ _ => c
  | .next i f =>
    match c.calls i with
    | .ret => c
    | .op o k => ⟨(exec c.store o f).1, update c.calls i (k (exec c.store o f).2)⟩
  | .drop i => { c with calls := update c.calls i .ret }
  | .env e => { c with store := happen c.store e }

attribute [local simp] stepCalls

theorem stepCalls_cases (c : Conf σ ω ρ) (m : Move κ φ ε) :
    stepCalls body exec happen c m = c ∨
    -- A call starts in a free slot.
    (∃ i k, m = .start i k ∧ c.calls i = .ret ∧
      stepCalls body exec happen c m = { c with calls := update c.calls i (body k) }) ∨
    -- A call in flight makes its next operation.
    (∃ i f o k, m = .next i f ∧ c.calls i = .op o k ∧
      stepCalls body exec happen c m =
        ⟨(exec c.store o f).1, update c.calls i (k (exec c.store o f).2)⟩) ∨
    -- A call is lost with its process.
    (∃ i, m = .drop i ∧ stepCalls body exec happen c m = { c with calls := update c.calls i .ret }) ∨
    -- The store changes by itself.
    (∃ e, m = .env e ∧ stepCalls body exec happen c m = { c with store := happen c.store e }) := by
  cases m with
  | start i k =>
    cases hi : c.calls i with
    | ret => exact .inr (.inl ⟨i, k, rfl, hi, by simp [hi]⟩)
    | op o r => exact .inl (by simp [hi])
  | next i f =>
    cases hi : c.calls i with
    | ret => exact .inl (by simp [hi])
    | op o k => exact .inr (.inr (.inl ⟨i, f, o, k, rfl, hi, by simp [hi]⟩))
  | drop i => exact .inr (.inr (.inr (.inl ⟨i, rfl, rfl⟩)))
  | env e => exact .inr (.inr (.inr (.inr ⟨e, rfl, rfl⟩)))

end

variable {ω ρ : Type} {p : Prog ω ρ}

/-- A fact about every slot survives the replacement of one slot by a call that has it. -/
theorem forall_update {P : Prog ω ρ → Prop} {calls : Nat → Prog ω ρ} (i : Nat)
    (h : ∀ j, P (calls j)) (hp : P p) : ∀ j, P (update calls i p j) := by
  intro j
  by_cases hj : j = i
  · subst hj; simpa using hp
  · simpa [update_of_ne hj] using h j

/-! ## What follows what -/

/-- Each reply leaves the call where `L` allows: at its end, or before its next operation. -/
def Prog.Follows (L : ω → ρ → Option ω → Prop) : Prog ω ρ → Prop
  | .ret => True
  | .op o k => ∀ r, (k r).Follows L ∧ L o r (k r).next?

variable {σ : Type} {L : ω → ρ → Option ω → Prop} {P : σ → ω → Prop}

/-- The calls follow `L`, and the operation each makes next finds the store as `P` says. -/
structure Conf.Kept (L : ω → ρ → Option ω → Prop) (P : σ → ω → Prop) (c : Conf σ ω ρ) : Prop where
  follows : ∀ i, (c.calls i).Follows L
  fits : ∀ i, ∀ o ∈ (c.calls i).next?, P c.store o

theorem Conf.Kept.idle (s : σ) : Conf.Kept L P ⟨s, fun _ => .ret⟩ := ⟨fun _ => trivial, fun _ => nofun⟩

variable {c : Conf σ ω ρ}

theorem Conf.Kept.start (h : c.Kept L P) (i : Nat) (hp : p.Follows L)
    (hfit : ∀ o ∈ p.next?, P c.store o) : Conf.Kept L P { c with calls := update c.calls i p } :=
  ⟨forall_update i h.follows hp, forall_update (P := fun p => ∀ o ∈ p.next?, P c.store o) i h.fits hfit⟩

theorem Conf.Kept.store (h : c.Kept L P) {s : σ} (hs : ∀ o, P c.store o → P s o) :
    Conf.Kept L P { c with store := s } :=
  ⟨h.follows, fun i o ho => hs o (h.fits i o ho)⟩

/-- A call makes its operation: the others still fit the store, and so does what may follow. -/
theorem Conf.Kept.next (h : c.Kept L P) {i : Nat} {o : ω} {k : ρ → Prog ω ρ} (hi : c.calls i = .op o k)
    {s : σ} {r : ρ} (hothers : ∀ j, j ≠ i → ∀ o' ∈ (c.calls j).next?, P s o') (hown : ∀ o', L o r (some o') → P s o') :
    Conf.Kept L P ⟨s, update c.calls i (k r)⟩ := by
  have hf : (Prog.op o k).Follows L := hi ▸ h.follows i
  refine ⟨forall_update i h.follows (hf r).1, fun j => ?_⟩
  by_cases hj : j = i
  · subst hj
    have hnext : ∀ o' ∈ (k r).next?, P s o' := fun o' ho' => hown o' (Option.mem_def.1 ho' ▸ (hf r).2)
    simpa using hnext
  · simpa [update_of_ne hj] using hothers j hj

/-! ## One at a time -/

def Conf.Alone (T : ω → Prop) (c : Conf σ ω ρ) : Prop :=
  ∀ i j o o', (c.calls i).next? = some o → (c.calls j).next? = some o' → T o → T o' → i = j

theorem Conf.Alone.idle (T : ω → Prop) (s : σ) : Conf.Alone T (⟨s, fun _ => .ret⟩ : Conf σ ω ρ) := nofun

/-- A call that comes to such an operation must find no other call at one. -/
theorem Conf.Alone.update {T : ω → Prop} (h : c.Alone T) (i : Nat) (s : σ)
    (hp : ∀ o, p.next? = some o → T o → ∀ j, j ≠ i → ∀ o', (c.calls j).next? = some o' → ¬ T o') :
    Conf.Alone T ⟨s, update c.calls i p⟩ := by
  intro a b oa ob ha hb hta htb
  dsimp only at ha hb
  by_cases hai : a = i <;> by_cases hbi : b = i
  · rw [hai, hbi]
  · subst hai
    rw [update_self] at ha
    rw [update_of_ne hbi] at hb
    exact absurd htb (hp oa ha hta b hbi ob hb)
  · subst hbi
    rw [update_self] at hb
    rw [update_of_ne hai] at ha
    exact absurd hta (hp ob hb htb a hai oa ha)
  rw [update_of_ne hai] at ha
  rw [update_of_ne hbi] at hb
  exact h a b oa ob ha hb hta htb

end RelayMiner.Lib
