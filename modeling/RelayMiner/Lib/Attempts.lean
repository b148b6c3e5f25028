import RelayMiner.Lib.Calls
/-!
# Calls that are cut and made again

One call at a time runs over a store. It may be cut between any two of its
operations, and is then made again from its beginning over what the cut left.
`Prog.Along` says what holds before each operation of a call and at its end, as
long as the answers are those that `Ok` allows; `along_run` carries it through any
number of attempts.
-/

namespace RelayMiner.Lib

section

variable {σ ω ρ φ κ : Type}

/-- `A` holds before each operation of the call, and `Q` at its end. -/
def Prog.Along (exec : σ → ω → φ → σ × ρ) (Ok : σ → ω → φ → Prop) (A : σ → ω → Prop) (Q : σ → Prop) :
    Prog ω ρ → σ → Prop
  | .ret, s => Q s
  | .op o k, s => A s o ∧ ∀ f, Ok s o f → (k (exec s o f).2).Along exec Ok A Q (exec s o f).1

structure Attempt (σ ω ρ : Type) where
  store : σ
  left : Prog ω ρ

inductive Try (κ φ : Type) where
  | start (c : κ)
  | next (f : φ)
  | crash

variable (begin cut : σ → σ) (body : κ → Prog ω ρ) (exec : σ → ω → φ → σ × ρ)

def stepTry (t : Attempt σ ω ρ) : Try κ φ → Attempt σ ω ρ
  | .start c =>
    match t.left with
    | .ret => ⟨begin t.store, body c⟩
    | .op _ _ => t
  | .next f =>
    match t.left with
    | .ret => t
    | .op o k => ⟨(exec t.store o f).1, k (exec t.store o f).2⟩
  | .crash =>
    match t.left with
    | .ret => t
    | .op _ _ => ⟨cut t.store, .ret⟩

/-- The answers are as `Ok` says, and the call is cut only where `Cut` says. -/
def Allowed (Ok : σ → ω → φ → Prop) (Cut : σ → ω → Prop) (t : Attempt σ ω ρ) : Try κ φ → Prop
  | .start _ => True
  | .next f => ∀ o ∈ t.left.next?, Ok t.store o f
  | .crash => ∀ o ∈ t.left.next?, Cut t.store o

variable {begin cut body exec} {Ok : σ → ω → φ → Prop} {Cut A : σ → ω → Prop} {Q : σ → Prop}

section
variable (hbody : ∀ s c, Q s → (body c).Along exec Ok A Q (begin s))
include hbody

theorem along_step
    (hcut : ∀ s o, A s o → Cut s o → Q (cut s)) {t : Attempt σ ω ρ} (h : t.left.Along exec Ok A Q t.store) (a : Try κ φ)
    (ha : Allowed Ok Cut t a) :
    (stepTry begin cut body exec t a).left.Along exec Ok A Q (stepTry begin cut body exec t a).store := by
  obtain ⟨s, p⟩ := t
  cases p with
  | ret =>
    cases a with
    | start c => exact hbody s c h
    | next f | crash => exact h
  | op o k =>
    cases a with
    | start c => exact h
    | next f => exact h.2 f (ha o rfl)
    | crash => exact hcut s o h.1 (ha o rfl)

theorem along_run (hcut : ∀ s o, A s o → Cut s o → Q (cut s)) {s : σ} (hs : Q s) {as : List (Try κ φ)}
    (hm : Meets (stepTry begin cut body exec) (Allowed Ok Cut) ⟨s, .ret⟩ as) :
    let t := run (stepTry begin cut body exec) ⟨s, .ret⟩ as
    t.left.Along exec Ok A Q t.store :=
  inv_of_meets (fun t => t.left.Along exec Ok A Q t.store) (fun _ a h ha => along_step hbody hcut h a ha) hs hm
end

/-- What holds before each operation and at the end holds in every state. -/
theorem Prog.Along.always {I : σ → Prop} (hA : ∀ s o, A s o → I s) (hQ : ∀ s, Q s → I s) {p : Prog ω ρ} {s : σ}
    (h : p.Along exec Ok A Q s) : I s := by
  cases p with
  | ret => exact hQ s h
  | op o k => exact hA s o h.1

end

end RelayMiner.Lib
