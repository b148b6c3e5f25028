import Mathlib.Data.List.Basic
/-!
# Runs of a step function

A system is a total step function: what the environment chooses (which call
moves, which write fails, where the process dies) is in the action, so a run is
a list of actions and a theorem about every list is a theorem about every
interleaving. `Meets` is a run whose steps all satisfy a condition on the state
before the step; `inv_of_meets` is the induction the safety theorems go through.
-/

namespace RelayMiner.Lib

variable {σ α : Type} {as : List α} {s : σ}

def run (step : σ → α → σ) (s : σ) (as : List α) : σ := as.foldl step s

/-- Every step of the run meets `G` in the state it is taken from. -/
def Meets (step : σ → α → σ) (G : σ → α → Prop) : σ → List α → Prop
  | _, [] => True
  | s, a :: as => G s a ∧ Meets step G (step s a) as

variable {step : σ → α → σ} {G : σ → α → Prop}

instance [∀ s a, Decidable (G s a)] : ∀ s as, Decidable (Meets step G s as)
  | _, [] => isTrue trivial
  | s, a :: as =>
    have : Decidable (Meets step G (step s a) as) := instDecidableMeets (step s a) as
    inferInstanceAs (Decidable (G s a ∧ Meets step G (step s a) as))

@[simp] theorem run_nil (s : σ) : run step s [] = s := rfl

@[simp] theorem run_cons (s : σ) (a : α) (as : List α) : run step s (a :: as) = run step (step s a) as := rfl

theorem run_append (s : σ) (as bs : List α) : run step s (as ++ bs) = run step (run step s as) bs :=
  List.foldl_append

@[simp] theorem meets_nil (s : σ) : Meets step G s [] := trivial

@[simp] theorem meets_cons (s : σ) (a : α) (as : List α) :
    Meets step G s (a :: as) ↔ G s a ∧ Meets step G (step s a) as := Iff.rfl

theorem meets_append (s : σ) (as bs : List α) :
    Meets step G s (as ++ bs) ↔ Meets step G s as ∧ Meets step G (run step s as) bs := by
  induction as generalizing s with
  | nil => simp
  | cons a as ih => simp [ih, and_assoc]

theorem Meets.imp {H : σ → α → Prop} (hGH : ∀ s a, G s a → H s a) (h : Meets step G s as) : Meets step H s as := by
  induction as generalizing s with
  | nil => trivial
  | cons a as ih => exact ⟨hGH s a h.1, ih h.2⟩

theorem Meets.and {H : σ → α → Prop} (hG : Meets step G s as) (hH : Meets step H s as) :
    Meets step (fun s a => G s a ∧ H s a) s as := by
  induction as generalizing s with
  | nil => trivial
  | cons a as ih => exact ⟨⟨hG.1, hH.1⟩, ih hG.2 hH.2⟩

/-- An invariant kept by every step that meets `G` holds after every run that meets `G`. -/
theorem inv_of_meets (I : σ → Prop) (hs : ∀ s a, I s → G s a → I (step s a)) (h0 : I s) (hm : Meets step G s as) :
    I (run step s as) := by
  induction as generalizing s with
  | nil => exact h0
  | cons a as ih => exact ih (hs s a h0 hm.1) hm.2

/-- An invariant of every step, with no condition on the run. -/
theorem inv_of_run (I : σ → Prop) (hs : ∀ s a, I s → I (step s a)) (as : List α) (h0 : I s) :
    I (run step s as) := by
  induction as generalizing s with
  | nil => exact h0
  | cons a as ih => exact ih (hs s a h0)

/-! ## One of several -/

/-- The party in slot `i`, and those around it. -/
theorem slot_split {l : List α} {i : Nat} {a : α} (h : l[i]? = some a) :
    ∃ pre post, l = pre ++ a :: post ∧ (∀ b, l.set i b = pre ++ b :: post) ∧ l.eraseIdx i = pre ++ post := by
  obtain ⟨hi, rfl⟩ := List.getElem?_eq_some_iff.1 h
  refine ⟨l.take i, l.drop (i + 1), ?_, fun b => ?_, ?_⟩
  · rw [← List.drop_eq_getElem_cons hi, List.take_append_drop]
  · rw [List.set_eq_take_append_cons_drop, if_pos hi]
  · rw [List.eraseIdx_eq_take_drop_succ]

end RelayMiner.Lib
