import Mathlib.Data.List.Basic
/-!
# Logs

What a component did, in order. `Each Q` judges every event by the events before
it, so "the right one, in view of what had happened" is a property of the log and
is kept by appending events that are right when they are appended.
-/

namespace RelayMiner.Lib

open List

variable {ε α : Type} {Q : List ε → ε → Prop}

/-- Every event of the log is one that `Q` allows after the events before it. -/
def Each (Q : List ε → ε → Prop) (log : List ε) : Prop := ∀ past e rest, log = past ++ e :: rest → Q past e

theorem each_nil : Each Q [] := by
  intro past e rest h
  simp at h

theorem each_cons (e : ε) (log : List ε) : Each Q (e :: log) ↔ Q [] e ∧ Each (fun past => Q (e :: past)) log := by
  refine ⟨fun h => ⟨h [] e log rfl, fun past e' rest hlog => h (e :: past) e' rest (by simp [hlog])⟩, ?_⟩
  rintro ⟨h₀, h⟩ past e' rest hlog
  cases past with
  | nil =>
    obtain ⟨rfl, -⟩ := List.cons.inj hlog
    exact h₀
  | cons a past =>
    obtain ⟨rfl, htail⟩ := List.cons.inj hlog
    exact h past e' rest htail

theorem each_append (log new : List ε) :
    Each Q (log ++ new) ↔ Each Q log ∧ Each (fun past => Q (log ++ past)) new := by
  induction log generalizing Q with
  | nil => simp [each_nil]
  | cons e log ih => simp only [cons_append, each_cons, ih, and_assoc]

theorem each_singleton (e : ε) : Each Q [e] ↔ Q [] e := by simp [each_cons, each_nil]

theorem each_map (f : α → ε) (xs : List α) (h : ∀ pre x post, xs = pre ++ x :: post → Q (pre.map f) (f x)) :
    Each Q (xs.map f) := by
  intro past e rest hlog
  obtain ⟨pre, tail, rfl, rfl, htail⟩ := map_eq_append_iff.1 hlog
  obtain ⟨x, post, rfl, rfl, rfl⟩ := map_eq_cons_iff.1 htail
  exact h pre x post rfl

/-- What stands before every `e` of the log is in the past of each `e`. -/
theorem mem_past (front : List ε) {tail past rest : List ε} {e : ε} (he : e ∉ front)
    (h : front ++ tail = past ++ e :: rest) {x : ε} (hx : x ∈ front) : x ∈ past := by
  rcases append_eq_append_iff.1 h with ⟨as, rfl, -⟩ | ⟨bs, rfl, hbs⟩
  · exact mem_append_left as hx
  cases bs with
  | nil => simpa using hx
  | cons b bs =>
    obtain ⟨rfl, -⟩ := List.cons.inj hbs
    exact absurd (mem_append_right past mem_cons_self) he

end RelayMiner.Lib
