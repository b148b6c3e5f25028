import RelayMiner.Lib.Runs
/-!
# A process that decides, then writes

A process goes from stage to stage. Where a stage is decided it may queue
writes; they are made one at a time, in order, and only then is the next stage
decided. It can die between any two writes, which loses the queue and the stage
and leaves the store as it is. `settled` is the store once the queue has been
worked off: a write does not change it, so a fact about it need only be shown
where stages are decided. `Along` is a fact that has to hold between the writes
as well.
-/

namespace RelayMiner.Lib

/-- A process over a store: the writes it owes, its stage (none once it is dead), and what it knows. -/
structure Proc (σ ω θ μ : Type) where
  store : σ
  queue : List ω := []
  stage : Option θ
  mem : μ

inductive Tick (α ε : Type) where
  | write
  | decide (a : α)
  | crash
  | env (e : ε)

/-- `P` holds now and after each of the writes, with those still to come. -/
def Along {σ ω : Type} (exec : σ → ω → σ) (P : σ → List ω → Prop) : σ → List ω → Prop
  | s, [] => P s []
  | s, w :: ws => P s (w :: ws) ∧ Along exec P (exec s w) ws

section

variable {σ ω θ μ α ε : Type} (exec : σ → ω → σ) (next : μ → θ → α → List ω × θ × μ) (happen : μ → ε → μ)
  {ws : List ω} {s : σ} {P : σ → List ω → Prop}

def stepProc (p : Proc σ ω θ μ) : Tick α ε → Proc σ ω θ μ
  | .write =>
    match p.stage, p.queue with
    | some _, w :: ws => { p with store := exec p.store w, queue := ws }
    | _, _ => p
  | .decide a =>
    match p.stage, p.queue with
    | some t, [] =>
      { p with queue := (next p.mem t a).1, stage := some (next p.mem t a).2.1, mem := (next p.mem t a).2.2 }
    | _, _ => p
  | .crash => { p with queue := [], stage := none }
  | .env e => { p with mem := happen p.mem e }

attribute [local simp] stepProc

theorem stepProc_cases (p : Proc σ ω θ μ) (k : Tick α ε) :
    stepProc exec next happen p k = p ∨
    -- A queued write is made.
    (∃ t w ws, k = .write ∧ p.stage = some t ∧ p.queue = w :: ws ∧
      stepProc exec next happen p k = { p with store := exec p.store w, queue := ws }) ∨
    -- A stage is decided.
    (∃ t a, k = .decide a ∧ p.stage = some t ∧ p.queue = [] ∧
      stepProc exec next happen p k =
        { p with queue := (next p.mem t a).1, stage := some (next p.mem t a).2.1, mem := (next p.mem t a).2.2 }) ∨
    (k = .crash ∧ stepProc exec next happen p k = { p with queue := [], stage := none }) ∨
    (∃ e, k = .env e ∧ stepProc exec next happen p k = { p with mem := happen p.mem e }) := by
  cases k with
  | write =>
    cases ht : p.stage with
    | none => exact .inl (by simp [ht])
    | some t =>
      cases hq : p.queue with
      | nil => exact .inl (by simp [ht, hq])
      | cons w ws => exact .inr (.inl ⟨t, w, ws, rfl, rfl, rfl, by simp [ht, hq]⟩)
  | decide a =>
    cases ht : p.stage with
    | none => exact .inl (by simp [ht])
    | some t =>
      cases hq : p.queue with
      | nil => exact .inr (.inr (.inl ⟨t, a, rfl, rfl, rfl, by simp [ht, hq]⟩))
      | cons w ws => exact .inl (by simp [ht, hq])
  | crash => exact .inr (.inr (.inr (.inl ⟨rfl, rfl⟩)))
  | env e => exact .inr (.inr (.inr (.inr ⟨e, rfl, rfl⟩)))

def Proc.settled (p : Proc σ ω θ μ) : σ := p.queue.foldl exec p.store

/-- The decisions of a run meet `G`; where else the process goes is left open. -/
def Decides (G : μ → θ → α → Prop) (p : Proc σ ω θ μ) : Tick α ε → Prop
  | .decide a => ∀ t ∈ p.stage, G p.mem t a
  | _ => True

variable {exec} {next} {happen} {G : μ → θ → α → Prop}

/-- A fact about the settled store, the stage and the memory that every decision keeps holds along every run
for as long as the process lives. -/
theorem settled_of_decides (I : σ → θ → μ → Prop)
    (hd : ∀ s t m a, I s t m → G m t a → I ((next m t a).1.foldl exec s) (next m t a).2.1 (next m t a).2.2)
    (he : ∀ s t m e, I s t m → I s t (happen m e))
    {p : Proc σ ω θ μ} {ks : List (Tick α ε)} (h0 : ∀ t, p.stage = some t → I (p.settled exec) t p.mem)
    (hm : Meets (stepProc exec next happen) (Decides G) p ks) :
    let q := run (stepProc exec next happen) p ks
    ∀ t, q.stage = some t → I (q.settled exec) t q.mem := by
  refine inv_of_meets (fun q => ∀ t, q.stage = some t → I (q.settled exec) t q.mem) ?_ h0 hm
  intro q k hq hk
  rcases stepProc_cases exec next happen q k with
    hs | ⟨t, w, ws, rfl, ht, hw, hs⟩ | ⟨t, a, rfl, ht, hw, hs⟩ | ⟨rfl, hs⟩ | ⟨e, rfl, hs⟩ <;> rw [hs]
  · exact hq
  · intro t' ht'
    have := hq t' ht'
    simpa only [Proc.settled, hw, List.foldl_cons] using this
  · rintro _ ⟨⟩
    have := hq t ht
    simp only [Proc.settled, hw, List.foldl_nil] at this ⊢
    exact hd _ t _ a this (hk t ht)
  · nofun
  · intro t ht
    exact he _ t _ e (hq t ht)

theorem Along.head (h : Along exec P s ws) : P s ws := by
  cases ws with
  | nil => exact h
  | cons w ws => exact h.1

theorem Along.mono {P' : σ → List ω → Prop} (hP : ∀ s ws, P s ws → P' s ws) (h : Along exec P s ws) :
    Along exec P' s ws := by
  induction ws generalizing s with
  | nil => exact hP s [] h
  | cons w ws ih => exact ⟨hP s _ h.1, ih h.2⟩

/-- What holds of the settled store holds along the queue. -/
theorem Along.and_settled {Q : σ → Prop} (h : Along exec P s ws) (hQ : Q (ws.foldl exec s)) :
    Along exec (fun s ws => P s ws ∧ Q (ws.foldl exec s)) s ws := by
  induction ws generalizing s with
  | nil => exact ⟨h, hQ⟩
  | cons w ws ih => exact ⟨⟨h.1, hQ⟩, ih h.2 hQ⟩

/-- The process dies only at the points `C` allows. -/
def DiesAt (C : θ → List ω → Prop) (p : Proc σ ω θ μ) : Tick α ε → Prop
  | .crash => ∀ t ∈ p.stage, C t p.queue
  | _ => True

instance {G : μ → θ → α → Prop} [∀ m t a, Decidable (G m t a)] (p : Proc σ ω θ μ) :
    DecidablePred (Decides G p : Tick α ε → Prop)
  | .decide a => inferInstanceAs (Decidable (∀ t ∈ p.stage, G p.mem t a))
  | .write | .crash | .env _ => isTrue trivial

instance {C : θ → List ω → Prop} [∀ t ws, Decidable (C t ws)] (p : Proc σ ω θ μ) :
    DecidablePred (DiesAt C p : Tick α ε → Prop)
  | .crash => inferInstanceAs (Decidable (∀ t ∈ p.stage, C t p.queue))
  | .write | .decide _ | .env _ => isTrue trivial

/-- A live process satisfies `P` along its queue, and a dead one left the store in `D`. -/
def AlongQueue (exec : σ → ω → σ) (P : θ → μ → σ → List ω → Prop) (D : μ → σ → Prop) (p : Proc σ ω θ μ) : Prop :=
  (∀ t, p.stage = some t → Along exec (P t p.mem) p.store p.queue) ∧ (p.stage = none → D p.mem p.store)

/-- What every decision establishes along the writes it queues, and death turns into `D`, holds of every run. -/
theorem along_of_decides {C : θ → List ω → Prop} (P : θ → μ → σ → List ω → Prop)
    (D : μ → σ → Prop)
    (hd : ∀ s t m a, P t m s [] → G m t a →
      Along exec (P (next m t a).2.1 (next m t a).2.2) s (next m t a).1)
    (hc : ∀ s t m ws, P t m s ws → C t ws → D m s)
    (he : ∀ s t m ws e, P t m s ws → P t (happen m e) s ws) (hD : ∀ s m e, D m s → D (happen m e) s)
    {p : Proc σ ω θ μ} {ks : List (Tick α ε)} (h0 : AlongQueue exec P D p)
    (hm : Meets (stepProc exec next happen) (fun p k => Decides G p k ∧ DiesAt C p k) p ks) :
    AlongQueue exec P D (run (stepProc exec next happen) p ks) := by
  refine inv_of_meets (AlongQueue exec P D) ?_ h0 hm
  intro q k ⟨hq, hdead⟩ ⟨hk, hdies⟩
  rcases stepProc_cases exec next happen q k with
    hs | ⟨t, w, ws, rfl, ht, hw, hs⟩ | ⟨t, a, rfl, ht, hw, hs⟩ | ⟨rfl, hs⟩ | ⟨e, rfl, hs⟩ <;> rw [hs]
  · exact ⟨hq, hdead⟩
  · refine ⟨fun t' ht' => ?_, fun hn => absurd (ht.symm.trans hn) nofun⟩
    have := hq t' ht'
    rw [hw] at this
    exact this.2
  · refine ⟨?_, nofun⟩
    rintro _ ⟨⟩
    have := hq t ht
    rw [hw] at this
    exact hd _ t _ a this (hk t ht)
  · refine ⟨nofun, fun _ => ?_⟩
    cases ht : q.stage with
    | none => exact hdead ht
    | some t => exact hc _ t _ _ (hq t ht).head (hdies t ht)
  · exact ⟨fun t ht => (hq t ht).mono fun s ws h => he s t _ ws e h, fun hn => hD _ _ e (hdead hn)⟩

end

end RelayMiner.Lib
