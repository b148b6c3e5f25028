import RelayMiner.Lib.Runs
/-!
# Leadership and the leader's resources

`attemptLeadership` runs on one goroutine and starts a goroutine for each
election and each loss; `registerLeaderCallbacks` has the first call the
controller's `Start` and the second its `Close`. Both hold the controller's
mutex from their first line to their last. Nothing orders the goroutines: a
start and the close of the same term may take the mutex either way round.
-/
open RelayMiner.Lib

namespace RelayMiner.Leadership

inductive Reply where
  | err (oom : Bool)
  | result (n : Int)

inductive Callback where
  | elected
  | lost

inductive StartError where
  | alreadyActive

structure LeaderController where
  active : Bool := false

structure World where
  isLeader : Bool := false
  consecutiveAcquireFailures : Nat := 0
  /-- The callbacks that have been started and wait for the controller's mutex, oldest first. -/
  waiting : List Callback := []
  holder : Option Callback := none
  controller : LeaderController := {}
  errCh : Option StartError := none
  dropped : List StartError := []

/-- `Start`, whose resources can all be created. -/
def LeaderController.start (c : LeaderController) : Except StartError LeaderController :=
  if c.active then .error .alreadyActive else .ok { c with active := true }

def LeaderController.close (c : LeaderController) : LeaderController :=
  if c.active then { c with active := false } else c

/-- One pass of the loop: the acquire or the renewal script, and the callback its reply starts. -/
def attemptLeadership (w : World) (r : Reply) : World :=
  if w.isLeader then
    match r with
    | .err _ | .result 0 => { w with isLeader := false, waiting := w.waiting ++ [.lost] }
    | .result _ => w
  else
    match r with
    | .err _ => { w with consecutiveAcquireFailures := w.consecutiveAcquireFailures + 1 }
    | .result 1 =>
      { w with consecutiveAcquireFailures := 0, isLeader := true, waiting := w.waiting ++ [.elected] }
    | .result _ => { w with consecutiveAcquireFailures := 0 }

def onElected (w : World) : World :=
  match w.controller.start with
  | .ok c => { w with controller := c }
  | .error e =>
    if w.errCh = none then { w with errCh := some e } else { w with dropped := w.dropped ++ [e] }

def onLost (w : World) : World := { w with controller := w.controller.close }

inductive Act where
  | attemptLeadership (r : Reply)
  | lock (i : Nat)
  | finish

/-- The loop makes a pass, a callback gets the mutex, or the one that has it runs to its end. -/
def step (w : World) : Act → World
  | .attemptLeadership r => attemptLeadership w r
  | .lock i =>
    match w.holder, w.waiting[i]? with
    | none, some c => { w with holder := some c, waiting := w.waiting.eraseIdx i }
    | _, _ => w
  | .finish =>
    match w.holder with
    | some .elected => { onElected w with holder := none }
    | some .lost => { onLost w with holder := none }
    | none => w

/-- Every callback that was started has finished. -/
def World.Settled (w : World) : Prop := w.waiting = [] ∧ w.holder = none

/-- The controller follows leadership, and every start it was asked for succeeded. -/
def World.Follows (w : World) : Prop :=
  w.controller.active = w.isLeader ∧ w.errCh = none ∧ w.dropped = []

/-- The mutex goes to the callback that was started first. -/
def InTurn (_ : World) : Act → Prop
  | .lock i => i = 0
  | _ => True

/-- Run in this order, the callbacks take the controller from `b` to `b'`, each from the state it is for. -/
def Alternates : Bool → List Callback → Bool → Prop
  | b, [], b' => b = b'
  | b, .elected :: l, b' => b = false ∧ Alternates true l b'
  | b, .lost :: l, b' => b = true ∧ Alternates false l b'

theorem Alternates.append {b b' b'' : Bool} {l l' : List Callback} (h : Alternates b l b')
    (h' : Alternates b' l' b'') : Alternates b (l ++ l') b'' := by
  induction l generalizing b with
  | nil => exact h ▸ h'
  | cons c l ih =>
    cases c with
    | elected | lost => exact ⟨h.1, ih h.2⟩

structure Inv (w : World) : Prop where
  turns : Alternates w.controller.active (w.holder.toList ++ w.waiting) w.isLeader
  sent : w.errCh = none
  dropped : w.dropped = []

variable {w : World}

theorem Inv.attempt (h : Inv w) (r : Reply) : Inv (attemptLeadership w r) := by
  have hstarted : ∀ c b, Alternates w.isLeader [c] b →
      Alternates w.controller.active (w.holder.toList ++ (w.waiting ++ [c])) b := by
    intro c b hc
    rw [← List.append_assoc]
    exact h.turns.append hc
  unfold attemptLeadership
  split
  next hl =>
    split
    · exact ⟨hstarted .lost false ⟨hl, rfl⟩, h.sent, h.dropped⟩
    · exact ⟨hstarted .lost false ⟨hl, rfl⟩, h.sent, h.dropped⟩
    · exact h
  next hl =>
    split
    · exact ⟨h.turns, h.sent, h.dropped⟩
    · exact ⟨hstarted .elected true ⟨by simpa using hl, rfl⟩, h.sent, h.dropped⟩
    · exact ⟨h.turns, h.sent, h.dropped⟩

theorem Inv.finish (h : Inv w) : Inv (step w .finish) := by
  have ht := h.turns
  cases hh : w.holder with
  | none => simpa [step, hh] using h
  | some c =>
    rw [hh] at ht
    cases c with
    | elected =>
      obtain ⟨ha, ht⟩ := ht
      have hs : step w .finish = { w with controller := ⟨true⟩, holder := none } := by
        simp [step, hh, onElected, LeaderController.start, ha]
      rw [hs]
      exact ⟨ht, h.sent, h.dropped⟩
    | lost =>
      obtain ⟨ha, ht⟩ := ht
      have hs : step w .finish = { w with controller := ⟨false⟩, holder := none } := by
        simp [step, hh, onLost, LeaderController.close, ha]
      rw [hs]
      exact ⟨ht, h.sent, h.dropped⟩

theorem inv_step (w : World) (a : Act) (h : Inv w) (hg : InTurn w a) : Inv (step w a) := by
  cases a with
  | attemptLeadership r => exact h.attempt r
  | lock i =>
    obtain rfl : i = 0 := hg
    have ht := h.turns
    simp only [step]
    split
    next c hh hc =>
      obtain ⟨l, hl⟩ : ∃ l, w.waiting = c :: l := by
        cases hw : w.waiting <;> simp_all
      rw [hh, hl] at ht
      exact ⟨by simpa [hl] using ht, h.sent, h.dropped⟩
    · exact h
  | finish => exact h.finish

/-- Callbacks that get the controller in the order they were started leave it as leadership is. -/
theorem controller_follows_leadership (as : List Act) (hturn : Meets step InTurn {} as)
    (hdone : (run step {} as).Settled) : (run step {} as).Follows := by
  have h : Inv (run step {} as) := inv_of_meets Inv inv_step ⟨rfl, rfl, rfl⟩ hturn
  have ht := h.turns
  rw [hdone.1, hdone.2] at ht
  exact ⟨ht, h.sent, h.dropped⟩

def twoTerms : List Act :=
  [.attemptLeadership (.result 1), .lock 0, .attemptLeadership (.err false), .finish,
    .attemptLeadership (.result 1), .lock 0, .finish, .lock 0, .finish]

theorem controller_follows_two_terms :
    Meets step InTurn {} twoTerms ∧ (run step {} twoTerms).Settled ∧ (run step {} twoTerms).Follows := by
  have hturn : Meets step InTurn {} twoTerms := by simp [twoTerms, InTurn]
  have hdone : (run step {} twoTerms).Settled := ⟨rfl, rfl⟩
  exact ⟨hturn, hdone, controller_follows_leadership twoTerms hturn hdone⟩

/-- The close of a term overtakes its start, which then leaves a standby with the leader's resources; the start of
the next term overtakes the close of the one before, fails, and leaves a leader without them. -/
theorem callbacks_overtake :
    (∃ as, (run step {} as).Settled ∧ (run step {} as).controller.active = true ∧ (run step {} as).isLeader = false) ∧
    (∃ as, (run step {} as).Settled ∧ (run step {} as).controller.active = false ∧ (run step {} as).isLeader = true ∧
      (run step {} as).errCh = some .alreadyActive) := by
  refine ⟨⟨[.attemptLeadership (.result 1), .attemptLeadership (.result 0), .lock 1, .finish, .lock 0, .finish], ?_⟩,
    [.attemptLeadership (.result 1), .lock 0, .finish, .attemptLeadership (.result 0), .attemptLeadership (.result 1),
      .lock 1, .finish, .lock 0, .finish], ?_⟩
  · exact ⟨⟨rfl, rfl⟩, rfl, rfl⟩
  · exact ⟨⟨rfl, rfl⟩, rfl, rfl, rfl⟩

end RelayMiner.Leadership
