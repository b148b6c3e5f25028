import Mathlib.Algebra.Order.Group.Int
import Mathlib.Data.List.Induction
import RelayMiner.Lib.Runs
/-!
# The block height of a process

The event loop and the latest-height poll move the subscriber's clock and then
`deliver`, one at a time under `deliverMu`, whatever they were given; the startup
seed goes through `advance` beside them. A step is one load, one compare-and-swap,
one send or one section under the clock's lock.
-/
open RelayMiner.Lib

namespace RelayMiner.Cache.BlockHeight

open List

structure BlockEvent where
  height : Int
  hash : List UInt8
  timestamp : Int

/-- A stored block. Each is higher than the one it replaces, so equal ones are one pointer. -/
structure SimpleBlock where
  height : Int
  hash : List UInt8
  deriving DecidableEq

inductive Ignored where
  | repeated
  | rewound

/-- An `advance` before its load, or between the load and the compare-and-swap. -/
inductive Attempt where
  | load
  | loaded (current : Option SimpleBlock)

inductive Outcome where
  | running (a : Attempt)
  | ignored (why : Ignored)
  | taken

inductive Stage where
  | advancing (a : Attempt)
  | sending (k : Nat)

inductive Send where
  | sent
  | full
  | stopping
  deriving DecidableEq

/-- The adapter: the block it holds, who is in its delivery mutex, the seeds under way; and the subscriber's clock. -/
structure World where
  lastBlock : Option SimpleBlock := none
  deliverMu : Option (BlockEvent × Stage) := none
  seeds : List (Int × Attempt) := []
  blockEventsRequested : Bool := false
  /-- What was sent on the block-event channel, and on each subscriber's. -/
  channels : List (List Int) := [[]]
  /-- The subscriber's `currentHeight` and `currentTime`. -/
  current : Int × Int

inductive Act where
  | deliver (e : BlockEvent)
  | advance
  | send (s : Send)
  | seedHeight (height : Int)
  | seedStep (i : Nat)
  | blockEvents
  | subscribe
  | advanceClock (e : BlockEvent)
  | seedBlockTime (time : Int)

def blockHeight (b : Option SimpleBlock) : Int := b.elim 0 (·.height)

def World.height (w : World) : Int := blockHeight w.lastBlock

/-- One operation of `advance` on the held block. -/
def advance (height : Int) (hash : List UInt8) (held : Option SimpleBlock) : Attempt → Option SimpleBlock × Outcome
  | .load => (held, .running (.loaded held))
  | .loaded current =>
    if height = blockHeight current then (held, .ignored .repeated)
    else if height < blockHeight current then (held, .ignored .rewound)
    else if held = current then (some ⟨height, hash⟩, .taken)
    else (held, .running .load)

def advanceClock (current : Int × Int) (e : BlockEvent) : Int × Int :=
  if current.1 < e.height then (e.height, e.timestamp) else current

def seedBlockTime (current : Int × Int) (time : Int) : Int × Int :=
  if 0 < current.1 ∨ time = 0 then current else (current.1, time)

def Outcome.stage : Outcome → Option Stage
  | .running a => some (.advancing a)
  | .ignored _ => none
  | .taken => some (.sending 0)

/-- One operation of the delivery in the mutex or of a seed, or a new event, seed or subscription. -/
def step (w : World) (a : Act) : World :=
  match a, w.deliverMu with
  | .deliver e, none => { w with deliverMu := some (e, .advancing .load) }
  | .advance, some (e, .advancing a) =>
    let r := advance e.height e.hash w.lastBlock a
    { w with lastBlock := r.1, deliverMu := r.2.stage.map (e, ·) }
  | .send s, some (e, .sending k) =>
    match w.channels[k]? with
    | none => { w with deliverMu := none }
    | some ch =>
      if k = 0 ∧ w.blockEventsRequested ∧ s = .stopping then { w with deliverMu := none }
      else
        -- only the block-event channel waits for a consumer
        let sent := s = .sent ∧ (k = 0 → w.blockEventsRequested)
        { w with
          channels := w.channels.set k (if sent then ch ++ [e.height] else ch)
          deliverMu := some (e, .sending (k + 1)) }
  | .seedHeight height, _ => { w with seeds := w.seeds ++ [(height, .load)] }
  | .seedStep i, _ =>
    match w.seeds[i]? with
    | none => w
    | some (height, a) =>
      let r := advance height [] w.lastBlock a
      let seeds := match r.2 with
        | .running a => w.seeds.set i (height, a)
        | _ => w.seeds.eraseIdx i
      { w with lastBlock := r.1, seeds }
  | .blockEvents, _ => { w with blockEventsRequested := true }
  -- the subscribers are being sent to under their lock
  | .subscribe, some (_, .sending (_ + 1)) => w
  | .subscribe, _ => { w with channels := w.channels ++ [[]] }
  | .advanceClock e, _ => { w with current := advanceClock w.current e }
  | .seedBlockTime time, _ => { w with current := seedBlockTime w.current time }
  | _, _ => w

section
variable (height : Int) (hash : List UInt8) (held : Option SimpleBlock) (a : Attempt)

/-- What `advance` can do: nothing to the held block, or replace it by a higher one. -/
theorem advance_cases :
    (advance height hash held a).1 = held ∧ (advance height hash held a).2 ≠ .taken ∨
      advance height hash held a = (some ⟨height, hash⟩, .taken) ∧ blockHeight held < height := by
  cases a with
  | load => exact .inl ⟨rfl, nofun⟩
  | loaded current =>
    simp only [advance]
    split_ifs with he hl hc
    · exact .inl ⟨rfl, nofun⟩
    · exact .inl ⟨rfl, nofun⟩
    · exact .inr ⟨rfl, by rw [hc]; omega⟩
    · exact .inl ⟨rfl, nofun⟩

theorem le_advance : blockHeight held ≤ blockHeight (advance height hash held a).1 := by
  obtain ⟨h, -⟩ | ⟨h, hlt⟩ := advance_cases height hash held a
  · rw [h]
  · rw [h]
    exact hlt.le

end

def Ordered (last : Int) (ch : List Int) : Prop := ch.Pairwise (· < ·) ∧ ∀ h ∈ ch, h ≤ last

/-- What the holder sends is held, and above all that the channels it has yet to send it to have. -/
def Ahead (w : World) (e : BlockEvent) : Stage → Prop
  | .advancing _ => True
  | .sending k => e.height ≤ w.height ∧ ∀ ch ∈ w.channels.drop k, ∀ h ∈ ch, h < e.height

structure Inv (w : World) : Prop where
  ordered : ∀ ch ∈ w.channels, Ordered w.height ch
  ahead : ∀ e st, w.deliverMu = some (e, st) → Ahead w e st

variable {w : World}

theorem Inv.seeded (h : Inv w) (b : Option SimpleBlock) (seeds : List (Int × Attempt))
    (hb : w.height ≤ blockHeight b) : Inv { w with lastBlock := b, seeds } := by
  refine ⟨fun ch hch => (h.ordered ch hch).imp_right fun hl x hx => (hl x hx).trans hb, fun e st he => ?_⟩
  cases st with
  | advancing a => trivial
  | sending k => exact (h.ahead e _ he).imp_left hb.trans'

theorem Inv.advanced (h : Inv w) (e : BlockEvent) (a : Attempt) :
    let r := advance e.height e.hash w.lastBlock a
    Inv { w with lastBlock := r.1, deliverMu := r.2.stage.map (e, ·) } := by
  intro r
  refine ⟨(h.seeded r.1 w.seeds (le_advance ..)).ordered, fun e' st he => ?_⟩
  obtain ⟨-, hr⟩ | ⟨hr, hlt⟩ := advance_cases e.height e.hash w.lastBlock a
  · cases hr' : r.2 with
    | running a' =>
      simp only [hr'] at he
      cases he
      trivial
    | ignored why => simp [hr', Outcome.stage] at he
    | taken => exact absurd hr' hr
  simp only [r, hr] at he ⊢
  cases he
  exact ⟨le_rfl, fun ch hch x hx => ((h.ordered ch hch).2 x hx).trans_lt hlt⟩

theorem Inv.sent (h : Inv w) {e : BlockEvent} {k : Nat} (he : w.deliverMu = some (e, .sending k)) {ch : List Int}
    (hch : w.channels[k]? = some ch) (sent : Prop) [Decidable sent] :
    Inv { w with
      channels := w.channels.set k (if sent then ch ++ [e.height] else ch)
      deliverMu := some (e, .sending (k + 1)) } := by
  obtain ⟨hle, hlt⟩ := h.ahead e _ he
  have ho : Ordered w.height ch := h.ordered ch (mem_of_getElem? hch)
  have hch' : ∀ x ∈ ch, x < e.height := hlt ch (mem_of_getElem? (i := 0) (by simpa using hch))
  refine ⟨fun c hc => ?_, ?_⟩
  · obtain hc | rfl := mem_or_eq_of_mem_set hc
    · exact h.ordered c hc
    · split
      · refine ⟨pairwise_append.2 ⟨ho.1, pairwise_singleton _ _, by simpa using hch'⟩, ?_⟩
        simpa [or_imp, forall_and] using ⟨ho.2, hle⟩
      · exact ho
  rintro _ _ ⟨⟩
  refine ⟨hle, fun c hc => hlt c ?_⟩
  rw [drop_set_of_lt (Nat.lt_succ_self k)] at hc
  exact drop_subset_drop_left _ (Nat.le_succ k) hc

theorem Inv.subscribed (h : Inv w) (hk : ∀ e k, w.deliverMu ≠ some (e, .sending (k + 1))) :
    Inv { w with channels := w.channels ++ [[]] } := by
  have hnil : ∀ c ∈ w.channels ++ [[]], c ∈ w.channels ∨ c = [] := by simp
  refine ⟨fun c hc => ?_, fun e st he => ?_⟩
  · obtain hc | rfl := hnil c hc
    · exact h.ordered c hc
    · exact ⟨.nil, nofun⟩
  match st with
  | .advancing _ => trivial
  | .sending 0 =>
    obtain ⟨hle, hlt⟩ := h.ahead e _ he
    refine ⟨hle, fun c hc => ?_⟩
    obtain hc | rfl := hnil c hc
    · exact hlt c hc
    · exact nofun
  | .sending (k + 1) => exact absurd he (hk e k)

theorem inv_step (w : World) (a : Act) (h : Inv w) : Inv (step w a) := by
  unfold step
  split
  · exact ⟨h.ordered, by rintro _ _ ⟨⟩; trivial⟩
  · exact h.advanced _ _
  next he =>
    split
    · exact ⟨h.ordered, nofun⟩
    split
    · exact ⟨h.ordered, nofun⟩
    · exact h.sent he ‹_› _
  · exact ⟨h.ordered, h.ahead⟩
  · split
    · exact h
    · exact h.seeded _ _ (le_advance ..)
  · exact ⟨h.ordered, h.ahead⟩
  · exact h
  next hk => exact h.subscribed hk
  · exact ⟨h.ordered, h.ahead⟩
  · exact ⟨h.ordered, h.ahead⟩
  · exact h

/-- What a step can do to the height and the clock. -/
theorem step_cases (w : World) (a : Act) :
    w.height ≤ (step w a).height ∧
      ((step w a).current = w.current ∨
        (∃ e, a = .advanceClock e ∧ w.current.1 < e.height ∧ (step w a).current = (e.height, e.timestamp)) ∨
        ∃ time, a = .seedBlockTime time ∧ w.current.1 ≤ 0 ∧ (step w a).current = (w.current.1, time)) := by
  unfold step
  split
  case h_2 => exact ⟨le_advance .., .inl rfl⟩
  case h_3 =>
    split
    · exact ⟨le_rfl, .inl rfl⟩
    · split <;> exact ⟨le_rfl, .inl rfl⟩
  case h_5 =>
    split
    · exact ⟨le_rfl, .inl rfl⟩
    · exact ⟨le_advance .., .inl rfl⟩
  case h_9 e =>
    refine ⟨le_rfl, ?_⟩
    by_cases he : w.current.1 < e.height
    · exact .inr (.inl ⟨e, rfl, he, if_pos he⟩)
    · exact .inl (if_neg he)
  case h_10 time =>
    refine ⟨le_rfl, ?_⟩
    by_cases ht : 0 < w.current.1 ∨ time = 0
    · exact .inl (if_pos ht)
    · exact .inr (.inr ⟨time, rfl, not_lt.1 fun h => ht (.inl h), if_neg ht⟩)
  all_goals exact ⟨le_rfl, .inl rfl⟩

theorem current_le_step (w : World) (a : Act) : w.current.1 ≤ (step w a).current.1 := by
  obtain h | ⟨e, -, he, h⟩ | ⟨time, -, -, h⟩ := (step_cases w a).2
  · rw [h]
  · rw [h]
    exact he.le
  · rw [h]

/-- The clock of a process that was started at `start` and took `as`. -/
theorem current_told (start : Nat) (as : List Act) :
    let c := (run step { current := (start, 0) } as).current
    (∃ e, .advanceClock e ∈ as ∧ (start : Int) < e.height ∧ c = (e.height, e.timestamp)) ∨
      c.1 = start ∧ (c.2 = 0 ∨ .seedBlockTime c.2 ∈ as) := by
  induction as using List.reverseRecOn with
  | nil => exact .inr ⟨rfl, .inl rfl⟩
  | append_singleton as a ih =>
    simp only [run_append, run_cons, run_nil]
    obtain h | ⟨e, rfl, he, h⟩ | ⟨time, rfl, ht, h⟩ := (step_cases (run step _ as) a).2
    · rw [h]
      exact ih.imp (fun ⟨e, hm, hs⟩ => ⟨e, mem_append_left _ hm, hs⟩)
        fun ⟨h1, h2⟩ => ⟨h1, h2.imp_right (mem_append_left _)⟩
    · refine .inl ⟨e, by simp, ?_, h⟩
      obtain ⟨e', -, hs, hc⟩ | ⟨hs, -⟩ := ih
      · rw [hc] at he
        exact hs.trans he
      · exact hs ▸ he
    rw [h]
    obtain ⟨e', -, hs, hc⟩ | ⟨hs, -⟩ := ih
    · rw [hc] at ht
      omega
    · exact .inr ⟨hs, .inr (by simp)⟩

/-- Whatever the subscriber was started at and however its process's operations interleave. -/
theorem height_never_goes_back (start : Nat) (as bs : List Act) :
    let w := run step { current := (start, 0) } as
    let w' := run step w bs
    w.height ≤ w'.height ∧ w.current.1 ≤ w'.current.1 ∧
      (∀ ch ∈ w.channels, ch.Pairwise (· < ·) ∧ ∀ h ∈ ch, h ≤ w.height) ∧
      ((∃ e, .advanceClock e ∈ as ∧ w.current = (e.height, e.timestamp)) ∨
        w.current.1 = start ∧ (w.current.2 = 0 ∨ .seedBlockTime w.current.2 ∈ as)) := by
  intro w w'
  refine ⟨?_, ?_, ?_, ?_⟩
  · exact inv_of_run (w.height ≤ ·.height) (fun v a h => h.trans (step_cases v a).1) bs le_rfl
  · exact inv_of_run (w.current.1 ≤ ·.current.1) (fun v a h => h.trans (current_le_step v a)) bs le_rfl
  · exact (inv_of_run Inv inv_step as ⟨by simp [Ordered], by simp⟩).ordered
  · exact (current_told start as).imp_left fun ⟨e, hm, _, hc⟩ => ⟨e, hm, hc⟩

end RelayMiner.Cache.BlockHeight
