import RelayMiner.Lib.Runs
/-!
# The block loop

`runCoalescingBlockLoop` (`session_lifecycle.go`): a reader that keeps the
newest height of the block channel and a processor that runs the handler on it,
with a one-slot wake-up between them. Every receive, store, signal, load and
return is a step of its own, and a `select` with several ready cases takes any.

Both counters start at 0, so a height that is not positive is never handled.
-/
open RelayMiner.Lib

namespace RelayMiner.Lifecycle.BlockLoop

open List

inductive Reader where
  | select
  | received (h : Int)
  | stored
  | returned
  deriving DecidableEq

inductive Processor where
  | select
  | loading (final : Bool)
  | handling (final : Bool)
  | returned
  deriving DecidableEq

structure Loop where
  blockCh : List Int := []
  closed : Bool := false
  cancelled : Bool := false
  reader : Reader := .select
  latest : Int := 0
  wake : Bool := false
  processor : Processor := .select
  lastProcessed : Int := 0
  sent : List Int := []
  delivered : List Int := []
  handled : List Int := []
  deriving DecidableEq

inductive Act where
  | send (h : Int)
  | close
  | cancel
  | receive
  | store
  | signal
  | readerReturn
  | takeWake
  | takeReaderDone
  | takeCancelled
  | load
  | handlerReturn

def afterPass (final : Bool) : Processor := if final then .returned else .select

def step (s : Loop) : Act → Loop
  | .send h => if s.closed then s else { s with blockCh := s.blockCh ++ [h], sent := s.sent ++ [h] }
  | .close => { s with closed := true }
  | .cancel => { s with cancelled := true }
  | .receive =>
    match s.reader, s.blockCh with
    | .select, h :: rest => { s with reader := .received h, blockCh := rest }
    | _, _ => s
  | .store =>
    match s.reader with
    | .received h =>
      { s with reader := .stored, latest := if s.latest < h then h else s.latest, delivered := s.delivered ++ [h] }
    | _ => s
  | .signal =>
    match s.reader with
    | .stored => { s with reader := .select, wake := true }
    | _ => s
  | .readerReturn =>
    if s.reader = .select ∧ (s.cancelled = true ∨ s.closed = true ∧ s.blockCh = []) then { s with reader := .returned }
    else s
  | .takeWake =>
    if s.processor = .select ∧ s.wake = true then { s with wake := false, processor := .loading false } else s
  | .takeReaderDone =>
    if s.processor = .select ∧ s.reader = .returned then
      { s with processor := if s.cancelled then .returned else .loading true }
    else s
  | .takeCancelled => if s.processor = .select ∧ s.cancelled = true then { s with processor := .returned } else s
  | .load =>
    match s.processor with
    | .loading final =>
      if s.lastProcessed < s.latest then
        { s with lastProcessed := s.latest, handled := s.handled ++ [s.latest], processor := .handling final }
      else { s with processor := afterPass final }
    | _ => s
  | .handlerReturn =>
    match s.processor with
    | .handling final => { s with processor := afterPass final }
    | _ => s

/-! ## The invariant -/

def Reader.inHand : Reader → List Int
  | .received h => [h]
  | _ => []

def Loop.closing (s : Loop) : Bool :=
  match s.processor with
  | .loading final | .handling final => final
  | .returned => !s.cancelled
  | .select => false

def Loop.settled (s : Loop) : Bool :=
  match s.processor with
  | .handling final => final
  | .returned => !s.cancelled
  | _ => false

variable {s : Loop}

theorem Loop.closing_of_settled (h : s.settled = true) : s.closing = true := by
  unfold Loop.settled at h
  unfold Loop.closing
  split at h <;> simp_all

structure Inv (s : Loop) : Prop where
  sent : s.sent = s.delivered ++ s.reader.inHand ++ s.blockCh
  top : ∀ h ∈ s.delivered, h ≤ s.latest
  latest : s.latest = 0 ∨ s.latest ∈ s.delivered
  nonneg : 0 ≤ s.lastProcessed
  le : s.lastProcessed ≤ s.latest
  increasing : s.handled.Pairwise (· < ·)
  handled : ∀ h ∈ s.handled, h ∈ s.delivered ∧ h ≤ s.lastProcessed
  last : s.handled.getLast?.getD 0 = s.lastProcessed
  /-- A height that waits has someone on its way to it. -/
  awake : s.lastProcessed < s.latest → s.wake = true ∨ s.reader = .stored ∨ (∃ final, s.processor = .loading final) ∨
    s.processor = .returned ∧ s.cancelled = true
  drained : s.reader = .returned → s.cancelled = true ∨ s.closed = true ∧ s.blockCh = []
  closing : s.closing = true → s.reader = .returned
  settled : s.settled = true → s.latest ≤ s.lastProcessed

section
variable (h : Inv s)
include h

theorem Inv.send (x : Int) (hopen : s.closed = false) :
    Inv { s with blockCh := s.blockCh ++ [x], sent := s.sent ++ [x] } :=
  { h with
    sent := by simp [h.sent]
    drained := fun hr => by simpa [hopen] using h.drained hr }

theorem Inv.close : Inv { s with closed := true } :=
  { h with drained := fun hr => (h.drained hr).imp_right fun hc => ⟨rfl, hc.2⟩ }

theorem Inv.cancel : Inv { s with cancelled := true } :=
  { h with
    awake := fun hlt => by
      rcases h.awake hlt with hw | hs | hl | hr
      · exact .inl hw
      · exact .inr (.inl hs)
      · exact .inr (.inr (.inl hl))
      · exact .inr (.inr (.inr ⟨hr.1, rfl⟩))
    drained := fun _ => .inl rfl
    closing := fun hc => h.closing (by
      simp only [Loop.closing] at hc ⊢
      split at hc <;> simp_all)
    settled := fun hs => h.settled (by
      simp only [Loop.settled] at hs ⊢
      split at hs <;> simp_all) }

theorem Inv.receive {x : Int} {rest : List Int} (hr : s.reader = .select) (hch : s.blockCh = x :: rest) :
    Inv { s with reader := .received x, blockCh := rest } :=
  { h with
    sent := by simp [h.sent, hr, hch, Reader.inHand]
    awake := fun hlt => by simpa [hr] using h.awake hlt
    drained := nofun
    closing := fun hc => by
      have := h.closing hc
      simp [hr] at this }

theorem Inv.store {x : Int} (hr : s.reader = .received x) :
    Inv { s with reader := .stored, latest := if s.latest < x then x else s.latest, delivered := s.delivered ++ [x] } := by
  have hle : s.latest ≤ if s.latest < x then x else s.latest := by
    split
    · exact Int.le_of_lt ‹_›
    · exact Int.le_refl _
  exact
    { h with
      sent := by simp [h.sent, hr, Reader.inHand]
      top := by
        refine forall_mem_append.2 ⟨fun y hy => Int.le_trans (h.top y hy) hle, forall_mem_singleton.2 ?_⟩
        split
        · exact Int.le_refl _
        · exact Int.not_lt.1 ‹_›
      latest := by
        split
        · exact .inr (by simp)
        · exact h.latest.imp_right fun hm => mem_append_left _ hm
      le := Int.le_trans h.le hle
      handled := fun y hy => ⟨mem_append_left _ (h.handled y hy).1, (h.handled y hy).2⟩
      awake := fun _ => .inr (.inl rfl)
      drained := nofun
      closing := fun hc => by
        have := h.closing hc
        simp [hr] at this
      settled := fun hs => by
        have := h.closing (Loop.closing_of_settled hs)
        simp [hr] at this }

theorem Inv.signal (hr : s.reader = .stored) : Inv { s with reader := .select, wake := true } :=
  { h with
    sent := by simp [h.sent, hr, Reader.inHand]
    awake := fun _ => .inl rfl
    drained := nofun
    closing := fun hc => by
      have := h.closing hc
      simp [hr] at this }

theorem Inv.readerReturn (hr : s.reader = .select)
    (hend : s.cancelled = true ∨ s.closed = true ∧ s.blockCh = []) : Inv { s with reader := .returned } :=
  { h with
    sent := by simp [h.sent, hr, Reader.inHand]
    awake := fun hlt => by simpa [hr] using h.awake hlt
    drained := fun _ => hend
    closing := fun _ => rfl }

theorem Inv.takeWake : Inv { s with wake := false, processor := .loading false } :=
  { h with
    awake := fun _ => .inr (.inr (.inl ⟨false, rfl⟩))
    closing := nofun
    settled := fun hs => nomatch hs }

theorem Inv.takeReaderDone (hr : s.reader = .returned) :
    Inv { s with processor := if s.cancelled then .returned else .loading true } :=
  { h with
    awake := fun _ => by
      cases hc : s.cancelled with
      | true => exact .inr (.inr (.inr ⟨rfl, rfl⟩))
      | false => exact .inr (.inr (.inl ⟨true, rfl⟩))
    closing := fun _ => hr
    settled := fun hs => by cases hc : s.cancelled <;> simp [Loop.settled, hc] at hs }

theorem Inv.takeCancelled (hc : s.cancelled = true) : Inv { s with processor := .returned } :=
  { h with
    awake := fun _ => .inr (.inr (.inr ⟨rfl, hc⟩))
    closing := fun hx => by simp [Loop.closing, hc] at hx
    settled := fun hs => by simp [Loop.settled, hc] at hs }

theorem Inv.endPass {final : Bool}
    (hfinal : final = true → s.reader = .returned ∧ s.latest ≤ s.lastProcessed)
    (hdone : s.latest ≤ s.lastProcessed ∨ s.wake = true ∨ s.reader = .stored) :
    Inv { s with processor := afterPass final } :=
  { h with
    awake := fun hlt => by
      rcases hdone with hle | hw | hs
      · exact absurd hlt (Int.not_lt.2 hle)
      · exact .inl hw
      · exact .inr (.inl hs)
    closing := fun hc => by
      cases final with
      | true => exact (hfinal rfl).1
      | false => cases hc
    settled := fun hs => by
      cases final with
      | true => exact (hfinal rfl).2
      | false => cases hs }

theorem Inv.handle {final : Bool} (hp : s.processor = .loading final) (hlt : s.lastProcessed < s.latest) :
    Inv { s with lastProcessed := s.latest, handled := s.handled ++ [s.latest], processor := .handling final } :=
  { h with
    nonneg := Int.le_trans h.nonneg h.le
    le := Int.le_refl _
    increasing := pairwise_append.2 ⟨h.increasing, pairwise_singleton .., fun y hy z hz => by
      obtain rfl := mem_singleton.1 hz
      exact Int.lt_of_le_of_lt (h.handled y hy).2 hlt⟩
    handled := by
      refine forall_mem_append.2
        ⟨fun y hy => ⟨(h.handled y hy).1, Int.le_trans (h.handled y hy).2 h.le⟩, forall_mem_singleton.2 ?_⟩
      refine ⟨h.latest.resolve_left fun h0 => ?_, Int.le_refl _⟩
      have := h.nonneg
      omega
    last := by simp
    awake := fun hx => absurd hx (Int.lt_irrefl _)
    closing := fun hc => h.closing (by
      cases final with
      | true => simp [Loop.closing, hp]
      | false => cases hc)
    settled := fun _ => Int.le_refl _ }
end

theorem inv_step (s : Loop) (a : Act) (h : Inv s) : Inv (step s a) := by
  cases a with
  | send x =>
    simp only [step]
    split
    · exact h
    next hopen => exact h.send x (by simpa using hopen)
  | close => exact h.close
  | cancel => exact h.cancel
  | receive =>
    simp only [step]
    split
    · exact h.receive ‹_› ‹_›
    · exact h
  | store =>
    simp only [step]
    split
    · exact h.store ‹_›
    · exact h
  | signal =>
    simp only [step]
    split
    · exact h.signal ‹_›
    · exact h
  | readerReturn =>
    simp only [step]
    split
    next hr => exact h.readerReturn hr.1 hr.2
    · exact h
  | takeWake =>
    simp only [step]
    split
    · exact h.takeWake
    · exact h
  | takeReaderDone =>
    simp only [step]
    split
    next hr => exact h.takeReaderDone hr.2
    · exact h
  | takeCancelled =>
    simp only [step]
    split
    next hc => exact h.takeCancelled hc.2
    · exact h
  | load =>
    simp only [step]
    split
    next final hp =>
      split
      · exact h.handle hp ‹_›
      next hge =>
        refine h.endPass (fun hf => ⟨h.closing ?_, Int.not_lt.1 hge⟩) (.inl (Int.not_lt.1 hge))
        simpa [Loop.closing, hp] using hf
    · exact h
  | handlerReturn =>
    simp only [step]
    split
    next final hp =>
      refine h.endPass (fun hf => ?_) ?_
      · have hset : s.settled = true := by simpa [Loop.settled, hp] using hf
        exact ⟨h.closing (Loop.closing_of_settled hset), h.settled hset⟩
      by_cases hlt : s.lastProcessed < s.latest
      · exact .inr (by simpa [hp] using h.awake hlt)
      · exact .inl (Int.not_lt.1 hlt)
    · exact h

/-- In every run: the handler is run on strictly increasing heights, each one recorded by the reader; once the reader has
signalled, with the processor idle and no wake-up pending, every positive height recorded is at most the last one handled;
and when the loop has returned and was not cancelled, so is every positive height sent. -/
theorem coalescing_loses_no_final_height (acts : List Act) :
    let s := run step {} acts
    s.handled.Pairwise (· < ·) ∧ (∀ h ∈ s.handled, h ∈ s.delivered) ∧
      (s.reader ≠ .stored → s.processor = .select → s.wake = false →
        ∀ h ∈ s.delivered, 0 < h → ∃ m ∈ s.handled.getLast?, h ≤ m) ∧
      (s.processor = .returned → s.cancelled = false →
        s.delivered = s.sent ∧ ∀ h ∈ s.sent, 0 < h → ∃ m ∈ s.handled.getLast?, h ≤ m) := by
  have hinv : Inv (run step {} acts) := by
    refine inv_of_run Inv inv_step acts ⟨rfl, ?_, .inl rfl, ?_, ?_, .nil, ?_, rfl, ?_, ?_, ?_, ?_⟩ <;>
      simp [Loop.closing, Loop.settled]
  generalize run step {} acts = s at hinv
  -- The last height handled, where it is the newest one recorded.
  have hlast : s.latest ≤ s.lastProcessed → ∀ h ∈ s.delivered, 0 < h → ∃ m ∈ s.handled.getLast?, h ≤ m := by
    intro hle h hh hpos
    have htop := Int.le_trans (hinv.top h hh) hle
    have hget := hinv.last
    cases hl : s.handled.getLast? with
    | none =>
      rw [hl, Option.getD_none] at hget
      omega
    | some m =>
      rw [hl, Option.getD_some] at hget
      exact ⟨m, rfl, by omega⟩
  refine ⟨hinv.increasing, fun h hh => (hinv.handled h hh).1, fun hstored hp hw => hlast ?_, fun hp hc => ?_⟩
  · refine Int.not_lt.1 fun hlt => ?_
    rcases hinv.awake hlt with h | h | ⟨f, h⟩ | h
    · rw [hw] at h
      cases h
    · exact hstored h
    · rw [hp] at h
      cases h
    · rw [hp] at h
      cases h.1
  have hr := hinv.closing (by simp [Loop.closing, hp, hc])
  obtain ⟨-, hempty⟩ : s.closed = true ∧ s.blockCh = [] := by simpa [hc] using hinv.drained hr
  have hsent : s.sent = s.delivered := by simp [hinv.sent, hr, hempty, Reader.inHand]
  exact ⟨hsent.symm, hsent ▸ hlast (hinv.settled (by simp [Loop.settled, hp, hc]))⟩

/-- The source sends height 0 and closes: the loop returns without having run the handler. -/
theorem nonpositive_height_not_handled :
    run step {} [.send 0, .close, .receive, .store, .signal, .readerReturn, .takeWake, .load, .takeReaderDone, .load] =
      { closed := true, reader := .returned, processor := .returned, sent := [0], delivered := [0] } := by
  decide

end RelayMiner.Lifecycle.BlockLoop
