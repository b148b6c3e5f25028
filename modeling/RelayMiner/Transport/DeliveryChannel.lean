import RelayMiner.Lib.Runs
import Mathlib.Algebra.Order.BigOperators.Group.List
import Mathlib.Algebra.Order.Ring.Nat
/-!
# The delivery channel

`send` and `MarkDelivered` of the Redis consumer (`transport/redis/consumer.go`),
one atomic operation at a time: any number of producers wait on a one-slot wake-up
while the channel holds `readBudgetBytes`, and one receiver takes messages and then
marks them. A message is its size.

A producer passes the check whenever the channel is empty. A message that was taken
and not yet marked still counts then, so beside one message per producer the count
may hold that one over the budget.
-/

namespace RelayMiner.Transport.DeliveryChannel

open List

open Lib

def readBudgetBytes : Nat := 8 * 2 ^ 20

inductive Phase where
  | idle
  /-- At the head of the loop, and past its load of a count that is not below the budget. -/
  | checking (m : Nat)
  | full (m : Nat)
  | waiting (m : Nat)
  | passed (m : Nat)
  | sending (m : Nat)
  /-- Its context ended: the message is still counted, then the space is still to be signalled. -/
  | aborting (m : Nat)
  | signalling
deriving DecidableEq

structure Producer where
  phase : Phase := .idle
  /-- It has taken the space token, and has neither sent nor waited since. -/
  woken : Bool := false
  last : Nat := 0
deriving DecidableEq

inductive Receiver where
  | idle
  | taken (m : Nat)
  | marked
deriving DecidableEq

structure World where
  producers : List Producer
  queue : List Nat := []
  channelBytes : Int := 0
  space : Bool := false
  receiver : Receiver := .idle

inductive Act where
  | send (i m : Nat)
  | next (i : Nat)
  | cancel (i : Nat)
  | take
  | mark

/-- What producer `i` does next on its way into the channel. -/
def advance (capacity : Nat) (w : World) (i : Nat) (p : Producer) : World :=
  let put (p : Producer) : World := { w with producers := w.producers.set i p }
  match p.phase with
  | .checking m => put { p with phase := if w.channelBytes < readBudgetBytes then .passed m else .full m }
  | .full m =>
    if w.queue.isEmpty then put { p with phase := .passed m } else put { p with phase := .waiting m, woken := false }
  | .waiting m => if w.space then { put { p with phase := .checking m, woken := true } with space := false } else w
  | .passed m => { put { p with phase := .sending m } with channelBytes := w.channelBytes + m }
  | .sending m =>
    if w.queue.length < capacity then
      { put { phase := .idle, last := m } with queue := w.queue ++ [m] }
    else w
  | .aborting m => { put { p with phase := .signalling } with channelBytes := w.channelBytes - m }
  | .signalling => { put { p with phase := .idle, woken := false } with space := true }
  | .idle => w

/-- A producer starts, goes on or gives up; the receiver takes a message, and then marks it taken. -/
def step (capacity : Nat) (w : World) : Act → World
  | .send i m =>
    match w.producers[i]? with
    | some ⟨.idle, woken, last⟩ => { w with producers := w.producers.set i ⟨.checking m, woken, last⟩ }
    | _ => w
  | .next i =>
    match w.producers[i]? with
    | some p => advance capacity w i p
    | none => w
  | .cancel i =>
    match w.producers[i]? with
    | some ⟨.waiting _, woken, last⟩ => { w with producers := w.producers.set i ⟨.idle, woken, last⟩ }
    | some ⟨.sending m, woken, last⟩ => { w with producers := w.producers.set i ⟨.aborting m, woken, last⟩ }
    | _ => w
  | .take =>
    match w.receiver, w.queue with
    | .idle, m :: queue => { w with receiver := .taken m, queue := queue }
    | _, _ => w
  | .mark =>
    match w.receiver with
    | .idle => w
    | .taken m => { w with receiver := .marked, channelBytes := w.channelBytes - m }
    | .marked => { w with receiver := .idle, space := true }

def start (n : Nat) : World := { producers := List.replicate n {} }

@[simp] def Producer.counted (p : Producer) : Nat :=
  match p.phase with
  | .sending m | .aborting m => m
  | _ => 0

/-- The message it is sending, or sent last. -/
@[simp] def Producer.latest (p : Producer) : Nat :=
  match p.phase with
  | .sending m | .aborting m => m
  | _ => p.last

/-- What the producer may have brought over the budget. -/
@[simp] def Producer.over (p : Producer) : Nat :=
  match p.phase with
  | .passed _ => 0
  | _ => p.latest

@[simp] def Producer.waits (p : Producer) : Nat :=
  match p.phase with
  | .waiting _ => 1
  | _ => 0

def Receiver.unmarked : Receiver → Nat
  | .taken m => m
  | _ => 0

def total (f : Producer → Nat) (producers : List Producer) : Nat := (producers.map f).sum

structure Inv (w : World) : Prop where
  count : w.channelBytes = (total (·.counted) w.producers + w.queue.sum + w.receiver.unmarked : Nat)
  bound : w.channelBytes ≤ (max readBudgetBytes w.receiver.unmarked + total (·.over) w.producers : Nat)
  awake : 0 < total (·.waits) w.producers →
    w.receiver ≠ .idle ∨ 0 < w.queue.length + w.space.toNat + total (·.woken.toNat) w.producers

variable {w : World} {i : Nat} {p p' : Producer}

theorem counted_le (p : Producer) : p.counted ≤ p.over := by
  obtain ⟨phase, woken, last⟩ := p
  cases phase <;> simp

/-- A producer is replaced, and what is around it stays. -/
theorem Inv.producer (h : Inv w) (hi : w.producers[i]? = some p) {queue : List Nat} {bytes : Int} {space : Bool}
    (hcount : bytes + (p.counted + w.queue.sum : Nat) = w.channelBytes + (p'.counted + queue.sum : Nat))
    (hbound : bytes + p.over ≤ w.channelBytes + p'.over ∨ bytes < readBudgetBytes ∨ queue = [])
    (hawake : 0 < queue.length + space.toNat + p'.woken.toNat ∨ p'.waits ≤ p.waits ∧
      w.queue.length + w.space.toNat + p.woken.toNat ≤ queue.length + space.toNat + p'.woken.toNat) :
    Inv { w with producers := w.producers.set i p', queue := queue, channelBytes := bytes, space := space } := by
  obtain ⟨hc, hb, ha⟩ := h
  obtain ⟨pre, post, hsplit, hset, -⟩ := slot_split hi
  have hold (f : Producer → Nat) : total f w.producers = (pre.map f).sum + f p + (post.map f).sum := by
    simp [total, hsplit, Nat.add_assoc]
  have hnew (f : Producer → Nat) : total f (w.producers.set i p') = (pre.map f).sum + f p' + (post.map f).sum := by
    simp [total, hset, Nat.add_assoc]
  have hcount' : bytes = (total (·.counted) (w.producers.set i p') + queue.sum + w.receiver.unmarked : Nat) := by
    rw [hold] at hc
    rw [hnew]
    omega
  refine ⟨hcount', ?_, fun hwait => ?_⟩
  · simp only
    rcases hbound with hbound | hbound | rfl
    · rw [hold] at hb
      rw [hnew]
      omega
    · omega
    -- With the channel empty all that counts is in the hands of a producer or of the receiver.
    have hle : total (·.counted) (w.producers.set i p') ≤ total (·.over) (w.producers.set i p') :=
      sum_le_sum fun p _ => counted_le p
    rw [sum_nil] at hcount'
    omega
  rw [hold, hold] at ha
  simp only [hnew] at hwait ⊢
  rcases hawake with hawake | ⟨hle, hawake⟩
  · exact .inr (by omega)
  · exact (ha (by omega)).imp_right fun _ => by omega

theorem Inv.advance (h : Inv w) (hi : w.producers[i]? = some p) (capacity : Nat) :
    Inv (advance capacity w i p) := by
  obtain ⟨phase, woken, last⟩ := p
  cases phase with
  | idle => exact h
  | checking m =>
    simp only [DeliveryChannel.advance]
    split
    next hlt =>
      exact h.producer hi (by simp) (.inr (.inl hlt)) (.inr (by simp))
    next =>
      exact h.producer hi (by simp) (.inl (by simp)) (.inr (by simp))
  | full m =>
    simp only [DeliveryChannel.advance]
    split
    next hempty =>
      exact h.producer hi (by simp) (.inr (.inr (isEmpty_iff.1 hempty))) (.inr (by simp))
    next hne =>
      refine h.producer hi (by simp) (.inl (by simp)) (.inl ?_)
      have hlen := length_pos_iff.2 fun hnil => hne (isEmpty_iff.2 hnil)
      omega
  | waiting m =>
    simp only [DeliveryChannel.advance]
    split
    · exact h.producer hi (by simp) (.inl (by simp)) (.inl (by simp))
    · exact h
  | passed m =>
    exact h.producer hi (by simp; omega) (.inl (by simp)) (.inr (by simp))
  | sending m =>
    simp only [DeliveryChannel.advance]
    split
    · exact h.producer hi (by simp; omega) (.inl (by simp)) (.inl (by simp))
    · exact h
  | aborting m =>
    exact h.producer hi (by simp; omega) (.inl (by simp)) (.inr (by simp))
  | signalling =>
    exact h.producer hi (by simp) (.inl (by simp)) (.inl (by simp))

theorem Inv.step (h : Inv w) (capacity : Nat) (a : Act) : Inv (step capacity w a) := by
  cases a with
  | send i m =>
    simp only [DeliveryChannel.step]
    split
    next hi => exact h.producer hi (by simp) (.inl (by simp)) (.inr (by simp))
    next => exact h
  | next i =>
    simp only [DeliveryChannel.step]
    split
    next hi => exact h.advance hi capacity
    next => exact h
  | cancel i =>
    simp only [DeliveryChannel.step]
    split
    next hi => exact h.producer hi (by simp) (.inl (by simp)) (.inr (by simp))
    next hi => exact h.producer hi (by simp) (.inl (by simp)) (.inr (by simp))
    next => exact h
  | take =>
    obtain ⟨producers, queue, bytes, space, receiver⟩ := w
    obtain ⟨hcount, hbound, hawake⟩ := h
    simp only [DeliveryChannel.step]
    split
    next m queue =>
      refine ⟨?_, ?_, fun _ => .inl nofun⟩
      all_goals
        simp only [Receiver.unmarked, sum_cons] at hcount hbound ⊢
        omega
    next => exact ⟨hcount, hbound, hawake⟩
  | mark =>
    obtain ⟨producers, queue, bytes, space, receiver⟩ := w
    obtain ⟨hcount, hbound, hawake⟩ := h
    cases receiver with
    | idle => exact ⟨hcount, hbound, hawake⟩
    | taken m =>
      refine ⟨?_, ?_, fun _ => .inl nofun⟩
      all_goals
        simp only [DeliveryChannel.step, Receiver.unmarked] at hcount hbound ⊢
        omega
    | marked => exact ⟨hcount, hbound, fun _ => .inr (by simp [DeliveryChannel.step])⟩

theorem inv_start (n : Nat) : Inv (start n) := by
  have hzero (f : Producer → Nat) (hf : f {} = 0) : total f (start n).producers = 0 := by simp [total, start, hf]
  refine ⟨?_, Int.natCast_nonneg _, fun h => ?_⟩
  · rw [hzero _ rfl]
    rfl
  · rw [hzero _ rfl] at h
    exact absurd h (Nat.lt_irrefl 0)

/-- Every run of any number of producers and one receiver. -/
theorem channel_counts_and_wakes (capacity n : Nat) (acts : List Act) :
    let w := run (step capacity) (start n) acts
    w.channelBytes = (total (·.counted) w.producers + w.queue.sum + w.receiver.unmarked : Nat) ∧
    0 ≤ w.channelBytes ∧
    w.channelBytes ≤ (max readBudgetBytes w.receiver.unmarked + total (·.latest) w.producers : Nat) ∧
    ¬ ((∃ p ∈ w.producers, 0 < p.waits) ∧ w.queue = [] ∧ w.receiver = .idle ∧ w.space = false ∧
      ∀ p ∈ w.producers, p.woken = false) := by
  intro w
  obtain ⟨hcount, hbound, hawake⟩ := inv_of_run Inv (fun _ a h => h.step capacity a) acts (inv_start n)
  refine ⟨hcount, hcount ▸ Int.natCast_nonneg _, ?_, ?_⟩
  · have hle : total (·.over) w.producers ≤ total (·.latest) w.producers := sum_le_sum fun p _ => by
      obtain ⟨phase, woken, last⟩ := p
      cases phase <;> simp
    exact Int.le_trans hbound (Int.ofNat_le.2 (Nat.add_le_add_left hle _))
  rintro ⟨⟨p, hp, hwaits⟩, hqueue, hidle, hspace, hwoken⟩
  have hwait : p.waits ≤ total (·.waits) w.producers := single_le_sum (fun _ _ => Nat.zero_le _) _ (mem_map_of_mem hp)
  have hnone : total (·.woken.toNat) w.producers = 0 := by
    refine sum_eq_zero fun n hn => ?_
    obtain ⟨q, hq, rfl⟩ := mem_map.1 hn
    rw [hwoken q hq]
    rfl
  rcases hawake (Nat.lt_of_lt_of_le hwaits hwait) with hbusy | hpos
  · exact hbusy hidle
  · simp [w, hqueue, hspace, hnone] at hpos

/-- One producer and two messages a byte over the budget: the second passes the empty
channel while the first is taken and not marked, and both are counted. -/
theorem unmarked_message_over_budget :
    (run (step 1) (start 1) [.send 0 (readBudgetBytes + 1), .next 0, .next 0, .next 0, .take,
      .send 0 (readBudgetBytes + 1), .next 0, .next 0, .next 0]).channelBytes >
        (readBudgetBytes + (readBudgetBytes + 1) : Nat) := by
  decide

end RelayMiner.Transport.DeliveryChannel
