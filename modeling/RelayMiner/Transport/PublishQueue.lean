import Mathlib.Algebra.Order.BigOperators.Group.List
import Mathlib.Data.UInt
/-!
# The publisher's queue

The queue of `BatchingPublisher` is a slice whose first `head` slots were taken
by chunks and are zeroed. A take moves the head and may compact the slice; a
failed chunk goes back into the free slots in front of the head, or in front of
a new slice. What waits is `live`: the lemmas say what each of these does to it,
so that nothing above this module looks at the slots.
-/

namespace RelayMiner.Transport

open List

inductive DiscardReason where
  | wrongType
  | attemptsExhausted

structure Queued (S : Type) where
  stream : S
  supplier : S
  bytes : Nat
  seq : Nat
  attempts : Nat := 0
  discardReason : Option DiscardReason := none

def maxChunkCommands : Nat := 256

def maxChunkBytes : Nat := 2 ^ 20

variable {S : Type}

def bytes0 (chunk : List (Queued S)) : Nat := (chunk.map (·.bytes)).sum

theorem bytes0_append (a b : List (Queued S)) : bytes0 (a ++ b) = bytes0 a + bytes0 b := by simp [bytes0]

theorem bytes0_take_le (qs : List (Queued S)) {i j : Nat} (h : i ≤ j) : bytes0 (qs.take i) ≤ bytes0 (qs.take j) := by
  obtain ⟨rest, hrest⟩ : qs.take i <+: qs.take j := take_prefix_take_left h
  rw [← hrest, bytes0_append]
  exact Nat.le_add_right _ _

/-! ## Choosing a chunk -/

structure Scan where
  stop : Option Nat
  cmds : Nat
  bytes : Nat

def scan : Nat → Nat → List (Queued S) → Scan
  | cmds, bytes, [] => ⟨none, cmds, bytes⟩
  | cmds, bytes, q :: qs =>
    if (maxChunkCommands < cmds + 1 ∨ maxChunkBytes < bytes + q.bytes) ∧ 0 < cmds then ⟨some cmds, cmds, bytes⟩
    else scan (cmds + 1) (bytes + q.bytes) qs

/-- Where the last stream of `part` begins. -/
def streamStart [DecidableEq S] (part : List (Queued S)) : Nat :=
  match part.getLast? with
  | none => 0
  | some last => (part.reverse.dropWhile (·.stream = last.stream)).length

def cut [DecidableEq S] (live : List (Queued S)) : Nat :=
  match (scan 0 0 live).stop with
  | none => live.length
  | some i => if streamStart (live.take i) = 0 then i else streamStart (live.take i)

def full (live : List (Queued S)) : Bool :=
  (scan 0 0 live).stop.isSome || maxChunkCommands ≤ (scan 0 0 live).cmds || maxChunkBytes ≤ (scan 0 0 live).bytes

theorem scan_spec (cmds bytes : Nat) (qs : List (Queued S)) (hc : cmds ≤ maxChunkCommands)
    (hb : bytes ≤ maxChunkBytes ∨ cmds ≤ 1) :
    ∃ k ≤ qs.length, (scan cmds bytes qs).cmds = cmds + k ∧ (scan cmds bytes qs).bytes = bytes + bytes0 (qs.take k) ∧
      cmds + k ≤ maxChunkCommands ∧ (bytes + bytes0 (qs.take k) ≤ maxChunkBytes ∨ cmds + k ≤ 1) ∧
      ((scan cmds bytes qs).stop = some (cmds + k) ∧ 0 < cmds + k ∨ (scan cmds bytes qs).stop = none ∧ k = qs.length) := by
  induction qs generalizing cmds bytes with
  | nil => exact ⟨0, le_refl _, rfl, rfl, hc, hb, .inr ⟨rfl, rfl⟩⟩
  | cons q qs ih =>
    unfold scan
    split
    next hstop => exact ⟨0, Nat.zero_le _, rfl, rfl, hc, hb, .inl ⟨rfl, hstop.2⟩⟩
    next hgo =>
      -- Either this is the first relay of the chunk, or it fits both limits.
      have hnext : cmds + 1 ≤ maxChunkCommands ∧ (bytes + q.bytes ≤ maxChunkBytes ∨ cmds + 1 ≤ 1) := by
        rcases Nat.eq_zero_or_pos cmds with h0 | hpos
        · exact ⟨by rw [h0]; decide, .inr (by omega)⟩
        · exact ⟨by omega, .inl (by omega)⟩
      obtain ⟨k, hk, hcmds, hbytes, hle, hsum, hend⟩ := ih (cmds + 1) (bytes + q.bytes) hnext.1 hnext.2
      have htake : bytes0 ((q :: qs).take (k + 1)) = q.bytes + bytes0 (qs.take k) := by simp [bytes0]
      have hshift : cmds + 1 + k = cmds + (k + 1) := by omega
      rw [hshift] at hcmds hle hsum hend
      rw [Nat.add_assoc] at hbytes hsum
      refine ⟨k + 1, by simpa using hk, hcmds, by rw [htake]; exact hbytes, hle, by rw [htake]; exact hsum, ?_⟩
      rcases hend with h | ⟨h, hlen⟩
      · exact .inl h
      · exact .inr ⟨h, by simp [hlen]⟩

section Cut

variable [DecidableEq S]

theorem streamStart_le (part : List (Queued S)) : streamStart part ≤ part.length := by
  unfold streamStart
  split
  · exact Nat.zero_le _
  next last _ =>
    have h := (dropWhile_sublist (·.stream = last.stream) (l := part.reverse)).length_le
    rwa [length_reverse] at h

/-- A chunk takes something, and stays within both limits unless it is one relay. -/
theorem cut_spec {live : List (Queued S)} (hne : live ≠ []) :
    0 < cut live ∧ cut live ≤ live.length ∧ cut live ≤ maxChunkCommands ∧
      (bytes0 (live.take (cut live)) ≤ maxChunkBytes ∨ cut live = 1) := by
  obtain ⟨k, hk, -, -, hle, hsum, hend⟩ := scan_spec 0 0 live (Nat.zero_le _) (.inl (Nat.zero_le _))
  simp only [Nat.zero_add] at hle hsum hend
  have hlen := length_pos_iff.2 hne
  unfold cut
  rcases hend with ⟨hstop, hpos⟩ | ⟨hstop, hall⟩
  · have hstart : streamStart (live.take k) ≤ k := (streamStart_le _).trans (by simp)
    simp only [hstop]
    split
    · exact ⟨hpos, hk, hle, hsum.imp_right (by omega)⟩
    · refine ⟨by omega, by omega, by omega, hsum.imp (fun h => ?_) (by omega)⟩
      exact (bytes0_take_le live hstart).trans h
  · simp only [hstop]
    exact ⟨hlen, le_refl _, by omega, hsum.imp (by rw [hall]; exact id) (by omega)⟩

end Cut

/-! ## The slice -/

structure Slice (S : Type) where
  slots : List (Queued S) := []
  head : Nat := 0
  head_le : head ≤ slots.length := by exact Nat.le_refl 0

namespace Slice

abbrev empty : Slice S := {}

def live (q : Slice S) : List (Queued S) := q.slots.drop q.head

def enqueue (q : Slice S) (e : Queued S) : Slice S :=
  { q with
    slots := q.slots ++ [e]
    head_le := by
      have := q.head_le
      rw [List.length_append]
      omega }

def compactLocked (q : Slice S) : Slice S :=
  if q.head = q.slots.length then {}
  else if q.head ≤ q.slots.length / 2 then q
  else { slots := q.slots.drop q.head, head := 0, head_le := Nat.zero_le _ }

def zero [Inhabited S] : Queued S := { stream := default, supplier := default, bytes := 0, seq := 0 }

def advance [Inhabited S] (q : Slice S) (n : Nat) : Slice S :=
  compactLocked
    { slots := q.slots.take q.head ++ List.replicate n zero ++ q.slots.drop (q.head + n)
      head := q.head + n
      head_le := by
        have := q.head_le
        simp only [List.length_append, List.length_take, List.length_replicate]
        omega }

def takeChunkBefore [DecidableEq S] [Inhabited S] (q : Slice S) (cutoff : Nat) : Option (List (Queued S) × Slice S) :=
  match q.live with
  | [] => none
  | first :: rest =>
    if full (first :: rest) = false ∧ cutoff < first.seq then none
    else some ((first :: rest).take (cut (first :: rest)), q.advance (cut (first :: rest)))

def requeueFront (q : Slice S) (chunk : List (Queued S)) : Slice S :=
  if chunk.length ≤ q.head then
    { slots := q.slots.take (q.head - chunk.length) ++ (chunk ++ q.slots.drop q.head)
      head := q.head - chunk.length
      head_le := by
        have := q.head_le
        simp only [List.length_append, List.length_take]
        omega }
  else { slots := chunk ++ q.live, head := 0, head_le := Nat.zero_le _ }

variable (q : Slice S)

theorem live_enqueue (e : Queued S) : (q.enqueue e).live = q.live ++ [e] := by
  simp only [live, enqueue]
  rw [drop_append_of_le_length q.head_le]

theorem live_compactLocked : q.compactLocked.live = q.live := by
  unfold compactLocked
  split
  next h => simp [live, h]
  split
  · rfl
  · simp [live]

theorem live_requeueFront (chunk : List (Queued S)) : (q.requeueFront chunk).live = chunk ++ q.live := by
  unfold requeueFront
  split
  next h =>
    have hlen : (q.slots.take (q.head - chunk.length)).length = q.head - chunk.length := by
      have := q.head_le
      rw [length_take]
      omega
    simp only [live]
    rw [drop_append_of_le_length (le_of_eq hlen.symm), drop_eq_nil_of_le (le_of_eq hlen), nil_append]
  · simp [live]

theorem live_advance [Inhabited S] (n : Nat) : (q.advance n).live = q.live.drop n := by
  have hpre : (q.slots.take q.head ++ List.replicate n zero).length = q.head + n := by
    have := q.head_le
    rw [length_append, length_take, length_replicate]
    omega
  unfold advance
  rw [live_compactLocked]
  simp only [live]
  rw [drop_append_of_le_length (le_of_eq hpre.symm), drop_eq_nil_of_le (le_of_eq hpre), nil_append,
    drop_drop]

/-- A take removes a chunk from the front: something, within the limits. -/
theorem takeChunkBefore_spec [DecidableEq S] [Inhabited S] {q q' : Slice S} {cutoff : Nat} {chunk : List (Queued S)}
    (h : q.takeChunkBefore cutoff = some (chunk, q')) :
    q.live = chunk ++ q'.live ∧ chunk ≠ [] ∧ chunk.length ≤ maxChunkCommands ∧
      (bytes0 chunk ≤ maxChunkBytes ∨ chunk.length = 1) := by
  unfold takeChunkBefore at h
  split at h
  · cases h
  rename_i first rest hl
  split at h
  · cases h
  obtain ⟨rfl, rfl⟩ := h
  rw [live_advance, ← hl, take_append_drop]
  have hne : q.live ≠ [] := by rw [hl]; exact cons_ne_nil _ _
  obtain ⟨hpos, hle, hmax, hbytes⟩ := cut_spec hne
  have hlen : (q.live.take (cut q.live)).length = cut q.live := by
    rw [length_take]
    omega
  refine ⟨rfl, fun hnil => ?_, by rw [hlen]; exact hmax, by rw [hlen]; exact hbytes⟩
  rw [hnil, length_nil] at hlen
  omega

end Slice

end RelayMiner.Transport
