import RelayMiner.Lib.Runs
/-!
# Broadcast permits

A broadcast holds one permit of a semaphore while it runs. `Close` sets the
closed flag and then takes every permit, behind whoever is in the semaphore's
queue; `acquirePermit` reads the flag before it asks for its permit and again
when it has it. The semaphore is the library's: a queue served in the order of
arrival, whose head keeps everyone behind it waiting.

`BroadcastRawReturningHash`, which sends bytes that were signed before, asks for
no permit and does not look at the flag. It is the one broadcast that `Close`
does not stop.
-/
open RelayMiner.Lib

namespace RelayMiner.Tx.Permits

open List

structure Caller where
  noWait : Bool
  /-- It was in the queue when `Close` set the flag. -/
  overtaken : Bool := false

/-- A caller with a permit: not yet awake in the queue, before its second look at the flag, or broadcasting. -/
inductive Stage where
  | woken
  | granted
  | sending

inductive Result where
  | sent
  | closed
  | saturated
  | cancelled

inductive Closing where
  | notCalled
  | flagged
  | queued
  | returned
  deriving DecidableEq

/-- The semaphore: who has a permit, who waits for one, and how far `Close` is. -/
structure World where
  /-- Callers that found the client open and have not asked the semaphore yet: whether each must not wait. -/
  passed : List Bool := []
  /-- The semaphore's waiters; `none` is `Close`. -/
  queue : List (Option Caller) := []
  holding : List (Caller × Stage) := []
  ended : List (Caller × Result) := []
  cur : Nat := 0
  closing : Closing := .notCalled

def maxConcurrent (configured : Int) : Nat := if 0 < configured then configured.toNat else 32

def World.end (w : World) (c : Caller) (r : Result) : World := { w with ended := (c, r) :: w.ended }

def World.grant (w : World) (c : Caller) (st : Stage) : World :=
  { w with cur := w.cur + 1, holding := (c, st) :: w.holding }

/-- Serves the waiters in turn, and stops at the first one there is no room for. -/
def notifyWaiters (size : Nat) : List (Option Caller) → World → World
  | [], w => { w with queue := [] }
  | some c :: q, w =>
    if w.cur < size then notifyWaiters size q (w.grant c .woken) else { w with queue := some c :: q }
  | none :: q, w =>
    if w.cur = 0 then notifyWaiters size q { w with cur := size, closing := .returned }
    else { w with queue := none :: q }

def release (size : Nat) (w : World) (i : Nat) (c : Caller) (r : Result) : World :=
  notifyWaiters size w.queue { w.end c r with holding := w.holding.eraseIdx i, cur := w.cur - 1 }

/-- `TryAcquire` of a caller that must not wait, `Acquire` of another. -/
def acquire (size : Nat) (w : World) (c : Caller) : World :=
  if w.cur < size ∧ w.queue = [] then w.grant c .granted
  else if c.noWait then w.end c .saturated
  else { w with queue := w.queue ++ [some c] }

/-- `Close`, a stage at a time: the flag, then all the permits. -/
def close (size : Nat) (w : World) : World :=
  match w.closing with
  | .notCalled =>
    { w with closing := .flagged, queue := w.queue.map (Option.map fun c => { c with overtaken := true }) }
  | .flagged =>
    if w.cur = 0 ∧ w.queue = [] then { w with cur := size, closing := .returned }
    else { w with closing := .queued, queue := w.queue ++ [none] }
  | _ => w

inductive Act where
  | arrive (noWait : Bool)
  | acquire (i : Nat)
  /-- The caller with the `i`-th permit goes on: it wakes, looks at the flag, or is done with its broadcast. -/
  | next (i : Nat)
  | cancelPassed (i : Nat)
  | cancelQueued (i : Nat)
  | cancelWoken (i : Nat)
  | close

def step (size : Nat) (w : World) : Act → World
  | .arrive noWait =>
    if w.closing = .notCalled then { w with passed := noWait :: w.passed } else w.end { noWait } .closed
  | .acquire i =>
    match w.passed[i]? with
    | some noWait => acquire size { w with passed := w.passed.eraseIdx i } { noWait }
    | none => w
  | .next i =>
    match w.holding[i]? with
    | some (c, .woken) => { w with holding := w.holding.set i (c, .granted) }
    | some (c, .granted) =>
      if w.closing = .notCalled then { w with holding := w.holding.set i (c, .sending) }
      else release size w i c .closed
    | some (c, .sending) => release size w i c .sent
    | none => w
  | .cancelPassed i =>
    match w.passed[i]? with
    | some false => { w.end { noWait := false } .cancelled with passed := w.passed.eraseIdx i }
    | _ => w
  | .cancelQueued i =>
    -- The library notifies only if this was the head and there is room: otherwise the head has no room still.
    match w.queue[i]? with
    | some (some c) => notifyWaiters size (w.queue.eraseIdx i) (w.end c .cancelled)
    | _ => w
  | .cancelWoken i =>
    match w.holding[i]? with
    | some (c, .woken) => release size w i c .cancelled
    | _ => w
  | .close => close size w

/-- The client: its permits, and the re-injections that are being broadcast. -/
structure Client where
  permits : World := {}
  raw : Nat := 0

inductive Move where
  | permit (a : Act)
  | broadcastRaw
  | rawDone

def Client.step (size : Nat) (t : Client) : Move → Client
  | .permit a => { t with permits := Permits.step size t.permits a }
  | .broadcastRaw => { t with raw := t.raw + 1 }
  | .rawDone => { t with raw := t.raw - 1 }

/-- `Close` returns only while no re-injection is being broadcast, and none begins after it. -/
def RawBefore (size : Nat) (t : Client) : Move → Prop
  | .permit a => t.permits.closing ≠ .returned → (Permits.step size t.permits a).closing = .returned → t.raw = 0
  | .broadcastRaw => t.permits.closing ≠ .returned
  | .rawDone => True

/-- The permits `Close` has. -/
def Closing.taken (size : Nat) : Closing → Nat
  | .returned => size
  | _ => 0

/-- The waiter at the head finds no room. -/
def Blocked (size cur : Nat) : List (Option Caller) → Prop
  | [] => True
  | some _ :: _ => cur = size
  | none :: _ => 0 < cur

/-- All that holds between two operations, but for what the head of the queue waits for. -/
structure Kept (size : Nat) (w : World) : Prop where
  count : w.cur = w.holding.length + w.closing.taken size
  bound : w.cur ≤ size
  waiters : ∀ c, some c ∈ w.queue →
    c.noWait = false ∧ (c.overtaken = true → w.closing = .flagged ∨ w.closing = .queued)
  queued : none ∈ w.queue → w.closing = .queued
  behind : w.queue.Pairwise fun a b => a = none → ∃ c, b = some c ∧ c.overtaken = false
  holding : ∀ x ∈ w.holding, x.1.overtaken = true → w.closing ≠ .notCalled ∧ x.2 ≠ .sending
  ended : ∀ x ∈ w.ended, x.1.overtaken = true → x.2 = .closed ∨ x.2 = .cancelled

structure Inv (size : Nat) (w : World) : Prop extends Kept size w where
  blocked : Blocked size w.cur w.queue

variable {size i : Nat} {w : World} {c : Caller} {r : Result} {st : Stage} {q : List (Option Caller)}

theorem Kept.grant (h : Kept size w) (hroom : w.cur < size)
    (hc : c.overtaken = true → w.closing ≠ .notCalled ∧ st ≠ .sending) : Kept size (w.grant c st) := by
  refine { h with count := ?_, bound := hroom, holding := forall_mem_cons.2 ⟨hc, h.holding⟩ }
  have := h.count
  simp only [World.grant, length_cons]
  omega

theorem Kept.end (h : Kept size w) (hc : c.overtaken = true → r = .closed ∨ r = .cancelled) :
    Kept size (w.end c r) :=
  { h with ended := forall_mem_cons.2 ⟨hc, h.ended⟩ }

theorem Kept.sublist (h : Kept size w) (hq : q.Sublist w.queue) : Kept size { w with queue := q } :=
  { h with
    waiters := fun c hc => h.waiters c (hq.subset hc)
    queued := fun hn => h.queued (hq.subset hn)
    behind := h.behind.sublist hq }

attribute [local simp] Closing.taken

/-- With no permit out `Close` has them all, and behind it nobody was overtaken. -/
theorem Kept.return (h : Kept size w) (h0 : w.cur = 0)
    (hbehind : ∀ b ∈ w.queue, ∃ c, b = some c ∧ c.overtaken = false) :
    Kept size { w with cur := size, closing := .returned } := by
  have hempty : w.holding = [] := by
    have := h.count
    exact eq_nil_of_length_eq_zero (by omega)
  refine ⟨by simp [hempty], Nat.le_refl _, fun c hc => ⟨(h.waiters c hc).1, fun ho => ?_⟩, fun hn => ?_, h.behind,
    by simp [hempty], h.ended⟩
  · obtain ⟨c', hc', ho'⟩ := hbehind _ hc
    cases hc'
    simp [ho'] at ho
  · obtain ⟨c, hc, -⟩ := hbehind _ hn
    cases hc

theorem Kept.notifyWaiters (h : Kept size { w with queue := q }) : Inv size (notifyWaiters size q w) := by
  induction q generalizing w with
  | nil => exact { h with blocked := trivial }
  | cons x q ih =>
    have htail : Kept size { w with queue := q } := h.sublist (sublist_cons_self x q)
    cases x with
    | some c =>
      simp only [Permits.notifyWaiters]
      split
      next hroom =>
        refine ih (htail.grant hroom fun ho => ⟨fun hopen => ?_, nofun⟩)
        have : w.closing = .notCalled := hopen
        simpa [this] using (h.waiters c mem_cons_self).2 ho
      next hroom => exact { h with blocked := Nat.le_antisymm h.bound (Nat.le_of_not_lt hroom) }
    | none =>
      simp only [Permits.notifyWaiters]
      split
      next h0 => exact ih (htail.return h0 fun b hb => (pairwise_cons.1 h.behind).1 b hb rfl)
      next h0 => exact { h with blocked := Nat.pos_of_ne_zero h0 }

theorem Kept.release (h : Kept size w) (hi : w.holding[i]? = some (c, st))
    (hc : c.overtaken = true → r = .closed ∨ r = .cancelled) : Inv size (release size w i c r) := by
  obtain ⟨hlt, -⟩ := List.getElem?_eq_some_iff.1 hi
  have hcount := h.count
  have hbound := h.bound
  refine Kept.notifyWaiters { h.end hc with
    count := ?_, bound := by simp only; omega, holding := fun x hx => h.holding x (mem_of_mem_eraseIdx hx) }
  simp only [length_eraseIdx_of_lt hlt, World.end]
  omega

theorem Inv.set {st' : Stage} (h : Inv size w) (hi : w.holding[i]? = some (c, st))
    (hst : st' = .sending → w.closing = .notCalled) :
    Inv size { w with holding := w.holding.set i (c, st') } := by
  refine { h with count := by simpa using h.count, holding := fun x hx ho => ?_ }
  obtain hx | rfl := mem_or_eq_of_mem_set hx
  · exact h.holding x hx ho
  · have hopen := (h.holding _ (mem_of_getElem? hi) ho).1
    exact ⟨hopen, fun hs => hopen (hst hs)⟩

theorem Blocked.append {cur : Nat} {x : Option Caller} (h : Blocked size cur q)
    (hx : q = [] → Blocked size cur [x]) : Blocked size cur (q ++ [x]) := by
  cases q with
  | nil => exact hx rfl
  | cons y q =>
    cases y with
    | some | none => exact h

theorem Inv.acquire (h : Inv size w) (hc : c.overtaken = false) : Inv size (acquire size w c) := by
  have hnot : ∀ {P : Prop}, c.overtaken = true → P := fun ho => by simp [hc] at ho
  unfold Permits.acquire
  split
  next hroom => exact { h.toKept.grant hroom.1 hnot with blocked := by simp only [World.grant, hroom.2, Blocked] }
  next hroom =>
    split
    · exact { h.toKept.end hnot with blocked := h.blocked }
    next hwait =>
      refine { h with
        waiters := fun c' hc' => ?_, queued := fun hn => h.queued (by simpa using hn), behind := ?_,
        blocked := h.blocked.append fun hq => Nat.le_antisymm h.bound (Nat.le_of_not_lt fun hlt => hroom ⟨hlt, hq⟩) }
      · obtain hc' | hc' := mem_append.1 hc'
        · exact h.waiters c' hc'
        · cases mem_singleton.1 hc'
          exact ⟨by simpa using hwait, hnot⟩
      · refine pairwise_append.2 ⟨h.behind, pairwise_singleton _ _, fun a _ b hb _ => ?_⟩
        exact ⟨c, mem_singleton.1 hb, hc⟩

theorem Inv.flag (h : Inv size w) (hopen : w.closing = .notCalled) : Inv size (close size w) := by
  have hnone : none ∉ w.queue := fun hn => by simpa [hopen] using h.queued hn
  simp only [Permits.close, hopen]
  refine { h with
    count := by simpa [hopen] using h.count, waiters := fun c hc => ?_, queued := fun hn => ?_, behind := ?_,
    holding := fun x hx ho => absurd hopen (h.holding x hx ho).1, blocked := ?_ }
  · obtain ⟨x, hx, heq⟩ := mem_map.1 hc
    obtain ⟨c', rfl, rfl⟩ := Option.map_eq_some_iff.1 heq
    exact ⟨(h.waiters c' hx).1, fun _ => .inl rfl⟩
  · obtain ⟨x, hx, heq⟩ := mem_map.1 hn
    exact absurd (Option.map_eq_none_iff.1 heq ▸ hx) hnone
  · refine pairwise_map.2 (h.behind.imp_of_mem fun {a _} ha _ _ heq => ?_)
    exact absurd (Option.map_eq_none_iff.1 heq ▸ ha) hnone
  have hb := h.blocked
  revert hb
  cases w.queue with
  | nil => exact id
  | cons x q =>
    cases x with
    | some | none => exact id

theorem Inv.close (h : Inv size w) : Inv size (close size w) := by
  cases hw : w.closing with
  | notCalled => exact h.flag hw
  | flagged =>
    have hnone : none ∉ w.queue := fun hn => by simpa [hw] using h.queued hn
    simp only [Permits.close, hw]
    split
    next hfree =>
      exact { h.toKept.return hfree.1 (by simp [hfree.2]) with blocked := by simp only [hfree.2, Blocked] }
    next hbusy =>
      refine { h with
        count := by simpa [hw] using h.count
        waiters := fun c hc => ⟨(h.waiters c (by simpa using hc)).1, fun _ => .inr rfl⟩
        queued := fun _ => rfl
        behind := pairwise_append.2 ⟨h.behind, pairwise_singleton _ _, fun a ha b _ heq => ?_⟩
        holding := fun x hx ho => ⟨nofun, (h.holding x hx ho).2⟩
        blocked := h.blocked.append fun hq => Nat.pos_of_ne_zero fun h0 => hbusy ⟨h0, hq⟩ }
      exact absurd (heq ▸ ha) hnone
  | queued | returned => simpa only [Permits.close, hw] using h

theorem inv_step (size : Nat) (w : World) (a : Act) (h : Inv size w) : Inv size (step size w a) := by
  cases a with
  | arrive noWait =>
    simp only [step]
    split
    · exact { h with }
    · exact { h.toKept.end (c := { noWait }) nofun with blocked := h.blocked }
  | acquire i =>
    simp only [step]
    split
    · exact Inv.acquire { h with } rfl
    · exact h
  | next i =>
    simp only [step]
    split
    next hi => exact h.set hi nofun
    next hi =>
      split
      next hopen => exact h.set hi fun _ => hopen
      · exact h.release hi fun _ => .inl rfl
    next hi => exact h.release hi fun ho => absurd rfl (h.holding _ (mem_of_getElem? hi) ho).2
    · exact h
  | cancelPassed i =>
    simp only [step]
    split
    · exact { h.toKept.end (c := { noWait := false }) (r := .cancelled) nofun with blocked := h.blocked }
    · exact h
  | cancelQueued i =>
    simp only [step]
    split
    · exact ((h.toKept.end fun _ => .inr rfl).sublist (eraseIdx_sublist _ _)).notifyWaiters
    · exact h
  | cancelWoken i =>
    simp only [step]
    split
    next hi => exact h.release hi fun _ => .inr rfl
    · exact h
  | close => exact h.close

theorem inv_run (size : Nat) (ms : List Move) : Inv size (run (Client.step size) {} ms).permits := by
  have h0 : Inv size {} := ⟨⟨rfl, Nat.zero_le _, nofun, nofun, .nil, nofun, nofun⟩, trivial⟩
  refine inv_of_run (fun t : Client => Inv size t.permits) (fun t m h => ?_) ms h0
  cases m with
  | permit a => exact inv_step size t.permits a h
  | broadcastRaw | rawDone => exact h

/-- What `Close` has once returned it keeps. -/
theorem returned_step (size : Nat) (w : World) (a : Act) (h : w.closing = .returned) :
    (step size w a).closing = .returned := by
  have hnotify : ∀ q w, w.closing = .returned → (notifyWaiters size q w).closing = .returned := by
    intro q
    induction q with
    | nil => exact fun _ hw => hw
    | cons x q ih =>
      intro w hw
      cases x with
      | some c | none =>
        simp only [notifyWaiters]
        split
        · exact ih _ (by first | exact hw | rfl)
        · exact hw
  cases a <;> simp only [step, close, h, acquire]
  all_goals repeat' split
  all_goals first | rfl | exact h | exact hnotify _ _ h

theorem raw_step (size : Nat) (t : Client) (m : Move) (h : t.permits.closing = .returned → t.raw = 0)
    (hm : RawBefore size t m) : (t.step size m).permits.closing = .returned → (t.step size m).raw = 0 := by
  intro hr
  cases m with
  | permit a => exact (Decidable.em (t.permits.closing = .returned)).elim h fun hne => hm hne hr
  | broadcastRaw => exact absurd hr hm
  | rawDone => exact Nat.sub_eq_zero_of_le (by rw [h hr]; exact Nat.zero_le 1)

/-- Every run in which no re-injection is broadcast when `Close` returns or begins after it: at most the configured
number of permits is out, each in the hands of a broadcast or of `Close`; who must not wait does not queue; nothing is
sent once `Close` has returned; and who was queued when it began sends nothing, and waits only for permits that are out. -/
theorem close_quiesces (configured : Int) (as more : List Move)
    (hraw : Meets (Client.step (maxConcurrent configured)) (RawBefore (maxConcurrent configured)) {} (as ++ more)) :
    let size := maxConcurrent configured
    let t := run (Client.step size) {} as
    let w := t.permits
    w.cur = w.holding.length + w.closing.taken size ∧ w.cur ≤ size ∧
    (∀ c, some c ∈ w.queue → c.noWait = false) ∧
    (w.closing = .returned →
      (run (Client.step size) t more).permits.holding = [] ∧ (run (Client.step size) t more).raw = 0) ∧
    (∀ x ∈ w.ended, x.1.overtaken = true → x.2 = .closed ∨ x.2 = .cancelled) ∧
    (∀ x ∈ w.holding, x.1.overtaken = true → x.2 ≠ .sending) ∧
    (∀ c, some c ∈ w.queue → c.overtaken = true → w.holding ≠ []) := by
  intro size t w
  have h : Inv size w := inv_run size as
  have hpos : 0 < size := by
    simp only [size, maxConcurrent]
    split <;> omega
  refine ⟨h.count, h.bound, fun c hc => (h.waiters c hc).1, fun hr => ?_, h.ended,
    fun x hx ho => (h.holding x hx ho).2, fun c hc ho hempty => ?_⟩
  · have hreturned : (run (Client.step size) t more).permits.closing = .returned := by
      refine inv_of_run (fun t : Client => t.permits.closing = .returned) (fun t m ht => ?_) more hr
      cases m with
      | permit a => exact returned_step size t.permits a ht
      | broadcastRaw | rawDone => exact ht
    rw [← run_append] at hreturned ⊢
    have hcount := (inv_run size (as ++ more)).count
    have hbound := (inv_run size (as ++ more)).bound
    rw [hreturned, Closing.taken] at hcount
    have hnone := inv_of_meets (fun t : Client => t.permits.closing = .returned → t.raw = 0)
      (raw_step size) (fun _ => rfl) hraw
    exact ⟨eq_nil_of_length_eq_zero (by omega), hnone hreturned⟩
  -- The head of the queue finds a permit out, and is not `Close`, which nobody overtaken is behind.
  have hnot : w.closing ≠ .returned := fun hr => by simpa [hr] using (h.waiters c hc).2 ho
  have hcur : w.cur = 0 := by
    rw [h.count, hempty]
    revert hnot
    cases w.closing <;> simp
  have hblocked := h.blocked
  cases hq : w.queue with
  | nil => simp [hq] at hc
  | cons x q =>
    rw [hq, hcur] at hblocked
    cases x with
    | some => exact absurd hblocked (by simp only [Blocked]; omega)
    | none => exact absurd hblocked (Nat.lt_irrefl 0)

/-- A broadcast and a re-injection are done before `Close` gets the permits; a caller that comes later is turned away. -/
theorem close_quiesces_after_raw :
    let as : List Move := [.permit (.arrive false), .permit (.acquire 0), .permit (.next 0), .broadcastRaw, .permit .close,
      .permit .close, .rawDone, .permit (.next 0)]
    let t := run (Client.step (maxConcurrent 1)) {} as
    t.permits.closing = .returned ∧ (run (Client.step (maxConcurrent 1)) t [.permit (.arrive true)]).raw = 0 := by
  intro as t
  have hraw : Meets (Client.step (maxConcurrent 1)) (RawBefore (maxConcurrent 1)) {} (as ++ [.permit (.arrive true)]) :=
    ⟨nofun, nofun, nofun, nofun, nofun, nofun, trivial, fun _ _ => rfl, fun h => absurd rfl h, trivial⟩
  exact ⟨rfl, ((close_quiesces 1 as [.permit (.arrive true)] hraw).2.2.2.1 rfl).2⟩

/-- `Close` has returned, and a re-injection is broadcast. -/
theorem raw_broadcast_after_close :
    let t := run (Client.step (maxConcurrent 1)) {} [.permit .close, .permit .close, .broadcastRaw]
    t.permits.closing = .returned ∧ t.raw = 1 := by
  decide

end RelayMiner.Tx.Permits
