import RelayMiner.Transport.EmbeddedQueue
/-!
# The wake-ups of the embedded queue

`deliverLoop` reads what is due, sends it and, when there was nothing, blocks
until the stream's `notify` holds a token or a timer set for `nextDue` fires.
`Publish` puts a token into `notify` after its commit; `ReleaseMessage` puts
none, so a release that lands when nothing else is released and the loop has
done its read waits for the next publish.

Times are in nanoseconds of a clock that does not go back; a timer set for a
time that has passed fires at once.
-/
open RelayMiner.Lib

namespace RelayMiner.Transport.EmbeddedQueue.Wakeups

open List

inductive Loop where
  | reading
  | sending
  | deciding (nextDue : Option Nat) (err : Bool)
  | blocked (timer : Option Nat)
  | returned
  deriving DecidableEq

structure World (V : Type) where
  q : Queue V
  loop : Loop := .reading
  notify : Bool := false
  /-- Publishes that have committed and have not called `wake` yet. -/
  waking : Nat := 0
  clock : Nat := 0

def readRetryDelay : Nat := 1000000000

/-- When the loop wakes by itself: the next due redelivery, or sooner after a read that failed. -/
def timer (now : Nat) (nextDue : Option Nat) (err : Bool) : Option Nat :=
  match nextDue with
  | none => if err then some (now + readRetryDelay) else none
  | some due => if err && now + readRetryDelay < due then some (now + readRetryDelay) else some due

inductive Act (V : Type) where
  | tick (n : Nat)
  | publish (now : UInt64) (v : V) (committed : Bool)
  | wake
  | read (f : ReadFaults)
  | send
  | block
  | woken
  | fired
  | stop
  | ackMessage (id : ID) (committed : Bool)
  | ackInBatch (ids : List ID)
  | acked (ids : List ID)
  | releaseMessage (id : ID)
  | trimStream (cutoff : Nat) (f : TrimFault)

variable {V : Type}

def read (decodes : V → Bool) (w : World V) (f : ReadFaults) : World V :=
  let r := nextBatch decodes w.q w.clock f
  { w with q := r.1, loop := if r.1.batch = [] then .deciding r.2.1 r.2.2 else .sending }

def send (w : World V) : World V :=
  let q := deliver w.q
  { w with q, loop := if q.batch = [] then .reading else .sending }

/-- A move of the consumer's loop, or of a caller beside it. -/
def step (decodes : V → Bool) (releaseDelay : Nat) (w : World V) : Act V → World V
  | .tick n => { w with clock := w.clock + n }
  | .publish now v committed =>
    { w with q := publish w.q now v committed, waking := if committed then w.waking + 1 else w.waking }
  | .wake => if w.waking = 0 then w else { w with notify := true, waking := w.waking - 1 }
  | .read f => if w.loop = .reading then read decodes w f else w
  | .send => if w.loop = .sending then send w else w
  | .block =>
    match w.loop with
    | .deciding nextDue err => { w with loop := .blocked (timer w.clock nextDue err) }
    | _ => w
  | .woken =>
    match w.loop with
    | .blocked _ => if w.notify then { w with loop := .reading, notify := false } else w
    | _ => w
  | .fired =>
    match w.loop with
    | .blocked (some t) => if t ≤ w.clock then { w with loop := .reading } else w
    | _ => w
  | .stop => { w with q := putBack w.q, loop := .returned }
  | .ackMessage id committed => { w with q := EmbeddedQueue.step decodes w.q (.ackMessage id committed) }
  | .ackInBatch ids => { w with q := EmbeddedQueue.step decodes w.q (.ackInBatch ids) }
  | .acked ids => { w with q := EmbeddedQueue.step decodes w.q (.acked ids) }
  | .releaseMessage id =>
    { w with q := EmbeddedQueue.step decodes w.q (.releaseMessage id (w.clock + releaseDelay)) }
  | .trimStream cutoff f => { w with q := EmbeddedQueue.step decodes w.q (.trimStream cutoff f) }

def start (q : Queue V) : World V := { q := restart q }

/-! ## What a wait covers -/

def Covers (released : List (ID × Nat)) (t : Option Nat) : Prop :=
  released = [] ∨ ∃ d, t = some d ∧ ∀ r ∈ released, d ≤ r.2

variable {released : List (ID × Nat)}

theorem covers_timer {nextDue : Option Nat} (h : Covers released nextDue) (now : Nat)
    (err : Bool) : Covers released (timer now nextDue err) := by
  rcases h with h | ⟨d, rfl, hd⟩
  · exact .inl h
  unfold timer
  dsimp only
  split
  next hearly =>
    have hlt : now + readRetryDelay < d := by simpa using (Bool.and_eq_true_iff.1 hearly).2
    exact .inr ⟨_, rfl, fun r hr => le_trans (le_of_lt hlt) (hd r hr)⟩
  · exact .inr ⟨d, rfl, hd⟩

theorem Covers.append {t : Option Nat} (h : Covers released t) (hne : released ≠ [])
    {latest : Nat} (hle : ∀ r ∈ released, r.2 ≤ latest) (id : ID) : Covers (released ++ [(id, latest)]) t := by
  obtain ⟨d, rfl, hd⟩ := h.resolve_left hne
  obtain ⟨r', hr'⟩ := exists_mem_of_ne_nil released hne
  exact .inr ⟨d, rfl, forall_mem_append.2 ⟨hd, forall_mem_singleton.2 (le_trans (hd r' hr') (hle r' hr'))⟩⟩

variable (decodes : V → Bool)

/-- `nextDue` is the earliest of what stays released, unless a read of a released entry fails. -/
theorem covers_readReleased (entries : List (ID × V)) (now : Nat) {faults : List Bool}
    (hf : true ∉ faults) (rs : List (ID × Nat)) :
    Covers (readReleased decodes entries now faults rs).kept (readReleased decodes entries now faults rs).nextDue := by
  induction rs generalizing faults with
  | nil => exact .inl (by simp [readReleased])
  | cons r rs ih =>
    unfold readReleased
    split
    · refine .inr ?_
      rcases ih hf with hk | ⟨d, hd, hle⟩
      · dsimp only
        rw [hk]
        cases (readReleased decodes entries now faults rs).nextDue with
        | none => exact ⟨r.2, rfl, by simp⟩
        | some d => exact ⟨min r.2 d, rfl, by simp⟩
      dsimp only
      rw [hd]
      exact ⟨min r.2 d, rfl, forall_mem_cons.2 ⟨min_le_left _ _, fun x hx => le_trans (min_le_right _ _) (hle x hx)⟩⟩
    split
    next hfail =>
      cases faults with
      | nil => cases hfail
      | cons b bs => exact absurd (mem_cons.2 (.inl hfail.symm)) hf
    have htail := @ih faults.tail (fun hm => hf (mem_of_mem_tail hm))
    split
    · exact htail
    · split <;> exact htail

theorem nextBatch_released (q : Queue V) (now : Nat) (f : ReadFaults) :
    (nextBatch decodes q now f).1.released = (readReleased decodes q.entries now f.released q.released).kept ∧
      (nextBatch decodes q now f).2.1 = (readReleased decodes q.entries now f.released q.released).nextDue := by
  unfold nextBatch
  dsimp only
  split <;> exact ⟨rfl, rfl⟩

/-! ## The invariant -/

structure Inv (releaseDelay : Nat) (w : World V) : Prop where
  due : ∀ r ∈ w.q.released, r.2 ≤ w.clock + releaseDelay
  deciding : ∀ nextDue err, w.loop = .deciding nextDue err → w.notify = true ∨ Covers w.q.released nextDue
  blocked : ∀ t, w.loop = .blocked t → w.notify = true ∨ Covers w.q.released t

def Loop.Ahead : Loop → Prop
  | .reading | .sending | .returned => True
  | .deciding _ _ | .blocked _ => False

instance : DecidablePred Loop.Ahead := fun l => by cases l <;> unfold Loop.Ahead <;> infer_instance

/-- A release finds the loop on its way to a read, a token, or an entry released before; no read of a released entry
fails. -/
def Heard (w : World V) : Act V → Prop
  | .releaseMessage _ => w.loop.Ahead ∨ w.notify = true ∨ w.q.released ≠ []
  | .read f => true ∉ f.released
  | _ => True

instance (w : World V) (a : Act V) : Decidable (Heard w a) := by
  cases a <;> unfold Heard <;> infer_instance

variable {releaseDelay : Nat} {w : World V}

theorem Inv.of_ahead (h : w.loop.Ahead) (hdue : ∀ r ∈ w.q.released, r.2 ≤ w.clock + releaseDelay) :
    Inv releaseDelay w where
  due := hdue
  deciding nextDue err hl := by rw [hl] at h; exact h.elim
  blocked t hl := by rw [hl] at h; exact h.elim

/-- A call that leaves the released list alone; it may put a token into `notify`. -/
theorem Inv.frame {w' : World V} (h : Inv releaseDelay w) (hrel : w'.q.released = w.q.released)
    (hloop : w'.loop = w.loop) (hnotify : w.notify = true → w'.notify = true) (hclock : w.clock ≤ w'.clock) :
    Inv releaseDelay w' where
  due r hr := le_trans (h.due r (hrel ▸ hr)) (Nat.add_le_add_right hclock _)
  deciding nextDue err hl := hrel ▸ (h.deciding nextDue err (hloop ▸ hl)).imp_left hnotify
  blocked t hl := hrel ▸ (h.blocked t (hloop ▸ hl)).imp_left hnotify

theorem inv_read (h : Inv releaseDelay w) {f : ReadFaults} (hf : true ∉ f.released) :
    Inv releaseDelay (read decodes w f) := by
  obtain ⟨hrel, hnext⟩ := nextBatch_released decodes w.q w.clock f
  have hsub := (readReleased_spec decodes w.q.entries w.clock f.released w.q.released).kept
  have hcov := covers_readReleased decodes w.q.entries w.clock hf w.q.released
  rw [← hrel] at hsub
  rw [← hrel, ← hnext] at hcov
  have hdue : ∀ r ∈ (read decodes w f).q.released, r.2 ≤ (read decodes w f).clock + releaseDelay :=
    fun r hr => h.due r (hsub r hr)
  by_cases hb : (nextBatch decodes w.q w.clock f).1.batch = []
  · have hloop : (read decodes w f).loop =
        .deciding (nextBatch decodes w.q w.clock f).2.1 (nextBatch decodes w.q w.clock f).2.2 := if_pos hb
    refine ⟨hdue, fun nextDue err hl => ?_, fun t hl => ?_⟩
    · rw [hloop] at hl
      cases hl
      exact .inr hcov
    · rw [hloop] at hl
      cases hl
  · have hloop : (read decodes w f).loop = .sending := if_neg hb
    exact .of_ahead (by rw [hloop]; trivial) hdue

theorem released_deliver (q : Queue V) : (deliver q).released = q.released := by
  unfold deliver
  split <;> rfl

theorem inv_send (h : Inv releaseDelay w) : Inv releaseDelay (send w) := by
  have hdue : ∀ r ∈ (send w).q.released, r.2 ≤ (send w).clock + releaseDelay := by
    intro r hr
    exact h.due r (released_deliver w.q ▸ hr)
  by_cases hb : (deliver w.q).batch = []
  · have hloop : (send w).loop = .reading := if_pos hb
    exact .of_ahead (by rw [hloop]; trivial) hdue
  · have hloop : (send w).loop = .sending := if_neg hb
    exact .of_ahead (by rw [hloop]; trivial) hdue

theorem inv_releaseMessage (h : Inv releaseDelay w) {id : ID}
    (hh : w.loop.Ahead ∨ w.notify = true ∨ w.q.released ≠ []) :
    Inv releaseDelay
      { w with q := EmbeddedQueue.step decodes w.q (.releaseMessage id (w.clock + releaseDelay)) } := by
  simp only [EmbeddedQueue.step]
  split
  swap
  · exact h
  have hdue : ∀ r ∈ (releaseMessage w.q id (w.clock + releaseDelay)).released, r.2 ≤ w.clock + releaseDelay :=
    forall_mem_append.2 ⟨h.due, forall_mem_singleton.2 (le_refl _)⟩
  have hcov : ∀ t, w.notify = true ∨ Covers w.q.released t → w.notify = true ∨ w.q.released ≠ [] →
      w.notify = true ∨ Covers (w.q.released ++ [(id, w.clock + releaseDelay)]) t := by
    intro t hc hor
    rcases hc with hc | hc
    · exact .inl hc
    · exact hor.imp_right fun hne => hc.append hne h.due id
  rcases hh with hh | hh
  · exact .of_ahead hh hdue
  · exact ⟨hdue, fun nextDue err hl => hcov nextDue (h.deciding nextDue err hl) hh,
      fun t hl => hcov t (h.blocked t hl) hh⟩

theorem inv_step (w : World V) (a : Act V) (h : Inv releaseDelay w) (hh : Heard w a) :
    Inv releaseDelay (step decodes releaseDelay w a) := by
  cases a with
  | tick n => exact h.frame rfl rfl (fun hn => hn) (Nat.le_add_right _ _)
  | publish now v committed =>
    refine h.frame ?_ rfl (fun hn => hn) (le_refl _)
    simp only [step, publish]
    split <;> rfl
  | wake =>
    simp only [step]
    split
    · exact h
    · exact h.frame rfl rfl (fun _ => rfl) (le_refl _)
  | read f =>
    simp only [step]
    split
    · exact inv_read decodes h hh
    · exact h
  | send =>
    simp only [step]
    split
    · exact inv_send h
    · exact h
  | block =>
    simp only [step]
    split
    next nextDue err hl =>
      refine ⟨h.due, nofun, fun t ht => ?_⟩
      cases ht
      exact (h.deciding nextDue err hl).imp_right fun hc => covers_timer hc w.clock err
    · exact h
  | woken | fired =>
    simp only [step]
    split
    · split
      · exact .of_ahead trivial h.due
      · exact h
    · exact h
  | stop =>
    refine .of_ahead trivial fun r hr => ?_
    rcases mem_append.1 hr with hr | hr
    · exact h.due r hr
    · obtain ⟨m, -, rfl⟩ := mem_map.1 hr
      exact Nat.zero_le _
  | ackMessage | acked =>
    refine h.frame ?_ rfl (fun hn => hn) (le_refl _)
    simp only [step, EmbeddedQueue.step]
    split <;> rfl
  | ackInBatch ids => exact h.frame rfl rfl (fun hn => hn) (le_refl _)
  | releaseMessage id => exact inv_releaseMessage decodes h hh
  | trimStream cutoff f =>
    refine h.frame ?_ rfl (fun hn => hn) (le_refl _)
    cases f <;> rfl

/-- In every run where releases are heard, a loop that is blocked with no token in `notify` has nothing released or
waits on a timer that fires no later than the earliest due time. -/
theorem released_is_scheduled (decodes : V → Bool) (releaseDelay : Nat) (q : Queue V) (as : List (Act V))
    (h : Meets (step decodes releaseDelay) Heard (start q) as) :
    let w := run (step decodes releaseDelay) (start q) as
    ∀ t, w.loop = .blocked t → w.notify = false →
      w.q.released = [] ∨ ∃ d, t = some d ∧ ∀ r ∈ w.q.released, d ≤ r.2 := by
  have h0 : Inv releaseDelay (start q) := .of_ahead trivial (by simp [start, restart])
  have hinv := inv_of_meets (Inv releaseDelay) (inv_step decodes) h0 h
  intro w t hl hn
  refine (hinv.blocked t hl).resolve_left fun ht => ?_
  rw [hn] at ht
  cases ht

/-- Delivered, released while the loop is on its way to its next read, and waited for. -/
def releasedBeforeRead : List (Act Bool) :=
  [.publish 5 true true, .read {}, .send, .tick 3, .releaseMessage (mkID 5 0), .read {}, .tick 2, .block]

theorem released_is_scheduled_beforeRead :
    let w := run (step id 30) (start {}) releasedBeforeRead
    w.loop = .blocked (some 33) ∧ w.notify = false ∧
      (w.q.released = [] ∨ ∃ d, some 33 = some d ∧ ∀ r ∈ w.q.released, d ≤ r.2) :=
  ⟨by decide, by decide,
    released_is_scheduled id 30 {} releasedBeforeRead (by decide) (some 33) (by decide) (by decide)⟩

/-- The loop has read, found nothing and blocked; the release after that is not heard. -/
theorem release_not_heard :
    let w := run (step id 30) (start {})
      [.publish 5 true true, .wake, .read {}, .send, .read {}, .block, .woken, .read {}, .block, .tick 3,
        .releaseMessage (mkID 5 0)]
    w.loop = .blocked none ∧ w.notify = false ∧ w.waking = 0 ∧ w.q.released = [(mkID 5 0, 33)] := by
  decide

end RelayMiner.Transport.EmbeddedQueue.Wakeups
