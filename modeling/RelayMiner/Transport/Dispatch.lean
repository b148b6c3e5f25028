import Mathlib.Data.List.Flatten
import RelayMiner.Lib.Runs
import RelayMiner.Transport.ChargeLedger
import RelayMiner.Transport.PublishQueue
/-!
# The batching publisher

`dispatchAll` of `BatchingPublisher`: one dispatcher that takes chunks, attaches
charges and puts back what failed, and up to `workers` writes in flight, each a
MULTI/EXEC whose commands are answered one by one. An action is one step of the
dispatcher, of a write, or of a caller (`Publish`, the ledger's `Add` and `Drop`,
`Close`); what Redis answers, whether the context has ended and whether the pool
still runs are in the action.

A write settles its charges one at a time, so `Add` and `Drop` land between any
two of them. Left out: the metrics, the heartbeat, and a worker that panics.
-/
open RelayMiner.Lib Function

namespace RelayMiner.Transport

open List

variable {K S : Type}

/-! ## Charges by supplier -/

structure ChargesBySupplier (K S : Type) where
  order : List S := []
  bySupplier : S → List (Charge K S) := fun _ => []
  nodup : order.Nodup := by exact List.nodup_nil
  covers : ∀ s, s ∉ order → bySupplier s = [] := by exact fun _ _ => rfl

section Take

variable [DecidableEq S] {s : S} {m : S → List (Charge K S)}

def takeFrom : Nat → List S → (S → List (Charge K S)) → List (Charge K S) × (S → List (Charge K S))
  | _, [], m => ([], m)
  | n, s :: ss, m =>
    let r := takeFrom (n - ((m s).take n).length) ss (update m s ((m s).drop n))
    ((m s).take n ++ r.1, r.2)

def attachFrom : Nat → List (Queued S) → (S → List (Charge K S)) → List (Charge K S) × (S → List (Charge K S))
  | _, [], m => ([], m)
  | room, q :: qs, m =>
    let part := (m q.supplier).take (room / 2)
    let r := attachFrom (room - 2 * part.length) qs (update m q.supplier ((m q.supplier).drop (room / 2)))
    (part ++ r.1, r.2)

theorem update_drop_nil {x : S} {n : Nat} (h : m s = []) : update m x ((m x).drop n) s = [] := by
  by_cases hs : s = x
  · subst hs
    simp [h]
  · rw [update_of_ne hs, h]

theorem takeFrom_nil (n : Nat) (ss : List S) (h : m s = []) : (takeFrom n ss m).2 s = [] := by
  induction ss generalizing n m with
  | nil => exact h
  | cons x ss ih => exact ih _ (update_drop_nil h)

theorem attachFrom_nil (room : Nat) (chunk : List (Queued S)) (h : m s = []) :
    (attachFrom room chunk m).2 s = [] := by
  induction chunk generalizing room m with
  | nil => exact h
  | cons q qs ih => exact ih _ (update_drop_nil h)

end Take

namespace ChargesBySupplier

def all (g : ChargesBySupplier K S) : List (Charge K S) := g.order.flatMap g.bySupplier

def rest (g : ChargesBySupplier K S) : List (Charge K S) × ChargesBySupplier K S :=
  (g.all, { order := g.order, bySupplier := fun _ => [], nodup := g.nodup, covers := fun _ _ => rfl })

variable [DecidableEq S] {order : List S} {m : S → List (Charge K S)}

def take (g : ChargesBySupplier K S) (n : Nat) : List (Charge K S) × ChargesBySupplier K S :=
  ((takeFrom n g.order g.bySupplier).1,
    { g with
      bySupplier := (takeFrom n g.order g.bySupplier).2
      covers := fun s hs => takeFrom_nil n g.order (g.covers s hs) })

def attach (g : ChargesBySupplier K S) (chunk : List (Queued S)) (room : Nat) :
    List (Charge K S) × ChargesBySupplier K S :=
  ((attachFrom room chunk g.bySupplier).1,
    { g with
      bySupplier := (attachFrom room chunk g.bySupplier).2
      covers := fun s hs => attachFrom_nil room chunk (g.covers s hs) })

def addOne (g : ChargesBySupplier K S) (c : Charge K S) : ChargesBySupplier K S :=
  if h : c.supplier ∈ g.order then
    { g with
      bySupplier := update g.bySupplier c.supplier (g.bySupplier c.supplier ++ [c])
      covers := fun s hs => by
        have hne : s ≠ c.supplier := fun heq => hs (heq.symm ▸ h)
        rw [update_of_ne hne]
        exact g.covers s hs }
  else
    { order := g.order ++ [c.supplier]
      bySupplier := update g.bySupplier c.supplier (g.bySupplier c.supplier ++ [c])
      nodup := g.nodup.append (List.nodup_singleton _) (by simpa using h)
      covers := fun s hs => by
        rw [List.mem_append, List.mem_singleton, not_or] at hs
        rw [update_of_ne hs.2]
        exact g.covers s hs.1 }

def add (g : ChargesBySupplier K S) (more : List (Charge K S)) : ChargesBySupplier K S := more.foldl addOne g

/-! What is handed out and what is left are what there was. -/

theorem flatMap_update_of_notMem {s : S} (hs : s ∉ order) (m : S → List (Charge K S)) (b : List (Charge K S)) :
    order.flatMap (update m s b) = order.flatMap m := by
  refine flatMap_congr fun x hx => ?_
  have hne : x ≠ s := fun heq => hs (heq ▸ hx)
  exact update_of_ne hne _ _

section
variable (hnodup : order.Nodup)
include hnodup

theorem perm_update {s : S} (hs : s ∈ order) {a b b' : List (Charge K S)}
    (h : (m s).Perm (a ++ b)) (hb : b'.Perm b) :
    (order.flatMap m).Perm (a ++ order.flatMap (update m s b')) := by
  induction order with
  | nil => cases hs
  | cons x order ih =>
    obtain ⟨hx, hnd⟩ := nodup_cons.1 hnodup
    rw [flatMap_cons, flatMap_cons]
    by_cases hxs : x = s
    · subst hxs
      rw [flatMap_update_of_notMem hx, update_self, ← append_assoc]
      exact (h.trans (hb.symm.append_left a)).append_right _
    have hmem : s ∈ order := (mem_cons.1 hs).resolve_left (Ne.symm hxs)
    rw [update_of_ne hxs]
    refine ((ih hnd hmem).append_left (m x)).trans ?_
    rw [← append_assoc, ← append_assoc]
    exact perm_append_comm.append_right _

theorem perm_drop (hcov : ∀ s, s ∉ order → m s = []) (s : S) (n : Nat) :
    (order.flatMap m).Perm ((m s).take n ++ order.flatMap (update m s ((m s).drop n))) := by
  by_cases hs : s ∈ order
  · exact perm_update hnodup hs (by rw [take_append_drop]) (List.Perm.refl _)
  · rw [hcov s hs, flatMap_update_of_notMem hs, take_nil, nil_append]

theorem takeFrom_perm (n : Nat) (ss : List S) (hcov : ∀ s, s ∉ order → m s = []) :
    (order.flatMap m).Perm ((takeFrom n ss m).1 ++ order.flatMap (takeFrom n ss m).2) := by
  induction ss generalizing n m with
  | nil => exact List.Perm.refl _
  | cons s ss ih =>
    simp only [takeFrom]
    rw [append_assoc]
    exact (perm_drop hnodup hcov s n).trans ((ih _ fun x hx => update_drop_nil (hcov x hx)).append_left _)

theorem attachFrom_perm (room : Nat) (chunk : List (Queued S))
    (hcov : ∀ s, s ∉ order → m s = []) :
    (order.flatMap m).Perm ((attachFrom room chunk m).1 ++ order.flatMap (attachFrom room chunk m).2) := by
  induction chunk generalizing room m with
  | nil => exact List.Perm.refl _
  | cons q qs ih =>
    simp only [attachFrom]
    rw [append_assoc]
    exact (perm_drop hnodup hcov q.supplier _).trans ((ih _ fun x hx => update_drop_nil (hcov x hx)).append_left _)
end

variable (g : ChargesBySupplier K S)

theorem take_perm (n : Nat) : g.all.Perm ((g.take n).1 ++ (g.take n).2.all) :=
  takeFrom_perm g.nodup n g.order g.covers

theorem attach_perm (chunk : List (Queued S)) (room : Nat) :
    g.all.Perm ((g.attach chunk room).1 ++ (g.attach chunk room).2.all) :=
  attachFrom_perm g.nodup room chunk g.covers

omit [DecidableEq S] in
@[simp] theorem all_rest : g.rest.2.all = [] := by
  simp [rest, all]

theorem addOne_perm (c : Charge K S) : (g.addOne c).all.Perm (g.all ++ [c]) := by
  -- Put `c` in front of the rest of its supplier's charges, then move it to the end.
  have hfront : ∀ {order : List S}, order.Nodup → c.supplier ∈ order →
      (order.flatMap (update g.bySupplier c.supplier (g.bySupplier c.supplier ++ [c]))).Perm
        ([c] ++ order.flatMap g.bySupplier) := by
    intro order hnd hmem
    have h := perm_update (m := update g.bySupplier c.supplier (g.bySupplier c.supplier ++ [c]))
      (a := [c]) (b := g.bySupplier c.supplier) hnd hmem
      (by rw [update_self]; exact perm_append_comm) (List.Perm.refl _)
    rwa [update_idem, update_eq_self] at h
  unfold addOne
  split
  next h => exact (hfront g.nodup h).trans perm_append_comm
  next h =>
    refine (hfront (g.nodup.append (nodup_singleton _) (by simpa using h)) (by simp)).trans ?_
    rw [flatMap_append, flatMap_singleton, g.covers _ h, append_nil]
    exact perm_append_comm

theorem add_perm (more : List (Charge K S)) : (g.add more).all.Perm (g.all ++ more) := by
  induction more generalizing g with
  | nil => simp [add]
  | cons c more ih =>
    refine (ih (g.addOne c)).trans ?_
    have h := (g.addOne_perm c).append_right more
    rwa [append_assoc] at h

theorem length_attachFrom_le (room : Nat) (chunk : List (Queued S)) (m : S → List (Charge K S)) :
    2 * (attachFrom room chunk m).1.length ≤ room := by
  induction chunk generalizing room m with
  | nil => exact Nat.zero_le _
  | cons q qs ih =>
    have h := ih (room - 2 * ((m q.supplier).take (room / 2)).length)
      (update m q.supplier ((m q.supplier).drop (room / 2)))
    have htake : ((m q.supplier).take (room / 2)).length ≤ room / 2 := length_take_le _ _
    simp only [attachFrom, length_append]
    omega

end ChargesBySupplier

/-! ## One write -/

inductive Reply where
  | ok
  | null
  | outOfMemory
  | transportFailure
  | wrongType
  | refused
  deriving DecidableEq

/-- The commands with their replies; those past the list are answered `ok`. -/
def withReplies {α : Type} : List α → List Reply → List (α × Reply)
  | [], _ => []
  | a :: as, rs => (a, rs.headD .ok) :: withReplies as rs.tail

inductive Fate where
  | commit
  | forget
  | retry
  | untake
  deriving DecidableEq

def fateOf : Reply → Fate
  | .ok => .commit
  | .transportFailure => .forget
  | _ => .retry

inductive WriteErr where
  | outOfMemory
  | failed
  | workerStopped

structure Outcome (S : Type) where
  sent : List (Queued S) := []
  retry : List (Queued S) := []
  discard : List (Queued S) := []
  err : Option WriteErr := none

def landed : Reply → Bool
  | .ok | .null => true
  | _ => false

def giveUp (q : Queued S) (r : Reply) : Option DiscardReason :=
  if r = .wrongType then some .wrongType
  else if maxPublishAttempts ≤ q.attempts + 1 then some .attemptsExhausted
  else none

def outcomeOf : List (Queued S × Reply) → Outcome S
  | [] => {}
  | (q, r) :: rest =>
    let out := outcomeOf rest
    if landed r then { out with sent := q :: out.sent }
    else
      match giveUp q r with
      | some reason =>
        { out with
          discard := { q with attempts := q.attempts + 1, discardReason := some reason } :: out.discard
          err := some .failed }
      | none => { out with retry := { q with attempts := q.attempts + 1 } :: out.retry, err := some .failed }

/-- `writeChunk`: the fate of each charge, in the order they are reported, and the outcome. -/
def writeChunk (chunk : List (Queued S)) (charges : List (Charge K S)) (xadds incrs : List Reply) :
    List (Charge K S × Fate) × Outcome S :=
  let cmds := withReplies chunk xadds
  let written := withReplies charges incrs
  if .outOfMemory ∈ cmds.map (·.2) ∨ .outOfMemory ∈ written.map (·.2) then
    (charges.map (·, .untake), { retry := chunk, err := some .outOfMemory })
  else
    let out := outcomeOf cmds
    (written.map fun p => (p.1, fateOf p.2),
      { out with err := if .transportFailure ∈ written.map (·.2) then some .failed else out.err })

/-! ## The dispatcher -/

inductive Stage (K S : Type) where
  | waiting (charges : List (Charge K S))
  /-- The EXEC is answered; these charges are still to be reported. -/
  | settling (todo : List (Charge K S × Fate)) (out : Outcome S)
  /-- Back on the channel. A job the pool never ran still has its charges. -/
  | reported (charges : List (Charge K S)) (out : Outcome S)

structure Job (K S : Type) where
  chunk : List (Queued S)
  order : Nat
  stage : Stage K S

def Stage.out : Stage K S → Outcome S
  | .waiting _ => {}
  | .settling _ out => out
  | .reported _ out => out

structure Drain (K S : Type) where
  cutoff : Nat
  charges : ChargesBySupplier K S := {}
  leftover : ChargesBySupplier K S := {}

inductive Phase (K S : Type) where
  | idle
  /-- The loop of `dispatchAll`; `more` while it fills the slots, then it waits for a report. -/
  | loop (d : Drain K S) (failed : List (Job K S)) (taken : Nat) (more : Bool)
  /-- `finishWrite` of `job`: the charges of a job that never ran go back. -/
  | finishing (d : Drain K S) (failed : List (Job K S)) (taken : Nat) (job : Job K S) (left : List (Charge K S))
  | requeueing (d : Drain K S) (failed : List (Job K S))
  | charging (d : Drain K S) (todo : List (Charge K S × Fate)) (err : Bool)
  | returning (left : List (Charge K S))
  | ended

structure Taking (K S : Type) where
  live : List (Queued S)
  chunk : List (Queued S)
  charges : List (Charge K S)

structure World (K S : Type) where
  queue : Slice S := {}
  bytes : Int := 0
  enqueued : Nat := 0
  closed : Bool := false
  ledger : ChargeLedger K S := {}
  phase : Phase K S := .idle
  jobs : List (Job K S) := []
  /-- What happened to the relays: answered without an error, given up, left over at `Close`; and the chunks taken. -/
  written : List (Queued S) := []
  discarded : List (Queued S) := []
  abandoned : List (Queued S) := []
  takings : List (Taking K S) := []
  /-- What happened to the charges: per counter what was added, dropped, and lost to a counter that refused every
  attempt; what was taken, and the fate of each. -/
  added : K → Nat := fun _ => 0
  dropped : K → Nat := fun _ => 0
  exhausted : K → Nat := fun _ => 0
  taken : List (Charge K S) := []
  fates : List (Charge K S × Fate) := []

variable [DecidableEq K]

def ChargeLedger.reported (l : ChargeLedger K S) (c : Charge K S) : Fate → ChargeLedger K S
  | .commit => l.commit c
  | .forget => l.forget c
  | .untake => l.untake c
  | .retry => (l.retry c).1

def ChargeLedger.lost (l : ChargeLedger K S) (c : Charge K S) : Fate → Nat
  | .retry => if (l.retry c).2 then 0 else c.amount + owed l.pending c.key
  | _ => 0

def report (w : World K S) (c : Charge K S) (f : Fate) : World K S :=
  { w with
    ledger := w.ledger.reported c f
    exhausted := update w.exhausted c.key (w.exhausted c.key + w.ledger.lost c f)
    fates := w.fates ++ [(c, f)] }

variable [DecidableEq S]

def takeCharges (w : World K S) (order : List (Charge K S)) : List (Charge K S) × World K S :=
  let r := w.ledger.takeAll order
  (r.1, { w with ledger := r.2, taken := w.taken ++ r.1 })

def Drain.held (d : Drain K S) : List (Charge K S) := d.leftover.all ++ d.charges.all

def retake (w : World K S) (d : Drain K S) (late : Bool) (order : List (Charge K S)) : Drain K S × World K S :=
  if late then
    let r := takeCharges w order
    ({ d with leftover := d.leftover.add d.charges.rest.1, charges := d.charges.rest.2.add r.1 }, r.2)
  else (d, w)

variable [Inhabited S]

structure NextJob (K S : Type) where
  chunk : List (Queued S)
  charges : List (Charge K S)
  drain : Drain K S
  world : World K S

def nextJob (w : World K S) (d : Drain K S) (late : Bool) (order : List (Charge K S)) : Option (NextJob K S) :=
  let part := d.leftover.take (maxChunkCommands / 2)
  if part.1 ≠ [] then some ⟨[], part.1, { d with leftover := part.2 }, w⟩
  else
    match w.queue.takeChunkBefore d.cutoff with
    | none => none
    | some (chunk, queue) =>
      let r := retake { w with queue, bytes := w.bytes - bytes0 chunk } d late order
      let a := r.1.charges.attach chunk (maxChunkCommands - chunk.length)
      some ⟨chunk, a.1, { r.1 with charges := a.2 },
        { r.2 with takings := r.2.takings ++ [⟨w.queue.live, chunk, a.1⟩] }⟩

def startWrite (chunk : List (Queued S)) (charges : List (Charge K S)) (order : Nat) (runs : Bool) : Job K S :=
  if runs then ⟨chunk, order, .waiting charges⟩
  else ⟨chunk, order, .reported charges { retry := chunk, err := some .workerStopped }⟩

def next (workers : Nat) (w : World K S) (cancelled late runs : Bool) (order : List (Charge K S)) : World K S :=
  match w.phase with
  | .loop d failed taken true =>
    if failed = [] ∧ w.jobs.length < workers ∧ cancelled = false then
      match nextJob w d late order with
      | none => { w with phase := .loop d failed taken false }
      | some j =>
        { j.world with
          jobs := w.jobs ++ [startWrite j.chunk j.charges taken runs]
          phase := .loop j.drain failed (taken + 1) true }
    else { w with phase := .loop d failed taken false }
  | _ => w

def exec (w : World K S) (i : Nat) (xadds incrs : List Reply) : World K S :=
  match w.jobs[i]? with
  | some ⟨chunk, order, .waiting charges⟩ =>
    let r := writeChunk chunk charges xadds incrs
    { w with jobs := w.jobs.set i ⟨chunk, order, .settling r.1 r.2⟩ }
  | _ => w

def settle (w : World K S) (i : Nat) : World K S :=
  match w.jobs[i]? with
  | some ⟨chunk, order, .settling (p :: todo) out⟩ =>
    { report w p.1 p.2 with jobs := w.jobs.set i ⟨chunk, order, .settling todo out⟩ }
  | some ⟨chunk, order, .settling [] out⟩ =>
    { w with jobs := w.jobs.set i ⟨chunk, order, .reported [] out⟩, written := w.written ++ out.sent }
  | _ => w

def receive (w : World K S) (i : Nat) : World K S :=
  match w.phase, w.jobs[i]? with
  | .loop d failed taken false, some ⟨chunk, order, .reported charges out⟩ =>
    { w with
      jobs := w.jobs.eraseIdx i
      discarded := w.discarded ++ out.discard
      phase := .finishing d failed taken ⟨chunk, order, .reported [] out⟩ charges }
  | _, _ => w

def finish (w : World K S) : World K S :=
  match w.phase with
  | .finishing d failed taken job (c :: left) =>
    { report w c .untake with phase := .finishing d failed taken job left }
  | .finishing d failed taken job [] =>
    { w with phase := .loop d (if job.stage.out.err.isSome then failed ++ [job] else failed) taken true }
  | _ => w

def leave (w : World K S) (cancelled : Bool) : World K S :=
  match w.phase with
  | .loop d failed _ false =>
    if w.jobs = [] then
      if failed = [] then
        if cancelled then { w with phase := .returning d.held }
        else
          { w with
            phase := .charging { d with charges := d.charges.add d.leftover.rest.1, leftover := d.leftover.rest.2 } []
              false }
      else { w with phase := .requeueing d (failed.insertionSort fun a b => b.order ≤ a.order) }
    else w
  | _ => w

def requeue (w : World K S) : World K S :=
  match w.phase with
  | .requeueing d (job :: failed) =>
    { w with
      queue := w.queue.requeueFront job.stage.out.retry
      bytes := w.bytes + bytes0 job.stage.out.retry
      phase := .requeueing d failed }
  | .requeueing d [] => { w with phase := .returning d.held }
  | _ => w

def charge (w : World K S) (incrs : List Reply) : World K S :=
  match w.phase with
  | .charging d [] false =>
    let part := d.charges.take (maxChunkCommands / 2)
    let r := writeChunk ([] : List (Queued S)) part.1 [] incrs
    if part.1 = [] then { w with phase := .returning d.held }
    else { w with phase := .charging { d with charges := part.2 } r.1 r.2.err.isSome }
  | .charging d (p :: todo) err => { report w p.1 p.2 with phase := .charging d todo err }
  | .charging d [] true => { w with phase := .returning d.held }
  | _ => w

def giveBack (w : World K S) : World K S :=
  match w.phase with
  | .returning (c :: left) => { report w c .untake with phase := .returning left }
  | .returning [] => { w with phase := .idle }
  | _ => w

def abandon (w : World K S) : World K S :=
  match w.phase with
  | .idle =>
    if w.closed then
      { w with queue := .empty, bytes := 0, abandoned := w.abandoned ++ w.queue.live, phase := .ended }
    else w
  | _ => w

inductive Act (K S : Type) where
  | publish (stream supplier : S) (bytes : Nat)
  | add (key : K) (supplier : S) (amount ttl : Nat)
  | drop (key : K)
  | dispatch (order : List (Charge K S))
  | next (cancelled late runs : Bool) (order : List (Charge K S))
  | exec (i : Nat) (xadds incrs : List Reply)
  | settle (i : Nat)
  | receive (i : Nat)
  | finish
  | leave (cancelled : Bool)
  | requeue
  | charge (incrs : List Reply)
  | giveBack
  | close
  | abandon

/-- A caller's publish or charge, a move of the dispatcher or of a worker, or the close. -/
def step (workers : Nat) (w : World K S) : Act K S → World K S
  | .publish stream supplier bytes =>
    if w.closed then w
    else
      { w with
        queue := w.queue.enqueue { stream, supplier, bytes, seq := w.enqueued + 1 }
        bytes := w.bytes + bytes
        enqueued := w.enqueued + 1 }
  | .add key supplier amount ttl =>
    { w with
      ledger := w.ledger.add key supplier amount ttl
      added := update w.added key (w.added key + amount) }
  | .drop key =>
    { w with
      ledger := w.ledger.drop key
      dropped := update w.dropped key (w.dropped key + owed w.ledger.pending key) }
  | .dispatch order =>
    match w.phase with
    | .idle =>
      let r := takeCharges w order
      { r.2 with phase := .loop { cutoff := w.enqueued, charges := ({} : ChargesBySupplier K S).add r.1 } [] 0 true }
    | _ => w
  | .next cancelled late runs order => next workers w cancelled late runs order
  | .exec i xadds incrs => exec w i xadds incrs
  | .settle i => settle w i
  | .receive i => receive w i
  | .finish => finish w
  | .leave cancelled => leave w cancelled
  | .requeue => requeue w
  | .charge incrs => charge w incrs
  | .giveBack => giveBack w
  | .close => { w with closed := true }
  | .abandon => abandon w

/-! ## What a write reports -/

theorem map_fst_withReplies {α : Type} (as : List α) (rs : List Reply) : (withReplies as rs).map (·.1) = as := by
  induction as generalizing rs with
  | nil => rfl
  | cons a as ih => simp [withReplies, ih]

omit [DecidableEq K] [DecidableEq S] [Inhabited S] in
theorem writeChunk_charges (chunk : List (Queued S)) (charges : List (Charge K S)) (xadds incrs : List Reply) :
    (writeChunk chunk charges xadds incrs).1.map (·.1) = charges := by
  unfold writeChunk
  dsimp only
  split
  · simp [comp_def]
  · rw [map_map]
    exact map_fst_withReplies charges incrs

end RelayMiner.Transport
