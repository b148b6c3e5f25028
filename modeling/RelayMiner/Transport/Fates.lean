import RelayMiner.Transport.Dispatch
/-!
# The fate of a charge

A charge taken from the ledger is in a drain, in a write, or among those the
dispatcher is putting back, until it is reported: committed, forgotten, retried
or untaken, once. What the ledger counts as being written is exactly what is out,
so the outcome of one write never hides another write of the same counter.
-/
open RelayMiner.Lib Function

namespace RelayMiner.Transport

open List

variable {K S : Type}

def Stage.charges : Stage K S → List (Charge K S)
  | .waiting charges => charges
  | .settling todo _ => todo.map (·.1)
  | .reported charges _ => charges

def Phase.charges : Phase K S → List (Charge K S)
  | .idle | .ended => []
  | .loop d _ _ _ => d.leftover.all ++ d.charges.all
  | .finishing d _ _ _ left => left ++ (d.leftover.all ++ d.charges.all)
  | .requeueing d _ => d.leftover.all ++ d.charges.all
  | .charging d todo _ => todo.map (·.1) ++ (d.leftover.all ++ d.charges.all)
  | .returning left => left

def World.out (w : World K S) : List (Charge K S) := w.phase.charges ++ w.jobs.flatMap (·.stage.charges)

variable [DecidableEq K]

def World.met (w : World K S) (f : Fate) (k : K) : Nat := owed ((w.fates.filter (·.2 = f)).map (·.1)) k

/-! ## The account -/

/-- Where each charge taken is; and, `ok` being that no sum of amounts has left int64, what the ledger makes of them. -/
structure Account (ok : Prop) (w : World K S) (out : List (Charge K S)) : Prop where
  taken : w.taken.Perm (w.fates.map (·.1) ++ out)
  exact : ok → ∀ k, w.ledger.Exact k
  writing : ok → ∀ k, w.ledger.writing k = owed out k
  balance : ok → ∀ k, w.added k =
    owed w.ledger.pending k + w.ledger.writing k + w.met .commit k + w.met .forget k + w.dropped k + w.exhausted k

variable {ok : Prop} {w : World K S} {out out' : List (Charge K S)}

theorem Account.perm (h : Account ok w out) (hp : out.Perm out') : Account ok w out' :=
  ⟨h.taken.trans (hp.append_left _), h.exact, fun hok k => (h.writing hok k).trans (owed_perm hp k), h.balance⟩

theorem met_append (fates : List (Charge K S × Fate)) (c : Charge K S) (f g : Fate) (k : K) :
    owed (((fates ++ [(c, f)]).filter (·.2 = g)).map (·.1)) k =
      owed ((fates.filter (·.2 = g)).map (·.1)) k + if f = g ∧ c.key = k then c.amount else 0 := by
  rw [filter_append, map_append, owed_append]
  by_cases hf : f = g
  · simp [hf, owed_cons]
  · simp [hf]

attribute [local simp] ChargeLedger.reported ChargeLedger.lost World.out

/-- What a report does to a counter: the amount stops being written, and is back in the queue, met its fate, or is
lost with what was queued. -/
theorem reported_spec {l : ChargeLedger K S} {c : Charge K S} {k : K} (f : Fate) (hl : l.Exact k)
    (hc : c.key = k → c.amount ≤ l.writing k) :
    (l.reported c f).writing k = l.writing k - (if c.key = k then c.amount else 0) ∧
      owed (l.reported c f).pending k + (if f = .commit ∧ c.key = k then c.amount else 0) +
          (if f = .forget ∧ c.key = k then c.amount else 0) + (if c.key = k then l.lost c f else 0) =
        owed l.pending k + if c.key = k then c.amount else 0 := by
  have hfinish := ChargeLedger.writing_finishWrite hl hc
  have hpending : (l.finishWrite c.key c.amount).pending = l.pending := rfl
  cases f with
  | commit => exact ⟨hfinish, by simp [ChargeLedger.commit, hpending]⟩
  | forget => exact ⟨hfinish, by simp [ChargeLedger.forget, hpending]⟩
  | untake =>
    refine ⟨ChargeLedger.writing_untake hl hc, ?_⟩
    simp [ChargeLedger.owed_untake]
  | retry =>
    refine ⟨ChargeLedger.writing_retry hl hc, ?_⟩
    unfold ChargeLedger.reported ChargeLedger.lost ChargeLedger.retry
    dsimp only
    split
    · rw [ChargeLedger.owed_drop, hpending]
      by_cases hk : c.key = k
      · subst hk
        simp [Nat.add_comm]
      · simp [hk]
    · rw [ChargeLedger.owed_requeueLocked, hpending]
      simp

/-- A charge is reported: it leaves what is out, and the books stay balanced whatever its fate. -/
theorem Account.report {c : Charge K S} (h : Account ok w (c :: out)) (f : Fate) : Account ok (report w c f) out := by
  have hspec := fun hok k => reported_spec (c := c) f (h.exact hok k) fun hk => by
    rw [h.writing hok k, owed_cons, if_pos hk]
    exact Nat.le_add_right _ _
  refine ⟨?_, fun hok k => ?_, fun hok k => ?_, fun hok k => ?_⟩
  · show w.taken.Perm ((w.fates ++ [(c, f)]).map (·.1) ++ out)
    rw [map_append, append_assoc]
    exact h.taken
  all_goals
    obtain ⟨hwriting, hpending⟩ := hspec hok k
    have hout := h.writing hok k
    rw [owed_cons] at hout
  · have hexact := h.exact hok k
    unfold ChargeLedger.Exact at hexact ⊢
    simp only [Transport.report]
    omega
  · show (w.ledger.reported c f).writing k = owed out k
    omega
  have hb := h.balance hok k
  have hlost : (Transport.report w c f).exhausted k = w.exhausted k + if c.key = k then w.ledger.lost c f else 0 := by
    by_cases hk : c.key = k
    · subst hk
      simp [Transport.report]
    · simp [Transport.report, hk, update_of_ne (Ne.symm hk)]
  have hcommit : (Transport.report w c f).met .commit k = _ := met_append w.fates c f .commit k
  have hforget : (Transport.report w c f).met .forget k = _ := met_append w.fates c f .forget k
  rw [hlost, hcommit, hforget]
  simp only [Transport.report]
  simp only [World.met] at hb
  omega

theorem Account.add (h : Account ok w out) {key : K} (supplier : S) {amount : Nat} (ttl : Nat)
    (hfits : ok → IsInt64 (w.ledger.total key + amount)) :
    Account ok
      { w with
        ledger := w.ledger.add key supplier amount ttl
        added := update w.added key (w.added key + amount) } out := by
  refine ⟨h.taken, fun hok k => ?_, fun hok k => ?_, fun hok k => ?_⟩
  · refine (h.exact hok k).add supplier ttl ?_
    rintro rfl
    exact (hfits hok).2
  · rw [ChargeLedger.writing_add]
    exact h.writing hok k
  have hb := h.balance hok k
  simp only [World.met, ChargeLedger.writing_add, ChargeLedger.owed_add] at hb ⊢
  by_cases hk : key = k
  · subst hk
    rw [update_self, if_pos rfl]
    omega
  · rw [update_of_ne (Ne.symm hk), if_neg hk]
    omega

theorem Account.drop (h : Account ok w out) (key : K) :
    Account ok
      { w with
        ledger := w.ledger.drop key
        dropped := update w.dropped key (w.dropped key + owed w.ledger.pending key) } out := by
  refine ⟨h.taken, fun hok k => (h.exact hok k).drop key, h.writing, fun hok k => ?_⟩
  have hb := h.balance hok k
  simp only [World.met, ChargeLedger.owed_drop] at hb ⊢
  simp only [ChargeLedger.drop]
  by_cases hk : key = k
  · subst hk
    rw [update_self, if_pos rfl]
    omega
  · rw [update_of_ne (Ne.symm hk), if_neg hk]
    omega

variable [DecidableEq S]

theorem Account.takeCharges (h : Account ok w out) (order : List (Charge K S)) :
    Account ok (takeCharges w order).2 ((takeCharges w order).1 ++ out) := by
  have hperm := owed_perm (w.ledger.takeAll_perm order)
  refine ⟨?_, fun hok k => (h.exact hok k).takeAll order, fun hok k => ?_, fun hok k => ?_⟩
  · refine (h.taken.append_right _).trans ?_
    rw [append_assoc]
    exact perm_append_comm.append_left _
  · simp only [Transport.takeCharges, ChargeLedger.writing_takeAll, owed_append, h.writing hok]
    omega
  have hb := h.balance hok k
  simp only [World.met, Transport.takeCharges, ChargeLedger.writing_takeAll, ChargeLedger.pending_takeAll, owed_nil,
    hperm] at hb ⊢
  omega

/-! ## The steps -/

theorem Account.retake {d : Drain K S} (h : Account ok w (d.held ++ out)) (late : Bool) (order : List (Charge K S)) :
    Account ok (retake w d late order).2 ((retake w d late order).1.held ++ out) := by
  unfold Transport.retake
  split
  · refine (h.takeCharges order).perm (perm_iff_count.2 fun c => ?_)
    have hleft := (d.leftover.add_perm d.charges.rest.1).count_eq c
    have hnew := (d.charges.rest.2.add_perm (Transport.takeCharges w order).1).count_eq c
    simp only [Drain.held, count_append, ChargesBySupplier.all_rest, count_nil,
      show d.charges.rest.1 = d.charges.all from rfl] at hleft hnew ⊢
    omega
  · exact h

/-- The dispatcher is in its loop: only then are writes in flight. -/
def Phase.Looping : Phase K S → Prop
  | .loop _ _ _ _ | .finishing _ _ _ _ _ => True
  | _ => False

structure Booked (ok : Prop) (w : World K S) : Prop where
  account : Account ok w w.out
  alone : ¬ w.phase.Looping → w.jobs = []

omit [DecidableEq S] in
theorem booked_exec (h : Booked ok w) (i : Nat) (xadds incrs : List Reply) : Booked ok (exec w i xadds incrs) := by
  unfold exec
  split
  swap
  · exact h
  rename_i chunk order charges hi
  obtain ⟨pre, post, hjobs, hset, -⟩ := slot_split hi
  have hout : World.out { w with
      jobs := w.jobs.set i ⟨chunk, order, .settling (writeChunk chunk charges xadds incrs).1
        (writeChunk chunk charges xadds incrs).2⟩ } = w.out := by
    unfold World.out
    rw [hset, hjobs]
    simp [Stage.charges, writeChunk_charges]
  refine ⟨?_, fun hl => ?_⟩
  · have hacc := h.account
    rw [← hout] at hacc
    exact { hacc with }
  have hnil := h.alone hl
  rw [hnil] at hi
  cases hi

theorem booked_settle (h : Booked ok w) (i : Nat) : Booked ok (settle w i) := by
  have hbusy : ∀ {job : Job K S}, w.jobs[i]? = some job → w.phase.Looping := by
    intro job hi
    by_contra hl
    rw [h.alone hl] at hi
    cases hi
  unfold settle
  split
  next chunk order p todo out hi =>
    obtain ⟨pre, post, hjobs, hset, -⟩ := slot_split hi
    have hacc : Account ok w (p.1 :: (w.phase.charges ++
        (pre ++ ⟨chunk, order, .settling todo out⟩ :: post).flatMap (·.stage.charges))) := by
      refine h.account.perm (perm_iff_count.2 fun c => ?_)
      simp only [World.out, hjobs, flatMap_append, flatMap_cons, Stage.charges, map_cons,
        count_append, count_cons]
      omega
    have hrep := hacc.report p.2
    rw [← hset] at hrep
    exact ⟨{ hrep with }, fun hl => absurd (hbusy hi) hl⟩
  next chunk order out hi =>
    obtain ⟨pre, post, hjobs, hset, -⟩ := slot_split hi
    have hacc : Account ok w (w.phase.charges ++
        (pre ++ ⟨chunk, order, .reported [] out⟩ :: post).flatMap (·.stage.charges)) := by
      refine h.account.perm (List.Perm.of_eq ?_)
      simp [hjobs, Stage.charges]
    rw [← hset] at hacc
    exact ⟨{ hacc with }, fun hl => absurd (hbusy hi) hl⟩
  · exact h

theorem booked_receive (h : Booked ok w) (i : Nat) : Booked ok (receive w i) := by
  unfold receive
  split
  swap
  · exact h
  rename_i d failed taken chunk order charges out hp hi
  obtain ⟨pre, post, hjobs, -, herase⟩ := slot_split hi
  have hacc : Account ok w ((charges ++ (d.leftover.all ++ d.charges.all)) ++ (pre ++ post).flatMap (·.stage.charges)) := by
    refine h.account.perm (perm_iff_count.2 fun c => ?_)
    simp only [World.out, hp, Phase.charges, hjobs, flatMap_append, flatMap_cons, Stage.charges,
      count_append]
    omega
  rw [← herase] at hacc
  exact ⟨{ hacc with }, fun hl => absurd trivial hl⟩

omit [DecidableEq S] in
theorem booked_finish (h : Booked ok w) : Booked ok (finish w) := by
  unfold finish
  split
  next d failed taken job c left hp =>
    have hacc : Account ok w (c :: ((left ++ (d.leftover.all ++ d.charges.all)) ++ w.jobs.flatMap (·.stage.charges))) := by
      refine h.account.perm (List.Perm.of_eq ?_)
      simp [hp, Phase.charges]
    have hrep := hacc.report .untake
    exact ⟨{ hrep with }, fun hl => absurd trivial hl⟩
  next d failed taken job hp =>
    have hacc : Account ok w ((d.leftover.all ++ d.charges.all) ++ w.jobs.flatMap (·.stage.charges)) := by
      refine h.account.perm (List.Perm.of_eq ?_)
      simp [hp, Phase.charges]
    exact ⟨{ hacc with }, fun hl => absurd trivial hl⟩
  · exact h

omit [DecidableEq S] in
/-- Outside its loop the dispatcher goes on with no write in flight and the charges it held. -/
theorem Booked.move (h : Booked ok w) (hjobs : w.jobs = []) {phase : Phase K S} (hp : w.phase.charges.Perm phase.charges) :
    Booked ok { w with phase } := by
  have hout : w.out.Perm (phase.charges ++ w.jobs.flatMap fun j => j.stage.charges) := hp.append_right _
  have hacc := h.account.perm hout
  exact ⟨{ hacc with }, fun _ => hjobs⟩

omit [DecidableEq S] in
theorem Booked.turn (h : Booked ok w) {phase : Phase K S} (hl : ¬ w.phase.Looping)
    (hp : w.phase.charges = phase.charges) : Booked ok { w with phase } := h.move (h.alone hl) (.of_eq hp)

omit [DecidableEq S] in
theorem Booked.reportNext (h : Booked ok w) (hjobs : w.jobs = []) {phase : Phase K S} {c : Charge K S} (f : Fate)
    (hp : w.phase.charges = c :: phase.charges) : Booked ok { report w c f with phase } := by
  have hacc : Account ok w (c :: (phase.charges ++ w.jobs.flatMap (·.stage.charges))) := by
    refine h.account.perm (List.Perm.of_eq ?_)
    rw [World.out, hp, cons_append]
  have hrep := hacc.report f
  exact ⟨{ hrep with }, fun _ => hjobs⟩

theorem booked_leave (h : Booked ok w) (cancelled : Bool) : Booked ok (leave w cancelled) := by
  unfold leave
  split
  swap
  · exact h
  rename_i d failed taken hp
  split
  swap
  · exact h
  rename_i hjobs
  split
  · split
    · refine h.move hjobs ?_
      rw [hp]
      exact List.Perm.refl _
    · refine h.move hjobs (perm_iff_count.2 fun c => ?_)
      have hadd := (d.charges.add_perm d.leftover.rest.1).count_eq c
      simp only [hp, Phase.charges, map_nil, nil_append, count_append, ChargesBySupplier.all_rest,
        show d.leftover.rest.1 = d.leftover.all from rfl] at hadd ⊢
      omega
  refine h.move hjobs ?_
  rw [hp]
  exact List.Perm.refl _

omit [DecidableEq S] in
theorem booked_requeue (h : Booked ok w) : Booked ok (requeue w) := by
  unfold requeue
  split
  next d job failed hp =>
    have hjobs := h.alone (by rw [hp]; exact id)
    have hacc : Account ok w ((d.leftover.all ++ d.charges.all) ++ w.jobs.flatMap (·.stage.charges)) := by
      refine h.account.perm (List.Perm.of_eq ?_)
      rw [World.out, hp]
      rfl
    exact ⟨{ hacc with }, fun _ => hjobs⟩
  next d hp =>
    exact h.turn (by rw [hp]; exact id) (by rw [hp]; rfl)
  · exact h

theorem booked_charge (h : Booked ok w) (incrs : List Reply) : Booked ok (charge w incrs) := by
  unfold charge
  split
  next d hp =>
    have hjobs := h.alone (by rw [hp]; exact id)
    dsimp only
    split
    · refine h.move hjobs ?_
      rw [hp]
      exact List.Perm.refl _
    refine h.move hjobs (perm_iff_count.2 fun c => ?_)
    have htake := (d.charges.take_perm (maxChunkCommands / 2)).count_eq c
    simp only [hp, Phase.charges, map_nil, nil_append, count_append, writeChunk_charges] at htake ⊢
    omega
  next d p todo err hp =>
    refine h.reportNext (h.alone (by rw [hp]; exact id)) p.2 ?_
    rw [hp]
    rfl
  next d hp =>
    exact h.turn (by rw [hp]; exact id) (by rw [hp]; rfl)
  · exact h

omit [DecidableEq S] in
theorem booked_giveBack (h : Booked ok w) : Booked ok (giveBack w) := by
  unfold giveBack
  split
  next c left hp =>
    refine h.reportNext (h.alone (by rw [hp]; exact id)) .untake ?_
    rw [hp]
    rfl
  next hp =>
    exact h.turn (by rw [hp]; exact id) (by rw [hp]; rfl)
  · exact h

variable [Inhabited S]

/-- The next job carries charges the drain held or has just taken. -/
theorem Account.nextJob {d : Drain K S} (h : Account ok w (d.held ++ out)) {late : Bool} {order : List (Charge K S)}
    {j : NextJob K S} (hj : nextJob w d late order = some j) :
    Account ok j.world (j.charges ++ (j.drain.held ++ out)) := by
  unfold Transport.nextJob at hj
  dsimp only at hj
  split at hj
  · cases hj
    refine h.perm (perm_iff_count.2 fun c => ?_)
    have htake := (d.leftover.take_perm (maxChunkCommands / 2)).count_eq c
    simp only [Drain.held, count_append] at htake ⊢
    omega
  split at hj
  · cases hj
  rename_i chunk queue _
  cases hj
  have hw : Account ok { w with queue, bytes := w.bytes - bytes0 chunk } (d.held ++ out) :=
    { h with }
  have hr := hw.retake late order
  generalize Transport.retake { w with queue, bytes := w.bytes - bytes0 chunk } d late order = r at hr ⊢
  have hp : (r.1.held ++ out).Perm ((r.1.charges.attach chunk (maxChunkCommands - chunk.length)).1 ++
      (({ r.1 with charges := (r.1.charges.attach chunk (maxChunkCommands - chunk.length)).2 } : Drain K S).held ++
        out)) := by
    refine perm_iff_count.2 fun c => ?_
    have hatt := (r.1.charges.attach_perm chunk (maxChunkCommands - chunk.length)).count_eq c
    simp only [Drain.held, count_append] at hatt ⊢
    omega
  have h' := hr.perm hp
  exact { h' with }

omit [DecidableEq K] [DecidableEq S] [Inhabited S] in
theorem charges_startWrite (chunk : List (Queued S)) (charges : List (Charge K S)) (order : Nat) (runs : Bool) :
    (startWrite chunk charges order runs).stage.charges = charges := by
  unfold startWrite
  split <;> rfl

theorem booked_next (h : Booked ok w) (workers : Nat) (cancelled late runs : Bool) (order : List (Charge K S)) :
    Booked ok (next workers w cancelled late runs order) := by
  unfold next
  split
  swap
  · exact h
  rename_i d failed taken hp
  have hout : w.out = d.held ++ w.jobs.flatMap (·.stage.charges) := by simp [hp, Phase.charges, Drain.held]
  have hacc := h.account
  rw [hout] at hacc
  have hstay : Booked ok { w with phase := .loop d failed taken false } :=
    ⟨{ hacc with }, fun hl => absurd trivial hl⟩
  split
  swap
  · exact hstay
  split
  · exact hstay
  next j hj =>
    have hmove : (j.charges ++ (j.drain.held ++ w.jobs.flatMap fun j => j.stage.charges)).Perm
        (j.drain.held ++
          (w.jobs ++ [startWrite j.chunk j.charges taken runs]).flatMap fun j => j.stage.charges) := by
      refine perm_iff_count.2 fun c => ?_
      simp only [flatMap_append, flatMap_singleton, charges_startWrite, count_append]
      omega
    have hj' := (hacc.nextJob hj).perm hmove
    exact ⟨{ hj' with }, fun hl => absurd trivial hl⟩

theorem booked_dispatch (h : Booked ok w) (workers : Nat) (order : List (Charge K S)) :
    Booked ok (step workers w (.dispatch order)) := by
  simp only [step]
  split
  swap
  · exact h
  rename_i hp
  have hgroup : ((takeCharges w order).1 ++ w.out).Perm
      ((({} : ChargesBySupplier K S).all ++ (({} : ChargesBySupplier K S).add (takeCharges w order).1).all) ++
        w.jobs.flatMap fun j => j.stage.charges) := by
    refine perm_iff_count.2 fun c => ?_
    have hadd := (({} : ChargesBySupplier K S).add_perm (takeCharges w order).1).count_eq c
    simp only [World.out, hp, Phase.charges, nil_append, count_append] at hadd ⊢
    simp only [ChargesBySupplier.all, flatMap_nil, count_nil] at hadd ⊢
    omega
  have hacc := (h.account.takeCharges order).perm hgroup
  exact ⟨{ hacc with }, fun hl => absurd trivial hl⟩

/-- An int64 holds what is pending for the counter of an `Add` and the amount together. -/
def Fitting (w : World K S) : Act K S → Prop
  | .add key _ amount _ => IsInt64 (w.ledger.total key + amount)
  | _ => True

theorem booked_step (workers : Nat) (w : World K S) (a : Act K S) (h : Booked ok w) (ha : ok → Fitting w a) :
    Booked ok (step workers w a) := by
  cases a with
  | publish stream supplier bytes =>
    simp only [step]
    split
    · exact h
    · exact ⟨{ h.account with }, h.alone⟩
  | add key supplier amount ttl =>
    have hacc := h.account.add supplier ttl ha
    exact ⟨{ hacc with }, h.alone⟩
  | drop key =>
    have hacc := h.account.drop key
    exact ⟨{ hacc with }, h.alone⟩
  | dispatch order => exact booked_dispatch h workers order
  | next cancelled late runs order => exact booked_next h workers cancelled late runs order
  | exec i xadds incrs => exact booked_exec h i xadds incrs
  | settle i => exact booked_settle h i
  | receive i => exact booked_receive h i
  | finish => exact booked_finish h
  | leave cancelled => exact booked_leave h cancelled
  | requeue => exact booked_requeue h
  | charge incrs => exact booked_charge h incrs
  | giveBack => exact booked_giveBack h
  | close => exact ⟨{ h.account with }, h.alone⟩
  | abandon =>
    simp only [step, abandon]
    split
    swap
    · exact h
    rename_i hp
    split
    · have hjobs := h.alone (by rw [hp]; exact id)
      have hacc : Account ok w ([] ++ w.jobs.flatMap (·.stage.charges)) := by
        refine h.account.perm (List.Perm.of_eq ?_)
        rw [World.out, hp]
        rfl
      exact ⟨{ hacc with }, fun _ => hjobs⟩
    · exact h

/-- In every run each charge taken has met exactly one fate or is still out, and none is out between two dispatches.
Where no `Add` takes what is pending for its counter past int64, the ledger counts as pending what was added and was not
committed, forgotten, dropped while queued or lost to a counter that refused every attempt; and that is what is queued
and what is out, whatever else is in flight. -/
theorem charge_one_fate (workers : Nat) (as : List (Act K S)) :
    let w := run (step workers) ({} : World K S) as
    w.taken.Perm (w.fates.map (·.1) ++ w.out) ∧
    (w.phase = .idle → w.taken.Perm (w.fates.map (·.1))) ∧
    (Meets (step workers) Fitting {} as → ∀ k,
      w.ledger.total k + w.met .commit k + w.met .forget k + w.dropped k + w.exhausted k = w.added k ∧
        w.ledger.total k = owed w.ledger.pending k + owed w.out k) := by
  have h0 : ∀ ok, Booked ok ({} : World K S) := fun _ =>
    ⟨⟨List.Perm.refl _, fun _ _ => show 0 < 2 ^ 63 by decide, fun _ _ => rfl, fun _ _ => rfl⟩, fun _ => rfl⟩
  intro w
  have h : Booked False w := inv_of_run (Booked False) (fun w a h => booked_step workers w a h False.elim) as (h0 _)
  refine ⟨h.account.taken, fun hidle => ?_, fun hm k => ?_⟩
  · have hnil : w.out = [] := by
      rw [World.out, hidle, h.alone (by rw [hidle]; exact id)]
      rfl
    have htaken := h.account.taken
    rwa [hnil, append_nil] at htaken
  have hw : Booked True w := inv_of_meets (Booked True) (fun w a h ha => booked_step workers w a h fun _ => ha) (h0 _) hm
  have hb := hw.account.balance trivial k
  have hout := hw.account.writing trivial k
  rw [ChargeLedger.total_eq _ (hw.account.exact trivial k)]
  omega

instance (w : World K S) (a : Act K S) : Decidable (Fitting w a) := by
  cases a <;> unfold Fitting <;> infer_instance

/-- A pair is charged again while its first charge is out. -/
theorem charge_one_fate_charged_twice :
    let w := run (step 1) ({} : World Unit Unit) [.add () () 5 60, .dispatch [], .add () () 3 60]
    owed w.out () = 5 ∧ w.ledger.total () = owed w.ledger.pending () + owed w.out () :=
  ⟨by decide, ((charge_one_fate 1 _).2.2 (by decide) ()).2⟩

/-- Two relays of one pair are served, at the largest cost each, and what is pending is negative. -/
theorem pending_wraps :
    let w := run (step 1) ({} : World Unit Unit) [.add () () (2 ^ 63 - 1) 60, .add () () (2 ^ 63 - 1) 60]
    w.ledger.total () = -2 ∧
      w.ledger.total () + w.met .commit () + w.met .forget () + w.dropped () + w.exhausted () ≠ w.added () := by
  decide

end RelayMiner.Transport
