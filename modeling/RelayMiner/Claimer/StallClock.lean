import RelayMiner.Claimer.Leases
import RelayMiner.Lib.Log
/-!
# The stall clock

A renewal pass that the store fails asks `lastRenewedAt` how long the renewal has
been stalled. The clock it is meant to read is in the log (`stallClock`): it starts
with the last renewal of the holding or, where there was none yet, with the first
pass that failed. `markRenewed`, the failed passes and `releaseLost` write the
record; a claim and an adoption do not, so one that an earlier holding left makes
the clock run ahead until the holding is renewed.
-/

namespace RelayMiner.Claimer.StallClock

open List

open Lib Function

section

variable {ι : Type}

def Event.who : Event ι → ι
  | .extended who _ | .confirmed who _ | .held who _ | .renewed who _ | .failedPass who _ _ | .forgotten who
  | .started who _ | .finished who _ _ => who

/-- What an event makes of the clock, and of whether the record is this holding's own. -/
def Event.wind (r : Option Nat × Bool) : Event ι → Option Nat × Bool
  | .held _ record => (none, record.isNone)
  | .forgotten _ => (none, true)
  | .renewed _ t => (some t, true)
  | .failedPass _ t _ => (some (r.1.getD t), r.2)
  | _ => r

def reading [DecidableEq ι] (me : ι) (log : List (Event ι)) : Option Nat × Bool :=
  (log.filter fun e => Event.who e = me).foldl Event.wind (none, true)

def stallClock [DecidableEq ι] (me : ι) (log : List (Event ι)) : Option Nat := (reading me log).1

/-- The holding began with no record of an earlier one, or a renewal has been recorded in it. -/
def Own [DecidableEq ι] (me : ι) (log : List (Event ι)) : Prop := (reading me log).2 = true

def Run (claimTTL : Nat) (clock : Option Nat) (t : Nat) : Prop := ∃ s ∈ clock, s + claimTTL ≤ t

def pass? : Op ι → Option Nat
  | .owner pass | .expire pass => pass
  | .isClaimed (.beforeExpire t) | .markRenewed t _ | .renewStalled t => some t
  | _ => none

/-- The renewal loop is one goroutine: a pass of an instance begins when none is under way. -/
def OnePass (c : Fleet ι) : Act ι → Prop
  | .next i _ => ∀ me, (c.calls i).next? = some (me, .clock) →
    ∀ j o, (c.calls j).next? = some (me, o) → pass? o = none
  | _ => True

def GivesUp [DecidableEq ι] (claimTTL : Nat) (me : ι) (p : Thread ι) : Prop :=
  ∀ (c c' : Fleet ι) i fault fault', c.calls i = p → (c.store.inst me).draining = none →
    c'.calls i = (step claimTTL c (.next i fault)).calls i →
    ((step claimTTL c' (.next i fault')).store.inst me).claimed = none

end

section

variable {ι : Type} [DecidableEq ι] {claimTTL : Nat} {w : World ι} {me : ι} {o : Op ι}

/-! ## The clock and the record -/

def wound (i : Instance) (r : Option Nat × Bool) : Op ι → Option Nat × Bool
  | .insertClaimed _ => (none, i.lastRenewedAt.isNone)
  | .adopt _ => if i.claimed.isSome then r else (none, i.lastRenewedAt.isNone)
  | .deleteRenewed => (none, true)
  | .markRenewed t _ => (some t, true)
  | .renewStalled t => (some (r.1.getD t), r.2)
  | _ => r

attribute [local simp] Op.noted

theorem foldl_noted (r : Option Nat × Bool) :
    (o.noted claimTTL w me).foldl Event.wind r = wound (w.inst me) r o := by
  cases o with
  | expire pass =>
    cases h : w.key with
    | none => simp [h, wound]
    | some l => simp [h, wound, Event.wind]
  | extendIfOwner =>
    cases h : w.key.filter (·.owner = me) with
    | none => simp [h, wound]
    | some l => simp [h, wound, Event.wind]
  | unmarkDraining cause => cases cause <;> rfl
  | adopt l =>
    simp only [Op.noted, wound]
    split <;> rfl
  | _ => rfl

theorem who_of_noted {e : Event ι} (he : e ∈ o.noted claimTTL w me) : Event.who e = me := by
  have hc := caused_of_noted he
  cases e with
  | extended | confirmed | started | finished | failedPass => exact hc.1
  | _ => exact hc

theorem reading_noted (me' : ι) (log : List (Event ι)) :
    reading me' (log ++ o.noted claimTTL w me) =
      if me' = me then wound (w.inst me) (reading me log) o else reading me' log := by
  split
  · next h =>
    subst h
    have hall : (o.noted claimTTL w me').filter (fun e => Event.who e = me') = o.noted claimTTL w me' :=
      filter_eq_self.2 fun e he => by simp [who_of_noted he]
    rw [reading, filter_append, hall, foldl_append, foldl_noted]
    rfl
  next h =>
  have hnone : (o.noted claimTTL w me).filter (fun e => Event.who e = me') = [] :=
    filter_eq_nil_iff.2 fun e he => by simpa [who_of_noted he] using Ne.symm h
  rw [reading, filter_append, hnone, append_nil]
  rfl

def Behind (record clock : Option Nat) : Prop := ∀ s ∈ clock, ∃ r ∈ record, r ≤ s

theorem Behind.run {record clock : Option Nat} (h : Behind record clock) {t : Nat} (hrun : Run claimTTL clock t) :
    Run claimTTL record t := by
  obtain ⟨s, hs, hle⟩ := hrun
  obtain ⟨r, hr, hrs⟩ := h s hs
  exact ⟨r, hr, by omega⟩

theorem run_iff_any (record : Option Nat) (t : Nat) :
    Run claimTTL record t ↔ record.any (· + claimTTL ≤ t) = true := by
  cases record <;> simp [Run]

variable {i : Instance} {r : Option Nat × Bool}

omit [DecidableEq ι] in
theorem behind_after (h : Behind i.lastRenewedAt r.1) (now : Nat)
    (hpass : ∀ t ∈ pass? o, ∀ s ∈ i.lastRenewedAt, s ≤ t) :
    Behind (o.after now i).lastRenewedAt (wound i r o).1 := by
  cases o with
  | insertClaimed l | deleteRenewed => exact nofun
  | adopt l =>
    simp only [wound]
    split
    · exact h
    · exact nofun
  | markRenewed t l =>
    rintro s ⟨⟩
    exact ⟨t, rfl, Nat.le_refl _⟩
  | renewStalled t =>
    rintro s ⟨⟩
    refine ⟨_, rfl, ?_⟩
    obtain ⟨clock, own⟩ := r
    cases hr : i.lastRenewedAt with
    | none =>
      cases clock with
      | none => exact Nat.le_refl _
      | some d =>
        obtain ⟨r, hr', -⟩ := h d rfl
        rw [hr] at hr'
        cases hr'
    | some r =>
      cases clock with
      | none => exact hpass t rfl r hr
      | some d =>
        obtain ⟨r', hr', hle⟩ := h d rfl
        rw [hr] at hr'
        cases hr'
        exact hle
  | _ => exact h

omit [DecidableEq ι] in
/-- A record that is the holding's own reads what the clock does. -/
theorem own_after (h : r.2 = true → i.lastRenewedAt = r.1) (now : Nat) (hown : (wound i r o).2 = true) :
    (o.after now i).lastRenewedAt = (wound i r o).1 := by
  cases o with
  | insertClaimed l => exact Option.isNone_iff_eq_none.1 hown
  | adopt l =>
    simp only [wound] at hown ⊢
    split at hown
    next hc =>
      rw [if_pos hc]
      exact h hown
    next hc =>
      rw [if_neg hc]
      exact Option.isNone_iff_eq_none.1 hown
  | markRenewed t l | deleteRenewed => rfl
  | renewStalled t =>
    simp only [wound, Op.after] at hown ⊢
    rw [h hown]
  | _ => exact h hown

def Judged (S : List (Event ι) → ι → Nat → Bool → Prop) (log : List (Event ι)) : Prop :=
  Each (fun past e => ∀ who t reported, e = .failedPass who t reported → S past who t reported) log

variable {S : List (Event ι) → ι → Nat → Bool → Prop}

theorem judged_noted (h : Judged S w.log)
    (hS : ∀ t, o = .renewStalled t → S w.log me t ((w.inst me).lastRenewedAt.any (· + claimTTL ≤ t))) :
    Judged S (w.log ++ o.noted claimTTL w me) := by
  refine (each_append _ _).2 ⟨h, ?_⟩
  rintro past e rest hlog who t reported rfl
  have hmem : .failedPass who t reported ∈ o.noted claimTTL w me := by
    rw [hlog]
    exact mem_append_right past mem_cons_self
  obtain ⟨rfl, rfl, rfl⟩ := caused_of_noted hmem
  obtain rfl : past = [] := by
    cases past with
    | nil => rfl
    | cons e' past => simp at hlog
  rw [append_nil]
  exact hS t rfl

/-! ## The step -/

structure Inv (claimTTL : Nat) (c : Fleet ι) : Prop where
  kept : c.Kept Flow fun w q => ∀ t ∈ pass? q.2, t ≤ w.now ∧ ∀ s ∈ (w.inst q.1).lastRenewedAt, s ≤ t
  alone : ∀ me, c.Alone fun q => q.1 = me ∧ pass? q.2 ≠ none
  past : ∀ me, ∀ s ∈ (c.store.inst me).lastRenewedAt, s ≤ c.store.now
  behind : ∀ me, Behind (c.store.inst me).lastRenewedAt (stallClock me c.store.log)
  own : ∀ me, Own me c.store.log → (c.store.inst me).lastRenewedAt = stallClock me c.store.log
  log : Judged (fun past who t reported => (Run claimTTL (stallClock who past) t → reported = true) ∧
    (Own who past → reported = true → Run claimTTL (stallClock who past) t)) c.store.log

theorem inv_idle : Inv claimTTL (idle : Fleet ι) where
  kept := .idle _
  alone := fun _ => .idle _ _
  past := nofun
  behind := nofun
  own := fun _ _ => rfl
  log := each_nil

omit [DecidableEq ι] in
/-- A call comes into a pass by its look at the clock. -/
theorem pass_of_leads {o' : Op ι} {r : Reply ι} (h : Leads me o r o') {t : Nat} (ht : pass? o' = some t) :
    o = .clock ∧ r = .time t ∨ pass? o = some t := by
  cases o' with
  | owner pass =>
    cases pass with
    | none => cases ht
    | some now =>
      cases ht
      exact .inl h
  | isClaimed look =>
    cases look with
    | beforeExpire now =>
      cases ht
      obtain ⟨rfl, -⟩ := h
      exact .inr rfl
    | _ => cases ht
  | expire pass =>
    cases pass with
    | none => cases ht
    | some now =>
      cases ht
      obtain rfl : o = .isClaimed (.beforeExpire t) := h
      exact .inr rfl
  | markRenewed now l =>
    cases ht
    obtain ⟨rfl, -⟩ := h
    exact .inr rfl
  | renewStalled now =>
    cases ht
    obtain rfl | rfl : o = .owner (some t) ∨ o = .expire (some t) := h
    · exact .inr rfl
    · exact .inr rfl
  | _ => cases ht

omit [DecidableEq ι] in
/-- A record is an old one, or the time of the pass that writes it. -/
theorem record_after {now s : Nat} {i : Instance} (h : s ∈ (o.after now i).lastRenewedAt) :
    s ∈ i.lastRenewedAt ∨ pass? o = some s := by
  cases o with
  | markRenewed t l =>
    cases h
    exact .inr rfl
  | renewStalled t =>
    cases hr : i.lastRenewedAt with
    | none =>
      obtain rfl : t = s := by simpa [Op.after, hr] using h
      exact .inr rfl
    | some r =>
      obtain rfl : r = s := by simpa [Op.after, hr] using h
      exact .inl rfl
  | deleteRenewed => cases h
  | _ => exact .inl h

variable {fault : Fault}

theorem record_exec {s : Nat} (h : s ∈ ((exec claimTTL w (me, o) fault).1.inst me).lastRenewedAt) :
    s ∈ (w.inst me).lastRenewedAt ∨ pass? o = some s := by
  rcases inst_exec claimTTL w me o fault with he | ⟨he, -⟩
  · rw [he] at h
    exact record_after h
  · rw [he] at h
    exact .inl h

theorem now_exec : (exec claimTTL w (me, o) fault).1.now = w.now := by
  rcases world_exec claimTTL w (me, o) fault with he | ⟨he, -⟩
  · rw [he, (apply_does _ _ _ _).now]
  · rw [he]

variable {c : Fleet ι} {i : Nat} {k : Reply ι → Thread ι}

theorem clock_exec (h : Inv claimTTL c) (hi : (c.calls i).next? = some (me, o)) (him : ι) :
    let w := (exec claimTTL c.store (me, o) fault).1
    Behind (w.inst him).lastRenewedAt (stallClock him w.log) ∧
      (Own him w.log → (w.inst him).lastRenewedAt = stallClock him w.log) := by
  dsimp only
  rcases world_exec claimTTL c.store (me, o) fault with he | ⟨he, -⟩
  · rw [he, (apply_does _ _ _ _).log, (apply_does _ _ _ _).inst, Own, stallClock, reading_noted]
    split
    · next hme =>
      subst hme
      rw [update_self]
      exact ⟨behind_after (h.behind him) _ fun t ht => (h.kept.fits i _ hi t ht).2, own_after (h.own him) _⟩
    next hme =>
    rw [update_of_ne hme]
    exact ⟨h.behind him, h.own him⟩
  · rw [he]
    exact ⟨h.behind him, h.own him⟩

theorem judged_exec (h : Judged S w.log)
    (hS : ∀ t, o = .renewStalled t → S w.log me t ((w.inst me).lastRenewedAt.any (· + claimTTL ≤ t))) :
    Judged S (exec claimTTL w (me, o) fault).1.log := by
  rcases world_exec claimTTL w (me, o) fault with he | ⟨he, -⟩
  · rw [he, (apply_does _ _ _ _).log]
    exact judged_noted h hS
  · rw [he]
    exact h

theorem inv_next (h : Inv claimTTL c) (hi : c.calls i = .op (me, o) k) (hone : OnePass c (.next i fault)) :
    Inv claimTTL ⟨(exec claimTTL c.store (me, o) fault).1,
      update c.calls i (k (exec claimTTL c.store (me, o) fault).2)⟩ := by
  have hnext : (c.calls i).next? = some (me, o) := by
    rw [hi]
    rfl
  have hfit := h.kept.fits i _ hnext
  have hflow : (Prog.op (me, o) k).Follows Flow := hi ▸ h.kept.follows i
  refine ⟨h.kept.next hi (fun j hj q hq t ht => ?_) (fun q hq t ht => ?_), fun him => ?_, fun him s hs => ?_,
    fun him => (clock_exec h hnext him).1, fun him => (clock_exec h hnext him).2,
    judged_exec h.log fun t ht => ⟨fun hrun => ?_, fun hown hrep => ?_⟩⟩
  · -- The other calls: none of them is in a pass of the same instance as this one.
    obtain ⟨hnow, hle⟩ := h.kept.fits j q hq t ht
    rw [now_exec]
    refine ⟨hnow, fun s hs => ?_⟩
    by_cases hme : q.1 = me
    · rw [hme] at hs
      rcases record_exec hs with hold | hpass
      · exact hle s (hme ▸ hold)
      refine absurd (h.alone me j i q _ hq hnext ⟨hme, ?_⟩ ⟨rfl, ?_⟩) hj
      · rw [ht]
        nofun
      · rw [hpass]
        nofun
    · rw [inst_exec_of_ne claimTTL c.store hme] at hs
      exact hle s hs
  · obtain ⟨him, o'⟩ := q
    obtain ⟨rfl, hlead⟩ := hq.1 _ rfl
    rw [now_exec]
    rcases pass_of_leads hlead ht with ⟨rfl, hr⟩ | hpass
    · rw [exec_locked rfl] at hr ⊢
      cases hr
      exact ⟨Nat.le_refl _, h.past him⟩
    obtain ⟨hnow, hle⟩ := hfit t hpass
    refine ⟨hnow, fun s hs => ?_⟩
    rcases record_exec hs with hold | hnew
    · exact hle s hold
    rw [hpass] at hnew
    cases hnew
    exact Nat.le_refl _
  · refine (h.alone him).update i _ ?_
    rintro ⟨me', o'⟩ hq ⟨hhim, hp⟩ j hj ⟨me'', o''⟩ hq' ⟨hhim', hp'⟩
    obtain ⟨hme, hlead⟩ := (hflow _).2.1 _ hq
    obtain ⟨t, ht⟩ := Option.ne_none_iff_exists'.1 hp
    subst hhim' hhim hme
    rcases pass_of_leads hlead ht with ⟨rfl, -⟩ | hpass
    · exact hp' (hone _ hnext j o'' hq')
    · exact hj (h.alone _ j i _ _ hq' hnext ⟨rfl, hp'⟩ ⟨rfl, by rw [hpass]; nofun⟩)
  · rw [now_exec]
    by_cases hme : him = me
    · subst hme
      rcases record_exec hs with hold | hnew
      · exact h.past him s hold
      · exact (hfit s hnew).1
    · rw [inst_exec_of_ne claimTTL c.store hme] at hs
      exact h.past him s hs
  · exact (run_iff_any _ t).1 ((h.behind me).run hrun)
  · rw [← h.own me hown]
    exact (run_iff_any _ t).2 hrep

omit [DecidableEq ι] in
theorem pass_of_loose {p : Thread ι} (hp : Loose me p) {q : ι × Op ι} (hq : q ∈ p.next?) : pass? q.2 = none := by
  by_contra hne
  obtain ⟨t, ht⟩ := Option.ne_none_iff_exists'.1 hne
  rcases pass_of_leads (hp.leads hq) ht with ⟨-, h⟩ | h
  · cases h
  · cases h

theorem inv_start (h : Inv claimTTL c) (call : Call ι) :
    Inv claimTTL { c with calls := update c.calls i call.body } := by
  have hloose := loose_body call
  refine ⟨h.kept.start i hloose.follows fun q hq t ht => ?_, fun him => (h.alone him).update i _ fun q hq hp => ?_,
    h.past, h.behind, h.own, h.log⟩
  · rw [pass_of_loose hloose hq] at ht
    cases ht
  · exact absurd (pass_of_loose hloose hq) hp.2

theorem inv_happen (h : Inv claimTTL c) (e : Env) : Inv claimTTL { c with store := happen c.store e } := by
  cases e with
  | keyExpires => exact { h with kept := h.kept.store fun _ hq => hq }
  | tick d =>
    refine ⟨h.kept.store fun q hq t ht => ?_, h.alone, fun him s hs => ?_, h.behind, h.own, h.log⟩
    · obtain ⟨hnow, hle⟩ := hq t ht
      exact ⟨Nat.le_add_right_of_le hnow, hle⟩
    · exact Nat.le_add_right_of_le (h.past him s hs)

theorem inv_step (h : Inv claimTTL c) (a : Act ι) (hone : OnePass c a) : Inv claimTTL (step claimTTL c a) := by
  rcases step_cases claimTTL c a with he | ⟨i, call, -, he⟩ | ⟨i, fault, me, o, k, rfl, hi, he⟩ | ⟨e, he⟩
  · rw [he]
    exact h
  · rw [he]
    exact inv_start h call
  · rw [he]
    exact inv_next h hi hone
  · rw [he]
    exact inv_happen h e

/-! ## What a report leads to -/

theorem step_next (hi : c.calls i = .op (me, o) k) :
    (step claimTTL c (.next i fault)).calls i = k (exec claimTTL c.store (me, o) fault).2 ∧
      (step claimTTL c (.next i fault)).store = (exec claimTTL c.store (me, o) fault).1 := by
  simp [step, Act.move, stepCalls, hi]

theorem givesUp_of_markDraining {p : Thread ι} (hp : p.Follows Flow) {trigger : Trigger}
    (hnext : p.next? = some (me, .markDraining trigger)) : GivesUp claimTTL me p := by
  intro c c' i fault fault' hc hnone hc'
  obtain ⟨k, rfl⟩ := Prog.eq_op_of_next? hnext
  rw [(step_next hc).1, exec_locked rfl] at hc'
  -- The mark is made, and the next section deletes.
  have hdel : (c'.calls i).next? = some (me, .deleteClaimed) := by
    rw [hc']
    refine (hp _).2.2 _ ?_
    simp [apply, World.markDraining, hnone, due]
  obtain ⟨k', hk'⟩ := Prog.eq_op_of_next? hdel
  rw [(step_next hk').2, exec_locked rfl, (apply_does _ _ _ _).inst, update_self]
  rfl

theorem givesUp_of_run (h : Inv claimTTL c) {now : Nat} (hi : (c.calls i).next? = some (me, .renewStalled now))
    (hrun : Run claimTTL (stallClock me c.store.log) now) :
    GivesUp claimTTL me ((step claimTTL c (.next i fault)).calls i) := by
  obtain ⟨k, hk⟩ := Prog.eq_op_of_next? hi
  have hflow : (Prog.op (me, .renewStalled now) k).Follows Flow := hk ▸ h.kept.follows i
  obtain ⟨last, hlast, hle⟩ := (h.behind me).run hrun
  have hyes : (apply claimTTL c.store me (.renewStalled now)).2 = .yes := by
    simp [apply, World.renewStalled, Option.mem_def.1 hlast, hle]
  rw [(step_next hk).1, exec_locked rfl, hyes]
  exact givesUp_of_markDraining (hflow .yes).1 ((hflow .yes).2.2 (.markDraining .renewStalled) rfl)

variable (claimTTL)

/-- In every history, the passes of an instance running one at a time: a renewal pass that the store fails reports the
lease lost once the clock of the holding has run for the TTL, and its call then takes the supplier out of the claimed
map. In a holding whose record is its own it reports it only then; a clock that has not started has not run. -/
theorem stall_clock_of_holding (as : List (Act ι)) (h : Meets (step claimTTL) OnePass idle as) :
    let c := run (step claimTTL) idle as
    (∀ past who t reported rest, c.store.log = past ++ .failedPass who t reported :: rest →
      (Run claimTTL (stallClock who past) t → reported = true) ∧
      (Own who past → reported = true → Run claimTTL (stallClock who past) t)) ∧
      ∀ i who t fault, (c.calls i).next? = some (who, .renewStalled t) →
        Run claimTTL (stallClock who c.store.log) t → GivesUp claimTTL who ((step claimTTL c (.next i fault)).calls i) := by
  have hinv := inv_of_meets (Inv claimTTL) (fun _ a hc ha => inv_step hc a ha) inv_idle h
  exact ⟨fun past who t reported rest hlog => hinv.log past _ rest hlog who t reported rfl,
    fun i who t fault hi hrun => givesUp_of_run hinv hi hrun⟩

end

def renewedThenFailed : List (Act (Fin 1)) :=
  let me : Fin 1 := ⟨0, Nat.one_pos⟩
  [.start 0 (.tryClaim me), .next 0 .ok, .next 0 .ok, .next 0 .ok, .next 0 .ok, .env (.tick 10),
    .start 0 (.renewAllClaims me), .next 0 .ok, .next 0 .ok, .next 0 .ok, .next 0 .ok, .next 0 .ok, .next 0 .ok,
    .env (.tick 60), .start 0 (.renewAllClaims me), .next 0 .ok, .next 0 .ok, .next 0 .refused, .next 0 .ok]

theorem stall_clock_of_holding_renewed :
    Meets (step 60) OnePass idle renewedThenFailed ∧
      ∃ past, (run (step 60) idle renewedThenFailed).store.log = past ++ [.failedPass 0 70 true] ∧
        Own 0 past ∧ stallClock 0 past = some 10 ∧ Run 60 (stallClock 0 past) 70 := by
  have hone : Meets (step 60) OnePass idle renewedThenFailed := by
    refine ⟨trivial, nofun, nofun, nofun, nofun, trivial, trivial, nofun, ?_, nofun, nofun, nofun, nofun, trivial, trivial,
      nofun, ?_, nofun, nofun, trivial⟩ <;>
    · rintro me - j o hj
      cases j with
      | zero =>
        cases hj
        rfl
      | succ j => cases hj
  refine ⟨hone, [.confirmed 0 ⟨0, 0⟩, .held 0 none, .started 0 false, .extended 0 ⟨0, 0⟩, .confirmed 0 ⟨0, 0⟩,
    .renewed 0 10], by decide, rfl, by decide, ?_⟩
  exact ((stall_clock_of_holding 60 renewedThenFailed hone).1 _ 0 70 true [] (by decide)).2 rfl rfl

/-- A supplier is claimed at 0, and the first pass after that, at 60, fails: the lease of 60 may have expired, but the
pass does not report it lost, and the supplier is kept. -/
theorem first_failure_not_reported :
    let as : List (Act (Fin 1)) :=
      [.start 0 (.tryClaim 0), .next 0 .ok, .next 0 .ok, .next 0 .ok, .next 0 .ok, .env (.tick 60), .env .keyExpires,
        .start 0 (.renewAllClaims 0), .next 0 .ok, .next 0 .ok, .next 0 .refused, .next 0 .ok]
    let w := (run (step 60) idle as).store
    .failedPass 0 60 false ∈ w.log ∧ (w.inst 0).claimed = some 0 ∧ w.key = none := by
  decide

end RelayMiner.Claimer.StallClock
