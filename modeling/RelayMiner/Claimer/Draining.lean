import RelayMiner.Claimer.Leases
/-!
# Suppliers being torn down

A supplier is marked draining by the release that takes it out of the claimed
map, and stays so until the drain is over. The mark is a token: one call holds
it, or one drain does. `TryClaim` looks for the mark before its `SETNX`, and again
before it adopts a lease, and then goes on to the claim callback (`committed`).
The runs here are those in which no mark is made, and no `SETNX` of a supplier
that is draining goes through, behind that look.
-/

namespace RelayMiner.Claimer.Draining

open Lib Function

section

variable {ι : Type}

def committed : Op ι → Bool
  | .insertClaimed _ | .expire none | .adopt _ | .onClaim => true
  | _ => false

def holding : Op ι → Bool
  | .deleteClaimed | .deleteRenewed | .onRelease _ | .restoreClaimed _ | .unmarkDraining _ | .releaseIfOwner => true
  | _ => false

structure Fits (w : World ι) (me : ι) (o : Op ι) : Prop where
  committed : committed o = true → (w.inst me).draining.isSome = false
  holding : holding o = true → (w.inst me).draining.isSome = true ∧ (w.inst me).drains = 0
  finished : o = .unmarkDraining (.finish true) → ∀ l ∈ w.key, l.owner ≠ me

/-- The claim callback finds no drain, and a drain whose delete was answered ends with no lease of ours. -/
def Proper : Event ι → Prop
  | .started _ draining => draining = false
  | .finished who true key => ∀ l ∈ key, l.owner ≠ who
  | _ => True

def Releasing (who : ι) (p : Thread ι) : Prop :=
  p.next? = some (who, .deleteClaimed) ∨ p.next? = some (who, .unmarkDraining .undo)

/-- No release begins behind the last look of a `TryClaim` at the mark. -/
def Orderly (c : Fleet ι) : Act ι → Prop
  | .next i fault => ∀ me,
    ((c.calls i).next? = some (me, .setNX) → c.store.key = none → fault ≠ .refused →
      (c.store.inst me).draining = none) ∧
    ∀ trigger, (c.calls i).next? = some (me, .markDraining trigger) → (c.store.inst me).draining = none →
      ∀ j o, (c.calls j).next? = some (me, o) → committed o = false
  | _ => True

structure Inv (c : Fleet ι) : Prop where
  kept : c.Kept Flow fun w q => Fits w q.1 q.2
  alone : ∀ me, c.Alone fun q => q.1 = me ∧ holding q.2 = true
  drain : ∀ me, (c.store.inst me).drains ≠ 0 → (c.store.inst me).drains = 1 ∧ (c.store.inst me).draining.isSome = true
  apart : ∀ me, (c.store.inst me).claimed.isSome = true → (c.store.inst me).draining.isSome = true →
    ∃ i, Releasing me (c.calls i)
  log : ∀ e ∈ c.store.log, Proper e

theorem inv_idle : Inv (idle : Fleet ι) where
  kept := .idle _
  alone := fun _ => .idle _ _
  drain := fun _ h => absurd rfl h
  apart := nofun
  log := nofun

variable {o : Op ι} {me : ι}

theorem Inv.fits {c : Fleet ι} (h : Inv c) {i : Nat} (hi : (c.calls i).next? = some (me, o)) :
    Fits c.store me o :=
  h.kept.fits i (me, o) hi

theorem Inv.drains_zero {c : Fleet ι} (h : Inv c)
    (hnone : (c.store.inst me).draining = none) : (c.store.inst me).drains = 0 := by
  by_contra hne
  simpa [hnone] using (h.drain me hne).2

/-! ## What an operation does to the mark -/

def marks : Op ι → Bool
  | .markDraining _ | .unmarkDraining _ => true
  | _ => false

def passes : Op ι → Bool
  | .onRelease _ | .drained => true
  | _ => false

def moves : Op ι → Bool
  | .insertClaimed _ | .adopt _ | .deleteClaimed | .restoreClaimed _ => true
  | _ => false

theorem claimed_after (h : moves o = false) (now : Nat) (inst : Instance) :
    (o.after now inst).claimed = inst.claimed := by
  cases o with
  | insertClaimed l | adopt l | deleteClaimed | restoreClaimed t => cases h
  | _ => rfl

theorem draining_after (h : marks o = false) (now : Nat) (inst : Instance) :
    (o.after now inst).draining.isSome = inst.draining.isSome := by
  cases o with
  | markDraining trigger | unmarkDraining cause => cases h
  | setDeadline budget => simp [Op.after]
  | _ => rfl

theorem drains_after (h : passes o = false) (now : Nat) (inst : Instance) :
    (o.after now inst).drains = inst.drains := by
  cases o with
  | onRelease trigger | drained => cases h
  | _ => rfl

/-- The mark is passed on, made, or taken over from a drain. -/
theorem holding_of_leads {o o' : Op ι} {r : Reply ι} (h : Leads me o r o') (ho' : holding o' = true) :
    (holding o = true ∧ marks o = false ∧ (passes o = true → r ≠ .yes)) ∨
      (∃ trigger, o = .markDraining trigger) ∧ r = .yes ∨ o = .drained ∧ r = .yes := by
  cases o' with
  | deleteClaimed => exact .inr (.inl h)
  | deleteRenewed =>
    obtain rfl : o = .deleteClaimed := h
    exact .inl ⟨rfl, rfl, nofun⟩
  | onRelease trigger =>
    obtain rfl | rfl : o = .deleteClaimed ∨ o = .deleteRenewed := h
    · exact .inl ⟨rfl, rfl, nofun⟩
    · exact .inl ⟨rfl, rfl, nofun⟩
  | restoreClaimed t =>
    obtain ⟨⟨trigger, rfl⟩, hr⟩ := h
    exact .inl ⟨rfl, rfl, fun _ => hr⟩
  | unmarkDraining cause =>
    cases cause with
    | undo =>
      obtain ⟨⟨trigger, rfl⟩, hr⟩ | ⟨t, rfl⟩ := h
      · exact .inl ⟨rfl, rfl, fun _ => hr⟩
      · exact .inl ⟨rfl, rfl, nofun⟩
    | finish deleted =>
      obtain ⟨rfl, -⟩ := h
      exact .inl ⟨rfl, rfl, nofun⟩
  | releaseIfOwner => exact .inr (.inr h)
  | _ => cases ho'

/-- A call that may come next anywhere knows nothing, and does not hold the mark. -/
theorem fits_of_loose {k : Thread ι} (hk : Loose me k) (w : World ι) {q : ι × Op ι} (hq : q ∈ k.next?) :
    Fits w q.1 q.2 ∧ holding q.2 = false := by
  have hlead := hk.leads hq
  obtain ⟨him, o⟩ := q
  have hfree : holding o = false := by
    by_contra ho
    rcases holding_of_leads hlead (by simpa using ho) with ⟨h, -⟩ | ⟨⟨_, h⟩, -⟩ | ⟨h, -⟩
    · cases h
    · cases h
    · cases h
  refine ⟨⟨fun ho => ?_, fun ho => absurd ho (by simp [hfree]), ?_⟩, hfree⟩
  · cases o with
    | insertClaimed l | adopt l => cases hlead.1
    | expire pass =>
      cases pass with
      | none => cases hlead.1
      | some now => cases ho
    | onClaim =>
      obtain ⟨l, h⟩ | ⟨l, h, -⟩ := hlead
      · cases h
      · cases h
    | _ => cases ho
  · rintro rfl
    cases hfree

end

section

variable {ι : Type} [DecidableEq ι] {claimTTL : Nat} {w : World ι} {me : ι} {o : Op ι} {fault : Fault} {o' : Op ι}
  {him : ι}

theorem draining_exec (h : marks o = false) :
    ((exec claimTTL w (me, o) fault).1.inst me).draining.isSome = (w.inst me).draining.isSome := by
  rcases inst_exec claimTTL w me o fault with he | ⟨he, -⟩
  · rw [he, draining_after h]
  · rw [he]

theorem claimed_exec (h : moves o = false) :
    ((exec claimTTL w (me, o) fault).1.inst me).claimed = (w.inst me).claimed := by
  rcases inst_exec claimTTL w me o fault with he | ⟨he, -⟩
  · rw [he, claimed_after h]
  · rw [he]

theorem setNX_taken {l : Lease ι} (h : (exec claimTTL w (me, .setNX) fault).2 = .lease l) :
    w.key = none ∧ fault ≠ .refused := by
  have he := exec_of_answered h nofun
  constructor
  · rw [he] at h
    simp only [apply, World.setNX] at h
    split at h
    · cases h
    · next hnone => exact hnone
  · rintro rfl
    cases h

theorem markDraining_made {trigger : Trigger} (h : (exec claimTTL w (me, .markDraining trigger) fault).2 = .yes) :
    (w.inst me).draining = none := by
  rw [exec_locked rfl] at h
  simp only [apply, World.markDraining] at h
  split at h
  · cases h
  · next hnone => exact hnone

theorem draining_markDraining (trigger : Trigger) :
    ((exec claimTTL w (me, .markDraining trigger) fault).1.inst me).draining.isSome = true := by
  rw [exec_locked rfl, (apply_does _ _ _ _).inst, update_self]
  rfl

theorem draining_unmarkDraining (cause : Unmark) :
    ((exec claimTTL w (me, .unmarkDraining cause) fault).1.inst me).draining = none := by
  rw [exec_locked rfl, (apply_does _ _ _ _).inst, update_self]
  rfl

theorem drained_taken (h : (exec claimTTL w (me, .drained) fault).2 = .yes) :
    (w.inst me).drains ≠ 0 ∧ ((exec claimTTL w (me, .drained) fault).1.inst me).drains = (w.inst me).drains - 1 := by
  rw [exec_locked rfl] at h ⊢
  refine ⟨?_, by rw [(apply_does _ _ _ _).inst, update_self]; rfl⟩
  simp only [apply, World.drained] at h
  split at h
  · cases h
  · next hne => exact hne

theorem onRelease_made {trigger : Trigger} (h : (exec claimTTL w (me, .onRelease trigger) fault).2 = .yes) :
    ((exec claimTTL w (me, .onRelease trigger) fault).1.inst me).drains = (w.inst me).drains + 1 := by
  rw [exec_of_answered h nofun, (apply_does _ _ _ _).inst, update_self]
  rfl

theorem drains_exec (h : passes o = true → (exec claimTTL w (me, o) fault).2 ≠ .yes) :
    ((exec claimTTL w (me, o) fault).1.inst me).drains = (w.inst me).drains := by
  cases hp : passes o with
  | false =>
    rcases inst_exec claimTTL w me o fault with he | ⟨he, -⟩
    · rw [he, drains_after hp]
    · rw [he]
  | true =>
    have hr := h hp
    cases o with
    | onRelease trigger =>
      cases fault with
      | ok => exact absurd rfl hr
      | refused | lost => rfl
    | drained =>
      rw [exec_locked rfl] at hr ⊢
      simp only [apply, World.drained] at hr ⊢
      split
      · rfl
      · next hne => exact absurd (by rw [if_neg hne]) hr
    | _ => cases hp

theorem releaseIfOwner_answered (h : (exec claimTTL w (me, .releaseIfOwner) fault).2 ≠ .failed) :
    ∀ l ∈ (exec claimTTL w (me, .releaseIfOwner) fault).1.key, l.owner ≠ me := by
  rw [exec_of_answered rfl h]
  intro l hl
  simp only [apply, World.ifOwner] at hl
  split at hl
  · next hnone => cases hnone ▸ hl
  next l' hsome =>
  split at hl
  · cases hl
  next hne =>
  rw [hsome] at hl
  cases hl
  exact hne

/-! ## The step -/

variable {c : Fleet ι} {i : Nat}

theorem fits_next (h : Inv c) (hi : (c.calls i).next? = some (me, o)) (hu : Orderly c (.next i fault))
    (hlead : Leads me o (exec claimTTL c.store (me, o) fault).2 o') :
    Fits (exec claimTTL c.store (me, o) fault).1 me o' := by
  have ho := h.fits hi
  -- Between two committed operations the mark is not touched.
  have hstay : committed o = true → marks o = false →
      ((exec claimTTL c.store (me, o) fault).1.inst me).draining.isSome = false := by
    intro hc hm
    rw [draining_exec hm]
    exact ho.committed hc
  refine ⟨fun hc => ?_, fun hh => ?_, ?_⟩
  · cases o' with
    | insertClaimed l =>
      obtain ⟨rfl, hr⟩ := hlead
      obtain ⟨hnone, hfault⟩ := setNX_taken hr
      rw [draining_exec rfl, (hu me).1 hi hnone hfault]
      rfl
    | expire pass =>
      cases pass with
      | none =>
        obtain ⟨rfl, hr⟩ := hlead
        rw [exec_locked rfl] at hr ⊢
        cases hd : (c.store.inst me).draining.isSome with
        | false => exact hd
        | true => exact absurd (by simp [apply, hd, Reply.ofBool]) hr
      | some now => cases hc
    | adopt l =>
      obtain ⟨rfl, -⟩ := hlead
      exact hstay rfl rfl
    | onClaim =>
      obtain ⟨l, rfl⟩ | ⟨l, rfl, -⟩ := hlead
      · exact hstay rfl rfl
      · exact hstay rfl rfl
    | _ => cases hc
  · rcases holding_of_leads hlead hh with ⟨hheld, hm, hp⟩ | ⟨⟨trigger, rfl⟩, hr⟩ | ⟨rfl, hr⟩
    · rw [draining_exec hm, drains_exec hp]
      exact ho.holding hheld
    · rw [drains_exec fun hp => by cases hp]
      exact ⟨draining_markDraining trigger, h.drains_zero (markDraining_made hr)⟩
    · obtain ⟨hne, hdec⟩ := drained_taken hr
      rw [draining_exec rfl, hdec, (h.drain me hne).1]
      exact ⟨(h.drain me hne).2, rfl⟩
  rintro rfl
  obtain ⟨rfl, hr⟩ := hlead
  exact releaseIfOwner_answered (hr rfl)

theorem fits_other (h : Inv c) (hi : (c.calls i).next? = some (me, o)) (hu : Orderly c (.next i fault)) {j : Nat}
    (hj : j ≠ i) (hq : (c.calls j).next? = some (him, o')) :
    Fits (exec claimTTL c.store (me, o) fault).1 him o' := by
  have hfits := h.fits hq
  -- A peer's instance is not touched.
  by_cases hme : him = me
  swap
  · refine ⟨fun hc => ?_, fun hh => ?_, ?_⟩
    · rw [inst_exec_of_ne claimTTL c.store hme]
      exact hfits.committed hc
    · rw [inst_exec_of_ne claimTTL c.store hme]
      exact hfits.holding hh
    · rintro rfl l hl
      rcases key_exec claimTTL c.store me o fault with hsame | ⟨-, -, -, htaken⟩ | hgone
      · exact hfits.finished rfl l (hsame ▸ hl)
      · rw [htaken] at hl
        cases hl
        exact Ne.symm hme
      · rw [hgone] at hl
        cases hl
  subst hme
  -- The mark has one holder, and it is not the call that moves.
  have hnot : holding o' = true → holding o = false := by
    intro hh
    by_contra hheld
    exact hj (h.alone him j i _ _ hq hi ⟨rfl, hh⟩ ⟨rfl, by simpa using hheld⟩)
  refine ⟨fun hc => ?_, fun hh => ?_, ?_⟩
  · cases hm : marks o with
    | false =>
      rw [draining_exec hm]
      exact hfits.committed hc
    | true =>
      cases o with
      | markDraining trigger =>
        have hnone : (c.store.inst him).draining = none := by simpa using hfits.committed hc
        exact absurd hc (by simp [(hu him).2 trigger hi hnone j o' hq])
      | unmarkDraining cause =>
        rw [draining_unmarkDraining]
        rfl
      | _ => cases hm
  · have hfree := hnot hh
    obtain ⟨hsome, hzero⟩ := hfits.holding hh
    constructor
    · cases hm : marks o with
      | false =>
        rw [draining_exec hm]
        exact hsome
      | true =>
        cases o with
        | markDraining trigger => exact draining_markDraining trigger
        | unmarkDraining cause => cases hfree
        | _ => cases hm
    rw [drains_exec]
    · exact hzero
    intro hp hr
    cases o with
    | drained => exact (drained_taken hr).1 hzero
    | onRelease trigger => cases hfree
    | _ => cases hp
  rintro rfl l hl
  rcases key_exec claimTTL c.store him o fault with hsame | ⟨rfl, hnone, hfault, -⟩ | hgone
  · exact hfits.finished rfl l (hsame ▸ hl)
  · -- Our own `SETNX` would have gone through under the mark.
    have hsome := (hfits.holding rfl).1
    rw [(hu him).1 hi hnone hfault] at hsome
    cases hsome
  · rw [hgone] at hl
    cases hl

theorem drain_next (h : Inv c) (hi : (c.calls i).next? = some (me, o))
    (hne : ((exec claimTTL c.store (me, o) fault).1.inst him).drains ≠ 0) :
    ((exec claimTTL c.store (me, o) fault).1.inst him).drains = 1 ∧
      ((exec claimTTL c.store (me, o) fault).1.inst him).draining.isSome = true := by
  by_cases hme : him = me
  swap
  · rw [inst_exec_of_ne claimTTL c.store hme] at hne ⊢
    exact h.drain him hne
  subst hme
  have hfits := h.fits hi
  by_cases hpass : passes o = true ∧ (exec claimTTL c.store (him, o) fault).2 = .yes
  · obtain ⟨hp, hr⟩ := hpass
    cases o with
    | onRelease trigger =>
      obtain ⟨hsome, hzero⟩ := hfits.holding rfl
      rw [onRelease_made hr, hzero, draining_exec rfl]
      exact ⟨rfl, hsome⟩
    | drained =>
      obtain ⟨hpos, hdec⟩ := drained_taken hr
      rw [hdec, (h.drain him hpos).1] at hne
      exact absurd rfl hne
    | _ => cases hp
  rw [drains_exec fun hp hr => hpass ⟨hp, hr⟩] at hne ⊢
  obtain ⟨hone, hsome⟩ := h.drain him hne
  refine ⟨hone, ?_⟩
  cases hm : marks o with
  | false =>
    rw [draining_exec hm]
    exact hsome
  | true =>
    cases o with
    | markDraining trigger => exact draining_markDraining trigger
    | unmarkDraining cause => exact absurd (hfits.holding rfl).2 hne
    | _ => cases hm

theorem alone_next (h : Inv c) (hi : (c.calls i).next? = some (me, o))
    (hlead : Leads me o (exec claimTTL c.store (me, o) fault).2 o') (ho' : holding o' = true) {j : Nat} (hj : j ≠ i)
    {o'' : Op ι} (hq : (c.calls j).next? = some (me, o'')) : holding o'' = false := by
  by_contra hh
  replace hh : holding o'' = true := by simpa using hh
  obtain ⟨hsome, hzero⟩ := (h.fits hq).holding hh
  rcases holding_of_leads hlead ho' with ⟨hheld, -, -⟩ | ⟨⟨trigger, rfl⟩, hr⟩ | ⟨rfl, hr⟩
  · exact hj (h.alone me j i _ _ hq hi ⟨rfl, hh⟩ ⟨rfl, hheld⟩)
  · rw [markDraining_made hr] at hsome
    cases hsome
  · exact (drained_taken hr).1 hzero

omit [DecidableEq ι] in
theorem proper_of_caused (ho : Fits w me o) (e : Event ι) (he : o.Caused claimTTL w me e) : Proper e := by
  cases e with
  | started who draining =>
    obtain ⟨-, rfl, rfl⟩ := he
    exact ho.committed rfl
  | finished who deleted key =>
    obtain ⟨rfl, rfl, rfl⟩ := he
    cases deleted with
    | false => trivial
    | true => exact ho.finished rfl
  | _ => trivial

variable {k : Reply ι → Thread ι}

/-- A supplier in both maps is in the hands of a release. -/
theorem apart_next (h : Inv c) (hi : c.calls i = .op (me, o) k)
    (hclaimed : ((exec claimTTL c.store (me, o) fault).1.inst him).claimed.isSome = true)
    (hdraining : ((exec claimTTL c.store (me, o) fault).1.inst him).draining.isSome = true) :
    ∃ j, Releasing him (update c.calls i (k (exec claimTTL c.store (me, o) fault).2) j) := by
  have hnext : (c.calls i).next? = some (me, o) := by
    rw [hi]
    rfl
  have hfits := h.fits hnext
  -- A release that had the supplier still has it, unless it is the call that moves.
  have hkeep : (c.store.inst him).claimed.isSome = true → (c.store.inst him).draining.isSome = true →
      ¬ Releasing him (c.calls i) →
      ∃ j, Releasing him (update c.calls i (k (exec claimTTL c.store (me, o) fault).2) j) := by
    intro hc hd hnot
    obtain ⟨j, hj⟩ := h.apart him hc hd
    have hne : j ≠ i := by
      rintro rfl
      exact hnot hj
    exact ⟨j, by rwa [update_of_ne hne]⟩
  have hflow : (Prog.op (me, o) k).Follows Flow := hi ▸ h.kept.follows i
  have hdue := (hflow (exec claimTTL c.store (me, o) fault).2).2.2
  by_cases hme : him = me
  swap
  · rw [inst_exec_of_ne claimTTL c.store hme] at hclaimed hdraining
    refine hkeep hclaimed hdraining ?_
    rintro (hr | hr)
    · rw [hnext] at hr
      cases hr
      exact hme rfl
    rw [hnext] at hr
    cases hr
    exact hme rfl
  subst hme
  have hnot : o ≠ .deleteClaimed → o ≠ .unmarkDraining .undo → ¬ Releasing him (c.calls i) := by
    rintro hdel hundo (hr | hr)
    · rw [hnext] at hr
      cases hr
      exact hdel rfl
    rw [hnext] at hr
    cases hr
    exact hundo rfl
  have hother : marks o = false → moves o = false →
      ∃ j, Releasing him (update c.calls i (k (exec claimTTL c.store (him, o) fault).2) j) := by
    intro hm hv
    rw [claimed_exec hv] at hclaimed
    rw [draining_exec hm] at hdraining
    exact hkeep hclaimed hdraining (hnot (by rintro rfl; cases hv) (by rintro rfl; cases hm))
  cases o with
  | markDraining trigger =>
    cases hd : (c.store.inst him).draining with
    | none =>
      refine ⟨i, .inl ?_⟩
      rw [update_self]
      refine hdue _ ?_
      rw [exec_locked rfl]
      simp [apply, World.markDraining, hd, due]
    | some d =>
      rw [claimed_exec rfl] at hclaimed
      exact hkeep hclaimed (by rw [hd]; rfl) (hnot (by simp) (by simp))
  | unmarkDraining cause =>
    rw [draining_unmarkDraining] at hdraining
    cases hdraining
  | deleteClaimed =>
    rw [exec_locked rfl, (apply_does _ _ _ _).inst, update_self] at hclaimed
    cases hclaimed
  | restoreClaimed t =>
    refine ⟨i, .inr ?_⟩
    rw [update_self]
    exact hdue _ rfl
  | insertClaimed l | adopt l =>
    rw [draining_exec rfl, hfits.committed rfl] at hdraining
    cases hdraining
  | _ => exact hother rfl rfl

theorem inv_next (h : Inv c) (hi : c.calls i = .op (me, o) k) (hu : Orderly c (.next i fault)) :
    Inv ⟨(exec claimTTL c.store (me, o) fault).1,
      update c.calls i (k (exec claimTTL c.store (me, o) fault).2)⟩ := by
  have hnext : (c.calls i).next? = some (me, o) := by
    rw [hi]
    rfl
  have hflow : (Prog.op (me, o) k).Follows Flow := hi ▸ h.kept.follows i
  have hlead : ∀ q ∈ (k (exec claimTTL c.store (me, o) fault).2).next?,
      q.1 = me ∧ Leads me o (exec claimTTL c.store (me, o) fault).2 q.2 := (hflow _).2.1
  refine ⟨h.kept.next hi (fun j hj q hq => fits_other h hnext hu hj hq) fun q hq => ?_, ?_,
    fun him hne => drain_next h hnext hne,
    fun him hc hd => apart_next h hi hc hd, log_exec h.log (proper_of_caused (h.fits hnext)) fault⟩
  · obtain ⟨hme, hl⟩ := hq.1 q rfl
    rw [hme]
    exact fits_next h hnext hu hl
  refine fun him => (h.alone him).update i _ ?_
  rintro ⟨me', o'⟩ hq ⟨hhim, hh⟩ j hj ⟨me'', o''⟩ hq' ⟨hhim', hh'⟩
  obtain ⟨hme, hl⟩ := hlead _ hq
  subst hhim' hhim hme
  exact absurd hh' (by simp [alone_next h hnext hl hh hj hq'])

theorem inv_start (h : Inv c) (hi : c.calls i = .ret) (call : Call ι) :
    Inv { c with calls := update c.calls i call.body } := by
  have hloose := loose_body call
  refine ⟨h.kept.start i hloose.follows fun q hq => (fits_of_loose hloose _ hq).1, ?_, h.drain, fun him hc hd => ?_, h.log⟩
  · -- The new call does not hold the mark.
    refine fun him => (h.alone him).update i _ fun q hq hh => ?_
    exact absurd hh.2 (by simp [(fits_of_loose hloose c.store hq).2])
  obtain ⟨j, hj⟩ := h.apart him hc hd
  have hne : j ≠ i := by
    rintro rfl
    rw [hi] at hj
    rcases hj with hj | hj
    · cases hj
    · cases hj
  exact ⟨j, by simpa only [update_of_ne hne] using hj⟩

omit [DecidableEq ι] in
theorem inv_happen (h : Inv c) (e : Env) : Inv { c with store := happen c.store e } := by
  cases e with
  | tick t => exact { h with kept := h.kept.store fun _ hq => { hq with } }
  | keyExpires =>
    exact { h with kept := h.kept.store fun _ hq => ⟨hq.committed, hq.holding, fun _ => nofun⟩ }

theorem inv_step (h : Inv c) (a : Act ι) (hu : Orderly c a) : Inv (step claimTTL c a) := by
  rcases step_cases claimTTL c a with he | ⟨i, call, hi, he⟩ | ⟨i, fault, me, o, k, rfl, hi, he⟩ | ⟨e, he⟩
  · rw [he]
    exact h
  · rw [he]
    exact inv_start h hi call
  · rw [he]
    exact inv_next h hi hu
  · rw [he]
    exact inv_happen h e

variable (claimTTL)

/-- In every interleaving in which no release of a supplier begins behind the last look of a `TryClaim` at the mark:
the claim callback is never called for a supplier that is draining, a supplier is claimed and draining only inside
the call that releases it, and at the end of a `FinishRelease` whose delete was answered the key is gone or a peer's. -/
theorem torn_down_never_started (as : List (Act ι)) (h : Meets (step claimTTL) Orderly idle as) :
    let c := run (step claimTTL) idle as
    (∀ who draining, .started who draining ∈ c.store.log → draining = false) ∧
      (∀ who, (c.store.inst who).claimed.isSome = true → (c.store.inst who).draining.isSome = true →
        ∃ i, Releasing who (c.calls i)) ∧
      ∀ who key, .finished who true key ∈ c.store.log → ∀ l ∈ key, l.owner ≠ who := by
  have hinv := inv_of_meets Inv (fun _ a hc hu => inv_step hc a hu) inv_idle h
  exact ⟨fun who draining he => hinv.log _ he, hinv.apart, fun who key he => hinv.log _ he⟩

end

def handedOver : List (Act (Fin 2)) :=
  let me : Fin 2 := ⟨0, Nat.two_pos⟩
  [.start 0 (.tryClaim me), .next 0 .ok, .next 0 .ok, .next 0 .ok, .next 0 .ok,
    .start 0 (.release me .rebalanceRelease), .next 0 .ok, .next 0 .ok, .next 0 .ok,
    .start 0 (.finishRelease me), .next 0 .ok, .next 0 .ok, .next 0 .ok]

theorem torn_down_never_started_handed_over :
    Meets (step 60) Orderly idle handedOver ∧
      (run (step 60) idle handedOver).store.log =
        [.confirmed 0 ⟨0, 0⟩, .held 0 none, .started 0 false, .finished 0 true none] ∧
      ∀ who key, .finished who true key ∈ (run (step 60) idle handedOver).store.log → ∀ l ∈ key, l.owner ≠ who := by
  have hm : Meets (step 60) Orderly idle handedOver := by
    refine ⟨trivial, fun _ => ⟨nofun, nofun⟩, fun me => ⟨?_, nofun⟩, fun _ => ⟨nofun, nofun⟩, fun _ => ⟨nofun, nofun⟩,
      trivial, fun me => ⟨nofun, ?_⟩, fun _ => ⟨nofun, nofun⟩, fun _ => ⟨nofun, nofun⟩, trivial, fun _ => ⟨nofun, nofun⟩,
      fun _ => ⟨nofun, nofun⟩, fun _ => ⟨nofun, nofun⟩, trivial⟩
    · rintro - - -
      rfl
    rintro trigger - - j o hj
    cases j with
    | zero =>
      cases hj
      rfl
    | succ j => cases hj
  exact ⟨hm, by decide, (torn_down_never_started 60 handedOver hm).2.2⟩

/-- A renewal pass finds the key gone and looks at the mark; a release comes and goes; then the pass takes the key. -/
def releasedBehindTheLook : List (Act (Fin 2)) :=
  let me : Fin 2 := ⟨0, Nat.two_pos⟩
  [.start 0 (.tryClaim me), .next 0 .ok, .next 0 .ok, .next 0 .ok, .next 0 .ok, .env .keyExpires,
    .start 0 (.renewAllClaims me), .next 0 .ok, .next 0 .ok, .next 0 .ok, .next 0 .ok, .next 0 .ok,
    .start 1 (.release me .rebalanceRelease), .next 1 .ok, .next 1 .ok, .next 1 .ok,
    .next 0 .ok, .next 0 .ok, .next 0 .ok]

/-- The claim callback is called under the mark, and the supplier is left in both maps with no release under way. -/
theorem release_overrun_by_claim :
    let c := run (step 60) idle releasedBehindTheLook
    c.store.log =
      [.confirmed 0 ⟨0, 0⟩, .held 0 none, .started 0 false, .confirmed 0 ⟨0, 1⟩, .held 0 none, .started 0 true] ∧
      (c.store.inst 0).claimed.isSome = true ∧ (c.store.inst 0).draining.isSome = true ∧
      (c.calls 0).next?.isNone ∧ (c.calls 1).next?.isNone := by
  decide

end RelayMiner.Claimer.Draining
