import RelayMiner.Claimer.Leases
/-!
# The holder of a lease

`TryClaim` and `renewAllClaims` read the owner of the key and set its TTL in two
store calls. Between them the key may expire and a peer may take it, and `EXPIRE`
asks for no owner. Where no `SETNX` of a peer takes the key in that window, an
instance lengthens and confirms its own leases only.
-/

namespace RelayMiner.Claimer.Holder

open Lib

section

variable {ι : Type}

def windowed : Op ι → Bool
  | .isDraining true | .isClaimed (.beforeExpire _) | .expire _ => true
  | _ => false

def recorded : Op ι → Option (Lease ι)
  | .insertClaimed l | .adopt l | .markRenewed _ l => some l
  | _ => none

structure Entitled (w : World ι) (q : ι × Op ι) : Prop where
  window : windowed q.2 = true → ∀ l ∈ w.key, l.owner = q.1
  record : ∀ l ∈ recorded q.2, l.owner = q.1

/-- A call lengthens or confirms a lease of its own instance. -/
def Rightful : Event ι → Prop
  | .extended who l | .confirmed who l => l.owner = who
  | _ => True

/-- A `SETNX` does not take the key in the window of another instance. -/
def Undisturbed (c : Fleet ι) : Act ι → Prop
  | .next i fault => ∀ me, (c.calls i).next? = some (me, .setNX) → c.store.key = none → fault ≠ .refused →
    ∀ j, ∀ q ∈ (c.calls j).next?, windowed q.2 = true → q.1 = me
  | _ => True

structure Inv (c : Fleet ι) : Prop where
  kept : c.Kept Flow Entitled
  log : ∀ e ∈ c.store.log, Rightful e

theorem inv_idle : Inv (idle : Fleet ι) := ⟨.idle _, nofun⟩

theorem entitled_of_loose {me : ι} {k : Thread ι} (hk : Loose me k) (w : World ι) : ∀ q ∈ k.next?, Entitled w q := by
  intro q hq
  have hlead := hk.leads hq
  obtain ⟨him, o⟩ := q
  constructor
  · intro ho
    cases o with
    | isDraining recheck =>
      cases recheck with
      | false => cases ho
      | true => cases hlead.1
    | isClaimed look =>
      cases look with
      | beforeExpire pass => cases hlead.1
      | _ => cases ho
    | expire pass =>
      cases pass with
      | none => cases hlead.1
      | some now => cases hlead
    | _ => cases ho
  intro l hl
  cases o with
  | insertClaimed l | adopt l | markRenewed _ l => cases hlead.1
  | _ => cases hl

end

section

variable {ι : Type} [DecidableEq ι] {claimTTL : Nat} {w : World ι} {me : ι} {o : Op ι} {fault : Fault} {l : Lease ι}

omit [DecidableEq ι] in
theorem rightful_of_caused (ho : Entitled w (me, o)) (e : Event ι) (he : o.Caused claimTTL w me e) : Rightful e := by
  cases e with
  | extended who l =>
    obtain ⟨rfl, hl, ⟨pass, rfl⟩ | hown⟩ := he
    · exact ho.window rfl l hl
    · exact hown
  | confirmed who l =>
    obtain ⟨rfl, rfl | rfl | ⟨now, rfl⟩⟩ := he
    · exact ho.record l rfl
    · exact ho.record l rfl
    · exact ho.record l rfl
  | _ => trivial

/-- The answer of a `GET` or an `EXPIRE` is the lease it found. -/
theorem expire_answer {pass : Option Nat} (h : (exec claimTTL w (me, .expire pass) fault).2 = .lease l) :
    w.key = some l := by
  have he := exec_of_answered h nofun
  rw [he] at h
  simp only [apply, World.expire] at h
  split at h
  · cases h
  next l' hl =>
  cases h
  exact hl

theorem owner_answer {pass : Option Nat} (h : (exec claimTTL w (me, .owner pass) fault).2 = .lease l) :
    (exec claimTTL w (me, .owner pass) fault).1.key = some l := by
  have he := exec_of_answered h nofun
  rw [he] at h ⊢
  unfold apply at h ⊢
  dsimp only at h ⊢
  split at h
  · next l' hl =>
    cases h
    exact hl
  · cases h

theorem setNX_answer (h : (exec claimTTL w (me, .setNX) fault).2 = .lease l) : l.owner = me := by
  have he := exec_of_answered h nofun
  rw [he] at h
  simp only [apply, World.setNX] at h
  split at h
  · cases h
  · cases h
    rfl

theorem entitled_next (ho : Entitled w (me, o)) (fault : Fault) {q : ι × Op ι}
    (hq : Flow (me, o) (exec claimTTL w (me, o) fault).2 (some q)) :
    Entitled (exec claimTTL w (me, o) fault).1 q := by
  obtain ⟨him, o'⟩ := q
  obtain ⟨rfl, hlead⟩ := hq.1 _ rfl
  -- The owner was read, and it is us.
  have hread : ∀ pass, (o = .owner pass ∧ ∃ l, (exec claimTTL w (him, o) fault).2 = .lease l ∧ l.owner = him) →
      ∀ l ∈ (exec claimTTL w (him, o) fault).1.key, l.owner = him := by
    rintro pass ⟨rfl, l, hl, hown⟩ l' hl'
    rw [owner_answer hl] at hl'
    cases hl'
    exact hown
  constructor
  · intro hw
    cases o' with
    | isDraining recheck =>
      cases recheck with
      | false => cases hw
      | true => exact hread none hlead
    | isClaimed look =>
      cases look with
      | beforeExpire pass => exact hread (some pass) hlead
      | _ => cases hw
    | expire pass =>
      cases pass with
      | none =>
        obtain ⟨rfl, -⟩ := hlead
        rw [exec_locked rfl]
        exact ho.window rfl
      | some now =>
        obtain rfl : o = .isClaimed (.beforeExpire now) := hlead
        rw [exec_locked rfl]
        exact ho.window rfl
    | _ => cases hw
  intro l hl
  cases o' with
  | insertClaimed l' =>
    cases hl
    obtain ⟨rfl, hr⟩ := hlead
    exact setNX_answer hr
  | adopt | markRenewed =>
    cases hl
    obtain ⟨rfl, hr⟩ := hlead
    exact ho.window rfl l (expire_answer hr)
  | _ => cases hl

theorem inv_next {c : Fleet ι} (h : Inv c) {i : Nat} {k : Reply ι → Thread ι} (hi : c.calls i = .op (me, o) k)
    (hu : Undisturbed c (.next i fault)) :
    Inv ⟨(exec claimTTL c.store (me, o) fault).1,
      Function.update c.calls i (k (exec claimTTL c.store (me, o) fault).2)⟩ := by
  have ho : Entitled c.store (me, o) := h.kept.fits i _ (by rw [hi]; rfl)
  refine ⟨h.kept.next hi (fun j _ q hq => ?_) fun q hq => entitled_next ho fault hq,
    log_exec h.log (rightful_of_caused ho) fault⟩
  have hother := h.kept.fits j q hq
  refine ⟨fun hw l hl => ?_, hother.record⟩
  rcases key_exec claimTTL c.store me o fault with hsame | ⟨rfl, hnone, hfault, htaken⟩ | hgone
  · exact hother.window hw l (hsame ▸ hl)
  · -- A peer in its window would be disturbed.
    rw [htaken] at hl
    cases hl
    exact (hu me (by rw [hi]; rfl) hnone hfault j q hq hw).symm
  · rw [hgone] at hl
    cases hl

theorem inv_step {c : Fleet ι} (h : Inv c) (a : Act ι) (hu : Undisturbed c a) : Inv (step claimTTL c a) := by
  rcases step_cases claimTTL c a with he | ⟨i, k, -, he⟩ | ⟨i, fault, me, o, k, rfl, hi, he⟩ | ⟨e, he⟩
  · rw [he]
    exact h
  · rw [he]
    exact ⟨h.kept.start i (loose_body k).follows (entitled_of_loose (loose_body k) _), h.log⟩
  · rw [he]
    exact inv_next h hi hu
  rw [he]
  cases e with
  | tick t => exact ⟨h.kept.store fun _ hq => ⟨hq.window, hq.record⟩, h.log⟩
  | keyExpires => exact ⟨h.kept.store fun _ hq => ⟨fun _ => nofun, hq.record⟩, h.log⟩

variable (claimTTL)

/-- Whatever calls of whatever instances run side by side and whenever the key expires, where no `SETNX` takes the key
between the read in which another instance found itself its owner and that instance's `EXPIRE`: every TTL that is set
and every lease that is recorded as claimed, adopted or renewed is the instance's own, and two instances never have the
same lease confirmed. -/
theorem lease_confirmed_by_owner (as : List (Act ι)) (h : Meets (step claimTTL) Undisturbed idle as) :
    let log := (run (step claimTTL) idle as).store.log
    (∀ who l, .extended who l ∈ log → l.owner = who) ∧
      (∀ who l, .confirmed who l ∈ log → l.owner = who) ∧
      ∀ who who' l, .confirmed who l ∈ log → .confirmed who' l ∈ log → who = who' := by
  have hlog := (inv_of_meets Inv (fun _ a hc hu => inv_step hc a hu) inv_idle h).log
  have hconf : ∀ who l, Event.confirmed who l ∈ (run (step claimTTL) idle as).store.log → l.owner = who :=
    fun who l hl => hlog _ hl
  exact ⟨fun who l hl => hlog _ hl, hconf, fun who who' l hl hl' => (hconf who l hl).symm.trans (hconf who' l hl')⟩

end

def handedOn : List (Act (Fin 2)) :=
  [.start 0 (.tryClaim 0), .next 0 .ok, .next 0 .ok, .next 0 .ok, .next 0 .ok,
    .start 0 (.renewAllClaims 0), .next 0 .ok, .next 0 .ok, .next 0 .ok, .next 0 .ok, .next 0 .ok, .next 0 .ok,
    .env .keyExpires, .start 1 (.tryClaim 1), .next 1 .ok, .next 1 .ok, .next 1 .ok, .next 1 .ok]

theorem lease_confirmed_by_owner_handed_on :
    Meets (step 60) Undisturbed idle handedOn ∧
      (run (step 60) idle handedOn).store.log =
        [.confirmed 0 ⟨0, 0⟩, .held 0 none, .started 0 false, .extended 0 ⟨0, 0⟩, .confirmed 0 ⟨0, 0⟩, .renewed 0 0,
          .confirmed 1 ⟨1, 1⟩, .held 1 none, .started 1 false] ∧
      ∀ who who' l, .confirmed who l ∈ (run (step 60) idle handedOn).store.log →
        .confirmed who' l ∈ (run (step 60) idle handedOn).store.log → who = who' := by
  have hm : Meets (step 60) Undisturbed idle handedOn := by
    refine ⟨trivial, nofun, ?_, nofun, nofun, trivial, nofun, nofun, nofun, nofun, nofun, nofun, trivial, trivial, nofun,
      ?_, nofun, nofun, trivial⟩
    · rintro me ⟨⟩ - - j q hq hw
      cases j with
      | zero => cases hq; cases hw
      | succ j => cases hq
    rintro me ⟨⟩ - - j q hq hw
    match j with
    | 0 => cases hq
    | 1 => cases hq; cases hw
    | j + 2 => cases hq
  exact ⟨hm, by decide, (lease_confirmed_by_owner 60 handedOn hm).2.2⟩

/-- The key expires under a renewal of instance 0 that has found it its own, and instance 1 takes it: the renewal
lengthens the lease of instance 1, and records it. -/
theorem renewal_extends_peer :
    let as : List (Act (Fin 2)) :=
      [.start 0 (.tryClaim 0), .next 0 .ok, .next 0 .ok, .next 0 .ok, .next 0 .ok,
        .start 0 (.renewAllClaims 0), .next 0 .ok, .next 0 .ok, .next 0 .ok, .next 0 .ok,
        .env .keyExpires, .start 1 (.tryClaim 1), .next 1 .ok, .next 1 .ok, .next 1 .ok, .next 1 .ok,
        .next 0 .ok, .next 0 .ok]
    let log := (run (step 60) idle as).store.log
    .extended 0 ⟨1, 1⟩ ∈ log ∧ .confirmed 0 ⟨1, 1⟩ ∈ log ∧ .confirmed 1 ⟨1, 1⟩ ∈ log := by
  decide

end RelayMiner.Claimer.Holder
