import RelayMiner.Lib.Calls
/-!
# Supplier leases

`SupplierClaimer` of any number of instances over one supplier's lease key. Each
function is the lock sections and store calls it goes through, in order; the
calls of one instance run side by side with each other and with the peers' calls,
one section or store call at a time. The key may expire between any two of them.

The log holds what the results about the claimer speak of: TTLs set on the key,
leases confirmed, claim callbacks, renewal passes that failed, drains that ended.
Where an operation carries a lease, that is the lease the store's answer was
about; no branch depends on it.

A drain that the release callback started ends in `FinishRelease`. The callbacks
are set, as the manager sets them.
-/

namespace RelayMiner.Claimer

open Lib Function

inductive Trigger where
  | leaseExpired
  | leaseStolen
  | renewStalled
  | rebalanceRelease
  | keyRemoval
  | claimCallbackFailed
  | consumeLoopPanicked

structure Lease (ι : Type) where
  owner : ι
  write : Nat
  deriving DecidableEq

structure DrainLease where
  trigger : Trigger
  deadline : Option Nat := none

structure Instance where
  claimed : Option Nat := none
  draining : Option DrainLease := none
  lastRenewedAt : Option Nat := none
  drains : Nat := 0

/-- Why a supplier is taken out of draining: its release is undone, or its drain
is over, and its key deleted or not ours, or the delete failed. -/
inductive Unmark where
  | undo
  | finish (deleted : Bool)

inductive Event (ι : Type) where
  | extended (who : ι) (l : Lease ι)
  | confirmed (who : ι) (l : Lease ι)
  /-- A holding begins, with this record of renewals left by an earlier one. -/
  | held (who : ι) (record : Option Nat)
  | renewed (who : ι) (time : Nat)
  | failedPass (who : ι) (time : Nat) (reported : Bool)
  | forgotten (who : ι)
  | started (who : ι) (draining : Bool)
  | finished (who : ι) (deleted : Bool) (key : Option (Lease ι))
  deriving DecidableEq

structure World (ι : Type) where
  now : Nat := 0
  key : Option (Lease ι) := none
  writes : Nat := 0
  inst : ι → Instance := fun _ => {}
  log : List (Event ι) := []

inductive Look where
  | snapshot
  | keyAbsent
  | beforeExpire (pass : Nat)
  | keyDisappeared

inductive Op (ι : Type) where
  -- Store calls. Those of a renewal pass carry the time at which it began.
  | setNX
  | owner (pass : Option Nat)
  | expire (pass : Option Nat)
  | releaseIfOwner
  | extendIfOwner
  -- Sections under a lock.
  | isDraining (recheck : Bool)
  | markDraining (trigger : Trigger)
  | unmarkDraining (cause : Unmark)
  | setDeadline (budget : Nat)
  | insertClaimed (l : Lease ι)
  | adopt (l : Lease ι)
  | deleteClaimed
  | restoreClaimed (claimedAt : Nat)
  | isClaimed (look : Look)
  | markRenewed (now : Nat) (l : Lease ι)
  | renewStalled (now : Nat)
  | deleteRenewed
  -- The clock, the callbacks, and the end of a drain.
  | clock
  | onClaim
  | onRelease (trigger : Trigger)
  | drained

inductive Reply (ι : Type) where
  | failed
  | no
  | yes
  | lease (l : Lease ι)
  | claimedAt (t : Option Nat)
  | time (t : Nat)
  deriving DecidableEq

inductive Kind where
  | store
  | locked
  | onClaim
  | onRelease

def Op.kind {ι : Type} : Op ι → Kind
  | .setNX | .owner _ | .expire _ | .releaseIfOwner | .extendIfOwner => .store
  | .onClaim => .onClaim
  | .onRelease _ => .onRelease
  | _ => .locked

section

variable {ι : Type} [DecidableEq ι]

namespace World

def note (w : World ι) (e : Event ι) : World ι := { w with log := w.log ++ [e] }

def put (w : World ι) (me : ι) (i : Instance) : World ι := { w with inst := update w.inst me i }

def setNX (w : World ι) (me : ι) : World ι × Reply ι :=
  match w.key with
  | some _ => (w, .no)
  | none => ({ w with key := some ⟨me, w.writes⟩, writes := w.writes + 1 }, .lease ⟨me, w.writes⟩)

def expire (w : World ι) (me : ι) : World ι × Reply ι :=
  match w.key with
  | none => (w, .no)
  | some l => (w.note (.extended me l), .lease l)

def ifOwner (w : World ι) (me : ι) (act : Lease ι → World ι) : World ι × Reply ι :=
  match w.key with
  | none => (w, .no)
  | some l => if l.owner = me then (act l, .yes) else (w, .no)

def markDraining (w : World ι) (me : ι) (trigger : Trigger) : World ι × Reply ι :=
  match (w.inst me).draining with
  | some _ => (w, .no)
  | none => (w.put me { w.inst me with draining := some ⟨trigger, none⟩ }, .yes)

def unmarkDraining (w : World ι) (me : ι) (cause : Unmark) : World ι :=
  let w' := w.put me { w.inst me with draining := none }
  match cause with
  | .undo => w'
  | .finish deleted => w'.note (.finished me deleted w.key)

def hold (w : World ι) (me : ι) (l : Lease ι) : World ι :=
  ((w.put me { w.inst me with claimed := some w.now }).note (.confirmed me l)).note (.held me (w.inst me).lastRenewedAt)

def adopt (w : World ι) (me : ι) (l : Lease ι) : World ι × Reply ι :=
  match (w.inst me).claimed with
  | some _ => (w, .yes)
  | none => (w.hold me l, .no)

def markRenewed (w : World ι) (me : ι) (now : Nat) (l : Lease ι) : World ι :=
  ((w.put me { w.inst me with lastRenewedAt := some now }).note (.confirmed me l)).note (.renewed me now)

def renewStalled (claimTTL : Nat) (w : World ι) (me : ι) (now : Nat) : World ι × Reply ι :=
  match (w.inst me).lastRenewedAt with
  | none => ((w.put me { w.inst me with lastRenewedAt := some now }).note (.failedPass me now false), .no)
  | some last =>
    if last + claimTTL ≤ now then (w.note (.failedPass me now true), .yes) else (w.note (.failedPass me now false), .no)

def drained (w : World ι) (me : ι) : World ι × Reply ι :=
  if (w.inst me).drains = 0 then (w, .no)
  else (w.put me { w.inst me with drains := (w.inst me).drains - 1 }, .yes)

end World

def Reply.ofBool (b : Bool) : Reply ι := if b then .yes else .no

/-- An operation of an instance's: on the key in Redis, or on its own maps. -/
def apply (claimTTL : Nat) (w : World ι) (me : ι) : Op ι → World ι × Reply ι
  | .setNX => w.setNX me
  | .owner _ => (w, match w.key with
    | some l => .lease l
    | none => .no)
  | .expire _ => w.expire me
  | .releaseIfOwner => w.ifOwner me fun _ => { w with key := none }
  | .extendIfOwner => w.ifOwner me fun l => w.note (.extended me l)
  | .isDraining _ => (w, .ofBool (w.inst me).draining.isSome)
  | .markDraining trigger => w.markDraining me trigger
  | .unmarkDraining cause => (w.unmarkDraining me cause, .yes)
  | .setDeadline budget =>
    (w.put me { w.inst me with
      draining := (w.inst me).draining.map fun d => { d with deadline := some (w.now + budget) } }, .yes)
  | .insertClaimed l => (w.hold me l, .yes)
  | .adopt l => w.adopt me l
  | .deleteClaimed => (w.put me { w.inst me with claimed := none }, .claimedAt (w.inst me).claimed)
  | .restoreClaimed claimedAt => (w.put me { w.inst me with claimed := some claimedAt }, .yes)
  | .isClaimed _ => (w, .ofBool (w.inst me).claimed.isSome)
  | .markRenewed now l => (w.markRenewed me now l, .yes)
  | .renewStalled now => w.renewStalled claimTTL me now
  | .deleteRenewed => ((w.put me { w.inst me with lastRenewedAt := none }).note (.forgotten me), .yes)
  | .clock => (w, .time w.now)
  | .onClaim => (w.note (.started me (w.inst me).draining.isSome), .yes)
  | .onRelease _ => (w.put me { w.inst me with drains := (w.inst me).drains + 1 }, .yes)
  | .drained => w.drained me

/-- Faults reach the store's commands and the callbacks, never what is done under the instance's lock. -/
def exec (claimTTL : Nat) (w : World ι) (q : ι × Op ι) (fault : Fault) : World ι × Reply ι :=
  match q.2.kind, fault with
  | _, .ok | .locked, _ => apply claimTTL w q.1 q.2
  | .store, .refused | .onRelease, _ => (w, .failed)
  | .store, .lost | .onClaim, _ => ((apply claimTTL w q.1 q.2).1, .failed)

/-! ## The functions of the claimer -/

abbrev Thread (ι : Type) := Prog (ι × Op ι) (Reply ι)

variable (me : ι)

def undoRelease (was : Reply ι) (k : Thread ι) : Thread ι :=
  let unmarked : Thread ι := .op (me, .unmarkDraining .undo) fun _ => k
  match was with
  | .claimedAt (some t) => .op (me, .restoreClaimed t) fun _ => unmarked
  | _ => unmarked

def release (trigger : Trigger) (k : Thread ι) : Thread ι :=
  .op (me, .markDraining trigger) fun
    | .yes => .op (me, .deleteClaimed) fun was =>
      .op (me, .onRelease trigger) fun
        | .yes => k
        | _ => undoRelease me was k
    | _ => k

def releaseLost (trigger : Trigger) (k : Thread ι) : Thread ι :=
  .op (me, .markDraining trigger) fun
    | .yes => .op (me, .deleteClaimed) fun _ => .op (me, .deleteRenewed) fun _ =>
      .op (me, .onRelease trigger) fun
        | .yes => k
        | _ => undoRelease me (.claimedAt none) k
    | _ => k

def startSupplier (k : Bool → Thread ι) : Thread ι :=
  .op (me, .onClaim) fun
    | .yes => k true
    | _ => release me .claimCallbackFailed (k false)

def adoptLease (l : Lease ι) (k : Bool → Thread ι) : Thread ι :=
  .op (me, .adopt l) fun
    -- A renewal of a supplier this instance runs.
    | .yes => k true
    | _ => startSupplier me k

def tryAdopt (k : Bool → Thread ι) : Thread ι :=
  .op (me, .isDraining true) fun
    | .yes => k false
    | _ => .op (me, .expire none) fun
      | .lease l => adoptLease me l k
      | _ => k false

def tryClaim (k : Bool → Thread ι) : Thread ι :=
  .op (me, .isDraining false) fun
    | .yes => k false
    | _ => .op (me, .setNX) fun
      | .lease l => .op (me, .insertClaimed l) fun _ => startSupplier me k
      | .no => .op (me, .owner none) fun
        | .lease l => if l.owner = me then tryAdopt me k else k false
        | _ => k false
      | _ => k false

def reclaim (look : Look) : Thread ι :=
  .op (me, .isClaimed look) fun
    | .yes => tryClaim me fun
      | true => .ret
      | false => releaseLost me .leaseExpired .ret
    | _ => .ret

def renewFailed (now : Nat) : Thread ι :=
  .op (me, .renewStalled now) fun
    | .yes => releaseLost me .renewStalled .ret
    | _ => .ret

def renew (now : Nat) : Thread ι :=
  .op (me, .isClaimed (.beforeExpire now)) fun
    | .yes => .op (me, .expire (some now)) fun
      | .lease l => .op (me, .markRenewed now l) fun _ => .ret
      | .no => reclaim me .keyDisappeared
      | _ => renewFailed me now
    | _ => .ret

def renewAllClaims : Thread ι :=
  .op (me, .isClaimed .snapshot) fun
    | .yes => .op (me, .clock) fun
      | .time now => .op (me, .owner (some now)) fun
        | .no => reclaim me .keyAbsent
        | .lease l => if l.owner = me then renew me now else releaseLost me .leaseStolen .ret
        | _ => renewFailed me now
      | _ => .ret
    | _ => .ret

def finishRelease : Thread ι :=
  .op (me, .drained) fun
    | .yes => .op (me, .releaseIfOwner) fun r =>
      .op (me, .unmarkDraining (.finish (r ≠ .failed))) fun _ => .ret
    | _ => .ret

def extendDrainLease (budget : Nat) : Thread ι :=
  .op (me, .setDeadline budget) fun _ => .op (me, .extendIfOwner) fun _ => .ret

inductive Call (ι : Type) where
  | tryClaim (me : ι)
  | renewAllClaims (me : ι)
  | release (me : ι) (trigger : Trigger)
  | extendDrainLease (me : ι) (budget : Nat)
  | finishRelease (me : ι)

def Call.caller {ι : Type} : Call ι → ι
  | .tryClaim me | .renewAllClaims me | .release me _ | .extendDrainLease me _ | .finishRelease me => me

def Call.body : Call ι → Thread ι
  | .tryClaim me => Claimer.tryClaim me fun _ => .ret
  | .renewAllClaims me => Claimer.renewAllClaims me
  | .release me trigger => Claimer.release me trigger .ret
  | .extendDrainLease me budget => Claimer.extendDrainLease me budget
  | .finishRelease me => Claimer.finishRelease me

inductive Env where
  | tick (t : Nat)
  | keyExpires

def happen (w : World ι) : Env → World ι
  | .tick t => { w with now := w.now + t }
  | .keyExpires => { w with key := none }

abbrev Fleet (ι : Type) := Conf (World ι) (ι × Op ι) (Reply ι)

inductive Act (ι : Type) where
  | start (i : Nat) (c : Call ι)
  | next (i : Nat) (fault : Fault)
  | env (e : Env)

def Act.move : Act ι → Move (Call ι) Fault Env
  | .start i c => .start i c
  | .next i fault => .next i fault
  | .env e => .env e

def step (claimTTL : Nat) (c : Fleet ι) (a : Act ι) : Fleet ι := stepCalls Call.body (exec claimTTL) happen c a.move

def idle : Fleet ι := ⟨{}, fun _ => .ret⟩

end

/-! ## The order of the sections -/

section

variable {ι : Type} (me : ι)

def Leads (o : Op ι) (r : Reply ι) : Op ι → Prop
  | .insertClaimed l => o = .setNX ∧ r = .lease l
  | .owner (some now) => o = .clock ∧ r = .time now
  | .isDraining true => o = .owner none ∧ ∃ l, r = .lease l ∧ l.owner = me
  | .expire none => o = .isDraining true ∧ r ≠ .yes
  | .isClaimed (.beforeExpire now) => o = .owner (some now) ∧ ∃ l, r = .lease l ∧ l.owner = me
  | .expire (some now) => o = .isClaimed (.beforeExpire now)
  | .renewStalled now => o = .owner (some now) ∨ o = .expire (some now)
  | .adopt l => o = .expire none ∧ r = .lease l
  | .markRenewed now l => o = .expire (some now) ∧ r = .lease l
  | .onClaim => (∃ l, o = .insertClaimed l) ∨ ∃ l, o = .adopt l ∧ r ≠ .yes
  | .deleteClaimed => (∃ trigger, o = .markDraining trigger) ∧ r = .yes
  | .deleteRenewed => o = .deleteClaimed
  | .onRelease _ => o = .deleteClaimed ∨ o = .deleteRenewed
  | .restoreClaimed _ => (∃ trigger, o = .onRelease trigger) ∧ r ≠ .yes
  | .unmarkDraining .undo => ((∃ trigger, o = .onRelease trigger) ∧ r ≠ .yes) ∨ ∃ t, o = .restoreClaimed t
  | .releaseIfOwner => o = .drained ∧ r = .yes
  | .unmarkDraining (.finish deleted) => o = .releaseIfOwner ∧ (deleted = true → r ≠ .failed)
  | _ => True

def due : Op ι → Reply ι → Option (Op ι)
  | .markDraining _, .yes => some .deleteClaimed
  | .restoreClaimed _, _ => some (.unmarkDraining .undo)
  | .renewStalled _, .yes => some (.markDraining .renewStalled)
  | _, _ => none

def Flow (q : ι × Op ι) (r : Reply ι) (next : Option (ι × Op ι)) : Prop :=
  (∀ q' ∈ next, q'.1 = q.1 ∧ Leads q.1 q.2 r q'.2) ∧ ∀ o' ∈ due q.2 r, next = some (q.1, o')

variable {me} {o o' : Op ι} {r : Reply ι}

theorem flow_op (h : Leads me o r o') (hd : ∀ o'' ∈ due o r, o'' = o') : Flow (me, o) r (some (me, o')) := by
  refine ⟨?_, fun o'' ho'' => by rw [hd o'' ho'']⟩
  rintro q' ⟨⟩
  exact ⟨rfl, h⟩

theorem flow_ret (h : due o r = none) : Flow (me, o) r none := ⟨nofun, by simp [h]⟩

structure Loose (me : ι) (k : Thread ι) : Prop where
  follows : k.Follows Flow
  starts : ∀ o r, due o r = none → Flow (me, o) r k.next?

theorem Loose.after {k : Thread ι} (h : Loose me k) (hd : due o r = none) :
    k.Follows Flow ∧ Flow (me, o) r k.next? :=
  ⟨h.follows, h.starts o r hd⟩

/-- What such a thread makes first takes nothing for granted. -/
theorem Loose.leads {k : Thread ι} (h : Loose me k) {q : ι × Op ι} (hq : q ∈ k.next?) : Leads me .clock .failed q.2 :=
  ((h.starts .clock .failed rfl).1 q hq).2

theorem Loose.ret : Loose me .ret := ⟨trivial, fun _ _ => flow_ret⟩

theorem Loose.op {k : Reply ι → Thread ι} (h : ∀ o r, Leads me o r o') (hk : (Prog.op (me, o') k).Follows Flow) :
    Loose me (.op (me, o') k) :=
  ⟨hk, fun o r hd => flow_op (h o r) (by simp [hd])⟩

end

section

variable {ι : Type} {me : ι} {claimTTL : Nat} {w : World ι} {k : Thread ι}

theorem follows_undoRelease (hk : Loose me k) (trigger : Trigger) (was : Reply ι) {r : Reply ι}
    (hr : r ≠ .yes) :
    (undoRelease me was k).Follows Flow ∧ Flow (me, .onRelease trigger) r (undoRelease me was k).next? := by
  have hunmark : (Prog.op (me, .unmarkDraining .undo) fun _ => k).Follows Flow :=
    fun _ => hk.after rfl
  simp only [undoRelease]
  split
  · refine ⟨fun _ => ⟨hunmark, flow_op (.inr ⟨_, rfl⟩) ?_⟩, flow_op ⟨⟨_, rfl⟩, hr⟩ nofun⟩
    rintro o'' ⟨⟩
    rfl
  · exact ⟨hunmark, flow_op (.inl ⟨⟨_, rfl⟩, hr⟩) nofun⟩

theorem loose_release (hk : Loose me k) (trigger : Trigger) : Loose me (release me trigger k) := by
  refine .op (fun _ _ => trivial) fun r => ?_
  cases r with
  | yes =>
    refine ⟨fun was => ⟨fun r => ?_, flow_op (.inl rfl) nofun⟩, flow_op ⟨⟨_, rfl⟩, rfl⟩ (by rintro o'' ⟨⟩; rfl)⟩
    cases r with
    | yes => exact hk.after rfl
    | _ => exact follows_undoRelease hk trigger was (by simp)
  | _ => exact hk.after rfl

theorem loose_releaseLost (hk : Loose me k) (trigger : Trigger) :
    Loose me (releaseLost me trigger k) := by
  refine .op (fun _ _ => trivial) fun r => ?_
  cases r with
  | yes =>
    refine ⟨fun was => ⟨fun _ => ⟨fun r => ?_, flow_op (.inr rfl) nofun⟩, flow_op rfl nofun⟩,
      flow_op ⟨⟨_, rfl⟩, rfl⟩ (by rintro o'' ⟨⟩; rfl)⟩
    cases r with
    | yes => exact hk.after rfl
    | _ => exact follows_undoRelease hk trigger _ (by simp)
  | _ => exact hk.after rfl

section

variable {k : Bool → Thread ι} (hk : ∀ b, Loose me (k b))

include hk

theorem follows_startSupplier : (startSupplier me k).Follows Flow := by
  intro r
  cases r with
  | yes => exact (hk _).after rfl
  | _ =>
    exact (loose_release (hk _) _).after rfl

theorem follows_adoptLease (l : Lease ι) : (adoptLease me l k).Follows Flow := by
  intro r
  cases r with
  | yes => exact (hk _).after rfl
  | _ =>
    exact ⟨follows_startSupplier hk, flow_op (.inr ⟨l, rfl, nofun⟩) nofun⟩

theorem follows_tryAdopt : (tryAdopt me k).Follows Flow := by
  have hexpire : (Prog.op (me, .expire none) fun
      | .lease l => adoptLease me l k
      | _ => k false : Thread ι).Follows Flow := by
    intro r
    cases r with
    | lease l => exact ⟨follows_adoptLease hk l, flow_op ⟨rfl, rfl⟩ nofun⟩
    | _ => exact (hk _).after rfl
  intro r
  cases r with
  | yes => exact (hk _).after rfl
  | _ => exact ⟨hexpire, flow_op ⟨rfl, nofun⟩ nofun⟩

end

theorem follows_renewFailed (me : ι) (now : Nat) : (renewFailed me now).Follows Flow := by
  intro r
  cases r with
  | yes => exact ⟨(loose_releaseLost .ret _).follows, flow_op trivial (by rintro o'' ⟨⟩; rfl)⟩
  | _ => exact Loose.ret.after rfl

theorem loose_extendDrainLease (me : ι) (budget : Nat) : Loose me (extendDrainLease me budget) :=
  .op (fun _ _ => trivial) fun _ => ⟨fun _ => Loose.ret.after rfl, flow_op trivial nofun⟩

variable [DecidableEq ι]

theorem loose_tryClaim {k : Bool → Thread ι} (hk : ∀ b, Loose me (k b)) : Loose me (tryClaim me k) := by
  have howner : (Prog.op (me, .owner none) fun
      | .lease l => if l.owner = me then tryAdopt me k else k false
      | _ => k false : Thread ι).Follows Flow := by
    intro r
    cases r with
    | lease l =>
      dsimp only
      by_cases hl : l.owner = me
      · rw [if_pos hl]
        exact ⟨follows_tryAdopt hk, flow_op ⟨rfl, l, rfl, hl⟩ nofun⟩
      · rw [if_neg hl]
        exact (hk _).after rfl
    | _ => exact (hk _).after rfl
  have hsetNX : (Prog.op (me, .setNX) fun
      | .lease l => .op (me, .insertClaimed l) fun _ => startSupplier me k
      | .no => .op (me, .owner none) fun
        | .lease l => if l.owner = me then tryAdopt me k else k false
        | _ => k false
      | _ => k false : Thread ι).Follows Flow := by
    intro r
    cases r with
    | lease l =>
      exact ⟨fun _ => ⟨follows_startSupplier hk, flow_op (.inl ⟨l, rfl⟩) nofun⟩, flow_op ⟨rfl, rfl⟩ nofun⟩
    | no => exact ⟨howner, flow_op trivial nofun⟩
    | _ => exact (hk _).after rfl
  refine .op (fun _ _ => trivial) fun r => ?_
  cases r with
  | yes => exact (hk _).after rfl
  | _ => exact ⟨hsetNX, flow_op trivial nofun⟩

theorem loose_reclaim (look : Look) (hlook : ∀ pass, look ≠ .beforeExpire pass) : Loose me (reclaim me look) := by
  have hk : ∀ b : Bool, Loose me (match b with
      | true => .ret
      | false => releaseLost me .leaseExpired .ret : Thread ι) := by
    intro b
    cases b with
    | true => exact .ret
    | false => exact loose_releaseLost .ret _
  refine .op (fun o r => ?_) fun r => ?_
  · cases look with
    | beforeExpire pass => exact absurd rfl (hlook pass)
    | _ => trivial
  cases r with
  | yes => exact (loose_tryClaim hk).after rfl
  | _ => exact Loose.ret.after rfl

theorem follows_renew (now : Nat) : (renew me now).Follows Flow := by
  have hexpire : (Prog.op (me, .expire (some now)) fun
      | .lease l => .op (me, .markRenewed now l) fun _ => .ret
      | .no => reclaim me .keyDisappeared
      | _ => renewFailed me now : Thread ι).Follows Flow := by
    intro r
    cases r with
    | lease l => exact ⟨fun _ => Loose.ret.after rfl, flow_op ⟨rfl, rfl⟩ nofun⟩
    | no => exact (loose_reclaim .keyDisappeared nofun).after rfl
    | _ => exact ⟨follows_renewFailed me now, flow_op (.inr rfl) nofun⟩
  intro r
  cases r with
  | yes => exact ⟨hexpire, flow_op rfl nofun⟩
  | _ => exact Loose.ret.after rfl

theorem loose_renewAllClaims (me : ι) : Loose me (renewAllClaims me) := by
  have howner : ∀ now, (Prog.op (me, .owner (some now)) fun
      | .no => reclaim me .keyAbsent
      | .lease l => if l.owner = me then renew me now else releaseLost me .leaseStolen .ret
      | _ => renewFailed me now : Thread ι).Follows Flow := by
    intro now r
    cases r with
    | no => exact (loose_reclaim .keyAbsent nofun).after rfl
    | lease l =>
      dsimp only
      by_cases hl : l.owner = me
      · rw [if_pos hl]
        exact ⟨follows_renew now, flow_op ⟨rfl, l, rfl, hl⟩ nofun⟩
      · rw [if_neg hl]
        exact (loose_releaseLost .ret _).after rfl
    | _ => exact ⟨follows_renewFailed me now, flow_op (.inl rfl) nofun⟩
  have hclock : (Prog.op (me, .clock) fun
      | .time now => .op (me, .owner (some now)) fun
        | .no => reclaim me .keyAbsent
        | .lease l => if l.owner = me then renew me now else releaseLost me .leaseStolen .ret
        | _ => renewFailed me now
      | _ => .ret : Thread ι).Follows Flow := by
    intro r
    cases r with
    | time now => exact ⟨howner now, flow_op ⟨rfl, rfl⟩ nofun⟩
    | _ => exact Loose.ret.after rfl
  refine .op (fun _ _ => trivial) fun r => ?_
  cases r with
  | yes => exact ⟨hclock, flow_op trivial nofun⟩
  | _ => exact Loose.ret.after rfl

theorem loose_finishRelease (me : ι) : Loose me (finishRelease me) := by
  refine .op (fun _ _ => trivial) fun r => ?_
  cases r with
  | yes =>
    exact ⟨fun r => ⟨fun _ => Loose.ret.after rfl, flow_op ⟨rfl, of_decide_eq_true⟩ nofun⟩, flow_op ⟨rfl, rfl⟩ nofun⟩
  | _ => exact Loose.ret.after rfl

theorem loose_body (c : Call ι) : Loose c.caller c.body := by
  cases c with
  | tryClaim me => exact loose_tryClaim fun _ => .ret
  | renewAllClaims me => exact loose_renewAllClaims me
  | release me trigger => exact loose_release .ret trigger
  | extendDrainLease me budget => exact loose_extendDrainLease me budget
  | finishRelease me => exact loose_finishRelease me

/-! ## What an operation does -/

theorem world_exec (claimTTL : Nat) (w : World ι) (q : ι × Op ι) (fault : Fault) :
    (exec claimTTL w q fault).1 = (apply claimTTL w q.1 q.2).1 ∨
      (exec claimTTL w q fault).1 = w ∧ (exec claimTTL w q fault).2 = .failed := by
  unfold exec
  split
  · exact .inl rfl
  · exact .inl rfl
  · exact .inr ⟨rfl, rfl⟩
  · exact .inr ⟨rfl, rfl⟩
  · exact .inl rfl
  · exact .inl rfl

variable {o : Op ι} {me : ι}

theorem exec_locked {fault : Fault} (h : o.kind = .locked) :
    exec claimTTL w (me, o) fault = apply claimTTL w me o := by
  cases fault <;> simp [exec, h]

theorem exec_of_answered {q : ι × Op ι} {fault : Fault} {r : Reply ι} (h : (exec claimTTL w q fault).2 = r)
    (hr : r ≠ .failed) : exec claimTTL w q fault = apply claimTTL w q.1 q.2 := by
  subst h
  unfold exec at hr ⊢
  split at hr
  · rfl
  · rfl
  · exact absurd rfl hr
  · exact absurd rfl hr
  · exact absurd rfl hr
  · exact absurd rfl hr

def Op.after (now : Nat) (i : Instance) : Op ι → Instance
  | .markDraining trigger => { i with draining := some (i.draining.getD ⟨trigger, none⟩) }
  | .unmarkDraining _ => { i with draining := none }
  | .setDeadline budget => { i with draining := i.draining.map fun d => { d with deadline := some (now + budget) } }
  | .insertClaimed _ => { i with claimed := some now }
  | .adopt _ => { i with claimed := some (i.claimed.getD now) }
  | .deleteClaimed => { i with claimed := none }
  | .restoreClaimed t => { i with claimed := some t }
  | .markRenewed now _ => { i with lastRenewedAt := some now }
  | .renewStalled now => { i with lastRenewedAt := some (i.lastRenewedAt.getD now) }
  | .deleteRenewed => { i with lastRenewedAt := none }
  | .onRelease _ => { i with drains := i.drains + 1 }
  | .drained => { i with drains := i.drains - 1 }
  | _ => i

def Op.noted (claimTTL : Nat) (w : World ι) (me : ι) : Op ι → List (Event ι)
  | .expire _ => (w.key.map (.extended me)).toList
  | .extendIfOwner => ((w.key.filter (·.owner = me)).map (.extended me)).toList
  | .unmarkDraining (.finish deleted) => [.finished me deleted w.key]
  | .insertClaimed l => [.confirmed me l, .held me (w.inst me).lastRenewedAt]
  | .adopt l => if (w.inst me).claimed.isSome then [] else [.confirmed me l, .held me (w.inst me).lastRenewedAt]
  | .markRenewed now l => [.confirmed me l, .renewed me now]
  | .renewStalled now => [.failedPass me now ((w.inst me).lastRenewedAt.any (· + claimTTL ≤ now))]
  | .deleteRenewed => [.forgotten me]
  | .onClaim => [.started me (w.inst me).draining.isSome]
  | _ => []

structure Op.Does (claimTTL : Nat) (w : World ι) (me : ι) (o : Op ι) (w' : World ι) : Prop where
  now : w'.now = w.now
  key : w'.key = w.key ∨ (o = .setNX ∧ w.key = none ∧ w'.key = some ⟨me, w.writes⟩) ∨ w'.key = none
  inst : w'.inst = update w.inst me (o.after w.now (w.inst me))
  log : w'.log = w.log ++ o.noted claimTTL w me

/-- The operation finds the instance as it would make it, and notes nothing. -/
theorem Op.Does.refl (ha : o.after w.now (w.inst me) = w.inst me)
    (hn : o.noted claimTTL w me = []) : o.Does claimTTL w me w :=
  ⟨rfl, .inl rfl, by rw [ha, update_eq_self], by rw [hn, List.append_nil]⟩

attribute [local simp] Op.noted World.note World.put World.hold

theorem apply_does (claimTTL : Nat) (w : World ι) (me : ι) (o : Op ι) :
    o.Does claimTTL w me (apply claimTTL w me o).1 := by
  have hself : w.inst = update w.inst me (w.inst me) := (update_eq_self me w.inst).symm
  have hnil : w.log = w.log ++ [] := (List.append_nil _).symm
  cases o with
  | setNX =>
    simp only [apply, World.setNX]
    split
    · exact .refl rfl rfl
    · next h => exact ⟨rfl, .inr (.inl ⟨rfl, h, rfl⟩), hself, hnil⟩
  | expire pass =>
    simp only [apply, World.expire]
    split
    · next h => exact .refl rfl (by simp [h])
    · next h => exact ⟨rfl, .inl rfl, hself, by simp [h]⟩
  | releaseIfOwner =>
    simp only [apply, World.ifOwner]
    split
    · exact .refl rfl rfl
    split
    · exact ⟨rfl, .inr (.inr rfl), hself, hnil⟩
    · exact .refl rfl rfl
  | extendIfOwner =>
    simp only [apply, World.ifOwner]
    split
    · next h => exact .refl rfl (by simp [h])
    next h =>
    split
    · next hown => exact ⟨rfl, .inl rfl, hself, by simp [h, hown, Option.filter_some]⟩
    · next hown => exact .refl rfl (by simp [h, hown, Option.filter_some])
  | markDraining trigger =>
    simp only [apply, World.markDraining]
    split
    · next h => exact .refl (by rw [Op.after, h, Option.getD_some, ← h]) rfl
    · next h => exact ⟨rfl, .inl rfl, by simp [Op.after, h], hnil⟩
  | unmarkDraining cause =>
    cases cause with
    | undo => exact ⟨rfl, .inl rfl, rfl, hnil⟩
    | finish deleted => exact ⟨rfl, .inl rfl, rfl, rfl⟩
  | adopt l =>
    simp only [apply, World.adopt]
    split
    · next h => exact .refl (by rw [Op.after, h, Option.getD_some, ← h]) (by simp [h])
    next h =>
    refine ⟨rfl, .inl rfl, ?_, ?_⟩
    · simp [Op.after, h]
    · simp [h]
  | renewStalled now =>
    simp only [apply, World.renewStalled]
    split
    · next h =>
      refine ⟨rfl, .inl rfl, ?_, ?_⟩
      · simp [Op.after, h]
      · simp [h]
    next h =>
    have hinst : w.inst = update w.inst me (Op.after w.now (w.inst me) (.renewStalled now : Op ι)) := by
      rw [Op.after, h, Option.getD_some, ← h]
      exact hself
    split
    · next hle => exact ⟨rfl, .inl rfl, hinst, by simp [h, hle]⟩
    · next hle => exact ⟨rfl, .inl rfl, hinst, by simpa [h] using hle⟩
  | drained =>
    simp only [apply, World.drained]
    split
    · next h => exact .refl (by rw [Op.after, h, Nat.zero_sub, ← h]) rfl
    · exact ⟨rfl, .inl rfl, rfl, hnil⟩
  | _ =>
    exact ⟨rfl, .inl rfl, by simp [apply, Op.after, World.markRenewed],
      by simp [apply, World.markRenewed]⟩

theorem key_exec (claimTTL : Nat) (w : World ι) (me : ι) (o : Op ι) (fault : Fault) :
    (exec claimTTL w (me, o) fault).1.key = w.key ∨
      (o = .setNX ∧ w.key = none ∧ fault ≠ .refused ∧ (exec claimTTL w (me, o) fault).1.key = some ⟨me, w.writes⟩) ∨
      (exec claimTTL w (me, o) fault).1.key = none := by
  rcases world_exec claimTTL w (me, o) fault with h | ⟨h, -⟩
  · rcases (apply_does claimTTL w me o).key with hk | ⟨rfl, hnone, hk⟩ | hk
    · exact .inl (by rw [h, hk])
    · cases fault with
      | refused => exact .inl rfl
      | ok | lost => exact .inr (.inl ⟨rfl, hnone, nofun, by rw [h, hk]⟩)
    · exact .inr (.inr (by rw [h, hk]))
  · exact .inl (by rw [h])

def Op.Caused (claimTTL : Nat) (w : World ι) (me : ι) (o : Op ι) : Event ι → Prop
  | .extended who l => who = me ∧ w.key = some l ∧ ((∃ pass, o = .expire pass) ∨ l.owner = me)
  | .confirmed who l => who = me ∧ (o = .insertClaimed l ∨ o = .adopt l ∨ ∃ now, o = .markRenewed now l)
  | .started who draining => who = me ∧ o = .onClaim ∧ draining = (w.inst me).draining.isSome
  | .finished who deleted key => who = me ∧ o = .unmarkDraining (.finish deleted) ∧ key = w.key
  | .failedPass who t reported =>
    who = me ∧ o = .renewStalled t ∧ reported = (w.inst me).lastRenewedAt.any (· + claimTTL ≤ t)
  | .held who _ | .renewed who _ | .forgotten who => who = me

theorem caused_of_noted {e : Event ι} (he : e ∈ o.noted claimTTL w me) :
    o.Caused claimTTL w me e := by
  cases o with
  | expire pass =>
    obtain ⟨l, hl, rfl⟩ : ∃ l, w.key = some l ∧ .extended me l = e := by simpa using he
    exact ⟨rfl, hl, .inl ⟨pass, rfl⟩⟩
  | extendIfOwner =>
    obtain ⟨l, ⟨hl, hown⟩, rfl⟩ : ∃ l, (w.key = some l ∧ l.owner = me) ∧ .extended me l = e := by
      simpa using he
    exact ⟨rfl, hl, .inr hown⟩
  | insertClaimed l =>
    obtain rfl | rfl : e = .confirmed me l ∨ e = .held me (w.inst me).lastRenewedAt := by simpa using he
    · exact ⟨rfl, .inl rfl⟩
    · rfl
  | adopt l =>
    obtain ⟨-, rfl | rfl⟩ : (w.inst me).claimed = none ∧ (e = .confirmed me l ∨ e = .held me (w.inst me).lastRenewedAt) := by
      simpa using he
    · exact ⟨rfl, .inr (.inl rfl)⟩
    · rfl
  | markRenewed now l =>
    obtain rfl | rfl : e = .confirmed me l ∨ e = .renewed me now := by simpa using he
    · exact ⟨rfl, .inr (.inr ⟨now, rfl⟩)⟩
    · rfl
  | unmarkDraining cause =>
    cases cause with
    | undo => cases he
    | finish deleted =>
      rw [List.mem_singleton.1 he]
      exact ⟨rfl, rfl, rfl⟩
  | onClaim | renewStalled now =>
    rw [List.mem_singleton.1 he]
    exact ⟨rfl, rfl, rfl⟩
  | deleteRenewed =>
    rw [List.mem_singleton.1 he]
    rfl
  | _ => cases he

/-- A fact about all events is kept by an operation that causes only events that have it. -/
theorem log_exec {Q : Event ι → Prop} (h : ∀ e ∈ w.log, Q e)
    (hQ : ∀ e, o.Caused claimTTL w me e → Q e) (fault : Fault) :
    ∀ e ∈ (exec claimTTL w (me, o) fault).1.log, Q e := by
  rcases world_exec claimTTL w (me, o) fault with hw | ⟨hw, -⟩
  · rw [hw, (apply_does _ _ _ _).log]
    exact List.forall_mem_append.2 ⟨h, fun e hnew => hQ e (caused_of_noted hnew)⟩
  · rw [hw]
    exact h

theorem inst_exec_of_ne (claimTTL : Nat) (w : World ι) {me him : ι} (h : him ≠ me) (o : Op ι) (fault : Fault) :
    (exec claimTTL w (me, o) fault).1.inst him = w.inst him := by
  rcases world_exec claimTTL w (me, o) fault with hw | ⟨hw, -⟩
  · rw [hw, (apply_does _ _ _ _).inst, update_of_ne h]
  · rw [hw]

theorem inst_exec (claimTTL : Nat) (w : World ι) (me : ι) (o : Op ι) (fault : Fault) :
    (exec claimTTL w (me, o) fault).1.inst me = o.after w.now (w.inst me) ∨
      (exec claimTTL w (me, o) fault).1.inst me = w.inst me ∧ (exec claimTTL w (me, o) fault).2 = .failed := by
  rcases world_exec claimTTL w (me, o) fault with hw | ⟨hw, hr⟩
  · exact .inl (by rw [hw, (apply_does _ _ _ _).inst, update_self])
  · exact .inr ⟨by rw [hw], hr⟩

theorem step_cases (claimTTL : Nat) (c : Fleet ι) (a : Act ι) :
    step claimTTL c a = c ∨
    (∃ i k, c.calls i = .ret ∧ step claimTTL c a = { c with calls := update c.calls i (Call.body k) }) ∨
    (∃ i fault me o k, a = .next i fault ∧ c.calls i = .op (me, o) k ∧
      step claimTTL c a = ⟨(exec claimTTL c.store (me, o) fault).1,
        update c.calls i (k (exec claimTTL c.store (me, o) fault).2)⟩) ∨
    ∃ e, step claimTTL c a = { c with store := happen c.store e } := by
  rcases stepCalls_cases Call.body (exec claimTTL) happen c a.move with
    he | ⟨i, k, -, hi, he⟩ | ⟨i, fault, ⟨me, o⟩, k, hmove, hi, he⟩ | ⟨i, hmove, -⟩ | ⟨e, -, he⟩
  · exact .inl he
  · exact .inr (.inl ⟨i, k, hi, he⟩)
  · refine .inr (.inr (.inl ⟨i, fault, me, o, k, ?_, hi, he⟩))
    cases a with
    | start | env => cases hmove
    | next i' fault' =>
      cases hmove
      rfl
  · cases a <;> cases hmove
  · exact .inr (.inr (.inr ⟨e, he⟩))

end

end RelayMiner.Claimer
