import RelayMiner.Relayer.Meter
/-!
# The session monitor

One monitor serves every WebSocket bridge and holds one session end for all of
them. A bridge takes its own end from the first frame that passes the identity
gate, before the frame is validated, and registers with it. A check reads the
monitor's end, compares it with the height and notifies the bridges of that end,
and then resets it: three sections under two locks, and bridges come and go
between them.
-/

namespace RelayMiner.Relayer.SessionMonitor

open List

open Lib Meter Function

inductive Check where
  | idle
  | read (sessionEndHeight : Int)
  | notified (height : Int)

structure World (B : Type) where
  currentSessionEnd : Int := 0
  bridges : List B := []
  sessionEndHeight : B → Int := fun _ => 0
  height : Int := 0
  check : Check := .idle
  notified : List (B × Int) := []
  ended : Option Int := none

inductive Act (B : Type) where
  | block (blocks : Nat)
  /-- A frame with a session header of this end passes the identity gate. -/
  | handleGatewayMessage (bridge : B) (sessionEndBlockHeight : Int)
  | unregisterBridge (bridge : B)
  | checkSessionExpiration

section

variable {B : Type}

def World.registerBridge [DecidableEq B] (w : World B) (bridge : B) (sessionEndHeight : Int) : World B :=
  { w with
    bridges := w.bridges.insert bridge
    currentSessionEnd := if sessionEndHeight > w.currentSessionEnd then sessionEndHeight else w.currentSessionEnd }

def World.handleGatewayMessage [DecidableEq B] (w : World B) (bridge : B) (sessionEndBlockHeight : Int) : World B :=
  if w.sessionEndHeight bridge = 0 then
    { w with sessionEndHeight := update w.sessionEndHeight bridge sessionEndBlockHeight }.registerBridge
      bridge sessionEndBlockHeight
  else w

def graceEndHeight (gracePeriodBlocks sessionEndHeight : Int) : Int := int64 (sessionEndHeight + gracePeriodBlocks)

def World.ofSession (w : World B) (sessionEndHeight : Int) : List B :=
  w.bridges.filter fun b => w.sessionEndHeight b = sessionEndHeight

def World.checkSessionExpiration (gracePeriodBlocks : Int) (w : World B) : World B :=
  match w.check with
  | .idle =>
    if w.currentSessionEnd = 0 then { w with ended := some w.height }
    else { w with check := .read w.currentSessionEnd }
  | .read sessionEndHeight =>
    if w.height > graceEndHeight gracePeriodBlocks sessionEndHeight then
      { w with
        check := .notified w.height
        notified := w.notified ++ (w.ofSession sessionEndHeight).map (·, w.height) }
    else { w with check := .idle, ended := some w.height }
  | .notified height => { w with check := .idle, currentSessionEnd := 0, ended := some height }

/-- `ended` says which bridges this step has closed. -/
def step [DecidableEq B] (gracePeriodBlocks : Int) (w : World B) (a : Act B) : World B :=
  let w := { w with ended := none }
  match a with
  | .block blocks => { w with height := w.height + blocks }
  | .handleGatewayMessage b e => w.handleGatewayMessage b e
  | .unregisterBridge b => { w with bridges := w.bridges.filter (· ≠ b) }
  | .checkSessionExpiration => w.checkSessionExpiration gracePeriodBlocks

def World.isNotified (w : World B) (b : B) : Prop := b ∈ w.notified.map Prod.fst

instance [DecidableEq B] (w : World B) (b : B) : Decidable (w.isNotified b) := inferInstanceAs (Decidable (_ ∈ _))

/-- The check that has just ended left no bridge behind whose grace period is
past, and no bridge was ever notified within its grace period. -/
def Reaches (gracePeriodBlocks : Int) (w : World B) : Prop :=
  (∀ height ∈ w.ended, ∀ b ∈ w.bridges, w.sessionEndHeight b + gracePeriodBlocks < height → w.isNotified b) ∧
  ∀ p ∈ w.notified, w.sessionEndHeight p.1 + gracePeriodBlocks < p.2

instance [DecidableEq B] (grace : Int) (w : World B) : Decidable (Reaches grace w) := inferInstanceAs (Decidable (_ ∧ _))

def Check.Open (sessionEndHeight : Int) : Check → Prop
  | .idle => True
  | .read e => e = sessionEndHeight
  | .notified _ => False

instance (e : Int) (c : Check) : Decidable (c.Open e) := by
  cases c <;> simp only [Check.Open] <;> infer_instance

structure InStep (gracePeriodBlocks : Int) (w : World B) (sessionEndHeight : Int) : Prop where
  pos : 0 < sessionEndHeight
  fits : IsInt64 (sessionEndHeight + gracePeriodBlocks)
  newest : w.currentSessionEnd ≤ sessionEndHeight
  shared : ∀ b ∈ w.bridges, ¬ w.isNotified b → w.sessionEndHeight b = sessionEndHeight
  check : w.check.Open sessionEndHeight

instance [DecidableEq B] (grace : Int) (w : World B) (e : Int) : Decidable (InStep grace w e) :=
  decidable_of_iff (0 < e ∧ IsInt64 (e + grace) ∧ w.currentSessionEnd ≤ e ∧
      (∀ b ∈ w.bridges, ¬ w.isNotified b → w.sessionEndHeight b = e) ∧ w.check.Open e)
    ⟨fun ⟨h₁, h₂, h₃, h₄, h₅⟩ => ⟨h₁, h₂, h₃, h₄, h₅⟩, fun h => ⟨h.pos, h.fits, h.newest, h.shared, h.check⟩⟩

/-- Sessions are globally synchronized, as the monitor supposes: an end that is
registered is the one the waiting bridges have. -/
def Synchronized (gracePeriodBlocks : Int) (w : World B) : Act B → Prop
  | .handleGatewayMessage b e => w.sessionEndHeight b = 0 → InStep gracePeriodBlocks w e
  | _ => True

instance [DecidableEq B] (grace : Int) (w : World B) : ∀ a, Decidable (Synchronized grace w a)
  | .handleGatewayMessage b e => inferInstanceAs (Decidable (w.sessionEndHeight b = 0 → InStep grace w e))
  | .block _ | .unregisterBridge _ | .checkSessionExpiration => isTrue trivial

/-! ## The invariant -/

structure Inv (grace : Int) (w : World B) : Prop where
  waiting : ∀ b ∈ w.bridges, ¬ w.isNotified b → w.sessionEndHeight b = w.currentSessionEnd ∧ 0 < w.currentSessionEnd
  fits : w.currentSessionEnd ≠ 0 → IsInt64 (w.currentSessionEnd + grace)
  reading : ∀ e, w.check = .read e → e = w.currentSessionEnd ∧ e ≠ 0
  sent : ∀ height, w.check = .notified height → ∀ b ∈ w.bridges, w.isNotified b
  elapsed : ∀ p ∈ w.notified, w.sessionEndHeight p.1 ≠ 0 ∧ w.sessionEndHeight p.1 + grace < p.2
  reached : ∀ height ∈ w.ended, ∀ b ∈ w.bridges, w.sessionEndHeight b + grace < height → w.isNotified b

theorem inv_init (grace : Int) : Inv grace ({} : World B) where
  waiting := nofun
  fits h := absurd rfl h
  reading := nofun
  sent := nofun
  elapsed := nofun
  reached := nofun

variable {grace : Int} {w : World B}

theorem inv_begin (h : Inv grace w) : Inv grace { w with ended := none } :=
  { h with reached := nofun }

theorem inv_unregisterBridge [DecidableEq B] (h : Inv grace w) (b : B) :
    Inv grace { w with bridges := w.bridges.filter (· ≠ b) } :=
  { h with
    waiting := fun b' hb' => h.waiting b' (mem_filter.1 hb').1
    sent := fun height hc b' hb' => h.sent height hc b' (mem_filter.1 hb').1
    reached := fun height he b' hb' => h.reached height he b' (mem_filter.1 hb').1 }

variable {e : Int}

/-- In step with the monitor, a registration makes the monitor's end the bridge's own. -/
theorem InStep.currentSessionEnd (h : InStep grace w e) :
    (if e > w.currentSessionEnd then e else w.currentSessionEnd) = e := by
  have := h.newest
  split_ifs <;> omega

theorem inv_handleGatewayMessage [DecidableEq B] (h : Inv grace w) (hended : w.ended = none) {b : B}
    (hs : w.sessionEndHeight b = 0 → InStep grace w e) : Inv grace (w.handleGatewayMessage b e) := by
  unfold World.handleGatewayMessage
  split_ifs with hb
  · have hin := hs hb
    have hother : ∀ b', b' ≠ b → update w.sessionEndHeight b e b' = w.sessionEndHeight b' :=
      fun b' hne => update_of_ne hne _ _
    unfold World.registerBridge
    rw [hin.currentSessionEnd]
    exact {
      waiting := by
        intro b' hb' hn
        refine ⟨?_, hin.pos⟩
        by_cases heq : b' = b
        · subst heq
          exact update_self ..
        · exact (hother b' heq).trans (hin.shared b' ((mem_insert_iff.1 hb').resolve_left heq) hn)
      fits := fun _ => hin.fits
      reading := by
        intro e' hc
        have hopen := hin.check
        rw [show w.check = .read e' from hc] at hopen
        exact ⟨hopen, fun h0 => (h.reading e' hc).2 h0⟩
      sent := by
        intro height hc
        have hopen := hin.check
        rw [show w.check = .notified height from hc] at hopen
        exact hopen.elim
      elapsed := by
        -- A bridge that was notified had an end, so the frame's bridge is not one of them.
        intro p hp
        have hne : p.1 ≠ b := fun heq => (h.elapsed p hp).1 (heq ▸ hb)
        have hp' := h.elapsed p hp
        rwa [← hother _ hne] at hp'
      reached := by
        intro height he
        rw [show w.ended = some height from he] at hended
        cases hended }
  · exact h

/-- Nobody waits while the monitor holds no session. -/
theorem isNotified_of_no_session (h : Inv grace w) (h0 : w.currentSessionEnd = 0) {b : B} (hb : b ∈ w.bridges) :
    w.isNotified b := by
  by_contra hn
  have := (h.waiting b hb hn).2
  omega

theorem isNotified_append {b : B} (l : List (B × Int)) :
    { w with notified := w.notified ++ l }.isNotified b ↔ w.isNotified b ∨ b ∈ l.map Prod.fst := by
  simp only [World.isNotified, map_append, mem_append]

theorem mem_ofSession {b : B} : b ∈ w.ofSession e ↔ b ∈ w.bridges ∧ w.sessionEndHeight b = e := by
  simp [World.ofSession]

section
variable (h : Inv grace w)
include h

/-- A check that has read the end compares the height with its grace end as integers. -/
theorem graceEndHeight_of_reading (hc : w.check = .read e) :
    graceEndHeight grace e = w.currentSessionEnd + grace := by
  obtain ⟨rfl, hne⟩ := h.reading e hc
  exact int64_eq (h.fits hne)

/-- The session is over: all that waited are of it, and are notified. -/
theorem inv_notifyBridges (hended : w.ended = none) (hc : w.check = .read e)
    (hlt : graceEndHeight grace e < w.height) :
    Inv grace { w with
      check := .notified w.height, notified := w.notified ++ (w.ofSession e).map (·, w.height) } := by
  obtain ⟨rfl, hne⟩ := h.reading e hc
  rw [graceEndHeight_of_reading h hc] at hlt
  have hall : ∀ b ∈ w.bridges,
      { w with notified := w.notified ++ (w.ofSession w.currentSessionEnd).map (·, w.height) }.isNotified b := by
    intro b hb
    rw [isNotified_append, map_map]
    by_cases hn : w.isNotified b
    · exact .inl hn
    · refine .inr (mem_map.2 ⟨b, mem_ofSession.2 ⟨hb, (h.waiting b hb hn).1⟩, rfl⟩)
  exact {
    waiting := fun b hb hn => absurd (hall b hb) hn
    fits := h.fits
    reading := nofun
    sent := fun _ _ => hall
    elapsed := by
      intro p hp
      rcases mem_append.1 hp with hp | hp
      · exact h.elapsed p hp
      obtain ⟨b, hb, rfl⟩ := mem_map.1 hp
      have hend := (mem_ofSession.1 hb).2
      simp only [hend]
      exact ⟨hne, hlt⟩
    reached := by
      intro height he
      rw [show w.ended = some height from he] at hended
      cases hended }

theorem inv_checkSessionExpiration (hended : w.ended = none) :
    Inv grace (w.checkSessionExpiration grace) := by
  unfold World.checkSessionExpiration
  split
  case h_1 hc =>
    split_ifs with h0
    · exact { h with reached := fun _ _ _ hb _ => isNotified_of_no_session h h0 hb }
    exact { h with
      reading := by
        rintro e ⟨⟩
        exact ⟨rfl, h0⟩
      sent := nofun }
  case h_2 e hc =>
    split_ifs with hlt
    · exact inv_notifyBridges h hended hc hlt
    rw [graceEndHeight_of_reading h hc] at hlt
    exact { h with
      reading := nofun
      sent := nofun
      reached := by
        rintro height ⟨⟩ b hb hdue
        by_contra hn
        rw [(h.waiting b hb hn).1] at hdue
        exact hlt hdue }
  case h_3 height hc =>
    have hall := h.sent height hc
    exact { h with
      waiting := fun b hb hn => absurd (hall b hb) hn
      fits := fun h0 => absurd rfl h0
      reading := nofun
      sent := nofun
      reached := fun _ _ b hb _ => hall b hb }

theorem inv_step [DecidableEq B] (a : Act B) (hs : Synchronized grace w a) : Inv grace (step grace w a) := by
  have h' := inv_begin h
  cases a with
  | block blocks => exact { h' with }
  | handleGatewayMessage b e => exact inv_handleGatewayMessage h' rfl fun hb => { hs hb with }
  | unregisterBridge b => exact inv_unregisterBridge h' b
  | checkSessionExpiration => exact inv_checkSessionExpiration h' rfl
end

theorem inv_run [DecidableEq B] (grace : Int) {as : List (Act B)} (hm : Meets (step grace) (Synchronized grace) {} as) :
    Inv grace (run (step grace) {} as) :=
  inv_of_meets (Inv grace) (fun _ a h hs => inv_step h a hs) (inv_init grace) hm

/-- Where each session end that is registered is positive, is the end of every bridge that waits and is not below the
monitor's, and does not come between a check's read and its reset, every check that ends has notified each bridge whose
grace period is past, and no bridge is ever notified within its grace period. -/
theorem check_reaches_every_bridge [DecidableEq B] (grace : Int) (as : List (Act B))
    (hm : Meets (step grace) (Synchronized grace) {} as) : Reaches grace (run (step grace) {} as) := by
  have h := inv_run grace hm
  exact ⟨h.reached, fun p hp => (h.elapsed p hp).2⟩

end

def sharedSessions : List (Act Nat) :=
  [.handleGatewayMessage 0 10, .handleGatewayMessage 1 10, .block 11, .checkSessionExpiration, .checkSessionExpiration,
    .checkSessionExpiration, .handleGatewayMessage 2 20, .checkSessionExpiration, .checkSessionExpiration]

theorem check_reaches_shared_sessions :
    Meets (step 0) (Synchronized 0) {} sharedSessions ∧ Reaches 0 (run (step 0) {} sharedSessions) ∧
      (run (step 0) {} sharedSessions).ended = some 11 :=
  ⟨by decide, check_reaches_every_bridge 0 sharedSessions (by decide), by decide⟩

/-- Past the end of the first bridge's session a check ends without notifying it: the second bridge is of the next
session. It is no different once that session ends too, nor where the second end is any number a frame named. -/
theorem newer_session_keeps_older_open :
    (let w := run (step 0) {} [.handleGatewayMessage 0 10, .handleGatewayMessage 1 20, .block 15,
      .checkSessionExpiration, .checkSessionExpiration];
     w.ended = some 15 ∧ 0 ∈ w.bridges ∧ w.sessionEndHeight 0 = 10 ∧ w.notified = [] ∧ ¬ Reaches 0 w) ∧
    (let w := run (step 0) {} [.handleGatewayMessage 0 10, .handleGatewayMessage 1 20, .block 21,
      .checkSessionExpiration, .checkSessionExpiration, .checkSessionExpiration, .block 100, .checkSessionExpiration];
     w.ended = some 121 ∧ w.notified = [(1, 21)] ∧ ¬ Reaches 0 w) ∧
    (let w := run (step 0) {} [.handleGatewayMessage 0 10, .handleGatewayMessage 1 (2 ^ 63 - 1), .block 1000000,
      .checkSessionExpiration, .checkSessionExpiration];
     w.ended = some 1000000 ∧ w.notified = [] ∧ ¬ Reaches 0 w) := by
  decide

end RelayMiner.Relayer.SessionMonitor
