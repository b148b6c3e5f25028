import RelayMiner.Lib.Runs
/-!
# The flush waits for the stream

Before a claim is flushed, `awaitFlushWatermark` captures the last ID the
stream has generated and waits until the consumer has handled a live delivery
at or above it, or until the cap height. What the stream has generated is its
whole history; what was handled live is what this process saw.
-/
open RelayMiner.Lib

namespace RelayMiner.Lifecycle.FlushWatermark

open List

structure StreamMsgID where
  ms : Nat
  seq : Nat
  deriving DecidableEq

def StreamMsgID.Before (id other : StreamMsgID) : Prop := id.ms < other.ms ∨ id.ms = other.ms ∧ id.seq < other.seq

def StreamMsgID.AtLeast (id other : StreamMsgID) : Prop := ¬id.Before other

instance (id other : StreamMsgID) : Decidable (id.Before other) := inferInstanceAs (Decidable (_ ∨ _))
instance (id other : StreamMsgID) : Decidable (id.AtLeast other) := inferInstanceAs (Decidable ¬_)

def claimFlushCapBlocks : Int := 2

/-- Where a call of `awaitFlushWatermark` is; all but `cancelled` of the last four return true. -/
inductive Flush where
  | idle
  | asking (capHeight : Int)
  | captured (capHeight : Int) (target : StreamMsgID)
  | waiting (capHeight : Int) (target : StreamMsgID)
  | reached (target : StreamMsgID)
  | capped
  | lookupFailed
  | cancelled
  deriving DecidableEq

structure World where
  lastGenerated : StreamMsgID := ⟨0, 0⟩
  undelivered : List StreamMsgID := []
  pending : List StreamMsgID := []
  /-- What was delivered to this process and is not handled yet, and whether by a reclaim. -/
  channel : List (StreamMsgID × Bool) := []
  /-- The live deliveries this process has handled. -/
  handled : List StreamMsgID := []
  maxNonReclaimHandledMsgID : Option StreamMsgID := none
  height : Int := 0
  flush : Flush := .idle

def World.Reached (w : World) (target : StreamMsgID) : Prop :=
  ∃ handled ∈ w.maxNonReclaimHandledMsgID, handled.AtLeast target

instance (w : World) (target : StreamMsgID) : Decidable (w.Reached target) := inferInstanceAs (Decidable (∃ _ ∈ _, _))

def recordNonReclaimHandled (w : World) (id : StreamMsgID) : World :=
  { w with
    handled := w.handled ++ [id]
    maxNonReclaimHandledMsgID := if w.Reached id then w.maxNonReclaimHandledMsgID else some id }

def handleStreamMessage (w : World) (id : StreamMsgID) (isReclaim acked : Bool) : World :=
  let w := if isReclaim then w else recordNonReclaimHandled w id
  if acked then { w with pending := w.pending.filter (· ≠ id) } else w

inductive Act where
  | publish (id : StreamMsgID)
  /-- The next entry, to this process or to another of the group. -/
  | deliver (here : Bool)
  | reclaim (id : StreamMsgID)
  /-- The oldest delivery in the channel; it is acknowledged or not. -/
  | handle (acked : Bool)
  | ackOther (id : StreamMsgID)
  | restart
  | blocks (n : Nat)
  | await (windowOpenHeight : Int)
  | lookup (failed : Bool)
  | check
  | poll
  | cancel

/-- `awaitFlushWatermark`, from one look at the stream or the height to the next. -/
def awaitFlushWatermark (w : World) : Act → Flush
  | .await windowOpenHeight =>
    if windowOpenHeight + claimFlushCapBlocks ≤ w.height then .capped
    else .asking (windowOpenHeight + claimFlushCapBlocks)
  | .lookup failed =>
    match w.flush with
    | .asking capHeight => if failed then .lookupFailed else .captured capHeight w.lastGenerated
    | f => f
  | .check =>
    match w.flush with
    | .captured capHeight target =>
      if target = ⟨0, 0⟩ ∨ w.Reached target then .reached target else .waiting capHeight target
    | f => f
  | .poll =>
    match w.flush with
    | .waiting capHeight target =>
      if w.Reached target then .reached target
      else if capHeight ≤ w.height then .capped
      else .waiting capHeight target
    | f => f
  | .cancel =>
    match w.flush with
    | .waiting .. => .cancelled
    | f => f
  | _ => w.flush

/-- The stream, the group's deliveries and the flush that waits, each moving on its own. -/
def step (w : World) : Act → World
  | .publish id =>
    if w.lastGenerated.Before id then { w with lastGenerated := id, undelivered := w.undelivered ++ [id] } else w
  | .deliver here =>
    match w.undelivered with
    | id :: rest =>
      { w with
        undelivered := rest
        pending := id :: w.pending
        channel := if here then w.channel ++ [(id, false)] else w.channel }
    | [] => w
  | .reclaim id => if id ∈ w.pending then { w with channel := w.channel ++ [(id, true)] } else w
  | .handle acked =>
    match w.channel with
    | (id, isReclaim) :: rest => handleStreamMessage { w with channel := rest } id isReclaim acked
    | [] => w
  | .ackOther id => { w with pending := w.pending.filter (· ≠ id) }
  | .restart => { w with channel := [], handled := [], maxNonReclaimHandledMsgID := none, flush := .idle }
  | .blocks n => { w with height := w.height + n }
  | a => { w with flush := awaitFlushWatermark w a }

/-- The live deliveries of this process: those it has handled, and those in its channel. -/
def World.live (w : World) : List StreamMsgID := w.handled ++ (w.channel.filter (! ·.2)).map (·.1)

structure Inv (w : World) : Prop where
  order : (w.live ++ w.undelivered).Pairwise StreamMsgID.Before
  generated : ∀ id ∈ w.live ++ w.undelivered, StreamMsgID.Before ⟨0, 0⟩ id ∧ w.lastGenerated.AtLeast id
  mark : ∀ id ∈ w.maxNonReclaimHandledMsgID, id ∈ w.handled
  top : ∀ id ∈ w.handled, w.Reached id
  reached : ∀ target, w.flush = .reached target → target = ⟨0, 0⟩ ∨ w.Reached target

variable {w : World} {id : StreamMsgID} {rest : List (StreamMsgID × Bool)}

theorem Inv.sublist {w' : World} (h : Inv w) (hl : (w'.live ++ w'.undelivered).Sublist (w.live ++ w.undelivered))
    (hgen : w'.lastGenerated = w.lastGenerated) (hmark : ∀ id ∈ w'.maxNonReclaimHandledMsgID, id ∈ w'.handled)
    (htop : ∀ id ∈ w'.handled, w'.Reached id)
    (hreached : ∀ target, w'.flush = .reached target → target = ⟨0, 0⟩ ∨ w'.Reached target) : Inv w' :=
  ⟨h.order.sublist hl, fun id hid => hgen ▸ h.generated id (hl.subset hid), hmark, htop, hreached⟩

theorem Inv.publish (h : Inv w) (hid : w.lastGenerated.Before id) :
    Inv { w with lastGenerated := id, undelivered := w.undelivered ++ [id] } := by
  have hall : ∀ x ∈ w.live ++ w.undelivered, StreamMsgID.Before ⟨0, 0⟩ x ∧ x.Before id := by
    intro x hx
    have := h.generated x hx
    simp only [StreamMsgID.Before, StreamMsgID.AtLeast] at *
    omega
  have hassoc : ({ w with lastGenerated := id, undelivered := w.undelivered ++ [id] } : World).live ++
      (w.undelivered ++ [id]) = w.live ++ w.undelivered ++ [id] := (append_assoc ..).symm
  refine ⟨?_, fun x hx => ?_, h.mark, h.top, h.reached⟩
  · rw [hassoc]
    exact pairwise_append.2 ⟨h.order, pairwise_singleton _ _, by simpa using fun x hx => (hall x hx).2⟩
  rw [hassoc] at hx
  obtain hx | hx := mem_append.1 hx
  · have := hall x hx
    simp only [StreamMsgID.Before, StreamMsgID.AtLeast] at *
    omega
  cases mem_singleton.1 hx
  simp only [StreamMsgID.Before, StreamMsgID.AtLeast] at *
  omega

attribute [local simp] recordNonReclaimHandled World.live

theorem reached_record {x : StreamMsgID} (h : w.Reached x ∨ x = id) : (recordNonReclaimHandled w id).Reached x := by
  by_cases hc : w.Reached id
  · obtain ⟨m, hm, hge⟩ : w.Reached x := h.elim (fun hx => hx) fun hx => hx ▸ hc
    exact ⟨m, by simpa [hc] using hm, hge⟩
  refine ⟨id, by simp [hc], ?_⟩
  obtain ⟨m, hm, hge⟩ | rfl := h
  · have hlt : ¬m.AtLeast id := fun hge' => hc ⟨m, hm, hge'⟩
    simp only [StreamMsgID.Before, StreamMsgID.AtLeast] at *
    omega
  · simp only [StreamMsgID.Before, StreamMsgID.AtLeast]
    omega

theorem Inv.record (h : Inv w) (hw : w.channel = (id, false) :: rest) :
    Inv (recordNonReclaimHandled { w with channel := rest } id) := by
  have hreached : ∀ x, w.Reached x ∨ x = id → (recordNonReclaimHandled { w with channel := rest } id).Reached x :=
    fun x hx => reached_record (w := { w with channel := rest }) hx
  refine h.sublist (by simp [hw]) rfl (fun m hm => ?_) (fun x hx => ?_)
    fun target ht => (h.reached target ht).imp_right fun hx => hreached target (.inl hx)
  · simp only [recordNonReclaimHandled] at hm
    split at hm
    · exact mem_append_left _ (h.mark m hm)
    · exact mem_append_right _ (by simpa using hm.symm)
  · exact hreached x ((mem_append.1 hx).imp (h.top x) mem_singleton.1)

theorem Inv.handle {isReclaim : Bool} (h : Inv w) (hw : w.channel = (id, isReclaim) :: rest) (acked : Bool) :
    Inv (handleStreamMessage { w with channel := rest } id isReclaim acked) := by
  have hrec : Inv (if isReclaim then { w with channel := rest } else
      recordNonReclaimHandled { w with channel := rest } id) := by
    cases isReclaim with
    | false => exact h.record hw
    | true => exact h.sublist (by simp [hw]) rfl h.mark h.top h.reached
  cases acked with
  | false => exact hrec
  | true => exact { hrec with }

theorem Inv.await (h : Inv w) (a : Act) : Inv { w with flush := awaitFlushWatermark w a } := by
  refine { h with reached := fun target ht => ?_ }
  have hold := h.reached target
  cases a with
  | check =>
    simp only [awaitFlushWatermark] at ht
    split at ht
    · split at ht
      next hc =>
        cases ht
        exact hc
      · cases ht
    · exact hold ht
  | poll =>
    simp only [awaitFlushWatermark] at ht
    split at ht
    · split at ht
      next hc =>
        cases ht
        exact .inr hc
      · split at ht <;> cases ht
    · exact hold ht
  | await | lookup | cancel =>
    simp only [awaitFlushWatermark] at ht
    repeat' split at ht
    all_goals first | exact hold ht | cases ht
  | _ => exact hold ht

theorem inv_step (w : World) (a : Act) (h : Inv w) : Inv (step w a) := by
  cases a with
  | publish id =>
    simp only [step]
    split
    · exact h.publish ‹_›
    · exact h
  | deliver here =>
    simp only [step]
    split
    next id rest hu => exact h.sublist (by cases here <;> simp [hu]) rfl h.mark h.top h.reached
    · exact h
  | reclaim id =>
    simp only [step]
    split
    · exact h.sublist (by simp) rfl h.mark h.top h.reached
    · exact h
  | handle acked =>
    simp only [step]
    split
    · exact h.handle ‹_› acked
    · exact h
  | restart => exact h.sublist (sublist_append_right ..) rfl nofun nofun nofun
  | ackOther | blocks => exact { h with }
  | _ => exact h.await _

/-- Every run: when the call returns below the cap and no lookup failed, every live delivery at or below the captured
ID is handled; and it returns with no wait if the stream had no entry, or this process handled the captured one live. -/
theorem flush_waits_for_the_stream (as : List Act) :
    let w := run step {} as
    (∀ target, w.flush = .reached target → ∀ id ∈ w.live, target.AtLeast id → id ∈ w.handled) ∧
    ∀ capHeight target, w.flush = .captured capHeight target → target = ⟨0, 0⟩ ∨ target ∈ w.handled →
      (step w .check).flush = .reached target := by
  intro w
  have h : Inv w := inv_of_run Inv inv_step as ⟨.nil, nofun, nofun, nofun, nofun⟩
  refine ⟨fun target ht id hid hle => ?_, fun capHeight target ht hhandled => ?_⟩
  · obtain hid' | hid' := mem_append.1 hid
    · exact hid'
    · -- In the channel, it is above all that was handled, and so above the captured ID.
      obtain rfl | ⟨m, hm, hge⟩ := h.reached target ht
      · exact absurd (h.generated id (mem_append_left _ hid)).1 hle
      have := (pairwise_append.1 (pairwise_append.1 h.order).1).2.2 m (h.mark m hm) id hid'
      simp only [StreamMsgID.Before, StreamMsgID.AtLeast] at *
      omega
  · simp only [step, awaitFlushWatermark, ht, if_pos (hhandled.imp_right (h.top target))]

theorem flush_waits_for_the_stream_handled :
    let w := run step {} [.publish ⟨1, 0⟩, .deliver true, .handle true, .await 10, .lookup false]
    w.flush = .captured 12 ⟨1, 0⟩ ∧ (step w .check).flush = .reached ⟨1, 0⟩ :=
  ⟨by decide, (flush_waits_for_the_stream _).2 12 _ (by decide) (.inr (by decide))⟩

/-- The process restarts with every entry handled and acknowledged: the call waits all the same, up to the cap. -/
theorem restart_waits_to_the_cap :
    let w := run step {} [.publish ⟨1, 0⟩, .deliver true, .handle true, .restart, .await 10, .lookup false]
    w.flush = .captured 12 ⟨1, 0⟩ ∧ w.undelivered = [] ∧ w.pending = [] ∧
      (run step w [.check, .poll, .blocks 11, .poll]).flush = .waiting 12 ⟨1, 0⟩ ∧
      (run step w [.check, .poll, .blocks 12, .poll]).flush = .capped := by
  decide

end RelayMiner.Lifecycle.FlushWatermark
