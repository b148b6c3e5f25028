import Mathlib.Data.List.Sort
import RelayMiner.Lib.Runs
/-!
# The admission of rebuilds

`RebuildAdmission` (`smst_rebuild_admission.go`) lets one compacted tree load at
a time, proofs before compactions. Each call is a critical section of its mutex
that ends in `dispatch`; when that asks for a collection the call drops the
mutex, collects, and dispatches again, so a collection in progress is a party of
its own and its end a step of its own.

A slot's `loaded` and `release` hold the slot's own mutex, so its flags and the
admission's fields move together. What the memory reads is in the action, one
reading for each call the source makes.
-/
open RelayMiner.Lib

namespace RelayMiner.Smst.RebuildAdmission

open List

inductive Kind where
  | proof | compaction
  deriving DecidableEq

structure RebuildWaiter where
  kind : Kind
  estimate : UInt64
  value : Nat
  seq : Nat
  deriving DecidableEq

def admitsBefore (x y : RebuildWaiter) : Bool :=
  if (x.kind = .proof) ≠ (y.kind = .proof) then x.kind = .proof
  else if x.kind = .proof ∧ x.value ≠ y.value then y.value < x.value
  else x.seq < y.seq

abbrev Before (x y : RebuildWaiter) : Prop := admitsBefore x y = true

structure Slot where
  waiter : RebuildWaiter
  behind : List RebuildWaiter
  acquired : Bool := false
  isLoaded : Bool := false
  isReleased : Bool := false

def Slot.held (s : Slot) : Bool := !s.isReleased

def Slot.loading (s : Slot) : Bool := !s.isLoaded && !s.isReleased

structure Admission where
  loading : Bool := false
  inFlight : Int := 0
  generation : Nat := 1
  collectedAt : Nat := 0
  collecting : Bool := false
  waiting : List RebuildWaiter := []
  seq : Nat := 0
  proofs : Int := 0
  slots : List Slot := []
  collections : List Nat := []

structure Memory where
  mapped : UInt64
  limit : UInt64
  objects : UInt64
  objectsLimit : UInt64
  live : UInt64
  liveLimit : UInt64

def rebuildHeadroomBytes : UInt64 := (512 : UInt64) <<< 20

def rebuildAllocatedHalvesPerRetained : UInt64 := 7

def fits (estimate heap limit : UInt64) : Bool :=
  if limit ≤ rebuildHeadroomBytes then false
  else heap + estimate * rebuildAllocatedHalvesPerRetained / 2 ≤ limit - rebuildHeadroomBytes

def isProof (w : RebuildWaiter) : Bool := w.kind = .proof

def Admission.enqueue (a : Admission) (w : RebuildWaiter) : Admission :=
  { a with
    waiting := a.waiting.orderedInsert Before w
    proofs := if isProof w then a.proofs + 1 else a.proofs }

def Admission.remove (a : Admission) (w : RebuildWaiter) : Admission :=
  if w ∈ a.waiting then
    { a with waiting := a.waiting.erase w, proofs := if isProof w then a.proofs - 1 else a.proofs }
  else a

def Admission.grant (a : Admission) (w : RebuildWaiter) : Admission :=
  let a := a.remove w
  { a with loading := true, inFlight := a.inFlight + 1, slots := a.slots ++ [⟨w, a.waiting, false, false, false⟩] }

def Admission.dispatch (a : Admission) (m : Memory) : Admission × Bool :=
  match a.waiting with
  | [] => (a, false)
  | w :: _ =>
    if a.loading || a.collecting then (a, false)
    else if m.limit < m.mapped ∧ (0 < a.inFlight ∨ w.kind = .compaction) then (a, false)
    else if 0 < a.inFlight ∧ fits w.estimate m.objects m.objectsLimit = false then
      if a.collectedAt ≠ a.generation then ({ a with collecting := true }, true)
      else if fits w.estimate m.live m.liveLimit = false then (a, false)
      else (a.grant w, false)
    else (a.grant w, false)

/-- Up to the next point where the mutex is free. -/
def Admission.unlockAndDispatch (a : Admission) (m : Memory) : Admission :=
  match a.dispatch m with
  | (a, true) => { a with collections := a.collections ++ [a.generation] }
  | (a, false) => a

def Admission.loadSlot (a : Admission) (i : Nat) (s : Slot) : Admission :=
  { a with slots := a.slots.set i { s with isLoaded := true }, loading := false, generation := a.generation + 1 }

def Admission.releaseSlot (a : Admission) (i : Nat) (s : Slot) : Admission :=
  { a with
    slots := a.slots.set i { s with isReleased := true }
    loading := if s.isLoaded then a.loading else false
    inFlight := a.inFlight - 1
    generation := a.generation + 1 }

inductive Act where
  | acquire (kind : Kind) (estimate : UInt64) (value : Nat) (m : Memory)
  | acquired (i : Nat)
  | cancel (w : RebuildWaiter) (m : Memory)
  /-- The context of a waiter ends, and by then it was granted. -/
  | cancelGranted (i : Nat) (m : Memory)
  | loaded (i : Nat) (m : Memory)
  | release (i : Nat) (m : Memory)
  | collected (i : Nat) (m : Memory)
  | evaluateMemoryBrake (m : Memory)

/-- A move of one rebuild, of a collection or of the brake; what it frees is dispatched. -/
def step (a : Admission) : Act → Admission
  | .acquire kind estimate value m =>
    ({ a with seq := a.seq + 1 }.enqueue ⟨kind, estimate, value, a.seq + 1⟩).unlockAndDispatch m
  | .acquired i =>
    match a.slots[i]? with
    | some s => if s.isReleased then a else { a with slots := a.slots.set i { s with acquired := true } }
    | none => a
  | .cancel w m => if w ∈ a.waiting then (a.remove w).unlockAndDispatch m else a
  | .cancelGranted i m =>
    match a.slots[i]? with
    | some s => if s.acquired || s.isReleased then a else (a.releaseSlot i s).unlockAndDispatch m
    | none => a
  | .loaded i m =>
    match a.slots[i]? with
    | some s => if !s.acquired || s.isLoaded || s.isReleased then a else (a.loadSlot i s).unlockAndDispatch m
    | none => a
  | .release i m =>
    match a.slots[i]? with
    | some s => if !s.acquired || s.isReleased then a else (a.releaseSlot i s).unlockAndDispatch m
    | none => a
  | .collected i m =>
    match a.collections[i]? with
    | some started =>
      Admission.unlockAndDispatch
        { a with collecting := false, collectedAt := started, collections := a.collections.eraseIdx i } m
    | none => a
  | .evaluateMemoryBrake m => a.unlockAndDispatch m

/-! ## The order of the queue -/

theorem before_trans {x y z : RebuildWaiter} (hxy : Before x y) (hyz : Before y z) : Before x z := by
  unfold Before admitsBefore at *
  grind

/-- Of two waiters the earlier one goes ahead, if the later one does not. -/
theorem before_of_not {x y : RebuildWaiter} (hseq : y.seq < x.seq) (h : ¬ Before x y) : Before y x := by
  unfold Before admitsBefore at *
  grind

theorem pairwise_enqueue {w : RebuildWaiter} {l : List RebuildWaiter} (hl : l.Pairwise Before)
    (hseq : ∀ q ∈ l, q.seq < w.seq) : (l.orderedInsert Before w).Pairwise Before := by
  induction l with
  | nil => simp
  | cons q qs ih =>
    obtain ⟨hq, hqs⟩ := pairwise_cons.1 hl
    by_cases hw : Before w q
    · rw [orderedInsert_cons_of_le Before qs hw]
      refine pairwise_cons.2 ⟨fun x hx => ?_, hl⟩
      rcases mem_cons.1 hx with rfl | hx
      · exact hw
      · exact before_trans hw (hq x hx)
    rw [orderedInsert_of_not_le Before qs hw]
    refine pairwise_cons.2 ⟨fun x hx => ?_, ih hqs fun x hx => hseq x (mem_cons_of_mem q hx)⟩
    rcases (mem_orderedInsert Before).1 hx with rfl | hx
    · exact before_of_not (hseq q mem_cons_self) hw
    · exact hq x hx

/-! ## The books -/

structure Books (a : Admission) : Prop where
  inFlight : a.inFlight = a.slots.countP Slot.held
  loading : a.slots.countP Slot.loading = a.loading.toNat
  sorted : a.waiting.Pairwise Before
  arrived : ∀ w ∈ a.waiting, w.seq ≤ a.seq
  proofs : a.proofs = a.waiting.countP isProof
  heads : ∀ s ∈ a.slots, ∀ w ∈ s.behind, Before s.waiter w
  collections : a.collections.length = a.collecting.toNat

/-- With no collection in progress, a proof at the head waits for a tree that is loading or in flight. -/
def Awake (a : Admission) : Prop :=
  a.collections = [] → ∀ w ∈ a.waiting.head?, w.kind = .proof → a.loading = true ∨ 0 < a.inFlight

variable {a : Admission} {i : Nat} {s : Slot}

theorem Books.enqueue (h : Books a) (kind : Kind) (estimate : UInt64) (value : Nat) :
    Books ({ a with seq := a.seq + 1 }.enqueue ⟨kind, estimate, value, a.seq + 1⟩) where
  inFlight := h.inFlight
  loading := h.loading
  sorted := pairwise_enqueue h.sorted fun q hq => Nat.lt_succ_of_le (h.arrived q hq)
  arrived := by
    intro w hw
    rcases (mem_orderedInsert Before).1 hw with rfl | hw
    · exact Nat.le_refl _
    · exact Nat.le_succ_of_le (h.arrived w hw)
  proofs := by
    have hcount := (perm_orderedInsert Before ⟨kind, estimate, value, a.seq + 1⟩ a.waiting).countP_eq isProof
    simp only [Admission.enqueue, hcount, countP_cons, h.proofs]
    split <;> simp
  heads := h.heads
  collections := h.collections

theorem Books.remove (h : Books a) (w : RebuildWaiter) : Books (a.remove w) := by
  unfold Admission.remove
  split
  next hw =>
    have hcount := (perm_cons_erase hw).countP_eq isProof
    rw [countP_cons] at hcount
    exact
      { h with
        sorted := h.sorted.sublist erase_sublist
        arrived := fun x hx => h.arrived x (mem_of_mem_erase hx)
        proofs := by
          simp only [h.proofs, hcount]
          split <;> simp }
  · exact h

attribute [local simp] Slot.loading

theorem Books.grant (h : Books a) {w : RebuildWaiter} (hw : ∀ x ∈ (a.remove w).waiting, Before w x)
    (hfree : a.loading = false) : Books (a.grant w) := by
  have hr := h.remove w
  have hloading : (a.remove w).loading = false := by
    unfold Admission.remove
    split <;> exact hfree
  refine { hr with inFlight := ?_, loading := ?_, heads := forall_mem_append.2 ⟨hr.heads, forall_mem_singleton.2 hw⟩ }
  · simp [Admission.grant, hr.inFlight, Slot.held]
  · simp [Admission.grant, hr.loading, hloading]

/-- What `dispatch` does: nothing, with the head blocked for one of its reasons; ask for a collection; or grant the
head. -/
theorem dispatch_cases (a : Admission) (m : Memory) :
    (a.dispatch m = (a, false) ∧ ∀ w ∈ a.waiting.head?, a.loading = true ∨ a.collecting = true ∨ 0 < a.inFlight ∨
      w.kind = .compaction) ∨
    (a.dispatch m = ({ a with collecting := true }, true) ∧ a.collecting = false) ∨
    ∃ w rest, a.waiting = w :: rest ∧ a.loading = false ∧ a.dispatch m = (a.grant w, false) := by
  unfold Admission.dispatch
  split
  next hnil => exact .inl ⟨rfl, by simp [hnil]⟩
  next w rest hw =>
    by_cases hbusy : (a.loading || a.collecting) = true
    · rw [if_pos hbusy]
      refine .inl ⟨rfl, fun x _ => ?_⟩
      rcases Bool.or_eq_true _ _ ▸ hbusy with hl | hc
      · exact .inl hl
      · exact .inr (.inl hc)
    obtain ⟨hl, hc⟩ : a.loading = false ∧ a.collecting = false := by simpa using hbusy
    split_ifs with hover hfull hgen hlive
    · refine .inl ⟨rfl, fun x hx => ?_⟩
      obtain rfl : w = x := by simpa [hw] using hx
      exact .inr (.inr hover.2)
    · exact .inr (.inl ⟨rfl, hc⟩)
    · exact .inl ⟨rfl, fun x _ => .inr (.inr (.inl hfull.1))⟩
    · exact .inr (.inr ⟨w, rest, hw, hl, rfl⟩)
    · exact .inr (.inr ⟨w, rest, hw, hl, rfl⟩)

theorem Books.unlockAndDispatch (h : Books a) (m : Memory) :
    Books (a.unlockAndDispatch m) ∧ Awake (a.unlockAndDispatch m) := by
  unfold Admission.unlockAndDispatch
  rcases dispatch_cases a m with ⟨he, hblocked⟩ | ⟨he, hfree⟩ | ⟨w, rest, hw, hl, he⟩ <;> rw [he] <;> dsimp only
  · refine ⟨h, fun hidle w hw hproof => ?_⟩
    rcases hblocked w hw with hl | hc | hi | hk
    · exact .inl hl
    · have := h.collections
      simp [hidle, hc] at this
    · exact .inr hi
    · rw [hproof] at hk
      cases hk
  · exact ⟨{ h with collections := by simp [h.collections, hfree] }, fun hidle => by simp at hidle⟩
  have hrest : (a.remove w).waiting = rest := by simp [Admission.remove, hw]
  refine ⟨h.grant (fun x hx => ?_) hl, fun _ _ _ _ => .inl rfl⟩
  rw [hrest] at hx
  exact rel_of_pairwise_cons (hw ▸ h.sorted) hx

theorem countP_set_slot (p : Slot → Bool) {l : List Slot} (hs : l[i]? = some s) (s' : Slot) :
    (l.set i s').countP p + (p s).toNat = l.countP p + (p s').toNat := by
  obtain ⟨pre, post, hl, hset, -⟩ := slot_split hs
  rw [hset, hl]
  simp only [countP_append, countP_cons, Bool.toNat, Bool.cond_eq_ite]
  omega

section
variable (h : Books a)
include h

section
variable (hs : a.slots[i]? = some s)
include hs

/-- A slot changes its flags, and the admission's two fields follow. -/
theorem Books.setSlot (s' : Slot) (loading : Bool) (inFlight : Int)
    (generation : Nat) (hw : s'.waiter = s.waiter) (hb : s'.behind = s.behind)
    (hinFlight : inFlight + s.held.toNat = a.inFlight + s'.held.toNat)
    (hloading : loading.toNat + s.loading.toNat = a.loading.toNat + s'.loading.toNat) :
    Books { a with
      slots := a.slots.set i s'
      loading := loading
      inFlight := inFlight
      generation := generation } := by
  have hheld := countP_set_slot Slot.held hs s'
  have hload := countP_set_slot Slot.loading hs s'
  have hfl := h.inFlight
  have hl := h.loading
  refine { h with inFlight := ?_, loading := ?_, heads := fun t ht w hwt => ?_ }
  · dsimp only
    omega
  · dsimp only
    omega
  rcases mem_or_eq_of_mem_set ht with ht | rfl
  · exact h.heads t ht w hwt
  · rw [hw]
    exact h.heads s (mem_of_getElem? hs) w (hb ▸ hwt)

theorem Books.loading_of (hl : s.loading = true) : a.loading = true := by
  have hpos : 0 < a.slots.countP Slot.loading := countP_pos_iff.2 ⟨s, mem_of_getElem? hs, hl⟩
  rw [h.loading] at hpos
  cases hb : a.loading with
  | true => rfl
  | false => simp [hb] at hpos

theorem Books.loadSlot (hl : s.loading = true) : Books (a.loadSlot i s) :=
  h.setSlot hs _ _ _ _ rfl rfl rfl (by simpa [h.loading_of hs hl] using hl)

theorem Books.releaseSlot (hheld : s.isReleased = false) :
    Books (a.releaseSlot i s) := by
  refine h.setSlot hs _ _ _ _ rfl rfl (by simp [Slot.held, hheld]) ?_
  cases hl : s.isLoaded with
  | true => simp [hl]
  | false => simp [hl, hheld, h.loading_of hs (by simp [Slot.loading, hl, hheld])]
end

theorem Books.collected {started : Nat} (hi : a.collections[i]? = some started) :
    Books { a with collecting := false, collectedAt := started, collections := a.collections.eraseIdx i } := by
  obtain ⟨pre, post, hl, -, herase⟩ := slot_split hi
  have hlen := h.collections
  refine { h with collections := ?_ }
  rw [herase]
  rw [hl] at hlen
  have hle := Bool.toNat_le a.collecting
  simp only [length_append, length_cons, Bool.toNat_false] at hlen ⊢
  omega
end

theorem inv_step (a : Admission) (act : Act) (h : Books a ∧ Awake a) : Books (step a act) ∧ Awake (step a act) := by
  cases act with
  | acquire kind estimate value m => exact (h.1.enqueue kind estimate value).unlockAndDispatch m
  | acquired i =>
    simp only [step]
    split
    next s hs =>
      split
      · exact h
      · exact ⟨h.1.setSlot hs _ _ _ _ rfl rfl rfl rfl, h.2⟩
    · exact h
  | cancel w m =>
    simp only [step]
    split
    · exact (h.1.remove w).unlockAndDispatch m
    · exact h
  | cancelGranted i m | release i m =>
    simp only [step]
    split
    next s hs =>
      split
      · exact h
      · exact (h.1.releaseSlot hs (by simp_all)).unlockAndDispatch m
    · exact h
  | loaded i m =>
    simp only [step]
    split
    next s hs =>
      split
      · exact h
      · exact (h.1.loadSlot hs (by simp_all)).unlockAndDispatch m
    · exact h
  | collected i m =>
    simp only [step]
    split
    next started hi => exact (h.1.collected hi).unlockAndDispatch m
    · exact h
  | evaluateMemoryBrake m => exact h.1.unlockAndDispatch m

/-- After any steps: the slots granted and not released are those in flight; at most one of them is still loading, and
`loading` says whether one is; the queue is in the order of `admitsBefore` and its proofs are counted; each slot was
granted ahead of everyone it left waiting; and with no call in progress a proof at the head has a tree to wait for. -/
theorem admission_keeps_its_books (acts : List Act) :
    let a := run step {} acts
    a.inFlight = a.slots.countP Slot.held ∧
      (a.slots.countP Slot.loading ≤ 1 ∧ (a.loading = true ↔ ∃ s ∈ a.slots, s.loading = true)) ∧
      a.waiting.Pairwise Before ∧
      a.proofs = a.waiting.countP isProof ∧
      (∀ s ∈ a.slots, ∀ w ∈ s.behind, Before s.waiter w) ∧
      (a.collections = [] → ∀ w ∈ a.waiting.head?, w.kind = .proof → a.loading = true ∨ 0 < a.inFlight) := by
  have hstart : Books {} ∧ Awake {} :=
    ⟨⟨rfl, rfl, .nil, by simp, rfl, by simp, rfl⟩, fun _ w hw => by simp at hw⟩
  obtain ⟨hbooks, hawake⟩ := inv_of_run (fun a => Books a ∧ Awake a) inv_step acts hstart
  refine ⟨hbooks.inFlight, ⟨?_, ?_⟩, hbooks.sorted, hbooks.proofs, hbooks.heads, hawake⟩
  · rw [hbooks.loading]
    exact Bool.toNat_le _
  · rw [← countP_pos_iff, hbooks.loading]
    cases (run step {} acts).loading <;> simp

end RelayMiner.Smst.RebuildAdmission
