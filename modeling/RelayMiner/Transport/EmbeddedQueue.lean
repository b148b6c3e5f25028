import Mathlib.Data.Prod.Lex
import RelayMiner.Lib.Ordered
import RelayMiner.Lib.Runs
import RelayMiner.Lib.Wire
import RelayMiner.Session.State
/-!
# The embedded relay queue

`pebblequeue`: the relayer publishes mined relays into one Pebble store and the
miner's `Consumer` delivers them. An entry's ID is minted under the broker's
lock (`stream.next`) and is its place in the store's key order. The consumer
reads after its `cursor` and what was handed back to it and has fallen due
(`nextBatch`), and keeps what it read as `pending` until it is acknowledged or
released.

A commit that fails has written nothing (it is refused before it reaches the
log). The words of an ID are 64 bits wide. Left out: the meter charges a publish
carries, `EachOwnPending`, `Close`.
-/
open RelayMiner.Lib RelayMiner.Session

namespace RelayMiner.Transport.EmbeddedQueue

open List

/-- `<ms>-<seq>`. -/
abbrev ID := Nat ×ₗ Nat

def mkID (ms seq : Nat) : ID := toLex (ms, seq)

def word : Nat := 2 ^ 64

def encodeID (id : ID) : Bytes := bigEndian 8 (ofLex id).1 ++ bigEndian 8 (ofLex id).2

/-- `q\x00<stream>\x00<ms><seq>`. -/
def entryKey (stream : Bytes) (id : ID) : Bytes := [0x71, 0] ++ stream ++ [0] ++ encodeID id

def readBatch : Nat := 256

variable {V : Type}

structure Queue (V : Type) where
  entries : List (ID × V) := []
  lastID : Option ID := none
  last : ID := mkID 0 0
  cursor : Option ID := none
  pending : List ID := []
  released : List (ID × Nat) := []
  /-- What `nextBatch` returned and `deliverLoop` has not sent yet; the flag is `IsReclaim`. -/
  batch : List (ID × Bool) := []
  stopped : Bool := false
  /-- What this process has sent, what any has, the IDs released again before they were read again, and those of
  the entries published. -/
  sent : List ID := []
  log : List ID := []
  twice : List ID := []
  minted : List ID := []

/-! ## Publishing -/

def next (last : ID) (now : UInt64) : ID :=
  if now.toNat ≤ (ofLex last).1 then mkID (ofLex last).1 (((ofLex last).2 + 1) % word) else mkID now.toNat 0

/-- `Broker.publish`: the entry and the last ID in one batch; a failed commit rolls the ID back. -/
def publish (q : Queue V) (now : UInt64) (v : V) (committed : Bool) : Queue V :=
  let id := next q.last now
  if committed then
    { q with entries := insertKey id v q.entries, lastID := some id, last := id, minted := q.minted ++ [id] }
  else q

/-! ## Reading -/

structure ReadReleased where
  kept : List (ID × Nat) := []
  out : List ID := []
  dropped : List ID := []
  nextDue : Option Nat := none
  err : Bool := false

def earlier (due : Nat) : Option Nat → Option Nat
  | none => some due
  | some d => some (min due d)

/-- The released entries that are due at `now`. `faults` says which reads fail, in order; the rest of the list is kept
from the first that does. -/
def readReleased (decodes : V → Bool) (entries : List (ID × V)) (now : Nat) : List Bool → List (ID × Nat) → ReadReleased
  | _, [] => {}
  | faults, r :: rs =>
    if now < r.2 then
      let x := readReleased decodes entries now faults rs
      { x with kept := r :: x.kept, nextDue := earlier r.2 x.nextDue }
    else if faults.headD false then { kept := r :: rs, err := true }
    else
      let x := readReleased decodes entries now faults.tail rs
      match entries.lookup r.1 with
      -- Acknowledged since.
      | none => x
      | some v => if decodes v then { x with out := r.1 :: x.out } else { x with dropped := r.1 :: x.dropped }

structure ReadEntries where
  out : List ID := []
  dropped : List ID := []
  cursor : Option ID := none
  err : Bool := false

def readEntries (decodes : V → Bool) : Nat → List Bool → List (ID × V) → ReadEntries
  | 0, _, _ => {}
  | _, _, [] => {}
  | room + 1, faults, e :: es =>
    if faults.headD false then { err := true }
    else if decodes e.2 then
      let x := readEntries decodes room faults.tail es
      { x with out := e.1 :: x.out, cursor := some (x.cursor.getD e.1) }
    else
      let x := readEntries decodes (room + 1) faults.tail es
      { x with dropped := e.1 :: x.dropped, cursor := some (x.cursor.getD e.1) }

def isAfter (cursor : Option ID) (id : ID) : Bool :=
  match cursor with
  | none => true
  | some c => decide (c < id)

/-- `dropUndecodable` for each of `ids`; its commit may fail. -/
def drop (q : Queue V) (ids : List ID) (committed : Bool) : Queue V :=
  { q with
    entries := if committed then q.entries.filter (·.1 ∉ ids) else q.entries
    pending := q.pending.filter (· ∉ ids) }

structure ReadFaults where
  released : List Bool := []
  entries : List Bool := []
  dropped : Bool := true

/-- `nextBatch`: the queue, `nextDue`, and whether it failed. -/
def nextBatch (decodes : V → Bool) (q : Queue V) (now : Nat) (f : ReadFaults) : Queue V × Option Nat × Bool :=
  let r := readReleased decodes q.entries now f.released q.released
  let q1 := drop { q with released := r.kept } r.dropped f.dropped
  let q2 := { q1 with pending := r.out ++ q1.pending, batch := r.out.map (·, true) }
  if r.err then (q2, r.nextDue, true)
  else
    let x := readEntries decodes (readBatch - r.out.length) f.entries (q2.entries.filter (isAfter q2.cursor ·.1))
    let q3 := drop q2 x.dropped f.dropped
    ({ q3 with
        pending := x.out ++ q3.pending
        cursor := x.cursor.or q3.cursor
        batch := q3.batch ++ x.out.map (·, false) }, r.nextDue, x.err)

/-! ## The rest of the consumer -/

def deliver (q : Queue V) : Queue V :=
  match q.batch with
  | [] => q
  | m :: ms => { q with batch := ms, sent := q.sent ++ [m.1], log := q.log ++ [m.1] }

def putBack (q : Queue V) : Queue V :=
  { q with
    pending := q.pending.filter (· ∉ q.batch.map (·.1))
    released := q.released ++ q.batch.map (·.1, 0)
    batch := []
    stopped := true }

def forget (q : Queue V) (ids : List ID) : Queue V := { q with pending := q.pending.filter (· ∉ ids) }

def delete (q : Queue V) (ids : List ID) : Queue V := { q with entries := q.entries.filter (·.1 ∉ ids) }

def releaseMessage (q : Queue V) (id : ID) (due : Nat) : Queue V :=
  { q with
    pending := q.pending.filter (· ≠ id)
    released := q.released ++ [(id, due)]
    twice := if id ∈ q.released.map (·.1) then id :: q.twice else q.twice }

inductive TrimFault where
  | ok
  | read (n : Nat)
  | commit
  deriving DecidableEq

def trimmed (q : Queue V) (cutoff : Nat) : TrimFault → List ID
  | .read n => ((q.entries.filter (·.1 < mkID cutoff 0)).take n).map (·.1)
  | _ => (q.entries.filter (·.1 < mkID cutoff 0)).map (·.1)

/-- `TrimStream`: an entry leaves `pending` as the iterator passes it, and the store once the range is deleted. -/
def trimStream (q : Queue V) (cutoff : Nat) (f : TrimFault) : Queue V :=
  let q' := forget q (trimmed q cutoff f)
  match f with
  | .ok => { q' with entries := q.entries.filter (¬ ·.1 < mkID cutoff 0) }
  | _ => q'

def restart (q : Queue V) : Queue V :=
  { entries := q.entries, lastID := q.lastID, last := q.lastID.getD (mkID 0 0), log := q.log, minted := q.minted }

inductive Act (V : Type) where
  | publish (now : UInt64) (v : V) (committed : Bool)
  | read (now : Nat) (f : ReadFaults)
  | deliver
  | putBack
  | ackMessage (id : ID) (committed : Bool)
  | ackInBatch (ids : List ID)
  | acked (ids : List ID)
  | releaseMessage (id : ID) (due : Nat)
  | trimStream (cutoff : Nat) (f : TrimFault)
  | restart

/-- A call on the queue, or a move of its consumer; `committed` says whether the batch was. -/
def step (decodes : V → Bool) (q : Queue V) : Act V → Queue V
  | .publish now v committed => publish q now v committed
  | .read now f => if q.stopped = false ∧ q.batch = [] then (nextBatch decodes q now f).1 else q
  | .deliver => deliver q
  | .putBack => putBack q
  | .ackMessage id committed => if committed then forget (delete q [id]) [id] else q
  | .ackInBatch ids => delete q ids
  | .acked ids => if ∀ id ∈ ids, id ∉ q.entries.map (·.1) then forget q ids else q
  | .releaseMessage id due => if id ∈ q.sent then releaseMessage q id due else q
  | .trimStream cutoff f => trimStream q cutoff f
  | .restart => restart q

/-! ## What the reads return -/

section Reads

variable (decodes : V → Bool)

attribute [local simp] readEntries readReleased

/-- The iterator consumes a prefix of what is after the cursor, and the cursor is the last key of it. -/
theorem readEntries_spec (room : Nat) (faults : List Bool) (es : List (ID × V)) :
    ∃ read rest, es = read ++ rest ∧
      (readEntries decodes room faults es).out = (read.filter (decodes ·.2)).map (·.1) ∧
      (readEntries decodes room faults es).dropped = (read.filter (!decodes ·.2)).map (·.1) ∧
      (readEntries decodes room faults es).cursor = read.getLast?.map (·.1) := by
  induction es generalizing room faults with
  | nil => exact ⟨[], [], rfl, by cases room <;> simp⟩
  | cons e es ih =>
    cases room with
    | zero => exact ⟨[], e :: es, rfl, by simp⟩
    | succ room =>
      have hlast : ∀ l : List (ID × V), (e :: l).getLast?.map (·.1) = some ((l.getLast?.map (·.1)).getD e.1) := by
        intro l
        rw [List.getLast?_cons]
        cases l.getLast? <;> rfl
      cases hf : faults.head?.getD false with
      | true => exact ⟨[], e :: es, rfl, by simp [hf]⟩
      | false =>
        cases hd : decodes e.2 with
        | true =>
          obtain ⟨read, rest, hes, hout, hdrop, hcur⟩ := ih room faults.tail
          exact ⟨e :: read, rest, by rw [hes]; rfl, by simp [hf, hd, hout, hdrop, hcur, hlast]⟩
        | false =>
          obtain ⟨read, rest, hes, hout, hdrop, hcur⟩ := ih (room + 1) faults.tail
          exact ⟨e :: read, rest, by rw [hes]; rfl, by simp [hf, hd, hout, hdrop, hcur, hlast]⟩

structure Splits (entries : List (ID × V)) (rs : List (ID × Nat)) (x : ReadReleased) : Prop where
  kept : ∀ r ∈ x.kept, r ∈ rs
  out : ∀ id ∈ x.out, id ∈ rs.map (·.1) ∧ ∃ v, entries.lookup id = some v ∧ decodes v = true
  dropped : ∀ id ∈ x.dropped, ∃ v, entries.lookup id = some v ∧ decodes v = false
  cover : ∀ r ∈ rs, r ∈ x.kept ∨ r.1 ∈ x.out ∨ entries.lookup r.1 = none ∨ r.1 ∈ x.dropped
  count : ∀ id, (x.kept.map (·.1)).count id + x.out.count id ≤ (rs.map (·.1)).count id

theorem readReleased_spec (entries : List (ID × V)) (now : Nat) (faults : List Bool) (rs : List (ID × Nat)) :
    Splits decodes entries rs (readReleased decodes entries now faults rs) := by
  induction rs generalizing faults with
  | nil => exact ⟨by simp, by simp, by simp, by simp, by simp⟩
  | cons r rs ih =>
    unfold readReleased
    split
    · -- Not due yet.
      have h := ih faults
      refine ⟨forall_mem_cons.2 ⟨mem_cons_self, fun r' hr' => mem_cons_of_mem _ (h.kept r' hr')⟩,
        fun id hid => ⟨mem_cons_of_mem _ (h.out id hid).1, (h.out id hid).2⟩, h.dropped,
        forall_mem_cons.2 ⟨.inl mem_cons_self, fun r' hr' => (h.cover r' hr').imp_left (mem_cons_of_mem _)⟩, fun id => ?_⟩
      have := h.count id
      simp only [map_cons, count_cons]
      omega
    split
    · -- The read fails.
      exact ⟨fun _ h => h, by simp, by simp, fun _ h => .inl h, fun id => by simp⟩
    have h := ih faults.tail
    have hkept := fun r' hr' => mem_cons_of_mem r (h.kept r' hr')
    have hout : ∀ id ∈ (readReleased decodes entries now faults.tail rs).out,
        id ∈ (r :: rs).map (·.1) ∧ ∃ v, entries.lookup id = some v ∧ decodes v = true :=
      fun id hid => ⟨mem_cons_of_mem _ (h.out id hid).1, (h.out id hid).2⟩
    have hcount : ∀ id, (rs.map (·.1)).count id ≤ ((r :: rs).map (·.1)).count id := by
      simp only [map_cons, count_cons]
      omega
    split
    next hl =>
      exact ⟨hkept, hout, h.dropped, forall_mem_cons.2 ⟨.inr (.inr (.inl hl)), h.cover⟩,
        fun id => (h.count id).trans (hcount id)⟩
    next v hl =>
      split
      next hd =>
        refine ⟨hkept, forall_mem_cons.2 ⟨⟨mem_cons_self, v, hl, hd⟩, hout⟩, h.dropped,
          forall_mem_cons.2 ⟨.inr (.inl mem_cons_self), fun r' hr' => ?_⟩, fun id => ?_⟩
        · exact (h.cover r' hr').imp_right (.imp_left (mem_cons_of_mem _))
        have := h.count id
        simp only [map_cons, count_cons]
        omega
      next hd =>
        refine ⟨hkept, hout, forall_mem_cons.2 ⟨⟨v, hl, by simpa using hd⟩, h.dropped⟩,
          forall_mem_cons.2 ⟨.inr (.inr (.inr mem_cons_self)), fun r' hr' => ?_⟩,
          fun id => (h.count id).trans (hcount id)⟩
        exact (h.cover r' hr').imp_right (.imp_right (.imp_right (mem_cons_of_mem _)))

/-- The cursor moves to the last entry read: what was read is behind it, the rest is still ahead. -/
theorem advance_spec (cursor : Option ID) {read rest : List (ID × V)} (ho : Ordered (read ++ rest))
    (ha : ∀ e ∈ read ++ rest, isAfter cursor e.1 = true) :
    (∀ e ∈ read, isAfter ((read.getLast?.map (·.1)).or cursor) e.1 = false) ∧
      (∀ e ∈ rest, isAfter ((read.getLast?.map (·.1)).or cursor) e.1 = true) ∧
      (∀ id, isAfter ((read.getLast?.map (·.1)).or cursor) id = true → isAfter cursor id = true) ∧
      (∀ c, (read.getLast?.map (·.1)).or cursor = some c → cursor = some c ∨ ∃ e ∈ read, e.1 = c) := by
  rcases eq_nil_or_concat read with rfl | ⟨init, l, rfl⟩
  · exact ⟨nofun, ha, fun _ h => h, fun _ h => .inl h⟩
  have hl : ((init ++ [l]).getLast?.map (·.1)).or cursor = some l.1 := by simp
  simp only [concat_eq_append] at ho ha ⊢
  rw [hl]
  obtain ⟨hread, -, hcross⟩ := pairwise_append.1 ho
  obtain ⟨-, -, hinit⟩ := pairwise_append.1 hread
  have hmem : l ∈ init ++ [l] := by simp
  refine ⟨fun e he => ?_, fun e he => ?_, fun id hid => ?_, fun c hc => ?_⟩
  · simp only [isAfter, decide_eq_false_iff_not, not_lt]
    rcases mem_append.1 he with he | he
    · exact le_of_lt (hinit e he l (by simp))
    · rw [mem_singleton.1 he]
  · simpa [isAfter] using hcross l hmem e he
  · have hal := ha l (mem_append_left _ hmem)
    cases cursor with
    | none => rfl
    | some c =>
      simp only [isAfter, decide_eq_true_eq] at hal hid ⊢
      exact lt_trans hal hid
  · exact .inr ⟨l, hmem, Option.some.inj hc⟩

def Undecodable (entries : List (ID × V)) (ids : List ID) : Prop :=
  ∀ e ∈ entries, e.1 ∈ ids → decodes e.2 = false

variable {decodes}

theorem Undecodable.not_mem {entries : List (ID × V)} {ids : List ID} (h : Undecodable decodes entries ids)
    {e : ID × V} (he : e ∈ entries) (hd : decodes e.2 = true) : e.1 ∉ ids := by
  intro hid
  rw [h e he hid] at hd
  cases hd

theorem mem_drop {q : Queue V} {ids : List ID} (committed : Bool) {e : ID × V} (he : e ∈ q.entries) (hid : e.1 ∉ ids) :
    e ∈ (drop q ids committed).entries := by
  simp only [drop]
  split
  · exact mem_filter.2 ⟨he, by simpa using hid⟩
  · exact he

theorem drop_sublist (q : Queue V) (ids : List ID) (committed : Bool) :
    (drop q ids committed).entries.Sublist q.entries := by
  simp only [drop]
  split
  · exact filter_sublist
  · exact List.Sublist.refl _

variable (decodes)

structure Fetches (q q' : Queue V) (back new : List ID) : Prop where
  same : ∃ entries cursor pending released batch, q' = { q with entries, cursor, pending, released, batch }
  batch : q'.batch = back.map (·, true) ++ new.map (·, false)
  entries : q'.entries.Sublist q.entries
  decoded : ∀ e ∈ q.entries, decodes e.2 = true → e ∈ q'.entries
  released : ∀ r ∈ q'.released, r ∈ q.released
  back_mem : ∀ id ∈ back, id ∈ q.released.map (·.1)
  count : ∀ id, (q'.released.map (·.1)).count id + back.count id ≤ (q.released.map (·.1)).count id
  cover : ∀ e ∈ q.entries, decodes e.2 = true → e.1 ∈ q.released.map (·.1) →
    e.1 ∈ q'.released.map (·.1) ∨ e.1 ∈ back
  pending : ∀ id ∈ q'.pending, id ∈ new ∨ id ∈ back ∨ id ∈ q.pending
  pending_keep : ∀ e ∈ q.entries, decodes e.2 = true → e.1 ∈ new ∨ e.1 ∈ back ∨ e.1 ∈ q.pending → e.1 ∈ q'.pending
  new_after : ∀ id ∈ new, isAfter q.cursor id = true ∧ isAfter q'.cursor id = false
  new_stored : ∀ id ∈ new, ∃ e ∈ q.entries, e.1 = id ∧ decodes e.2 = true
  new_sorted : new.Pairwise (· < ·)
  passed : ∀ e ∈ q.entries, decodes e.2 = true → isAfter q.cursor e.1 = true →
    e.1 ∈ new ∨ isAfter q'.cursor e.1 = true
  cursor_mono : ∀ id, isAfter q'.cursor id = true → isAfter q.cursor id = true
  cursor_mem : ∀ c, q'.cursor = some c → q.cursor = some c ∨ ∃ e ∈ q.entries, e.1 = c

theorem fetches_back (q : Queue V) (now : Nat) (faults : List Bool) (committed : Bool) (ho : Ordered q.entries) :
    let r := readReleased decodes q.entries now faults q.released
    let q1 := drop { q with released := r.kept } r.dropped committed
    Fetches decodes q { q1 with pending := r.out ++ q1.pending, batch := r.out.map (·, true) } r.out [] := by
  have hr := readReleased_spec decodes q.entries now faults q.released
  generalize readReleased decodes q.entries now faults q.released = r at hr ⊢
  have hbad : Undecodable decodes q.entries r.dropped := by
    intro e he hid
    obtain ⟨v, hl, hv⟩ := hr.dropped e.1 hid
    rw [ho.lookup_eq he] at hl
    rw [Option.some.inj hl, hv]
  refine ⟨⟨_, _, _, _, _, rfl⟩, by simp, drop_sublist _ _ _,
    fun e he hd => mem_drop _ he (hbad.not_mem he hd), hr.kept, fun id hid => (hr.out id hid).1, hr.count,
    fun e he hd hrel => ?_, fun id hid => ?_, fun e he hd hin => ?_, by simp, by simp, List.Pairwise.nil,
    fun _ _ _ h => .inr h, fun _ h => h, fun _ h => .inl h⟩
  · obtain ⟨x, hx, hxe⟩ := mem_map.1 hrel
    rcases hr.cover x hx with hc | hc | hc | hc
    · exact .inl (mem_map.2 ⟨x, hc, hxe⟩)
    · exact .inr (hxe ▸ hc)
    · rw [hxe, ho.lookup_eq he] at hc
      cases hc
    · exact absurd (hxe ▸ hc) (hbad.not_mem he hd)
  · rcases mem_append.1 hid with h | h
    · exact .inr (.inl h)
    · exact .inr (.inr (mem_of_mem_filter h))
  rcases hin with h | h | h
  · cases h
  · exact mem_append_left _ h
  · exact mem_append_right _ (mem_filter.2 ⟨h, by simpa using hbad.not_mem he hd⟩)

variable {decodes}

theorem Fetches.new {q q2 : Queue V} {back : List ID} (h : Fetches decodes q q2 back []) (hc : q2.cursor = q.cursor)
    (ho : Ordered q.entries) (room : Nat) (faults : List Bool) (committed : Bool) :
    let x := readEntries decodes room faults (q2.entries.filter (isAfter q2.cursor ·.1))
    let q3 := drop q2 x.dropped committed
    Fetches decodes q
      { q3 with
        pending := x.out ++ q3.pending, cursor := x.cursor.or q3.cursor, batch := q3.batch ++ x.out.map (·, false) }
      back x.out := by
  obtain ⟨_, _, _, _, _, hsame⟩ := h.same
  have ho2 : Ordered q2.entries := ho.sublist h.entries
  obtain ⟨read, rest, hes, hout, hdrop, hcur⟩ :=
    readEntries_spec decodes room faults (q2.entries.filter (isAfter q2.cursor ·.1))
  generalize readEntries decodes room faults (q2.entries.filter (isAfter q2.cursor ·.1)) = x at hout hdrop hcur ⊢
  have hin : ∀ e, e ∈ read ++ rest ↔ e ∈ q2.entries ∧ isAfter q2.cursor e.1 = true := by
    intro e
    rw [← hes, mem_filter]
  have hread : ∀ e ∈ read, e ∈ q2.entries := fun e he => ((hin e).1 (mem_append_left _ he)).1
  have hpre : Ordered (read ++ rest) := hes ▸ ho2.filter _
  obtain ⟨hbehind, hahead, hmono, hmem⟩ := advance_spec q2.cursor hpre (fun e he => ((hin e).1 he).2)
  rw [← hcur] at hbehind hahead hmono hmem
  have hnew : ∀ id ∈ x.out, ∃ e ∈ read, e.1 = id ∧ decodes e.2 = true := by
    intro id hid
    rw [hout] at hid
    obtain ⟨e, he, rfl⟩ := mem_map.1 hid
    exact ⟨e, mem_of_mem_filter he, rfl, (mem_filter.1 he).2⟩
  have hbad : Undecodable decodes q2.entries x.dropped := by
    intro e he hid
    rw [hdrop] at hid
    obtain ⟨e', he', heq⟩ := mem_map.1 hid
    have hl := ho2.lookup_eq (hread e' (mem_of_mem_filter he'))
    rw [heq, ho2.lookup_eq he] at hl
    rw [Option.some.inj hl]
    simpa using (mem_filter.1 he').2
  refine ⟨⟨_, _, _, _, _, by rw [hsame]; rfl⟩,
    by rw [show (drop q2 x.dropped committed).batch = q2.batch from rfl, h.batch]; simp,
    (drop_sublist _ _ _).trans h.entries, fun e he hd => ?_, h.released, h.back_mem, h.count, h.cover, fun id hid => ?_,
    fun e he hd hin' => ?_, fun id hid => ?_, fun id hid => ?_, ?_, fun e he hd ha => ?_, fun id hid => ?_,
    fun c hcc => ?_⟩
  · exact mem_drop _ (h.decoded e he hd) (hbad.not_mem (h.decoded e he hd) hd)
  · rcases mem_append.1 hid with hn | hn
    · exact .inl hn
    rcases h.pending id (mem_of_mem_filter hn) with hn | hn
    · cases hn
    · exact .inr hn
  · rcases hin' with hn | hn
    · exact mem_append_left _ hn
    · exact mem_append_right _ (mem_filter.2
        ⟨h.pending_keep e he hd (.inr hn), by simpa using hbad.not_mem (h.decoded e he hd) hd⟩)
  · obtain ⟨e, he, rfl, -⟩ := hnew id hid
    exact ⟨hc ▸ ((hin e).1 (mem_append_left _ he)).2, hbehind e he⟩
  · obtain ⟨e, he, rfl, hd⟩ := hnew id hid
    exact ⟨e, h.entries.subset (hread e he), rfl, hd⟩
  · rw [hout, pairwise_map]
    exact (pairwise_append.1 hpre).1.filter _
  · rcases mem_append.1 ((hin e).2 ⟨h.decoded e he hd, hc.symm ▸ ha⟩) with hr | hr
    · rw [hout]
      exact .inl (mem_map.2 ⟨e, mem_filter.2 ⟨hr, hd⟩, rfl⟩)
    · exact .inr (hahead e hr)
  · exact hc ▸ hmono id hid
  rcases hmem c hcc with hm | ⟨e, he, rfl⟩
  · exact .inl (hc ▸ hm)
  · exact .inr ⟨e, h.entries.subset (hread e he), rfl⟩

variable (decodes) in
theorem nextBatch_spec {q : Queue V} (ho : Ordered q.entries) (now : Nat) (f : ReadFaults) :
    ∃ back new, Fetches decodes q (nextBatch decodes q now f).1 back new := by
  have hback := fetches_back decodes q now f.released f.dropped ho
  unfold nextBatch
  dsimp only at hback ⊢
  split
  · exact ⟨_, _, hback⟩
  · exact ⟨_, _, hback.new rfl ho _ f.entries f.dropped⟩

end Reads

/-! ## The numbering -/

def Fits (id : ID) : Prop := (ofLex id).1 < word ∧ (ofLex id).2 < word

def HasNext (last : ID) (now : UInt64) : Prop := (ofLex last).1 < now.toNat ∨ (ofLex last).2 + 1 < word

instance (last : ID) (now : UInt64) : Decidable (HasNext last now) := by unfold HasNext; infer_instance

theorem lt_next {last : ID} {now : UInt64} (h : HasNext last now) : last < next last now := by
  rw [Prod.Lex.lt_iff]
  unfold next
  split
  next hle =>
    have hs : (ofLex last).2 + 1 < word := h.resolve_left (by omega)
    refine .inr ⟨rfl, ?_⟩
    simp only [mkID, ofLex_toLex, Nat.mod_eq_of_lt hs]
    omega
  next hlt => exact .inl (by simpa [mkID] using hlt)

theorem fits_next {last : ID} (h : Fits last) (now : UInt64) : Fits (next last now) := by
  unfold next
  split
  · exact ⟨h.1, Nat.mod_lt _ (by decide)⟩
  · exact ⟨now.toNat_lt, Nat.two_pow_pos 64⟩

/-- The order of the IDs is the byte order of their keys. -/
theorem entryKey_lt {a b : ID} (stream : Bytes) (hb : Fits b) (h : a < b) : entryKey stream a < entryKey stream b := by
  have hword : word = 256 ^ 8 := by decide
  unfold entryKey encodeID
  refine append_left_lt ?_
  rcases Prod.Lex.lt_iff.1 h with hms | ⟨hms, hseq⟩
  · exact append_lt_append (by simp) (bigEndian_lt hms (hword ▸ hb.1)) _ _
  · rw [hms]
    exact append_left_lt (bigEndian_lt hseq (hword ▸ hb.2))

theorem isAfter_of_lt {cursor : Option ID} {last id : ID} (h : ∀ c, cursor = some c → c ≤ last) (hlt : last < id) :
    isAfter cursor id = true := by
  cases cursor with
  | none => rfl
  | some c => exact decide_eq_true (lt_of_le_of_lt (h c rfl) hlt)

theorem lt_of_isAfter {cursor : Option ID} {a b : ID} (ha : isAfter cursor a = false) (hb : isAfter cursor b = true) :
    a < b := by
  cases cursor with
  | none => cases ha
  | some c =>
    simp only [isAfter, decide_eq_false_iff_not, not_lt, decide_eq_true_eq] at ha hb
    exact lt_of_le_of_lt ha hb

/-! ## The invariant -/

structure Numbered (q : Queue V) : Prop where
  ordered : Ordered q.entries
  stored : q.last = q.lastID.getD (mkID 0 0)
  fits : Fits q.last
  entries : ∀ e ∈ q.entries, e.1 ≤ q.last
  cursor : ∀ c, q.cursor = some c → c ≤ q.last
  log : ∀ id ∈ q.log, id ≤ q.last
  minted : ∀ id ∈ q.minted, id ≤ q.last ∧ Fits id
  minted_lt : q.minted.Pairwise (· < ·)

structure Tracked (decodes : V → Bool) (q : Queue V) : Prop where
  covered : ∀ e ∈ q.entries, decodes e.2 = true →
    isAfter q.cursor e.1 = true ∨ e.1 ∈ q.pending ∨ e.1 ∈ q.released.map (·.1)
  behind : ∀ id, id ∈ q.pending ∨ id ∈ q.released.map (·.1) ∨ id ∈ q.batch.map (·.1) ∨ id ∈ q.sent →
    isAfter q.cursor id = false

structure Apart (q : Queue V) : Prop where
  apart : ∀ id ∈ q.pending, id ∈ q.released.map (·.1) → id ∈ q.twice
  once : q.stopped = false → ∀ id, id ∉ q.twice → (q.released.map (·.1)).count id ≤ 1

structure InTurn (decodes : V → Bool) (q : Queue V) : Prop where
  firsts : q.log.eraseDups.Pairwise (· < ·)
  ended : q.stopped = true → q.batch = []
  reclaims : ∀ id, (id, true) ∈ q.batch → id ∈ q.log
  released : q.stopped = false → ∀ id ∈ q.released.map (·.1), id ∈ q.log
  sent : ∀ id ∈ q.sent, id ∈ q.log
  sorted : q.batch.Pairwise fun a b => a.2 = false → b.2 = false → a.1 < b.1
  batch : ∀ id, (id, false) ∈ q.batch → id ∉ q.log → ∀ m ∈ q.log, m < id
  undelivered : ∀ e ∈ q.entries, decodes e.2 = true → e.1 ∉ q.log → ∀ m ∈ q.log, m < e.1
  seen : q.stopped = false → ∀ e ∈ q.entries, decodes e.2 = true →
    e.1 ∈ q.log ∨ (e.1, false) ∈ q.batch ∨ isAfter q.cursor e.1 = true

structure Inv (decodes : V → Bool) (q : Queue V) : Prop where
  numbered : Numbered q
  tracked : Tracked decodes q
  apart : Apart q
  inTurn : InTurn decodes q

variable {decodes : V → Bool} {q q' : Queue V}

theorem inv_init : Inv decodes ({} : Queue V) where
  numbered :=
    ⟨List.Pairwise.nil, rfl, ⟨Nat.two_pow_pos 64, Nat.two_pow_pos 64⟩, by simp, by simp, by simp, by simp,
      List.Pairwise.nil⟩
  tracked := ⟨by simp, by simp⟩
  apart := ⟨by simp, by simp⟩
  inTurn := ⟨by simp, by simp, by simp, by simp, by simp, by simp, by simp, by simp, by simp⟩

attribute [local simp] restart

theorem inv_restart (h : Inv decodes q) : Inv decodes (restart q) where
  numbered := by
    have hlast : (restart q).last = q.last := h.numbered.stored.symm
    exact ⟨h.numbered.ordered, rfl, hlast ▸ h.numbered.fits, fun e he => hlast ▸ h.numbered.entries e he,
      nofun, fun id hid => hlast ▸ h.numbered.log id hid,
      fun id hid => hlast ▸ h.numbered.minted id hid, h.numbered.minted_lt⟩
  tracked := ⟨fun _ _ _ => .inl rfl, by simp⟩
  apart := ⟨by simp, by simp⟩
  inTurn := ⟨h.inTurn.firsts, by simp, by simp, by simp, by simp,
    List.Pairwise.nil, by simp, h.inTurn.undelivered, fun _ _ _ _ => .inr (.inr rfl)⟩

theorem inv_publish (h : Inv decodes q) {now : UInt64} (hn : HasNext q.last now) (v : V) (committed : Bool) :
    Inv decodes (publish q now v committed) := by
  unfold publish
  split
  swap
  · exact h
  have hlt := lt_next hn
  have hle : ∀ {id}, id ≤ q.last → id ≤ next q.last now := fun hid => le_of_lt (lt_of_le_of_lt hid hlt)
  have hafter : isAfter q.cursor (next q.last now) = true := isAfter_of_lt h.numbered.cursor hlt
  have hfits := fits_next h.numbered.fits now
  refine ⟨⟨ordered_insertKey h.numbered.ordered _ _, rfl, hfits,
      forall_mem_insertKey (le_refl _) fun e he => hle (h.numbered.entries e he),
      fun c hc => hle (h.numbered.cursor c hc), fun id hid => hle (h.numbered.log id hid),
      forall_mem_append.2
        ⟨fun id hid => (h.numbered.minted id hid).imp_left hle, forall_mem_singleton.2 ⟨le_refl _, hfits⟩⟩, ?_⟩,
    ⟨forall_mem_insertKey (fun _ => .inl hafter) h.tracked.covered, h.tracked.behind⟩, ⟨h.apart.apart, h.apart.once⟩,
    { h.inTurn with
      undelivered := forall_mem_insertKey (fun _ _ m hm => lt_of_le_of_lt (h.numbered.log m hm) hlt) h.inTurn.undelivered
      seen := fun hs => forall_mem_insertKey (fun _ => .inr (.inr hafter)) (h.inTurn.seen hs) }⟩
  refine pairwise_append.2 ⟨h.numbered.minted_lt, pairwise_singleton _ _, fun a ha b hb => ?_⟩
  rw [mem_singleton.1 hb]
  exact lt_of_le_of_lt (h.numbered.minted a ha).1 hlt

structure Forgets (decodes : V → Bool) (q q' : Queue V) : Prop where
  same : ∃ entries pending, q' = { q with entries, pending }
  entries : q'.entries.Sublist q.entries
  pending : ∀ id ∈ q'.pending, id ∈ q.pending
  keep : ∀ e ∈ q'.entries, decodes e.2 = true → e.1 ∈ q.pending → e.1 ∈ q'.pending

theorem inv_forgets (h : Inv decodes q) (hf : Forgets decodes q q') : Inv decodes q' := by
  obtain ⟨⟨entries, pending, rfl⟩, hsub, hpend, hkeep⟩ := hf
  have hmem : ∀ e ∈ entries, e ∈ q.entries := fun e he => hsub.subset he
  refine ⟨{ h.numbered with
      ordered := h.numbered.ordered.sublist hsub
      entries := fun e he => h.numbered.entries e (hmem e he) }, ⟨fun e he hd => ?_, fun id hid => ?_⟩,
    ⟨fun id hid hrel => h.apart.apart id (hpend id hid) hrel, h.apart.once⟩,
    { h.inTurn with
      undelivered := fun e he => h.inTurn.undelivered e (hmem e he)
      seen := fun hs e he => h.inTurn.seen hs e (hmem e he) }⟩
  · rcases h.tracked.covered e (hmem e he) hd with hc | hc | hc
    · exact .inl hc
    · exact .inr (.inl (hkeep e he hd hc))
    · exact .inr (.inr hc)
  · exact h.tracked.behind id (hid.imp_left (hpend id))

theorem inv_releaseMessage (h : Inv decodes q) {id : ID} (hid : id ∈ q.sent) (due : Nat) :
    Inv decodes (releaseMessage q id due) := by
  have hrel : (releaseMessage q id due).released.map (·.1) = q.released.map (·.1) ++ [id] := by simp [releaseMessage]
  have hpend : ∀ x, x ∈ (releaseMessage q id due).pending ↔ x ∈ q.pending ∧ x ≠ id := by
    simp [releaseMessage]
  have htwice : ∀ x ∈ q.twice, x ∈ (releaseMessage q id due).twice := by
    intro x hx
    simp only [releaseMessage]
    split
    · exact mem_cons_of_mem _ hx
    · exact hx
  refine ⟨{ h.numbered with }, ⟨fun e he hd => ?_, fun x hx => ?_⟩,
    ⟨fun x hx hr => ?_, fun hs x hx => ?_⟩,
    { h.inTurn with released := fun hs => ?_ }⟩
  · rw [hrel, hpend]
    rcases h.tracked.covered e he hd with hc | hc | hc
    · exact .inl hc
    · by_cases heq : e.1 = id
      · exact .inr (.inr (by simp [heq]))
      · exact .inr (.inl ⟨hc, heq⟩)
    · exact .inr (.inr (mem_append_left _ hc))
  · rw [hrel, hpend] at hx
    rcases hx with hx | hx | hx
    · exact h.tracked.behind x (.inl hx.1)
    · rcases mem_append.1 hx with hx | hx
      · exact h.tracked.behind x (.inr (.inl hx))
      · exact mem_singleton.1 hx ▸ h.tracked.behind id (.inr (.inr (.inr hid)))
    · exact h.tracked.behind x (.inr (.inr hx))
  · rw [hrel] at hr
    obtain ⟨hp, hne⟩ := (hpend x).1 hx
    rcases mem_append.1 hr with hr | hr
    · exact htwice x (h.apart.apart x hp hr)
    · exact absurd (mem_singleton.1 hr) hne
  · rw [hrel, count_append, count_singleton]
    have hold := h.apart.once hs x (fun hm => hx (htwice x hm))
    by_cases heq : id = x
    · subst heq
      have hnot : id ∉ q.released.map (·.1) := by
        intro hm
        refine hx ?_
        simp only [releaseMessage, if_pos hm]
        exact mem_cons_self
      rw [count_eq_zero.2 hnot]
      simp
    · rw [beq_eq_false_iff_ne.2 heq]
      exact hold
  rw [hrel]
  exact forall_mem_append.2 ⟨h.inTurn.released hs, forall_mem_singleton.2 (h.inTurn.sent id hid)⟩

theorem inv_putBack (h : Inv decodes q) : Inv decodes (putBack q) := by
  have hrel : (putBack q).released.map (·.1) = q.released.map (·.1) ++ q.batch.map (·.1) := by
    simp [putBack, Function.comp_def]
  have hpend : ∀ x, x ∈ (putBack q).pending ↔ x ∈ q.pending ∧ x ∉ q.batch.map (·.1) := by
    intro x
    simp only [putBack, mem_filter, decide_eq_true_eq]
  refine ⟨{ h.numbered with }, ⟨fun e he hd => ?_, fun x hx => ?_⟩,
    ⟨fun x hx hr => ?_, nofun⟩,
    ⟨h.inTurn.firsts, fun _ => rfl, by simp [putBack], nofun, h.inTurn.sent, List.Pairwise.nil,
      by simp [putBack], h.inTurn.undelivered, nofun⟩⟩
  · rw [hrel, hpend]
    rcases h.tracked.covered e he hd with hc | hc | hc
    · exact .inl hc
    · by_cases hb : e.1 ∈ q.batch.map (·.1)
      · exact .inr (.inr (mem_append_right _ hb))
      · exact .inr (.inl ⟨hc, hb⟩)
    · exact .inr (.inr (mem_append_left _ hc))
  · rw [hrel, hpend] at hx
    rcases hx with hx | hx | hx | hx
    · exact h.tracked.behind x (.inl hx.1)
    · rcases mem_append.1 hx with hx | hx
      · exact h.tracked.behind x (.inr (.inl hx))
      · exact h.tracked.behind x (.inr (.inr (.inl hx)))
    · cases hx
    · exact h.tracked.behind x (.inr (.inr (.inr hx)))
  rw [hrel] at hr
  obtain ⟨hp, hnb⟩ := (hpend x).1 hx
  rcases mem_append.1 hr with hr | hr
  · exact h.apart.apart x hp hr
  · exact absurd hr hnb

/-- A first delivery is of an ID above all those delivered. -/
theorem firsts_append {log : List ID} {id : ID} (h : log.eraseDups.Pairwise (· < ·))
    (hid : id ∈ log ∨ ∀ m ∈ log, m < id) : (log ++ [id]).eraseDups.Pairwise (· < ·) := by
  rw [eraseDups_append]
  by_cases hm : id ∈ log
  · have hnil : [id].removeAll log = [] := by simp [List.removeAll, hm]
    rw [hnil]
    simpa using h
  have hone : [id].removeAll log = [id] := by simp [List.removeAll, hm]
  rw [hone]
  refine pairwise_append.2 ⟨h, by simp [eraseDups_cons], fun a ha b hb => ?_⟩
  have hb' : b = id := by simpa [eraseDups_cons] using hb
  rw [hb']
  exact (hid.resolve_left hm) a (mem_eraseDups.1 ha)

theorem inv_deliver (h : Inv decodes q) : Inv decodes (deliver q) := by
  unfold deliver
  split
  · exact h
  rename_i m ms hb
  have hmb : m ∈ q.batch := hb ▸ mem_cons_self
  have hms : ∀ x ∈ ms, x ∈ q.batch := fun x hx => hb ▸ mem_cons_of_mem _ hx
  have hbehind := h.tracked.behind m.1 (.inr (.inr (.inl (mem_map_of_mem hmb))))
  have hgo : q.stopped = false := by
    cases hs : q.stopped with
    | false => rfl
    | true => rw [h.inTurn.ended hs] at hmb; cases hmb
  have hsorted := h.inTurn.sorted
  rw [hb] at hsorted
  obtain ⟨hfirst, hrest⟩ := pairwise_cons.1 hsorted
  have hm : m.1 ∈ q.log ∨ m.2 = false ∧ ∀ x ∈ q.log, x < m.1 := by
    by_cases hlog : m.1 ∈ q.log
    · exact .inl hlog
    have hflag : m.2 = false := by
      cases hf : m.2 with
      | false => rfl
      | true => exact absurd (h.inTurn.reclaims m.1 (hf ▸ hmb)) hlog
    exact .inr ⟨hflag, h.inTurn.batch m.1 (hflag ▸ hmb) hlog⟩
  have hle : m.1 ≤ q.last := by
    cases hc : q.cursor with
    | none => rw [hc] at hbehind; cases hbehind
    | some c =>
      have hmc : m.1 ≤ c := by simpa [hc, isAfter] using hbehind
      exact le_trans hmc (h.numbered.cursor c hc)
  -- Above all that was delivered before, and the next one delivered is below it: `m` or one of the log.
  have hlift : ∀ x, x ∉ q.log ++ [m.1] → (∀ y ∈ q.log, y < x) → (m.2 = false → m.1 < x) →
      ∀ y ∈ q.log ++ [m.1], y < x := by
    intro x hx hlog hnext
    exact forall_mem_append.2 ⟨hlog, forall_mem_singleton.2 (hm.elim (hlog m.1) fun hf => hnext hf.1)⟩
  refine ⟨{ h.numbered with log := forall_mem_append.2 ⟨h.numbered.log, forall_mem_singleton.2 hle⟩ },
    ⟨h.tracked.covered, fun id hid => ?_⟩,
    ⟨h.apart.apart, h.apart.once⟩,
    ⟨firsts_append h.inTurn.firsts (hm.imp_right (·.2)), fun hs => (nomatch hgo.symm.trans hs), fun id hid => ?_,
      fun hs id hid => mem_append_left _ (h.inTurn.released hs id hid),
      forall_mem_append.2 ⟨fun id hid => mem_append_left _ (h.inTurn.sent id hid), fun _ => mem_append_right _⟩, hrest,
      fun id hid hlog => ?_, fun e he hd hlog => ?_, fun hs e he hd => ?_⟩⟩
  · rcases hid with hid | hid | hid | hid
    · exact h.tracked.behind id (.inl hid)
    · exact h.tracked.behind id (.inr (.inl hid))
    · obtain ⟨x, hx, rfl⟩ := mem_map.1 hid
      exact h.tracked.behind x.1 (.inr (.inr (.inl (mem_map_of_mem (hms x hx)))))
    rcases mem_append.1 hid with hid | hid
    · exact h.tracked.behind id (.inr (.inr (.inr hid)))
    · exact mem_singleton.1 hid ▸ hbehind
  · exact mem_append_left _ (h.inTurn.reclaims id (hms _ hid))
  · exact hlift id hlog (h.inTurn.batch id (hms _ hid) (fun hl => hlog (mem_append_left _ hl)))
      (fun hf => hfirst _ hid hf rfl)
  · have hnot : e.1 ∉ q.log := fun hl => hlog (mem_append_left _ hl)
    refine hlift e.1 hlog (h.inTurn.undelivered e he hd hnot) (fun hf => ?_)
    rcases h.inTurn.seen hgo e he hd with hs | hs | hs
    · exact absurd hs hnot
    · rw [hb] at hs
      rcases mem_cons.1 hs with hs | hs
      · exact absurd (mem_append_right _ (mem_singleton.2 (congrArg Prod.fst hs))) hlog
      · exact hfirst _ hs hf rfl
    · exact lt_of_isAfter hbehind hs
  rcases h.inTurn.seen hs e he hd with hs | hs | hs
  · exact .inl (mem_append_left _ hs)
  · rw [hb] at hs
    rcases mem_cons.1 hs with hs | hs
    · exact .inl (mem_append_right _ (mem_singleton.2 (congrArg Prod.fst hs)))
    · exact .inr (.inl hs)
  · exact .inr (.inr hs)

theorem inv_fetches {back new : List ID} (h : Inv decodes q) (hgo : q.stopped = false) (hb : q.batch = [])
    (hf : Fetches decodes q q' back new) : Inv decodes q' := by
  have hmem : ∀ e ∈ q'.entries, e ∈ q.entries := fun e he => hf.entries.subset he
  have hrel : ∀ id ∈ q'.released.map (·.1), id ∈ q.released.map (·.1) := by
    intro id hid
    obtain ⟨r, hr, rfl⟩ := mem_map.1 hid
    exact mem_map_of_mem (hf.released r hr)
  have hkeep : ∀ id, isAfter q.cursor id = false → isAfter q'.cursor id = false := by
    intro id hid
    cases ha : isAfter q'.cursor id with
    | false => rfl
    | true => rw [hf.cursor_mono id ha] at hid; cases hid
  have hback : ∀ id ∈ back, isAfter q.cursor id = false :=
    fun id hid => h.tracked.behind id (.inr (.inl (hf.back_mem id hid)))
  obtain ⟨entries, cursor, pending, released, batch, rfl⟩ := hf.same
  obtain rfl : batch = _ := hf.batch
  refine ⟨{ h.numbered with
      ordered := h.numbered.ordered.sublist hf.entries
      entries := fun e he => h.numbered.entries e (hmem e he)
      cursor := fun c hc => ?_ },
    ⟨fun e he hd => ?_, fun id hid => ?_⟩, ⟨fun id hid hr => ?_, fun hs id hid => ?_⟩,
    { h.inTurn with
      ended := fun hs => nomatch hgo.symm.trans hs
      reclaims := fun id hid => h.inTurn.released hgo id (hf.back_mem id (by simpa using hid))
      released := fun hs id hid => h.inTurn.released hgo id (hrel id hid)
      sorted := ?_
      batch := fun id hid => ?_
      undelivered := fun e he => h.inTurn.undelivered e (hmem e he)
      seen := fun hs e he hd => ?_ }⟩
  · rcases hf.cursor_mem c hc with hc | ⟨e, he, rfl⟩
    · exact h.numbered.cursor c hc
    · exact h.numbered.entries e he
  · rcases h.tracked.covered e (hmem e he) hd with hc | hc | hc
    · rcases hf.passed e (hmem e he) hd hc with hp | hp
      · exact .inr (.inl (hf.pending_keep e (hmem e he) hd (.inl hp)))
      · exact .inl hp
    · exact .inr (.inl (hf.pending_keep e (hmem e he) hd (.inr (.inr hc))))
    rcases hf.cover e (hmem e he) hd hc with hp | hp
    · exact .inr (.inr hp)
    · exact .inr (.inl (hf.pending_keep e (hmem e he) hd (.inr (.inl hp))))
  · rcases hid with hid | hid | hid | hid
    · rcases hf.pending id hid with hn | hn | hn
      · exact (hf.new_after id hn).2
      · exact hkeep id (hback id hn)
      · exact hkeep id (h.tracked.behind id (.inl hn))
    · exact hkeep id (h.tracked.behind id (.inr (.inl (hrel id hid))))
    · have hid' : id ∈ back ∨ id ∈ new := by simpa using hid
      exact hid'.elim (fun hn => hkeep id (hback id hn)) (fun hn => (hf.new_after id hn).2)
    · exact hkeep id (h.tracked.behind id (.inr (.inr (.inr hid))))
  · rcases hf.pending id hid with hn | hn | hn
    · have hnot := h.tracked.behind id (.inr (.inl (hrel id hr)))
      rw [(hf.new_after id hn).1] at hnot
      cases hnot
    · -- Read again and still released: it was in the list twice.
      by_contra hone
      have hcount := hf.count id
      have hle := h.apart.once hgo id hone
      have h1 := count_pos_iff.2 hr
      have h2 := count_pos_iff.2 hn
      omega
    · exact h.apart.apart id hn (hrel id hr)
  · have hcount := hf.count id
    have hle := h.apart.once hs id hid
    omega
  · rw [pairwise_append]
    refine ⟨pairwise_map.2 (pairwise_of_forall (by simp)), pairwise_map.2 (hf.new_sorted.imp fun hab _ _ => hab), ?_⟩
    intro a ha b hb' hfa
    obtain ⟨x, -, rfl⟩ := mem_map.1 ha
    cases hfa
  · obtain ⟨e, he, rfl, hd⟩ := hf.new_stored id (by simpa using hid)
    exact h.inTurn.undelivered e he hd
  rcases h.inTurn.seen hgo e (hmem e he) hd with hc | hc | hc
  · exact .inl hc
  · rw [hb] at hc
    cases hc
  rcases hf.passed e (hmem e he) hd hc with hp | hp
  · exact .inr (.inl (by simpa using hp))
  · exact .inr (.inr hp)

/-! ## Runs -/

/-- A trim that fails has passed no pending entry, and the numbering does not wrap. -/
def Orderly (q : Queue V) : Act V → Prop
  | .publish now _ _ => HasNext q.last now
  | .trimStream cutoff f => f = .ok ∨ ∀ id ∈ trimmed q cutoff f, id ∉ q.pending
  | _ => True

instance (q : Queue V) (a : Act V) : Decidable (Orderly q a) := by
  cases a <;> unfold Orderly <;> infer_instance

theorem forgets_delete (ids : List ID) : Forgets decodes q (delete q ids) :=
  ⟨⟨_, _, rfl⟩, filter_sublist, fun _ h => h, fun _ _ _ h => h⟩

theorem forgets_forget {entries : List (ID × V)} {ids : List ID} (hs : entries.Sublist q.entries)
    (h : ∀ e ∈ entries, e.1 ∈ q.pending → e.1 ∉ ids) :
    Forgets decodes q (forget { q with entries } ids) :=
  ⟨⟨_, _, rfl⟩, hs, fun _ hid => mem_of_mem_filter hid,
    fun e he _ hp => mem_filter.2 ⟨hp, by simpa using h e he hp⟩⟩

theorem forgets_trimStream {cutoff : Nat} {f : TrimFault} (h : f = .ok ∨ ∀ id ∈ trimmed q cutoff f, id ∉ q.pending) :
    Forgets decodes q (trimStream q cutoff f) := by
  have hfail : (∀ id ∈ trimmed q cutoff f, id ∉ q.pending) →
      Forgets decodes q (forget q (trimmed q cutoff f)) := fun hp =>
    forgets_forget (List.Sublist.refl _) (fun e _ he hm => hp e.1 hm he)
  cases f with
  | ok =>
    refine forgets_forget filter_sublist (fun e he _ hm => ?_)
    obtain ⟨x, hx, hxe⟩ := mem_map.1 hm
    have hlt : x.1 < mkID cutoff 0 := by simpa using (mem_filter.1 hx).2
    have hge : ¬ e.1 < mkID cutoff 0 := by simpa using (mem_filter.1 he).2
    exact hge (hxe ▸ hlt)
  | read | commit => exact hfail (h.resolve_left nofun)

theorem inv_step (q : Queue V) (a : Act V) (h : Inv decodes q) (ho : Orderly q a) : Inv decodes (step decodes q a) := by
  cases a with
  | publish now v committed => exact inv_publish h ho v committed
  | read now f =>
    simp only [step]
    split
    next hgo =>
      obtain ⟨back, new, hf⟩ := nextBatch_spec decodes h.numbered.ordered now f
      exact inv_fetches h hgo.1 hgo.2 hf
    · exact h
  | deliver => exact inv_deliver h
  | putBack => exact inv_putBack h
  | ackMessage id committed =>
    simp only [step]
    split
    · refine inv_forgets h (forgets_forget filter_sublist (fun e he _ => ?_))
      simpa using (mem_filter.1 he).2
    · exact h
  | ackInBatch ids => exact inv_forgets h (forgets_delete ids)
  | acked ids =>
    simp only [step]
    split
    next hgone =>
      exact inv_forgets h (forgets_forget (List.Sublist.refl _)
        (fun e he _ hid => hgone e.1 hid (mem_map_of_mem he)))
    · exact h
  | releaseMessage id due =>
    simp only [step]
    split
    next hs => exact inv_releaseMessage h hs due
    · exact h
  | trimStream cutoff f => exact inv_forgets h (forgets_trimStream ho)
  | restart => exact inv_restart h

/-- In every run whose trims fail only before they pass a pending entry and whose numbering does not wrap, every stored
entry that decodes is ahead of the cursor, pending or released; none is pending and released unless it was released
twice; entries are first delivered in increasing order; the keys minted increase, and the next is ahead of the
cursor. -/
theorem embedded_queue_loses_nothing (decodes : V → Bool) (stream : Bytes) (as : List (Act V))
    (h : Meets (step decodes) Orderly {} as) :
    let q := run (step decodes) {} as
    (∀ e ∈ q.entries, decodes e.2 = true →
      isAfter q.cursor e.1 = true ∨ e.1 ∈ q.pending ∨ e.1 ∈ q.released.map (·.1)) ∧
    (∀ id ∈ q.pending, id ∈ q.released.map (·.1) → id ∈ q.twice) ∧
    q.log.eraseDups.Pairwise (· < ·) ∧
    q.minted.Pairwise (fun a b => entryKey stream a < entryKey stream b) ∧
    ∀ now v, Orderly q (.publish now v true) → isAfter q.cursor (next q.last now) = true := by
  have hinv := inv_of_meets (Inv decodes) inv_step inv_init h
  refine ⟨hinv.tracked.covered, hinv.apart.apart, hinv.inTurn.firsts, ?_, fun now v hn => ?_⟩
  · exact hinv.numbered.minted_lt.imp_of_mem fun _ hb hlt => entryKey_lt stream (hinv.numbered.minted _ hb).2 hlt
  · exact isAfter_of_lt hinv.numbered.cursor (lt_next hn)

/-- The clock steps back, an entry does not decode, one delivered is released and read again, the other acknowledged. -/
def redelivered : List (Act Bool) :=
  [.publish 5 true true, .publish 3 true true, .publish 7 false true, .read 0 {}, .deliver, .deliver,
    .releaseMessage (mkID 5 0) 9, .ackMessage (mkID 5 1) true, .read 10 {}, .deliver, .trimStream 5 .commit]

theorem embedded_queue_loses_nothing_redelivered :
    (run (step id) {} redelivered).log = [mkID 5 0, mkID 5 1, mkID 5 0] ∧
      (run (step id) {} redelivered).log.eraseDups.Pairwise (· < ·) :=
  ⟨by decide, (embedded_queue_loses_nothing id [] redelivered (by decide)).2.2.1⟩

/-- A trim whose iterator fails behind the entry takes it off `pending` and leaves it in the store. -/
theorem failed_trim_strands_pending :
    let q := run (step id) {} [.publish 5 true true, .read 0 {}, .deliver, .trimStream 6 (.read 1)]
    (mkID 5 0, true) ∈ q.entries ∧ isAfter q.cursor (mkID 5 0) = false ∧ mkID 5 0 ∉ q.pending ∧ q.released = [] := by
  decide

end RelayMiner.Transport.EmbeddedQueue
