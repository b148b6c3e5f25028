import RelayMiner.Lib.Ordered
import RelayMiner.Lib.Runs
/-!
# The Redis consumer

`StreamsConsumer`: the read loop, which first hands over what is pending under
the consumer's name (`deliverOwnPending`) and then reads new entries; the
reclaim sweep, which claims what other consumers left pending; and the code that
receives the relays and settles them. A command of the read loop or of the sweep
can run and its reply be lost, and any command can fail.

Stream IDs are numbers, "0" being below every entry. Which entries are idle past
`ClaimIdleTimeout`, and how many a page holds, is part of the action, and so is
what everybody else does to the stream and the group (`elsewhere`): producers,
other consumers, the trim, the reaper, a group removed and created again. Left
out: the end of the context, which is the end of the run, the store health and
the wait for room in the channel, which only delay a step, and the
duplicate-check mark of a reclaimed relay.
-/
open RelayMiner.Lib

namespace RelayMiner.Transport.RedisConsumer

open List

variable {C : Type}

/-! ## The stream and the group -/

/-- The fields of an entry, by what becomes of them: `parseMessage` takes a
relay and refuses a malformed entry; `gone` has none, being pending and no
longer in the stream. -/
inductive Values where
  | relay
  | malformed
  | gone
  deriving DecidableEq

abbrev Message := Nat × Values

/-- The supplier's stream and its consumer group. A pending entry with no owner
is one that was released. -/
structure Redis (C : Type) where
  stream : List Message
  last : Nat
  pending : List (Nat × Option C)
  ordered : Ordered pending
  positive : ∀ p ∈ pending, 0 < p.1

def newEntries (r : Redis C) (count : Nat) : List Message := (r.stream.filter fun m => r.last < m.1).take count

def ownEntries [DecidableEq C] (me : C) (r : Redis C) (after count : Nat) : List Message :=
  ((r.pending.filter fun p => after < p.1 ∧ p.2 = some me).take count).map fun p =>
    (p.1, (r.stream.lookup p.1).getD .gone)

def deliver (me : C) (ms : List Message) (l : List (Nat × Option C)) : List (Nat × Option C) :=
  ms.foldl (fun l m => insertKey m.1 (some me) l) l

variable {l : List (Nat × Option C)}

theorem ordered_deliver (me : C) {ms : List Message} (h : Ordered l) :
    Ordered (deliver me ms l) := by
  induction ms generalizing l with
  | nil => exact h
  | cons m ms ih => exact ih (ordered_insertKey h m.1 (some me))

theorem mem_deliver {me : C} {ms : List Message} {p : Nat × Option C}
    (h : p ∈ deliver me ms l) : p.1 ∈ ms.map Prod.fst ∨ p ∈ l := by
  induction ms generalizing l with
  | nil => exact .inr h
  | cons m ms ih =>
    rw [map_cons, mem_cons, or_assoc]
    rcases ih h with hp | hp
    · exact .inr (.inl hp)
    exact forall_mem_insertKey (P := fun p => p.1 = m.1 ∨ _ ∨ p ∈ l) (.inl rfl) (fun _ h => .inr (.inr h)) p hp

theorem newEntries_pos {r : Redis C} {count : Nat} {id : Nat} (h : id ∈ (newEntries r count).map Prod.fst) : 0 < id := by
  obtain ⟨m, hm, rfl⟩ := mem_map.1 h
  have hlt := (mem_filter.1 (mem_of_mem_take hm)).2
  exact Nat.zero_lt_of_lt (of_decide_eq_true hlt)

def xReadGroup (me : C) (r : Redis C) (count : Nat) : Redis C where
  stream := r.stream
  last := ((newEntries r count).getLast?.map Prod.fst).getD r.last
  pending := deliver me (newEntries r count) r.pending
  ordered := ordered_deliver me r.ordered
  positive p hp := (mem_deliver hp).elim newEntries_pos (r.positive p)

/-- XCLAIM takes an entry that is pending and idle, and drops it from the
pending list when it is no longer in the stream. -/
def claimed (me : C) (r : Redis C) (ids : List Nat) (idle : Nat → Bool) (p : Nat × Option C) : Option (Nat × Option C) :=
  if p.1 ∈ ids ∧ idle p.1 then if (r.stream.lookup p.1).isSome then some (p.1, some me) else none else some p

def claimReply (r : Redis C) (ids : List Nat) (idle : Nat → Bool) : List Message :=
  ids.filterMap fun id =>
    if id ∈ r.pending.map Prod.fst ∧ idle id then (r.stream.lookup id).map fun v => (id, v) else none

theorem claimed_key {me : C} {r : Redis C} {ids : List Nat} {idle : Nat → Bool} {p q : Nat × Option C}
    (h : claimed me r ids idle p = some q) : q.1 = p.1 := by
  unfold claimed at h
  split_ifs at h
  · cases h; rfl
  · cases h; rfl

def xClaim (me : C) (r : Redis C) (ids : List Nat) (idle : Nat → Bool) : Redis C where
  stream := r.stream
  last := r.last
  pending := r.pending.filterMap (claimed me r ids idle)
  ordered := r.ordered.filterMap _ fun p q hlt p' hp q' hq => by
    rw [claimed_key hp, claimed_key hq]
    exact hlt
  positive q hq := by
    obtain ⟨p, hp, hpq⟩ := List.mem_filterMap.1 hq
    rw [claimed_key hpq]
    exact r.positive p hp

def xAck (r : Redis C) (id : Nat) : Redis C where
  stream := r.stream
  last := r.last
  pending := r.pending.filter fun p => p.1 ≠ id
  ordered := r.ordered.filter _
  positive p hp := r.positive p (List.mem_of_mem_filter hp)

def xAckDel (r : Redis C) (id : Nat) : Redis C := { xAck r id with stream := r.stream.filter fun m => m.1 ≠ id }

def disown (id : Nat) (p : Nat × Option C) : Nat × Option C := if p.1 = id then (p.1, none) else p

@[simp] theorem disown_key (id : Nat) (p : Nat × Option C) : (disown id p).1 = p.1 := by
  unfold disown
  split_ifs <;> rfl

def xNack (r : Redis C) (id : Nat) : Redis C where
  stream := r.stream
  last := r.last
  pending := r.pending.map (disown id)
  ordered := List.pairwise_map.2 (r.ordered.imp fun h => by simpa using h)
  positive q hq := by
    obtain ⟨p, hp, rfl⟩ := List.mem_map.1 hq
    rw [disown_key]
    exact r.positive p hp

/-! ## The consumer -/

/-- The read loop: between two connections, in `eachOwnPending` with the rest of
the page it read, or in `consumeMessagesUntilError` with the rest of the reply. -/
inductive Reader where
  | down
  | own (page : List Message)
  | new (batch : List Message)

/-- The reclaim: at rest, about to read a page of the pending list, about to
claim from it, or with the rest of what it claimed. A `next` of `none` is "0-0". -/
inductive Sweep where
  | rest
  | scan (start : Nat)
  | claim (ids : List Nat) (next : Option Nat)
  | hand (messages : List Message) (next : Option Nat)

def Reader.messages : Reader → List Message
  | .down => []
  | .own page => page
  | .new batch => batch

def Sweep.messages : Sweep → List Message
  | .hand messages _ => messages
  | _ => []

structure World (C : Type) where
  redis : Redis C
  channel : List Nat := []
  held : List Nat := []
  ownPendingAfter : Nat := 0
  ownPendingDone : Bool := false
  reader : Reader := .down
  sweep : Sweep := .rest

def send (w : World C) (id : Nat) : World C := { w with channel := w.channel ++ [id] }

/-- What the read loop and the sweep do with one message; `ran` tells whether
the XACKDEL ran. -/
def handOver (w : World C) (m : Message) (ran : Bool) : World C :=
  match m.2 with
  | .relay => send w m.1
  | _ => if ran then { w with redis := xAckDel w.redis m.1 } else w

def handOverOwn (w : World C) (m : Message) (ran : Bool) : World C :=
  let w' :=
    match m.2 with
    | .gone => if ran then { w with redis := xAck w.redis m.1 } else w
    | .malformed => if ran then { w with redis := xAckDel w.redis m.1 } else w
    | .relay => send w m.1
  { w' with ownPendingAfter := m.1 }

def scanned [DecidableEq C] (me : C) (r : Redis C) (start count : Nat) (idle : Nat → Bool) : Sweep :=
  let page := (r.pending.filter fun p => start ≤ p.1 ∧ idle p.1).take count
  match page.getLast? with
  | none => .hand [] none
  | some p =>
    let ids := (page.filter fun p => p.2 ≠ some me).map Prod.fst
    let next := if page.length < count then none else some (p.1 + 1)
    if ids = [] then .hand [] next else .claim ids next

/-- A command runs and answers, runs and its reply is lost, or does not run. -/
inductive Reply where
  | answered
  | lost
  | failed

inductive Act (C : Type) where
  | connect
  | readOwn (count : Nat) (answered : Bool)
  | handOwn (ran : Bool)
  | readNew (count : Nat) (reply : Reply)
  | handNew (ran : Bool)
  | claimPendingMessages
  | xPending (count : Nat) (idle : Nat → Bool) (answered : Bool)
  | xClaim (idle : Nat → Bool) (reply : Reply)
  | handClaimed (ran : Bool)
  | receive
  | ackMessage (i : Nat) (ran : Bool)
  | releaseMessage (i : Nat) (ran : Bool)
  | elsewhere (r : Redis C)

def connect (w : World C) : World C :=
  match w.reader with
  | .down => { w with reader := if w.ownPendingDone then .new [] else .own [] }
  | _ => w

def readOwn [DecidableEq C] (me : C) (w : World C) (count : Nat) (answered : Bool) : World C :=
  match w.reader with
  | .own [] =>
    if answered then
      match ownEntries me w.redis w.ownPendingAfter (count + 1) with
      | [] => { w with ownPendingDone := true, reader := .new [] }
      | m :: page => { w with reader := .own (m :: page) }
    else { w with reader := .down }
  | _ => w

def handOwn (w : World C) (ran : Bool) : World C :=
  match w.reader with
  | .own (m :: page) => { handOverOwn w m ran with reader := .own page }
  | _ => w

def readNew (me : C) (w : World C) (count : Nat) (reply : Reply) : World C :=
  match w.reader with
  | .new [] =>
    match reply with
    | .answered => { w with redis := xReadGroup me w.redis (count + 1), reader := .new (newEntries w.redis (count + 1)) }
    | .lost => { w with redis := xReadGroup me w.redis (count + 1), reader := .down }
    | .failed => { w with reader := .down }
  | _ => w

def handNew (w : World C) (ran : Bool) : World C :=
  match w.reader with
  | .new (m :: batch) => { handOver w m ran with reader := .new batch }
  | _ => w

def claimPendingMessages (w : World C) : World C :=
  match w.sweep with
  | .rest => { w with sweep := .scan 0 }
  | _ => w

def xPending [DecidableEq C] (me : C) (w : World C) (count : Nat) (idle : Nat → Bool) (answered : Bool) : World C :=
  match w.sweep with
  | .scan start => { w with sweep := if answered then scanned me w.redis start (count + 1) idle else .rest }
  | _ => w

def claim (me : C) (w : World C) (idle : Nat → Bool) (reply : Reply) : World C :=
  match w.sweep with
  | .claim ids next =>
    match reply with
    | .answered => { w with redis := xClaim me w.redis ids idle, sweep := .hand (claimReply w.redis ids idle) next }
    | .lost => { w with redis := xClaim me w.redis ids idle, sweep := .rest }
    | .failed => { w with sweep := .rest }
  | _ => w

def handClaimed (w : World C) (ran : Bool) : World C :=
  match w.sweep with
  | .hand (m :: messages) next => { handOver w m ran with sweep := .hand messages next }
  | .hand [] (some start) => { w with sweep := .scan start }
  | .hand [] none => { w with sweep := .rest }
  | _ => w

def receive (w : World C) : World C :=
  match w.channel with
  | [] => w
  | id :: channel => { w with channel, held := w.held ++ [id] }

/-- A held relay is given to the command `cmd`, and no longer held whatever the
command answers. -/
def settle (cmd : Redis C → Nat → Redis C) (w : World C) (i : Nat) (ran : Bool) : World C :=
  match w.held[i]? with
  | none => w
  | some id => { w with held := w.held.eraseIdx i, redis := if ran then cmd w.redis id else w.redis }

/-- Nobody else puts an entry under this consumer's name. -/
def elsewhere [DecidableEq C] (me : C) (w : World C) (r : Redis C) : World C :=
  if ∀ p ∈ r.pending, p.2 = some me → p ∈ w.redis.pending then { w with redis := r } else w

/-- A command of the reader, of the sweep or of a handler, or what others do with the stream. -/
def step [DecidableEq C] (me : C) (w : World C) : Act C → World C
  | .connect => connect w
  | .readOwn count answered => readOwn me w count answered
  | .handOwn ran => handOwn w ran
  | .readNew count reply => readNew me w count reply
  | .handNew ran => handNew w ran
  | .claimPendingMessages => claimPendingMessages w
  | .xPending count idle answered => xPending me w count idle answered
  | .xClaim idle reply => claim me w idle reply
  | .handClaimed ran => handClaimed w ran
  | .receive => receive w
  | .ackMessage i ran => settle xAckDel w i ran
  | .releaseMessage i ran => settle xNack w i ran
  | .elsewhere r => elsewhere me w r

/-! ## Where an entry of ours is -/

def Mine (me : C) (w : World C) (id : Nat) : Prop := (id, some me) ∈ w.redis.pending

instance [DecidableEq C] (me : C) (w : World C) (id : Nat) : Decidable (Mine me w id) := inferInstanceAs (Decidable (_ ∈ _))

def cursor (w : World C) : Nat :=
  match w.reader with
  | .own page => (page.getLast?.map Prod.fst).getD w.ownPendingAfter
  | _ => w.ownPendingAfter

def Ahead (w : World C) (id : Nat) : Prop := w.ownPendingDone = false ∧ cursor w < id

/-- In the channel, held by who received it, in the hands of the read loop or of
the sweep, or ahead of the own-pending pass. -/
def Covered (w : World C) (id : Nat) : Prop :=
  id ∈ w.channel ∨ id ∈ w.held ∨ id ∈ w.reader.messages.map Prod.fst ∨ id ∈ w.sweep.messages.map Prod.fst ∨ Ahead w id

instance (w : World C) (id : Nat) : Decidable (Ahead w id) := inferInstanceAs (Decidable (_ ∧ _))

instance (w : World C) (id : Nat) : Decidable (Covered w id) := inferInstanceAs (Decidable (_ ∨ _))

/-- A consumer that has just been made: whatever the group has pending under its
name, it has seen none of it. -/
structure Start (w : World C) : Prop where
  channel : w.channel = []
  held : w.held = []
  after : w.ownPendingAfter = 0
  done : w.ownPendingDone = false
  reader : w.reader = .down
  sweep : w.sweep = .rest

/-! ## What the commands do to the entries of ours -/

section commands

variable {me : C} {r : Redis C} {id other count : Nat} {ids : List Nat} {idle : Nat → Bool}

theorem mine_xReadGroup (h : (id, some me) ∈ (xReadGroup me r count).pending) :
    id ∈ (newEntries r count).map Prod.fst ∨ (id, some me) ∈ r.pending := mem_deliver h

/-- What a claim puts under the name is in its reply. -/
theorem mine_xClaim (h : (id, some me) ∈ (xClaim me r ids idle).pending) :
    id ∈ (claimReply r ids idle).map Prod.fst ∨ (id, some me) ∈ r.pending := by
  obtain ⟨p, hp, hc⟩ := mem_filterMap.1 h
  obtain rfl : id = p.1 := claimed_key hc
  unfold claimed at hc
  split_ifs at hc with htaken hin
  · obtain ⟨v, hv⟩ := Option.isSome_iff_exists.1 hin
    refine .inl (mem_map.2 ⟨(p.1, v), mem_filterMap.2 ⟨p.1, htaken.1, ?_⟩, rfl⟩)
    rw [if_pos ⟨mem_map_of_mem hp, htaken.2⟩, hv]
    rfl
  · exact .inr (Option.some.inj hc ▸ hp)

theorem mine_xAck (h : (id, some me) ∈ (xAck r other).pending) : id ≠ other ∧ (id, some me) ∈ r.pending := by
  obtain ⟨hp, hne⟩ := mem_filter.1 h
  exact ⟨of_decide_eq_true hne, hp⟩

theorem mine_xNack (h : (id, some me) ∈ (xNack r other).pending) : id ≠ other ∧ (id, some me) ∈ r.pending := by
  obtain ⟨p, hp, hd⟩ := mem_map.1 h
  unfold disown at hd
  split_ifs at hd with heq
  · cases hd
  · subst hd
    exact ⟨heq, hp⟩

/-- A page of the own-pending pass leaves out no entry of ours below its last. -/
theorem ownEntries_split [DecidableEq C] {after : Nat} (count : Nat) (hm : (id, some me) ∈ r.pending) (hlt : after < id) :
    id ∈ (ownEntries me r after count).map Prod.fst ∨ ∀ m ∈ ownEntries me r after count, m.1 < id := by
  have hord : Ordered (r.pending.filter fun p => after < p.1 ∧ p.2 = some me) := r.ordered.filter _
  have hin : (id, some me) ∈ r.pending.filter fun p => after < p.1 ∧ p.2 = some me :=
    mem_filter.2 ⟨hm, decide_eq_true ⟨hlt, rfl⟩⟩
  rcases hord.mem_take_or hin count with h | h
  · exact .inl (mem_map.2 ⟨_, mem_map_of_mem h, rfl⟩)
  refine .inr fun m hm' => ?_
  obtain ⟨p, hp, rfl⟩ := mem_map.1 hm'
  exact h p hp

theorem ownEntries_ne_nil [DecidableEq C] {after : Nat} (hm : (id, some me) ∈ r.pending) (hlt : after < id) :
    ownEntries me r after (count + 1) ≠ [] := by
  have hin : (id, some me) ∈ r.pending.filter fun p => after < p.1 ∧ p.2 = some me :=
    mem_filter.2 ⟨hm, decide_eq_true ⟨hlt, rfl⟩⟩
  intro hnil
  rcases take_eq_nil_iff.1 (map_eq_nil_iff.1 hnil) with h | h
  · cases h
  · rw [h] at hin
    cases hin

end commands

/-! ## The invariant -/

def Inv (me : C) (w : World C) : Prop := ∀ id, Mine me w id → Covered w id

structure Handed (me : C) (w w' : World C) (m : Message) (ran : Bool) : Prop where
  held : w'.held = w.held
  reader : w'.reader = w.reader
  sweep : w'.sweep = w.sweep
  done : w'.ownPendingDone = w.ownPendingDone
  channel : ∀ id ∈ w.channel, id ∈ w'.channel
  mine : ∀ id, Mine me w' id → Mine me w id
  out : Mine me w' m.1 → m.1 ∈ w'.channel ∨ m.2 ≠ .relay ∧ ran = false

section steps

variable {me : C} {w w' : World C}

theorem handed_send (w : World C) (m : Message) (ran : Bool) : Handed me w (send w m.1) m ran where
  held := rfl
  reader := rfl
  sweep := rfl
  done := rfl
  channel _ h := mem_append_left _ h
  mine _ h := h
  out _ := .inl (mem_append_right _ mem_cons_self)

theorem handed_ack (w : World C) (m : Message) (cmd : Redis C → Nat → Redis C) (hrefused : m.2 ≠ .relay)
    (hcmd : ∀ id, (id, some me) ∈ (cmd w.redis m.1).pending → id ≠ m.1 ∧ (id, some me) ∈ w.redis.pending) (ran : Bool) :
    Handed me w (if ran then { w with redis := cmd w.redis m.1 } else w) m ran := by
  cases ran with
  | true => exact ⟨rfl, rfl, rfl, rfl, fun _ h => h, fun id h => (hcmd id h).2, fun h => absurd rfl (hcmd m.1 h).1⟩
  | false => exact ⟨rfl, rfl, rfl, rfl, fun _ h => h, fun _ h => h, fun _ => .inr ⟨hrefused, rfl⟩⟩

theorem handed_handOver (w : World C) (m : Message) (ran : Bool) : Handed me w (handOver w m ran) m ran := by
  unfold handOver
  split
  · exact handed_send w m ran
  next hrefused => exact handed_ack w m xAckDel hrefused (fun _ => mine_xAck) ran

theorem handOver_after (w : World C) (m : Message) (ran : Bool) :
    (handOver w m ran).ownPendingAfter = w.ownPendingAfter := by
  unfold handOver
  split
  · rfl
  · split_ifs <;> rfl

theorem handed_handOverOwn (w : World C) (m : Message) (ran : Bool) : Handed me w (handOverOwn w m ran) m ran := by
  have key : ∀ w', Handed me w w' m ran → Handed me w { w' with ownPendingAfter := m.1 } m ran :=
    fun _ h => { h with }
  refine key _ ?_
  split
  next hgone => exact handed_ack w m xAck (by rw [hgone]; decide) (fun _ => mine_xAck) ran
  next hmal => exact handed_ack w m xAckDel (by rw [hmal]; decide) (fun _ => mine_xAck) ran
  · exact handed_send w m ran

/-- A message handed over leaves the hands of the loop that had it, for the
channel or for nobody's pending list; a command that did not run leaves it to
the own-pending pass. -/
theorem Handed.inv {m : Message} {ran : Bool} (hd : Handed me w w' m ran) (h : Inv me w) (reader : Reader) (sweep : Sweep)
    (hr : ∀ id ∈ w.reader.messages.map Prod.fst, id = m.1 ∨ id ∈ reader.messages.map Prod.fst)
    (hs : ∀ id ∈ w.sweep.messages.map Prod.fst, id = m.1 ∨ id ∈ sweep.messages.map Prod.fst)
    (hcur : cursor { w' with reader, sweep } = cursor w)
    (hleft : ran = false → m.2 ≠ .relay → Mine me w m.1 → Ahead w m.1) : Inv me { w' with reader, sweep } := by
  intro id hm
  have hahead : ∀ {id}, Ahead w id → Covered { w' with reader, sweep } id := fun ha =>
    .inr (.inr (.inr (.inr ⟨hd.done.trans ha.1, lt_of_eq_of_lt hcur ha.2⟩)))
  have hout : id = m.1 → Covered { w' with reader, sweep } id := by
    rintro rfl
    rcases hd.out hm with hc | ⟨hrefused, hran⟩
    · exact .inl hc
    · exact hahead (hleft hran hrefused (hd.mine _ hm))
  rcases h id (hd.mine id hm) with hc | hc | hc | hc | hc
  · exact .inl (hd.channel id hc)
  · exact .inr (.inl (hd.held ▸ hc))
  · rcases hr id hc with heq | hc
    · exact hout heq
    · exact .inr (.inr (.inl hc))
  · rcases hs id hc with heq | hc
    · exact hout heq
    · exact .inr (.inr (.inr (.inl hc)))
  · exact hahead hc

/-! ## The read loop -/

theorem inv_reader (h : Inv me w) (hred : w'.redis = w.redis) (hch : w'.channel = w.channel) (hheld : w'.held = w.held)
    (hsw : w'.sweep = w.sweep) (hr : w.reader.messages = [])
    (hahead : ∀ id, Mine me w id → Ahead w id → id ∈ w'.reader.messages.map Prod.fst ∨ Ahead w' id) : Inv me w' := by
  intro id hm
  have hm : Mine me w id := by unfold Mine at hm ⊢; rwa [hred] at hm
  rcases h id hm with hc | hc | hc | hc | hc
  · exact .inl (hch ▸ hc)
  · exact .inr (.inl (hheld ▸ hc))
  · rw [hr] at hc
    cases hc
  · exact .inr (.inr (.inr (.inl (hsw ▸ hc))))
  rcases hahead id hm hc with hp | hp
  · exact .inr (.inr (.inl hp))
  · exact .inr (.inr (.inr (.inr hp)))

theorem inv_connect (h : Inv me w) : Inv me (connect w) := by
  unfold connect
  split
  next hr =>
    refine inv_reader h rfl rfl rfl rfl (by rw [hr]; rfl) fun id _ ⟨hnot, hlt⟩ => .inr ⟨hnot, ?_⟩
    -- The pass resumes where it stopped.
    simpa [cursor, hr, hnot] using hlt
  · exact h

theorem inv_readOwn [DecidableEq C] (h : Inv me w) (count : Nat) (answered : Bool) :
    Inv me (readOwn me w count answered) := by
  unfold readOwn
  split
  next hr =>
    have hcur : cursor w = w.ownPendingAfter := by unfold cursor; rw [hr]; rfl
    have hnone : w.reader.messages = [] := by rw [hr]; rfl
    split_ifs
    · split
      next hnil =>
        refine inv_reader h rfl rfl rfl rfl hnone fun id hm ⟨_, hlt⟩ => ?_
        exact absurd hnil (ownEntries_ne_nil hm (hcur ▸ hlt))
      next m page hpage =>
        refine inv_reader h rfl rfl rfl rfl hnone fun id hm ⟨hnot, hlt⟩ => ?_
        rcases ownEntries_split (count + 1) hm (hcur ▸ hlt) with hin | hbeyond
        · rw [hpage] at hin
          exact .inl hin
        refine .inr ⟨hnot, ?_⟩
        have hlast : (m :: page).getLast (by simp) ∈ ownEntries me w.redis w.ownPendingAfter (count + 1) := by
          rw [hpage]
          exact getLast_mem _
        simpa [cursor, List.getLast?_eq_some_getLast] using hbeyond _ hlast
    · refine inv_reader h rfl rfl rfl rfl hnone fun id _ ⟨hnot, hlt⟩ => .inr ⟨hnot, ?_⟩
      exact lt_of_eq_of_lt hcur.symm hlt
  · exact h

theorem mem_ids_tail {m : Message} {ms : List Message} {id : Nat} (h : id ∈ (m :: ms).map Prod.fst) :
    id = m.1 ∨ id ∈ ms.map Prod.fst := mem_cons.1 h

theorem inv_handOwn (h : Inv me w) (ran : Bool)
    (hleft : ran = false → ∀ m ∈ w.reader.messages.head?, m.2 ≠ .relay → Mine me w m.1 → Ahead w m.1) :
    Inv me (handOwn w ran) := by
  unfold handOwn
  split
  next m page hr =>
    have hd : Handed me w (handOverOwn w m ran) m ran := handed_handOverOwn w m ran
    refine hd.inv h (.own page) (handOverOwn w m ran).sweep (fun id hid => ?_) (fun id hid => .inr (hd.sweep ▸ hid)) ?_ ?_
    · rw [hr] at hid
      exact mem_ids_tail hid
    · -- The cursor is at the end of the page, and after its last message there too.
      cases page with
      | nil => simp [cursor, hr, handOverOwn]
      | cons m' page => simp [cursor, hr, List.getLast?_cons]
    · exact fun hran => hleft hran m (by rw [hr]; rfl)
  · exact h

theorem inv_readNew (h : Inv me w) (count : Nat) (reply : Reply)
    (hleft : reply = .lost → w.reader = .new [] → newEntries w.redis (count + 1) = []) :
    Inv me (readNew me w count reply) := by
  unfold readNew
  split
  next hr =>
    have hnone : w.reader.messages = [] := by rw [hr]; rfl
    have hcur : cursor w = w.ownPendingAfter := by unfold cursor; rw [hr]
    -- What the read put under the name is in its reply.
    have hread : ∀ reader : Reader,
        (∀ id ∈ (newEntries w.redis (count + 1)).map Prod.fst, id ∈ reader.messages.map Prod.fst) →
        cursor { w with reader } = w.ownPendingAfter →
        Inv me { w with redis := xReadGroup me w.redis (count + 1), reader } := by
      intro reader hin hcur' id hm
      rcases mine_xReadGroup hm with hnew | hm
      · exact .inr (.inr (.inl (hin id hnew)))
      rcases h id hm with hc | hc | hc | hc | hc
      · exact .inl hc
      · exact .inr (.inl hc)
      · rw [hnone] at hc
        cases hc
      · exact .inr (.inr (.inr (.inl hc)))
      · exact .inr (.inr (.inr (.inr ⟨hc.1, lt_of_eq_of_lt (hcur'.trans hcur.symm) hc.2⟩)))
    split
    · exact hread (.new (newEntries w.redis (count + 1))) (fun _ hid => hid) rfl
    · refine hread .down (fun id hid => ?_) rfl
      rw [hleft rfl hr] at hid
      cases hid
    · refine inv_reader h rfl rfl rfl rfl hnone fun id _ ⟨hnot, hlt⟩ => .inr ⟨hnot, ?_⟩
      exact lt_of_eq_of_lt hcur.symm hlt
  · exact h

theorem inv_handNew (h : Inv me w) (ran : Bool)
    (hleft : ran = false → ∀ m ∈ w.reader.messages.head?, m.2 ≠ .relay → Mine me w m.1 → Ahead w m.1) :
    Inv me (handNew w ran) := by
  unfold handNew
  split
  next m batch hr =>
    have hd : Handed me w (handOver w m ran) m ran := handed_handOver w m ran
    refine hd.inv h (.new batch) (handOver w m ran).sweep (fun id hid => ?_) (fun id hid => .inr (hd.sweep ▸ hid)) ?_ ?_
    · rw [hr] at hid
      exact mem_ids_tail hid
    · have hcur : cursor w = w.ownPendingAfter := by unfold cursor; rw [hr]
      exact (handOver_after w m ran).trans hcur.symm
    · exact fun hran => hleft hran m (by rw [hr]; rfl)
  · exact h

/-! ## The sweep -/

section
variable (h : Inv me w)
include h

theorem inv_sweep (sweep : Sweep) (hs : w.sweep.messages = []) : Inv me { w with sweep } := by
  intro id hm
  rcases h id hm with hc | hc | hc | hc | hc
  · exact .inl hc
  · exact .inr (.inl hc)
  · exact .inr (.inr (.inl hc))
  · rw [hs] at hc
    cases hc
  · exact .inr (.inr (.inr (.inr hc)))

theorem inv_claimPendingMessages : Inv me (claimPendingMessages w) := by
  unfold claimPendingMessages
  split
  next hs => exact inv_sweep h _ (by rw [hs]; rfl)
  · exact h

theorem inv_xPending [DecidableEq C] (count : Nat) (idle : Nat → Bool) (answered : Bool) :
    Inv me (xPending me w count idle answered) := by
  unfold xPending
  split
  next start hs => exact inv_sweep h _ (by rw [hs]; rfl)
  · exact h

theorem inv_claim (idle : Nat → Bool) (reply : Reply)
    (hleft : reply = .lost → ∀ ids next, w.sweep = .claim ids next → ∀ m ∈ claimReply w.redis ids idle, Ahead w m.1) :
    Inv me (claim me w idle reply) := by
  unfold claim
  split
  next ids next hs =>
    have hnone : w.sweep.messages = [] := by rw [hs]; rfl
    have hclaim : ∀ sweep : Sweep, (∀ id ∈ (claimReply w.redis ids idle).map Prod.fst,
        id ∈ sweep.messages.map Prod.fst ∨ Ahead w id) → Inv me { w with redis := xClaim me w.redis ids idle, sweep } := by
      intro sweep hin id hm
      rcases mine_xClaim hm with hnew | hm
      · rcases hin id hnew with hc | hc
        · exact .inr (.inr (.inr (.inl hc)))
        · exact .inr (.inr (.inr (.inr hc)))
      · exact inv_sweep h sweep hnone id hm
    split
    · exact hclaim (.hand (claimReply w.redis ids idle) next) fun id hid => .inl hid
    · refine hclaim .rest fun id hid => .inr ?_
      obtain ⟨m, hm, rfl⟩ := mem_map.1 hid
      exact hleft rfl ids next hs m hm
    · exact inv_sweep h _ hnone
  · exact h

theorem inv_handClaimed (ran : Bool)
    (hleft : ran = false → ∀ m ∈ w.sweep.messages.head?, m.2 ≠ .relay → Mine me w m.1 → Ahead w m.1) :
    Inv me (handClaimed w ran) := by
  unfold handClaimed
  split
  next m messages next hs =>
    have hd : Handed me w (handOver w m ran) m ran := handed_handOver w m ran
    refine hd.inv h (handOver w m ran).reader (.hand messages next) (fun id hid => .inr (hd.reader ▸ hid))
      (fun id hid => ?_) ?_ ?_
    · rw [hs] at hid
      exact mem_ids_tail hid
    · unfold cursor
      simp only [hd.reader, handOver_after]
    · exact fun hran => hleft hran m (by rw [hs]; rfl)
  next start hs => exact inv_sweep h _ (by rw [hs]; rfl)
  next hs => exact inv_sweep h _ (by rw [hs]; rfl)
  · exact h
end

/-! ## The receivers, and everybody else -/

theorem inv_receive (h : Inv me w) : Inv me (receive w) := by
  unfold receive
  split
  · exact h
  next id' channel hch =>
    intro id hm
    rcases h id hm with hc | hc | hc | hc | hc
    · rw [hch] at hc
      rcases mem_cons.1 hc with rfl | hc
      · exact .inr (.inl (mem_append_right _ mem_cons_self))
      · exact .inl hc
    · exact .inr (.inl (mem_append_left _ hc))
    · exact .inr (.inr (.inl hc))
    · exact .inr (.inr (.inr (.inl hc)))
    · exact .inr (.inr (.inr (.inr hc)))

theorem mem_eraseIdx_or {l : List Nat} {i a b : Nat} (hi : l[i]? = some a) (hb : b ∈ l) : b = a ∨ b ∈ l.eraseIdx i := by
  obtain ⟨pre, post, hl, -, he⟩ := slot_split hi
  rw [he]
  rw [hl, mem_append, mem_cons] at hb
  rw [mem_append]
  tauto

theorem inv_settle (cmd : Redis C → Nat → Redis C)
    (hcmd : ∀ r id id', (id', some me) ∈ (cmd r id).pending → id' ≠ id ∧ (id', some me) ∈ r.pending)
    (h : Inv me w) (i : Nat) (ran : Bool) (hleft : ran = false → ∀ id ∈ w.held[i]?, Mine me w id → Ahead w id) :
    Inv me (settle cmd w i ran) := by
  unfold settle
  split
  · exact h
  next id' hi =>
    intro id hm
    have hkept : Mine me w id ∧ (id = id' → Ahead w id) := by
      cases ran with
      | true => exact ⟨(hcmd _ _ _ hm).2, fun heq => absurd heq (hcmd _ _ _ hm).1⟩
      | false => exact ⟨hm, fun heq => hleft rfl id (heq ▸ hi) hm⟩
    rcases h id hkept.1 with hc | hc | hc | hc | hc
    · exact .inl hc
    · rcases mem_eraseIdx_or hi hc with heq | hc
      · exact .inr (.inr (.inr (.inr (hkept.2 heq))))
      · exact .inr (.inl hc)
    · exact .inr (.inr (.inl hc))
    · exact .inr (.inr (.inr (.inl hc)))
    · exact .inr (.inr (.inr (.inr hc)))

theorem inv_elsewhere [DecidableEq C] (h : Inv me w) (r : Redis C) : Inv me (elsewhere me w r) := by
  unfold elsewhere
  split_ifs with hr
  · intro id hm
    exact h id (hr _ hm rfl)
  · exact h

end steps

def claiming (w : World C) (idle : Nat → Bool) : List Message :=
  match w.sweep with
  | .claim ids _ => claimReply w.redis ids idle
  | _ => []

/-- No step leaves an entry under the name that nothing will look at: a read or a
claim whose reply is lost put nothing there, and a settlement that did not run
left nothing there, but what the own-pending pass has still to read. -/
def Heard (me : C) (w : World C) : Act C → Prop
  | .readNew count .lost => w.reader = .new [] → newEntries w.redis (count + 1) = []
  | .xClaim idle .lost => ∀ m ∈ claiming w idle, Ahead w m.1
  | .handOwn false | .handNew false =>
    ∀ m ∈ w.reader.messages.head?, m.2 ≠ .relay → Mine me w m.1 → Ahead w m.1
  | .handClaimed false => ∀ m ∈ w.sweep.messages.head?, m.2 ≠ .relay → Mine me w m.1 → Ahead w m.1
  | .ackMessage i false | .releaseMessage i false => ∀ id ∈ w.held[i]?, Mine me w id → Ahead w id
  | _ => True

theorem inv_start {me : C} {w : World C} (h : Start w) : Inv me w := by
  intro id hm
  refine .inr (.inr (.inr (.inr ⟨h.done, ?_⟩)))
  have hcur : cursor w = 0 := by
    unfold cursor
    rw [h.reader]
    exact h.after
  rw [hcur]
  exact w.redis.positive _ hm

theorem inv_step [DecidableEq C] {me : C} {w : World C} (h : Inv me w) (a : Act C) (ha : Heard me w a) :
    Inv me (step me w a) := by
  cases a with
  | connect => exact inv_connect h
  | readOwn count answered => exact inv_readOwn h count answered
  | handOwn ran => exact inv_handOwn h ran fun hran => by subst hran; exact ha
  | readNew count reply => exact inv_readNew h count reply fun hlost => by subst hlost; exact ha
  | handNew ran => exact inv_handNew h ran fun hran => by subst hran; exact ha
  | claimPendingMessages => exact inv_claimPendingMessages h
  | xPending count idle answered => exact inv_xPending h count idle answered
  | xClaim idle reply =>
    refine inv_claim h idle reply fun hlost ids next hs => ?_
    subst hlost
    simpa only [Heard, claiming, hs] using ha
  | handClaimed ran => exact inv_handClaimed h ran fun hran => by subst hran; exact ha
  | receive => exact inv_receive h
  | ackMessage i ran => exact inv_settle xAckDel (fun _ _ _ => mine_xAck) h i ran fun hran => by subst hran; exact ha
  | releaseMessage i ran => exact inv_settle xNack (fun _ _ _ => mine_xNack) h i ran fun hran => by subst hran; exact ha
  | elsewhere r => exact inv_elsewhere h r

/-- While no reply of a read or a claim is lost over an entry the own-pending
pass is past, and every settlement runs, each entry pending under the consumer's
name is in the channel, held, or ahead of the own-pending pass. -/
theorem own_pending_covered [DecidableEq C] (me : C) (w : World C) (as : List (Act C)) (h0 : Start w)
    (hm : Meets (step me) (Heard me) w as) (id : Nat) (hid : Mine me (run (step me) w as) id) :
    Covered (run (step me) w as) id :=
  inv_of_meets (Inv me) (fun _ a h ha => inv_step h a ha) (inv_start h0) hm id hid

/-- Entry 1 was left under this consumer's name, entry 5 under another's. -/
def leftBehind : World Bool where
  redis :=
    { stream := [(1, .relay), (5, .relay)], last := 5, pending := [(1, some true), (5, some false)]
      ordered := by simp [Ordered], positive := by simp }

/-- Entry 5 is claimed and the reply lost while the own-pending pass hands entry 1 over. -/
def claimUnheard : List (Act Bool) :=
  [.connect, .readOwn 0 true, .claimPendingMessages, .xPending 4 (fun _ => true) true, .xClaim (fun _ => true) .lost,
    .handOwn true, .readOwn 0 true]

theorem own_pending_covered_claimUnheard :
    Meets (step true) (Heard true) leftBehind claimUnheard ∧ Mine true (run (step true) leftBehind claimUnheard) 5 ∧
      Covered (run (step true) leftBehind claimUnheard) 5 :=
  have hm : Meets (step true) (Heard true) leftBehind claimUnheard :=
    ⟨trivial, trivial, trivial, trivial, by simp only [Heard]; decide, trivial, trivial, trivial⟩
  ⟨hm, by decide, own_pending_covered true leftBehind claimUnheard ⟨rfl, rfl, rfl, rfl, rfl, rfl⟩ hm 5 (by decide)⟩

def oneRelay : World Bool where
  redis := { stream := [(1, .relay)], last := 0, pending := [], ordered := .nil, positive := by simp }

/-- The reply of the read that delivers the relay is lost. The consumer
reconnects, reads on, and sweeps the whole pending list. -/
def readUnheard : List (Act Bool) :=
  [.connect, .readOwn 0 true, .readNew 0 .lost, .connect, .readNew 0 .answered, .claimPendingMessages,
    .xPending 4 (fun _ => true) true, .handClaimed true]

theorem lost_read_strands :
    Start oneRelay ∧ Mine true (run (step true) oneRelay readUnheard) 1 ∧
      ¬ Covered (run (step true) oneRelay readUnheard) 1 :=
  ⟨⟨rfl, rfl, rfl, rfl, rfl, rfl⟩, by decide, by decide⟩

end RelayMiner.Transport.RedisConsumer
