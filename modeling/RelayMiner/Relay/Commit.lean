import Mathlib.Data.Finset.Lattice.Fold
import Mathlib.Algebra.BigOperators.Group.List.Basic
import Mathlib.Data.UInt
import RelayMiner.Session.State
/-!
# The two batch committers

A session's batch of relays is marked, counted and acknowledged in one write:
a Lua script over the dedup set, the session hash and the stream in Redis, one
batch over the same three things in Pebble. Both are modelled on the same view
of the store, one loop each as the source writes it, and compared.

Time is what the marks' TTL leaves of it: Pebble may still hold marks whose TTL
ran out, Redis has dropped the set. Counters are natural numbers, within the
range the source assumes.
-/
open RelayMiner.Session

namespace RelayMiner.Relay

open List

variable {Id Hash : Type} [DecidableEq Id] [DecidableEq Hash] {queue : Finset Id} {ids : List Id}

structure BatchedRelay (Id Hash : Type) where
  id : Id
  hash : Hash
  computeUnits : Nat
  deriving DecidableEq

structure CommitStore (Id Hash : Type) where
  session : Option SessionSnapshot
  marks : Finset Hash
  queue : Finset Id

instance : DecidableEq (CommitStore Id Hash) := fun a b =>
  decidable_of_iff (a.session = b.session ∧ a.marks = b.marks ∧ a.queue = b.queue) (by cases a; cases b; simp)

inductive CommitStatus where
  | counted | notFound | terminal
  deriving DecidableEq

structure RelayBatchResult where
  status : CommitStatus
  newRelays : Nat
  newComputeUnits : Nat
  freshDups : Nat
  deriving DecidableEq

def totalComputeUnits (relays : List (BatchedRelay Id Hash)) : Nat := (relays.map (·.computeUnits)).sum

def maxExactInteger : Nat := 9007199254740991

def commitStatus : Option SessionSnapshot → CommitStatus
  | none => .notFound
  | some s => if s.state.isTerminal then .terminal else .counted

def countNew (session : Option SessionSnapshot) (newRelays newComputeUnits : Nat) : Option SessionSnapshot :=
  if commitStatus session = .counted ∧ 0 < newRelays then
    session.map fun s =>
      { s with
        relayCount := s.relayCount + newRelays
        totalComputeUnits := s.totalComputeUnits + newComputeUnits }
  else session

variable (session : Option SessionSnapshot)

theorem commitStatus_countNew (n cu : Nat) :
    commitStatus (countNew session n cu) = commitStatus session := by
  unfold countNew
  split
  · cases session <;> rfl
  · rfl

@[simp] theorem countNew_zero (cu : Nat) : countNew session 0 cu = session := by
  simp [countNew]

/-! ## Redis: `relayBatchScript` -/

structure SaddLoop (Hash : Type) where
  marks : Finset Hash
  newRelays : Nat
  newComputeUnits : Nat
  markedBefore : List Bool

def saddLoop (marks : Finset Hash) : List (BatchedRelay Id Hash) → SaddLoop Hash
  | [] => ⟨marks, 0, 0, []⟩
  | r :: rs =>
    if r.hash ∈ marks then
      let t := saddLoop marks rs
      { t with markedBefore := true :: t.markedBefore }
    else
      let t := saddLoop (insert r.hash marks) rs
      { t with
        newRelays := t.newRelays + 1
        newComputeUnits := t.newComputeUnits + r.computeUnits
        markedBefore := false :: t.markedBefore }

/-- `XACKDEL ... DELREF`: 1 for an id acknowledged and deleted, -1 for one that is not there. -/
def xackdel (queue : Finset Id) : List Id → Finset Id × List Int
  | [] => (queue, [])
  | id :: ids =>
    if id ∈ queue then
      let t := xackdel (queue.erase id) ids
      (t.1, 1 :: t.2)
    else
      let t := xackdel queue ids
      (t.1, -1 :: t.2)

def countFresh : List Int → List Bool → Nat
  | a :: as, m :: ms => (if a = 1 ∧ m = true then 1 else 0) + countFresh as ms
  | _, _ => 0

def ackLoop : Nat → Finset Id → List Id → List Bool → Finset Id × Nat
  | 0, queue, _, _ => (queue, 0)
  | fuel + 1, queue, ids, markedBefore =>
    if ids = [] then (queue, 0)
    else
      let acked := xackdel queue (ids.take 1000)
      let t := ackLoop fuel acked.1 (ids.drop 1000) (markedBefore.drop 1000)
      (t.1, countFresh acked.2 (markedBefore.take 1000) + t.2)

/-- `redisRelayCommitter.CommitSession`; `none` is a refusal, made before the first write. -/
def redisCommitSession (st : CommitStore Id Hash) (relays : List (BatchedRelay Id Hash)) :
    Option (CommitStore Id Hash × RelayBatchResult) :=
  if relays.length < 1 then none
  else if maxExactInteger < totalComputeUnits relays then none
  else
    let loop := saddLoop st.marks relays
    let acks := ackLoop relays.length st.queue (relays.map (·.id)) loop.markedBefore
    some (⟨countNew st.session loop.newRelays loop.newComputeUnits, loop.marks, acks.1⟩,
      ⟨commitStatus st.session, loop.newRelays, loop.newComputeUnits, acks.2⟩)

/-! ## Pebble -/

inductive TtlState where
  | absent | live | expired
  deriving DecidableEq

/-- Marks are only ever written with their TTL key. -/
structure PebbleStore (Id Hash : Type) where
  session : Option SessionSnapshot
  stored : Finset Hash
  ttl : TtlState
  queue : Finset Id
  timed : ttl = .absent → stored = ∅

def PebbleStore.view (p : PebbleStore Id Hash) : CommitStore Id Hash :=
  ⟨p.session, if p.ttl = .live then p.stored else ∅, p.queue⟩

structure PebbleLoop (Hash : Type) where
  seen : Finset Hash
  newRelays : Nat
  newComputeUnits : Nat
  freshDups : Nat

def pebbleLoop (p : PebbleStore Id Hash) (seen : Finset Hash) : List (BatchedRelay Id Hash) → PebbleLoop Hash
  | [] => ⟨seen, 0, 0, 0⟩
  | r :: rs =>
    if r.hash ∈ seen ∨ (p.ttl = .live ∧ r.hash ∈ p.stored) then
      let t := pebbleLoop p seen rs
      { t with freshDups := t.freshDups + if r.id ∈ p.queue then 1 else 0 }
    else
      let t := pebbleLoop p (insert r.hash seen) rs
      { t with newRelays := t.newRelays + 1, newComputeUnits := t.newComputeUnits + r.computeUnits }

attribute [local simp] xackdel pebbleLoop

/-- `pebbleRelayCommitter.CommitSession`, with every read answered. -/
def pebbleCommitSession (p : PebbleStore Id Hash) (relays : List (BatchedRelay Id Hash)) :
    PebbleStore Id Hash × RelayBatchResult :=
  let loop := pebbleLoop p ∅ relays
  (⟨countNew p.session loop.newRelays loop.newComputeUnits,
    -- Marks the TTL let go are dropped before this commit's marks.
    (if p.ttl = .expired ∧ relays ≠ [] then ∅ else p.stored) ∪ loop.seen,
    if relays ≠ [] then .live else p.ttl,
    p.queue \ (relays.map (·.id)).toFinset,
    by
      cases relays with
      | nil => simpa [loop] using p.timed
      | cons r rs => simp⟩,
    ⟨commitStatus p.session, loop.newRelays, loop.newComputeUnits, loop.freshDups⟩)

/-! ## The acknowledgements -/

theorem xackdel_append (queue : Finset Id) (as bs : List Id) :
    xackdel queue (as ++ bs) =
      ((xackdel (xackdel queue as).1 bs).1, (xackdel queue as).2 ++ (xackdel (xackdel queue as).1 bs).2) := by
  induction as generalizing queue with
  | nil => simp
  | cons a as ih =>
    simp only [cons_append, xackdel]
    split <;> simp [ih]

@[simp] theorem length_xackdel (queue : Finset Id) (ids : List Id) : (xackdel queue ids).2.length = ids.length := by
  induction ids generalizing queue with
  | nil => rfl
  | cons a ids ih =>
    simp only [xackdel]
    split <;> simp [ih]

theorem countFresh_append (as bs : List Int) (ms ns : List Bool) (h : as.length = ms.length) :
    countFresh (as ++ bs) (ms ++ ns) = countFresh as ms + countFresh bs ns := by
  induction as generalizing ms with
  | nil => cases ms with
    | nil => simp [countFresh]
    | cons m ms => simp at h
  | cons a as ih => cases ms with
    | nil => simp at h
    | cons m ms =>
      simp only [cons_append, countFresh]
      rw [ih ms (by simpa using h), Nat.add_assoc]

theorem ackLoop_eq (fuel : Nat) (queue : Finset Id) (ids : List Id) (ms : List Bool) (hf : ids.length ≤ fuel)
    (hm : ms.length = ids.length) :
    ackLoop fuel queue ids ms = ((xackdel queue ids).1, countFresh (xackdel queue ids).2 ms) := by
  induction fuel generalizing queue ids ms with
  | zero =>
    obtain rfl : ids = [] := length_eq_zero_iff.1 (by omega)
    simp [ackLoop, countFresh]
  | succ fuel ih =>
    unfold ackLoop
    split
    · subst ids; simp [countFresh]
    next hne =>
      have hids : xackdel queue ids = xackdel queue (ids.take 1000 ++ ids.drop 1000) := by rw [take_append_drop]
      have hms : countFresh (xackdel queue ids).2 ms =
          countFresh (xackdel queue ids).2 (ms.take 1000 ++ ms.drop 1000) := by rw [take_append_drop]
      dsimp only
      rw [ih _ _ _ (by rw [length_drop]; omega) (by simp [hm]), hms, hids, xackdel_append]
      rw [countFresh_append _ _ _ _ (by simp [hm])]

theorem xackdel_queue (queue : Finset Id) (ids : List Id) : (xackdel queue ids).1 = queue \ ids.toFinset := by
  induction ids generalizing queue with
  | nil => simp
  | cons a ids ih =>
    simp only [xackdel]
    split
    · rw [ih]
      ext x
      simp only [Finset.mem_sdiff, Finset.mem_erase, mem_toFinset, mem_cons]
      tauto
    next ha => rw [ih, toFinset_cons, Finset.sdiff_insert_of_notMem ha]

variable {rs relays : List (BatchedRelay Id Hash)} {p : PebbleStore Id Hash} {st : CommitStore Id Hash}
  {r : RelayBatchResult}

/-- Entries already gone are nobody's fresh duplicates. -/
theorem countFresh_of_gone (h : ∀ a ∈ ids, a ∉ queue) (ms : List Bool) :
    countFresh (xackdel queue ids).2 ms = 0 := by
  induction ids generalizing ms with
  | nil => cases ms <;> rfl
  | cons a ids ih =>
    have ha : a ∉ queue := h a mem_cons_self
    cases ms with
    | nil => simp [ha, countFresh]
    | cons m ms => simp [ha, countFresh, ih fun b hb => h b (mem_cons_of_mem _ hb)]

def countQueued (queue : Finset Id) : List Id → List Bool → Nat
  | a :: as, m :: ms => (if m = true ∧ a ∈ queue then 1 else 0) + countQueued queue as ms
  | _, _ => 0

theorem countQueued_erase {a : Id} (ha : a ∉ ids) (ms : List Bool) :
    countQueued (queue.erase a) ids ms = countQueued queue ids ms := by
  induction ids generalizing ms with
  | nil => cases ms <;> rfl
  | cons b ids ih => cases ms with
    | nil => rfl
    | cons m ms =>
      have hb : b ≠ a := by rintro rfl; simp at ha
      simp only [countQueued, Finset.mem_erase]
      rw [ih (fun h => ha (mem_cons_of_mem _ h))]
      simp [hb]

/-- With no id repeated, what is acknowledged is what was queued. -/
theorem countFresh_xackdel (hn : ids.Nodup) (ms : List Bool) :
    countFresh (xackdel queue ids).2 ms = countQueued queue ids ms := by
  induction ids generalizing queue ms with
  | nil => cases ms <;> rfl
  | cons a ids ih => cases ms with
    | nil => simp; split <;> rfl
    | cons m ms =>
      obtain ⟨ha, hn⟩ := nodup_cons.1 hn
      by_cases hq : a ∈ queue
      · simp only [xackdel, if_pos hq, countFresh, countQueued]
        rw [ih hn, countQueued_erase ha]
        simp [hq]
      simp only [xackdel, if_neg hq, countFresh, countQueued]
      rw [ih hn]
      simp [hq]

/-! ## The two loops -/

variable (marks : Finset Hash)

omit [DecidableEq Id] in
theorem saddLoop_marks (rs : List (BatchedRelay Id Hash)) :
    (saddLoop marks rs).marks = marks ∪ (rs.map (·.hash)).toFinset := by
  induction rs generalizing marks with
  | nil => simp [saddLoop]
  | cons r rs ih =>
    simp only [saddLoop]
    split
    next hr =>
      rw [map_cons, toFinset_cons, Finset.union_insert, Finset.insert_eq_of_mem (by simp [hr])]
      exact ih marks
    · rw [map_cons, toFinset_cons, Finset.union_insert, ← Finset.insert_union]
      exact ih _

omit [DecidableEq Id] in
@[simp] theorem length_markedBefore (rs : List (BatchedRelay Id Hash)) :
    (saddLoop marks rs).markedBefore.length = rs.length := by
  induction rs generalizing marks with
  | nil => rfl
  | cons r rs ih =>
    simp only [saddLoop]
    split <;> simp [ih]

omit [DecidableEq Id] in
theorem saddLoop_of_marked {marks : Finset Hash} (h : ∀ r ∈ rs, r.hash ∈ marks) :
    (saddLoop marks rs).marks = marks ∧ (saddLoop marks rs).newRelays = 0 ∧
      (saddLoop marks rs).newComputeUnits = 0 := by
  induction rs with
  | nil => simp [saddLoop]
  | cons r rs ih =>
    simp only [saddLoop, if_pos (h r mem_cons_self)]
    exact ih fun x hx => h x (mem_cons_of_mem _ hx)

attribute [local simp] PebbleStore.view

/-- Pebble's loop from the relays seen so far is the SADD loop from the live marks and those. -/
theorem pebbleLoop_eq (p : PebbleStore Id Hash) (seen : Finset Hash) (rs : List (BatchedRelay Id Hash)) :
    (saddLoop (p.view.marks ∪ seen) rs).marks = p.view.marks ∪ (pebbleLoop p seen rs).seen ∧
      (saddLoop (p.view.marks ∪ seen) rs).newRelays = (pebbleLoop p seen rs).newRelays ∧
      (saddLoop (p.view.marks ∪ seen) rs).newComputeUnits = (pebbleLoop p seen rs).newComputeUnits ∧
      countQueued p.queue (rs.map (·.id)) (saddLoop (p.view.marks ∪ seen) rs).markedBefore =
        (pebbleLoop p seen rs).freshDups := by
  induction rs generalizing seen with
  | nil => simp [saddLoop, countQueued]
  | cons r rs ih =>
    have hmem : r.hash ∈ p.view.marks ∪ seen ↔ r.hash ∈ seen ∨ (p.ttl = .live ∧ r.hash ∈ p.stored) := by
      by_cases hl : p.ttl = .live <;> simp [hl, or_comm]
    by_cases hr : r.hash ∈ p.view.marks ∪ seen
    · obtain ⟨h1, h2, h3, h4⟩ := ih seen
      simp only [saddLoop, if_pos hr, pebbleLoop, if_pos (hmem.1 hr), map_cons, countQueued]
      refine ⟨h1, h2, h3, ?_⟩
      rw [h4, Nat.add_comm]
      simp
    obtain ⟨h1, h2, h3, h4⟩ := ih (insert r.hash seen)
    rw [Finset.union_insert] at h1 h2 h3 h4
    simp only [saddLoop, if_neg hr, pebbleLoop, if_neg (fun h => hr (hmem.2 h)), map_cons, countQueued]
    exact ⟨h1, by rw [h2], by rw [h3], by simpa using h4⟩

theorem subset_pebbleLoop (p : PebbleStore Id Hash) (seen : Finset Hash) (rs : List (BatchedRelay Id Hash)) :
    seen ⊆ (pebbleLoop p seen rs).seen := by
  induction rs generalizing seen with
  | nil => simp
  | cons r rs ih =>
    simp only [pebbleLoop]
    split
    · exact ih seen
    · exact (Finset.subset_insert _ _).trans (ih _)

/-- After the loop every relay of the batch is marked, in the batch or in the store. -/
theorem mem_pebbleLoop (p : PebbleStore Id Hash) (seen : Finset Hash) {x : BatchedRelay Id Hash} (hx : x ∈ rs) :
    x.hash ∈ (pebbleLoop p seen rs).seen ∨ (p.ttl = .live ∧ x.hash ∈ p.stored) := by
  induction rs generalizing seen with
  | nil => simp at hx
  | cons r rs ih =>
    simp only [pebbleLoop]
    rcases mem_cons.1 hx with rfl | hx
    · split
      next hm => exact hm.imp (fun h => subset_pebbleLoop p seen rs h) id
      · exact .inl (subset_pebbleLoop p _ rs (Finset.mem_insert_self _ _))
    split
    · exact ih seen hx
    · exact ih _ hx

theorem pebbleLoop_of_marked (hl : p.ttl = .live) (h : ∀ r ∈ rs, r.hash ∈ p.stored ∧ r.id ∉ p.queue) :
    pebbleLoop p ∅ rs = ⟨∅, 0, 0, 0⟩ := by
  induction rs with
  | nil => rfl
  | cons r rs ih =>
    obtain ⟨hm, hq⟩ := h r mem_cons_self
    simp [hl, hm, hq, ih fun x hx => h x (mem_cons_of_mem _ hx)]

/-! ## Agreement -/

theorem redisCommitSession_eq_none (st : CommitStore Id Hash) (relays : List (BatchedRelay Id Hash)) :
    redisCommitSession st relays = none ↔ relays = [] ∨ maxExactInteger < totalComputeUnits relays := by
  unfold redisCommitSession
  split_ifs with h1 h2
  · simp [length_eq_zero_iff.1 (by omega : relays.length = 0)]
  · simp [h2]
  · simp only [false_iff, not_or]
    exact ⟨fun h => h1 (by simp [h]), h2⟩

variable {st' : CommitStore Id Hash}

/-- The committed store and the result, with the acknowledgement loop done in one call. -/
theorem redisCommitSession_eq_some (h : redisCommitSession st relays = some (st', r)) :
    relays ≠ [] ∧ totalComputeUnits relays ≤ maxExactInteger ∧
      st' = ⟨countNew st.session (saddLoop st.marks relays).newRelays (saddLoop st.marks relays).newComputeUnits,
        (saddLoop st.marks relays).marks, st.queue \ (relays.map (·.id)).toFinset⟩ ∧
      r = ⟨commitStatus st.session, (saddLoop st.marks relays).newRelays, (saddLoop st.marks relays).newComputeUnits,
        countFresh (xackdel st.queue (relays.map (·.id))).2 (saddLoop st.marks relays).markedBefore⟩ := by
  have hn : ¬ (relays = [] ∨ maxExactInteger < totalComputeUnits relays) := by
    rw [← redisCommitSession_eq_none st]; simp [h]
  obtain ⟨hne, hcu⟩ := not_or.1 hn
  have hlen : ¬ relays.length < 1 := by
    have := length_pos_iff.2 hne
    omega
  simp only [redisCommitSession, if_neg hlen, if_neg hcu] at h
  rw [ackLoop_eq _ _ _ _ (by simp) (by simp), xackdel_queue] at h
  simp only [Option.some.injEq, Prod.mk.injEq] at h
  exact ⟨hne, by omega, h.1.symm, h.2.symm⟩

/-- What Pebble leaves is what the script leaves, and so is the result, the fresh duplicates of a list
with no repeated id included. -/
theorem pebble_eq_redis (h : redisCommitSession p.view relays = some (st, r)) :
    (pebbleCommitSession p relays).1.view = st ∧
      (pebbleCommitSession p relays).2.status = r.status ∧
      (pebbleCommitSession p relays).2.newRelays = r.newRelays ∧
      (pebbleCommitSession p relays).2.newComputeUnits = r.newComputeUnits ∧
      ((relays.map (·.id)).Nodup → (pebbleCommitSession p relays).2.freshDups = r.freshDups) := by
  obtain ⟨hne, -, rfl, rfl⟩ := redisCommitSession_eq_some h
  obtain ⟨h1, h2, h3, h4⟩ := pebbleLoop_eq p ∅ relays
  rw [Finset.union_empty] at h1 h2 h3 h4
  -- Marks whose TTL ran out, or that never had one, are no part of the view.
  have hkept : (if p.ttl = .expired ∧ relays ≠ [] then ∅ else p.stored) = p.view.marks := by
    cases ht : p.ttl with
    | absent => simp [ht, p.timed ht]
    | live => simp [ht]
    | expired => simp [ht, hne]
  refine ⟨?_, rfl, h2.symm, h3.symm, fun hn => ?_⟩
  · simp only [pebbleCommitSession, hkept, ← h1, h2, h3]
    simp [hne]
  · rw [countFresh_xackdel hn]
    exact h4.symm

theorem redis_rerun (h : redisCommitSession st relays = some (st', r)) :
    redisCommitSession st' relays = some (st', ⟨r.status, 0, 0, 0⟩) := by
  obtain ⟨hne, hcu, rfl, rfl⟩ := redisCommitSession_eq_some h
  have hmarked : ∀ x ∈ relays, x.hash ∈ (saddLoop st.marks relays).marks := by
    intro x hx
    rw [saddLoop_marks]
    exact Finset.mem_union_right _ (mem_toFinset.2 (mem_map_of_mem hx))
  obtain ⟨hm, hr, hc⟩ := saddLoop_of_marked hmarked
  have hgone : ∀ a ∈ relays.map (·.id), a ∉ st.queue \ (relays.map (·.id)).toFinset := by
    intro a ha
    simp [ha]
  cases hrun : redisCommitSession _ relays with
  | none =>
    rw [redisCommitSession_eq_none] at hrun
    rcases hrun with hrun | hrun
    · exact absurd hrun hne
    · omega
  | some t =>
    obtain ⟨st'', r''⟩ := t
    obtain ⟨-, -, rfl, rfl⟩ := redisCommitSession_eq_some hrun
    simp only [hm, hr, hc, countNew_zero, commitStatus_countNew, countFresh_of_gone hgone]
    simp

attribute [local simp] pebbleCommitSession

theorem pebble_rerun (hne : relays ≠ []) :
    pebbleCommitSession (pebbleCommitSession p relays).1 relays =
      ((pebbleCommitSession p relays).1, ⟨(pebbleCommitSession p relays).2.status, 0, 0, 0⟩) := by
  have hloop : pebbleLoop (pebbleCommitSession p relays).1 ∅ relays = ⟨∅, 0, 0, 0⟩ := by
    refine pebbleLoop_of_marked (by simp [hne]) fun x hx => ⟨?_, ?_⟩
    · rcases mem_pebbleLoop p ∅ hx with h | ⟨hl, h⟩
      · simp [h]
      · simp [hl, h]
    · simp only [pebbleCommitSession, Finset.mem_sdiff, mem_toFinset, not_and, not_not]
      exact fun _ => mem_map_of_mem hx
  generalize hq : pebbleCommitSession p relays = q at hloop ⊢
  have hlive : q.1.ttl = .live := by simp [← hq, hne]
  have hstatus : commitStatus q.1.session = q.2.status := by
    simp [← hq, commitStatus_countNew]
  have hqueue : q.1.queue \ (relays.map (·.id)).toFinset = q.1.queue := by
    simp [← hq]
  obtain ⟨⟨session, stored, ttl, queue, timed⟩, r⟩ := q
  subst hlive
  simp only [pebbleCommitSession, hloop, countNew_zero, hstatus, hqueue]
  simp [hne]

/-- The script refuses an empty list and one whose compute units a Lua number cannot hold, and only
those; where it commits, both committers end with the same marks, counters and entries and the same
result, the fresh duplicates of a list with no repeated id included; and a second run of either changes
nothing and finds no fresh duplicate. -/
theorem committers_agree (p : PebbleStore Id Hash) (relays : List (BatchedRelay Id Hash)) :
    (redisCommitSession p.view relays = none ↔ relays = [] ∨ maxExactInteger < totalComputeUnits relays) ∧
    ∀ st r, redisCommitSession p.view relays = some (st, r) →
      ((pebbleCommitSession p relays).1.view = st ∧
        (pebbleCommitSession p relays).2.status = r.status ∧
        (pebbleCommitSession p relays).2.newRelays = r.newRelays ∧
        (pebbleCommitSession p relays).2.newComputeUnits = r.newComputeUnits ∧
        ((relays.map (·.id)).Nodup → (pebbleCommitSession p relays).2.freshDups = r.freshDups)) ∧
      redisCommitSession st relays = some (st, ⟨r.status, 0, 0, 0⟩) ∧
      pebbleCommitSession (pebbleCommitSession p relays).1 relays =
        ((pebbleCommitSession p relays).1, ⟨r.status, 0, 0, 0⟩) := by
  refine ⟨redisCommitSession_eq_none _ _, fun st r h => ?_⟩
  have hagree := pebble_eq_redis h
  have hrerun := pebble_rerun (p := p) (redisCommitSession_eq_some h).1
  rw [hagree.2.1] at hrerun
  exact ⟨hagree, redis_rerun h, hrerun⟩

def sampleStore : PebbleStore Nat Nat :=
  ⟨some { state := .claiming, relayCount := 1, totalComputeUnits := 4 }, {7}, .live, {1, 2, 3}, by decide⟩

def sampleBatch : List (BatchedRelay Nat Nat) := [⟨1, 7, 4⟩, ⟨2, 8, 5⟩, ⟨3, 8, 5⟩]

theorem committers_agree_sample :
    redisCommitSession sampleStore.view sampleBatch =
      some (⟨some { state := .claiming, relayCount := 2, totalComputeUnits := 9 }, {7, 8}, ∅⟩, ⟨.counted, 1, 5, 2⟩) ∧
    (pebbleCommitSession sampleStore sampleBatch).2.freshDups = 2 := by
  have h : redisCommitSession sampleStore.view sampleBatch =
      some (⟨some { state := .claiming, relayCount := 2, totalComputeUnits := 9 }, {7, 8}, ∅⟩,
        ⟨.counted, 1, 5, 2⟩) := by decide
  obtain ⟨⟨-, -, -, -, hfresh⟩, -⟩ := (committers_agree sampleStore sampleBatch).2 _ _ h
  exact ⟨h, hfresh (by decide)⟩

/-- Both commit, to the same store and with the same result. With every read answered Pebble does not
refuse, so this is agreement. -/
def Agree (p : PebbleStore Id Hash) (relays : List (BatchedRelay Id Hash)) : Prop :=
  redisCommitSession p.view relays =
    some ((pebbleCommitSession p relays).1.view, (pebbleCommitSession p relays).2)

/-- The script refuses compute units past the exact range of a Lua number and an empty list, which Pebble
takes; and an entry listed twice is a fresh duplicate for Pebble, which looks for it in the store, and
not for the script, which has already deleted it. -/
theorem committers_disagree :
    ¬ Agree sampleStore [⟨1, 8, 9007199254740992⟩] ∧ ¬ Agree sampleStore [] ∧
      ¬ Agree sampleStore [⟨1, 8, 5⟩, ⟨1, 8, 5⟩] := by
  refine ⟨?_, ?_, ?_⟩ <;> unfold Agree <;> decide

end RelayMiner.Relay
