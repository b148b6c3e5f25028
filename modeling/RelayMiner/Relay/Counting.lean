import Mathlib.Algebra.Order.BigOperators.Group.Finset
import RelayMiner.Relay.Commit
import RelayMiner.Session.Store
/-!
# Counting relays

One session, served by any number of suppliers. The dedup set is kept per
session, the counters and the stream per supplier and session. Consumers finish
relays in batches (`CommitSession`, one script) or one by one (mark, counter,
acknowledgement: three round trips), in any interleaving, and may die between
any two of them. What the environment does to the keys (cleanup of an ended
session, sweeps, expiry) is a move of its own.
-/
open RelayMiner.Lib RelayMiner.Session Function

namespace RelayMiner.Relay

/-- A relay hash is a collision-free digest, so it is modelled as what it digests: whose relay it is,
the compute units published with it, and the bytes. -/
structure RelayHash (Sup : Type) where
  supplier : Sup
  computeUnits : Nat
  bytes : Bytes
  deriving DecidableEq

variable {Sup Id : Type} [DecidableEq Sup]

structure SessionBatch (Sup Id : Type) where
  supplier : Sup
  relays : List (BatchedRelay Id (RelayHash Sup))
  owned : ∀ r ∈ relays, r.hash.supplier = supplier ∧ r.computeUnits = r.hash.computeUnits

def SessionBatch.hashes (b : SessionBatch Sup Id) : Finset (RelayHash Sup) := (b.relays.map (·.hash)).toFinset

theorem SessionBatch.supplier_of_mem (b : SessionBatch Sup Id) {h : RelayHash Sup} (hh : h ∈ b.hashes) :
    h.supplier = b.supplier := by
  obtain ⟨r, hr, rfl⟩ := List.mem_map.1 (List.mem_toFinset.1 hh)
  exact (b.owned r hr).1

structure Ledger (Sup Id : Type) where
  sessions : Sup → Option SessionSnapshot
  marks : Finset (RelayHash Sup)
  queue : Sup → Finset Id
  counted : Finset (RelayHash Sup)
  acked : Finset (RelayHash Sup)

namespace Counting

inductive Op (Sup Id : Type) where
  | commit (b : SessionBatch Sup Id)
  | markProcessed (h : RelayHash Sup)
  | increment (h : RelayHash Sup)
  | ack (id : Id) (h : RelayHash Sup)
  | isDuplicate (h : RelayHash Sup)

inductive Reply where
  | failed | refused | done
  | added (new : Bool)
  | duplicate (dup : Bool)

def apply [DecidableEq Id] (st : Ledger Sup Id) : Op Sup Id → Ledger Sup Id × Reply
  | .commit b =>
    match redisCommitSession ⟨st.sessions b.supplier, st.marks, st.queue b.supplier⟩ b.relays with
    | none => (st, .refused)
    | some (c, r) =>
      ({ sessions := update st.sessions b.supplier c.session
         marks := c.marks
         queue := update st.queue b.supplier c.queue
         counted := if r.status = .counted then st.counted ∪ (c.marks \ st.marks) else st.counted
         acked := st.acked ∪ b.hashes }, .done)
  | .markProcessed h => ({ st with marks := insert h st.marks }, .added (decide (h ∉ st.marks)))
  | .increment h =>
    -- `IncrementRelayCount` refuses a missing or terminal session, as the batch script does.
    ({ st with
       sessions := update st.sessions h.supplier (countNew (st.sessions h.supplier) 1 h.computeUnits)
       counted :=
         if commitStatus (st.sessions h.supplier) = .counted then insert h st.counted else st.counted }, .done)
  | .ack id h =>
    ({ st with
       queue := update st.queue h.supplier ((st.queue h.supplier).erase id)
       acked := insert h st.acked }, .done)
  | .isDuplicate h => (st, .duplicate (decide (h ∈ st.marks)))

def exec [DecidableEq Id] (st : Ledger Sup Id) (o : Op Sup Id) : Fault → Ledger Sup Id × Reply
  | .ok => apply st o
  | .refused => (st, .failed)
  | .lost => ((apply st o).1, .failed)

abbrev Step (Sup Id : Type) := Prog (Op Sup Id) Reply

def ackMessage (id : Id) (h : RelayHash Sup) (k : Step Sup Id) : Step Sup Id := .op (.ack id h) fun _ => k

/-- `OnRelayProcessed`, then the acknowledgement: an error of the counter is logged and acknowledged. -/
def onRelayProcessed (id : Id) (h : RelayHash Sup) (k : Step Sup Id) : Step Sup Id :=
  .op (.increment h) fun _ => ackMessage id h k

/-- `countRelayOnce` and the acknowledgement after it. A mark that fails counts the relay anyway. -/
def countRelayOnce (id : Id) (h : RelayHash Sup) (k : Step Sup Id) : Step Sup Id :=
  .op (.markProcessed h) fun
    | .added false => ackMessage id h k
    | _ => onRelayProcessed id h k

def finishOneByOne : List (BatchedRelay Id (RelayHash Sup)) → Step Sup Id
  | [] => .ret
  | r :: rs => countRelayOnce r.id r.hash (finishOneByOne rs)

/-- The commit of a flush. A refused one is finished one by one, one that fails is run again as a new call. -/
def commitBatch (b : SessionBatch Sup Id) : Step Sup Id :=
  .op (.commit b) fun
    | .refused => finishOneByOne b.relays
    | _ => .ret

def reclaim (id : Id) (h : RelayHash Sup) : Step Sup Id :=
  .op (.isDuplicate h) fun
    | .duplicate true => ackMessage id h .ret
    | _ => .ret

inductive Call (Sup Id : Type) where
  | commitBatch (b : SessionBatch Sup Id)
  | finishOneByOne (rs : List (BatchedRelay Id (RelayHash Sup)))
  | reclaim (id : Id) (h : RelayHash Sup)
  | lostToPanic (id : Id) (h : RelayHash Sup)

def Call.body : Call Sup Id → Step Sup Id
  | .commitBatch b => Counting.commitBatch b
  | .finishOneByOne rs => Counting.finishOneByOne rs
  | .reclaim id h => Counting.reclaim id h
  | .lostToPanic id h => ackMessage id h .ret

inductive Event (Sup : Type) where
  | createIfAbsent (b : Sup)
  | setState (b : Sup) (s : SessionState)
  | cleanupSession (b : Sup)
  | scan (b : Sup)
  | expireSession (b : Sup)
  | expireMarks

def happen (st : Ledger Sup Id) : Event Sup → Ledger Sup Id
  | .createIfAbsent b =>
    if st.sessions b = none then { st with sessions := update st.sessions b (some { state := .active }) }
    else st
  | .setState b s =>
    { st with sessions := update st.sessions b ((st.sessions b).map fun snap => { snap with state := s }) }
  | .cleanupSession _ => { st with marks := ∅ }
  | .scan b => { st with sessions := update st.sessions b none, marks := ∅ }
  | .expireSession b => { st with sessions := update st.sessions b none }
  | .expireMarks => { st with marks := ∅ }

abbrev Consumers (Sup Id : Type) := Conf (Ledger Sup Id) (Op Sup Id) Reply

abbrev step [DecidableEq Id] : Consumers Sup Id → Move (Call Sup Id) Fault (Event Sup) → Consumers Sup Id :=
  stepCalls Call.body exec happen

def start (queue : Sup → Finset Id) : Consumers Sup Id :=
  ⟨⟨fun _ => none, ∅, queue, ∅, ∅⟩, fun _ => .ret⟩

def countedFor (st : Ledger Sup Id) (a : Sup) : Finset (RelayHash Sup) := st.counted.filter (·.supplier = a)

/-! ## What one commit counts -/

theorem countNew_eq_none {session : Option SessionSnapshot} {n cu : Nat} :
    countNew session n cu = none ↔ session = none := by
  unfold countNew
  split <;> simp

theorem countNew_open {s : SessionSnapshot} (hs : s.state.isTerminal = false) {n cu : Nat} (h0 : n = 0 → cu = 0) :
    countNew (some s) n cu =
      some { s with relayCount := s.relayCount + n, totalComputeUnits := s.totalComputeUnits + cu } := by
  rcases Nat.eq_zero_or_pos n with rfl | hn
  · simp [h0 rfl]
  · simp [countNew, commitStatus, hs, hn]

omit [DecidableEq Sup] in
/-- The loop moves the sums by what it newly marks. -/
theorem saddLoop_new {Hash : Type} [DecidableEq Hash] (units : Hash → Nat) (marks : Finset Hash)
    {rs : List (BatchedRelay Id Hash)} (hu : ∀ r ∈ rs, r.computeUnits = units r.hash) :
    (saddLoop marks rs).newRelays = ((saddLoop marks rs).marks \ marks).card ∧
      (saddLoop marks rs).newComputeUnits = ∑ h ∈ (saddLoop marks rs).marks \ marks, units h := by
  induction rs generalizing marks with
  | nil => simp [saddLoop]
  | cons r rs ih =>
    have hu' : ∀ x ∈ rs, x.computeUnits = units x.hash := fun x hx => hu x (List.mem_cons_of_mem _ hx)
    simp only [saddLoop]
    split
    · exact ih marks hu'
    next hr =>
      obtain ⟨h1, h2⟩ := ih (insert r.hash marks) hu'
      -- What the rest of the loop marks, and this relay.
      have hsplit : (saddLoop (insert r.hash marks) rs).marks \ marks =
          insert r.hash ((saddLoop (insert r.hash marks) rs).marks \ insert r.hash marks) := by
        ext x
        simp only [saddLoop_marks, Finset.mem_sdiff, Finset.mem_union, Finset.mem_insert]
        by_cases hx : x = r.hash
        · subst hx; simp [hr]
        · simp [hx]
      have hnew : r.hash ∉ (saddLoop (insert r.hash marks) rs).marks \ insert r.hash marks := by simp
      rw [hsplit, Finset.card_insert_of_notMem hnew, Finset.sum_insert hnew, h1, h2, hu r List.mem_cons_self]
      exact ⟨rfl, Nat.add_comm _ _⟩

/-- What a commit does: nothing, or it marks, counts and acknowledges its relays. -/
theorem apply_commit [DecidableEq Id] (st : Ledger Sup Id) (b : SessionBatch Sup Id) :
    apply st (.commit b) = (st, .refused) ∨
    apply st (.commit b) =
      ({ sessions := update st.sessions b.supplier (countNew (st.sessions b.supplier)
           (b.hashes \ st.marks).card (∑ h ∈ b.hashes \ st.marks, h.computeUnits))
         marks := st.marks ∪ b.hashes
         queue := update st.queue b.supplier (st.queue b.supplier \ (b.relays.map (·.id)).toFinset)
         counted :=
           if commitStatus (st.sessions b.supplier) = .counted then st.counted ∪ (b.hashes \ st.marks)
           else st.counted
         acked := st.acked ∪ b.hashes }, .done) := by
  simp only [apply]
  cases hc : redisCommitSession ⟨st.sessions b.supplier, st.marks, st.queue b.supplier⟩ b.relays with
  | none => exact .inl rfl
  | some t =>
    right
    obtain ⟨c, r⟩ := t
    obtain ⟨-, -, rfl, rfl⟩ := redisCommitSession_eq_some hc
    obtain ⟨hn, hu⟩ := saddLoop_new (·.computeUnits) st.marks fun r hr => (b.owned r hr).2
    simp only [hn, hu, saddLoop_marks, Finset.union_sdiff_left]
    rfl

/-! ## The books of one supplier -/

variable {st : Ledger Sup Id} {h : RelayHash Sup} {a : Sup} {o : Op Sup Id} {k : Reply → Step Sup Id}
  {c : Consumers Sup Id} {i : Nat} {p : Step Sup Id}

theorem mem_countedFor : h ∈ countedFor st a ↔ h ∈ st.counted ∧ h.supplier = a := by
  simp [countedFor]

/-- Supplier `a`'s counters agree with the relays counted into them, each of which is marked. -/
structure Books (a : Sup) (st : Ledger Sup Id) : Prop where
  marked : ∀ h ∈ st.counted, h.supplier = a → h ∈ st.marks
  absent : st.sessions a = none → countedFor st a = ∅
  kept : ∀ s, st.sessions a = some s → s.state.isTerminal = false ∧
    s.relayCount = (countedFor st a).card ∧ s.totalComputeUnits = ∑ h ∈ countedFor st a, h.computeUnits

section
variable (hb : Books a st)
include hb

/-- What the books are read from, and a larger set of marks. -/
theorem Books.congr {st' : Ledger Sup Id} (hs : st'.sessions a = st.sessions a)
    (hc : countedFor st' a = countedFor st a) (hm : ∀ h ∈ st.marks, h.supplier = a → h ∈ st'.marks) :
    Books a st' := by
  refine ⟨fun h hh ha => ?_, fun hn => ?_, fun s h => ?_⟩
  · have : h ∈ countedFor st a := hc ▸ mem_countedFor.2 ⟨hh, ha⟩
    exact hm h (hb.marked h (mem_countedFor.1 this).1 ha) ha
  · rw [hc]
    exact hb.absent (hs ▸ hn)
  · rw [hc]
    exact hb.kept s (hs ▸ h)

/-- Counting relays of one supplier that were not counted before: a whole batch or a single one. -/
theorem Books.count {st' : Ledger Sup Id} (b : Sup) (new : Finset (RelayHash Sup))
    (hown : ∀ h ∈ new, h.supplier = b) (hfresh : b = a → ∀ h ∈ new, h ∉ st.counted)
    (hs : st'.sessions = update st.sessions b
      (countNew (st.sessions b) new.card (∑ h ∈ new, h.computeUnits)))
    (hc : st'.counted = if commitStatus (st.sessions b) = .counted then st.counted ∪ new else st.counted)
    (hm : st.marks ⊆ st'.marks) (hnew : b = a → new ⊆ st'.marks) : Books a st' := by
  by_cases hba : b = a
  · subst hba
    cases hsess : st.sessions b with
    | none =>
      -- Nothing is counted into a session that is not there.
      have hc' : st'.counted = st.counted := by simpa [hsess, commitStatus] using hc
      refine hb.congr ?_ (by simp [countedFor, hc']) fun h hh _ => hm hh
      rw [hs, update_self, hsess, countNew_eq_none]
    | some s =>
      obtain ⟨hopen, hcount, hunits⟩ := hb.kept s hsess
      have hst : commitStatus (st.sessions b) = .counted := by simp [hsess, commitStatus, hopen]
      rw [if_pos hst] at hc
      have hfor : countedFor st' b = countedFor st b ∪ new := by
        rw [countedFor, hc, Finset.filter_union, Finset.filter_true_of_mem hown]
        rfl
      have hdis : Disjoint (countedFor st b) new :=
        Finset.disjoint_right.2 fun h hh hh' => hfresh rfl h hh (mem_countedFor.1 hh').1
      refine ⟨fun h hh ha => ?_, fun hn => ?_, fun s' hs' => ?_⟩
      · rw [hc] at hh
        rcases Finset.mem_union.1 hh with hh | hh
        · exact hm (hb.marked h hh ha)
        · exact hnew rfl hh
      · rw [hs, update_self, countNew_eq_none, hsess] at hn
        cases hn
      rw [hfor, Finset.card_union_of_disjoint hdis, Finset.sum_union hdis, ← hcount, ← hunits]
      rw [hs, update_self] at hs'
      rw [hsess, countNew_open hopen fun h0 => by simp [Finset.card_eq_zero.1 h0], Option.some.injEq] at hs'
      subst hs'
      exact ⟨hopen, rfl, rfl⟩
  refine hb.congr (by rw [hs, update_of_ne (Ne.symm hba)]) ?_ fun h hh _ => hm hh
  ext h
  have hnot : h ∈ new → h.supplier ≠ a := fun hh => by rw [hown h hh]; exact hba
  rw [mem_countedFor, mem_countedFor, hc]
  split
  · rw [Finset.mem_union]; tauto
  · rfl

/-- A commit counts what it marks; a mark, an acknowledgement and a read leave the counters alone. -/
theorem Books.apply [DecidableEq Id]
    (ho : ∀ h, o = .increment h → h.supplier = a → h ∈ st.marks ∧ h ∉ st.counted) : Books a (Counting.apply st o).1 := by
  cases o with
  | commit b =>
    rcases apply_commit st b with he | he
    · rw [he]
      exact hb
    rw [he]
    refine hb.count b.supplier (b.hashes \ st.marks) ?_ ?_ rfl rfl Finset.subset_union_left ?_
    · exact fun h hh => b.supplier_of_mem (Finset.mem_sdiff.1 hh).1
    · intro hs h hh hc
      obtain ⟨hh, hm⟩ := Finset.mem_sdiff.1 hh
      exact hm (hb.marked h hc ((b.supplier_of_mem hh).trans hs))
    · exact fun _ => Finset.sdiff_subset.trans Finset.subset_union_right
  | increment h =>
    refine hb.count h.supplier {h} (by simp) (fun hs => ?_) (by simp [Counting.apply]) ?_ (Finset.Subset.refl _)
      fun hs => ?_
    · simpa using (ho h rfl hs).2
    · simp only [Counting.apply, Finset.union_singleton]
    · rw [Finset.singleton_subset_iff]
      exact (ho h rfl hs).1
  | markProcessed h => exact hb.congr rfl rfl fun x hx _ => Finset.mem_insert_of_mem hx
  | ack id h => exact hb.congr rfl rfl fun _ hx _ => hx
  | isDuplicate h => exact hb

theorem Books.exec [DecidableEq Id] (f : Fault)
    (ho : ∀ h, o = .increment h → h.supplier = a → h ∈ st.marks ∧ h ∉ st.counted) :
    Books a (Counting.exec st o f).1 := by
  cases f with
  | ok | lost => exact hb.apply ho
  | refused => exact hb
end

/-! ## The calls in flight -/

inductive Stage : Step Sup Id → Prop
  | commit (b) : Stage (commitBatch b)
  | finish (rs) : Stage (finishOneByOne rs)
  | increment (id h rs) : Stage (onRelayProcessed id h (finishOneByOne rs))
  | ack (id h rs) : Stage (ackMessage id h (finishOneByOne rs))
  | reclaim (id h) : Stage (reclaim id h)

omit [DecidableEq Sup] in
theorem Stage.body (c : Call Sup Id) : Stage c.body := by
  cases c with
  | commitBatch b => exact .commit b
  | finishOneByOne rs => exact .finish rs
  | reclaim id h => exact .reclaim id h
  | lostToPanic id h => exact .ack id h []

omit [DecidableEq Sup] in
theorem next?_finishOneByOne {rs : List (BatchedRelay Id (RelayHash Sup))} (h : (finishOneByOne rs).next? = some o) :
    ∃ x, o = .markProcessed x := by
  cases rs with
  | nil => cases h
  | cons r rs =>
    obtain rfl : Op.markProcessed r.hash = o := by simpa [finishOneByOne, countRelayOnce] using h
    exact ⟨_, rfl⟩

omit [DecidableEq Sup] in
theorem next?_ackMessage {id : Id} {k : Step Sup Id} (ho : (ackMessage id h k).next? = some o) : o = .ack id h := by
  simpa [ackMessage, eq_comm] using ho

omit [DecidableEq Sup] in
/-- What follows an operation: the counter only after a mark that was not there, an acknowledgement only
after the counter, after a mark that was there, or after the reclaim guard found one. -/
theorem Stage.next (hs : Stage (.op o k)) (r : Reply) :
    Stage (k r) ∧
    (∀ h, (k r).next? = some (.increment h) → o = .markProcessed h ∧ r ≠ .added false) ∧
    (∀ id h, (k r).next? = some (.ack id h) →
      o = .increment h ∨ (o = .markProcessed h ∧ r = .added false) ∨ (o = .isDuplicate h ∧ r = .duplicate true)) := by
  generalize hp : Prog.op o k = p at hs
  cases hs with
  | commit b =>
    obtain ⟨rfl, rfl⟩ := Prog.op.inj hp
    dsimp only
    split
    · refine ⟨.finish _, fun h hh => ?_, fun id h hh => ?_⟩ <;>
        obtain ⟨x, hx⟩ := next?_finishOneByOne hh <;> cases hx
    · exact ⟨.finish [], by simp, by simp⟩
  | finish rs =>
    cases rs with
    | nil => cases hp
    | cons x rs =>
      obtain ⟨rfl, rfl⟩ := Prog.op.inj hp
      dsimp only
      split
      · refine ⟨.ack _ _ _, fun h hh => ?_, fun id h hh => ?_⟩ <;> cases next?_ackMessage hh
        exact .inr (.inl ⟨rfl, rfl⟩)
      next hr =>
        refine ⟨.increment _ _ _, fun h hh => ?_, fun id h hh => ?_⟩ <;>
          simp only [onRelayProcessed, Prog.next?_op, Option.some.injEq, reduceCtorEq, Op.increment.injEq] at hh
        exact ⟨by rw [hh], hr⟩
  | increment id h rs =>
    obtain ⟨rfl, rfl⟩ := Prog.op.inj hp
    refine ⟨.ack _ _ _, fun h hh => ?_, fun id h hh => ?_⟩ <;> cases next?_ackMessage hh
    exact .inl rfl
  | ack id h rs =>
    obtain ⟨rfl, rfl⟩ := Prog.op.inj hp
    refine ⟨.finish _, fun h hh => ?_, fun id h hh => ?_⟩ <;>
      obtain ⟨x, hx⟩ := next?_finishOneByOne hh <;> cases hx
  | reclaim id h =>
    obtain ⟨rfl, rfl⟩ := Prog.op.inj hp
    dsimp only
    split
    · refine ⟨.ack _ _ [], fun h hh => ?_, fun id h hh => ?_⟩ <;> cases next?_ackMessage hh
      exact .inr (.inr ⟨rfl, rfl⟩)
    · exact ⟨.finish [], by simp, by simp⟩

omit [DecidableEq Sup] in
theorem next?_body {c : Call Sup Id} :
    (∀ h, c.body.next? ≠ some (.increment h)) ∧
    (∀ id h, c.body.next? = some (.ack id h) → c = .lostToPanic id h) := by
  cases c with
  | commitBatch b => simp [Call.body, Counting.commitBatch]
  | reclaim id h => simp [Call.body, Counting.reclaim]
  | lostToPanic id h => simp [Call.body, ackMessage]
  | finishOneByOne rs =>
    refine ⟨fun h hh => ?_, fun id h hh => ?_⟩ <;> obtain ⟨x, hx⟩ := next?_finishOneByOne hh <;> cases hx

/-! ## Counted once -/

def Armed (c : Consumers Sup Id) (i : Nat) (h : RelayHash Sup) : Prop :=
  (c.calls i).next? = some (.increment h)

structure Tally (a : Sup) (c : Consumers Sup Id) : Prop where
  books : Books a c.store
  stage : ∀ i, Stage (c.calls i)
  armed : ∀ i h, h.supplier = a → Armed c i h → h ∈ c.store.marks ∧ h ∉ c.store.counted
  once : ∀ i j h, h.supplier = a → Armed c i h → Armed c j h → i = j

/-- The mark is answered, and the counters stay where the store adds exactly: a Lua number does up to `2 ^ 53`, HINCRBY
below `2 ^ 63`. -/
def Op.Exact (a : Sup) (st : Ledger Sup Id) (f : Fault) : Op Sup Id → Prop
  | .markProcessed h => h.supplier = a → f = .ok
  | .increment h => h.supplier = a →
    h.computeUnits ≤ 2 ^ 53 ∧ ∀ s ∈ st.sessions a, s.totalComputeUnits + h.computeUnits < 2 ^ 63
  | .commit b => b.supplier = a →
    ∀ s ∈ st.sessions a, s.totalComputeUnits + ∑ h ∈ b.hashes \ st.marks, h.computeUnits < 2 ^ 63
  | _ => True

/-- What supplier `a`'s counters rely on: its session stays open and there, its marks stay, and its operations are
answered and exact. -/
def Steady (a : Sup) (c : Consumers Sup Id) : Move (Call Sup Id) Fault (Event Sup) → Prop
  | .next i f => ∀ o ∈ (c.calls i).next?, o.Exact a c.store f
  | .env (.setState b s) => b = a → s.isTerminal = false
  | .env (.expireSession b) => b = a → c.store.sessions a = none
  | .env (.scan b) => (b = a → c.store.sessions a = none) ∧ ∀ h ∈ c.store.marks, h.supplier ≠ a
  | .env (.cleanupSession _) | .env .expireMarks => ∀ h ∈ c.store.marks, h.supplier ≠ a
  | _ => True

instance (a : Sup) (st : Ledger Sup Id) (f : Fault) (o : Op Sup Id) : Decidable (o.Exact a st f) := by
  unfold Op.Exact
  split <;> infer_instance

instance (a : Sup) (c : Consumers Sup Id) (m : Move (Call Sup Id) Fault (Event Sup)) : Decidable (Steady a c m) := by
  unfold Steady
  split <;> infer_instance

theorem exec_fst_cases [DecidableEq Id] (st : Ledger Sup Id) (o : Op Sup Id) (f : Fault) :
    (exec st o f).1 = st ∨ (exec st o f).1 = (apply st o).1 := by
  cases f with
  | ok | lost => exact .inr rfl
  | refused => exact .inl rfl

structure Adds (st : Ledger Sup Id) (o : Op Sup Id) (st' : Ledger Sup Id) : Prop where
  marks : st.marks ⊆ st'.marks
  counted : st.counted ⊆ st'.counted
  marked : ∀ h ∈ st'.marks, h ∈ st.marks ∨ o = .markProcessed h ∨ ∃ b, o = .commit b ∧ h.supplier = b.supplier ∧
    (commitStatus (st.sessions b.supplier) = .counted → h ∈ st'.counted)
  counts : ∀ h ∈ st'.counted, h ∈ st.counted ∨ o = .increment h ∨ h ∉ st.marks
  acks : ∀ h ∈ st'.acked, h ∈ st.acked ∨ (∃ id, o = .ack id h) ∨ h ∈ st'.marks

theorem exec_adds [DecidableEq Id] (st : Ledger Sup Id) (o : Op Sup Id) (f : Fault) : Adds st o (exec st o f).1 := by
  have hsame : ∀ l : Finset (RelayHash Sup), l ⊆ l := Finset.Subset.refl
  have hnone : Adds st o st := ⟨hsame _, hsame _, fun _ => .inl, fun _ => .inl, fun _ => .inl⟩
  rcases exec_fst_cases st o f with he | he <;> rw [he]
  · exact hnone
  cases o with
  | commit b =>
    rcases apply_commit st b with hc | hc <;> rw [hc]
    · exact hnone
    refine ⟨Finset.subset_union_left, ?_, fun h hh => ?_, fun h hh => ?_, fun h hh => ?_⟩
    · split
      · exact Finset.subset_union_left
      · exact hsame _
    · by_cases hold : h ∈ st.marks
      · exact .inl hold
      have hnew : h ∈ b.hashes := (Finset.mem_union.1 hh).resolve_left hold
      refine .inr (.inr ⟨b, rfl, b.supplier_of_mem hnew, fun hopen => ?_⟩)
      rw [if_pos hopen]
      exact Finset.mem_union_right _ (Finset.mem_sdiff.2 ⟨hnew, hold⟩)
    · split at hh
      · rcases Finset.mem_union.1 hh with hh | hh
        · exact .inl hh
        · exact .inr (.inr (Finset.mem_sdiff.1 hh).2)
      · exact .inl hh
    rcases Finset.mem_union.1 hh with hh | hh
    · exact .inl hh
    · exact .inr (.inr (Finset.mem_union_right _ hh))
  | markProcessed x =>
    refine ⟨Finset.subset_insert _ _, hsame _, fun h hh => ?_, fun _ => .inl, fun _ => .inl⟩
    rcases Finset.mem_insert.1 hh with rfl | hh
    · exact .inr (.inl rfl)
    · exact .inl hh
  | increment x =>
    simp only [apply]
    split
    · refine ⟨hsame _, Finset.subset_insert _ _, fun _ => .inl, fun h hh => ?_, fun _ => .inl⟩
      rcases Finset.mem_insert.1 hh with rfl | hh
      · exact .inr (.inl rfl)
      · exact .inl hh
    · exact ⟨hsame _, hsame _, fun _ => .inl, fun _ => .inl, fun _ => .inl⟩
  | ack id x =>
    refine ⟨hsame _, hsame _, fun _ => .inl, fun _ => .inl, fun h hh => ?_⟩
    rcases Finset.mem_insert.1 hh with rfl | hh
    · exact .inr (.inl ⟨id, rfl⟩)
    · exact .inl hh
  | isDuplicate x => exact hnone

/-- What `Steady` leaves to the environment. -/
theorem Books.happen {e : Event Sup} (hb : Books a c.store) (hs : Steady a c (.env e)) :
    Books a (Counting.happen c.store e) ∧
    (∀ h ∈ c.store.marks, h.supplier = a → h ∈ (Counting.happen c.store e).marks) ∧
    (Counting.happen c.store e).counted = c.store.counted ∧ (Counting.happen c.store e).acked = c.store.acked := by
  cases e with
  | createIfAbsent b =>
    simp only [Counting.happen]
    split
    next hn =>
      refine ⟨?_, fun _ hh _ => hh, rfl, rfl⟩
      by_cases hba : b = a
      · subst hba
        have hempty : countedFor c.store b = ∅ := hb.absent hn
        refine ⟨hb.marked, fun _ => hempty, fun s h => ?_⟩
        simp only [update_self, Option.some.injEq] at h
        subst h
        change _ ∧ 0 = (countedFor c.store b).card ∧ 0 = ∑ h ∈ countedFor c.store b, h.computeUnits
        simp [hempty, SessionState.isTerminal]
      · exact hb.congr (update_of_ne (Ne.symm hba) _ _) rfl fun _ hh _ => hh
    · exact ⟨hb, fun _ hh _ => hh, rfl, rfl⟩
  | setState b s =>
    refine ⟨?_, fun _ hh _ => hh, rfl, rfl⟩
    by_cases hba : b = a
    · subst hba
      refine ⟨hb.marked, fun hn => ?_, fun s' h => ?_⟩
      · simp only [Counting.happen, update_self, Option.map_eq_none_iff] at hn
        exact hb.absent hn
      simp only [Counting.happen, update_self, Option.map_eq_some_iff] at h
      obtain ⟨s0, h0, rfl⟩ := h
      exact ⟨hs rfl, (hb.kept s0 h0).2⟩
    · exact hb.congr (update_of_ne (Ne.symm hba) _ _) rfl fun _ hh _ => hh
  | cleanupSession | expireMarks =>
    exact ⟨hb.congr rfl rfl fun h hh ha => absurd ha (hs h hh), fun h hh ha => absurd ha (hs h hh), rfl, rfl⟩
  | expireSession b =>
    refine ⟨hb.congr ?_ rfl fun _ hh _ => hh, fun _ hh _ => hh, rfl, rfl⟩
    by_cases hba : b = a
    · subst hba
      simpa [Counting.happen] using (hs rfl).symm
    · exact update_of_ne (Ne.symm hba) _ _
  | scan b =>
    refine ⟨hb.congr ?_ rfl fun h hh ha => absurd ha (hs.2 h hh), fun h hh ha => absurd ha (hs.2 h hh), rfl, rfl⟩
    by_cases hba : b = a
    · subst hba
      simpa [Counting.happen] using (hs.1 rfl).symm
    · exact update_of_ne (Ne.symm hba) _ _

omit [DecidableEq Sup] in
theorem armed_update {calls : Nat → Step Sup Id} {j : Nat} :
    Armed ⟨st, update calls i p⟩ j h →
      (j = i ∧ p.next? = some (.increment h)) ∨ (j ≠ i ∧ (calls j).next? = some (.increment h)) := by
  intro hj
  by_cases hji : j = i
  · subst hji
    exact .inl ⟨rfl, by simpa [Armed] using hj⟩
  · exact .inr ⟨hji, by simpa [Armed, update_of_ne hji] using hj⟩

theorem Tally.slot (ht : Tally a c) (i : Nat) (hp : Stage p) (hn : ∀ h, p.next? ≠ some (.increment h)) :
    Tally a { c with calls := update c.calls i p } := by
  have hold : ∀ j h, Armed { c with calls := update c.calls i p } j h → Armed c j h := by
    intro j h hj
    rcases armed_update hj with ⟨-, hj⟩ | ⟨-, hj⟩
    · exact absurd hj (hn h)
    · exact hj
  exact ⟨ht.books, forall_update i ht.stage hp, fun j h ha hj => ht.armed j h ha (hold j h hj),
    fun j k h ha hj hk => ht.once j k h ha (hold j h hj) (hold k h hk)⟩

/-- The counter follows only a mark this call was the first to set. -/
theorem first_to_mark [DecidableEq Id] {f : Fault} (hm : Steady a c (.next i f)) (hi : c.calls i = .op o k)
    (hr : o = .markProcessed h ∧ (exec c.store o f).2 ≠ .added false) (ha : h.supplier = a) :
    h ∉ c.store.marks ∧ (exec c.store o f).1 = { c.store with marks := insert h c.store.marks } := by
  obtain ⟨rfl, hr⟩ := hr
  obtain rfl : f = .ok := hm (.markProcessed h) (by simp [hi]) ha
  exact ⟨fun hmem => hr (by simp [exec, apply, hmem]), rfl⟩

variable {m : Move (Call Sup Id) Fault (Event Sup)}

theorem tally_step [DecidableEq Id] (ht : Tally a c) (hm : Steady a c m) :
    Tally a (step c m) := by
  rcases stepCalls_cases Call.body exec happen c m with
    he | ⟨i, k, rfl, -, he⟩ | ⟨i, f, o, k, rfl, hi, he⟩ | ⟨i, rfl, he⟩ | ⟨e, rfl, he⟩ <;> rw [step, he]
  · exact ht
  · exact ht.slot i (.body k) next?_body.1
  · have hstage : Stage (.op o k) := hi ▸ ht.stage i
    obtain ⟨hk, hinc, -⟩ := hstage.next (exec c.store o f).2
    have hown : ∀ h, o = .increment h → h.supplier = a → h ∈ c.store.marks ∧ h ∉ c.store.counted :=
      fun h ho ha => ht.armed i h ha (by simp [Armed, hi, ho])
    have hfirst : ∀ h, h.supplier = a → (k (exec c.store o f).2).next? = some (.increment h) →
        h ∉ c.store.marks ∧ (exec c.store o f).1 = { c.store with marks := insert h c.store.marks } :=
      fun h ha hn => first_to_mark hm hi (hinc h hn) ha
    refine ⟨ht.books.exec f hown, forall_update i ht.stage hk, fun j h ha hj => ?_, fun j l h ha hj hl => ?_⟩
    · rcases armed_update hj with ⟨-, hj'⟩ | ⟨hji, hj'⟩
      · obtain ⟨hnew, hst⟩ := hfirst h ha hj'
        simp only [hst]
        exact ⟨Finset.mem_insert_self _ _, fun hc => hnew (ht.books.marked h hc ha)⟩
      · obtain ⟨hmark, hcount⟩ := ht.armed j h ha hj'
        have hadds := exec_adds c.store o f
        refine ⟨hadds.marks hmark, fun hc => ?_⟩
        rcases hadds.counts h hc with hc | rfl | hc
        · exact hcount hc
        · exact hji (ht.once j i h ha hj' (by simp [Armed, hi]))
        · exact hc hmark
    rcases armed_update hj with ⟨rfl, hj'⟩ | ⟨-, hj'⟩ <;> rcases armed_update hl with ⟨rfl, hl'⟩ | ⟨-, hl'⟩
    · rfl
    · exact absurd (ht.armed l h ha hl').1 (hfirst h ha hj').1
    · exact absurd (ht.armed j h ha hj').1 (hfirst h ha hl').1
    · exact ht.once j l h ha hj' hl'
  · exact ht.slot i (.finish []) (by simp)
  obtain ⟨hb, hmarks, hcount, -⟩ := ht.books.happen hm
  refine ⟨hb, ht.stage, fun i h ha hi => ?_, ht.once⟩
  obtain ⟨h1, h2⟩ := ht.armed i h ha hi
  exact ⟨hmarks h h1 ha, by rw [hcount]; exact h2⟩

theorem tally_start (a : Sup) (queue : Sup → Finset Id) : Tally a (start queue) :=
  ⟨⟨by simp [start], fun _ => rfl, by simp [start]⟩, fun _ => .finish [], by simp [start, Armed], by simp [start, Armed]⟩

/-! ## Nothing acknowledged uncounted -/

def Op.Lands (a : Sup) (st : Ledger Sup Id) (f : Fault) : Op Sup Id → Prop
  | .commit b => b.supplier = a → st.sessions a ≠ none
  | .increment h => h.supplier = a → f ≠ .refused ∧ st.sessions a ≠ none
  | _ => True

def Op.NotCounting (a : Sup) : Op Sup Id → Prop
  | .increment h => h.supplier ≠ a
  | _ => True

/-- What a relay of `a` finished one by one relies on besides: its session is there, nothing stops its call
between the mark and the counter, the counter lands, and no relay is lost to a panic. -/
def Uncut (a : Sup) (c : Consumers Sup Id) : Move (Call Sup Id) Fault (Event Sup) → Prop
  | .start _ (.lostToPanic _ h) => h.supplier ≠ a
  | .next i f => ∀ o ∈ (c.calls i).next?, o.Lands a c.store f
  | .drop i => ∀ o ∈ (c.calls i).next?, o.NotCounting a
  | _ => True

instance (a : Sup) (st : Ledger Sup Id) (f : Fault) (o : Op Sup Id) : Decidable (o.Lands a st f) := by
  unfold Op.Lands
  split <;> infer_instance

instance (a : Sup) (o : Op Sup Id) : Decidable (o.NotCounting a) := by
  unfold Op.NotCounting
  split <;> infer_instance

instance (a : Sup) (c : Consumers Sup Id) (m : Move (Call Sup Id) Fault (Event Sup)) : Decidable (Uncut a c m) := by
  unfold Uncut
  split <;> infer_instance

theorem happen_marks {e : Event Sup} : (happen st e).marks ⊆ st.marks := by
  cases e with
  | createIfAbsent b =>
    simp only [happen]
    split <;> exact Finset.Subset.refl _
  | setState | expireSession => exact Finset.Subset.refl _
  | _ => exact Finset.empty_subset _

structure Settled (a : Sup) (c : Consumers Sup Id) : Prop where
  marked : ∀ h ∈ c.store.marks, h.supplier = a → h ∈ c.store.counted ∨ ∃ i, Armed c i h
  acking : ∀ i id h, h.supplier = a → (c.calls i).next? = some (.ack id h) → h ∈ c.store.marks
  acked : ∀ h ∈ c.store.acked, h.supplier = a → h ∈ c.store.marks

theorem Books.open_of_ne_none (hb : Books a st) (h : st.sessions a ≠ none) :
    commitStatus (st.sessions a) = .counted := by
  obtain ⟨s, hs⟩ := Option.ne_none_iff_exists'.1 h
  simp [hs, commitStatus, (hb.kept s hs).1]

omit [DecidableEq Sup] in
theorem Stage.next_added (hs : Stage (.op (.markProcessed h) k)) :
    (k (.added true)).next? = some (.increment h) := by
  generalize hp : Prog.op (.markProcessed h) k = p at hs
  cases hs with
  | finish rs =>
    cases rs with
    | nil => cases hp
    | cons x rs =>
      obtain ⟨hx, rfl⟩ := Prog.op.inj hp
      cases hx
      rfl
  | _ => exact absurd (Prog.op.inj hp).1 (by simp)

theorem settled_next [DecidableEq Id] {f : Fault} (ht : Tally a c) (hs : Settled a c) (hm : Steady a c (.next i f))
    (hu : Uncut a c (.next i f)) (hi : c.calls i = .op o k) :
    Settled a ⟨(exec c.store o f).1, update c.calls i (k (exec c.store o f).2)⟩ := by
  have hstage : Stage (.op o k) := hi ▸ ht.stage i
  have hadds := exec_adds c.store o f
  refine ⟨fun h hh ha => ?_, fun j id h ha hj => ?_, fun h hh ha => ?_⟩
  · by_cases hold : h ∈ c.store.marks
    · rcases hs.marked h hold ha with hc | ⟨j, hj⟩
      · exact .inl (hadds.counted hc)
      · by_cases hji : j = i
        · -- The call that was about to count it counts it now.
          subst hji
          obtain rfl : o = .increment h := by simpa [Armed, hi] using hj
          obtain ⟨hf, hsess⟩ := hu (.increment h) (by simp [hi]) ha
          have hcount : h ∈ (apply c.store (.increment h)).1.counted := by
            simp [apply, ha, ht.books.open_of_ne_none hsess]
          cases f with
          | ok | lost => exact .inl hcount
          | refused => exact absurd rfl hf
        · exact .inr ⟨j, by simpa [Armed, update_of_ne hji] using hj⟩
    · rcases hadds.marked h hh with hh | rfl | ⟨b, rfl, hb, hh⟩
      · exact absurd hh hold
      · obtain rfl : f = .ok := hm (.markProcessed h) (by simp [hi]) ha
        exact .inr ⟨i, by simpa [Armed, exec, apply, hold] using hstage.next_added⟩
      · obtain rfl : b.supplier = a := hb.symm.trans ha
        exact .inl (hh (ht.books.open_of_ne_none (hu (.commit b) (by simp [hi]) rfl)))
  · by_cases hji : j = i
    · subst hji
      simp only [update_self] at hj
      rcases (hstage.next _).2.2 id h hj with rfl | ⟨rfl, -⟩ | ⟨rfl, hr⟩
      · exact hadds.marks (ht.armed j h ha (by simp [Armed, hi])).1
      · obtain rfl : f = .ok := hm (.markProcessed h) (by simp [hi]) ha
        exact Finset.mem_insert_self _ _
      cases f with
      | ok => exact hadds.marks (by simpa [exec, apply] using hr)
      | refused | lost => cases hr
    · simp only [update_of_ne hji] at hj
      exact hadds.marks (hs.acking j id h ha hj)
  rcases hadds.acks h hh with hh | ⟨id, rfl⟩ | hh
  · exact hadds.marks (hs.acked h hh ha)
  · exact hadds.marks (hs.acking i id h ha (by simp [hi]))
  · exact hh

omit [DecidableEq Sup] in
/-- A slot given to a call that neither counts nor acknowledges at once, in place of one that was not about
to count. -/
theorem Settled.slot (hs : Settled a c) (hi : ∀ h, Armed c i h → h.supplier ≠ a)
    (hp : ∀ id h, p.next? = some (.ack id h) → h.supplier ≠ a) :
    Settled a { c with calls := update c.calls i p } := by
  refine ⟨fun h hh ha => ?_, fun j id h ha hj => ?_, hs.acked⟩
  · rcases hs.marked h hh ha with hc | ⟨j, hj⟩
    · exact .inl hc
    · have hji : j ≠ i := fun hji => hi h (hji ▸ hj) ha
      exact .inr ⟨j, by simpa [Armed, update_of_ne hji] using hj⟩
  by_cases hji : j = i
  · subst hji
    exact absurd ha (hp id h (by simpa using hj))
  · exact hs.acking j id h ha (by simpa [update_of_ne hji] using hj)

theorem settled_step [DecidableEq Id] (ht : Tally a c) (hs : Settled a c)
    (hm : Steady a c m) (hu : Uncut a c m) : Settled a (step c m) := by
  rcases stepCalls_cases Call.body exec happen c m with
    he | ⟨i, k, rfl, hi, he⟩ | ⟨i, f, o, k, rfl, hi, he⟩ | ⟨i, rfl, he⟩ | ⟨e, rfl, he⟩ <;> rw [step, he]
  · exact hs
  · refine hs.slot (by simp [Armed, hi]) fun id h hh => ?_
    obtain rfl := next?_body.2 id h hh
    exact hu
  · exact settled_next ht hs hm hu hi
  · exact hs.slot (fun h hh => hu _ hh) (by simp)
  obtain ⟨-, hmarks, hcount, hacked⟩ := ht.books.happen hm
  refine ⟨fun h hh ha => ?_, fun i id h ha hi => hmarks h (hs.acking i id h ha hi) ha, fun h hh ha => ?_⟩
  · have hold : h ∈ c.store.marks := happen_marks hh
    rw [hcount]
    exact hs.marked h hold ha
  · rw [hacked] at hh
    exact hmarks h (hs.acked h hh ha) ha

/-- Each relay of supplier `a` is counted once: as long as `a`'s session stays open, its marks stay and its counters
stay exact, the counters are those of the relays counted, no relay twice; and if no single relay was cut between its mark and
its counter, every relay acknowledged is counted, or a call in flight is about to count it. -/
theorem relays_counted_once [DecidableEq Id] (a : Sup) (queue : Sup → Finset Id)
    (ms : List (Move (Call Sup Id) Fault (Event Sup))) (hm : Meets step (Steady a) (start queue) ms) :
    let c := run step (start queue) ms
    (∀ s, c.store.sessions a = some s →
      s.relayCount = (countedFor c.store a).card ∧ s.totalComputeUnits = ∑ h ∈ countedFor c.store a, h.computeUnits) ∧
    (Meets step (Uncut a) (start queue) ms →
      ∀ h ∈ c.store.acked, h.supplier = a → h ∈ countedFor c.store a ∨ ∃ i, Armed c i h) := by
  intro c
  have ht : Tally a c := inv_of_meets (Tally a) (fun _ _ => tally_step) (tally_start a queue) hm
  refine ⟨fun s hs => (ht.books.kept s hs).2, fun hu h hh ha => ?_⟩
  have hstart : Settled a (start queue) := ⟨by simp [start], by simp [start], by simp [start]⟩
  obtain ⟨-, hs⟩ : Tally a c ∧ Settled a c :=
    inv_of_meets (fun c => Tally a c ∧ Settled a c)
      (fun _ _ hi hg => ⟨tally_step hi.1 hg.1, settled_step hi.1 hi.2 hg.1 hg.2⟩)
      ⟨tally_start a queue, hstart⟩ (hm.and hu)
  exact (hs.marked h (hs.acked h hh ha) ha).imp_left fun hc => mem_countedFor.2 ⟨hc, ha⟩

/-! ## Two suppliers, one relay -/

def oneRelay : RelayHash Bool := ⟨false, 3, [7]⟩

def oneBatch : SessionBatch Bool Nat := ⟨false, [⟨0, oneRelay, 3⟩], by simp [oneRelay]⟩

/-- A commit whose answer is lost and which is run again, while a reclaimed copy is dropped and the other
supplier's session ends. -/
def rerun : List (Move (Call Bool Nat) Fault (Event Bool)) :=
  [.env (.createIfAbsent false), .env (.createIfAbsent true),
    .start 0 (.commitBatch oneBatch), .next 0 .lost,
    .start 1 (.reclaim 0 oneRelay), .next 1 .ok, .next 1 .ok,
    .env (.setState true .proved),
    .start 0 (.commitBatch oneBatch), .next 0 .ok]

theorem relays_counted_once_rerun :
    (run step (start fun _ => {0}) rerun).store.sessions false =
        some { state := .active, relayCount := 1, totalComputeUnits := 3 } ∧
      (oneRelay ∈ countedFor (run step (start fun _ => {0}) rerun).store false ∨
        ∃ i, Armed (run step (start fun _ => {0}) rerun) i oneRelay) := by
  have h := relays_counted_once false (fun _ => {0}) rerun (by decide)
  exact ⟨by decide, h.2 (by decide) oneRelay (by decide) rfl⟩

/-- The consumer dies between the mark and the counter; the reclaim acknowledges its relay. -/
def cutRun : List (Move (Call Bool Nat) Fault (Event Bool)) :=
  [.env (.createIfAbsent false), .start 0 (.finishOneByOne oneBatch.relays), .next 0 .ok, .drop 0,
    .start 0 (.reclaim 0 oneRelay), .next 0 .ok, .next 0 .ok]

/-- The other supplier's session is proved and cleaned up before the commit is run again. -/
def cleanupRun : List (Move (Call Bool Nat) Fault (Event Bool)) :=
  [.env (.createIfAbsent false), .env (.createIfAbsent true),
    .start 0 (.commitBatch oneBatch), .next 0 .lost,
    .env (.setState true .proved), .env (.cleanupSession true),
    .start 0 (.commitBatch oneBatch), .next 0 .ok]

/-- A mark fails and the relay is counted anyway; the consumer dies before the acknowledgement, and the copy that is
delivered again is counted too. -/
def failedMark : List (Move (Call Bool Nat) Fault (Event Bool)) :=
  [.env (.createIfAbsent false), .start 0 (.finishOneByOne oneBatch.relays), .next 0 .refused, .next 0 .ok, .drop 0,
    .start 0 (.finishOneByOne oneBatch.relays), .next 0 .ok, .next 0 .ok]

def panicked : List (Move (Call Bool Nat) Fault (Event Bool)) :=
  [.env (.createIfAbsent false), .start 0 (.lostToPanic 0 oneRelay), .next 0 .ok]

/-- A relay cut between its mark and its counter, lost to a panic, or committed with no session is acknowledged and
never counted; a mark that failed, and the cleanup of another supplier's session, make a counted relay countable
again. -/
theorem relays_miscounted :
    let after := fun ms => (run step (start fun _ => {0}) ms).store
    (oneRelay ∈ (after cutRun).acked ∧ (after cutRun).sessions false = some { state := .active, relayCount := 0 } ∧
      ((run step (start fun _ => {0}) cutRun).calls 0).next?.isNone) ∧
    (after cleanupRun).sessions false = some { state := .active, relayCount := 2, totalComputeUnits := 6 } ∧
    (after failedMark).sessions false = some { state := .active, relayCount := 2, totalComputeUnits := 6 } ∧
    (oneRelay ∈ (after panicked).acked ∧ (after panicked).sessions false = some { state := .active }) ∧
    oneRelay ∈ (after [.start 0 (.commitBatch oneBatch), .next 0 .ok]).acked := by
  decide

end Counting

end RelayMiner.Relay
