import RelayMiner.Lib.Runs
import RelayMiner.Relay.Commit
/-!
# What becomes of a batched relay

`relayBatch` (`relay_batch.go`) of one supplier, with every session it holds.
All of its methods run under its mutex, so a run is a list of whole calls; each
carries the answers of the stores and the stream, panics in a flush included.

The fate of a relay is how it leaves the batch, which a flush, a release or the
loss of the key decides. A commit that ran and whose answer did not come back
decides nothing: its relays are kept, and noted as `unanswered`.
-/
open RelayMiner.Lib Function

namespace RelayMiner.Relay.Fates

open List

variable {S Id Hash : Type} {g : Option Nat} {gen : Nat}

def relayBatchCap : Nat := 1000

structure HeldRelay (Id Hash : Type) extends BatchedRelay Id Hash where
  gen : Nat
  deriving DecidableEq

inductive Answer where
  | ok | failed | panicked

/-- `counted`: marked and given up as done; with a status other than `counted`, no counter took it. -/
inductive Fate where
  | counted (checkpointed : Option Nat) (acked : Bool) (status : CommitStatus)
  | handedBack (released : Bool)
  | lost (acked : Bool)
  deriving DecidableEq

structure SessionBatch (Id Hash : Type) where
  held : Option (List (HeldRelay Id Hash)) := none
  taken : List (HeldRelay Id Hash) := []
  settled : List (HeldRelay Id Hash × Fate) := []
  unanswered : List (HeldRelay Id Hash × Nat) := []
  deriving DecidableEq

def SessionBatch.relays (s : SessionBatch Id Hash) : List (HeldRelay Id Hash) := s.held.getD []

inductive Checkpoint where
  | failed | panicked | notResident
  | resident (gen : Nat)

/-- `CommitSession`; `ran` is whether the entries were acknowledged although no answer came back. -/
inductive CommitAnswer where
  | answered (status : CommitStatus)
  | refused
  | failed (ran : Bool)
  | panicked (ran : Bool)

inductive TreeAnswer where
  | committed | failed | panicked

inductive Finish where
  | counted (acked : Bool) (status : CommitStatus)
  | panicked (ack : Answer)

structure Flush where
  checkpoint : Checkpoint
  staleReleases : Nat → Answer := fun _ => .ok
  commit : CommitAnswer := .answered .counted
  commitTree : TreeAnswer := .committed
  releases : Nat → Answer := fun _ => .ok
  finishes : Nat → Finish := fun _ => .counted true .counted

/-! ## The batch -/

def settleEach (fate : Nat → Option Fate) : Nat → List (HeldRelay Id Hash) → List (HeldRelay Id Hash × Fate) × Bool
  | _, [] => ([], false)
  | i, r :: rs =>
    match fate i with
    | none => ([], true)
    | some t => ((r, t) :: (settleEach fate (i + 1) rs).1, (settleEach fate (i + 1) rs).2)

def Answer.released : Answer → Option Fate
  | .ok => some (.handedBack true)
  | .failed => some (.handedBack false)
  | .panicked => none

def Finish.fate (checkpointed : Option Nat) : Finish → Option Fate
  | .counted acked status => some (.counted checkpointed acked status)
  | .panicked .ok => some (.lost true)
  | .panicked .failed => some (.lost false)
  | .panicked .panicked => none

def releaseRelays (answer : Nat → Answer) (relays : List (HeldRelay Id Hash)) :
    List (HeldRelay Id Hash × Fate) × Bool :=
  settleEach (fun i => (answer i).released) 0 relays

def finishEach (checkpointed : Option Nat) (finish : Nat → Finish) (relays : List (HeldRelay Id Hash)) :
    List (HeldRelay Id Hash × Fate) × Bool :=
  settleEach (fun i => (finish i).fate checkpointed) 0 relays

def takeOtherGenerations (gen : Nat) (relays : List (HeldRelay Id Hash)) :
    List (HeldRelay Id Hash) × List (HeldRelay Id Hash) :=
  relays.partition (·.gen = gen)

inductive FlushOutcome where
  | done | retry | release | perRelay

def commitSession (s : SessionBatch Id Hash) (gen : Nat) : CommitAnswer → SessionBatch Id Hash × FlushOutcome
  | .answered status =>
    ({ s with settled := s.settled ++ s.relays.map fun r => (r, .counted (some gen) true status) }, .done)
  | .refused => (s, .perRelay)
  | .failed ran => ({ s with unanswered := s.unanswered ++ if ran then s.relays.map (·, gen) else [] }, .retry)
  | .panicked ran => ({ s with unanswered := s.unanswered ++ if ran then s.relays.map (·, gen) else [] }, .perRelay)

def flushSession (s : SessionBatch Id Hash) (f : Flush) : (SessionBatch Id Hash × FlushOutcome) × Option Nat :=
  match f.checkpoint with
  | .failed => ((s, .retry), none)
  | .panicked => ((s, .perRelay), none)
  | .notResident => ((s, .release), none)
  | .resident gen =>
    let (kept, stale) := takeOtherGenerations gen s.relays
    let (handed, panicked) := releaseRelays f.staleReleases stale
    let s' := { s with held := some kept, settled := s.settled ++ handed }
    if panicked then ((s', .perRelay), some gen)
    else if stale ≠ [] ∧ kept = [] then ((s', .done), some gen)
    else (commitSession s' gen f.commit, some gen)

inductive FlushEnd where
  | retained | gone | panicked
  deriving DecidableEq

def SessionBatch.letGo (s : SessionBatch Id Hash) (fates : List (HeldRelay Id Hash × Fate) × Bool) :
    SessionBatch Id Hash × FlushEnd :=
  if fates.2 then ({ s with settled := s.settled ++ fates.1 }, .panicked)
  else ({ s with settled := s.settled ++ fates.1, held := none }, .gone)

def finishOneByOne (s : SessionBatch Id Hash) (checkpointed : Option Nat) (f : Flush) :
    SessionBatch Id Hash × FlushEnd :=
  match f.commitTree with
  | .panicked => (s, .panicked)
  | .failed => s.letGo (releaseRelays f.releases s.relays)
  | .committed => s.letGo (finishEach checkpointed f.finishes s.relays)

def settle (f : Flush) (checkpointed : Option Nat) : SessionBatch Id Hash × FlushOutcome → SessionBatch Id Hash × FlushEnd
  | (s, .retry) => (s, .retained)
  | (s, .release) => s.letGo (releaseRelays f.releases s.relays)
  | (s, .perRelay) => finishOneByOne s checkpointed f
  | (s, .done) => ({ s with held := none }, .gone)

def flushLocked (s : SessionBatch Id Hash) (f : Flush) : SessionBatch Id Hash × FlushEnd :=
  settle f (flushSession s f).2 (flushSession s f).1

def SessionBatch.append (s : SessionBatch Id Hash) (r : HeldRelay Id Hash) : SessionBatch Id Hash :=
  { s with held := some (s.relays ++ [r]), taken := s.taken ++ [r] }

/-- `Add`: the relay is taken unless the session is full and could not be flushed. -/
def SessionBatch.add (s : SessionBatch Id Hash) (r : HeldRelay Id Hash) (f : Flush) : SessionBatch Id Hash :=
  if relayBatchCap ≤ s.relays.length then
    match flushLocked s f with
    | (s, .gone) => s.append r
    | (s, _) => s
  else s.append r

structure RelayBatch (S Id Hash : Type) where
  sessions : S → SessionBatch Id Hash := fun _ => {}
  acks : List Id := []

def RelayBatch.flushAcksLocked (b : RelayBatch S Id Hash) (acked : Bool) : RelayBatch S Id Hash × Bool :=
  if b.acks = [] then (b, false) else if acked then ({ b with acks := [] }, false) else (b, true)

def RelayBatch.addAck (b : RelayBatch S Id Hash) (id : Id) (acked : Bool) : RelayBatch S Id Hash :=
  if relayBatchCap ≤ b.acks.length then
    match b.flushAcksLocked acked with
    | (b, true) => b
    | (b, false) => { b with acks := b.acks ++ [id] }
  else { b with acks := b.acks ++ [id] }

variable [DecidableEq S] {fate : Nat → Option Fate} {r : HeldRelay Id Hash} {s : SessionBatch Id Hash} {f : Flush}

def RelayBatch.flushEach (b : RelayBatch S Id Hash) : List (S × Flush) → RelayBatch S Id Hash × Bool
  | [] => (b, false)
  | (id, f) :: rest =>
    match (b.sessions id).held with
    | none => b.flushEach rest
    | some _ =>
      let (s, ended) := flushLocked (b.sessions id) f
      let b' := { b with sessions := update b.sessions id s }
      if ended = .panicked then (b', true) else b'.flushEach rest

def RelayBatch.letGoEach (b : RelayBatch S Id Hash) (fate : Bool → Fate) :
    List (S × (Nat → Bool)) → RelayBatch S Id Hash
  | [] => b
  | (id, answer) :: rest =>
    let s := b.sessions id
    let s' := (s.letGo (settleEach (fun i => some (fate (answer i))) 0 s.relays)).1
    RelayBatch.letGoEach { b with sessions := update b.sessions id s' } fate rest

inductive Call (S Id Hash : Type) where
  | add (id : S) (r : HeldRelay Id Hash) (f : Flush)
  | addAck (id : Id) (acked : Bool)
  | flushAll (order : List (S × Flush)) (acked : Bool)
  | flushSessions (ids : List (S × Flush))
  | releaseAll (order : List (S × (Nat → Bool))) (acked : Bool)
  | ackAllAsLost (order : List (S × (Nat → Bool))) (acked : Bool)

def step (b : RelayBatch S Id Hash) : Call S Id Hash → RelayBatch S Id Hash
  | .add id r f => { b with sessions := update b.sessions id ((b.sessions id).add r f) }
  | .addAck id acked => b.addAck id acked
  | .flushAll order acked =>
    match b.flushEach order with
    | (b, true) => b
    | (b, false) => (b.flushAcksLocked acked).1
  | .flushSessions ids => (b.flushEach ids).1
  | .releaseAll order acked => (b.flushAcksLocked acked).1.letGoEach .handedBack order
  | .ackAllAsLost order acked => (b.flushAcksLocked acked).1.letGoEach .lost order

/-! ## One session -/

/-- Every relay taken is held or has its one fate, a session holds no more than the cap, and the generation of a relay
acknowledged as counted was checkpointed in that flush. -/
structure Inv (s : SessionBatch Id Hash) : Prop where
  one : (s.relays ++ s.settled.map Prod.fst).Perm s.taken
  cap : s.relays.length ≤ relayBatchCap
  counted : ∀ r g acked st, (r, .counted g acked st) ∈ s.settled → g = some r.gen
  unanswered : ∀ r g, (r, g) ∈ s.unanswered → g = r.gen

/-- No release panics, nor the acknowledgement of a relay that was lost to a panic; and after a checkpoint that panicked
the tree cannot be committed. -/
structure Flush.Clean (f : Flush) : Prop where
  checkpoint : f.checkpoint = .panicked → f.commitTree ≠ .committed
  stale : ∀ i, f.staleReleases i ≠ .panicked
  releases : ∀ i, f.releases i ≠ .panicked
  finishes : ∀ i, f.finishes i ≠ .panicked .panicked

theorem settleEach_of_some (h : ∀ i, fate i ≠ none) (i : Nat) (rs : List (HeldRelay Id Hash)) :
    (settleEach fate i rs).2 = false ∧ (settleEach fate i rs).1.map Prod.fst = rs := by
  induction rs generalizing i with
  | nil => exact ⟨rfl, rfl⟩
  | cons r rs ih =>
    obtain ⟨t, ht⟩ := Option.ne_none_iff_exists'.1 (h i)
    simp [settleEach, ht, ih]

variable {rs : List (HeldRelay Id Hash)}

theorem fate_of_mem_settleEach {i : Nat} {t : Fate}
    (h : (r, t) ∈ (settleEach fate i rs).1) : ∃ j, fate j = some t := by
  induction rs generalizing i with
  | nil => cases h
  | cons a rs ih =>
    simp only [settleEach] at h
    split at h
    · cases h
    next u hu =>
      rcases mem_cons.1 h with heq | h
      · cases heq
        exact ⟨i, hu⟩
      · exact ih h

theorem released_ne_none {a : Answer} (h : a ≠ .panicked) : a.released ≠ none := by
  cases a <;> simp_all [Answer.released]

theorem released_ne_counted (a : Answer) (g : Option Nat) (acked : Bool) (st : CommitStatus) :
    a.released ≠ some (.counted g acked st) := by
  cases a <;> simp [Answer.released]

theorem finish_ne_none {f : Finish} (h : f ≠ .panicked .panicked) (g : Option Nat) : f.fate g ≠ none := by
  rcases f with _ | _ | _ | _ <;> simp_all [Finish.fate]

theorem checkpointed_of_finish {f : Finish} {g' : Option Nat} {acked : Bool} {st : CommitStatus}
    (h : f.fate g = some (.counted g' acked st)) : g' = g := by
  rcases f with _ | _ | _ | _ <;> simp_all [Finish.fate]

theorem takeOtherGenerations_perm (gen : Nat) (rs : List (HeldRelay Id Hash)) :
    ((takeOtherGenerations gen rs).1 ++ (takeOtherGenerations gen rs).2).Perm rs := by
  simpa [takeOtherGenerations, comp_def] using filter_append_perm (fun r => decide (r.gen = gen)) rs

theorem gen_of_kept (h : r ∈ (takeOtherGenerations gen rs).1) : r.gen = gen := by
  have hmem : r ∈ rs ∧ r.gen = gen := by simpa [takeOtherGenerations] using h
  exact hmem.2

section
variable (h : Inv s)
include h

theorem Inv.settled {fates : List (HeldRelay Id Hash × Fate)} (hall : fates.map Prod.fst = s.relays)
    (hgen : ∀ r g acked st, (r, .counted g acked st) ∈ fates → r ∈ s.relays → g = some r.gen) :
    Inv { s with settled := s.settled ++ fates, held := none } := by
  have hone : (s.settled.map Prod.fst ++ s.relays).Perm s.taken := perm_append_comm.trans h.one
  refine ⟨?_, Nat.zero_le _, fun r g acked st hr => ?_, h.unanswered⟩
  · rw [map_append, hall]
    exact hone
  rcases mem_append.1 hr with hr | hr
  · exact h.counted r g acked st hr
  · exact hgen r g acked st hr (hall ▸ mem_map_of_mem hr)

theorem Inv.letGo (hsome : ∀ i, fate i ≠ none)
    (hgen : ∀ i g acked st, fate i = some (.counted g acked st) → ∀ r ∈ s.relays, g = some r.gen) :
    Inv (s.letGo (settleEach fate 0 s.relays)).1 := by
  obtain ⟨hend, hall⟩ := settleEach_of_some hsome 0 s.relays
  simp only [SessionBatch.letGo, hend, Bool.false_eq_true, if_false]
  refine h.settled hall fun r g acked st hr hmem => ?_
  obtain ⟨j, hj⟩ := fate_of_mem_settleEach hr
  exact hgen j g acked st hj r hmem

variable {answer : Nat → Answer}

theorem Inv.release (hok : ∀ i, answer i ≠ .panicked) :
    Inv (s.letGo (releaseRelays answer s.relays)).1 :=
  h.letGo (fun i => released_ne_none (hok i)) fun _ g acked st hi => absurd hi (released_ne_counted _ g acked st)

/-- The relays of other generations are handed back, the rest stays. -/
theorem Inv.handBack (gen : Nat) (hok : ∀ i, answer i ≠ .panicked) :
    Inv { s with
      held := some (takeOtherGenerations gen s.relays).1
      settled := s.settled ++ (releaseRelays answer (takeOtherGenerations gen s.relays).2).1 } := by
  have hparts := takeOtherGenerations_perm gen s.relays
  obtain ⟨-, hall⟩ := settleEach_of_some (fun i => released_ne_none (hok i)) 0 (takeOtherGenerations gen s.relays).2
  refine ⟨?_, ?_, fun r g acked st hr => ?_, h.unanswered⟩
  · rw [map_append, releaseRelays, hall]
    show ((takeOtherGenerations gen s.relays).1 ++ (s.settled.map Prod.fst ++ (takeOtherGenerations gen s.relays).2)).Perm _
    refine (perm_append_comm.append_left _).trans ?_
    rw [← append_assoc]
    exact (hparts.append_right _).trans h.one
  · have hle : (takeOtherGenerations gen s.relays).1.length ≤ s.relays.length := by
      rw [← hparts.length_eq, length_append]
      exact Nat.le_add_right _ _
    exact hle.trans h.cap
  rcases mem_append.1 hr with hr | hr
  · exact h.counted r g acked st hr
  · obtain ⟨j, hj⟩ := fate_of_mem_settleEach hr
    exact absurd hj (released_ne_counted _ g acked st)

theorem Inv.finishOneByOne (hf : f.Clean)
    (hgen : f.commitTree = .committed → ∀ r ∈ s.relays, g = some r.gen) : Inv (finishOneByOne s g f).1 := by
  unfold Fates.finishOneByOne
  split
  · exact h
  · exact h.release hf.releases
  next hc =>
    refine h.letGo (fun i => finish_ne_none (hf.finishes i) g) fun i g' acked st hi r hr => ?_
    rw [checkpointed_of_finish hi]
    exact hgen hc r hr

theorem Inv.ran (hgen : ∀ r ∈ s.relays, r.gen = gen) (ran : Bool) :
    Inv { s with unanswered := s.unanswered ++ if ran then s.relays.map (·, gen) else [] } := by
  refine ⟨h.one, h.cap, h.counted, fun r g hr => ?_⟩
  rcases mem_append.1 hr with hr | hr
  · exact h.unanswered r g hr
  cases ran with
  | false => cases hr
  | true =>
    obtain ⟨a, ha, ⟨rfl, rfl⟩⟩ : ∃ a ∈ s.relays, a = r ∧ gen = g := by simpa using hr
    exact (hgen a ha).symm

theorem Inv.commitSession (hgen : ∀ r ∈ s.relays, r.gen = gen) (hf : f.Clean) :
    Inv (settle f (some gen) (commitSession s gen f.commit)).1 := by
  have hsome : ∀ r ∈ s.relays, some gen = some r.gen := fun r hr => by rw [hgen r hr]
  cases hc : f.commit with
  | answered status =>
    refine h.settled (by simp [comp_def]) fun r g acked st hr hmem => ?_
    obtain ⟨-, rfl, -⟩ : r ∈ s.relays ∧ some gen = g ∧ true = acked ∧ status = st := by simpa using hr
    exact hsome r hmem
  | refused => exact h.finishOneByOne hf fun _ => hsome
  | failed ran => exact h.ran hgen ran
  | panicked ran => exact (h.ran hgen ran).finishOneByOne hf fun _ => hsome

theorem Inv.flushLocked (hf : f.Clean) : Inv (flushLocked s f).1 := by
  unfold Fates.flushLocked flushSession
  cases hc : f.checkpoint with
  | failed => exact h
  | panicked => exact h.finishOneByOne hf fun hcommitted => absurd hcommitted (hf.checkpoint hc)
  | notResident => exact h.release hf.releases
  | resident gen =>
    have hs := h.handBack gen hf.stale
    obtain ⟨hend, -⟩ :=
      settleEach_of_some (fun i => released_ne_none (hf.stale i)) 0 (takeOtherGenerations gen s.relays).2
    simp only [releaseRelays, hend, Bool.false_eq_true, if_false] at hs ⊢
    split
    next hnone => simpa [settle] using hs.settled (show [].map Prod.fst = _ from hnone.2.symm) (by simp)
    · exact hs.commitSession (fun r hr => gen_of_kept hr) hf

theorem Inv.append (hroom : s.relays.length < relayBatchCap) : Inv (s.append r) := by
  refine ⟨?_, ?_, h.counted, h.unanswered⟩
  · show (s.relays ++ [r] ++ s.settled.map Prod.fst).Perm (s.taken ++ [r])
    rw [append_assoc]
    refine (perm_append_comm.append_left _).trans ?_
    rw [← append_assoc]
    exact h.one.append_right _
  · show (s.relays ++ [r]).length ≤ relayBatchCap
    rwa [length_append]
end

theorem relays_letGo {fates : List (HeldRelay Id Hash × Fate) × Bool} (h : (s.letGo fates).2 = .gone) :
    (s.letGo fates).1.relays = [] := by
  unfold SessionBatch.letGo at h ⊢
  split
  next hpanicked =>
    rw [if_pos hpanicked] at h
    cases h
  · rfl

theorem relays_of_gone {p : SessionBatch Id Hash × FlushOutcome} (h : (settle f g p).2 = .gone) :
    (settle f g p).1.relays = [] := by
  obtain ⟨s, outcome⟩ := p
  cases outcome with
  | done => rfl
  | retry => cases h
  | release => exact relays_letGo h
  | perRelay =>
    simp only [settle, finishOneByOne] at h ⊢
    cases hc : f.commitTree <;> simp only [hc] at h ⊢
    · exact relays_letGo h
    · exact relays_letGo h
    · cases h

theorem Inv.add (h : Inv s) (r : HeldRelay Id Hash) (hf : f.Clean) : Inv (s.add r f) := by
  unfold SessionBatch.add
  split
  · have hflushed := h.flushLocked hf
    split
    next hgone =>
      rw [hgone] at hflushed
      refine hflushed.append ?_
      have hnil : (Fates.flushLocked s f).1.relays = [] := relays_of_gone (congrArg Prod.snd hgone)
      rw [hgone] at hnil
      simp [hnil, relayBatchCap]
    next hkept =>
      rw [hkept] at hflushed
      exact hflushed
  next hroom => exact h.append (Nat.lt_of_not_le hroom)

/-! ## Runs -/

def Call.Clean (_ : RelayBatch S Id Hash) : Call S Id Hash → Prop
  | .add _ _ f => f.Clean
  | .flushAll order _ | .flushSessions order => ∀ p ∈ order, p.2.Clean
  | _ => True

theorem forall_session {sessions : S → SessionBatch Id Hash} (h : ∀ id, Inv (sessions id)) (id : S) (hs : Inv s)
    (j : S) : Inv (update sessions id s j) := by
  by_cases hj : j = id
  · subst hj
    simpa using hs
  · simpa [update_of_ne hj] using h j

variable {b : RelayBatch S Id Hash}

theorem inv_flushEach (h : ∀ id, Inv (b.sessions id)) {order : List (S × Flush)}
    (hclean : ∀ p ∈ order, p.2.Clean) (id : S) : Inv ((b.flushEach order).1.sessions id) := by
  induction order generalizing b with
  | nil => exact h id
  | cons p rest ih =>
    have hrest : ∀ p ∈ rest, p.2.Clean := fun q hq => hclean q (mem_cons_of_mem p hq)
    simp only [RelayBatch.flushEach]
    split
    · exact ih h hrest
    have hs := forall_session h p.1 ((h p.1).flushLocked (hclean p mem_cons_self))
    split
    · exact hs id
    · exact ih hs hrest

theorem inv_letGoEach (h : ∀ id, Inv (b.sessions id)) {fate : Bool → Fate}
    (hfate : ∀ ok g acked st, fate ok ≠ .counted g acked st) (order : List (S × (Nat → Bool))) (id : S) :
    Inv ((b.letGoEach fate order).sessions id) := by
  induction order generalizing b with
  | nil => exact h id
  | cons p rest ih =>
    refine ih (forall_session h p.1 ((h p.1).letGo (fun i => by simp) fun i g acked st hi => ?_))
    exact absurd (Option.some.inj hi) (hfate _ g acked st)

omit [DecidableEq S] in
theorem sessions_flushAcksLocked (b : RelayBatch S Id Hash) (acked : Bool) :
    (b.flushAcksLocked acked).1.sessions = b.sessions := by
  unfold RelayBatch.flushAcksLocked
  split_ifs <;> rfl

omit [DecidableEq S] in
theorem sessions_addAck (b : RelayBatch S Id Hash) (id : Id) (acked : Bool) :
    (b.addAck id acked).sessions = b.sessions := by
  have hflush := sessions_flushAcksLocked b acked
  unfold RelayBatch.addAck
  split
  · split <;> rename_i heq <;> simpa [heq] using hflush
  · rfl

theorem inv_step (b : RelayBatch S Id Hash) (c : Call S Id Hash) (h : ∀ id, Inv (b.sessions id)) (hc : c.Clean b) (id : S) :
    Inv ((step b c).sessions id) := by
  cases c with
  | add j r f => exact forall_session h j ((h j).add r hc) id
  | addAck entry acked =>
    show Inv ((b.addAck entry acked).sessions id)
    rw [sessions_addAck]
    exact h id
  | flushAll order acked =>
    have hflushed := inv_flushEach h hc id
    simp only [step]
    split
    next heq => rwa [heq] at hflushed
    next heq =>
      rw [sessions_flushAcksLocked]
      rwa [heq] at hflushed
  | flushSessions ids => exact inv_flushEach h hc id
  | releaseAll order acked | ackAllAsLost order acked =>
    refine inv_letGoEach (fun j => ?_) (fun _ _ _ => by simp) order id
    rw [sessions_flushAcksLocked]
    exact h j

def relay (n gen : Nat) : HeldRelay Nat Nat := ⟨⟨n, n, 1⟩, gen⟩

def session (calls : List (Call Nat Nat Nat)) : SessionBatch Nat Nat := (run step {} calls).sessions 7

end RelayMiner.Relay.Fates
