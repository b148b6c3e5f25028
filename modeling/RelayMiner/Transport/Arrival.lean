import RelayMiner.Transport.Fates
/-!
# The relays of the publisher

A relay `Publish` accepted is in the live queue, in a write, written (its XADD was
answered without an error), given up with a reason, or abandoned at `Close`: in
one of these at any moment. The
live queue stays in arrival order through the requeues because of two facts: a
chunk in flight is older than all that is live, and of two chunks in flight the
one taken first is older, so they go back from the last taken to the first.
-/
open RelayMiner.Lib

namespace RelayMiner.Transport

open List

variable {K S : Type} {chunk : List (Queued S)}

/-! ## Where a relay is -/

def Phase.failed : Phase K S → List (Job K S)
  | .loop _ failed _ _ => failed
  | .finishing _ failed _ job _ => failed ++ [job]
  | .requeueing _ failed => failed
  | _ => []

/-- The relays of a job in flight that are recorded neither as written nor as given up. -/
def Job.relays (j : Job K S) : List (Queued S) :=
  match j.stage with
  | .waiting _ => j.chunk
  | .settling _ out => out.sent ++ (out.retry ++ out.discard)
  | .reported _ out => out.retry ++ out.discard

def World.inFlight (w : World K S) : List (Queued S) :=
  w.jobs.flatMap (·.relays) ++ w.phase.failed.flatMap (·.stage.out.retry)

structure Taking.Within (t : Taking K S) : Prop where
  front : t.chunk <+: t.live
  ne_nil : t.chunk ≠ []
  commands : t.chunk.length + 2 * t.charges.length ≤ maxChunkCommands
  bytes : bytes0 t.chunk ≤ maxChunkBytes ∨ t.chunk.length = 1

/-! ## What a write leaves -/

structure Outcome.Of (out : Outcome S) (chunk : List (Queued S)) : Prop where
  perm : ((out.sent ++ (out.retry ++ out.discard)).map (·.seq)).Perm (chunk.map (·.seq))
  retry : (out.retry.map (·.seq)).Sublist (chunk.map (·.seq))
  clean : out.err = none → out.retry = []
  reason : ∀ q ∈ out.discard, q.discardReason.isSome

theorem outcomeOf_spec (cmds : List (Queued S × Reply)) : (outcomeOf cmds).Of (cmds.map (·.1)) := by
  induction cmds with
  | nil => exact ⟨List.Perm.refl _, List.Sublist.refl _, fun _ => rfl, by simp [outcomeOf]⟩
  | cons p cmds ih =>
    obtain ⟨q, r⟩ := p
    simp only [outcomeOf, map_cons]
    split
    · exact ⟨ih.perm.cons _, ih.retry.cons _, ih.clean, ih.reason⟩
    split
    · refine ⟨?_, ih.retry.cons _, nofun, forall_mem_cons.2 ⟨rfl, ih.reason⟩⟩
      refine List.Perm.trans ?_ (ih.perm.cons q.seq)
      simp only [map_append, map_cons]
      rw [← append_assoc, ← append_assoc]
      exact perm_middle
    refine ⟨?_, ih.retry.cons_cons _, nofun, ih.reason⟩
    refine List.Perm.trans ?_ (ih.perm.cons q.seq)
    simp only [map_append, map_cons, cons_append]
    exact perm_middle

theorem writeChunk_outcome (chunk : List (Queued S)) (charges : List (Charge K S)) (xadds incrs : List Reply) :
    (writeChunk chunk charges xadds incrs).2.Of chunk := by
  unfold writeChunk
  dsimp only
  split
  · exact ⟨by simp, List.Sublist.refl _, nofun, by simp⟩
  have h := outcomeOf_spec (withReplies chunk xadds)
  rw [map_fst_withReplies] at h
  refine { h with clean := fun he => ?_ }
  split at he
  · cases he
  · exact h.clean he

def Job.Sound (j : Job K S) : Prop :=
  match j.stage with
  | .waiting _ => True
  | .settling _ out => out.Of j.chunk
  | .reported _ out => (out.retry.map (·.seq)).Sublist (j.chunk.map (·.seq)) ∧ (out.err = none → out.retry = []) ∧
      ∀ q ∈ out.discard, q.discardReason.isSome

theorem Job.Sound.retry {j : Job K S} (h : j.Sound) : (j.stage.out.retry.map (·.seq)).Sublist (j.chunk.map (·.seq)) := by
  unfold Job.Sound at h
  cases hs : j.stage with
  | waiting charges => simp [Stage.out]
  | settling todo out =>
    rw [hs] at h
    exact h.retry
  | reported charges out =>
    rw [hs] at h
    exact h.1

/-! ## The order of what is live and what is in flight -/

structure Fleet (live : List (Queued S)) (enqueued : Nat) (all : List (Job K S)) : Prop where
  live_lt : live.Pairwise (·.seq < ·.seq)
  live_le : ∀ q ∈ live, q.seq ≤ enqueued
  sound : ∀ j ∈ all, j.Sound
  chunk_lt : ∀ j ∈ all, j.chunk.Pairwise (·.seq < ·.seq)
  chunk_le : ∀ j ∈ all, ∀ x ∈ j.chunk, x.seq ≤ enqueued
  older : ∀ j ∈ all, ∀ x ∈ j.chunk, ∀ q ∈ live, x.seq < q.seq
  inTurn : ∀ a ∈ all, ∀ b ∈ all, a.order < b.order → ∀ x ∈ a.chunk, ∀ y ∈ b.chunk, x.seq < y.seq
  distinct : (all.map (·.order)).Nodup

variable {live : List (Queued S)} {enqueued : Nat} {all all' : List (Job K S)}

/-- All but the stages' own facts are about the chunks and the orders of the jobs. -/
theorem Fleet.of_jobs (h : Fleet live enqueued all) (hsound : ∀ j ∈ all', j.Sound) (hd : (all'.map (·.order)).Nodup)
    (hold : ∀ j ∈ all', ∃ j' ∈ all, j'.chunk = j.chunk ∧ j'.order = j.order) : Fleet live enqueued all' := by
  refine ⟨h.live_lt, h.live_le, hsound, fun j hj => ?_, fun j hj => ?_, fun j hj => ?_, fun a ha b hb hlt => ?_, hd⟩
  · obtain ⟨j', hj', hc, -⟩ := hold j hj
    exact hc ▸ h.chunk_lt j' hj'
  · obtain ⟨j', hj', hc, -⟩ := hold j hj
    exact hc ▸ h.chunk_le j' hj'
  · obtain ⟨j', hj', hc, -⟩ := hold j hj
    exact hc ▸ h.older j' hj'
  · obtain ⟨a', ha', hca, hoa⟩ := hold a ha
    obtain ⟨b', hb', hcb, hob⟩ := hold b hb
    have hturn := h.inTurn a' ha' b' hb' (by rw [hoa, hob]; exact hlt)
    rwa [hca, hcb] at hturn

theorem Fleet.sublist (h : Fleet live enqueued all) (hs : all'.Sublist all) : Fleet live enqueued all' :=
  h.of_jobs (fun j hj => h.sound j (hs.subset hj)) (h.distinct.sublist (hs.map _))
    fun j hj => ⟨j, hs.subset hj, rfl, rfl⟩

theorem Fleet.perm (h : Fleet live enqueued all) (hp : all.Perm all') : Fleet live enqueued all' :=
  h.of_jobs (fun j hj => h.sound j (hp.mem_iff.2 hj)) ((hp.map _).nodup_iff.1 h.distinct)
    fun j hj => ⟨j, hp.mem_iff.2 hj, rfl, rfl⟩

theorem forall_mem_replace {P : Job K S → Prop} {pre post : List (Job K S)} {a b : Job K S}
    (h : ∀ j ∈ pre ++ a :: post, P j) (hb : P b) : ∀ j ∈ pre ++ b :: post, P j := by
  obtain ⟨hpre, hrest⟩ := forall_mem_append.1 h
  exact forall_mem_append.2 ⟨hpre, forall_mem_cons.2 ⟨hb, (forall_mem_cons.1 hrest).2⟩⟩

theorem Fleet.replace {pre post : List (Job K S)} {order : Nat} {stage : Stage K S}
    (h : Fleet live enqueued (pre ++ ⟨chunk, order, stage⟩ :: post)) (stage' : Stage K S)
    (hsound : Job.Sound ⟨chunk, order, stage'⟩) : Fleet live enqueued (pre ++ ⟨chunk, order, stage'⟩ :: post) := by
  refine h.of_jobs (forall_mem_replace h.sound hsound) ?_
    (forall_mem_replace (fun j hj => ⟨j, hj, rfl, rfl⟩) ⟨⟨chunk, order, stage⟩, by simp, rfl, rfl⟩)
  have hmap : (pre ++ (⟨chunk, order, stage'⟩ : Job K S) :: post).map (·.order) =
      (pre ++ (⟨chunk, order, stage⟩ : Job K S) :: post).map (·.order) := by simp
  rw [hmap]
  exact h.distinct

theorem Fleet.enqueue (h : Fleet live enqueued all) {e : Queued S} (he : e.seq = enqueued + 1) :
    Fleet (live ++ [e]) (enqueued + 1) all := by
  refine ⟨?_,
    forall_mem_append.2 ⟨fun q hq => (h.live_le q hq).trans (Nat.le_succ _), forall_mem_singleton.2 he.le⟩,
    h.sound, h.chunk_lt,
    fun j hj x hx => (h.chunk_le j hj x hx).trans (Nat.le_succ _),
    fun j hj x hx => forall_mem_append.2 ⟨h.older j hj x hx, forall_mem_singleton.2 ?_⟩, h.inTurn, h.distinct⟩
  · refine pairwise_append.2 ⟨h.live_lt, pairwise_singleton _ _, fun a ha b hb => ?_⟩
    rw [mem_singleton.1 hb, he]
    exact Nat.lt_succ_of_le (h.live_le a ha)
  · rw [he]
    exact Nat.lt_succ_of_le (h.chunk_le j hj x hx)

/-- A chunk leaves the front of the queue: it is younger than every chunk in flight and older than what stays. -/
theorem Fleet.take (h : Fleet (chunk ++ live) enqueued all) {job : Job K S} (hchunk : job.chunk = chunk)
    (hsound : job.Sound) (hlast : ∀ j ∈ all, j.order < job.order) : Fleet live enqueued (all ++ [job]) := by
  obtain ⟨hc, hl, hcross⟩ := pairwise_append.1 h.live_lt
  have hin : ∀ j ∈ all ++ [job], j ∈ all ∨ j = job := fun j hj =>
    (mem_append.1 hj).imp_right mem_singleton.1
  subst hchunk
  refine ⟨hl, fun q hq => h.live_le q (mem_append_right _ hq),
    forall_mem_append.2 ⟨h.sound, forall_mem_singleton.2 hsound⟩,
    forall_mem_append.2 ⟨h.chunk_lt, forall_mem_singleton.2 hc⟩,
    forall_mem_append.2 ⟨h.chunk_le, forall_mem_singleton.2 fun x hx => h.live_le x (mem_append_left _ hx)⟩,
    forall_mem_append.2
      ⟨fun j hj x hx q hq => h.older j hj x hx q (mem_append_right _ hq), forall_mem_singleton.2 hcross⟩,
    fun a ha b hb hlt x hx y hy => ?_, ?_⟩
  · rcases hin a ha with hold | rfl
    · rcases hin b hb with hold' | rfl
      · exact h.inTurn a hold b hold' hlt x hx y hy
      · exact h.older a hold x hx y (mem_append_left _ hy)
    rcases hin b hb with hold' | rfl
    · exact absurd (hlast b hold') (by omega)
    · exact absurd hlt (Nat.lt_irrefl _)
  rw [map_append]
  refine h.distinct.append (nodup_singleton _) ?_
  intro o ho ho'
  obtain ⟨j, hj, rfl⟩ := mem_map.1 ho
  have heq : j.order = job.order := by simpa using ho'
  exact absurd (hlast j hj) (by omega)

/-- The job taken last goes back first: what it returns is older than all that is live and younger than what is still
to go back. -/
theorem Fleet.requeue {job : Job K S} (h : Fleet live enqueued (job :: all)) (hlast : ∀ j ∈ all, j.order < job.order) :
    Fleet (job.stage.out.retry ++ live) enqueued all := by
  have hself := mem_cons_self (a := job) (l := all)
  have hretry := (h.sound job hself).retry
  have hmem : ∀ y ∈ job.stage.out.retry, ∃ x ∈ job.chunk, x.seq = y.seq := by
    intro y hy
    exact mem_map.1 (hretry.subset (mem_map_of_mem hy))
  have hrest := h.sublist (sublist_cons_self job all)
  refine { hrest with
    live_lt := ?_
    live_le := forall_mem_append.2 ⟨fun q hq => ?_, h.live_le⟩
    older := fun j hj x hx => forall_mem_append.2 ⟨fun q hq => ?_, hrest.older j hj x hx⟩ }
  · refine pairwise_append.2 ⟨?_, h.live_lt, fun y hy q hq => ?_⟩
    · have hlt : (job.chunk.map (·.seq)).Pairwise (· < ·) := pairwise_map.2 (h.chunk_lt job hself)
      exact pairwise_map.1 (hlt.sublist hretry)
    · obtain ⟨x, hx, hxy⟩ := hmem y hy
      exact hxy ▸ h.older job hself x hx q hq
  · obtain ⟨x, hx, hxy⟩ := hmem q hq
    exact hxy ▸ h.chunk_le job hself x hx
  · obtain ⟨y, hy, hyq⟩ := hmem q hq
    exact hyq ▸ h.inTurn j (mem_cons_of_mem _ hj) job hself (hlast j hj) x hx y hy

/-! ## The steps -/

def Phase.taken : Phase K S → Option Nat
  | .loop _ _ taken _ | .finishing _ _ taken _ _ => some taken
  | _ => none

structure Arrived (w : World K S) : Prop where
  placed : (List.range' 1 w.enqueued).Perm
    ((w.queue.live ++ (w.inFlight ++ (w.written ++ (w.discarded ++ w.abandoned)))).map (·.seq))
  fleet : Fleet w.queue.live w.enqueued (w.phase.failed ++ w.jobs)
  next : ∀ n, w.phase.taken = some n → ∀ j ∈ w.phase.failed ++ w.jobs, j.order < n
  sorted : ∀ d failed, w.phase = .requeueing d failed → failed.Pairwise fun a b => b.order < a.order
  bytes : w.bytes = bytes0 w.queue.live
  takings : ∀ t ∈ w.takings, t.Within
  reasons : ∀ q ∈ w.discarded, q.discardReason.isSome

variable {w : World K S}

theorem Arrived.frame (h : Arrived w) (phase : Phase K S) (hfailed : phase.failed = w.phase.failed)
    (hnext : ∀ n, phase.taken = some n → ∀ j ∈ w.phase.failed ++ w.jobs, j.order < n)
    (hsorted : ∀ d failed, phase = .requeueing d failed → failed.Pairwise fun a b => b.order < a.order) :
    Arrived { w with phase } where
  placed := by
    have hin : World.inFlight { w with phase } = w.inFlight := by simp [World.inFlight, hfailed]
    rw [hin]
    exact h.placed
  fleet := by
    rw [hfailed]
    exact h.fleet
  next n hn := by
    rw [hfailed]
    exact hnext n hn
  sorted := hsorted
  bytes := h.bytes
  takings := h.takings
  reasons := h.reasons

theorem arrived_publish [DecidableEq K] [DecidableEq S] [Inhabited S] (h : Arrived w) (workers : Nat)
    (stream supplier : S) (bytes : Nat) : Arrived (step workers w (.publish stream supplier bytes)) := by
  simp only [step]
  split
  · exact h
  refine ⟨?_, ?_, h.next, h.sorted, ?_, h.takings, h.reasons⟩
  · have hrange : List.range' 1 (w.enqueued + 1) = List.range' 1 w.enqueued ++ [w.enqueued + 1] := by
      rw [List.range'_concat]
      simp [Nat.add_comm]
    have hp := h.placed.append_right [w.enqueued + 1]
    rw [hrange]
    refine hp.trans (perm_iff_count.2 fun n => ?_)
    simp only [World.inFlight, Slice.live_enqueue, map_append, count_append, map_cons, map_nil]
    omega
  · rw [Slice.live_enqueue]
    exact h.fleet.enqueue rfl
  rw [Slice.live_enqueue, bytes0_append, h.bytes]
  simp [bytes0]

section NextJob

variable [DecidableEq K] [DecidableEq S] [Inhabited S]

omit [Inhabited S] in
theorem retake_same (w : World K S) (d : Drain K S) (late : Bool) (order : List (Charge K S)) :
    ∃ ledger taken, (retake w d late order).2 = { w with ledger, taken } := by
  unfold retake
  split
  · exact ⟨_, _, rfl⟩
  · exact ⟨_, _, rfl⟩

/-- The next job takes a chunk from the front of the queue, or none; the rest of the relays stay where they are. -/
theorem nextJob_spec {d : Drain K S} {late : Bool} {order : List (Charge K S)} {j : NextJob K S}
    (h : nextJob w d late order = some j) :
    w.queue.live = j.chunk ++ j.world.queue.live ∧
      (∃ queue ledger taken takings,
        j.world = { w with queue, bytes := w.bytes - bytes0 j.chunk, ledger, taken, takings }) ∧
      ∀ t ∈ j.world.takings, t ∈ w.takings ∨ t.Within := by
  unfold nextJob at h
  dsimp only at h
  split at h
  · cases h
    refine ⟨rfl, ⟨w.queue, w.ledger, w.taken, w.takings, ?_⟩, fun t ht => .inl ht⟩
    simp [bytes0]
  split at h
  · cases h
  rename_i chunk queue htake
  obtain ⟨hlive, hne, hlen, hbytes⟩ := Slice.takeChunkBefore_spec htake
  obtain ⟨ledger, taken, hr⟩ := retake_same { w with queue, bytes := w.bytes - bytes0 chunk } d late order
  cases h
  rw [hr]
  refine ⟨hlive, ⟨queue, ledger, taken, _, rfl⟩, fun t ht => ?_⟩
  rcases mem_append.1 ht with ht | ht
  · exact .inl ht
  rw [mem_singleton.1 ht]
  refine .inr ⟨?_, hne, ?_, hbytes⟩
  · rw [hlive]
    exact prefix_append _ _
  have hatt := ChargesBySupplier.length_attachFrom_le (maxChunkCommands - chunk.length) chunk
    (retake { w with queue, bytes := w.bytes - bytes0 chunk } d late order).1.charges.bySupplier
  simp only [ChargesBySupplier.attach]
  omega

end NextJob

theorem sound_startWrite (chunk : List (Queued S)) (charges : List (Charge K S)) (order : Nat) (runs : Bool) :
    (startWrite chunk charges order runs).Sound := by
  unfold startWrite
  split
  · trivial
  · exact ⟨List.Sublist.refl _, nofun, by simp⟩

theorem relays_startWrite (chunk : List (Queued S)) (charges : List (Charge K S)) (order : Nat) (runs : Bool) :
    (startWrite chunk charges order runs).relays = chunk := by
  unfold startWrite
  split
  · rfl
  · simp [Job.relays]

section
variable (h : Arrived w)
include h

theorem arrived_next [DecidableEq K] [DecidableEq S] [Inhabited S] (workers : Nat)
    (cancelled late runs : Bool) (order : List (Charge K S)) : Arrived (next workers w cancelled late runs order) := by
  unfold next
  split
  swap
  · exact h
  rename_i d failed taken hp
  have hstay : Arrived { w with phase := .loop d failed taken false } :=
    h.frame _ (by rw [hp]; rfl) (fun n hn => h.next n (by rw [hp]; exact hn)) nofun
  split
  swap
  · exact hstay
  rename_i hgo
  split
  · exact hstay
  rename_i j hj
  obtain ⟨hlive, ⟨queue, ledger, taken', takings, hworld⟩, htakings⟩ := nextJob_spec hj
  have hfleet := h.fleet
  have hnext := h.next taken (by rw [hp]; rfl)
  have hplaced := h.placed
  have hbytes := h.bytes
  rw [hp] at hfleet hnext
  rw [hlive] at hfleet hplaced hbytes
  simp only [Phase.failed, hgo.1, nil_append] at hfleet hnext
  have hchunk : (startWrite j.chunk j.charges taken runs).chunk = j.chunk := by
    unfold startWrite
    split <;> rfl
  have horder : (startWrite j.chunk j.charges taken runs).order = taken := by
    unfold startWrite
    split <;> rfl
  have hnew := hfleet.take hchunk (sound_startWrite _ _ _ _) (fun x hx => horder.symm ▸ hnext x hx)
  rw [hworld] at hnew hplaced hbytes htakings ⊢
  refine ⟨?_, ?_, fun n hn x hx => ?_, nofun, ?_, fun t ht => ?_, h.reasons⟩
  · refine hplaced.trans (perm_iff_count.2 fun n => ?_)
    simp only [World.inFlight, hp, Phase.failed, hgo.1, flatMap_nil, append_nil, flatMap_append,
      flatMap_singleton, relays_startWrite, map_append, count_append]
    omega
  · simpa [Phase.failed, hgo.1] using hnew
  · simp only [Phase.taken, Option.some.injEq] at hn
    simp only [Phase.failed, hgo.1, nil_append] at hx
    rcases mem_append.1 hx with hx | hx
    · exact hn ▸ (hnext x hx).trans (Nat.lt_succ_self _)
    · rw [mem_singleton.1 hx, horder, ← hn]
      exact Nat.lt_succ_self _
  · simp only [bytes0_append] at hbytes
    simp only [hbytes]
    omega
  · exact (htakings t ht).elim (h.takings t) id

/-- A write moves on: of its relays, those in `sent` were answered without an error. -/
theorem Arrived.progress {i : Nat} {order : Nat} {stage : Stage K S} (sent : List (Queued S))
    (stage' : Stage K S) (hi : w.jobs[i]? = some ⟨chunk, order, stage⟩) (hsound : Job.Sound ⟨chunk, order, stage'⟩)
    (hrelays : ((Job.relays ⟨chunk, order, stage⟩).map (·.seq)).Perm
      ((sent ++ Job.relays ⟨chunk, order, stage'⟩).map (·.seq))) :
    Arrived { w with jobs := w.jobs.set i ⟨chunk, order, stage'⟩, written := w.written ++ sent } := by
  obtain ⟨pre, post, hjobs, hset, -⟩ := slot_split hi
  rw [hset]
  have hfleet := h.fleet
  have hnext := h.next
  rw [hjobs] at hfleet hnext
  rw [← append_assoc] at hfleet
  refine { h with placed := ?_, fleet := ?_, next := fun n hn => ?_ }
  · refine h.placed.trans (perm_iff_count.2 fun n => ?_)
    have hcount := hrelays.count_eq n
    simp only [World.inFlight, hjobs, flatMap_append, flatMap_cons, map_append,
      count_append] at hcount ⊢
    omega
  · rw [← append_assoc]
    exact hfleet.replace stage' hsound
  · rw [← append_assoc] at hnext ⊢
    exact forall_mem_replace (hnext n hn) (hnext n hn ⟨chunk, order, stage⟩ (by simp))

theorem arrived_exec (i : Nat) (xadds incrs : List Reply) : Arrived (exec w i xadds incrs) := by
  unfold exec
  split
  swap
  · exact h
  rename_i chunk order charges hi
  have hout := writeChunk_outcome chunk charges xadds incrs
  have hnew := h.progress [] (.settling (writeChunk chunk charges xadds incrs).1
    (writeChunk chunk charges xadds incrs).2) hi hout hout.perm.symm
  rw [append_nil] at hnew
  exact hnew

theorem arrived_settle [DecidableEq K] (i : Nat) : Arrived (settle w i) := by
  unfold settle
  split
  next chunk order p todo out hi =>
    have hsound : out.Of chunk := h.fleet.sound _ (mem_append_right _ (mem_of_getElem? hi))
    have hnew := h.progress [] (.settling todo out) hi hsound (List.Perm.refl _)
    rw [append_nil] at hnew
    exact { hnew with }
  next chunk order out hi =>
    have hsound : out.Of chunk := h.fleet.sound _ (mem_append_right _ (mem_of_getElem? hi))
    exact h.progress out.sent (.reported [] out) hi ⟨hsound.retry, hsound.clean, hsound.reason⟩ (List.Perm.refl _)
  · exact h

theorem arrived_receive (i : Nat) : Arrived (receive w i) := by
  unfold receive
  split
  swap
  · exact h
  rename_i d failed taken chunk order charges out hp hi
  obtain ⟨pre, post, hjobs, -, herase⟩ := slot_split hi
  have hsound : Job.Sound (⟨chunk, order, .reported charges out⟩ : Job K S) :=
    h.fleet.sound _ (mem_append_right _ (mem_of_getElem? hi))
  have hfleet := h.fleet
  have hnext := h.next taken (by rw [hp]; rfl)
  rw [hp, hjobs] at hfleet hnext
  rw [herase]
  -- The job leaves the middle of the writes for the end of what came back.
  have hmove : (failed ++ (pre ++ ⟨chunk, order, .reported [] out⟩ :: post)).Perm
      ((failed ++ [⟨chunk, order, .reported [] out⟩]) ++ (pre ++ post) : List (Job K S)) := by
    rw [append_assoc]
    exact (perm_middle.trans (List.Perm.refl _)).append_left failed
  refine ⟨?_, ?_, fun n hn j hj => ?_, nofun, h.bytes, h.takings, forall_mem_append.2 ⟨h.reasons, hsound.2.2⟩⟩
  · refine h.placed.trans (perm_iff_count.2 fun n => ?_)
    simp only [World.inFlight, hp, hjobs, Phase.failed, Job.relays, Stage.out, flatMap_append, flatMap_cons,
      flatMap_nil, append_nil, map_append, count_append]
    omega
  · rw [← append_assoc] at hfleet
    have hrep := hfleet.replace (.reported [] out) hsound
    rw [append_assoc] at hrep
    exact hrep.perm hmove
  · simp only [Phase.taken, Option.some.injEq] at hn
    subst hn
    have hj' := hmove.mem_iff.2 hj
    rw [← append_assoc] at hnext hj'
    have hself : order < taken := hnext ⟨chunk, order, .reported charges out⟩ (by simp)
    exact forall_mem_replace hnext (b := ⟨chunk, order, .reported [] out⟩) hself j hj'

theorem arrived_finish [DecidableEq K] : Arrived (finish w) := by
  unfold finish
  split
  next d failed taken job c left hp =>
    have hnew := h.frame (.finishing d failed taken job left) (by rw [hp]; rfl)
      (fun n hn => h.next n (by rw [hp]; exact hn)) nofun
    exact { hnew with }
  next d failed taken job hp =>
    cases herr : job.stage.out.err with
    | some e =>
      exact h.frame _ (by rw [hp]; simp [Phase.failed]) (fun n hn => h.next n (by rw [hp]; exact hn))
        nofun
    | none =>
      -- A write without error leaves nothing to put back.
      have hfleet := h.fleet
      have hnext := h.next taken (by rw [hp]; rfl)
      rw [hp] at hfleet hnext
      simp only [Phase.failed] at hfleet hnext
      have hsub : (failed ++ w.jobs).Sublist (failed ++ [job] ++ w.jobs) :=
        (sublist_append_left _ _).append_right _
      have hclean : job.stage.out.retry = [] := by
        have hs := hfleet.sound job (by simp)
        unfold Job.Sound at hs
        cases hstage : job.stage with
        | waiting charges => rfl
        | settling todo out =>
          rw [hstage] at hs herr
          exact hs.clean herr
        | reported charges out =>
          rw [hstage] at hs herr
          exact hs.2.1 herr
      refine ⟨?_, ?_, fun n hn j hj => ?_, nofun, h.bytes, h.takings, h.reasons⟩
      · refine h.placed.trans (perm_iff_count.2 fun n => ?_)
        simp [World.inFlight, hp, Phase.failed, hclean]
      · exact hfleet.sublist hsub
      · simp only [Phase.taken, Option.some.injEq] at hn
        exact hn ▸ hnext j (hsub.subset hj)
  · exact h

theorem arrived_leave [DecidableEq K] [DecidableEq S] (cancelled : Bool) :
    Arrived (leave w cancelled) := by
  unfold leave
  split
  swap
  · exact h
  rename_i d failed taken hp
  split
  swap
  · exact h
  split
  next hfailed =>
    split
    · exact h.frame _ (by rw [hp, hfailed]; rfl) nofun nofun
    · exact h.frame _ (by rw [hp, hfailed]; rfl) nofun nofun
  have hsort := perm_insertionSort (fun a b : Job K S => b.order ≤ a.order) failed
  have hfleet := h.fleet
  rw [hp] at hfleet
  refine ⟨?_, hfleet.perm (hsort.symm.append_right _), nofun, fun d' failed' hr => ?_, h.bytes,
    h.takings, h.reasons⟩
  · have hretry := ((hsort.flatMap_right fun j => j.stage.out.retry).map (·.seq))
    refine h.placed.trans (perm_iff_count.2 fun n => ?_)
    have hcount := hretry.count_eq n
    simp only [World.inFlight, hp, Phase.failed, map_append, count_append] at hcount ⊢
    omega
  cases hr
  -- No two jobs have the same place, so the order is strict.
  have hdesc := pairwise_insertionSort (fun a b : Job K S => b.order ≤ a.order) failed
  have hne : (failed.insertionSort fun a b => b.order ≤ a.order).Pairwise fun a b => a.order ≠ b.order := by
    have hdist := (hfleet.sublist (sublist_append_left _ _)).distinct
    exact pairwise_map.1 ((hsort.map _).nodup_iff.2 hdist)
  exact (hdesc.and hne).imp fun hab => lt_of_le_of_ne hab.1 (Ne.symm hab.2)

theorem arrived_requeue (halone : ∀ d failed, w.phase = .requeueing d failed → w.jobs = []) :
    Arrived (requeue w) := by
  unfold requeue
  split
  next d job failed hp =>
    have hjobs := halone d _ hp
    have hfleet := h.fleet
    rw [hp, hjobs, append_nil] at hfleet
    have hlast := (pairwise_cons.1 (h.sorted d _ hp))
    refine ⟨?_, ?_, nofun, fun d' failed' hr => ?_, ?_, h.takings, h.reasons⟩
    · refine h.placed.trans (perm_iff_count.2 fun n => ?_)
      simp only [World.inFlight, hp, hjobs, Phase.failed, Slice.live_requeueFront, flatMap_nil, flatMap_cons,
        map_append, count_append, map_nil, count_nil]
      omega
    · rw [hjobs, Slice.live_requeueFront, append_nil]
      exact hfleet.requeue hlast.1
    · cases hr
      exact hlast.2
    dsimp only
    rw [Slice.live_requeueFront, bytes0_append, h.bytes]
    omega
  next d hp => exact h.frame _ (by rw [hp]; rfl) nofun nofun
  · exact h

theorem arrived_charge [DecidableEq K] [DecidableEq S] (incrs : List Reply) :
    Arrived (charge w incrs) := by
  unfold charge
  split
  next d hp =>
    dsimp only
    split
    · exact h.frame _ (by rw [hp]; rfl) nofun nofun
    · exact h.frame _ (by rw [hp]; rfl) nofun nofun
  next d p todo err hp =>
    have hnew := h.frame (.charging d todo err) (by rw [hp]; rfl) nofun nofun
    exact { hnew with }
  next d hp => exact h.frame _ (by rw [hp]; rfl) nofun nofun
  · exact h

theorem arrived_giveBack [DecidableEq K] : Arrived (giveBack w) := by
  unfold giveBack
  split
  next c left hp =>
    have hnew := h.frame (.returning left) (by rw [hp]; rfl) nofun nofun
    exact { hnew with }
  next hp => exact h.frame _ (by rw [hp]; rfl) nofun nofun
  · exact h

theorem arrived_abandon : Arrived (abandon w) := by
  unfold abandon
  split
  swap
  · exact h
  rename_i hp
  split
  swap
  · exact h
  have hfleet := h.fleet
  rw [hp] at hfleet
  refine ⟨?_, ?_, by rintro _ ⟨⟩, by rintro _ _ ⟨⟩, rfl, h.takings, h.reasons⟩
  · refine h.placed.trans (perm_iff_count.2 fun n => ?_)
    simp only [World.inFlight, hp, Phase.failed, Slice.live, drop_nil, map_append, count_append,
      map_nil, count_nil, flatMap_nil]
    omega
  · exact { hfleet with live_lt := List.Pairwise.nil, live_le := by simp [Slice.live], older := by simp [Slice.live] }
end

section Runs

theorem landed_of_outcome {cmds : List (Queued S × Reply)} {q : Queued S} (h : q ∈ (outcomeOf cmds).sent) :
    ∃ r, (q, r) ∈ cmds ∧ landed r := by
  induction cmds with
  | nil => cases h
  | cons p cmds ih =>
    have hrest : q ∈ (outcomeOf cmds).sent → ∃ r, (q, r) ∈ p :: cmds ∧ landed r := fun hq =>
      (ih hq).imp fun r hr => ⟨mem_cons_of_mem _ hr.1, hr.2⟩
    simp only [outcomeOf] at h
    split at h
    next hr =>
      rcases mem_cons.1 h with rfl | h
      · exact ⟨p.2, mem_cons_self, hr⟩
      · exact hrest h
    · split at h <;> exact hrest h

theorem landed_of_sent {charges : List (Charge K S)} {xadds incrs : List Reply} {q : Queued S}
    (h : q ∈ (writeChunk chunk charges xadds incrs).2.sent) : ∃ r, (q, r) ∈ withReplies chunk xadds ∧ landed r := by
  unfold writeChunk at h
  dsimp only at h
  split at h
  · cases h
  · exact landed_of_outcome h

variable [DecidableEq K] [DecidableEq S] [Inhabited S]

theorem arrived_dispatch (h : Arrived w) (hb : Booked False w) (workers : Nat) (order : List (Charge K S)) :
    Arrived (step workers w (.dispatch order)) := by
  simp only [step]
  split
  swap
  · exact h
  rename_i hp
  have hjobs := hb.alone (by rw [hp]; exact id)
  have hnew := h.frame
    (.loop { cutoff := w.enqueued, charges := ({} : ChargesBySupplier K S).add (takeCharges w order).1 } [] 0 true)
    (by rw [hp]; rfl) (fun _ _ j hj => by rw [hp, hjobs] at hj; cases hj) (by rintro _ _ ⟨⟩)
  exact { hnew with }

theorem arrived_step (workers : Nat) (w : World K S) (a : Act K S) (h : Booked False w ∧ Arrived w) :
    Booked False (step workers w a) ∧ Arrived (step workers w a) := by
  obtain ⟨hb, h⟩ := h
  refine ⟨booked_step workers w a hb False.elim, ?_⟩
  cases a with
  | publish stream supplier bytes => exact arrived_publish h workers stream supplier bytes
  | add | drop | close => exact { h with }
  | dispatch order => exact arrived_dispatch h hb workers order
  | next cancelled late runs order => exact arrived_next h workers cancelled late runs order
  | exec i xadds incrs => exact arrived_exec h i xadds incrs
  | settle i => exact arrived_settle h i
  | receive i => exact arrived_receive h i
  | finish => exact arrived_finish h
  | leave cancelled => exact arrived_leave h cancelled
  | requeue => exact arrived_requeue h fun d failed hp => hb.alone (by rw [hp]; exact id)
  | charge incrs => exact arrived_charge h incrs
  | giveBack => exact arrived_giveBack h
  | abandon => exact arrived_abandon h

/-- In every run the relays accepted, numbered from 1, are in one place each: live, in flight, written, discarded with
a reason, or abandoned; what a write reports as sent was answered without an error; the live queue is in arrival order;
the byte counter is the sum over it; and every chunk was taken from the front of the queue, not empty, within 256
commands with its charges and within 1 MiB unless it is one relay. -/
theorem publish_queue_exact (workers : Nat) (as : List (Act K S)) :
    let w := run (step workers) ({} : World K S) as
    (List.range' 1 w.enqueued).Perm
        ((w.queue.live ++ (w.inFlight ++ (w.written ++ (w.discarded ++ w.abandoned)))).map (·.seq)) ∧
      (∀ q ∈ w.discarded, q.discardReason.isSome) ∧
      (∀ (chunk : List (Queued S)) (charges : List (Charge K S)) (xadds incrs : List Reply),
        ∀ q ∈ (writeChunk chunk charges xadds incrs).2.sent, ∃ r, (q, r) ∈ withReplies chunk xadds ∧ landed r) ∧
      w.queue.live.Pairwise (·.seq < ·.seq) ∧
      w.bytes = bytes0 w.queue.live ∧
      ∀ t ∈ w.takings, t.chunk <+: t.live ∧ t.chunk ≠ [] ∧ t.chunk.length + 2 * t.charges.length ≤ 256 ∧
        (bytes0 t.chunk ≤ 2 ^ 20 ∨ t.chunk.length = 1) := by
  have hb : Booked False ({} : World K S) :=
    ⟨⟨List.Perm.refl _, False.elim, False.elim, False.elim⟩, fun _ => rfl⟩
  have ha : Arrived ({} : World K S) := by
    refine ⟨List.Perm.refl _, ⟨List.Pairwise.nil, by simp [Slice.live], ?_, ?_, ?_, ?_, ?_, nodup_nil⟩,
      nofun, nofun, rfl, by simp, by simp⟩ <;> simp [Phase.failed]
  intro w
  have h : Booked False w ∧ Arrived w :=
    inv_of_run (fun w => Booked False w ∧ Arrived w) (arrived_step workers) as ⟨hb, ha⟩
  refine ⟨h.2.placed, h.2.reasons, fun _ _ _ _ _ => landed_of_sent, h.2.fleet.live_lt, h.2.bytes, fun t ht => ?_⟩
  have hw := h.2.takings t ht
  exact ⟨hw.front, hw.ne_nil, hw.commands, hw.bytes⟩

end Runs

end RelayMiner.Transport
