import RelayMiner.Lifecycle.ClaimRecovery
/-!
# The proof cycle between its writes, and both cycles at a crash
-/
open RelayMiner.Lib RelayMiner.Session

namespace RelayMiner.Lifecycle

open List

variable {phase : Phase} {ids : List SessionID} {strict : Bool} {m : Mem} {settling : Bool} {ws : List Write}
  {t : ProofStage} {s : Stores} {xs : List Snap} {x : Snap} {id : SessionID} {c : ProofCtx} {msg : Bytes}
  {cfg : Config} {height : Nat}

/-! ## The proof cycle -/

structure Unproven (m : Mem) (s : Stores) (x : Snap) : Prop where
  state : (s.sessions x.id).state = .proving
  hash : (s.sessions x.id).proofTxHash = x.proofTxHash
  unsent : m.sent .proof x.id = none

structure Queue (m : Mem) (s : Stores) (xs : List Snap) : Prop where
  unproven : ∀ x ∈ xs, Unproven m s x
  nodup : (xs.map (·.id)).Nodup

structure Proving (m : Mem) (s : Stores) (c : ProofCtx) (x : Snap) (msg : Bytes) : Prop where
  rest : Queue m s c.rest
  apart : x.id ∉ c.rest.map (·.id)
  state : (s.sessions x.id).state = .proving
  hash : (s.sessions x.id).proofTxHash = ""
  built : m.message .proof x.id = some msg

def ProofReady (m : Mem) (s : Stores) : ProofStage → Prop
  | .params c x | .waitOpen c x | .waitSeed c x | .guard c x => Queue m s (x :: c.rest)
  | .required c x | .waitEarliest c x | .timeCheck c x | .stillRequired c x | .building c x =>
    Queue m s (x :: c.rest) ∧ x.proofTxHash = ""
  | .recheck c x msg | .sending c x msg _ | .accepted c x msg _ | .failed c x msg _ => Proving m s c x msg
  | .settling c | .next c => Queue m s c.rest
  | .done => True

def ProofStage.isSettling : ProofStage → Bool
  | .settling _ => true
  | _ => false

def ProofP (ids : List SessionID) (strict : Bool) (t : ProofStage) (m : Mem) (s : Stores) (ws : List Write) : Prop :=
  Owed .proof ids strict m t.isSettling s ws ∧ ProofReady m (ws.foldl execWrite s) t

theorem along_proofP (hs : Secured .proof ids strict m s)
    (hb : Along execWrite (Backed .proof ids strict m t.isSettling) s ws)
    (hr : ProofReady m (ws.foldl execWrite s) t) : Along execWrite (ProofP ids strict t m) s ws :=
  ((hs.owed _ ws).along hb).and_settled (Q := fun s => ProofReady m s t) hr

theorem along_proofP_nil (hs : Secured .proof ids strict m s) (hr : ProofReady m s t) :
    Along execWrite (ProofP ids strict t m) s [] := along_proofP hs trivial hr

theorem Queue.foldl (h : Queue m s xs) (hw : ∀ x ∈ xs, Spares ws x.id) : Queue m (ws.foldl execWrite s) xs := by
  refine ⟨fun x hx => ?_, h.nodup⟩
  obtain ⟨hs, hh, hu⟩ := h.unproven x hx
  exact ⟨by rw [sessions_foldl (hw x hx), hs], by rw [sessions_foldl (hw x hx), hh], hu⟩

theorem Queue.congr {m' : Mem} (h : Queue m s xs) (hm : ∀ x ∈ xs, m'.sent .proof x.id = m.sent .proof x.id) :
    Queue m' s xs :=
  ⟨fun x hx => ⟨(h.unproven x hx).state, (h.unproven x hx).hash, (hm x hx).trans (h.unproven x hx).unsent⟩, h.nodup⟩

theorem Queue.tail (h : Queue m s (x :: xs)) : Queue m s xs :=
  ⟨fun y hy => h.unproven y (mem_cons_of_mem _ hy), (nodup_cons.1 h.nodup).2⟩

theorem Queue.apart (h : Queue m s (x :: xs)) : x.id ∉ xs.map (·.id) :=
  (nodup_cons.1 h.nodup).1

/-! ## Callbacks that mark no proof -/

theorem marked_of_proofHash {r r' : SessionSnapshot} (h : Marked m .proof id r') (hs : r'.state ≠ .proofTxError)
    (hh : r'.proofTxHash = r.proofTxHash) : Marked m .proof id r := by
  rcases h with ⟨hs', -⟩ | ⟨tx, hsent, hne, htx⟩
  · exact absurd hs' hs
  · exact .inr ⟨tx, hsent, hne, hh ▸ htx⟩

theorem plain_onProofDeferred (id : SessionID) : Plain .proof m (.session id .onProofDeferred) := by
  intro r h
  rw [book_onProofDeferred] at h
  split at h
  · exact h
  · exact marked_of_proofHash h nofun rfl

theorem plain_onClaimMissing (id : SessionID) : Plain .proof m (.session id .onClaimMissing) := by
  intro r h
  rw [book_onClaimMissing] at h
  split at h
  · exact h
  · exact marked_of_proofHash h nofun rfl

theorem plain_onProbabilisticProved (id : SessionID) : Plain .proof m (.session id .onProbabilisticProved) := by
  intro r h
  exact marked_of_proofHash h nofun rfl

theorem plain_onProofWindowClosed (id : SessionID) : Plain .proof m (.session id .onProofWindowClosed) := by
  intro r h
  exact marked_of_proofHash h nofun rfl

theorem plain_onSessionProved (id : SessionID) : Plain .proof m (.session id .onSessionProved) := by
  intro r h
  exact marked_of_proofHash h nofun rfl

theorem plain_onProofTxError (hu : ∀ r, m.sent .proof id = some r → r.failedSend = false) :
    Plain .proof m (.session id .onProofTxError) := by
  intro r h
  rw [book_onProofTxError] at h
  split at h
  · exact h
  rcases h with ⟨-, r', hsent, hf⟩ | hh
  · simp [hu r' hsent] at hf
  · exact .inr hh

theorem along_book {c' : ProofCtx} {cb : Callback} (hs : Secured .proof ids strict m s) (hc : c'.rest = c.rest)
    (hr : Queue m s c.rest) (ha : x.id ∉ c.rest.map (·.id)) (hp : Plain .proof m (.session x.id cb)) :
    Along execWrite (ProofP ids strict (.next c') m) s [.session x.id cb] := by
  refine along_proofP hs (backed_of_plain fun w hw => ?_) ?_
  · obtain rfl := mem_singleton.1 hw
    exact hp
  show Queue m _ c'.rest
  rw [hc]
  refine hr.foldl fun y hy cb' hw => ha ?_
  have := (Write.session.inj (mem_singleton.1 hw)).1
  exact this ▸ mem_map_of_mem hy

/-! ## One decision of the proof cycle -/

theorem not_marked_of_proving {r : SessionSnapshot} (hs : r.state = .proving)
    (hh : r.proofTxHash = "" ∨ m.sent .proof id = none) : ¬ Marked m .proof id r := by
  rintro (⟨hs', -⟩ | ⟨tx, hsent, hne, htx⟩)
  · cases hs.symm.trans hs'
  rcases hh with hh | hu
  · exact hne (htx.symm.trans hh)
  · cases hu.symm.trans hsent

theorem Secured.recordProof (h : Secured .proof ids strict m s) (hx : Unproven m s x) (msg : Option Bytes) :
    Secured .proof ids strict { m with proofBuild := Function.update m.proofBuild x.id (some msg) } s := by
  intro id hid hm
  by_cases hxi : id = x.id
  · subst hxi
    exact absurd hm (not_marked_of_proving hx.state (.inr hx.unsent))
  have hmsg : Mem.message { m with proofBuild := Function.update m.proofBuild x.id (some msg) } .proof id =
      m.message .proof id := by simp [Mem.message, Function.update_of_ne hxi]
  rw [Counts, hmsg] at hid
  obtain ⟨msg', e, hmsg', he, hem⟩ := h id hid hm
  exact ⟨msg', e, by rw [hmsg, hmsg'], he, hem⟩

theorem Secured.recordSentProof (h : Secured .proof ids strict m s) (hx : Proving m s c x msg) (r : Submit) :
    Secured .proof ids strict (m.recordSent .proof [x.id] r) s := by
  intro id hid hm
  by_cases hxi : id = x.id
  · subst hxi
    exact absurd hm (not_marked_of_proving hx.state (.inl hx.hash))
  have hm' : Marked m .proof id (s.sessions id) := by
    simpa only [Marked, sent_recordSent (show id ∉ [x.id] by simpa using hxi)] using hm
  exact h id hid hm'

theorem Proving.recordSent (h : Proving m s c x msg) (r : Submit) :
    Proving (m.recordSent .proof [x.id] r) s c x msg := by
  refine { h with rest := h.rest.congr fun y hy => sent_recordSent fun hmem => h.apart ?_ }
  exact mem_singleton.1 hmem ▸ mem_map_of_mem hy

theorem along_checkRequired {goOn : ProofStage} {r : Requirement} (hs : Secured .proof ids strict m s)
    (hq : Queue m s (x :: c.rest)) (hgo : ProofReady m s goOn) :
    Along execWrite (ProofP ids strict (checkRequired c x goOn r).2 m) s (checkRequired c x goOn r).1 := by
  have hunsent : ∀ r, m.sent .proof x.id = some r → r.failedSend = false := by
    intro r hr
    cases (hq.unproven x mem_cons_self).unsent.symm.trans hr
  cases r with
  | required | error => exact along_proofP_nil hs hgo
  | notRequired => exact along_book hs rfl hq.tail hq.apart (plain_onProbabilisticProved x.id)
  | unreadable => exact along_book hs rfl hq.tail hq.apart (plain_onProofDeferred x.id)
  | unavailable => exact along_book hs rfl hq.tail hq.apart (plain_onProofTxError hunsent)

theorem ready_retryProof {n : Nat} {r : Submit} {ctxDone : Bool} (h : Proving m s c x msg) :
    ProofReady m s (retryProof cfg c x msg n r ctxDone) := by
  unfold retryProof
  split
  · split
    · exact ⟨nofun, nodup_nil⟩
    · exact h
  · exact h

theorem along_submitProof {n : Nat} {r : Submit} {ctxDone : Bool} (hs : Secured .proof ids strict m s)
    (h : Proving m s c x msg) : let m' := m.recordSent .proof [x.id] r
    let d := submitProof cfg m' c x msg n r ctxDone
    Along execWrite (ProofP ids strict d.2 m') s d.1 := by
  intro m' d
  have hs' : Secured .proof ids strict m' s := hs.recordSentProof h r
  have h' : Proving m' s c x msg := h.recordSent r
  have hbook : ∀ cb, Plain .proof m' (.session x.id cb) →
      Along execWrite (ProofP ids strict (.next c) m') s [.session x.id cb] := fun cb hp =>
    along_book hs' rfl h'.rest h'.apart hp
  have hretry : Along execWrite (ProofP ids strict (retryProof cfg c x msg n r ctxDone) m') s [] :=
    along_proofP_nil hs' (ready_retryProof h')
  cases r with
  | accepted tx => exact along_proofP_nil hs' h'
  | notRequired named =>
    simp only [d, submitProof, settleNotRequiredBatch]
    split
    · exact hbook _ (plain_onProbabilisticProved x.id)
    refine hbook _ (plain_onProofTxError fun r hr => ?_)
    obtain rfl : Submit.notRequired named = r := by simpa [m', Mem.recordSent] using hr
    rfl
  | closestRefused => exact hbook _ (plain_onProofDeferred x.id)
  | windowExpired => exact hbook _ (plain_onProofWindowClosed x.id)
  | windowRefused =>
    simp only [d, submitProof]
    split
    · exact hbook _ (plain_onProofWindowClosed x.id)
    · exact hbook _ (plain_onProofDeferred x.id)
  | _ => exact hretry

theorem Proving.spares (h : Proving m s c x msg) (hw : ∀ id cb, .session id cb ∈ ws → id = x.id) :
    ∀ y ∈ c.rest, Spares ws y.id := by
  intro y hy cb hmem
  exact h.apart (hw y.id cb hmem ▸ mem_map_of_mem hy)

theorem along_acceptedProof (hstore : cfg.rebroadcastStore = true) {txHash : String} {settled : List SessionID}
    (hs : Secured .proof ids strict m s) (h : Proving m s c x msg) :
    Along execWrite (ProofP ids strict (.settling { c with settled := settled }) m) s
      (acceptedProof cfg height x msg txHash) := by
  refine along_proofP hs ?_ (h.rest.foldl (h.spares fun id cb hw => ?_))
  · by_cases htx : txHash = ""
    · subst htx
      simp only [acceptedProof, ne_eq, not_true_eq_false, and_false, if_false]
      refine ⟨fun _ hm => .inl ?_, trivial⟩
      rw [book_onProofSubmitted] at hm
      rcases hm with ⟨hst, -⟩ | ⟨tx, -, hne, htx⟩
      · rw [decodeSnapshot_state, h.state] at hst
        cases hst
      · exact absurd htx.symm hne
    · simp only [acceptedProof, hstore, htx, ne_eq, not_false_eq_true, and_self, if_true]
      refine ⟨fun _ _ => .inr (.inr ⟨rfl, ⟨msg, height, txHash⟩, ?_, h.built⟩), fun _ => h.built, trivial⟩
      exact mem_singleton.2 rfl
  obtain he | he := mem_acceptedProof hw
  · exact (Write.session.inj he).1
  · cases he

theorem along_failedProof (hstore : cfg.rebroadcastStore = true) {lastErr : Submit}
    (hs : Secured .proof ids strict m s) (h : Proving m s c x msg) :
    Along execWrite (ProofP ids strict (.settling c) m) s (failedProof cfg height x msg lastErr) := by
  refine along_proofP hs ?_ (h.rest.foldl (h.spares fun id cb hw => ?_))
  · refine backed_append (fun _ => True) trivial (fun w hw s ws _ hsub => ⟨?_, trivial⟩) fun w hw => ?_
    · split at hw
      · cases hw
      · obtain rfl := mem_singleton.1 hw
        refine fun _ _ => .inr (.inr ⟨rfl, ⟨msg, height, ""⟩, hsub ?_, h.built⟩)
        rw [if_pos hstore]
        exact mem_singleton.2 rfl
    · rw [if_pos hstore] at hw
      obtain rfl := mem_singleton.1 hw
      exact fun _ => h.built
  obtain he | he := mem_failedProof hw
  · exact (Write.session.inj he).1
  · cases he

theorem along_guard {w : Windows} {q : ClaimQuery} {d : List Write × ProofStage}
    (hs : Secured .proof ids strict m s) (hq : Queue m s (x :: c.rest)) (hd : preProofGuard w height c x q = some d) :
    Along execWrite (ProofP ids strict d.2 m) s d.1 := by
  unfold preProofGuard at hd
  split at hd
  · cases hd
    exact along_proofP_nil hs hq.tail
  · cases hd
    exact along_proofP_nil hs hq.tail
  · cases hd
  · split at hd
    · cases hd
      exact along_book hs rfl hq.tail hq.apart (plain_onProofDeferred x.id)
    split at hd
    · cases hd
    · cases hd
      exact along_book hs rfl hq.tail hq.apart (plain_onClaimMissing x.id)
  · cases hd

theorem recordJudged (hs : Secured .proof ids strict m s) (hq : Queue m s xs) (q : ClaimQuery) :
    Secured .proof ids strict (m.recordJudged x.id q) s ∧ Queue (m.recordJudged x.id q) s xs := by
  cases q with
  | found root status => exact ⟨hs, hq.congr fun _ _ => rfl⟩
  | notFound | error => exact ⟨hs, hq⟩

theorem proofs_next (hstore : cfg.rebroadcastStore = true) {a : Answer} (h : ProofP ids strict t m s []) :
    Along execWrite (ProofP ids strict (proofNext cfg m t a).2.1 (proofNext cfg m t a).2.2) s (proofNext cfg m t a).1 := by
  obtain ⟨ho, hr⟩ := h
  have hs : Secured .proof ids strict m s := ho.secured
  unfold proofNext
  split
  · split
    · exact along_proofP_nil hs hr
    · exact along_book hs rfl hr.tail hr.apart (plain_onProofDeferred _)
  · split
    · split
      · exact along_proofP_nil hs hr
      · exact along_proofP_nil hs hr
    · exact along_book hs rfl hr.tail hr.apart (plain_onProofDeferred _)
  · split
    · exact along_proofP_nil hs hr
    · exact along_book hs rfl hr.tail hr.apart (plain_onProofDeferred _)
  next c x q =>
    split
    · exact along_proofP_nil hs hr.tail
    next hhash =>
      split
      · obtain ⟨hs', hr'⟩ := recordJudged hs hr q
        split
        · exact along_guard hs' hr' ‹_›
        · exact along_proofP_nil hs' ⟨hr', by simpa using hhash⟩
      · exact along_proofP_nil hs ⟨hr, by simpa using hhash⟩
  · exact along_checkRequired hs hr.1 hr
  · split
    · exact along_proofP_nil hs hr
    · exact along_book hs rfl hr.1.tail hr.1.apart (plain_onProofDeferred _)
  · split
    · exact along_book hs rfl hr.1.tail hr.1.apart (plain_onProofWindowClosed _)
    · exact along_proofP_nil hs hr
  · exact along_checkRequired hs hr.1 hr
  next c x msg =>
    obtain ⟨hq, hhash⟩ := hr
    have hx := hq.unproven x mem_cons_self
    have hs' := hs.recordProof hx msg
    split
    · refine along_proofP_nil hs' ⟨hq.tail.congr fun _ _ => rfl, hq.apart, hx.state, hx.hash.trans hhash, ?_⟩
      simp [Mem.message]
    · exact along_proofP_nil hs' (hq.tail.congr fun _ _ => rfl)
  · split
    · exact along_book hs rfl hr.rest hr.apart (plain_onProofWindowClosed _)
    · exact along_proofP_nil hs hr
  · exact along_book hs rfl hr.rest hr.apart (plain_onProofDeferred _)
  · exact along_submitProof hs hr
  · exact along_acceptedProof hstore hs hr
  · exact along_failedProof hstore hs hr
  · exact along_proofP_nil hs hr
  · split
    next c _ x rest hrest =>
      have hq : Queue m s c.rest := hr
      rw [hrest] at hq
      exact along_proofP_nil hs hq
    refine along_proofP hs (backed_of_plain fun w hw => ?_) trivial
    obtain ⟨x, -, hw⟩ := mem_flatMap.1 hw
    simp only [provedWrites, mem_cons, not_mem_nil, or_false] at hw
    rcases hw with rfl | rfl | rfl
    · exact plain_onSessionProved x.id
    · trivial
    · exact plain_onSessionProved x.id
  · exact along_proofP_nil hs hr

theorem ProofReady.blocks (h : ProofReady m s t) (blocks : Nat) : ProofReady (happenBlocks m blocks) s t := by
  have hqueue : ∀ {xs}, Queue m s xs → Queue (happenBlocks m blocks) s xs := fun h => h.congr fun _ _ => rfl
  have hproving : ∀ {c x msg}, Proving m s c x msg → Proving (happenBlocks m blocks) s c x msg := fun h =>
    { h with rest := hqueue h.rest }
  cases t with
  | params | waitOpen | waitSeed | guard | settling | next => exact hqueue h
  | required | waitEarliest | timeCheck | stillRequired | building => exact ⟨hqueue h.1, h.2⟩
  | recheck | sending | accepted | failed => exact hproving h
  | done => trivial

/-! ## A cycle cut by a crash -/

def start : Phase → List Snap → Stage
  | .claim, batch => .claims (startClaims batch)
  | .proof, batch => .proofs (startProofs batch)

structure Starts (phase : Phase) (batch : List Snap) (w : Cycle) : Prop where
  queue : w.queue = []
  stage : w.stage = some (start phase batch)
  mem : w.mem = { height := w.mem.height }
  nodup : (batch.map (·.id)).Nodup
  claiming : phase = .claim → ∀ x ∈ batch,
    (w.store.sessions x.id).state = .claiming ∧ (w.store.sessions x.id).claimTxHash = x.claimTxHash
  proving : phase = .proof → ∀ x ∈ batch,
    (w.store.sessions x.id).state = .proving ∧ (w.store.sessions x.id).proofTxHash = x.proofTxHash

def Stage.isSettling : Stage → Bool
  | .claims t => t.isSettling
  | .proofs t => t.isSettling

def Write.isPut : Write → Bool
  | .put _ _ _ => true
  | _ => false

/-- The process does not die between the marks of a submission and the last of its entries. -/
def OutsideSettlement (t : Stage) (ws : List Write) : Prop := t.isSettling = true → ∀ w ∈ ws, w.isPut = false

def CycleP (ids : List SessionID) (strict : Bool) : Phase → Stage → Mem → Stores → List Write → Prop
  | .claim, .claims t => ClaimP ids strict t
  | .proof, .proofs t => ProofP ids strict t
  | _, _ => fun _ _ _ => False

theorem Owed.at_crash (h : Owed phase ids strict m settling s ws) (hc : settling = true → ∀ w ∈ ws, w.isPut = false) :
    Secured phase ids strict m s := by
  intro id hid hm
  rcases h id hid hm with hs | ⟨hset, e, he, -⟩
  · exact hs
  · cases hc hset _ he

variable {t : Stage}

theorem cycleP_next (hstore : cfg.rebroadcastStore = true) {a : Answer}
    (h : CycleP ids strict phase t m s []) (hg : strict = true → AllBuilt m t a) :
    Along execWrite (CycleP ids strict phase (next cfg m t a).2.1 (next cfg m t a).2.2) s (next cfg m t a).1 := by
  cases phase with
  | claim =>
    cases t with
    | claims t => exact claims_next hstore h hg
    | proofs t => exact h.elim
  | proof =>
    cases t with
    | claims t => exact h.elim
    | proofs t => exact proofs_next hstore h

theorem cycleP_crash (h : CycleP ids strict phase t m s ws) (hc : OutsideSettlement t ws) :
    Secured phase ids strict m s := by
  cases phase with
  | claim =>
    cases t with
    | claims t => exact h.1.at_crash hc
    | proofs t => exact h.elim
  | proof =>
    cases t with
    | claims t => exact h.elim
    | proofs t => exact h.1.at_crash hc

theorem cycleP_blocks (h : CycleP ids strict phase t m s ws) (blocks : Nat) :
    CycleP ids strict phase t (happenBlocks m blocks) s ws := by
  cases phase with
  | claim =>
    cases t with
    | claims t => exact ⟨h.1, h.2.blocks blocks⟩
    | proofs t => exact h.elim
  | proof =>
    cases t with
    | claims t => exact h.elim
    | proofs t => exact ⟨h.1, h.2.blocks blocks⟩

theorem cycleP_start {batch : List Snap} {w : Cycle} (h : Starts phase batch w) :
    AlongQueue execWrite (CycleP (batch.map (·.id)) strict phase) (Secured phase (batch.map (·.id)) strict) w := by
  refine ⟨fun t ht => ?_, fun hn => absurd (h.stage.symm.trans hn) nofun⟩
  cases h.stage.symm.trans ht
  rw [h.queue, h.mem]
  cases phase with
  | claim =>
    have hperm := perm_groupByEndHeight batch
    refine ⟨fun id hid hm => ?_, fun x hx => ?_, (hperm.map (·.id)).nodup_iff.2 h.nodup⟩
    · obtain ⟨x, hx, rfl⟩ := mem_map.1 hid.1
      rcases hm with ⟨hs, -⟩ | ⟨tx, hsent, -⟩
      · cases (h.claiming rfl x hx).1.symm.trans hs
      · cases hsent
    · obtain ⟨hs, hh⟩ := h.claiming rfl x (hperm.mem_iff.1 hx)
      exact ⟨hs, hh, rfl⟩
  | proof =>
    have hperm : (groupOnePerSession batch).Perm batch := perm_insertionSort _ _
    refine ⟨fun id hid hm => ?_, fun x hx => ?_, (hperm.map (·.id)).nodup_iff.2 h.nodup⟩
    · obtain ⟨x, hx, rfl⟩ := mem_map.1 hid.1
      exact absurd hm (not_marked_of_proving (h.proving rfl x hx).1 (.inr rfl))
    · obtain ⟨hs, hh⟩ := h.proving rfl x (hperm.mem_iff.1 hx)
      exact ⟨hs, hh, rfl⟩

theorem secured_of_run (strict : Bool) (hstore : cfg.rebroadcastStore = true) {batch : List Snap} {w : Cycle}
    (hw : Starts phase batch w) {G : Mem → Stage → Answer → Prop}
    (hG : ∀ m t a, G m t a → strict = true → AllBuilt m t a) {ks : List CycleTick}
    (h : Meets (step cfg) (fun p k => Decides G p k ∧ DiesAt OutsideSettlement p k) w ks)
    (hdead : (run (step cfg) w ks).stage = none) :
    Secured phase (batch.map (·.id)) strict (run (step cfg) w ks).mem (run (step cfg) w ks).store := by
  have hinv : AlongQueue execWrite (CycleP (batch.map (·.id)) strict phase)
      (Secured phase (batch.map (·.id)) strict) (run (step cfg) w ks) :=
    along_of_decides _ _ (fun _ _ _ _ hp hg => cycleP_next hstore hp (hG _ _ _ hg))
      (fun _ _ _ _ hp hc => cycleP_crash hp hc) (fun _ _ _ _ e hp => cycleP_blocks hp e) (fun _ _ _ hd => hd)
      (cycleP_start hw) h
  exact hinv.2 hdead

/-- Wherever a cycle dies outside the writes that settle a submission, a session whose message was built and
that is marked failed with a retry to come, or carries the hash of a submission of this cycle, has its message
stored; and no other session is marked so, if batches fail for good only with their whole group built. -/
theorem built_submissions_recoverable (cfg : Config) (hstore : cfg.rebroadcastStore = true) (phase : Phase)
    (batch : List Snap) (w : Cycle) (hw : Starts phase batch w) (ks : List CycleTick)
    (hdies : Meets (step cfg) (DiesAt OutsideSettlement) w ks) :
    let w' := run (step cfg) w ks
    w'.stage = none → ∀ x ∈ batch, Marked w'.mem phase x.id (w'.store.sessions x.id) →
      (w'.mem.message phase x.id ≠ none → HasMessage w'.mem w'.store phase x.id) ∧
      (Meets (step cfg) (Decides AllBuilt) w ks → HasMessage w'.mem w'.store phase x.id) := by
  intro w' hdead x hx hm
  refine ⟨fun hbuilt => ?_, fun hall => ?_⟩
  · have hs : Secured phase (batch.map (·.id)) false w'.mem w'.store :=
      secured_of_run false hstore hw (G := fun _ _ _ => True) (fun _ _ _ _ hf => Bool.noConfusion hf)
        (hdies.imp fun p k hk => ⟨by cases k <;> simp [Decides], hk⟩) hdead
    exact hs x.id ⟨mem_map_of_mem hx, .inr hbuilt⟩ hm
  have hs : Secured phase (batch.map (·.id)) true w'.mem w'.store :=
    secured_of_run true hstore hw (fun _ _ _ hg _ => hg) (hall.and hdies) hdead
  exact hs x.id ⟨mem_map_of_mem hx, .inl rfl⟩ hm

/-! ## Two sessions -/

instance (m : Mem) (t : Stage) (a : Answer) : Decidable (AllBuilt m t a) := by
  cases t with
  | proofs t => exact inferInstanceAs (Decidable True)
  | claims t => cases t <;> unfold AllBuilt <;> infer_instance

instance (t : Stage) (ws : List Write) : Decidable (OutsideSettlement t ws) :=
  inferInstanceAs (Decidable (t.isSettling = true → ∀ w ∈ ws, w.isPut = false))

def exampleConfig : Config := { windows := fun _ => .spaced }

def exampleBatch : List Snap := [{ id := 1, endHeight := 5 }, { id := 2, endHeight := 5 }]

def exampleStart (phase : Phase) (state : SessionState) (height : Nat) : Cycle where
  store := ⟨fun _ => { state := state }, fun _ _ => none, fun _ => true⟩
  stage := some (start phase exampleBatch)
  mem := { height := height }

def toClaims (first second : ClaimBuild) : List CycleTick :=
  [.decide .go, .decide (.read true), .decide (.read true), .decide .go,
    .decide (.claimBuilds [({ id := 1, endHeight := 5 }, first), ({ id := 2, endHeight := 5 }, second)]), .decide .go]

/-- The chain names the first claim and takes the second; the process dies with both settled. -/
def ejectedRun : List CycleTick :=
  toClaims (.built [1] [11]) (.built [2] [12]) ++
    [.decide (.submit (.named 0) false), .write, .write, .decide .go, .env 1, .decide (.submit (.accepted "tx") false),
      .decide .go, .write, .write, .crash]

theorem built_submissions_recoverable_ejected :
    let w := run (step exampleConfig) (exampleStart .claim .claiming 12) ejectedRun
    w.stage = none ∧ (w.store.sessions 1).state = .claimTxError ∧ (w.store.sessions 1).claimMissingVerdict = .attempt ∧
      HasMessage w.mem w.store .claim 1 ∧ (w.store.sessions 2).claimTxHash = "tx" ∧ HasMessage w.mem w.store .claim 2 := by
  have hw : Starts .claim exampleBatch (exampleStart .claim .claiming 12) :=
    ⟨rfl, rfl, rfl, by decide, fun _ => by decide, nofun⟩
  have h := built_submissions_recoverable exampleConfig rfl .claim exampleBatch _ hw ejectedRun (by decide) rfl
  have h1 := h { id := 1, endHeight := 5 } (by decide) (.inl (by decide))
  have h2 := h { id := 2, endHeight := 5 } (by decide) (.inr ⟨"tx", by decide, by decide, by decide⟩)
  exact ⟨rfl, rfl, rfl, h1.1 (by decide), rfl, h2.2 (by decide)⟩

/-- The batch is taken and the process dies after the first hash. -/
def hashOnlyRun : List CycleTick :=
  toClaims (.built [1] [11]) (.built [2] [12]) ++ [.decide (.submit (.accepted "tx") false), .decide .go, .write, .crash]

/-- Three attempts fail and the process dies after the first verdict. -/
def verdictOnlyRun : List CycleTick :=
  toClaims (.built [1] [11]) (.built [2] [12]) ++
    [.decide (.submit .refused false), .decide (.submit .refused false), .decide (.submit .refused false), .decide .go,
      .write, .crash]

/-- Three attempts fail for a batch that the second session, skipped, is not in. -/
def skippedRun : List CycleTick :=
  [.decide .go, .decide (.read true), .decide (.read true), .decide .go,
    .decide (.claimBuilds [({ id := 1, endHeight := 5 }, .built [1] [11]), ({ id := 2, endHeight := 5 }, .unprofitable)]),
    .write, .write, .decide .go, .decide (.submit .refused false), .decide (.submit .refused false),
    .decide (.submit .refused false), .decide .go, .write, .write, .write, .crash]

/-- The chain answers that no proof was required, and names no message. -/
def notRequiredRun : List CycleTick :=
  [.decide .go, .decide (.read true), .decide (.read true), .decide (.read true), .decide (.claimQuery .error),
    .decide (.requirement .required), .decide (.read true), .decide .go, .decide (.requirement .required),
    .decide (.proofBuild (some [21])), .decide .go, .decide (.submit (.notRequired none) false), .write, .crash]

/-- By design, a proof refused as not required is given up without an entry. Beside that: a hash without an
entry, a verdict that promises a retry without one, and the same verdict for a claim that was never built. -/
theorem submission_stranded :
    (let w := run (step exampleConfig) (exampleStart .proof .proving 32) notRequiredRun;
      w.stage = none ∧ (w.store.sessions 1).state = .proofTxError ∧ w.mem.sent .proof 1 = some (.notRequired none) ∧
        w.store.entries .proof 1 = none) ∧
    (let w := run (step exampleConfig) (exampleStart .claim .claiming 12) hashOnlyRun;
      w.stage = none ∧ w.mem.sent .claim 1 = some (.accepted "tx") ∧ (w.store.sessions 1).claimTxHash = "tx" ∧
        w.store.entries .claim 1 = none) ∧
    (let w := run (step exampleConfig) (exampleStart .claim .claiming 12) verdictOnlyRun;
      w.stage = none ∧ (w.store.sessions 1).state = .claimTxError ∧
        (w.store.sessions 1).claimMissingVerdict = .attempt ∧ w.store.entries .claim 1 = none) ∧
    (let w := run (step exampleConfig) (exampleStart .claim .claiming 12) skippedRun;
      w.stage = none ∧ w.mem.message .claim 2 = none ∧ (w.store.sessions 2).state = .claimTxError ∧
        (w.store.sessions 2).claimMissingVerdict = .attempt ∧ w.store.entries .claim 2 = none) := by
  decide

end RelayMiner.Lifecycle
