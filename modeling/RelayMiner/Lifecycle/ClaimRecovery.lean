import RelayMiner.Lifecycle.Owed
/-!
# The claim cycle between its writes

One lemma for each stage of the claim cycle: the writes a decision queues keep
`Owed` from one to the next, and leave the store as the next stage relies on it.
-/
open RelayMiner.Lib RelayMiner.Session Function

namespace RelayMiner.Lifecycle

open List

variable {phase : Phase} {ids : List SessionID} {strict : Bool} {m : Mem} {settling : Bool} {xs : List Snap}
  {ws : List Write} {s : Stores} {c : ClaimCtx} {id : SessionID} {remaining : List Built}
  {results : List (Snap × ClaimBuild)} {r : Snap × ClaimBuild} {b : Built} {t : ClaimStage} {g : Group}
  {height n : Nat} {cfg : Config}

/-! ## The claim cycle -/

structure Fresh (m : Mem) (s : Stores) (x : Snap) : Prop where
  state : (s.sessions x.id).state = .claiming
  hash : (s.sessions x.id).claimTxHash = x.claimTxHash
  unsent : m.sent .claim x.id = none

structure InHand (m : Mem) (s : Stores) (b : Built) : Prop where
  state : (s.sessions b.snap.id).state = .claiming
  hash : (s.sessions b.snap.id).claimTxHash = ""
  built : m.message .claim b.snap.id = some b.msg

structure Waiting (m : Mem) (s : Stores) (xs : List Snap) : Prop where
  fresh : ∀ x ∈ xs, Fresh m s x
  nodup : (xs.map (·.id)).Nodup

def restSnaps (c : ClaimCtx) : List Snap := c.rest.flatMap (·.snaps)

def Apart (c : ClaimCtx) (id : SessionID) : Prop := id ∉ (restSnaps c).map (·.id)

structure Submitting (m : Mem) (s : Stores) (c : ClaimCtx) (g : Group) (remaining : List Built) : Prop where
  rest : Waiting m s (restSnaps c)
  apart : ∀ x ∈ g.snaps, Apart c x.id
  hand : ∀ b ∈ remaining, InHand m s b
  mem : ∀ b ∈ remaining, b.snap ∈ g.snaps
  nodup : (remaining.map (·.snap.id)).Nodup
  unbuilt : ∀ x ∈ g.snaps, x.claimTxHash = "" → x.id ∈ remaining.map (·.snap.id) ∨ m.message .claim x.id = none
  before : ∀ x ∈ g.snaps, x.claimTxHash ≠ "" → (s.sessions x.id).claimTxHash ≠ ""
  unsent : ∀ x ∈ g.snaps, ∀ h, m.sent .claim x.id ≠ some (.accepted h)

structure Accepted (m : Mem) (s : Stores) (c : ClaimCtx) (remaining : List Built) : Prop where
  rest : Waiting m s (restSnaps c)
  apart : ∀ b ∈ remaining, Apart c b.snap.id
  hand : ∀ b ∈ remaining, InHand m s b

structure Closing (m : Mem) (s : Stores) (c : ClaimCtx) (todo : List Snap) : Prop where
  rest : Waiting m s (restSnaps c)
  apart : ∀ x ∈ todo, Apart c x.id
  unsent : ∀ x ∈ todo, ∀ h, m.sent .claim x.id ≠ some (.accepted h)

def ClaimReady (m : Mem) (s : Stores) : ClaimStage → Prop
  | .params c g | .waitOpen c g | .timeCheck c g | .building c g => Waiting m s (g.snaps ++ restSnaps c)
  | .recheck c g remaining | .sending c g remaining _ | .ejected c g remaining _ | .failed c g remaining _ =>
    Submitting m s c g remaining
  | .accepted c remaining _ => Accepted m s c remaining
  | .closing c _ todo => Closing m s c todo
  | .settling c | .next c => Waiting m s (restSnaps c)
  | .done => True

theorem Waiting.foldl (h : Waiting m s xs) (hw : ∀ x ∈ xs, Spares ws x.id) :
    Waiting m (ws.foldl execWrite s) xs := by
  refine ⟨fun x hx => ?_, h.nodup⟩
  obtain ⟨hs, hh, hu⟩ := h.fresh x hx
  exact ⟨by rw [sessions_foldl (hw x hx), hs], by rw [sessions_foldl (hw x hx), hh], hu⟩

theorem Waiting.congr {m' : Mem} (h : Waiting m s xs) (hm : ∀ x ∈ xs, m'.sent .claim x.id = m.sent .claim x.id) :
    Waiting m' s xs :=
  ⟨fun x hx => ⟨(h.fresh x hx).state, (h.fresh x hx).hash, (hm x hx).trans (h.fresh x hx).unsent⟩, h.nodup⟩

theorem Waiting.of_append_right {ys : List Snap} (h : Waiting m s (xs ++ ys)) : Waiting m s ys :=
  ⟨fun x hx => h.fresh x (mem_append_right xs hx), by
    have := h.nodup
    rw [map_append] at this
    exact this.of_append_right⟩

theorem Waiting.apart (h : Waiting m s (xs ++ restSnaps c)) : ∀ x ∈ xs, Apart c x.id := by
  intro x hx hmem
  have := h.nodup
  rw [map_append] at this
  exact disjoint_of_nodup_append this (mem_map_of_mem hx) hmem

/-! ## Callbacks that mark no claim -/

theorem marked_of_hash {r r' : SessionSnapshot} (h : Marked m .claim id r') (hs : r'.state ≠ .claimTxError)
    (hh : r'.claimTxHash = r.claimTxHash) : Marked m .claim id r := by
  rcases h with ⟨hs', -⟩ | ⟨tx, hsent, hne, htx⟩
  · exact absurd hs' hs
  · exact .inr ⟨tx, hsent, hne, hh ▸ htx⟩

theorem plain_onClaimDeferred (id : SessionID) : Plain .claim m (.session id .onClaimDeferred) := by
  intro r h
  rw [book_onClaimDeferred] at h
  split at h
  · exact marked_of_hash h nofun rfl
  · exact h

theorem plain_onClaimWindowClosed (id : SessionID) : Plain .claim m (.session id .onClaimWindowClosed) := by
  intro r h
  rw [book_onClaimWindowClosed] at h
  split at h
  · exact h
  · exact marked_of_hash h nofun rfl

theorem plain_onClaimSkipped (id : SessionID) : Plain .claim m (.session id .onClaimSkipped) := by
  intro r h
  exact marked_of_hash h nofun rfl

theorem plain_claimed (id : SessionID) : Plain .claim m (.session id .claimed) := by
  intro r h
  rw [book_claimed] at h
  split at h
  · exact h
  · exact marked_of_hash h nofun rfl

theorem plain_onClaimObservedOnChain (root : Bytes) (tx : String) (hu : ∀ h, m.sent .claim id ≠ some (.accepted h)) :
    Plain .claim m (.session id (.onClaimObservedOnChain root tx)) := by
  intro r h
  rw [book_onClaimObservedOnChain] at h
  split at h
  · rcases h with ⟨hs, -⟩ | ⟨tx', hsent, -⟩
    · cases hs
    · exact absurd hsent (hu tx')
  · exact h

/-! ## What the cycle learns -/

/-- Sessions whose claim is about to be sent carry no mark, whatever the answer. -/
theorem Secured.recordSent (h : Secured .claim ids strict m s) (hand : ∀ b ∈ remaining, InHand m s b) (r : Submit) :
    Secured .claim ids strict (m.recordSent .claim (remaining.map (·.snap.id)) r) s := by
  intro id hid hm
  by_cases hmem : id ∈ remaining.map (·.snap.id)
  · obtain ⟨b, hb, rfl⟩ := mem_map.1 hmem
    obtain ⟨hs, hh, -⟩ := hand b hb
    rcases hm with ⟨hs', -⟩ | ⟨tx, -, hne, htx⟩
    · cases hs.symm.trans hs'
    · exact absurd (htx.symm.trans hh) hne
  have hm' : Marked m .claim id (s.sessions id) := by
    simpa only [Marked, Mem.recordSent, update_self, hmem, if_false] using hm
  exact h id hid hm'

theorem message_recordClaimBuilds (h : id ∉ results.map (·.1.id)) :
    (m.recordClaimBuilds results).message .claim id = m.message .claim id := by
  have hnone : results.find? (·.1.id = id) = none := by
    rw [List.find?_eq_none]
    intro r hr hid
    exact h (mem_map.2 ⟨r, hr, by simpa using hid⟩)
  simp [Mem.message, Mem.recordClaimBuilds, hnone]

section
variable (hnd : (results.map (·.1.id)).Nodup)
include hnd

theorem find?_id (hr : r ∈ results) :
    results.find? (·.1.id = r.1.id) = some r := by
  induction results with
  | nil => cases hr
  | cons r' rs ih =>
    rw [map_cons, nodup_cons] at hnd
    rcases mem_cons.1 hr with rfl | hr'
    · simp
    have hne : r'.1.id ≠ r.1.id := fun he => hnd.1 (he ▸ mem_map.2 ⟨r, hr', rfl⟩)
    rw [List.find?_cons_of_neg (by simpa using hne)]
    exact ih hnd.2 hr'

theorem message_of_mem (hb : b ∈ results.filterMap builtOf) :
    (m.recordClaimBuilds results).message .claim b.snap.id = some b.msg := by
  obtain ⟨r, hr, hrb⟩ := mem_filterMap.1 hb
  obtain ⟨root, msg, hbuilt, rfl⟩ : ∃ root msg, r.2 = .built root msg ∧ b = ⟨r.1, root, msg⟩ := by
    unfold builtOf at hrb
    split at hrb
    · exact ⟨_, _, ‹_›, (Option.some.inj hrb).symm⟩
    · cases hrb
  simp [Mem.message, Mem.recordClaimBuilds, find?_id hnd hr, hbuilt]

theorem message_of_none (hr : r ∈ results) (hb : builtOf r = none) :
    (m.recordClaimBuilds results).message .claim r.1.id = none := by
  simp only [Mem.message, Mem.recordClaimBuilds, find?_id hnd hr, Option.map_some, Option.some_or]
  unfold builtOf at hb
  split at hb
  · cases hb
  split
  next hne _ _ _ he => exact absurd (Option.some.inj he) (hne _ _)
  · rfl
end

/-- Sessions whose claims are being built carry no mark yet. -/
theorem Secured.recordClaimBuilds (h : Secured .claim ids strict m s) (hf : ∀ r ∈ results, Fresh m s r.1) :
    Secured .claim ids strict (m.recordClaimBuilds results) s := by
  intro id hid hm
  have hm' : Marked m .claim id (s.sessions id) := hm
  by_cases hmem : id ∈ results.map (·.1.id)
  · obtain ⟨r, hr, rfl⟩ := mem_map.1 hmem
    obtain ⟨hs, -, hu⟩ := hf r hr
    rcases hm' with ⟨hs', -⟩ | ⟨tx, hsent, -⟩
    · cases hs.symm.trans hs'
    · cases hu.symm.trans hsent
  rw [Counts, message_recordClaimBuilds hmem] at hid
  obtain ⟨msg, e, hmsg, he, hem⟩ := h id hid hm'
  exact ⟨msg, e, by rw [message_recordClaimBuilds hmem, hmsg], he, hem⟩

/-! ## One decision of the claim cycle -/

def ClaimStage.isSettling : ClaimStage → Bool
  | .settling _ => true
  | _ => false

def ClaimP (ids : List SessionID) (strict : Bool) (t : ClaimStage) (m : Mem) (s : Stores) (ws : List Write) : Prop :=
  Owed .claim ids strict m t.isSettling s ws ∧ ClaimReady m (ws.foldl execWrite s) t

theorem along_claimP (hs : Secured .claim ids strict m s)
    (hb : Along execWrite (Backed .claim ids strict m t.isSettling) s ws)
    (hr : ClaimReady m (ws.foldl execWrite s) t) : Along execWrite (ClaimP ids strict t m) s ws :=
  ((hs.owed _ ws).along hb).and_settled (Q := fun s => ClaimReady m s t) hr

theorem along_claimP_nil (hs : Secured .claim ids strict m s) (hr : ClaimReady m s t) :
    Along execWrite (ClaimP ids strict t m) s [] := along_claimP hs trivial hr

theorem spares_of_apart (h : ∀ id cb, .session id cb ∈ ws → Apart c id) : ∀ x ∈ restSnaps c, Spares ws x.id :=
  fun x hx cb hw => h x.id cb hw (mem_map_of_mem hx)

theorem along_deferClaims {snaps : List Snap} (hs : Secured .claim ids strict m s) (hr : Waiting m s (restSnaps c))
    (ha : ∀ x ∈ snaps, Apart c x.id) : Along execWrite (ClaimP ids strict (.next c) m) s (deferClaims snaps) := by
  refine along_claimP hs (backed_of_plain fun w hw => ?_) (hr.foldl (spares_of_apart fun id cb hw => ?_))
  · obtain ⟨x, -, rfl⟩ := mem_map.1 hw
    exact plain_onClaimDeferred x.id
  obtain ⟨x, hx, he⟩ := mem_map.1 hw
  injection he with he
  exact he ▸ ha x hx

theorem Submitting.closing (h : Submitting m s c g remaining) : Closing m s c g.snaps := { h with }

theorem Waiting.closing (h : Waiting m s (xs ++ restSnaps c)) : Closing m s c xs := by
  refine ⟨h.of_append_right, h.apart, fun x hx tx hsent => ?_⟩
  cases (h.fresh x (mem_append_left _ hx)).unsent.symm.trans hsent

theorem along_closing {close : Nat} {x : Snap} {todo : List Snap} {q : ClaimQuery}
    (hs : Secured .claim ids strict m s) (h : Closing m s c (x :: todo)) :
    Along execWrite (ClaimP ids strict (.closing c close todo) m) s (markClaimWindowClosed height close x q) := by
  refine along_claimP hs (backed_of_plain fun w hw => ?_)
    ⟨h.rest.foldl (spares_of_apart fun id cb hw => ?_), fun y hy => h.apart y (mem_cons_of_mem _ hy),
      fun y hy => h.unsent y (mem_cons_of_mem _ hy)⟩
  · rcases mem_markClaimWindowClosed hw with rfl | ⟨root, rfl⟩
    · exact plain_onClaimWindowClosed x.id
    · exact plain_onClaimObservedOnChain root _ (h.unsent x mem_cons_self)
  have hid : id = x.id := by
    rcases mem_markClaimWindowClosed hw with he | ⟨root, he⟩
    · exact (Write.session.inj he).1
    · exact (Write.session.inj he).1
  exact hid ▸ h.apart x mem_cons_self

/-- The builds of a group: the skipped sessions are booked, the built ones taken in hand. -/
theorem along_building (hs : Secured .claim ids strict m s) (h : Waiting m s (g.snaps ++ restSnaps c))
    (hperm : (results.map (·.1)).Perm (candidates g)) :
    Along execWrite (ClaimP ids strict (.recheck c g (results.filterMap builtOf)) (m.recordClaimBuilds results)) s
      (results.flatMap skippedWrites) := by
  have hcand : ∀ r ∈ results, r.1 ∈ g.snaps ∧ r.1.claimTxHash = "" := by
    intro r hr
    have := hperm.mem_iff.1 (mem_map_of_mem hr)
    simpa [candidates] using this
  have hfresh : ∀ r ∈ results, Fresh m s r.1 := fun r hr => h.fresh r.1 (mem_append_left _ (hcand r hr).1)
  have hnd : (results.map (·.1.id)).Nodup := by
    have hg := h.nodup
    rw [map_append] at hg
    have hsub : ((candidates g).map (·.id)).Nodup := (hg.of_append_left).sublist (filter_sublist.map _)
    have : (results.map (·.1.id)) = (results.map (·.1)).map (·.id) := by simp
    rw [this]
    exact (hperm.map _).nodup_iff.2 hsub
  have hwrites : ∀ w ∈ results.flatMap skippedWrites, ∃ r ∈ results, builtOf r = none ∧
      (w = .deleteTree r.1.id ∨ w = .session r.1.id .onClaimSkipped) := by
    intro w hw
    obtain ⟨r, hr, hw⟩ := mem_flatMap.1 hw
    exact ⟨r, hr, mem_skippedWrites hw⟩
  have hg : (g.snaps.map (·.id)).Nodup := by
    have := h.nodup
    rw [map_append] at this
    exact this.of_append_left
  have hrest : Waiting (m.recordClaimBuilds results) s (restSnaps c) := h.of_append_right.congr fun _ _ => rfl
  refine along_claimP (hs.recordClaimBuilds hfresh) (backed_of_plain fun w hw => ?_)
    ⟨hrest.foldl (spares_of_apart fun id cb hw => ?_), h.apart, fun b hb => ?_, fun b hb => ?_,
      ?_, fun x hx hempty => ?_, fun x hx hne => ?_, fun x hx tx hsent => ?_⟩
  · obtain ⟨r, -, -, rfl | rfl⟩ := hwrites w hw
    · trivial
    · exact plain_onClaimSkipped r.1.id
  · obtain ⟨r, hr, -, he | he⟩ := hwrites _ hw
    · cases he
    · exact (Write.session.inj he).1 ▸ h.apart r.1 (hcand r hr).1
  · -- A built claim was not skipped: its record is as it was.
    obtain ⟨r, hr, hrb⟩ := mem_filterMap.1 hb
    have hsnap := snap_builtOf hrb
    have hspare : Spares (results.flatMap skippedWrites) b.snap.id := by
      intro cb hw
      obtain ⟨r', hr', hnone, he | he⟩ := hwrites _ hw
      · cases he
      have hid : r.1.id = r'.1.id := by rw [← hsnap, (Write.session.inj he).1]
      obtain rfl : r = r' := inj_on_of_nodup_map hnd hr hr' hid
      rw [hnone] at hrb
      cases hrb
    obtain ⟨hst, hh, -⟩ := hfresh r hr
    refine ⟨?_, ?_, message_of_mem hnd hb⟩
    · rw [sessions_foldl hspare, hsnap, hst]
    · rw [sessions_foldl hspare, hsnap, hh, (hcand r hr).2]
  · obtain ⟨r, hr, hrb⟩ := mem_filterMap.1 hb
    rw [snap_builtOf hrb]
    exact (hcand r hr).1
  · exact hnd.sublist (by simpa [comp_def] using (snap_builtOf_sublist results).map (·.id))
  · have hmem : x ∈ results.map (·.1) := hperm.mem_iff.2 (by simp [candidates, hx, hempty])
    obtain ⟨r, hr, rfl⟩ := mem_map.1 hmem
    cases hb : builtOf r with
    | none => exact .inr (message_of_none hnd hr hb)
    | some b =>
      refine .inl (mem_map.2 ⟨b, mem_filterMap.2 ⟨r, hr, hb⟩, ?_⟩)
      rw [snap_builtOf hb]
  · have hspare : Spares (results.flatMap skippedWrites) x.id := by
      intro cb hw
      obtain ⟨r, hr, -, he | he⟩ := hwrites _ hw
      · cases he
      · obtain rfl : x = r.1 := inj_on_of_nodup_map hg hx (hcand r hr).1 (Write.session.inj he).1
        exact hne (hcand r hr).2
    rw [sessions_foldl hspare, (h.fresh x (mem_append_left _ hx)).hash]
    exact hne
  · cases (h.fresh x (mem_append_left _ hx)).unsent.symm.trans hsent

/-- Marks first, entries after: every mark is made with the entries still queued. `K` is what the marks keep. -/
theorem backed_append {marks entries : List Write} (K : Stores → Prop) (hK : K s)
    (hmarks : ∀ w ∈ marks, ∀ s ws, K s → entries ⊆ ws →
      Backed phase ids strict m settling s (w :: ws) ∧ K (execWrite s w))
    (hentries : ∀ w ∈ entries, Plain phase m w) :
    Along execWrite (Backed phase ids strict m settling) s (marks ++ entries) := by
  induction marks generalizing s with
  | nil => exact backed_of_plain hentries
  | cons w ws ih =>
    obtain ⟨hb, hK'⟩ := hmarks w mem_cons_self s (ws ++ entries) hK (subset_append_right ws entries)
    exact ⟨hb, ih hK' fun w' hw' => hmarks w' (mem_cons_of_mem _ hw')⟩

theorem along_accepted (hstore : cfg.rebroadcastStore = true) {txHash : String} {claimed : List SessionID}
    (hs : Secured .claim ids strict m s) (h : Accepted m s c remaining) :
    Along execWrite (ClaimP ids strict (.settling { c with claimed := claimed }) m) s
      (acceptedClaims cfg height remaining txHash) := by
  refine along_claimP hs ?_ (h.rest.foldl (spares_of_apart fun id cb hw => ?_))
  · refine backed_append (fun _ => True) trivial (fun w hw s ws _ hsub => ⟨?_, trivial⟩) fun w hw => ?_
    · obtain ⟨b, hb, rfl⟩ := mem_map.1 hw
      intro _ hm
      by_cases htx : txHash = ""
      · -- No hash is written, so nothing is marked.
        refine .inl ?_
        rw [book_onSessionClaimed] at hm
        split at hm
        · exact marked_of_hash hm nofun (by simp)
        · exact hm
      refine .inr (.inr ⟨rfl, ⟨b.msg, height, txHash⟩, hsub ?_, (h.hand b hb).built⟩)
      simp only [hstore, htx, ne_eq, not_false_eq_true, and_self, if_true]
      exact mem_map_of_mem hb
    · split at hw
      · obtain ⟨b, hb, rfl⟩ := mem_map.1 hw
        exact fun _ => (h.hand b hb).built
      · cases hw
  obtain ⟨b, hb, he | he⟩ := mem_acceptedClaims hw
  · exact (Write.session.inj he).1 ▸ h.apart b hb
  · cases he

theorem along_failed (hstore : cfg.rebroadcastStore = true) {lastErr : Submit} (hs : Secured .claim ids strict m s)
    (h : Submitting m s c g remaining)
    (hg : strict = true → nothingWasSpent lastErr = true ∨
      ∀ x ∈ g.snaps, x.claimTxHash ≠ "" ∨ x.id ∈ remaining.map (·.snap.id)) :
    Along execWrite (ClaimP ids strict (.settling c) m) s (failedClaims cfg height g remaining lastErr) := by
  refine along_claimP hs ?_ (h.rest.foldl (spares_of_apart fun id cb hw => ?_))
  · refine backed_append (fun s => ∀ x ∈ g.snaps, x.claimTxHash ≠ "" → (s.sessions x.id).claimTxHash ≠ "") h.before
      (fun w hw s ws hK hsub => ?_) fun w hw => ?_
    · split at hw
      · cases hw
      next hspent =>
        obtain ⟨x, hx, rfl⟩ := mem_map.1 hw
        refine ⟨fun hcounts hm => ?_, fun y hy hne => ?_⟩
        · have hx' : x.claimTxHash ≠ "" ∨ x.id ∈ remaining.map (·.snap.id) := by
            rcases hcounts.2 with hstrict | hbuilt
            · exact (hg hstrict).resolve_left hspent x hx
            by_cases hempty : x.claimTxHash = ""
            · exact .inr ((h.unbuilt x hx hempty).resolve_right hbuilt)
            · exact .inl hempty
          rcases hx' with hne | hmem
          · rw [book_onClaimTxError, if_pos (.inl (hK x hx hne))] at hm
            exact .inl hm
          obtain ⟨b, hb, hid⟩ := mem_map.1 hmem
          refine .inr (.inr ⟨rfl, ⟨b.msg, height, ""⟩, hsub ?_, ?_⟩)
          · rw [if_pos hstore, ← hid]
            exact mem_map.2 ⟨b, hb, rfl⟩
          · rw [← hid]
            exact (h.hand b hb).built
        by_cases hid : y.id = x.id
        · simp only [execWrite, hid, update_self, book_onClaimTxError]
          have := hK y hy hne
          rw [hid] at this
          split
          · exact this
          · exact this
        · simpa [execWrite, update_of_ne hid] using hK y hy hne
    · rw [if_pos hstore] at hw
      obtain ⟨b, hb, rfl⟩ := mem_map.1 hw
      exact fun _ => (h.hand b hb).built
  obtain ⟨x, hx, _, he⟩ | ⟨b, -, he⟩ := mem_failedClaims hw
  · exact (Write.session.inj he).1 ▸ h.apart x hx
  · cases he

section
variable (h : Submitting m s c g remaining)
include h

theorem Submitting.apart_remaining :
    ∀ x ∈ restSnaps c, x.id ∉ remaining.map (·.snap.id) := by
  intro x hx hmem
  obtain ⟨b, hb, hid⟩ := mem_map.1 hmem
  exact h.apart b.snap (h.mem b hb) (hid ▸ mem_map_of_mem hx)

/-- What the answer to a submission changes in what the stage knows. -/
theorem Submitting.recordSent {r : Submit} (hr : ∀ tx, r ≠ .accepted tx) :
    Submitting (m.recordSent .claim (remaining.map (·.snap.id)) r) s c g remaining := by
  refine
    { h with
      rest := h.rest.congr fun x hx => sent_recordSent (h.apart_remaining x hx)
      hand := fun b hb => { h.hand b hb with }
      unsent := ?_ }
  intro x hx tx
  by_cases hmem : x.id ∈ remaining.map (·.snap.id)
  · have : (m.recordSent .claim (remaining.map (·.snap.id)) r).sent .claim x.id = some r := by
      simp only [Mem.recordSent, update_self, if_pos hmem]
    rw [this]
    exact fun he => hr tx (Option.some.inj he)
  · rw [sent_recordSent hmem]
    exact h.unsent x hx tx

theorem Submitting.accepted (r : Submit) :
    Accepted (m.recordSent .claim (remaining.map (·.snap.id)) r) s c remaining :=
  ⟨h.rest.congr fun x hx => sent_recordSent (h.apart_remaining x hx), fun b hb => h.apart b.snap (h.mem b hb),
    fun b hb => ⟨(h.hand b hb).state, (h.hand b hb).hash, (h.hand b hb).built⟩⟩

theorem ready_retryClaims {r : Submit} {ctxDone : Bool} :
    ClaimReady m s (retryClaims cfg c g remaining n r ctxDone) := by
  unfold retryClaims
  split
  · split
    · exact ⟨nofun, nodup_nil⟩
    · exact h
  · exact h
end

theorem ne_of_mem_eraseIdx (hnd : (remaining.map (·.snap.id)).Nodup) {i : Nat} {b' : Built}
    (hb : remaining[i]? = some b) (hb' : b' ∈ remaining.eraseIdx i) : b'.snap.id ≠ b.snap.id := by
  obtain ⟨j, hne, hj⟩ := mem_eraseIdx_iff_getElem?.1 hb'
  intro he
  have hlt : j < (remaining.map (·.snap.id)).length := by
    rw [length_map]
    exact (List.getElem?_eq_some_iff.1 hj).1
  exact hne ((List.getElem?_inj hlt hnd).1 (by simp [List.getElem?_map, hb, hj, he]))

/-- An ejected claim: its entry is stored before its verdict is written. -/
theorem along_ejected (hstore : cfg.rebroadcastStore = true) {i : Nat} (hs : Secured .claim ids strict m s)
    (h : Submitting m s c g remaining) (hb : remaining[i]? = some b) :
    Along execWrite (ClaimP ids strict (.ejected c (withoutSession g b.snap.id) (remaining.eraseIdx i) n) m) s
      (settleEjectedClaim cfg height b) := by
  have hmem : b ∈ remaining := mem_of_getElem? hb
  have hmsg := (h.hand b hmem).built
  have hspare : ∀ id, id ≠ b.snap.id → Spares (settleEjectedClaim cfg height b) id := by
    intro id hne cb hw
    obtain he | ⟨_, he⟩ := mem_settleEjectedClaim hw
    · cases he
    · exact hne (Write.session.inj he).1
  have hkeep : ∀ x ∈ (withoutSession g b.snap.id).snaps, x ∈ g.snaps ∧ x.id ≠ b.snap.id := by
    intro x hx
    simpa [withoutSession] using hx
  have hhand : ∀ b' ∈ remaining.eraseIdx i, b' ∈ remaining ∧ b'.snap.id ≠ b.snap.id := fun b' hb' =>
    ⟨mem_of_mem_eraseIdx hb', ne_of_mem_eraseIdx h.nodup hb hb'⟩
  refine along_claimP hs ?_ ⟨h.rest.foldl fun x hx => hspare x.id fun he => ?_, fun x hx => h.apart x (hkeep x hx).1,
    fun b' hb' => ?_, fun b' hb' => ?_, ?_, fun x hx hempty => ?_, fun x hx hne => ?_,
    fun x hx => h.unsent x (hkeep x hx).1⟩
  · simp only [settleEjectedClaim, hstore, if_true]
    refine ⟨fun _ => hmsg, fun _ _ => .inr (.inl ?_), trivial⟩
    exact ⟨b.msg, ⟨b.msg, height, ""⟩, hmsg, by simp [execWrite, persistRebroadcastEntry], rfl⟩
  · exact h.apart b.snap (h.mem b hmem) (he ▸ mem_map_of_mem hx)
  · obtain ⟨hb0, hne⟩ := hhand b' hb'
    obtain ⟨hst, hh, hbuilt⟩ := h.hand b' hb0
    exact ⟨by rw [sessions_foldl (hspare _ hne), hst], by rw [sessions_foldl (hspare _ hne), hh], hbuilt⟩
  · obtain ⟨hb0, hne⟩ := hhand b' hb'
    simpa [withoutSession, hne] using h.mem b' hb0
  · exact h.nodup.sublist ((eraseIdx_sublist remaining i).map _)
  · obtain ⟨hx0, hid⟩ := hkeep x hx
    refine (h.unbuilt x hx0 hempty).imp_left fun hmem => ?_
    obtain ⟨b', hb', hid'⟩ := mem_map.1 hmem
    refine mem_map.2 ⟨b', ?_, hid'⟩
    have hne : b' ≠ b := by
      rintro rfl
      exact hid hid'.symm
    obtain ⟨j, hj⟩ := List.getElem?_of_mem hb'
    refine mem_eraseIdx_iff_getElem?.2 ⟨j, ?_, hj⟩
    rintro rfl
    exact hne (Option.some.inj (hj.symm.trans hb))
  obtain ⟨hx0, hid⟩ := hkeep x hx
  rw [sessions_foldl (hspare _ hid)]
  exact h.before x hx0 hne

theorem along_submitClaims (hstore : cfg.rebroadcastStore = true) {r : Submit} {ctxDone : Bool}
    (hs : Secured .claim ids strict m s) (h : Submitting m s c g remaining) :
    let m' := m.recordSent .claim (remaining.map (·.snap.id)) r
    let d := submitClaims cfg m' c g remaining n r ctxDone
    Along execWrite (ClaimP ids strict d.2 m') s d.1 := by
  intro m' d
  have hs' : Secured .claim ids strict m' s := hs.recordSent h.hand r
  by_cases hacc : ∃ tx, r = .accepted tx
  · obtain ⟨tx, rfl⟩ := hacc
    exact along_claimP_nil hs' (h.accepted _)
  have h' : Submitting m' s c g remaining := h.recordSent fun tx he => hacc ⟨tx, he⟩
  have hretry : Along execWrite (ClaimP ids strict (retryClaims cfg c g remaining n r ctxDone) m') s [] :=
    along_claimP_nil hs' (ready_retryClaims h')
  cases r with
  | accepted tx => exact absurd ⟨tx, rfl⟩ hacc
  | windowExpired => exact along_claimP_nil hs' h'.closing
  | windowRefused =>
    simp only [d, submitClaims]
    split
    · exact along_claimP_nil hs' h'.closing
    · exact along_deferClaims hs' h'.rest h'.apart
  | named i =>
    simp only [d, submitClaims]
    split
    next b hb =>
      split
      · exact along_ejected hstore hs' h' hb
      · exact hretry
    · exact hretry
  | _ => exact hretry

/-- The condition on a decision: a claim batch fails for good only if its whole group was built. -/
def AllBuilt : Mem → Stage → Answer → Prop
  | _, .claims (.failed _ g remaining lastErr), _ =>
    nothingWasSpent lastErr = true ∨ ∀ x ∈ g.snaps, x.claimTxHash ≠ "" ∨ x.id ∈ remaining.map (·.snap.id)
  | _, _, _ => True

theorem claims_next (hstore : cfg.rebroadcastStore = true) {a : Answer} (h : ClaimP ids strict t m s [])
    (hg : strict = true → AllBuilt m (.claims t) a) :
    Along execWrite (ClaimP ids strict (claimNext cfg m t a).2.1 (claimNext cfg m t a).2.2) s (claimNext cfg m t a).1 := by
  obtain ⟨ho, hr⟩ := h
  have hs : Secured .claim ids strict m s := ho.secured
  unfold claimNext
  split
  · split
    · exact along_claimP_nil hs hr
    · exact along_deferClaims hs hr.of_append_right hr.apart
  · split
    · split
      · exact along_claimP_nil hs hr
      · exact along_claimP_nil hs hr
    · exact along_deferClaims hs hr.of_append_right hr.apart
  · dsimp only
    split
    · exact along_claimP_nil hs hr.closing
    · exact along_claimP_nil hs hr
  · split
    · exact along_building hs hr ‹_›
    · exact along_claimP_nil hs hr
  · dsimp only
    split
    · exact along_claimP_nil hs hr.closing
    · exact along_claimP_nil hs hr
  · exact along_submitClaims hstore hs hr
  · dsimp only
    split
    · exact along_claimP_nil hs hr.closing
    · exact along_claimP_nil hs hr
  · exact along_accepted hstore hs hr
  · exact along_failed hstore hs hr hg
  · exact along_closing hs hr
  · exact along_claimP_nil hs hr.rest
  · exact along_claimP_nil hs hr
  · split
    next c _ g rest hrest =>
      have hsnaps : restSnaps c = g.snaps ++ restSnaps { c with rest := rest } := by simp [restSnaps, hrest]
      have hw : Waiting m s (restSnaps c) := hr
      rw [hsnaps] at hw
      exact along_claimP_nil hs hw
    refine along_claimP hs (backed_of_plain fun w hw => ?_) trivial
    obtain ⟨x, -, rfl⟩ := mem_map.1 hw
    exact plain_claimed x.id
  · exact along_claimP_nil hs hr

theorem ClaimReady.blocks (h : ClaimReady m s t) (blocks : Nat) : ClaimReady (happenBlocks m blocks) s t := by
  have hwait : ∀ {xs}, Waiting m s xs → Waiting (happenBlocks m blocks) s xs := fun h => h.congr fun _ _ => rfl
  have hhand : ∀ {b}, InHand m s b → InHand (happenBlocks m blocks) s b := fun h => { h with }
  have hsubmit : ∀ {c g bs}, Submitting m s c g bs → Submitting (happenBlocks m blocks) s c g bs := fun h =>
    { h with rest := hwait h.rest, hand := fun b hb => hhand (h.hand b hb) }
  cases t with
  | params | waitOpen | timeCheck | building | settling | next => exact hwait h
  | recheck | sending | ejected | failed => exact hsubmit h
  | accepted c bs tx => exact ⟨hwait h.rest, h.apart, fun b hb => hhand (h.hand b hb)⟩
  | closing c close todo => exact ⟨hwait h.rest, h.apart, h.unsent⟩
  | done => trivial

end RelayMiner.Lifecycle
