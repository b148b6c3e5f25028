import RelayMiner.Lifecycle.Recovery
/-!
# No claim is left behind

A session in claiming or proving moves only when its window closes, unless the
cycle that put it there hands it on: sent, kept for a resend, settled, or moved
back to where the lifecycle asks for it again. Along a claim cycle every session
is still ahead, or handed on, or one of the few that are left alone.
-/
open RelayMiner.Lib RelayMiner.Session

namespace RelayMiner.Lifecycle

open List

/-- In claiming, or proving, with nothing sent and nothing kept to send. -/
def Stuck : Phase → Stores → SessionID → Prop
  | .claim, s, id =>
    (s.sessions id).state = .claiming ∧ (s.sessions id).claimTxHash = "" ∧ s.entries .claim id = none
  | .proof, s, id =>
    (s.sessions id).state = .proving ∧ (s.sessions id).proofTxHash = "" ∧ s.entries .proof id = none

/-! ## What the writes of a cycle do -/

def Callback.opens : Callback → Bool
  | .claiming | .proving => true
  | _ => false

/-- No callback of a cycle takes a session into claiming or proving, and only one in claiming goes to active. A hash is
not lost again, but for the proof's to a submission without one. -/
theorem kept_of_book {c : Callback} (hc : c.opens = false) (r : SessionSnapshot) :
    (((c.book r).state = .claiming → r.state = .claiming) ∧ ((c.book r).state = .proving → r.state = .proving) ∧
      ((c.book r).state = .active → r.state = .active ∨ r.state = .claiming)) ∧
    ((c.book r).claimTxHash = "" → r.claimTxHash = "") ∧
      (c ≠ .onProofSubmitted "" → (c.book r).proofTxHash = "" → r.proofTxHash = "") := by
  cases c with
  | claiming | proving => cases hc
  | onSessionClaimed root tx =>
    rw [book_onSessionClaimed]; split <;> by_cases htx : tx = "" <;> simp +contextual [htx]
  | claimed => rw [book_claimed]; split <;> simp +contextual
  | onClaimDeferred => rw [book_onClaimDeferred]; split <;> simp +contextual [*]
  | onClaimTxError v => rw [book_onClaimTxError]; split <;> simp +contextual
  | onClaimWindowClosed => rw [book_onClaimWindowClosed]; split <;> simp +contextual
  | onClaimSkipped => rw [book_onClaimSkipped]; simp
  | onClaimObservedOnChain root tx =>
    rw [book_onClaimObservedOnChain]; split <;> by_cases htx : tx = "" <;> simp +contextual [htx]
  | onClaimMissing => rw [book_onClaimMissing]; split <;> simp +contextual
  | onProofSubmitted tx => rw [book_onProofSubmitted]; simp +contextual
  | onProofTxError => rw [book_onProofTxError]; split <;> simp +contextual
  | onProofDeferred => rw [book_onProofDeferred]; split <;> simp +contextual
  | onProbabilisticProved => rw [book_onProbabilisticProved]; simp
  | onProofWindowClosed => rw [book_onProofWindowClosed]; simp
  | onSessionProved => rw [book_onSessionProved]; simp

def Write.Mild (id : SessionID) : Write → Prop
  | .session id' c => id = id' → c.opens = false ∧ c ≠ .onProofSubmitted ""
  | .put _ _ _ | .deleteTree _ => True

def Frees (phase : Phase) (id : SessionID) (w : Write) : Prop := ∀ s, ¬ Stuck phase (execWrite s w) id

def Callback.handsOn : Phase → Callback → Bool
  | .claim, .onClaimDeferred | .claim, .onClaimTxError _ | .claim, .onSessionClaimed _ _ | .claim, .onClaimSkipped => true
  | .proof, .onProofDeferred | .proof, .onProofTxError | .proof, .onProbabilisticProved | .proof, .onProofWindowClosed
  | .proof, .onSessionProved | .proof, .onClaimMissing => true
  | _, _ => false

variable {phase : Phase} {s : Stores} {id : SessionID} {cfg : Config} {m : Mem} {ws : List Write} {c : ClaimCtx}
  {g : Group} {remaining : List Built} {height : Nat}

attribute [local simp] execWrite

theorem sessions_session (s : Stores) (id id' : SessionID) (c : Callback) :
    (execWrite s (.session id' c)).sessions id = if id = id' then c.book (s.sessions id) else s.sessions id := by
  by_cases h : id = id'
  · subst h
    simp
  · simp [h]

theorem not_stuck_write {w : Write} (hw : w.Mild id) (h : ¬ Stuck phase s id) : ¬ Stuck phase (execWrite s w) id := by
  cases w with
  | deleteTree id' => cases phase <;> exact h
  | put phase' id' e =>
    -- An entry that is stored is not taken away.
    have hentry : (execWrite s (.put phase' id' e)).entries phase id = none → s.entries phase id = none := by
      by_cases hp : phase = phase'
      · subst hp
        by_cases hid : id = id'
        · subst hid
          simp
        · simp [Function.update_of_ne hid]
      · simp [Function.update_of_ne hp]
    cases phase with
    | claim | proof => exact fun ⟨hs, hh, he⟩ => h ⟨hs, hh, hentry he⟩
  | session id' c =>
    by_cases hid : id = id'
    · obtain ⟨hc, hp⟩ := hw hid
      obtain ⟨hstate, hhash⟩ := kept_of_book hc (s.sessions id)
      cases phase with
      | claim =>
        rintro ⟨hs, hh, he⟩
        rw [sessions_session, if_pos hid] at hs hh
        exact h ⟨hstate.1 hs, hhash.1 hh, he⟩
      | proof =>
        rintro ⟨hs, hh, he⟩
        rw [sessions_session, if_pos hid] at hs hh
        exact h ⟨hstate.2.1 hs, hhash.2 hp hh, he⟩
    cases phase with
    | claim | proof =>
      rintro ⟨hs, hh, he⟩
      rw [sessions_session, if_neg hid] at hs hh
      exact h ⟨hs, hh, he⟩

/-- A queue of such writes keeps a session off, and one that frees it in between is enough. -/
theorem not_stuck_foldl (hws : ∀ w ∈ ws, w.Mild id) (h : ¬ Stuck phase s id ∨ ∃ w ∈ ws, Frees phase id w) :
    ¬ Stuck phase (ws.foldl execWrite s) id := by
  induction ws generalizing s with
  | nil =>
    rcases h with h | ⟨w, hw, -⟩
    · exact h
    · cases hw
  | cons w ws ih =>
    refine ih (fun w' hw' => hws w' (.tail w hw')) ?_
    rcases h with h | ⟨w', hw', hf⟩
    · exact .inl (not_stuck_write (hws w (.head ws)) h)
    rcases mem_cons.1 hw' with rfl | hw'
    · exact .inl (hf s)
    · exact .inr ⟨w', hw', hf⟩

theorem frees_put (e : Entry) : Frees phase id (.put phase id e) := by
  intro s
  cases phase <;> simp [Stuck]

theorem frees_session {c : Callback} (hc : c.handsOn phase = true) : Frees phase id (.session id c) := by
  intro s
  cases phase with
  | claim =>
    rintro ⟨hs, hh, -⟩
    rw [sessions_session, if_pos rfl] at hs hh
    cases c with
    | onClaimDeferred =>
      rw [book_onClaimDeferred] at hs hh
      split at hs
      · cases hs
      next hno =>
        rw [if_neg hno] at hh
        exact hno ⟨hs, hh⟩
    | onClaimTxError v =>
      rw [book_onClaimTxError] at hs hh
      split at hs
      next hkeep =>
        rw [if_pos hkeep] at hh
        simp [hs, hh, SessionState.holdsClaimOnChain] at hkeep
      · cases hs
    | onSessionClaimed root tx =>
      rw [book_onSessionClaimed] at hs
      split at hs
      · cases hs
      next hno => simp [hs, canReactivateClaimed] at hno
    | onClaimSkipped =>
      cases hs
    | _ => cases hc
  | proof =>
    rintro ⟨hs, hh, -⟩
    rw [sessions_session, if_pos rfl] at hs hh
    cases c with
    | onProofDeferred =>
      rw [book_onProofDeferred] at hs hh
      split at hs
      next hkeep =>
        rw [if_pos hkeep] at hh
        simp [hs, hh, SessionState.isTerminal] at hkeep
      · cases hs
    | onProofTxError =>
      rw [book_onProofTxError] at hs hh
      split at hs
      next hkeep =>
        rw [if_pos hkeep] at hh
        simp [hs, hh, SessionState.isSuccess] at hkeep
      · cases hs
    | onProbabilisticProved | onProofWindowClosed | onSessionProved =>
      cases hs
    | onClaimMissing =>
      rw [book_onClaimMissing] at hs
      split at hs
      next hkeep => simp [hs, SessionState.isSuccess] at hkeep
      · cases hs
    | _ => cases hc

def Within : Phase → SessionState → Prop
  | .claim, state => state ≠ .proving
  | .proof, state => state ≠ .claiming ∧ state ≠ .active

def Write.opens : Write → Bool
  | .session _ c => c.opens
  | .put _ _ _ | .deleteTree _ => false

theorem Write.Mild.opens {w : Write} (h : ∀ id, w.Mild id) : w.opens = false := by
  cases w with
  | session id' c => exact (h id' rfl).1
  | put | deleteTree => rfl

theorem within_foldl (hws : ∀ w ∈ ws, w.opens = false) (h : Within phase (s.sessions id).state) :
    Within phase ((ws.foldl execWrite s).sessions id).state := by
  induction ws generalizing s with
  | nil => exact h
  | cons w ws ih =>
    refine ih (fun w' hw' => hws w' (.tail w hw')) ?_
    cases w with
    | put | deleteTree => exact h
    | session id' c =>
      obtain ⟨hstate, -⟩ := kept_of_book (hws _ (.head ws)) (s.sessions id)
      rw [sessions_session]
      split
      · cases phase with
        | claim => exact fun hp => h (hstate.2.1 hp)
        | proof => exact ⟨fun hp => h.1 (hstate.1 hp), fun hp => (hstate.2.2 hp).elim h.2 h.1⟩
      · exact h

/-! ## The claim cycle -/

/-- The cycle lasts: its context does not end, the chain calls a claim late only once our own height says so
too, and what was not spent is kept where it can be sent from. -/
def Lasts (cfg : Config) (m : Mem) : Stage → Answer → Prop
  | .claims (.sending _ g _ _), .submit r ctxDone =>
    ctxDone = false ∧ (r = .windowExpired → (cfg.windows g.endHeight).claimClose ≤ m.height)
  | .proofs (.sending _ _ _ _), .submit _ ctxDone => ctxDone = false
  | .claims (.failed _ _ _ lastErr), _ | .proofs (.failed _ _ _ lastErr), _ =>
    nothingWasSpent lastErr = true → cfg.rebroadcastStore = true
  | _, _ => True

/-- The sessions a cycle has nothing to send for and does not move: a build that failed, a tree without relays,
a proof the chain has judged invalid. -/
def LeftAlone (m : Mem) : Phase → SessionID → Prop
  | .claim, id => m.claimBuild id = some .failed ∨ m.claimBuild id = some .emptyTree
  | .proof, id => m.proofBuild id = some none ∨ m.judged id = some .invalid

def Late (cfg : Config) (m : Mem) (x : Snap) : Prop := (cfg.windows x.endHeight).claimClose ≤ m.height + 2

def ClaimStage.groups : ClaimStage → List Group
  | .params c g | .waitOpen c g | .timeCheck c g | .building c g | .recheck c g _ | .sending c g _ _
  | .ejected c g _ _ | .failed c g _ _ => g :: c.rest
  | .accepted c _ _ | .closing c _ _ | .settling c | .next c => c.rest
  | .done => []

def ClaimStage.Ahead (x : Snap) : ClaimStage → Prop
  | .params c g | .waitOpen c g | .timeCheck c g | .building c g => x ∈ g.snaps ∨ x ∈ restSnaps c
  | .recheck c g remaining | .sending c g remaining _ | .ejected c g remaining _ | .failed c g remaining _ =>
    (x ∈ g.snaps ∧ x.id ∈ remaining.map (·.snap.id)) ∨ x ∈ restSnaps c
  | .accepted c remaining _ => x.id ∈ remaining.map (·.snap.id) ∨ x ∈ restSnaps c
  | .closing c _ _ | .settling c | .next c => x ∈ restSnaps c
  | .done => False

def ClaimHandled (cfg : Config) (m : Mem) (s : Stores) (x : Snap) : Prop :=
  LeftAlone m .claim x.id ∨ Late cfg m x ∨ ¬ Stuck .claim s x.id

structure ClaimsKept (cfg : Config) (batch : List Snap) (s : Stores) (t : ClaimStage) (m : Mem) : Prop where
  mem : ∀ g ∈ t.groups, ∀ y ∈ g.snaps, y ∈ batch ∧ y.endHeight = g.endHeight
  within : ∀ x ∈ batch, Within .claim (s.sessions x.id).state
  before : ∀ x ∈ batch, x.claimTxHash ≠ "" → ¬ Stuck .claim s x.id
  all : ∀ x ∈ batch, t.Ahead x ∨ ClaimHandled cfg m s x

theorem mild_deferClaims (xs : List Snap) : ∀ w ∈ deferClaims xs, w.Mild id := by
  intro w hw
  obtain ⟨x, -, rfl⟩ := mem_map.1 hw
  exact fun _ => ⟨rfl, nofun⟩

theorem mild_skippedWrites (r : Snap × ClaimBuild) : ∀ w ∈ skippedWrites r, w.Mild id := by
  intro w hw
  obtain ⟨-, rfl | rfl⟩ := mem_skippedWrites hw
  · trivial
  · exact fun _ => ⟨rfl, nofun⟩

theorem mild_settleEjectedClaim (height : Nat) (b : Built) : ∀ w ∈ settleEjectedClaim cfg height b, w.Mild id := by
  intro w hw
  obtain rfl | ⟨v, rfl⟩ := mem_settleEjectedClaim hw
  · trivial
  · exact fun _ => ⟨rfl, nofun⟩

theorem mild_markClaimWindowClosed (height close : Nat) (x : Snap) (q : ClaimQuery) :
    ∀ w ∈ markClaimWindowClosed height close x q, w.Mild id := by
  intro w hw
  obtain rfl | ⟨root, rfl⟩ := mem_markClaimWindowClosed hw
  · exact fun _ => ⟨rfl, nofun⟩
  · exact fun _ => ⟨rfl, nofun⟩

theorem mild_acceptedClaims (height : Nat) (remaining : List Built) (tx : String) :
    ∀ w ∈ acceptedClaims cfg height remaining tx, w.Mild id := by
  intro w hw
  obtain ⟨b, -, rfl | rfl⟩ := mem_acceptedClaims hw
  · exact fun _ => ⟨rfl, nofun⟩
  · trivial

theorem mild_failedClaims (height : Nat) (g : Group) (remaining : List Built) (r : Submit) :
    ∀ w ∈ failedClaims cfg height g remaining r, w.Mild id := by
  intro w hw
  obtain ⟨x, -, v, rfl⟩ | ⟨b, -, rfl⟩ := mem_failedClaims hw
  · exact fun _ => ⟨rfl, nofun⟩
  · trivial

variable {batch : List Snap} {t t' : ClaimStage} {m' : Mem}

/-- The step lemma: a session that was ahead, or left alone, stays so, is late, or is freed by the writes. -/
theorem ClaimsKept.foldl (h : ClaimsKept cfg batch s t m) (hws : ∀ id, ∀ w ∈ ws, w.Mild id)
    (hheight : m.height ≤ m'.height)
    (hgroups : ∀ g ∈ t'.groups, ∃ g' ∈ t.groups, g.endHeight = g'.endHeight ∧ ∀ y ∈ g.snaps, y ∈ g'.snaps)
    (hall : ∀ x ∈ batch, t.Ahead x ∨ LeftAlone m .claim x.id →
      t'.Ahead x ∨ LeftAlone m' .claim x.id ∨ Late cfg m' x ∨ ¬ Stuck .claim s x.id ∨ ∃ w ∈ ws, Frees .claim x.id w) :
    ClaimsKept cfg batch (ws.foldl execWrite s) t' m' := by
  refine ⟨fun g hg y hy => ?_, fun x hx => ?_, fun x hx hh => not_stuck_foldl (hws _) (.inl (h.before x hx hh)),
    fun x hx => ?_⟩
  · obtain ⟨g', hg', hend, hsub⟩ := hgroups g hg
    obtain ⟨hb, he⟩ := h.mem g' hg' y (hsub y hy)
    exact ⟨hb, he.trans hend.symm⟩
  · exact within_foldl (fun w hw => Write.Mild.opens fun id => hws id w hw) (h.within x hx)
  have hnow : t.Ahead x ∨ LeftAlone m .claim x.id → t'.Ahead x ∨ ClaimHandled cfg m' (ws.foldl execWrite s) x :=
    fun ha => (hall x hx ha).imp_right (.imp_right (.imp_right (not_stuck_foldl (hws _))))
  rcases h.all x hx with ha | ha | hl | hn
  · exact hnow (.inl ha)
  · exact hnow (.inr ha)
  · have : Late cfg m' x := by
      unfold Late at hl ⊢
      omega
    exact .inr (.inr (.inl this))
  · exact .inr (.inr (.inr (not_stuck_foldl (hws _) (.inl hn))))

theorem ClaimsKept.keep (h : ClaimsKept cfg batch s t m) (hws : ∀ id, ∀ w ∈ ws, w.Mild id)
    (hheight : m.height ≤ m'.height) (hbuilds : m'.claimBuild = m.claimBuild)
    (hgroups : ∀ g ∈ t'.groups, ∃ g' ∈ t.groups, g.endHeight = g'.endHeight ∧ ∀ y ∈ g.snaps, y ∈ g'.snaps)
    (hall : ∀ x ∈ batch, t.Ahead x →
      t'.Ahead x ∨ Late cfg m' x ∨ ¬ Stuck .claim s x.id ∨ ∃ w ∈ ws, Frees .claim x.id w) :
    ClaimsKept cfg batch (ws.foldl execWrite s) t' m' := by
  refine h.foldl hws hheight hgroups fun x hx ha => ?_
  rcases ha with ha | ha
  · rcases hall x hx ha with h' | h'
    · exact .inl h'
    · exact .inr (.inr h')
  refine .inr (.inl ?_)
  unfold LeftAlone at ha ⊢
  rwa [hbuilds]

theorem groups_of_subset {gs gs' : List Group} (h : ∀ g ∈ gs', g ∈ gs) :
    ∀ g ∈ gs', ∃ g' ∈ gs, g.endHeight = g'.endHeight ∧ ∀ y ∈ g.snaps, y ∈ g'.snaps :=
  fun g hg => ⟨g, h g hg, rfl, fun _ hy => hy⟩

theorem frees_deferClaims {x : Snap} {xs : List Snap} (hx : x ∈ xs) : ∃ w ∈ deferClaims xs, Frees .claim x.id w :=
  ⟨_, mem_map_of_mem hx, frees_session rfl⟩

section
variable (h : ClaimsKept cfg batch s t m) (hheight : m.height ≤ m'.height) (hbuilds : m'.claimBuild = m.claimBuild)
include h hheight hbuilds

theorem ClaimsKept.deferred (hgroups : t.groups = g :: c.rest)
    (hahead : ∀ x, t.Ahead x → x ∈ g.snaps ∨ x ∈ restSnaps c) :
    ClaimsKept cfg batch ((deferClaims g.snaps).foldl execWrite s) (.next c) m' := by
  refine h.keep (fun _ => mild_deferClaims _) hheight hbuilds (groups_of_subset fun g' hg' => hgroups ▸ .tail g hg') ?_
  intro x _ ha
  rcases hahead x ha with hx | hx
  · exact .inr (.inr (.inr (frees_deferClaims hx)))
  · exact .inl hx

theorem ClaimsKept.closing {todo : List Snap} (hgroups : t.groups = g :: c.rest)
    (hahead : ∀ x, t.Ahead x → x ∈ g.snaps ∨ x ∈ restSnaps c)
    (hlate : (cfg.windows g.endHeight).claimClose ≤ m'.height + 2) {close : Nat} :
    ClaimsKept cfg batch s (.closing c close todo) m' := by
  refine h.keep (nofun : ∀ id, ∀ w ∈ ([] : List Write), w.Mild id) hheight hbuilds
    (groups_of_subset fun g' hg' => hgroups ▸ .tail g hg') ?_
  intro x _ ha
  rcases hahead x ha with hx | hx
  · have hend : x.endHeight = g.endHeight := (h.mem g (hgroups ▸ .head _) x hx).2
    refine .inr (.inl ?_)
    unfold Late
    rwa [hend]
  · exact .inl hx

theorem ClaimsKept.stay (hgroups : ∀ g ∈ t'.groups, g ∈ t.groups)
    (hahead : ∀ x, t.Ahead x → t'.Ahead x) : ClaimsKept cfg batch s t' m' :=
  h.keep (nofun : ∀ id, ∀ w ∈ ([] : List Write), w.Mild id) hheight hbuilds (groups_of_subset hgroups)
    fun x _ ha => .inl (hahead x ha)
end

theorem ClaimsKept.built {results : List (Snap × ClaimBuild)} (h : ClaimsKept cfg batch s (.building c g) m)
    (hid : ∀ x ∈ batch, ∀ y ∈ batch, x.id = y.id → x = y) (hperm : (results.map (·.1)).Perm (candidates g)) :
    ClaimsKept cfg batch ((results.flatMap skippedWrites).foldl execWrite s)
      (.recheck c g (results.filterMap builtOf)) (m.recordClaimBuilds results) := by
  have hmild : ∀ id, ∀ w ∈ results.flatMap skippedWrites, w.Mild id := by
    intro id w hw
    obtain ⟨r, -, hw⟩ := mem_flatMap.1 hw
    exact mild_skippedWrites r w hw
  refine h.foldl hmild (Nat.le_refl _) (groups_of_subset fun _ hg => hg) fun x hx ha => ?_
  cases hf : results.find? (·.1.id = x.id) with
  | some r =>
    -- The session was built in this group: its own result decides.
    have hr : r ∈ results := mem_of_find?_eq_some hf
    have hg : r.1 ∈ g.snaps := mem_of_mem_filter (hperm.mem_iff.1 (mem_map_of_mem hr))
    have hrx : r.1 = x := hid _ (h.mem g (.head _) _ hg).1 x hx (by simpa using List.find?_some hf)
    obtain ⟨y, b⟩ := r
    obtain rfl : y = x := hrx
    have hb : (m.recordClaimBuilds results).claimBuild y.id = some b := by simp [Mem.recordClaimBuilds, hf]
    cases b with
    | built root msg =>
      have hmem : (⟨y, root, msg⟩ : Built) ∈ results.filterMap builtOf := mem_filterMap.2 ⟨_, hr, rfl⟩
      exact .inl (.inl ⟨hg, mem_map_of_mem hmem⟩)
    | failed => exact .inr (.inl (.inl hb))
    | emptyTree => exact .inr (.inl (.inr hb))
    | unprofitable | cuprMismatch =>
      exact .inr (.inr (.inr (.inr ⟨_, mem_flatMap.2 ⟨_, hr, .tail _ (.head _)⟩, frees_session rfl⟩)))
  | none =>
    have hno : ∀ r ∈ results, r.1.id ≠ x.id := by simpa using List.find?_eq_none.1 hf
    rcases ha with (hg | hrest) | ha
    · -- Not a candidate: its claim was submitted before.
      have hhash : x.claimTxHash ≠ "" := by
        intro hh
        obtain ⟨r, hr, hrx⟩ := mem_map.1 (hperm.mem_iff.2 (mem_filter.2 ⟨hg, by simpa using hh⟩))
        exact hno r hr (by rw [hrx])
      exact .inr (.inr (.inr (.inl (h.before x hx hhash))))
    · exact .inl (.inr hrest)
    · refine .inr (.inl ?_)
      simpa [LeftAlone, Mem.recordClaimBuilds, hf] using ha

theorem mem_eraseIdx_of_ne {i : Nat} {b : Built} (hb : remaining[i]? = some b) (hx : id ∈ remaining.map (·.snap.id))
    (hne : id ≠ b.snap.id) : id ∈ (remaining.eraseIdx i).map (·.snap.id) := by
  obtain ⟨b', hb', rfl⟩ := mem_map.1 hx
  obtain ⟨j, hj⟩ := mem_iff_getElem?.1 hb'
  refine mem_map_of_mem (mem_eraseIdx_iff_getElem?.2 ⟨j, ?_, hj⟩)
  rintro rfl
  rw [hb] at hj
  cases hj
  exact hne rfl

theorem ClaimsKept.eject {n i : Nat} {b : Built} (h : ClaimsKept cfg batch s (.sending c g remaining n) m)
    (hb : remaining[i]? = some b) (hheight : m.height ≤ m'.height) (hbuilds : m'.claimBuild = m.claimBuild) :
    ClaimsKept cfg batch ((settleEjectedClaim cfg height b).foldl execWrite s)
      (.ejected c (withoutSession g b.snap.id) (remaining.eraseIdx i) n) m' := by
  refine h.keep (fun _ => mild_settleEjectedClaim height b) hheight hbuilds ?_ ?_
  · intro g' hg'
    rcases mem_cons.1 hg' with rfl | hg'
    · exact ⟨g, .head _, rfl, fun y hy => mem_of_mem_filter hy⟩
    · exact ⟨g', .tail _ hg', rfl, fun _ hy => hy⟩
  rintro x - (⟨hg, hrem⟩ | hrest)
  · by_cases hxb : x.id = b.snap.id
    · refine .inr (.inr (.inr ?_))
      unfold settleEjectedClaim
      split
      · exact ⟨_, .tail _ (.head _), hxb ▸ frees_session rfl⟩
      · exact ⟨_, .head _, hxb ▸ frees_session rfl⟩
    · exact .inl (.inl ⟨mem_filter.2 ⟨hg, by simpa using hxb⟩, mem_eraseIdx_of_ne hb hrem hxb⟩)
  · exact .inl (.inr hrest)

theorem ClaimsKept.accept {tx : String} (h : ClaimsKept cfg batch s (.accepted c remaining tx) m)
    (claimed : List SessionID) :
    ClaimsKept cfg batch ((acceptedClaims cfg height remaining tx).foldl execWrite s)
      (.settling { c with claimed := claimed }) m := by
  refine h.keep (fun _ => mild_acceptedClaims height remaining tx) (Nat.le_refl _) rfl (groups_of_subset fun _ hg => hg) ?_
  rintro x - (hrem | hx)
  · obtain ⟨b, hb, hbx⟩ := mem_map.1 hrem
    refine .inr (.inr (.inr ⟨_, mem_append_left _ (mem_map_of_mem hb), ?_⟩))
    exact hbx ▸ frees_session rfl
  · exact .inl hx

theorem ClaimsKept.fail {r : Submit} (h : ClaimsKept cfg batch s (.failed c g remaining r) m)
    (hkept : nothingWasSpent r = true → cfg.rebroadcastStore = true) :
    ClaimsKept cfg batch ((failedClaims cfg height g remaining r).foldl execWrite s) (.settling c) m := by
  refine h.keep (fun _ => mild_failedClaims height g remaining r) (Nat.le_refl _) rfl
    (groups_of_subset fun g' hg' => .tail g hg') ?_
  rintro x - (⟨hg, hrem⟩ | hx)
  · refine .inr (.inr (.inr ?_))
    unfold failedClaims
    by_cases hr : nothingWasSpent r = true
    · rw [if_pos hr, if_pos (hkept hr)]
      obtain ⟨b, hb, hbx⟩ := mem_map.1 hrem
      exact ⟨_, mem_append_right _ (mem_map_of_mem hb), hbx ▸ frees_put _⟩
    · rw [if_neg hr]
      exact ⟨_, mem_append_left _ (mem_map_of_mem hg), frees_session rfl⟩
  · exact .inl hx

theorem ClaimsKept.submit {n : Nat} {r : Submit} {ctxDone : Bool}
    (h : ClaimsKept cfg batch s (.sending c g remaining n) m)
    (hg : Lasts cfg m (.claims (.sending c g remaining n)) (.submit r ctxDone)) (hheight : m'.height = m.height)
    (hbuilds : m'.claimBuild = m.claimBuild) :
    ClaimsKept cfg batch ((submitClaims cfg m' c g remaining n r ctxDone).1.foldl execWrite s)
      (submitClaims cfg m' c g remaining n r ctxDone).2 m' := by
  obtain ⟨rfl, hexpired⟩ := hg
  have hle : m.height ≤ m'.height := Nat.le_of_eq hheight.symm
  have hahead : ∀ x, (ClaimStage.sending c g remaining n).Ahead x → x ∈ g.snaps ∨ x ∈ restSnaps c :=
    fun x hx => hx.imp_left And.left
  -- Another attempt, or none left: the batch is as it was.
  have hretry : ∀ r, ClaimsKept cfg batch s (retryClaims cfg c g remaining n r false) m' := by
    intro r
    unfold retryClaims
    split
    · exact h.stay hle hbuilds (fun _ hg => hg) fun _ hx => hx
    · exact h.stay hle hbuilds (fun _ hg => hg) fun _ hx => hx
  unfold submitClaims
  dsimp only
  split
  · exact h.stay hle hbuilds (fun _ hg => .tail _ hg) fun _ hx => hx.imp_left And.right
  · have := hexpired rfl
    exact h.closing hle hbuilds rfl hahead (by omega)
  · split
    · exact h.closing hle hbuilds rfl hahead (by omega)
    · exact h.deferred hle hbuilds rfl hahead
  · split
    next hb =>
      split
      · exact h.eject hb hle hbuilds
      · exact hretry _
    · exact hretry _
  · exact hretry _

theorem claimsKept_next {a : Answer} (hid : ∀ x ∈ batch, ∀ y ∈ batch, x.id = y.id → x = y)
    (h : ClaimsKept cfg batch s t m) (hg : Lasts cfg m (.claims t) a) :
    ClaimsKept cfg batch ((claimNext cfg m t a).1.foldl execWrite s) (claimNext cfg m t a).2.1
      (claimNext cfg m t a).2.2 := by
  unfold claimNext
  split
  · split
    · exact h.stay (Nat.le_refl _) rfl (fun _ hg => hg) fun _ hx => hx
    · exact h.deferred (Nat.le_refl _) rfl rfl fun _ hx => hx
  · split
    · split
      · exact h.stay (Nat.le_refl _) rfl (fun _ hg => hg) fun _ hx => hx
      · exact h
    · exact h.deferred (Nat.le_refl _) rfl rfl fun _ hx => hx
  · dsimp only
    split
    · exact h.closing (Nat.le_refl _) rfl rfl (fun _ hx => hx) ‹_›
    · exact h.stay (Nat.le_refl _) rfl (fun _ hg => hg) fun _ hx => hx
  · split
    · exact h.built hid ‹_›
    · exact h
  · dsimp only
    split
    · exact h.closing (Nat.le_refl _) rfl rfl (fun _ hx => hx.imp_left And.left) (by omega)
    · exact h.stay (Nat.le_refl _) rfl (fun _ hg => hg) fun _ hx => hx
  · exact h.submit hg rfl rfl
  · dsimp only
    split
    · exact h.closing (Nat.le_refl _) rfl rfl (fun _ hx => hx.imp_left And.left) (by omega)
    · exact h.stay (Nat.le_refl _) rfl (fun _ hg => hg) fun _ hx => hx
  · exact h.accept _
  · exact h.fail hg
  · exact h.keep (fun _ => mild_markClaimWindowClosed _ _ _ _) (Nat.le_refl _) rfl (groups_of_subset fun _ hg => hg)
      fun _ _ hx => .inl hx
  · exact h.stay (Nat.le_refl _) rfl (fun _ hg => hg) fun _ hx => hx
  · exact h.stay (Nat.le_refl _) rfl (fun _ hg => hg) fun _ hx => hx
  · split
    next c _ g rest hrest =>
      refine h.stay (Nat.le_refl _) rfl (fun g' hg' => ?_) fun x hx => ?_
      · exact (hrest ▸ hg' : g' ∈ c.rest)
      have hx : x ∈ restSnaps c := hx
      rw [restSnaps, hrest] at hx
      simpa [restSnaps, ClaimStage.Ahead] using hx
    next c _ hrest =>
      refine h.keep (fun id w hw => ?_) (Nat.le_refl _) rfl (by rintro _ ⟨⟩) fun x _ hx => ?_
      · obtain ⟨y, -, rfl⟩ := mem_map.1 hw
        exact fun _ => ⟨rfl, by simp⟩
      have hx : x ∈ restSnaps c := hx
      rw [restSnaps, hrest] at hx
      cases hx
  · exact h

end RelayMiner.Lifecycle
