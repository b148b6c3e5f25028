import RelayMiner.Lifecycle.ClaimsKept
import RelayMiner.Lifecycle.History
/-!
# What one cycle may still do to a session

The invariant of a history rests on what each running cycle can still do to the
session: hand it back, store its message, delete its tree. `Outlook` is what a
cycle relies on about the rest of the world when it does; a cycle that has
nothing to do with the session relies on little.
-/
open RelayMiner.Lib RelayMiner.Session

namespace RelayMiner.Lifecycle

open List

structure Outlook where
  sighted : Prop
  kept : Prop
  free : Prop
  proofSent : Prop
  past : Prop
  booked : Prop

structure Outlook.Le (o o' : Outlook) : Prop where
  sighted : o.sighted → o'.sighted
  kept : o.kept → o'.kept
  free : o.free → o'.free
  proofSent : o.proofSent → o'.proofSent
  past : o.past → o'.past
  booked : o.booked → o'.booked

variable {cfg : Config} {o o' : Outlook} {id : SessionID} {t : ClaimStage} {ws : List Write} {i : SessionID}
  {w : Write} {c : ClaimCtx} {g : Group} {remaining : List Built} {height n : Nat} {ctxDone : Bool}
  {u u' : ProofStage} {x : Snap} {msg : Bytes}

/-! ## Writes that matter -/

def Write.Defers (id : SessionID) (w : Write) : Prop := w = .session id .onClaimDeferred

def Write.Puts (id : SessionID) (w : Write) : Prop := ∃ e, w = .put .claim id e

def Write.Deletes (id : SessionID) (w : Write) : Prop := w = .deleteTree id

def Write.Opens (id : SessionID) (w : Write) : Prop := ∃ c, w = .session id c ∧ c.opens = true

def Write.Touches (id : SessionID) (w : Write) : Prop := w.Defers id ∨ w.Puts id ∨ w.Deletes id ∨ w.Opens id

/-! ## A claim cycle -/

def ClaimStage.ids (t : ClaimStage) : List SessionID := (t.groups.flatMap (·.snaps)).map (·.id)

def ClaimStage.inHand : ClaimStage → List SessionID
  | .recheck _ _ remaining | .sending _ _ remaining _ | .ejected _ _ remaining _ | .accepted _ remaining _
  | .failed _ _ remaining _ => remaining.map (·.snap.id)
  | _ => []

def ClaimStage.restIds : ClaimStage → List SessionID
  | .params c _ | .waitOpen c _ | .timeCheck c _ | .building c _ | .recheck c _ _ | .sending c _ _ _ | .ejected c _ _ _
  | .accepted c _ _ | .failed c _ _ _ | .closing c _ _ | .settling c | .next c => (restSnaps c).map (·.id)
  | .done => []

def ClaimStage.Held (id : SessionID) (t : ClaimStage) : Prop := id ∈ t.ids ∨ id ∈ t.inHand

def ClaimStage.Early (id : SessionID) : ClaimStage → Prop
  | .params c g | .waitOpen c g | .timeCheck c g | .building c g | .recheck c g _ =>
    id ∈ g.snaps.map (·.id) ∨ id ∈ (restSnaps c).map (·.id)
  | .sending c g remaining n | .ejected c g remaining n =>
    (id ∈ g.snaps.map (·.id) ∧ (n = 1 ∨ id ∉ remaining.map (·.snap.id))) ∨ id ∈ (restSnaps c).map (·.id)
  | .accepted c _ _ | .failed c _ _ _ | .closing c _ _ | .settling c | .next c => id ∈ (restSnaps c).map (·.id)
  | .done => False

def QueueOk (o : Outlook) (id : SessionID) (t : ClaimStage) : List Write → Prop
  | [] => True
  | w :: ws =>
    (w.Defers id → o.sighted ∧ ¬ t.Held id ∧ ∀ w' ∈ ws, ¬ w'.Touches id) ∧
    (w.Puts id → o.kept ∧ ¬ t.Early id ∧ ∀ w' ∈ ws, ¬ w'.Defers id ∧ ¬ w'.Deletes id) ∧
    (w.Deletes id → o.free ∧ id ∉ t.inHand ∧ ∀ w' ∈ ws, ¬ w'.Touches id) ∧
    ¬ w.Opens id ∧ QueueOk o id t ws

def ClaimStage.attempt : ClaimStage → Nat
  | .sending _ _ _ n | .ejected _ _ _ n => n
  | _ => 1

structure ClaimOk (o : Outlook) (id : SessionID) (t : ClaimStage) (queue : List Write) : Prop where
  nodup : t.ids.Nodup
  apart : id ∈ t.inHand → id ∉ t.restIds
  attempt : 1 ≤ t.attempt
  early : t.Early id → o.sighted
  hand : id ∈ t.inHand → o.kept
  booked : t.Held id ∨ (∃ w ∈ queue, w.Touches id) → o.booked
  queue : QueueOk o id t queue

theorem ids_cons (t : ClaimStage) (g : Group) (c : ClaimCtx) (h : t.groups = g :: c.rest) :
    t.ids = g.snaps.map (·.id) ++ (restSnaps c).map (·.id) := by
  simp [ClaimStage.ids, h, restSnaps]

theorem ids_rest (t : ClaimStage) (c : ClaimCtx) (h : t.groups = c.rest) : t.ids = (restSnaps c).map (·.id) := by
  simp [ClaimStage.ids, h, restSnaps]

theorem held_of_early (h : t.Early id) : t.Held id := by
  cases t with
  | params c g | waitOpen c g | timeCheck c g | building c g | recheck c g _ =>
    exact .inl (by rw [ids_cons _ g c rfl]; exact mem_append.2 h)
  | sending c g _ _ | ejected c g _ _ =>
    exact .inl (by rw [ids_cons _ g c rfl]; exact mem_append.2 (h.imp_left And.left))
  | failed c g _ _ => exact .inl (by rw [ids_cons _ g c rfl]; exact mem_append_right _ h)
  | accepted c _ _ | closing c _ _ | settling c | next c => exact .inl (by rw [ids_rest _ c rfl]; exact h)
  | done => exact h.elim

theorem QueueOk.mono (h : QueueOk o id t ws) (hs : o.sighted → o'.sighted) (hk : o.kept → o'.kept)
    (hf : o.free → o'.free) : QueueOk o' id t ws := by
  induction ws with
  | nil => trivial
  | cons w ws ih =>
    obtain ⟨hd, hp, hx, ho, hq⟩ := h
    exact ⟨fun h => (hd h).imp_left hs, fun h => (hp h).imp_left hk, fun h => (hx h).imp_left hf, ho, ih hq⟩

theorem queueOk_of_untouched (h : ∀ w ∈ ws, ¬ w.Touches id) : QueueOk o id t ws := by
  induction ws with
  | nil => trivial
  | cons w ws ih =>
    have hw := h w (.head ws)
    exact ⟨fun h' => absurd (.inl h') hw, fun h' => absurd (.inr (.inl h')) hw,
      fun h' => absurd (.inr (.inr (.inl h'))) hw, fun h' => hw (.inr (.inr (.inr h'))),
      ih fun w' hw' => h w' (.tail w hw')⟩

theorem queueOk_of_puts (h : ∀ w ∈ ws, w.Touches id → w.Puts id)
    (hp : (∃ w ∈ ws, w.Puts id) → o.kept ∧ ¬ t.Early id) : QueueOk o id t ws := by
  have hplain : ∀ w ∈ ws, ¬ w.Defers id ∧ ¬ w.Deletes id ∧ ¬ w.Opens id := by
    refine fun w hw => ⟨fun hd => ?_, fun hd => ?_, fun ⟨c, hd, hc⟩ => ?_⟩
    · obtain ⟨e, he⟩ := h w hw (.inl hd)
      cases hd.symm.trans he
    · obtain ⟨e, he⟩ := h w hw (.inr (.inr (.inl hd)))
      cases hd.symm.trans he
    · obtain ⟨e, he⟩ := h w hw (.inr (.inr (.inr ⟨c, hd, hc⟩)))
      cases hd.symm.trans he
  clear h
  induction ws with
  | nil => trivial
  | cons w ws ih =>
    obtain ⟨hd, hx, ho⟩ := hplain w (.head ws)
    have htail : ∀ w' ∈ ws, ¬ w'.Defers id ∧ ¬ w'.Deletes id ∧ ¬ w'.Opens id := fun w' hw' => hplain w' (.tail w hw')
    refine ⟨fun h' => absurd h' hd, fun h' => ?_, fun h' => absurd h' hx, ho, ih (fun ⟨w', hw', hp'⟩ => ?_) htail⟩
    · obtain ⟨hk, he⟩ := hp ⟨w, .head ws, h'⟩
      exact ⟨hk, he, fun w' hw' => ⟨(htail w' hw').1, (htail w' hw').2.1⟩⟩
    · exact hp ⟨w', .tail w hw', hp'⟩

theorem ClaimOk.advance {t' : ClaimStage} (h : ClaimOk o id t []) (hids : t'.ids.Sublist t.ids)
    (hapart : id ∈ t'.inHand → id ∉ t'.restIds) (hattempt : 1 ≤ t'.attempt) (hearly : t'.Early id → t.Early id)
    (hhand : id ∈ t'.inHand → o.kept ∧ t.Held id) (htouch : ∀ w ∈ ws, w.Touches id → t.Held id)
    (hq : QueueOk o id t' ws) : ClaimOk o id t' ws := by
  refine ⟨h.nodup.sublist hids, hapart, hattempt, fun he => h.early (hearly he), fun hh => (hhand hh).1, ?_, hq⟩
  rintro ((hi | hi) | ⟨w, hw, ht⟩)
  · exact h.booked (.inl (.inl (hids.subset hi)))
  · exact h.booked (.inl (hhand hi).2)
  · exact h.booked (.inl (htouch w hw ht))

theorem ClaimOk.stay {t' : ClaimStage} (h : ClaimOk o id t []) (hids : t'.ids = t.ids)
    (hhand : t'.inHand = t.inHand) (hrest : t'.restIds = t.restIds) (hattempt : 1 ≤ t'.attempt)
    (hearly : t'.Early id → t.Early id) : ClaimOk o id t' [] := by
  refine h.advance (hids ▸ List.Sublist.refl _) ?_ hattempt hearly (fun hi => ?_) nofun trivial
  · rw [hhand, hrest]
    exact h.apart
  · rw [hhand] at hi
    exact ⟨h.hand hi, .inr hi⟩

theorem touches_session {c : Callback} :
    (Write.session i c).Touches id ↔ i = id ∧ (c = .onClaimDeferred ∨ c.opens = true) := by
  simp [Write.Touches, Write.Defers, Write.Puts, Write.Deletes, Write.Opens, and_or_left, and_assoc]

theorem touches_put {e : Entry} : (Write.put .claim i e).Touches id ↔ i = id := by
  simp [Write.Touches, Write.Defers, Write.Puts, Write.Deletes, Write.Opens]

theorem untouched_session {c : Callback} (hc : c ≠ .onClaimDeferred) (ho : c.opens = false) :
    ¬ (Write.session i c).Touches id := by
  simp [touches_session, hc, ho]

theorem touches_deferClaims {xs : List Snap} (hw : w ∈ deferClaims xs) (ht : w.Touches id) :
    id ∈ xs.map (·.id) := by
  obtain ⟨y, hy, rfl⟩ := mem_map.1 hw
  exact (touches_session.1 ht).1 ▸ mem_map_of_mem hy

theorem queueOk_deferClaims {xs : List Snap} (hnd : (xs.map (·.id)).Nodup)
    (hx : id ∈ xs.map (·.id) → o.sighted ∧ ¬ t.Held id) : QueueOk o id t (deferClaims xs) := by
  induction xs with
  | nil => trivial
  | cons y ys ih =>
    obtain ⟨hy, hnd⟩ := nodup_cons.1 hnd
    refine ⟨fun hd => ?_, (fun ⟨_, hp⟩ => nomatch hp), nofun, ?_, ih hnd fun hys => hx (.tail _ hys)⟩
    swap
    · rintro ⟨c, hc, ho⟩
      cases hc
      cases ho
    obtain rfl : y.id = id := by
      cases hd
      rfl
    exact ⟨(hx (.head _)).1, (hx (.head _)).2, fun w' hw' ht => hy (touches_deferClaims hw' ht)⟩

/-- The group in front goes back to active: its sessions are sighted, and not ahead any more. -/
theorem ClaimOk.deferred (h : ClaimOk o id t []) (hg : t.groups = g :: c.rest)
    (hrest : id ∈ (restSnaps c).map (·.id) → t.Early id) (hsight : id ∈ g.snaps.map (·.id) → t.Early id) :
    ClaimOk o id (.next c) (deferClaims g.snaps) := by
  have hids := ids_cons t g c hg
  have hnd := h.nodup
  rw [hids] at hnd
  refine h.advance ?_ nofun (Nat.le_refl _) hrest nofun (fun w hw ht => ?_) (queueOk_deferClaims hnd.of_append_left ?_)
  · rw [ids_rest _ c rfl, hids]
    exact sublist_append_right _ _
  · exact .inl (hids ▸ mem_append_left _ (touches_deferClaims hw ht))
  intro hx
  refine ⟨h.early (hsight hx), ?_⟩
  rintro (hr | hr)
  · exact disjoint_of_nodup_append hnd hx hr
  · cases hr

theorem ClaimOk.closing {close : Nat} {todo : List Snap} (h : ClaimOk o id t []) (hg : t.groups = g :: c.rest)
    (hrest : id ∈ (restSnaps c).map (·.id) → t.Early id) : ClaimOk o id (.closing c close todo) [] := by
  refine h.advance ?_ nofun (Nat.le_refl _) hrest nofun nofun trivial
  rw [ids_rest _ c rfl, ids_cons t g c hg]
  exact sublist_append_right _ _

theorem touches_skippedWrites {r : Snap × ClaimBuild} (hw : w ∈ skippedWrites r) (ht : w.Touches id) :
    r.1.id = id := by
  obtain ⟨-, rfl | rfl⟩ := mem_skippedWrites hw
  · simpa [Write.Touches, Write.Defers, Write.Puts, Write.Deletes, Write.Opens] using ht
  · exact (touches_session.1 ht).1

variable {results : List (Snap × ClaimBuild)}

theorem queueOk_skippedWrites (hnd : (results.map (·.1.id)).Nodup)
    (hskip : ∀ r ∈ results, r.1.id = id → skippedWrites r ≠ [] → o.free ∧ id ∉ t.inHand) :
    QueueOk o id t (results.flatMap skippedWrites) := by
  induction results with
  | nil => trivial
  | cons r rs ih =>
    obtain ⟨hr, hnd⟩ := nodup_cons.1 hnd
    have hrest := ih hnd fun r' hr' => hskip r' (.tail r hr')
    have huntouched : r.1.id = id → ∀ w ∈ rs.flatMap skippedWrites, ¬ w.Touches id := by
      rintro rfl w hw ht
      obtain ⟨r', hr', hw⟩ := mem_flatMap.1 hw
      exact hr (mem_map.2 ⟨r', hr', touches_skippedWrites hw ht⟩)
    -- The tree first, then the state.
    have hskipped : ∀ ws, skippedWrites r = [.deleteTree r.1.id, .session r.1.id .onClaimSkipped] →
        ws = skippedWrites r ++ rs.flatMap skippedWrites → QueueOk o id t ws := by
      rintro _ he rfl
      rw [he]
      have hskip' : ¬ (Write.session r.1.id .onClaimSkipped).Touches id := untouched_session nofun rfl
      refine ⟨nofun, (fun ⟨_, hp⟩ => nomatch hp), fun hd => ?_, (fun ⟨_, hp, _⟩ => nomatch hp),
        nofun, (fun ⟨_, hp⟩ => nomatch hp), nofun, fun ho => hskip' (.inr (.inr (.inr ho))), hrest⟩
      obtain rfl : r.1.id = id := by
        cases hd
        rfl
      obtain ⟨hf, hh⟩ := hskip r (.head rs) rfl (by simp [he])
      exact ⟨hf, hh, forall_mem_cons.2 ⟨hskip', huntouched rfl⟩⟩
    obtain ⟨y, b⟩ := r
    cases b with
    | unprofitable | cuprMismatch => exact hskipped _ rfl rfl
    | _ => exact hrest

theorem ClaimOk.built (h : ClaimOk o id (.building c g) [])
    (hperm : (results.map (·.1)).Perm (candidates g))
    (hbuilds : ∀ r ∈ results, r.1.id = id → (builtOf r ≠ none → o.kept) ∧ (skippedWrites r ≠ [] → o.free)) :
    ClaimOk o id (.recheck c g (results.filterMap builtOf)) (results.flatMap skippedWrites) := by
  have hnd : (g.snaps.map (·.id) ++ (restSnaps c).map (·.id)).Nodup := ids_cons (.building c g) g c rfl ▸ h.nodup
  have hmem : ∀ r ∈ results, r.1.id ∈ g.snaps.map (·.id) := fun r hr =>
    mem_map_of_mem (mem_of_mem_filter (hperm.mem_iff.1 (mem_map_of_mem hr)))
  have hresults : (results.map (·.1.id)).Nodup := by
    have : ((results.map (·.1)).map (·.id)).Nodup :=
      (hperm.map (·.id)).nodup_iff.2 (hnd.of_append_left.sublist (filter_sublist.map _))
    rwa [map_map] at this
  -- A session in hand is one whose result is a claim.
  have hhand : id ∈ (ClaimStage.recheck c g (results.filterMap builtOf)).inHand →
      ∃ r ∈ results, r.1.id = id ∧ builtOf r ≠ none := by
    intro hi
    obtain ⟨b, hb, rfl⟩ := mem_map.1 hi
    obtain ⟨r, hr, hrb⟩ := mem_filterMap.1 hb
    exact ⟨r, hr, by rw [snap_builtOf hrb], by simp [hrb]⟩
  refine h.advance (List.Sublist.refl _) (fun hi => ?_) (Nat.le_refl _) (fun he => he) (fun hi => ?_) ?_
    (queueOk_skippedWrites hresults ?_)
  · obtain ⟨r, hr, rfl, -⟩ := hhand hi
    exact disjoint_of_nodup_append hnd (hmem r hr)
  · obtain ⟨r, hr, rfl, hb⟩ := hhand hi
    exact ⟨(hbuilds r hr rfl).1 hb, .inl (ids_cons (.building c g) g c rfl ▸ mem_append_left _ (hmem r hr))⟩
  · intro w hw ht
    obtain ⟨r, hr, hw⟩ := mem_flatMap.1 hw
    obtain rfl := touches_skippedWrites hw ht
    exact .inl (ids_cons (.building c g) g c rfl ▸ mem_append_left _ (hmem r hr))
  intro r hr hrid hskip
  refine ⟨(hbuilds r hr hrid).2 hskip, fun hi => ?_⟩
  obtain ⟨r', hr', hr'id, hb⟩ := hhand hi
  obtain rfl : r = r' := inj_on_of_nodup_map hresults hr hr' (hrid.trans hr'id.symm)
  obtain ⟨y, b⟩ := r
  cases b with
  | built root msg => exact hskip rfl
  | _ => exact hb rfl

theorem ClaimOk.eject {i : Nat} {b : Built} (h : ClaimOk o id (.sending c g remaining n) [])
    (hb : remaining[i]? = some b) :
    ClaimOk o id (.ejected c (withoutSession g b.snap.id) (remaining.eraseIdx i) n)
      (settleEjectedClaim cfg height b) := by
  have hbmem : b.snap.id ∈ remaining.map (·.snap.id) := mem_map_of_mem (mem_of_getElem? hb)
  have hgone : b.snap.id ∉ (withoutSession g b.snap.id).snaps.map (·.id) := by
    rintro hi
    obtain ⟨y, hy, hyb⟩ := mem_map.1 hi
    simp [withoutSession, hyb] at hy
  have hsub : ∀ j ∈ (remaining.eraseIdx i).map (·.snap.id), j ∈ remaining.map (·.snap.id) := fun j hj =>
    ((eraseIdx_sublist _ _).map _).subset hj
  have htouch : ∀ w ∈ settleEjectedClaim cfg height b, w.Touches id → (id = b.snap.id ∧ w.Puts id) := by
    intro w hw ht
    obtain rfl | ⟨v, rfl⟩ := mem_settleEjectedClaim hw
    · obtain rfl := touches_put.1 ht
      exact ⟨rfl, _, rfl⟩
    · exact absurd ht (untouched_session (by simp) rfl)
  refine h.advance ?_ (fun hi => h.apart (hsub id hi)) h.attempt ?_ (fun hi => ⟨h.hand (hsub id hi), .inr (hsub id hi)⟩)
    (fun w hw ht => .inr ((htouch w hw ht).1 ▸ hbmem)) (queueOk_of_puts (fun w hw ht => (htouch w hw ht).2) ?_)
  · rw [ids_cons _ (withoutSession g b.snap.id) c rfl, ids_cons _ g c rfl]
    exact (filter_sublist.map _).append_right _
  · rintro (⟨hg, hn⟩ | hrest)
    · refine .inl ⟨(filter_sublist.map _).subset hg, hn.imp_right fun hno hi => ?_⟩
      by_cases hid : id = b.snap.id
      · exact hgone (hid ▸ hg)
      · exact hno (mem_eraseIdx_of_ne hb hi hid)
    · exact .inr hrest
  rintro ⟨w, hw, hp⟩
  obtain ⟨rfl, -⟩ := htouch w hw (.inr (.inl hp))
  refine ⟨h.hand hbmem, ?_⟩
  rintro (⟨hg, -⟩ | hrest)
  · exact hgone hg
  · exact h.apart hbmem hrest

/-- The writes that settle a batch store messages in hand, and touch nothing else. -/
theorem ClaimOk.settle (h : ClaimOk o id t []) (hids : ((restSnaps c).map (·.id)).Sublist t.ids)
    (hrest : t.restIds = (restSnaps c).map (·.id)) (hearly : id ∈ (restSnaps c).map (·.id) → t.Early id)
    (hws : ∀ w ∈ ws, w.Touches id → w.Puts id ∧ id ∈ t.inHand) : ClaimOk o id (.settling c) ws := by
  refine h.advance (by rwa [ids_rest _ c rfl]) nofun (Nat.le_refl _) hearly nofun
    (fun w hw ht => .inr (hws w hw ht).2) (queueOk_of_puts (fun w hw ht => (hws w hw ht).1) ?_)
  rintro ⟨w, hw, hp⟩
  have hi := (hws w hw (.inr (.inl hp))).2
  exact ⟨h.hand hi, fun hr => h.apart hi (hrest ▸ hr)⟩

theorem untouched_markClaimWindowClosed {close : Nat} {y : Snap} {q : ClaimQuery} :
    ∀ w ∈ markClaimWindowClosed height close y q, ¬ w.Touches id := by
  intro w hw
  obtain rfl | ⟨root, rfl⟩ := mem_markClaimWindowClosed hw
  · exact untouched_session nofun rfl
  · exact untouched_session nofun rfl

theorem touches_entry {b : Built} {txHash : String} (hb : b ∈ remaining)
    (ht : (persistRebroadcastEntry .claim b.snap.id height txHash b.msg).Touches id) :
    (persistRebroadcastEntry .claim b.snap.id height txHash b.msg).Puts id ∧ id ∈ remaining.map (·.snap.id) := by
  obtain rfl := touches_put.1 ht
  exact ⟨⟨_, rfl⟩, mem_map_of_mem hb⟩

theorem touches_acceptedClaims {txHash : String} (hw : w ∈ acceptedClaims cfg height remaining txHash)
    (ht : w.Touches id) : w.Puts id ∧ id ∈ remaining.map (·.snap.id) := by
  obtain ⟨b, hb, rfl | rfl⟩ := mem_acceptedClaims hw
  · exact absurd ht (untouched_session nofun rfl)
  · exact touches_entry hb ht

theorem touches_failedClaims {r : Submit} (hw : w ∈ failedClaims cfg height g remaining r) (ht : w.Touches id) :
    w.Puts id ∧ id ∈ remaining.map (·.snap.id) := by
  obtain ⟨y, -, v, rfl⟩ | ⟨b, hb, rfl⟩ := mem_failedClaims hw
  · exact absurd ht (untouched_session nofun rfl)
  · exact touches_entry hb ht

variable {m : Mem}

section
variable (h : ClaimOk o id (.sending c g remaining n) [])
include h

variable {r : Submit}

theorem ClaimOk.retry :
    ClaimOk o id (retryClaims cfg c g remaining n r ctxDone) [] := by
  have hn : 1 ≤ n := h.attempt
  unfold retryClaims
  split
  · split
    · refine h.advance ?_ nofun (Nat.le_refl _) nofun nofun nofun trivial
      exact nil_sublist _
    · refine h.stay rfl rfl rfl (Nat.le_add_left _ _) ?_
      rintro (⟨hg, hn' | hno⟩ | hrest)
      · omega
      · exact .inl ⟨hg, .inr hno⟩
      · exact .inr hrest
  · exact h.stay rfl rfl rfl (Nat.le_refl _) .inr

theorem ClaimOk.submit (hback : r = .windowRefused → (cfg.windows g.endHeight).claimClose ≤ m.height ∨ n = 1 ∨
      id ∉ remaining.map (·.snap.id)) :
    ClaimOk o id (submitClaims cfg m c g remaining n r ctxDone).2 (submitClaims cfg m c g remaining n r ctxDone).1 := by
  unfold submitClaims
  dsimp only
  split
  · refine h.advance ?_ h.apart (Nat.le_refl _) .inr (fun hi => ⟨h.hand hi, .inr hi⟩) (by simp) trivial
    rw [ids_rest _ c rfl, ids_cons _ g c rfl]
    exact sublist_append_right _ _
  · exact h.closing rfl .inr
  · split
    · exact h.closing rfl .inr
    next hopen =>
      refine h.deferred rfl .inr fun hg => .inl ⟨hg, ?_⟩
      exact (hback rfl).resolve_left hopen
  · split
    next hb =>
      split
      · exact h.eject hb
      · exact h.retry
    · exact h.retry
  · exact h.retry

/-- After a submission that reached a mempool the session is not early any more, and nothing is written. -/
theorem not_early_of_arrives {lost : Bool}
    (hi : id ∈ remaining.map (·.snap.id)) (hr : arrives lost r = true) :
    ¬ (submitClaims cfg m c g remaining n r ctxDone).2.Early id ∧
      (submitClaims cfg m c g remaining n r ctxDone).1 = [] := by
  have hrest : id ∉ (restSnaps c).map (·.id) := h.apart hi
  have hn : 1 ≤ n := h.attempt
  have hretry : ∀ r, ¬ (retryClaims cfg c g remaining n r ctxDone).Early id := by
    intro r
    unfold retryClaims
    split
    · split
      · exact nofun
      · rintro (⟨-, hn' | hno⟩ | hr)
        · omega
        · exact hno hi
        · exact hrest hr
    · exact hrest
  cases r with
  | accepted tx => exact ⟨hrest, rfl⟩
  | nothingSpent | refused => exact ⟨hretry _, rfl⟩
  | _ => cases hr
end

theorem claimOk_next {a : Answer} (h : ClaimOk o id t [])
    (hbuilds : ∀ c g results, t = .building c g → a = .claimBuilds results →
      (results.map (·.1)).Perm (candidates g) → ∀ r ∈ results, r.1.id = id →
        (builtOf r ≠ none → o.kept) ∧ (skippedWrites r ≠ [] → o.free))
    (hback : ∀ c g remaining n ctxDone, t = .sending c g remaining n → a = .submit .windowRefused ctxDone →
      (cfg.windows g.endHeight).claimClose ≤ m.height ∨ n = 1 ∨ id ∉ remaining.map (·.snap.id)) :
    ClaimOk o id (claimNext cfg m t a).2.1 (claimNext cfg m t a).1 := by
  unfold claimNext
  split
  · split
    · exact h.stay rfl rfl rfl (Nat.le_refl _) fun he => he
    · exact h.deferred rfl .inr .inl
  · split
    · split
      · exact h.stay rfl rfl rfl (Nat.le_refl _) fun he => he
      · exact h
    · exact h.deferred rfl .inr .inl
  · dsimp only
    split
    · exact h.closing rfl .inr
    · exact h.stay rfl rfl rfl (Nat.le_refl _) fun he => he
  · split
    next hperm => exact h.built hperm (hbuilds _ _ _ rfl rfl hperm)
    · exact h
  · dsimp only
    split
    · exact h.closing rfl .inr
    · exact h.stay rfl rfl rfl (Nat.le_refl _) fun he => he.imp_left And.left
  · refine h.submit fun hr => ?_
    subst hr
    exact hback _ _ _ _ _ rfl rfl
  · dsimp only
    split
    · exact h.closing rfl .inr
    · exact h.stay rfl rfl rfl h.attempt fun he => he
  · exact h.settle (by rw [ids_rest _ _ rfl]; exact List.Sublist.refl _) rfl (fun he => he)
      fun w hw ht => touches_acceptedClaims hw ht
  next c g remaining r =>
    exact h.settle (by rw [ids_cons _ g c rfl]; exact sublist_append_right _ _) rfl (fun he => he)
      fun w hw ht => touches_failedClaims hw ht
  · refine h.advance (List.Sublist.refl _) (by rintro ⟨⟩) (Nat.le_refl _) (fun he => he) (by rintro ⟨⟩)
      (fun w hw ht => ?_) ?_
    · exact absurd ht (untouched_markClaimWindowClosed w hw)
    · exact queueOk_of_untouched fun w hw => untouched_markClaimWindowClosed w hw
  · exact h.stay rfl rfl rfl (Nat.le_refl _) fun he => he
  · exact h.stay rfl rfl rfl (Nat.le_refl _) fun he => he
  · split
    next c _ g rest hrest =>
      have hsnaps : restSnaps c = g.snaps ++ restSnaps { c with rest := rest } := by simp [restSnaps, hrest]
      refine h.advance ?_ (by rintro ⟨⟩) (Nat.le_refl _) (fun he => ?_) (by rintro ⟨⟩) (by simp) trivial
      · rw [ids_cons _ g { c with rest := rest } rfl, ids_rest _ c rfl, hsnaps, map_append]
      have : id ∈ (restSnaps c).map (·.id) := by
        rw [hsnaps, map_append]
        exact mem_append.2 he
      exact this
    next c _ _ =>
      have huntouched : ∀ w ∈ (c.batch.filter (·.id ∈ c.claimed)).map fun s => Write.session s.id .claimed,
          ¬ w.Touches id := by
        intro w hw
        obtain ⟨y, -, rfl⟩ := mem_map.1 hw
        exact untouched_session (by simp) rfl
      exact h.advance (nil_sublist _) (by rintro ⟨⟩) (Nat.le_refl _) (by rintro (⟨⟩ | ⟨⟩)) (by rintro ⟨⟩)
        (fun w hw ht => absurd ht (huntouched w hw)) (queueOk_of_untouched huntouched)
  · exact h

/-! ## A proof cycle -/

def ProofStage.out : ProofStage → List SessionID
  | .accepted c x _ _ => x.id :: c.settled
  | .params c _ | .waitOpen c _ | .waitSeed c _ | .guard c _ | .required c _ | .waitEarliest c _ | .timeCheck c _
  | .stillRequired c _ | .building c _ | .recheck c _ _ | .sending c _ _ _ | .failed c _ _ _ | .settling c
  | .next c => c.settled
  | .done => []

def Write.OfProof (o : Outlook) (id : SessionID) (w : Write) : Prop :=
  ¬ w.Defers id ∧ ¬ w.Puts id ∧ (w.Deletes id → o.proofSent) ∧ ¬ w.Opens id

structure ProofOk (o : Outlook) (id : SessionID) (u : ProofStage) (queue : List Write) : Prop where
  past : o.past
  out : id ∈ u.out → o.proofSent
  queue : ∀ w ∈ queue, w.OfProof o id

theorem ofProof_session {c : Callback} (hc : c ≠ .onClaimDeferred) (ho : c.opens = false) :
    (Write.session i c).OfProof o id := by
  have h : ¬ (Write.session i c).Touches id := untouched_session hc ho
  exact ⟨fun hd => h (.inl hd), fun hp => h (.inr (.inl hp)), nofun, fun hn => h (.inr (.inr (.inr hn)))⟩

theorem ofProof_put {e : Entry} : (Write.put .proof i e).OfProof o id :=
  ⟨nofun, (fun ⟨_, h⟩ => nomatch h), nofun, (fun ⟨_, h, _⟩ => nomatch h)⟩

section
variable (h : ProofOk o id u [])
include h

theorem ProofOk.advance (hout : ∀ i ∈ u'.out, i ∈ u.out) (hws : ∀ w ∈ ws, w.OfProof o id) :
    ProofOk o id u' ws :=
  ⟨h.past, fun hi => h.out (hout id hi), hws⟩

theorem ProofOk.callback {c : Callback} (hc : c ≠ .onClaimDeferred) (ho : c.opens = false)
    (hout : u'.out = u.out) : ProofOk o id u' [.session i c] :=
  h.advance (fun _ hi => hout ▸ hi) fun _ hw => mem_singleton.1 hw ▸ ofProof_session hc ho

theorem ProofOk.stay (hout : u'.out = u.out) : ProofOk o id u' [] :=
  h.advance (fun _ hi => hout ▸ hi) nofun

theorem ProofOk.checkRequired {c : ProofCtx} {r : Requirement} (hu : u.out = c.settled)
    (hu' : u'.out = c.settled) : ProofOk o id (checkRequired c x u' r).2 (checkRequired c x u' r).1 := by
  cases r with
  | required | error => exact h.stay (hu'.trans hu.symm)
  | _ => exact h.callback nofun rfl hu.symm
end

variable {c : ProofCtx}

theorem ProofOk.guard {w : Windows} {q : ClaimQuery} {d : List Write × ProofStage}
    (h : ProofOk o id (.guard c x) []) (hq : ∀ root, q = .found root .validated → x.id = id → o.proofSent)
    (hd : preProofGuard w height c x q = some d) : ProofOk o id d.2 d.1 := by
  unfold preProofGuard at hd
  split at hd
  · cases hd
    refine ⟨h.past, fun hi => ?_, nofun⟩
    rcases mem_append.1 hi with hi | hi
    · exact h.out hi
    · exact hq _ rfl (mem_singleton.1 hi).symm
  · cases hd
    exact h.stay rfl
  · cases hd
  · split_ifs at hd
    · cases hd
      exact h.callback nofun rfl rfl
    · cases hd
      exact h.callback nofun rfl rfl
  · cases hd

theorem ProofOk.submit {r : Submit} (h : ProofOk o id (.sending c x msg n) [])
    (hsent : ∀ tx, r = .accepted tx → x.id = id → o.proofSent) :
    ProofOk o id (submitProof cfg m c x msg n r ctxDone).2 (submitProof cfg m c x msg n r ctxDone).1 := by
  unfold submitProof settleNotRequiredBatch
  dsimp only
  split
  · refine ⟨h.past, fun hi => ?_, nofun⟩
    rcases mem_cons.1 hi with hi | hi
    · exact hsent _ rfl hi.symm
    · exact h.out hi
  · split
    · exact h.callback nofun rfl rfl
    · exact h.callback nofun rfl rfl
  · exact h.callback nofun rfl rfl
  · exact h.callback nofun rfl rfl
  · split
    · exact h.callback nofun rfl rfl
    · exact h.callback nofun rfl rfl
  unfold retryProof
  split
  · split
    · exact h.stay rfl
    · exact h.stay rfl
  · exact h.stay rfl

theorem ProofOk.accept {tx : String} (h : ProofOk o id (.accepted c x msg tx) []) :
    ProofOk o id (.settling { c with settled := c.settled ++ [x.id] }) (acceptedProof cfg height x msg tx) := by
  refine h.advance (fun i hi => ?_) fun w hw => ?_
  · rcases mem_append.1 hi with hi | hi
    · exact .tail _ hi
    · exact mem_singleton.1 hi ▸ .head _
  obtain rfl | rfl := mem_acceptedProof hw
  · exact ofProof_session nofun rfl
  · exact ofProof_put

theorem ProofOk.fail {r : Submit} (h : ProofOk o id (.failed c x msg r) []) :
    ProofOk o id (.settling c) (failedProof cfg height x msg r) := by
  refine h.advance (fun _ hi => hi) fun w hw => ?_
  obtain rfl | rfl := mem_failedProof hw
  · exact ofProof_session nofun rfl
  · exact ofProof_put

theorem ProofOk.prove (h : ProofOk o id (.next c) []) :
    ProofOk o id .done ((c.batch.filter (·.id ∈ c.settled)).flatMap provedWrites) := by
  refine h.advance (by rintro _ ⟨⟩) fun w hw => ?_
  obtain ⟨y, hy, hw⟩ := mem_flatMap.1 hw
  have hset : y.id ∈ c.settled := by simpa using (mem_filter.1 hy).2
  simp only [provedWrites, mem_cons, not_mem_nil, or_false] at hw
  rcases hw with rfl | rfl | rfl
  · exact ofProof_session (by simp) rfl
  · refine ⟨by rintro ⟨⟩, by rintro ⟨_, ⟨⟩⟩, fun hd => h.out ?_, by rintro ⟨_, ⟨⟩, _⟩⟩
    cases hd
    exact hset
  · exact ofProof_session (by simp) rfl

theorem proofOk_next {a : Answer} (h : ProofOk o id u [])
    (hq : ∀ c x root, u = .guard c x → a = .claimQuery (.found root .validated) → x.id = id → o.proofSent)
    (hsent : ∀ c x msg n tx ctxDone, u = .sending c x msg n → a = .submit (.accepted tx) ctxDone → x.id = id →
      o.proofSent) : ProofOk o id (proofNext cfg m u a).2.1 (proofNext cfg m u a).1 := by
  unfold proofNext
  split
  · split
    · exact h.stay rfl
    · exact h.callback nofun rfl rfl
  · split
    · split
      · exact h.stay rfl
      · exact h
    · exact h.callback nofun rfl rfl
  · split
    · exact h.stay rfl
    · exact h.callback nofun rfl rfl
  · split
    · exact h.stay rfl
    · split
      · split
        · refine h.guard (fun root hr => ?_) ‹_›
          subst hr
          exact hq _ _ root rfl rfl
        · exact h.stay rfl
      · exact h.stay rfl
  · exact h.checkRequired rfl rfl
  · split
    · exact h.stay rfl
    · exact h.callback nofun rfl rfl
  · split
    · exact h.callback nofun rfl rfl
    · exact h.stay rfl
  · exact h.checkRequired rfl rfl
  · split
    · exact h.stay rfl
    · exact h.stay rfl
  · split
    · exact h.callback nofun rfl rfl
    · exact h.stay rfl
  · exact h.callback nofun rfl rfl
  · refine h.submit fun tx hr => ?_
    subst hr
    exact hsent _ _ _ _ tx _ rfl rfl
  · exact h.accept
  · exact h.fail
  · exact h.stay rfl
  · split
    · exact h.stay rfl
    · exact h.prove
  · exact h

/-! ## Any cycle -/

def Running.Busy (id : SessionID) : Running → Prop
  | .waiting batch => id ∈ batch.map (·.id)
  | .cycle (.claims t) queue _ => t.Held id ∨ ∃ w ∈ queue, w.Touches id
  | .cycle (.proofs _) _ _ => False

def Running.Ok (o : Outlook) (id : SessionID) : Running → Prop
  | .waiting batch => (batch.map (·.id)).Nodup ∧ (id ∈ batch.map (·.id) → o.sighted ∧ o.booked)
  | .cycle (.claims t) queue _ => ClaimOk o id t queue
  | .cycle (.proofs u) queue _ => ProofOk o id u queue

variable {r : Running}

theorem Running.Ok.booked (h : r.Ok o id) (hb : r.Busy id) : o.booked := by
  cases r with
  | waiting batch => exact (h.2 hb).2
  | cycle t queue m =>
    cases t with
    | claims t => exact ClaimOk.booked h hb
    | proofs u => exact hb.elim

theorem Running.Ok.mono (h : r.Ok o id) (hle : o.Le o') : r.Ok o' id := by
  cases r with
  | waiting batch => exact ⟨h.1, fun hi => ⟨hle.sighted (h.2 hi).1, hle.booked (h.2 hi).2⟩⟩
  | cycle t queue m =>
    cases t with
    | claims t =>
      exact ⟨h.nodup, h.apart, h.attempt, fun he => hle.sighted (h.early he), fun hi => hle.kept (h.hand hi),
        fun hb => hle.booked (h.booked hb), h.queue.mono hle.sighted hle.kept hle.free⟩
    | proofs u =>
      refine ⟨hle.past h.past, fun hi => hle.proofSent (h.out hi), fun w hw => ?_⟩
      obtain ⟨hd, hp, hx, ho⟩ := h.queue w hw
      exact ⟨hd, hp, fun h' => hle.proofSent (hx h'), ho⟩

theorem Running.Ok.idle (h : r.Ok o id) (hb : ¬ r.Busy id) (hsent : o.proofSent → o'.proofSent)
    (hpast : o.past → o'.past) : r.Ok o' id := by
  cases r with
  | waiting batch => exact ⟨h.1, fun hi => absurd hi hb⟩
  | cycle t queue m =>
    cases t with
    | claims t =>
      refine ⟨h.nodup, h.apart, h.attempt, fun he => absurd (.inl (held_of_early he)) hb,
        fun hi => absurd (.inl (.inr hi)) hb, fun hb' => absurd hb' hb, queueOk_of_untouched fun w hw ht => ?_⟩
      exact hb (.inr ⟨w, hw, ht⟩)
    | proofs u =>
      refine ⟨hpast h.past, fun hi => hsent (h.out hi), fun w hw => ?_⟩
      obtain ⟨hd, hp, hx, ho⟩ := h.queue w hw
      exact ⟨hd, hp, fun h' => hsent (hx h'), ho⟩

/-! ## One write of a claim cycle -/

theorem ClaimOk.tail (h : ClaimOk o id t (w :: ws)) : ClaimOk o id t ws :=
  { h with
    booked := fun hb => h.booked (hb.imp_right fun ⟨w', hw', ht⟩ => ⟨w', .tail w hw', ht⟩)
    queue := h.queue.2.2.2.2 }

/-- After the message is stored the rest of the queue does not rely on what is out. -/
theorem ClaimOk.put (h : ClaimOk o id t (w :: ws)) (hp : w.Puts id) (hk : o.kept → o'.kept)
    (hb : o.booked → o'.booked) : ClaimOk o' id t ws := by
  obtain ⟨-, hearly, hws⟩ := h.queue.2.1 hp
  have hqueue : ∀ ws : List Write, QueueOk o id t ws → (∀ w' ∈ ws, ¬ w'.Defers id ∧ ¬ w'.Deletes id) →
      QueueOk o' id t ws := by
    intro ws hq hws
    induction ws with
    | nil => trivial
    | cons w ws ih =>
      obtain ⟨-, hp, -, ho, hq⟩ := hq
      obtain ⟨hd, hx⟩ := hws w (.head ws)
      exact ⟨fun h' => absurd h' hd, fun h' => (hp h').imp_left hk, fun h' => absurd h' hx, ho,
        ih hq fun w' hw' => hws w' (.tail w hw')⟩
  have ht := h.tail
  exact ⟨h.nodup, h.apart, h.attempt, fun he => absurd he hearly, fun hi => hk (h.hand hi), fun hb' => hb (ht.booked hb'),
    hqueue ws ht.queue hws⟩

/-- After the tree is gone, or the session handed back, the rest of the queue leaves the session alone. -/
theorem ClaimOk.last (h : ClaimOk o id t ws) (hws : ∀ w ∈ ws, ¬ w.Touches id) (hs : o.sighted → o'.sighted)
    (hk : id ∈ t.inHand → o'.kept) (hb : t.Held id → o'.booked) : ClaimOk o' id t ws := by
  refine ⟨h.nodup, h.apart, h.attempt, fun he => hs (h.early he), hk, ?_, queueOk_of_untouched hws⟩
  rintro (hh | ⟨w, hw, ht⟩)
  · exact hb hh
  · exact absurd ht (hws w hw)

end RelayMiner.Lifecycle
