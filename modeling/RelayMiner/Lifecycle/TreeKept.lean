import RelayMiner.Lifecycle.TreeOwed
/-!
# A tree is kept as long as its proof may be owed

The claim is afloat from the first message that may be out, or is kept for a
resend, until its window is over with nothing landed. Along every history whose
steps are careful, the miner either knows that it has to ask the chain for the
claim or has it booked, so that no verdict it draws on its own takes the tree.
-/
open RelayMiner.Lib RelayMiner.Session Function

namespace RelayMiner.Lifecycle

open List

variable (cfg : Config) (x : Snap) {r : SessionSnapshot} {c : Callback} {v : SessionState} {s : Stores} {i : Nat}
  {a : Answer} {t : ClaimStage} {m : Mem} {id : SessionID} {lost : Bool} {ws : List Write} {wr : Write}

/-- The claim is on chain, or a message that is out or kept can still put it there. -/
def Afloat (w : World) : Prop :=
  w.landed ≠ none ∨
    ((w.pending = true ∨ w.store.entries .claim x.id ≠ none) ∧ w.tip < (cfg.windows x.endHeight).claimClose)

/-- The tree may go: there is no claim and will be none, or the proof is sent, or its window is over. -/
def TreeFree (w : World) : Prop :=
  ¬ Afloat cfg x w ∨ w.proofSent = true ∨ (cfg.windows x.endHeight).proofClose ≤ w.height

/-- The same for good, whatever is sent from here on. -/
def Safe (w : World) : Prop :=
  (w.landed = none ∧ (cfg.windows x.endHeight).claimClose ≤ w.tip) ∨ w.proofSent = true ∨
    (cfg.windows x.endHeight).proofClose ≤ w.height

def Past (r : SessionSnapshot) : Prop := r.state ≠ .active ∧ r.state ≠ .claiming

def outlook (w : World) : Outlook where
  sighted := (w.record x).state = .claiming → Afloat cfg x w → w.resumed = true
  kept := w.store.trees x.id = true ∨ Safe cfg x w
  free := TreeFree cfg x w
  proofSent := w.proofSent = true
  past := Past (w.record x)
  booked := (w.record x).state ≠ .active

/-- A transition to a claim or proof window that is over, of a session that has no claim or none to prove. -/
def Doomed (w : World) : Prop :=
  (cfg.windows x.endHeight).claimClose ≤ w.height ∧
    (¬ Afloat cfg x w ∨ ((cfg.windows x.endHeight).proofClose ≤ w.height ∧ Past (w.record x)))

structure TreeInv (w : World) : Prop where
  seen : w.height ≤ w.tip
  landed : ∀ l, w.landed = some l → l ≤ (cfg.windows x.endHeight).claimClose
  unhashed : ¬ Past (w.record x) → (w.record x).claimTxHash = ""
  blind : (w.record x).state = .active → Afloat cfg x w → w.resumed = true
  found : ∀ s, w.found = some (.proof, s) → Past (w.record x)
  each : ∀ i r, w.cycles i = some r → r.Ok (outlook cfg x w) x.id
  one : ∃ k, ∀ i r, w.cycles i = some r → r.Busy x.id → i = k
  doomed : ∀ v ∈ w.verdicts ++ w.cleanups, Doomed cfg x w
  kept : w.store.trees x.id = false → TreeFree cfg x w

variable {cfg x} {w w' : World}

theorem not_afloat_of_closed (hl : w.landed = none) (hc : (cfg.windows x.endHeight).claimClose ≤ w.tip) :
    ¬ Afloat cfg x w := by
  rintro (h | ⟨-, h⟩)
  · exact h hl
  · omega

theorem TreeFree.of_safe (h : Safe cfg x w) : TreeFree cfg x w := by
  rcases h with ⟨hl, hc⟩ | h
  · exact .inl (not_afloat_of_closed hl hc)
  · exact .inr h

theorem landed_of_not_afloat (h : ¬ Afloat cfg x w) : w.landed = none := by
  by_contra hl
  exact h (.inl hl)

theorem Doomed.safe (h : Doomed cfg x w) (hseen : w.height ≤ w.tip) : Safe cfg x w := by
  obtain ⟨hc, ha | ⟨hp, -⟩⟩ := h
  · exact .inl ⟨landed_of_not_afloat ha, by omega⟩
  · exact .inr (.inr hp)

theorem past_or (r : SessionSnapshot) : r.state = .active ∨ r.state = .claiming ∨ Past r := by
  by_cases ha : r.state = .active
  · exact .inl ha
  by_cases hc : r.state = .claiming
  · exact .inr (.inl hc)
  · exact .inr (.inr ⟨ha, hc⟩)

/-! ## Steps that send nothing -/

structure RecLe (r r' : SessionSnapshot) : Prop where
  active : r'.state = .active → r.state = .active
  claiming : r'.state = .claiming → r.state = .claiming
  hash : ¬ Past r' → r'.claimTxHash = r.claimTxHash

theorem RecLe.refl (r : SessionSnapshot) : RecLe r r := ⟨id, id, fun _ => rfl⟩

theorem RecLe.past {r' : SessionSnapshot} (h : RecLe r r') (hp : Past r) : Past r' :=
  ⟨fun ha => hp.1 (h.active ha), fun hc => hp.2 (h.claiming hc)⟩

theorem RecLe.of_past {r' : SessionSnapshot} (h : Past r') : RecLe r r' :=
  ⟨fun ha => absurd ha h.1, fun hc => absurd hc h.2, fun hn => absurd h hn⟩

variable (cfg x) in
structure Calm (w w' : World) : Prop where
  seen : w'.height ≤ w'.tip
  height : w.height ≤ w'.height
  landed : ∀ l, w'.landed = some l → l ≤ (cfg.windows x.endHeight).claimClose
  afloat : Afloat cfg x w' → Afloat cfg x w
  safe : Safe cfg x w → Safe cfg x w'
  sent : w.proofSent = true → w'.proofSent = true
  record : RecLe (w.record x) (w'.record x)
  trees : w.store.trees x.id = true → w'.store.trees x.id = true ∨ Safe cfg x w'
  resumed : w.resumed = true → w'.resumed = true ∨ ¬ Afloat cfg x w' ∨ Past (w'.record x)
  cycles : ∀ i r, w'.cycles i = some r → w.cycles i = some r

section
variable (h : Calm cfg x w w')
include h

theorem Calm.free (hf : TreeFree cfg x w) : TreeFree cfg x w' := by
  rcases hf with hf | hf | hf
  · exact .inl fun ha => hf (h.afloat ha)
  · exact .inr (.inl (h.sent hf))
  · exact .inr (.inr (Nat.le_trans hf h.height))

theorem Calm.kept (hk : (outlook cfg x w).kept) : (outlook cfg x w').kept := by
  rcases hk with hk | hk
  · exact h.trees hk
  · exact .inr (h.safe hk)

/-- Before the claim is booked, a claim that is still afloat is still known to be. -/
theorem Calm.resumed_of_afloat (hp : ¬ Past (w'.record x)) (ha : Afloat cfg x w')
    (hr : w.resumed = true) : w'.resumed = true := by
  rcases h.resumed hr with hr | hr | hr
  · exact hr
  · exact absurd ha hr
  · exact absurd hr hp

theorem Calm.outlook : (outlook cfg x w).Le (outlook cfg x w') where
  sighted hs hc ha := h.resumed_of_afloat (fun hp => hp.2 hc) ha (hs (h.record.claiming hc) (h.afloat ha))
  kept := h.kept
  free := h.free
  proofSent := h.sent
  past := h.record.past
  booked hb ha := hb (h.record.active ha)

theorem Calm.doomed (hd : Doomed cfg x w) : Doomed cfg x w' := by
  obtain ⟨hc, hd⟩ := hd
  refine ⟨Nat.le_trans hc h.height, hd.imp (fun hn ha => hn (h.afloat ha)) fun ⟨hp, hr⟩ => ?_⟩
  exact ⟨Nat.le_trans hp h.height, h.record.past hr⟩
end

theorem TreeInv.calm (hi : TreeInv cfg x w) (h : Calm cfg x w w')
    (hfound : ∀ s, w'.found = some (.proof, s) → w.found = some (.proof, s) ∨ Past (w'.record x))
    (hdoomed : ∀ v ∈ w'.verdicts ++ w'.cleanups, v ∈ w.verdicts ++ w.cleanups ∨ Doomed cfg x w') :
    TreeInv cfg x w' where
  seen := h.seen
  landed := h.landed
  unhashed hp := by
    rw [h.record.hash hp]
    exact hi.unhashed fun hp' => hp (h.record.past hp')
  blind hs ha := h.resumed_of_afloat (fun hp => hp.1 hs) ha (hi.blind (h.record.active hs) (h.afloat ha))
  found s hs := (hfound s hs).elim (fun hs => h.record.past (hi.found s hs)) id
  each i r hr := (hi.each i r (h.cycles i r hr)).mono h.outlook
  one := by
    obtain ⟨k, hk⟩ := hi.one
    exact ⟨k, fun i r hr hb => hk i r (h.cycles i r hr) hb⟩
  doomed v hv := (hdoomed v hv).elim (fun hv => h.doomed (hi.doomed v hv)) id
  kept ht := by
    cases hw : w.store.trees x.id with
    | false => exact h.free (hi.kept hw)
    | true =>
      rcases h.trees hw with ht' | hs
      · rw [ht] at ht'
        cases ht'
      · exact .of_safe hs

/-! ## The record and the table -/

theorem recLe_book (ho : c.opens = false) (hd : c ≠ .onClaimDeferred) (r : SessionSnapshot) :
    RecLe r (c.book r) := by
  cases c with
  | claiming | proving => cases ho
  | onClaimDeferred => exact absurd rfl hd
  | onSessionClaimed root tx =>
    rw [book_onSessionClaimed]; split; exacts [.of_past (by simp [Past]), .refl r]
  | claimed => rw [book_claimed]; split; exacts [.refl r, .of_past (by simp [Past])]
  | onClaimTxError v => rw [book_onClaimTxError]; split; exacts [.refl r, .of_past (by simp [Past])]
  | onClaimWindowClosed => rw [book_onClaimWindowClosed]; split; exacts [.refl r, .of_past (by simp [Past])]
  | onClaimSkipped => rw [book_onClaimSkipped]; exact .of_past (by simp [Past])
  | onClaimObservedOnChain root tx =>
    rw [book_onClaimObservedOnChain]; split; exacts [.of_past (by simp [Past]), .refl r]
  | onClaimMissing => rw [book_onClaimMissing]; split; exacts [.refl r, .of_past (by simp [Past])]
  | onProofSubmitted tx => rw [book_onProofSubmitted]; constructor <;> simp
  | onProofTxError => rw [book_onProofTxError]; split; exacts [.refl r, .of_past (by simp [Past])]
  | onProofDeferred => rw [book_onProofDeferred]; split; exacts [.refl r, .of_past (by simp [Past])]
  | onProbabilisticProved => rw [book_onProbabilisticProved]; exact .of_past (by simp [Past])
  | onProofWindowClosed => rw [book_onProofWindowClosed]; exact .of_past (by simp [Past])
  | onSessionProved => rw [book_onSessionProved]; exact .of_past (by simp [Past])

theorem past_observed {root : Bytes} {tx : String} (hl : root.length = smstRootLen) :
    Past ((Callback.onClaimObservedOnChain root tx).book r) := by
  rw [book_onClaimObservedOnChain]
  split
  · simp [Past]
  next hn => constructor <;> (intro hs; exact hn ⟨hl, by rw [hs]; rfl⟩)

theorem book_claiming_active (h : r.state = .active) :
    Callback.claiming.book r = { r with state := .claiming } := by
  simp [Callback.book, Callback.body, complete_updateState, checkStateWrite, h]

theorem past_proving (h : Past r) : Past (Callback.proving.book r) := by
  simp only [Callback.book, Callback.body, persistProving, complete_updateState, Option.getD_some]
  split
  · exact h
  · simp [Past]

theorem recLe_observeProof (w : World) (tx : String) : RecLe (w.record x) ((observeProof x w tx).record x) := by
  simp only [World.record, observeProof, update_self, onProofObservedOnChain, Prog.complete, apply,
    reactivateProvedScript]
  split
  · exact .of_past (by simp [Past])
  · exact .refl _

/-- What the table asks for, and from where. -/
theorem determineTransition_cases {height : Nat} {windows : Option Windows} {why : String}
    (h : determineTransition r height windows = some (v, why)) :
    ∃ p, windows = some p ∧
      ((v = .claiming ∧ r.state = .active) ∨ (v = .proving ∧ Past r) ∨
        (v = .claimWindowClosed ∧ ¬ Past r ∧ p.claimClose ≤ height) ∨
        ((v = .proofWindowClosed ∨ v = .proved) ∧ Past r ∧ p.proofClose ≤ height)) := by
  cases windows with
  | none => cases h
  | some p =>
    cases hs : r.state with
    | active | claiming | claimed | proving =>
      simp only [determineTransition, hs] at h
      split_ifs at h <;> cases h <;> simp_all [Past]
    | _ => simp [determineTransition, hs] at h

/-! ## What the miner does without sending a claim -/

section
variable (hi : TreeInv cfg x w)
include hi

/-- The chain and what is out stay as they are. -/
theorem calm_local {resumed : Bool} {found : Option (Phase × SessionSnapshot)} {verdicts cleanups : List SessionState}
    (hentry : s.entries .claim x.id ≠ none → w.store.entries .claim x.id ≠ none)
    (hrecord : RecLe (w.record x) (s.sessions x.id))
    (htree : w.store.trees x.id = true → s.trees x.id = true ∨ Safe cfg x w)
    (hresumed : w.resumed = true → resumed = true ∨ ¬ Afloat cfg x w ∨ Past (s.sessions x.id)) :
    Calm cfg x w { w with store := s, resumed, found, verdicts, cleanups } := by
  have hafloat : Afloat cfg x { w with store := s, resumed, found, verdicts, cleanups } → Afloat cfg x w := by
    rintro (hl | ⟨hout, ht⟩)
    · exact .inl hl
    · exact .inr ⟨hout.imp_right hentry, ht⟩
  exact ⟨hi.seen, Nat.le_refl _, hi.landed, hafloat, id, id, hrecord, htree,
    fun hr => (hresumed hr).imp_right (.imp_left fun hn ha => hn (hafloat ha)), fun _ _ => id⟩

theorem TreeInv.block (lands : Bool) : TreeInv cfg x (block cfg x w lands) := by
  have hseen := hi.seen
  have hcalm : Calm cfg x w (Lifecycle.block cfg x w lands) := by
    unfold Lifecycle.block
    refine ⟨?_, Nat.le_refl _, ?_, ?_, ?_, id, .refl _, .inl, .inl, fun _ _ => id⟩
    · show w.height ≤ w.tip + 1
      omega
    · intro l hl
      split at hl
      next hc =>
        cases hl
        exact hc.2.2.2
      · exact hi.landed l hl
    · rintro (hl | ⟨hout, ht⟩)
      · split at hl
        next hc => exact .inr ⟨.inl hc.2.1, by omega⟩
        · exact .inl hl
      · exact .inr ⟨hout, Nat.lt_of_succ_lt ht⟩
    rintro (⟨hl, hc⟩ | hs)
    · refine .inl ⟨?_, Nat.le_succ_of_le hc⟩
      show (if _ then _ else _) = none
      rw [if_neg (by omega)]
      exact hl
    · exact .inr hs
  exact hi.calm hcalm (fun _ => .inl) fun _ => .inl

theorem TreeInv.see (height : Nat) :
    TreeInv cfg x { w with height := max w.height (min height w.tip) } := by
  have hseen := hi.seen
  have hle : w.height ≤ max w.height (min height w.tip) := Nat.le_max_left _ _
  refine hi.calm ⟨?_, hle, hi.landed, id, ?_, id, .refl _, .inl, .inl, fun _ _ => id⟩ (fun _ => .inl) fun _ => .inl
  · show max w.height (min height w.tip) ≤ w.tip
    omega
  rintro (hs | hs | hs)
  · exact .inl hs
  · exact .inr (.inl hs)
  · exact .inr (.inr (Nat.le_trans hs hle))

theorem TreeInv.unflag (h : ¬ Afloat cfg x w ∨ Past (w.record x)) :
    TreeInv cfg x { w with resumed := false } :=
  hi.calm (calm_local hi id (.refl _) .inl (fun _ => .inr h)) (fun _ => .inl) fun _ => .inl

theorem TreeInv.verdict {resumed : Bool}
    (hr : w.resumed = true → resumed = true ∨ ¬ Afloat cfg x w) (hd : Doomed cfg x w) :
    TreeInv cfg x { w with resumed := resumed, verdicts := v :: w.verdicts } := by
  have hcalm : Calm cfg x w { w with resumed := resumed, verdicts := v :: w.verdicts } :=
    calm_local hi id (.refl _) .inl (fun h => (hr h).imp_right .inl)
  exact hi.calm hcalm (fun _ => .inl) fun _ _ => .inr (hcalm.doomed hd)
end

theorem record_book (w : World) (c : Callback) : (w.book x c).record x = c.book (w.record x) := by
  unfold World.record World.book
  rw [sessions_session, if_pos rfl]

section
variable (hi : TreeInv cfg x w)
include hi

theorem calm_book (ho : c.opens = false) (hd : c ≠ .onClaimDeferred) :
    Calm cfg x w (w.book x c) := by
  have hrecord : RecLe (w.record x) ((w.book x c).record x) := by
    rw [record_book]
    exact recLe_book ho hd _
  exact calm_local hi id hrecord .inl .inl

theorem TreeInv.book (ho : c.opens = false) (hd : c ≠ .onClaimDeferred) :
    TreeInv cfg x (w.book x c) :=
  hi.calm (calm_book hi ho hd) (fun _ => .inl) fun _ => .inl

theorem TreeInv.noEntry : TreeInv cfg x (w.setEntry x .claim none) :=
  hi.calm (calm_local hi (fun h => absurd (by simp) h) (.refl _) .inl .inl)
    (fun _ => .inl) fun _ => .inl

theorem TreeInv.proofEntry (e : Option Entry) : TreeInv cfg x (w.setEntry x .proof e) :=
  hi.calm (calm_local hi (by simp) (.refl _) .inl .inl) (fun _ => .inl) fun _ => .inl
end

/-! ## The sweep and the pool -/

section
variable (hi : TreeInv cfg x w)
include hi

theorem TreeInv.resumed_of_mayHave (hp : ¬ Past (w.record x))
    (hm : mayHaveClaimOnChain (w.record x) w.resumed = false) : ¬ Afloat cfg x w := by
  simp only [mayHaveClaimOnChain, hi.unhashed hp, and_true, Bool.or_eq_false_iff, decide_eq_false_iff_not] at hm
  rcases past_or (w.record x) with ha | hc | hp'
  · intro h
    rw [hi.blind ha h] at hm
    exact absurd hm.2 (by decide)
  · exact absurd hc hm.1
  · exact absurd hp' hp

/-- An answer given for the close of the window or later is final. -/
theorem landed_of_notFound {answered : Nat} (ha : w.answers (.notFound answered) = true)
    (hc : (cfg.windows x.endHeight).claimClose ≤ answered) : w.landed = none := by
  simp only [World.answers, Bool.and_eq_true] at ha
  cases hl : w.landed with
  | none => rfl
  | some l =>
    have hle := hi.landed l hl
    have hlt : answered < l := by simpa [hl] using ha.2
    omega

theorem TreeInv.sweep {params : Bool} {q : ClaimQuery}
    (hq : ∀ answered, q = .notFound answered → (cfg.windows x.endHeight).claimClose ≤ answered) :
    TreeInv cfg x (sweep cfg x w params q) := by
  have hseen := hi.seen
  unfold Lifecycle.sweep
  dsimp only
  split
  · exact hi
  split
  next ht => refine hi.unflag (.inr ⟨fun hs => ?_, fun hs => ?_⟩) <;> (rw [hs] at ht; cases ht)
  cases hd : determineTransition (w.record x) w.height (if params then some (cfg.windows x.endHeight) else none) with
  | none => exact hi
  | some d =>
    obtain ⟨v, why⟩ := d
    obtain ⟨p, hp, hcase⟩ := determineTransition_cases hd
    obtain rfl : cfg.windows x.endHeight = p := by
      cases params with
      | false => cases hp
      | true => exact Option.some.inj hp
    rcases hcase with ⟨rfl, -⟩ | ⟨rfl, hpast⟩ | ⟨rfl, hpast, hclose⟩ | ⟨hv, hpast, hclose⟩
    · exact hi.calm (calm_local hi id (.refl _) .inl .inl) nofun fun _ => .inl
    · exact hi.calm (calm_local hi id (.refl _) .inl .inl) (fun _ _ => .inr hpast) fun _ => .inl
    · cases hm : mayHaveClaimOnChain (w.record x) w.resumed with
      | false =>
        have hn := hi.resumed_of_mayHave hpast hm
        exact hi.verdict .inl ⟨hclose, .inl hn⟩
      | true =>
        simp only [if_true]
        split
        next ha =>
          cases q with
          | error => exact hi
          | found root status =>
            dsimp only
            split
            next hl =>
              have hbook := hi.book (c := .onClaimObservedOnChain root (w.record x).claimTxHash) rfl nofun
              exact hbook.unflag (.inr (by rw [record_book]; exact past_observed hl))
            · exact hi
          | notFound answered =>
            have hl := landed_of_notFound hi ha.2 (hq answered rfl)
            have hn : ¬ Afloat cfg x w := not_afloat_of_closed hl (by omega)
            exact hi.verdict (fun _ => .inr hn) ⟨hclose, .inl hn⟩
        · exact hi
    have hdoomed : Doomed cfg x w :=
      ⟨Nat.le_trans (Nat.le_of_lt (Windows.claimClose_lt_proofClose _)) hclose, .inr ⟨hclose, hpast⟩⟩
    rcases hv with rfl | rfl <;> exact hi.verdict .inl hdoomed

theorem TreeInv.dropVerdict (v : SessionState) :
    TreeInv cfg x { w with verdicts := w.verdicts.erase v } := by
  refine hi.calm (calm_local hi id (.refl _) .inl .inl) (fun _ => .inl) fun u hu => .inl ?_
  rcases mem_append.1 hu with hu | hu
  · exact mem_append_left _ (mem_of_mem_erase hu)
  · exact mem_append_right _ hu

theorem TreeInv.addCleanup (hd : Doomed cfg x w) :
    TreeInv cfg x { w with cleanups := v :: w.cleanups } := by
  have hcalm : Calm cfg x w { w with cleanups := v :: w.cleanups } := calm_local hi id (.refl _) .inl .inl
  exact hi.calm hcalm (fun _ => .inl) fun _ _ => .inr (hcalm.doomed hd)
end

theorem Doomed.book (h : Doomed cfg x w) (hi : TreeInv cfg x w) (ho : c.opens = false) (hd : c ≠ .onClaimDeferred) :
    Doomed cfg x (w.book x c) :=
  (calm_book hi ho hd).doomed h

theorem TreeInv.execute (hi : TreeInv cfg x w) (v : SessionState) : TreeInv cfg x (execute x w v) := by
  unfold Lifecycle.execute
  split
  next hv =>
    have hdoomed : Doomed cfg x w := hi.doomed v (mem_append_left _ hv)
    have hdrop := hi.dropVerdict v
    have hdoomed' : Doomed cfg x { w with verdicts := w.verdicts.erase v } := hdoomed
    have hbooked : ∀ c : Callback, c.opens = false → c ≠ .onClaimDeferred →
        TreeInv cfg x { World.book x { w with verdicts := w.verdicts.erase v } c with cleanups := v :: w.cleanups } :=
      fun c ho hd => (hdrop.book ho hd).addCleanup (hdoomed'.book hdrop ho hd)
    cases v with
    | claimWindowClosed =>
      dsimp only
      split
      · exact hdrop
      · exact hbooked _ rfl nofun
    | proofWindowClosed | proved => exact hbooked _ rfl nofun
    | _ => exact hdrop
  · exact hi

theorem TreeInv.cleanup (hi : TreeInv cfg x w) (v : SessionState) : TreeInv cfg x (cleanup x w v) := by
  unfold Lifecycle.cleanup
  split
  next hv =>
    have hdoomed : Doomed cfg x w := hi.doomed v (mem_append_right _ hv)
    have hcleaned : TreeInv cfg x { w with
        store := execWrite w.store (.deleteTree x.id), resumed := false, cleanups := w.cleanups.erase v } := by
      refine hi.calm (calm_local hi id (.refl _) (fun _ => .inr (hdoomed.safe hi.seen)) (fun _ => .inr ?_))
        (fun _ => .inl) fun u hu => .inl ?_
      · exact hdoomed.2.imp_right And.right
      rcases mem_append.1 hu with hu | hu
      · exact mem_append_left _ hu
      · exact mem_append_right _ (mem_of_mem_erase hu)
    split
    · exact hcleaned.book rfl nofun
    · exact hcleaned
  · exact hi

/-! ## The reconciler -/

section
variable (hi : TreeInv cfg x w)
include hi

theorem TreeInv.resendClaim {e : Entry} (he : w.store.entries .claim x.id = some e) (r : Submit)
    (lost : Bool) : TreeInv cfg x (resendClaim cfg x w e r lost) := by
  unfold Lifecycle.resendClaim
  split
  · -- A message that is kept is afloat before it is sent again.
    have hafloat : Afloat cfg x { w.setEntry x .claim (some (resent e r)) with pending := w.pending || arrives lost r } →
        Afloat cfg x w := by
      rintro (hl | ⟨-, ht⟩)
      · exact .inl hl
      · exact .inr ⟨.inr (by simp [he]), ht⟩
    refine hi.calm ⟨hi.seen, Nat.le_refl _, hi.landed, hafloat, id, id, .refl _, .inl, .inl, fun _ _ => id⟩
      (fun _ => .inl) fun _ => .inl
  · exact hi

theorem TreeInv.reconcileClaim (q : ClaimQuery) (root : Bytes) (r : Submit) (lost : Bool) :
    TreeInv cfg x (reconcileClaim cfg x w q root r lost) := by
  unfold Lifecycle.reconcileClaim
  split
  · exact hi
  next e he =>
    split
    · cases q with
      | found root' status => exact (hi.book (c := .onClaimObservedOnChain root e.txHash) rfl nofun).noEntry
      | notFound answered =>
        dsimp only
        split
        · exact hi.noEntry
        · exact hi.resendClaim he r lost
      | error =>
        dsimp only
        split
        · split
          · exact hi
          · exact hi.noEntry
        · exact hi.resendClaim he r lost
    · exact hi

theorem TreeInv.proofSent (sent : Bool) :
    TreeInv cfg x { w with proofSent := w.proofSent || sent } := by
  have hsent : w.proofSent = true → (w.proofSent || sent) = true := fun h => by rw [h]; rfl
  refine hi.calm ⟨hi.seen, Nat.le_refl _, hi.landed, id, ?_, hsent, .refl _, .inl, .inl, fun _ _ => id⟩
    (fun _ => .inl) fun _ => .inl
  exact fun h => h.imp_right (.imp_left hsent)

theorem TreeInv.reconcileProof (q : ClaimQuery) (r : Submit) (judged lost : Bool) :
    TreeInv cfg x (reconcileProof cfg x w q r judged lost) := by
  have hresend : ∀ e, TreeInv cfg x (resendProof cfg x w e r judged lost) := by
    intro e
    unfold resendProof
    split
    · split
      · exact hi.proofEntry none
      · exact hi.proofEntry none
      · exact (hi.proofEntry _).proofSent _
    · exact hi
  have hlate : ∀ e, TreeInv cfg x (if (cfg.windows x.endHeight).proofClose < w.height then w.setEntry x .proof none
      else resendProof cfg x w e r judged lost) := by
    intro e
    split
    · exact hi.proofEntry none
    · exact hresend e
  unfold Lifecycle.reconcileProof
  split
  · exact hi
  next e he =>
    split
    · split
      · have hobserved : TreeInv cfg x (observeProof x w e.txHash) :=
          hi.calm (calm_local hi id (recLe_observeProof w e.txHash) .inl .inl) (fun _ => .inl) fun _ => .inl
        exact hobserved.proofEntry none
      · exact hi.proofEntry none
      · exact hlate e
    · exact hi
end

/-! ## One cycle among the others -/

section
variable (hi : TreeInv cfg x w)
include hi

theorem TreeInv.setCycle {q : Option Running}
    (hok : ∀ r, q = some r → r.Ok (outlook cfg x w) x.id)
    (hbusy : ∀ r, q = some r → r.Busy x.id → ∃ r₀, w.cycles i = some r₀ ∧ r₀.Busy x.id) :
    TreeInv cfg x { w with cycles := update w.cycles i q } := by
  refine { hi with each := fun j r hr => ?_, one := ?_ }
  · by_cases hj : j = i
    · subst hj
      exact hok r (by simpa using hr)
    · exact hi.each j r (by simpa [hj] using hr)
  obtain ⟨k, hk⟩ := hi.one
  refine ⟨k, fun j r hr hb => ?_⟩
  by_cases hj : j = i
  · subst hj
    obtain ⟨r₀, hr₀, hb₀⟩ := hbusy r (by simpa using hr) hb
    exact hk j r₀ hr₀ hb₀
  · exact hk j r (by simpa [hj] using hr) hb

/-- Beside the cycle that has the claim in hand every other one is done with it. -/
theorem TreeInv.alone (w' : World) {r r' : Running} (hr : w.cycles i = some r)
    (hb : r.Busy x.id) (hcycles : w'.cycles = update w.cycles i (some r'))
    (hsent : w.proofSent = true → w'.proofSent = true) (hpast : Past (w.record x) → Past (w'.record x))
    (hok : r'.Ok (outlook cfg x w') x.id) :
    (∀ j r, w'.cycles j = some r → r.Ok (outlook cfg x w') x.id) ∧
      ∃ k, ∀ j r, w'.cycles j = some r → r.Busy x.id → j = k := by
  obtain ⟨k, hk⟩ := hi.one
  obtain rfl := hk i r hr hb
  have hother : ∀ j r, j ≠ i → w'.cycles j = some r → w.cycles j = some r ∧ ¬ r.Busy x.id := by
    intro j r hj hr
    rw [hcycles, update_of_ne hj] at hr
    exact ⟨hr, fun hb => hj (hk j r hr hb)⟩
  refine ⟨fun j q hq => ?_, i, fun j q hq hb => ?_⟩
  · by_cases hj : j = i
    · subst hj
      rw [hcycles, update_self] at hq
      cases hq
      exact hok
    · obtain ⟨hq, hb⟩ := hother j q hj hq
      exact (hi.each j q hq).idle hb hsent hpast
  · by_contra hj
    exact (hother j q hj hq).2 hb

/-- The claim goes afloat at the hands of the cycle that has it: the session is booked, and its tree is there. -/
theorem TreeInv.launch (pending : Bool) {r r' : Running} (hr : w.cycles i = some r)
    (hb : r.Busy x.id) (hbooked : (w.record x).state ≠ .active) (hkept : (outlook cfg x w).kept)
    (hsessions : s.sessions = w.store.sessions) (htrees : s.trees = w.store.trees)
    (hok : r'.Ok (outlook cfg x { w with store := s, pending := pending }) x.id) :
    TreeInv cfg x { w with store := s, pending := pending, cycles := update w.cycles i (some r') } := by
  obtain ⟨sessions, entries, trees⟩ := s
  obtain rfl : sessions = w.store.sessions := hsessions
  obtain rfl : trees = w.store.trees := htrees
  obtain ⟨heach, hone⟩ := hi.alone { w with
    store := ⟨w.store.sessions, entries, w.store.trees⟩, pending := pending
    cycles := update w.cycles i (some r') } hr hb rfl id id hok
  have hseen := hi.seen
  refine ⟨hi.seen, hi.landed, hi.unhashed, fun ha => absurd ha hbooked, hi.found, heach, hone, fun v hv => ?_, fun ht => ?_⟩
  · obtain ⟨hc, hd⟩ := hi.doomed v hv
    refine ⟨hc, ?_⟩
    rcases hd with hn | hd
    · have hl := landed_of_not_afloat hn
      exact .inl (not_afloat_of_closed hl (Nat.le_trans hc hseen))
    · exact .inr hd
  rcases hkept with hk | hk
  · rw [hk] at ht
    cases ht
  · exact .of_safe hk

theorem TreeInv.abandonBatch (i : Nat) : TreeInv cfg x (abandonBatch w i) := by
  unfold Lifecycle.abandonBatch
  split
  · exact hi.setCycle (fun _ h => by cases h) fun _ h => by cases h
  · exact hi
end

theorem refresh_ids (s : Stores) (unread : SessionID → Bool) (batch : List Snap) :
    ((refresh s unread batch).map (·.id)).Sublist (batch.map (·.id)) := by
  induction batch with
  | nil => exact List.Sublist.refl _
  | cons y ys ih =>
    unfold refresh
    rw [filterMap_cons]
    split
    · exact ih.cons _
    next z hz =>
      have hid : z.id = y.id := by
        dsimp only at hz
        split_ifs at hz <;> cases hz <;> rfl
      rw [map_cons, map_cons, hid]
      exact ih.cons_cons _

theorem startClaims_ids (batch : List Snap) : (startClaims batch).ids.Perm (batch.map (·.id)) :=
  (perm_groupByEndHeight batch).map _

theorem TreeInv.beginCycle (hi : TreeInv cfg x w) (i : Nat) (unread : List SessionID) :
    TreeInv cfg x (beginCycle w i unread) := by
  unfold Lifecycle.beginCycle
  split
  next batch hw =>
    obtain ⟨hnd, hbatch⟩ := hi.each i _ hw
    have hsub := refresh_ids w.store (· ∈ unread) batch
    have hmem : ∀ id ∈ (startClaims (refresh w.store (· ∈ unread) batch)).ids, id ∈ batch.map (·.id) :=
      fun id hid => hsub.subset ((startClaims_ids _).mem_iff.1 hid)
    refine hi.setCycle (fun r hr => ?_) fun r hr hb => ⟨_, hw, ?_⟩
    · cases hr
      refine ⟨(startClaims_ids _).nodup_iff.2 (hnd.sublist hsub), nofun, Nat.le_refl _, fun he => ?_, nofun, ?_, trivial⟩
      · exact (hbatch (hmem _ he)).1
      rintro ((hid | hid) | ⟨_, hw, -⟩)
      · exact (hbatch (hmem _ hid)).2
      · cases hid
      · cases hw
    cases hr
    rcases hb with (hid | hid) | ⟨_, hw, -⟩
    · exact hmem _ hid
    · cases hid
    · cases hw
  · exact hi

/-- The sweep hands the session over. Before it does no cycle has it, since it is not booked. -/
theorem TreeInv.startBatch (hi : TreeInv cfg x w) (i : Nat) (before after : List Snap)
    (hactive : ∀ s, w.found = some (.claim, s) → (w.record x).state = .active) :
    TreeInv cfg x (startBatch x w i before after) := by
  unfold Lifecycle.startBatch
  split
  next phase session hfound hfree =>
    dsimp only
    split
    next hnd =>
      cases phase with
      | claim =>
        have hs := hactive session hfound
        have hrecord : (w.book x .claiming).record x = { w.record x with state := .claiming } := by
          rw [record_book, book_claiming_active hs]
        have hidle : ∀ j r, w.cycles j = some r → ¬ r.Busy x.id :=
          fun j r hr hb => (hi.each j r hr).booked hb hs
        refine { seen := hi.seen, landed := hi.landed, unhashed := fun _ => ?_, blind := fun ha => ?_, found := nofun,
                 each := ?_, one := ⟨i, fun j r hr hb => ?_⟩, doomed := ?_, kept := hi.kept }
        · show ((w.book x .claiming).record x).claimTxHash = ""
          rw [hrecord]
          exact hi.unhashed fun hp => hp.1 hs
        · have ha : ((w.book x .claiming).record x).state = .active := ha
          rw [hrecord] at ha
          cases ha
        · intro j r hr
          by_cases hj : j = i
          · subst hj
            obtain rfl : Running.waiting _ = r := by simpa using hr
            refine ⟨hnd, fun _ => ⟨fun _ ha => hi.blind hs ha, fun ha => ?_⟩⟩
            have ha : ((w.book x .claiming).record x).state = .active := ha
            rw [hrecord] at ha
            cases ha
          · have hr : w.cycles j = some r := by simpa [hj] using hr
            exact (hi.each j r hr).idle (hidle j r hr) id fun hp => absurd hs hp.1
        · by_contra hj
          exact hidle j r (by simpa [hj] using hr) hb
        intro v hv
        obtain ⟨hc, hd⟩ := hi.doomed v hv
        exact ⟨hc, .inl (hd.elim id fun h => absurd hs h.2.1)⟩
      | proof =>
        have hp := hi.found session hfound
        have hp' : Past ((w.book x .proving).record x) := by
          rw [record_book]
          exact past_proving hp
        have hbook : TreeInv cfg x { w.book x .proving with found := none } :=
          hi.calm (calm_local hi id (.of_past hp') .inl .inl) nofun fun _ => .inl
        refine hbook.setCycle (fun r hr => ?_) fun r hr hb => ?_
        · cases hr
          exact ⟨hp', nofun, nofun⟩
        · cases hr
          exact hb.elim
    · exact hi
  · exact hi

/-! ## What a cycle decides -/

variable (cfg x) in
/-- A cycle skips the session only if it was never resumed, and hands it back only if none of its sends is
without an answer. -/
def CarefulAt (w : World) : Running → Answer → Prop
  | .cycle (.claims (.building _ _)) _ _, .claimBuilds results =>
    ∀ r ∈ results, r.1.id = x.id → skippedWrites r ≠ [] → (w.record x).state = .claiming ∧ w.resumed = false
  | .cycle (.claims (.sending _ g remaining n)) _ _, .submit .windowRefused _ =>
    (cfg.windows g.endHeight).claimClose ≤ w.height ∨ n = 1 ∨ x.id ∉ remaining.map (·.snap.id)
  | _, _ => True

/-- The cycle takes up no session it did not have. -/
theorem held_of_next {o : Outlook} (h : ClaimOk o id t [])
    (hback : ∀ c g remaining n ctxDone, t = .sending c g remaining n → a = .submit .windowRefused ctxDone →
      (cfg.windows g.endHeight).claimClose ≤ m.height ∨ n = 1 ∨ id ∉ remaining.map (·.snap.id))
    (hb : (claimNext cfg m t a).2.1.Held id ∨ ∃ wr ∈ (claimNext cfg m t a).1, wr.Touches id) : t.Held id := by
  -- What it relies on can be anything, so let being booked be having the session.
  have h' : ClaimOk ⟨True, True, True, True, True, t.Held id⟩ id t [] := by
    refine ⟨h.nodup, h.apart, h.attempt, fun _ => trivial, fun _ => trivial, ?_, trivial⟩
    rintro (hh | ⟨_, hw, -⟩)
    · exact hh
    · cases hw
  exact (claimOk_next h' (fun _ _ _ _ _ _ _ _ _ => ⟨fun _ => trivial, fun _ => trivial⟩) hback).booked hb

/-- A decision of a claim cycle changes nothing outside, or a transaction with the session's message is out. -/
theorem effect_claims (w : World) (lost : Bool) (t : ClaimStage) (a : Answer) :
    w.effect x lost (.claims t) a = w ∨
      ∃ c g remaining n r ctxDone, t = .sending c g remaining n ∧ a = .submit r ctxDone ∧
        x.id ∈ remaining.map (·.snap.id) ∧ arrives lost r = true ∧
          w.effect x lost (.claims t) a = { w with pending := true } := by
  unfold World.effect
  split
  next c g remaining n r ctxDone ht =>
    cases ht
    by_cases h : x.id ∈ remaining.map (·.snap.id) ∧ arrives lost r = true
    · exact .inr ⟨c, g, remaining, n, r, ctxDone, rfl, rfl, h.1, h.2,
        by simp only [h, decide_true, Bool.and_true, Bool.or_true]⟩
    refine .inl ?_
    have hb : (decide (x.id ∈ remaining.map (·.snap.id)) && arrives lost r) = false := by
      rw [Bool.eq_false_iff]
      intro hb
      rw [Bool.and_eq_true, decide_eq_true_eq] at hb
      exact h hb
    simp only [hb, Bool.or_false]
  next ht => cases ht
  next ht => cases ht
  · exact .inl rfl

theorem TreeInv.decideClaims (hi : TreeInv cfg x w) (hw : w.cycles i = some (.cycle (.claims t) [] m))
    (hadmits : admits x w (.claims t) a = true) (hcare : CarefulAt cfg x w (.cycle (.claims t) [] m) a) :
    TreeInv cfg x (decideStage cfg x w i a lost) := by
  have hok : ClaimOk (outlook cfg x w) x.id t [] := hi.each i _ hw
  have hback : ∀ c g remaining n ctxDone, t = .sending c g remaining n → a = .submit .windowRefused ctxDone →
      (cfg.windows g.endHeight).claimClose ≤ w.height ∨ n = 1 ∨ x.id ∉ remaining.map (·.snap.id) := by
    rintro c g remaining n ctxDone rfl rfl
    exact hcare
  have hnext := claimOk_next (m := { m with height := w.height }) hok (a := a) (by
    rintro c g results rfl rfl hperm r hr hid
    refine ⟨fun hb => .inl ?_, fun hskip => .inl fun ha => ?_⟩
    · have hall := all_eq_true.1 hadmits r hr
      simpa [hid, hb] using hall
    -- The session is ahead, so what may be out is known to be, and nothing is.
    obtain ⟨hs, hres⟩ := hcare r hr hid hskip
    have hmem : r.1 ∈ g.snaps := mem_of_mem_filter (hperm.mem_iff.1 (mem_map_of_mem hr))
    have hsight := hok.early (.inl (hid ▸ mem_map_of_mem hmem)) hs ha
    rw [hres] at hsight
    cases hsight) hback
  have hheld := held_of_next (m := { m with height := w.height }) hok hback
  unfold decideStage
  simp only [hw, hadmits, if_true]
  rcases effect_claims (x := x) w lost t a with he | ⟨c, g, remaining, n, r, ctxDone, rfl, rfl, hmem, harr, he⟩
  · rw [he]
    refine hi.setCycle (fun r hr => ?_) fun r hr hb => ⟨_, hw, .inl (hheld ?_)⟩
    · cases hr
      exact hnext
    · cases hr
      exact hb
  rw [he]
  have hbusy : Running.Busy x.id (.cycle (.claims (.sending c g remaining n)) [] m) := .inl (.inr hmem)
  have hbooked : (w.record x).state ≠ .active := hok.booked hbusy
  have hkept := hok.hand hmem
  let m' := Mem.recordSent { m with height := w.height } .claim (remaining.map (·.snap.id)) r
  obtain ⟨hearly, hqueue⟩ : ¬ (submitClaims cfg m' c g remaining n r ctxDone).2.Early x.id ∧
      (submitClaims cfg m' c g remaining n r ctxDone).1 = [] := not_early_of_arrives hok hmem harr
  have hafter : Running.Ok (outlook cfg x { w with pending := true }) x.id
      (.cycle (.claims (claimNext cfg { m with height := w.height } (.sending c g remaining n) (.submit r ctxDone)).2.1)
        (claimNext cfg { m with height := w.height } (.sending c g remaining n) (.submit r ctxDone)).1
        (claimNext cfg { m with height := w.height } (.sending c g remaining n) (.submit r ctxDone)).2.2) := by
    refine ⟨hnext.nodup, hnext.apart, hnext.attempt, fun he => absurd he hearly, fun _ => hkept, fun _ => hbooked, ?_⟩
    show QueueOk _ _ _ (submitClaims cfg m' c g remaining n r ctxDone).1
    rw [hqueue]
    trivial
  exact hi.launch true hw hbusy hbooked hkept rfl rfl hafter

theorem TreeInv.decideProofs (hi : TreeInv cfg x w) {u : ProofStage}
    (hw : w.cycles i = some (.cycle (.proofs u) [] m)) (hadmits : admits x w (.proofs u) a = true) :
    TreeInv cfg x (decideStage cfg x w i a lost) := by
  have hok : ProofOk (outlook cfg x w) x.id u [] := hi.each i _ hw
  have hpast : Past (w.record x) := hok.past
  have heffect : TreeInv cfg x (w.effect x lost (.proofs u) a) := by
    unfold World.effect
    split
    next hu => cases hu
    · exact hi.proofSent _
    · refine hi.calm (calm_local hi id (.refl _) .inl (fun _ => .inr (.inr hpast))) (fun _ => .inl) fun _ => .inl
    · exact hi
  have hcycles : (w.effect x lost (.proofs u) a).cycles = w.cycles := by
    unfold World.effect
    split <;> rfl
  have hok' : ProofOk (outlook cfg x (w.effect x lost (.proofs u) a)) x.id u [] :=
    heffect.each i (.cycle (.proofs u) [] m) (by rw [hcycles]; exact hw)
  have hnext : ProofOk (outlook cfg x (w.effect x lost (.proofs u) a)) x.id
      (proofNext cfg { m with height := w.height } u a).2.1 (proofNext cfg { m with height := w.height } u a).1 :=
    proofOk_next hok' (by
    rintro c y root rfl rfl hid
    have ha : w.answers (.found root .validated) = true := by simpa [admits, hid] using hadmits
    show w.proofSent = true
    simp only [World.answers, Bool.and_eq_true] at ha
    simpa using ha.2) (by
    rintro c y msg n tx ctxDone rfl rfl hid
    show (w.proofSent || (decide (y.id = x.id) && arrives lost (.accepted tx))) = true
    simp [hid, arrives])
  unfold decideStage
  simp only [hw, hadmits, if_true]
  have hset := heffect.setCycle (i := i) (q := some (.cycle
    (next cfg { m with height := w.height } (.proofs u) a).2.1 (next cfg { m with height := w.height } (.proofs u) a).1
    (next cfg { m with height := w.height } (.proofs u) a).2.2)) (fun r hr => by cases hr; exact hnext)
    fun r hr hb => by cases hr; exact hb.elim
  rwa [hcycles] at hset

theorem TreeInv.decideStage (hi : TreeInv cfg x w) (hcare : ∀ r, w.cycles i = some r → CarefulAt cfg x w r a) :
    TreeInv cfg x (decideStage cfg x w i a lost) := by
  cases hw : w.cycles i with
  | none =>
    unfold Lifecycle.decideStage
    simp only [hw]
    exact hi
  | some r =>
    match r with
    | .waiting batch | .cycle t (wr :: ws) m =>
      unfold Lifecycle.decideStage
      simp only [hw]
      exact hi
    | .cycle t [] m =>
      cases hadmits : admits x w t a with
      | false =>
        unfold Lifecycle.decideStage
        simp only [hw, hadmits]
        exact hi
      | true =>
        cases t with
        | claims t => exact hi.decideClaims hw hadmits (hcare _ hw)
        | proofs u => exact hi.decideProofs hw hadmits

/-! ## What a cycle writes -/

theorem Running.Ok.tail {o : Outlook} {t : Stage} (h : Running.Ok o id (.cycle t (wr :: ws) m)) :
    Running.Ok o id (.cycle t ws m) := by
  cases t with
  | claims t => exact ClaimOk.tail h
  | proofs u =>
    exact ⟨h.past, h.out, fun w hw => h.queue w (.tail wr hw)⟩

theorem Running.Busy.of_tail {t : Stage} (h : Running.Busy id (.cycle t ws m)) :
    Running.Busy id (.cycle t (wr :: ws) m) := by
  cases t with
  | claims t => exact h.imp_right fun ⟨w', hw', ht⟩ => ⟨w', .tail wr hw', ht⟩
  | proofs u => exact h

theorem TreeInv.popWrite (hi : TreeInv cfg x { w with store := s }) {t : Stage}
    (hw : w.cycles i = some (.cycle t (wr :: ws) m)) :
    TreeInv cfg x { w with store := s, cycles := update w.cycles i (some (.cycle t ws m)) } := by
  have hok := hi.each i (.cycle t (wr :: ws) m) hw
  refine TreeInv.setCycle (w := { w with store := s }) hi (fun q hq => ?_) fun q hq hb => ⟨_, hw, ?_⟩
  · cases hq
    exact hok.tail
  · cases hq
    exact hb.of_tail

section
variable (hi : TreeInv cfg x w)
include hi

/-- A write that is not to the session's tree or its kept claim, and neither opens nor defers the session. -/
theorem TreeInv.writeQuiet (h : ¬ wr.Touches x.id) :
    TreeInv cfg x { w with store := execWrite w.store wr } := by
  cases wr with
  | session y c =>
    by_cases hid : y = x.id
    · subst hid
      have ho : c.opens = false := by
        rw [Bool.eq_false_iff]
        exact fun ho => h (.inr (.inr (.inr ⟨c, rfl, ho⟩)))
      exact hi.book ho fun hd => h (.inl (by rw [hd]; rfl))
    have hs : (execWrite w.store (.session y c)).sessions x.id = w.store.sessions x.id := by
      rw [sessions_session, if_neg (Ne.symm hid)]
    exact hi.calm (calm_local hi (fun he => he) (by rw [hs]; exact .refl _) .inl .inl) (fun _ => .inl) fun _ => .inl
  | put phase y e =>
    refine hi.calm (calm_local hi (fun he => ?_) (.refl _) .inl .inl) (fun _ => .inl) fun _ => .inl
    by_cases hp : phase = .claim
    · subst hp
      have hid : x.id ≠ y := by
        rintro rfl
        exact h (.inr (.inl ⟨e, rfl⟩))
      simpa [execWrite, hid] using he
    · simpa [execWrite, Ne.symm hp] using he
  | deleteTree y =>
    have hid : x.id ≠ y := by
      rintro rfl
      exact h (.inr (.inr (.inl rfl)))
    refine hi.calm (calm_local hi (fun he => he) (.refl _) (fun ht => .inl ?_) .inl) (fun _ => .inl) fun _ => .inl
    simpa [execWrite, hid] using ht

/-- Handing the session back: what may be out of it the miner knows it has to ask for. -/
theorem TreeInv.writeDeferral (hw : w.cycles i = some (.cycle (.claims t) (.session x.id .onClaimDeferred :: ws) m)) :
    TreeInv cfg x { w.book x .onClaimDeferred with cycles := update w.cycles i (some (.cycle (.claims t) ws m)) } := by
  have hok : ClaimOk (outlook cfg x w) x.id t (.session x.id .onClaimDeferred :: ws) := hi.each i _ hw
  obtain ⟨hsight, hheld, hrest⟩ := hok.queue.1 rfl
  have hrecord : (w.book x .onClaimDeferred).record x = (w.record x) ∨
      ((w.record x).state = .claiming ∧ (w.record x).claimTxHash = "" ∧
        (w.book x .onClaimDeferred).record x = { w.record x with state := .active }) := by
    rw [record_book, book_onClaimDeferred]
    split
    next hc => exact .inr ⟨hc.1, hc.2, rfl⟩
    · exact .inl rfl
  have hpast : Past (w.record x) → Past ((w.book x .onClaimDeferred).record x) := by
    rcases hrecord with h | ⟨hs, -, -⟩
    · rw [h]
      exact id
    · exact fun hp => absurd hs hp.2
  have hafter : ClaimOk (outlook cfg x (w.book x .onClaimDeferred)) x.id t ws := by
    refine hok.tail.last hrest (fun _ hs ha => ?_) (fun hh => absurd (.inr hh) hheld) fun hh => absurd hh hheld
    rcases hrecord with h | ⟨-, -, h⟩
    · exact hsight (by rwa [h] at hs) ha
    · rw [h] at hs
      cases hs
  have hbusy : Running.Busy x.id (.cycle (.claims t) (.session x.id .onClaimDeferred :: ws) m) :=
    .inr ⟨_, .head ws, .inl rfl⟩
  obtain ⟨heach, hone⟩ := hi.alone { w.book x .onClaimDeferred with
    cycles := update w.cycles i (some (.cycle (.claims t) ws m)) } hw hbusy rfl id hpast hafter
  refine ⟨hi.seen, hi.landed, fun hp => ?_, fun hs ha => ?_, fun q hq => hpast (hi.found q hq), heach, hone, fun v hv => ?_,
    hi.kept⟩
  · show ((w.book x .onClaimDeferred).record x).claimTxHash = ""
    rcases hrecord with h | ⟨-, hh, h⟩
    · rw [h]
      exact hi.unhashed fun hp' => hp (hpast hp')
    · rw [h]
      exact hh
  · have hs : ((w.book x .onClaimDeferred).record x).state = .active := hs
    rcases hrecord with h | ⟨hc, -, -⟩
    · rw [h] at hs
      exact hi.blind hs ha
    · exact hsight hc ha
  · obtain ⟨hc, hd⟩ := hi.doomed v hv
    exact ⟨hc, hd.imp_right fun ⟨hp, hr⟩ => ⟨hp, hpast hr⟩⟩

theorem TreeInv.writeDeletion (hw : w.cycles i = some (.cycle (.claims t) (.deleteTree x.id :: ws) m)) :
    TreeInv cfg x { w with
      store := execWrite w.store (.deleteTree x.id)
      cycles := update w.cycles i (some (.cycle (.claims t) ws m)) } := by
  have hok : ClaimOk (outlook cfg x w) x.id t (.deleteTree x.id :: ws) := hi.each i _ hw
  obtain ⟨hfree, hhand, hrest⟩ := hok.queue.2.2.1 rfl
  have hbusy : Running.Busy x.id (.cycle (.claims t) (.deleteTree x.id :: ws) m) :=
    .inr ⟨_, .head ws, .inr (.inr (.inl rfl))⟩
  have hbooked : (w.record x).state ≠ .active := hok.booked hbusy
  have hafter : ClaimOk (outlook cfg x { w with store := execWrite w.store (.deleteTree x.id) }) x.id t ws :=
    hok.tail.last hrest id (fun hh => absurd hh hhand) fun _ => hbooked
  obtain ⟨heach, hone⟩ := hi.alone { w with
    store := execWrite w.store (.deleteTree x.id)
    cycles := update w.cycles i (some (.cycle (.claims t) ws m)) } hw hbusy rfl id id hafter
  exact { hi with each := heach, one := hone, kept := fun _ => hfree }

theorem TreeInv.writeNext (i : Nat) : TreeInv cfg x (writeNext w i) := by
  unfold Lifecycle.writeNext
  split
  next t wr ws m hw =>
    by_cases htouch : wr.Touches x.id
    · cases t with
      | claims t =>
        have hok : ClaimOk (outlook cfg x w) x.id t (wr :: ws) := hi.each i _ hw
        have hbusy : Running.Busy x.id (.cycle (.claims t) (wr :: ws) m) := .inr ⟨wr, .head ws, htouch⟩
        rcases htouch with hd | hp | hd | ho
        · obtain rfl := hd
          exact hi.writeDeferral hw
        · obtain ⟨hkept, -, -⟩ := hok.queue.2.1 hp
          obtain ⟨e, rfl⟩ := hp
          exact hi.launch w.pending hw hbusy (hok.booked hbusy) hkept rfl rfl (hok.put ⟨e, rfl⟩ id id)
        · obtain rfl := hd
          exact hi.writeDeletion hw
        · exact absurd ho hok.queue.2.2.2.1
      | proofs u =>
        have hok : ProofOk (outlook cfg x w) x.id u (wr :: ws) := hi.each i _ hw
        obtain ⟨hd, hp, hx, ho⟩ := hok.queue wr (.head ws)
        have hdeletes : wr.Deletes x.id := by
          rcases htouch with h | h | h | h
          exacts [absurd h hd, absurd h hp, h, absurd h ho]
        have hsafe : Safe cfg x w := .inr (.inl (hx hdeletes))
        obtain rfl := hdeletes
        refine TreeInv.popWrite ?_ hw
        exact hi.calm (calm_local hi (fun he => he) (.refl _) (fun _ => .inr hsafe) .inl) (fun _ => .inl) fun _ => .inl
    · exact (hi.writeQuiet htouch).popWrite hw
  · exact hi
end

/-! ## A restart -/

/-- With nothing left of the process, only the record, the flag and the tree matter. -/
theorem TreeInv.of_emptied (hseen : w.height ≤ w.tip)
    (hlanded : ∀ l, w.landed = some l → l ≤ (cfg.windows x.endHeight).claimClose)
    (hhash : ¬ Past (w.record x) → (w.record x).claimTxHash = "")
    (hblind : (w.record x).state = .active → Afloat cfg x w → w.resumed = true)
    (hkept : w.store.trees x.id = false → TreeFree cfg x w) (hfound : w.found = none)
    (hcycles : ∀ i, w.cycles i = none) (hverdicts : w.verdicts ++ w.cleanups = []) : TreeInv cfg x w := by
  refine ⟨hseen, hlanded, hhash, hblind, ?_, ?_, ⟨0, ?_⟩, ?_, hkept⟩
  · simp [hfound]
  · simp [hcycles]
  · simp [hcycles]
  · simp [hverdicts]

theorem TreeInv.restart (hi : TreeInv cfg x w) (hcare : ¬ ((w.record x).state = .active ∧ w.resumed = true)) :
    TreeInv cfg x (restart x w) := by
  have hfresh : ∀ (c : Callback) (b : Bool),
      (¬ Past (c.book (w.record x)) → (c.book (w.record x)).claimTxHash = "") →
      ((c.book (w.record x)).state = .active → Afloat cfg x w → b = true) →
      TreeInv cfg x { World.book x { w with
        resumed := false, found := none, cycles := fun _ => none, verdicts := [], cleanups := [] } c with resumed := b } := by
    intro c b hhash hblind
    have hrecord : (w.book x c).record x = c.book (w.record x) := record_book w c
    refine .of_emptied hi.seen hi.landed (fun hp => ?_) (fun hs ha => ?_) hi.kept rfl (fun _ => rfl) rfl
    · exact (congrArg SessionSnapshot.claimTxHash hrecord).trans (hhash fun hp' => hp (by rwa [← hrecord] at hp'))
    · exact hblind ((congrArg SessionSnapshot.state hrecord).symm.trans hs) ha
  unfold Lifecycle.restart resumeTo
  split_ifs with hproof hclaim
  · have hp : Past (w.record x) := by simp [Past, hproof.1]
    have hp' : Past (Callback.claimed.book (w.record x)) := (recLe_book (c := .claimed) rfl nofun _).past hp
    exact hfresh .claimed false (fun h => absurd hp' h) fun h => absurd h hp'.1
  · refine hfresh .onClaimDeferred true (fun _ => ?_) fun _ _ => rfl
    rw [book_onClaimDeferred, if_pos hclaim]
    exact hclaim.2
  · refine .of_emptied hi.seen hi.landed hi.unhashed (fun hs ha => ?_) hi.kept rfl (fun _ => rfl) rfl
    exact absurd ⟨hs, hi.blind hs ha⟩ hcare

/-! ## Every careful history -/

variable (cfg x) in
/-- The steps after which a verdict of the miner is as good as the chain's: the sweep's read is answered for the
close of the window, a resumed session is not forgotten, and it is booked claiming only from active. -/
def Careful (w : World) : Act → Prop
  | .sweep _ (.notFound answered) => (cfg.windows x.endHeight).claimClose ≤ answered
  | .sweepUnread => w.resumed = false
  | .start _ _ _ => ∀ f ∈ w.found, f.1 = .claim → (w.record x).state = .active
  | .decide i a _ => ∀ r ∈ w.cycles i, CarefulAt cfg x w r a
  | .restart => ¬ ((w.record x).state = .active ∧ w.resumed = true)
  | _ => True

theorem TreeInv.act (hi : TreeInv cfg x w) {a : Act} (hcare : Careful cfg x w a) : TreeInv cfg x (act cfg x w a) := by
  cases a with
  | block lands => exact hi.block lands
  | see height => exact hi.see height
  | sweep params q =>
    refine hi.sweep fun answered hq => ?_
    subst hq
    exact hcare
  | sweepUnread =>
    have hres : w.resumed = false := hcare
    simp only [Lifecycle.act]
    split
    · exact hi
    · rw [← hres]
      exact hi
  | start i before after => exact hi.startBatch i before after fun s hs => hcare _ hs rfl
  | begin i unread => exact hi.beginCycle i unread
  | abandon i => exact hi.abandonBatch i
  | decide i a lost => exact hi.decideStage fun r hr => hcare r hr
  | write i => exact hi.writeNext i
  | execute v => exact hi.execute v
  | cleanup v => exact hi.cleanup v
  | reconcileClaim q root r lost => exact hi.reconcileClaim q root r lost
  | reconcileProof q r judged lost => exact hi.reconcileProof q r judged lost
  | restart => exact hi.restart hcare

variable (x) in
/-- A session that takes relays: nothing has been sent or kept for it. -/
structure Unsent (w : World) : Prop where
  seen : w.height ≤ w.tip
  record : (w.record x).state = .active ∧ (w.record x).claimTxHash = ""
  entry : w.store.entries .claim x.id = none
  tree : w.store.trees x.id = true
  landed : w.landed = none
  pending : w.pending = false
  found : w.found = none
  idle : ∀ i, w.cycles i = none
  verdicts : w.verdicts = []
  cleanups : w.cleanups = []

theorem TreeInv.of_unsent (h : Unsent x w) : TreeInv cfg x w where
  seen := h.seen
  landed l hl := by rw [h.landed] at hl; cases hl
  unhashed _ := h.record.2
  blind _ ha := by
    rcases ha with hl | ⟨hp | he, -⟩
    · exact absurd h.landed hl
    · rw [h.pending] at hp; cases hp
    · exact absurd h.entry he
  found s hs := by rw [h.found] at hs; cases hs
  each i r hr := by rw [h.idle i] at hr; cases hr
  one := ⟨0, fun i r hr => by rw [h.idle i] at hr; cases hr⟩
  doomed v hv := by rw [h.verdicts, h.cleanups] at hv; cases hv
  kept ht := by rw [h.tree] at ht; cases ht

theorem TreeInv.deletes_free (hi : TreeInv cfg x w) {a : Act} (hd : deletes x w a = true) : TreeFree cfg x w := by
  cases a with
  | write i =>
    unfold deletes at hd
    dsimp only at hd
    split at hd
    next t id ws m hw =>
      obtain rfl : id = x.id := of_decide_eq_true hd
      cases t with
      | claims t =>
        have hok : ClaimOk (outlook cfg x w) x.id t (.deleteTree x.id :: ws) := hi.each i _ hw
        exact (hok.queue.2.2.1 rfl).1
      | proofs u =>
        have hok : ProofOk (outlook cfg x w) x.id u (.deleteTree x.id :: ws) := hi.each i _ hw
        exact .inr (.inl ((hok.queue _ (.head ws)).2.2.1 rfl))
    · cases hd
  | cleanup v =>
    have hv : v ∈ w.cleanups := of_decide_eq_true hd
    exact .of_safe ((hi.doomed v (mem_append_right _ hv)).safe hi.seen)
  | _ => cases hd

/-- Along every careful history of a session the tree is deleted only when the claim is not on chain and nothing
that is out or kept can put it there, or the proof is sent, or the proof window is over; so whenever the claim is
on chain with its proof still to send, the tree is there. -/
theorem tree_deleted_only_when_free (cfg : Config) (x : Snap) (w : World) (hw : Unsent x w) (as : List Act)
    (hcare : Meets (Lifecycle.act cfg x) (Careful cfg x) w as) :
    (∀ a, deletes x (run (Lifecycle.act cfg x) w as) a = true → TreeFree cfg x (run (Lifecycle.act cfg x) w as)) ∧
      ((run (Lifecycle.act cfg x) w as).store.trees x.id = false → TreeFree cfg x (run (Lifecycle.act cfg x) w as)) := by
  have hi : TreeInv cfg x (run (Lifecycle.act cfg x) w as) :=
    inv_of_meets (TreeInv cfg x) (fun _ _ h hc => h.act hc) (.of_unsent hw) hcare
  exact ⟨fun _ hd => hi.deletes_free hd, hi.kept⟩

/-! ## Two histories -/

instance (cfg : Config) (x : Snap) (w : World) (r : Running) (a : Answer) : Decidable (CarefulAt cfg x w r a) := by
  unfold CarefulAt
  split <;> infer_instance

instance (cfg : Config) (x : Snap) (w : World) (a : Act) : Decidable (Careful cfg x w a) := by
  unfold Careful
  split <;> infer_instance

def subject : Snap := { id := 1, endHeight := 5 }

def historyStart : World where
  store := ⟨fun _ => { state := .active }, fun _ _ => none, fun _ => true⟩
  height := 12
  tip := 12

theorem unsent_historyStart : Unsent subject historyStart :=
  ⟨by decide, ⟨rfl, rfl⟩, rfl, rfl, rfl, rfl, rfl, fun _ => rfl, rfl, rfl⟩

def toSending : List Act :=
  [.sweep true .error, .start 0 [] [], .begin 0 [], .decide 0 .go false, .decide 0 (.read true) false,
    .decide 0 (.read true) false, .decide 0 .go false, .decide 0 (.claimBuilds [(subject, .built [1] [11])]) false,
    .decide 0 .go false]

/-- The first send gets no answer, the second is accepted and booked; nobody asks for the proof before its
window is over. -/
def acceptedThenLate : List Act :=
  toSending ++ [.decide 0 (.submit .refused false) true, .decide 0 (.submit (.accepted "tx") false) false,
    .decide 0 .go false, .write 0, .write 0, .block true] ++ List.replicate 27 (.block false) ++
      [.see 40, .sweep true .error, .execute .proofWindowClosed]

theorem tree_deleted_after_close :
    (let w := run (act exampleConfig subject) historyStart acceptedThenLate;
      w.landed = some 13 ∧ deletes subject w (.cleanup .proofWindowClosed) = true ∧ TreeFree exampleConfig subject w) ∧
    (run (act exampleConfig subject) historyStart (acceptedThenLate.take 16)).store.trees 1 = true := by
  have h := tree_deleted_only_when_free exampleConfig subject historyStart unsent_historyStart acceptedThenLate (by decide)
  exact ⟨⟨by decide, by decide, h.1 (.cleanup .proofWindowClosed) (by decide)⟩, by decide⟩

/-- The first send gets no answer, the same bytes are refused when they are sent again, and the claim signed anew finds
a node past the window, so the session is handed back to active; the first lands in the next block. At the close the
sweep takes the session for one that never sent a claim. -/
def deferredThenClosed : List Act :=
  toSending ++ [.decide 0 (.submit .refused false) true, .decide 0 (.submit .refused false) false,
    .decide 0 (.submit .windowRefused false) false, .write 0, .block true] ++
    List.replicate 7 (.block false) ++ [.see 20, .sweep true .error, .execute .claimWindowClosed]

theorem owed_tree_deleted :
    let w := run (act exampleConfig subject) historyStart deferredThenClosed
    w.landed = some 13 ∧ w.proofSent = false ∧ w.height < (exampleConfig.windows subject.endHeight).proofClose ∧
      deletes subject w (.cleanup .claimWindowClosed) = true ∧
      (act exampleConfig subject w (.cleanup .claimWindowClosed)).store.trees subject.id = false := by
  decide

end RelayMiner.Lifecycle
