import RelayMiner.Lifecycle.Bookings
/-!
# The books close

What the money series hold of one session after any history of `Bookings.step`,
net of what was taken back. The record says what the books should hold: `Expected`
is that table, and each place that books money keeps it when it finds the session
in the state it is meant for.
-/
open RelayMiner.Lib RelayMiner.Session

namespace RelayMiner.Lifecycle.Bookings.Books

open Ledger

/-! ## Net counts -/

/-- The session in each series: counted into it, less reinstated or resolved out of it. -/
structure Account where
  claimed : Int := 0
  lost : Int := 0
  forgone : Int := 0
  proved : Int := 0
  unresolved : Int := 0
  deriving DecidableEq

def Account.add (b : Account) : Money → Account
  | .claimed => { b with claimed := b.claimed + 1 }
  | .lost => { b with lost := b.lost + 1 }
  | .forgone => { b with forgone := b.forgone + 1 }
  | .proved => { b with proved := b.proved + 1 }
  | .unresolvedOpened => { b with unresolved := b.unresolved + 1 }
  | .unresolvedResolved => { b with unresolved := b.unresolved - 1 }
  | .reinstated .lost => { b with lost := b.lost - 1 }
  | .reinstated .forgone => { b with forgone := b.forgone - 1 }
  | .reinstated _ => b

def Account.post (b : Account) (rs : List Record) : Account := (rs.flatMap (·.money)).foldl Account.add b

@[simp] theorem Account.post_nil (b : Account) : b.post [] = b := rfl

theorem Account.post_append (b : Account) (rs rs' : List Record) : b.post (rs ++ rs') = (b.post rs).post rs' := by
  simp [Account.post, List.foldl_append]

def books (w : World) : Account := Account.post {} w.records

/-- Claimed money that has gone nowhere yet. -/
def Account.balance (b : Account) : Int := b.claimed - b.lost - b.proved - b.unresolved

def Bit (n : Int) : Prop := n = 0 ∨ n = 1

instance (n : Int) : Decidable (Bit n) := by
  unfold Bit
  infer_instance

structure Closed (st : SessionState) (b : Account) : Prop where
  claimed : Bit b.claimed
  lost : Bit b.lost
  forgone : Bit b.forgone
  proved : Bit b.proved
  unresolved : Bit b.unresolved
  balance : Bit b.balance
  held : b.balance = 1 → st.holdsClaimOnChain = true ∧ st.isTerminal = false
  forgone_unclaimed : b.forgone = 1 → b.claimed = 0

/-! ## What a record says of the books -/

def owed : Account := { claimed := 1 }

def paid : Account := { claimed := 1, proved := 1 }

def writtenOff : Account := { claimed := 1, lost := 1 }

def waiting : Account := { claimed := 1, unresolved := 1 }

def neverClaimed : Account := { forgone := 1 }

def charged (v : Verdict) : Bool := v = .forgone ∨ v = .ejectedUnrecoverable

def Expected (s : SessionSnapshot) (claimEntry proofEntry : Option String) (b : Account) : Prop :=
  match s.state with
  | .active | .claiming => b = {} ∧ s.claimTxHash = "" ∧ s.proofTxHash = ""
  | .claimSkipped => b = {} ∧ s.proofTxHash = ""
  | .claimed | .proving => b = if s.proofTxHash = "" then owed else paid
  | .claimWindowClosed => b = neverClaimed ∧ s.claimTxHash = "" ∧ s.proofTxHash = ""
  -- An attempt is written off by its entry, and the entry goes with it.
  | .claimTxError =>
    s.proofTxHash = "" ∧ ((b = neverClaimed ∧ (charged s.claimMissingVerdict ∨ claimEntry ≠ some "")) ∨
      (b = {} ∧ charged s.claimMissingVerdict = false))
  | .claimMissing =>
    s.proofTxHash = "" ∧ ((s.claimMissingVerdict = .lost ∧ b = writtenOff) ∨
      (s.claimMissingVerdict = .forgone ∧ b = neverClaimed))
  | .proved | .probabilisticProved => b = paid
  | .proofWindowClosed => b = if s.proofTxHash = "" then writtenOff else paid
  | .proofTxError => s.proofTxHash = "" ∧ (b = waiting ∨ (b = writtenOff ∧ proofEntry ≠ some ""))

variable {b : Account} {claimEntry proofEntry : Option String} {s : SessionSnapshot}

theorem closed_settled (st : SessionState) (h : b ∈ [{}, paid, writtenOff, waiting, neverClaimed]) :
    Closed st b := by
  have hb : Bit b.claimed ∧ Bit b.lost ∧ Bit b.forgone ∧ Bit b.proved ∧ Bit b.unresolved ∧ b.balance = 0 ∧
      (b.forgone = 1 → b.claimed = 0) := by
    revert b
    decide
  obtain ⟨hc, hl, hf, hp, hu, hz, hn⟩ := hb
  refine ⟨hc, hl, hf, hp, hu, .inl hz, fun h1 => ?_, hn⟩
  omega

theorem closed_owed {st : SessionState} (h : st = .claimed ∨ st = .proving) : Closed st owed := by
  refine ⟨by decide, by decide, by decide, by decide, by decide, by decide, fun _ => ?_, by decide⟩
  rcases h with rfl | rfl <;> decide

theorem Expected.of_holding (hs : s.state = .claimed ∨ s.state = .proving)
    (hb : b = if s.proofTxHash = "" then owed else paid) : Expected s claimEntry proofEntry b := by
  unfold Expected
  rcases hs with hs | hs <;> simpa only [hs] using hb

/-- A record that the books agree with has its books closed. -/
theorem Expected.closed (h : Expected s claimEntry proofEntry b) : Closed s.state b := by
  unfold Expected at h
  cases hs : s.state <;> simp only [hs] at h
  case active | claiming | claimSkipped | claimWindowClosed => exact h.1 ▸ closed_settled _ (by decide)
  case claimed =>
    split at h
    · exact h ▸ closed_owed (.inl rfl)
    · exact h ▸ closed_settled _ (by decide)
  case proving =>
    split at h
    · exact h ▸ closed_owed (.inr rfl)
    · exact h ▸ closed_settled _ (by decide)
  case claimTxError =>
    rcases h.2 with ⟨hb, -⟩ | ⟨hb, -⟩
    · exact hb ▸ closed_settled _ (by decide)
    · exact hb ▸ closed_settled _ (by decide)
  case claimMissing =>
    rcases h.2 with ⟨-, hb⟩ | ⟨-, hb⟩
    · exact hb ▸ closed_settled _ (by decide)
    · exact hb ▸ closed_settled _ (by decide)
  case proved | probabilisticProved => exact h ▸ closed_settled _ (by decide)
  case proofWindowClosed =>
    split at h
    · exact h ▸ closed_settled _ (by decide)
    · exact h ▸ closed_settled _ (by decide)
  case proofTxError =>
    rcases h.2 with hb | ⟨hb, -⟩
    · exact hb ▸ closed_settled _ (by decide)
    · exact hb ▸ closed_settled _ (by decide)

structure SameFields (s s' : SessionSnapshot) : Prop where
  state : s'.state = s.state
  claimTxHash : s'.claimTxHash = s.claimTxHash
  proofTxHash : s'.proofTxHash = s.proofTxHash
  claimMissingVerdict : s'.claimMissingVerdict = s.claimMissingVerdict

theorem Expected.congr {s' : SessionSnapshot} {claimEntry' proofEntry' : Option String}
    (h : Expected s claimEntry proofEntry b) (hf : SameFields s s')
    (hc : s.state = .claimTxError → claimEntry' = some "" → claimEntry = some "")
    (hp : s.state = .proofTxError → proofEntry' = some "" → proofEntry = some "") :
    Expected s' claimEntry' proofEntry' b := by
  unfold Expected at h ⊢
  rw [hf.state, hf.claimTxHash, hf.proofTxHash, hf.claimMissingVerdict]
  cases hs : s.state <;> simp only [hs] at h ⊢
  case claimTxError =>
    refine ⟨h.1, h.2.imp_left fun hb => ⟨hb.1, hb.2.imp_right fun hn he => hn (hc hs he)⟩⟩
  case proofTxError =>
    refine ⟨h.1, h.2.imp_right fun hb => ⟨hb.1, fun he => hb.2 (hp hs he)⟩⟩
  all_goals exact h

structure Inv (w : World) : Prop where
  expected : Expected w.session w.claimEntry w.proofEntry (books w)
  sent : ∀ txHash, w.proofEntry = some txHash → txHash ≠ "" → w.session.proofTxHash ≠ ""

/-! ## What each place is meant for -/

def Succeeds (a : Step) : Prop :=
  a.fault = .ok ∧
    match a.site with
    | .reconcileClaim o _ _ clears | .reconcileProof o _ clears => o = .pollError ∨ clears = true
    | _ => True

def Fresh (w : World) (a : Step) : Prop := a.seen = .snapshot (some (decodeSnapshot w.session))

def Started (s : SessionSnapshot) : Prop := s.state = .active ∨ s.state = .claiming

def Holding (s : SessionSnapshot) : Prop := s.state = .claimed ∨ s.state = .proving

def Meant (w : World) (a : Step) : Prop :=
  let s := w.session
  match a.site with
  | .plain .claiming => Started s
  | .plain .claimDeferred => True
  | .plain .claimSkipped => Started s ∨ s.state = .claimSkipped
  | .plain .claimed | .plain .proving => Holding s
  | .plain .proofDeferred => Fresh w a ∧ (Holding s ∨ s.state.isTerminal)
  | .plain .proved => s.state.isSuccess ∨ (Holding s ∧ s.proofTxHash ≠ "")
  | .track snap =>
    snap.state = s.state ∧ snap.claimTxHash = s.claimTxHash ∧ snap.proofTxHash = s.proofTxHash ∧
      snap.claimMissingVerdict = s.claimMissingVerdict
  -- An attempt is claimed after all while its entry waits.
  | .claimAccepted _ _ _ | .claimObserved _ _ | .reconcileClaim .found _ _ _ =>
    Fresh w a ∧ (s.state = .claimTxError → charged s.claimMissingVerdict ∨ w.claimEntry = some "")
  | .reconcileClaim .pollError _ _ _ => True
  | .reconcileClaim _ _ _ _ =>
    w.claimEntry = some "" → s.state = .claimTxError ∧ charged s.claimMissingVerdict = false
  | .claimWindowClosed claimTxHash => (Started s ∧ claimTxHash = s.claimTxHash) ∨ s.state.holdsClaimOnChain
  | .claimFailed how =>
    Fresh w a ∧ (Started s ∨ s.state.holdsClaimOnChain ∨ (s.state = .claimTxError ∧ how ≠ .attempt true))
  | .claimHeld => s.state ≠ .claimTxError
  | .claimMissing =>
    Fresh w a ∧ (Started s ∨ s.state = .claimSkipped ∨ (Holding s ∧ s.proofTxHash = "") ∨
      s.state = .claimMissing ∨ s.state.isSuccess)
  | .notRequired => Holding s ∧ s.proofTxHash = ""
  | .proofFailed resolvable =>
    Fresh w a ∧ Holding s ∧ s.proofTxHash = "" ∧ (resolvable = false → w.proofEntry ≠ some "")
  | .proofHeld => s.state ≠ .proofTxError
  | .rootUnavailable => Fresh w a ∧ (s.state.isSuccess ∨ s.proofTxHash ≠ "")
  | .proofWindowClosed proofTxHash => Holding s ∧ proofTxHash = s.proofTxHash
  | .proofAccepted txHash _ => Fresh w a ∧ Holding s ∧ s.proofTxHash = "" ∧ txHash ≠ ""
  | .reconcileProof .found _ _ =>
    w.proofEntry = some "" → s.state = .proofTxError ∨ canReactivateProved s.state s.proofTxHash = false
  | .reconcileProof .pollError _ _ => True
  | .reconcileProof _ _ _ => w.proofEntry = some "" → s.state = .proofTxError
  | .entryRemoved _ => True

instance (a : Step) : Decidable (Succeeds a) := by
  obtain ⟨site, seen, fault⟩ := a
  unfold Succeeds
  have : Decidable (match site with
    | .reconcileClaim o _ _ clears | .reconcileProof o _ clears => o = .pollError ∨ clears = true
    | _ => True) := by split <;> infer_instance
  infer_instance

instance (w : World) (a : Step) : Decidable (Fresh w a) := by
  unfold Fresh
  infer_instance

instance (s : SessionSnapshot) : Decidable (Started s) := by
  unfold Started
  infer_instance

instance (s : SessionSnapshot) : Decidable (Holding s) := by
  unfold Holding
  infer_instance

instance (w : World) (a : Step) : Decidable (Meant w a) := by
  obtain ⟨site, seen, fault⟩ := a
  unfold Meant
  dsimp only
  split <;> infer_instance

/-! ## Rules -/

section

variable {w : World} {site : Site} {seen : Reply} {s' : SessionSnapshot} {reply : Option Reply}

theorem books_step (w : World) (a : Step) :
    books (step w a) =
      (books w).post (a.site.records w a.seen (perform a.seen a.fault (a.site.body w) w.session).2) :=
  Account.post_append _ _ _

theorem inv_of_perform (hp : perform seen .ok (site.body w) w.session = (s', reply))
    (he : Expected s' (site.claimEntry w) (site.proofEntry w) ((books w).post (site.records w seen reply)))
    (hs : ∀ txHash, site.proofEntry w = some txHash → txHash ≠ "" → s'.proofTxHash ≠ "") :
    Inv (step w ⟨site, seen, .ok⟩) := by
  refine ⟨?_, ?_⟩
  · rw [books_step]
    simp only [step, hp]
    exact he
  · simp only [step, hp]
    exact hs

structure OpensNone (site : Site) (w : World) : Prop where
  claim : w.session.state = .claimTxError → site.claimEntry w = some "" → w.claimEntry = some ""
  proof : w.session.state = .proofTxError → site.proofEntry w = some "" → w.proofEntry = some ""
  sent : ∀ txHash, site.proofEntry w = some txHash → txHash ≠ "" → w.proofEntry = some txHash

theorem OpensNone.of_eq (hc : site.claimEntry w = w.claimEntry) (hp : site.proofEntry w = w.proofEntry) :
    OpensNone site w := ⟨fun _ h => hc ▸ h, fun _ h => hp ▸ h, fun _ h _ => hp ▸ h⟩

/-- A call that changes no field the table reads, counts no money and opens no entry where one would be settled. -/
theorem Inv.same (hi : Inv w) (hp : perform seen .ok (site.body w) w.session = (s', reply))
    (hf : SameFields w.session s') (hb : (books w).post (site.records w seen reply) = books w) (ho : OpensNone site w) :
    Inv (step w ⟨site, seen, .ok⟩) := by
  refine inv_of_perform hp ?_ fun txHash he hne => ?_
  · rw [hb]
    exact hi.expected.congr hf ho.claim ho.proof
  · rw [hf.proofTxHash]
    exact hi.sent txHash (ho.sent txHash he hne) hne

theorem SameFields.rfl (s : SessionSnapshot) : SameFields s s := ⟨Eq.refl _, Eq.refl _, Eq.refl _, Eq.refl _⟩

section
variable (hi : Inv w)
include hi

theorem Inv.untouched (reply : Option Reply)
    (hp : perform seen .ok (site.body w) w.session = (w.session, reply))
    (hb : (books w).post (site.records w seen reply) = books w) (ho : OpensNone site w) :
    Inv (step w ⟨site, seen, .ok⟩) := hi.same hp (.rfl _) hb ho

theorem Inv.started (h : Started w.session) :
    books w = {} ∧ w.session.claimTxHash = "" ∧ w.session.proofTxHash = "" := by
  have he := hi.expected
  unfold Expected at he
  rcases h with h | h <;> simpa only [h] using he

theorem Inv.holding (h : Holding w.session) :
    books w = if w.session.proofTxHash = "" then owed else paid := by
  have he := hi.expected
  unfold Expected at he
  rcases h with h | h <;> simpa only [h] using he

theorem Inv.success (h : w.session.state.isSuccess = true) : books w = paid := by
  have he := hi.expected
  unfold Expected at he
  cases hs : w.session.state <;> simp only [hs, SessionState.isSuccess, Bool.false_eq_true] at h he
  · exact he
  · exact he

theorem Inv.proofTxError (h : w.session.state = .proofTxError) :
    w.session.proofTxHash = "" ∧ (books w = waiting ∨ (books w = writtenOff ∧ w.proofEntry ≠ some "")) := by
  have he := hi.expected
  unfold Expected at he
  simpa only [h] using he

theorem Inv.claimTxError (h : w.session.state = .claimTxError) :
    w.session.proofTxHash = "" ∧
      ((books w = neverClaimed ∧ (charged w.session.claimMissingVerdict ∨ w.claimEntry ≠ some "")) ∨
        (books w = {} ∧ charged w.session.claimMissingVerdict = false)) := by
  have he := hi.expected
  unfold Expected at he
  simpa only [h] using he
end

/-! ## Writes that count nothing -/

theorem inv_updateState {st : SessionState} {v : Verdict} (hbody : site.body w = updateState st v)
    (hg : checkStateWrite w.session st = none)
    (he : Expected { w.session with
        state := st
        claimMissingVerdict := if v ≠ .none ∧ w.session.state ≠ st then v else w.session.claimMissingVerdict }
      (site.claimEntry w) (site.proofEntry w)
      ((books w).post (site.records w seen (some (.updated w.session.state)))))
    (hs : ∀ txHash, site.proofEntry w = some txHash → txHash ≠ "" → w.session.proofTxHash ≠ "") :
    Inv (step w ⟨site, seen, .ok⟩) :=
  inv_of_perform (by rw [hbody]; exact perform_updateState seen v hg) he hs

theorem inv_refused {st : SessionState} {v : Verdict} {r : Reply} (hi : Inv w)
    (hbody : site.body w = updateState st v) (hg : checkStateWrite w.session st = some r)
    (hb : (books w).post (site.records w seen (some r)) = books w) (ho : OpensNone site w) :
    Inv (step w ⟨site, seen, .ok⟩) :=
  hi.untouched _ (by rw [hbody]; exact perform_updateState_refused seen v hg) hb ho

attribute [local simp] checkStateWrite Site.records Expected

/-- The call keeps the books when it finds the session as it is meant to. -/
def Keeps (w : World) (seen : Reply) (site : Site) : Prop :=
  Meant w ⟨site, seen, .ok⟩ → Inv (step w ⟨site, seen, .ok⟩)

variable (hi : Inv w)
include hi

theorem inv_plain (c : Plain) : Keeps w seen (.plain c) := by
  intro h
  cases c with
  | claiming =>
    refine inv_updateState rfl (by simp) ?_ hi.sent
    simpa using hi.started h
  | claimDeferred =>
    by_cases hg : w.session.state = .claiming ∧ w.session.claimTxHash = ""
    · refine inv_updateState rfl (by simp [hg]) ?_ hi.sent
      simpa using hi.started (.inr hg.1)
    have hg' : checkStateWrite w.session .active = some .notDeferred := by
      by_cases hc : w.session.state = .claiming <;> simp_all
    exact inv_refused hi rfl hg' rfl (.of_eq rfl rfl)
  | claimSkipped =>
    refine inv_updateState rfl (by simp) ?_ hi.sent
    rcases h with h | h
    · have hb := hi.started h
      simp [hb]
    · have he := hi.expected
      simpa [h] using he
  | claimed =>
    by_cases hh : w.session.proofTxHash = ""
    · have hg : checkStateWrite w.session .claimed = none := by
        rcases h with h | h <;> simp [hh, h]
      refine inv_updateState rfl hg ?_ hi.sent
      simpa using hi.holding h
    · have hg : checkStateWrite w.session .claimed = some .notDeferred := by simp [hh]
      exact inv_refused hi rfl hg rfl (.of_eq rfl rfl)
  | proving =>
    refine inv_updateState rfl (by simp) ?_ hi.sent
    simpa using hi.holding h
  | proofDeferred =>
    obtain ⟨hfresh, h⟩ := h
    have hfresh : seen = _ := hfresh
    by_cases hret : w.session.state.isTerminal = true ∨ w.session.proofTxHash ≠ ""
    · refine hi.untouched none ?_ rfl (.of_eq rfl rfl)
      simp only [Site.body, Plain.callback, Callback.body, onProofDeferred, perform, hfresh,
        decodeSnapshot_state, decodeSnapshot_proofTxHash, if_pos hret]
    have hh : w.session.proofTxHash = "" := by simpa using (not_or.1 hret).2
    have hold : Holding w.session := h.resolve_right (not_or.1 hret).1
    have hg : checkStateWrite w.session .claimed = none := by
      rcases hold with h | h <;> simp [hh, h]
    have hp : perform seen .ok ((Site.plain .proofDeferred).body w) w.session =
        ({ w.session with state := .claimed }, some (.updated w.session.state)) := by
      simp only [Site.body, Plain.callback, Callback.body, onProofDeferred, perform, hfresh,
        decodeSnapshot_state, decodeSnapshot_proofTxHash, if_neg hret]
      exact perform_updateState _ .none hg
    refine inv_of_perform hp ?_ hi.sent
    simpa using hi.holding hold
  | proved =>
    refine inv_updateState rfl (by simp) ?_ hi.sent
    rcases h with h | ⟨h, hh⟩
    · simpa using hi.success h
    · simpa [hh] using hi.holding h

theorem inv_track (snap : SessionSnapshot) : Keeps w seen (.track snap) := by
  rintro ⟨hst, hc, hp, hv⟩
  have hset : ∀ b k, perform seen .ok (.op (.hset b snap) k) w.session =
      (saveScript b snap (some w.session), some .saved) := fun _ _ => rfl
  have hsame : ∀ b, SameFields w.session (saveScript b snap (some w.session)) := by
    intro b
    cases b with
    | true => exact ⟨hst, hc, hp, hv⟩
    | false =>
      -- Where the copy has nothing, the field is left as it is.
      have hkeep : ∀ {α : Type} (p : Prop) [Decidable p] {a a' : α}, a = a' → (if p then a' else a) = a' := by
        intro α p _ a a' h
        rw [h, ite_self]
      exact ⟨hst, hkeep _ hc, hkeep _ hp, hkeep _ hv⟩
  have hbody : ∃ b, perform seen .ok ((Site.track snap).body w) w.session =
      (saveScript b snap (some w.session), some .saved) := by
    simp only [Site.body, trackSession, save, perform]
    split
    · exact ⟨true, hset _ fun _ => .ret⟩
    · exact ⟨false, hset _ fun _ => .ret⟩
  obtain ⟨b, hb⟩ := hbody
  exact hi.same hb (hsame b) rfl (.of_eq rfl rfl)

/-! ## A claim seen on chain -/

/-- A flip into claimed takes back what the failure counted, and counts the claim if it had not been. -/
theorem books_flip (hr : canReactivateClaimed w.session.state = true) (hseen : readable seen = true)
    (h : w.session.state = .claimTxError → charged w.session.claimMissingVerdict ∨ w.claimEntry = some "") :
    (books w).post (bookFlip w seen (some (.reactivation (some w.session.state)))) = owed ∧
      w.session.proofTxHash = "" := by
  have he := hi.expected
  simp only [bookFlip, hseen]
  unfold Expected at he
  cases hs : w.session.state <;> simp only [hs, canReactivateClaimed, Bool.false_eq_true] at hr he
  case active | claiming => exact ⟨by rw [he.1]; rfl, he.2.2⟩
  case claimWindowClosed => exact ⟨by rw [he.1, he.2.1]; rfl, he.2.2⟩
  case claimTxError =>
    rcases he.2 with ⟨hb, hv⟩ | ⟨hb, hv⟩
    · -- Written off: with the verdict that says so, since its entry has not been settled.
      cases hm : w.session.claimMissingVerdict <;> simp_all [charged] <;> rfl
    · cases hm : w.session.claimMissingVerdict <;> simp_all [charged] <;> rfl
  case claimMissing =>
    refine ⟨?_, he.1⟩
    rcases he.2 with ⟨hv, hb⟩ | ⟨hv, hb⟩
    · rw [hb, hv]; rfl
    · rw [hb, hv]; rfl

variable (root : Bytes)

/-- Any place that sees the claim on chain: the flip is made, or the record says it was before. -/
theorem inv_flip (txHash : String) (hseen : readable seen = true)
    (h : w.session.state = .claimTxError → charged w.session.claimMissingVerdict ∨ w.claimEntry = some "")
    (hp : perform seen .ok (site.body w) w.session =
        (((apply (some w.session) (.reactivateClaimed root txHash)).1).getD w.session,
          some (apply (some w.session) (.reactivateClaimed root txHash)).2))
    (hrec : ∀ reply, site.records w seen reply = bookFlip w seen reply)
    (hpe : site.proofEntry w = w.proofEntry) : Inv (step w ⟨site, seen, .ok⟩) := by
  simp only [apply, reactivateClaimedScript] at hp
  cases hr : canReactivateClaimed w.session.state with
  | true =>
    simp only [hr, if_true] at hp
    obtain ⟨hb, hh⟩ := books_flip hi hr hseen h
    refine inv_of_perform hp ?_ ?_
    · rw [hrec, hb]
      simp [hh]
    · rw [hpe]
      exact hi.sent
  | false =>
    simp only [hr, Bool.false_eq_true, if_false] at hp
    refine hi.same hp (.rfl _) ?_ ⟨?_, ?_, ?_⟩
    · rw [hrec]; rfl
    · intro hs
      simp [hs, canReactivateClaimed] at hr
    · rw [hpe]; exact fun _ h => h
    · rw [hpe]; exact fun _ h _ => h

theorem inv_claimAccepted (txHash : String) (entry : Bool) : Keeps w seen (.claimAccepted root txHash entry) := by
  rintro ⟨rfl, h⟩
  exact inv_flip hi root txHash rfl h rfl (fun _ => rfl) rfl

theorem inv_observed (txHash : String) (hseen : readable seen = true)
    (h : w.session.state = .claimTxError → charged w.session.claimMissingVerdict ∨ w.claimEntry = some "")
    (hbody : site.body w = onClaimObservedOnChain root txHash true)
    (hrec : ∀ reply, site.records w seen reply = bookFlip w seen reply)
    (hc : site.claimEntry w = some "" → w.claimEntry = some "") (hpe : site.proofEntry w = w.proofEntry) :
    Inv (step w ⟨site, seen, .ok⟩) := by
  by_cases hr : root.length = smstRootLen
  · refine inv_flip hi root txHash hseen h ?_ hrec hpe
    rw [hbody, onClaimObservedOnChain, if_neg (not_not.2 hr)]
    rfl
  refine hi.untouched none ?_ ?_ ⟨fun _ => hc, ?_, ?_⟩
  · rw [hbody, onClaimObservedOnChain, if_pos hr]
    rfl
  · rw [hrec]; rfl
  · rw [hpe]; exact fun _ h => h
  · rw [hpe]; exact fun _ h _ => h

omit hi in
theorem claimEntry_reconcileClaim (w : World) (o : Outcome) (root : Bytes) (txHash : String) (clears : Bool)
    (h : (Site.reconcileClaim o root txHash clears).claimEntry w = some "") : w.claimEntry = some "" := by
  cases clears with
  | true => cases h
  | false => exact h

variable {o : Outcome}

omit hi in
/-- The entry of a message that was sent has no money to settle. -/
theorem post_bookEntry {phase : Phase} {entry : Option String} (ho : o = .missing ∨ o = .rejected)
    (he : entry ≠ some "") : b.post (bookEntry phase entry o) = b := by
  cases entry with
  | none => rfl
  | some orig =>
    have horig : orig ≠ "" := fun h => he (h ▸ rfl)
    rcases ho with rfl | rfl <;> cases phase <;> simp [bookEntry, settleLedgerOutcome, horig, Account.post]

/-- The entry of an attempt is removed with its money written off; any other has no money. -/
theorem inv_claimSettled (ho : o = .missing ∨ o = .rejected) (root : Bytes) (txHash : String)
    (h : w.claimEntry = some "" → w.session.state = .claimTxError ∧ charged w.session.claimMissingVerdict = false) :
    Inv (step w ⟨.reconcileClaim o root txHash true, seen, .ok⟩) := by
  have hp : perform seen .ok ((Site.reconcileClaim o root txHash true).body w) w.session = (w.session, none) := by
    rcases ho with rfl | rfl <;> rfl
  have hrec : (Site.reconcileClaim o root txHash true).records w seen none = bookEntry .claim w.claimEntry o := by
    rcases ho with rfl | rfl <;> rfl
  by_cases he : w.claimEntry = some ""
  · obtain ⟨hs, hv⟩ := h he
    obtain ⟨hh, hb⟩ := hi.claimTxError hs
    have hb : books w = {} := by
      rcases hb with ⟨-, hc | hc⟩ | ⟨hb, -⟩
      · rw [hv] at hc
        cases hc
      · exact absurd he hc
      · exact hb
    have hpost : (books w).post (bookEntry .claim w.claimEntry o) = neverClaimed := by
      rw [hb, he]
      rcases ho with rfl | rfl <;> rfl
    refine inv_of_perform hp ?_ hi.sent
    rw [hrec, hpost]
    simp [hs, hh, Site.claimEntry]
  refine hi.same hp (.rfl _) ?_
    ⟨fun _ => claimEntry_reconcileClaim w o root txHash true, fun _ h => h, fun _ h _ => h⟩
  rw [hrec]
  exact post_bookEntry ho he

theorem inv_reconcileClaim (o : Outcome) (root : Bytes) (txHash : String) (clears : Bool)
    (hok : o = .pollError ∨ clears = true) : Keeps w seen (.reconcileClaim o root txHash clears) := by
  intro h
  have hentry := claimEntry_reconcileClaim w o root txHash clears
  cases o with
  | found =>
    obtain ⟨rfl, h⟩ := h
    by_cases hsome : w.claimEntry.isSome = true
    · refine inv_observed hi root txHash rfl h ?_ (fun _ => rfl) hentry rfl
      simp only [Site.body, hsome, if_true]
      rfl
    refine hi.untouched none ?_ rfl ⟨fun _ => hentry, fun _ h => h, fun _ h _ => h⟩
    simp only [Site.body, hsome]
    rfl
  | missing =>
    obtain rfl : clears = true := hok.resolve_left (by decide)
    exact inv_claimSettled hi (.inl rfl) root txHash h
  | rejected =>
    obtain rfl : clears = true := hok.resolve_left (by decide)
    exact inv_claimSettled hi (.inr rfl) root txHash h
  | pollError =>
    refine hi.untouched none rfl ?_ ⟨fun _ => hentry, fun _ h => h, fun _ h _ => h⟩
    simp only [Site.records, bookEntry]
    split <;> rfl

/-! ## The claim's failures -/

theorem inv_claimWindowClosed (claimTxHash : String) : Keeps w seen (.claimWindowClosed claimTxHash) := by
  intro h
  by_cases hh : w.session.state.holdsClaimOnChain = true
  · have hg : checkStateWrite w.session .claimWindowClosed = some .claimAlreadyOnChain := by
      simp [hh]
    exact inv_refused hi rfl hg rfl (.of_eq rfl rfl)
  obtain ⟨hst, rfl⟩ := h.resolve_right hh
  obtain ⟨hb, hc, hp⟩ := hi.started hst
  refine inv_updateState rfl (by simp [hh]) ?_ hi.sent
  have hpost : (books w).post ((Site.claimWindowClosed w.session.claimTxHash).records w seen
      (some (.updated w.session.state))) = neverClaimed := by
    rw [hb, hc]; rfl
  rw [hpost]
  simp [hc, hp]

theorem inv_claimFailed (how : ClaimFailure) : Keeps w seen (.claimFailed how) := by
  rintro ⟨rfl, h⟩
  have hpe : (Site.claimFailed how).proofEntry w = w.proofEntry := by cases how <;> rfl
  by_cases hst : Started w.session
  · obtain ⟨hb, hc, hp⟩ := hi.started hst
    have hg : checkStateWrite w.session .claimTxError = none := by
      rcases hst with hs | hs <;> simp [hs, SessionState.holdsClaimOnChain]
    have hperf : perform (.snapshot (some (decodeSnapshot w.session))) .ok ((Site.claimFailed how).body w) w.session =
        ({ w.session with state := .claimTxError, claimMissingVerdict := how.verdict },
          some (.updated w.session.state)) := by
      have hv : how.verdict ≠ .none := by cases how <;> simp [ClaimFailure.verdict]
      have hret : ¬ (w.session.state = .claimed ∨ w.session.claimTxHash ≠ "") := by
        rcases hst with hs | hs <;> simp [hs, hc]
      have hne : w.session.state ≠ .claimTxError := by rcases hst with hs | hs <;> simp [hs]
      simp only [Site.body, Callback.body, onClaimTxError, perform, decodeSnapshot_state,
        decodeSnapshot_claimTxHash, if_neg hret, if_neg hne]
      rw [perform_updateState _ _ hg]
      simp [hv, hne]
    refine inv_of_perform hperf ?_ (hpe ▸ hi.sent)
    · have hrec : (Site.claimFailed how).records w (.snapshot (some (decodeSnapshot w.session)))
          (some (.updated w.session.state)) = [⟨.claimTxError, recordClaimTxErrorVerdict how.verdict, true⟩] := by
        rcases hst with hs | hs <;> simp [made, readable, hs]
      rw [hrec, hb]
      cases how with
      | attempt entry => exact ⟨hp, .inr ⟨rfl, rfl⟩⟩
      | forgone | ejectedUnrecoverable => exact ⟨hp, .inl ⟨rfl, .inl rfl⟩⟩
  -- The claim is held, or the failure was marked before: nothing is written.
  have hdone : w.session.state.holdsClaimOnChain = true ∨ (w.session.state = .claimTxError ∧ how ≠ .attempt true) :=
    h.resolve_left hst
  have hp : ∃ reply, perform (.snapshot (some (decodeSnapshot w.session))) .ok ((Site.claimFailed how).body w)
      w.session = (w.session, reply) ∧ made reply = false := by
    simp only [Site.body, Callback.body, onClaimTxError, perform, decodeSnapshot_state, decodeSnapshot_claimTxHash]
    split
    · exact ⟨none, rfl, rfl⟩
    split
    · exact ⟨none, rfl, rfl⟩
    next hne =>
      have hh := hdone.resolve_right fun h => hne h.1
      refine ⟨some .claimAlreadyOnChain, perform_updateState_refused _ _ ?_, rfl⟩
      simp [hh]
  obtain ⟨reply, hp, hm⟩ := hp
  refine hi.same hp (.rfl _) ?_ ⟨?_, ?_, ?_⟩
  · simp [hm]
  · intro hs hce
    have hhow := (hdone.resolve_left (by simp [hs, SessionState.holdsClaimOnChain])).2
    cases how with
    | attempt entry =>
      cases entry with
      | true => exact absurd rfl hhow
      | false => exact hce
    | forgone | ejectedUnrecoverable => exact hce
  · rw [hpe]; exact fun _ h => h
  · rw [hpe]; exact fun _ h _ => h

theorem inv_claimHeld : Keeps w seen .claimHeld := by
  intro h
  exact hi.same rfl (.rfl _) rfl ⟨fun hs => absurd hs h, fun _ h => h, fun _ h _ => h⟩

theorem inv_claimMissing : Keeps w seen .claimMissing := by
  rintro ⟨rfl, h⟩
  by_cases hdone : w.session.state = .claimMissing ∨ w.session.state.isSuccess = true
  · refine hi.untouched none ?_ ?_ (.of_eq rfl rfl)
    · simp only [Site.body, Callback.body, onClaimMissing, perform, decodeSnapshot_state]
      split
      · rfl
      next hne =>
        rw [if_pos (hdone.resolve_left hne)]
        rfl
    · rfl
  obtain ⟨hne, hns⟩ := not_or.1 hdone
  have hp : perform (.snapshot (some (decodeSnapshot w.session))) .ok (Site.claimMissing.body w) w.session =
      ({ w.session with
        state := .claimMissing
        claimMissingVerdict := claimMissingVerdictFor w.session.state }, some (.updated w.session.state)) := by
    have hv : claimMissingVerdictFor w.session.state ≠ .none := by
      unfold claimMissingVerdictFor
      split <;> decide
    simp only [Site.body, Callback.body, onClaimMissing, perform, decodeSnapshot_state, if_neg hne, if_neg hns]
    rw [perform_updateState _ _ (by simp)]
    simp [hv, hne]
  have hrec : (Site.claimMissing).records w (.snapshot (some (decodeSnapshot w.session)))
      (some (.updated w.session.state)) =
        [⟨.claimMissing, recordClaimMissing (claimMissingVerdictFor w.session.state), true⟩] := by
    simp [made]
  refine inv_of_perform hp ?_ hi.sent
  rw [hrec]
  rcases h with hst | hs | ⟨hold, hh⟩ | hs | hs
  · obtain ⟨hb, -, hh⟩ := hi.started hst
    rw [hb]
    rcases hst with hs | hs <;> rw [hs] <;> exact ⟨hh, .inr ⟨rfl, rfl⟩⟩
  · have he := hi.expected
    simp only [Expected, hs] at he
    rw [he.1, hs]
    exact ⟨he.2, .inr ⟨rfl, rfl⟩⟩
  · rw [hi.holding hold, if_pos hh]
    rcases hold with hs | hs <;> rw [hs] <;> exact ⟨hh, .inl ⟨rfl, rfl⟩⟩
  · exact absurd hs hne
  · exact absurd hs hns

/-! ## The proof phase -/

theorem inv_notRequired : Keeps w seen .notRequired := by
  rintro ⟨hold, hh⟩
  refine inv_updateState rfl (by simp) ?_ hi.sent
  rw [hi.holding hold, if_pos hh]
  rfl

theorem inv_proofFailed (resolvable : Bool) : Keeps w seen (.proofFailed resolvable) := by
  rintro ⟨rfl, hold, hh, hentry⟩
  have hhash : w.session.proofTxHash = "" := hh
  have hp : perform (.snapshot (some (decodeSnapshot w.session))) .ok ((Site.proofFailed resolvable).body w)
      w.session = ({ w.session with state := .proofTxError }, some (.updated w.session.state)) := by
    have hret : ¬ (w.session.state = .proved ∨ w.session.state = .probabilisticProved ∨
        w.session.proofTxHash ≠ "") := by
      rcases hold with hs | hs <;> simp [hs, hhash]
    simp only [Site.body, Callback.body, onProofTxError, perform, decodeSnapshot_state,
      decodeSnapshot_proofTxHash, if_neg hret]
    exact perform_updateState _ .none (by simp)
  refine inv_of_perform hp ?_ ?_
  · rw [hi.holding hold, if_pos hh]
    cases resolvable with
    | true => exact ⟨hh, .inl rfl⟩
    | false => exact ⟨hh, .inr ⟨rfl, hentry rfl⟩⟩
  cases resolvable with
  | true =>
    intro txHash he hne
    cases he
    exact absurd rfl hne
  | false => exact hi.sent

theorem inv_proofHeld : Keeps w seen .proofHeld := by
  intro h
  refine hi.untouched none rfl rfl ⟨fun _ h => h, fun hs => absurd hs h, ?_⟩
  intro txHash he hne
  cases he
  exact absurd rfl hne

theorem inv_rootUnavailable : Keeps w seen .rootUnavailable := by
  rintro ⟨rfl, h⟩
  have hret : w.session.state = .proved ∨ w.session.state = .probabilisticProved ∨ w.session.proofTxHash ≠ "" := by
    rcases h with h | h
    · cases hs : w.session.state <;> simp_all [SessionState.isSuccess]
    · exact .inr (.inr h)
  refine hi.untouched none ?_ rfl (.of_eq rfl rfl)
  simp only [Site.body, Callback.body, onProofTxError, perform, decodeSnapshot_state,
    decodeSnapshot_proofTxHash, if_pos hret]

theorem inv_proofWindowClosed (proofTxHash : String) : Keeps w seen (.proofWindowClosed proofTxHash) := by
  rintro ⟨hold, rfl⟩
  refine inv_updateState rfl (by simp) ?_ hi.sent
  rw [hi.holding hold]
  by_cases hh : w.session.proofTxHash = ""
  · simp only [hh, if_true, Expected, Site.records]
    rfl
  · simp [made, recordProofWindowClosed, hh, Account.post]

theorem inv_proofAccepted (txHash : String) (entry : Bool) : Keeps w seen (.proofAccepted txHash entry) := by
  rintro ⟨rfl, hold, hh, htx⟩
  let saved := saveScript true { decodeSnapshot w.session with proofTxHash := txHash } (some w.session)
  have hp : perform (.snapshot (some (decodeSnapshot w.session))) .ok ((Site.proofAccepted txHash entry).body w)
      w.session = (saved, some .saved) := rfl
  have hstate : saved.state = w.session.state := by simp [saved]
  have hsent : saved.proofTxHash ≠ "" := htx
  refine inv_of_perform hp (.of_holding ?_ ?_) fun _ _ _ => hsent
  · rw [hstate]
    exact hold
  · rw [hi.holding hold, if_pos hh, if_neg hsent]
    rfl

theorem inv_proofSettled (ho : o = .missing ∨ o = .rejected) (txHash : String)
    (h : w.proofEntry = some "" → w.session.state = .proofTxError) :
    Inv (step w ⟨.reconcileProof o txHash true, seen, .ok⟩) := by
  have hp : perform seen .ok ((Site.reconcileProof o txHash true).body w) w.session = (w.session, none) := by
    rcases ho with rfl | rfl <;> rfl
  have hrec : (Site.reconcileProof o txHash true).records w seen none = bookEntry .proof w.proofEntry o := by
    rcases ho with rfl | rfl <;> rfl
  by_cases he : w.proofEntry = some ""
  · have hs := h he
    obtain ⟨hh, hb⟩ := hi.proofTxError hs
    have hb : books w = waiting := hb.resolve_right fun hb => hb.2 he
    have hpost : (books w).post (bookEntry .proof w.proofEntry o) = writtenOff := by
      rw [hb, he]
      rcases ho with rfl | rfl <;> rfl
    refine inv_of_perform hp ?_ nofun
    rw [hrec, hpost]
    simp [hs, hh, Site.proofEntry]
  refine hi.same hp (.rfl _) ?_ ⟨fun _ h => h, nofun, nofun⟩
  rw [hrec]
  exact post_bookEntry ho he

omit hi in
theorem proofEntry_reconcileProof (w : World) (o : Outcome) (txHash : String) (clears : Bool) {orig : String}
    (h : (Site.reconcileProof o txHash clears).proofEntry w = some orig) : w.proofEntry = some orig := by
  cases clears with
  | true => cases h
  | false => exact h

/-- A proof seen on chain: its money waited for it, or was counted when it was sent. -/
theorem inv_proofFound (txHash : String) (clears : Bool) {orig : String} (he : w.proofEntry = some orig)
    (hr : canReactivateProved w.session.state w.session.proofTxHash = true)
    (h : orig = "" → w.session.state = .proofTxError) :
    Inv (step w ⟨.reconcileProof .found txHash clears, seen, .ok⟩) := by
  have hp : perform seen .ok ((Site.reconcileProof .found txHash clears).body w) w.session =
      ({ w.session with
        state := .proved
        proofTxHash := if w.session.proofTxHash = "" ∧ txHash ≠ "" then txHash else w.session.proofTxHash },
        some (.reactivation (some w.session.state))) := by
    simp [Site.body, he, onProofObservedOnChain, perform, exec, apply, reactivateProvedScript, hr]
  refine inv_of_perform hp ?_ fun orig' he' hne => ?_
  · have hrec : (Site.reconcileProof .found txHash clears).records w seen (some (.reactivation
        (some w.session.state))) = [⟨.reconciled, settleLedgerOutcome .proof orig .found, true⟩] := by
      simp [bookEntry, he]
    rw [hrec]
    by_cases horig : orig = ""
    · obtain ⟨-, hb⟩ := hi.proofTxError (h horig)
      have hb : books w = waiting := hb.resolve_right fun hb => hb.2 (horig ▸ he)
      rw [hb, horig]
      rfl
    have hsent := hi.sent orig he horig
    have hb : books w = paid := by
      have hx := hi.expected
      unfold Expected at hx
      cases hs : w.session.state <;> simp only [hs, canReactivateProved, Bool.false_eq_true] at hr hx
      case claimed | proving | proofWindowClosed => rwa [if_neg hsent] at hx
      case proofTxError => exact absurd hx.1 hsent
    have hmoney : settleLedgerOutcome .proof orig .found = [] := by simp [settleLedgerOutcome, horig]
    rw [hmoney, hb]
    rfl
  · have hsent := hi.sent orig' (proofEntry_reconcileProof w _ _ _ he') hne
    simp [hsent]

theorem inv_reconcileProof (o : Outcome) (txHash : String) (clears : Bool) (hok : o = .pollError ∨ clears = true) :
    Keeps w seen (.reconcileProof o txHash clears) := by
  intro h
  -- An outcome without a flip leaves the session and its money.
  have hquiet : ∀ o reply, perform seen .ok ((Site.reconcileProof o txHash clears).body w) w.session =
      (w.session, reply) → (books w).post ((Site.reconcileProof o txHash clears).records w seen reply) = books w →
      Inv (step w ⟨.reconcileProof o txHash clears, seen, .ok⟩) := fun o reply hp hb =>
    hi.same hp (.rfl _) hb ⟨fun _ h => h, fun _ h => proofEntry_reconcileProof w o txHash clears h,
      fun _ h _ => proofEntry_reconcileProof w o txHash clears h⟩
  cases o with
  | found =>
    cases he : w.proofEntry with
    | none => exact hquiet _ none (by simp [Site.body, he, perform]) rfl
    | some orig =>
      cases hr : canReactivateProved w.session.state w.session.proofTxHash with
      | true =>
        refine inv_proofFound hi txHash clears he hr fun horig => ?_
        have hm : w.session.state = .proofTxError ∨ canReactivateProved w.session.state w.session.proofTxHash = false :=
          h (horig ▸ he)
        exact hm.resolve_right (by simp [hr])
      | false =>
        refine hquiet _ (some (.reactivation none)) ?_ rfl
        simp [Site.body, he, onProofObservedOnChain, perform, exec, apply, reactivateProvedScript, hr]
  | missing =>
    obtain rfl : clears = true := hok.resolve_left (by decide)
    exact inv_proofSettled hi (.inl rfl) txHash h
  | rejected =>
    obtain rfl : clears = true := hok.resolve_left (by decide)
    exact inv_proofSettled hi (.inr rfl) txHash h
  | pollError =>
    refine hquiet _ none rfl ?_
    simp only [Site.records, bookEntry]
    split <;> rfl

theorem inv_entryRemoved (phase : Phase) : Inv (step w ⟨.entryRemoved phase, seen, .ok⟩) := by
  cases phase with
  | claim => exact hi.same rfl (.rfl _) rfl ⟨nofun, fun _ h => h, fun _ h _ => h⟩
  | proof => exact hi.same rfl (.rfl _) rfl ⟨fun _ h => h, nofun, nofun⟩

end

/-! ## Runs -/

theorem inv_step (w : World) (a : Step) (hi : Inv w) (h : Succeeds a ∧ Meant w a) : Inv (step w a) := by
  obtain ⟨site, seen, f⟩ := a
  obtain ⟨⟨hf, hok⟩, hm⟩ := h
  obtain rfl : f = .ok := hf
  cases site with
  | plain c => exact inv_plain hi c hm
  | track snap => exact inv_track hi snap hm
  | claimAccepted root txHash entry => exact inv_claimAccepted hi root txHash entry hm
  | claimObserved root txHash =>
    obtain ⟨rfl, hm⟩ := hm
    exact inv_observed hi root txHash rfl hm rfl (fun _ => rfl) (fun h => h) rfl
  | claimWindowClosed claimTxHash => exact inv_claimWindowClosed hi claimTxHash hm
  | claimFailed how => exact inv_claimFailed hi how hm
  | claimHeld => exact inv_claimHeld hi hm
  | claimMissing => exact inv_claimMissing hi hm
  | notRequired => exact inv_notRequired hi hm
  | proofFailed resolvable => exact inv_proofFailed hi resolvable hm
  | proofHeld => exact inv_proofHeld hi hm
  | rootUnavailable => exact inv_rootUnavailable hi hm
  | proofWindowClosed proofTxHash => exact inv_proofWindowClosed hi proofTxHash hm
  | proofAccepted txHash entry => exact inv_proofAccepted hi txHash entry hm
  | reconcileClaim o root txHash clears => exact inv_reconcileClaim hi o root txHash clears hok hm
  | reconcileProof o txHash clears => exact inv_reconcileProof hi o txHash clears hok hm
  | entryRemoved phase => exact inv_entryRemoved hi phase

/-- The books of a session close throughout every history whose calls succeed and each find the session in a state
they are meant for. -/
theorem books_closed {s : SessionSnapshot} (hs : s.state = .active) (hc : s.claimTxHash = "") (hp : s.proofTxHash = "")
    {as : List Step} (hm : Meets step (fun w a => Succeeds a ∧ Meant w a) { session := s } as) :
    Closed (run step { session := s } as).session.state (books (run step { session := s } as)) := by
  have h0 : Inv { session := s } := by
    refine ⟨?_, nofun⟩
    simp only [Expected, hs]
    exact ⟨rfl, hc, hp⟩
  exact (inv_of_meets Inv inv_step h0 hm).expected.closed

/-- The proof of a claim whose attempt failed fails as well, and the chain turns out to have both. -/
theorem failed_attempts_found :
    let root : Bytes := List.replicate smstRootLen 0
    let failed : SessionSnapshot := { state := .claimTxError, claimMissingVerdict := .attempt }
    let proving : SessionSnapshot := { state := .proving, claimedRootHash := root, claimTxHash := "claim" }
    let as : List Step := [{ site := .plain .claiming },
      { site := .claimFailed (.attempt true), seen := .snapshot (some { state := .claiming }) },
      { site := .reconcileClaim .found root "claim" true, seen := .snapshot (some failed) },
      { site := .plain .proving },
      { site := .proofFailed true, seen := .snapshot (some proving) },
      { site := .reconcileProof .found "proof" true }]
    Closed (run step { session := { state := .active } } as).session.state
      (books (run step { session := { state := .active } } as)) :=
  books_closed rfl rfl rfl (by decide)

/-- The node says it holds the proof of a claimed session already. Its entry is written as a failure's, but no failure
was counted: when the chain has the proof, a balance is resolved that was never opened. -/
theorem unopened_balance_resolved :
    let root : Bytes := List.replicate smstRootLen 0
    let as : List Step := [{ site := .plain .claiming, seen := .snapshot (some { state := .active }) },
      { site := .claimAccepted root "claim" true, seen := .snapshot (some { state := .claiming }) },
      { site := .plain .proving,
        seen := .snapshot (some { state := .claimed, claimedRootHash := root, claimTxHash := "claim" }) },
      { site := .proofHeld,
        seen := .snapshot (some { state := .proving, claimedRootHash := root, claimTxHash := "claim" }) },
      { site := .reconcileProof .found "" true,
        seen := .snapshot (some { state := .proving, claimedRootHash := root, claimTxHash := "claim" }) }]
    let w := run step { session := { state := .active } } as
    Meets step (fun w a => Succeeds a ∧ Fresh w a) { session := { state := .active } } as ∧
      w.session.state = .proved ∧ books w = { claimed := 1, proved := 1, unresolved := -1 } ∧
      ¬ Closed w.session.state (books w) := by
  refine ⟨by decide, by decide, by decide, fun h => ?_⟩
  exact absurd h.unresolved (by decide)

end RelayMiner.Lifecycle.Bookings.Books
