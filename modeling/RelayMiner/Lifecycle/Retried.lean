import RelayMiner.Lifecycle.ClaimsKept
/-!
# Unsent sessions are asked for again

The proof cycle has one session in hand at a time and hands each one on, as the
claim cycle does its groups. When either returns, a session with nothing sent
waits where `determineTransition` takes it up again.
-/
open RelayMiner.Lib RelayMiner.Session

namespace RelayMiner.Lifecycle

open List

variable {phase : Phase} {s : Stores} {id : SessionID} {cfg : Config} {m m' : Mem} {batch : List Snap}
  {height : Nat} {msg : Bytes}

/-! ## The proof cycle -/

def ProofStage.snaps : ProofStage → List Snap
  | .params c x | .waitOpen c x | .waitSeed c x | .guard c x | .required c x | .waitEarliest c x | .timeCheck c x
  | .stillRequired c x | .building c x | .recheck c x _ | .sending c x _ _ | .accepted c x _ _ | .failed c x _ _ =>
    x :: c.rest
  | .settling c | .next c => c.rest
  | .done => []

def ProofStage.settled : ProofStage → List SessionID
  | .params c _ | .waitOpen c _ | .waitSeed c _ | .guard c _ | .required c _ | .waitEarliest c _ | .timeCheck c _
  | .stillRequired c _ | .building c _ | .recheck c _ _ | .sending c _ _ _ | .accepted c _ _ _ | .failed c _ _ _
  | .settling c | .next c => c.settled
  | .done => []

def ProofStage.batch? : ProofStage → Option (List Snap)
  | .params c _ | .waitOpen c _ | .waitSeed c _ | .guard c _ | .required c _ | .waitEarliest c _ | .timeCheck c _
  | .stillRequired c _ | .building c _ | .recheck c _ _ | .sending c _ _ _ | .accepted c _ _ _ | .failed c _ _ _
  | .settling c | .next c => some c.batch
  | .done => none

structure ProofsKept (batch : List Snap) (s : Stores) (t : ProofStage) (m : Mem) : Prop where
  ctx : ∀ b ∈ t.batch?, b = batch
  mem : ∀ y ∈ t.snaps, y ∈ batch
  within : ∀ x ∈ batch, Within .proof (s.sessions x.id).state
  before : ∀ x ∈ batch, x.proofTxHash ≠ "" → ¬ Stuck .proof s x.id ∨ x.id ∈ t.settled
  all : ∀ x ∈ batch, (x ∈ t.snaps ∨ x.id ∈ t.settled) ∨ LeftAlone m .proof x.id ∨ ¬ Stuck .proof s x.id

def ProofStage.Holds (c : ProofCtx) (x : Snap) (u : ProofStage) : Prop :=
  u.snaps = x :: c.rest ∧ u.settled = c.settled ∧ u.batch? = some c.batch

/-- What was learned is about `x` alone. -/
def OnlyOf (x : Snap) (m m' : Mem) : Prop := ∀ id, id ≠ x.id → LeftAlone m .proof id → LeftAlone m' .proof id

theorem OnlyOf.refl (x : Snap) (m : Mem) : OnlyOf x m m := fun _ _ h => h

variable {u u' : ProofStage} {x : Snap} {c : ProofCtx} (hid : ∀ x ∈ batch, ∀ y ∈ batch, x.id = y.id → x = y)
include hid

section
variable (h : ProofsKept batch s u m)
include h

/-- The session stays in hand. -/
theorem ProofsKept.hold (hnews : OnlyOf x m m') (hu : u.Holds c x) (hu' : u'.Holds c x) :
    ProofsKept batch s u' m' := by
  obtain ⟨hsnaps, hsettled, hbatch⟩ := hu
  obtain ⟨hsnaps', hsettled', hbatch'⟩ := hu'
  refine ⟨?_, ?_, h.within, ?_, fun y hy => ?_⟩
  · rw [hbatch', ← hbatch]
    exact h.ctx
  · rw [hsnaps', ← hsnaps]
    exact h.mem
  · rw [hsettled', ← hsettled]
    exact h.before
  rw [hsnaps', hsettled']
  by_cases hyx : y.id = x.id
  · exact .inl (.inl (hid y hy x (h.mem x (hsnaps ▸ .head _)) hyx ▸ .head _))
  have := h.all y hy
  rw [hsnaps, hsettled] at this
  exact this.imp_right (Or.imp_left (hnews y.id hyx))

/-- The session in hand is done with: proved at the end, freed by its writes, or left alone. -/
theorem ProofsKept.drop {ws : List Write} {settled : List SessionID} (hu : u.Holds c x)
    (hu' : u' = .next { c with settled := settled } ∨ u' = .settling { c with settled := settled })
    (hmore : ∀ id ∈ c.settled, id ∈ settled) (hnews : OnlyOf x m m')
    (hopens : ∀ w ∈ ws, w.opens = false) (hws : ∀ id, id ≠ x.id → ∀ w ∈ ws, w.Mild id)
    (hx : x.id ∈ settled ∨ ¬ Stuck .proof (ws.foldl execWrite s) x.id ∨ (LeftAlone m' .proof x.id ∧ ws = [])) :
    ProofsKept batch (ws.foldl execWrite s) u' m' := by
  obtain ⟨hsnaps, hsettled, hbatch⟩ := hu
  have hx' := h.mem x (hsnaps ▸ .head _)
  have hu : u'.snaps = c.rest ∧ u'.settled = settled ∧ u'.batch? = some c.batch := by
    rcases hu' with rfl | rfl
    · exact ⟨rfl, rfl, rfl⟩
    · exact ⟨rfl, rfl, rfl⟩
  refine ⟨?_, fun y hy => ?_, fun y hy => within_foldl hopens (h.within y hy), fun y hy hh => ?_, fun y hy => ?_⟩
  · rw [hu.2.2, ← hbatch]
    exact h.ctx
  · rw [hu.1] at hy
    exact h.mem y (hsnaps ▸ .tail x hy)
  · have hbefore := h.before y hy hh
    rw [hsettled] at hbefore
    rw [hu.2.1]
    by_cases hyx : y.id = x.id
    · obtain rfl := hid y hy x hx' hyx
      rcases hx with hx | hx | ⟨-, rfl⟩
      · exact .inr hx
      · exact .inl hx
      · exact hbefore.imp_right (hmore _)
    rcases hbefore with hn | hn
    · exact .inl (not_stuck_foldl (hws _ hyx) (.inl hn))
    · exact .inr (hmore _ hn)
  rw [hu.1, hu.2.1]
  by_cases hyx : y.id = x.id
  · obtain rfl := hid y hy x hx' hyx
    rcases hx with hx | hx | ⟨hx, -⟩
    · exact .inl (.inr hx)
    · exact .inr (.inr hx)
    · exact .inr (.inl hx)
  have hall := h.all y hy
  rw [hsnaps, hsettled] at hall
  rcases hall with (hy' | hy') | hy' | hy'
  · rcases mem_cons.1 hy' with rfl | hy'
    · exact absurd rfl hyx
    · exact .inl (.inl hy')
  · exact .inl (.inr (hmore _ hy'))
  · exact .inr (.inl (hnews y.id hyx hy'))
  · exact .inr (.inr (not_stuck_foldl (hws _ hyx) (.inl hy')))

theorem ProofsKept.handOn {cb : Callback} (hnews : OnlyOf x m m') (hcb : cb.handsOn .proof = true)
    (hu : u.Holds c x) :
    ProofsKept batch ([Write.session x.id cb].foldl execWrite s) (.next c) m' := by
  refine h.drop hid hu (.inl rfl) (fun _ hid => hid) hnews (fun w hw => ?_) (fun id hne w hw => ?_)
    (.inr (.inl (frees_session hcb s)))
  · rw [mem_singleton.1 hw]
    cases cb <;> first | rfl | cases hcb
  · rw [mem_singleton.1 hw]
    exact fun hid => absurd hid hne
end

omit hid in
theorem onlyOf_recordJudged (q : ClaimQuery) : OnlyOf x m (m.recordJudged x.id q) := by
  intro id hne h
  cases q with
  | found root status => simpa [LeftAlone, Mem.recordJudged, Function.update_of_ne hne] using h
  | notFound | error => exact h

/-- The pre-proof guard stops only at a session it settles. -/
theorem ProofsKept.guard {q : ClaimQuery} {w : Windows} (h : ProofsKept batch s (.guard c x) m)
    {d : List Write × ProofStage} (hd : preProofGuard w height c x q = some d) :
    ProofsKept batch (d.1.foldl execWrite s) d.2 (m.recordJudged x.id q) := by
  have hnews := onlyOf_recordJudged (x := x) (m := m) q
  unfold preProofGuard at hd
  split at hd
  · cases hd
    exact h.drop hid (c := c) ⟨rfl, rfl, rfl⟩ (.inl rfl) (fun id hid => mem_append_left _ hid) hnews
      nofun (fun _ _ => nofun) (.inl (by simp))
  · cases hd
    exact h.drop hid (c := c) ⟨rfl, rfl, rfl⟩ (.inl rfl) (fun id hid => hid) hnews nofun (fun _ _ => nofun)
      (.inr (.inr ⟨.inr (by simp [Mem.recordJudged]), rfl⟩))
  · cases hd
  · split_ifs at hd
    · cases hd
      exact h.handOn hid hnews rfl ⟨rfl, rfl, rfl⟩
    · cases hd
      exact h.handOn hid hnews rfl ⟨rfl, rfl, rfl⟩
  · cases hd

theorem ProofsKept.checkRequired {r : Requirement} (h : ProofsKept batch s u m) (hu : u.Holds c x)
    (hu' : u'.Holds c x) :
    ProofsKept batch ((checkRequired c x u' r).1.foldl execWrite s) (checkRequired c x u' r).2 m := by
  cases r with
  | required | error => exact h.hold hid (.refl x m) hu hu'
  | _ => exact h.handOn hid (.refl x m) rfl hu

theorem ProofsKept.submit {n : Nat} {r : Submit} (h : ProofsKept batch s (.sending c x msg n) m)
    (hnews : OnlyOf x m m') :
    ProofsKept batch ((submitProof cfg m' c x msg n r false).1.foldl execWrite s)
      (submitProof cfg m' c x msg n r false).2 m' := by
  unfold submitProof settleNotRequiredBatch
  dsimp only
  split
  · exact h.hold hid (c := c) hnews ⟨rfl, rfl, rfl⟩ ⟨rfl, rfl, rfl⟩
  · split
    · exact h.handOn hid hnews rfl ⟨rfl, rfl, rfl⟩
    · exact h.handOn hid hnews rfl ⟨rfl, rfl, rfl⟩
  · exact h.handOn hid hnews rfl ⟨rfl, rfl, rfl⟩
  · exact h.handOn hid hnews rfl ⟨rfl, rfl, rfl⟩
  · split
    · exact h.handOn hid hnews rfl ⟨rfl, rfl, rfl⟩
    · exact h.handOn hid hnews rfl ⟨rfl, rfl, rfl⟩
  unfold retryProof
  split
  · exact h.hold hid (c := c) hnews ⟨rfl, rfl, rfl⟩ ⟨rfl, rfl, rfl⟩
  · exact h.hold hid (c := c) hnews ⟨rfl, rfl, rfl⟩ ⟨rfl, rfl, rfl⟩

theorem ProofsKept.accept {tx : String} (h : ProofsKept batch s (.accepted c x msg tx) m) :
    ProofsKept batch ((acceptedProof cfg height x msg tx).foldl execWrite s)
      (.settling { c with settled := c.settled ++ [x.id] }) m := by
  refine h.drop hid (c := c) ⟨rfl, rfl, rfl⟩ (.inr rfl) (fun id hid => mem_append_left _ hid) (.refl x m)
    (fun w hw => ?_) (fun id hne w hw => ?_) (.inl (by simp))
  · obtain rfl | rfl := mem_acceptedProof hw
    · rfl
    · rfl
  obtain rfl | rfl := mem_acceptedProof hw
  · exact fun hid => absurd hid hne
  · trivial

theorem ProofsKept.fail {r : Submit} (h : ProofsKept batch s (.failed c x msg r) m)
    (hkept : nothingWasSpent r = true → cfg.rebroadcastStore = true) :
    ProofsKept batch ((failedProof cfg height x msg r).foldl execWrite s) (.settling c) m := by
  have hmild : ∀ id, ∀ w ∈ failedProof cfg height x msg r, w.Mild id := by
    intro id w hw
    obtain rfl | rfl := mem_failedProof hw
    · exact fun _ => ⟨rfl, nofun⟩
    · trivial
  have hfree : ∃ w ∈ failedProof cfg height x msg r, Frees .proof x.id w := by
    unfold failedProof
    by_cases hr : nothingWasSpent r = true
    · rw [if_pos hr, if_pos (hkept hr)]
      exact ⟨_, .head _, frees_put _⟩
    · rw [if_neg hr]
      exact ⟨_, .head _, frees_session rfl⟩
  exact h.drop hid (c := c) ⟨rfl, rfl, rfl⟩ (.inr rfl) (fun _ hid => hid) (.refl x m)
    (fun w hw => Write.Mild.opens fun id => hmild id w hw) (fun id _ => hmild id)
    (.inr (.inl (not_stuck_foldl (hmild _) (.inr hfree))))

omit hid in
theorem ProofsKept.prove (h : ProofsKept batch s (.next c) m) (hrest : c.rest = []) :
    ProofsKept batch (((c.batch.filter (·.id ∈ c.settled)).flatMap provedWrites).foldl execWrite s) .done m := by
  have hmild : ∀ id, ∀ w ∈ (c.batch.filter (·.id ∈ c.settled)).flatMap provedWrites, w.Mild id := by
    intro id w hw
    obtain ⟨y, -, hw⟩ := mem_flatMap.1 hw
    simp only [provedWrites, mem_cons, not_mem_nil, or_false] at hw
    rcases hw with rfl | rfl | rfl
    · exact fun _ => ⟨rfl, by simp⟩
    · trivial
    · exact fun _ => ⟨rfl, by simp⟩
  have hfree : ∀ y ∈ batch, y.id ∈ c.settled →
      ∃ w ∈ (c.batch.filter (·.id ∈ c.settled)).flatMap provedWrites, Frees .proof y.id w := by
    intro y hy hset
    have hyc : y ∈ c.batch := (h.ctx c.batch rfl) ▸ hy
    exact ⟨_, mem_flatMap.2 ⟨y, mem_filter.2 ⟨hyc, by simpa using hset⟩, .head _⟩, frees_session rfl⟩
  refine ⟨by rintro _ ⟨⟩, by rintro _ ⟨⟩,
    fun y hy => within_foldl (fun w hw => Write.Mild.opens fun id => hmild id w hw) (h.within y hy),
    fun y hy hh => .inl ?_, fun y hy => .inr ?_⟩
  · rcases h.before y hy hh with hn | hn
    · exact not_stuck_foldl (hmild _) (.inl hn)
    · exact not_stuck_foldl (hmild _) (.inr (hfree y hy hn))
  rcases h.all y hy with (hy' | hy') | hy' | hy'
  · have : y ∈ c.rest := hy'
    rw [hrest] at this
    cases this
  · exact .inr (not_stuck_foldl (hmild _) (.inr (hfree y hy hy')))
  · exact .inl hy'
  · exact .inr (not_stuck_foldl (hmild _) (.inl hy'))

theorem proofsKept_next {a : Answer} (h : ProofsKept batch s u m) (hg : Lasts cfg m (.proofs u) a) :
    ProofsKept batch ((proofNext cfg m u a).1.foldl execWrite s) (proofNext cfg m u a).2.1
      (proofNext cfg m u a).2.2 := by
  unfold proofNext
  split
  next c x _ =>
    split
    · exact h.hold hid (c := c) (.refl x m) ⟨rfl, rfl, rfl⟩ ⟨rfl, rfl, rfl⟩
    · exact h.handOn hid (.refl x m) rfl ⟨rfl, rfl, rfl⟩
  next c x _ =>
    split
    · split
      · exact h.hold hid (c := c) (.refl x m) ⟨rfl, rfl, rfl⟩ ⟨rfl, rfl, rfl⟩
      · exact h
    · exact h.handOn hid (.refl x m) rfl ⟨rfl, rfl, rfl⟩
  next c x _ =>
    split
    · exact h.hold hid (c := c) (.refl x m) ⟨rfl, rfl, rfl⟩ ⟨rfl, rfl, rfl⟩
    · exact h.handOn hid (.refl x m) rfl ⟨rfl, rfl, rfl⟩
  next c x q =>
    split
    · -- The proof was submitted before.
      rename_i hhash
      refine h.drop hid (c := c) ⟨rfl, rfl, rfl⟩ (.inl rfl) (fun _ hid => hid) (.refl x m) (by simp) (by simp) ?_
      exact (h.before x (h.mem x (.head _)) hhash).symm.imp_right .inl
    split
    · split
      · exact h.guard hid ‹_›
      · exact h.hold hid (c := c) (onlyOf_recordJudged q) ⟨rfl, rfl, rfl⟩ ⟨rfl, rfl, rfl⟩
    · exact h.hold hid (c := c) (.refl x m) ⟨rfl, rfl, rfl⟩ ⟨rfl, rfl, rfl⟩
  · exact h.checkRequired hid ⟨rfl, rfl, rfl⟩ ⟨rfl, rfl, rfl⟩
  next c x _ =>
    split
    · exact h.hold hid (c := c) (.refl x m) ⟨rfl, rfl, rfl⟩ ⟨rfl, rfl, rfl⟩
    · exact h.handOn hid (.refl x m) rfl ⟨rfl, rfl, rfl⟩
  next c x =>
    split
    · exact h.handOn hid (.refl x m) rfl ⟨rfl, rfl, rfl⟩
    · exact h.hold hid (c := c) (.refl x m) ⟨rfl, rfl, rfl⟩ ⟨rfl, rfl, rfl⟩
  · exact h.checkRequired hid ⟨rfl, rfl, rfl⟩ ⟨rfl, rfl, rfl⟩
  next c x msg =>
    have hnews : OnlyOf x m { m with proofBuild := Function.update m.proofBuild x.id (some msg) } := by
      intro id hne ha
      simpa [LeftAlone, Function.update_of_ne hne] using ha
    split
    · exact h.hold hid (c := c) hnews ⟨rfl, rfl, rfl⟩ ⟨rfl, rfl, rfl⟩
    · exact h.drop hid (c := c) ⟨rfl, rfl, rfl⟩ (.inl rfl) (fun _ hid => hid) hnews (by simp) (by simp)
        (.inr (.inr ⟨.inl (by simp), rfl⟩))
  next c x _ =>
    split
    · exact h.handOn hid (.refl x m) rfl ⟨rfl, rfl, rfl⟩
    · exact h.hold hid (c := c) (.refl x m) ⟨rfl, rfl, rfl⟩ ⟨rfl, rfl, rfl⟩
  · exact h.handOn hid (.refl _ m) rfl ⟨rfl, rfl, rfl⟩
  · obtain rfl : _ = false := hg
    exact h.submit hid fun _ _ ha => ha
  · exact h.accept hid
  · exact h.fail hid hg
  · exact { h with }
  · split
    next c _ x rest hrest =>
      have hsnaps : (ProofStage.next c).snaps = x :: rest := hrest
      refine { h with mem := ?_, all := fun y hy => ?_ }
      · have := h.mem
        rwa [hsnaps] at this
      · have := h.all y hy
        rwa [hsnaps] at this
    · exact h.prove ‹_›
  · exact h

omit hid

/-! ## Either cycle, to its end -/

theorem endHeight_insertGroup {y : Snap} {gs : List Group} (h : ∀ g ∈ gs, ∀ z ∈ g.snaps, z.endHeight = g.endHeight) :
    ∀ g ∈ insertGroup y gs, ∀ z ∈ g.snaps, z.endHeight = g.endHeight := by
  induction gs with
  | nil =>
    intro g hg z hz
    obtain rfl := mem_singleton.1 hg
    rw [mem_singleton.1 hz]
  | cons g gs ih =>
    have htail := ih fun g' hg' => h g' (.tail g hg')
    unfold insertGroup
    split
    next hend =>
      exact forall_mem_cons.2 ⟨forall_mem_append.2 ⟨h g (.head gs), forall_mem_singleton.2 hend.symm⟩,
        fun g' hg' => h g' (.tail g hg')⟩
    exact forall_mem_cons.2 ⟨h g (.head gs), htail⟩

/-- The sessions of a group are of the batch and share its end height. -/
theorem mem_groupByEndHeight {g : Group} (hg : g ∈ groupByEndHeight batch) {y : Snap} (hy : y ∈ g.snaps) :
    y ∈ batch ∧ y.endHeight = g.endHeight := by
  have hfold : ∀ (xs : List Snap) (gs : List Group), (∀ g ∈ gs, ∀ z ∈ g.snaps, z.endHeight = g.endHeight) →
      ∀ g ∈ xs.foldl (fun gs z => insertGroup z gs) gs, ∀ z ∈ g.snaps, z.endHeight = g.endHeight := by
    intro xs
    induction xs with
    | nil => exact fun gs h => h
    | cons x xs ih => exact fun gs h => ih _ (endHeight_insertGroup h)
  refine ⟨(perm_groupByEndHeight batch).mem_iff.1 (mem_flatMap.2 ⟨g, hg, hy⟩), ?_⟩
  exact hfold batch [] nofun g ((perm_insertionSort _ _).mem_iff.1 hg) y hy

def Kept (cfg : Config) (batch : List Snap) (phase : Phase) (s : Stores) : Stage → Mem → Prop
  | .claims t, m => phase = .claim ∧ ClaimsKept cfg batch s t m
  | .proofs t, m => phase = .proof ∧ ProofsKept batch s t m

theorem kept_start {w : Cycle} (hw : Starts phase batch w) : Kept cfg batch phase w.store (start phase batch) w.mem := by
  cases phase with
  | claim =>
    refine ⟨rfl, fun g hg y hy => mem_groupByEndHeight hg hy, fun x hx => ?_, fun x hx hh hstuck => ?_, fun x hx => ?_⟩
    · rw [(hw.claiming rfl x hx).1]
      exact nofun
    · exact hh ((hw.claiming rfl x hx).2 ▸ hstuck.2.1)
    · exact .inl ((perm_groupByEndHeight batch).mem_iff.2 hx)
  | proof =>
    have hperm : (groupOnePerSession batch).Perm batch := perm_insertionSort _ _
    refine ⟨rfl, ?_, fun y hy => hperm.mem_iff.1 hy, fun x hx => ?_, fun x hx hh => .inl fun hstuck => ?_, fun x hx => ?_⟩
    · rintro b ⟨⟩
      rfl
    · rw [(hw.proving rfl x hx).1]
      exact ⟨nofun, nofun⟩
    · exact hh ((hw.proving rfl x hx).2 ▸ hstuck.2.1)
    · exact .inl (.inl (hperm.mem_iff.2 hx))

theorem kept_of_run {w : Cycle} (hw : Starts phase batch w) {ks : List CycleTick}
    (hlasts : Meets (step cfg) (Decides (Lasts cfg)) w ks) :
    let w' := run (step cfg) w ks
    ∀ t, w'.stage = some t → Kept cfg batch phase (w'.settled execWrite) t w'.mem := by
  have hid : ∀ x ∈ batch, ∀ y ∈ batch, x.id = y.id → x = y := fun x hx y hy => inj_on_of_nodup_map hw.nodup hx hy
  refine settled_of_decides (Kept cfg batch phase) ?_ ?_ (fun t ht => ?_) hlasts
  · intro s t m a h hg
    cases t with
    | claims t => exact ⟨h.1, claimsKept_next hid h.2 hg⟩
    | proofs t => exact ⟨h.1, proofsKept_next hid h.2 hg⟩
  · intro s t m blocks h
    cases t with
    | claims t => exact ⟨h.1, h.2.stay (Nat.le_add_right _ _) rfl (fun _ hg => hg) fun _ hx => hx⟩
    | proofs t => exact ⟨h.1, h.2.ctx, h.2.mem, h.2.within, h.2.before, h.2.all⟩
  cases hw.stage.symm.trans ht
  rw [Proc.settled, hw.queue]
  exact kept_start hw

/-- The lifecycle asks for the claim, or the proof, at every later block of the window. -/
def AskedAgain (w : Windows) (r : SessionSnapshot) : Phase → Prop
  | .claim => r.state = .active ∧ ∀ height, w.claimOpen ≤ height → height < w.claimClose →
      determineTransition r height (some w) = some (.claiming, "claim_window_open")
  | .proof => r.state = .claimed ∧ ∀ height, w.proofOpen ≤ height → height < w.proofClose →
      determineTransition r height (some w) = some (.proving, "proof_window_open")

/-- The record carries the hash, or the claim is known to be taken. -/
def Sent (r : SessionSnapshot) : Phase → Prop
  | .claim => r.claimTxHash ≠ "" ∨ r.state = .claimed
  | .proof => r.proofTxHash ≠ ""

/-- More than two blocks of the claim window are left; the proof window is open. -/
def StillOpen (w : Windows) (height : Nat) : Phase → Prop
  | .claim => height + 2 < w.claimClose
  | .proof => height < w.proofClose

def finished : Phase → Stage
  | .claim => .claims .done
  | .proof => .proofs .done

/-- When a cycle returns with the window open, each of its sessions that was not left alone has its claim, or
proof, sent or kept for a resend, is in a terminal state, or is asked for again. -/
theorem unsent_sessions_retried (cfg : Config) (phase : Phase) (batch : List Snap) (w : Cycle)
    (hw : Starts phase batch w) (ks : List CycleTick) (hlasts : Meets (step cfg) (Decides (Lasts cfg)) w ks) :
    let w' := run (step cfg) w ks
    w'.stage = some (finished phase) → w'.queue = [] → ∀ x ∈ batch,
      StillOpen (cfg.windows x.endHeight) w'.mem.height phase → ¬ LeftAlone w'.mem phase x.id →
      Sent (w'.store.sessions x.id) phase ∨ w'.store.entries phase x.id ≠ none ∨
        (w'.store.sessions x.id).state.isTerminal = true ∨
        AskedAgain (cfg.windows x.endHeight) (w'.store.sessions x.id) phase := by
  intro w' hstage hqueue x hx hopen halone
  have hkept := kept_of_run hw hlasts (finished phase) hstage
  have hsettled : w'.settled execWrite = w'.store := by rw [Proc.settled, hqueue]; rfl
  change Kept cfg batch phase (w'.settled execWrite) (finished phase) w'.mem at hkept
  rw [hsettled] at hkept
  cases phase with
  | claim =>
    obtain ⟨-, h⟩ := hkept
    have hfree : ¬ Stuck .claim w'.store x.id := by
      rcases h.all x hx with ha | ha | ha | ha
      · exact ha.elim
      · exact absurd ha halone
      · have : w'.mem.height + 2 < (cfg.windows x.endHeight).claimClose := hopen
        unfold Late at ha
        omega
      · exact ha
    have hwithin := h.within x hx
    cases hs : (w'.store.sessions x.id).state with
    | active => exact .inr (.inr (.inr ⟨hs, fun height ho hc => claiming_of_active hs ho hc⟩))
    | claimed => exact .inl (.inr hs)
    | proving => exact absurd hs hwithin
    | claiming =>
      by_cases hh : (w'.store.sessions x.id).claimTxHash = ""
      · exact .inr (.inl fun he => hfree ⟨hs, hh, he⟩)
      · exact .inl (.inl hh)
    | _ => exact .inr (.inr (.inl rfl))
  | proof =>
    obtain ⟨-, h⟩ := hkept
    have hfree : ¬ Stuck .proof w'.store x.id := by
      rcases h.all x hx with (ha | ha) | ha | ha
      · cases ha
      · cases ha
      · exact absurd ha halone
      · exact ha
    have hwithin := h.within x hx
    cases hs : (w'.store.sessions x.id).state with
    | active => exact absurd hs hwithin.2
    | claiming => exact absurd hs hwithin.1
    | claimed => exact .inr (.inr (.inr ⟨hs, fun height ho hc => proving_of_claimed hs ho hc⟩))
    | proving =>
      by_cases hh : (w'.store.sessions x.id).proofTxHash = ""
      · exact .inr (.inl fun he => hfree ⟨hs, hh, he⟩)
      · exact .inl hh
    | _ => exact .inr (.inr (.inl rfl))

/-! ## The same two sessions -/

instance (cfg : Config) (m : Mem) (t : Stage) (a : Answer) : Decidable (Lasts cfg m t a) := by
  unfold Lasts
  split <;> infer_instance

/-- The node refuses the claims as outside their window while our height has it open. -/
def deferredRun : List CycleTick :=
  toClaims (.built [1] [11]) (.built [2] [12]) ++
    [.decide (.submit .refused false), .decide (.submit .windowRefused false), .write, .write, .decide .go]

theorem unsent_sessions_retried_deferred :
    let w := run (step exampleConfig) (exampleStart .claim .claiming 12) deferredRun
    w.stage = some (finished .claim) ∧ (w.store.sessions 1).claimTxHash = "" ∧ w.store.entries .claim 1 = none ∧
      AskedAgain (exampleConfig.windows 5) (w.store.sessions 1) .claim := by
  have hw : Starts .claim exampleBatch (exampleStart .claim .claiming 12) :=
    ⟨rfl, rfl, rfl, by decide, fun _ => by decide, nofun⟩
  have h := unsent_sessions_retried exampleConfig .claim exampleBatch _ hw deferredRun (by decide) rfl rfl
    { id := 1, endHeight := 5 } (by decide) (by unfold StillOpen; decide) (by unfold LeftAlone; decide)
  rcases h with h | h | h | h
  · exact absurd h (by unfold Sent; decide)
  · exact absurd rfl h
  · exact absurd h (by decide)
  · exact ⟨rfl, rfl, rfl, h⟩

def lateRun : List CycleTick :=
  [.decide .go, .decide (.read true), .decide (.read true), .decide .go, .decide (.claimQuery (.notFound 18)),
    .decide (.claimQuery (.notFound 18)), .decide .go, .decide .go]

def unbuiltRun (first : ClaimBuild) : List CycleTick :=
  toClaims first (.built [2] [12]) ++
    [.decide (.submit (.accepted "tx") false), .decide .go, .write, .write, .decide .go, .decide .go, .write]

def invalidRun : List CycleTick :=
  let turn : List CycleTick :=
    [.decide .go, .decide (.read true), .decide (.read true), .decide (.read true),
      .decide (.claimQuery (.found [] .invalid))]
  turn ++ turn ++ [.decide .go]

def unprovenRun : List CycleTick :=
  let turn : List CycleTick :=
    [.decide .go, .decide (.read true), .decide (.read true), .decide (.read true), .decide (.claimQuery .error),
      .decide (.requirement .required), .decide (.read true), .decide .go, .decide (.requirement .required),
      .decide (.proofBuild none)]
  turn ++ turn ++ [.decide .go]

def sentRun (answers : List Answer) : List CycleTick :=
  toClaims (.built [1] [11]) (.built [2] [12]) ++ answers.map .decide

def unspentRun : List CycleTick := sentRun (List.replicate 3 (.submit .nothingSpent false) ++ [.go, .go, .go])

/-- The first session is in `state` with nothing sent and nothing kept, and no block of the open window moves it. -/
def StrandedIn (phase : Phase) (state : SessionState) (w : Cycle) : Prop :=
  w.stage = some (finished phase) ∧ w.queue = [] ∧ (w.store.sessions 1).state = state ∧
    ¬ Sent (w.store.sessions 1) phase ∧ w.store.entries phase 1 = none ∧
    determineTransition (w.store.sessions 1) w.mem.height (some (exampleConfig.windows 5)) = none

instance (r : SessionSnapshot) : ∀ phase : Phase, Decidable (Sent r phase)
  | .claim => inferInstanceAs (Decidable (r.claimTxHash ≠ "" ∨ r.state = .claimed))
  | .proof => inferInstanceAs (Decidable (r.proofTxHash ≠ ""))

instance (phase : Phase) (state : SessionState) (w : Cycle) : Decidable (StrandedIn phase state w) := by
  unfold StrandedIn
  infer_instance

/-- By design: too late to build, nothing to claim, a claim whose proof was judged; a context that ends, a node that
finds the timeout height past before our height is at the close, and with no store nothing spent. Beside that, a build
that failed, of a claim and of a proof. -/
theorem session_stranded :
    StrandedIn .claim .claiming (run (step exampleConfig) (exampleStart .claim .claiming 18) lateRun) ∧
    (∀ ticks ∈ [unbuiltRun .emptyTree, sentRun [.submit .refused true, .go],
        sentRun [.submit .windowExpired false, .claimQuery (.notFound 12), .claimQuery (.notFound 12), .go, .go],
        unbuiltRun .failed],
      StrandedIn .claim .claiming (run (step exampleConfig) (exampleStart .claim .claiming 12) ticks)) ∧
    StrandedIn .claim .claiming
      (run (step { exampleConfig with rebroadcastStore := false }) (exampleStart .claim .claiming 12) unspentRun) ∧
    ∀ ticks ∈ [invalidRun, unprovenRun],
      StrandedIn .proof .proving (run (step exampleConfig) (exampleStart .proof .proving 32) ticks) := by
  decide

end RelayMiner.Lifecycle
