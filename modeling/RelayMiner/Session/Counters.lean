import RelayMiner.Session.Store
/-!
# Who writes a session's counters

`relay_count` and `total_compute_units` of one session in Redis, in either of the
layouts a key may have. `Save` finds out by its reads which fields to write: all
of them for a session it did not find, or found as legacy JSON, and all but the
counters for one it found as a hash. Any number of calls run side by side, one
round trip at a time, and any round trip may fail. Beside the key stands what the
creation of the session and the increments since then add up to.
-/
open RelayMiner.Lib

namespace RelayMiner.Session.Counters

inductive Slot where
  | none
  | hash (s : SessionSnapshot)
  /-- A JSON string, from before the hash layout. -/
  | legacy (s : SessionSnapshot)
  deriving DecidableEq

def counters (s : SessionSnapshot) : Nat × Nat := (s.relayCount, s.totalComputeUnits)

def Slot.stored : Slot → Option SessionSnapshot
  | .none => Option.none
  | .hash s | .legacy s => some s

def Slot.isHash : Slot → Bool
  | .hash _ => true
  | _ => false

structure Ledger where
  slot : Slot
  counted : Nat × Nat := (0, 0)

/-- The stored counters are what the increments alone have produced. -/
def Exact (l : Ledger) : Prop := ∀ s ∈ l.slot.stored, counters s = l.counted

instance (l : Ledger) : Decidable (Exact l) := inferInstanceAs (Decidable (∀ s ∈ l.slot.stored, _))

inductive Path where
  | legacy | new | existing
  deriving DecidableEq

inductive Op where
  | hgetall
  | getLegacyJSON (migrating : Bool)
  | keyType (snap : SessionSnapshot)
  | save (path : Path) (snap : SessionSnapshot)
  | create (snap : SessionSnapshot)
  | count (newRelays newComputeUnits : Nat)
  | updateState (newState : SessionState) (verdict : Verdict)
  | reactivateClaimed (root : Bytes) (claimTxHash : String)
  | reactivateProved (proofTxHash : String)

inductive Reply where
  | failed
  | wrongType
  | snapshot (s : Option SessionSnapshot)
  | keyType (isString : Bool)
  | ok
  deriving DecidableEq

def Ledger.made (s : SessionSnapshot) : Ledger := ⟨.hash s, counters s⟩

/-- The pipeline of `Save`. An `HSET` on a string is refused. -/
def Ledger.save (l : Ledger) (path : Path) (snap : SessionSnapshot) : Ledger × Reply :=
  match path, l.slot with
  | .existing, .none => (Ledger.made (saveScript true snap none), .ok)
  | _, .none => (Ledger.made snap, .ok)
  | .legacy, _ => ({ l with slot := .hash snap }, .ok)
  | path, .hash cur => ({ l with slot := .hash (saveScript (path = .existing) snap (some cur)) }, .ok)
  | _, .legacy _ => (l, .wrongType)

def Ledger.script (l : Ledger) (f : SessionSnapshot → SessionSnapshot) : Ledger × Reply :=
  match l.slot with
  | .none => (l, .failed)
  | .legacy _ => (l, .wrongType)
  | .hash s => ({ l with slot := .hash (f s) }, .ok)

def Ledger.count (l : Ledger) (newRelays newComputeUnits : Nat) : Ledger × Reply :=
  match l.slot with
  | .none => (l, .failed)
  | .legacy _ => (l, .wrongType)
  | .hash s =>
    if s.state.isTerminal then (l, .failed)
    else if 0 < newRelays then
      ({ slot := .hash { s with
          relayCount := s.relayCount + newRelays
          totalComputeUnits := s.totalComputeUnits + newComputeUnits }
         counted := (l.counted.1 + newRelays, l.counted.2 + newComputeUnits) }, .ok)
    else (l, .ok)

def applyOp (l : Ledger) : Op → Ledger × Reply
  | .hgetall => (l, match l.slot with
    | .none => .snapshot none
    | .hash s => .snapshot (some (decodeSnapshot s))
    | .legacy _ => .wrongType)
  | .getLegacyJSON _ => (l, match l.slot with
    | .none => .snapshot none
    | .hash _ => .wrongType
    | .legacy s => .snapshot (some s))
  | .keyType _ => (l, .keyType (l.slot matches .legacy _))
  | .save path snap => l.save path snap
  | .create snap =>
    match l.slot with
    | .none => (Ledger.made snap, .ok)
    | _ => (l, .failed)
  | .count n cu => l.count n cu
  | .updateState newState verdict => l.script fun s => ((updateStateScript newState verdict (some s)).1).getD s
  | .reactivateClaimed root tx => l.script fun s => ((reactivateClaimedScript root tx (some s)).1).getD s
  | .reactivateProved tx => l.script fun s => ((reactivateProvedScript tx (some s)).1).getD s

def exec (l : Ledger) (o : Op) : Fault → Ledger × Reply
  | .ok => applyOp l o
  | .refused => (l, .failed)
  | .lost => ((applyOp l o).1, .failed)

/-! ## The methods -/

abbrev Method := Prog Op Reply

def get (k : Option (Option SessionSnapshot) → Method) : Method :=
  .op .hgetall fun
    | .snapshot s => k (some s)
    | .wrongType => .op (.getLegacyJSON false) fun
      | .snapshot s => k (some s)
      | _ => k none
    | _ => k none

/-- `Save`, and whether it returned no error. A read that failed is logged, and the session is then taken for new. -/
def save (snap : SessionSnapshot) (k : Bool → Method) : Method :=
  get fun existing =>
    match existing with
    | some (some _) => .op (.keyType snap) fun r =>
      .op (.save (if r = .keyType true then .legacy else .existing) snap) fun r => k (r = .ok)
    | _ => .op (.save .new snap) fun r => k (r = .ok)

def migrateLegacyKey (k : Bool → Method) : Method :=
  .op (.getLegacyJSON true) fun
    | .snapshot (some s) => save s k
    | .snapshot none => k true
    | _ => k false

def counting (newRelays newComputeUnits : Nat) : Method :=
  .op (.count newRelays newComputeUnits) fun
    | .wrongType => migrateLegacyKey fun ok => if ok then .op (.count newRelays newComputeUnits) fun _ => .ret else .ret
    | _ => .ret

inductive Call where
  | save (snap : SessionSnapshot)
  | createIfAbsent (snap : SessionSnapshot)
  | incrementRelayCount (computeUnits : Nat)
  | commitSession (newRelays newComputeUnits : Nat)
  | updateState (newState : SessionState) (verdict : Verdict)
  | reactivateClaimed (root : Bytes) (claimTxHash : String)
  | reactivateProved (proofTxHash : String)

def Call.body : Call → Method
  | .save snap => Counters.save snap fun _ => .ret
  | .createIfAbsent snap => .op (.create snap) fun _ => .ret
  | .incrementRelayCount cu => counting 1 cu
  | .commitSession n cu => counting n cu
  | .updateState newState verdict => .op (.updateState newState verdict) fun _ => .ret
  | .reactivateClaimed root tx => .op (.reactivateClaimed root tx) fun _ => .ret
  | .reactivateProved tx => .op (.reactivateProved tx) fun _ => .ret

abbrev World := Conf Ledger Op Reply

def expire (l : Ledger) (_ : Unit) : Ledger := { l with slot := .none }

def step : World → Move Call Fault Unit → World := stepCalls Call.body exec expire

def idle (slot : Slot) : World := ⟨⟨slot, (slot.stored.map counters).getD (0, 0)⟩, fun _ => .ret⟩

/-! ## The condition -/

def armed (m : Method) : Bool :=
  match m.next? with
  | some (.save .new _) | some (.save .legacy _) => true
  | _ => false

def Op.makesHash (slot : Slot) : Op → Bool
  | .create _ => slot = .none
  | .save path _ => slot = .none || (path = .legacy && !slot.isHash)
  | _ => false

/-- How an operation may meet the key: the reads of `Save` get through to a hash;
a snapshot saved over JSON has its counters; and while a call has yet to write
the session as a whole, nobody else makes it a hash. -/
def Meeting (c : World) (i : Nat) (fault : Fault) (o : Op) : Prop :=
  match o with
  | .hgetall => c.store.slot.isHash = true → fault = .ok
  | .getLegacyJSON false => c.store.slot.isHash = false
  | .keyType snap => ∀ s, c.store.slot = .legacy s → counters snap = counters s
  | o => o.makesHash c.store.slot = true → ∀ j, j ≠ i → armed (c.calls j) = false

def Steady (c : World) : Move Call Fault Unit → Prop
  | .next i fault => ∀ o ∈ (c.calls i).next?, Meeting c i fault o
  | _ => True

/-! ## What an operation does to the counters -/

def Op.Safe (slot : Slot) : Op → Prop
  | .save .new _ => slot.isHash = false
  | .save .legacy snap => slot.isHash = false ∧ ∀ s ∈ slot.stored, counters s = counters snap
  | _ => True

theorem counters_saveScript (snap cur : SessionSnapshot) : counters (saveScript true snap (some cur)) = counters cur := rfl

theorem exact_made (s : SessionSnapshot) : Exact (Ledger.made s) := by
  intro s' hs
  cases hs
  rfl

variable {l : Ledger} {o : Op} {c : World}

theorem exact_hash {s : SessionSnapshot} (h : counters s = l.counted) : Exact { l with slot := .hash s } := by
  intro s' hs
  cases hs
  exact h

theorem exact_save (h : Exact l) {path : Path} {snap : SessionSnapshot} (hs : (Op.save path snap).Safe l.slot) :
    Exact (l.save path snap).1 := by
  obtain ⟨slot, counted⟩ := l
  cases slot with
  | none =>
    cases path with
    | _ => exact exact_made _
  | hash cur =>
    cases path with
    | existing => exact exact_hash ((counters_saveScript snap cur).trans (h cur rfl))
    | new => exact absurd hs (by simp [Op.Safe, Slot.isHash])
    | legacy => exact absurd hs.1 (by simp [Slot.isHash])
  | legacy cur =>
    cases path with
    | existing | new => exact h
    | legacy => exact exact_hash ((hs.2 cur rfl).symm.trans (h cur rfl))

theorem exact_script (h : Exact l) {f : SessionSnapshot → SessionSnapshot} (hf : ∀ s, counters (f s) = counters s) :
    Exact (l.script f).1 := by
  obtain ⟨slot, counted⟩ := l
  cases slot with
  | none | legacy s => exact h
  | hash s => exact exact_hash ((hf s).trans (h s rfl))

theorem exact_count (h : Exact l) (n cu : Nat) : Exact (l.count n cu).1 := by
  obtain ⟨slot, counted⟩ := l
  cases slot with
  | none | legacy s => exact h
  | hash s =>
    have hs : counters s = counted := h s rfl
    unfold Ledger.count
    dsimp only
    split_ifs
    · exact h
    · intro s' hs'
      cases hs'
      subst hs
      rfl
    · exact h

theorem counters_updateState (newState : SessionState) (verdict : Verdict) (s : SessionSnapshot) :
    counters (((updateStateScript newState verdict (some s)).1).getD s) = counters s := by
  unfold updateStateScript
  dsimp only
  split <;> rfl

theorem counters_reactivateClaimed (root : Bytes) (tx : String) (s : SessionSnapshot) :
    counters (((reactivateClaimedScript root tx (some s)).1).getD s) = counters s := by
  unfold reactivateClaimedScript
  dsimp only
  split <;> rfl

theorem counters_reactivateProved (tx : String) (s : SessionSnapshot) :
    counters (((reactivateProvedScript tx (some s)).1).getD s) = counters s := by
  unfold reactivateProvedScript
  dsimp only
  split <;> rfl

theorem exact_applyOp (h : Exact l) (hs : o.Safe l.slot) : Exact (applyOp l o).1 := by
  cases o with
  | hgetall | getLegacyJSON _ | keyType _ => exact h
  | save path snap => exact exact_save h hs
  | create snap =>
    simp only [applyOp]
    split
    · exact exact_made snap
    · exact h
  | count n cu => exact exact_count h n cu
  | updateState newState verdict => exact exact_script h (counters_updateState newState verdict)
  | reactivateClaimed root tx => exact exact_script h (counters_reactivateClaimed root tx)
  | reactivateProved tx => exact exact_script h (counters_reactivateProved tx)

theorem exact_exec (h : Exact l) (hs : o.Safe l.slot) (fault : Fault) : Exact (exec l o fault).1 := by
  cases fault with
  | refused => exact h
  | ok | lost => exact exact_applyOp h hs

/-! ## What an operation does to the layout -/

def Turned (before after : Slot) (o : Op) : Prop :=
  after = before ∨ before.isHash = true ∧ after.isHash = true ∨ o.makesHash before = true

theorem turned_script (l : Ledger) (f : SessionSnapshot → SessionSnapshot) (o : Op) :
    Turned l.slot (l.script f).1.slot o := by
  obtain ⟨slot, counted⟩ := l
  cases slot with
  | none | legacy s => exact .inl rfl
  | hash s => exact .inr (.inl ⟨rfl, rfl⟩)

theorem turned_applyOp (l : Ledger) (o : Op) : Turned l.slot (applyOp l o).1.slot o := by
  cases o with
  | hgetall | getLegacyJSON _ | keyType _ => exact .inl rfl
  | updateState _ _ | reactivateClaimed _ _ | reactivateProved _ => exact turned_script l _ _
  | save path snap =>
    obtain ⟨slot, counted⟩ := l
    cases slot with
    | none => exact .inr (.inr rfl)
    | hash cur => cases path <;> exact .inr (.inl ⟨rfl, rfl⟩)
    | legacy cur =>
      cases path with
      | existing | new => exact .inl rfl
      | legacy => exact .inr (.inr rfl)
  | create snap =>
    obtain ⟨slot, counted⟩ := l
    cases slot with
    | none => exact .inr (.inr rfl)
    | hash _ | legacy _ => exact .inl rfl
  | count n cu =>
    obtain ⟨slot, counted⟩ := l
    cases slot with
    | none | legacy _ => exact .inl rfl
    | hash s =>
      simp only [applyOp, Ledger.count]
      split_ifs
      · exact .inl rfl
      · exact .inr (.inl ⟨rfl, rfl⟩)
      · exact .inl rfl

theorem turned_exec (l : Ledger) (o : Op) (fault : Fault) : Turned l.slot (exec l o fault).1.slot o := by
  cases fault with
  | refused => exact .inl rfl
  | ok | lost => exact turned_applyOp l o

/-! ## What a call still has to write -/

def After (o : Op) (r : Reply) : Option Op → Prop
  | some (.save .new _) => (o = .hgetall ∨ o = .getLegacyJSON false) ∧ ∀ s, r ≠ .snapshot (some s)
  | some (.save .legacy snap) => o = .keyType snap ∧ r = .keyType true
  | _ => True

theorem after_of_not_armed {m : Method} (h : armed m = false) (o : Op) (r : Reply) : After o r m.next? := by
  unfold armed at h
  unfold After
  split at h
  · cases h
  · cases h
  · trivial

theorem safe_of_not_armed {m : Method} (h : armed m = false) (ho : o ∈ m.next?) (slot : Slot) : o.Safe slot := by
  unfold armed at h
  rw [ho] at h
  cases o with
  | save path snap =>
    cases path with
    | existing => trivial
    | new | legacy => cases h
  | _ => trivial

theorem safe_none (o : Op) : o.Safe .none := by
  cases o with
  | save path snap =>
    cases path with
    | existing => trivial
    | new => rfl
    | legacy => exact ⟨rfl, nofun⟩
  | _ => trivial

/-- What is safe over one hash is safe over any key: it is no write of the whole. -/
theorem Op.Safe.of_hash {before after : Slot} (h : o.Safe before) (hb : before.isHash = true) : o.Safe after := by
  cases o with
  | save path snap =>
    cases path with
    | existing => trivial
    | new => exact absurd h (by simp [Op.Safe, hb])
    | legacy => exact absurd h.1 (by simp [hb])
  | _ => trivial

theorem follows_last (o : Op) : (Prog.op o fun _ => .ret : Method).Follows After := fun _ => ⟨trivial, trivial⟩

theorem follows_save (snap : SessionSnapshot) {k : Bool → Method} (hk : ∀ b, (k b).Follows After ∧ armed (k b) = false) :
    (save snap k).Follows After := by
  have hlast : ∀ path, (Prog.op (.save path snap) fun r => k (r = .ok)).Follows After :=
    fun path r => ⟨(hk _).1, after_of_not_armed (hk _).2 _ _⟩
  have hfound : (Prog.op (.keyType snap) fun r =>
      .op (.save (if r = .keyType true then .legacy else .existing) snap) fun r => k (r = .ok)).Follows After := by
    refine fun r => ⟨hlast _, ?_⟩
    dsimp only
    by_cases hr : r = .keyType true
    · rw [if_pos hr]
      exact ⟨rfl, hr⟩
    · rw [if_neg hr]
      trivial
  -- The read of the hash, and where it meets JSON the read of that.
  intro r
  cases r with
  | snapshot s =>
    cases s with
    | none => exact ⟨hlast .new, ⟨.inl rfl, nofun⟩⟩
    | some s => exact ⟨hfound, trivial⟩
  | wrongType =>
    refine ⟨fun r => ?_, trivial⟩
    cases r with
    | snapshot s =>
      cases s with
      | none => exact ⟨hlast .new, ⟨.inr rfl, nofun⟩⟩
      | some s => exact ⟨hfound, trivial⟩
    | _ => exact ⟨hlast .new, ⟨.inr rfl, nofun⟩⟩
  | _ => exact ⟨hlast .new, ⟨.inl rfl, nofun⟩⟩

theorem follows_counting (n cu : Nat) : (counting n cu).Follows After := by
  have hk : ∀ b : Bool, (if b then .op (.count n cu) fun _ => .ret else .ret : Method).Follows After ∧
      armed (if b then .op (.count n cu) fun _ => .ret else .ret) = false := by
    intro b
    cases b with
    | false => exact ⟨trivial, rfl⟩
    | true => exact ⟨follows_last _, rfl⟩
  intro r
  cases r with
  | wrongType =>
    refine ⟨fun r => ?_, trivial⟩
    cases r with
    | snapshot s =>
      cases s with
      | none => exact ⟨(hk true).1, trivial⟩
      | some s => exact ⟨follows_save s hk, trivial⟩
    | _ => exact ⟨(hk false).1, trivial⟩
  | _ => exact ⟨trivial, trivial⟩

theorem follows_body (c : Call) : c.body.Follows After := by
  cases c with
  | save snap => exact follows_save snap (k := fun _ => .ret) fun _ => ⟨trivial, rfl⟩
  | createIfAbsent _ | updateState _ _ | reactivateClaimed _ _ | reactivateProved _ => exact follows_last _
  | incrementRelayCount cu => exact follows_counting 1 cu
  | commitSession n cu => exact follows_counting n cu

theorem armed_body (c : Call) : armed c.body = false := by
  cases c <;> rfl

/-! ## The invariant -/

structure Inv (c : World) : Prop where
  exact : Exact c.store
  kept : c.Kept After fun l o => o.Safe l.slot

theorem inv_idle (slot : Slot) : Inv (idle slot) where
  exact := by
    intro s hs
    simp only [idle, show slot.stored = some s from hs]
    rfl
  kept := .idle _

/-- The answer of a read of `Save`, or of its `TYPE`, leaves its call with a view of the key that is right. -/
theorem safe_of_after {i : Nat} {fault : Fault} {o' : Op} (hm : Meeting c i fault o)
    (h : After o (exec c.store o fault).2 (some o')) : o'.Safe (exec c.store o fault).1.slot := by
  have hread : ∀ q, (applyOp c.store q).1 = c.store → (exec c.store q fault).1 = c.store := by
    intro q hq
    cases fault with
    | refused => rfl
    | ok | lost => exact hq
  cases o' with
  | save path snap =>
    cases path with
    | existing => trivial
    | new =>
      obtain ⟨rfl | rfl, hr⟩ := h
      · rw [hread _ rfl]
        -- A hash that is there is read, and then it is found.
        cases hslot : c.store.slot with
        | none | legacy _ => rfl
        | hash s =>
          have hok : fault = .ok := hm (by simp [hslot, Slot.isHash])
          refine absurd ?_ (hr (decodeSnapshot s))
          simp [hok, exec, applyOp, hslot]
      · rw [hread _ rfl]
        exact hm
    | legacy =>
      obtain ⟨rfl, hr⟩ := h
      rw [hread _ rfl]
      cases fault with
      | refused | lost => cases hr
      | ok =>
        cases hslot : c.store.slot with
        | none | hash _ => simp [exec, applyOp, hslot] at hr
        | legacy s =>
          refine ⟨rfl, fun s' hs' => ?_⟩
          cases hs'
          exact (hm s hslot).symm
  | _ => trivial

theorem inv_next (h : Inv c) {i : Nat} {fault : Fault} {k : Reply → Method} (hi : c.calls i = .op o k)
    (hm : Meeting c i fault o) :
    Inv ⟨(exec c.store o fault).1, Function.update c.calls i (k (exec c.store o fault).2)⟩ := by
  have hsafe : o.Safe c.store.slot := h.kept.fits i o (by rw [hi]; rfl)
  refine ⟨exact_exec h.exact hsafe fault, h.kept.next hi (fun j hj o' ho' => ?_) fun o' ho' => safe_of_after hm ho'⟩
  rcases turned_exec c.store o fault with hsame | ⟨hb, -⟩ | hmakes
  · rw [hsame]
    exact h.kept.fits j o' ho'
  · exact (h.kept.fits j o' ho').of_hash hb
  have hquiet : armed (c.calls j) = false := by
    cases o with
    | create | save => exact hm hmakes j hj
    | _ => cases hmakes
  exact safe_of_not_armed hquiet ho' _

theorem inv_step (h : Inv c) (m : Move Call Fault Unit) (hs : Steady c m) : Inv (step c m) := by
  rcases stepCalls_cases Call.body exec expire c m with
    he | ⟨i, k, -, -, he⟩ | ⟨i, fault, o, k, rfl, hi, he⟩ | ⟨i, -, he⟩ | ⟨e, -, he⟩
  · rw [step, he]
    exact h
  · rw [step, he]
    exact ⟨h.exact, h.kept.start i (follows_body k) fun o ho => safe_of_not_armed (armed_body k) ho _⟩
  · rw [step, he]
    exact inv_next h hi (hs o (by rw [hi]; rfl))
  · rw [step, he]
    exact ⟨h.exact, h.kept.start i trivial nofun⟩
  · rw [step, he]
    exact ⟨nofun, h.kept.store fun o _ => safe_none o⟩

/-- From any stored session, in any layout, and whatever runs side by side: where the reads of `Save` get through to a
hash that is there, a snapshot saved over JSON has the counters of the JSON, and nobody makes the session a hash while
another call has yet to write it as a whole, the stored counters are at every moment what the increments alone have
produced. -/
theorem save_spares_counters (slot : Slot) (ms : List (Move Call Fault Unit)) (hm : Meets step Steady (idle slot) ms) :
    Exact (run step (idle slot) ms).store :=
  (inv_of_meets Inv (fun _ m h hs => inv_step h m hs) (inv_idle slot) hm).exact

def staleSave : List (Move Call Fault Unit) :=
  [.start 0 (.save { state := .active, relayCount := 2, totalComputeUnits := 20 }), .next 0 .ok,
    .start 1 (.incrementRelayCount 10), .next 1 .ok, .next 0 .ok, .next 0 .ok]

def fiveRelays : Slot := .hash { state := .active, relayCount := 5, totalComputeUnits := 50 }

theorem save_spares_counters_stale :
    Meets step Steady (idle fiveRelays) staleSave ∧ Exact (run step (idle fiveRelays) staleSave).store ∧
      (run step (idle fiveRelays) staleSave).store.counted = (6, 60) := by
  have hm : Meets step Steady (idle fiveRelays) staleSave := by
    refine ⟨trivial, ?_, trivial, ?_, ?_, ?_, trivial⟩ <;> rintro o ⟨⟩
    · exact fun _ => rfl
    · exact nofun
    · exact nofun
    · exact nofun
  exact ⟨hm, save_spares_counters fiveRelays staleSave hm, by decide⟩

/-- The read of `Save` times out, and the counters go back to those of the snapshot. -/
theorem failed_read_rewrites_counters :
    let ms : List (Move Call Fault Unit) :=
      [.start 0 (.save { state := .active, relayCount := 2, totalComputeUnits := 20 }), .next 0 .refused, .next 0 .ok]
    let w := run step (idle fiveRelays) ms
    w.store.slot.stored.map counters = some (2, 20) ∧ w.store.counted = (5, 50) ∧ ¬ Exact w.store := by
  decide

end RelayMiner.Session.Counters
