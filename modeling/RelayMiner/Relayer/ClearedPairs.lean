import RelayMiner.Relayer.Meter
/-!
# Pairs that are cleared while they are in use

`ClearSessionMeter` takes a pair out of the view under `accMu` and deletes its
counter later, or never if the store refuses: the DEL is `expire` here, like a TTL
that ends. Reservations made before the clear are still open after it, relays
are still charged to the pair, and a counter that was read before may be put
into the view. A read may come at any time, since `loadSeen` looks at the view
and reads the store outside the lock, and `WarmFromRedis` does not look.

The map holds one total for a pair, and the view takes whatever was read: an old
reservation that ends takes its cost from a new one's (`old_release_frees_new_hold`),
and a read older than a reported write hides that write (`old_read_hides_write`).
-/
open RelayMiner.Lib RelayMiner.Transport Function

namespace RelayMiner.Relayer.Meter

open List

variable {K S : Type} [DecidableEq K] {r : Reservation K S}

/-- `world.held` are the open reservations made since the last clear of their pair, `stale` those made before. -/
structure Pairs (K S : Type) where
  world : World K S
  stale : List (Reservation K S) := []

/-- `admit` past its `loadSeen`: a pair that was cleared in between counts as 0. -/
def admitLoaded (budget : K → Int) (w : World K S) (key : K) (supplier : S) (cost : Int) : World K S :=
  if int64 ((w.seen key).getD 0 + w.inFlight key + w.ledger.total key + cost) ≤ budget key then
    { w with
      inFlight := update w.inFlight key (int64 (w.inFlight key + cost))
      held := w.held ++ [{ key, supplier, cost }] }
  else w

def chargeServed (w : World K S) (maxStake : Option Int) (key : K) (supplier : S) (cost : Int) (ttl : Nat) :
    World K S × Bool :=
  let w := { w with ledger := w.ledger.add key supplier cost.toNat ttl }
  (w, match w.seen key, maxStake with
    | some seen, some maxStake => maxStake ≤ int64 (seen + w.inFlight key + w.ledger.total key)
    | _, _ => false)

def clearView (s : Pairs K S) (key : K) : Pairs K S where
  world :=
    { s.world with
      seen := update s.world.seen key none
      inFlight := update s.world.inFlight key 0
      ledger := s.world.ledger.drop key
      held := s.world.held.filter (·.key ≠ key) }
  stale := s.stale ++ s.world.held.filter (·.key = key)

inductive PairAct (K S : Type) where
  | meter (a : Act K S)
  | read (key : K)
  | forgetRead (i : Nat)
  | admitLoaded (key : K) (supplier : S) (cost : Int)
  | chargeServed (maxStake : Option Int) (key : K) (supplier : S) (cost : Int) (ttl : Nat)
  | settleStale (i : Nat) (ttl : Nat)
  | releaseStale (i : Nat)
  | clearView (key : K)

def Pairs.step [DecidableEq S] (budget : K → Int) (s : Pairs K S) : PairAct K S → Pairs K S
  | .meter a =>
    match a with
    | .clearSessionMeter key =>
      { clearView s key with world := Meter.step budget (clearView s key).world (.expire key) }
    | a => { s with world := Meter.step budget s.world a }
  | .read key => { s with world := { s.world with reading := s.world.reading ++ [(key, s.world.stored key)] } }
  | .forgetRead i => { s with world := { s.world with reading := s.world.reading.eraseIdx i } }
  | .admitLoaded key supplier cost => { s with world := admitLoaded budget s.world key supplier cost }
  | .chargeServed maxStake key supplier cost ttl =>
    { s with world := (chargeServed s.world maxStake key supplier cost ttl).1 }
  | .settleStale i ttl =>
    match s.stale[i]? with
    | none => s
    | some r => { world := settle s.world r ttl, stale := s.stale.eraseIdx i }
  | .releaseStale i =>
    match s.stale[i]? with
    | none => s
    | some r => { world := release s.world r, stale := s.stale.eraseIdx i }
  | .clearView key => clearView s key

/-- Only a clear is made in two parts; every other call is the meter's own step. -/
theorem Pairs.step_meter [DecidableEq S] {budget : K → Int} (s : Pairs K S) {a : Act K S}
    (h : ∀ key, a ≠ .clearSessionMeter key) :
    s.step budget (.meter a) = { s with world := Meter.step budget s.world a } := by
  cases a <;> first | rfl | exact absurd rfl (h _)

variable {w : World K S}

/-! ## What admitted relays hold across a clear -/

/-- The cost of an admitted relay is not negative, and an int64 holds what is then in flight. A reservation made before
the last clear of its pair ends while none made since is open, or holds nothing. -/
def Apart (k : K) (s : Pairs K S) : PairAct K S → Prop
  | .meter (.admitRelay key _ cost) | .admitLoaded key _ cost =>
    key = k → 0 ≤ cost ∧ IsInt64 (s.world.inFlight k + cost)
  | .settleStale i _ | .releaseStale i =>
    ∀ r ∈ s.stale[i]?, r.key = k → r.cost = 0 ∨ ∀ r' ∈ s.world.held, r'.key ≠ k
  | _ => True

variable {budget : K → Int} {k : K}

theorem Held.settle (h : Held k w) {i : Nat} (hi : w.held[i]? = some r) (ttl : Nat) :
    Held k (settle { w with held := w.held.eraseIdx i } r ttl) := by
  unfold Meter.settle
  split
  next h0 => exact h.ended (h.inFlight_free hi h0) hi _
  · exact h.ended (h.inFlight_releaseLocked hi) hi _

theorem Held.release (h : Held k w) {i : Nat} (hi : w.held[i]? = some r) :
    Held k (release { w with held := w.held.eraseIdx i } r) := by
  unfold Meter.release
  split
  next h0 => exact h.ended (h.inFlight_free hi h0) hi _
  · exact h.ended (h.inFlight_releaseLocked hi) hi _

theorem Held.meter [DecidableEq S] (h : Held k w) {a : Act K S} (hclear : ∀ key, a ≠ .clearSessionMeter key)
    (ha : ∀ key supplier cost, a = .admitRelay key supplier cost → key = k → 0 ≤ cost ∧ IsInt64 (w.inFlight k + cost)) :
    Held k (Meter.step budget w a) := by
  cases a with
  | clearSessionMeter key => exact absurd rfl (hclear key)
  | admitRelay key supplier cost =>
    simp only [Meter.step, admitRelay]
    split
    · exact h
    split
    · exact h.reserve supplier (ha key supplier cost rfl)
    · exact h
  | settle i ttl =>
    simp only [Meter.step]
    split
    · exact h
    next r hi => exact h.settle hi ttl
  | release i =>
    simp only [Meter.step]
    split
    · exact h
    next r hi => exact h.release hi
  | takeAll | expire => exact h.congr rfl rfl
  | load key =>
    simp only [Meter.step]
    split
    · exact h.congr rfl rfl
    · exact h
  | _ =>
    simp only [Meter.step]
    split
    · exact h
    · exact h.congr rfl rfl

attribute [local simp] clearView

theorem Held.clear (s : Pairs K S) (h : Held k s.world) (key : K) : Held k (clearView s key).world := by
  have hsub : ∀ r ∈ s.world.held.filter (·.key ≠ key), r ∈ s.world.held := fun r hr => (mem_filter.1 hr).1
  by_cases hk : k = key
  · subst hk
    have hnone : reserved (s.world.held.filter (·.key ≠ k)) k = 0 := by simp [reserved, filter_filter]
    refine ⟨?_, ?_, fun r hr => h.nonneg r (hsub r hr)⟩
    · simpa using hnone.symm
    · simp
  have hsame : reserved (s.world.held.filter (·.key ≠ key)) k = reserved s.world.held k := by
    unfold reserved
    rw [filter_filter]
    congr 2
    refine filter_congr fun r _ => ?_
    by_cases hr : r.key = k
    · simp [hr, hk]
    · simp [hr]
  have hflight : (clearView s key).world.inFlight k = s.world.inFlight k := update_of_ne hk _ _
  refine ⟨?_, ?_, fun r hr => h.nonneg r (hsub r hr)⟩
  · rw [hflight, h.held]
    exact hsame.symm
  · rw [hflight]
    exact h.fits

/-- A reservation made before the clear ends while nothing made since is open: there is nothing to take its cost from. -/
theorem Held.endStale (h : Held k w) (hcost : r.key = k → 0 < r.cost ∧ IsInt64 r.cost)
    (hnone : r.key = k → ∀ r' ∈ w.held, r'.key ≠ k) (ledger : ChargeLedger K S) :
    Held k { releaseLocked w r with ledger } := by
  refine h.congr ?_ rfl
  simp only [releaseLocked]
  by_cases hk : r.key = k
  · have hfree : w.inFlight k = 0 := by
      rw [h.held, reserved, filter_eq_nil_iff.2 fun r' hr' => by simpa using hnone hk r' hr']
      rfl
    subst hk
    obtain ⟨hpos, -, hhi⟩ := hcost rfl
    rw [update_self, hfree, int64_eq ⟨by omega, by omega⟩]
    split <;> omega
  · exact update_of_ne (Ne.symm hk) _ _

structure Isolated (k : K) (s : Pairs K S) : Prop where
  held : Held k s.world
  stale : ∀ r ∈ s.stale, r.key = k → 0 ≤ r.cost ∧ IsInt64 r.cost

theorem Held.cost_le (h : Held k w) (hr : r ∈ w.held) (hk : r.key = k) :
    0 ≤ r.cost ∧ IsInt64 r.cost := by
  obtain ⟨i, hi⟩ := mem_iff_getElem?.1 hr
  have hsum := reserved_erase hi k
  have hrest := h.rest_nonneg i
  have hnonneg := h.nonneg r hr hk
  have hheld := h.held
  have hfits := h.fits
  rw [if_pos hk] at hsum
  exact ⟨hnonneg, by omega, by omega⟩

theorem Isolated.clear {s : Pairs K S} (h : Isolated k s) (key : K) : Isolated k (clearView s key) := by
  exact ⟨h.held.clear s key, forall_mem_append.2 ⟨h.stale, fun r hr => h.held.cost_le (mem_filter.1 hr).1⟩⟩

theorem isolated_step [DecidableEq S] (s : Pairs K S) (a : PairAct K S) (h : Isolated k s) (ha : Apart k s a) :
    Isolated k (s.step budget a) := by
  have hrest : ∀ i, ∀ r ∈ s.stale.eraseIdx i, r.key = k → 0 ≤ r.cost ∧ IsInt64 r.cost :=
    fun i r hr => h.stale r ((eraseIdx_sublist _ _).subset hr)
  -- A reservation of another pair, or of this one with nothing newer open.
  have hends : ∀ {i : Nat} {r : Reservation K S}, s.stale[i]? = some r → r.cost ≠ 0 →
      (∀ r ∈ s.stale[i]?, r.key = k → r.cost = 0 ∨ ∀ r' ∈ s.world.held, r'.key ≠ k) →
      ∀ ledger, Held k { releaseLocked s.world r with ledger } := by
    intro i r hi h0 hapart ledger
    refine h.held.endStale (fun hk => ?_) (fun hk => (hapart r hi hk).resolve_left h0) ledger
    obtain ⟨hnonneg, hfits⟩ := h.stale r (mem_of_getElem? hi) hk
    exact ⟨by omega, hfits⟩
  cases a with
  | meter a =>
    by_cases hclear : ∃ key, a = .clearSessionMeter key
    · obtain ⟨key, rfl⟩ := hclear
      have hc := h.clear key
      exact ⟨hc.held.congr rfl rfl, hc.stale⟩
    have hne : ∀ key, a ≠ .clearSessionMeter key := fun key he => hclear ⟨key, he⟩
    rw [Pairs.step_meter s hne]
    refine ⟨h.held.meter hne ?_, h.stale⟩
    rintro key supplier cost rfl
    exact ha
  | read | forgetRead | chargeServed => exact ⟨h.held.congr rfl rfl, h.stale⟩
  | admitLoaded key supplier cost =>
    refine ⟨?_, h.stale⟩
    simp only [Pairs.step, admitLoaded]
    split
    · exact h.held.reserve supplier ha
    · exact h.held
  | settleStale i ttl =>
    simp only [Pairs.step]
    split
    · exact h
    next r hi =>
      refine ⟨?_, hrest i⟩
      unfold settle
      split
      · exact h.held
      next h0 => exact hends hi h0 ha _
  | releaseStale i =>
    simp only [Pairs.step]
    split
    · exact h
    next r hi =>
      refine ⟨?_, hrest i⟩
      unfold release
      split
      · exact h.held
      next h0 => exact hends hi h0 ha _
  | clearView key => exact h.clear key

/-- In every run in which the costs of a pair are not negative and fit in flight, and a reservation made before a clear
ends only while none made since is open: what is in flight covers the reservations made since the last clear, and the
end of an older one takes nothing from them. -/
theorem clear_leaves_holds [DecidableEq S] (budget : K → Int) (stored : K → Nat) (k : K) (as : List (PairAct K S))
    (h : Meets (Pairs.step budget) (Apart k) { world := { stored } } as) :
    let s := run (Pairs.step budget) { world := { stored } } as
    reserved s.world.held k ≤ s.world.inFlight k ∧
      ∀ i ttl, ∀ a ∈ [PairAct.settleStale i ttl, .releaseStale i], Apart k s a →
        (s.step budget a).world.held = s.world.held ∧ reserved s.world.held k ≤ (s.step budget a).world.inFlight k := by
  intro s
  have hstart : Isolated k ({ world := { stored } } : Pairs K S) := ⟨⟨rfl, by simp, by simp⟩, by simp⟩
  have hs : Isolated k s := inv_of_meets (Isolated k) isolated_step hstart h
  refine ⟨le_of_eq hs.held.held.symm, fun i ttl a hmem ha => ?_⟩
  have hheld : (s.step budget a).world.held = s.world.held := by
    rcases mem_pair.1 hmem with rfl | rfl
    · simp only [Pairs.step, settle, releaseLocked]
      split
      · rfl
      · split <;> rfl
    simp only [Pairs.step, release, releaseLocked]
    split
    · rfl
    · split <;> rfl
  refine ⟨hheld, ?_⟩
  rw [← hheld]
  exact le_of_eq (isolated_step s a hs ha).held.held.symm

instance (k : K) (s : Pairs K S) (a : PairAct K S) : Decidable (Apart k s a) := by
  unfold Apart
  split <;> infer_instance

/-- A relay is admitted at cost 5 and its pair is cleared; a second one is admitted at the same cost. -/
def admittedTwice : List (PairAct Bool Unit) :=
  [.meter (.load true), .meter (.loaded 0), .admitLoaded true () 5, .clearView true, .meter (.expire true),
    .meter (.load true), .meter (.loaded 0), .admitLoaded true () 5]

theorem clear_leaves_holds_settled :
    let s := run (Pairs.step fun _ => 10) { world := { stored := fun _ => 0 } }
      (admittedTwice ++ [.meter (.settle 0 60), .releaseStale 0, .admitLoaded true () 2])
    s.world.held.length = 1 ∧ reserved s.world.held true ≤ s.world.inFlight true :=
  ⟨by decide, (clear_leaves_holds (fun _ => 10) (fun _ => 0) true _ (by decide)).1⟩

/-- The first relay ends without being served: the second is open, and nothing is held for it. -/
theorem old_release_frees_new_hold :
    let s := run (Pairs.step fun _ => 10) { world := { stored := fun _ => 0 } } (admittedTwice ++ [.releaseStale 0])
    s.world.held = [⟨true, (), 5⟩] ∧ s.world.inFlight true = 0 := by
  decide

/-! ## The view across a clear -/

def Known (k : K) (s : Pairs K S) : PairAct K S → Prop
  | .meter (.lose i _) => ∀ c ∈ s.world.out[i]?, c.key ≠ k
  | _ => True

/-- Where a read of the counter of `k` is still to be put into the view, it is not below what the view holds when the
pair is cleared, nor below the counter a write left that is reported while the pair is not in the view. -/
def NoOldRead (k : K) (s : Pairs K S) : PairAct K S → Prop
  | .meter (.chargeWritten i) =>
    s.world.seen k = none → ∀ x ∈ s.world.applied[i]?, x.1.key = k → ∀ p ∈ s.world.reading, p.1 = k → x.2 ≤ p.2
  | .meter (.clearSessionMeter key) | .clearView key =>
    key = k → ∀ seen ∈ s.world.seen k, ∀ p ∈ s.world.reading, p.1 = k → seen ≤ p.2
  | _ => True

/-- An int64 holds what is pending for `k` and the cost a relay adds to it. -/
def Fitting (k : K) (s : Pairs K S) : PairAct K S → Prop
  | .meter (.settle i _) => ∀ r ∈ s.world.held[i]?, r.key = k → IsInt64 (s.world.ledger.total k + r.cost)
  | .settleStale i _ => ∀ r ∈ s.stale[i]?, r.key = k → IsInt64 (s.world.ledger.total k + r.cost)
  | .chargeServed _ key _ cost _ => key = k → IsInt64 (s.world.ledger.total k + cost)
  | _ => True

structure Current (k : K) (w : World K S) : Prop where
  writing : Writing k w
  exact : w.ledger.Exact k
  view : ∀ seen, w.seen k = some seen → View w k seen
  reads : w.seen k = none → ∀ p ∈ w.reading, p.1 = k → View w k p.2

variable {w : World K S} {i : Nat}

section
variable (h : Current k w)
include h

theorem Current.congr {w' : World K S} (hwriting : Writing k w') (hexact : w'.ledger.Exact k) (hseen : w'.seen = w.seen)
    (hread : ∀ p ∈ w'.reading, p ∈ w.reading) (hstored : w'.stored k ≤ w.stored k) (happ : w'.applied = w.applied) :
    Current k w' :=
  ⟨hwriting, hexact, fun seen hs => (h.view seen (hseen ▸ hs)).mono (le_refl _) hstored happ,
    fun hn p hp hk => (h.reads (hseen ▸ hn) p (hread p hp) hk).mono (le_refl _) hstored happ⟩

theorem Current.read (key : K) :
    Current k { w with reading := w.reading ++ [(key, w.stored key)] } := by
  refine ⟨h.writing, h.exact, fun seen hs => (h.view seen hs).mono (le_refl _) (le_refl _) rfl, fun hn =>
    forall_mem_append.2
      ⟨fun p hp hk => (h.reads hn p hp hk).mono (le_refl _) (le_refl _) rfl, forall_mem_singleton.2 ?_⟩⟩
  rintro rfl
  exact .read _ (le_refl _)

theorem Current.loaded {key : K} {consumed : Nat} (hi : w.reading[i]? = some (key, consumed)) :
    Current k
      { w with
        reading := w.reading.eraseIdx i
        seen := if w.seen key = none then update w.seen key (some consumed) else w.seen } := by
  have hsub : ∀ p ∈ w.reading.eraseIdx i, p ∈ w.reading := fun p hp => (eraseIdx_sublist _ _).subset hp
  rcases seen_loaded w key consumed k with hseen | ⟨hk, hnone, hseen⟩
  · exact ⟨h.writing, h.exact, fun seen hs => (h.view seen (hseen ▸ hs)).mono (le_refl _) (le_refl _) rfl,
      fun hn p hp hk => (h.reads (hseen ▸ hn) p (hsub p hp) hk).mono (le_refl _) (le_refl _) rfl⟩
  -- What was read becomes the view.
  refine ⟨h.writing, h.exact, fun seen hs => ?_, fun hn => ?_⟩
  · cases hseen.symm.trans hs
    exact (h.reads hnone _ (mem_of_getElem? hi) hk).mono (le_refl _) (le_refl _) rfl
  · cases hseen.symm.trans hn

theorem Current.incrBy {c : Charge K S} (hi : w.out[i]? = some c) :
    Current k
      { w with
        out := w.out.eraseIdx i
        stored := update w.stored c.key (w.stored c.key + c.amount)
        applied := w.applied ++ [(c, w.stored c.key + c.amount)] } :=
  ⟨h.writing.incrBy hi _ _, h.exact, fun seen hs => (h.view seen hs).incrBy c (stored_incrBy w c k) rfl,
    fun hn p hp hk => (h.reads hn p hp hk).incrBy c (stored_incrBy w c k) rfl⟩

theorem Current.chargeWritten {c : Charge K S} {consumed : Nat}
    (hi : w.applied[i]? = some (c, consumed))
    (hold : w.seen k = none → c.key = k → ∀ p ∈ w.reading, p.1 = k → consumed ≤ p.2) :
    Current k (Meter.chargeWritten { w with applied := w.applied.eraseIdx i } c consumed) := by
  obtain ⟨hle, hwriting⟩ := h.writing.chargeWritten h.exact hi
  refine ⟨hwriting, lt_of_le_of_lt (Nat.add_le_add_right hle _) h.exact, fun seen hs => ?_, fun hn p hp hk => ?_⟩
  · obtain ⟨before, hbefore, hle, hreach⟩ := seen_chargeWritten hs
    exact (h.view before hbefore).chargeWritten hle hi hreach rfl rfl
  · have hnone : w.seen k = none := unseen_chargeWritten hn
    exact (h.reads hnone p hp hk).chargeWritten (le_refl _) hi (fun hc => hold hnone hc p hp hk) rfl rfl

theorem Current.ledger {inFlight : K → Int} {held : List (Reservation K S)} {ledger : ChargeLedger K S}
    (hw : ledger.writing = w.ledger.writing) (hexact : ledger.Exact k) : Current k { w with inFlight, held, ledger } :=
  h.congr ((congrFun hw k).trans h.writing) hexact rfl (fun _ => id) (le_refl _) rfl

theorem Current.returned {c : Charge K S} {ledger : ChargeLedger K S} (hi : w.out[i]? = some c)
    (hw : ledger.writing k = w.ledger.writing k - if c.key = k then c.amount else 0)
    (hp : owed ledger.pending k ≤ owed w.ledger.pending k + if c.key = k then c.amount else 0) :
    Current k { w with out := w.out.eraseIdx i, ledger } :=
  h.congr (h.writing.returned hi hw) (h.exact.returned (h.writing.le_of_out hi) hw hp) rfl (fun _ => id) (le_refl _) rfl

theorem Current.served {key : K} (supplier : S) {cost : Int} (ttl : Nat)
    (hfits : key = k → IsInt64 (w.ledger.total k + cost)) : (w.ledger.add key supplier cost.toNat ttl).Exact k := by
  refine h.exact.add supplier ttl fun hk => ?_
  obtain ⟨-, hlt⟩ := hfits hk
  have hnow := h.exact
  rw [w.ledger.total_eq h.exact] at hlt ⊢
  unfold ChargeLedger.Exact at hnow
  omega

theorem Current.release (r : Reservation K S) : Current k (release w r) := by
  unfold Meter.release
  split
  · exact h
  · exact h.ledger rfl h.exact

theorem Current.settle (hfits : r.key = k → IsInt64 (w.ledger.total k + r.cost)) (ttl : Nat) :
    Current k (settle w r ttl) := by
  unfold Meter.settle
  split
  · exact h
  · exact h.ledger (ChargeLedger.writing_add _ _ _ _ _) (h.served r.supplier ttl hfits)
end

theorem Current.clear {s : Pairs K S} (h : Current k s.world) {key : K}
    (hold : key = k → ∀ seen ∈ s.world.seen k, ∀ p ∈ s.world.reading, p.1 = k → seen ≤ p.2) :
    Current k (clearView s key).world := by
  have hreads : (clearView s key).world.seen k = none → ∀ p ∈ s.world.reading, p.1 = k → View s.world k p.2 := by
    intro hn p hp hk
    cases hseen : s.world.seen k with
    | none => exact h.reads hseen p hp hk
    | some seen =>
      by_cases hkey : key = k
      · exact (h.view seen hseen).mono (hold hkey seen hseen p hp hk) (le_refl _) rfl
      · simp [update_of_ne (Ne.symm hkey), hseen] at hn
  refine ⟨h.writing, h.exact.drop key, fun seen hs => ?_,
    fun hn p hp hk => (hreads hn p hp hk).mono (le_refl _) (le_refl _) rfl⟩
  by_cases hkey : k = key
  · subst hkey
    simp at hs
  · have hs' : s.world.seen k = some seen := (update_of_ne hkey _ _).symm.trans hs
    exact (h.view seen hs').mono (le_refl _) (le_refl _) rfl

theorem Current.meter [DecidableEq S] (h : Current k w) {a : Act K S} (hclear : ∀ key, a ≠ .clearSessionMeter key)
    (hknown : ∀ i ran, a = .lose i ran → ∀ c ∈ w.out[i]?, c.key ≠ k)
    (hold : ∀ i, a = .chargeWritten i → w.seen k = none → ∀ x ∈ w.applied[i]?, x.1.key = k →
      ∀ p ∈ w.reading, p.1 = k → x.2 ≤ p.2)
    (hfits : ∀ i ttl, a = .settle i ttl → ∀ r ∈ w.held[i]?, r.key = k → IsInt64 (w.ledger.total k + r.cost)) :
    Current k (Meter.step budget w a) := by
  cases a with
  | clearSessionMeter key => exact absurd rfl (hclear key)
  | load key =>
    simp only [Meter.step]
    split
    · exact h.read key
    · exact h
  | loaded i =>
    simp only [Meter.step]
    split
    · exact h
    next key consumed hi => exact h.loaded hi
  | admitRelay key supplier cost =>
    simp only [Meter.step, admitRelay]
    split
    · exact h
    split
    · exact h.ledger rfl h.exact
    · exact h
  | settle i ttl =>
    simp only [Meter.step]
    split
    · exact h
    next r hi =>
      have hrest : Current k { w with held := w.held.eraseIdx i } := h.ledger rfl h.exact
      exact hrest.settle (hfits i ttl rfl r hi) ttl
  | release i =>
    simp only [Meter.step]
    split
    · exact h
    · exact Current.release (h.ledger rfl h.exact) _
  | takeAll order => exact h.congr (h.writing.takeAll order) (h.exact.takeAll order) rfl (fun _ => id) (le_refl _) rfl
  | incrBy i =>
    simp only [Meter.step]
    split
    · exact h
    next c hi => exact h.incrBy hi
  | chargeWritten i =>
    simp only [Meter.step]
    split
    · exact h
    next c consumed hi => exact h.chargeWritten hi fun hn hk => hold i rfl hn _ hi hk
  | untake i =>
    simp only [Meter.step]
    split
    · exact h
    next c hi =>
      exact h.returned hi (ChargeLedger.writing_untake h.exact (h.writing.le_of_out hi))
        (le_of_eq (ChargeLedger.owed_untake _ _ _))
  | retry i =>
    simp only [Meter.step]
    split
    · exact h
    next c hi =>
      exact h.returned hi (ChargeLedger.writing_retry h.exact (h.writing.le_of_out hi))
        (ChargeLedger.owed_retry_le _ _ _)
  | lose i ran =>
    simp only [Meter.step]
    split
    · exact h
    next c hi =>
      have hk : c.key ≠ k := hknown i ran rfl c hi
      have hret : Current k { w with out := w.out.eraseIdx i, ledger := w.ledger.forget c } :=
        h.returned hi (ChargeLedger.writing_finishWrite h.exact (h.writing.le_of_out hi)) (Nat.le_add_right _ _)
      refine hret.congr hret.writing hret.exact rfl (fun _ => id) ?_ rfl
      dsimp only
      split
      · rw [update_of_ne (Ne.symm hk)]
      · exact le_refl _
  | expire key => exact h.congr h.writing h.exact rfl (fun _ => id) (stored_expire w key k) rfl

theorem current_step [DecidableEq S] (s : Pairs K S) (a : PairAct K S) (h : Current k s.world)
    (ha : Known k s a ∧ NoOldRead k s a ∧ Fitting k s a) : Current k (s.step budget a).world := by
  obtain ⟨hknown, hold, hfits⟩ := ha
  cases a with
  | meter a =>
    by_cases hclear : ∃ key, a = .clearSessionMeter key
    · obtain ⟨key, rfl⟩ := hclear
      have hc := h.clear hold
      exact hc.congr hc.writing hc.exact rfl (fun _ => id) (stored_expire _ key k) rfl
    have hne : ∀ key, a ≠ .clearSessionMeter key := fun key he => hclear ⟨key, he⟩
    rw [Pairs.step_meter s hne]
    refine h.meter hne ?_ ?_ ?_
    · rintro i ran rfl
      exact hknown
    · rintro i rfl
      exact hold
    · rintro i ttl rfl
      exact hfits
  | read key => exact h.read key
  | forgetRead i => exact h.congr h.writing h.exact rfl (fun p hp => (eraseIdx_sublist _ _).subset hp) (le_refl _) rfl
  | admitLoaded key supplier cost =>
    simp only [Pairs.step, admitLoaded]
    split
    · exact h.ledger rfl h.exact
    · exact h
  | chargeServed maxStake key supplier cost ttl =>
    exact h.ledger (ChargeLedger.writing_add _ _ _ _ _) (h.served supplier ttl hfits)
  | settleStale i ttl =>
    simp only [Pairs.step]
    split
    · exact h
    next r hi => exact h.settle (hfits r hi) ttl
  | releaseStale i =>
    simp only [Pairs.step]
    split
    · exact h
    · exact h.release _
  | clearView key => exact h.clear hold

/-- On the only relayer that writes the counter of `k`, in every run in which the outcome of its writes is known, no old
read outlives a clear of the pair or a report that the view does not take, and what is pending stays in int64: while the
pair is in the view, what the view holds and what is pending come to the counter at least. -/
theorem view_covers_writes [DecidableEq S] (budget : K → Int) (stored : K → Nat) (k : K) (as : List (PairAct K S))
    (h : Meets (Pairs.step budget) (fun s a => Known k s a ∧ NoOldRead k s a ∧ Fitting k s a) { world := { stored } } as) :
    let w := (run (Pairs.step budget) { world := { stored } } as).world
    ∀ seen, w.seen k = some seen → w.stored k ≤ seen + w.ledger.total k := by
  intro w seen hs
  have hstart : Current k ({ stored } : World K S) := ⟨rfl, show 0 < 2 ^ 63 by decide, by simp, by simp⟩
  have hw : Current k w := inv_of_meets (fun s => Current k s.world) current_step hstart h
  have hnow := (hw.view seen hs).now
  have hwriting := hw.writing
  unfold Writing at hwriting
  rw [ChargeLedger.total_eq _ hw.exact]
  omega

instance (k : K) (s : Pairs K S) (a : PairAct K S) : Decidable (Known k s a) := by
  unfold Known
  split <;> infer_instance

instance (k : K) (s : Pairs K S) (a : PairAct K S) : Decidable (NoOldRead k s a) := by
  unfold NoOldRead
  split <;> infer_instance

instance (k : K) (s : Pairs K S) (a : PairAct K S) : Decidable (Fitting k s a) := by
  unfold Fitting
  split <;> infer_instance

/-- A relay admitted before a clear is settled after it and written, and the reply is reported. -/
def writtenLate : List (PairAct Bool Unit) :=
  [.settleStale 0 60, .meter (.takeAll []), .meter (.incrBy 0), .meter (.chargeWritten 0)]

/-- The counter is read after the report. -/
theorem view_covers_writes_read_after :
    let w := (run (Pairs.step fun _ => 10) { world := { stored := fun _ => 0 } }
      ([.meter (.load true), .meter (.loaded 0), .admitLoaded true () 5, .clearView true, .meter (.expire true)] ++
        writtenLate ++ [.read true, .meter (.loaded 0)])).world
    w.stored true = 5 ∧ ∀ seen, w.seen true = some seen → w.stored true ≤ seen + w.ledger.total true :=
  ⟨by decide, view_covers_writes (fun _ => 10) (fun _ => 0) true _ (by decide)⟩

/-- The counter is read before the write, which is reported while the pair is not in the view, and what was read is put
into the view: the write is in the store and nowhere else. -/
theorem old_read_hides_write :
    let as := [.meter (.load true), .meter (.loaded 0), .admitLoaded true () 5, .clearView true, .meter (.expire true),
      .read true] ++ writtenLate ++ [.meter (.loaded 0)]
    let w := (run (Pairs.step fun _ => 10) { world := { stored := fun _ => 0 } } as).world
    Meets (Pairs.step fun _ => 10) (Known true) { world := { stored := fun _ => 0 } } as ∧
      w.seen true = some 0 ∧ w.ledger.total true = 0 ∧ w.stored true = 5 := by
  decide

end RelayMiner.Relayer.Meter
