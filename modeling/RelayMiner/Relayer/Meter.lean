import Mathlib.Algebra.Order.BigOperators.Group.List
import RelayMiner.Lib.Runs
import RelayMiner.Transport.ChargeLedger
/-!
# Admission against the session budget

`RelayMeter`: a pair's relay is admitted while the counter as last seen, what
admitted relays hold, what was served and is not written yet, and the relay's own
cost fit the pair's budget. The view (`seen`), the reservations and the ledger
move under two locks, and the store under none: a charge is in the store and
still pending until the reply of its write is reported, and replies may be
reported in any order.

The amounts in flight, the ledger's and the sum `Admit` compares are taken in int64.
Budgets are fixed. The counter's TTL may end at any time. `WarmFromRedis` fills the view as `loadSeen` does. Left out:
`CheckBudget`, which reserves nothing, and `ChargeServed`, which admits nothing.
-/
open RelayMiner.Lib RelayMiner.Transport Function

namespace RelayMiner.Relayer.Meter

open List

variable {K S : Type} [DecidableEq K] {i seen consumed : Nat} {c : Charge K S} {key : K} {ledger : ChargeLedger K S}

structure Reservation (K S : Type) where
  key : K
  supplier : S
  cost : Int
  deriving DecidableEq

/-- The counters in Redis and what one relayer holds of them: the view, the reservations and the unwritten charges. -/
structure World (K S : Type) where
  stored : K → Nat
  seen : K → Option Nat := fun _ => none
  inFlight : K → Int := fun _ => 0
  ledger : ChargeLedger K S := {}
  reading : List (K × Nat) := []
  held : List (Reservation K S) := []
  /-- The charges taken and not applied to the counter; those applied, with the reply that is still to be reported. -/
  out : List (Charge K S) := []
  applied : List (Charge K S × Nat) := []

/-- `AdmitRelay`: the view, what is reserved and what is unwritten, with the cost, against the budget. -/
def admitRelay (budget : K → Int) (w : World K S) (key : K) (supplier : S) (cost : Int) : World K S :=
  match w.seen key with
  | none => w
  | some seen =>
    if int64 (seen + w.inFlight key + w.ledger.total key + cost) ≤ budget key then
      { w with
        inFlight := update w.inFlight key (int64 (w.inFlight key + cost))
        held := w.held ++ [{ key, supplier, cost }] }
    else w

def releaseLocked (w : World K S) (r : Reservation K S) : World K S :=
  let left := int64 (w.inFlight r.key - r.cost)
  { w with inFlight := update w.inFlight r.key (if left ≤ 0 then 0 else left) }

def release (w : World K S) (r : Reservation K S) : World K S := if r.cost = 0 then w else releaseLocked w r

def settle (w : World K S) (r : Reservation K S) (ttl : Nat) : World K S :=
  if r.cost = 0 then w
  else { releaseLocked w r with ledger := w.ledger.add r.key r.supplier r.cost.toNat ttl }

/-- A write's reply: the view never goes back, and the amount leaves the ledger. -/
def chargeWritten (w : World K S) (c : Charge K S) (consumed : Nat) : World K S :=
  { w with
    seen := update w.seen c.key ((w.seen c.key).map fun current => if current < consumed then consumed else current)
    ledger := w.ledger.finishWrite c.key c.amount }

inductive Act (K S : Type) where
  | load (key : K)
  | loaded (i : Nat)
  | admitRelay (key : K) (supplier : S) (cost : Int)
  | settle (i : Nat) (ttl : Nat)
  | release (i : Nat)
  | takeAll (order : List (Charge K S))
  | incrBy (i : Nat)
  | chargeWritten (i : Nat)
  | untake (i : Nat)
  | retry (i : Nat)
  /-- The reply of a write is lost; it may have run. -/
  | lose (i : Nat) (ran : Bool)
  | expire (key : K)
  | clearSessionMeter (key : K)

/-- A read, an admission, the end of a reservation, or a move of the publisher's with a charge. -/
def step [DecidableEq S] (budget : K → Int) (w : World K S) : Act K S → World K S
  | .load key => if w.seen key = none then { w with reading := w.reading ++ [(key, w.stored key)] } else w
  | .loaded i =>
    match w.reading[i]? with
    | none => w
    | some (key, consumed) =>
      { w with
        reading := w.reading.eraseIdx i
        seen := if w.seen key = none then update w.seen key (some consumed) else w.seen }
  | .admitRelay key supplier cost => admitRelay budget w key supplier cost
  | .settle i ttl =>
    match w.held[i]? with
    | none => w
    | some r => settle { w with held := w.held.eraseIdx i } r ttl
  | .release i =>
    match w.held[i]? with
    | none => w
    | some r => release { w with held := w.held.eraseIdx i } r
  | .takeAll order => { w with ledger := (w.ledger.takeAll order).2, out := w.out ++ (w.ledger.takeAll order).1 }
  | .incrBy i =>
    match w.out[i]? with
    | none => w
    | some c =>
      { w with
        out := w.out.eraseIdx i
        stored := update w.stored c.key (w.stored c.key + c.amount)
        applied := w.applied ++ [(c, w.stored c.key + c.amount)] }
  | .chargeWritten i =>
    match w.applied[i]? with
    | none => w
    | some (c, consumed) => chargeWritten { w with applied := w.applied.eraseIdx i } c consumed
  | .untake i =>
    match w.out[i]? with
    | none => w
    | some c => { w with out := w.out.eraseIdx i, ledger := w.ledger.untake c }
  | .retry i =>
    match w.out[i]? with
    | none => w
    | some c => { w with out := w.out.eraseIdx i, ledger := (w.ledger.retry c).1 }
  | .lose i ran =>
    match w.out[i]? with
    | none => w
    | some c =>
      { w with
        out := w.out.eraseIdx i
        stored := if ran then update w.stored c.key (w.stored c.key + c.amount) else w.stored
        ledger := w.ledger.forget c }
  | .expire key => { w with stored := update w.stored key 0 }
  | .clearSessionMeter key =>
    { w with
      stored := update w.stored key 0
      seen := update w.seen key none
      inFlight := update w.inFlight key 0
      ledger := w.ledger.drop key }

/-! ## Reservations held -/

def reserved (held : List (Reservation K S)) (k : K) : Int := ((held.filter (·.key = k)).map (·.cost)).sum

theorem reserved_append (a b : List (Reservation K S)) (k : K) : reserved (a ++ b) k = reserved a k + reserved b k := by
  simp [reserved]

theorem reserved_cons (r : Reservation K S) (held : List (Reservation K S)) (k : K) :
    reserved (r :: held) k = (if r.key = k then r.cost else 0) + reserved held k := by
  unfold reserved
  by_cases h : r.key = k
  · simp [h]
  · simp [h]

variable {held : List (Reservation K S)}

theorem reserved_nonneg {k : K} (h : ∀ r ∈ held, r.key = k → 0 ≤ r.cost) :
    0 ≤ reserved held k := by
  refine sum_nonneg fun x hx => ?_
  obtain ⟨r, hr, rfl⟩ := mem_map.1 hx
  obtain ⟨hmem, hkey⟩ := mem_filter.1 hr
  exact h r hmem (by simpa using hkey)

variable {r : Reservation K S}

theorem reserved_erase (h : held[i]? = some r) (k : K) :
    reserved held k = (if r.key = k then r.cost else 0) + reserved (held.eraseIdx i) k := by
  obtain ⟨pre, post, rfl, -, herase⟩ := slot_split h
  rw [herase, reserved_append, reserved_cons, reserved_append]
  omega

theorem owed_erase {cs : List (Charge K S)} (h : cs[i]? = some c) (k : K) :
    owed cs k = (if c.key = k then c.amount else 0) + owed (cs.eraseIdx i) k := by
  obtain ⟨pre, post, rfl, -, herase⟩ := slot_split h
  rw [herase, owed_append, owed_cons, owed_append]
  omega

/-! ## What admitted relays hold -/

structure Held (k : K) (w : World K S) : Prop where
  held : w.inFlight k = reserved w.held k
  fits : w.inFlight k < 2 ^ 63
  nonneg : ∀ r ∈ w.held, r.key = k → 0 ≤ r.cost

variable {budget : K → Int} {k : K} {w : World K S} {w' : World K S}

theorem Held.congr (h : Held k w) (hfl : w'.inFlight k = w.inFlight k) (hheld : w'.held = w.held) : Held k w' := by
  refine ⟨?_, ?_, ?_⟩
  · rw [hfl, hheld]
    exact h.held
  · rw [hfl]
    exact h.fits
  · rw [hheld]
    exact h.nonneg

theorem reserved_concat (held : List (Reservation K S)) (r : Reservation K S) (k : K) :
    reserved (held ++ [r]) k = reserved held k + if r.key = k then r.cost else 0 := by
  rw [reserved_append, reserved_cons]
  simp [reserved]

section
variable (h : Held k w)
include h

theorem Held.reserve (supplier : S) {cost : Int}
    (hcost : key = k → 0 ≤ cost ∧ IsInt64 (w.inFlight k + cost)) :
    Held k { w with
      inFlight := update w.inFlight key (int64 (w.inFlight key + cost))
      held := w.held ++ [{ key, supplier, cost }] } := by
  by_cases hk : key = k
  · subst hk
    obtain ⟨hcost, hfits⟩ := hcost rfl
    have hnow : update w.inFlight key (int64 (w.inFlight key + cost)) key = w.inFlight key + cost := by
      rw [update_self, int64_eq hfits]
    refine ⟨?_, ?_, forall_mem_append.2 ⟨h.nonneg, forall_mem_singleton.2 fun _ => hcost⟩⟩
    · rw [reserved_concat, if_pos rfl, ← h.held]
      exact hnow
    · dsimp only
      rw [hnow]
      exact hfits.2
  have hnow : update w.inFlight key (int64 (w.inFlight key + cost)) k = w.inFlight k :=
    update_of_ne (Ne.symm hk) _ _
  refine ⟨?_, ?_, forall_mem_append.2 ⟨h.nonneg, forall_mem_singleton.2 fun hrk => absurd hrk hk⟩⟩
  · rw [reserved_concat, if_neg hk, Int.add_zero, ← h.held]
    exact hnow
  · dsimp only
    rw [hnow]
    exact h.fits

theorem Held.rest_nonneg (i : Nat) : 0 ≤ reserved (w.held.eraseIdx i) k :=
  reserved_nonneg fun x hx => h.nonneg x (eraseIdx_sublist _ _ |>.subset hx)

theorem Held.inFlight_releaseLocked (hi : w.held[i]? = some r) :
    (releaseLocked w r).inFlight k = reserved (w.held.eraseIdx i) k := by
  have hsum := reserved_erase hi k
  have hrest := h.rest_nonneg i
  have hheld := h.held
  have hfits := h.fits
  simp only [releaseLocked]
  by_cases hk : r.key = k
  · subst hk
    rw [if_pos rfl] at hsum
    have hcost := h.nonneg r (mem_of_getElem? hi) rfl
    rw [update_self, int64_eq ⟨by omega, by omega⟩]
    split <;> omega
  rw [if_neg hk] at hsum
  rw [update_of_ne (Ne.symm hk)]
  omega

theorem Held.inFlight_free (hi : w.held[i]? = some r) (h0 : r.cost = 0) :
    w.inFlight k = reserved (w.held.eraseIdx i) k := by
  have hsum := reserved_erase hi k
  rw [h.held]
  split at hsum <;> omega

theorem Held.ended {inFlight : K → Int} (hfl : inFlight k = reserved (w.held.eraseIdx i) k)
    (hi : w.held[i]? = some r) (ledger : ChargeLedger K S) :
    Held k { w with held := w.held.eraseIdx i, inFlight, ledger } := by
  refine ⟨hfl, ?_, fun x hx => h.nonneg x ((eraseIdx_sublist _ _).subset hx)⟩
  have hsum := reserved_erase hi k
  have hheld := h.held
  have hfits := h.fits
  dsimp only
  by_cases hk : r.key = k
  · have hcost := h.nonneg r (mem_of_getElem? hi) hk
    omega
  · rw [if_neg hk] at hsum
    omega
end

/-! ## The view and the counter -/

def World.unreported (w : World K S) (k : K) : Nat := owed (w.applied.map (·.1)) k

/-- The view and the replies still to be reported never lie below the store: after every reply the view has reached the
counter as that write left it, and what was applied later is still pending. -/
structure View (w : World K S) (k : K) (seen : Nat) : Prop where
  now : w.stored k ≤ seen + w.unreported k
  reply : ∀ pre c consumed post, w.applied = pre ++ (c, consumed) :: post → c.key = k →
    w.stored k ≤ max seen consumed + owed (post.map (·.1)) k

/-- The counter as it is: nothing was applied to it since. -/
theorem View.read (w : World K S) {k : K} (h : w.stored k ≤ seen) : View w k seen :=
  ⟨le_trans h (Nat.le_add_right _ _),
    fun _ _ _ _ _ _ => le_trans h (le_trans (le_max_left _ _) (Nat.le_add_right _ _))⟩

/-- The view moves up, the counter down, and no reply comes or goes. -/
theorem View.mono {seen' : Nat} (h : View w k seen) (hseen : seen ≤ seen') (hstored : w'.stored k ≤ w.stored k)
    (happ : w'.applied = w.applied) : View w' k seen' := by
  refine ⟨?_, fun pre c consumed post hsplit hk => ?_⟩
  · have hnow := h.now
    unfold World.unreported at hnow ⊢
    rw [happ]
    omega
  · have hreply := h.reply pre c consumed post (happ ▸ hsplit) hk
    omega

/-- The INCRBY runs: the amount is in the store, and pending until its reply is reported. -/
theorem View.incrBy (h : View w k seen) (c : Charge K S)
    (hstored : w'.stored k = w.stored k + if c.key = k then c.amount else 0)
    (happ : w'.applied = w.applied ++ [(c, w.stored c.key + c.amount)]) : View w' k seen := by
  refine ⟨?_, fun pre c' v post hsplit hk => ?_⟩
  · have hnow := h.now
    unfold World.unreported at hnow ⊢
    rw [happ, hstored, map_append, owed_append, map_singleton, owed_cons, owed_nil]
    dsimp only
    omega
  rw [happ] at hsplit
  rw [hstored]
  rcases eq_nil_or_concat post with rfl | ⟨rest, last, rfl⟩
  · -- The write itself: its reply is the counter as it is now.
    obtain ⟨-, hlast⟩ := append_inj' hsplit rfl
    cases hlast
    subst hk
    simp
  rw [concat_eq_append, ← cons_append, ← append_assoc] at hsplit
  obtain ⟨hold, hlast⟩ := append_inj' hsplit rfl
  cases hlast
  have hreply := h.reply pre c' v rest hold hk
  simp only [concat_eq_append, map_append, owed_append, map_singleton, owed_cons, owed_nil]
  omega

/-- A reply is reported: the view has reached it, and the amount is no longer pending. -/
theorem View.chargeWritten {seen' : Nat} (h : View w k seen) (hseen : seen ≤ seen')
    (hi : w.applied[i]? = some (c, consumed)) (hreach : c.key = k → consumed ≤ seen')
    (hstored : w'.stored k = w.stored k) (happ' : w'.applied = w.applied.eraseIdx i) : View w' k seen' := by
  obtain ⟨pre, post, happ, -, herase⟩ := slot_split hi
  rw [herase] at happ'
  have hself : c.key = k → w.stored k ≤ max seen consumed + owed (post.map (·.1)) k :=
    fun hk => h.reply pre c consumed post happ hk
  refine ⟨?_, fun pre' c' v post' hsplit hk' => ?_⟩
  · have hnow := h.now
    unfold World.unreported at hnow ⊢
    rw [happ] at hnow
    rw [happ', hstored, map_append, owed_append]
    simp only [map_append, map_cons, owed_append, owed_cons] at hnow
    by_cases hk : c.key = k
    · have := hself hk
      have := hreach hk
      omega
    · rw [if_neg hk] at hnow
      omega
  rw [happ'] at hsplit
  -- The other reply was before or after this one.
  rcases append_eq_append_iff.1 hsplit with ⟨mid, hpre, hpost⟩ | ⟨mid, hpre, hpost⟩
  · have hreply := h.reply (pre ++ (c, consumed) :: mid) c' v post' (by rw [happ, hpost]; simp) hk'
    omega
  cases mid with
  | nil =>
    have hpost' : post = (c', v) :: post' := by simpa using hpost.symm
    have hreply := h.reply (pre ++ [(c, consumed)]) c' v post' (by rw [happ, hpost']; simp) hk'
    omega
  | cons x mid =>
    simp only [cons_append, List.cons.injEq] at hpost
    obtain ⟨rfl, rfl⟩ := hpost
    have hreply := h.reply pre' c' v (mid ++ (c, consumed) :: post) (by rw [happ, hpre]; simp) hk'
    simp only [map_append, map_cons, owed_append, owed_cons] at hreply ⊢
    by_cases hk : c.key = k
    · have := hself hk
      have := hreach hk
      omega
    · rw [if_neg hk] at hreply
      omega

/-- What the view was before a report, if it is there after it. -/
theorem seen_chargeWritten (h : (Meter.chargeWritten w c consumed).seen k = some seen) :
    ∃ before, w.seen k = some before ∧ before ≤ seen ∧ (c.key = k → consumed ≤ seen) := by
  simp only [Meter.chargeWritten] at h
  by_cases hk : k = c.key
  · subst hk
    rw [update_self] at h
    obtain ⟨before, hbefore, rfl⟩ := Option.map_eq_some_iff.1 h
    exact ⟨before, hbefore, by split <;> omega, fun _ => by split <;> omega⟩
  · rw [update_of_ne hk] at h
    exact ⟨seen, h, le_refl _, fun heq => absurd heq.symm hk⟩

theorem unseen_chargeWritten (h : (Meter.chargeWritten w c consumed).seen k = none) : w.seen k = none := by
  simp only [Meter.chargeWritten] at h
  by_cases hk : k = c.key
  · subst hk
    simpa using h
  · rwa [update_of_ne hk] at h

def Writing (k : K) (w : World K S) : Prop := w.ledger.writing k = owed w.out k + w.unreported k

section
variable (h : Writing k w)
include h

theorem Writing.takeAll [DecidableEq S] (order : List (Charge K S)) :
    Writing k { w with ledger := (w.ledger.takeAll order).2, out := w.out ++ (w.ledger.takeAll order).1 } := by
  unfold Writing at h ⊢
  show (w.ledger.takeAll order).2.writing k = owed (w.out ++ (w.ledger.takeAll order).1) k + w.unreported k
  rw [ChargeLedger.writing_takeAll, owed_append]
  omega

theorem Writing.incrBy (hi : w.out[i]? = some c) (stored : K → Nat) (consumed : Nat) :
    Writing k { w with out := w.out.eraseIdx i, stored, applied := w.applied ++ [(c, consumed)] } := by
  have hsum := owed_erase hi k
  unfold Writing World.unreported at h ⊢
  rw [map_append, owed_append, map_singleton, owed_cons, owed_nil]
  dsimp only
  omega

theorem Writing.le_of_out (hi : w.out[i]? = some c) (hk : c.key = k) : c.amount ≤ w.ledger.writing k := by
  have hsum := owed_erase hi k
  unfold Writing at h
  rw [if_pos hk] at hsum
  omega

/-- A reply is reported: its amount leaves the ledger, and what is pending gets no larger. -/
theorem Writing.chargeWritten (hl : w.ledger.Exact k) (hi : w.applied[i]? = some (c, consumed)) :
    (w.ledger.finishWrite c.key c.amount).writing k ≤ w.ledger.writing k ∧
      Writing k (Meter.chargeWritten { w with applied := w.applied.eraseIdx i } c consumed) := by
  obtain ⟨pre, post, happ, -, herase⟩ := slot_split hi
  unfold Writing World.unreported at h ⊢
  show _ ∧ (w.ledger.finishWrite c.key c.amount).writing k = owed w.out k + owed ((w.applied.eraseIdx i).map (·.1)) k
  rw [happ] at h
  simp only [map_append, map_cons, owed_append, owed_cons] at h
  rw [ChargeLedger.writing_finishWrite hl fun hk => by rw [if_pos hk] at h; omega, herase, map_append, owed_append]
  omega

theorem Writing.returned (hi : w.out[i]? = some c)
    (hw : ledger.writing k = w.ledger.writing k - if c.key = k then c.amount else 0) :
    Writing k { w with out := w.out.eraseIdx i, ledger } := by
  have hsum := owed_erase hi k
  unfold Writing at h ⊢
  show ledger.writing k = owed (w.out.eraseIdx i) k + w.unreported k
  omega
end

/-- What `loadSeen` puts into the view, if anything. -/
theorem seen_loaded (w : World K S) (key : K) (consumed : Nat) (k : K) :
    (if w.seen key = none then update w.seen key (some consumed) else w.seen) k = w.seen k ∨
      key = k ∧ w.seen k = none ∧
        (if w.seen key = none then update w.seen key (some consumed) else w.seen) k = some consumed := by
  split
  next hnone =>
    by_cases hk : key = k
    · subst hk
      exact .inr ⟨rfl, hnone, update_self _ _ _⟩
    · exact .inl (update_of_ne (Ne.symm hk) _ _)
  · exact .inl rfl

theorem stored_incrBy (w : World K S) (c : Charge K S) (k : K) :
    update w.stored c.key (w.stored c.key + c.amount) k = w.stored k + if c.key = k then c.amount else 0 := by
  by_cases hk : c.key = k
  · subst hk
    simp
  · simp [hk, update_of_ne (Ne.symm hk)]

theorem stored_expire (w : World K S) (key k : K) : update w.stored key 0 k ≤ w.stored k := by
  by_cases hk : k = key
  · subst hk
    simp
  · rw [update_of_ne hk]

/-! ## The budget -/

structure Inv (budget : K → Int) (k : K) (w : World K S) : Prop extends Held k w where
  writing : Writing k w
  unseen : w.seen k = none → owed w.ledger.pending k = 0 ∧ owed w.out k = 0 ∧ (∀ r ∈ w.held, r.key ≠ k) ∧
    ∀ p ∈ w.reading, p.1 = k → w.stored k ≤ p.2
  view : ∀ seen, w.seen k = some seen → View w k seen
  /-- The sum `Admit` compares would leave int64 before these do. -/
  room : w.ledger.writing k + owed w.ledger.pending k + w.inFlight k < 2 ^ 63
  bound : w.stored k + owed w.ledger.pending k + owed w.out k + reserved w.held k ≤ budget k

/-- The pair `k` is not cleared, and no reply of its writes is lost. -/
def Undisturbed (k : K) (w : World K S) : Act K S → Prop
  | .lose i _ => ∀ c ∈ w.out[i]?, c.key ≠ k
  | .clearSessionMeter key => key ≠ k
  | _ => True

/-- A cost is not negative, and an int64 holds the sum it is admitted by. -/
def Exact (k : K) (w : World K S) : Act K S → Prop
  | .admitRelay key _ cost =>
    key = k → 0 ≤ cost ∧ ∀ seen ∈ w.seen k, IsInt64 (seen + w.inFlight k + w.ledger.total k + cost)
  | _ => True

instance (k : K) (w : World K S) (a : Act K S) : Decidable (Undisturbed k w a ∧ Exact k w a) := by
  cases a <;> unfold Undisturbed Exact <;> infer_instance

section
variable (h : Inv budget k w)
include h

theorem Inv.exact : w.ledger.Exact k := by
  have hroom := h.room
  have hheld := h.held
  have hnonneg : 0 ≤ reserved w.held k := reserved_nonneg h.nonneg
  unfold ChargeLedger.Exact
  omega

theorem inv_admitRelay {supplier : S} {cost : Int}
    (he : Exact k w (.admitRelay key supplier cost)) : Inv budget k (admitRelay budget w key supplier cost) := by
  unfold admitRelay
  split
  · exact h
  rename_i seen hseen
  split
  swap
  · exact h
  rename_i hfit
  have hheld := h.held
  have hreserved := reserved_concat w.held ⟨key, supplier, cost⟩ k
  have hnonneg : 0 ≤ reserved w.held k := reserved_nonneg h.nonneg
  have htotal := w.ledger.total_eq h.exact
  refine ⟨h.toHeld.reserve supplier fun hk => ?_, h.writing, fun hn => ?_,
    fun s hs => (h.view s hs).mono (le_refl _) (le_refl _) rfl, ?_, ?_⟩
  · -- The amount in flight is part of a sum that fits.
    subst hk
    obtain ⟨hcost, hsum⟩ := he rfl
    obtain ⟨hlo, hhi⟩ := hsum seen hseen
    exact ⟨hcost, by omega, by omega⟩
  · obtain ⟨hp, ho, hheld, hread⟩ := h.unseen hn
    refine ⟨hp, ho, forall_mem_append.2 ⟨hheld, forall_mem_singleton.2 ?_⟩, hread⟩
    rintro rfl
    rw [hseen] at hn
    cases hn
  · have hroom := h.room
    dsimp only
    by_cases hk : key = k
    · subst hk
      obtain ⟨hcost, hsum⟩ := he rfl
      obtain ⟨hlo, hhi⟩ := hsum seen hseen
      rw [update_self, int64_eq ⟨by omega, by omega⟩]
      omega
    · rw [update_of_ne (Ne.symm hk)]
      exact hroom
  have hb := h.bound
  dsimp only at hreserved ⊢
  rw [hreserved]
  by_cases hk : key = k
  · subst hk
    obtain ⟨hcost, hsum⟩ := he rfl
    have hwriting := h.writing
    rw [int64_eq (hsum seen hseen), htotal, hwriting, hheld] at hfit
    have hview := (h.view seen hseen).now
    omega
  · rw [if_neg hk]
    omega

section
variable (hi : w.held[i]? = some r)
include hi

/-- A reservation of `k` leaves what is held; `extra` of it goes into the ledger. -/
theorem Inv.ended {inFlight : K → Int}
    (hfl : inFlight k = reserved (w.held.eraseIdx i) k) (hw : ledger.writing k = w.ledger.writing k) (extra : Nat)
    (hp : owed ledger.pending k = owed w.ledger.pending k + if r.key = k then extra else 0)
    (hle : r.key = k → extra ≤ r.cost) : Inv budget k { w with held := w.held.eraseIdx i, inFlight, ledger } := by
  refine ⟨h.toHeld.ended hfl hi ledger, hw.trans h.writing, fun hn => ?_,
    fun s hs => (h.view s hs).mono (le_refl _) (le_refl _) rfl, ?_, ?_⟩
  · obtain ⟨hpend, hout, hheld, hread⟩ := h.unseen hn
    have hne : r.key ≠ k := hheld r (mem_of_getElem? hi)
    rw [if_neg hne] at hp
    exact ⟨by dsimp only; omega, hout, fun x hx => hheld x ((eraseIdx_sublist _ _).subset hx), hread⟩
  all_goals
    have hsum := reserved_erase hi k
    have hheld := h.held
    have hroom := h.room
    have hb := h.bound
    dsimp only
    by_cases hk : r.key = k
    · rw [if_pos hk] at hsum hp
      have := hle hk
      omega
    · rw [if_neg hk] at hsum hp
      omega

theorem inv_release :
    Inv budget k (release { w with held := w.held.eraseIdx i } r) := by
  unfold release
  have hcost : r.key = k → ((0 : Nat) : Int) ≤ r.cost := fun hk => h.nonneg r (mem_of_getElem? hi) hk
  split
  next h0 => exact h.ended hi (h.inFlight_free hi h0) rfl 0 (by simp) hcost
  · exact h.ended hi (h.inFlight_releaseLocked hi) rfl 0 (by simp) hcost

theorem inv_settle (ttl : Nat) :
    Inv budget k (settle { w with held := w.held.eraseIdx i } r ttl) := by
  unfold settle
  split
  next h0 =>
    have hrel := inv_release h hi
    rwa [release, if_pos h0] at hrel
  refine h.ended hi (h.inFlight_releaseLocked hi) (by rw [ChargeLedger.writing_add]) r.cost.toNat
    (w.ledger.owed_add r.key r.supplier r.cost.toNat ttl k) (fun hk => ?_)
  have hcost := h.nonneg r (mem_of_getElem? hi) hk
  omega
end

/-- A charge taken goes back to the ledger, or is dropped there with what was queued. -/
theorem Inv.returned (hi : w.out[i]? = some c)
    (hw : ledger.writing k = w.ledger.writing k - if c.key = k then c.amount else 0)
    (hp : owed ledger.pending k ≤ owed w.ledger.pending k + if c.key = k then c.amount else 0) :
    Inv budget k { w with out := w.out.eraseIdx i, ledger } := by
  have hsum := owed_erase hi k
  refine ⟨h.toHeld.congr rfl rfl, h.writing.returned hi hw, fun hn => ?_,
    fun s hs => (h.view s hs).mono (le_refl _) (le_refl _) rfl, ?_, ?_⟩
  · obtain ⟨hpend, hout, hheld, hread⟩ := h.unseen hn
    exact ⟨by dsimp only; omega, by dsimp only; omega, hheld, hread⟩
  · have hroom := h.room
    have hout : w.ledger.writing k = owed w.out k + w.unreported k := h.writing
    dsimp only
    omega
  have hb := h.bound
  dsimp only
  omega

theorem inv_takeAll [DecidableEq S] (order : List (Charge K S)) :
    Inv budget k { w with ledger := (w.ledger.takeAll order).2, out := w.out ++ (w.ledger.takeAll order).1 } := by
  have hperm := owed_perm (w.ledger.takeAll_perm order) k
  refine ⟨h.toHeld.congr rfl rfl, h.writing.takeAll order, fun hn => ?_,
    fun s hs => (h.view s hs).mono (le_refl _) (le_refl _) rfl, ?_, ?_⟩
  · obtain ⟨hpend, hout, hheld, hread⟩ := h.unseen hn
    refine ⟨rfl, ?_, hheld, hread⟩
    rw [owed_append]
    omega
  · have hroom := h.room
    rw [ChargeLedger.writing_takeAll, ChargeLedger.pending_takeAll, owed_nil]
    push_cast
    omega
  have hb := h.bound
  rw [owed_append, ChargeLedger.pending_takeAll, owed_nil]
  push_cast
  omega

theorem inv_incrBy (hi : w.out[i]? = some c) :
    Inv budget k
      { w with
        out := w.out.eraseIdx i
        stored := update w.stored c.key (w.stored c.key + c.amount)
        applied := w.applied ++ [(c, w.stored c.key + c.amount)] } := by
  have hsum := owed_erase hi k
  have hstored := stored_incrBy w c k
  refine ⟨h.toHeld.congr rfl rfl, h.writing.incrBy hi _ _, fun hn => ?_,
    fun s hs => (h.view s hs).incrBy c hstored rfl, h.room, ?_⟩
  · obtain ⟨hpend, hout, hheld, hread⟩ := h.unseen hn
    refine ⟨hpend, by dsimp only; omega, hheld, fun p hp hpk => ?_⟩
    have := hread p hp hpk
    dsimp only
    omega
  have hb := h.bound
  push_cast
  omega

theorem inv_chargeWritten (hi : w.applied[i]? = some (c, consumed)) :
    Inv budget k (chargeWritten { w with applied := w.applied.eraseIdx i } c consumed) := by
  obtain ⟨hle, hwriting⟩ := h.writing.chargeWritten h.exact hi
  refine ⟨h.toHeld.congr rfl rfl, hwriting, fun hn => h.unseen (unseen_chargeWritten hn), fun s hs => ?_, ?_, h.bound⟩
  swap
  · have hroom := h.room
    simp only [chargeWritten]
    show ((w.ledger.finishWrite c.key c.amount).writing k : Int) + owed w.ledger.pending k + w.inFlight k < 2 ^ 63
    omega
  obtain ⟨before, hbefore, hle, hreach⟩ := seen_chargeWritten hs
  exact (h.view before hbefore).chargeWritten hle hi hreach rfl rfl

theorem inv_loaded (hi : w.reading[i]? = some (key, consumed)) :
    Inv budget k
      { w with
        reading := w.reading.eraseIdx i
        seen := if w.seen key = none then update w.seen key (some consumed) else w.seen } := by
  refine ⟨h.toHeld.congr rfl rfl, h.writing, fun hn => ?_, fun s hs => ?_, h.room, h.bound⟩
  · rcases seen_loaded w key consumed k with hseen | ⟨-, -, hseen⟩
    · obtain ⟨hpend, hout, hheld, hread⟩ := h.unseen (hseen.symm.trans hn)
      exact ⟨hpend, hout, hheld, fun p hp => hread p ((eraseIdx_sublist _ _).subset hp)⟩
    · cases hseen.symm.trans hn
  rcases seen_loaded w key consumed k with hseen | ⟨hk, hnone, hseen⟩
  · exact (h.view s (hseen.symm.trans hs)).mono (le_refl _) (le_refl _) rfl
  cases hseen.symm.trans hs
  obtain ⟨-, -, -, hread⟩ := h.unseen hnone
  exact .read _ (hread _ (mem_of_getElem? hi) hk)

theorem Inv.lower {stored : K → Nat} (hle : stored k ≤ w.stored k) :
    Inv budget k { w with stored } := by
  refine ⟨h.toHeld.congr rfl rfl, h.writing, fun hn => ?_, fun s hs => (h.view s hs).mono (le_refl _) hle rfl,
    h.room, ?_⟩
  · obtain ⟨hpend, hout, hheld, hread⟩ := h.unseen hn
    exact ⟨hpend, hout, hheld, fun p hp hpk => le_trans hle (hread p hp hpk)⟩
  have hb := h.bound
  dsimp only
  omega
end

variable [DecidableEq S]

theorem inv_step (w : World K S) (a : Act K S) (h : Inv budget k w) (hu : Undisturbed k w a ∧ Exact k w a) :
    Inv budget k (step budget w a) := by
  cases a with
  | load key =>
    simp only [step]
    split
    · refine ⟨h.toHeld.congr rfl rfl, h.writing, fun hn => ?_,
        fun s hs => (h.view s hs).mono (le_refl _) (le_refl _) rfl, h.room, h.bound⟩
      obtain ⟨hpend, hout, hheld, hread⟩ := h.unseen hn
      exact ⟨hpend, hout, hheld, forall_mem_append.2
        ⟨hread, forall_mem_singleton.2 fun hpk => le_of_eq (congrArg w.stored hpk.symm)⟩⟩
    · exact h
  | loaded i =>
    simp only [step]
    split
    · exact h
    next key consumed hi => exact inv_loaded h hi
  | admitRelay key supplier cost => exact inv_admitRelay h hu.2
  | settle i ttl =>
    simp only [step]
    split
    · exact h
    next r hi => exact inv_settle h hi ttl
  | release i =>
    simp only [step]
    split
    · exact h
    next r hi => exact inv_release h hi
  | takeAll order => exact inv_takeAll h order
  | incrBy i =>
    simp only [step]
    split
    · exact h
    next c hi => exact inv_incrBy h hi
  | chargeWritten i =>
    simp only [step]
    split
    · exact h
    next c consumed hi => exact inv_chargeWritten h hi
  | untake i =>
    simp only [step]
    split
    · exact h
    next c hi =>
      exact h.returned hi (ChargeLedger.writing_untake h.exact (h.writing.le_of_out hi))
        (le_of_eq (ChargeLedger.owed_untake _ _ _))
  | retry i =>
    simp only [step]
    split
    · exact h
    next c hi =>
      exact h.returned hi (ChargeLedger.writing_retry h.exact (h.writing.le_of_out hi))
        (ChargeLedger.owed_retry_le _ _ _)
  | lose i ran =>
    simp only [step]
    split
    · exact h
    next c hi =>
      have hk : c.key ≠ k := hu.1 c hi
      have hret : Inv budget k { w with out := w.out.eraseIdx i, ledger := w.ledger.forget c } :=
        h.returned hi (ChargeLedger.writing_finishWrite h.exact (h.writing.le_of_out hi)) (Nat.le_add_right _ _)
      refine hret.lower ?_
      split
      · rw [update_of_ne (Ne.symm hk)]
      · exact le_refl _
  | expire key => exact h.lower (stored_expire w key k)
  | clearSessionMeter key =>
    have hk : k ≠ key := Ne.symm hu.1
    have hexp := h.lower (stored_expire w key k)
    have hpend : owed (w.ledger.drop key).pending k = owed w.ledger.pending k := by
      rw [ChargeLedger.owed_drop, if_neg (Ne.symm hk)]
    have hseen : update w.seen key none k = w.seen k := update_of_ne hk _ _
    have hflight : update w.inFlight key 0 k = w.inFlight k := update_of_ne hk _ _
    refine ⟨hexp.toHeld.congr hflight rfl, hexp.writing, fun hn => ?_, fun s hs => ?_, ?_, ?_⟩
    · obtain ⟨hp, hout, hheld, hread⟩ := hexp.unseen (hseen.symm.trans hn)
      exact ⟨hpend.trans hp, hout, hheld, hread⟩
    · exact (hexp.view s (hseen.symm.trans hs)).mono (le_refl _) (le_refl _) rfl
    · simp only [step]
      rw [hpend, hflight]
      exact h.room
    have hb := hexp.bound
    simp only [step] at hb ⊢
    rw [hpend]
    exact hb

/-- On the only relayer that writes the counter of `k`, in every run in which `k` is not cleared, no reply of its
writes is lost, and the costs it is charged are not negative and are added without leaving int64: what is stored, what
is served and not applied, and what is reserved stay within the budget; and what the ledger counts as pending is what
is not applied and what is applied and not reported yet. -/
theorem admitted_within_budget (budget : K → Int) (stored : K → Nat) (k : K) (h0 : stored k ≤ budget k)
    (as : List (Act K S))
    (h : Meets (step budget) (fun w a => Undisturbed k w a ∧ Exact k w a) { stored } as) :
    let w := run (step budget) { stored } as
    w.stored k + owed w.ledger.pending k + owed w.out k + reserved w.held k ≤ budget k ∧
      w.ledger.total k = owed w.ledger.pending k + owed w.out k + owed (w.applied.map (·.1)) k := by
  have hinit : Inv budget k ({ stored } : World K S) := by
    refine ⟨⟨rfl, by simp, by simp⟩, rfl, fun _ => ⟨rfl, rfl, by simp, by simp⟩, nofun, by simp, ?_⟩
    simpa [owed, reserved] using h0
  have hinv := inv_of_meets (Inv budget k) inv_step hinit h
  refine ⟨hinv.bound, ?_⟩
  have hwriting := hinv.writing
  rw [ChargeLedger.total_eq _ hinv.exact, hwriting]
  simp only [World.unreported]
  omega

/-- Two relays of one pair, served and taken in two dispatches whose replies come back in the other order. -/
def twoWrites : List (Act Bool Unit) :=
  [.load true, .loaded 0, .admitRelay true () 4, .settle 0 60, .takeAll [], .admitRelay true () 5, .settle 0 60, .takeAll [],
    .incrBy 0, .incrBy 0, .chargeWritten 1, .chargeWritten 0, .admitRelay true () 1, .admitRelay true () 1]

theorem admitted_within_budget_twoWrites :
    let w := run (step fun _ => 10) { stored := fun _ => 0 } twoWrites
    w.stored true = 9 ∧ reserved w.held true = 1 ∧
      (w.stored true : Int) + owed w.ledger.pending true + owed w.out true + reserved w.held true ≤ 10 :=
  ⟨by decide, by decide,
    (admitted_within_budget (fun _ => 10) (fun _ => 0) true (by decide) twoWrites (by decide)).1⟩

/-- A cost that takes the sum past int64 is admitted. -/
theorem overflow_admitted :
    let w := run (step fun _ => 10) ({ stored := fun _ => 1 } : World Bool Unit)
      [.load true, .loaded 0, .admitRelay true () (2 ^ 63 - 1)]
    w.stored true = 1 ∧ reserved w.held true = 2 ^ 63 - 1 := by
  decide

end RelayMiner.Relayer.Meter
