import RelayMiner.Inclusion.RedisStorage
import RelayMiner.Lib.KeyRange
import RelayMiner.Lib.Wire
/-!
# `pebbleRebroadcastStore` against `RebroadcastStore`

The embedded store keeps a group's payloads under the group's prefix and the end
of its lifetime under a key of its own; the index is those keys. A mutex makes
each operation one step, but for the commit with which `Delete` drops a group it
has emptied. The keys of payloads start with `rb` and a NUL and those of groups
with `rbg`, so the two kinds are apart here, and the eight bytes of an expiry are
the milliseconds they hold.

Both stores have the effect of every operation on the group it names. They
differ in the last millisecond of a lifetime, in which Redis still has the group
and the embedded store does not: a `Put` in it renews the old payloads in one
store and drops them in the other.
-/
open RelayMiner.Lib Function

namespace RelayMiner.Inclusion.PebbleStorage

open List

open Storage
open RedisStorage (phaseName)

structure Store where
  now : Nat := 0
  payloads : List (Bytes × Bytes) := []
  groups : List (Bytes × Nat) := []

/-! ## Keys -/

def rebroadcastGroupPart (phase : RebroadcastPhase) (supplier : Bytes) (sessionEnd : Int64) : Bytes :=
  phaseName phase ++ 0 :: (supplier ++ 0 :: bigEndian 8 sessionEnd.toUInt64.toNat)

def payloadPrefix (phase : RebroadcastPhase) (supplier : Bytes) (sessionEnd : Int64) : Bytes :=
  ascii "rb\x00" ++ rebroadcastGroupPart phase supplier sessionEnd

def groupKey (phase : RebroadcastPhase) (supplier : Bytes) (sessionEnd : Int64) : Bytes :=
  ascii "rbg\x00" ++ rebroadcastGroupPart phase supplier sessionEnd

def indexPrefix (phase : RebroadcastPhase) : Bytes := ascii "rbg\x00" ++ phaseName phase ++ [0]

abbrev prefixOf (g : Group) : Bytes := payloadPrefix g.phase g.supplier g.sessionEnd

abbrev keyOf (g : Group) : Bytes := groupKey g.phase g.supplier g.sessionEnd

def parseGroup (rest : Bytes) : Option RebroadcastGroup :=
  if 9 ≤ rest.length ∧ rest[rest.length - 9]? = some 0 then
    some (rest.take (rest.length - 9), (UInt64.ofNat (readBigEndian (rest.drop (rest.length - 8)))).toInt64)
  else none

/-! ## The store -/

/-- `DecodeValue` of an expiry; zero is none. -/
def expired (expiry now : Nat) : Bool := expiry ≠ 0 ∧ expiry ≤ now

def Store.live (s : Store) (key : Bytes) (now : Nat) : Bool := (s.groups.lookup key).any fun expiry => !expired expiry now

def Store.dropGroup (s : Store) (phase : RebroadcastPhase) (supplier : Bytes) (sessionEnd : Int64) : Store :=
  let lo := payloadPrefix phase supplier sessionEnd
  { s with
    payloads := s.payloads.filter fun e => !inRange lo (keyUpperBound lo) e.1
    groups := dropKey (groupKey phase supplier sessionEnd) s.groups }

def Store.scan (s : Store) (g : Group) : List (Bytes × Bytes) :=
  (s.payloads.filter fun e => inRange (prefixOf g) (keyUpperBound (prefixOf g)) e.1).map fun e =>
    (e.1.drop (prefixOf g).length, e.2)

abbrev Store.drop (s : Store) (g : Group) : Store := s.dropGroup g.phase g.supplier g.sessionEnd

section

variable (ttl : Nat)

/-- A group past its expiry is a new group: its old payloads go. -/
def put (s : Store) (g : Group) (sessionID payload : Bytes) : Store :=
  let s := if s.live (keyOf g) s.now then s else s.drop g
  { s with
    payloads := putKey (prefixOf g ++ sessionID) payload s.payloads
    groups := putKey (keyOf g) (s.now + lifetime ttl) s.groups }

def list (s : Store) (g : Group) : List (Bytes × Bytes) := if s.live (keyOf g) s.now then s.scan g else []

def delete (s : Store) (g : Group) (sessionID : Bytes) (committed : Bool) : Store :=
  let s := { s with payloads := dropKey (prefixOf g ++ sessionID) s.payloads }
  if s.scan g = [] ∧ committed then s.drop g else s

def cleanupIfEmpty (s : Store) (g : Group) (committed : Bool) : Store :=
  if s.live (keyOf g) s.now ∧ s.scan g ≠ [] then s else if committed then s.drop g else s

def Store.index (s : Store) (phase : RebroadcastPhase) : List (RebroadcastGroup × Nat) :=
  (s.groups.filter fun e => inRange (indexPrefix phase) (keyUpperBound (indexPrefix phase)) e.1).filterMap fun e =>
    (parseGroup (e.1.drop (indexPrefix phase).length)).map (·, e.2)

def activeGroups (s : Store) (phase : RebroadcastPhase) : List RebroadcastGroup :=
  ((s.index phase).filter fun e => !expired e.2 s.now).map (·.1)

def dropExpired (s : Store) (phase : RebroadcastPhase) : Store :=
  ((s.index phase).filter fun e => expired e.2 s.now).foldl (fun s e => s.dropGroup phase e.1.1 e.1.2) s

def step (s : Store) : Op → Store
  | .put g sessionID payload => put ttl s g sessionID payload
  | .delete g sessionID committed => delete s g sessionID committed
  | .cleanupIfEmpty g committed => cleanupIfEmpty s g committed
  | .activeGroups phase committed => if committed then dropExpired s phase else s
  | .wait ms => { s with now := s.now + ms }

end

def outlook (s : Store) (g : Group) : Outlook := fun t =>
  if s.live (keyOf g) t then fun sessionID => s.payloads.lookup (prefixOf g ++ sessionID) else nothing

/-! ## Keys are apart -/

theorem zero_notMem_phaseName (phase : RebroadcastPhase) : 0 ∉ phaseName phase := by
  cases phase <;> decide

variable {g g' : Group}

theorem part_inj {x y : Bytes}
    (h : rebroadcastGroupPart g.phase g.supplier g.sessionEnd ++ x =
      rebroadcastGroupPart g'.phase g'.supplier g'.sessionEnd ++ y) : g = g' ∧ x = y := by
  unfold rebroadcastGroupPart at h
  simp only [append_assoc, cons_append] at h
  obtain ⟨hphase, h⟩ := join_inj (zero_notMem_phaseName _) (zero_notMem_phaseName _) h
  obtain ⟨hsupplier, h⟩ := join_inj g.nonul g'.nonul h
  obtain ⟨hend, rfl⟩ := append_inj h (by simp)
  have hbound (e : Int64) : e.toUInt64.toNat < 256 ^ 8 := e.toUInt64.toNat_lt
  have hends : g.sessionEnd = g'.sessionEnd := by
    have := congrArg readBigEndian hend
    rw [readBigEndian_bigEndian (hbound _), readBigEndian_bigEndian (hbound _)] at this
    simpa using congrArg UInt64.toInt64 (UInt64.toNat_inj.1 this)
  refine ⟨Group.ext_listed ?_ (Prod.ext hsupplier hends), rfl⟩
  cases hp : g.phase <;> cases hp' : g'.phase <;> first | rfl | (rw [hp, hp'] at hphase; exact absurd hphase (by decide))

theorem keyOf_inj (h : keyOf g = keyOf g') : g = g' := by
  have := append_cancel_left h
  exact (part_inj (x := []) (y := []) (by simpa using this)).1

theorem prefixOf_inj {x y : Bytes} (h : prefixOf g ++ x = prefixOf g' ++ y) : g = g' ∧ x = y := by
  unfold prefixOf payloadPrefix at h
  rw [append_assoc, append_assoc] at h
  exact part_inj (append_cancel_left h)

/-- A group's range holds its own payloads. -/
theorem inRange_prefixOf {x : Bytes} :
    inRange (prefixOf g) (keyUpperBound (prefixOf g)) (prefixOf g' ++ x) = true ↔ g = g' := by
  rw [inRange_keyUpperBound]
  exact ⟨fun ⟨_, h⟩ => (prefixOf_inj h).1, fun h => h ▸ prefix_append _ _⟩

/-- The key of a group is in the range of its phase, and tells what group it is. -/
theorem parseGroup_keyOf (g : Group) : ∃ rest, keyOf g = indexPrefix g.phase ++ rest ∧ parseGroup rest = some g.listed := by
  refine ⟨g.supplier ++ 0 :: bigEndian 8 g.sessionEnd.toUInt64.toNat, ?_, ?_⟩
  · simp [keyOf, groupKey, rebroadcastGroupPart, indexPrefix]
  have hlen : (g.supplier ++ 0 :: bigEndian 8 g.sessionEnd.toUInt64.toNat).length = g.supplier.length + 9 := by simp
  have hcons : g.supplier ++ 0 :: bigEndian 8 g.sessionEnd.toUInt64.toNat =
      (g.supplier ++ [0]) ++ bigEndian 8 g.sessionEnd.toUInt64.toNat := by simp
  have hback := readBigEndian_bigEndian (k := 8) (n := g.sessionEnd.toUInt64.toNat) g.sessionEnd.toUInt64.toNat_lt
  rw [parseGroup, hlen, if_pos ⟨by omega, by simp⟩, show g.supplier.length + 9 - 9 = g.supplier.length by omega,
    show g.supplier.length + 9 - 8 = (g.supplier ++ [0]).length by simp, take_left, hcons, drop_left,
    hback, UInt64.ofNat_toNat, Int64.toInt64_toUInt64]
  rfl

variable {phase : RebroadcastPhase}

theorem phase_of_prefix {g : Group} (h : indexPrefix phase <+: keyOf g) : g.phase = phase := by
  obtain ⟨rest, h⟩ := h
  simp only [indexPrefix, keyOf, groupKey, rebroadcastGroupPart, append_assoc] at h
  have := (join_inj (zero_notMem_phaseName _) (zero_notMem_phaseName _) (append_cancel_left h)).1
  cases phase <;> cases hp : g.phase <;> first | rfl | (rw [hp] at this; exact absurd this (by decide))

/-! ## What is read -/

variable {ttl : Nat} {s : Store} {g : Group}

theorem expired_mono {expiry now later : Nat} (h : now ≤ later) (he : expired expiry now = true) :
    expired expiry later = true := by
  simp only [expired, decide_eq_true_eq] at he ⊢
  omega

/-- A group that is gone stays so. -/
theorem live_mono {key : Bytes} {now later : Nat} (h : now ≤ later) (hl : s.live key later = true) :
    s.live key now = true := by
  unfold Store.live at hl ⊢
  cases hk : s.groups.lookup key with
  | none => simp [hk] at hl
  | some expiry =>
    cases he : expired expiry now with
    | false => simp [he]
    | true => simp [hk, expired_mono h he] at hl

theorem lookup_scan_group (s : Store) (g : Group) (sessionID : Bytes) :
    (s.scan g).lookup sessionID = s.payloads.lookup (prefixOf g ++ sessionID) :=
  lookup_scan _ _ _

/-- What is left now is what `List` returns. -/
theorem outlook_now (s : Store) (g : Group) : outlook s g s.now = ((list s g).lookup ·) := by
  funext sessionID
  unfold outlook list
  split
  · rw [lookup_scan_group]
  · rfl

/-- The store's records of a group, and what it holds under its prefix. -/
theorem outlook_congr {s s' : Store} (hg : s.groups.lookup (keyOf g) = s'.groups.lookup (keyOf g))
    (hp : ∀ x, s.payloads.lookup (prefixOf g ++ x) = s'.payloads.lookup (prefixOf g ++ x)) (t : Nat) :
    outlook s g t = outlook s' g t := by
  unfold outlook Store.live
  rw [hg]
  simp only [hp]

theorem outlook_of_not_live {t : Nat} (hl : s.live (keyOf g) s.now = false) (ht : s.now ≤ t) : outlook s g t = nothing := by
  rw [outlook, if_neg fun h => by rw [live_mono ht h] at hl; cases hl]

theorem outlook_of_empty (t : Nat) (h : s.scan g = []) : outlook s g t = nothing := by
  unfold outlook
  split
  · funext sessionID
    rw [← lookup_scan_group, h]
    rfl
  · rfl

/-- A dropped group has neither a record nor payloads, and every other one has its own. -/
theorem lookup_drop (s : Store) (g g' : Group) (x : Bytes) :
    (s.drop g').groups.lookup (keyOf g) = (if g = g' then none else s.groups.lookup (keyOf g)) ∧
      (s.drop g').payloads.lookup (prefixOf g ++ x) = if g = g' then none else s.payloads.lookup (prefixOf g ++ x) := by
  unfold Store.drop Store.dropGroup
  rw [lookup_dropKey, lookup_filter_key fun a => !inRange (prefixOf g') (keyUpperBound (prefixOf g')) a]
  by_cases hg : g = g'
  · subst hg
    simp [inRange_prefixOf.2 rfl]
  have hk : keyOf g ≠ keyOf g' := fun hk => hg (keyOf_inj hk)
  have hr : inRange (prefixOf g') (keyUpperBound (prefixOf g')) (prefixOf g ++ x) = false :=
    Bool.eq_false_iff.2 fun hr => hg (inRange_prefixOf.1 hr).symm
  simp [hg, hk, hr]

variable {g' : Group}

theorem outlook_drop_of_ne (hg : g ≠ g') (t : Nat) : outlook (s.drop g') g t = outlook s g t :=
  outlook_congr (by rw [(lookup_drop s g g' []).1, if_neg hg]) (fun x => by rw [(lookup_drop s g g' x).2, if_neg hg]) t

theorem outlook_drop_self (s : Store) (g : Group) (t : Nat) : outlook (s.drop g) g t = nothing := by
  rw [outlook, Store.live, (lookup_drop s g g []).1, if_pos rfl]
  rfl

/-! ## What holds in every run -/

def Inv (s : Store) : Prop := ∀ e ∈ s.groups, s.groups.lookup e.1 = some e.2 ∧ ∃ g, e.1 = keyOf g

theorem Inv.dropKey {groups : List (Bytes × Nat)} {s : Store} (h : Inv s) (k : Bytes)
    (heq : groups = Lib.dropKey k s.groups) : Inv { s with groups := groups } := by
  subst heq
  intro e he
  obtain ⟨he, hne⟩ := mem_filter.1 he
  refine ⟨?_, (h e he).2⟩
  rw [lookup_dropKey, if_neg (by simpa using hne), (h e he).1]

theorem Inv.drop (h : Inv s) (g : Group) : Inv (s.drop g) := h.dropKey _ rfl

theorem Inv.put (h : Inv s) (g : Group) (sessionID payload : Bytes) : Inv (put ttl s g sessionID payload) := by
  unfold PebbleStorage.put
  generalize hs' : (if s.live (keyOf g) s.now then s else s.drop g) = s'
  have h' : Inv s' := by
    rw [← hs']
    split
    · exact h
    · exact h.drop g
  intro e he
  rw [lookup_putKey]
  rcases mem_cons.1 he with rfl | he
  · exact ⟨if_pos rfl, g, rfl⟩
  · obtain ⟨he, hne⟩ := mem_filter.1 he
    exact ⟨by rw [if_neg (by simpa using hne), (h' e he).1], (h' e he).2⟩

/-- What `ActiveGroups` goes through are the records of the phase's groups. -/
theorem Inv.index (h : Inv s) {e : RebroadcastGroup × Nat} (he : e ∈ s.index phase) :
    ∃ g, g.phase = phase ∧ e.1 = g.listed ∧ s.groups.lookup (keyOf g) = some e.2 := by
  obtain ⟨⟨key, expiry⟩, hmem, hparse⟩ := mem_filterMap.1 he
  obtain ⟨hmem, hin⟩ := mem_filter.1 hmem
  obtain ⟨hlook, g, rfl : key = keyOf g⟩ := h _ hmem
  have hphase := phase_of_prefix (inRange_keyUpperBound.1 hin)
  obtain ⟨rest, hkey, hback⟩ := parseGroup_keyOf g
  obtain ⟨group, hgroup, rfl⟩ := Option.map_eq_some_iff.1 hparse
  rw [hkey, hphase, drop_left, hback] at hgroup
  exact ⟨g, hphase, (Option.some.inj hgroup).symm, hlook⟩

/-- The expired groups go, and they are the ones that read as empty from now on. -/
theorem Inv.dropExpired (h : Inv s) (phase : RebroadcastPhase) :
    Inv (dropExpired s phase) ∧ (dropExpired s phase).now = s.now ∧
      ∀ g t, s.now ≤ t → outlook (dropExpired s phase) g t = outlook s g t := by
  unfold PebbleStorage.dropExpired
  have hdead : ∀ e ∈ (s.index phase).filter fun e => expired e.2 s.now, ∃ g : Group, g.phase = phase ∧ e.1 = g.listed ∧
      ∀ t, s.now ≤ t → outlook s g t = nothing := by
    intro e he
    obtain ⟨he, hexp⟩ := mem_filter.1 he
    obtain ⟨g, hphase, hlisted, hlook⟩ := h.index he
    refine ⟨g, hphase, hlisted, fun t ht => outlook_of_not_live ?_ ht⟩
    simp [Store.live, hlook, hexp]
  -- Each group that is dropped has nothing to lose, in the store as it was and as it is by then.
  generalize ((s.index phase).filter fun e => expired e.2 s.now) = gone at hdead
  have hfold : ∀ s' : Store, Inv s' → s'.now = s.now → (∀ g t, s.now ≤ t → outlook s' g t = outlook s g t) →
      Inv (gone.foldl (fun s e => s.dropGroup phase e.1.1 e.1.2) s') ∧
        (gone.foldl (fun s e => s.dropGroup phase e.1.1 e.1.2) s').now = s.now ∧
          ∀ g t, s.now ≤ t → outlook (gone.foldl (fun s e => s.dropGroup phase e.1.1 e.1.2) s') g t = outlook s g t := by
    induction gone with
    | nil => exact fun s' hi hn ho => ⟨hi, hn, ho⟩
    | cons e gone ih =>
      intro s' hi hn ho
      obtain ⟨g', rfl, hlisted, hnone⟩ := hdead e mem_cons_self
      rw [foldl_cons, hlisted]
      refine ih (fun e he => hdead e (mem_cons_of_mem _ he)) _ (hi.drop g') hn fun g t ht => ?_
      by_cases hg : g = g'
      · subst hg
        exact (outlook_drop_self s' g t).trans (hnone t ht).symm
      · exact (outlook_drop_of_ne hg t).trans (ho g t ht)
  exact hfold s h rfl fun _ _ _ => rfl

theorem outlook_put (s : Store) (g : Group) (sessionID payload : Bytes) (t : Nat) :
    outlook (put ttl s g sessionID payload) g t =
      if t < s.now + lifetime ttl then update (outlook s g s.now) sessionID (some payload) else nothing := by
  have hrec : (put ttl s g sessionID payload).live (keyOf g) t = decide (t < s.now + lifetime ttl) := by
    have hpos := lifetime_pos ttl
    have hnow : (if s.live (keyOf g) s.now then s else s.drop g).now = s.now := by split <;> rfl
    rw [put, Store.live, lookup_putKey, if_pos rfl, Option.any_some, hnow, expired, ← decide_not]
    simp
    omega
  rw [outlook, hrec]
  simp only [decide_eq_true_eq]
  congr 1
  funext x
  rw [put, lookup_putKey, update_apply]
  by_cases hx : x = sessionID
  · simp [hx]
  rw [if_neg fun h => hx (append_cancel_left h), if_neg hx, outlook]
  cases hl : s.live (keyOf g) s.now with
  | true => simp
  | false => simp [(lookup_drop s g g x).2, nothing]

theorem outlook_delete (s : Store) (g : Group) (sessionID : Bytes) (committed : Bool) (t : Nat) :
    outlook (delete s g sessionID committed) g t = update (outlook s g t) sessionID none := by
  have hdel : outlook { s with payloads := dropKey (prefixOf g ++ sessionID) s.payloads } g t =
      update (outlook s g t) sessionID none := by
    unfold outlook Store.live
    split
    · funext x
      rw [lookup_dropKey, update_apply]
      by_cases hx : x = sessionID
      · simp [hx]
      · rw [if_neg fun h => hx (append_cancel_left h), if_neg hx]
    · rw [update_nothing]
  unfold delete
  dsimp only
  split
  next he => rw [outlook_drop_self, ← hdel, outlook_of_empty t he.1]
  · exact hdel

/-! ## The store does as it is asked -/

theorem Inv.delete (h : Inv s) (g : Group) (sessionID : Bytes) (committed : Bool) :
    Inv (delete s g sessionID committed) ∧ (PebbleStorage.delete s g sessionID committed).now = s.now := by
  have hdel : Inv { s with payloads := Lib.dropKey (prefixOf g ++ sessionID) s.payloads } := h
  unfold PebbleStorage.delete
  dsimp only
  split
  · exact ⟨hdel.drop g, rfl⟩
  · exact ⟨h, rfl⟩

theorem outlook_delete_of_ne (hg : g ≠ g') (sessionID : Bytes) (committed : Bool) (t : Nat) :
    outlook (delete s g' sessionID committed) g t = outlook s g t := by
  have hdel : outlook { s with payloads := dropKey (prefixOf g' ++ sessionID) s.payloads } g t = outlook s g t := by
    apply outlook_congr
    · rfl
    intro x
    rw [lookup_dropKey, if_neg fun h => hg (prefixOf_inj h).1]
  unfold delete
  dsimp only
  split
  · rw [outlook_drop_of_ne hg, hdel]
  · exact hdel

theorem outlook_put_of_ne (hg : g ≠ g') (sessionID payload : Bytes) (t : Nat) :
    outlook (put ttl s g' sessionID payload) g t = outlook s g t := by
  have hold : outlook (if s.live (keyOf g') s.now then s else s.drop g') g t = outlook s g t := by
    split
    · rfl
    · exact outlook_drop_of_ne hg t
  rw [← hold, put]
  refine outlook_congr ?_ (fun x => ?_) t
  · rw [lookup_putKey, if_neg fun h => hg (keyOf_inj h)]
  · rw [lookup_putKey, if_neg fun h => hg (prefixOf_inj h).1]

/-- What is cleaned up has nothing to return. -/
theorem Inv.cleanupIfEmpty (h : Inv s) (g : Group) (committed : Bool) :
    Inv (cleanupIfEmpty s g committed) ∧ (PebbleStorage.cleanupIfEmpty s g committed).now = s.now ∧
      ∀ g' t, s.now ≤ t → outlook (PebbleStorage.cleanupIfEmpty s g committed) g' t = outlook s g' t := by
  unfold PebbleStorage.cleanupIfEmpty
  split
  · exact ⟨h, rfl, fun _ _ _ => rfl⟩
  next hkeep =>
    split
    · refine ⟨h.drop g, rfl, fun g' t ht => ?_⟩
      by_cases hg : g' = g
      · subst hg
        rw [outlook_drop_self]
        by_cases hl : s.live (keyOf g') s.now = true
        · rw [outlook_of_empty t (not_not.1 (not_and.1 hkeep hl))]
        · rw [outlook_of_not_live (Bool.eq_false_iff.2 hl) ht]
      · exact outlook_drop_of_ne hg t
    · exact ⟨h, rfl, fun _ _ _ => rfl⟩

theorem refines (ttl : Nat) : Refines (fun t d => decide (t < d)) ttl Inv Store.now outlook (step ttl) where
  inv s a h := by
    cases a with
    | put g sessionID payload => exact h.put g sessionID payload
    | delete g sessionID committed => exact (h.delete g sessionID committed).1
    | cleanupIfEmpty g committed => exact (h.cleanupIfEmpty g committed).1
    | activeGroups phase committed =>
      cases committed with
      | true => exact (h.dropExpired phase).1
      | false => exact h
    | wait ms => exact h
  ticks s a h := by
    cases a with
    | put g sessionID payload =>
      show (if s.live (keyOf g) s.now then s else s.drop g).now = s.now
      split <;> rfl
    | delete g sessionID committed => exact (h.delete g sessionID committed).2
    | cleanupIfEmpty g committed => exact (h.cleanupIfEmpty g committed).2.1
    | activeGroups phase committed =>
      cases committed with
      | true => exact (h.dropExpired phase).2.1
      | false => rfl
    | wait ms => rfl
  acts s a g t h ht := by
    cases a with
    | put g' sessionID payload =>
      by_cases hg : g' = g
      · subst hg
        simpa [Op.effect, step] using outlook_put s g' sessionID payload t
      · rw [Op.effect, if_neg hg]
        exact outlook_put_of_ne (Ne.symm hg) sessionID payload t
    | delete g' sessionID committed =>
      by_cases hg : g' = g
      · subst hg
        simpa [Op.effect, step] using outlook_delete s g' sessionID committed t
      · rw [Op.effect, if_neg hg]
        exact outlook_delete_of_ne (Ne.symm hg) sessionID committed t
    | cleanupIfEmpty g' committed => exact (h.cleanupIfEmpty g' committed).2.2 g t ht
    | activeGroups phase committed =>
      cases committed with
      | true => exact (h.dropExpired phase).2.2 g t ht
      | false => rfl
    | wait ms => rfl

/-- The group of every payload that `List` returns is one that `ActiveGroups` does. -/
theorem listed_active {sessionID payload : Bytes} (hl : (list s g).lookup sessionID = some payload) :
    g.listed ∈ activeGroups s g.phase := by
  cases hlive : s.live (keyOf g) s.now with
  | false => simp [list, hlive] at hl
  | true =>
    cases hrec : s.groups.lookup (keyOf g) with
    | none => simp [Store.live, hrec] at hlive
    | some expiry =>
      obtain ⟨pre, post, hgroups, -⟩ := lookup_eq_some_iff.1 hrec
      obtain ⟨rest, hkey, hback⟩ := parseGroup_keyOf g
      have hin : inRange (indexPrefix g.phase) (keyUpperBound (indexPrefix g.phase)) (keyOf g) = true :=
        inRange_keyUpperBound.2 ⟨rest, hkey.symm⟩
      have hmem : (keyOf g, expiry) ∈ s.groups := by simp [hgroups]
      have hindex : (g.listed, expiry) ∈ s.index g.phase := by
        refine mem_filterMap.2 ⟨_, mem_filter.2 ⟨hmem, hin⟩, ?_⟩
        rw [hkey, drop_left, hback]
        rfl
      refine mem_map.2 ⟨_, mem_filter.2 ⟨hindex, ?_⟩, rfl⟩
      simpa [Store.live, hrec] using hlive

/-! ## The two stores side by side -/

structure Pair where
  redis : RedisStorage.Keyspace
  pebble : Store

def Pair.empty (now : Nat) : Pair := ⟨{ now := now }, { now := now }⟩

section

variable (base : Bytes) (ttl : Nat)

def Pair.step (p : Pair) (a : Op) : Pair := ⟨RedisStorage.step base ttl p.redis a, PebbleStorage.step ttl p.pebble a⟩

def Pair.Same (p : Pair) (g : Group) : Prop :=
  ∀ sessionID, (RedisStorage.list base p.redis g).lookup sessionID = (list p.pebble g).lookup sessionID

def Pair.Ending (p : Pair) (g : Group) : Prop := RedisStorage.expiry base p.redis g = some p.redis.now

/-- No `Put` of a group comes in the last millisecond of its lifetime. -/
def Timely (p : Pair) : Op → Prop
  | .put g _ _ => ¬ p.Ending base g
  | _ => True

instance (p : Pair) (g : Group) : Decidable (p.Ending base g) := inferInstanceAs (Decidable (_ = _))

instance (p : Pair) : ∀ a, Decidable (Timely base p a)
  | .put g _ _ => inferInstanceAs (Decidable (¬ p.Ending base g))
  | .delete _ _ _ | .cleanupIfEmpty _ _ | .activeGroups _ _ | .wait _ => isTrue trivial

end

variable {base : Bytes} {p : Pair}

structure Agree (base : Bytes) (ttl : Nat) (p : Pair) : Prop where
  redis : RedisStorage.Inv base ttl p.redis
  pebble : Inv p.pebble
  now : p.pebble.now = p.redis.now
  outlook : ∀ g t, p.redis.now ≤ t → outlook p.pebble g t =
    if RedisStorage.expiry base p.redis g = some t then nothing else RedisStorage.outlook base p.redis g t

theorem Agree.step (h : Agree base ttl p) (a : Op) (ha : Timely base p a) : Agree base ttl (p.step base ttl a) := by
  have hr := RedisStorage.refines base ttl
  have hp := refines ttl
  have htick := hr.ticks p.redis a h.redis
  refine ⟨hr.inv _ a h.redis, hp.inv _ a h.pebble, ?_, fun g t ht => ?_⟩
  · show (PebbleStorage.step ttl p.pebble a).now = (RedisStorage.step base ttl p.redis a).now
    rw [hp.ticks _ a h.pebble, htick, h.now]
  have ht : p.redis.now + a.elapsed ≤ t := htick ▸ ht
  show PebbleStorage.outlook (PebbleStorage.step ttl p.pebble a) g t =
    if RedisStorage.expiry base (RedisStorage.step base ttl p.redis a) g = some t then nothing
    else RedisStorage.outlook base (RedisStorage.step base ttl p.redis a) g t
  have hpeb := hp.acts p.pebble a g t h.pebble (h.now ▸ ht)
  have hred := hr.acts p.redis a g t h.redis ht
  have hold := h.outlook g
  rw [h.now] at hpeb
  by_cases hput : ∃ sessionID payload, a = .put g sessionID payload
  · obtain ⟨sessionID, payload, rfl⟩ := hput
    have hsame : PebbleStorage.outlook p.pebble g p.redis.now = RedisStorage.outlook base p.redis g p.redis.now := by
      rw [hold _ (Nat.le_refl _)]
      exact if_neg ha
    rw [hpeb, hred, RedisStorage.step, RedisStorage.expiry_put]
    simp only [Op.effect, if_true, hsame, decide_eq_true_eq, Option.some.injEq]
    by_cases hlast : p.redis.now + lifetime ttl = t
    · rw [if_pos hlast, if_neg (by omega)]
    · rw [if_neg hlast]
      exact if_congr (by omega) rfl rfl
  obtain ⟨F, hF, hact⟩ := Op.effect_of_ne_put fun sessionID payload heq => hput ⟨sessionID, payload, heq⟩
  rw [hpeb, hact, hold t (by omega)]
  rw [hact] at hred
  have hexpiry : RedisStorage.expiry base (RedisStorage.step base ttl p.redis a) g = RedisStorage.expiry base p.redis g ∨
      ∀ t, RedisStorage.outlook base (RedisStorage.step base ttl p.redis a) g t = nothing :=
    RedisStorage.expiry_step fun s p heq => hput ⟨s, p, heq⟩
  rcases hexpiry with hexp | hgone
  · rw [hexp, hred]
    split
    · exact hF
    · rfl
  rw [hgone] at hred ⊢
  rw [ite_self]
  split
  · exact hF
  · exact hred.symm

/-- The last millisecond of the lifetime is the only time at which the two return something else of the group. -/
theorem Agree.same_iff (h : Agree base ttl p) (g : Group) : p.Same base g ↔ ¬ p.Ending base g := by
  have hlist : ((list p.pebble g).lookup ·) =
      if p.Ending base g then nothing else ((RedisStorage.list base p.redis g).lookup ·) := by
    rw [← outlook_now, h.now]
    exact h.outlook g _ (Nat.le_refl _)
  constructor
  · intro hsame hend
    rw [if_pos hend] at hlist
    refine h.redis.list_of_expiry hend (funext fun sessionID => ?_)
    exact (hsame sessionID).trans (congrFun hlist sessionID)
  intro hend sessionID
  rw [if_neg hend] at hlist
  exact (congrFun hlist sessionID).symm

theorem agree_empty (base : Bytes) (ttl now : Nat) : Agree base ttl (Pair.empty now) where
  redis g t ht := by cases ht
  pebble e he := by cases he
  now := rfl
  outlook g t _ := rfl

theorem run_pair (p : Pair) (ops : List Op) :
    run (Pair.step base ttl) p ops = ⟨run (RedisStorage.step base ttl) p.redis ops, run (step ttl) p.pebble ops⟩ := by
  induction ops generalizing p with
  | nil => rfl
  | cons a ops ih => exact ih _

/-- In every run, the group of every payload that `List` returns is one that `ActiveGroups` does, and the payload is
there as it would be had nothing been done to another group, in both stores. While no `Put` of a group comes in the last
millisecond of its lifetime, both return the same of every group except in that millisecond. -/
theorem rebroadcast_stores_agree (base : Bytes) (ttl now : Nat) (ops : List Op) (g : Group) :
    let p := run (Pair.step base ttl) (Pair.empty now) ops
    let alone := run (Pair.step base ttl) (Pair.empty now) (ops.filter (·.concerns g))
    (∀ sessionID payload,
      ((RedisStorage.list base p.redis g).lookup sessionID = some payload →
        g.listed ∈ RedisStorage.activeGroups base p.redis g.phase) ∧
      ((list p.pebble g).lookup sessionID = some payload → g.listed ∈ activeGroups p.pebble g.phase)) ∧
    (∀ sessionID,
      (RedisStorage.list base p.redis g).lookup sessionID = (RedisStorage.list base alone.redis g).lookup sessionID ∧
      (list p.pebble g).lookup sessionID = (list alone.pebble g).lookup sessionID) ∧
    (Meets (Pair.step base ttl) (Timely base) (Pair.empty now) ops → (p.Same base g ↔ ¬ p.Ending base g)) := by
  have h0 := agree_empty base ttl now
  have hr := RedisStorage.refines base ttl
  refine ⟨fun sessionID payload => ⟨fun hl => ?_, listed_active⟩, fun sessionID => ?_, fun hm => ?_⟩
  · rw [run_pair] at hl ⊢
    exact (inv_of_run _ hr.inv ops h0.redis).listed_active hl
  · have hpebble := (refines ttl).isolated h0.pebble g ops
    rw [outlook_now, outlook_now] at hpebble
    rw [run_pair, run_pair]
    exact ⟨congrFun (hr.isolated h0.redis g ops) sessionID, congrFun hpebble sessionID⟩
  · exact (inv_of_meets _ (fun _ a h ha => h.step a ha) h0 hm).same_iff g

def batch : Group := ⟨.claim, ascii "pokt1supplier", 60, by decide⟩

def batchOps (ms : Nat) : List Op := [.put batch [1] [10], .wait ms, .put batch [2] [20], .wait 1]

theorem batch_renewed_alike :
    let p := run (Pair.step (ascii "ha") 0) (Pair.empty 0) (batchOps 3599999)
    p.Same (ascii "ha") batch ∧ (list p.pebble batch).lookup [1] = some [10] :=
  ⟨((rebroadcast_stores_agree (ascii "ha") 0 0 (batchOps 3599999) batch).2.2 (by decide)).2 (by decide), by decide⟩

/-- The second `Put` comes as the lifetime ends: Redis keeps the first payload for another hour, the embedded store has
dropped it. -/
theorem batch_renewed_at_its_end :
    let p := run (Pair.step (ascii "ha") 0) (Pair.empty 0) (batchOps 3600000)
    (RedisStorage.list (ascii "ha") p.redis batch).lookup [1] = some [10] ∧ (list p.pebble batch).lookup [1] = none := by
  decide

end RelayMiner.Inclusion.PebbleStorage
