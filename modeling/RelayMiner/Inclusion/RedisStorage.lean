import RelayMiner.Inclusion.Storage
import RelayMiner.Lib.Content
import RelayMiner.Lib.Tasks
import RelayMiner.Lib.Text
/-!
# `RebroadcastStore`

The Redis store: a hash of payloads for each group and, for each phase, the set
of its groups' names, each key with a lifetime of its own. `Put` is one
transaction and the others are one script, so the server runs each at one time.
A key is gone once the clock is past its lifetime, and with its last field or
member. A group's name has a colon and `index` has none, so no key of a hash is
one of a set and the two kinds are apart here.
-/
open RelayMiner.Lib Function

namespace RelayMiner.Inclusion.RedisStorage

open List

open Storage

/-! ## The server -/

structure Keyspace where
  now : Nat := 0
  hashes : Bytes → Option (Timed (List (Bytes × Bytes))) := fun _ => none
  sets : Bytes → Option (Timed (List Bytes)) := fun _ => none

def Keyspace.hgetall (s : Keyspace) (k : Bytes) : List (Bytes × Bytes) := (live s.now (s.hashes k)).getD []

def Keyspace.smembers (s : Keyspace) (k : Bytes) : List Bytes := (live s.now (s.sets k)).getD []

def shrink {α : Type} (now : Nat) (rest : List α → List α) (t : Option (Timed (List α))) : Option (Timed (List α)) :=
  (t.filter fun t => decide (now ≤ t.deadline) && !(rest t.value).isEmpty).map fun t => ⟨rest t.value, t.deadline⟩

def Keyspace.hdel (s : Keyspace) (k field : Bytes) : Keyspace :=
  { s with hashes := update s.hashes k (shrink s.now (dropKey field) (s.hashes k)) }

def Keyspace.srem (s : Keyspace) (k member : Bytes) : Keyspace :=
  { s with sets := update s.sets k (shrink s.now (·.filter (· ≠ member)) (s.sets k)) }

/-! ## The store -/

def phaseName : RebroadcastPhase → Bytes
  | .claim => ascii "claim"
  | .proof => ascii "proof"

section

variable (base : Bytes)

def phaseKey (phase : RebroadcastPhase) : Bytes :=
  base ++ ascii ":miner:rebroadcast:\x7b" ++ phaseName phase ++ ascii "\x7d:"

def indexMember (g : Group) : Bytes := g.supplier ++ byteOf ':' :: formatInt g.sessionEnd

def groupKey (g : Group) : Bytes := phaseKey base g.phase ++ indexMember g

def indexKey (phase : RebroadcastPhase) : Bytes := phaseKey base phase ++ ascii "index"

def parseMember (m : Bytes) : Option RebroadcastGroup :=
  (cutLast (byteOf ':') m).bind fun (supplier, digits) => (parseInt digits).map fun sessionEnd => (supplier, sessionEnd)

variable (ttl : Nat)

def put (s : Keyspace) (g : Group) (sessionID payload : Bytes) : Keyspace :=
  let gk := groupKey base g
  let ik := indexKey base g.phase
  { s with
    hashes := update s.hashes gk (timed s.now (lifetime ttl) (putKey sessionID payload (s.hgetall gk)))
    sets := update s.sets ik (timed s.now (lifetime ttl) ((s.smembers ik).insert (indexMember g))) }

def list (s : Keyspace) (g : Group) : List (Bytes × Bytes) := s.hgetall (groupKey base g)

def delete (s : Keyspace) (g : Group) (sessionID : Bytes) : Keyspace :=
  let s := s.hdel (groupKey base g) sessionID
  if (s.hgetall (groupKey base g)).length = 0 then s.srem (indexKey base g.phase) (indexMember g) else s

def cleanupIfEmpty (s : Keyspace) (g : Group) : Keyspace :=
  if live s.now (s.hashes (groupKey base g)) = none then s.srem (indexKey base g.phase) (indexMember g) else s

def activeGroups (s : Keyspace) (phase : RebroadcastPhase) : List RebroadcastGroup :=
  (s.smembers (indexKey base phase)).filterMap parseMember

def step (s : Keyspace) : Op → Keyspace
  | .put g sessionID payload => put base ttl s g sessionID payload
  | .delete g sessionID _ => delete base s g sessionID
  | .cleanupIfEmpty g _ => cleanupIfEmpty base s g
  | .activeGroups _ _ => s
  | .wait ms => { s with now := s.now + ms }

def outlook (s : Keyspace) (g : Group) : Outlook := fun t =>
  (((live t (s.hashes (groupKey base g))).getD []).lookup ·)

def expiry (s : Keyspace) (g : Group) : Option Nat := (s.hashes (groupKey base g)).map (·.deadline)

end

/-! ## Keys and members -/

variable {base : Bytes}

theorem parseMember_indexMember (g : Group) : parseMember (indexMember g) = some g.listed := by
  rw [parseMember, indexMember, cutLast_join _ (colon_notMem_formatInt _)]
  simp [parseInt_formatInt, Group.listed]

theorem indexMember_inj {g g' : Group} (hphase : g.phase = g'.phase) (h : indexMember g = indexMember g') : g = g' := by
  refine Group.ext_listed hphase (Option.some.inj ?_)
  rw [← parseMember_indexMember, h, parseMember_indexMember]

/-- The phases differ in their first letter. -/
theorem phaseKey_inj {phase phase' : RebroadcastPhase} {x y : Bytes}
    (h : phaseKey base phase ++ x = phaseKey base phase' ++ y) : phase = phase' ∧ x = y := by
  unfold phaseKey at h
  cases phase <;> cases phase' <;> simp only [append_assoc, append_cancel_left_eq] at h
  · exact ⟨rfl, h⟩
  · exact absurd (append_inj_left h rfl) (by decide)
  · exact absurd (append_inj_left h rfl) (by decide)
  · exact ⟨rfl, h⟩

theorem groupKey_inj {g g' : Group} (h : groupKey base g = groupKey base g') : g = g' :=
  indexMember_inj (phaseKey_inj h).1 (phaseKey_inj h).2

/-! ## What a removal leaves -/

section

variable {α : Type} {now : Nat} {rest : List α → List α} {t : Option (Timed (List α))}

theorem shrink_some {v : List α} {d : Nat} (hd : now ≤ d) (hr : rest v ≠ []) :
    shrink now rest (some ⟨v, d⟩) = some ⟨rest v, d⟩ := by
  simp [shrink, Option.filter, hd, hr]

theorem shrink_eq_some {t' : Timed (List α)} (h : shrink now rest t = some t') :
    t = some ⟨((t.map (·.value)).getD []), t'.deadline⟩ ∧ t'.value = rest ((t.map (·.value)).getD []) ∧ t'.value ≠ [] := by
  obtain ⟨u, hu, rfl⟩ := Option.map_eq_some_iff.1 h
  simp_all

/-- A key with nothing left reads as one that has no field. -/
theorem live_shrink {later : Nat} (h : now ≤ later) (hnil : rest [] = []) :
    (live later (shrink now rest t)).getD [] = rest ((live later t).getD []) := by
  cases t with
  | none => exact hnil.symm
  | some t =>
    obtain ⟨v, d⟩ := t
    by_cases hd : later ≤ d
    · have hnow : now ≤ d := Nat.le_trans h hd
      by_cases hr : rest v = [] <;> simp [shrink, Option.filter, live, hd, hnow, hr]
    · by_cases hnow : now ≤ d <;> by_cases hr : rest v = [] <;> simp [shrink, Option.filter, live, hd, hnow, hr, hnil]

end

/-! ## What holds in every run -/

section

variable (base) (ttl : Nat)

def Indexed (s : Keyspace) (g : Group) (d : Nat) : Prop :=
  ∃ t, s.sets (indexKey base g.phase) = some t ∧ d ≤ t.deadline ∧ indexMember g ∈ t.value

def Inv (s : Keyspace) : Prop :=
  ∀ g t, s.hashes (groupKey base g) = some t →
    t.value ≠ [] ∧ t.deadline ≤ s.now + lifetime ttl ∧ (s.now ≤ t.deadline → Indexed base s g t.deadline)

end

variable {ttl : Nat} {s : Keyspace} {g : Group}

theorem timed_eq_some {α : Type} {now : Nat} {v : α} :
    timed now (lifetime ttl) v = some ⟨v, now + lifetime ttl⟩ := by
  rw [timed, if_neg (Nat.ne_of_gt (lifetime_pos ttl))]

section
variable (h : Inv base ttl s)
include h

/-- The new index lives as long as anything that is there, and keeps the members of one that still lives. -/
theorem Inv.put (g : Group) (sessionID payload : Bytes) :
    Inv base ttl (put base ttl s g sessionID payload) := by
  intro g' t ht
  have hindexed : ∀ d, d ≤ s.now + lifetime ttl → (g' = g ∨ s.now ≤ d ∧ Indexed base s g' d) →
      Indexed base (RedisStorage.put base ttl s g sessionID payload) g' d := by
    intro d hd hg'
    unfold Indexed RedisStorage.put
    by_cases hik : indexKey base g'.phase = indexKey base g.phase
    · refine ⟨_, by rw [hik]; simpa using timed_eq_some, hd, mem_insert_iff.2 ?_⟩
      rcases hg' with rfl | ⟨hnow, t, ht, hdt, hmem⟩
      · exact .inl rfl
      · have hlive := live_eq_some.2 ⟨t.deadline, hik ▸ ht, Nat.le_trans hnow hdt⟩
        exact .inr (by simpa [Keyspace.smembers, hlive] using hmem)
    rcases hg' with rfl | ⟨-, hix⟩
    · exact absurd rfl hik
    · simpa [Indexed, hik] using hix
  by_cases hg : g' = g
  · subst hg
    obtain rfl : _ = t := by simpa [RedisStorage.put, timed_eq_some] using ht
    exact ⟨by simp [putKey], Nat.le_refl _, fun _ => hindexed _ (Nat.le_refl _) (.inl rfl)⟩
  have hne : groupKey base g' ≠ groupKey base g := fun hk => hg (groupKey_inj hk)
  obtain ⟨hv, hd, hix⟩ := h g' t (by simpa [RedisStorage.put, hne] using ht)
  exact ⟨hv, hd, fun hnow => hindexed _ hd (.inr ⟨hnow, hix hnow⟩)⟩

/-- A group may be taken off the index once its hash is gone. -/
theorem Inv.srem (hg : live s.now (s.hashes (groupKey base g)) = none) :
    Inv base ttl (s.srem (indexKey base g.phase) (indexMember g)) := by
  intro g' t ht
  obtain ⟨hv, hd, hix⟩ := h g' t ht
  refine ⟨hv, hd, fun hnow => ?_⟩
  obtain ⟨i, hi, hdi, hmem⟩ := hix hnow
  by_cases hik : indexKey base g'.phase = indexKey base g.phase
  · have hne : indexMember g' ≠ indexMember g := by
      intro hm
      obtain rfl := indexMember_inj (phaseKey_inj hik).1 hm
      have hlive : live s.now (s.hashes (groupKey base g')) = some t.value := live_eq_some.2 ⟨t.deadline, ht, hnow⟩
      rw [hg] at hlive
      cases hlive
    have hkeep : indexMember g' ∈ i.value.filter (· ≠ indexMember g) := mem_filter.2 ⟨hmem, by simpa using hne⟩
    have hnow' : s.now ≤ i.deadline := Nat.le_trans hnow hdi
    refine ⟨⟨i.value.filter (· ≠ indexMember g), i.deadline⟩, ?_, hdi, hkeep⟩
    show update s.sets _ _ (indexKey base g'.phase) = _
    rw [hik, update_self, ← hik, hi]
    exact shrink_some hnow' (ne_nil_of_mem hkeep)
  · exact ⟨i, by simpa [Keyspace.srem, hik] using hi, hdi, hmem⟩

theorem Inv.hdel (g : Group) (sessionID : Bytes) :
    Inv base ttl (s.hdel (groupKey base g) sessionID) := by
  intro g' t ht
  by_cases hg : g' = g
  · subst hg
    have hleft : shrink s.now (dropKey sessionID) (s.hashes (groupKey base g')) = some t := by
      simpa [Keyspace.hdel] using ht
    obtain ⟨hold, -, hv⟩ := shrink_eq_some hleft
    exact ⟨hv, (h g' _ hold).2⟩
  · have hne : groupKey base g' ≠ groupKey base g := fun hk => hg (groupKey_inj hk)
    exact h g' t (by simpa [Keyspace.hdel, hne] using ht)

theorem Inv.delete (g : Group) (sessionID : Bytes) : Inv base ttl (delete base s g sessionID) := by
  have hdel := h.hdel g sessionID
  unfold RedisStorage.delete
  dsimp only
  split
  next hlen =>
    refine hdel.srem ?_
    -- A hash that is there has a field, so one of length zero is gone.
    cases hlive : live (s.hdel (groupKey base g) sessionID).now
      ((s.hdel (groupKey base g) sessionID).hashes (groupKey base g)) with
    | none => rfl
    | some v =>
      obtain ⟨d, ht, -⟩ := live_eq_some.1 hlive
      refine absurd (length_eq_zero_iff.1 ?_) (hdel g _ ht).1
      simpa [Keyspace.hgetall, hlive] using hlen
  · exact hdel

theorem Inv.step (a : Op) : Inv base ttl (step base ttl s a) := by
  cases a with
  | put g sessionID payload => exact h.put g sessionID payload
  | delete g sessionID committed => exact h.delete g sessionID
  | cleanupIfEmpty g committed =>
    show Inv base ttl (RedisStorage.cleanupIfEmpty base s g)
    unfold RedisStorage.cleanupIfEmpty
    split
    · exact h.srem ‹_›
    · exact h
  | activeGroups phase committed => exact h
  | wait ms =>
    intro g t ht
    obtain ⟨hv, hd, hix⟩ := h g t ht
    have hlater : s.now ≤ s.now + ms := Nat.le_add_right _ _
    exact ⟨hv, Nat.le_trans hd (Nat.add_le_add_right hlater _), fun hnow => hix (Nat.le_trans hlater hnow)⟩
end

/-! ## The store does as it is asked -/

/-- Whether or not the group is taken off the index, its hash is what the `HDEL` left. -/
theorem delete_hashes (s : Keyspace) (g : Group) (sessionID : Bytes) :
    (delete base s g sessionID).hashes = (s.hdel (groupKey base g) sessionID).hashes ∧
      (delete base s g sessionID).now = s.now := by
  unfold delete
  dsimp only
  split <;> exact ⟨rfl, rfl⟩

theorem cleanupIfEmpty_hashes (s : Keyspace) (g : Group) :
    (cleanupIfEmpty base s g).hashes = s.hashes ∧ (cleanupIfEmpty base s g).now = s.now := by
  unfold cleanupIfEmpty
  split <;> exact ⟨rfl, rfl⟩

theorem outlook_congr {s s' : Keyspace} (h : s.hashes (groupKey base g) = s'.hashes (groupKey base g)) (t : Nat) :
    outlook base s g t = outlook base s' g t := by
  funext k
  rw [outlook, outlook, h]

theorem outlook_put (s : Keyspace) (g : Group) (sessionID payload : Bytes) (t : Nat) :
    outlook base (put base ttl s g sessionID payload) g t =
      if t ≤ s.now + lifetime ttl then update (outlook base s g s.now) sessionID (some payload) else nothing := by
  funext k
  simp only [outlook, put, update_self, timed_eq_some, live, Option.bind_some]
  split
  · rw [Option.getD_some, lookup_putKey, update_apply]
    rfl
  · rfl

theorem outlook_delete (s : Keyspace) (g : Group) (sessionID : Bytes) {t : Nat} (ht : s.now ≤ t) :
    outlook base (delete base s g sessionID) g t = update (outlook base s g t) sessionID none := by
  funext k
  simp only [outlook, (delete_hashes s g sessionID).1, Keyspace.hdel, update_self]
  rw [live_shrink ht rfl, lookup_dropKey, update_apply]
  rfl

theorem refines (base : Bytes) (ttl : Nat) :
    Refines (fun t d => decide (t ≤ d)) ttl (Inv base ttl) Keyspace.now (outlook base) (step base ttl) where
  inv s a h := h.step a
  ticks s a _ := by
    cases a with
    | delete g sessionID committed => exact (delete_hashes s g sessionID).2
    | cleanupIfEmpty g committed => exact (cleanupIfEmpty_hashes s g).2
    | _ => rfl
  acts s a g t _ ht := by
    cases a with
    | put g' sessionID payload =>
      by_cases hg : g' = g
      · subst hg
        simpa [Op.effect, step] using outlook_put s g' sessionID payload t
      have hne : groupKey base g ≠ groupKey base g' := fun hk => hg (groupKey_inj hk).symm
      rw [Op.effect, if_neg hg]
      exact outlook_congr (update_of_ne hne _ _) t
    | delete g' sessionID committed =>
      by_cases hg : g' = g
      · subst hg
        simpa [Op.effect, step] using outlook_delete s g' sessionID ht
      have hne : groupKey base g ≠ groupKey base g' := fun hk => hg (groupKey_inj hk).symm
      rw [Op.effect, if_neg hg]
      refine outlook_congr ?_ t
      rw [step, (delete_hashes s g' sessionID).1]
      exact update_of_ne hne _ _
    | cleanupIfEmpty g' committed => exact outlook_congr (by rw [step, (cleanupIfEmpty_hashes s g').1]) t
    | activeGroups | wait => rfl

/-! ## Lifetimes and the index -/

theorem expiry_put (s : Keyspace) (g : Group) (sessionID payload : Bytes) :
    expiry base (put base ttl s g sessionID payload) g = some (s.now + lifetime ttl) := by
  simp [expiry, put, timed_eq_some]

/-- Nothing but a `Put` moves the end of a group's lifetime, unless it leaves nothing of the group. -/
theorem expiry_step {a : Op} (ha : ∀ sessionID payload, a ≠ .put g sessionID payload) :
    expiry base (step base ttl s a) g = expiry base s g ∨ ∀ t, outlook base (step base ttl s a) g t = nothing := by
  cases a with
  | put g' sessionID payload =>
    have hne : groupKey base g ≠ groupKey base g' := fun hk => ha sessionID payload (by rw [groupKey_inj hk])
    exact .inl (by simp [expiry, step, put, hne])
  | delete g' sessionID committed =>
    unfold expiry outlook
    simp only [step, (delete_hashes s g' sessionID).1, Keyspace.hdel]
    by_cases hk : groupKey base g = groupKey base g'
    · rw [hk, update_self]
      cases hs : shrink s.now (dropKey sessionID) (s.hashes (groupKey base g')) with
      | none => exact .inr fun t => rfl
      | some t =>
        rw [(shrink_eq_some hs).1]
        exact .inl rfl
    · exact .inl (by rw [update_of_ne hk])
  | cleanupIfEmpty g' committed => exact .inl (by simp [expiry, step, (cleanupIfEmpty_hashes s g').1])
  | activeGroups | wait => exact .inl rfl

/-- A group whose lifetime ends now still has a payload. -/
theorem Inv.list_of_expiry (h : Inv base ttl s) (he : expiry base s g = some s.now) :
    outlook base s g s.now ≠ nothing := by
  obtain ⟨⟨v, d⟩, ht, rfl⟩ := Option.map_eq_some_iff.1 he
  obtain ⟨⟨k, payload⟩, rest, rfl⟩ := exists_cons_of_ne_nil (h g _ ht).1
  intro hn
  have hk := congrFun hn k
  simp [outlook, ht, live, nothing] at hk

/-- The group of every payload that `List` returns is one that `ActiveGroups` does. -/
theorem Inv.listed_active (h : Inv base ttl s) {sessionID payload : Bytes}
    (hl : (list base s g).lookup sessionID = some payload) : g.listed ∈ activeGroups base s g.phase := by
  cases hlive : live s.now (s.hashes (groupKey base g)) with
  | none => simp [list, Keyspace.hgetall, hlive] at hl
  | some v =>
    obtain ⟨d, ht, hnow⟩ := live_eq_some.1 hlive
    obtain ⟨i, hi, hdi, hmem⟩ := (h g _ ht).2.2 hnow
    have hset : live s.now (s.sets (indexKey base g.phase)) = some i.value :=
      live_eq_some.2 ⟨i.deadline, hi, Nat.le_trans hnow hdi⟩
    refine mem_filterMap.2 ⟨indexMember g, ?_, parseMember_indexMember g⟩
    simpa [Keyspace.smembers, hset] using hmem

end RelayMiner.Inclusion.RedisStorage
