import RelayMiner.Session.Redis
/-!
# The next owner finds every session

`GetBySupplier` reads the supplier's set and then each session it names. It
finds every session whose hash is there as long as the set is written together
with each new hash, outlives every hash, and the reads it is made of are
answered; none of which the store sees to.
-/
open RelayMiner.Lib

namespace RelayMiner.Session.Redis

variable {κ ι : Type} [DecidableEq κ] {ttl : Nat} {s : Keyspace κ ι} {t : Nat} {r : Row ι} {id : κ} {c : Cmd κ ι}
  {es : List Round}

def Listed (x : Option κ) (s : Keyspace κ ι) : Prop := ∀ id r, some id ≠ x → s.row id = some r → id ∈ s.members

def Lasts (x : Option κ) (s : Keyspace κ ι) (t : Nat) : Prop :=
  (∃ i ∈ s.index, s.now + t ≤ i.deadline) ∨ ∀ id, some id ≠ x → (s.wait t).row id = none

def Cmd.completes : Cmd κ ι → Option κ
  | .index id => some id
  | _ => none

/-- The set does not expire before the hashes; a creation is answered and listed; a read of the listing is answered. -/
def Careful (s : Keyspace κ ι) (c : Cmd κ ι) (e : Round) : Prop :=
  Lasts c.completes s e.wait ∧
    match c with
    | .create id _ => e.fault = .lost → (s.wait e.wait).row id ≠ none
    | .index _ => e.fault ≠ .refused
    | .fetch id => (s.wait e.wait).row id ≠ none → e.fault = .ok
    | _ => True

/-- The process does not die between a creation and its listing. -/
def MayDie (_ : Keyspace κ ι) (c : Cmd κ ι) : Prop := c.completes = none

/-! ## Time -/

omit [DecidableEq κ] in
theorem row_of_wait (h : (s.wait t).row id = some r) : s.row id = some r :=
  live_of_le (Nat.le_add_right s.now t) h

omit [DecidableEq κ] in
theorem Listed.wait {x : Option κ} (h : Listed x s) (ht : Lasts x s t) : Listed x (s.wait t) := by
  intro id r hx hr
  rcases ht with ⟨i, hi, hle⟩ | hgone
  · have hmem := h id r hx (row_of_wait hr)
    have hnow : live s.now s.index = some i.value := live_eq_some.2 ⟨i.deadline, hi, by omega⟩
    have hlater : live (s.now + t) s.index = some i.value := live_eq_some.2 ⟨i.deadline, hi, hle⟩
    unfold Keyspace.members at hmem ⊢
    rw [hnow] at hmem
    rw [show live (s.wait t).now (s.wait t).index = some i.value from hlater]
    exact hmem
  · rw [hgone id hx] at hr
    cases hr

/-! ## One command -/

theorem pipeTTL_pos (ttl : Nat) : 0 < pipeTTL ttl := by
  unfold pipeTTL
  split <;> omega

theorem mem_enlist {id' : κ} : id' ∈ (s.enlist ttl id).members ↔ id' = id ∨ id' ∈ s.members := by
  have hlive : live (s.enlist ttl id).now (s.enlist ttl id).index = some (s.members.insert id) :=
    live_timed_self (pipeTTL_pos ttl) _
  unfold Keyspace.members at *
  rw [hlive]
  simp

theorem row_setRow_of_ne {id' : κ} (h : id' ≠ id) : (s.setRow id t r).row id' = s.row id' := by
  simp [Keyspace.row, Keyspace.setRow, Function.update_of_ne h]

theorem Listed.setRow {x : Option κ} (h : Listed x s) (hid : some id = x ∨ id ∈ s.members) :
    Listed x (s.setRow id t r) := by
  intro id' r' hx hr
  by_cases he : id' = id
  · subst he
    exact hid.resolve_left hx
  · exact h id' r' hx (by rwa [row_setRow_of_ne he] at hr)

theorem Listed.rewrite (h : Listed none s) {snap : SessionSnapshot} (hr : s.row id = some r) :
    Listed none (s.rewrite ttl id r snap) :=
  h.setRow (.inr (h id r nofun hr))

theorem Listed.enlist (h : Listed (some id) s) : Listed none (s.enlist ttl id) := by
  intro id' r _ hr
  rw [mem_enlist]
  by_cases he : id' = id
  · exact .inl he
  · exact .inr (h id' r (fun hx => he (Option.some.inj hx)) hr)

omit [DecidableEq κ] in
theorem Listed.weaken (h : Listed none s) (x : Option κ) : Listed x s := fun id r _ => h id r nofun

attribute [local simp] applyCmd execCmd

theorem Listed.apply (h : Listed none s) (hc : ∀ id d, c ≠ .create id d) : Listed none (applyCmd ttl s c).1 := by
  cases c with
  | hgetall | fetch | smembers => exact h
  | save existing id d => exact ((h.weaken (some id)).setRow (.inl rfl)).enlist
  | create id d => exact absurd rfl (hc id d)
  | index id => exact (h.weaken _).enlist
  | updateState | increment =>
    unfold applyCmd
    dsimp only
    split
    · exact h
    split
    · exact h
    · exact h.rewrite ‹_›
  | reactivateClaimed | reactivateProved =>
    unfold applyCmd
    dsimp only
    split
    · exact h
    split
    · exact h.rewrite ‹_›
    · exact h
  | relayBatch id n cu =>
    unfold applyCmd
    dsimp only
    split
    · exact h
    split_ifs
    · exact h
    · exact h.rewrite ‹_›
    · exact h
  | delete id =>
    intro id' r _ hr
    have hne : id' ≠ id := by
      rintro rfl
      simp [Keyspace.row, live] at hr
    have hmem := h id' r nofun (by simpa [Keyspace.row, Function.update_of_ne hne] using hr)
    unfold Keyspace.members at hmem ⊢
    cases hi : s.index with
    | none => simp [hi, live] at hmem
    | some i =>
      by_cases hd : s.now ≤ i.deadline
      · simp_all [live]
      · simp [hi, live, hd] at hmem

theorem Listed.exec (h : Listed none s) (hc : ∀ id d, c ≠ .create id d) (hi : ∀ id, c ≠ .index id) {e : Round}
    (hcare : Careful s c e) : Listed none (execCmd ttl s c e).1 := by
  have hnone : c.completes = none := by
    cases c with
    | index id => exact absurd rfl (hi id)
    | _ => rfl
  have hw : Listed none (s.wait e.wait) := h.wait (hnone ▸ hcare.1)
  unfold execCmd
  split
  · exact hw.apply hc
  · exact hw
  · exact hw.apply hc

/-! ## The methods -/

def Cmd.Plain (c : Cmd κ ι) : Prop := (∀ id d, c ≠ .create id d) ∧ ∀ id, c ≠ .index id

theorem Listed.task {α : Type} {t : Job κ ι α} (ht : t.Sends Cmd.Plain) (h : Listed none s)
    (hm : t.Meets (execCmd ttl) Careful MayDie es s) : Listed none (t.drive (execCmd ttl) es s).1 :=
  Task.inv_of_meets (I := Listed none) (fun _ _ _ hc hs hcare => hs.exec hc.1 hc.2 hcare) ht h hm

theorem Listed.creation {d : Draft ι} (h : Listed none s)
    (hm : (createIfAbsent id d).Meets (execCmd ttl) Careful MayDie es s) :
    Listed none ((createIfAbsent id d).drive (execCmd ttl) es s).1 := by
  cases es with
  | nil => exact h
  | cons e es =>
    obtain ⟨hcare, hm⟩ := hm
    have hw : Listed none (s.wait e.wait) := h.wait hcare.1
    cases hrow : (s.wait e.wait).row id with
    | some r =>
      -- The hash is there: whatever the answer, nothing is written and nothing follows.
      have hstay : (applyCmd ttl (s.wait e.wait) (.create id d)).1 = s.wait e.wait := by simp [hrow]
      have hnot : (execCmd ttl s (.create id d) e).1 = s.wait e.wait ∧
          (execCmd ttl s (.create id d) e).2 ≠ .created true := by
        unfold execCmd
        split
        · exact ⟨hstay, by simp [hrow]⟩
        · exact ⟨rfl, nofun⟩
        · exact ⟨hstay, nofun⟩
      simp only [Redis.createIfAbsent, Task.drive]
      split
      · exact absurd ‹_› hnot.2
      rw [hnot.1]
      exact hw
    | none =>
      cases hf : e.fault with
      | refused =>
        have hexec : execCmd ttl s (.create id d) e = (s.wait e.wait, .failed) := by simp [hf]
        simp only [Redis.createIfAbsent, Task.drive, hexec]
        exact hw
      | lost => exact absurd hrow (hcare.2 hf)
      | ok =>
        have hexec : execCmd ttl s (.create id d) e =
            ((s.wait e.wait).setRow id (scriptTTL ttl) (d.stamped (s.wait e.wait).now), .created true) := by
          simp [hf, hrow]
        have hmade : Listed (some id) (execCmd ttl s (.create id d) e).1 := by
          rw [hexec]
          exact (hw.weaken _).setRow (.inl rfl)
        have htask : (createIfAbsent id d).drive (execCmd ttl) (e :: es) s =
            (Task.op (.index id) fun _ => .done (.created true)).drive (execCmd ttl) es
              (execCmd ttl s (.create id d) e).1 := by
          simp only [Redis.createIfAbsent, Task.drive, hexec]
        have hm' : (Task.op (.index id) fun _ => .done (.created true) : Job κ ι (Outcome κ ι)).Meets (execCmd ttl)
            Careful MayDie es (execCmd ttl s (.create id d) e).1 := by
          simp only [hexec] at hm ⊢
          exact hm
        rw [htask]
        cases es with
        | nil => cases hm'
        | cons e' es =>
          obtain ⟨⟨hlast, hfault⟩, -⟩ := hm'
          have hw' : Listed none ((_ : Keyspace κ ι).enlist ttl id) := (hmade.wait hlast).enlist
          simp only [Task.drive, execCmd]
          split
          · exact hw'
          · exact absurd ‹_› hfault
          · exact hw'

def Cmd.makes : Cmd κ ι → Bool
  | .create _ _ | .index _ => true
  | _ => false

omit [DecidableEq κ] in
theorem plain_of_makes (h : c.makes = false) : c.Plain := by
  refine ⟨?_, ?_⟩
  · rintro id d rfl
    cases h
  · rintro id rfl
    cases h

omit [DecidableEq κ] in
theorem sends_sending (hc : c.Plain) : (sending c).Sends Cmd.Plain := ⟨hc, fun _ => trivial⟩

omit [DecidableEq κ] in
theorem sends_body {m : Method κ ι} (hm : ∀ id d, m ≠ .createIfAbsent id d) : m.body.Sends Cmd.Plain := by
  cases m with
  | createIfAbsent id d => exact absurd rfl (hm id d)
  | save id d => exact ⟨plain_of_makes rfl, fun _ => sends_sending (plain_of_makes rfl)⟩
  | delete id =>
    refine ⟨plain_of_makes rfl, fun r => ?_⟩
    dsimp only
    split
    · exact sends_sending (plain_of_makes rfl)
    · trivial
    · trivial
  | _ =>
    exact sends_sending (plain_of_makes rfl)

theorem Listed.method {m : Method κ ι} (h : Listed none s) (hm : m.body.Meets (execCmd ttl) Careful MayDie es s) :
    Listed none (m.body.drive (execCmd ttl) es s).1 := by
  by_cases hc : ∃ id d, m = .createIfAbsent id d
  · obtain ⟨id, d, rfl⟩ := hc
    exact h.creation hm
  · exact h.task (sends_body fun id d hid => hc ⟨id, d, hid⟩) hm

/-! ## The listing -/

omit [DecidableEq κ] in
theorem sends_fetchSessions (ids : List κ) (found : List (κ × Row ι)) : (fetchSessions ids found).Sends Cmd.Plain := by
  induction ids generalizing found with
  | nil => trivial
  | cons id ids ih =>
    refine ⟨plain_of_makes rfl, fun r => ?_⟩
    dsimp only
    split
    · exact ih _
    · exact ih _

omit [DecidableEq κ] in
theorem sends_getBySupplier : (getBySupplier : Job κ ι _).Sends Cmd.Plain := by
  refine ⟨plain_of_makes rfl, fun r => ?_⟩
  dsimp only
  split
  · exact sends_fetchSessions _ _
  · trivial

theorem exec_fetch (s : Keyspace κ ι) (id : κ) (e : Round) : (execCmd ttl s (.fetch id) e).1 = s.wait e.wait := by
  unfold execCmd
  split <;> rfl

/-- What is there when the listing ends was there all the time. -/
theorem row_of_fetchSessions {ids : List κ} {found : List (κ × Row ι)}
    (h : ((fetchSessions ids found).drive (execCmd ttl) es s).1.row id = some r) : s.row id = some r := by
  induction ids generalizing found es s with
  | nil => exact h
  | cons i ids ih =>
    cases es with
    | nil => exact h
    | cons e es =>
      have hw : (execCmd ttl s (.fetch i) e).1.row id = some r := by
        simp only [fetchSessions, Task.drive] at h
        split at h
        · exact ih h
        · exact ih h
      rw [exec_fetch] at hw
      exact row_of_wait hw

def Row.decoded (r : Row ι) : Row ι := { r with snap := decodeSnapshot r.snap }

theorem mem_fetchSessions {ids : List κ} {found out : List (κ × Row ι)}
    (hm : (fetchSessions ids found).Meets (execCmd ttl) Careful MayDie es s)
    (hout : ((fetchSessions ids found).drive (execCmd ttl) es s).2 = some (some out)) :
    found ⊆ out ∧ ∀ id ∈ ids, ∀ r, ((fetchSessions ids found).drive (execCmd ttl) es s).1.row id = some r →
      (id, r.decoded) ∈ out := by
  induction ids generalizing found es s with
  | nil =>
    cases hout
    exact ⟨List.Subset.refl _, nofun⟩
  | cons i ids ih =>
    cases es with
    | nil => cases hout
    | cons e es =>
      obtain ⟨⟨-, hfault⟩, hm⟩ := hm
      -- The session that is read now: if it is there at the end it is there now, and the read is answered.
      have hread : ∀ r, (s.wait e.wait).row i = some r →
          (execCmd ttl s (.fetch i) e).2 = .row (some r.decoded) := by
        intro r hr
        have hok : e.fault = .ok := hfault (by simp [hr])
        simp [hok, hr, Row.decoded]
      simp only [fetchSessions, Task.drive] at hout hm ⊢
      split at hout
      next row hrep =>
        simp only [hrep] at hm ⊢
        obtain ⟨hsub, hrest⟩ := ih hm hout
        refine ⟨fun p hp => hsub (List.mem_append_left _ hp), fun id hid r hr => ?_⟩
        rcases List.mem_cons.1 hid with rfl | hid
        · have hnow := row_of_fetchSessions hr
          rw [exec_fetch] at hnow
          have := hread r hnow
          rw [hrep] at this
          cases this
          exact hsub (List.mem_append_right _ (List.mem_singleton_self _))
        · exact hrest id hid r hr
      next hrep =>
        split at hm
        next row hrow => exact absurd hrow (hrep row)
        obtain ⟨hsub, hrest⟩ := ih hm hout
        refine ⟨hsub, fun id hid r hr => ?_⟩
        rcases List.mem_cons.1 hid with rfl | hid
        · have hnow := row_of_fetchSessions hr
          rw [exec_fetch] at hnow
          exact absurd (hread r hnow) (hrep _)
        · exact hrest id hid r hr

theorem mem_getBySupplier {out : List (κ × Row ι)} (h : Listed none s)
    (hm : getBySupplier.Meets (execCmd ttl) Careful MayDie es s)
    (hout : (getBySupplier.drive (execCmd ttl) es s).2 = some (some out))
    (hr : (getBySupplier.drive (execCmd ttl) es s).1.row id = some r) : (id, r.decoded) ∈ out := by
  cases es with
  | nil => cases hout
  | cons e es =>
    obtain ⟨⟨hlast, -⟩, hm⟩ := hm
    cases hf : e.fault with
    | refused | lost => simp [getBySupplier, Task.drive, hf] at hout
    | ok =>
      have hexec : execCmd ttl s .smembers e = (s.wait e.wait, .members (s.wait e.wait).members) := by
        simp [hf]
      simp only [getBySupplier, Task.drive, hexec] at hout hr hm
      exact (mem_fetchSessions hm hout).2 id (h.wait hlast id r nofun (row_of_fetchSessions hr)) r hr

/-! ## Runs -/

inductive Act (κ ι : Type) where
  | call (m : Method κ ι) (es : List Round)
  | list (es : List Round)
  | wait (t : Nat)

/-- A call or a listing, each with the round trips it takes, or time that passes. -/
def act (ttl : Nat) (s : Keyspace κ ι) : Act κ ι → Keyspace κ ι
  | .call m es => (m.body.drive (execCmd ttl) es s).1
  | .list es => (getBySupplier.drive (execCmd ttl) es s).1
  | .wait t => s.wait t

def CarefulAct (ttl : Nat) (s : Keyspace κ ι) : Act κ ι → Prop
  | .call m es => m.body.Meets (execCmd ttl) Careful MayDie es s
  | .list es => getBySupplier.Meets (execCmd ttl) Careful MayDie es s
  | .wait t => Lasts none s t

def Keyspace.empty : Keyspace κ ι := ⟨0, fun _ => none, none⟩

omit [DecidableEq κ] in
theorem Listed.empty : Listed none (Keyspace.empty : Keyspace κ ι) := by
  intro id r _ h
  cases h

theorem Listed.act {a : Act κ ι} (h : Listed none s) (ha : CarefulAct ttl s a) :
    Listed none (Redis.act ttl s a) := by
  cases a with
  | call m es => exact h.method ha
  | list es => exact h.task sends_getBySupplier ha
  | wait t => exact h.wait ha

/-- A listing that returns without an error names every session whose hash is there, as it is there. -/
theorem listing_complete (ttl : Nat) (acts : List (Act κ ι)) (es : List Round)
    (hm : Meets (act ttl) (CarefulAct ttl) Keyspace.empty (acts ++ [.list es])) (out : List (κ × Row ι))
    (hout : (getBySupplier.drive (execCmd ttl) es (run (act ttl) Keyspace.empty acts)).2 = some (some out)) (id : κ)
    (r : Row ι) (hr : (run (act ttl) Keyspace.empty (acts ++ [.list es])).row id = some r) :
    (id, r.decoded) ∈ out := by
  obtain ⟨hacts, hlist⟩ := (meets_append _ acts [.list es]).1 hm
  have hinv : Listed none (run (act ttl) Keyspace.empty acts) :=
    inv_of_meets (Listed none) (fun s a hs ha => hs.act ha) Listed.empty hacts
  rw [run_append] at hr
  exact mem_getBySupplier hinv hlist.1 hout hr

def countedOnce : List (Act Nat Unit) :=
  [.call (.createIfAbsent 1 { ident := (), snap := { state := .active } }) [{}, {}], .wait 1500,
    .call (.incrementRelayCount 1 5) [{}]]

theorem meets_countedOnce :
    Meets (act 2000) (CarefulAct 2000) Keyspace.empty (countedOnce ++ [.list [{}, {}]]) := by
  refine ⟨⟨⟨.inr fun _ _ => rfl, nofun⟩, ⟨.inr fun id hid => ?_, nofun⟩, trivial⟩, .inl ⟨_, rfl, by decide⟩,
    ⟨⟨.inl ⟨_, rfl, by decide⟩, trivial⟩, trivial⟩,
    ⟨⟨.inl ⟨_, rfl, by decide⟩, trivial⟩, ⟨.inl ⟨_, rfl, by decide⟩, fun _ => rfl⟩, trivial⟩, trivial⟩
  have hne : id ≠ 1 := fun h => hid (congrArg some h)
  exact row_setRow_of_ne (s := Keyspace.empty) hne

theorem counted_session_listed : ∃ r out,
    r.snap.relayCount = 1 ∧ (run (act 2000) Keyspace.empty (countedOnce ++ [.list [{}, {}]])).row 1 = some r ∧
      (getBySupplier.drive (execCmd 2000) [{}, {}] (run (act 2000) Keyspace.empty countedOnce)).2 = some (some out) ∧
      (1, r.decoded) ∈ out :=
  ⟨_, _, rfl, rfl, rfl, listing_complete 2000 countedOnce [{}, {}] meets_countedOnce _ rfl 1 _ rfl⟩

/-- The hash is there when the listing is over, and the listing returned without an error and without the session. -/
def Missed (ttl : Nat) (acts : List (Act Nat Unit)) (es : List Round) : Prop :=
  ((run (act ttl) Keyspace.empty (acts ++ [.list es])).row 1).isSome ∧
    (getBySupplier.drive (execCmd ttl) es (run (act ttl) Keyspace.empty acts)).2 = some (some [])

instance (ttl : Nat) (acts : List (Act Nat Unit)) (es : List Round) : Decidable (Missed ttl acts es) := by
  unfold Missed
  infer_instance

/-- The set expires while counting keeps the hash; the process dies between the two commands of a creation, or the
second is refused; the hash cannot be read. -/
theorem stored_session_not_listed :
    Missed 2000 (countedOnce ++ [.wait 1000]) [{}] ∧
      Missed 2000 [.call (.createIfAbsent 1 { ident := (), snap := { state := .active } }) [{}]] [{}] ∧
      Missed 2000 [.call (.createIfAbsent 1 { ident := (), snap := { state := .active } }) [{}, { fault := .refused }]]
        [{}] ∧
      Missed 2000 countedOnce [{}, { fault := .refused }] := by
  decide

end RelayMiner.Session.Redis
