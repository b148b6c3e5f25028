import RelayMiner.Lib.Attempts
import RelayMiner.Session.State
/-!
# The migration of legacy tree keys

`MigrateLegacySMSTKeys` moves the trees that were stored under their session only
to the supplier whose session claimed the root, and deletes those it cannot place.
It is the Redis commands it sends, one by one; any of them may fail, the process
may die between any two, and the next start runs it again.

Keys are grouped by session: no command touches the keys of two sessions. What a
`SCAN` returns is chosen by Redis, so it is part of the input (`Scan`), page by
page; the commands carry what was returned before, which no branch depends on.
-/

namespace RelayMiner.Smst.Migration

open List

open Lib Session Function

inductive Part where
  | root
  | nodes
  | stats
  | liveRoot
  deriving DecidableEq

/-- All keys of one session: its legacy ones, those under each supplier, and the
`claimed_root_hash` of each supplier's session. -/
structure Sess (σ : Type) where
  legacy : Part → Option Bytes
  current : σ → Part → Option Bytes
  claimedRootHash : σ → Option Bytes

abbrev Keys (κ σ : Type) := κ → Sess σ

structure Store (κ σ : Type) where
  keys : Keys κ σ
  clean : Bool

structure Scan (α : Type) where
  first : List α
  rest : List (List α)

inductive Cmd (κ σ : Type) where
  | scanRoots (page seen : List κ) (last : Bool)
  | scanLiveRoots (page seen : List κ) (last : Bool)
  | scanSessions (sessionID : κ) (page seen : List σ) (last : Bool)
  | getRoot (sessionID : κ)
  | hgetClaimedRoot (sessionID : κ) (supplier : σ)
  -- On legacy keys.
  | existsKey (part : Part) (sessionID : κ)
  | rename (part : Part) (sessionID : κ) (owner : σ)
  | del (parts : List Part) (sessionID : κ)

inductive Reply where
  | failed
  | done
  | bytes (b : Option Bytes)
  | found (b : Bool)

section

variable {κ σ : Type} [DecidableEq κ] [DecidableEq σ]

def Sess.move (x : Sess σ) (owner : σ) (part : Part) : Sess σ :=
  { x with
    legacy := update x.legacy part none
    current := update x.current owner
      (update (x.current owner) part ((x.legacy part).or (x.current owner part))) }

def Sess.drop (x : Sess σ) (parts : List Part) : Sess σ :=
  { x with legacy := fun p => if p ∈ parts then none else x.legacy p }

def apply (keys : Keys κ σ) : Cmd κ σ → Keys κ σ × Reply
  | .scanRoots _ _ _ | .scanLiveRoots _ _ _ | .scanSessions _ _ _ _ => (keys, .done)
  | .getRoot s => (keys, .bytes ((keys s).legacy .root))
  | .hgetClaimedRoot s supplier => (keys, .bytes ((keys s).claimedRootHash supplier))
  | .existsKey part s => (keys, .found ((keys s).legacy part).isSome)
  | .rename part s owner =>
    match (keys s).legacy part with
    | none => (keys, .failed)
    | some _ => (update keys s ((keys s).move owner part), .done)
  | .del parts s => (update keys s ((keys s).drop parts), .done)

/-- `clean` is lost with the first command that fails. -/
def exec (w : Store κ σ) (c : Cmd κ σ) : Fault → Store κ σ × Reply
  | .ok => (⟨(apply w.keys c).1, w.clean⟩, (apply w.keys c).2)
  | .refused => (⟨w.keys, false⟩, .failed)
  | .lost => (⟨(apply w.keys c).1, false⟩, .failed)

/-! ## The migration -/

abbrev M (κ σ : Type) := Prog (Cmd κ σ) Reply

def claimants (s : κ) (wantRoot : Bytes) : List σ → List σ → (List σ → M κ σ) → M κ σ
  | [], matching, k => k matching
  | supplier :: page, matching, k => .op (.hgetClaimedRoot s supplier) fun
    | .bytes (some got) => claimants s wantRoot page (if got = wantRoot then matching ++ [supplier] else matching) k
    | _ => claimants s wantRoot page matching k

def ownerPages (s : κ) (wantRoot : Bytes) : List (List σ) → List σ → List σ → (Option (Option σ) → M κ σ) → M κ σ
  | [], _, matching, k => k (some (match matching with
    | [owner] => some owner
    | _ => none))
  | page :: rest, seen, matching, k => .op (.scanSessions s page seen rest.isEmpty) fun
    | .failed => k none
    | _ => claimants s wantRoot page matching fun matching =>
      ownerPages s wantRoot rest (seen ++ page) matching k

def findSessionOwnerByRoot (s : κ) (wantRoot : Bytes) (sessions : Scan σ) (k : Option (Option σ) → M κ σ) : M κ σ :=
  ownerPages s wantRoot (sessions.first :: sessions.rest) [] [] k

def deleteLegacyTriplet (s : κ) (k : M κ σ) : M κ σ := .op (.del [.root, .nodes, .stats, .liveRoot] s) fun _ => k

def renameRest (s : κ) (owner : σ) : List Part → M κ σ → M κ σ
  | [], k => k
  | part :: parts, k => .op (.existsKey part s) fun
    | .found true => .op (.rename part s owner) fun _ => renameRest s owner parts k
    | _ => renameRest s owner parts k

def migrateOneLegacySession (s : κ) (sessions : Scan σ) (k : M κ σ) : M κ σ :=
  .op (.getRoot s) fun
    | .bytes (some rootBytes) =>
      if rootBytes.length ≠ smstRootLen then deleteLegacyTriplet s k
      else findSessionOwnerByRoot s rootBytes sessions fun
        | none => k
        | some none => deleteLegacyTriplet s k
        | some (some owner) => .op (.rename .root s owner) fun
          | .done => renameRest s owner [.stats, .nodes, .liveRoot] k
          | _ => k
    -- A `GET` that fails has no bytes, and is taken for one that finds no key.
    | _ => deleteLegacyTriplet s k

def migrateSessions : List (κ × Scan σ) → M κ σ → M κ σ
  | [], k => k
  | (s, sessions) :: page, k => migrateOneLegacySession s sessions (migrateSessions page k)

/-- The first pass. A `SCAN` that fails ends the migration. -/
def migrateRoots : List (List (κ × Scan σ)) → List κ → M κ σ → M κ σ
  | [], _, k => k
  | page :: rest, seen, k => .op (.scanRoots (page.map (·.1)) seen rest.isEmpty) fun
    | .failed => .ret
    | _ => migrateSessions page (migrateRoots rest (seen ++ page.map (·.1)) k)

def deleteOrphans : List κ → M κ σ → M κ σ
  | [], k => k
  | s :: page, k => .op (.existsKey .root s) fun
    | .found true => deleteOrphans page k
    | _ => .op (.del [.liveRoot, .nodes, .stats] s) fun _ => deleteOrphans page k

def deleteLiveRoots : List (List κ) → List κ → M κ σ
  | [], _ => .ret
  | page :: rest, seen => .op (.scanLiveRoots page seen rest.isEmpty) fun
    | .failed => .ret
    | _ => deleteOrphans page (deleteLiveRoots rest (seen ++ page))

structure Scans (κ σ : Type) where
  roots : Scan (κ × Scan σ)
  liveRoots : Scan κ

def migrateLegacySMSTKeys (e : Scans κ σ) : M κ σ :=
  migrateRoots (e.roots.first :: e.roots.rest) [] (deleteLiveRoots (e.liveRoots.first :: e.liveRoots.rest) [])

abbrev World (κ σ : Type) := Attempt (Store κ σ) (Cmd κ σ) Reply

abbrev Act (κ σ : Type) := Try (Scans κ σ) Fault

def step : World κ σ → Act κ σ → World κ σ :=
  stepTry (fun w => { w with clean := true }) (fun w => { w with clean := false }) migrateLegacySMSTKeys exec

def start (keys : Keys κ σ) : World κ σ := ⟨⟨keys, false⟩, .ret⟩

end

/-! ## What becomes of a session -/

section

variable {κ σ : Type}

def Sess.Owner (x : Sess σ) (o : σ) : Prop :=
  ∃ rootBytes, x.legacy .root = some rootBytes ∧ rootBytes.length = smstRootLen ∧
    ∀ o', x.claimedRootHash o' = some rootBytes ↔ o' = o

theorem Sess.Owner.unique {x : Sess σ} {o o' : σ} (h : x.Owner o) (h' : x.Owner o') : o' = o := by
  obtain ⟨r, hr, -, ho⟩ := h
  obtain ⟨r', hr', -, ho'⟩ := h'
  cases hr.symm.trans hr'
  exact (ho o').1 ((ho' o').2 rfl)

end

section

variable {σ : Type} [DecidableEq σ] {x : Sess σ} {o : σ} {p : Part}

def Sess.moves (x : Sess σ) (owner : σ) (parts : List Part) : Sess σ := parts.foldl (fun x p => x.move owner p) x

open Classical in
/-- What the migration makes of a session. -/
noncomputable def Sess.target (x : Sess σ) : Sess σ :=
  if h : ∃ o, x.Owner o then x.moves h.choose [.root, .stats, .nodes, .liveRoot]
  else if (x.legacy .root).isSome then x.drop [.root, .nodes, .stats, .liveRoot]
  else if (x.legacy .liveRoot).isSome then x.drop [.liveRoot, .nodes, .stats]
  else x

attribute [local simp] Sess.move

theorem legacy_move (p q : Part) : (x.move o p).legacy q = if q = p then none else x.legacy q := by
  simp [update_apply]

theorem current_move (p q : Part) (o' : σ) :
    (x.move o p).current o' q = if o' = o ∧ q = p then (x.legacy p).or (x.current o p) else x.current o' q := by
  by_cases ho : o' = o
  · subst ho
    simp [update_apply]
  · simp [ho]

theorem move_of_absent (h : x.legacy p = none) : x.move o p = x := by
  have hl : update x.legacy p none = x.legacy := by
    rw [← h]
    exact update_eq_self p x.legacy
  simp [h, hl]

theorem legacy_moves (parts : List Part) (q : Part) :
    (x.moves o parts).legacy q = if q ∈ parts then none else x.legacy q := by
  induction parts generalizing x with
  | nil => simp [Sess.moves]
  | cons p parts ih =>
    have hstep : x.moves o (p :: parts) = (x.move o p).moves o parts := rfl
    rw [hstep, ih, legacy_move]
    by_cases hq : q = p
    · simp [hq]
    · simp [hq]

theorem moves_of_empty (h : ∀ p, x.legacy p = none) (parts : List Part) : x.moves o parts = x := by
  induction parts with
  | nil => rfl
  | cons p parts ih =>
    have hstep : x.moves o (p :: parts) = (x.move o p).moves o parts := rfl
    rw [hstep, move_of_absent (h p), ih]

/-- What is under an owner at the end was there or in the legacy keys. -/
theorem source_moves {parts : List Part} {o' : σ} {v : Bytes} (h : (x.moves o parts).current o' p = some v) :
    x.legacy p = some v ∨ x.current o' p = some v := by
  induction parts generalizing x with
  | nil => exact .inr h
  | cons q parts ih =>
    rcases ih h with hl | hc
    · rw [legacy_move] at hl
      split_ifs at hl
      exact .inl hl
    rw [current_move] at hc
    split_ifs at hc with hcond
    · obtain ⟨rfl, rfl⟩ := hcond
      rcases Option.or_eq_some_iff.1 hc with hl | ⟨-, hcur⟩
      · exact .inl hl
      · exact .inr hcur
    · exact .inr hc

theorem target_of_owner (h : x.Owner o) : x.target = x.moves o [.root, .stats, .nodes, .liveRoot] := by
  have hex : ∃ o, x.Owner o := ⟨o, h⟩
  rw [Sess.target, dif_pos hex, h.unique hex.choose_spec]

theorem target_of_orphan (hroot : (x.legacy .root).isSome = true) (h : ¬ ∃ o, x.Owner o) :
    x.target = x.drop [.root, .nodes, .stats, .liveRoot] := by
  rw [Sess.target, dif_neg h, if_pos hroot]

omit [DecidableEq σ] in
theorem not_owner_of_no_root (h : x.legacy .root = none) : ¬ ∃ o, x.Owner o := by
  rintro ⟨o, r, hr, -⟩
  rw [h] at hr
  cases hr

theorem target_of_live (hroot : x.legacy .root = none) (hlive : (x.legacy .liveRoot).isSome = true) :
    x.target = x.drop [.liveRoot, .nodes, .stats] := by
  rw [Sess.target, dif_neg (not_owner_of_no_root hroot), if_neg (by simp [hroot]), if_pos hlive]

theorem target_of_done (hroot : x.legacy .root = none) (hlive : x.legacy .liveRoot = none) : x.target = x := by
  rw [Sess.target, dif_neg (not_owner_of_no_root hroot), if_neg (by simp [hroot]), if_neg (by simp [hlive])]

theorem source_target {o' : σ} {v : Bytes} (h : x.target.current o' p = some v) :
    x.legacy p = some v ∨ x.current o' p = some v := by
  unfold Sess.target at h
  split_ifs at h
  · exact source_moves h
  · exact .inr h
  · exact .inr h
  · exact .inr h

omit [DecidableEq σ] in
theorem drop_of_absent {parts : List Part} (h : ∀ p ∈ parts, x.legacy p = none) : x.drop parts = x := by
  obtain ⟨legacy, current, claimed⟩ := x
  simp only [Sess.drop, Sess.mk.injEq, and_true]
  funext p
  split_ifs with hp
  · exact (h p hp).symm
  · rfl

omit [DecidableEq σ] in
theorem legacy_drop_all (p : Part) : (x.drop [.root, .nodes, .stats, .liveRoot]).legacy p = none := by
  cases p <;> rfl

end

/-! ## The condition -/

section

variable {κ σ : Type}

/-- What Redis promises of a `SCAN` over keys that nobody else creates: it returns keys that are there, and by its last
page all of them. -/
def Listed (there : κ → Prop) (page seen : List κ) (last : Bool) : Prop :=
  (∀ s ∈ page, there s) ∧ (last = true → ∀ s, there s → s ∈ seen ++ page)

/-- How a command may be answered. The `SCAN`s keep the promise of Redis, and the one over session keys returns no key
twice. A read that fails would have found nothing, and a rename of a session that is under way is made. -/
def Ok (w : Store κ σ) (c : Cmd κ σ) (fault : Fault) : Prop :=
  match c with
  | .scanRoots page seen last => fault = .ok → Listed (fun s => (w.keys s).legacy .root ≠ none) page seen last
  | .scanLiveRoots page seen last => fault = .ok → Listed (fun s => (w.keys s).legacy .liveRoot ≠ none) page seen last
  | .scanSessions s page seen last => fault = .ok →
    (seen ++ page).Nodup ∧ (last = true → ∀ o, (w.keys s).claimedRootHash o ≠ none → o ∈ seen ++ page)
  | .getRoot s => fault ≠ .ok → (w.keys s).legacy .root = none
  | .hgetClaimedRoot s supplier => fault ≠ .ok → (w.keys s).claimedRootHash supplier ≠ (w.keys s).legacy .root
  | .existsKey part s => fault ≠ .ok → (w.keys s).legacy part = none
  | .rename part s _ =>
    if part = .root then fault = .lost → ∀ p, p ≠ .root → (w.keys s).legacy p = none else fault ≠ .refused
  | .del _ _ => True

/-- Where the process may die: not while a session whose root is renamed has other legacy keys left. -/
def Cut (w : Store κ σ) : Cmd κ σ → Prop
  | .existsKey part s | .rename part s _ => part ≠ .root → ∀ p, (w.keys s).legacy p = none
  | _ => True

end

/-! ## What the migration keeps -/

section

variable {κ σ : Type} [DecidableEq σ] (T : κ → Sess σ)

def Settled (w : Store κ σ) : Prop := ∀ s, (w.keys s).target = T s

/-- What the target has under a supplier is there, or still in the legacy keys. -/
def Safe (w : Store κ σ) : Prop :=
  ∀ s o p v, (T s).current o p = some v → (w.keys s).legacy p = some v ∨ (w.keys s).current o p = some v

structure At (w : Store κ σ) (c : Cmd κ σ) : Prop where
  safe : Safe T w
  cut : Cut w c → Settled T w

structure Ended (w : Store κ σ) : Prop where
  settled : Settled T w
  done : w.clean = true → ∀ s, (w.keys s).legacy .root = none ∧ (w.keys s).legacy .liveRoot = none

variable {T} {w w' : Store κ σ} {s : κ}

theorem Settled.safe (h : Settled T w) : Safe T w := by
  intro s o p v hv
  rw [← h s] at hv
  exact source_target hv

theorem Settled.at (h : Settled T w) (c : Cmd κ σ) : At T w c := ⟨h.safe, fun _ => h⟩

theorem Settled.congr (h : Settled T w) (hk : w'.keys = w.keys) : Settled T w' := by
  intro s
  rw [hk]
  exact h s

structure After (s : κ) (w w' : Store κ σ) : Prop where
  others : ∀ s', s' ≠ s → w'.keys s' = w.keys s'
  target : (w'.keys s).target = (w.keys s).target
  rest : (∀ p, (w'.keys s).legacy p = none) ∨ w'.keys s = w.keys s
  clean : w'.clean = true → w.clean = true ∧ (w'.keys s).legacy .root = none

theorem After.settled (h : After s w w') (hw : Settled T w) : Settled T w' := by
  intro s'
  by_cases hs : s' = s
  · rw [hs, h.target, hw s]
  · rw [h.others s' hs, hw s']

theorem After.of_read {w₀ : Store κ σ} (h : After s w w') (hk : w.keys = w₀.keys) (hc : w.clean = true → w₀.clean = true) :
    After s w₀ w' := by
  refine ⟨fun s' hs => ?_, ?_, ?_, fun hw' => ⟨hc (h.clean hw').1, (h.clean hw').2⟩⟩
  · rw [h.others s' hs, hk]
  · rw [h.target, hk]
  · rw [← hk]
    exact h.rest

end

section

variable {κ σ : Type} [DecidableEq κ] [DecidableEq σ] {T : κ → Sess σ} {w : Store κ σ} {s : κ} {owner : σ} {s' : κ}
  {part : Part} {parts : List Part} {k : M κ σ} {wantRoot : Bytes}

abbrev Goes (T : κ → Sess σ) (p : M κ σ) (w : Store κ σ) : Prop := p.Along exec Ok (At T) (Ended T) w

def Store.put (w : Store κ σ) (s : κ) (x : Sess σ) (clean : Bool) : Store κ σ := ⟨update w.keys s x, clean⟩

omit [DecidableEq σ] in
theorem keys_put_self (x : Sess σ) (clean : Bool) : (w.put s x clean).keys s = x := by
  simp [Store.put]

omit [DecidableEq σ] in
theorem keys_put_of_ne (h : s' ≠ s) (x : Sess σ) (clean : Bool) : (w.put s x clean).keys s' = w.keys s' := by
  simp [Store.put, update_of_ne h]

omit [DecidableEq σ] in
theorem forall_put (P : κ → Sess σ → Prop) {x : Sess σ} {clean : Bool} (hs : P s x) (h : ∀ s', s' ≠ s → P s' (w.keys s')) :
    ∀ s', P s' ((w.put s x clean).keys s') :=
  (forall_update_iff w.keys P).2 ⟨hs, h⟩

theorem apply_rename {v : Bytes} {keys : Keys κ σ} (h : (keys s).legacy part = some v) :
    apply keys (.rename part s owner) = (update keys s ((keys s).move owner part), .done) := by
  simp only [apply, h]

structure Moving (T : κ → Sess σ) (s : κ) (owner : σ) (parts : List Part) (w : Store κ σ) : Prop where
  others : ∀ s', s' ≠ s → (w.keys s').target = T s'
  moves : (w.keys s).moves owner parts = T s
  gone : ∀ p, p ∉ parts → (w.keys s).legacy p = none

theorem Moving.at (h : Moving T s owner parts w) {c : Cmd κ σ} (hc : Cut w c → ∀ p, (w.keys s).legacy p = none) :
    At T w c := by
  refine ⟨fun s' o p v hv => ?_, fun hcut s' => ?_⟩
  · by_cases hs : s' = s
    · subst hs
      rw [← h.moves] at hv
      exact source_moves hv
    · rw [← h.others s' hs] at hv
      exact source_target hv
  by_cases hs : s' = s
  · subst hs
    have hempty := hc hcut
    rw [target_of_done (hempty _) (hempty _), ← h.moves, moves_of_empty hempty]
  · exact h.others s' hs

omit [DecidableEq κ] in
theorem Moving.skip (h : Moving T s owner (part :: parts) w) (hnone : (w.keys s).legacy part = none) (clean : Bool) :
    Moving T s owner parts ⟨w.keys, clean⟩ := by
  refine ⟨h.others, ?_, fun p hp => ?_⟩
  · have hstep : (w.keys s).moves owner (part :: parts) = ((w.keys s).move owner part).moves owner parts := rfl
    rw [← h.moves, hstep, move_of_absent hnone]
  by_cases hpp : p = part
  · rw [hpp]
    exact hnone
  · exact h.gone p (by simp [hpp, hp])

theorem Moving.move (h : Moving T s owner (part :: parts) w) (clean : Bool) :
    Moving T s owner parts (w.put s ((w.keys s).move owner part) clean) := by
  refine ⟨fun s' hs => ?_, ?_, fun p hp => ?_⟩
  · rw [keys_put_of_ne hs]
    exact h.others s' hs
  · rw [keys_put_self]
    exact h.moves
  rw [keys_put_self, legacy_move]
  by_cases hpp : p = part
  · rw [if_pos hpp]
  · rw [if_neg hpp]
    exact h.gone p (by simp [hpp, hp])

theorem goes_renameRest (hroot : .root ∉ parts) (h : Moving T s owner parts w)
    (hk : ∀ w', (∀ s', s' ≠ s → w'.keys s' = w.keys s') → w'.keys s = T s → (w'.clean = true → w.clean = true) →
      Goes T k w') : Goes T (renameRest s owner parts k) w := by
  induction parts generalizing w with
  | nil => exact hk w (fun _ _ => rfl) h.moves id
  | cons part parts ih =>
    have hpart : part ≠ .root := fun he => hroot (by simp [he])
    have hrest : .root ∉ parts := fun he => hroot (by simp [he])
    have hskip : ∀ clean, (clean = true → w.clean = true) → (w.keys s).legacy part = none →
        Goes T (renameRest s owner parts k) ⟨w.keys, clean⟩ :=
      fun clean hclean hnone => ih hrest (h.skip hnone clean) fun w' ho hs hc => hk w' ho hs fun hw' => hclean (hc hw')
    have hmove : ∀ clean, (clean = true → w.clean = true) →
        Goes T (renameRest s owner parts k) (w.put s ((w.keys s).move owner part) clean) := by
      refine fun clean hclean => ih hrest (h.move clean) fun w' ho hs hc =>
        hk w' (fun s' hs' => ?_) hs fun hw' => hclean (hc hw')
      rw [ho s' hs', keys_put_of_ne hs']
    refine ⟨h.at fun hcut => hcut hpart, fun fault hok => ?_⟩
    cases fault with
    | refused | lost => exact hskip false nofun (hok nofun)
    | ok =>
      cases hv : (w.keys s).legacy part with
      | none => simpa [exec, apply, hv] using hskip w.clean id hv
      | some v =>
        simp only [exec, apply, hv, Option.isSome_some]
        refine ⟨h.at fun hcut => hcut hpart, fun fault hok => ?_⟩
        have hne : fault ≠ .refused := by simpa [Ok, hpart] using hok
        cases fault with
        | refused => exact absurd rfl hne
        | ok => simpa [exec, apply_rename hv, Store.put] using hmove w.clean id
        | lost => simpa [exec, apply_rename hv, Store.put] using hmove false nofun

/-- All legacy keys of a session are deleted, and that is its target. -/
theorem goes_deleteLegacyTriplet (hw : Settled T w)
    (hdrop : (w.keys s).target = (w.keys s).drop [.root, .nodes, .stats, .liveRoot])
    (hk : ∀ w', After s w w' → Goes T k w') : Goes T (deleteLegacyTriplet s k) w := by
  have hput : ∀ clean, (clean = true → w.clean = true) →
      After s w (w.put s ((w.keys s).drop [.root, .nodes, .stats, .liveRoot]) clean) := by
    refine fun clean hclean => ⟨fun s' hs => keys_put_of_ne hs _ _, ?_, .inl fun p => ?_, fun hc => ⟨hclean hc, ?_⟩⟩
    · rw [keys_put_self, hdrop]
      exact target_of_done (legacy_drop_all _) (legacy_drop_all _)
    · rw [keys_put_self]
      exact legacy_drop_all p
    · rw [keys_put_self]
      exact legacy_drop_all .root
  refine ⟨hw.at _, fun fault _ => ?_⟩
  cases fault with
  | ok => exact hk _ (hput w.clean id)
  | lost => exact hk _ (hput false nofun)
  | refused => exact hk _ ⟨fun _ _ => rfl, rfl, .inr rfl, nofun⟩

/-! ## The search for the owner -/

/-- An `HGET` that fails is one that would not have matched. -/
theorem goes_claimants {page matching : List σ} {k : List σ → M κ σ} (hw : Settled T w)
    (hroot : (w.keys s).legacy .root = some wantRoot)
    (hk : ∀ w', w'.keys = w.keys → (w'.clean = true → w.clean = true) →
      Goes T (k (matching ++ page.filter fun o => (w.keys s).claimedRootHash o = some wantRoot)) w') :
    Goes T (claimants s wantRoot page matching k) w := by
  induction page generalizing w matching with
  | nil =>
    have h := hk w rfl id
    rw [filter_nil, append_nil] at h
    exact h
  | cons o page ih =>
    -- The other suppliers of the page, after one that matched or one that did not.
    have hnext : ∀ clean matching', (clean = true → w.clean = true) →
        matching' = matching ++ [o].filter (fun o => (w.keys s).claimedRootHash o = some wantRoot) →
        Goes T (claimants s wantRoot page matching' k) ⟨w.keys, clean⟩ := by
      rintro clean matching' hclean rfl
      refine ih (w := ⟨w.keys, clean⟩) hw hroot fun w' hkeys hc => ?_
      rw [append_assoc, ← filter_append]
      exact hk w' hkeys fun h => hclean (hc h)
    have hmiss : ∀ clean, (clean = true → w.clean = true) → (w.keys s).claimedRootHash o ≠ some wantRoot →
        Goes T (claimants s wantRoot page matching k) ⟨w.keys, clean⟩ :=
      fun clean hclean hne => hnext clean matching hclean (by simp [hne])
    refine ⟨hw.at _, fun fault hok => ?_⟩
    cases fault with
    | refused | lost => exact hmiss false nofun (hroot ▸ hok nofun)
    | ok =>
      simp only [exec, apply]
      cases hgot : (w.keys s).claimedRootHash o with
      | none => exact hmiss w.clean id (by simp [hgot])
      | some got =>
        refine hnext w.clean _ id ?_
        by_cases he : got = wantRoot
        · simp [hgot, he]
        · simp [hgot, he]

variable {x : Sess σ}

/-- The suppliers that match, once all are seen and none twice, tell the owner. -/
theorem owner_of_matching {seen : List σ} (hroot : x.legacy .root = some wantRoot)
    (hlen : wantRoot.length = smstRootLen) (hnodup : seen.Nodup) (hall : ∀ o, x.claimedRootHash o ≠ none → o ∈ seen)
    (o : σ) :
    (match seen.filter fun o => x.claimedRootHash o = some wantRoot with
      | [owner] => some owner
      | _ => none) = some o ↔ x.Owner o := by
  have hmem : ∀ o', o' ∈ seen.filter (fun o => x.claimedRootHash o = some wantRoot) ↔
      x.claimedRootHash o' = some wantRoot := by
    intro o'
    simp only [mem_filter, decide_eq_true_eq, and_iff_right_iff_imp]
    intro h
    exact hall o' (by simp [h])
  have hnd := hnodup.filter fun o => x.claimedRootHash o = some wantRoot
  have howner : x.Owner o ↔ ∀ o', x.claimedRootHash o' = some wantRoot ↔ o' = o := by
    refine ⟨?_, fun h => ⟨wantRoot, hroot, hlen, h⟩⟩
    rintro ⟨r, hr, -, h⟩
    cases hroot.symm.trans hr
    exact h
  have hiff : (∀ o', x.claimedRootHash o' = some wantRoot ↔ o' = o) ↔
      ∀ o', o' ∈ seen.filter (fun o => x.claimedRootHash o = some wantRoot) ↔ o' = o := by
    simp only [hmem]
  rw [howner, hiff]
  generalize seen.filter (fun o => x.claimedRootHash o = some wantRoot) = matching at hnd
  rcases matching with _ | ⟨a, _ | ⟨b, rest⟩⟩
  · simp
  · simp [eq_comm]
  have hab : a ≠ b := by
    rintro rfl
    simp at hnd
  simp only [reduceCtorEq, false_iff, not_forall]
  by_cases ha : a = o
  · exact ⟨b, fun h => hab (ha.trans (h.1 (by simp)).symm)⟩
  · exact ⟨a, fun h => ha (h.1 (by simp))⟩

theorem goes_ownerPages {pages : List (List σ)} {seen : List σ} {k : Option (Option σ) → M κ σ} (hw : Settled T w)
    (hroot : (w.keys s).legacy .root = some wantRoot) (hlen : wantRoot.length = smstRootLen)
    (hend : pages = [] → seen.Nodup ∧ ∀ o, (w.keys s).claimedRootHash o ≠ none → o ∈ seen)
    (hk : ∀ w' r, w'.keys = w.keys → (w'.clean = true → w.clean = true ∧ r ≠ none) →
      (∀ owner?, r = some owner? → ∀ o, owner? = some o ↔ (w.keys s).Owner o) → Goes T (k r) w') :
    Goes T (ownerPages s wantRoot pages seen (seen.filter fun o => (w.keys s).claimedRootHash o = some wantRoot) k) w := by
  induction pages generalizing w seen with
  | nil =>
    obtain ⟨hnodup, hall⟩ := hend rfl
    refine hk w _ rfl (fun h => ⟨h, nofun⟩) ?_
    rintro owner? ⟨⟩ o
    exact owner_of_matching hroot hlen hnodup hall o
  | cons page rest ih =>
    refine ⟨hw.at _, fun fault hok => ?_⟩
    cases fault with
    | refused | lost => exact hk _ none rfl nofun nofun
    | ok =>
      obtain ⟨hnodup, hlast⟩ := hok rfl
      refine goes_claimants (w := w) hw hroot fun w' hkeys hclean => ?_
      rw [← filter_append, ← hkeys]
      refine ih (hw.congr hkeys) (hkeys ▸ hroot) (fun hrest => ?_) fun w'' r hk' hc' => ?_
      · rw [hkeys]
        exact ⟨hnodup, hlast (by simp [hrest])⟩
      · rw [hkeys]
        exact hk w'' r (hk'.trans hkeys) fun h => ⟨hclean (hc' h).1, (hc' h).2⟩

theorem goes_findSessionOwnerByRoot {sessions : Scan σ} {k : Option (Option σ) → M κ σ} (hw : Settled T w)
    (hroot : (w.keys s).legacy .root = some wantRoot) (hlen : wantRoot.length = smstRootLen)
    (hk : ∀ w' r, w'.keys = w.keys → (w'.clean = true → w.clean = true ∧ r ≠ none) →
      (∀ owner?, r = some owner? → ∀ o, owner? = some o ↔ (w.keys s).Owner o) → Goes T (k r) w') :
    Goes T (findSessionOwnerByRoot s wantRoot sessions k) w := by
  have hend : sessions.first :: sessions.rest = [] →
      ([] : List σ).Nodup ∧ ∀ o, (w.keys s).claimedRootHash o ≠ none → o ∈ ([] : List σ) := nofun
  exact goes_ownerPages hw hroot hlen hend hk

/-! ## One session -/

theorem goes_rename (hw : Settled T w) (howner : (w.keys s).Owner owner) (hk : ∀ w', After s w w' → Goes T k w') :
    Goes T (.op (.rename .root s owner) fun
      | .done => renameRest s owner [.stats, .nodes, .liveRoot] k
      | _ => k) w := by
  have hT : T s = (w.keys s).moves owner [.root, .stats, .nodes, .liveRoot] := by
    rw [← hw s, target_of_owner howner]
  have hempty : ∀ p, (T s).legacy p = none := by
    intro p
    rw [hT, legacy_moves]
    cases p <;> rfl
  have hmoving : Moving T s owner [.root, .stats, .nodes, .liveRoot] w :=
    ⟨fun s' _ => hw s', hT.symm, fun p hp => absurd hp (by cases p <;> simp)⟩
  have hdone : ∀ w', (∀ s', s' ≠ s → w'.keys s' = w.keys s') → w'.keys s = T s → (w'.clean = true → w.clean = true) →
      After s w w' := by
    intro w' hothers hs hc
    refine ⟨hothers, ?_, .inl fun p => ?_, fun h => ⟨hc h, ?_⟩⟩
    · rw [hs, target_of_done (hempty _) (hempty _), hw s]
    · rw [hs, hempty p]
    · rw [hs, hempty]
  obtain ⟨rootBytes, hroot, -⟩ := howner
  refine ⟨hw.at _, fun fault hok => ?_⟩
  cases fault with
  | refused => exact hk _ ⟨fun _ _ => rfl, rfl, .inr rfl, nofun⟩
  | ok =>
    simp only [exec, apply_rename hroot]
    refine goes_renameRest (by simp) (hmoving.move w.clean) fun w' hothers hs hc => hk w' (hdone w' (fun s' hs' => ?_) hs hc)
    exact (hothers s' hs').trans (keys_put_of_ne hs' _ _)
  | lost =>
    -- The root was all there was.
    have hothers : ∀ p, p ≠ .root → (w.keys s).legacy p = none := hok rfl
    have hgone : ∀ p, ((w.keys s).move owner .root).legacy p = none := by
      intro p
      rw [legacy_move]
      split_ifs with hp
      · rfl
      · exact hothers p hp
    simp only [exec, apply_rename hroot]
    refine hk _ (hdone (w.put s ((w.keys s).move owner .root) false) (fun s' hs' => keys_put_of_ne hs' _ _) ?_ nofun)
    rw [keys_put_self, hT]
    exact (moves_of_empty hgone [.stats, .nodes, .liveRoot]).symm

def Due (x : Sess σ) : Prop := x.legacy .root ≠ none ∨ ∀ p, x.legacy p = none

theorem goes_migrateOneLegacySession {sessions : Scan σ} (hw : Settled T w) (hdue : Due (w.keys s))
    (hk : ∀ w', After s w w' → Goes T k w') : Goes T (migrateOneLegacySession s sessions k) w := by
  -- With no root there is nothing to delete.
  have hgone : ∀ clean, (clean = true → w.clean = true) → (w.keys s).legacy .root = none →
      Goes T (deleteLegacyTriplet s k) ⟨w.keys, clean⟩ := by
    intro clean hclean hnone
    have hempty : ∀ p, (w.keys s).legacy p = none := hdue.resolve_left fun h => h hnone
    refine goes_deleteLegacyTriplet (w := ⟨w.keys, clean⟩) hw ?_ fun w' h => hk w' (h.of_read rfl hclean)
    exact (target_of_done (hempty _) (hempty _)).trans (drop_of_absent fun p _ => hempty p).symm
  refine ⟨hw.at _, fun fault hok => ?_⟩
  cases fault with
  | refused | lost => exact hgone false nofun (hok nofun)
  | ok =>
    simp only [exec, apply]
    cases hroot : (w.keys s).legacy .root with
    | none => exact hgone w.clean id hroot
    | some rootBytes =>
      -- No supplier can be found.
      have horphan : ∀ w', w'.keys = w.keys → (w'.clean = true → w.clean = true) →
          (∀ o, ¬ (w.keys s).Owner o) → Goes T (deleteLegacyTriplet s k) w' := by
        intro w' hkeys hclean hno
        refine goes_deleteLegacyTriplet (hw.congr hkeys) ?_ fun w'' h => hk w'' (h.of_read hkeys hclean)
        rw [hkeys]
        exact target_of_orphan (by simp [hroot]) fun ⟨o, ho⟩ => hno o ho
      dsimp only
      by_cases hlen : rootBytes.length = smstRootLen
      swap
      · rw [if_pos hlen]
        refine horphan _ rfl id fun o ho => ?_
        obtain ⟨r, hr, hrlen, -⟩ := ho
        cases hroot.symm.trans hr
        exact hlen hrlen
      rw [if_neg (by simp [hlen])]
      refine goes_findSessionOwnerByRoot (w := w) hw hroot hlen fun w' r hkeys hclean hr => ?_
      cases r with
      | none =>
        refine hk w' ⟨fun s' _ => by rw [hkeys], by rw [hkeys], .inr (by rw [hkeys]), fun h => ?_⟩
        exact absurd rfl (hclean h).2
      | some owner? =>
        cases owner? with
        | none => exact horphan w' hkeys (fun h => (hclean h).1) fun o ho => nomatch (hr none rfl o).2 ho
        | some owner =>
          have howner : (w'.keys s).Owner owner := by
            rw [hkeys]
            exact (hr _ rfl owner).1 rfl
          exact goes_rename (hw.congr hkeys) howner fun w'' h => hk w'' (h.of_read hkeys fun h => (hclean h).1)

/-! ## The two passes -/

/-- A session is as it was, or has no legacy keys left. -/
theorem After.keeps {w' : Store κ σ} (h : After s w w') (P : Sess σ → Prop) (hempty : ∀ x, (∀ p, x.legacy p = none) → P x)
    (hP : P (w.keys s')) : P (w'.keys s') := by
  by_cases hs : s' = s
  · subst hs
    rcases h.rest with hnone | hsame
    · exact hempty _ hnone
    · rwa [hsame]
  · rwa [h.others s' hs]

theorem goes_migrateSessions {page : List (κ × Scan σ)} (hw : Settled T w) (hdue : ∀ e ∈ page, Due (w.keys e.1))
    (hk : ∀ w', Settled T w' → (∀ s, (w.keys s).legacy .root = none → (w'.keys s).legacy .root = none) →
      (w'.clean = true → w.clean = true ∧ ∀ e ∈ page, (w'.keys e.1).legacy .root = none) → Goes T k w') :
    Goes T (migrateSessions page k) w := by
  induction page generalizing w with
  | nil => exact hk w hw (fun _ => id) fun h => ⟨h, nofun⟩
  | cons e page ih =>
    obtain ⟨s, sessions⟩ := e
    refine goes_migrateOneLegacySession hw (hdue _ mem_cons_self) fun w₁ h₁ => ?_
    refine ih (h₁.settled hw) (fun e he => h₁.keeps Due (fun _ => .inr) (hdue e (mem_cons_of_mem _ he)))
      fun w₂ hw₂ hroots hclean => ?_
    refine hk w₂ hw₂ (fun s' hs' => hroots s' (h₁.keeps (·.legacy .root = none) (fun _ h => h _) hs')) fun h => ?_
    obtain ⟨hc₁, hpage⟩ := hclean h
    obtain ⟨hc, hroot⟩ := h₁.clean hc₁
    exact ⟨hc, forall_mem_cons.2 ⟨hroots s hroot, hpage⟩⟩

/-- By the end of an attempt that was answered, no legacy root is left. -/
theorem goes_migrateRoots {pages : List (List (κ × Scan σ))} {seen : List κ} (hw : Settled T w)
    (hseen : w.clean = true → ∀ s ∈ seen, (w.keys s).legacy .root = none)
    (hend : pages = [] → w.clean = true → ∀ s, (w.keys s).legacy .root = none)
    (hk : ∀ w', Settled T w' → (w'.clean = true → ∀ s, (w'.keys s).legacy .root = none) → Goes T k w') :
    Goes T (migrateRoots pages seen k) w := by
  induction pages generalizing w seen with
  | nil => exact hk w hw (hend rfl)
  | cons page rest ih =>
    refine ⟨hw.at _, fun fault hok => ?_⟩
    cases fault with
    | refused | lost => exact ⟨hw, nofun⟩
    | ok =>
      obtain ⟨hthere, hlast⟩ := hok rfl
      refine goes_migrateSessions (w := w) hw (fun e he => .inl (hthere e.1 (mem_map_of_mem he)))
        fun w' hw' hroots hclean => ?_
      have hdone : w'.clean = true → ∀ s ∈ seen ++ page.map (·.1), (w'.keys s).legacy .root = none := by
        intro h
        obtain ⟨hc, hpage⟩ := hclean h
        exact forall_mem_append.2 ⟨fun s hs => hroots s (hseen hc s hs), forall_mem_map.2 hpage⟩
      refine ih hw' hdone fun hrest h s => ?_
      by_contra hne
      refine hne (hdone h s (hlast (by simp [hrest]) s fun hnone => hne (hroots s hnone)))

def LiveDue (x : Sess σ) : Prop := x.legacy .liveRoot ≠ none ∨ ∀ p ∈ [Part.liveRoot, .nodes, .stats], x.legacy p = none

omit [DecidableEq σ] in
theorem legacy_drop_live (x : Sess σ) :
    (x.drop [.liveRoot, .nodes, .stats]).legacy .root = x.legacy .root ∧
      ∀ p ∈ [Part.liveRoot, .nodes, .stats], (x.drop [.liveRoot, .nodes, .stats]).legacy p = none := by
  refine ⟨rfl, fun p hp => ?_⟩
  simp only [Sess.drop, if_pos hp]

/-- Without a root, the migration takes a session to the same place with its live root and without it. -/
theorem target_drop_live (hroot : x.legacy .root = none) (hdue : LiveDue x) :
    (x.drop [.liveRoot, .nodes, .stats]).target = x.target := by
  obtain ⟨hr, hgone⟩ := legacy_drop_live x
  rcases hdue with hlive | hnone
  · rw [target_of_live hroot (Option.isSome_iff_ne_none.2 hlive), target_of_done (hr.trans hroot) (hgone _ (by simp))]
  · rw [drop_of_absent hnone]

structure Swept (page : List κ) (w w' : Store κ σ) : Prop where
  live : ∀ s, (w.keys s).legacy .liveRoot = none → (w'.keys s).legacy .liveRoot = none
  clean : w'.clean = true → w.clean = true ∧ ∀ s ∈ page, (w'.keys s).legacy .liveRoot = none

theorem goes_deleteOrphans {page : List κ} (hw : Settled T w) (hdue : ∀ s ∈ page, LiveDue (w.keys s))
    (hroots : w.clean = true → ∀ s, (w.keys s).legacy .root = none)
    (hk : ∀ w', Settled T w' → (w'.clean = true → ∀ s, (w'.keys s).legacy .root = none) → Swept page w w' → Goes T k w') :
    Goes T (deleteOrphans page k) w := by
  induction page generalizing w with
  | nil => exact hk w hw hroots ⟨fun _ => id, fun h => ⟨h, nofun⟩⟩
  | cons s page ih =>
    have hpage : ∀ s' ∈ page, LiveDue (w.keys s') := fun s' hs' => hdue s' (mem_cons_of_mem _ hs')
    -- Left as it is, by an attempt in which not every command was answered.
    have hkeep : ∀ clean, (clean = true → False) → Goes T (deleteOrphans page k) ⟨w.keys, clean⟩ := by
      intro clean hclean
      refine ih (w := ⟨w.keys, clean⟩) hw hpage (fun h => (hclean h).elim)
        fun w' hw' hr h => hk w' hw' hr ⟨h.live, fun hc => ?_⟩
      exact (hclean (h.clean hc).1).elim
    have hdrop : ∀ clean, (clean = true → w.clean = true) → (w.keys s).legacy .root = none →
        Goes T (deleteOrphans page k) (w.put s ((w.keys s).drop [.liveRoot, .nodes, .stats]) clean) := by
      intro clean hclean hnone
      obtain ⟨hroot, hgone⟩ := legacy_drop_live (w.keys s)
      have htarget := (target_drop_live hnone (hdue s mem_cons_self)).trans (hw s)
      refine ih (forall_put (fun s' x => x.target = T s') htarget fun s' _ => hw s')
        (forall_put (fun s' x => s' ∈ page → LiveDue x) (fun _ => .inr hgone) fun s' _ => hpage s')
        (fun h => forall_put (fun _ x => x.legacy .root = none) (hroot.trans hnone) fun s' _ => hroots (hclean h) s')
        fun w' hw' hr h => hk w' hw' hr ⟨fun s' hs' => h.live s' ?_, fun hc => ?_⟩
      · exact forall_put (fun s' x => (w.keys s').legacy .liveRoot = none → x.legacy .liveRoot = none)
          (fun _ => hgone _ (by simp)) (fun _ _ => id) s' hs'
      obtain ⟨hc', hp⟩ := h.clean hc
      refine ⟨hclean hc', forall_mem_cons.2 ⟨h.live s ?_, hp⟩⟩
      rw [keys_put_self]
      exact hgone _ (by simp)
    have hdel : ∀ clean, (clean = true → w.clean = true) → (w.keys s).legacy .root = none →
        Goes T (.op (.del [.liveRoot, .nodes, .stats] s) fun _ => deleteOrphans page k) ⟨w.keys, clean⟩ := by
      intro clean hclean hnone
      refine ⟨Settled.at (w := ⟨w.keys, clean⟩) hw _, fun fault _ => ?_⟩
      cases fault with
      | ok => exact hdrop clean hclean hnone
      | lost => exact hdrop false nofun hnone
      | refused => exact hkeep false nofun
    refine ⟨hw.at _, fun fault hok => ?_⟩
    cases fault with
    | refused | lost => exact hdel false nofun (hok nofun)
    | ok =>
      cases hroot : (w.keys s).legacy .root with
      | none => simpa [exec, apply, hroot] using hdel w.clean id hroot
      | some r =>
        have hdirty : w.clean = true → False := by
          intro h
          rw [hroots h s] at hroot
          cases hroot
        simpa [exec, apply, hroot] using hkeep w.clean hdirty

theorem goes_deleteLiveRoots {pages : List (List κ)} {seen : List κ} (hw : Settled T w)
    (hroots : w.clean = true → ∀ s, (w.keys s).legacy .root = none)
    (hseen : w.clean = true → ∀ s ∈ seen, (w.keys s).legacy .liveRoot = none)
    (hend : pages = [] → w.clean = true → ∀ s, (w.keys s).legacy .liveRoot = none) :
    Goes T (deleteLiveRoots pages seen : M κ σ) w := by
  induction pages generalizing w seen with
  | nil => exact ⟨hw, fun h s => ⟨hroots h s, hend rfl h s⟩⟩
  | cons page rest ih =>
    refine ⟨hw.at _, fun fault hok => ?_⟩
    cases fault with
    | refused | lost => exact ⟨hw, nofun⟩
    | ok =>
      obtain ⟨hthere, hlast⟩ := hok rfl
      refine goes_deleteOrphans (w := w) hw (fun s hs => .inl (hthere s hs)) hroots fun w' hw' hr h => ?_
      have hdone : w'.clean = true → ∀ s ∈ seen ++ page, (w'.keys s).legacy .liveRoot = none := by
        intro hc
        obtain ⟨hc', hpage⟩ := h.clean hc
        exact forall_mem_append.2 ⟨fun s hs => h.live s (hseen hc' s hs), hpage⟩
      refine ih hw' hr hdone fun hrest hc s => ?_
      by_contra hne
      exact hne (hdone hc s (hlast (by simp [hrest]) s fun hnone => hne (h.live s hnone)))

theorem goes_migrateLegacySMSTKeys (e : Scans κ σ) (h : Ended T w) :
    Goes T (migrateLegacySMSTKeys e) { w with clean := true } := by
  refine goes_migrateRoots (w := { w with clean := true }) h.settled nofun nofun fun w' hw' hroots => ?_
  exact goes_deleteLiveRoots hw' hroots nofun nofun

/-! ## Every history -/

theorem goes_run {keys : Keys κ σ} {as : List (Act κ σ)} (h : Meets step (Allowed Ok Cut) (start keys) as) :
    Goes (fun s => (keys s).target) (run step (start keys) as).left (run step (start keys) as).store := by
  have hbody : ∀ (w : Store κ σ) (e : Scans κ σ), Ended (fun s => (keys s).target) w →
      Goes (fun s => (keys s).target) (migrateLegacySMSTKeys e) { w with clean := true } :=
    fun _ e hw => goes_migrateLegacySMSTKeys e hw
  have hcut : ∀ (w : Store κ σ) c, At (fun s => (keys s).target) w c → Cut w c →
      Ended (fun s => (keys s).target) { w with clean := false } :=
    fun _ _ hat hc => ⟨hat.cut hc, fun hclean => by cases hclean⟩
  exact along_run hbody hcut ⟨fun _ => rfl, fun hclean => by cases hclean⟩ h

/-- Where the parts of a session whose owner is found end. -/
theorem current_target {o : σ} (h : x.Owner o) (p : Part) :
    x.target.legacy p = none ∧ x.target.current o p = (x.legacy p).or (x.current o p) := by
  rw [target_of_owner h, legacy_moves]
  simp only [Sess.moves, foldl_cons, foldl_nil, current_move, legacy_move]
  cases p <;> simp

/-- From every key space, through any number of attempts cut anywhere but while a session whose root is renamed has
other legacy keys left: at every moment each key of a session whose owner is found is under its legacy name or under the
owner's; and an attempt that comes to its end with every command answered leaves every session at its target, with
nothing under the legacy names and all parts of a session whose owner is found under the owner's. -/
theorem migration_crash_safe (keys : Keys κ σ) (as : List (Act κ σ)) (h : Meets step (Allowed Ok Cut) (start keys) as) :
    let w := run step (start keys) as
    (∀ s o, (keys s).Owner o → ∀ p v, (keys s).legacy p = some v →
      (w.store.keys s).legacy p = some v ∨ (w.store.keys s).current o p = some v) ∧
    (w.left = .ret → w.store.clean = true → (∀ s, w.store.keys s = (keys s).target) ∧
      ∀ s o, (keys s).Owner o → ∀ p, (w.store.keys s).legacy p = none ∧
        ∀ v, (keys s).legacy p = some v → (w.store.keys s).current o p = some v) := by
  intro w
  have hgoes := goes_run h
  have hcur : ∀ s o, (keys s).Owner o → ∀ p v, (keys s).legacy p = some v → (keys s).target.current o p = some v := by
    intro s o ho p v hv
    rw [(current_target ho p).2, hv, Option.some_or]
  have hsafe : Safe (fun s => (keys s).target) w.store :=
    hgoes.always (fun _ _ hat => hat.safe) fun _ hend => hend.settled.safe
  refine ⟨fun s o ho p v hv => hsafe s o p v (hcur s o ho p v hv), fun hleft hclean => ?_⟩
  have hended : Ended (fun s => (keys s).target) w.store := by
    rw [show (run step (start keys) as).left = .ret from hleft] at hgoes
    exact hgoes
  have hkeys : ∀ s, w.store.keys s = (keys s).target := by
    intro s
    obtain ⟨hroot, hlive⟩ := hended.done hclean s
    exact (target_of_done hroot hlive).symm.trans (hended.settled s)
  refine ⟨hkeys, fun s o ho p => ?_⟩
  rw [hkeys s]
  exact ⟨(current_target ho p).1, hcur s o ho p⟩

end

def someRoot : Bytes := List.replicate smstRootLen 7

def oneSession : Keys (Fin 1) (Fin 1) := fun _ =>
  { legacy := fun
      | .root => some someRoot
      | .nodes => some [1]
      | .stats => none
      | .liveRoot => some [2]
    current := fun _ _ => none
    claimedRootHash := fun _ => some someRoot }

def seesRoot : Scans (Fin 1) (Fin 1) := ⟨⟨[(0, ⟨[0], []⟩)], []⟩, ⟨[], []⟩⟩

def seesLiveRoot : Scans (Fin 1) (Fin 1) := ⟨⟨[], []⟩, ⟨[0], []⟩⟩

/-- The process dies before the rename of the root, and the migration is run again. -/
def cutBeforeRename : List (Act (Fin 1) (Fin 1)) :=
  [.start seesRoot, .next .ok, .next .ok, .next .ok, .next .ok, .crash, .start seesRoot] ++ List.replicate 11 (.next .ok)

theorem migration_crash_safe_before_rename :
    Meets step (Allowed Ok Cut) (start oneSession) cutBeforeRename ∧
      let w := run step (start oneSession) cutBeforeRename
      w.left = .ret ∧ w.store.clean = true ∧
        ∀ p v, (oneSession 0).legacy p = some v → (w.store.keys 0).current 0 p = some v := by
  have hm : Meets step (Allowed Ok Cut) (start oneSession) cutBeforeRename := by
    refine ⟨trivial, ?_, ?_, ?_, ?_, ?_, trivial, ?_, ?_, ?_, ?_, ?_, ?_, ?_, ?_, ?_, ?_, ?_, trivial⟩ <;> rintro c ⟨⟩
    · exact fun _ => ⟨by decide, fun _ => by decide⟩
    · exact fun h => absurd rfl h
    · exact fun _ => ⟨by decide, fun _ => by decide⟩
    · exact fun h => absurd rfl h
    · exact fun h => absurd rfl h
    · exact fun _ => ⟨by decide, fun _ => by decide⟩
    · exact fun h => absurd rfl h
    · exact fun _ => ⟨by decide, fun _ => by decide⟩
    · exact fun h => absurd rfl h
    · exact nofun
    · exact fun h => absurd rfl h
    · exact fun h => absurd rfl h
    · exact nofun
    · exact fun h => absurd rfl h
    · exact nofun
    · exact fun _ => ⟨nofun, fun _ => by decide⟩
  have howner : (oneSession 0).Owner 0 := ⟨someRoot, rfl, by decide, fun o => ⟨fun _ => Subsingleton.elim _ _, fun _ => rfl⟩⟩
  refine ⟨hm, rfl, by decide, fun p v hv => ?_⟩
  exact (((migration_crash_safe oneSession cutBeforeRename hm).2 rfl (by decide)).2 0 0 howner p).2 v hv

/-- The process dies after the rename of the root. The run after it finds a live root without a root, and deletes the
nodes of the session whose root is under its owner. -/
theorem cut_after_rename_deletes_nodes :
    let as : List (Act (Fin 1) (Fin 1)) :=
      [.start seesRoot, .next .ok, .next .ok, .next .ok, .next .ok, .next .ok, .crash, .start seesLiveRoot] ++
        List.replicate 4 (.next .ok)
    let w := run step (start oneSession) as
    w.left.next?.isNone = true ∧ w.store.clean = true ∧ (w.store.keys 0).current 0 .root = some someRoot ∧
      (w.store.keys 0).legacy .nodes = none ∧ (w.store.keys 0).current 0 .nodes = none := by
  decide

end RelayMiner.Smst.Migration
