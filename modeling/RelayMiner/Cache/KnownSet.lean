import RelayMiner.Lib.Runs
/-!
# The known set

Every replica adds the applications and services it meets to a set in the store,
once each. The leader's refresh reads the set into its own, refreshes what it has
from the chain, and then writes its own back in two commands: a delete of the
whole set, and the add. Applications and services go through the same code, so
the entity is a parameter.
-/
open RelayMiner.Lib

namespace RelayMiner.Cache.KnownSet

variable {E : Type}

/-- How far a pass of the leader is. The list it captured is its own set, which nothing changes until it ends. -/
inductive Pass where
  | idle
  | refreshing
  | deleted
  deriving DecidableEq

structure Leader (E : Type) where
  own : List E := []
  pass : Pass := .idle
  deriving DecidableEq

structure World (E : Type) where
  known : List E := []
  leader : Option (Leader E) := none
  /-- What each process has added; it does not add it again. -/
  discovered : List (Nat × E) := []
  /-- The entities whose add was answered with success. -/
  added : List E := []
  deriving DecidableEq

inductive Act (E : Type) where
  | recordDiscovered (process : Nat) (e : E) (ok : Bool)
  | restart (process : Nat)
  /-- A replica becomes leader and warms its own set up. -/
  | warmup (ok : Bool)
  /-- A pass reads the set and merges it into the leader's own. -/
  | mergeKnown (ok : Bool)
  | del (ok : Bool)
  | sAdd (ok : Bool)
  /-- The leader crashes or hands over, wherever its pass is. -/
  | leave

def recordDiscovered [DecidableEq E] (w : World E) (process : Nat) (e : E) (ok : Bool) : World E :=
  if (process, e) ∈ w.discovered ∨ ok = false then w
  else { w with known := e :: w.known, discovered := (process, e) :: w.discovered, added := e :: w.added }

/-- The members of the known set, or none when they cannot be read. -/
def getKnown (w : World E) (ok : Bool) : List E := if ok then w.known else []

/-- One command of the leader; the rewrite stops at the first that fails. -/
def Leader.next (w : World E) (l : Leader E) : Act E → World E
  | .mergeKnown ok =>
    if l.pass = .idle then { w with leader := some ⟨getKnown w ok ++ l.own, .refreshing⟩ } else w
  | .del ok =>
    if l.pass = .refreshing then
      if ok then { w with known := [], leader := some ⟨l.own, .deleted⟩ } else { w with leader := some ⟨l.own, .idle⟩ }
    else w
  | .sAdd ok =>
    if l.pass = .deleted then
      { w with known := if ok then l.own ++ w.known else w.known, leader := some ⟨l.own, .idle⟩ }
    else w
  | .leave => { w with leader := none }
  | _ => w

/-- A process adds an entity, a leader comes in, or the leader makes its next command. -/
def step [DecidableEq E] (w : World E) (a : Act E) : World E :=
  match a, w.leader with
  | .recordDiscovered process e ok, _ => recordDiscovered w process e ok
  | .restart process, _ => { w with discovered := w.discovered.filter (·.1 ≠ process) }
  | .warmup ok, none => { w with leader := some { own := getKnown w ok } }
  | a, some l => l.next w a
  | _, none => w

/-- The entity is in the set of the store or in the running leader's own. -/
def World.Knows (w : World E) (e : E) : Prop := e ∈ w.known ∨ ∃ l, w.leader = some l ∧ e ∈ l.own

/-- A pass reads what it is about to delete, nothing it lacks is added before it deletes, and a leader leaves
when its own set is in the store. -/
def Undisturbed (w : World E) : Act E → Prop
  | .recordDiscovered process e ok =>
    ¬((process, e) ∈ w.discovered ∨ ok = false) → ∀ l, w.leader = some l → l.pass = .refreshing → e ∈ l.own
  | .mergeKnown ok => ok = true
  | .leave => ∀ l, w.leader = some l → ∀ e ∈ l.own, e ∈ w.known
  | _ => True

structure Inv (w : World E) : Prop where
  knows : ∀ e ∈ w.added, w.Knows e
  read : ∀ l, w.leader = some l → l.pass = .refreshing → ∀ e ∈ w.known, e ∈ l.own

variable {w : World E}

theorem Inv.recordDiscovered [DecidableEq E] (h : Inv w) {process : Nat} {e : E} {ok : Bool}
    (hg : Undisturbed w (.recordDiscovered process e ok)) : Inv (recordDiscovered w process e ok) := by
  unfold KnownSet.recordDiscovered
  split
  · exact h
  rename_i hadds
  refine ⟨fun x hx => ?_, fun l hl hp x hx => ?_⟩
  · obtain rfl | hx := List.mem_cons.1 hx
    · exact .inl List.mem_cons_self
    · exact (h.knows x hx).imp_left (List.mem_cons_of_mem e)
  obtain rfl | hx := List.mem_cons.1 hx
  · exact hg hadds l hl hp
  · exact h.read l hl hp x hx

theorem Inv.next (h : Inv w) {l : Leader E} (hl : w.leader = some l) (a : Act E) (hg : Undisturbed w a) :
    Inv (l.next w a) := by
  have hknows : ∀ e ∈ w.added, e ∈ w.known ∨ e ∈ l.own := by
    intro e he
    simpa [World.Knows, hl] using h.knows e he
  have hkept : ∀ e ∈ w.added, e ∈ w.known ∨ ∃ l', some (⟨l.own, .idle⟩ : Leader E) = some l' ∧ e ∈ l'.own :=
    fun e he => (hknows e he).imp_right fun ho => ⟨_, rfl, ho⟩
  cases a with
  | mergeKnown ok =>
    obtain rfl : ok = true := hg
    simp only [Leader.next]
    split
    · refine ⟨fun e he => .inr ⟨_, rfl, ?_⟩, ?_⟩
      · simpa [getKnown] using hknows e he
      · rintro _ ⟨⟩ - e he
        exact List.mem_append_left _ he
    · exact h
  | del ok =>
    simp only [Leader.next]
    split
    next hp =>
      split
      · refine ⟨fun e he => .inr ⟨_, rfl, ?_⟩, by rintro _ ⟨⟩ ⟨⟩⟩
        exact (hknows e he).elim (h.read l hl hp e) id
      · exact ⟨hkept, by rintro _ ⟨⟩ ⟨⟩⟩
    · exact h
  | sAdd ok =>
    simp only [Leader.next]
    split
    · refine ⟨fun e he => (hkept e he).imp_left fun hk => ?_, by rintro _ ⟨⟩ ⟨⟩⟩
      cases ok with
      | true => exact List.mem_append_right _ hk
      | false => exact hk
    · exact h
  | leave => exact ⟨fun e he => .inl ((hknows e he).elim id (hg l hl e)), nofun⟩
  | _ => exact h

theorem inv_step [DecidableEq E] (w : World E) (a : Act E) (h : Inv w) (hg : Undisturbed w a) : Inv (step w a) := by
  unfold step
  split
  · exact h.recordDiscovered hg
  · exact ⟨h.knows, h.read⟩
  next hl =>
    refine ⟨fun e he => .inl ?_, by rintro _ ⟨⟩ ⟨⟩⟩
    simpa [World.Knows, hl] using h.knows e he
  next hl => exact h.next hl _ hg
  · exact h

/-- Along every such run, over any set the store starts with, what was added stays known. -/
theorem discovered_never_forgotten [DecidableEq E] (known : List E) (as : List (Act E))
    (hrun : Meets step Undisturbed { known } as) :
    ∀ e ∈ (run step { known } as).added, (run step { known } as).Knows e :=
  (inv_of_meets Inv inv_step ⟨by simp, by simp⟩ hrun).knows

def twoLeaders : List (Act Nat) :=
  [.warmup false, .recordDiscovered 1 7 true, .mergeKnown true, .recordDiscovered 2 7 true, .del true,
    .recordDiscovered 1 8 true, .sAdd true, .leave, .warmup true, .mergeKnown true, .del true]

theorem discovered_never_forgotten_twoLeaders :
    Meets step Undisturbed { known := [3] } twoLeaders ∧
      (run step { known := [3] } twoLeaders).added = [8, 7, 7] ∧
      ∀ e ∈ (run step { known := [3] } twoLeaders).added, (run step { known := [3] } twoLeaders).Knows e := by
  have hrun : Meets step Undisturbed { known := [3] } twoLeaders := by
    simp [twoLeaders, Undisturbed, step, Leader.next, recordDiscovered, getKnown]
  exact ⟨hrun, rfl, discovered_never_forgotten [3] twoLeaders hrun⟩

/-- An entity added after the read of a pass and before its delete, one that the pass could not read, and all of
them when the leader goes between the delete and the add: no process adds them again. -/
theorem rewrite_forgets :
    let lost (leader : Option (Leader Nat)) : World Nat := { leader, discovered := [(1, 7)], added := [7] }
    run step {} [.warmup true, .mergeKnown true, .recordDiscovered 1 7 true, .del true, .sAdd true,
      .recordDiscovered 1 7 true] = lost (some {}) ∧
    run step {} [.warmup true, .recordDiscovered 1 7 true, .mergeKnown false, .del true, .sAdd true] = lost (some {}) ∧
    run step {} [.warmup true, .recordDiscovered 1 7 true, .mergeKnown true, .del true, .leave] = lost none := by
  decide

end RelayMiner.Cache.KnownSet
