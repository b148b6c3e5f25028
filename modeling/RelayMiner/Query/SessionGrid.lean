import Mathlib.Data.Int.Init
import RelayMiner.Lib.Runs
/-!
# The session cache and the session grid

`GetSession` keeps a session under its application, its service and the height it
starts at, which it works out from the shared params it holds. Those may be
older than the chain's; a height below their anchor is of another grid, and its
own params are read. The key is printed as `application/service/start`; neither
name has a slash, so it is modelled as the three.

The chain answers height 0 with its latest session.
-/
open RelayMiner.Lib

namespace RelayMiner.Query.SessionGrid

/-- A grid without an anchor begins at the first block. -/
structure Params where
  numBlocksPerSession : Int
  anchor : Int
  pos : 0 < numBlocksPerSession
  first : 1 ≤ anchor

/-- Below its anchor the params describe no grid, and poktroll counts from the first block. -/
def getSessionStartHeight (p : Params) (h : Int) : Int :=
  if h ≤ 0 then 0
  else if h < p.anchor then 1 + (h - 1) / p.numBlocksPerSession * p.numBlocksPerSession
  else p.anchor + (h - p.anchor) / p.numBlocksPerSession * p.numBlocksPerSession

/-- The params in effect at each height: they change at a session boundary, and their anchor is there. -/
structure History where
  inEffect : Int → Params
  genesis : (inEffect 1).anchor = 1
  next : ∀ h, 1 ≤ h → inEffect (h + 1) = inEffect h ∨
    (inEffect (h + 1)).anchor = h + 1 ∧ getSessionStartHeight (inEffect h) (h + 1) = h + 1

def History.startAt (c : History) (h : Int) : Int := getSessionStartHeight (c.inEffect h) h

/-- The chain: its params, and its session of an application and a service from each start height. -/
structure Chain (App Svc S : Type) extends History where
  session : App → Svc → Int → S

variable {App Svc S : Type} [DecidableEq App] [DecidableEq Svc]

def Chain.querySession (c : Chain App Svc S) (height : Int) (app : App) (svc : Svc) (h : Int) : Option S :=
  if h = 0 then some (c.session app svc (c.startAt height))
  else if 1 ≤ h ∧ h ≤ height then some (c.session app svc (c.startAt h))
  else none

structure World (App Svc S : Type) where
  height : Int := 1
  /-- The height at which the live params were read. -/
  heldAt : Int := 1
  cache : List ((App × Svc × Int) × S) := []

/-- The start height `GetSession` files a session under. -/
def sessionStartHeight (c : History) (heldAt h : Int) : Int :=
  let live := c.inEffect heldAt
  getSessionStartHeight (if h < live.anchor ∧ 0 < h then c.inEffect h else live) h

/-- `answered` is whether the queries of the call are. -/
def getSession (c : Chain App Svc S) (w : World App Svc S) (app : App) (svc : Svc) (h : Int) (answered : Bool) :
    World App Svc S × Option S :=
  let key := (app, svc, sessionStartHeight c.toHistory w.heldAt h)
  match w.cache.lookup key with
  | some s => (w, some s)
  | none =>
    match if answered then c.querySession w.height app svc h else none with
    | some s => ({ w with cache := (key, s) :: w.cache }, some s)
    | none => (w, none)

inductive Act (App Svc : Type) where
  | block
  | refreshParams
  | getSession (app : App) (svc : Svc) (h : Int) (answered : Bool)
  /-- An entry is evicted, or expires. -/
  | evict (key : App × Svc × Int)

/-- The chain moves on, the params are read again, a session is asked for, or a cached one goes. -/
def step (c : Chain App Svc S) (w : World App Svc S) : Act App Svc → World App Svc S
  | .block => { w with height := w.height + 1 }
  | .refreshParams => { w with heldAt := w.height }
  | .getSession app svc h answered => (getSession c w app svc h answered).1
  | .evict key => { w with cache := w.cache.filter (·.1 ≠ key) }

/-- The params held lag the chain by less than a session of every grid in effect meanwhile. -/
def Current (c : History) (w : World App Svc S) : Prop :=
  ∀ k, w.heldAt ≤ k → k ≤ w.height → w.height - w.heldAt < (c.inEffect k).numBlocksPerSession

/-- A height the chain has is asked for, with params that are not too old. -/
def Timely (c : Chain App Svc S) (w : World App Svc S) : Act App Svc → Prop
  | .getSession _ _ h _ => Current c.toHistory w ∧ 1 ≤ h ∧ h ≤ w.height
  | _ => True

/-! ## One grid -/

variable {p : Params} {a h : Int}

theorem getSessionStartHeight_of_le (ha : p.anchor ≤ h) :
    getSessionStartHeight p h = p.anchor + (h - p.anchor) / p.numBlocksPerSession * p.numBlocksPerSession := by
  have h1 := p.first
  rw [getSessionStartHeight, if_neg (by omega), if_neg (by omega)]

theorem getSessionStartHeight_eq (ha : p.anchor ≤ a) (hd : p.numBlocksPerSession ∣ a - p.anchor) (hah : a ≤ h)
    (hlt : h - a < p.numBlocksPerSession) : getSessionStartHeight p h = a := by
  rw [getSessionStartHeight_of_le (by omega), show h - p.anchor = a - p.anchor + (h - a) by omega,
    Int.add_ediv_of_dvd_left hd, Int.ediv_eq_zero_of_lt (by omega) hlt, Int.add_zero, Int.ediv_mul_cancel hd]
  omega

theorem dvd_of_start_eq (ha : p.anchor ≤ a) (hs : getSessionStartHeight p a = a) :
    p.numBlocksPerSession ∣ a - p.anchor := by
  rw [getSessionStartHeight_of_le ha] at hs
  exact ⟨(a - p.anchor) / p.numBlocksPerSession, by rw [Int.mul_comm]; omega⟩

/-! ## Across the changes -/

variable {c : History} {held height k : Int}

theorem History.anchor_le (c : History) (hh : 1 ≤ h) : (c.inEffect h).anchor ≤ h := by
  induction h, hh using Int.leInduction with
  | base => exact Int.le_of_eq c.genesis
  | succ h hh ih =>
    rcases c.next h hh with heq | ⟨ha, -⟩
    · rw [heq]
      omega
    · exact Int.le_of_eq ha

theorem History.same_grid (c : History) (hh : 1 ≤ height) (ha : (c.inEffect height).anchor ≤ h) (hle : h ≤ height) :
    c.inEffect h = c.inEffect height := by
  induction height, hh using Int.leInduction with
  | base =>
    rw [c.genesis] at ha
    rw [show h = 1 by omega]
  | succ height hh ih =>
    by_cases hlast : h = height + 1
    · rw [hlast]
    rcases c.next height hh with heq | ⟨hnew, -⟩
    · rw [heq] at ha ⊢
      exact ih ha (by omega)
    · omega

/-- Within the lag the grid is the one held, or one that began on its boundary. -/
theorem History.adjacent (hheld : 1 ≤ held)
    (hlag : ∀ k, held ≤ k → k ≤ height → height - held < (c.inEffect k).numBlocksPerSession)
    (hk : held ≤ k) (hle : k ≤ height) :
    c.inEffect k = c.inEffect held ∨ held < (c.inEffect k).anchor ∧
      getSessionStartHeight (c.inEffect held) (c.inEffect k).anchor = (c.inEffect k).anchor := by
  induction k, hk using Int.leInduction with
  | base => exact .inl rfl
  | succ k hk ih =>
    rcases c.next k (by omega) with heq | ⟨ha, hs⟩
    · rw [heq]
      exact ih (by omega)
    rcases ih (by omega) with hsame | ⟨hlt, -⟩
    · rw [hsame] at hs
      exact .inr ⟨by omega, ha.symm ▸ hs⟩
    -- A second change would come a whole session after the first.
    have hanchor := c.anchor_le (show 1 ≤ k by omega)
    have hdvd := dvd_of_start_eq (by omega) hs
    have := Int.le_of_dvd (by omega) hdvd
    have := hlag k hk (by omega)
    omega

theorem sessionStartHeight_eq (hheld : 1 ≤ held)
    (hlag : ∀ k, held ≤ k → k ≤ height → height - held < (c.inEffect k).numBlocksPerSession)
    (h1 : 1 ≤ h) (hle : h ≤ height) : sessionStartHeight c held h = c.startAt h := by
  unfold sessionStartHeight History.startAt
  dsimp only
  split
  · rfl
  have hanchor : (c.inEffect held).anchor ≤ h := by omega
  by_cases hpast : h ≤ held
  · rw [c.same_grid hheld hanchor hpast]
  rcases History.adjacent hheld hlag (by omega) hle with heq | ⟨hlt, hs⟩
  · rw [heq]
  have ha := c.anchor_le h1
  have hp := c.anchor_le hheld
  have hnew := hlag h (by omega) hle
  have hold := hlag held (Int.le_refl _) (by omega)
  rw [getSessionStartHeight_eq (a := (c.inEffect h).anchor) (by omega) (dvd_of_start_eq (by omega) hs) ha
    (by omega), getSessionStartHeight_eq (Int.le_refl _) (by simp) ha (by omega)]

/-! ## The cache -/

structure Inv (c : Chain App Svc S) (w : World App Svc S) : Prop where
  held : 1 ≤ w.heldAt
  behind : w.heldAt ≤ w.height
  cache : ∀ e ∈ w.cache, e.2 = c.session e.1.1 e.1.2.1 e.1.2.2

variable {C : Chain App Svc S} {w : World App Svc S}

theorem Inv.getSession (hi : Inv C w) {app : App} {svc : Svc} {answered : Bool}
    (ht : Timely C w (.getSession app svc h answered)) :
    Inv C (getSession C w app svc h answered).1 ∧
      ∀ s, (getSession C w app svc h answered).2 = some s → s = C.session app svc (C.startAt h) := by
  obtain ⟨hlag, h1, hle⟩ := ht
  have hkey : sessionStartHeight C.toHistory w.heldAt h = C.startAt h := sessionStartHeight_eq hi.held hlag h1 hle
  simp only [SessionGrid.getSession, hkey]
  split
  next s hs =>
    obtain ⟨l₁, l₂, hcache, -⟩ := List.lookup_eq_some_iff.1 hs
    refine ⟨hi, fun s' hs' => ?_⟩
    cases hs'
    exact hi.cache ((app, svc, C.startAt h), s) (by simp [hcache])
  have hq : C.querySession w.height app svc h = some (C.session app svc (C.startAt h)) := by
    simp only [Chain.querySession, if_neg (show h ≠ 0 by omega), h1, hle, and_self, if_true]
  cases answered with
  | false => exact ⟨hi, nofun⟩
  | true =>
    simp only [if_true, hq]
    refine ⟨⟨hi.held, hi.behind, fun e he => ?_⟩, fun s hs => (Option.some.inj hs).symm⟩
    obtain rfl | he := List.mem_cons.1 he
    · rfl
    · exact hi.cache e he

theorem inv_step (C : Chain App Svc S) (w : World App Svc S) (a : Act App Svc) (hi : Inv C w) (ht : Timely C w a) :
    Inv C (step C w a) := by
  obtain ⟨hheld, hbehind, hcache⟩ := hi
  cases a with
  | block => exact ⟨hheld, by simp only [step]; omega, hcache⟩
  | refreshParams => exact ⟨Int.le_trans hheld hbehind, Int.le_refl _, hcache⟩
  | getSession app svc h answered => exact (Inv.getSession ⟨hheld, hbehind, hcache⟩ ht).1
  | evict key => exact ⟨hheld, hbehind, fun e he => hcache e (List.mem_of_mem_filter he)⟩

/-- After every such run the next call answers with the chain's session, and two heights have one key if and only
if they are of one session. -/
theorem getSession_is_the_chains (C : Chain App Svc S) (as : List (Act App Svc)) (hrun : Meets (step C) (Timely C) {} as)
    (app : App) (svc : Svc) (h : Int) (answered : Bool)
    (ht : Timely C (run (step C) {} as) (.getSession app svc h answered)) :
    (∀ s, (getSession C (run (step C) {} as) app svc h answered).2 = some s → s = C.session app svc (C.startAt h)) ∧
      ∀ h', 1 ≤ h' → h' ≤ (run (step C) {} as).height →
        (sessionStartHeight C.toHistory (run (step C) {} as).heldAt h =
          sessionStartHeight C.toHistory (run (step C) {} as).heldAt h' ↔ C.startAt h = C.startAt h') := by
  have hi : Inv C (run (step C) {} as) := inv_of_meets (Inv C) (inv_step C) ⟨Int.le_refl _, Int.le_refl _, nofun⟩ hrun
  refine ⟨(hi.getSession ht).2, fun h' h1' hle' => ?_⟩
  obtain ⟨hlag, h1, hle⟩ := ht
  rw [sessionStartHeight_eq hi.held hlag h1 hle, sessionStartHeight_eq hi.held hlag h1' hle']

/-- Sessions of ten blocks that become sessions of three with block 11; a session is known by its start. -/
def shortened : Chain Unit Unit Int where
  inEffect h := if h < 11 then ⟨10, 1, by decide, by decide⟩ else ⟨3, 11, by decide, by decide⟩
  genesis := by decide
  next h _ := by
    by_cases h10 : h = 10
    · subst h10
      exact .inr (by decide)
    · exact .inl (by simp only [show h + 1 < 11 ↔ h < 11 by omega])
  session _ _ start := start

/-- The params are read at block 10, and block 11 comes. -/
def acrossTheChange : List (Act Unit Unit) :=
  [.block, .block, .block, .block, .block, .block, .block, .block, .block, .refreshParams, .getSession () () 3 true, .block,
    .getSession () () 11 true]

theorem getSession_is_the_chains_across :
    Meets (step shortened) (Timely shortened) {} acrossTheChange ∧
      ∀ s, (getSession shortened (run (step shortened) {} acrossTheChange) () () 11 true).2 = some s → s = 11 := by
  have hcurrent : ∀ {held height : Int}, height - held < 3 →
      Current shortened.toHistory { height, heldAt := held, cache := ([] : List ((Unit × Unit × Int) × Int)) } := by
    intro held height hlag k _ _
    simp only [shortened]
    split <;> simp <;> omega
  have hrun : Meets (step shortened) (Timely shortened) {} acrossTheChange :=
    ⟨trivial, trivial, trivial, trivial, trivial, trivial, trivial, trivial, trivial, trivial,
      ⟨hcurrent (by decide), by decide, by decide⟩, trivial, ⟨hcurrent (by decide), by decide, by decide⟩, trivial⟩
  exact ⟨hrun, (getSession_is_the_chains shortened acrossTheChange hrun () () 11 true
    ⟨hcurrent (by decide), by decide, by decide⟩).1⟩

/-- At block 11, with the params of block 10: height 14 is taken for one of the session that began with block 11, and that
session is returned for it. -/
theorem session_ahead_of_the_chain :
    let w := run (step shortened) {} acrossTheChange
    w.height = 11 ∧ w.heldAt = 10 ∧ (getSession shortened w () () 14 true).2 = some 11 ∧
      shortened.session () () (shortened.startAt 14) = 14 := by
  decide

end RelayMiner.Query.SessionGrid
