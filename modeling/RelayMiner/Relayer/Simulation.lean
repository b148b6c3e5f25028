import RelayMiner.Lib.Calls
import RelayMiner.Lib.Log
import RelayMiner.Relayer.Relay
/-!
# Simulated relays

`Verify` of the relayers of a fleet, over one clock and the replay store they
share. A call binds the request to a pinned identity, reads the clock for the
timestamp in the session id, writes the mark of the signature, and only then
checks the signature. The clock runs on between those steps, and so do the other
calls; the signature check touches nothing that is shared and is taken with the
write before it. Times are in nanoseconds, as a duration of the source is.
-/

namespace RelayMiner.Relayer.Simulation

open List

open Lib Meter Function

inductive SimError where
  | unknownKeyID
  | disabled
  | expired
  | supplierMissing
  | supplierNotLoaded
  | serviceUnknown
  | serviceNotAllowed
  | identityMismatch
  | badSessionID
  | stale
  | replay
  | dedupUnavailable
  | badSignature
  deriving DecidableEq

/-! ## The session id -/

def simSessionIDPrefix : String := "simv1"

def parseDigits (ds : List Char) : Option Nat :=
  if ds ≠ [] ∧ ds.all Char.isDigit then some (ds.foldl (fun n d => 10 * n + (d.toNat - '0'.toNat)) 0) else none

def parseInt : List Char → Option Int
  | '-' :: ds => (parseDigits ds).bind fun n => if n ≤ 2 ^ 63 then some (-n) else none
  | '+' :: ds => (parseDigits ds).bind fun n => if n < 2 ^ 63 then some n else none
  | ds => (parseDigits ds).bind fun n => if n < 2 ^ 63 then some n else none

def parseSimSessionID (sessionID : String) : Option Int :=
  match sessionID.toList.splitOn ':' with
  | [tag, ts, nonce] => if tag = simSessionIDPrefix.toList ∧ nonce ≠ [] then parseInt ts else none
  | _ => none

variable {ts : Int}

theorem parseInt_fits {s : List Char} (h : parseInt s = some ts) : IsInt64 ts := by
  unfold parseInt at h
  split at h <;>
  · obtain ⟨n, -, h⟩ := Option.bind_eq_some_iff.1 h
    split_ifs at h with hn
    cases h
    constructor <;> omega

theorem parseSimSessionID_fits {sessionID : String} (h : parseSimSessionID sessionID = some ts) : IsInt64 ts := by
  unfold parseSimSessionID at h
  split at h
  · split_ifs at h
    exact parseInt_fits h
  · cases h

/-! ## Freshness -/

def second : Nat := 10 ^ 9

def unix (now : Nat) : Int := int64 (now / second : Nat)

def windowSecs (freshnessWindowSeconds : Int) : Int := if freshnessWindowSeconds ≤ 0 then 30 else freshnessWindowSeconds

def delta (nowUnix ts : Int) : Int :=
  let delta := int64 (nowUnix - ts)
  if delta < 0 then int64 (-delta) else delta

theorem windowSecs_pos (freshnessWindowSeconds : Int) : 0 < windowSecs freshnessWindowSeconds := by
  unfold windowSecs
  split_ifs <;> omega

/-- The distance is the true one up to where an int64 stops, and beyond it is at
least what is left between the clock and there. -/
theorem natAbs_lt_of_delta_lt {now window : Int} (hnow : 0 ≤ now) (hts : IsInt64 ts) (hend : now + window ≤ 2 ^ 63)
    (hne : ts + 2 ^ 63 ≠ now) (hwin : 0 < window) (h : delta now ts < window) : (now - ts).natAbs < window := by
  obtain ⟨hlo, hhi⟩ := hts
  simp only [delta] at h
  rcases Int.lt_trichotomy (now - ts) (2 ^ 63) with hd | hd | hd
  · rw [int64_eq ⟨by omega, hd⟩] at h
    split_ifs at h with hneg
    · rw [int64_eq ⟨by omega, by omega⟩] at h
      omega
    · omega
  · omega
  have hwrap : int64 (now - ts) = now - ts - 2 ^ 64 := by
    rw [← int64_eq (n := now - ts - 2 ^ 64) ⟨by omega, by omega⟩]
    exact (Int.sub_bmod_right ..).symm
  rw [hwrap, if_pos (by omega), int64_eq ⟨by omega, by omega⟩] at h
  omega

/-! ## Verify -/

structure SimIdentity (P : Type) where
  enabled : Bool
  /-- The zero time, for no expiry, is `none`. -/
  notAfter : Option Nat
  appAddress : String
  ringPoints : P
  /-- Empty for every configured service. -/
  allowedServices : List String

structure SimulationVerifier (P : Type) where
  identities : String → Option (SimIdentity P)
  hasSigner : String → Bool
  /-- `nil` skips the check. -/
  serviceIDs : Option (List String)

structure Crypto (P : Type) where
  validateBasic : RelayRequest → Bool
  sha256 : Bytes → Bytes
  verifySignatureAgainstPoints : RelayRequest → P → Bool
  /-- A signature is of one session header. -/
  signed_once : ∀ rr rr' points points', verifySignatureAgainstPoints rr points →
    verifySignatureAgainstPoints rr' points' → rr.signature = rr'.signature → rr.sessionHeader = rr'.sessionHeader

structure Call (P : Type) where
  verifier : SimulationVerifier P
  keyID : String
  rr : RelayRequest

def header (rr : RelayRequest) : SessionHeader := rr.sessionHeader.getD ⟨"", "", "", 0, 0⟩

def timestamp (rr : RelayRequest) : Option Int := parseSimSessionID (header rr).sessionId

section

variable {P : Type} (x : Crypto P) {c : Call P} {boundAt readAt : Nat}

def Call.bind (now : Nat) (c : Call P) : Except SimError (SimIdentity P) :=
  match c.verifier.identities c.keyID with
  | none => .error .unknownKeyID
  | some id =>
    if !id.enabled then .error .disabled
    else if ∃ t ∈ id.notAfter, t < now then .error .expired
    else if c.rr.supplierOperatorAddress = "" then .error .supplierMissing
    else if !c.verifier.hasSigner c.rr.supplierOperatorAddress then .error .supplierNotLoaded
    else if !x.validateBasic c.rr then .error .badSignature
    else if (header c.rr).applicationAddress ≠ id.appAddress then .error .identityMismatch
    else if ∃ ids ∈ c.verifier.serviceIDs, (header c.rr).serviceId ∉ ids then .error .serviceUnknown
    else if id.allowedServices ≠ [] ∧ (header c.rr).serviceId ∉ id.allowedServices then .error .serviceNotAllowed
    else .ok id

def freshness (window : Int) (now : Nat) (rr : RelayRequest) : Option SimError :=
  match timestamp rr with
  | none => some .badSessionID
  | some ts => if delta (unix now) ts ≥ window then some .stale else none

def checkSignature (id : SimIdentity P) (rr : RelayRequest) : Option SimError :=
  if x.verifySignatureAgainstPoints rr id.ringPoints then none else some .badSignature

abbrev Marks := Bytes → Option (Option Nat)

def isLive (now : Nat) : Option (Option Nat) → Bool
  | none => false
  | some none => true
  | some (some expiry) => now < expiry

/-- `expiryOf` of the store: no expiry without a positive time to live. -/
def expiryOf (now : Nat) (ttl : Int) : Option Nat := if ttl ≤ 0 then none else some (now + ttl.toNat)

def replayTTL (window : Int) : Int := int64 (int64 (2 * window) * second)

/-- `checkReplay`, by how its round trip to the store goes: whether the mark was
written, and the error. -/
def checkReplay (now : Nat) (marks : Marks) (fault : Fault) (signature : Bytes) : Bool × Option SimError :=
  let live := isLive now (marks (x.sha256 signature))
  match fault with
  | .ok => (!live, if live then some .replay else none)
  | .refused => (false, some .dedupUnavailable)
  | .lost => (!live, some .dedupUnavailable)

/-! ## The fleet -/

inductive Stage (P : Type) where
  | free
  | called (c : Call P)
  | bound (c : Call P) (id : SimIdentity P) (boundAt : Nat)
  | fresh (c : Call P) (id : SimIdentity P) (boundAt readAt : Nat)

/-- A call that returned: when it bound the request, read the clock for the
timestamp and wrote the mark (or ended before), and the error it returned. -/
structure Done (P : Type) where
  call : Call P
  boundAt : Nat
  readAt : Nat
  markedAt : Nat
  wrote : Bool
  result : Option SimError

structure Fleet (P : Type) where
  now : Nat := 0
  marks : Marks := fun _ => none
  calls : Nat → Stage P := fun _ => .free
  done : List (Done P) := []

inductive Act (P : Type) where
  | tick (ns : Nat)
  | verify (i : Nat) (c : Call P)
  | next (i : Nat) (fault : Fault)
  | crash (i : Nat)

variable (window : Int) {d : Done P}

def Fleet.goto (w : Fleet P) (i : Nat) (stage : Stage P) : Fleet P :=
  { w with calls := update w.calls i stage }

def Fleet.finish (w : Fleet P) (i : Nat) (d : Done P) : Fleet P := { w.goto i .free with done := w.done ++ [d] }

def Fleet.mark (w : Fleet P) (i : Nat) (fault : Fault) (c : Call P) (id : SimIdentity P) (boundAt readAt : Nat) :
    Fleet P :=
  let (wrote, err) := checkReplay x w.now w.marks fault c.rr.signature
  let w' := if wrote then
      { w with marks := update w.marks (x.sha256 c.rr.signature) (some (expiryOf w.now (replayTTL window))) }
    else w
  w'.finish i ⟨c, boundAt, readAt, w.now, wrote, err <|> checkSignature x id c.rr⟩

def Fleet.next (w : Fleet P) (i : Nat) (fault : Fault) : Fleet P :=
  match w.calls i with
  | .free => w
  | .called c =>
    match c.bind x w.now with
    | .error e => w.finish i ⟨c, w.now, w.now, w.now, false, some e⟩
    | .ok id => w.goto i (.bound c id w.now)
  | .bound c id boundAt =>
    match freshness window w.now c.rr with
    | some e => w.finish i ⟨c, boundAt, w.now, w.now, false, some e⟩
    | none => w.goto i (.fresh c id boundAt w.now)
  | .fresh c id boundAt readAt => w.mark x window i fault c id boundAt readAt

/-- Time passes, a call comes in or makes its next operation, or it ends with its process. -/
def step (w : Fleet P) : Act P → Fleet P
  | .tick ns => { w with now := w.now + ns }
  | .verify i c => match w.calls i with
    | .free => w.goto i (.called c)
    | _ => w
  | .next i fault => w.next x window i fault
  | .crash i => w.goto i .free

/-! ## What a call that returned says -/

/-- What `Verify` returns where the store has no mark of the signature. -/
def verdict (c : Call P) (boundAt readAt : Nat) : Option SimError :=
  match c.bind x boundAt with
  | .error e => some e
  | .ok id => freshness window readAt c.rr <|> checkSignature x id c.rr

/-- The seconds of the clock and the window from there on are int64, and so is
the distance of the timestamp from the clock. -/
def Done.InRange (d : Done P) : Prop :=
  (d.readAt / second : Nat) + window ≤ 2 ^ 63 ∧ ∀ ts ∈ timestamp d.call.rr, ts + 2 ^ 63 ≠ (d.readAt / second : Nat)

/-- The mark is written no more than the window after the timestamp. -/
def Done.Prompt (d : Done P) : Prop := ∀ ts ∈ timestamp d.call.rr, (d.markedAt / second : Nat) ≤ ts + window

def Done.Fresh (d : Done P) : Prop :=
  ∃ ts ∈ timestamp d.call.rr, (((d.readAt / second : Nat) : Int) - ts).natAbs < window

/-- The mark of `d`, written by `p`, is still there. -/
def MarkedBy (d p : Done P) : Prop :=
  p.wrote = true ∧ x.sha256 p.call.rr.signature = x.sha256 d.call.rr.signature ∧
    (0 < replayTTL window → d.markedAt < p.markedAt + replayTTL window)

/-- A call returns what it would alone, or the store failed it, or an earlier
call left a mark of its signature. -/
def Accounted (past : List (Done P)) (d : Done P) : Prop :=
  d.result = verdict x window d.call d.boundAt d.readAt ∨
  d.result = some .dedupUnavailable ∨
  d.result = some .replay ∧ ∃ p ∈ past, MarkedBy x window d p

/-! ## The invariant -/

def Stage.Sound (now : Nat) : Stage P → Prop
  | .free | .called _ => True
  | .bound c id boundAt => c.bind x boundAt = .ok id
  | .fresh c id boundAt readAt => c.bind x boundAt = .ok id ∧ freshness window readAt c.rr = none ∧ readAt ≤ now

def Apart (d e : Done P) : Prop :=
  d.wrote = true → e.wrote = true → x.sha256 d.call.rr.signature = x.sha256 e.call.rr.signature →
    0 < replayTTL window → d.markedAt + replayTTL window ≤ e.markedAt

structure Inv (w : Fleet P) : Prop where
  sound : ∀ i, (w.calls i).Sound x window w.now
  marked : ∀ hash m, w.marks hash = some m →
    ∃ p ∈ w.done, p.wrote = true ∧ x.sha256 p.call.rr.signature = hash ∧ m = expiryOf p.markedAt (replayTTL window)
  kept : 0 < replayTTL window → ∀ p ∈ w.done, p.wrote = true →
    ∃ e, w.marks (x.sha256 p.call.rr.signature) = some (some e) ∧ p.markedAt + replayTTL window ≤ e
  accounted : Each (Accounted x window) w.done
  apart : w.done.Pairwise (Apart x window)
  admitted : ∀ d ∈ w.done, d.result = none →
    d.wrote = true ∧ d.readAt ≤ d.markedAt ∧ verdict x window d.call d.boundAt d.readAt = none

theorem inv_init : Inv x window ({} : Fleet P) where
  sound _ := trivial
  marked := nofun
  kept _ := nofun
  accounted := each_nil
  apart := .nil
  admitted := nofun

variable {x} {window} {w : Fleet P}

theorem Stage.Sound.mono {now later : Nat} (hle : now ≤ later) {stage : Stage P} (h : stage.Sound x window now) :
    stage.Sound x window later := by
  cases stage with
  | free | called _ | bound _ _ _ => exact h
  | fresh c id boundAt readAt => exact ⟨h.1, h.2.1, Nat.le_trans h.2.2 hle⟩

theorem inv_tick (h : Inv x window w) (ns : Nat) : Inv x window { w with now := w.now + ns } :=
  { h with sound := fun i => (h.sound i).mono (Nat.le_add_right _ _) }

attribute [local simp] Fleet.goto Fleet.finish

theorem inv_goto (h : Inv x window w) (i : Nat) (stage : Stage P) (hs : stage.Sound x window w.now) :
    Inv x window (w.goto i stage) :=
  { h with
    sound := by
      intro j
      by_cases hj : j = i
      · subst hj
        simpa using hs
      · simpa [hj] using h.sound j }

theorem inv_finish (h : Inv x window w) (i : Nat) (hw : d.wrote = false) (hr : d.result ≠ none)
    (hd : Accounted x window w.done d) : Inv x window (w.finish i d) := by
  have hg := inv_goto h i .free trivial
  exact {
    sound := hg.sound
    marked := fun hash m hm => by
      obtain ⟨p, hp, hrest⟩ := h.marked hash m hm
      exact ⟨p, mem_append_left _ hp, hrest⟩
    kept := fun httl => forall_mem_append.2 ⟨h.kept httl, by simp [hw]⟩
    accounted := (each_append _ _).2 ⟨h.accounted, (each_singleton d).2 (by simpa using hd)⟩
    apart := pairwise_append.2 ⟨h.apart, pairwise_singleton _ _, fun p _ e he _ hwrote => by
      rw [mem_singleton.1 he, hw] at hwrote
      cases hwrote⟩
    admitted := forall_mem_append.2 ⟨h.admitted, by simp [hr]⟩ }

theorem expiryOf_of_pos {ttl : Int} (now : Nat) (h : 0 < ttl) : expiryOf now ttl = some (now + ttl.toNat) := by
  rw [expiryOf, if_neg (by omega)]

/-- A mark that is not live leaves no earlier write in force. -/
theorem expired_of_not_live (h : Inv x window w) (httl : 0 < replayTTL window) {p : Done P} (hp : p ∈ w.done)
    (hwrote : p.wrote = true) (hlive : isLive w.now (w.marks (x.sha256 p.call.rr.signature)) = false) :
    p.markedAt + replayTTL window ≤ w.now := by
  obtain ⟨e, he, hle⟩ := h.kept httl p hp hwrote
  rw [he] at hlive
  have : ¬ w.now < e := by simpa [isLive] using hlive
  omega

/-- A call writes its mark, where none is live, and returns. -/
theorem inv_wrote (h : Inv x window w) (i : Nat) (hw : d.wrote = true) (hat : d.markedAt = w.now)
    (hlive : isLive w.now (w.marks (x.sha256 d.call.rr.signature)) = false) (hd : Accounted x window w.done d)
    (hr : d.result = none → d.readAt ≤ d.markedAt ∧ verdict x window d.call d.boundAt d.readAt = none) :
    Inv x window ({ w with
      marks := update w.marks (x.sha256 d.call.rr.signature) (some (expiryOf w.now (replayTTL window))) }.finish
        i d) := by
  have hg := inv_goto h i .free trivial
  exact {
    sound := hg.sound
    marked := fun hash m hm => by
      by_cases heq : hash = x.sha256 d.call.rr.signature
      · subst heq
        have hm' : some (expiryOf w.now (replayTTL window)) = some m := by
          simpa using hm
        exact ⟨d, by simp, hw, rfl, by rw [hat]; exact (Option.some.inj hm').symm⟩
      have hm' : w.marks hash = some m := by simpa [heq] using hm
      obtain ⟨p, hp, hrest⟩ := h.marked hash m hm'
      exact ⟨p, mem_append_left _ hp, hrest⟩
    kept := fun httl p hp hwrote => by
      -- The mark just written outlasts every earlier one of its signature.
      have hnew : p.markedAt + replayTTL window ≤ w.now + replayTTL window →
          x.sha256 p.call.rr.signature = x.sha256 d.call.rr.signature → ∃ e,
          update w.marks (x.sha256 d.call.rr.signature) (some (expiryOf w.now (replayTTL window)))
            (x.sha256 p.call.rr.signature) = some (some e) ∧ p.markedAt + replayTTL window ≤ e := by
        intro hle heq
        refine ⟨w.now + (replayTTL window).toNat, ?_, by omega⟩
        rw [heq, update_self, expiryOf_of_pos _ httl]
      rcases mem_append.1 hp with hp | hp
      · by_cases heq : x.sha256 p.call.rr.signature = x.sha256 d.call.rr.signature
        · have := expired_of_not_live h httl hp hwrote (heq ▸ hlive)
          exact hnew (by omega) heq
        · obtain ⟨e, he, hle⟩ := h.kept httl p hp hwrote
          exact ⟨e, by simpa [heq] using he, hle⟩
      · rw [mem_singleton.1 hp] at hnew ⊢
        exact hnew (by omega) rfl
    accounted := (each_append _ _).2 ⟨h.accounted, (each_singleton d).2 (by simpa using hd)⟩
    apart := pairwise_append.2 ⟨h.apart, pairwise_singleton _ _, fun p hp e he hwrote _ heq httl => by
      rw [mem_singleton.1 he] at heq ⊢
      rw [hat]
      exact expired_of_not_live h httl hp hwrote (heq ▸ hlive)⟩
    admitted := forall_mem_append.2 ⟨h.admitted, forall_mem_singleton.2 fun hnone => ⟨hw, hr hnone⟩⟩ }

/-- A mark that is live was written by a call that returned, less than its time to live ago. -/
theorem markedBy_of_live (h : Inv x window w) (hat : d.markedAt = w.now)
    (hlive : isLive w.now (w.marks (x.sha256 d.call.rr.signature)) = true) :
    ∃ p ∈ w.done, MarkedBy x window d p := by
  cases hm : w.marks (x.sha256 d.call.rr.signature) with
  | none =>
    rw [hm] at hlive
    cases hlive
  | some m =>
    obtain ⟨p, hp, hwrote, heq, rfl⟩ := h.marked _ m hm
    refine ⟨p, hp, hwrote, heq, fun httl => ?_⟩
    rw [hm, expiryOf_of_pos _ httl] at hlive
    have : w.now < p.markedAt + (replayTTL window).toNat := by simpa [isLive] using hlive
    omega

theorem verdict_of_fresh {id : SimIdentity P} (hb : c.bind x boundAt = .ok id)
    (hf : freshness window readAt c.rr = none) : verdict x window c boundAt readAt = checkSignature x id c.rr := by
  rw [verdict, hb]
  simp [hf]

theorem inv_mark (h : Inv x window w) (i : Nat) (fault : Fault) {id : SimIdentity P}
    (hs : (Stage.fresh c id boundAt readAt).Sound x window w.now) :
    Inv x window (w.mark x window i fault c id boundAt readAt) := by
  obtain ⟨hb, hf, hle⟩ := hs
  have hverdict := verdict_of_fresh hb hf
  unfold Fleet.mark checkReplay
  cases hlive : isLive w.now (w.marks (x.sha256 c.rr.signature)) with
  | true =>
    cases fault with
    | ok => exact inv_finish h i rfl nofun (.inr (.inr ⟨rfl, markedBy_of_live h rfl hlive⟩))
    | refused | lost => exact inv_finish h i rfl nofun (.inr (.inl rfl))
  | false =>
    cases fault with
    | ok =>
      exact inv_wrote (d := ⟨c, boundAt, readAt, w.now, true, checkSignature x id c.rr⟩) h i rfl rfl hlive
        (.inl hverdict.symm) fun hnone => ⟨hle, hverdict.trans hnone⟩
    | refused => exact inv_finish h i rfl nofun (.inr (.inl rfl))
    | lost =>
      exact inv_wrote (d := ⟨c, boundAt, readAt, w.now, true, some .dedupUnavailable⟩) h i rfl rfl hlive
        (.inr (.inl rfl)) nofun

theorem inv_next (h : Inv x window w) (i : Nat) (fault : Fault) : Inv x window (w.next x window i fault) := by
  have hs := h.sound i
  unfold Fleet.next
  split
  · exact h
  next c hc =>
    split
    next e he =>
      refine inv_finish h i rfl nofun (.inl ?_)
      simp only [verdict, he]
    next id hid => exact inv_goto h i _ hid
  next c id boundAt hc =>
    rw [hc] at hs
    have hb : c.bind x boundAt = .ok id := hs
    split
    next e he =>
      refine inv_finish h i rfl nofun (.inl ?_)
      simp only [verdict, hb, he]
      rfl
    next hf => exact inv_goto h i _ ⟨hb, hf, Nat.le_refl _⟩
  next c id boundAt readAt hc =>
    rw [hc] at hs
    exact inv_mark h i fault hs

theorem inv_step (h : Inv x window w) (a : Act P) : Inv x window (step x window w a) := by
  cases a with
  | tick ns => exact inv_tick h ns
  | verify i c =>
    simp only [step]
    split
    · exact inv_goto h i _ trivial
    · exact h
  | next i fault => exact inv_next h i fault
  | crash i => exact inv_goto h i _ trivial

theorem inv_run (x : Crypto P) (window : Int) (as : List (Act P)) : Inv x window (run (step x window) {} as) :=
  inv_of_run (Inv x window) (fun _ a h => inv_step h a) as (inv_init x window)

/-! ## Admission -/

theorem verdict_none (h : verdict x window c boundAt readAt = none) :
    freshness window readAt c.rr = none ∧ ∃ points, x.verifySignatureAgainstPoints c.rr points = true := by
  unfold verdict at h
  split at h
  · cases h
  next id hid =>
    cases hf : freshness window readAt c.rr with
    | some e =>
      rw [hf] at h
      cases h
    | none =>
      rw [hf] at h
      have hsig : checkSignature x id c.rr = none := h
      refine ⟨rfl, id.ringPoints, ?_⟩
      unfold checkSignature at hsig
      split_ifs at hsig with hv
      exact hv

theorem unix_of_inRange {now : Nat} (hend : (now / second : Nat) + window ≤ 2 ^ 63) (hwin : 0 < window) :
    unix now = (now / second : Nat) := by
  have hnn : (0 : Int) ≤ (now / second : Nat) := Int.natCast_nonneg _
  exact int64_eq ⟨by omega, by omega⟩

theorem fresh_of_freshness (hwin : 0 < window) (hf : freshness window d.readAt d.call.rr = none)
    (hd : d.InRange window) : d.Fresh window := by
  unfold freshness at hf
  split at hf
  · cases hf
  next ts hts =>
    split_ifs at hf with hstale
    obtain ⟨hend, hne⟩ := hd
    rw [unix_of_inRange hend hwin] at hstale
    have hnn : (0 : Int) ≤ (d.readAt / second : Nat) := Int.natCast_nonneg _
    exact ⟨ts, hts, natAbs_lt_of_delta_lt hnn (parseSimSessionID_fits hts) hend (hne ts hts) hwin (by omega)⟩

/-- A timestamp that was admitted is less than the window ahead of the clock, whatever an int64 makes of the clock. -/
theorem timestamp_lt_of_freshness (hwin : 0 < window) (hf : freshness window d.readAt d.call.rr = none) :
    ∃ ts ∈ timestamp d.call.rr, ts < (d.readAt / second : Nat) + window := by
  unfold freshness at hf
  split at hf
  · cases hf
  next ts hts =>
    split_ifs at hf with hstale
    obtain ⟨-, hhi⟩ := parseSimSessionID_fits hts
    refine ⟨ts, hts, ?_⟩
    by_contra hlate
    have hnn : (0 : Int) ≤ (d.readAt / second : Nat) := Int.natCast_nonneg _
    have hunix : unix d.readAt = (d.readAt / second : Nat) := int64_eq ⟨by omega, by omega⟩
    rw [hunix, delta, int64_eq ⟨by omega, by omega⟩, if_pos (by omega), int64_eq ⟨by omega, by omega⟩] at hstale
    omega

theorem replayTTL_eq (hwin : 0 < window) (httl : 2 * window * second < 2 ^ 63) : replayTTL window = 2 * window * second := by
  have hfits : IsInt64 (2 * window) := by
    simp only [second] at httl
    constructor <;> omega
  rw [replayTTL, int64_eq hfits]
  exact int64_eq ⟨by simp only [second]; omega, httl⟩

/-- The mark of a request lives for as long as the request can be admitted: two
calls that admit one signature are too close for the second to find no mark. -/
theorem not_admitted_twice (hwin : 0 < window) (httl : 2 * window * second < 2 ^ 63) {e : Done P}
    (hread : d.readAt ≤ d.markedAt) (hf : freshness window d.readAt d.call.rr = none) (hp : e.Prompt window)
    (hts : timestamp d.call.rr = timestamp e.call.rr) : ¬ d.markedAt + replayTTL window ≤ e.markedAt := by
  obtain ⟨ts, hdts, hlt⟩ := timestamp_lt_of_freshness hwin hf
  have hle := hp ts (hts ▸ hdts)
  rw [replayTTL_eq hwin httl]
  simp only [second] at *
  omega

/-- In every run of a fleet: a request is admitted only with a timestamp less than the window from the clock, where
the clock and the distance are in the range of an int64; where twice the window is a duration, no signature is admitted
a second time by a call that writes its mark before the window after the timestamp is over; and a call returns what it
would alone unless the store fails it or a call with its signature has left a mark, which may be one that was refused. -/
theorem verify_admits_fresh_once (x : Crypto P) (freshnessWindowSeconds : Int) (as : List (Act P)) :
    let window := windowSecs freshnessWindowSeconds
    let w := run (step x window) {} as
    (∀ d ∈ w.done, d.result = none → d.InRange window → d.Fresh window) ∧
    (2 * window * second < 2 ^ 63 → w.done.Pairwise fun d e => d.result = none → e.result = none →
      e.Prompt window → d.call.rr.signature ≠ e.call.rr.signature) ∧
    Each (Accounted x window) w.done := by
  intro window w
  have h : Inv x window w := inv_run x window as
  have hwin : 0 < window := windowSecs_pos _
  refine ⟨fun d hd hnone hrange => ?_, fun httl => ?_, h.accounted⟩
  · exact fresh_of_freshness hwin (verdict_none (h.admitted d hd hnone).2.2).1 hrange
  refine h.apart.imp_of_mem ?_
  intro d e hd he hapart hdn hen hprompt hsig
  obtain ⟨hdw, hread, hdv⟩ := h.admitted d hd hdn
  obtain ⟨hew, -, hev⟩ := h.admitted e he hen
  obtain ⟨hdf, _, hds⟩ := verdict_none hdv
  obtain ⟨-, _, hes⟩ := verdict_none hev
  have hts : timestamp d.call.rr = timestamp e.call.rr := by
    simp only [timestamp, header, x.signed_once _ _ _ _ hds hes hsig]
  have hpos : 0 < replayTTL window := by
    rw [replayTTL_eq hwin httl]
    simp only [second]
    omega
  exact not_admitted_twice hwin httl hread hdf hprompt hts (hapart hdw hew (by rw [hsig]) hpos)

end

/-! ## A tampered copy -/

def validRequest : RelayRequest :=
  { sessionHeader := some ⟨"app", "svc", "simv1:100:ab", 1, 10⟩, supplierOperatorAddress := "supplier"
    signature := [7], payload := [1] }

def tamperedRequest : RelayRequest := { validRequest with payload := [2] }

def oneSigned : Crypto Unit where
  validateBasic _ := true
  sha256 b := b
  verifySignatureAgainstPoints rr _ := rr = validRequest
  signed_once := by
    intro rr rr' _ _ h h' _
    rw [of_decide_eq_true h, of_decide_eq_true h']

def callWith (rr : RelayRequest) : Call Unit where
  verifier :=
    { identities := fun _ => some ⟨true, none, "app", (), []⟩
      hasSigner := fun _ => true
      serviceIDs := none }
  keyID := "key"
  rr := rr

def oneByOne (first second : RelayRequest) : List (Act Unit) :=
  [.tick (100 * 10 ^ 9), .verify 0 (callWith first), .next 0 .ok, .next 0 .ok, .next 0 .ok,
    .verify 1 (callWith second), .next 1 .ok, .next 1 .ok, .next 1 .ok]

theorem verify_admits_valid_once :
    let w := run (step oneSigned 30) {} (oneByOne validRequest validRequest)
    w.done.map Done.result = [none, some .replay] ∧ ∀ d ∈ w.done, d.result = none → d.InRange 30 → d.Fresh 30 :=
  ⟨by decide, (verify_admits_fresh_once oneSigned 30 (oneByOne validRequest validRequest)).1⟩

/-- The tampered copy of a request is refused for its signature, and the request, which would be admitted, is then
refused as a replay. -/
theorem tampered_copy_spends_mark :
    let w := run (step oneSigned 30) {} (oneByOne tamperedRequest validRequest)
    w.done.map Done.result = [some .badSignature, some .replay] ∧
      verdict oneSigned 30 (callWith validRequest) (100 * 10 ^ 9) (100 * 10 ^ 9) = none := by
  decide

end RelayMiner.Relayer.Simulation
