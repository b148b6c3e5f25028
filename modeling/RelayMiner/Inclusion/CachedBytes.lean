import RelayMiner.Inclusion.Resend
import RelayMiner.Lib.Log
import RelayMiner.Lib.Runs
/-!
# How long the cached bytes of an entry live

Any number of resends of one entry, each written back. The log holds what every
attempt sent, how it was answered and what the entry kept, and the results are
about the log: rejected bytes do not go out again, bytes nobody judged go out
next, and bytes that only echo are given up when the stall bound says so.
-/
open RelayMiner.Lib

namespace RelayMiner.Inclusion.CachedBytes

open List

structure Attempt where
  height : Int
  resend : Resend

structure Record where
  height : Int
  resend : Resend
  out : Resubmitted
  kept : Bytes

structure State where
  entry : Option Entry
  log : List Record

section

variable (txHashOf : Bytes → String) (phase : RebroadcastPhase) (windowClose : Int)

def rebroadcast (e : Entry) (a : Attempt) : Option Entry :=
  let out := resubmitMessage txHashOf phase e windowClose a.resend
  if out.settles then none else some (e.afterResend a.height out)

/-- The entry is resent, while it is there; the attempt is logged with the bytes that were cached. -/
def step (s : State) (a : Attempt) : State :=
  match s.entry with
  | none => s
  | some e =>
    let e' := rebroadcast txHashOf phase windowClose e a
    let out := resubmitMessage txHashOf phase e windowClose a.resend
    ⟨e', s.log ++ [⟨a.height, a.resend, out, (e'.map (·.signedBytes)).getD []⟩]⟩

end

/-! ## What is said of the log -/

def counts (err : Option SendError) : Bool :=
  match err with
  | some err => !nothingWasSpent err
  | none => true

def lastCounted (submitHeight : Int) (log : List Record) : Int :=
  log.foldl (fun h p => if counts p.out.err then p.height else h) submitHeight

/-- Bytes the chain has rejected are not sent. -/
def NeverAgain (past : List Record) (p : Record) : Prop :=
  ∀ b, p.out.wire.bytes? = some b → ∀ q ∈ past, q.out.wire.bytes? = some b → q.resend.reply.answer ≠ .rejected

/-- Bytes the attempt before signed and nobody judged are sent as they are, while they may land. -/
def Reinjects (past : List Record) (p : Record) : Prop :=
  ∀ q b t now, past.getLast? = some q → q.out.wire = .signed b → q.resend.reply.answer.unjudged = true →
    q.out.sent.timeoutAt = some t → p.resend.client = true → p.resend.chainNow = some now → now < t →
    p.out.wire = .reinjected b

/-- Three blocks after the last counted attempt an attempt that does not succeed leaves no bytes; before that the
bytes the node already holds are kept. -/
def Stalls (submitHeight : Int) (past : List Record) (p : Record) : Prop :=
  (lastCounted submitHeight past + 3 ≤ p.height → p.out.err ≠ none → p.kept = []) ∧
  (p.height < lastCounted submitHeight past + 3 → ∀ b, p.out.wire = .reinjected b →
    p.resend.reply.answer = .alreadyQueued → p.kept = b)

def HashKept (txHashOf : Bytes → String) (e : Entry) : Prop :=
  e.signedBytes ≠ [] → e.txHash = "" ∨ e.txHash = txHashOf e.signedBytes

/-! ## When the bytes are safe -/

def fresh (log : List Record) (r : Resend) : Bool :=
  match r.signing with
  | .signed b _ => b ≠ [] && log.all fun q => q.out.wire.bytes? ≠ some b
  | _ => true

/-- A new transaction that nobody judges finds no older hash on the entry, and is sent within three blocks of the
last counted attempt. -/
def Covered (phase : RebroadcastPhase) (e : Entry) (a : Attempt) : Prop :=
  a.resend.signs phase e = true →
    (a.resend.reply.answer.unjudged = true → e.stuckTooLong a.height = false ∧ e.txHash = "") ∧
    (a.resend.reply.answer = .alreadyQueued → e.stuckTooLong a.height = true ∨ e.txHash = "")

instance (phase : RebroadcastPhase) (e : Entry) (a : Attempt) : Decidable (Covered phase e a) := by
  unfold Covered
  infer_instance

def Regular (phase : RebroadcastPhase) (s : State) (a : Attempt) : Prop :=
  ∀ e ∈ s.entry, e.submitHeight < a.height ∧ fresh s.log a.resend = true ∧ Covered phase e a

instance (phase : RebroadcastPhase) (s : State) (a : Attempt) : Decidable (Regular phase s a) := by
  unfold Regular
  infer_instance

/-! ## The fields of an entry after a resend -/

variable {txHashOf : Bytes → String} {phase : RebroadcastPhase} {windowClose : Int} {e : Entry} {height : Int}
  {out : Resubmitted} {reply : TxReply} {p : SignedTxPayload}

@[simp] theorem keepBytes_empty (e : Entry) : e.keepBytes {} = e := if_neg (by simp)

theorem keepBytes_of_ne (h : p.bytes ≠ []) : (e.keepBytes p).signedBytes = p.bytes ∧
    (e.keepBytes p).signedTimeoutAt = p.timeoutAt.getD 0 := by
  simp [Entry.keepBytes, h]

theorem keepBytes_cached (e : Entry) : e.keepBytes e.cached = e := by
  unfold Entry.keepBytes
  split_ifs
  · rfl
  · rfl

theorem cache_same (e : Entry) (height : Int) (out : Resubmitted) :
    (e.cache height out).txHash = e.txHash ∧ (e.cache height out).submitHeight = e.submitHeight ∧
      (e.cache height out).lastAttemptHeight = e.lastAttemptHeight := by
  have hkeep : ∀ p, (e.keepBytes p).txHash = e.txHash ∧ (e.keepBytes p).submitHeight = e.submitHeight ∧
      (e.keepBytes p).lastAttemptHeight = e.lastAttemptHeight := by
    intro p
    unfold Entry.keepBytes
    split_ifs <;> simp
  unfold Entry.cache
  split
  · exact hkeep out.sent
  split_ifs
  · exact ⟨rfl, rfl, rfl⟩
  · exact hkeep out.sent

theorem count_eq (e : Entry) (height : Int) (err : Option SendError) : e.count height err =
    if counts err then { e with rebroadcasts := e.rebroadcasts + 1, lastAttemptHeight := height } else e := by
  unfold Entry.count counts
  split
  next err => by_cases h : nothingWasSpent err = true <;> simp [h]
  · rfl

theorem afterResend_bytes (e : Entry) (height : Int) (out : Resubmitted) :
    (e.afterResend height out).signedBytes = (e.cache height out).signedBytes ∧
      (e.afterResend height out).signedTimeoutAt = (e.cache height out).signedTimeoutAt := by
  unfold Entry.afterResend Entry.noteHash
  rw [count_eq]
  split_ifs <;> simp

theorem afterResend_txHash (e : Entry) (height : Int) (out : Resubmitted) :
    (e.afterResend height out).txHash = if out.err = none ∧ out.hash ≠ "" then out.hash else e.txHash := by
  unfold Entry.afterResend Entry.noteHash
  rw [count_eq]
  have h := (cache_same e height out).1
  split_ifs <;> simp [h]

theorem afterResend_submitHeight (e : Entry) (height : Int) (out : Resubmitted) :
    (e.afterResend height out).submitHeight = e.submitHeight := by
  unfold Entry.afterResend Entry.noteHash
  rw [count_eq]
  have h := (cache_same e height out).2.1
  split_ifs <;> simp [h]

theorem afterResend_stuckSince (e : Entry) (out : Resubmitted) (h0 : height ≠ 0) :
    (e.afterResend height out).stuckSince = if counts out.err then height else e.stuckSince := by
  obtain ⟨-, hs, hl⟩ := cache_same e height out
  have hnote : ∀ e' : Entry, (e'.noteHash out).stuckSince = e'.stuckSince := by
    intro e'
    unfold Entry.noteHash
    split_ifs <;> rfl
  rw [Entry.afterResend, hnote, count_eq]
  split_ifs
  · simp [Entry.stuckSince, h0]
  · simp [Entry.stuckSince, hs, hl]

/-! ## What the answer makes of the bytes -/

theorem cache_answered (e : Entry) (height : Int) (ha : Answered txHashOf reply p out) : e.cache height out =
    if reply.answer = .success then e.keepBytes p
    else if reply.answer = .rejected ∨ e.stuckTooLong height = true then e.dropBytes
    else e.keepBytes p := by
  unfold Entry.cache
  rw [ha.sent, ha.err]
  split
  next herr => rw [if_pos ((TxReply.err_eq_none_iff reply).1 herr)]
  next err herr =>
    have hne : reply.answer ≠ .success := by
      intro h
      rw [(TxReply.err_eq_none_iff reply).2 h] at herr
      cases herr
    rw [if_neg hne, TxReply.preserves_err herr, TxReply.nothingWasSpent_err herr]
    by_cases hr : reply.answer = .rejected
    · simp [hr]
    · simp [hr]

theorem cache_unsent (e : Entry) (height : Int) (hu : Unsent out) :
    e.cache height out = e.dropBytes ∨ e.cache height out = e ∧ e.stuckTooLong height = false := by
  unfold Entry.cache
  split
  next herr => exact absurd herr hu.err
  split_ifs with h
  · exact .inl rfl
  refine .inr ⟨by rw [hu.sent, keepBytes_empty], ?_⟩
  simp only [Bool.or_eq_true, not_or, Bool.not_eq_true] at h
  exact h.2

/-- Too long after the last counted attempt, every failure drops the bytes. -/
theorem cache_stuck (h : e.stuckTooLong height = true) (herr : out.err ≠ none) : e.cache height out = e.dropBytes := by
  unfold Entry.cache
  split
  next hnone => exact absurd hnone herr
  · rw [h, Bool.or_true, if_pos rfl]

/-! ## The invariant -/

theorem lastCounted_append (submitHeight : Int) (log : List Record) (r : Record) :
    lastCounted submitHeight (log ++ [r]) = if counts r.out.err then r.height else lastCounted submitHeight log := by
  simp [lastCounted]

def Ready (log : List Record) (e : Entry) : Prop :=
  ∀ q b t, log.getLast? = some q → q.out.wire = .signed b → q.resend.reply.answer.unjudged = true →
    q.out.sent.timeoutAt = some t → e.signedBytes = b ∧ e.signedBytes ≠ [] ∧ e.signedTimeoutAt = t

def Unrejected (log : List Record) (b : Bytes) : Prop :=
  ∀ q ∈ log, q.out.wire.bytes? = some b → q.resend.reply.answer ≠ .rejected

structure Kept (txHashOf : Bytes → String) (submitHeight : Int) (log : List Record) (e : Entry) : Prop where
  submitted : e.submitHeight = submitHeight
  stuck : e.stuckSince = lastCounted submitHeight log
  hash : HashKept txHashOf e
  unrejected : e.signedBytes ≠ [] → Unrejected log e.signedBytes
  ready : Ready log e

structure Inv (txHashOf : Bytes → String) (submitHeight : Int) (s : State) : Prop where
  entry : ∀ e ∈ s.entry, Kept txHashOf submitHeight s.log e
  never : Each NeverAgain s.log
  again : Each Reinjects s.log
  stalls : Each (Stalls submitHeight) s.log

theorem each_snoc {Q : List Record → Record → Prop} {log : List Record} {r : Record} (h : Each Q log) (hr : Q log r) :
    Each Q (log ++ [r]) := (each_append log [r]).2 ⟨h, (each_singleton r).2 (by simpa using hr)⟩

variable {submitHeight : Int} {log : List Record} {r : Resend}

theorem fresh_unrejected {b : Bytes} {offset : Int} (hf : fresh log r = true) (hs : r.signing = .signed b offset) :
    b ≠ [] ∧ ∀ q ∈ log, q.out.wire.bytes? ≠ some b := by
  simp only [fresh, hs, Bool.and_eq_true, all_eq_true, decide_eq_true_eq] at hf
  exact hf

theorem bytes_of_reusable {now : Option Int} (h : reusable e.cached now = true) : e.signedBytes ≠ [] := by
  cases now with
  | none => cases h
  | some now =>
    simp only [reusable, Entry.cached, Bool.and_eq_true] at h
    exact of_decide_eq_true h.1

theorem stuckTooLong_eq (h : e.stuckSince = lastCounted submitHeight log) (height : Int) :
    e.stuckTooLong height = decide (lastCounted submitHeight log + 3 ≤ height) := by
  rw [Entry.stuckTooLong, h, reinjectionStallBlocks, decide_eq_decide]
  omega

/-- Answered bytes that the entry keeps were not rejected. -/
theorem cache_kept (ha : Answered txHashOf reply p out) (h : (e.cache height out).signedBytes ≠ []) :
    reply.answer ≠ .rejected ∧ e.cache height out = e.keepBytes p ∧
      (reply.answer = .success ∨ e.stuckTooLong height = false) := by
  rw [cache_answered e height ha] at h ⊢
  split_ifs at h ⊢ with hs hr
  · exact ⟨by rw [hs]; decide, rfl, .inl hs⟩
  · exact absurd rfl h
  · rw [not_or, Bool.not_eq_true] at hr
    exact ⟨hr.1, rfl, .inr hr.2⟩

/-! ## One attempt -/

section

variable {s : State} {a : Attempt} {out : Resubmitted} (ho : Resent txHashOf phase e windowClose a.resend out)
include ho

section
variable (hk : Kept txHashOf submitHeight log e)
include hk

theorem neverAgain_attempt (hf : fresh log a.resend = true) (kept : Bytes) :
    NeverAgain log ⟨a.height, a.resend, out, kept⟩ := by
  intro b hb q hq hqb
  rcases ho with ⟨-, hr, hw, -⟩ | ⟨b', offset, t, -, hs, hw, -⟩ | ⟨-, hu⟩
  · rw [hw] at hb
    cases hb
    exact hk.unrejected (bytes_of_reusable hr) q hq hqb
  · rw [hw] at hb
    cases hb
    exact absurd hqb ((fresh_unrejected hf hs).2 q hq)
  rw [hu.wire] at hb
  cases hb

theorem reinjects_attempt (kept : Bytes) :
    Reinjects log ⟨a.height, a.resend, out, kept⟩ := by
  intro q b t now hq hqw hqu hqt hc hn hlt
  obtain ⟨hb, hne, ht⟩ := hk.ready q b t hq hqw hqu hqt
  dsimp only at hc hn ⊢
  have hr : reusable e.cached a.resend.chainNow = true := by simp [reusable, Entry.cached, hn, hne, ht, hlt]
  rcases ho with ⟨-, -, hw, -⟩ | ⟨b', offset, t', hs, -⟩ | ⟨hno, -⟩
  · rw [hw, hb]
  · simp [Resend.signs, hr] at hs
  · simp [hc, hr] at hno

omit ho in
theorem stalls_attempt :
    Stalls submitHeight log ⟨a.height, a.resend, resubmitMessage txHashOf phase e windowClose a.resend,
      ((rebroadcast txHashOf phase windowClose e a).map (·.signedBytes)).getD []⟩ := by
  have hstuck := stuckTooLong_eq hk.stuck a.height
  refine ⟨fun hlate herr => ?_, fun hearly b hw hq => ?_⟩
  · simp only [rebroadcast]
    split_ifs
    · rfl
    rw [Option.map_some, Option.getD_some, (afterResend_bytes e a.height _).1,
      cache_stuck (by rw [hstuck]; exact decide_eq_true hlate) herr]
    rfl
  dsimp only at hearly hw hq ⊢
  rcases resubmitMessage_cases txHashOf phase e windowClose a.resend with
    ⟨-, -, hw', ha⟩ | ⟨b', offset, t, -, -, hw', -⟩ | ⟨-, hu⟩
  · rw [hw'] at hw
    cases hw
    have hns : e.stuckTooLong a.height = false := by
      rw [hstuck]
      exact decide_eq_false (by omega)
    simp only [rebroadcast, ha.not_settles, Bool.false_eq_true, if_false, Option.map_some, Option.getD_some,
      (afterResend_bytes e a.height _).1, cache_answered e a.height ha, hq, hns, keepBytes_cached]
    simp
  · rw [hw'] at hw
    cases hw
  · rw [hu.wire] at hw
    cases hw
end

theorem hashKept_attempt (hne : ∀ b, txHashOf b ≠ "") (hk : HashKept txHashOf e) (hf : fresh log a.resend = true)
    (hc : Covered phase e a)
    (hset : out.settles = false) :
    HashKept txHashOf (e.afterResend a.height out) := by
  intro hbytes
  rw [(afterResend_bytes e a.height _).1] at hbytes ⊢
  rw [afterResend_txHash]
  rcases ho with ⟨-, hr, -, ha⟩ | ⟨b, offset, t, hsig, hs, -, ha⟩ | ⟨-, hu⟩
  · rw [(cache_kept ha hbytes).2.1, keepBytes_cached]
    split_ifs with hok
    · exact .inr (ha.hash hok.1)
    · exact hk (bytes_of_reusable hr)
  · have ha := ha.resolve_left (by simp [hset])
    obtain ⟨hrej, hcache, hkept⟩ := cache_kept ha hbytes
    rw [hcache, (keepBytes_of_ne (fresh_unrejected hf hs).1).1]
    by_cases hok : out.err = none
    · rw [if_pos ⟨hok, by rw [ha.hash hok]; exact hne b⟩]
      exact .inr (ha.hash hok)
    -- Nobody judged the new bytes, so the entry had no hash before them.
    rw [if_neg fun h => hok h.1]
    have hsuccess : a.resend.reply.answer ≠ .success := fun h =>
      hok (ha.err.trans ((TxReply.err_eq_none_iff _).2 h))
    obtain ⟨hun, hq⟩ := hc hsig
    cases hans : a.resend.reply.answer with
    | success => exact absurd hans hsuccess
    | rejected => exact absurd hans hrej
    | noReply | mempoolFull => exact .inl (hun (by rw [hans]; rfl)).2
    | alreadyQueued =>
      rcases hq hans with hstuck | hnone
      · rw [hkept.resolve_left hsuccess] at hstuck
        cases hstuck
      · exact .inl hnone
  rw [if_neg fun h => hu.err h.1]
  rcases cache_unsent e a.height hu with hd | ⟨hd, -⟩
  · rw [hd] at hbytes
    exact absurd rfl hbytes
  · rw [hd] at hbytes ⊢
    exact hk hbytes

theorem unrejected_attempt (hk : e.signedBytes ≠ [] → Unrejected log e.signedBytes) (hf : fresh log a.resend = true)
    (hset : out.settles = false) (kept : Bytes) :
    let e' := e.afterResend a.height out
    e'.signedBytes ≠ [] → Unrejected
      (log ++ [⟨a.height, a.resend, out, kept⟩]) e'.signedBytes := by
  intro e' hbytes q hq hqb
  rw [(afterResend_bytes e a.height _).1] at hbytes hqb
  rcases ho with ⟨-, hr, -, ha⟩ | ⟨b, offset, t, -, hs, -, ha⟩ | ⟨-, hu⟩
  · obtain ⟨hrej, hcache, -⟩ := cache_kept ha hbytes
    rw [hcache, keepBytes_cached] at hqb
    rcases mem_append.1 hq with hq | hq
    · exact hk (bytes_of_reusable hr) q hq hqb
    · rw [mem_singleton.1 hq]
      exact hrej
  · obtain ⟨hrej, hcache, -⟩ := cache_kept (ha.resolve_left (by simp [hset])) hbytes
    obtain ⟨hb, hnew⟩ := fresh_unrejected hf hs
    rw [hcache, (keepBytes_of_ne hb).1] at hqb
    rcases mem_append.1 hq with hq | hq
    · exact absurd hqb (hnew q hq)
    · rw [mem_singleton.1 hq]
      exact hrej
  rcases cache_unsent e a.height hu with hd | ⟨hd, -⟩
  · rw [hd] at hbytes
    exact absurd rfl hbytes
  rw [hd] at hbytes hqb
  rcases mem_append.1 hq with hq | hq
  · exact hk hbytes q hq hqb
  · rw [mem_singleton.1 hq, hu.wire] at hqb
    cases hqb

theorem ready_attempt (hf : fresh log a.resend = true) (hc : Covered phase e a)
    (hset : out.settles = false) (kept : Bytes) :
    Ready (log ++ [⟨a.height, a.resend, out, kept⟩])
      (e.afterResend a.height out) := by
  intro q b t hq hw hun ht
  rw [List.getLast?_append, List.getLast?_singleton, Option.some_or, Option.some.injEq] at hq
  subst hq
  obtain ⟨hbytes, htime⟩ := afterResend_bytes e a.height out
  rw [hbytes, htime]
  rcases ho with ⟨-, -, hw', -⟩ | ⟨b', offset, t', hsig, hs, hw', ha⟩ | ⟨-, hu⟩
  · rw [hw'] at hw
    cases hw
  · rw [hw'] at hw
    cases hw
    have ha := ha.resolve_left (by simp [hset])
    have hb := (fresh_unrejected hf hs).1
    have hcache : e.cache a.height out =
        e.keepBytes ⟨b, txHashOf b, some t', windowClose⟩ := by
      rw [cache_answered e a.height ha, ((hc hsig).1 hun).1]
      cases hans : a.resend.reply.answer <;> simp_all [Answer.unjudged]
    obtain ⟨hkb, hkt⟩ := keepBytes_of_ne (e := e) (p := ⟨b, txHashOf b, some t', windowClose⟩) hb
    rw [hcache, hkb, hkt]
    rw [ha.sent] at ht
    cases ht
    exact ⟨rfl, hb, rfl⟩
  · rw [hu.wire] at hw
    cases hw

omit ho in
theorem inv_step (hne : ∀ b, txHashOf b ≠ "") (hsub : 0 ≤ submitHeight) (s : State) (a : Attempt)
    (h : Inv txHashOf submitHeight s) (ha : Regular phase s a) :
    Inv txHashOf submitHeight (step txHashOf phase windowClose s a) := by
  obtain ⟨entry, log⟩ := s
  cases entry with
  | none => exact h
  | some e =>
    have hk := h.entry e rfl
    obtain ⟨hh, hf, hc⟩ := ha e rfl
    have ho := resubmitMessage_cases txHashOf phase e windowClose a.resend
    refine ⟨fun e' he' => ?_, each_snoc h.never (neverAgain_attempt ho hk hf _),
      each_snoc h.again (reinjects_attempt ho hk _), each_snoc h.stalls (stalls_attempt hk)⟩
    simp only [step, rebroadcast] at he' ⊢
    split_ifs at he' with hset
    · cases he'
    cases he'
    rw [Bool.not_eq_true] at hset
    refine ⟨by rw [afterResend_submitHeight, hk.submitted], ?_, hashKept_attempt ho hne hk.hash hf hc hset,
      unrejected_attempt ho hk.unrejected hf hset _, ready_attempt ho hf hc hset _⟩
    rw [lastCounted_append, afterResend_stuckSince e _ (by have := hk.submitted; omega), hk.stuck]

end

/-! ## Every history -/

def start (msgBytes : Bytes) (submitHeight : Int) (txHash : String) (signed : SignedTxPayload)
    (attemptErr : Option SendError) (serviceID : String) (timeoutSeconds : Int) : State :=
  ⟨some (persistRebroadcastEntry msgBytes submitHeight txHash signed attemptErr serviceID timeoutSeconds), []⟩

theorem inv_start (msgBytes : Bytes) {txHash : String} {signed : SignedTxPayload} (attemptErr : Option SendError)
    (serviceID : String) (timeoutSeconds : Int) (hh : txHash = "" ∨ txHash = txHashOf signed.bytes) :
    Inv txHashOf submitHeight (start msgBytes submitHeight txHash signed attemptErr serviceID timeoutSeconds) := by
  refine ⟨fun e he => ?_, each_nil, each_nil, each_nil⟩
  cases he
  refine ⟨rfl, rfl, fun hb => ?_, fun _ q hq => ?_, fun q b t hq => ?_⟩
  · simp only [persistRebroadcastEntry] at hb ⊢
    split_ifs at hb ⊢ with hp
    · exact hh
    · exact absurd rfl hb
  · cases hq
  · cases hq

/-- A history of resends in which a new transaction that is left unjudged is sent within three blocks of the last
counted attempt and finds no older hash on the entry: rejected bytes are never sent again, unjudged ones are sent
next, echoes end at the stall bound, and the hash on the entry is that of its bytes. -/
theorem cached_bytes_live_while_they_may_land (txHashOf : Bytes → String) (hne : ∀ b, txHashOf b ≠ "")
    (phase : RebroadcastPhase) (windowClose : Int) (msgBytes : Bytes) (submitHeight : Int) (hsub : 0 ≤ submitHeight)
    (txHash : String) (signed : SignedTxPayload) (hh : txHash = "" ∨ txHash = txHashOf signed.bytes)
    (attemptErr : Option SendError) (serviceID : String) (timeoutSeconds : Int) (attempts : List Attempt)
    (hm : Meets (step txHashOf phase windowClose) (Regular phase)
      (start msgBytes submitHeight txHash signed attemptErr serviceID timeoutSeconds) attempts) :
    let s := run (step txHashOf phase windowClose)
      (start msgBytes submitHeight txHash signed attemptErr serviceID timeoutSeconds) attempts
    Each NeverAgain s.log ∧ Each Reinjects s.log ∧ Each (Stalls submitHeight) s.log ∧
      ∀ e ∈ s.entry, HashKept txHashOf e := by
  have h := inv_of_meets (Inv txHashOf submitHeight) (inv_step hne hsub)
    (inv_start msgBytes attemptErr serviceID timeoutSeconds hh) hm
  exact ⟨h.never, h.again, h.stalls, fun e he => (h.entry e he).hash⟩

def shortHash (b : Bytes) : String := if b = [1] then "A" else if b = [2] then "B" else "C"

theorem shortHash_ne (b : Bytes) : shortHash b ≠ "" := by
  unfold shortHash
  split_ifs <;> decide

/-- A submission without an answer: the node already holds its bytes, then rejects them; the next transaction gets
no answer, and is the one that goes out again. -/
theorem cached_bytes_live_resigned :
    let from10 := start [7] 10 "" ⟨[1], "A", some 1000, 20⟩ (some (.rejected ⟨.broadcast, 0, "", false⟩)) "svc" 1
    let attempts : List Attempt :=
      [⟨11, { chainNow := some 100, signing := .failed, reply := .response 19 "sdk" false }⟩,
        ⟨12, { chainNow := some 110, signing := .failed, reply := .response 18 "sdk" false }⟩,
        ⟨13, { chainNow := some 120, signing := .signed [2] 5, reply := .lost false }⟩,
        ⟨14, { chainNow := some 130, signing := .failed, reply := .response 0 "" false }⟩]
    let s := run (step shortHash .claim 20) from10 attempts
    s.log.map (·.out.wire) = [.reinjected [1], .reinjected [1], .signed [2], .reinjected [2]] ∧
      Each NeverAgain s.log ∧ Each Reinjects s.log ∧ Each (Stalls 10) s.log ∧ ∀ e ∈ s.entry, HashKept shortHash e :=
  ⟨by decide, cached_bytes_live_while_they_may_land shortHash shortHash_ne .claim 20 [7] 10 (by decide) ""
    ⟨[1], "A", some 1000, 20⟩ (.inl rfl) (some (.rejected ⟨.broadcast, 0, "", false⟩)) "svc" 1 _ (by decide)⟩

/-- An accepted transaction is rejected on its resend and the next one gets no answer: the entry keeps the new bytes
with the old hash. And the first resend three blocks after a submission signs, gets no answer and drops its bytes, so
that the next one signs a second transaction beside it. -/
theorem unanswered_resend_loses_its_bytes :
    (let accepted := start [7] 10 "A" ⟨[1], "A", some 1000, 20⟩ none "svc" 1
      let attempts : List Attempt :=
        [⟨11, { chainNow := some 100, signing := .failed, reply := .response 18 "sdk" false }⟩,
          ⟨12, { chainNow := some 110, signing := .signed [2] 5, reply := .lost false }⟩]
      ∃ e ∈ (run (step shortHash .claim 20) accepted attempts).entry,
        e.signedBytes = [2] ∧ e.txHash = "A" ∧ ¬ HashKept shortHash e) ∧
    (let unsent := start [7] 10 "" {} (some .saturated) "svc" 1
      let attempts : List Attempt :=
        [⟨13, { chainNow := some 100, signing := .signed [1] 5, reply := .lost false }⟩,
          ⟨14, { chainNow := some 110, signing := .signed [2] 6, reply := .lost false }⟩]
      let log := (run (step shortHash .claim 20) unsent attempts).log
      log.map (·.out.wire) = [.signed [1], .signed [2]] ∧ log.map (·.kept) = [[], [2]] ∧ ¬ Each Reinjects log) := by
  refine ⟨⟨_, rfl, rfl, rfl, fun h => ?_⟩, by decide, by decide, fun h => ?_⟩
  · exact absurd (h (by decide)) (by decide)
  · have hnext := h [_] _ [] rfl _ [1] (100 + 1000000000 + 5) 110 rfl rfl rfl rfl rfl rfl (by decide)
    exact absurd hnext (by decide)

end RelayMiner.Inclusion.CachedBytes
