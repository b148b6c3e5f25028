import RelayMiner.Lifecycle.Ledger
import RelayMiner.Lifecycle.Transitions
/-!
# The reconciler names a failed submission's money

`reconcileGroup` over the passes of many blocks, for one stored entry: what each
pass records, what it names of the session's money and whether it gets rid of the
entry. The chain's answers, its silences and the entry removals that fail are
arbitrary. The session is read every time, and only the reconciler moves it: the
submission that failed left it terminal.
-/
open RelayMiner.Lib RelayMiner.Session

namespace RelayMiner.Lifecycle.Settlement

open Ledger (Money Outcome settleLedgerOutcome)

structure RebroadcastEntry where
  origTxHash : String
  txHash : String

inductive ProofState where
  | validated | rejected | other
  deriving DecidableEq

inductive Query where
  | failed
  | absent
  | present (proof : ProofState)
  deriving DecidableEq

inductive InclusionVerdict where
  | found | rejected | missing
  deriving DecidableEq

def claimPhaseVerdict : Query → InclusionVerdict
  | .present _ => .found
  | _ => .missing

def proofPhaseVerdict : Query → InclusionVerdict
  | .present .validated => .found
  | .present .rejected => .rejected
  | _ => .missing

def phaseVerdict : Phase → Query → InclusionVerdict
  | .claim => claimPhaseVerdict
  | .proof => proofPhaseVerdict

def windowCloseHeight (w : Windows) : Phase → Nat
  | .claim => w.claimClose
  | .proof => w.proofClose

def pollsAgain (w : Windows) (phase : Phase) (height : Nat) : Bool :=
  match phase with
  | .claim => height + 2 ≤ w.proofClose
  | .proof => false

inductive Resend where
  | sent (txHash : String)
  | notSent
  | notRequired
  | alreadyJudged

structure Pass where
  height : Nat
  query : Query
  listed : Bool := true
  clears : Bool := true
  flip : Fault := .ok
  root : Bytes := []
  resend : Resend := .notSent

structure World where
  entry : Option RebroadcastEntry
  session : SessionSnapshot
  outcomes : List Outcome := []
  /-- What the reconciler named of the session's money, one list for each time it did. -/
  named : List (List Money) := []

def World.clear (w : World) (p : Pass) : World := if p.clears then { w with entry := none } else w

def World.record (w : World) (phase : Phase) (e : RebroadcastEntry) (o : Outcome) (settle : Bool) : World :=
  { w with
    outcomes := w.outcomes ++ [o]
    named := if settle ∧ settleLedgerOutcome phase e.origTxHash o ≠ [] then
        w.named ++ [settleLedgerOutcome phase e.origTxHash o]
      else w.named }

def World.write (w : World) (o : Op) (f : Fault) : World :=
  { w with session := ((exec (some w.session) o f).1).getD w.session }

def World.reply (w : World) (o : Op) (f : Fault) : Reply := (exec (some w.session) o f).2

def claimFound (w : World) (p : Pass) (e : RebroadcastEntry) : World :=
  let o := Op.reactivateClaimed p.root e.txHash
  if p.root.length ≠ smstRootLen then (w.record .claim e .found true).clear p
  else
    match w.reply o p.flip with
    | .reactivation _ => ((w.write o p.flip).record .claim e .found true).clear p
    | _ => w.write o p.flip

def proofFound (w : World) (p : Pass) (e : RebroadcastEntry) : World :=
  let o := Op.reactivateProved e.txHash
  match w.reply o p.flip with
  | .reactivation src => ((w.write o p.flip).record .proof e .found src.isSome).clear p
  | _ => w.write o p.flip

/-- `rebroadcast`: a proof that is not required, or judged already, takes its entry with it and records nothing. -/
def rebroadcast (w : World) (phase : Phase) (p : Pass) (e : RebroadcastEntry) : World :=
  match phase, p.resend with
  | _, .sent txHash => { w with entry := some { e with txHash := if txHash = "" then e.txHash else txHash } }
  | .proof, .notRequired | .proof, .alreadyJudged => if p.clears then { w with entry := none } else w
  | _, _ => w

def reconcileGroup (windows : Windows) (phase : Phase) (w : World) (p : Pass) : World :=
  match w.entry with
  | none => w
  | some e =>
    let windowClosed := windowCloseHeight windows phase < p.height
    if !p.listed then w
    else if p.query = .failed then
      if ¬windowClosed then rebroadcast w phase p e
      else if pollsAgain windows phase p.height then w
      else (w.record phase e .pollError true).clear p
    else
      match phaseVerdict phase p.query with
      | .found =>
        match phase with
        | .claim => claimFound w p e
        | .proof => proofFound w p e
      | .rejected => (w.record phase e .rejected true).clear p
      | .missing =>
        if windowClosed then (w.record phase e .missing true).clear p else rebroadcast w phase p e

/-! ## What is promised of the books -/

/-- Claim phase: written off. Proof phase: the balance is closed, and the money proved or lost. -/
def Naming (phase : Phase) (n : List Money) : Prop :=
  match phase with
  | .claim => n = [.forgone]
  | .proof => n = [.unresolvedResolved, .proved] ∨ n = [.unresolvedResolved, .lost]

instance (phase : Phase) (n : List Money) : Decidable (Naming phase n) := by
  unfold Naming
  cases phase <;> infer_instance

structure SettledOnce (phase : Phase) (w : World) : Prop where
  naming : ∀ n ∈ w.named, Naming phase n
  once : w.named.length ≤ 1
  found : phase = .claim → .found ∈ w.outcomes → w.named = []
  settled : w.entry = none → w.outcomes ≠ [] → ¬(phase = .claim ∧ .found ∈ w.outcomes) → w.named.length = 1

/-! ## When the promise is kept -/

/-- The entry is asked about in time, goes with the first outcome that is not found, and the flip of a proof that
was found is answered. -/
def Answered (windows : Windows) (phase : Phase) (w : World) (p : Pass) : Prop :=
  (p.query = .failed → windowCloseHeight windows phase < p.height → pollsAgain windows phase p.height = true) ∧
    (p.query ≠ .failed → phaseVerdict phase p.query = .rejected ∨
      (phaseVerdict phase p.query = .missing ∧ windowCloseHeight windows phase < p.height) →
      p.clears = true ∧ w.outcomes = []) ∧
    (phase = .proof → phaseVerdict phase p.query = .found → p.flip ≠ .lost)

instance (windows : Windows) (phase : Phase) (w : World) (p : Pass) : Decidable (Answered windows phase w p) := by
  unfold Answered
  infer_instance

def Movable (s : SessionSnapshot) : Prop := canReactivateProved s.state s.proofTxHash = true

instance (s : SessionSnapshot) : Decidable (Movable s) := by
  unfold Movable
  infer_instance

structure Pending (phase : Phase) (w : World) (e : RebroadcastEntry) : Prop where
  unconfirmed : e.origTxHash = ""
  claim : phase = .claim → w.named = []
  proof : phase = .proof → (w.outcomes = [] ∧ w.named = [] ∧ Movable w.session) ∨
    (w.outcomes ≠ [] ∧ w.named = [[.unresolvedResolved, .proved]] ∧ ¬Movable w.session)

structure Inv (phase : Phase) (w : World) : Prop where
  settledOnce : SettledOnce phase w
  pending : ∀ e, w.entry = some e → Pending phase w e

section Steps

variable {phase : Phase} {w : World} {e : RebroadcastEntry} {p : Pass}

/-- An entry that a resend removes had no outcome recorded, or was named when one was. -/
theorem Inv.rebroadcast (h : Inv phase w) (he : w.entry = some e) : Inv phase (rebroadcast w phase p e) := by
  have hp := h.pending e he
  have hdrop (hphase : phase = .proof) : Inv phase { w with entry := none } := by
    refine ⟨{ h.settledOnce with settled := fun _ hne _ => ?_ }, nofun⟩
    obtain ⟨hnone, -⟩ | ⟨-, hnamed, -⟩ := hp.proof hphase
    · exact absurd hnone hne
    · simp [hnamed]
  unfold Settlement.rebroadcast
  split
  · refine ⟨{ h.settledOnce with settled := nofun }, fun e' he' => ?_⟩
    cases he'
    exact { hp with }
  · split
    · exact hdrop rfl
    · exact h
  · split
    · exact hdrop rfl
    · exact h
  · exact h

theorem settleLedgerOutcome_failed (phase : Phase) {o : Outcome} (ho : o = .missing ∨ o = .rejected) :
    settleLedgerOutcome phase "" o ≠ [] ∧ Naming phase (settleLedgerOutcome phase "" o) := by
  rcases ho with rfl | rfl <;> cases phase <;> decide

theorem Inv.failed (he : w.entry = some e) (h : Inv phase w) (hc : p.clears = true) (hout : w.outcomes = [])
    {o : Outcome} (ho : o = .missing ∨ o = .rejected) : Inv phase ((w.record phase e o true).clear p) := by
  have hp := h.pending e he
  have hnamed : w.named = [] := by
    cases phase with
    | claim => exact hp.claim rfl
    | proof =>
      obtain ⟨-, hn, -⟩ | ⟨hne, -, -⟩ := hp.proof rfl
      · exact hn
      · exact absurd hout hne
  obtain ⟨hne, hnaming⟩ := settleLedgerOutcome_failed phase ho
  have hfound : Outcome.found ∉ [o] := by rcases ho with rfl | rfl <;> decide
  simp only [World.clear, hc, if_true, World.record, hp.unconfirmed, hnamed, hout, hne, ne_eq, not_false_eq_true, and_self,
    List.nil_append]
  refine ⟨⟨?_, Nat.le_refl _, fun _ hf => absurd hf hfound, fun _ _ _ => rfl⟩, nofun⟩
  intro n hn
  obtain rfl := List.mem_singleton.1 hn
  exact hnaming

theorem Inv.recordClaimFound (he : w.entry = some e) (h : Inv .claim w) (session : SessionSnapshot) :
    Inv .claim ((World.record { w with session := session } .claim e .found true).clear p) := by
  have hp := h.pending e he
  have hnamed : w.named = [] := hp.claim rfl
  have hmoney : settleLedgerOutcome .claim e.origTxHash .found = [] := by
    rw [hp.unconfirmed]
    rfl
  have hrec : SettledOnce .claim (World.record { w with session := session } .claim e .found true) := by
    simp only [World.record, hmoney, ne_eq, not_true_eq_false, and_false, if_false, hnamed]
    exact ⟨nofun, Nat.zero_le _, fun _ _ => rfl, fun _ _ hf => absurd ⟨rfl, by simp⟩ hf⟩
  unfold World.clear
  split
  · refine ⟨{ hrec with settled := fun _ _ hf => absurd ⟨rfl, ?_⟩ hf }, nofun⟩
    simp [World.record]
  refine ⟨hrec, fun e' he' => ?_⟩
  cases he.symm.trans he'
  refine ⟨hp.unconfirmed, fun _ => ?_, nofun⟩
  simp only [World.record, hmoney, ne_eq, not_true_eq_false, and_false, if_false, hnamed]

theorem Inv.foundClaim (he : w.entry = some e) (h : Inv .claim w) : Inv .claim (claimFound w p e) := by
  unfold Settlement.claimFound
  dsimp only
  split
  · exact h.recordClaimFound he w.session
  split
  · exact h.recordClaimFound he _
  have hp := h.pending e he
  refine ⟨{ h.settledOnce with }, fun e' he' => ?_⟩
  cases he.symm.trans he'
  exact { hp with proof := fun h => nomatch h }

theorem proofFound_moves (hm : Movable w.session) (hf : p.flip = .ok) (hu : e.origTxHash = "") :
    ∃ session, ¬Movable session ∧ proofFound w p e =
      World.clear { w with
        session := session
        outcomes := w.outcomes ++ [.found]
        named := w.named ++ [[.unresolvedResolved, .proved]] } p := by
  unfold Movable at hm
  refine ⟨((exec (some w.session) (.reactivateProved e.txHash) .ok).1).getD w.session, ?_, ?_⟩
  · simp only [exec, apply, reactivateProvedScript, hm, if_true, Option.getD_some, Movable]
    exact Bool.false_ne_true
  · simp [proofFound, World.reply, World.write, hf, exec, apply, reactivateProvedScript, hm, World.record,
      settleLedgerOutcome, hu]

theorem proofFound_again (hm : ¬Movable w.session) (hf : p.flip = .ok) :
    proofFound w p e = World.clear { w with outcomes := w.outcomes ++ [.found] } p := by
  unfold Movable at hm
  simp [proofFound, World.reply, World.write, hf, exec, apply, reactivateProvedScript, hm, World.record]

theorem proofFound_refused (hf : p.flip = .refused) : proofFound w p e = w := by
  simp [proofFound, World.reply, World.write, hf, exec]

theorem Inv.foundProof (he : w.entry = some e) (h : Inv .proof w) (hf : p.flip ≠ .lost) :
    Inv .proof (proofFound w p e) := by
  have hp := h.pending e he
  cases hflip : p.flip with
  | lost => exact absurd hflip hf
  | refused =>
    rw [proofFound_refused hflip]
    exact h
  | ok =>
    -- Either this delivery names the money, or an earlier one did.
    obtain ⟨session, hmoved, heq⟩ : ∃ session, ¬Movable session ∧ proofFound w p e =
        World.clear { w with
          session := session
          outcomes := w.outcomes ++ [.found]
          named := [[.unresolvedResolved, .proved]] } p := by
      obtain ⟨-, hnamed, hm⟩ | ⟨-, hnamed, hm⟩ := hp.proof rfl
      · obtain ⟨session, hmoved, heq⟩ := proofFound_moves hm hflip hp.unconfirmed
        exact ⟨session, hmoved, by simpa [hnamed] using heq⟩
      · refine ⟨w.session, hm, ?_⟩
        rw [proofFound_again hm hflip, ← hnamed]
    rw [heq]
    have honce : ∀ n ∈ [[Money.unresolvedResolved, Money.proved]], Naming .proof n := by
      intro n hn
      obtain rfl := List.mem_singleton.1 hn
      exact .inl rfl
    unfold World.clear
    split
    · exact ⟨⟨honce, Nat.le_refl _, nofun, fun _ _ _ => rfl⟩, nofun⟩
    refine ⟨⟨honce, Nat.le_refl _, nofun, fun _ _ _ => rfl⟩, fun e' he' => ?_⟩
    cases he.symm.trans he'
    exact ⟨hp.unconfirmed, nofun, fun _ => .inr ⟨by simp, rfl, hmoved⟩⟩

theorem Inv.step {windows : Windows} (h : Inv phase w) (hg : Answered windows phase w p) :
    Inv phase (reconcileGroup windows phase w p) := by
  obtain ⟨hpoll, hfailed, hflip⟩ := hg
  unfold reconcileGroup
  cases he : w.entry with
  | none => exact h
  | some e =>
    dsimp only
    by_cases hlisted : p.listed = true
    · rw [if_neg (by simp [hlisted])]
      by_cases hq : p.query = .failed
      · rw [if_pos hq]
        by_cases hclosed : windowCloseHeight windows phase < p.height
        · rw [if_neg (not_not.2 hclosed), if_pos (hpoll hq hclosed)]
          exact h
        · rw [if_pos hclosed]
          exact h.rebroadcast he
      rw [if_neg hq]
      cases hv : phaseVerdict phase p.query with
      | found =>
        cases phase with
        | claim => exact h.foundClaim he
        | proof => exact h.foundProof he (hflip rfl hv)
      | rejected =>
        obtain ⟨hc, hout⟩ := hfailed hq (.inl hv)
        exact h.failed he hc hout (.inr rfl)
      | missing =>
        by_cases hclosed : windowCloseHeight windows phase < p.height
        · obtain ⟨hc, hout⟩ := hfailed hq (.inr ⟨hv, hclosed⟩)
          simp only [hclosed, if_true]
          exact h.failed he hc hout (.inl rfl)
        · simp only [hclosed, if_false]
          exact h.rebroadcast he
    · rw [if_pos (by simp [hlisted])]
      exact h

end Steps

def start (e : RebroadcastEntry) (session : SessionSnapshot) : World := { entry := some e, session := session }

theorem inv_start {phase : Phase} {e : RebroadcastEntry} {session : SessionSnapshot} (he : e.origTxHash = "")
    (hm : phase = .proof → Movable session) : Inv phase (start e session) where
  settledOnce := ⟨nofun, Nat.zero_le _, (fun _ _ => rfl), nofun⟩
  pending := by
    intro e' he'
    cases he'
    exact ⟨he, fun _ => rfl, fun hp => .inl ⟨rfl, rfl, hm hp⟩⟩

/-- In every run of the reconciler whose passes are answered, over an entry that was never confirmed and, if it is a
proof's, of a session that a proof found on chain can still move, the money is named once and an entry with an
outcome never goes without it. -/
theorem money_settled_once (windows : Windows) (phase : Phase) (e : RebroadcastEntry) (session : SessionSnapshot)
    (passes : List Pass) (he : e.origTxHash = "") (hm : phase = .proof → Movable session)
    (hg : Meets (reconcileGroup windows phase) (Answered windows phase) (start e session) passes) :
    SettledOnce phase (run (reconcileGroup windows phase) (start e session) passes) :=
  (inv_of_meets (Inv phase) (fun _ _ h hg => h.step hg) (inv_start he hm) hg).settledOnce

/-- The chain is silent, the proof is found, its removal fails and it is found again: named once. -/
theorem proof_found_twice :
    let windows : Windows := ⟨10, 20, 30, 40, by decide, by decide, by decide⟩
    let e : RebroadcastEntry := ⟨"", ""⟩
    let session : SessionSnapshot := { state := .proofTxError, claimTxHash := "c" }
    let passes : List Pass := [{ height := 33, query := .failed, resend := .sent "p" },
      { height := 34, query := .present .validated, clears := false }, { height := 35, query := .present .validated }]
    let w := run (reconcileGroup windows .proof) (start e session) passes
    w.entry.isNone ∧ w.named = [[.unresolvedResolved, .proved]] ∧ SettledOnce .proof w := by
  intro windows e session passes w
  exact ⟨by decide, by decide, money_settled_once windows .proof e session passes rfl (fun _ => by decide) (by decide)⟩

/-- An entry that is not removed has its claim written off once more at every block, and a query that fails after the
proof window has closed takes the entry and leaves its balance open. -/
theorem money_named_twice_or_never :
    let windows : Windows := ⟨10, 20, 30, 40, by decide, by decide, by decide⟩
    let e : RebroadcastEntry := ⟨"", ""⟩
    let claim := run (reconcileGroup windows .claim) (start e { state := .claimTxError })
      [{ height := 21, query := .absent, clears := false }, { height := 22, query := .absent }]
    let proof := run (reconcileGroup windows .proof) (start e { state := .proofTxError, claimTxHash := "c" })
      [{ height := 41, query := .failed }]
    (claim.named = [[.forgone], [.forgone]] ∧ ¬SettledOnce .claim claim) ∧
      (proof.entry.isNone ∧ proof.outcomes = [.pollError] ∧ proof.named = [] ∧ ¬SettledOnce .proof proof) := by
  refine ⟨⟨by decide, fun h => absurd h.once (by decide)⟩, by decide, by decide, by decide, fun h => ?_⟩
  exact absurd (h.settled (by decide) (by decide)) (by decide)

end RelayMiner.Lifecycle.Settlement
