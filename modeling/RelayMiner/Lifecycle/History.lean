import RelayMiner.Lifecycle.Cycle
/-!
# One session, from its first relay on

Everything that moves one session: the lifecycle's sweep and the transitions it
hands to the pool, claim and proof cycles over any batches with the session in
them, the inclusion reconciler, a restart, and the chain, where a transaction
that was sent can land in any block up to the close of the claim window. Cycles
run side by side and every one of them makes its writes one at a time. What the
chain answers is true at the height it answers for, or no answer.
-/
open RelayMiner.Lib RelayMiner.Session Function

namespace RelayMiner.Lifecycle

inductive Running where
  | waiting (batch : List Snap)
  | cycle (stage : Stage) (queue : List Write) (mem : Mem)

structure World where
  store : Stores
  /-- The last block the miner has seen, and the chain's last block. -/
  height : Nat
  tip : Nat
  landed : Option Nat := none
  pending : Bool := false
  proofSent : Bool := false
  resumed : Bool := false
  found : Option (Phase × SessionSnapshot) := none
  cycles : Nat → Option Running := fun _ => none
  verdicts : List SessionState := []
  cleanups : List SessionState := []

inductive Act where
  | block (lands : Bool)
  | see (height : Nat)
  | sweep (params : Bool) (q : ClaimQuery)
  | sweepUnread
  | start (i : Nat) (before after : List Snap)
  | begin (i : Nat) (unread : List SessionID)
  | abandon (i : Nat)
  | decide (i : Nat) (a : Answer) (lost : Bool)
  | write (i : Nat)
  | execute (v : SessionState)
  | cleanup (v : SessionState)
  | reconcileClaim (q : ClaimQuery) (root : Bytes) (r : Submit) (lost : Bool)
  | reconcileProof (q : ClaimQuery) (r : Submit) (judged lost : Bool)
  | restart

variable (cfg : Config) (x : Snap)

def World.record (w : World) : SessionSnapshot := w.store.sessions x.id

def World.book (w : World) (c : Callback) : World := { w with store := execWrite w.store (.session x.id c) }

/-! ## The chain -/

def World.answers (w : World) : ClaimQuery → Bool
  | .found _ status => w.landed.isSome && (status ≠ .validated || w.proofSent)
  | .notFound answered => decide (answered ≤ w.tip) && w.landed.all (answered < ·)
  | .error => true

/-- The transaction gets to a mempool: when it was accepted, and perhaps when no answer came. The chain's own
refusals are made before that. -/
def arrives (lost : Bool) : Submit → Bool
  | .accepted _ => true
  | .nothingSpent | .refused => lost
  | .windowExpired | .windowRefused | .named _ | .notRequired _ | .closestRefused => false

def block (w : World) (lands : Bool) : World :=
  { w with
    tip := w.tip + 1
    landed := if lands ∧ w.pending ∧ w.landed = none ∧ w.tip + 1 ≤ (cfg.windows x.endHeight).claimClose
      then some (w.tip + 1) else w.landed }

/-! ## The sweep -/

def sweep (w : World) (params : Bool) (q : ClaimQuery) : World :=
  let windows := cfg.windows x.endHeight
  let session := w.record x
  if w.found.isSome then w
  else if session.state.isTerminal then { w with resumed := false }
  else
    match determineTransition session w.height (if params then some windows else none) with
    | none => w
    | some (.claiming, _) => { w with found := some (.claim, session) }
    | some (.proving, _) => { w with found := some (.proof, session) }
    | some (.claimWindowClosed, _) =>
      if mayHaveClaimOnChain session w.resumed then
        if claimReadIsFinal w.height windows.claimClose ∧ w.answers q then
          match q with
          | .error => w
          | .found root _ =>
            if root.length = smstRootLen then
              { w.book x (.onClaimObservedOnChain root session.claimTxHash) with resumed := false }
            else w
          | .notFound _ => { w with resumed := false, verdicts := .claimWindowClosed :: w.verdicts }
        else w
      else { w with verdicts := .claimWindowClosed :: w.verdicts }
    | some (v, _) => { w with verdicts := v :: w.verdicts }

def startBatch (w : World) (i : Nat) (before after : List Snap) : World :=
  match w.found, w.cycles i with
  | some (phase, session), none =>
    let snap : Snap := ⟨x.id, x.endHeight, session.claimTxHash, session.proofTxHash⟩
    let batch := before ++ snap :: after
    if (batch.map (·.id)).Nodup then
      match phase with
      | .claim => { w.book x .claiming with
          found := none, cycles := update w.cycles i (some (.waiting batch)) }
      | .proof => { w.book x .proving with
          found := none
          cycles := update w.cycles i (some (.cycle (.proofs (startProofs batch)) [] { height := w.height })) }
    else w
  | _, _ => w

/-- `executeTransition`, the state. The store refuses to book a session that holds its claim as a failed one. -/
def execute (w : World) (v : SessionState) : World :=
  if v ∈ w.verdicts then
    let w' := { w with verdicts := w.verdicts.erase v }
    match v with
    | .claimWindowClosed =>
      if (w.record x).state.holdsClaimOnChain then w'
      else { w'.book x .onClaimWindowClosed with cleanups := v :: w.cleanups }
    | .proofWindowClosed => { w'.book x .onProofWindowClosed with cleanups := v :: w.cleanups }
    | .proved => { w'.book x .onSessionProved with cleanups := v :: w.cleanups }
    | _ => w'
  else w

def cleanup (w : World) (v : SessionState) : World :=
  if v ∈ w.cleanups then
    let w' := { w with
      store := execWrite w.store (.deleteTree x.id), resumed := false, cleanups := w.cleanups.erase v }
    if v = .proved then w'.book x .onSessionProved else w'
  else w

/-! ## The cycles -/

def beginCycle (w : World) (i : Nat) (unread : List SessionID) : World :=
  match w.cycles i with
  | some (.waiting batch) => { w with
      cycles := update w.cycles i
        (some (.cycle (.claims (startClaims (refresh w.store (· ∈ unread) batch))) [] { height := w.height })) }
  | _ => w

def abandonBatch (w : World) (i : Nat) : World :=
  match w.cycles i with
  | some (.waiting _) => { w with cycles := update w.cycles i none }
  | _ => w

def admits (w : World) : Stage → Answer → Bool
  | .claims (.building _ _), .claimBuilds results =>
    results.all fun r => r.1.id ≠ x.id ∨ builtOf r = none ∨ w.store.trees x.id
  | .claims (.closing _ _ (s :: _)), .claimQuery q => s.id ≠ x.id ∨ w.answers q
  | .proofs (.guard _ s), .claimQuery q => s.id ≠ x.id ∨ w.answers q
  | _, _ => true

def World.effect (w : World) (lost : Bool) : Stage → Answer → World
  | .claims (.sending _ _ remaining _), .submit r _ =>
    { w with pending := w.pending || (decide (x.id ∈ remaining.map (·.snap.id)) && arrives lost r) }
  | .proofs (.sending _ s _ _), .submit r _ =>
    { w with proofSent := w.proofSent || (decide (s.id = x.id) && arrives lost r) }
  | .proofs (.next c), _ => { w with resumed := w.resumed && decide (c.rest ≠ [] ∨ x.id ∉ c.settled) }
  | _, _ => w

def decideStage (w : World) (i : Nat) (a : Answer) (lost : Bool) : World :=
  match w.cycles i with
  | some (.cycle t [] m) =>
    if admits x w t a then
      let d := next cfg { m with height := w.height } t a
      { w.effect x lost t a with cycles := update w.cycles i (some (.cycle d.2.1 d.1 d.2.2)) }
    else w
  | _ => w

def writeNext (w : World) (i : Nat) : World :=
  match w.cycles i with
  | some (.cycle t (wr :: ws) m) =>
    { w with store := execWrite w.store wr, cycles := update w.cycles i (some (.cycle t ws m)) }
  | _ => w

/-! ## The inclusion reconciler -/

def World.setEntry (w : World) (phase : Phase) (e : Option Entry) : World :=
  { w with store := { w.store with
      entries := update w.store.entries phase (update (w.store.entries phase) x.id e) } }

/-- `canRebroadcast`, with no cap and no safety blocks. -/
def canRebroadcast (e : Entry) (height windowClose : Nat) : Bool := e.submitHeight < height ∧ height < windowClose

def resent (e : Entry) : Submit → Entry
  | .accepted txHash => { e with txHash := if txHash = "" then e.txHash else txHash }
  | _ => e

def resendClaim (w : World) (e : Entry) (r : Submit) (lost : Bool) : World :=
  if canRebroadcast e w.height (cfg.windows x.endHeight).claimClose then
    { w.setEntry x .claim (some (resent e r)) with pending := w.pending || arrives lost r }
  else w

def reconcileClaim (w : World) (q : ClaimQuery) (root : Bytes) (r : Submit) (lost : Bool) : World :=
  let windows := cfg.windows x.endHeight
  match w.store.entries .claim x.id with
  | none => w
  | some e =>
    if w.answers q then
      match q with
      | .found _ _ => (w.book x (.onClaimObservedOnChain root e.txHash)).setEntry x .claim none
      | .notFound _ => if windows.claimClose < w.height then w.setEntry x .claim none else resendClaim cfg x w e r lost
      | .error =>
        if windows.claimClose < w.height then
          if w.height + 2 ≤ windows.proofClose then w else w.setEntry x .claim none
        else resendClaim cfg x w e r lost
    else w

def resendProof (w : World) (e : Entry) (r : Submit) (judged lost : Bool) : World :=
  if canRebroadcast e w.height (cfg.windows x.endHeight).proofClose then
    match r, judged with
    | .notRequired _, _ | _, true => w.setEntry x .proof none
    | _, false => { w.setEntry x .proof (some (resent e r)) with proofSent := w.proofSent || arrives lost r }
  else w

def observeProof (w : World) (txHash : String) : World :=
  { w with store := { w.store with
      sessions := update w.store.sessions x.id
        (((onProofObservedOnChain txHash).complete apply (some (w.record x))).getD (w.record x)) } }

def reconcileProof (w : World) (q : ClaimQuery) (r : Submit) (judged lost : Bool) : World :=
  let windows := cfg.windows x.endHeight
  match w.store.entries .proof x.id with
  | none => w
  | some e =>
    if w.answers q then
      match q with
      | .found _ .validated => (observeProof x w e.txHash).setEntry x .proof none
      | .found _ .invalid => w.setEntry x .proof none
      | _ =>
        if windows.proofClose < w.height then w.setEntry x .proof none else resendProof cfg x w e r judged lost
    else w

/-! ## A restart -/

def restart (w : World) : World :=
  let w' := { w with resumed := false, found := none, cycles := fun _ => none, verdicts := [], cleanups := [] }
  match resumeTo (w.record x) with
  | some .active => { w'.book x .onClaimDeferred with resumed := true }
  | some _ => w'.book x .claimed
  | none => w'

/-- A block, a pass over the session, a batch's next answer or write, the reconciler's look, or a restart. -/
def act (w : World) : Act → World
  | .block lands => block cfg x w lands
  | .see height => { w with height := max w.height (min height w.tip) }
  | .sweep params q => sweep cfg x w params q
  -- A record that cannot be read is taken for expired.
  | .sweepUnread => if w.found.isSome then w else { w with resumed := false }
  | .start i before after => startBatch x w i before after
  | .begin i unread => beginCycle w i unread
  | .abandon i => abandonBatch w i
  | .decide i a lost => decideStage cfg x w i a lost
  | .write i => writeNext w i
  | .execute v => execute x w v
  | .cleanup v => cleanup x w v
  | .reconcileClaim q root r lost => reconcileClaim cfg x w q root r lost
  | .reconcileProof q r judged lost => reconcileProof cfg x w q r judged lost
  | .restart => restart x w

def deletes (w : World) : Act → Bool
  | .write i =>
    match w.cycles i with
    | some (.cycle _ (.deleteTree id :: _) _) => id = x.id
    | _ => false
  | .cleanup v => v ∈ w.cleanups
  | _ => false

end RelayMiner.Lifecycle
