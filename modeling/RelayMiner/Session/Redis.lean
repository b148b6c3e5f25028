import RelayMiner.Lib.Tasks
import RelayMiner.Relay.Commit
import RelayMiner.Session.Store
/-!
# `RedisSessionStore`

One supplier's keys: a hash for each session and the set of the sessions' ids,
each with a lifetime of its own. A script or a transaction pipeline is one
command; what a method sends after its first command it sends in another round
trip. The lifetime of a hash is refreshed by everything that writes it, that of
the set by `Save` and `CreateIfAbsent` alone. The sets of ids by state, which
the listing does not read, and keys from before the hash layout are left out.

Time is in milliseconds, and the clients' clock is the server's.
-/
open RelayMiner.Lib RelayMiner.Relay

namespace RelayMiner.Session.Redis

variable {κ ι : Type} [DecidableEq κ]

structure Draft (ι : Type) where
  ident : ι
  snap : SessionSnapshot
  createdAt : Option Nat := none

structure Row (ι : Type) where
  ident : ι
  snap : SessionSnapshot
  createdAt : Nat
  lastUpdatedAt : Nat
  deriving DecidableEq

def Draft.stamped (d : Draft ι) (now : Nat) : Row ι := ⟨d.ident, d.snap, d.createdAt.getD now, now⟩

structure Reactivation where
  src : SessionState
  claimMissingVerdict : Verdict := .none
  claimTxHash : String
  proofTxHash : String := ""
  deriving DecidableEq

structure Keyspace (κ ι : Type) where
  now : Nat
  rows : κ → Option (Timed (Row ι))
  index : Option (Timed (List κ))

def Keyspace.row (s : Keyspace κ ι) (id : κ) : Option (Row ι) := live s.now (s.rows id)

def Keyspace.members (s : Keyspace κ ι) : List κ := (live s.now s.index).getD []

def Keyspace.wait (s : Keyspace κ ι) (t : Nat) : Keyspace κ ι := { s with now := s.now + t }

inductive Cmd (κ ι : Type) where
  | hgetall (id : κ)
  | smembers
  | fetch (id : κ)
  | save (existing : Bool) (id : κ) (d : Draft ι)
  | create (id : κ) (d : Draft ι)
  | index (id : κ)
  | updateState (id : κ) (newState : SessionState) (verdict : Verdict)
  | reactivateClaimed (id : κ) (root : Bytes) (claimTxHash : String)
  | reactivateProved (id : κ) (proofTxHash : String)
  | increment (id : κ) (computeUnits : Nat)
  | relayBatch (id : κ) (newRelays newComputeUnits : Nat)
  | delete (id : κ)

inductive Rep (κ ι : Type) where
  | failed
  | row (r : Option (Row ι))
  | members (ids : List κ)
  | created (b : Bool)
  | ok
  | refused (r : Reply)
  | reactivation (r : Option Reactivation)
  | counted (s : CommitStatus)

section

variable (ttl : Nat)

/-- `SessionTTL` as a script is given it, and as the client gives it to a pipeline: whole seconds, and in the second
case at least one. -/
def scriptTTL : Nat := ttl / 1000 * 1000

def pipeTTL : Nat := if ttl < 1000 then 1000 else ttl / 1000 * 1000

def Keyspace.setRow (s : Keyspace κ ι) (id : κ) (ttl : Nat) (r : Row ι) : Keyspace κ ι :=
  { s with rows := Function.update s.rows id (timed s.now ttl r) }

def Keyspace.rewrite (s : Keyspace κ ι) (id : κ) (r : Row ι) (snap : SessionSnapshot) : Keyspace κ ι :=
  s.setRow id (scriptTTL ttl) { r with snap := snap, lastUpdatedAt := s.now }

def Keyspace.enlist (s : Keyspace κ ι) (id : κ) : Keyspace κ ι :=
  { s with index := timed s.now (pipeTTL ttl) (s.members.insert id) }

def savedRow (existing : Bool) (d : Draft ι) (now : Nat) (r : Option (Row ι)) : Row ι :=
  { d.stamped now with snap := saveScript existing d.snap (r.map (·.snap)) }

def count (r : Row ι) (newRelays newComputeUnits : Nat) : SessionSnapshot :=
  { r.snap with
    relayCount := r.snap.relayCount + newRelays
    totalComputeUnits := r.snap.totalComputeUnits + newComputeUnits }

def applyCmd (s : Keyspace κ ι) : Cmd κ ι → Keyspace κ ι × Rep κ ι
  | .hgetall id | .fetch id => (s, .row ((s.row id).map fun r => { r with snap := decodeSnapshot r.snap }))
  | .smembers => (s, .members s.members)
  | .save existing id d => ((s.setRow id (pipeTTL ttl) (savedRow existing d s.now (s.row id))).enlist ttl id, .ok)
  | .create id d =>
    match s.row id with
    | some _ => (s, .created false)
    | none => (s.setRow id (scriptTTL ttl) (d.stamped s.now), .created true)
  | .index id => (s.enlist ttl id, .ok)
  | .updateState id newState verdict =>
    match s.row id with
    | none => (s, .refused .notFound)
    | some r =>
      match checkStateWrite r.snap newState with
      | some refusal => (s, .refused refusal)
      | none => (s.rewrite ttl id r { r.snap with
          state := newState
          claimMissingVerdict :=
            if verdict ≠ .none ∧ r.snap.state ≠ newState then verdict else r.snap.claimMissingVerdict }, .ok)
  | .reactivateClaimed id root claimTxHash =>
    match s.row id with
    | none => (s, .refused .notFound)
    | some r =>
      if canReactivateClaimed r.snap.state then
        (s.rewrite ttl id r { r.snap with
          state := .claimed
          claimedRootHash := root
          claimMissingVerdict := .none
          claimTxHash := if claimTxHash = "" then r.snap.claimTxHash else claimTxHash },
          .reactivation (some ⟨r.snap.state, r.snap.claimMissingVerdict, r.snap.claimTxHash, ""⟩))
      else (s, .reactivation none)
  | .reactivateProved id proofTxHash =>
    match s.row id with
    | none => (s, .refused .notFound)
    | some r =>
      if canReactivateProved r.snap.state r.snap.proofTxHash then
        (s.rewrite ttl id r { r.snap with
          state := .proved
          proofTxHash := if r.snap.proofTxHash = "" ∧ proofTxHash ≠ "" then proofTxHash else r.snap.proofTxHash },
          .reactivation (some ⟨r.snap.state, .none, r.snap.claimTxHash, r.snap.proofTxHash⟩))
      else (s, .reactivation none)
  | .increment id computeUnits =>
    match s.row id with
    | none => (s, .counted .notFound)
    | some r =>
      if r.snap.state.isTerminal then (s, .counted .terminal)
      else (s.rewrite ttl id r (count r 1 computeUnits), .counted .counted)
  | .relayBatch id newRelays newComputeUnits =>
    match s.row id with
    | none => (s, .counted .notFound)
    | some r =>
      if r.snap.state.isTerminal then (s, .counted .terminal)
      else if 0 < newRelays then (s.rewrite ttl id r (count r newRelays newComputeUnits), .counted .counted)
      else (s, .counted .counted)
  | .delete id =>
    ({ s with
      rows := Function.update s.rows id none
      index := s.index.map fun t => ⟨t.value.filter (· ≠ id), t.deadline⟩ }, .ok)

structure Round where
  wait : Nat := 0
  fault : Fault := .ok

def execCmd (s : Keyspace κ ι) (c : Cmd κ ι) (e : Round) : Keyspace κ ι × Rep κ ι :=
  match e.fault with
  | .ok => applyCmd ttl (s.wait e.wait) c
  | .refused => (s.wait e.wait, .failed)
  | .lost => ((applyCmd ttl (s.wait e.wait) c).1, .failed)

end

/-! ## The methods -/

inductive Outcome (κ ι : Type) where
  | failed
  | ok
  | row (r : Option (Row ι))
  | created (b : Bool)
  | refused (r : Reply)
  | reactivation (r : Option Reactivation)
  | terminal
  deriving DecidableEq

inductive Method (κ ι : Type) where
  | get (id : κ)
  | save (id : κ) (d : Draft ι)
  | createIfAbsent (id : κ) (d : Draft ι)
  | updateState (id : κ) (newState : SessionState) (verdict : Verdict)
  | reactivateClaimed (id : κ) (root : Bytes) (claimTxHash : String)
  | reactivateProved (id : κ) (proofTxHash : String)
  | incrementRelayCount (id : κ) (computeUnits : Nat)
  | commitBatch (id : κ) (newRelays newComputeUnits : Nat)
  | delete (id : κ)

abbrev Job (κ ι α : Type) := Task (Cmd κ ι) (Rep κ ι) α

def Rep.outcome : Rep κ ι → Outcome κ ι
  | .failed | .members _ => .failed
  | .row r => .row r
  | .created b => .created b
  | .ok => .ok
  | .refused r => .refused r
  | .reactivation r => .reactivation r
  | .counted .counted => .ok
  | .counted .notFound => .refused .notFound
  | .counted .terminal => .terminal

def sending (c : Cmd κ ι) : Job κ ι (Outcome κ ι) := .op c fun r => .done r.outcome

/-- `Save`: the read only tells whether the hash is there, and a read that fails says it is not. -/
def save (id : κ) (d : Draft ι) : Job κ ι (Outcome κ ι) :=
  .op (.hgetall id) fun r => sending (.save (r matches .row (some _)) id d)

/-- `CreateIfAbsent`: the session that was created is listed in a second command, whose failure is logged. -/
def createIfAbsent (id : κ) (d : Draft ι) : Job κ ι (Outcome κ ι) :=
  .op (.create id d) fun r =>
    match r with
    | .created true => .op (.index id) fun _ => .done (.created true)
    | r => .done r.outcome

def delete (id : κ) : Job κ ι (Outcome κ ι) :=
  .op (.hgetall id) fun r =>
    match r with
    | .row (some _) => sending (.delete id)
    | .row none => .done .ok
    | _ => .done .failed

def Method.body : Method κ ι → Job κ ι (Outcome κ ι)
  | .get id => sending (.hgetall id)
  | .save id d => Redis.save id d
  | .createIfAbsent id d => Redis.createIfAbsent id d
  | .updateState id newState verdict => sending (.updateState id newState verdict)
  | .reactivateClaimed id root tx => sending (.reactivateClaimed id root tx)
  | .reactivateProved id tx => sending (.reactivateProved id tx)
  | .incrementRelayCount id cu => sending (.increment id cu)
  | .commitBatch id n cu => sending (.relayBatch id n cu)
  | .delete id => Redis.delete id

/-- `fetchSessions`: a session that cannot be read, or is not there, is skipped. -/
def fetchSessions : List κ → List (κ × Row ι) → Job κ ι (Option (List (κ × Row ι)))
  | [], found => .done (some found)
  | id :: ids, found => .op (.fetch id) fun r =>
    match r with
    | .row (some row) => fetchSessions ids (found ++ [(id, row)])
    | _ => fetchSessions ids found

def getBySupplier : Job κ ι (Option (List (κ × Row ι))) :=
  .op .smembers fun r =>
    match r with
    | .members ids => fetchSessions ids []
    | _ => .done none

end RelayMiner.Session.Redis
