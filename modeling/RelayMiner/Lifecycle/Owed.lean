import RelayMiner.Lifecycle.Cycle
/-!
# What was built and marked can be sent again

A session marked failed with a retry to come, and one that carries the hash of a
submission of this cycle, should have its message in the rebroadcast store at
every point the process can die at. The writes that settle a submission make the
mark first and store the message after it, so the fact that holds between any
two writes is weaker: the message is stored, or its entry is queued.
-/
open RelayMiner.Lib RelayMiner.Session Function

namespace RelayMiner.Lifecycle

def Submit.failedSend : Submit → Bool
  | .accepted _ | .notRequired _ => false
  | _ => true

def Marked (m : Mem) : Phase → SessionID → SessionSnapshot → Prop
  | .claim, id, s =>
    (s.state = .claimTxError ∧ s.claimMissingVerdict = .attempt) ∨
      ∃ h, m.sent .claim id = some (.accepted h) ∧ h ≠ "" ∧ s.claimTxHash = h
  | .proof, id, s =>
    (s.state = .proofTxError ∧ ∃ r, m.sent .proof id = some r ∧ r.failedSend = true) ∨
      ∃ h, m.sent .proof id = some (.accepted h) ∧ h ≠ "" ∧ s.proofTxHash = h

def HasMessage (m : Mem) (s : Stores) (phase : Phase) (id : SessionID) : Prop :=
  ∃ msg e, m.message phase id = some msg ∧ s.entries phase id = some e ∧ e.msg = msg

def Queued (m : Mem) (phase : Phase) (id : SessionID) (ws : List Write) : Prop :=
  ∃ e, .put phase id e ∈ ws ∧ m.message phase id = some e.msg

def Counts (phase : Phase) (ids : List SessionID) (strict : Bool) (m : Mem) (id : SessionID) : Prop :=
  id ∈ ids ∧ (strict = true ∨ m.message phase id ≠ none)

/-- Those of them that are marked have their message stored, or where that is allowed, queued. -/
def Owed (phase : Phase) (ids : List SessionID) (strict : Bool) (m : Mem) (settling : Bool) (s : Stores)
    (ws : List Write) : Prop :=
  ∀ id, Counts phase ids strict m id → Marked m phase id (s.sessions id) →
    HasMessage m s phase id ∨ (settling = true ∧ Queued m phase id ws)

/-- A write that keeps `Owed`: an entry holds its session's message, and a record is marked only with its
message stored or queued. -/
def Backed (phase : Phase) (ids : List SessionID) (strict : Bool) (m : Mem) (settling : Bool) (s : Stores) :
    List Write → Prop
  | [] => True
  | .put phase' id e :: _ => phase' = phase → m.message phase id = some e.msg
  | .deleteTree _ :: _ => True
  | .session id c :: ws => Counts phase ids strict m id → Marked m phase id (c.book (s.sessions id)) →
      Marked m phase id (s.sessions id) ∨ HasMessage m s phase id ∨ (settling = true ∧ Queued m phase id ws)

variable {phase : Phase} {ids : List SessionID} {strict : Bool} {m : Mem} {settling : Bool} {id : SessionID}
  {s : Stores} {ws : List Write}

attribute [local simp] execWrite

theorem HasMessage.put {phase' : Phase} {id' : SessionID} {e : Entry}
    (he : phase' = phase → m.message phase id' = some e.msg) (h : HasMessage m s phase id) :
    HasMessage m (execWrite s (.put phase' id' e)) phase id := by
  obtain ⟨msg, e', hm, hs, rfl⟩ := h
  by_cases hp : phase = phase'
  · subst hp
    by_cases hid : id = id'
    · subst hid
      refine ⟨e'.msg, e, hm, by simp, ?_⟩
      exact Option.some.inj ((he rfl).symm.trans hm)
    · exact ⟨e'.msg, e', hm, by simpa [update_of_ne hid] using hs, rfl⟩
  · exact ⟨e'.msg, e', hm, by simpa [update_of_ne hp] using hs, rfl⟩

/-- One write: an entry that was queued is stored, a mark that is made is backed. -/
theorem Owed.write {w : Write} (h : Owed phase ids strict m settling s (w :: ws))
    (hb : Backed phase ids strict m settling s (w :: ws)) :
    Owed phase ids strict m settling (execWrite s w) ws := by
  intro id hid hm
  cases w with
  | session id' c =>
    have hq : ∀ id, Queued m phase id (.session id' c :: ws) → Queued m phase id ws := by
      rintro id ⟨e, he, hmsg⟩
      exact ⟨e, by simpa using he, hmsg⟩
    have hold : Marked m phase id (s.sessions id) → HasMessage m s phase id ∨ settling = true ∧ Queued m phase id ws :=
      fun hm => (h id hid hm).imp_right fun hq' => ⟨hq'.1, hq id hq'.2⟩
    by_cases hid' : id = id'
    · subst hid'
      rcases hb hid (by simpa using hm) with hm | hm | hm
      · exact hold hm
      · exact .inl hm
      · exact .inr hm
    · exact hold (by simpa [update_of_ne hid'] using hm)
  | put phase' id' e =>
    rcases h id hid hm with hs | ⟨hset, e', he', hmsg⟩
    · exact .inl (hs.put hb)
    rcases List.mem_cons.1 he' with heq | hmem
    · injection heq with h1 h2 h3
      subst h1 h2 h3
      exact .inl ⟨e'.msg, e', hmsg, by simp, rfl⟩
    · exact .inr ⟨hset, e', hmem, hmsg⟩
  | deleteTree id' =>
    refine (h id hid hm).imp_right fun ⟨hset, e, he, hmsg⟩ => ⟨hset, e, by simpa using he, hmsg⟩

theorem Owed.along (h : Owed phase ids strict m settling s ws)
    (hb : Along execWrite (Backed phase ids strict m settling) s ws) :
    Along execWrite (Owed phase ids strict m settling) s ws := by
  induction ws generalizing s with
  | nil => exact h
  | cons w ws ih => exact ⟨h, ih (h.write hb.1) hb.2⟩

def Plain (phase : Phase) (m : Mem) : Write → Prop
  | .put phase' id e => phase' = phase → m.message phase id = some e.msg
  | .deleteTree _ => True
  | .session id c => ∀ r, Marked m phase id (c.book r) → Marked m phase id r

theorem backed_of_plain (h : ∀ w ∈ ws, Plain phase m w) :
    Along execWrite (Backed phase ids strict m settling) s ws := by
  induction ws generalizing s with
  | nil => trivial
  | cons w ws ih =>
    refine ⟨?_, ih fun w' hw' => h w' (List.mem_cons_of_mem _ hw')⟩
    have hw := h w List.mem_cons_self
    cases w with
    | session id c => exact fun _ hm => .inl (hw _ hm)
    | put phase' id e => exact hw
    | deleteTree id => trivial

def Secured (phase : Phase) (ids : List SessionID) (strict : Bool) (m : Mem) (s : Stores) : Prop :=
  ∀ id, Counts phase ids strict m id → Marked m phase id (s.sessions id) → HasMessage m s phase id

theorem Owed.secured (h : Owed phase ids strict m settling s []) : Secured phase ids strict m s := by
  intro id hid hm
  rcases h id hid hm with hs | ⟨-, e, he, -⟩
  · exact hs
  · cases he

theorem Secured.owed (h : Secured phase ids strict m s) (settling : Bool) (ws : List Write) :
    Owed phase ids strict m settling s ws := fun id hid hm => .inl (h id hid hm)

/-! ## Writes to other sessions -/

def Spares (ws : List Write) (id : SessionID) : Prop := ∀ c, .session id c ∉ ws

theorem sessions_foldl (h : Spares ws id) : (ws.foldl execWrite s).sessions id = s.sessions id := by
  induction ws generalizing s with
  | nil => rfl
  | cons w ws ih =>
    rw [List.foldl_cons, ih fun c hc => h c (List.mem_cons_of_mem _ hc)]
    cases w with
    | session id' c =>
      have hne : id ≠ id' := by
        rintro rfl
        exact h c List.mem_cons_self
      simp [update_of_ne hne]
    | put | deleteTree => rfl

theorem sent_recordSent {m : Mem} {phase : Phase} {ids' : List SessionID} {r : Submit} (h : id ∉ ids') :
    (m.recordSent phase ids' r).sent phase id = m.sent phase id := by
  simp [Mem.recordSent, h]

end RelayMiner.Lifecycle
