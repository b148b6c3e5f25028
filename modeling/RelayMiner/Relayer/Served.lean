import RelayMiner.Relayer.HandleRelay
/-!
# A served HTTP relay is paid for

An eager relay is validated and admitted before its backend is called, and what
it holds is settled once. An optimistic relay leaves one task, which validates
it, charges it and publishes it, in that order. What a relay holds when it is not
served is given back once. Each is read off the parts of `serve`: an event of one
phase is in no part of another.
-/

namespace RelayMiner.Relayer

open List

/-! ## What is to be shown -/

/-- A relay validated and admitted before its backend was called, or let through
by a meter that could not ask the chain. What was admitted is settled once. -/
def PaidBefore (request : RelayRequest) (height : Int) (es : List Event) : Prop :=
  ∃ pre post, es = pre ++ .backendCalled :: post ∧ .backendCalled ∉ pre ∧ .validated request height ∈ pre ∧
    (.letThrough ∈ pre ∨ ∃ r, .admitted r ∈ pre ∧ es.count (.settled r) = 1 ∧ es.count (.released r) = 0)

def Event.Publishing (ev : Event) : Prop := (∃ u, ev = .publishQueued u) ∨ ∃ reason, ev = .dropped reason

/-- The task validates the request at the height, then charges its session and
supplier, and then publishes it. One that the meter could not answer for is
published uncharged. -/
structure ChargesFirst (wire : Wire) (p : Proxy) (t : ValidationTask) (request : RelayRequest) (height : Int) : Prop where
  invalid : ∀ err meter, ∃ reason, runValidation wire p t (some err) meter = [.dropped reason]
  within : ∀ cost, ∃ sh publish, request.sessionHeader = some sh ∧ (∀ ev ∈ publish, ev.Publishing) ∧
    runValidation wire p t none (.within cost) =
      .validated request height :: .charged (sh.sessionId, request.supplierOperatorAddress) cost :: publish
  exhausted : runValidation wire p t none .over = [.validated request height, .dropped "stake_exhausted"]
  failed : ∀ allowed, ∃ publish, (∀ ev ∈ publish, ev.Publishing) ∧
    runValidation wire p t none (.failed allowed) = .validated request height :: .unbilled :: publish

/-- The relay left one task, and it is for the validation pool. -/
def PaidAfter (wire : Wire) (p : Proxy) (request : RelayRequest) (height : Int) (es : List Event) : Prop :=
  ∃ t, es.filter Event.isTask = [.validationQueued t] ∧ ChargesFirst wire p t request height

/-! ## Phases -/

theorem count_of_phase {l : List Event} {ev : Event} (h : ∀ ev' ∈ l, ev'.phase ≠ ev.phase) : l.count ev = 0 :=
  count_eq_zero.2 fun hm => h ev hm rfl

section phases

variable {wire : Wire} {p : Proxy} {q : HTTPRequest} {e : Answers} {x : Intake} {ev : Event} {body : Bytes}
  {post : List Event}

theorem Unserved.phase (h : Unserved ev) : ev.phase = .gate ∨ ev.phase = .account ∨ ev.phase = .backend := by
  rcases h with ⟨r, rfl⟩ | ⟨reason, rfl⟩ | h
  · exact .inl rfl
  · exact .inr (.inl rfl)
  · exact .inr (.inr h.phase)

theorem submitPublishTask_publishing {c : Config} {request : RelayRequest} {reqBody respBody : Bytes} {height : Int}
    {serviceID : String} {rpcType : BackendType} :
    ∀ ev ∈ submitPublishTask wire c request reqBody respBody height serviceID rpcType, ev.Publishing := by
  intro ev hev
  rcases submitPublishTask_spec hev with h | ⟨t, h, -⟩
  · exact .inr h
  · exact .inl ⟨t, h⟩

theorem account_phase (h : ev ∈ account wire p x e body) : ev.phase = .account := by
  rcases account_events h with ⟨reason, rfl⟩ | ⟨-, rfl⟩ | ⟨-, h⟩
  · rfl
  · rfl
  rcases submitPublishTask_publishing ev h with ⟨u, rfl⟩ | ⟨reason, rfl⟩
  · rfl
  · rfl

/-! ## A relay that is served -/

theorem served_count (hx : Identified wire p q x) (hval : p.validator = true) (hpost : ∀ ev ∈ post, ev.OfBackend)
    (hev : ev.phase = .budget) :
    ((stage wire p x e).events ++ .backendCalled ::
      (post ++ .answered body :: (settle (stage wire p x e).reservation ++ account wire p x e body))).count ev =
      (settle (stage wire p x e).reservation).count ev := by
  have hcalled : Event.backendCalled ≠ ev := by rintro rfl; cases hev
  have hanswered : Event.answered body ≠ ev := by rintro rfl; cases hev
  have hstage : (stage wire p x e).events.count ev = 0 :=
    count_of_phase fun ev' h => by rw [stage_phase hx hval h, hev]; decide
  have hpost : post.count ev = 0 := count_of_phase fun ev' h => by rw [(hpost ev' h).phase, hev]; decide
  have haccount : (account wire p x e body).count ev = 0 :=
    count_of_phase fun ev' h => by rw [account_phase h, hev]; decide
  simp [hcalled, hanswered, hstage, hpost, haccount]

theorem paidBefore (hx : Identified wire p q x) (hval : p.validator = true)
    (hmode : p.config.getServiceValidationMode x.serviceID = .eager) (hpassed : (stage wire p x e).refusal = none)
    (hpost : ∀ ev ∈ post, ev.OfBackend) :
    PaidBefore x.request e.height ((stage wire p x e).events ++ .backendCalled ::
      (post ++ .answered body :: (settle (stage wire p x e).reservation ++ account wire p x e body))) := by
  have hchecked : Checked x.request e.height (stage wire p x e) := stage_eager hmode ▸ checkEagerly_spec hx hval
  obtain ⟨hvalid, hadmitted⟩ := hchecked.passed hpassed
  refine ⟨_, _, rfl, (fun h => nomatch stage_phase hx hval h), hvalid, hadmitted.imp_right ?_⟩
  rintro ⟨r, hr, hadm⟩
  refine ⟨r, hadm, ?_, ?_⟩
  · rw [served_count hx hval hpost rfl, hr]
    simp [settle]
  · rw [served_count hx hval hpost rfl, hr]
    simp [settle]

/-- The task of a relay charges first, for its own request. -/
theorem chargesFirst (hmeter : p.relayMeter = true) (hval : p.validator = true) {t : ValidationTask} {sh : SessionHeader}
    (hreq : wire.unmarshal t.reqBody = some t.request) (hsh : t.request.sessionHeader = some sh) :
    ChargesFirst wire p t t.request t.blockHeight := by
  have hinvalid : ∀ err, validateRelayRequest wire p t.reqBody t.blockHeight (some err) =
      .error ⟨err.expired, "relay validation failed: " ++ err.text⟩ := by simp [validateRelayRequest, hreq, hval]
  have hvalid : validateRelayRequest wire p t.reqBody t.blockHeight none = .ok [.validated t.request t.blockHeight] := by
    simp [validateRelayRequest, hreq, hval]
  constructor
  · intro err meter
    refine ⟨if err.expired then "session_expired" else "validation_failed", ?_⟩
    simp only [runValidation, hinvalid]
  · intro cost
    refine ⟨sh, submitPublishTask wire p.config t.request t.reqBody t.respBody t.blockHeight t.serviceID t.rpcType, hsh,
      submitPublishTask_publishing, ?_⟩
    simp only [runValidation, hvalid, hmeter, hsh]
    rfl
  · simp only [runValidation, hvalid, hmeter, hsh]
    rfl
  intro allowed
  refine ⟨submitPublishTask wire p.config t.request t.reqBody t.respBody t.blockHeight t.serviceID t.rpcType,
    submitPublishTask_publishing, ?_⟩
  simp only [runValidation, hvalid, hmeter, hsh]
  rfl

theorem paidAfter (hx : Identified wire p q x) (hmeter : p.relayMeter = true) (hval : p.validator = true)
    (hmode : p.config.getServiceValidationMode x.serviceID = .optimistic)
    (hqueue : (p.config.validationQueueFor x.serviceID).isSome) (hpost : ∀ ev ∈ post, ev.OfBackend) :
    PaidAfter wire p x.request e.height ((stage wire p x e).events ++ .backendCalled ::
      (post ++ .answered body :: (settle (stage wire p x e).reservation ++ account wire p x e body))) := by
  obtain ⟨sh, hsh, -⟩ := hx.header
  refine ⟨⟨x.request, x.body, body, e.height, x.serviceID, x.rpcType⟩, ?_, chargesFirst hmeter hval hx.unmarshal hsh⟩
  have hcalls : post.filter Event.isTask = [] := by
    refine filter_eq_nil_iff.2 fun ev hev => ?_
    rcases hpost ev hev with rfl | rfl
    · decide
    · decide
  rw [account_optimistic hmode hqueue, stage_optimistic hmode]
  simp [hcalls, Event.isTask, settle]

/-! ## A relay that is not -/

theorem released_once (hx : Identified wire p q x) (hval : p.validator = true) {tail : List Event}
    (htail : ∀ ev ∈ tail, Unserved ev) {r : Reservation}
    (h : .admitted r ∈ (stage wire p x e).events ++ tail ++ release (stage wire p x e).reservation) :
    ((stage wire p x e).events ++ tail ++ release (stage wire p x e).reservation).count (.released r) = 1 ∧
      ((stage wire p x e).events ++ tail ++ release (stage wire p x e).reservation).count (.settled r) = 0 := by
  have hzero : ∀ ev : Event, ev.phase = .budget → (stage wire p x e).events.count ev = 0 ∧ tail.count ev = 0 := by
    intro ev hev
    refine ⟨count_of_phase fun ev' h => by rw [stage_phase hx hval h, hev]; decide, count_of_phase fun ev' h => ?_⟩
    rcases (htail ev' h).phase with h | h | h
    · rw [h, hev]; decide
    · rw [h, hev]; decide
    · rw [h, hev]; decide
  have hheld : (stage wire p x e).reservation = some r := by
    rcases mem_append.1 h with h | h
    · rcases mem_append.1 h with h | h
      · rcases stage_events hx hval h with ⟨r', h, hr⟩ | h | h
        · cases h; exact hr
        · cases h
        · cases h
      · rcases (htail _ h).phase with h | h | h
        · cases h
        · cases h
        · cases h
    · cases release_phase h
  rw [count_append, count_append, count_append, count_append, (hzero (.released r) rfl).1,
    (hzero (.released r) rfl).2, (hzero (.settled r) rfl).1, (hzero (.settled r) rfl).2, hheld]
  simp [release]

/-! ## The handler -/

/-- The relay's service is eager, or it has a validation queue; a service that has
a backend for the transport of an HTTP request has one. -/
def Accountable (p : Proxy) (x : Intake) : Prop :=
  p.config.getServiceValidationMode x.serviceID = .eager ∨ x.rpcType.Http ∨ (p.config.validationQueueFor x.serviceID).isSome

theorem served_paid (hx : Identified wire p q x) (hmeter : p.relayMeter = true) (hval : p.validator = true)
    (hacc : Accountable p x) (hpassed : (stage wire p x e).refusal = none)
    (hhealthy : hasHealthy p x e.healthy = true) (hpost : ∀ ev ∈ post, ev.OfBackend)
    (hserve : serve wire p x e = (stage wire p x e).events ++ .backendCalled ::
      (post ++ .answered body :: (settle (stage wire p x e).reservation ++ account wire p x e body))) :
    PaidBefore x.request e.height (serve wire p x e) ∨ PaidAfter wire p x.request e.height (serve wire p x e) := by
  rw [hserve]
  cases hmode : p.config.getServiceValidationMode x.serviceID with
  | eager => exact .inl (paidBefore hx hval hmode hpassed hpost)
  | optimistic =>
    refine .inr (paidAfter hx hmeter hval hmode ?_ hpost)
    rcases hacc with h | h | h
    · rw [hmode] at h; cases h
    · exact validationQueueFor_of_backend hmode h (Bool.and_eq_true_iff.1 hhealthy).1
    · exact h

/-- A relay that the handler answers with a whole signed response of a backend is
paid for, before or after; and what it holds when it is not so answered is given
back once. -/
theorem handleRelay_paid (wire : Wire) (p : Proxy) (q : HTTPRequest) (e : Answers) (hmeter : p.relayMeter = true)
    (hval : p.validator = true) (hsim : ¬ Simulated p q) :
    (∀ body, .answered body ∈ handleRelay wire p q e → ∃ x, Identified wire p q x ∧
      (Accountable p x → PaidBefore x.request e.height (handleRelay wire p q e) ∨
        PaidAfter wire p x.request e.height (handleRelay wire p q e))) ∧
    ∀ r, .admitted r ∈ handleRelay wire p q e → (∀ body, .answered body ∉ handleRelay wire p q e) →
      (handleRelay wire p q e).count (.released r) = 1 ∧ (handleRelay wire p q e).count (.settled r) = 0 := by
  rcases handleRelay_cases wire p q e with ⟨ev, hes, hev⟩ | ⟨h, -⟩ | ⟨-, x, hx, hes⟩
  · have hgate : ev.phase = .gate := by
      rcases hev with rfl | ⟨r, rfl⟩
      · rfl
      · rfl
    rw [hes]
    refine ⟨fun body h => ?_, fun r h => ?_⟩
    · rw [← mem_singleton.1 h] at hgate; cases hgate
    · rw [← mem_singleton.1 h] at hgate; cases hgate
  · exact absurd h hsim
  rw [hes]
  rcases serve_cases wire p x e with ⟨tail, hserve, htail⟩ | ⟨hpassed, hhealthy, post, body, hpost, hserve⟩
  · refine ⟨fun body h => ?_, fun r h _ => ?_⟩
    · rw [hserve] at h
      rcases mem_append.1 h with h | h
      · rcases mem_append.1 h with h | h
        · cases stage_phase hx hval h
        · rcases (htail _ h).phase with h | h | h
          · cases h
          · cases h
          · cases h
      · cases release_phase h
    · rw [hserve] at h ⊢
      exact released_once hx hval htail h
  · refine ⟨fun _ _ => ⟨x, hx, fun hacc => served_paid hx hmeter hval hacc hpassed hhealthy hpost hserve⟩, fun r _ h => ?_⟩
    exact absurd (by rw [hserve]; simp) (h body)

end phases

/-! ## One relay -/

def oneRequest : RelayRequest where
  sessionHeader := some ⟨"app", "svc", "session", 10, 20⟩
  supplierOperatorAddress := "supplier"
  signature := [1]
  payload := [2]

def oneService (mode : ValidationMode) : Proxy where
  config :=
    { services := [("svc", { backends := [(.jsonrpc, {})], maxRequestBodySize := 9, maxResponseBodySize := 9 })]
      defaultValidationMode := mode }

def allWell : Answers where
  height := 15
  admission := .within 5
  attempts _ := ⟨false, ⟨false, false, 200, false, 0, [7], ""⟩⟩

theorem handleRelay_paid_eager :
    handleRelay (Wire.only oneRequest [3]) (oneService .eager) { body := some [3] } allWell =
      [.admitted ⟨("session", "supplier"), "supplier", 5⟩, .validated oneRequest 15, .backendCalled, .answered [7],
        .settled ⟨("session", "supplier"), "supplier", 5⟩,
        .publishQueued ⟨[3], [7], 15, "svc", "supplier", "session", "app", .jsonrpc⟩] ∧
    ∃ x, Identified (Wire.only oneRequest [3]) (oneService .eager) { body := some [3] } x ∧
      (PaidBefore x.request 15 (handleRelay (Wire.only oneRequest [3]) (oneService .eager) { body := some [3] } allWell) ∨
        PaidAfter (Wire.only oneRequest [3]) (oneService .eager) x.request 15
          (handleRelay (Wire.only oneRequest [3]) (oneService .eager) { body := some [3] } allWell)) := by
  refine ⟨by decide, ?_⟩
  obtain ⟨x, hx, hpaid⟩ := (handleRelay_paid (Wire.only oneRequest [3]) (oneService .eager) { body := some [3] } allWell
    rfl rfl (by decide)).1 [7] (by decide)
  refine ⟨x, hx, hpaid (.inl ?_)⟩
  have hbody : x.body = [3] := (Option.some.inj hx.body).symm
  have hparsed := hx.parsed
  rw [hbody, show parseRelayRequest (Wire.only oneRequest [3]) [3] = some (oneRequest, "svc") by decide] at hparsed
  rw [← (Prod.mk.inj (Option.some.inj hparsed)).2]
  decide

-- An optimistic service with a gRPC backend alone has no queue: an HTTP request that asks for it leaves no task.
example :
    handleRelay (Wire.only oneRequest [3])
      { config :=
          { services := [("svc", { backends := [(.grpc, {})], maxRequestBodySize := 9, maxResponseBodySize := 9 })]
            defaultValidationMode := .optimistic } }
      { body := some [3], rpcType := "grpc" } allWell = [.backendCalled, .answered [7]] := by decide

/-- A relay of an optimistic service is served, and its one task publishes it
though the meter failed and charged nothing. -/
theorem optimistic_published_uncharged :
    (oneService .optimistic).config.Accepted ∧
    handleRelay (Wire.only oneRequest [3]) (oneService .optimistic) { body := some [3] } allWell =
      [.backendCalled, .answered [7], .validationQueued ⟨oneRequest, [3], [7], 15, "svc", .jsonrpc⟩] ∧
    runValidation (Wire.only oneRequest [3]) (oneService .optimistic) ⟨oneRequest, [3], [7], 15, "svc", .jsonrpc⟩ none
      (.failed false) = [.validated oneRequest 15, .unbilled,
        .publishQueued ⟨[3], [7], 15, "svc", "supplier", "session", "app", .jsonrpc⟩] := by
  refine ⟨fun s hs => ?_, by decide, by decide⟩
  rw [mem_singleton.1 hs]
  exact ⟨by decide, by decide, by decide⟩

end RelayMiner.Relayer
