import RelayMiner.Relayer.Grpc
import RelayMiner.Relayer.Served
import RelayMiner.Relayer.WebSocket
/-!
# What reaches the publisher

The relayer's transports together: calls of the HTTP and gRPC handlers, bridges,
and the two pools, in any order, at any heights. Every relay has a number, which
is where `arrived` has the height it came in at, and every effect is logged under
the relay it is for. A message handed to the publisher is that of a request which
the validator had accepted at its height, answered with the message it was, under
the request's own names; and no accounting is ever for a simulated relay.

What a task or a bridge carries for a later step is stated of the log: a task to
publish has its validation there, and so has the latest request of a bridge.
-/

namespace RelayMiner.Relayer.Mined

open List

open Lib

structure Origin where
  id : Nat
  simulated : Bool
  deriving DecidableEq

structure World where
  height : Int
  arrived : List Int := []
  calls : List (Nat × Int) := []
  validation : List (Origin × ValidationTask) := []
  publish : List (Origin × PublishTask) := []
  bridges : List Bridge := []
  log : List (Origin × Event) := []

inductive Action where
  | block (height : Int)
  | arrive
  | http (i : Nat) (q : HTTPRequest) (e : Answers)
  | grpc (i : Nat) (c : GRPCCall) (a : GRPCAnswers)
  | validate (i : Nat) (validation : Option ValidationError) (meter : MeterAnswer)
  | publish (i : Nat) (a : Processing)
  | upgrade (serviceID : String) (owner : Option String) (simulated : Bool)
  | frame (i : Nat) (data : Bytes) (a : FrameAnswers)
  | push (i : Nat) (data : Bytes) (a : PushAnswers)
  | close (i : Nat)

/-! ## Steps -/

def World.arrive (w : World) : World := { w with arrived := w.arrived ++ [w.height] }

def toValidate (o : Origin) : Event → Option (Origin × ValidationTask)
  | .validationQueued t => some (o, t)
  | _ => none

def toPublish (o : Origin) : Event → Option (Origin × PublishTask)
  | .publishQueued t => some (o, t)
  | _ => none

def World.record (w : World) (o : Origin) (es : List Event) : World :=
  { w with
    log := w.log ++ es.map (o, ·)
    validation := w.validation ++ es.filterMap (toValidate o)
    publish := w.publish ++ es.filterMap (toPublish o) }

def World.setBridge (w : World) (i : Nat) (b : Bridge) : World := { w with bridges := w.bridges.set i b }

/-- A block, or what a worker does with a request, a queued task, a frame or a push. -/
def step (wire : Wire) (target : String → Int → Bytes) (p : Proxy) (w : World) : Action → World
  | .block height => { w with height }
  | .arrive => { w.arrive with calls := w.calls ++ [(w.arrived.length, w.height)] }
  | .http i q e =>
    match w.calls[i]? with
    | none => w
    | some (id, height) =>
      { w with calls := w.calls.eraseIdx i }.record ⟨id, decide (Simulated p q)⟩ (handleRelay wire p q { e with height })
  | .grpc i c a =>
    match w.calls[i]? with
    | none => w
    | some (id, height) =>
      { w with calls := w.calls.eraseIdx i }.record ⟨id, decide (c.Simulated p)⟩
        (handleSendRelay wire target p c height a)
  | .validate i validation meter =>
    match w.validation[i]? with
    | none => w
    | some (o, t) => { w with validation := w.validation.eraseIdx i }.record o (runValidation wire p t validation meter)
  | .publish i a =>
    match w.publish[i]? with
    | none => w
    | some (o, t) => { w with publish := w.publish.eraseIdx i }.record o (executePublish wire target p t a)
  | .upgrade serviceID owner simulated => { w with bridges := w.bridges ++ [{ serviceID, owner, simulated }] }
  | .frame i data a =>
    match w.bridges[i]? with
    | none => w
    | some b =>
      let (es, b') := handleGatewayMessage wire p b w.arrived.length data w.height a
      (w.arrive.record ⟨w.arrived.length, b.simulated⟩ es).setBridge i b'
  | .push i data a =>
    match w.bridges[i]? with
    | none => w
    | some b =>
      let (es, b') := handleBackendMessage wire target p b data w.height a
      match b.latestRequest with
      -- Nothing is done for a relay.
      | none => w.setBridge i b'
      | some (id, _) => (w.record ⟨id, b.simulated⟩ es).setBridge i b'
  | .close i =>
    match w.bridges[i]? with
    | none => w
    | some b => w.setBridge i b.close

/-! ## The invariant -/

section invariant

variable {wire : Wire} {target : String → Int → Bytes} {p : Proxy} {w : World} {o : Origin}
  {arrived arrived' : List Int} {log log' : List (Origin × Event)}

/-- The request passed the validator as this relay, at the height the relay came in at. -/
def Validated (arrived : List Int) (log : List (Origin × Event)) (o : Origin) (request : RelayRequest) : Prop :=
  ∃ height, arrived[o.id]? = some height ∧ (o, .validated request height) ∈ log

def Sound (wire : Wire) (target : String → Int → Bytes) (arrived : List Int) (past : List (Origin × Event)) :
    Origin × Event → Prop
  | (o, ev) => (o.simulated = true → ev.billing = false) ∧
    ∀ m, ev = .published m → ∃ request sh body, Validated arrived past o request ∧ (o, .answered body) ∈ past ∧
      OwnNames wire target request sh body m

structure ToValidate (wire : Wire) (arrived : List Int) (log : List (Origin × Event)) (o : Origin) (t : ValidationTask) :
    Prop where
  simulated : o.simulated = false
  unmarshal : wire.unmarshal t.reqBody = some t.request
  header : ∃ sh, t.request.sessionHeader = some sh ∧ sh.serviceId = t.serviceID
  blockHeight : arrived[o.id]? = some t.blockHeight
  answered : (o, .answered t.respBody) ∈ log

structure ToPublish (wire : Wire) (arrived : List Int) (log : List (Origin × Event)) (o : Origin) (t : PublishTask)
    (request : RelayRequest) (sh : SessionHeader) (body : Bytes) : Prop where
  simulated : o.simulated = false
  unmarshal : wire.unmarshal t.reqBody = some request
  header : request.sessionHeader = some sh
  serviceID : t.serviceID = sh.serviceId
  supplierAddr : t.supplierAddr = request.supplierOperatorAddress
  respPayloadHash : t.respPayloadHash = wire.sha256 body
  validated : Validated arrived log o request
  answered : (o, .answered body) ∈ log

/-- The latest request of a bridge names what the bridge is for, and was validated
unless it is simulated. -/
def Paired (arrived : List Int) (log : List (Origin × Event)) (b : Bridge) : Prop :=
  ∀ id req, b.latestRequest = some (id, req) →
    ∃ sh, Bound b req sh ∧ (b.simulated = false → Validated arrived log ⟨id, false⟩ req)

structure Inv (wire : Wire) (target : String → Int → Bytes) (w : World) : Prop where
  log : Each (Sound wire target w.arrived) w.log
  calls : ∀ c ∈ w.calls, w.arrived[c.1]? = some c.2
  validation : ∀ v ∈ w.validation, ToValidate wire w.arrived w.log v.1 v.2
  publish : ∀ v ∈ w.publish, ∃ request sh body, ToPublish wire w.arrived w.log v.1 v.2 request sh body
  bridges : ∀ b ∈ w.bridges, Paired w.arrived w.log b

/-! ### What only grows -/

structure Grows (arrived arrived' : List Int) (log log' : List (Origin × Event)) : Prop where
  arrived : ∀ (i : Nat) (h : Int), arrived[i]? = some h → arrived'[i]? = some h
  log : log ⊆ log'

theorem Grows.record (arrived : List Int) (log new : List (Origin × Event)) : Grows arrived arrived log (log ++ new) :=
  ⟨fun _ _ h => h, subset_append_left log new⟩

theorem Grows.arrive (arrived : List Int) (height : Int) (log : List (Origin × Event)) :
    Grows arrived (arrived ++ [height]) log log := by
  refine ⟨fun i h hi => ?_, List.Subset.refl log⟩
  rw [List.getElem?_append_left (List.getElem?_eq_some_iff.1 hi).1]
  exact hi

variable (hg : Grows arrived arrived' log log')
include hg

theorem Validated.grows {request : RelayRequest} (h : Validated arrived log o request) :
    Validated arrived' log' o request := by
  obtain ⟨height, harr, hlog⟩ := h
  exact ⟨height, hg.arrived _ _ harr, hg.log hlog⟩

theorem Sound.grows {entry : Origin × Event} (h : Sound wire target arrived log entry) :
    Sound wire target arrived' log' entry := by
  refine ⟨h.1, fun m hm => ?_⟩
  obtain ⟨request, sh, body, hval, hans, hnames⟩ := h.2 m hm
  exact ⟨request, sh, body, hval.grows hg, hg.log hans, hnames⟩

theorem ToValidate.grows {t : ValidationTask} (h : ToValidate wire arrived log o t) : ToValidate wire arrived' log' o t :=
  ⟨h.simulated, h.unmarshal, h.header, hg.arrived _ _ h.blockHeight, hg.log h.answered⟩

theorem ToPublish.grows {t : PublishTask} {request : RelayRequest} {sh : SessionHeader} {body : Bytes}
    (h : ToPublish wire arrived log o t request sh body) : ToPublish wire arrived' log' o t request sh body :=
  { h with validated := h.validated.grows hg, answered := hg.log h.answered }

theorem Paired.grows {b : Bridge} (h : Paired arrived log b) : Paired arrived' log' b := by
  intro id req hlatest
  obtain ⟨sh, hb, hval⟩ := h id req hlatest
  exact ⟨sh, hb, fun hsim => (hval hsim).grows hg⟩

end invariant

/-! ### Recording -/

/-- The effects are sound one after the other, and so is each task they leave. -/
structure Recorded (wire : Wire) (target : String → Int → Bytes) (arrived : List Int) (log : List (Origin × Event))
    (o : Origin) (es : List Event) : Prop where
  sound : ∀ past ev rest, es = past ++ ev :: rest → Sound wire target arrived (log ++ past.map (o, ·)) (o, ev)
  validation : ∀ t, .validationQueued t ∈ es → ToValidate wire arrived (log ++ es.map (o, ·)) o t
  publish : ∀ t, .publishQueued t ∈ es →
    ∃ request sh body, ToPublish wire arrived (log ++ es.map (o, ·)) o t request sh body

section record

variable {wire : Wire} {target : String → Int → Bytes} {p : Proxy} {w : World} {o : Origin} {arrived : List Int}
  {log : List (Origin × Event)} {es : List Event}

theorem inv_record (h : Inv wire target w) (hr : Recorded wire target w.arrived w.log o es) :
    Inv wire target (w.record o es) := by
  have hg : Grows w.arrived w.arrived w.log (w.log ++ es.map (o, ·)) := Grows.record w.arrived w.log _
  constructor
  · exact (each_append w.log _).2 ⟨h.log, each_map (o, ·) es hr.sound⟩
  · exact h.calls
  · intro v hv
    rcases mem_append.1 hv with hv | hv
    · exact (h.validation v hv).grows hg
    obtain ⟨ev, hev, hsome⟩ := mem_filterMap.1 hv
    cases ev with
    | validationQueued t =>
      cases hsome
      exact hr.validation t hev
    | _ => cases hsome
  · intro v hv
    rcases mem_append.1 hv with hv | hv
    · obtain ⟨request, sh, body, ht⟩ := h.publish v hv
      exact ⟨request, sh, body, ht.grows hg⟩
    obtain ⟨ev, hev, hsome⟩ := mem_filterMap.1 hv
    cases ev with
    | publishQueued t =>
      cases hsome
      exact hr.publish t hev
    | _ => cases hsome
  · exact fun b hb => (h.bridges b hb).grows hg

theorem recorded_of_unbilled (h : ∀ ev ∈ es, ev.billing = false) : Recorded wire target arrived log o es := by
  refine ⟨fun past ev rest hes => ?_, (fun t ht => nomatch h _ ht), (fun t ht => nomatch h _ ht)⟩
  have hev : ev.billing = false := h ev (by rw [hes]; simp)
  refine ⟨fun _ => hev, ?_⟩
  rintro m rfl
  cases hev

theorem sound_of_ne {past : List (Origin × Event)} {ev : Event} (hsim : o.simulated = false)
    (hev : ∀ m, ev ≠ .published m) : Sound wire target arrived past (o, ev) :=
  ⟨(fun h => nomatch hsim.symm.trans h), fun m hm => absurd hm (hev m)⟩

theorem mem_record {ev : Event} (h : ev ∈ es) : (o, ev) ∈ log ++ es.map (o, ·) :=
  mem_append_right log (mem_map_of_mem h)

/-! ### The handlers -/

/-- A task for the publisher, left by a relay of the log that was validated and answered. -/
theorem toPublish_of_submit {c : Config} {request : RelayRequest} {sh : SessionHeader} {reqBody respBody : Bytes}
    {height : Int} {serviceID : String} {rpcType : BackendType} {t : PublishTask} (hsim : o.simulated = false)
    (hreq : wire.unmarshal reqBody = some request) (hsh : request.sessionHeader = some sh)
    (hservice : sh.serviceId = serviceID) (hval : Validated arrived log o request) (hans : (o, .answered respBody) ∈ log)
    (h : .publishQueued t ∈ submitPublishTask wire c request reqBody respBody height serviceID rpcType) :
    ToPublish wire arrived log o t request sh respBody := by
  rcases submitPublishTask_spec h with ⟨reason, h⟩ | ⟨t', h, hbody, hhash, -, hserviceID, hsupplier⟩
  · cases h
  · cases h
    exact ⟨hsim, hbody ▸ hreq, hsh, hserviceID.trans hservice.symm, hsupplier, hhash, hval, hans⟩

theorem recorded_http {q : HTTPRequest} {e : Answers} (hval : p.validator = true)
    (hsim : o.simulated = decide (Simulated p q)) (harr : arrived[o.id]? = some e.height) :
    Recorded wire target arrived log o (handleRelay wire p q e) := by
  rcases handleRelay_cases wire p q e with ⟨ev, hes, hev⟩ | ⟨-, hes⟩ | ⟨hnot, x, hx, hes⟩
  · rw [hes]
    refine recorded_of_unbilled fun ev' h => ?_
    rw [mem_singleton.1 h]
    rcases hev with rfl | ⟨r, rfl⟩
    · rfl
    · rfl
  · rw [hes]
    refine recorded_of_unbilled fun ev h => ?_
    rcases mem_cons.1 h with rfl | h
    · rfl
    · exact serveSimulatedHTTP_billing h
  rw [hes]
  have hsim : o.simulated = false := by rw [hsim]; exact decide_eq_false hnot
  obtain ⟨sh, hsh, hservice⟩ := hx.header
  refine ⟨fun past ev rest h => sound_of_ne hsim ?_, fun t ht => ?_, fun t ht => ?_⟩
  · rintro m rfl
    have hm : Event.published m ∈ serve wire p x e := by rw [h]; simp
    rcases serve_events hx hval hm with h | ⟨reason, h⟩ | ⟨body, -, h | ⟨-, h⟩⟩
    · exact h rfl
    · cases h
    · cases h
    · exact (submitPublishTask_onward h).1 m rfl
  · rcases serve_events hx hval ht with h | ⟨reason, h⟩ | ⟨body, hans, h | ⟨-, h⟩⟩
    · exact absurd rfl h
    · cases h
    · cases h
      exact ⟨hsim, hx.unmarshal, ⟨sh, hsh, hservice⟩, harr, mem_record hans⟩
    · exact absurd rfl ((submitPublishTask_onward h).2 t)
  rcases serve_events hx hval ht with h | ⟨reason, h⟩ | ⟨body, hans, h | ⟨hvalid, h⟩⟩
  · exact absurd rfl h
  · cases h
  · cases h
  · exact ⟨x.request, sh, body, toPublish_of_submit hsim hx.unmarshal hsh hservice
      ⟨e.height, harr, mem_record hvalid⟩ (mem_record hans) h⟩

/-- What the task of a served relay publishes, it has validated. -/
theorem recorded_validate {t : ValidationTask} (hval : p.validator = true) (ht : ToValidate wire arrived log o t)
    (validation : Option ValidationError) (meter : MeterAnswer) :
    Recorded wire target arrived log o (runValidation wire p t validation meter) := by
  obtain ⟨sh, hsh, hservice⟩ := ht.header
  refine ⟨fun past ev rest h => sound_of_ne ht.simulated ?_, fun u hu => ?_, fun u hu => ?_⟩
  · rintro m rfl
    have hm : Event.published m ∈ runValidation wire p t validation meter := by rw [h]; simp
    rcases runValidation_events hval ht.unmarshal hm with ⟨-, h⟩ | ⟨-, h⟩
    · exact h m rfl
    · exact (submitPublishTask_onward h).1 m rfl
  · rcases runValidation_events hval ht.unmarshal hu with ⟨h, -⟩ | ⟨-, h⟩
    · cases h
    · exact absurd rfl ((submitPublishTask_onward h).2 u)
  rcases runValidation_events hval ht.unmarshal hu with ⟨h, -⟩ | ⟨hvalid, h⟩
  · cases h
  · exact ⟨t.request, sh, t.respBody, toPublish_of_submit ht.simulated ht.unmarshal hsh hservice
      ⟨t.blockHeight, ht.blockHeight, mem_record hvalid⟩ (mem_append_left _ ht.answered) h⟩

theorem recorded_publish {t : PublishTask} {request : RelayRequest} {sh : SessionHeader} {body : Bytes} {a : Processing}
    (hproc : p.relayProcessor = true) (ht : ToPublish wire arrived log o t request sh body) :
    Recorded wire target arrived log o (executePublish wire target p t a) := by
  refine ⟨fun past ev rest h => ?_, fun u hu => ?_, fun u hu => ?_⟩
  · have hev : ev ∈ executePublish wire target p t a := by rw [h]; simp
    rcases executePublish_events hproc hev with ⟨reason, rfl⟩ | ⟨m, rfl, hm⟩
    · exact sound_of_ne ht.simulated nofun
    refine ⟨(fun h => nomatch ht.simulated.symm.trans h), ?_⟩
    rintro m' hm'
    cases hm'
    rw [ht.respPayloadHash, ht.supplierAddr, ht.serviceID] at hm
    exact ⟨request, sh, body, ht.validated.grows (Grows.record arrived log _), mem_append_left _ ht.answered,
      processRelayPayloadHash_mined ht.unmarshal ht.header hm⟩
  · rcases executePublish_events hproc hu with ⟨reason, h⟩ | ⟨m, h, -⟩
    · cases h
    · cases h
  rcases executePublish_events hproc hu with ⟨reason, h⟩ | ⟨m, h, -⟩
  · cases h
  · cases h

theorem recorded_grpc {c : GRPCCall} {height : Int} {a : GRPCAnswers} (hsim : o.simulated = decide (c.Simulated p))
    (harr : arrived[o.id]? = some height) :
    Recorded wire target arrived log o (handleSendRelay wire target p c height a) := by
  rcases handleSendRelay_cases wire target p c height a with ⟨r, hes⟩ | ⟨request, hes⟩ | ⟨hnot, request, sh, hsh, hes⟩
  · rw [hes]
    exact recorded_of_unbilled fun _ => billing_of_rejected
  · rw [hes]
    refine recorded_of_unbilled fun ev h => ?_
    rcases mem_cons.1 h with rfl | h
    · rfl
    · exact serveSimulatedGRPC_billing h
  rw [hes]
  have hsim : o.simulated = false := by rw [hsim]; exact decide_eq_false hnot
  rcases serveCall_cases wire target p request sh height a with hnone | ⟨front, hserve, hfront, hvalid, hans⟩
  · refine ⟨fun past ev rest h => sound_of_ne hsim ?_, fun t ht => absurd rfl (hnone _ ht),
      fun t ht => absurd rfl (hnone _ ht)⟩
    rintro m rfl
    exact hnone (.published m) (by rw [h]; simp) rfl
  have hmined : ∀ ev ∈ serveCall wire target p request sh height a, ev.phase = .account →
      (∃ reason, ev = .dropped reason) ∨
      ∃ m, ev = .published m ∧ OwnNames wire target request sh a.backend.body m := by
    intro ev hev hphase
    rw [hserve] at hev
    rcases mem_append.1 hev with h | h
    · exact absurd hphase (hfront ev h)
    · exact mineCall_events hsh h
  refine ⟨fun past ev rest h => ?_, fun t ht => ?_, fun t ht => ?_⟩
  · refine ⟨(fun h => nomatch hsim.symm.trans h), ?_⟩
    rintro m rfl
    rcases hmined (.published m) (by rw [h]; simp) rfl with ⟨reason, hm⟩ | ⟨m', hm, hnames⟩
    · cases hm
    cases hm
    -- What came before the mining came before the message.
    have hpast : ∀ {ev : Event}, ev ∈ front → (o, ev) ∈ log ++ past.map (o, ·) := fun hev =>
      mem_record (mem_past front (fun hm => hfront _ hm rfl) (hserve.symm.trans h) hev)
    exact ⟨request, sh, a.backend.body, ⟨height, harr, hpast hvalid⟩, hpast hans, hnames⟩
  · rcases hmined _ ht rfl with ⟨reason, h⟩ | ⟨m, h, -⟩
    · cases h
    · cases h
  rcases hmined _ ht rfl with ⟨reason, h⟩ | ⟨m, h, -⟩
  · cases h
  · cases h

theorem recorded_push {b b' : Bridge} {id : Nat} {req : RelayRequest} {data : Bytes} {es : List Event}
    (hlatest : b.latestRequest = some (id, req)) (hpaired : Paired arrived log b)
    (h : Pushed wire target b data (es, b')) : Recorded wire target arrived log ⟨id, b.simulated⟩ es := by
  obtain ⟨sh, hbound, hval⟩ := hpaired id req hlatest
  refine ⟨fun past ev rest hes => ⟨fun hsim => h.billing hsim ev (by rw [hes]; simp), ?_⟩,
    (fun t ht => nomatch h.isTask _ ht), (fun t ht => nomatch h.isTask _ ht)⟩
  rintro m rfl
  obtain ⟨hans, id', req', hlatest', hnames⟩ := h.published past m rest hes
  cases hlatest.symm.trans hlatest'
  cases hsim : b.simulated with
  | true => cases h.billing hsim (.published m) (by rw [hes]; simp)
  | false => exact ⟨req, sh, data, (hval hsim).grows (Grows.record arrived log _), mem_record hans, hnames sh hbound⟩

end record

/-! ## The run -/

section run

variable {wire : Wire} {target : String → Int → Bytes} {p : Proxy} {w : World}

theorem inv_arrive (h : Inv wire target w) : Inv wire target w.arrive := by
  have hg : Grows w.arrived (w.arrived ++ [w.height]) w.log w.log := Grows.arrive w.arrived w.height w.log
  constructor
  · exact fun past e rest hlog => (h.log past e rest hlog).grows (Grows.arrive w.arrived w.height past)
  · exact fun c hc => hg.arrived _ _ (h.calls c hc)
  · exact fun v hv => (h.validation v hv).grows hg
  · intro v hv
    obtain ⟨request, sh, body, ht⟩ := h.publish v hv
    exact ⟨request, sh, body, ht.grows hg⟩
  · exact fun b hb => (h.bridges b hb).grows hg

theorem inv_takeCall (h : Inv wire target w) {i id : Nat} {height : Int} (hcall : w.calls[i]? = some (id, height)) :
    Inv wire target { w with calls := w.calls.eraseIdx i } ∧ w.arrived[id]? = some height :=
  ⟨{ h with calls := fun c hc => h.calls c (mem_of_mem_eraseIdx hc) }, h.calls _ (mem_of_getElem? hcall)⟩

variable {b : Bridge}

theorem inv_setBridge (h : Inv wire target w) (hb : Paired w.arrived w.log b) (i : Nat) :
    Inv wire target (w.setBridge i b) := by
  refine { h with bridges := fun b' hb' => ?_ }
  rcases mem_or_eq_of_mem_set hb' with hb' | rfl
  · exact h.bridges b' hb'
  · exact hb

theorem paired_keeps {arrived : List Int} {log : List (Origin × Event)} {b b' : Bridge} (h : Paired arrived log b)
    (hk : Keeps b b') : Paired arrived log b' := by
  intro id req hlatest
  obtain ⟨sh, hb, hval⟩ := h id req (hk.latestRequest ▸ hlatest)
  exact ⟨sh, hb.keeps hk, fun hsim => hval (hk.simulated ▸ hsim)⟩

theorem inv_frame (h : Inv wire target w) (hb : b ∈ w.bridges) (i : Nat) (data : Bytes) (a : FrameAnswers) :
    Inv wire target ((w.arrive.record ⟨w.arrived.length, b.simulated⟩
      (handleGatewayMessage wire p b w.arrived.length data w.height a).1).setBridge i
        (handleGatewayMessage wire p b w.arrived.length data w.height a).2) := by
  have hf := handleGatewayMessage_spec wire p b w.arrived.length data w.height a
  generalize handleGatewayMessage wire p b w.arrived.length data w.height a = done at hf
  have hrec : Inv wire target (w.arrive.record ⟨w.arrived.length, b.simulated⟩ done.1) :=
    inv_record (inv_arrive h) (recorded_of_unbilled hf.billing)
  refine inv_setBridge hrec ?_ i
  rcases hf.latestRequest with hkeeps | ⟨req, sh, hlatest, hbound, hval⟩
  · exact paired_keeps (hrec.bridges b hb) hkeeps
  intro id req' hlatest'
  cases hlatest.symm.trans hlatest'
  refine ⟨sh, hbound, fun hsim => ⟨w.height, ?_, ?_⟩⟩
  · exact List.getElem?_concat_length
  rw [hf.simulated] at hsim
  rw [hsim]
  exact mem_record (hval hsim)

theorem inv_push (h : Inv wire target w) (hb : b ∈ w.bridges) (i : Nat) (data : Bytes) (a : PushAnswers) :
    Inv wire target (match b.latestRequest with
      | none => w.setBridge i (handleBackendMessage wire target p b data w.height a).2
      | some (id, _) => (w.record ⟨id, b.simulated⟩ (handleBackendMessage wire target p b data w.height a).1).setBridge i
          (handleBackendMessage wire target p b data w.height a).2) := by
  have hp := handleBackendMessage_spec wire target p b data w.height a
  generalize handleBackendMessage wire target p b data w.height a = done at hp
  split
  · exact inv_setBridge h (paired_keeps (h.bridges b hb) hp.keeps) i
  next id req hlatest =>
    have hrec : Inv wire target (w.record ⟨id, b.simulated⟩ done.1) :=
      inv_record h (recorded_push hlatest (h.bridges b hb) hp)
    exact inv_setBridge hrec (paired_keeps (hrec.bridges b hb) hp.keeps) i

theorem inv_step (hval : p.validator = true) (hproc : p.relayProcessor = true) (h : Inv wire target w) (a : Action) :
    Inv wire target (step wire target p w a) := by
  cases a with
  | block height => exact { h with }
  | arrive =>
    exact { inv_arrive h with
      calls := forall_mem_append.2
        ⟨(inv_arrive h).calls, forall_mem_singleton.2 List.getElem?_concat_length⟩ }
  | http i q e =>
    simp only [step]
    split
    · exact h
    next id height hcall =>
      obtain ⟨hrest, harr⟩ := inv_takeCall h hcall
      exact inv_record hrest (recorded_http hval rfl harr)
  | grpc i c a =>
    simp only [step]
    split
    · exact h
    next id height hcall =>
      obtain ⟨hrest, harr⟩ := inv_takeCall h hcall
      exact inv_record hrest (recorded_grpc rfl harr)
  | validate i validation meter =>
    simp only [step]
    split
    · exact h
    next o t htask =>
      have hrest : Inv wire target { w with validation := w.validation.eraseIdx i } :=
        { h with validation := fun v hv => h.validation v (mem_of_mem_eraseIdx hv) }
      exact inv_record hrest (recorded_validate hval (h.validation _ (mem_of_getElem? htask)) validation meter)
  | publish i a =>
    simp only [step]
    split
    · exact h
    next o t htask =>
      obtain ⟨request, sh, body, ht⟩ := h.publish _ (mem_of_getElem? htask)
      have hrest : Inv wire target { w with publish := w.publish.eraseIdx i } :=
        { h with publish := fun v hv => h.publish v (mem_of_mem_eraseIdx hv) }
      exact inv_record hrest (recorded_publish hproc ht)
  | upgrade serviceID owner simulated =>
    exact { h with bridges := forall_mem_append.2 ⟨h.bridges, forall_mem_singleton.2 fun _ _ h => nomatch h⟩ }
  | frame i data a =>
    simp only [step]
    split
    · exact h
    next b hb => exact inv_frame h (mem_of_getElem? hb) i data a
  | push i data a =>
    simp only [step]
    split
    · exact h
    next b hb => exact inv_push h (mem_of_getElem? hb) i data a
  | close i =>
    simp only [step]
    split
    · exact h
    next b hb => exact inv_setBridge h (paired_keeps (h.bridges b (mem_of_getElem? hb)) (Keeps.refl b).close) i

theorem inv_start (height : Int) : Inv wire target { height } :=
  ⟨each_nil, by simp, by simp, by simp, by simp⟩

/-- In every run, a message handed to the publisher is that of a request which had
passed the validator at the height it came in at, with the response it was
answered with, under its own names; and nothing is charged to a simulated relay or
published of it. -/
theorem published_under_own_names (wire : Wire) (target : String → Int → Bytes) (p : Proxy) (hval : p.validator = true)
    (hproc : p.relayProcessor = true) (height : Int) (as : List Action) :
    (∀ past o m rest, (run (step wire target p) { height } as).log = past ++ (o, .published m) :: rest →
      ∃ request sh body arrival, (run (step wire target p) { height } as).arrived[o.id]? = some arrival ∧
        (o, .validated request arrival) ∈ past ∧ (o, .answered body) ∈ past ∧ OwnNames wire target request sh body m) ∧
    ∀ o ev, (o, ev) ∈ (run (step wire target p) { height } as).log → o.simulated = true → ev.billing = false := by
  have hinv : Inv wire target (run (step wire target p) { height } as) :=
    inv_of_run (Inv wire target) (fun w a h => inv_step hval hproc h a) as (inv_start height)
  refine ⟨fun past o m rest hlog => ?_, fun o ev hmem hsim => ?_⟩
  · obtain ⟨request, sh, body, ⟨arrival, harr, hvalid⟩, hans, hnames⟩ := (hinv.log past _ rest hlog).2 m rfl
    exact ⟨request, sh, body, arrival, harr, hvalid, hans, hnames⟩
  · obtain ⟨past, rest, hlog⟩ := append_of_mem hmem
    exact (hinv.log past _ rest hlog).1 hsim

end run

/-! ## A subscription -/

def subscription : List Action :=
  [.upgrade "svc" none false, .frame 0 [3] { budget := .within 5 }, .block 16, .push 0 [7] { charge := some (5, false) }]

theorem published_under_own_names_push :
    ∃ past m, (run (step (Wire.only oneRequest [3]) (fun _ _ => []) (oneService .eager)) { height := 15 } subscription).log =
        past ++ (⟨0, false⟩, .published m) :: [] ∧ m.sessionId = "session" ∧
      ∃ request sh body arrival,
        (run (step (Wire.only oneRequest [3]) (fun _ _ => []) (oneService .eager)) { height := 15 } subscription).arrived[0]? =
          some arrival ∧
        (⟨0, false⟩, .validated request arrival) ∈ past ∧ (⟨0, false⟩, .answered body) ∈ past ∧
        OwnNames (Wire.only oneRequest [3]) (fun _ _ => []) request sh body m := by
  refine ⟨[(⟨0, false⟩, .validated oneRequest 15), (⟨0, false⟩, .backendCalled), (⟨0, false⟩, .answered [7]),
    (⟨0, false⟩, .charged ("session", "supplier") 5)],
    ⟨[7, 7], [7, 7], 1, "session", 10, 20, "supplier", "svc", "app", 16⟩, by decide, rfl, ?_⟩
  exact (published_under_own_names (Wire.only oneRequest [3]) (fun _ _ => []) (oneService .eager) rfl rfl 15
    subscription).1 _ ⟨0, false⟩ _ [] (by decide)

end RelayMiner.Relayer.Mined
