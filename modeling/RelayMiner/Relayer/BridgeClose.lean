import RelayMiner.Relayer.Served
import RelayMiner.Relayer.WebSocket
/-!
# A bridge that is closed

Whoever finds that a bridge is finished records why and cancels its context: a
read loop whose connection failed, a ping loop, the session monitor's callback,
or a handler. The message loop goes on until its `select` sees the context end,
and the `select` may as well take a message that waits. The backend's handler
looks at the context first; the gateway's does not.

A handler is one step: a close that lands while a message is handled is a close
before the next one.
-/
open RelayMiner.Lib

namespace RelayMiner.Relayer.BridgeClose

inductive WsMessageSource where
  | gateway
  | backend
  deriving DecidableEq

structure WsMessage where
  source : WsMessageSource
  data : Bytes
  deriving DecidableEq

inductive Deed where
  | forwarded
  | written
  | charged
  | published
  deriving DecidableEq

def deedOf : Event → Option Deed
  | .backendCalled => some .forwarded
  | .answered _ => some .written
  | .charged _ _ => some .charged
  | .published _ => some .published
  | _ => none

structure Handled where
  message : WsMessage
  /-- A reason was recorded and the context cancelled when its handling started. -/
  late : Bool
  deeds : List Deed
  deriving DecidableEq

/-- `closed` of the bridge is its context cancelled. -/
structure World where
  bridge : Bridge
  closeReason : Bool := false
  /-- Goroutines that have recorded a reason and not yet cancelled the context. -/
  closing : Nat := 0
  msgChan : List WsMessage := []
  looping : Bool := true
  frames : Nat := 0
  log : List Handled := []

def msgChanSize : Nat := 100

/-- The raw writes, which are no events: of a frame that is no relay request to a backend that is there, and of a
message that comes before any request. -/
def rawDeeds (wire : Wire) (b : Bridge) (m : WsMessage) : List Deed :=
  match m.source with
  | .gateway => if (wire.unmarshal m.data).isNone && b.backendConn then [.forwarded] else []
  | .backend => if !b.closed && b.latestRequest.isNone then [.written] else []

def handle (wire : Wire) (target : String → Int → Bytes) (p : Proxy) (w : World) (m : WsMessage) (height : Int)
    (f : FrameAnswers) (u : PushAnswers) : World :=
  let (events, b) :=
    match m.source with
    | .gateway => handleGatewayMessage wire p w.bridge w.frames m.data height f
    | .backend => handleBackendMessage wire target p w.bridge m.data height u
  { w with
    bridge := b
    closeReason := w.closeReason || b.closed
    frames := w.frames + 1
    log := w.log ++
      [⟨m, w.closeReason && w.bridge.closed, rawDeeds wire w.bridge m ++ events.filterMap deedOf⟩] }

inductive Act where
  /-- A read loop hands over what it read; with the context cancelled it may still. -/
  | read (m : WsMessage)
  | recordCloseReason
  | cancel
  | take (height : Int) (f : FrameAnswers) (u : PushAnswers)
  | leave

/-- A frame is read, the bridge is closed in its two steps, or the loop takes a message or leaves. -/
def step (wire : Wire) (target : String → Int → Bytes) (p : Proxy) (w : World) : Act → World
  | .read m => if w.msgChan.length < msgChanSize then { w with msgChan := w.msgChan ++ [m] } else w
  | .recordCloseReason => { w with closeReason := true, closing := w.closing + 1 }
  | .cancel => if w.closing = 0 then w else { w with closing := w.closing - 1, bridge := w.bridge.close }
  | .take height f u =>
    match w.looping, w.msgChan with
    | true, m :: rest => handle wire target p { w with msgChan := rest } m height f u
    | _, _ => w
  | .leave => if w.bridge.closed then { w with looping := false } else w

/-- Once the bridge is closed, the message that is taken up is the backend's. -/
def FromBackend (w : World) : Act → Prop
  | .take _ _ _ => w.closeReason = true → w.bridge.closed = true → ∀ m ∈ w.msgChan.head?, m.source = .backend
  | _ => True

def Quiet (w : World) : Prop := ∀ h ∈ w.log, h.late = true → h.deeds = []

variable {wire : Wire} {target : String → Int → Bytes} {p : Proxy} {w : World} {m : WsMessage}

theorem rawDeeds_of_closed (hb : w.bridge.closed = true) (hm : m.source = .backend) : rawDeeds wire w.bridge m = [] := by
  simp [rawDeeds, hm, hb]

theorem Quiet.handle (h : Quiet w) (height : Int) (f : FrameAnswers) (u : PushAnswers)
    (hm : w.closeReason = true → w.bridge.closed = true → m.source = .backend) :
    Quiet (handle wire target p w m height f u) := by
  intro e he hlate
  rcases List.mem_append.1 he with he | he
  · exact h e he hlate
  obtain rfl := List.mem_singleton.1 he
  obtain ⟨hr, hb⟩ := Bool.and_eq_true_iff.1 hlate
  have hs := hm hr hb
  have hevents : handleBackendMessage wire target p w.bridge m.data height u = ([], w.bridge) := by
    unfold handleBackendMessage
    rw [if_pos hb]
  simp [hs, hevents, rawDeeds_of_closed hb hs]

theorem quiet_step (w : World) (a : Act) (h : Quiet w) (hg : FromBackend w a) : Quiet (step wire target p w a) := by
  cases a with
  | read | cancel | leave =>
    simp only [step]
    split <;> exact h
  | recordCloseReason => exact h
  | take height f u =>
    simp only [step]
    split
    next m rest _ hc =>
      exact Quiet.handle (w := { w with msgChan := rest }) h height f u fun hr hb => hg hr hb m (by simp [hc])
    · exact h

theorem closed_bridge_does_nothing (wire : Wire) (target : String → Int → Bytes) (p : Proxy) (b : Bridge)
    (as : List Act) (hfrom : Meets (step wire target p) FromBackend { bridge := b } as) :
    Quiet (run (step wire target p) { bridge := b } as) :=
  inv_of_meets Quiet quiet_step nofun hfrom

def openBridge : Bridge := { serviceID := "svc", backendConn := true, latestRequest := some (0, oneRequest) }

def latePush : List Act :=
  [.read ⟨.backend, [7]⟩, .recordCloseReason, .cancel, .take 16 { budget := .over } { charge := some (5, false) }, .leave]

theorem closed_bridge_does_nothing_late_push :
    Quiet (run (step (Wire.only oneRequest [3]) (fun _ _ => []) (oneService .eager)) { bridge := openBridge } latePush) ∧
    (run (step (Wire.only oneRequest [3]) (fun _ _ => []) (oneService .eager)) { bridge := openBridge } latePush).log =
      [⟨⟨.backend, [7]⟩, true, []⟩] := by
  refine ⟨closed_bridge_does_nothing _ _ _ _ _ ⟨trivial, trivial, trivial, ?_, trivial, trivial⟩, by decide⟩
  rintro - - m hm
  cases hm
  rfl

/-- A raw frame of the gateway that waits while the bridge is closed is forwarded to the backend. -/
theorem late_frame_forwarded :
    (run (step (Wire.only oneRequest [3]) (fun _ _ => []) (oneService .eager)) { bridge := openBridge }
      [.read ⟨.gateway, [9]⟩, .recordCloseReason, .cancel,
        .take 16 { budget := .over } { charge := none }]).log = [⟨⟨.gateway, [9]⟩, true, [.forwarded]⟩] := by
  decide

end RelayMiner.Relayer.BridgeClose
