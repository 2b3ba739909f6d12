import HClient.Core.Poll
import HClient.Core.Varint
import HClient.Effect.Loop
import HClient.Native.Error

/-!
# A WebSocket with keep-alive

`TungsteniteWebSocket`, as the calls it makes of the `WebSocketContext` of tungstenite and of its
clock. A frame is what `read` of the context hands out. What the context, the sleeps and the caller
answer is left open.
-/
namespace HClient.WebSocket

open Native (ErrorKind)

/-- A close code, as the number it stands for, and a reason. -/
structure CloseFrame where
  code : UInt16
  reason : Text
  deriving DecidableEq, Repr

/-- `tungstenite::Message`. -/
inductive Frame where
  | text (t : Text)
  | binary (b : List UInt8)
  | ping (payload : List UInt8)
  | pong (payload : List UInt8)
  | close (f : Option CloseFrame)
  | frame (raw : List UInt8)
  deriving DecidableEq, Repr

inductive Message where
  | text (t : Text)
  | binary (b : List UInt8)
  | close (f : Option CloseFrame)
  deriving DecidableEq, Repr

/-- The frame that `start_send` writes. -/
def Message.frame : Message → Frame
  | .text t => .text t
  | .binary b => .binary b
  | .close f => .close f

/-- `tungstenite::Error`, as far as its kinds are told apart, with the text of the rest. -/
inductive TungsteniteError where
  | wouldBlock
  | io (text : Text)
  | connectionClosed
  | alreadyClosed
  | protocol (text : Text)
  | capacity (text : Text)
  | other (text : Text)
  deriving DecidableEq, Repr

inductive Source where
  | tungstenite (e : TungsteniteError)
  | pongNotReceived (within : Duration)
  deriving DecidableEq, Repr

structure WsError where
  kind : ErrorKind
  source : Source
  deriving DecidableEq, Repr

def TungsteniteError.isWouldBlock (e : TungsteniteError) : Bool := e = .wouldBlock

def wsError (e : TungsteniteError) : WsError :=
  match e with
  | .wouldBlock | .io _ | .connectionClosed => ⟨.body, .tungstenite e⟩
  | .protocol _ | .capacity _ => ⟨.decode, .tungstenite e⟩
  | .alreadyClosed | .other _ => ⟨.other, .tungstenite e⟩

/-! ## Calls -/

/-- What a caller does with a socket; `debug` prints it. -/
inductive Call where
  | pollNext
  | pollReady
  | startSend (item : Message)
  | pollFlush
  | pollClose
  | debug
  deriving DecidableEq, Repr

/-- `Poll<Option<Result<Message, Error>>>`. -/
abbrev Polled := Poll (Option (Except WsError Message))

/-- What a call answers; of what is printed, `ping_awaiting_a_pong`. -/
inductive Reply where
  | polled (answer : Polled)
  | flushed (answer : Poll (Except WsError Unit))
  | sent (answer : Except WsError Unit)
  | printed (pingAwaitingAPong : Option UInt64)

/-- The stream that a call of the context writes to. -/
inductive Io where
  | shim
  | unwritable
  deriving DecidableEq, Repr

/-- The calls of the context and of the clock, where `S` is a sleep, and between them those of the
caller: it says what it does next, and is replied to. -/
inductive Op (S : Type) where
  | next
  | reply (r : Reply)
  | read
  | flush
  | write (io : Io) (f : Frame)
  | close
  | canWrite
  | sleep (due : Duration)
  | pollSleep (s : S)

def Op.Answer {S : Type} : Op S → Type
  | .next => Call
  | .reply _ => Unit
  | .read => Except TungsteniteError Frame
  | .flush => Except TungsteniteError Unit
  | .write _ _ => Except TungsteniteError Unit
  | .close => Except TungsteniteError Unit
  | .canWrite => Bool
  | .sleep _ => S
  | .pollSleep _ => Poll Unit

abbrev Script (S α : Type) := Effect.Program (Op S) Op.Answer α

abbrev Event (S : Type) := Effect.Program.Event (Op S) Op.Answer

/-! ## The keep-alive -/

structure WebSocketKeepAlive where
  every : Duration
  within : Duration
  deriving DecidableEq, Repr

/-- `u64::to_be_bytes`. -/
def toBeBytes (seq : UInt64) : List UInt8 := toBe 8 seq.toNat

/-- The state of the keep-alive, with the one sleep that it runs at a time. -/
structure Liveness (S : Type) where
  config : WebSocketKeepAlive
  sleep : Option S
  outstanding : Option UInt64
  next : UInt64

namespace Liveness
variable {S : Type}

def new (config : WebSocketKeepAlive) : Liveness S := ⟨config, none, none, 0⟩

/-- The frame is the pong of the ping that waits. -/
def isAnsweredBy (l : Liveness S) (frame : Frame) : Bool :=
  match frame, l.outstanding with
  | .pong payload, some seq => payload = toBeBytes seq
  | _, _ => false

def saw (l : Liveness S) (frame : Frame) : Liveness S :=
  let l := if l.isAnsweredBy frame then { l with outstanding := none } else l
  if l.outstanding.isNone then { l with sleep := none } else l

def probe (l : Liveness S) : List UInt8 × Liveness S :=
  (toBeBytes l.next, { l with next := l.next + 1, outstanding := some l.next })

def noPong (l : Liveness S) : WsError := ⟨.body, .pongNotReceived l.config.within⟩

/-- How long the next sleep is to be. -/
def due (l : Liveness S) : Duration :=
  if l.outstanding.isSome then l.config.within else l.config.every

/-- The sleep that runs, or a new one. -/
def armed (l : Liveness S) : Script S (S × Liveness S) :=
  match l.sleep with
  | some s => .done (s, l)
  | none => .call (.sleep l.due) fun (s : S) => .done (s, { l with sleep := some s })

end Liveness

/-! ## The socket -/

structure TungsteniteWebSocket (S : Type) where
  ended : Bool
  live : Option (Liveness S)

/-- Where the loops of a poll stand: at the head of the outer one, or of the inner one, where the
socket had nothing to read. A poll that stands there has not ended the stream. -/
inductive Point (S : Type) where
  | reading (live : Option (Liveness S))
  | idle (l : Liveness S)

namespace TungsteniteWebSocket
variable {S : Type}

def new (keepAlive : Option WebSocketKeepAlive) : TungsteniteWebSocket S :=
  ⟨false, keepAlive.map Liveness.new⟩

/-- `ping_awaiting_a_pong`. -/
def pingAwaitingAPong (ws : TungsteniteWebSocket S) : Option UInt64 :=
  ws.live.bind Liveness.outstanding

/-- What a pass of a loop comes to: the next one, or an answer and what it leaves. -/
abbrev Pass (S : Type) := Script S (Point S ⊕ Polled × TungsteniteWebSocket S)

def again (p : Point S) : Pass S := .done (.inl p)

def answer (polled : Polled) (live : Option (Liveness S)) : Pass S :=
  .done (.inr (polled, ⟨false, live⟩))

def endWith (item : Option (Except WsError Message)) (live : Option (Liveness S)) : Pass S :=
  .done (.inr (.ready item, ⟨true, live⟩))

/-- Goes on where a call succeeded or would block. -/
def proceed (result : Except TungsteniteError Unit) (live : Option (Liveness S)) (on : Pass S) :
    Pass S :=
  match result with
  | .ok () => on
  | .error e => if e.isWouldBlock then on else endWith (some (.error (wsError e))) live

/-- Past the retry of the flush. -/
def readPass (live : Option (Liveness S)) : Pass S :=
  .call .read fun (read : Except TungsteniteError Frame) =>
    match read with
    | .ok frame =>
        let live := live.map (·.saw frame)
        match frame with
        | .text t => answer (.ready (some (.ok (.text t)))) live
        | .binary b => answer (.ready (some (.ok (.binary b)))) live
        | .close f => answer (.ready (some (.ok (.close f)))) live
        | .ping _ | .pong _ | .frame _ => again (.reading live)
    | .error e =>
        if e.isWouldBlock then
          match live with
          | none => answer .pending none
          | some l => again (.idle l)
        else
          match e with
          | .connectionClosed | .alreadyClosed => endWith none live
          | e => endWith (some (.error (wsError e))) live

/-- One pass of the outer loop. -/
def outerPass (live : Option (Liveness S)) : Pass S :=
  if live.any (·.outstanding.isSome) then
    .call .flush fun (flushed : Except TungsteniteError Unit) => proceed flushed live (readPass live)
  else readPass live

/-- The ping of a silence that lasted. -/
def pingPass (l : Liveness S) : Pass S :=
  let (payload, l) := l.probe
  .call (.write .shim (.ping payload)) fun (written : Except TungsteniteError Unit) =>
    proceed written (some l)
      (.call .flush fun (flushed : Except TungsteniteError Unit) =>
        proceed flushed (some l) (again (.idle l)))

/-- A poll of the sleep that runs. -/
def sleptPass (s : S) (l : Liveness S) : Pass S :=
  .call (.pollSleep s) fun (slept : Poll Unit) =>
    match slept with
    | .pending => answer .pending (some l)
    | .ready () =>
        let l := { l with sleep := none }
        if l.outstanding.isSome then endWith (some (.error l.noPong)) (some l) else pingPass l

/-- The sleep of the keep-alive, armed where none runs. -/
def sleepPass (l : Liveness S) : Pass S := l.armed.bind fun (s, l) => sleptPass s l

/-- One pass of the inner loop. -/
def innerPass (l : Liveness S) : Pass S :=
  if l.outstanding.isNone then
    .call .canWrite fun (canWrite : Bool) =>
      -- a close of ours has gone out
      if !canWrite then answer .pending (some { l with sleep := none }) else sleepPass l
  else sleepPass l

def pass : Point S → Pass S
  | .reading live => outerPass live
  | .idle l => innerPass l

/-- `poll_next`, within so many passes of its loops. -/
def pollNext (passes : Nat) (ws : TungsteniteWebSocket S) :
    Script S (Option (Polled × TungsteniteWebSocket S)) :=
  if ws.ended then .done (some (.ready none, ws))
  else Effect.Program.loop pass passes (.reading ws.live)

/-- What a flush, or a close, answers a caller. -/
def flushed (result : Except TungsteniteError Unit) : Poll (Except WsError Unit) :=
  match result with
  | .ok () => .ready (.ok ())
  | .error e =>
      if e.isWouldBlock then .pending
      else
        match e with
        | .connectionClosed | .alreadyClosed => .ready (.ok ())
        | e => .ready (.error (wsError e))

def pollFlush : Script S (Poll (Except WsError Unit)) :=
  .call .flush fun (result : Except TungsteniteError Unit) => .done (flushed result)

def pollReady : Script S (Poll (Except WsError Unit)) := pollFlush

/-- What a write to nothing answers a caller: the frame is in the buffer where it would block. -/
def sent (result : Except TungsteniteError Unit) : Except WsError Unit :=
  match result with
  | .ok () => .ok ()
  | .error e => if e.isWouldBlock then .ok () else .error (wsError e)

def startSend (item : Message) : Script S (Except WsError Unit) :=
  .call (.write .unwritable item.frame) fun (result : Except TungsteniteError Unit) =>
    .done (sent result)

def pollClose : Script S (Poll (Except WsError Unit)) :=
  .call .close fun (result : Except TungsteniteError Unit) => .done (flushed result)

/-- One call of the caller, within so many passes of a poll. -/
def call (passes : Nat) (ws : TungsteniteWebSocket S) :
    Call → Script S (Option (Reply × TungsteniteWebSocket S))
  | .pollNext => (pollNext passes ws).bind fun polled =>
      .done (polled.map fun (polled, ws) => (.polled polled, ws))
  | .pollReady => pollReady.bind fun r => .done (some (.flushed r, ws))
  | .startSend item => (startSend item).bind fun r => .done (some (.sent r, ws))
  | .pollFlush => pollFlush.bind fun r => .done (some (.flushed r, ws))
  | .pollClose => pollClose.bind fun r => .done (some (.flushed r, ws))
  | .debug => .done (some (.printed ws.pingAwaitingAPong, ws))

/-- A socket from here on, in any hands: so many calls, each within so many passes. The numbers
only say where a record is cut off. -/
def session (passes : Nat) : Nat → TungsteniteWebSocket S → Script S Unit
  | 0, _ => .done ()
  | calls + 1, ws => .call .next fun (c : Call) => (ws.call passes c).bind fun done =>
      match done with
      | none => .done ()
      | some (reply, ws) => .call (.reply reply) fun (_ : Unit) => session passes calls ws

end TungsteniteWebSocket
end HClient.WebSocket
