import HClient.Core.Http
import HClient.Core.Poll
import HClient.Effect.Monitor
import HClient.Native.Error
import HClient.Native.Pool

/-!
# One exchange over an HTTP/1 connection

The future of an exchange and the body it answers with, as the calls they make: of the hyper
futures they drive, of the hooks, and of the pool. What the futures answer is left open.
-/
namespace HClient.Native

inductive CloseReason where
  | ended
  | stale
  | failed (e : Error)

abbrev ConnectionId := Nat

structure CheckIn where
  key : PoolKey
  expiresAt : Duration

inductive Failed (Req : Type) where
  | notSent (error : Error) (request : Req)
  | sent (error : Error)

structure TrySendError (Req : Type) where
  message : Option Req
  error : HyperError

namespace Http1

def fromHyperError (e : HyperError) (fallback : ErrorKind) : Error :=
  match e.source with
  | some inner => inner
  | none => .new fallback (.hyper e)

def fromHyperErrorOnSend (e : HyperError) : Error :=
  fromHyperError e (if e.isParse then .connect else .body)

inductive Op (Req : Type) where
  | pollConn
  | trySendRequest (req : Req)
  | pollSend
  | dropConn
  | closed (id : ConnectionId) (reason : CloseReason)
  | put (checkin : CheckIn) (est : Established ConnectionId)
  | pollIncoming

variable {Req Data : Type}

/-- What an operation answers, where frames carry `Data`. -/
def Op.Answer (Data : Type) : Op Req → Type
  | .pollConn => Poll (Except HyperError Unit)
  | .trySendRequest _ => Unit
  | .pollSend => Poll (Except (TrySendError Req) ResponseParts)
  | .dropConn => Unit
  | .closed _ _ => Unit
  | .put _ _ => Unit
  | .pollIncoming => Poll (Option (Except HyperError Data))

abbrev Script (Req Data α : Type) := Effect.Program (Op Req) (Op.Answer Data) α

abbrev Event (Req Data : Type) := Effect.Program.Event (Op Req) (Op.Answer Data)

/-- The body of a response: whether it still holds the connection, where the connection may be
checked in, and the connection's id until its end is told. -/
structure H1Body where
  conn : Bool
  reuse : Option CheckIn
  stillOpen : Option ConnectionId

namespace H1Body

def reportClosed (body : H1Body) (reason : CloseReason) : Script Req Data H1Body :=
  match body.stillOpen with
  | none => .done body
  | some id => .call (.closed id reason) fun _ => .done { body with stillOpen := none }

/-- The connection and its way back are both taken first; a connection that does not go back is
dropped with what was taken. -/
def handBackToPool (body : H1Body) : Script Req Data H1Body :=
  match body.conn, body.reuse with
  | true, some checkin =>
      match body.stillOpen with
      | none => .call .dropConn fun _ => .done ⟨false, none, none⟩
      | some id => .call (.put checkin (.h1 id)) fun _ => .done ⟨false, none, none⟩
  | true, none => .call .dropConn fun _ => .done { body with conn := false, reuse := none }
  | false, _ => .done { body with reuse := none }

/-- What `poll_frame` does once the connection has been moved. -/
def pollIncoming (body : H1Body) : Script Req Data (Poll (Option (Except Error Data)) × H1Body) :=
  .call .pollIncoming fun
    | .ready (some (.ok f)) => .done (.ready (some (.ok f)), body)
    | .ready (some (.error e)) =>
        let e := fromHyperError e .body
        (reportClosed { body with reuse := none } (.failed e)).bind fun body =>
          .done (.ready (some (.error e)), body)
    | .ready none =>
        body.handBackToPool.bind fun body => (body.reportClosed .ended).bind fun body =>
          .done (.ready none, body)
    | .pending => .done (.pending, body)

def pollFrame (body : H1Body) : Script Req Data (Poll (Option (Except Error Data)) × H1Body) :=
  if body.conn then
    .call .pollConn fun
      | .ready (.ok _) =>
          .call .dropConn fun _ => pollIncoming { body with conn := false, reuse := none }
      | .ready (.error e) =>
          .call .dropConn fun _ =>
            let e := fromHyperError e .body
            (reportClosed { body with conn := false, reuse := none } (.failed e)).bind fun body =>
              .done (.ready (some (.error e)), body)
      | .pending => pollIncoming body
  else pollIncoming body

end H1Body

/-- Where an exchange stands between two polls, up to the end of its response's body. -/
inductive Exchange (Req : Type) where
  | unpolled (req : Req) (checkin : Option CheckIn) (id : ConnectionId)
  | driving (checkin : Option CheckIn) (id : ConnectionId) (connDone : Bool)
  | responded (parts : ResponseParts) (body : H1Body)
  | failed (failed : Failed Req)
  | dropped

def claimBack (error : Error) : Script Req Data (Failed Req) :=
  .call .dropConn fun _ => .call .pollSend fun
    | .ready (.error e) =>
        match e.message with
        | some request => .done (.notSent error request)
        | none => .done (.sent error)
    | .ready (.ok _) => .done (.sent error)
    | .pending => .done (.sent error)

namespace Exchange

/-- What comes of the request's future: a response with its body, or a failure. -/
def settled (checkin : Option CheckIn) (id : ConnectionId) (connDone : Bool) :
    Except (TrySendError Req) ResponseParts → Script Req Data (Exchange Req)
  | .ok parts =>
      if connDone then .call .dropConn fun _ => .done (.responded parts ⟨false, none, none⟩)
      else .done (.responded parts ⟨true, checkin, some id⟩)
  | .error e =>
      .call .dropConn fun _ =>
        match e.message with
        | some request => .done (.failed (.notSent (fromHyperError e.error .connect) request))
        | none => .done (.failed (.sent (fromHyperErrorOnSend e.error)))

/-- The poll of the request's future at the end of each turn. -/
def pollSend (checkin : Option CheckIn) (id : ConnectionId) (connDone : Bool) :
    Script Req Data (Exchange Req) :=
  .call .pollSend fun
    | .ready sent => settled checkin id connDone sent
    | .pending =>
        if connDone then
          (claimBack (.new .connect .connectionEndedWithTheRequestQueued)).bind fun f =>
            .done (.failed f)
        else .done (.driving checkin id connDone)

/-- The future that drives the connection and the request together, polled once. -/
def drive (checkin : Option CheckIn) (id : ConnectionId) (connDone : Bool) :
    Script Req Data (Exchange Req) :=
  if connDone then pollSend checkin id connDone
  else
    .call .pollConn fun
      | .ready (.ok _) => .call (.closed id .ended) fun _ => pollSend checkin id true
      | .ready (.error e) =>
          let e := fromHyperError e .connect
          .call (.closed id (.failed e)) fun _ => .call .pollSend fun
            | .ready (.ok parts) => settled checkin id true (.ok parts)
            | .ready (.error _) => (claimBack e).bind fun f => .done (.failed f)
            | .pending => (claimBack e).bind fun f => .done (.failed f)
      | .pending => pollSend checkin id false

/-- The last look at the connection while the request is still ours, and the first turn. -/
def start (req : Req) (checkin : Option CheckIn) (id : ConnectionId) :
    Script Req Data (Exchange Req) :=
  .call .pollConn fun
    | .ready _ =>
        .call (.closed id .stale) fun _ => .call .dropConn fun _ =>
          .done (.failed (.notSent (.new .connect .connectionWentAwayBeforeTheRequest) req))
    | .pending => .call (.trySendRequest req) fun _ => drive checkin id false

/-- One poll by the caller: of the exchange until it answers, then of the body's frames. -/
def poll : Exchange Req → Script Req Data (Exchange Req)
  | .unpolled req checkin id => start req checkin id
  | .driving checkin id connDone => drive checkin id connDone
  | .responded parts body => body.pollFrame.bind fun polled => .done (.responded parts polled.2)
  | .failed f => .done (.failed f)
  | .dropped => .done .dropped

/-- The caller lets go of the future or of the body. -/
def drop : Exchange Req → Script Req Data (Exchange Req)
  | .unpolled _ _ _ => .call .dropConn fun _ => .done .dropped
  | .driving _ _ _ => .call .dropConn fun _ => .done .dropped
  | .responded _ body => if body.conn then .call .dropConn fun _ => .done .dropped else .done .dropped
  | .failed f => .done (.failed f)
  | .dropped => .done .dropped

end Exchange

inductive Action where
  | poll
  | drop
  deriving DecidableEq, Repr

namespace Exchange

def act (x : Exchange Req) : Action → Script Req Data (Exchange Req)
  | .poll => x.poll
  | .drop => x.drop

/-- What the caller does to one exchange over a connection, in order. -/
def run (req : Req) (checkin : Option CheckIn) (id : ConnectionId) (actions : List Action) :
    Script Req Data (Exchange Req) := actions.foldlM act (.unpolled req checkin id)

end Exchange

end Http1
end HClient.Native
