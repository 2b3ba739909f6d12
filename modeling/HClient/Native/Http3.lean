import HClient.Client.Body
import HClient.Core.Http
import HClient.Effect.Open
import HClient.Native.Error

/-!
# Requests over HTTP/3

A request from its admission over a connection, pooled or dialled, to its one or two attempts, as
the calls it makes; and the network the calls of all requests share: the connections with what
became of their early data, and the pool.
-/
namespace HClient.Native.Http3
open Client (RequestBody)

abbrev TlsConfigId := Nat
abbrev ConnId := Nat

/-- The transport's own: how its TLS backend is configured, and whether it offers early data. -/
structure H3 where
  tls : TlsConfigId
  configIdFor : Text → Option TlsConfigId
  earlyData : Bool

structure Parts where
  method : Method
  uri : Uri
  headers : HeaderMap HeaderValue
  deriving DecidableEq

/-- A request with what its extensions ask of this transport. -/
structure Request where
  parts : Parts
  body : RequestBody
  allowEarlyData : Bool
  identity : Option Text
  requireVersion : Option HttpVersion
  deriving DecidableEq

structure PoolKey where
  host : Text
  port : Nat
  tls : TlsConfigId
  earlyData : Bool
  identity : Option Text
  via : Option Text
  deriving DecidableEq

/-- A connection that can carry requests, and of which connection, if of any, the verdict on early
data is asked. -/
structure Pooled where
  conn : ConnId
  zeroRtt : Option ConnId
  deriving DecidableEq

/-- What became of a connection's early data; it is lost with a connection that ends first. -/
inductive Verdict where
  | pending
  | accepted
  | refused
  | lost
  deriving DecidableEq, Repr

/-- A stream for a request, and what its connection's early data was when the head was written. -/
structure Stream where
  attempt : Nat
  conn : ConnId
  phase : Option Verdict
  deriving DecidableEq

inductive HeadAnswer where
  | opened (phase : Option Verdict)
  | failed (e : Error)

/-- The pump and the response, polled together: a byte went out, the peer stopped reading, the
write failed, or the response was there first. -/
inductive DataAnswer where
  | wrote (phase : Option Verdict)
  | stopped
  | failed (e : Error)
  | answered (response : Except Error ResponseParts)

inductive Op where
  | resolve (host : Text) (port : Nat)
  | checkout (key : PoolKey)
  | endpointOver
  | setUp (key : PoolKey)
  | connectWith (key : PoolKey) (early : Bool)
  | into0rtt
  | handshake
  | buildH3 (conn : ConnId)
  | insert (key : PoolKey) (pooled : Pooled)
  | sendHead (attempt : Nat) (conn : ConnId) (parts : Parts)
  | sendData (stream : Stream) (byte : UInt8)
  | finishStream (stream : Stream)
  | recvResponse (stream : Stream)
  | verdict (conn : ConnId)

def Op.Answer : Op → Type
  | .resolve _ _ => Except Error Unit
  | .checkout _ => Option Pooled
  | .endpointOver => Except Error Unit
  | .setUp _ => Except Error Unit
  | .connectWith _ _ => Except Error Unit
  | .into0rtt => Option ConnId
  | .handshake => Except Error ConnId
  | .buildH3 _ => Except Error Unit
  | .insert _ _ => Unit
  | .sendHead _ _ _ => HeadAnswer
  | .sendData _ _ => DataAnswer
  | .finishStream _ => DataAnswer
  | .recvResponse _ => Except Error ResponseParts
  | .verdict _ => Bool

abbrev Script (α : Type) := Effect.Program Op Op.Answer α

abbrev Event := Effect.Program.Event Op Op.Answer

namespace Request

/-- The caller's mark is the gate; a body that cannot be sent again is refused beneath it. -/
def admitsEarlyData (req : Request) : Bool :=
  if !req.allowEarlyData then false else req.body.retryKind ≠ .impossible

end Request

structure Admitted where
  host : Text
  port : Nat
  wantsEarly : Bool
  identity : Option Text
  identityId : Option TlsConfigId

def checkVersion (required : Option HttpVersion) (negotiated : HttpVersion) : Except Error Unit :=
  match required with
  | some version =>
      if version ≠ negotiated then .error (.new .unsupported (.versionNotAvailable version negotiated))
      else .ok ()
  | none => .ok ()

def resolveIdentity (t : H3) : Option Text → Except Error (Option TlsConfigId)
  | none => .ok none
  | some name =>
      match t.configIdFor name with
      | some cfg => .ok (some cfg)
      | none => .error (.new .tls (.text
          ("no client identity named \x60".toList ++ name ++ "\x60 in this TLS backend".toList)))

def admitRequest (t : H3) (req : Request) : Except Error Admitted :=
  match checkVersion req.requireVersion .http3 with
  | .error e => .error e
  | .ok _ =>
      if req.parts.uri.scheme ≠ some .https then
        .error (.new .connect (.text ("HTTP/3 runs over QUIC, which is always TLS; \x60".toList ++
          (req.parts.uri.scheme.map Scheme.asStr).getD "(no scheme)".toList ++
          "\x60 has no plaintext form".toList)))
      else
        match req.parts.uri.host with
        | none => .error (.new .connect (.text "request URI has no host".toList))
        | some host =>
            match resolveIdentity t req.identity with
            | .error e => .error e
            | .ok identityId =>
                if req.allowEarlyData ∧ ¬t.earlyData then
                  .error (.new .unsupported (.text
                    ("hclient-h3 cannot offer TLS 1.3 early data, and the request carries ".toList ++
                      "AllowEarlyData; it was refused rather than silently sent at 1-RTT".toList)))
                else
                  .ok ⟨host, req.parts.uri.port.getD 443, req.admitsEarlyData, req.identity,
                    identityId⟩

inductive DialFailed where
  | earlyDataLost (e : Error)
  | fatal (e : Error)

/-- The h3 client on a connection whose streams may be going out in early data. -/
def buildH3 (pooled : Pooled) : Script (Except DialFailed Pooled) :=
  .call (.buildH3 pooled.conn) fun
    | .ok _ => .done (.ok pooled)
    | .error e =>
        match pooled.zeroRtt with
        | some _ => .done (.error (.earlyDataLost e))
        | none => .done (.error (.fatal e))

def fullHandshake : Script (Except DialFailed Pooled) :=
  .call .handshake fun
    | .error e => .done (.error (.fatal e))
    | .ok conn => buildH3 ⟨conn, none⟩

def dial (key : PoolKey) (early : Bool) : Script (Except DialFailed Pooled) :=
  .call (.setUp key) fun
    | .error e => .done (.error (.fatal e))
    | .ok _ => .call (.connectWith key early) fun
        | .error e => .done (.error (.fatal e))
        | .ok _ =>
            if early then
              .call .into0rtt fun
                | some conn => buildH3 ⟨conn, some conn⟩
                | none => fullHandshake
            else fullHandshake

def dialFully (key : PoolKey) : Script (Except Error Pooled) :=
  (dial key false).bind fun
    | .ok made => .done (.ok made)
    | .error (.earlyDataLost e) => .done (.error e)
    | .error (.fatal e) => .done (.error e)

/-- With the one fallback the early-data path owes. -/
def connect (key : PoolKey) : Script (Except Error Pooled) :=
  if key.earlyData then
    (dial key true).bind fun
      | .ok made => .done (.ok made)
      | .error (.earlyDataLost _) => dialFully key
      | .error (.fatal e) => .done (.error e)
  else dialFully key

inductive Checkout where
  | out (pooled : Pooled)
  | needsPath

def make (key : PoolKey) : Script (Except Error Checkout) :=
  (connect key).bind fun
    | .error e => .done (.error e)
    | .ok made => .call (.insert key made) fun _ => .done (.ok (.out made))

/-- A connection for this key; through a filter, only over the path that may be there. -/
def checkout (key : PoolKey) (path : Bool) : Script (Except Error Checkout) :=
  .call (.checkout key) fun
    | some pooled => .done (.ok (.out pooled))
    | none =>
        match key.via with
        | none => make key
        | some _ =>
            if path then
              .call .endpointOver fun
                | .error e => .done (.error e)
                | .ok _ => make key
            else .done (.ok .needsPath)

structure Staged where
  conn : ConnId
  zeroRtt : Option ConnId
  req : Request

inductive ViaRefused where
  | refused (e : Error) (req : Request)
  | needsPath (req : Request)

/-- A filter by its pool key, and whether its path came with it. -/
structure Filter where
  via : Text
  path : Bool

/-- The origin's name is resolved for a direct connection only. -/
def addressFor (filter : Option Filter) (host : Text) (port : Nat) : Script (Except Error Unit) :=
  match filter with
  | none => .call (.resolve host port) fun
      | .ok _ => .done (.ok ())
      | .error e => .done (.error e)
  | some _ => .done (.ok ())

def stageWith (t : H3) (req : Request) (filter : Option Filter) :
    Script (Except ViaRefused Staged) :=
  match admitRequest t req with
  | .error e => .done (.error (.refused e req))
  | .ok a =>
      (addressFor filter a.host a.port).bind fun
        | .error e => .done (.error (.refused e req))
        | .ok _ =>
            let key : PoolKey := ⟨a.host, a.port, a.identityId.getD t.tls, a.wantsEarly, a.identity,
              filter.map Filter.via⟩
            (checkout key ((filter.map Filter.path).getD false)).bind fun
              | .error e => .done (.error (.refused e req))
              | .ok .needsPath => .done (.error (.needsPath req))
              | .ok (.out pooled) => .done (.ok ⟨pooled.conn, pooled.zeroRtt, req⟩)

/-- A body's bytes; a factory is taken at its word. -/
def bytesOf : RequestBody → List UInt8
  | .empty => []
  | .full bytes => bytes
  | .rewindable made => bytesOf made
  | .streaming content => content

/-- A response whose request may not be written to its end yet. -/
structure Responded where
  parts : ResponseParts
  stream : Stream
  unwritten : List UInt8

/-- The response, once nothing of the request is left to write. -/
def recvResponse (stream : Stream) : Script (Except Error Responded) :=
  .call (.recvResponse stream) fun
    | .ok parts => .done (.ok ⟨parts, stream, []⟩)
    | .error e => .done (.error e)

/-- The pump beside the response: what is written, and a response that may come before the end. -/
def pump (stream : Stream) : List UInt8 → Script (Except Error Responded)
  | [] => .call (.finishStream stream) fun
      | .wrote _ => recvResponse stream
      | .stopped => recvResponse stream
      | .failed e => .done (.error e)
      | .answered (.ok parts) => .done (.ok ⟨parts, stream, []⟩)
      | .answered (.error e) => .done (.error e)
  | byte :: rest => .call (.sendData stream byte) fun
      | .wrote _ => pump stream rest
      | .stopped => recvResponse stream
      | .failed e => .done (.error e)
      | .answered (.ok parts) => .done (.ok ⟨parts, stream, byte :: rest⟩)
      | .answered (.error e) => .done (.error e)

def oneAttempt (attempt : Nat) (conn : ConnId) (parts : Parts) (body : RequestBody) :
    Script (Except Error Responded) :=
  .call (.sendHead attempt conn parts) fun
    | .failed e => .done (.error e)
    | .opened phase => pump ⟨attempt, conn, phase⟩ (bytesOf body)

/-- The first attempt, the verdict on early data, and where it is a refusal the replay. -/
def finish (staged : Staged) : Script (Except Error Responded) :=
  let spare := if staged.zeroRtt.isSome then staged.req.body.rewind else none
  (oneAttempt 1 staged.conn staged.req.parts staged.req.body).bind fun
    | .ok responded => .done (.ok responded)
    | .error e =>
        match staged.zeroRtt with
        | none => .done (.error e)
        | some conn => .call (.verdict conn) fun
            | true => .done (.error e)
            | false =>
                match spare with
                | none => .done (.error e)
                | some body => oneAttempt 2 staged.conn staged.req.parts body

/-- What the body of the response goes on writing while it is read. -/
def drain (stream : Stream) : List UInt8 → Script Unit
  | [] => .call (.finishStream stream) fun _ => .done ()
  | byte :: rest => .call (.sendData stream byte) fun
      | .wrote _ => drain stream rest
      | .stopped => .done ()
      | .failed _ => .done ()
      | .answered _ => .done ()

/-- One request of a caller, with the filter it goes through. -/
structure Call where
  req : Request
  filter : Option Filter

def run (t : H3) (call : Call) : Script Unit :=
  (stageWith t call.req call.filter).bind fun
    | .error _ => .done ()
    | .ok staged => (finish staged).bind fun
        | .error _ => .done ()
        | .ok responded => drain responded.stream responded.unwritten

end HClient.Native.Http3
