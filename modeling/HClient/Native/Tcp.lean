import HClient.Connect.Connector
import HClient.Native.Http1
import HClient.Native.Http3
import HClient.Native.Undo

/-!
# A request over TCP

`Native::run`: a request from its admission over the connections of the pool that may serve it to a
fresh one, as the calls it makes of the pool, of the connector and of the exchange.
-/
namespace HClient.Native.Established
variable {C : Type}

def connection : Established C → C
  | .h1 connection => connection
  | .h2 connection => connection
  | .h2Shared _ sender => sender

def isH2 : Established C → Bool
  | .h1 _ => false
  | .h2 _ => true
  | .h2Shared _ _ => true

end HClient.Native.Established

namespace HClient.Native.Tcp
open Effect
open Connect (host wantsTls port)
open Http3 (checkVersion resolveIdentity)
open Undo (Outgoing Dispatch GateId)

/-! ## The transport -/

/-- Which versions a transport may speak, of which its setters leave one. -/
structure Versions where
  h1 : Bool
  h2 : Bool
  left : h1 = true ∨ h2 = true

def noVersionsLeft : Error :=
  .new .unsupported (.text ("this would leave the transport unable to speak any HTTP version: " ++
    "\x60http1\x60 and \x60http2\x60 cannot both be off").toList)

namespace Versions

def http1 (v : Versions) (on : Bool) : Except Error Versions :=
  if left : on = true ∨ v.h2 = true then .ok ⟨on, v.h2, left⟩ else .error noVersionsLeft

def http2 (v : Versions) (on : Bool) : Except Error Versions :=
  if left : v.h1 = true ∨ on = true then .ok ⟨v.h1, on, left⟩ else .error noVersionsLeft

end Versions

/-- What of a transport decides how a request goes: its versions, its TLS backend, whether its h2
connections are shared, its pool, its egress and its wait for a `100`. -/
structure Transport where
  versions : Versions
  configId : Nat
  configIdFor : Text → Option Nat
  reportsAlpn : Bool
  sharesH2 : Bool
  pool : Option PoolConfig
  external : Option (Egress.Target → Egress.Decision)
  rules : Egress.Rules
  expectContinue : Bool
  watching : Bool

/-- A request with what its extensions ask of this transport. -/
structure Prepared where
  request : Request
  identity : Option Text
  requireVersion : Option HttpVersion
  connect : Option Duration
  firstByte : Option Duration
  betweenBytes : Option Duration

/-- A pool key with its protocol not yet decided. -/
structure KeyParts where
  security : Security
  host : Text
  port : Nat
  proxy : Option Text
  deriving DecidableEq, Repr

def KeyParts.key (parts : KeyParts) (protocol : Protocol) : PoolKey :=
  .new parts.security parts.host parts.port protocol parts.proxy

def plaintextNeedsHttp1 : Error :=
  .new .unsupported (.text ("\x60http://\x60 needs HTTP/1.1, which this transport has been told " ++
    "not to speak").toList)

def h2Alpn : List UInt8 := Bytes.ascii "h2"

def http11Alpn : List UInt8 := Bytes.ascii "http/1.1"

def isH2 (protocol : Option Protocol) : Bool := protocol = some .h2

def spokenVersion (protocol : Option Protocol) : HttpVersion :=
  if isH2 protocol then .http2 else .http11

/-- No ALPN is HTTP/1.1; a protocol that is not spoken here, or was not offered, is none. -/
def negotiatedProtocol (alpn : Option (List UInt8)) (offeredH2 : Bool) : Option Protocol :=
  match alpn with
  | none => some .http11
  | some alpn =>
      if alpn = http11Alpn then some .http11
      else if offeredH2 ∧ alpn = h2Alpn then some .h2
      else none

/-- `protocol_admissible`: the demand is met by what the protocol is spoken as. -/
def Prepared.admits (call : Prepared) (protocol : Option Protocol) : Bool :=
  (checkVersion call.requireVersion (spokenVersion protocol)).isOk

/-- The protocols to propose. Both are off where HTTP/1.1 is and the request forbids h2. -/
def alpnFor (offeredH2 h1 : Bool) : List (List UInt8) :=
  match offeredH2, h1 with
  | true, true => [h2Alpn, http11Alpn]
  | true, false => [h2Alpn]
  | false, true => [http11Alpn]
  | false, false => [http11Alpn]

namespace Transport

def egressRoute (t : Transport) (target : Egress.Target) : Egress.Decision :=
  Connect.Filters.route ⟨t.external, t.rules⟩ target

def keyParts (t : Transport) (uri : Uri) (identityId : Option Nat) : Except Error KeyParts :=
  match host uri with
  | .error e => .error e
  | .ok host =>
      match wantsTls uri with
      | .error e => .error e
      | .ok useTls =>
          let port := port uri useTls
          let security := if useTls then .tls (identityId.getD t.configId) else .plaintext
          let proxy := match t.egressRoute ⟨host, port, useTls⟩ with
            | .filtered route => some route.poolKey
            | .direct => none
          .ok ⟨security, host, port, proxy⟩

/-- What the pool tells apart of where a request goes and as whom. -/
def partsFor (t : Transport) (uri : Uri) (identity : Option Text) : Except Error KeyParts :=
  match resolveIdentity ⟨t.configId, t.configIdFor, false⟩ identity with
  | .error e => .error e
  | .ok identityId => t.keyParts uri identityId

def admitRequest (t : Transport) (call : Prepared) : Except Error KeyParts :=
  match t.partsFor call.request.uri call.identity with
  | .error e => .error e
  | .ok parts =>
      if !t.versions.h1 ∧ parts.security = .plaintext then .error plaintextNeedsHttp1
      else .ok parts

def maySpeakH2 (t : Transport) (parts : KeyParts) : Bool :=
  t.versions.h2 && parts.security ≠ .plaintext && t.reportsAlpn

def sharesConnections (t : Transport) : Bool := t.sharesH2 && t.pool.isSome

def pooledCandidates (t : Transport) (parts : KeyParts) : List Protocol :=
  if t.maySpeakH2 parts then [.h2, .http11] else [.http11]

def checkinFor (t : Transport) (key : PoolKey) (now : Duration) : Option CheckIn :=
  t.pool.map fun cfg => ⟨key, now.saturatingAdd cfg.idleTimeout⟩

/-- How the head is written, which a tunnel does not change. -/
def via (t : Transport) (uri : Uri) : Via :=
  let useTls : Bool := uri.scheme = some .https
  match t.egressRoute ⟨uri.host.getD [], port uri useTls, useTls⟩ with
  | .filtered ⟨_, _, .absolute auth⟩ => .absoluteForm auth
  | .filtered ⟨_, _, .origin⟩ => .direct
  | .direct => .direct

/-- Whether the request waits for a `100`: it asks to, and the transport was told to honour it. -/
def waitsForContinue (t : Transport) (headers : HeaderMap HeaderValue) : Bool :=
  t.expectContinue && (headers.getAll "expect".toList).any fun v =>
    Text.eqIgnoreAsciiCase (v.map fun b => Char.ofNat b.toNat) "100-continue".toList

end Transport

/-! ## The calls -/

variable {C : Type}

/-- One request over one connection; `canonical` is the URI the request arrived with. -/
structure Attempt (C : Type) where
  est : Established C
  request : Outgoing
  how : Dispatch
  checkin : Option CheckIn
  canonical : Uri
  firstByte : Option Duration

/-- How an attempt ends. One that was not sent hands its request back. -/
inductive Exchanged where
  | answered (response : ResponseParts)
  | notSent (error : Error)
  | sent (error : Error)

/-- A connection that was made, and the protocol its handshake reports. -/
structure Made (C : Type) where
  conn : C
  alpn : Option (List UInt8)

inductive Op (C : Type) where
  | elapsed
  | beginConnect (key : PoolKey)
  | waitForConnect (key : PoolKey) (budget : Option Duration)
  | finishConnect (key : PoolKey)
  | take (key : PoolKey) (now : Duration)
  | isReusable (est : Established C)
  | forgetShared (key : PoolKey) (slot : SharedId)
  | stale (est : Established C)
  | reused (est : Established C) (version : HttpVersion)
  | connect (uri : Uri) (identity : Option Text) (alpn : List (List UInt8))
      (budget : Option Duration)
  | connected (conn : C) (version : HttpVersion)
  | handshake (conn : C) (h2 : Bool)
  | share (conn : C)
  | put (key : PoolKey) (est : Established C) (expiresAt : Duration)
  | exchange (attempt : Attempt C)

/-- A wait for a connect answers with what is left of its budget, a share with its slot. -/
def Op.Answer : Op C → Type
  | .elapsed => Duration
  | .beginConnect _ => Bool
  | .waitForConnect _ _ => Except Error (Option Duration)
  | .finishConnect _ => Unit
  | .take _ _ => Option (Established C)
  | .isReusable _ => Bool
  | .forgetShared _ _ => Unit
  | .stale _ => Unit
  | .reused _ _ => Unit
  | .connect _ _ _ _ => Except Error (Made C)
  | .connected _ _ => Unit
  | .handshake _ _ => Except Error Unit
  | .share _ => SharedId
  | .put _ _ _ => Unit
  | .exchange _ => Exchanged

abbrev Script (C α : Type) := Program (Op C) Op.Answer α

abbrev Event (C : Type) := Program.Event (Op C) Op.Answer

/-! ## The request -/

/-- A response, and the bound between the frames of its body. -/
structure Answered where
  response : ResponseParts
  betweenBytes : Option Duration

/-- A request on its way: as the attempts before left it, the key whose connect mark it holds, and
the next gate. -/
structure Going where
  request : Outgoing
  guard : Option PoolKey
  gate : GateId

inductive Progress where
  | ended (answer : Except Error Answered)
  | going (g : Going)

def Prepared.outgoing (call : Prepared) (t : Transport) : Outgoing :=
  .new call.request (if t.watching then some 0 else none)

/-- What an attempt that was not sent hands back. -/
def Attempt.handedBack (a : Attempt C) : Outgoing :=
  match a.how with
  | .h1 via gate => a.request.unsent via gate a.canonical
  | .h2 => a.request
  | .h2Shared => a.request

/-- Those who wait for a connect are let go. -/
def release : Option PoolKey → Script C Unit
  | none => .done ()
  | some key => .call (.finishConnect key) fun _ => .done ()

/-- A dead shared connection stays in the pool when it is taken, and is removed by its slot. -/
def forget (key : PoolKey) (est : Established C) : Script C Unit :=
  match est.sharedSlot with
  | none => .done ()
  | some slot => .call (.forgetShared key slot) fun _ => .done ()

def checkoutTurn (key : PoolKey) (now : Duration) :
    Unit → Script C (Unit ⊕ Option (Established C)) := fun _ =>
  .call (.take key now) fun
    | none => .done (.inr none)
    | some est => .call (.isReusable est) fun
        | true => .done (.inr (some est))
        | false => (forget key est).bind fun _ => .call (.stale est) fun _ => .done (.inl ())

/-- The loop of `checkout`, cut off after so many turns. -/
def checkout (turns : Nat) (key : PoolKey) (now : Duration) :
    Script C (Option (Option (Established C))) :=
  Program.loop (checkoutTurn key now) turns ()

/-- How a request goes over a connection, with a gate of its own where it waits for a `100`. -/
def dispatch (t : Transport) (call : Prepared) (g : Going) : Established C → Dispatch
  | .h1 _ => .h1 (t.via call.request.uri)
      (if t.waitsForContinue g.request.request.headers then some g.gate else none)
  | .h2 _ => .h2
  | .h2Shared _ _ => .h2Shared

def attemptOf (t : Transport) (call : Prepared) (g : Going) (est : Established C)
    (checkin : Option CheckIn) : Attempt C :=
  ⟨est, g.request, dispatch t call g est, checkin, call.request.uri, call.firstByte⟩

/-- Nobody who waits for a connect waits for an exchange. -/
def exchange (g : Going) (a : Attempt C) : Script C Exchanged :=
  (release g.guard).bind fun _ => .call (.exchange a) fun r => .done r

def answered (call : Prepared) (response : ResponseParts) : Answered :=
  ⟨response, call.betweenBytes⟩

/-- An attempt over a connection of the pool, after which the request may go on. -/
def overPooled (t : Transport) (call : Prepared) (key : PoolKey) (now : Duration) (g : Going)
    (est : Established C) : Script C Progress :=
  let a := attemptOf t call g est (t.checkinFor key now)
  .call (.reused est (spokenVersion (some key.protocol))) fun _ =>
    (exchange g a).bind fun
      | .answered response => .done (.ended (.ok (answered call response)))
      | .notSent _ => .done (.going ⟨a.handedBack, none, g.gate + 1⟩)
      | .sent e => .done (.ended (.error e))

/-- The buckets that may hold a connection for the request, one after the other. -/
def pooled (t : Transport) (call : Prepared) (parts : KeyParts) (turns : Nat) (now : Duration) :
    List Protocol → Going → Script C (Option Progress)
  | [], g => .done (some (.going g))
  | protocol :: protocols, g =>
      if call.admits (some protocol) then
        (checkout turns (parts.key protocol) now).bind fun
          | none => .done none
          | some none => pooled t call parts turns now protocols g
          | some (some est) => (overPooled t call (parts.key protocol) now g est).bind fun
              | .ended answer => .done (some (.ended answer))
              | .going g => pooled t call parts turns now protocols g
      else pooled t call parts turns now protocols g

/-- The error of a request whose guard is dropped with it. -/
def giveUp (g : Going) (e : Error) : Script C (Except Error Answered) :=
  (release g.guard).bind fun _ => .done (.error e)

/-- The one place where a connection becomes a shared one. -/
def shareIfMultiplexing (t : Transport) (parts : KeyParts) (now : Duration) (est : Established C)
    (checkin : Option CheckIn) : Script C (Established C × Option CheckIn) :=
  match t.sharesH2, t.pool, est with
  | true, some cfg, .h2 conn => .call (.share conn) fun slot =>
      .call (.put (parts.key .h2) (.h2Shared slot conn) (now.saturatingAdd cfg.idleTimeout))
        fun _ => .done (.h2Shared slot conn, none)
  | _, _, _ => .done (est, checkin)

def offersH2 (t : Transport) (call : Prepared) (parts : KeyParts) : Bool :=
  t.maySpeakH2 parts && call.admits (some .h2)

/-- What is done with a connection that was made: nothing is written before its version is known to
meet the demand. -/
def overMade (t : Transport) (call : Prepared) (parts : KeyParts) (now : Duration) (g : Going)
    (made : Made C) : Script C (Except Error Answered) :=
  let protocol := negotiatedProtocol made.alpn (offersH2 t call parts)
  .call (.connected made.conn (spokenVersion protocol)) fun _ =>
    match checkVersion call.requireVersion (spokenVersion protocol) with
    | .error e => giveUp g e
    | .ok _ => .call (.handshake made.conn (isH2 protocol)) fun
        | .error e => giveUp g e
        | .ok _ =>
            let checkin := protocol.bind fun p => t.checkinFor (parts.key p) now
            let est := if isH2 protocol then .h2 made.conn else .h1 made.conn
            (shareIfMultiplexing t parts now est checkin).bind fun (est, checkin) =>
              (exchange g (attemptOf t call g est checkin)).bind fun
                | .answered response => .done (.ok (answered call response))
                | .notSent e => .done (.error e)
                | .sent e => .done (.error e)

/-- A fresh connection is never retried. -/
def fresh (t : Transport) (call : Prepared) (parts : KeyParts) (now : Duration)
    (budget : Option Duration) (g : Going) : Script C (Except Error Answered) :=
  .call (.connect call.request.uri call.identity
      (alpnFor (offersH2 t call parts) t.versions.h1) budget) fun
    | .error e => giveUp g e
    | .ok made => overMade t call parts now g made

/-- Where connections are shared, one connect for an origin at a time: the mark that was taken, and
what is left of the bound. -/
def singleFlight (t : Transport) (call : Prepared) (parts : KeyParts) :
    Script C (Except Error (Option PoolKey × Option Duration)) :=
  let key := parts.key .h2
  if t.sharesConnections && t.maySpeakH2 parts then
    .call (.beginConnect key) fun
      | true => .done (.ok (some key, call.connect))
      | false => .call (.waitForConnect key call.connect) fun
          | .error e => .done (.error e)
          | .ok budget => .call (.beginConnect key) fun
              | true => .done (.ok (some key, budget))
              | false => .done (.ok (none, budget))
  else .done (.ok (none, call.connect))

/-- `Native::run`; no answer where a checkout was cut off. -/
def run (t : Transport) (call : Prepared) (turns : Nat) :
    Script C (Option (Except Error Answered)) :=
  match t.admitRequest call with
  | .error e => .done (some (.error e))
  | .ok parts => .call .elapsed fun now => (singleFlight t call parts).bind fun
      | .error e => .done (some (.error e))
      | .ok (guard, budget) =>
          (pooled t call parts turns now (t.pooledCandidates parts)
              ⟨call.outgoing t, guard, 0⟩).bind fun
            | none => .done none
            | some (.ended answer) => .done (some answer)
            | some (.going g) => (fresh t call parts now budget g).bind fun answer =>
                .done (some answer)

/-! ## A connect of its own -/

/-- `Held`: a connection that nothing was sent over yet. -/
structure Held (C : Type) where
  est : Established C
  checkin : Option CheckIn

def stagePooled (t : Transport) (call : Prepared) (parts : KeyParts) (turns : Nat)
    (now : Duration) : List Protocol → Script C (Option (Option (Held C)))
  | [] => .done (some none)
  | protocol :: protocols =>
      if call.admits (some protocol) then
        (checkout turns (parts.key protocol) now).bind fun
          | none => .done none
          | some none => stagePooled t call parts turns now protocols
          | some (some est) => .call (.reused est (spokenVersion (some protocol))) fun _ =>
              .done (some (some ⟨est, t.checkinFor (parts.key protocol) now⟩))
      else stagePooled t call parts turns now protocols

/-- HTTP/1.1 is proposed here whatever the versions. -/
def stageFresh (t : Transport) (call : Prepared) (parts : KeyParts) (now : Duration) :
    Script C (Except Error (Held C)) :=
  .call (.connect call.request.uri call.identity (alpnFor (offersH2 t call parts) true)
      call.connect) fun
    | .error e => .done (.error e)
    | .ok made =>
        let protocol := negotiatedProtocol made.alpn (offersH2 t call parts)
        .call (.connected made.conn (spokenVersion protocol)) fun _ =>
          match checkVersion call.requireVersion (spokenVersion protocol) with
          | .error e => .done (.error e)
          | .ok _ => .call (.handshake made.conn (isH2 protocol)) fun
              | .error e => .done (.error e)
              | .ok _ => .done (.ok ⟨if isH2 protocol then .h2 made.conn else .h1 made.conn,
                  protocol.bind fun p => t.checkinFor (parts.key p) now⟩)

/-- `stage`: a connection of the pool, or a fresh one, with nothing sent. -/
def stage (t : Transport) (call : Prepared) (turns : Nat) :
    Script C (Option (Except Error (Held C))) :=
  match t.partsFor call.request.uri call.identity with
  | .error e => .done (some (.error e))
  | .ok parts => .call .elapsed fun now =>
      (stagePooled t call parts turns now (t.pooledCandidates parts)).bind fun
        | none => .done none
        | some (some held) => .done (some (.ok held))
        | some none => (stageFresh t call parts now).bind fun r => .done (some r)

/-- A connection that was held for nothing goes to the pool, unless the pool lent it. -/
def dropHeld (held : Held C) : Script C Unit :=
  match held.est.borrowed, held.checkin with
  | none, some checkin => .call (.put checkin.key held.est checkin.expiresAt) fun _ => .done ()
  | _, _ => .done ()

end HClient.Native.Tcp
