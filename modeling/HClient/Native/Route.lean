import HClient.AltSvc.Parsing
import HClient.Native.ConnectBudget
import HClient.Native.Tcp

/-!
# The routes of a request

`Transport::execute`: whether a request goes over TCP, over QUIC or over QUIC through a filter, the
race of the two connects, and the way back to TCP where QUIC fails. What the stacks do in their turn
is part of it: the request over HTTP/3, the request over TCP, and the connect under that.
-/
namespace HClient.Native.Routing
open Effect
open Http3 (Staged ViaRefused stageWith checkVersion)
open Connect (Prefetched)
open Connect.Connector (Conn)

/-! ## The request -/

structure Timeouts where
  resolve : Option Duration
  connect : Option Duration
  firstByte : Option Duration
  betweenBytes : Option Duration
  deriving DecidableEq

def Timeouts.narrowedToConnect (t : Timeouts) (connect : Duration) : Timeouts :=
  { t with resolve := none, connect := some connect }

/-- A request with its extensions, and what its body says of itself if it is a stream. -/
structure Call where
  parts : Http3.Parts
  version : HttpVersion
  body : Client.RequestBody
  sizeHint : SizeHint
  ended : Bool
  allowEarlyData : Bool
  identity : Option Text
  requireVersion : Option HttpVersion
  timeouts : Timeouts

namespace Call

def overH3 (c : Call) : Http3.Request :=
  ⟨c.parts, c.body, c.allowEarlyData, c.identity, c.requireVersion⟩

/-- A body before its first poll, out of the factories around it. -/
def inner (c : Call) : Client.RequestBody → Inner
  | .empty => .buffered none
  | .full bytes => .buffered (some bytes)
  | .rewindable made => c.inner made
  | .streaming _ => .streaming c.sizeHint c.ended

def overTcp (c : Call) : Tcp.Prepared where
  request := ⟨c.parts.method, c.parts.uri, c.version, c.parts.headers, ⟨c.inner c.body, none⟩⟩
  identity := c.identity
  requireVersion := c.requireVersion
  connect := c.timeouts.connect
  firstByte := c.timeouts.firstByte
  betweenBytes := c.timeouts.betweenBytes

/-- Whether anything is left of the bound. -/
def spendConnectBudget (c : Call) (spent : Duration) : Bool × Call :=
  match c.timeouts.connect with
  | none => (true, c)
  | some connect =>
      (decide (connect - spent ≠ 0),
        { c with timeouts := c.timeouts.narrowedToConnect (connect - spent) })

end Call

def probeBody (like : Client.RequestBody) : Client.RequestBody :=
  match like.retryKind with
  | .free => .empty
  | .viaFactory => .rewindable .empty
  | .impossible => .streaming []

/-- All that a connect reads of a request. -/
def probe (c : Call) : Call :=
  { c with body := probeBody c.body, sizeHint := ⟨0, none⟩, ended := false }

/-! ## The transport -/

/-- The transport with both its stacks: its TCP arm, its QUIC arm if it has one and may use it, the
head start of the one over the other, and whether the rules lend a datagram path. -/
structure Transport where
  tcp : Tcp.Transport
  h3 : Option Http3.H3
  versionH3 : Bool
  hedge : Option Duration
  rulesPath : Bool
  appliesEch : Bool

namespace Transport

def arm (t : Transport) : Option Http3.H3 := t.h3.filter fun _ => t.versionH3

def filters (t : Transport) : Connect.Filters := ⟨t.tcp.external, t.tcp.rules⟩

end Transport

inductive Egress where
  | direct
  | filtered (via : Text) (datagrams : Bool)
  deriving DecidableEq

def egressOf (t : Transport) (uri : Uri) : Egress :=
  match Connect.host uri, Connect.wantsTls uri with
  | .ok host, .ok useTls =>
      match t.filters.route ⟨host, Connect.port uri useTls, useTls⟩ with
      | .direct => .direct
      | .filtered route => .filtered route.poolKey route.support.datagrams
  | _, _ => .direct

def httpsDefaultPort : Nat := 443

def isIpLiteral (host : Text) : Bool := (IpAddr.parse (bareHost host)).isSome

def altSvcOrigin (uri : Uri) : Option AltSvc.Origin :=
  if uri.scheme = some .https then
    uri.host.map fun host => .new host (UInt16.ofNat (uri.port.getD httpsDefaultPort))
  else none

def recordName (host : Text) (port : Nat) : Text :=
  if port = httpsDefaultPort then host
  else '_' :: Nat.toDigits 10 port ++ "._https.".toList ++ host

/-! ## The errors -/

/-- A fraction of so many digits, without the zeros at its end. -/
def fractionText (width fraction : Nat) : Text :=
  let digits := Nat.toDigits 10 fraction
  match ((List.replicate (width - digits.length) '0' ++ digits).reverse.dropWhile (· = '0')).reverse with
  | [] => []
  | shown => '.' :: shown

/-- `Debug` of a duration. -/
def debugText (d : Duration) : Text :=
  if 1000000000 ≤ d then
    Nat.toDigits 10 (d / 1000000000) ++ fractionText 9 (d % 1000000000) ++ ['s']
  else if 1000000 ≤ d then
    Nat.toDigits 10 (d / 1000000) ++ fractionText 6 (d % 1000000) ++ "ms".toList
  else if 1000 ≤ d then Nat.toDigits 10 (d / 1000) ++ fractionText 3 (d % 1000) ++ "µs".toList
  else Nat.toDigits 10 d ++ "ns".toList

def noDatagramPath (via : Text) : Error :=
  .new .unsupported (.text ("HTTP/3 was required, and this request goes through \x60".toList ++ via ++
    "\x60, which carries no datagram path this transport can use".toList))

def noQuicArm : Error :=
  .new .unsupported (.text "this transport has no QUIC arm; see \x60Native::http3\x60".toList)

def connectSpent (bound : Option Duration) : Error :=
  .new (.timeout .connect) (.text ("no HTTP/3 connection within the connect timeout of ".toList ++
    debugText (bound.getD 0)))

def connectTimedOut (bound : Duration) : Error :=
  .new (.timeout .connect) (.text ("connect timed out after ".toList ++ debugText bound))

def askedForAGivenPath : Error :=
  .new .connect (.text "the QUIC arm asked for a path it was given".toList)

def askedForAPath : Error :=
  .new .connect (.text "a direct connection asked for a datagram path".toList)

def lendsNoPath : Error :=
  .new .unsupported (.text "this transport lends no datagram path; see \x60Native::http3\x60".toList)

/-! ## The calls -/

/-- What a filter says that is asked for a path. -/
inductive PathSaid where
  | opened
  | failed (e : Error)
  | unsupported (e : Error)

inductive Op (S : Type) where
  | now
  | systemNow
  | supportsHttps
  | records (name : Text)
  | altSvc (op : AltSvc.KvCall)
  | suppressed (origin : AltSvc.Origin) (now : Duration)
  | note (origin : AltSvc.Origin) (now : Duration)
  | externalPath (target : HClient.Egress.Target) (budget : Option Duration)
  | rulesPath (target : HClient.Egress.Target) (budget : Option Duration)
  | sleep (d : Duration)
  | first
  | bound (d : Duration)
  | boundSpent
  | h3 (op : Http3.Op)
  | tcp (op : Tcp.Op (Conn S))
  | connector (op : Connect.Connector.Op S)

variable {S : Type}

def Op.Answer : Op S → Type
  | .now => Duration
  | .systemNow => SystemTime
  | .supportsHttps => Bool
  | .records _ => List Connect.Item
  | .altSvc op => op.Answer
  | .suppressed _ _ => Bool
  | .note _ _ => Unit
  | .externalPath _ _ => PathSaid
  | .rulesPath _ _ => PathSaid
  | .sleep _ => Unit
  | .first => Bool
  | .bound _ => Unit
  | .boundSpent => Bool
  | .h3 op => op.Answer
  | .tcp op => op.Answer
  | .connector op => op.Answer

abbrev Script (S α : Type) := Program (Op S) Op.Answer α

abbrev Event (S : Type) := Program.Event (Op S) Op.Answer

namespace Script

def altSvc {α : Type} (p : AltSvc.StoreProgram α) : Script S α :=
  p.through fun op => .call (.altSvc op) .done

def h3 {α : Type} (p : Http3.Script α) : Script S α := p.through fun op => .call (.h3 op) .done

def connector {α : Type} (p : Connect.Connector.Script S α) : Script S α :=
  p.through fun op => .call (.connector op) .done

end Script

/-- A call that the task waits for. -/
def waits : Op S → Bool
  | .externalPath _ _ => true
  | .rulesPath _ _ => true
  | .connector .pending => true
  | .connector (.race .pending) => true
  | .connector (.openExternal _) => true
  | .connector (.openRules _) => true
  | .connector (.tls _ _) => true
  | _ => false

/-- `with_connect_timeout`: the answer, or none where the bound ran out first. -/
def withConnectTimeout {α : Type} (bound : Option Duration) (p : Script S α) : Script S (Option α) :=
  match bound with
  | none => p.bind fun a => .done (some a)
  | some d => .call (.bound d) fun _ => Program.bounded waits (.call .boundSpent .done) p

/-! ## Over TCP -/

/-- What is made for a request that has no connection: no answer where the connect has none. -/
def makeConn (t : Transport) (turns : Nat) (found : Prefetched) (resolve : Option Duration)
    (now : Duration) (uri : Uri) (identity : Option Text) (alpn : List (List UInt8))
    (budget : Option Duration) : Script S (Option (Except Error (Tcp.Made (Conn S)))) :=
  (withConnectTimeout budget (Script.connector (Connect.Connector.connect turns t.filters
      t.appliesEch ⟨uri, alpn, identity, now, found, resolve⟩))).bind fun
    | none => .done (some (.error (connectTimedOut (budget.getD 0))))
    | some none => .done none
    | some (some .panicked) => .done none
    | some (some (.failed e)) => .done (some (.error e))
    | some (some (.connected conn)) => .done (some (.ok ⟨conn, conn.tls.bind (·.alpn)⟩))

/-- What a request over TCP asks for, with the reading of the clock it connects at. -/
def serveTcp (t : Transport) (turns : Nat) (found : Prefetched) (resolve : Option Duration) :
    (op : Tcp.Op (Conn S)) → Duration → Script S (Option (op.Answer × Duration))
  | .connect uri identity alpn budget, now =>
      (makeConn t turns found resolve now uri identity alpn budget).bind fun
        | none => .done none
        | some made => .done (some (made, now))
  | .elapsed, _ => .call (.tcp .elapsed) fun now => .done (some (now, now))
  | .beginConnect key, now => .call (.tcp (.beginConnect key)) fun r => .done (some (r, now))
  | .waitForConnect key budget, now =>
      .call (.tcp (.waitForConnect key budget)) fun r => .done (some (r, now))
  | .finishConnect key, now => .call (.tcp (.finishConnect key)) fun r => .done (some (r, now))
  | .take key at_, now => .call (.tcp (.take key at_)) fun r => .done (some (r, now))
  | .isReusable est, now => .call (.tcp (.isReusable est)) fun r => .done (some (r, now))
  | .forgetShared key slot, now =>
      .call (.tcp (.forgetShared key slot)) fun r => .done (some (r, now))
  | .stale est, now => .call (.tcp (.stale est)) fun r => .done (some (r, now))
  | .reused est version, now => .call (.tcp (.reused est version)) fun r => .done (some (r, now))
  | .connected conn version, now =>
      .call (.tcp (.connected conn version)) fun r => .done (some (r, now))
  | .handshake conn h2, now => .call (.tcp (.handshake conn h2)) fun r => .done (some (r, now))
  | .share conn, now => .call (.tcp (.share conn)) fun r => .done (some (r, now))
  | .put key est expiresAt, now =>
      .call (.tcp (.put key est expiresAt)) fun r => .done (some (r, now))
  | .exchange a, now => .call (.tcp (.exchange a)) fun r => .done (some (r, now))

/-- A program over TCP, made for a request whose record may have been fetched. -/
def overTcp {α : Type} (t : Transport) (turns : Nat) (found : Prefetched) (resolve : Option Duration)
    (p : Tcp.Script (Conn S) (Option α)) : Script S (Option α) :=
  (p.servedIfAny (serveTcp t turns found resolve) 0).bind fun
    | some (some a, _) => .done (some a)
    | some (none, _) => .done none
    | none => .done none

/-- A response of either stack; what is left of a request over HTTP/3 is written on by its body. -/
inductive Answered where
  | tcp (a : Tcp.Answered)
  | quic (r : Http3.Responded) (betweenBytes : Option Duration)

def Answered.response : Answered → ResponseParts
  | .tcp a => a.response
  | .quic r _ => r.parts

/-- How a request ends; no answer where a loop was cut off. -/
abbrev Outcome := Option (Except Error Answered)

def run (t : Transport) (turns : Nat) (c : Call) (found : Prefetched) : Script S Outcome :=
  (overTcp t turns found c.timeouts.resolve (Tcp.run t.tcp c.overTcp turns)).bind fun r =>
    .done (r.map fun answer => answer.map .tcp)

/-! ## Over QUIC -/

def exchangeStaged (c : Call) (staged : Staged) : Script S Outcome :=
  (Script.h3 (Http3.finish staged)).bind fun r =>
    .done (some (r.map fun responded => .quic responded c.timeouts.betweenBytes))

def noteFailure (origin : Option AltSvc.Origin) (now : Duration) : Script S Unit :=
  match origin with
  | none => .done ()
  | some origin => .call (.note origin now) fun _ => .done ()

def afterQuicFailed (t : Transport) (turns : Nat) (c : Call) (error : Error) (spent : Duration) :
    Script S Outcome :=
  match c.spendConnectBudget spent with
  | (false, _) => .done (some (.error error))
  | (true, c) => run t turns c .notConsulted

/-- QUIC was refused: the failure is remembered, and TCP is tried if it may be. -/
def quicRefused (t : Transport) (turns : Nat) (c : Call) (fallback : Bool)
    (origin : Option AltSvc.Origin) (began : Duration) (error : Error) : Script S Outcome :=
  .call .now fun (now : Duration) => (noteFailure origin now).bind fun _ =>
    if fallback then afterQuicFailed t turns c error (now - began) else .done (some (.error error))

/-- `connect` of the QUIC arm. -/
def connectQuic (arm : Http3.H3) (c : Call) : Script S (Except Error Staged) :=
  (Script.h3 (stageWith arm c.overH3 none)).bind fun
    | .ok staged => .done (.ok staged)
    | .error (.refused e _) => .done (.error e)
    | .error (.needsPath _) => .done (.error askedForAPath)

def overQuic (t : Transport) (turns : Nat) (c : Call) (fallback : Bool)
    (origin : Option AltSvc.Origin) : Script S Outcome :=
  .call .now fun (began : Duration) =>
    match t.arm with
    | none => .done (some (.error noQuicArm))
    | some arm => (connectQuic arm c).bind fun
        | .ok staged => exchangeStaged c staged
        | .error e => quicRefused t turns c fallback origin began e

/-! ## Over QUIC through a filter -/

/-- A connection through a filter, an error to answer with, or one to go on to TCP with. -/
inductive StagedVia where
  | staged (s : Staged)
  | final (e : Error)
  | switch (e : Error)

/-- The filter that routes the target is asked, and the rules where none does. -/
def openPath (t : Transport) (uri : Uri) (budget : Option Duration) : Script S PathSaid :=
  match Connect.host uri with
  | .error e => .done (.failed e)
  | .ok host =>
      let target : HClient.Egress.Target := ⟨host, Connect.port uri true, true⟩
      match t.filters.carrier target with
      | some (.external _) => .call (.externalPath target budget) .done
      | _ =>
          if t.rulesPath then .call (.rulesPath target budget) .done
          else .done (.unsupported lendsNoPath)

/-- The handshake over a path, with what is left of the bound. -/
def stageOver (arm : Http3.H3) (c : Call) (via : Text) (began : Duration) : Script S StagedVia :=
  .call .now fun (now : Duration) =>
    match c.spendConnectBudget (now - began) with
    | (false, _) => .done (.switch (connectSpent c.timeouts.connect))
    | (true, narrowed) => (Script.h3 (stageWith arm narrowed.overH3 (some ⟨via, true⟩))).bind fun
        | .ok staged => .done (.staged staged)
        | .error (.refused e _) => .done (.switch e)
        | .error (.needsPath _) => .done (.switch askedForAGivenPath)

def stageVia (t : Transport) (arm : Http3.H3) (c : Call) (via : Text) (began : Duration) :
    Script S StagedVia :=
  (Script.h3 (stageWith arm c.overH3 (some ⟨via, false⟩))).bind fun
    | .ok staged => .done (.staged staged)
    | .error (.refused e _) => .done (.switch e)
    | .error (.needsPath _) => .call .now fun (now : Duration) =>
        let left := c.timeouts.connect.map fun bound => bound - (now - began)
        (withConnectTimeout left (openPath t c.parts.uri left)).bind fun
          | none => .done (.switch (connectSpent c.timeouts.connect))
          | some (.failed e) => .done (.final e)
          | some (.unsupported e) => .done (.switch e)
          | some .opened => stageOver arm c via began

def overQuicVia (t : Transport) (turns : Nat) (c : Call) (via : Text) (fallback : Bool)
    (origin : Option AltSvc.Origin) : Script S Outcome :=
  .call .now fun (began : Duration) =>
    match t.arm with
    | none => .done (some (.error noQuicArm))
    | some arm => (stageVia t arm c via began).bind fun
        | .staged staged => exchangeStaged c staged
        | .final e => .done (some (.error e))
        | .switch e => quicRefused t turns c fallback origin began e

/-! ## The race of the two connects -/

inductive Raced where
  | quic
  | tcp
  | failed (e : Error)

def setConnect (c : Call) (connect : Duration) : Call :=
  { c with timeouts := c.timeouts.narrowedToConnect connect }

def noteH3Failure (origin : Option AltSvc.Origin) : Script S Unit :=
  match origin with
  | none => .done ()
  | some origin => .call .now fun now => .call (.note origin now) fun _ => .done ()

/-- What has passed is taken off, and the stream goes on with what is left. -/
def quicLost (c : Call) (origin : Option AltSvc.Origin) (began : Duration) (refused : Error) :
    Script S (Option (Raced × Call)) :=
  (noteH3Failure origin).bind fun _ => .call .now fun (now : Duration) =>
    match c.spendConnectBudget (now - began) with
    | (true, c) => .done (some (.tcp, c))
    | (false, c) => .done (some (.failed refused, c))

/-- The hedge's connection goes to the pool, where the request will find it. -/
def hedgeWon (t : Transport) (turns : Nat) (c : Call) (origin : Option AltSvc.Origin)
    (began : Duration) (held : Tcp.Held (Conn S)) : Script S (Option (Raced × Call)) :=
  (noteH3Failure origin).bind fun _ => .call .now fun (now : Duration) =>
    (overTcp t turns .notConsulted none ((Tcp.dropHeld held).bind fun _ => .done (some ()))).ifAny
      fun _ => .done (some (.tcp, (c.spendConnectBudget (now - began)).2))

def hedgeConnect (t : Transport) (turns : Nat) (c : Call) (headStart : Duration) :
    Script S (Option (Except Error (Tcp.Held (Conn S)))) :=
  .call (.sleep headStart) fun _ =>
    overTcp t turns .notConsulted c.timeouts.resolve (Tcp.stage t.tcp c.overTcp turns)

def race (t : Transport) (turns : Nat) (arm : Http3.H3) (c : Call) (origin : Option AltSvc.Origin)
    (headStart : Duration) (hedge : Call) (began : Duration) : Script S (Option (Raced × Call)) :=
  (Program.race (.call .first .done) (connectQuic arm (probe c))
      (hedgeConnect t turns hedge headStart)).bind fun
    | .inl (.ok _, _) => .done (some (.quic, c))
    | .inl (.error refused, _) => quicLost c origin began refused
    | .inr (_, none) => .done none
    | .inr (_, some (.ok held)) => hedgeWon t turns c origin began held
    | .inr (quic, some (.error _)) => quic.bind fun
        | .ok _ => .done (some (.quic, c))
        | .error refused => quicLost c origin began refused

/-- A head start that leaves no room for the hedge is no race. -/
def raceConnects (t : Transport) (turns : Nat) (c : Call) (origin : Option AltSvc.Origin)
    (headStart : Duration) : Script S (Option (Raced × Call)) :=
  .call .now fun began =>
    match Budget.room c.timeouts.connect headStart, t.arm with
    | .none, _ => .done (some (.quic, c))
    | _, none => .done (some (.quic, c))
    | .unbounded, some arm => race t turns arm c origin headStart (probe c) began
    | .left bound, some arm => race t turns arm c origin headStart (setConnect (probe c) bound) began

/-- `serve_quic`: the connects are raced where there is a way back. -/
def serveQuic (t : Transport) (turns : Nat) (c : Call) (fallback : Bool)
    (origin : Option AltSvc.Origin) : Script S Outcome :=
  match t.hedge.filter fun _ => fallback with
  | none => overQuic t turns c fallback origin
  | some headStart => (raceConnects t turns c origin headStart).bind fun
      | none => .done none
      | some (.quic, c) => overQuic t turns c fallback origin
      | some (.tcp, c) => run t turns c .notConsulted
      | some (.failed e, _) => .done (some (.error e))

/-! ## The decision -/

inductive Route where
  | refuse (e : Error)
  | quic (fallback : Bool)
  | quicVia (via : Text) (fallback : Bool)
  | tcp (found : Prefetched)

/-- Under a filter there is only the advertisement to go by. -/
def viaByAdvertisement (uri : Uri) (via : Text) : Script S Route :=
  match altSvcOrigin uri with
  | none => .done (.tcp .notConsulted)
  | some origin => .call .systemNow fun now =>
      (Script.altSvc (AltSvc.advertisesH3 origin now)).bind fun
        | false => .done (.tcp .notConsulted)
        | true => .call .now fun now => .call (.suppressed origin now) fun
            | true => .done (.tcp .notConsulted)
            | false => .done (.quicVia via true)

def quicUnlessItFailed (t : Transport) (found : Prefetched) (host : Text) (port : Nat) :
    Script S Route :=
  match t.arm with
  | none => .done (.tcp found)
  | some _ => .call .now fun now => .call (.suppressed (.new host (UInt16.ofNat port)) now) fun
      | true => .done (.tcp found)
      | false => .done (.quic true)

def byAdvertisement (t : Transport) (found : Prefetched) (host : Text) (port : Nat) :
    Script S Route :=
  .call .systemNow fun now =>
    (Script.altSvc (AltSvc.advertisesH3 (.new host (UInt16.ofNat port)) now)).bind fun
      | true => quicUnlessItFailed t found host port
      | false => .done (.tcp found)

def offersH3 (alpn : List (List UInt8)) : Bool := alpn.any fun a => a = AltSvc.alpnH3

/-- The best of the records under a name, and whether it speaks of HTTP/3. -/
def originOffersH3 (name : Text) : Script S (Option Bool) :=
  .call (.records name) fun items =>
    .done ((Connect.chosen items).map fun endpoint => offersH3 endpoint.alpn)

/-- `prepare`: the record for this request's own authority. -/
def prepare (turns : Nat) (uri : Uri) : Script S (Option Prefetched) :=
  .call .now fun now =>
    match Connect.Connector.placeOf uri with
    | .error _ => .done (some .notConsulted)
    | .ok p => Script.connector (Connect.Connector.discoveredEndpoint turns p now)

/-- What is known of the record, or what the one under the record's name says. -/
def recordOffersH3 (host : Text) (port : Nat) : Prefetched → Script S (Option Bool)
  | .looked (some endpoint) => .done (some (offersH3 endpoint.alpn))
  | .looked none => .done none
  | .notConsulted => originOffersH3 (recordName host port)

/-- The way of a request that no filter carries and that demands no version. -/
def routeByRecord (t : Transport) (turns : Nat) (uri : Uri) (host : Text) (port : Nat) :
    Script S (Option Route) :=
  if isIpLiteral host then (byAdvertisement t .notConsulted host port).bind fun r => .done (some r)
  else .call .supportsHttps fun
    | false => (byAdvertisement t .notConsulted host port).bind fun r => .done (some r)
    | true => (prepare turns uri).ifAny fun found => (recordOffersH3 host port found).bind fun
          | some true => (quicUnlessItFailed t found host port).bind fun r => .done (some r)
          | some false => .done (some (.tcp found))
          | none => (byAdvertisement t found host port).bind fun r => .done (some r)

/-- The way of a request that a filter carries. -/
def routeVia (t : Transport) (c : Call) (via : Text) (datagrams : Bool) : Script S Route :=
  match c.requireVersion with
  | some version =>
      if version ≠ .http3 then .done (.tcp .notConsulted)
      else if !datagrams || t.arm.isNone then .done (.refuse (noDatagramPath via))
      else .done (.quicVia via false)
  | none =>
      if !datagrams || t.arm.isNone then .done (.tcp .notConsulted)
      else viaByAdvertisement c.parts.uri via

def versionNotAvailable (version : HttpVersion) : Error :=
  .new .unsupported (.versionNotAvailable version .http11)

def route (t : Transport) (turns : Nat) (c : Call) : Script S (Option Route) :=
  match egressOf t c.parts.uri with
  | .filtered via datagrams => (routeVia t c via datagrams).bind fun r => .done (some r)
  | .direct =>
      match c.requireVersion with
      | some version =>
          if version ≠ .http3 then .done (some (.tcp .notConsulted))
          else if t.arm.isNone then .done (some (.refuse (versionNotAvailable version)))
          else .done (some (.quic false))
      | none =>
          if c.parts.uri.scheme ≠ some .https then .done (some (.tcp .notConsulted))
          else
            match c.parts.uri.host with
            | none => .done (some (.tcp .notConsulted))
            | some host =>
                routeByRecord t turns c.parts.uri host (c.parts.uri.port.getD httpsDefaultPort)

def follow (t : Transport) (turns : Nat) (c : Call) (origin : Option AltSvc.Origin) :
    Route → Script S Outcome
  | .refuse e => .done (some (.error e))
  | .tcp found => run t turns c found
  | .quic fallback => serveQuic t turns c fallback origin
  | .quicVia via fallback => overQuicVia t turns c via fallback origin

/-- What an answer advertises is remembered of its origin. -/
def noteAnswer (origin : Option AltSvc.Origin) (answer : Outcome) : Script S Outcome :=
  match origin, answer with
  | some origin, some (.ok answered) => .call .systemNow fun now =>
      (Script.altSvc (AltSvc.noteAltSvc origin answered.response.headers now)).bind fun _ =>
        .done answer
  | _, _ => .done answer

/-- `execute`, which is `routed`. -/
def execute (t : Transport) (turns : Nat) (c : Call) : Script S Outcome :=
  (route t turns c).bind fun
    | none => .done none
    | some r => (follow t turns c (altSvcOrigin c.parts.uri) r).bind
        (noteAnswer (altSvcOrigin c.parts.uri))

end HClient.Native.Routing
