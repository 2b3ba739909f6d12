import HClient.Connect.Discovery
import HClient.Effect.Serve
import HClient.Egress.Rules

/-!
# The connector

A connect from a URI to a connection: through an egress filter, or to an address of the origin's
own. The lookups of the two address families run under the lookup of the HTTPS record and are read
again by a second attempt, which is made where one under a record fails.
-/
namespace HClient.Connect
open Effect
open Native (Error)

def host (uri : Uri) : Except Error Text :=
  match uri.host with
  | some host => .ok host
  | none => .error (.new .uri (.text "request URI has no host to connect to".toList))

def wantsTls (uri : Uri) : Except Error Bool :=
  match uri.scheme with
  | some .http => .ok false
  | some .https => .ok true
  | none => .error (.new .uri (.text
      "the request URI has no scheme; an absolute-form target (http or https) is required".toList))
  | some (.other name) => .error (.new .unsupported (.text
      ("unsupported URI scheme: \"".toList ++ name ++ ['"'])))

def port (uri : Uri) (useTls : Bool) : Nat := uri.port.getD (if useTls then 443 else 80)

/-! ## The filters -/

/-- An installed filter, and the rules for what it declines. -/
structure Filters where
  external : Option (Egress.Target → Egress.Decision)
  rules : Egress.Rules

inductive Carrier where
  | external (route : Egress.Route)
  | rules (route : Egress.Route)

namespace Filters

/-- Who carries a target, if anybody does. -/
def carrier (f : Filters) (target : Egress.Target) : Option Carrier :=
  let byRules := match f.rules.route target with
    | .filtered route => some (.rules route)
    | .direct => none
  match f.external with
  | none => byRules
  | some filter =>
      match filter target with
      | .filtered route => some (.external route)
      | .direct => byRules

/-- `Native::egress_route`. -/
def route (f : Filters) (target : Egress.Target) : Egress.Decision :=
  match f.carrier target with
  | some (.external route) => .filtered route
  | some (.rules route) => .filtered route
  | none => .direct

end Filters

namespace Connector

/-! ## The calls -/

inductive RecordType where
  | a
  | aaaa
  | https
  deriving DecidableEq, Repr

structure TlsRequest where
  serverName : Text
  alpn : List (List UInt8)
  identity : Option Text
  ech : Option (List UInt8)
  deriving DecidableEq, Repr

structure TlsInfo where
  alpn : Option (List UInt8)
  deriving DecidableEq, Repr

/-- A connection over a stream, with what its handshake reports if there was one. -/
structure Conn (S : Type) where
  stream : S
  tls : Option TlsInfo

inductive Op (S : Type) where
  | openExternal (target : Egress.Target)
  | openRules (target : Egress.Target)
  | lookup (type : RecordType)
  | pollStream (f : Family)
  | suppressed (origin : Origin) (now : Duration)
  | supportsHttps
  | pollRecords
  | record (origin : Origin) (now : Duration)
  | sleepFor (bound : Duration)
  | pollBound
  | pending
  | race (op : Connect.Op)
  | tls (stream : S) (req : TlsRequest)

variable {S : Type}

def Op.Answer : Op S → Type
  | .openExternal _ => Except Error S
  | .openRules _ => Except Error S
  | .lookup _ => Unit
  | .pollStream _ => Poll (Option Item)
  | .suppressed _ _ => Bool
  | .supportsHttps => Bool
  | .pollRecords => Poll (Option Item)
  | .record _ _ => Unit
  | .sleepFor _ => Unit
  | .pollBound => Poll Unit
  | .pending => Unit
  | .race op => op.Answer S
  | .tls _ _ => Except Error TlsInfo

abbrev Script (S α : Type) := Program (Op S) Op.Answer α

abbrev Event (S : Type) := Program.Event (Op S) Op.Answer

/-! ## The lookups -/

/-- A lookup in flight: what it has answered, in order, and whether it is over. -/
structure Answers where
  seen : List Item
  done : Bool

/-- One lookup for each family. -/
abbrev Lookups := Family → Answers

def Lookups.new : Lookups := fun _ => ⟨[], false⟩

def pumpTurn (f : Family) (a : Answers) : Script S (Answers ⊕ Answers) :=
  if a.done then .done (.inr a)
  else .call (.pollStream f) fun
    | .ready (some item) => .done (.inl { a with seen := a.seen ++ [item] })
    | .ready none => .done (.inl { a with done := true })
    | .pending => .done (.inr a)

def pump (turns : Nat) (f : Family) (l : Lookups) : Script S (Option Lookups) :=
  (Program.loop (pumpTurn f) turns (l f)).ifAny fun a => .done (some (Function.update l f a))

def pumpBoth (turns : Nat) (l : Lookups) : Script S (Option Lookups) :=
  (pump turns .v6 l).ifAny fun l => pump turns .v4 l

/-- The readers of one attempt: for each family the hints that are left, and the place in its
lookup. -/
structure Readers where
  lookups : Lookups
  hints : Family → List Item
  place : Family → Nat

namespace Readers

/-- A hint, what the lookup has answered, or what it answers now. -/
def poll (f : Family) (s : Readers) : Script S (Poll (Option Item) × Readers) :=
  match s.hints f with
  | item :: rest => .done (.ready (some item), { s with hints := Function.update s.hints f rest })
  | [] =>
      let a := s.lookups f
      match a.seen[s.place f]? with
      | some item => .done (.ready (some item),
          { s with place := Function.update s.place f (s.place f + 1) })
      | none =>
          if a.done then .done (.ready none, s)
          else .call (.pollStream f) fun
            | .ready (some item) => .done (.ready (some item),
                { s with
                  lookups := Function.update s.lookups f { a with seen := a.seen ++ [item] }
                  place := Function.update s.place f (a.seen.length + 1) })
            | .ready none => .done (.ready none,
                { s with lookups := Function.update s.lookups f { a with done := true } })
            | .pending => .done (.pending, s)

/-- What the race asks, of its readers or of what it runs on. -/
def serve : (op : Connect.Op) → Readers → Script S (op.Answer S × Readers)
  | .pollNext f, s => s.poll f
  | .elapsed, s => .call (.race .elapsed) fun r => .done (r, s)
  | .connect addr, s => .call (.race (.connect addr)) fun r => .done (r, s)
  | .sleep d, s => .call (.race (.sleep d)) fun r => .done (r, s)
  | .pollAttempts running, s => .call (.race (.pollAttempts running)) fun r => .done (r, s)
  | .pollSleep, s => .call (.race .pollSleep) fun r => .done (r, s)
  | .pending, s => .call (.race .pending) fun r => .done (r, s)

end Readers

/-! ## Discovery -/

/-- What is asked of a connect. -/
structure Request where
  uri : Uri
  alpn : List (List UInt8)
  identity : Option Text
  now : Duration
  prefetched : Prefetched
  resolve : Option Duration

/-- A URI as it is connected to. -/
structure Place where
  host : Text
  useTls : Bool
  port : Nat
  deriving DecidableEq

def Place.target (p : Place) : Egress.Target := ⟨p.host, p.port, p.useTls⟩

def httpsDefaultPort : Nat := 443

inductive Discovery where
  | unasked
  | reading (best : Option SvcbEndpoint)

def recordTurn (best : Option SvcbEndpoint) :
    Script S (Option SvcbEndpoint ⊕ (Prefetched ⊕ Discovery)) :=
  .call .pollRecords fun
    | .ready (some item) => .done (.inl (considered best item))
    | .ready none => .done (.inr (.inl (.looked (best.map .ofSvcb))))
    | .pending => .done (.inr (.inr (.reading best)))

def readRecords (turns : Nat) (best : Option SvcbEndpoint) :
    Script S (Option (Prefetched ⊕ Discovery)) := Program.loop recordTurn turns best

/-- One poll of `discovered_endpoint`. -/
def pollDiscovery (turns : Nat) (p : Place) (now : Duration) :
    Discovery → Script S (Option (Prefetched ⊕ Discovery))
  | .reading best => readRecords turns best
  | .unasked =>
      if !p.useTls ∨ p.port ≠ httpsDefaultPort then .done (some (.inl .notConsulted))
      else .call (.suppressed (.new p.host p.port) now) fun
        | true => .done (some (.inl .notConsulted))
        | false => .call .supportsHttps fun
            | false => .done (some (.inl .notConsulted))
            | true => .call (.lookup .https) fun _ => readRecords turns none

def discoveryTurn (turns : Nat) (p : Place) (now : Duration) (d : Discovery) :
    Script S (Discovery ⊕ Option Prefetched) :=
  (pollDiscovery turns p now d).bind fun
    | none => .done (.inr none)
    | some (.inl found) => .done (.inr (some found))
    | some (.inr d) => .call .pending fun _ => .done (.inl d)

/-- `discovered_endpoint`, waited for by itself. -/
def discoveredEndpoint (turns : Nat) (p : Place) (now : Duration) : Script S (Option Prefetched) :=
  (Program.loop (discoveryTurn turns p now) turns .unasked).ifAny .done

/-- The lookups are polled before the record is, and on every round. -/
def alongsideTurn (turns : Nat) (p : Place) (now : Duration) (s : Lookups × Discovery) :
    Script S ((Lookups × Discovery) ⊕ Option (Lookups × Prefetched)) :=
  (pumpBoth turns s.1).bind fun
    | none => .done (.inr none)
    | some l => (pollDiscovery turns p now s.2).bind fun
        | none => .done (.inr none)
        | some (.inl found) => .done (.inr (some (l, found)))
        | some (.inr d) => .call .pending fun _ => .done (.inl (l, d))

def alongsideAddressLookups (turns : Nat) (p : Place) (now : Duration) :
    Script S (Option (Lookups × Prefetched)) :=
  (Program.loop (alongsideTurn turns p now) turns (Lookups.new, .unasked)).ifAny .done

/-- What `prepare` found, or what discovery finds now. -/
def found (turns : Nat) (p : Place) (r : Request) : Script S (Option (Lookups × Prefetched)) :=
  match r.prefetched with
  | .looked endpoint => .done (some (.new, .looked endpoint))
  | .notConsulted => alongsideAddressLookups turns p r.now

/-! ## The bound on the first address -/

def Answers.any (a : Answers) : Bool := a.seen.any Except.isOk

def firstAddressTurn (turns : Nat) (bound : Duration) (l : Lookups) :
    Script S (Lookups ⊕ Option (Except Error Lookups)) :=
  (pumpBoth turns l).bind fun
    | none => .done (.inr none)
    | some l =>
        if (l .v6).any || (l .v4).any || ((l .v6).done && (l .v4).done) then
          .done (.inr (some (.ok l)))
        else .call .pollBound fun
          | .ready () =>
              .done (.inr (some (.error (.new (.timeout .resolve) (.resolveTimedOut bound)))))
          | .pending => .call .pending fun _ => .done (.inl l)

def firstAddressWithin (turns : Nat) (bound : Option Duration) (endpoint : Option Endpoint)
    (l : Lookups) : Script S (Option (Except Error Lookups)) :=
  match bound with
  | none => .done (some (.ok l))
  | some bound =>
      if endpoint.any fun e => !e.ipv6hint.isEmpty || !e.ipv4hint.isEmpty then .done (some (.ok l))
      else .call (.sleepFor bound) fun _ =>
        (Program.loop (firstAddressTurn turns bound) turns l).ifAny .done

/-! ## The attempts -/

/-- What a connect ends in. It panics where the race does. -/
inductive Ended (S : Type) where
  | connected (conn : Conn S)
  | failed (e : Error)
  | panicked

def hintsOf (endpoint : Option Endpoint) : Family → List Item
  | .v6 => (endpoint.elim [] (·.ipv6hint)).map fun groups => .ok (.new (.aaaa groups))
  | .v4 => (endpoint.elim [] (·.ipv4hint)).map fun octets => .ok (.new (.a octets))

def portOf (endpoint : Option Endpoint) (p : Place) : Nat := (endpoint.bind (·.port)).getD p.port

def tlsRequest (appliesEch : Bool) (p : Place) (r : Request) (endpoint : Option Endpoint) :
    TlsRequest where
  serverName := bareHost p.host
  alpn := endpoint.elim r.alpn fun e => alpnOffer r.alpn e.alpn
  identity := r.identity
  ech := (endpoint.filter fun _ => appliesEch).bind (·.ech)

/-- The handshake over a stream, if there is one. -/
def finish (useTls : Bool) (stream : S) (req : TlsRequest) : Script S (Ended S) :=
  if useTls then .call (.tls stream req) fun
    | .ok info => .done (.connected ⟨stream, some info⟩)
    | .error e => .done (.failed e)
  else .done (.connected ⟨stream, none⟩)

def attempt (turns : Nat) (appliesEch : Bool) (p : Place) (r : Request) (l : Lookups)
    (endpoint : Option Endpoint) : Script S (Option (Ended S × Lookups)) :=
  ((drive turns (.new .default) (portOf endpoint p)).served Readers.serve
      ⟨l, hintsOf endpoint, fun _ => 0⟩).bind fun
    | (none, _) => .done none
    | (some .panicked, s) => .done (some (.panicked, s.lookups))
    | (some (.failed e), s) => .done (some (.failed e, s.lookups))
    | (some (.connected stream), s) =>
        (finish p.useTls stream (tlsRequest appliesEch p r endpoint)).bind fun ended =>
          .done (some (ended, s.lookups))

/-- A second attempt, on the origin's own terms, where one under a record fails. -/
def attempts (turns : Nat) (appliesEch : Bool) (p : Place) (r : Request) (l : Lookups)
    (endpoint : Option Endpoint) : Script S (Option (Ended S)) :=
  (attempt turns appliesEch p r l endpoint).ifAny fun
    | (.connected conn, _) => .done (some (.connected conn))
    | (.panicked, _) => .done (some .panicked)
    | (.failed e, l) =>
        match endpoint with
        | none => .done (some (.failed e))
        | some _ => .call (.record (.new p.host p.port) r.now) fun _ =>
            (attempt turns appliesEch p r l none).ifAny fun last => .done (some last.1)

/-- To an address of the origin's own. -/
def direct (turns : Nat) (appliesEch : Bool) (p : Place) (r : Request) :
    Script S (Option (Ended S)) :=
  .call (.lookup .aaaa) fun _ => .call (.lookup .a) fun _ =>
    (found turns p r).ifAny fun (l, prefetched) =>
      (firstAddressWithin turns r.resolve prefetched.actionable l).ifAny fun
        | .error e => .done (some (.failed e))
        | .ok l => attempts turns appliesEch p r l prefetched.actionable

def noStream (via : Text) : Error :=
  .new .unsupported (.text ("an egress filter carries this request through \x60".toList ++ via ++
    "\x60 and declares no stream to it".toList))

/-- Over what a filter opened, TLS is with the origin and on its own terms. -/
def overOpened (p : Place) (r : Request) : Except Error S → Script S (Ended S)
  | .error e => .done (.failed e)
  | .ok stream => finish p.useTls stream ⟨bareHost p.host, r.alpn, r.identity, none⟩

/-- The filter is asked to open what it carries, and the addresses are never looked up. -/
def throughFilter (p : Place) (r : Request) : Carrier → Script S (Ended S)
  | .external route =>
      if !route.support.stream then .done (.failed (noStream route.poolKey))
      else .call (.openExternal p.target) (overOpened p r)
  | .rules route =>
      if !route.support.stream then .done (.failed (noStream route.poolKey))
      else .call (.openRules p.target) (overOpened p r)

def placeOf (uri : Uri) : Except Error Place :=
  match host uri with
  | .error e => .error e
  | .ok host =>
      match wantsTls uri with
      | .error e => .error e
      | .ok useTls => .ok ⟨host, useTls, port uri useTls⟩

/-- `connect`; no answer where a loop was cut off. -/
def connect (turns : Nat) (filters : Filters) (appliesEch : Bool) (r : Request) :
    Script S (Option (Ended S)) :=
  match placeOf r.uri with
  | .error e => .done (some (.failed e))
  | .ok p =>
      match filters.carrier p.target with
      | some carrier => (throughFilter p r carrier).bind fun ended => .done (some ended)
      | none => direct turns appliesEch p r

end Connector
end HClient.Connect
