import HClient.Connect.ConnectorRuns
import HClient.Native.Route
import HClient.Native.TcpRuns

/-!
# The ways of a request

What a request asks for on its way, whatever it is answered: under a filter nothing is asked beside
it, and a demanded version keeps a request to its stack. Of the two stacks only one ever sends it.
-/
namespace HClient.Native
open Effect

/-! ## Over TCP -/

namespace Tcp
variable {C : Type} {t : Transport} {call : Prepared} {parts : KeyParts}

/-- A call for the request that these are the key's parts of. -/
def OfParts (call : Prepared) (parts : KeyParts) : Op C → Prop
  | .beginConnect key => ∃ protocol, key = parts.key protocol
  | .waitForConnect key _ => ∃ protocol, key = parts.key protocol
  | .finishConnect key => ∃ protocol, key = parts.key protocol
  | .take key _ => ∃ protocol, key = parts.key protocol
  | .forgetShared key _ => ∃ protocol, key = parts.key protocol
  | .put key _ _ => ∃ protocol, key = parts.key protocol
  | .exchange a => ∀ checkin ∈ a.checkin, ∃ protocol, checkin.key = parts.key protocol
  | .connect uri identity _ _ => uri = call.request.uri ∧ identity = call.identity
  | .elapsed => True
  | .isReusable _ => True
  | .stale _ => True
  | .reused _ _ => True
  | .connected _ _ => True
  | .handshake _ _ => True
  | .share _ => True

/-- A call that sends nothing of a request. -/
def Unsent : Op C → Prop
  | .exchange _ => False
  | _ => True

def Readies (call : Prepared) (parts : KeyParts) (op : Op C) : Prop :=
  OfParts call parts op ∧ Unsent op

/-- Whoever waits for a connect is let go of a key of these parts. -/
def Guarded (parts : KeyParts) (guard : Option PoolKey) : Prop :=
  ∀ key ∈ guard, ∃ protocol, key = parts.key protocol

theorem release_within {guard : Option PoolKey} (guarded : Guarded parts guard) :
    (release guard : Script C Unit).Within (OfParts call parts) fun _ => True := by
  cases guard with
  | none => trivial
  | some key => exact ⟨guarded key rfl, fun _ => trivial⟩

theorem checkout_within (turns : Nat) (protocol : Protocol) (now : Duration) :
    (checkout turns (parts.key protocol) now : Script C _).Within (Readies call parts)
      fun _ => True := by
  refine (Program.Within.loop (I := fun _ => True) (Q := fun _ => True) (fun _ _ => ?_) turns
    trivial).anyway
  refine ⟨⟨⟨protocol, rfl⟩, trivial⟩, fun found => ?_⟩
  cases found with
  | none => trivial
  | some est =>
      refine ⟨⟨trivial, trivial⟩, fun reusable => ?_⟩
      cases reusable with
      | true => trivial
      | false =>
          have forgotten : (forget (parts.key protocol) est).Within (Readies call parts)
              fun _ => True := by
            unfold forget
            split
            · trivial
            · exact ⟨⟨⟨protocol, rfl⟩, trivial⟩, fun _ => trivial⟩
          exact forgotten.bind fun _ _ => ⟨⟨trivial, trivial⟩, fun _ => trivial⟩

theorem checkinFor_parts {protocol : Protocol} {now : Duration} {checkin : CheckIn}
    (member : checkin ∈ t.checkinFor (parts.key protocol) now) :
    ∃ protocol, checkin.key = parts.key protocol := by
  obtain ⟨_, -, rfl⟩ := Option.map_eq_some_iff.mp member
  exact ⟨protocol, rfl⟩

theorem exchange_within {g : Going} (guarded : Guarded parts g.guard) {a : Attempt C}
    (of_parts : ∀ checkin ∈ a.checkin, ∃ protocol, checkin.key = parts.key protocol) :
    (exchange g a).Within (OfParts call parts) fun _ => True :=
  (release_within guarded).bind fun _ _ => ⟨of_parts, fun _ => trivial⟩

theorem overPooled_within {g : Going} (guarded : Guarded parts g.guard) (protocol : Protocol)
    (now : Duration) (est : Established C) :
    (overPooled t call (parts.key protocol) now g est).Within (OfParts call parts)
      fun r => ∀ g', r = .going g' → Guarded parts g'.guard := by
  refine ⟨trivial, fun _ => ?_⟩
  refine (exchange_within guarded fun _ => checkinFor_parts).bind fun r _ => ?_
  cases r with
  | answered response => exact fun g' same => by cases same
  | notSent e =>
      rintro _ ⟨⟩ key ⟨⟩
  | sent e => exact fun g' same => by cases same

theorem pooled_within (turns : Nat) (now : Duration) (protocols : List Protocol) {g : Going}
    (guarded : Guarded parts g.guard) :
    (pooled t call parts turns now protocols g : Script C _).Within (OfParts call parts)
      fun r => ∀ g', r = some (.going g') → Guarded parts g'.guard := by
  induction protocols generalizing g with
  | nil =>
      rintro _ ⟨⟩
      exact guarded
  | cons protocol protocols ih =>
      rw [pooled]
      split
      · refine ((checkout_within turns protocol now).mono (fun _ h => h.1) fun _ _ => trivial).bind
          fun r _ => ?_
        rcases r with _ | _ | est
        · exact fun g' same => by cases same
        · exact ih guarded
        · refine (overPooled_within guarded protocol now est).bind fun r on => ?_
          cases r with
          | ended answer => exact fun g' same => by cases same
          | going g' => exact ih (on g' rfl)
      · exact ih guarded

theorem giveUp_within {g : Going} (guarded : Guarded parts g.guard) (e : Error) :
    (giveUp g e : Script C _).Within (OfParts call parts) fun _ => True :=
  (release_within guarded).bind fun _ _ => trivial

theorem shareIfMultiplexing_within (now : Duration) (est : Established C) {checkin : Option CheckIn}
    (of_parts : ∀ c ∈ checkin, ∃ protocol, c.key = parts.key protocol) :
    (shareIfMultiplexing t parts now est checkin).Within (OfParts call parts)
      fun r => ∀ c ∈ r.2, ∃ protocol, c.key = parts.key protocol := by
  unfold shareIfMultiplexing
  split
  · refine ⟨trivial, fun _ => ⟨⟨_, rfl⟩, fun _ => ?_⟩⟩
    rintro _ ⟨⟩
  · exact of_parts

theorem checkin_parts {protocol : Option Protocol} {now : Duration} {checkin : CheckIn}
    (member : checkin ∈ protocol.bind fun p => t.checkinFor (parts.key p) now) :
    ∃ protocol, checkin.key = parts.key protocol := by
  obtain ⟨_, -, found⟩ := Option.bind_eq_some_iff.mp member
  exact checkinFor_parts found

theorem overMade_within {g : Going} (guarded : Guarded parts g.guard) (now : Duration)
    (made : Made C) : (overMade t call parts now g made).Within (OfParts call parts)
      fun _ => True := by
  refine ⟨trivial, fun _ => ?_⟩
  dsimp only
  split
  · exact giveUp_within guarded _
  · refine ⟨trivial, fun r => ?_⟩
    cases r with
    | error e => exact giveUp_within guarded e
    | ok _ =>
        refine (shareIfMultiplexing_within now _ fun _ => checkin_parts).bind fun r of_parts => ?_
        refine (exchange_within guarded of_parts).bind fun r _ => ?_
        cases r <;> trivial

theorem fresh_within {g : Going} (guarded : Guarded parts g.guard) (now : Duration)
    (budget : Option Duration) :
    (fresh t call parts now budget g : Script C _).Within (OfParts call parts) fun _ => True := by
  refine ⟨⟨rfl, rfl⟩, fun r => ?_⟩
  cases r with
  | error e => exact giveUp_within guarded e
  | ok made => exact overMade_within guarded now made

theorem singleFlight_within : (singleFlight t call parts : Script C _).Within (OfParts call parts)
    fun r => ∀ guard budget, r = .ok (guard, budget) → Guarded parts guard := by
  have unguarded : Guarded parts none := by
    rintro _ ⟨⟩
  have marked : Guarded parts (some (parts.key .h2)) := by
    rintro _ ⟨⟩
    exact ⟨.h2, rfl⟩
  unfold singleFlight
  dsimp only
  split
  · refine ⟨⟨.h2, rfl⟩, fun begun => ?_⟩
    cases begun with
    | true =>
        rintro _ _ ⟨⟩
        exact marked
    | false =>
        refine ⟨⟨.h2, rfl⟩, fun waited => ?_⟩
        cases waited with
        | error e => exact fun _ _ same => by cases same
        | ok budget =>
            refine ⟨⟨.h2, rfl⟩, fun begun => ?_⟩
            cases begun with
            | true =>
                rintro _ _ ⟨⟩
                exact marked
            | false =>
                rintro _ _ ⟨⟩
                exact unguarded
  · rintro _ _ ⟨⟩
    exact unguarded

/-- The connections that a call names are of this path. -/
def Keyed (proxy : Option Text) : Op C → Prop
  | .beginConnect key => key.proxy = proxy.map Text.toAsciiLowercase
  | .waitForConnect key _ => key.proxy = proxy.map Text.toAsciiLowercase
  | .finishConnect key => key.proxy = proxy.map Text.toAsciiLowercase
  | .take key _ => key.proxy = proxy.map Text.toAsciiLowercase
  | .forgetShared key _ => key.proxy = proxy.map Text.toAsciiLowercase
  | .put key _ _ => key.proxy = proxy.map Text.toAsciiLowercase
  | .exchange a => ∀ checkin ∈ a.checkin, checkin.key.proxy = proxy.map Text.toAsciiLowercase
  | _ => True

theorem OfParts.keyed {op : Op C} (h : OfParts call parts op) : Keyed parts.proxy op := by
  have proxied {key : PoolKey} (of_parts : ∃ protocol, key = parts.key protocol) :
      key.proxy = parts.proxy.map Text.toAsciiLowercase := by
    obtain ⟨_, rfl⟩ := of_parts
    rfl
  cases op with
  | beginConnect key => exact proxied h
  | waitForConnect key _ => exact proxied h
  | finishConnect key => exact proxied h
  | take key _ => exact proxied h
  | forgetShared key _ => exact proxied h
  | put key _ _ => exact proxied h
  | exchange a => exact fun checkin member => proxied (h checkin member)
  | _ => trivial

/-- What a request asks for over TCP is of its own key, and it connects to its own URI. -/
theorem run_within (turns : Nat) (admitted : t.admitRequest call = .ok parts) :
    (run t call turns : Script C _).Within (OfParts call parts) fun _ => True := by
  rw [run, admitted]
  refine ⟨trivial, fun now => singleFlight_within.bind fun r flown => ?_⟩
  cases r with
  | error e => trivial
  | ok flight =>
      obtain ⟨guard, budget⟩ := flight
      refine (pooled_within turns now _ (flown guard budget rfl)).bind fun r on => ?_
      rcases r with _ | answer | g
      · trivial
      · trivial
      · exact (fresh_within (on g rfl) now budget).bind fun _ _ => trivial

/-- A connection that is held goes back under a key of its request's. -/
def HeldFor (parts : KeyParts) (held : Held C) : Prop :=
  ∀ checkin ∈ held.checkin, ∃ protocol, checkin.key = parts.key protocol

theorem stagePooled_within (turns : Nat) (now : Duration) (protocols : List Protocol) :
    (stagePooled t call parts turns now protocols : Script C _).Within (Readies call parts)
      fun r => ∀ held, r = some (some held) → HeldFor parts held := by
  induction protocols with
  | nil =>
      rintro _ ⟨⟩
  | cons protocol protocols ih =>
      rw [stagePooled]
      split
      · refine (checkout_within turns protocol now).bind fun r _ => ?_
        rcases r with _ | _ | est
        · exact fun held same => by cases same
        · exact ih
        · refine ⟨⟨trivial, trivial⟩, fun _ => ?_⟩
          rintro _ ⟨⟩ checkin member
          exact checkinFor_parts member
      · exact ih

theorem stageFresh_within (now : Duration) :
    (stageFresh t call parts now : Script C _).Within (Readies call parts)
      fun r => ∀ held, r = .ok held → HeldFor parts held := by
  refine ⟨⟨⟨rfl, rfl⟩, trivial⟩, fun r => ?_⟩
  cases r with
  | error e => exact fun held same => by cases same
  | ok made =>
      refine ⟨⟨trivial, trivial⟩, fun _ => ?_⟩
      dsimp only
      split
      · exact fun held same => by cases same
      · refine ⟨⟨trivial, trivial⟩, fun r => ?_⟩
        cases r with
        | error e => exact fun held same => by cases same
        | ok _ =>
            rintro _ ⟨⟩ checkin member
            exact checkin_parts member

/-- A connect of its own sends nothing. -/
theorem stage_within (turns : Nat) (known : t.partsFor call.request.uri call.identity = .ok parts) :
    (stage t call turns : Script C _).Within (Readies call parts)
      fun r => ∀ held, r = some (.ok held) → HeldFor parts held := by
  rw [stage, known]
  refine ⟨⟨trivial, trivial⟩, fun now => ?_⟩
  refine (stagePooled_within turns now _).bind fun r found => ?_
  rcases r with _ | _ | held
  · exact fun held same => by cases same
  · refine (stageFresh_within now).bind fun r made => ?_
    rintro held same
    exact made held (Option.some.inj same)
  · rintro _ ⟨⟩
    exact found held rfl

theorem dropHeld_within {held : Held C} (of_parts : HeldFor parts held) :
    (dropHeld held).Within (Readies call parts) fun _ => True := by
  unfold dropHeld
  split
  next checkin _ kept => exact ⟨⟨of_parts checkin kept, trivial⟩, fun _ => trivial⟩
  · trivial

end Tcp

/-! ## Over QUIC -/

namespace Http3

/-- A call for a request that goes through this filter, or through none. -/
def Of (via : Option Text) : Op → Prop
  | .resolve _ _ => via = none
  | .checkout key => key.via = via
  | .setUp key => key.via = via
  | .connectWith key _ => key.via = via
  | .insert key _ => key.via = via
  | _ => True

/-- A call that writes or reads on a stream of a request's. -/
def OnStream : Op → Prop
  | .sendHead _ _ _ => True
  | .sendData _ _ => True
  | .finishStream _ => True
  | .recvResponse _ => True
  | .verdict _ => True
  | _ => False

def Readies (via : Option Text) (op : Op) : Prop := Of via op ∧ ¬ OnStream op

variable {via : Option Text}

theorem buildH3_within (pooled : Pooled) : (buildH3 pooled).Within (Readies via) fun _ => True := by
  refine ⟨⟨trivial, id⟩, fun r => ?_⟩
  cases r with
  | ok _ => trivial
  | error e =>
      dsimp only
      split <;> trivial

theorem fullHandshake_within : fullHandshake.Within (Readies via) fun _ => True := by
  refine ⟨⟨trivial, id⟩, fun r => ?_⟩
  cases r with
  | error e => trivial
  | ok conn => exact buildH3_within ⟨conn, none⟩

theorem dial_within {key : PoolKey} (keyed : key.via = via) (early : Bool) :
    (dial key early).Within (Readies via) fun _ => True := by
  refine ⟨⟨keyed, id⟩, fun r => ?_⟩
  cases r with
  | error e => trivial
  | ok _ =>
      refine ⟨⟨keyed, id⟩, fun r => ?_⟩
      cases r with
      | error e => trivial
      | ok _ =>
          cases early with
          | false => exact fullHandshake_within
          | true =>
              refine ⟨⟨trivial, id⟩, fun r => ?_⟩
              cases r with
              | none => exact fullHandshake_within
              | some conn => exact buildH3_within ⟨conn, some conn⟩

theorem dialFully_within {key : PoolKey} (keyed : key.via = via) :
    (dialFully key).Within (Readies via) fun _ => True := by
  refine (dial_within keyed false).bind fun r _ => ?_
  rcases r with e | made
  · cases e <;> trivial
  · trivial

theorem make_within {key : PoolKey} (keyed : key.via = via) :
    (make key).Within (Readies via) fun _ => True := by
  have connected : (connect key).Within (Readies via) fun _ => True := by
    unfold connect
    split
    · refine (dial_within keyed true).bind fun r _ => ?_
      rcases r with (_ | e) | made
      · exact dialFully_within keyed
      · trivial
      · trivial
    · exact dialFully_within keyed
  refine connected.bind fun r _ => ?_
  cases r with
  | error e => trivial
  | ok made => exact ⟨⟨keyed, id⟩, fun _ => trivial⟩

theorem checkout_within {key : PoolKey} (keyed : key.via = via) (path : Bool) :
    (checkout key path).Within (Readies via) fun _ => True := by
  refine ⟨⟨keyed, id⟩, fun r => ?_⟩
  cases r with
  | some pooled => trivial
  | none =>
      dsimp only
      split
      · exact make_within keyed
      · split
        · refine ⟨⟨trivial, id⟩, fun r => ?_⟩
          cases r with
          | error e => trivial
          | ok _ => exact make_within keyed
        · trivial

/-- A connect through a filter resolves nothing and is keyed by the filter; it sends nothing. -/
theorem stageWith_within (t : H3) (req : Request) (filter : Option Filter) :
    (stageWith t req filter).Within (Readies (filter.map Filter.via)) fun _ => True := by
  unfold stageWith
  split
  · trivial
  next a _ =>
    have addressed : (addressFor filter a.host a.port).Within (Readies (filter.map Filter.via))
        fun _ => True := by
      unfold addressFor
      split
      · refine ⟨⟨rfl, id⟩, fun r => ?_⟩
        cases r <;> trivial
      · trivial
    refine addressed.bind fun r _ => ?_
    cases r with
    | error e => trivial
    | ok _ =>
        refine (checkout_within rfl _).bind fun r _ => ?_
        rcases r with e | (_ | _) <;> trivial

/-- What is not to `https` is refused. -/
theorem admitRequest_https {t : H3} {req : Request} {a : Admitted}
    (admitted : admitRequest t req = .ok a) : req.parts.uri.scheme = some .https := by
  unfold admitRequest at admitted
  split at admitted
  · cases admitted
  · split at admitted
    · cases admitted
    next secure => exact not_not.mp secure

theorem recvResponse_within (stream : Stream) :
    (recvResponse stream).Within OnStream fun _ => True := by
  refine ⟨trivial, fun r => ?_⟩
  cases r <;> trivial

theorem pump_within (stream : Stream) (bytes : List UInt8) :
    (pump stream bytes).Within OnStream fun _ => True := by
  induction bytes with
  | nil =>
      refine ⟨trivial, fun r => ?_⟩
      rcases r with _ | _ | _ | (_ | _)
      · exact recvResponse_within stream
      · exact recvResponse_within stream
      · trivial
      · trivial
      · trivial
  | cons byte rest ih =>
      refine ⟨trivial, fun r => ?_⟩
      rcases r with _ | _ | _ | (_ | _)
      · exact ih
      · exact recvResponse_within stream
      · trivial
      · trivial
      · trivial

theorem oneAttempt_within (attempt : Nat) (conn : ConnId) (parts : Parts)
    (body : Client.RequestBody) :
    (oneAttempt attempt conn parts body).Within OnStream fun _ => True := by
  refine ⟨trivial, fun r => ?_⟩
  cases r with
  | failed e => trivial
  | opened phase => exact pump_within _ _

/-- An exchange asks for nothing but its streams. -/
theorem finish_within (staged : Staged) : (finish staged).Within OnStream fun _ => True := by
  refine (oneAttempt_within _ _ _ _).bind fun r _ => ?_
  cases r with
  | ok responded => trivial
  | error e =>
      dsimp only
      split
      · trivial
      · refine ⟨trivial, fun verdict => ?_⟩
        cases verdict with
        | true => trivial
        | false =>
            dsimp only
            split
            · trivial
            · exact oneAttempt_within _ _ _ _

end Http3

/-! ## The routes -/

namespace Routing
open Connect (Prefetched)
open Connect.Connector (Conn)
variable {S : Type} {t : Transport}

inductive Stack where
  | tcp
  | quic
  deriving DecidableEq

/-- The stack that a request is sent over by a call, if it is. -/
def sentOver : Op S → Option Stack
  | .tcp (.exchange _) => some .tcp
  | .h3 (.sendHead _ _ _) => some .quic
  | _ => none

/-- The filter that a request goes through. -/
def Egress.via : Egress → Option Text
  | .direct => none
  | .filtered via _ => some via

/-- What a request to this URI may ask for: a path or an opening only of who carries its own
target, and only for that target; a connection only under that filter's key; and an address or a
record only where nobody carries it. -/
def Confined (t : Transport) (uri : Uri) : Op S → Prop
  | .supportsHttps => egressOf t uri = .direct
  | .records _ => egressOf t uri = .direct
  | .externalPath target _ => Connect.Connector.Carries t.filters uri .external target
  | .rulesPath target _ => Connect.Connector.Carries t.filters uri .rules target
  | .h3 op => Http3.Of (egressOf t uri).via op
  | .tcp op => Tcp.Keyed (egressOf t uri).via op
  | .connector op => Connect.Connector.Of t.filters uri op
  | _ => True

/-- What a request may ask for that demands this version, or none. -/
def Demanded (t : Transport) (demand : Option HttpVersion) : Op S → Prop
  | .h3 _ => t.arm.isSome = true ∧ ∀ version ∈ demand, version = .http3
  | .tcp _ => ∀ version ∈ demand, version ≠ .http3
  | .connector _ => ∀ version ∈ demand, version ≠ .http3
  | _ => True

/-- What a request may ask for, by its URI and its demand. -/
def Permitted (t : Transport) (uri : Uri) (demand : Option HttpVersion) (op : Op S) : Prop :=
  Confined t uri op ∧ Demanded t demand op

/-- Permitted, and with nothing of the request sent over another stack. -/
def Sends (t : Transport) (uri : Uri) (demand : Option HttpVersion) (stack : Option Stack)
    (op : Op S) : Prop :=
  Permitted t uri demand op ∧ ∀ s ∈ sentOver op, some s = stack

/-- A call that is about no connection. -/
def Idle : Op S → Prop
  | .now => True
  | .systemNow => True
  | .altSvc _ => True
  | .suppressed _ _ => True
  | .note _ _ => True
  | .sleep _ => True
  | .first => True
  | .bound _ => True
  | .boundSpent => True
  | _ => False

section
variable {uri : Uri} {demand : Option HttpVersion} {stack : Option Stack} {α : Type}

theorem Idle.sends {op : Op S} (idle : Idle op) : Sends t uri demand stack op := by
  cases op with
  | h3 op => exact idle.elim
  | tcp op => exact idle.elim
  | connector op => exact idle.elim
  | supportsHttps => exact idle.elim
  | records name => exact idle.elim
  | externalPath target budget => exact idle.elim
  | rulesPath target budget => exact idle.elim
  | _ => exact ⟨⟨trivial, trivial⟩, fun s same => by cases same⟩

theorem egressOf_via {p : Connect.Connector.Place} (located : Connect.Connector.placeOf uri = .ok p) :
    egressOf t uri = match t.filters.route p.target with
      | .direct => .direct
      | .filtered route => .filtered route.poolKey route.support.datagrams := by
  unfold Connect.Connector.placeOf at located
  unfold egressOf
  cases hosted : Connect.host uri with
  | error e => simp [hosted] at located
  | ok host =>
      cases secured : Connect.wantsTls uri with
      | error e => simp [hosted, secured] at located
      | ok useTls =>
          simp only [hosted, secured, Except.ok.injEq] at located
          subst located
          rfl

theorem carried_iff {p : Connect.Connector.Place} (located : Connect.Connector.placeOf uri = .ok p) :
    (t.filters.carrier p.target).isSome = (egressOf t uri).via.isSome := by
  rw [egressOf_via located, Connect.Filters.route]
  cases t.filters.carrier p.target with
  | none => rfl
  | some carrier => cases carrier <;> rfl

theorem uncarried_of_direct (direct : (egressOf t uri).via = none) :
    ∀ p, Connect.Connector.placeOf uri = .ok p → t.filters.carrier p.target = none := by
  intro p located
  have same := carried_iff (t := t) located
  rw [direct] at same
  exact Option.isNone_iff_eq_none.mp (Option.isSome_eq_false_iff.mp same)

/-- The proxy of a request's key is the filter it goes through. -/
theorem proxy_eq {parts : Tcp.KeyParts} {identityId : Option Nat}
    (known : t.tcp.keyParts uri identityId = .ok parts) : parts.proxy = (egressOf t uri).via := by
  unfold Tcp.Transport.keyParts at known
  unfold egressOf
  cases hosted : Connect.host uri with
  | error e => simp [hosted] at known
  | ok host =>
      cases secured : Connect.wantsTls uri with
      | error e => simp [hosted, secured] at known
      | ok useTls =>
          simp only [hosted, secured, Except.ok.injEq] at known
          subst known
          have same : t.tcp.egressRoute ⟨host, Connect.port uri useTls, useTls⟩ =
              t.filters.route ⟨host, Connect.port uri useTls, useTls⟩ := rfl
          simp only [same]
          cases t.filters.route ⟨host, Connect.port uri useTls, useTls⟩ <;> rfl

theorem partsFor_proxy {identity : Option Text} {parts : Tcp.KeyParts}
    (known : t.tcp.partsFor uri identity = .ok parts) : parts.proxy = (egressOf t uri).via := by
  unfold Tcp.Transport.partsFor at known
  split at known
  · cases known
  · exact proxy_eq known

theorem withConnectTimeout_within {p : Script S α} {Q : α → Prop}
    (h : p.Within (Sends t uri demand stack) Q) (bound : Option Duration) :
    (withConnectTimeout bound p).Within (Sends t uri demand stack)
      fun r => ∀ a, r = some a → Q a := by
  cases bound with
  | none =>
      refine h.bind fun a holds => ?_
      rintro _ ⟨⟩
      exact holds
  | some d =>
      exact ⟨Idle.sends trivial, fun _ => h.bounded ⟨Idle.sends trivial, fun _ => trivial⟩⟩

theorem altSvc_within (p : AltSvc.StoreProgram α) :
    (Script.altSvc p : Script S α).Within (Sends t uri demand stack) fun _ => True := by
  refine Program.Within.through (P := fun _ => True) (fun op _ => ?_) (p.within_free)
  exact ⟨Idle.sends trivial, fun _ => trivial⟩

theorem h3_within {p : Http3.Script α} {Q : α → Prop} {P : Http3.Op → Prop} (h : p.Within P Q)
    (calls : ∀ op, P op → Sends (S := S) t uri demand stack (.h3 op)) :
    (Script.h3 p : Script S α).Within (Sends t uri demand stack) Q := by
  refine Program.Within.through (fun op permitted => ?_) h
  exact ⟨calls op permitted, fun _ => trivial⟩

theorem connector_within {p : Connect.Connector.Script S α} {P : Connect.Connector.Op S → Prop}
    {Q : α → Prop} (h : p.Within P Q)
    (calls : ∀ op, P op → Permitted t uri demand (.connector op)) :
    (Script.connector p).Within (Sends t uri demand stack) Q := by
  refine Program.Within.through (fun op permitted => ?_) h
  exact ⟨⟨calls op permitted, fun s same => by cases same⟩, fun _ => trivial⟩

/-! ### Over TCP -/

variable {turns : Nat} {found : Prefetched} {resolve : Option Duration}

theorem makeConn_within (streamed : ∀ version ∈ demand, version ≠ .http3) (now : Duration)
    (identity : Option Text) (alpn : List (List UInt8)) (budget : Option Duration) :
    (makeConn t turns found resolve now uri identity alpn budget : Script S _).Within
      (Sends t uri demand stack) fun _ => True := by
  refine (withConnectTimeout_within (Q := fun _ => True) (connector_within
    (Connect.Connector.connect_within turns t.filters t.appliesEch
      ⟨uri, alpn, identity, now, found, resolve⟩)
    fun op asked => ⟨asked, streamed⟩) budget).bind fun r _ => ?_
  rcases r with _ | _ | (_ | _ | _) <;> trivial

/-- What a program over TCP asks for is asked for in its turn. -/
theorem serveTcp_within {P : Tcp.Op (Conn S) → Prop}
    (calls : ∀ op, P op → Sends t uri demand stack (.tcp op))
    (connects : ∀ uri' identity alpn budget, P (.connect uri' identity alpn budget) → uri' = uri)
    (streamed : ∀ version ∈ demand, version ≠ .http3) (op : Tcp.Op (Conn S)) (now : Duration)
    (asked : P op) : (serveTcp t turns found resolve op now).Within (Sends t uri demand stack)
      fun _ => True := by
  cases op with
  | connect uri' identity alpn budget =>
      obtain rfl := connects uri' identity alpn budget asked
      refine (makeConn_within streamed now identity alpn budget).bind fun r _ => ?_
      cases r <;> trivial
  | _ => exact ⟨calls _ asked, fun _ => trivial⟩

theorem overTcp_within {P : Tcp.Op (Conn S) → Prop} {Q : α → Prop}
    (calls : ∀ op, P op → Sends t uri demand stack (.tcp op))
    (connects : ∀ uri' identity alpn budget, P (.connect uri' identity alpn budget) → uri' = uri)
    (streamed : ∀ version ∈ demand, version ≠ .http3) {p : Tcp.Script (Conn S) (Option α)}
    (h : p.Within P fun r => ∀ a, r = some a → Q a) :
    (overTcp t turns found resolve p).Within (Sends t uri demand stack)
      fun r => ∀ a, r = some a → Q a := by
  refine (h.servedIfAny (fun op now => serveTcp_within calls connects streamed op now) 0).bind
    fun r answered => ?_
  rcases r with _ | ⟨_ | a, now⟩
  · exact fun a same => by cases same
  · exact fun a same => by cases same
  · exact answered (some a, now) rfl

theorem keyed_sends {call : Tcp.Prepared} {parts : Tcp.KeyParts} {op : Tcp.Op (Conn S)}
    (proxied : parts.proxy = (egressOf t uri).via)
    (streamed : ∀ version ∈ demand, version ≠ .http3) (h : Tcp.OfParts call parts op) :
    Sends t uri demand (some .tcp) (.tcp op) := by
  refine ⟨⟨?_, streamed⟩, fun s same => ?_⟩
  · change Tcp.Keyed _ op
    rw [← proxied]
    exact h.keyed
  · cases op <;> cases same
    rfl

theorem readies_sends {call : Tcp.Prepared} {parts : Tcp.KeyParts} {op : Tcp.Op (Conn S)}
    (proxied : parts.proxy = (egressOf t uri).via)
    (streamed : ∀ version ∈ demand, version ≠ .http3) (h : Tcp.Readies call parts op) :
    Sends t uri demand none (.tcp op) := by
  refine ⟨(keyed_sends proxied streamed h.1).1, fun s same => ?_⟩
  cases op <;> cases same
  exact h.2.elim

variable {c : Call}

/-- A request over TCP. -/
theorem run_within (streamed : ∀ version ∈ c.requireVersion, version ≠ .http3) :
    (run t turns c found : Script S _).Within (Sends t c.parts.uri c.requireVersion (some .tcp))
      fun _ => True := by
  have going : (overTcp t turns found c.timeouts.resolve (Tcp.run t.tcp c.overTcp turns) :
      Script S _).Within (Sends t c.parts.uri c.requireVersion (some .tcp)) fun _ => True := by
    cases admitted : t.tcp.admitRequest c.overTcp with
    | error e =>
        rw [Tcp.run_refused admitted]
        trivial
    | ok parts =>
        have known : t.tcp.partsFor c.parts.uri c.identity = .ok parts := by
          unfold Tcp.Transport.admitRequest at admitted
          split at admitted
          · cases admitted
          next parts' found =>
            split at admitted
            · cases admitted
            · cases admitted
              exact found
        refine (overTcp_within (Q := fun _ => True)
          (fun op => keyed_sends (partsFor_proxy known) streamed)
          (fun _ _ _ _ asked => asked.1) streamed
          ((Tcp.run_within turns admitted).mono (fun _ h => h) fun _ _ _ _ => trivial)).anyway
  exact going.bind fun _ _ => trivial

/-- The connect of a hedge. -/
theorem hedgeConnect_within (streamed : ∀ version ∈ c.requireVersion, version ≠ .http3)
    (headStart : Duration) :
    (hedgeConnect t turns c headStart : Script S _).Within
      (Sends t c.parts.uri c.requireVersion none) fun r => ∀ held, r = some (.ok held) →
        ∃ parts, parts.proxy = (egressOf t c.parts.uri).via ∧ Tcp.HeldFor parts held := by
  refine ⟨Idle.sends trivial, fun _ => ?_⟩
  cases known : t.tcp.partsFor c.parts.uri c.identity with
  | error e =>
      have refused : (Tcp.stage t.tcp c.overTcp turns : Tcp.Script (Conn S) _) =
          .done (some (.error e)) := by
        have unplaced : t.tcp.partsFor c.overTcp.request.uri c.overTcp.identity = .error e := known
        rw [Tcp.stage, unplaced]
      rw [refused]
      rintro _ ⟨⟩
  | ok parts =>
      refine (overTcp_within (Q := fun r => ∀ held, r = .ok held →
          ∃ parts, parts.proxy = (egressOf t c.parts.uri).via ∧ Tcp.HeldFor parts held)
        (fun op => readies_sends (partsFor_proxy known) streamed)
        (fun _ _ _ _ asked => asked.1.1) streamed
        ((Tcp.stage_within turns known).mono (fun _ h => h) ?_)).mono (fun _ h => h) ?_
      · rintro r staged _ rfl held rfl
        exact ⟨parts, partsFor_proxy known, staged held rfl⟩
      · intro r staged held same
        exact staged _ same held rfl

/-! ### Over QUIC -/

/-- A request that may go over QUIC. -/
structure MayQuic (t : Transport) (c : Call) : Prop where
  arm : t.arm.isSome = true
  demand : ∀ version ∈ c.requireVersion, version = .http3

theorem h3_readies (filter : Option Http3.Filter) (may : MayQuic t c)
    (through : (egressOf t c.parts.uri).via = filter.map Http3.Filter.via) (arm : Http3.H3) :
    (Script.h3 (Http3.stageWith arm c.overH3 filter) : Script S _).Within
      (Sends t c.parts.uri c.requireVersion none) fun _ => True := by
  refine h3_within (Http3.stageWith_within arm c.overH3 filter) fun op readies => ?_
  refine ⟨⟨?_, may.arm, may.demand⟩, fun s same => ?_⟩
  · change Http3.Of _ op
    rw [through]
    exact readies.1
  · cases op <;> cases same
    exact (readies.2 trivial).elim

theorem connectQuic_within (may : MayQuic t c) (direct : (egressOf t c.parts.uri).via = none)
    (arm : Http3.H3) : (connectQuic arm c : Script S _).Within
      (Sends t c.parts.uri c.requireVersion none) fun _ => True := by
  refine (h3_readies none may direct arm).bind fun r _ => ?_
  rcases r with (_ | _) | _ <;> trivial

theorem exchangeStaged_within (may : MayQuic t c) (staged : Http3.Staged) :
    (exchangeStaged c staged : Script S _).Within
      (Sends t c.parts.uri c.requireVersion (some .quic)) fun _ => True := by
  refine (h3_within (Http3.finish_within staged) fun op on_stream => ?_).bind fun _ _ => trivial
  refine ⟨⟨?_, may.arm, may.demand⟩, fun s same => ?_⟩
  · cases op <;> trivial
  · cases op <;> cases same
    rfl

theorem noteFailure_within (origin : Option AltSvc.Origin) (now : Duration) :
    (noteFailure origin now : Script S _).Within (Sends t uri demand stack) fun _ => True := by
  cases origin with
  | none => trivial
  | some origin => exact ⟨Idle.sends trivial, fun _ => trivial⟩

theorem noteH3Failure_within (origin : Option AltSvc.Origin) :
    (noteH3Failure origin : Script S _).Within (Sends t uri demand stack) fun _ => True := by
  cases origin with
  | none => trivial
  | some origin => exact ⟨Idle.sends trivial, fun _ => ⟨Idle.sends trivial, fun _ => trivial⟩⟩

/-- A bound that is taken from changes nothing else of a request. -/
theorem spend_cases (c : Call) (spent : Duration) : ∃ go timeouts,
    c.spendConnectBudget spent = (go, { c with timeouts := timeouts }) := by
  unfold Call.spendConnectBudget
  split
  · exact ⟨true, c.timeouts, rfl⟩
  · exact ⟨_, _, rfl⟩

theorem quicRefused_within {fallback : Bool}
    (back : fallback = true → ∀ version ∈ c.requireVersion, version ≠ .http3)
    (origin : Option AltSvc.Origin) (began : Duration) (error : Error) :
    (quicRefused t turns c fallback origin began error : Script S _).Within
      (Sends t c.parts.uri c.requireVersion (some .tcp)) fun _ => True := by
  refine ⟨Idle.sends trivial, fun now => ?_⟩
  refine (noteFailure_within origin now).bind fun _ _ => ?_
  split
  next falls =>
    unfold afterQuicFailed
    obtain ⟨go, timeouts, spent⟩ := spend_cases c _
    rw [spent]
    cases go with
    | false => trivial
    | true => exact run_within (c := { c with timeouts := timeouts }) (back falls)
  · trivial

/-! ### The race -/

/-- What a race leaves is the request, with less of its bound. -/
def Left (c : Call) (r : Option (Raced × Call)) : Prop :=
  ∀ raced c', r = some (raced, c') → ∃ timeouts, c' = { c with timeouts := timeouts }

theorem left_spent (c : Call) (raced : Raced) (timeouts : Timeouts) :
    Left c (some (raced, { c with timeouts := timeouts })) := by
  rintro _ _ ⟨⟩
  exact ⟨timeouts, rfl⟩

theorem quicLost_within (origin : Option AltSvc.Origin) (began : Duration) (refused : Error) :
    (quicLost c origin began refused : Script S _).Within
      (Sends t c.parts.uri c.requireVersion none) (Left c) := by
  refine (noteH3Failure_within origin).bind fun _ _ => ⟨Idle.sends trivial, fun now => ?_⟩
  dsimp only
  obtain ⟨go, timeouts, spent⟩ := spend_cases c _
  rw [spent]
  cases go with
  | false => exact left_spent c _ timeouts
  | true => exact left_spent c _ timeouts

theorem hedgeWon_within (streamed : ∀ version ∈ c.requireVersion, version ≠ .http3)
    {held : Tcp.Held (Conn S)} {parts : Tcp.KeyParts}
    (proxied : parts.proxy = (egressOf t c.parts.uri).via) (of_parts : Tcp.HeldFor parts held)
    (origin : Option AltSvc.Origin) (began : Duration) :
    (hedgeWon t turns c origin began held).Within
      (Sends t c.parts.uri c.requireVersion none) (Left c) := by
  refine (noteH3Failure_within origin).bind fun _ _ => ⟨Idle.sends trivial, fun now => ?_⟩
  have dropped : ((Tcp.dropHeld held).bind fun _ => .done (some ())).Within
      (Tcp.Readies c.overTcp parts) fun r => ∀ a : Unit, r = some a → True :=
    (Tcp.dropHeld_within of_parts).bind fun _ _ _ _ => trivial
  refine Program.Within.ifAny (Q := fun _ => True) (fun _ _ same => by cases same)
    (overTcp_within (fun op => readies_sends proxied streamed) (fun _ _ _ _ asked => asked.1.1)
      streamed dropped) fun _ _ => ?_
  obtain ⟨go, timeouts, spent⟩ := spend_cases c _
  rw [spent]
  exact left_spent c _ timeouts

theorem race_within (may : MayQuic t c) (direct : (egressOf t c.parts.uri).via = none)
    (streamed : ∀ version ∈ c.requireVersion, version ≠ .http3) (arm : Http3.H3)
    (origin : Option AltSvc.Origin) (headStart : Duration) {hedge : Call} (timeouts : Timeouts)
    (probed : hedge = { probe c with timeouts := timeouts }) (began : Duration) :
    (race t turns arm c origin headStart hedge began : Script S _).Within
      (Sends t c.parts.uri c.requireVersion none) (Left c) := by
  subst probed
  have quic : (connectQuic arm (probe c) : Script S _).Within
      (Sends t c.parts.uri c.requireVersion none) fun _ => True :=
    connectQuic_within (c := probe c) ⟨may.arm, may.demand⟩ direct arm
  have hedged : (hedgeConnect t turns { probe c with timeouts := timeouts } headStart :
      Script S _).Within (Sends t c.parts.uri c.requireVersion none) _ :=
    hedgeConnect_within (c := { probe c with timeouts := timeouts }) streamed headStart
  have either : (.call .first .done : Script S Bool).Within
      (Sends t c.parts.uri c.requireVersion none) fun _ => True :=
    ⟨Idle.sends trivial, fun _ => trivial⟩
  refine (Program.Within.race either quic hedged).bind fun r raced => ?_
  rcases r with ⟨_ | _, _⟩ | ⟨rest, _ | _ | held⟩
  · exact quicLost_within origin began _
  · exact left_spent c .quic c.timeouts
  · exact fun _ _ same => by cases same
  · refine raced.1.bind fun r _ => ?_
    cases r with
    | ok staged => exact left_spent c .quic c.timeouts
    | error refused => exact quicLost_within origin began refused
  · obtain ⟨parts, proxied, of_parts⟩ := raced.2 held rfl
    exact hedgeWon_within streamed proxied of_parts origin began

theorem raceConnects_within (may : MayQuic t c) (direct : (egressOf t c.parts.uri).via = none)
    (streamed : ∀ version ∈ c.requireVersion, version ≠ .http3) (origin : Option AltSvc.Origin)
    (headStart : Duration) :
    (raceConnects t turns c origin headStart : Script S _).Within
      (Sends t c.parts.uri c.requireVersion none) (Left c) := by
  refine ⟨Idle.sends trivial, fun began => ?_⟩
  dsimp only
  split
  · exact left_spent c .quic c.timeouts
  · exact left_spent c .quic c.timeouts
  · exact race_within may direct streamed _ origin headStart c.timeouts rfl began
  · exact race_within may direct streamed _ origin headStart _ rfl began

/-! ### Through a filter -/

/-- A path is asked for as a connection would be: of who carries the target. -/
theorem openPath_within (secure : uri.scheme = some .https) (filtered : egressOf t uri ≠ .direct)
    (budget : Option Duration) :
    (openPath t uri budget : Script S _).Within (Sends t uri demand stack) fun _ => True := by
  unfold openPath
  split
  · trivial
  next host hosted =>
    have secured : Connect.wantsTls uri = .ok true := by rw [Connect.wantsTls, secure]
    have located : Connect.Connector.placeOf uri = .ok ⟨host, true, Connect.port uri true⟩ := by
      rw [Connect.Connector.placeOf, hosted]
      dsimp only
      rw [secured]
    have own : ∃ p, Connect.Connector.placeOf uri = .ok p ∧
        p.target = ⟨host, Connect.port uri true, true⟩ := ⟨_, located, rfl⟩
    dsimp only
    split
    next route carries =>
      exact ⟨⟨⟨⟨own, route, carries⟩, trivial⟩, fun s same => by cases same⟩, fun _ => trivial⟩
    next other =>
      split
      · have carried : (t.filters.carrier ⟨host, Connect.port uri true, true⟩).isSome = true := by
          refine (carried_iff (t := t) located).trans ?_
          cases egress : egressOf t uri with
          | direct => exact absurd egress filtered
          | filtered via datagrams => rfl
        obtain ⟨carrier, carries⟩ := Option.isSome_iff_exists.mp carried
        cases carrier with
        | external route => exact (other route carries).elim
        | rules route =>
            exact ⟨⟨⟨⟨own, route, carries⟩, trivial⟩, fun s same => by cases same⟩,
              fun _ => trivial⟩
      · trivial

theorem stageVia_within (may : MayQuic t c) {via : Text}
    (filtered : (egressOf t c.parts.uri).via = some via) (arm : Http3.H3) (began : Duration) :
    (stageVia t arm c via began : Script S _).Within
      (Sends t c.parts.uri c.requireVersion none) fun _ => True := by
  have not_direct : egressOf t c.parts.uri ≠ .direct := by
    intro direct
    rw [direct] at filtered
    cases filtered
  -- a request that is not to `https` is refused before a path is asked for
  cases admitted : Http3.admitRequest arm c.overH3 with
  | error e =>
      rw [stageVia, Http3.stageWith, admitted]
      trivial
  | ok a =>
  have secure : c.parts.uri.scheme = some .https := Http3.admitRequest_https admitted
  refine (h3_readies (some ⟨via, false⟩) may filtered arm).bind fun r _ => ?_
  rcases r with (_ | _) | staged
  · trivial
  · refine ⟨Idle.sends trivial, fun now => ?_⟩
    refine (withConnectTimeout_within (openPath_within secure not_direct _) _).bind fun r _ => ?_
    rcases r with _ | (_ | e | e)
    · trivial
    · refine ⟨Idle.sends trivial, fun now => ?_⟩
      dsimp only
      obtain ⟨go, timeouts, spent⟩ := spend_cases c _
      rw [spent]
      cases go with
      | false => trivial
      | true =>
          refine (h3_readies (c := { c with timeouts := timeouts }) (some ⟨via, true⟩)
            ⟨may.arm, may.demand⟩ filtered arm).bind fun r _ => ?_
          rcases r with (_ | _) | _ <;> trivial
    · trivial
    · trivial
  · trivial

/-! ### The decision -/

/-- A way that a request may take. -/
def Routed (t : Transport) (c : Call) : Route → Prop
  | .refuse _ => True
  | .tcp _ => ∀ version ∈ c.requireVersion, version ≠ .http3
  | .quic fallback => MayQuic t c ∧ (egressOf t c.parts.uri).via = none ∧
      (fallback = true → c.requireVersion = none)
  | .quicVia via fallback => MayQuic t c ∧ (egressOf t c.parts.uri).via = some via ∧
      (fallback = true → c.requireVersion = none)

theorem undemanded_ne (free : c.requireVersion = none) :
    ∀ version ∈ c.requireVersion, version ≠ .http3 := by
  rw [free]
  rintro _ ⟨⟩

theorem mayQuic_of_undemanded (free : c.requireVersion = none) (arm : t.arm.isSome = true) :
    MayQuic t c := by
  refine ⟨arm, ?_⟩
  rw [free]
  rintro _ ⟨⟩

theorem routeVia_within {via : Text} {datagrams : Bool}
    (filtered : egressOf t c.parts.uri = .filtered via datagrams) :
    (routeVia t c via datagrams : Script S _).Within (Sends t c.parts.uri c.requireVersion none)
      (Routed t c) := by
  have through : (egressOf t c.parts.uri).via = some via := by rw [filtered]; rfl
  unfold routeVia
  cases demand : c.requireVersion with
  | some version =>
      dsimp only
      split
      next other =>
        change ∀ v ∈ c.requireVersion, v ≠ _
        rw [demand]
        rintro _ ⟨⟩
        exact other
      next same =>
        have h3 := not_not.mp same
        split
        · trivial
        next able =>
          simp only [Bool.or_eq_true, Bool.not_eq_true', not_or, Option.isNone_iff_eq_none] at able
          refine ⟨⟨Option.isSome_iff_ne_none.mpr able.2, ?_⟩, through, fun same => by cases same⟩
          rw [demand]
          rintro _ ⟨⟩
          exact h3
  | none =>
      dsimp only
      split
      · exact undemanded_ne demand
      next able =>
        simp only [Bool.or_eq_true, Bool.not_eq_true', not_or, Option.isNone_iff_eq_none] at able
        have may := mayQuic_of_undemanded demand (Option.isSome_iff_ne_none.mpr able.2)
        unfold viaByAdvertisement
        split
        · exact undemanded_ne demand
        · refine ⟨Idle.sends trivial, fun now => (altSvc_within _).bind fun advertised _ => ?_⟩
          cases advertised with
          | false => exact undemanded_ne demand
          | true =>
              refine ⟨Idle.sends trivial, fun now => ⟨Idle.sends trivial, fun suppressed => ?_⟩⟩
              cases suppressed with
              | true => exact undemanded_ne demand
              | false => exact ⟨may, through, fun _ => demand⟩

section Undemanded
variable (free : c.requireVersion = none) (direct : (egressOf t c.parts.uri).via = none)

include free direct in
theorem quicUnlessItFailed_within (found : Prefetched) (host : Text) (port : Nat) :
    (quicUnlessItFailed t found host port : Script S _).Within (Sends t uri demand stack)
      (Routed t c) := by
  unfold quicUnlessItFailed
  split
  · exact undemanded_ne free
  next arm armed =>
    refine ⟨Idle.sends trivial, fun now => ⟨Idle.sends trivial, fun suppressed => ?_⟩⟩
    cases suppressed with
    | true => exact undemanded_ne free
    | false =>
        refine ⟨mayQuic_of_undemanded free ?_, direct, fun _ => free⟩
        rw [armed]
        rfl

include free direct in
theorem byAdvertisement_within (found : Prefetched) (host : Text) (port : Nat) :
    (byAdvertisement t found host port : Script S _).Within (Sends t uri demand stack)
      (Routed t c) := by
  refine ⟨Idle.sends trivial, fun now => (altSvc_within _).bind fun advertised _ => ?_⟩
  cases advertised with
  | false => exact undemanded_ne free
  | true => exact quicUnlessItFailed_within free direct found host port

include free direct in
theorem routeByRecord_within (turns : Nat) (host : Text) (port : Nat) :
    (routeByRecord t turns c.parts.uri host port : Script S _).Within
      (Sends t c.parts.uri c.requireVersion none)
      fun r => ∀ r', r = some r' → Routed t c r' := by
  have not_filtered : egressOf t c.parts.uri = .direct := by
    cases egress : egressOf t c.parts.uri with
    | direct => rfl
    | filtered via datagrams =>
        rw [egress] at direct
        cases direct
  have asks {op : Op S} (confined : Confined t c.parts.uri op)
      (demanded : Demanded t c.requireVersion op) (unsent : sentOver op = none) :
      Sends t c.parts.uri c.requireVersion none op :=
    ⟨⟨confined, demanded⟩, fun s same => by rw [unsent] at same; cases same⟩
  have answers (r : Route) (routed : Routed t c r) :
      ∀ r', some r = some r' → Routed t c r' := by
    rintro _ ⟨⟩
    exact routed
  unfold routeByRecord
  split
  · exact (byAdvertisement_within free direct _ _ _).bind fun r routed => answers r routed
  · refine ⟨asks not_filtered trivial rfl, fun able => ?_⟩
    cases able with
    | false => exact (byAdvertisement_within free direct _ _ _).bind fun r routed => answers r routed
    | true =>
        have prepared : (prepare turns c.parts.uri : Script S _).Within
            (Sends t c.parts.uri c.requireVersion none) fun _ => True := by
          refine ⟨Idle.sends trivial, fun now => ?_⟩
          dsimp only
          split
          · trivial
          · exact connector_within (Connect.Connector.discoveredEndpoint_within turns _ _)
              fun op beside => ⟨Connect.Connector.of_beside (uncarried_of_direct direct) beside,
                undemanded_ne free⟩
        refine Program.Within.ifAny (Q := fun _ => True) (fun _ same => by cases same)
          (prepared.mono (fun _ h => h) fun _ _ _ _ => trivial) fun found _ => ?_
        have known : (recordOffersH3 host port found : Script S _).Within
            (Sends t c.parts.uri c.requireVersion none) fun _ => True := by
          rcases found with _ | _ | endpoint
          · exact ⟨asks not_filtered trivial rfl, fun _ => trivial⟩
          · trivial
          · trivial
        refine known.bind fun offers _ => ?_
        rcases offers with _ | _ | _
        · exact (byAdvertisement_within free direct _ _ _).bind fun r routed => answers r routed
        · exact answers _ (undemanded_ne free)
        · exact (quicUnlessItFailed_within free direct _ _ _).bind fun r routed => answers r routed

end Undemanded

theorem route_within (t : Transport) (turns : Nat) (c : Call) :
    (route t turns c : Script S _).Within (Sends t c.parts.uri c.requireVersion none)
      fun r => ∀ r', r = some r' → Routed t c r' := by
  have answers (r : Route) (routed : Routed t c r) :
      ∀ r', some r = some r' → Routed t c r' := by
    rintro _ ⟨⟩
    exact routed
  unfold route
  cases egress : egressOf t c.parts.uri with
  | filtered via datagrams =>
      exact (routeVia_within egress).bind fun r routed => answers r routed
  | direct =>
      have direct : (egressOf t c.parts.uri).via = none := by rw [egress]; rfl
      dsimp only
      cases demand : c.requireVersion with
      | some version =>
          dsimp only
          split
          next other =>
            refine answers _ ?_
            change ∀ v ∈ c.requireVersion, v ≠ _
            rw [demand]
            rintro _ ⟨⟩
            exact other
          next same =>
            split
            · exact answers _ trivial
            next able =>
              refine answers _ ⟨⟨Option.isSome_iff_ne_none.mpr ?_, ?_⟩, direct,
                fun same => by cases same⟩
              · simpa using able
              · rw [demand]
                rintro _ ⟨⟩
                exact not_not.mp same
      | none =>
          dsimp only
          split
          · exact answers _ (undemanded_ne demand)
          · split
            · exact answers _ (undemanded_ne demand)
            · rw [← demand]
              exact routeByRecord_within demand direct turns _ _

/-! ### One stack for a request -/

/-- The stacks that a request was sent over so far, and what it may ask for next. -/
abbrev watching (S : Type) (t : Transport) (uri : Uri) (demand : Option HttpVersion) :
    Monitor (Op S) Op.Answer (List Stack) :=
  .keeping (fun sent op => Permitted t uri demand op ∧ ∀ s ∈ sentOver op, ∀ s' ∈ sent, s' = s)
    fun sent op _ => sent ++ (sentOver op).toList

variable {sent : List Stack}

theorem unsent_wp {p : Script S α} {Q : α → Prop} (h : p.Within (Sends t uri demand none) Q) :
    (watching S t uri demand).wp p (fun sent' a => sent' = sent ∧ Q a) sent := by
  induction p with
  | done a => exact ⟨rfl, h⟩
  | call op next ih =>
      obtain ⟨⟨permitted, unsent⟩, rest⟩ := h
      have quiet : sentOver op = none := by
        cases over_ : sentOver op with
        | none => rfl
        | some s => cases unsent s over_
      refine (Monitor.keeping_call _ _ _).mpr ⟨⟨permitted, fun s same => ?_⟩, fun r => ?_⟩
      · rw [quiet] at same
        cases same
      · rw [quiet, Option.toList_none, List.append_nil]
        exact ih r (rest r)

theorem sends_wp {p : Script S α} {s : Stack} {Q : α → Prop}
    (h : p.Within (Sends t uri demand (some s)) Q) (alone : ∀ s' ∈ sent, s' = s) :
    (watching S t uri demand).wp p (fun _ a => Q a) sent := by
  induction p generalizing sent with
  | done a => exact h
  | call op next ih =>
      obtain ⟨⟨permitted, over_⟩, rest⟩ := h
      have same (s' : Stack) (member : s' ∈ sentOver op) : s' = s :=
        Option.some.inj (over_ s' member)
      refine (Monitor.keeping_call _ _ _).mpr ⟨⟨permitted, fun s' member => ?_⟩, fun r => ?_⟩
      · rw [same s' member]
        exact alone
      · refine ih r (rest r) fun s' member => ?_
        rcases List.mem_append.mp member with before | now
        · exact alone s' before
        · exact same s' (Option.mem_toList.mp now)

theorem alone_nil (s : Stack) : ∀ s' ∈ ([] : List Stack), s' = s := List.forall_mem_nil _

abbrev Follows (S : Type) (t : Transport) (c : Call) (p : Script S Outcome) : Prop :=
  (watching S t c.parts.uri c.requireVersion).wp p (fun _ _ => True) []

theorem overQuic_wp (may : MayQuic t c) (direct : (egressOf t c.parts.uri).via = none)
    {fallback : Bool} (back : fallback = true → c.requireVersion = none)
    (origin : Option AltSvc.Origin) : Follows S t c (overQuic t turns c fallback origin) := by
  refine (Monitor.keeping_call _ _ _).mpr
    ⟨⟨⟨trivial, trivial⟩, fun s same => by cases same⟩, fun began => ?_⟩
  split
  · trivial
  next arm _ =>
    refine Monitor.wp_seq _ (unsent_wp (connectQuic_within may direct arm)) ?_
    rintro sent r ⟨rfl, -⟩
    cases r with
    | ok staged => exact sends_wp (exchangeStaged_within may staged) (alone_nil _)
    | error e =>
        exact sends_wp (quicRefused_within (fun falls => undemanded_ne (back falls)) origin began e)
          (alone_nil _)

theorem overQuicVia_wp (may : MayQuic t c) {via : Text}
    (filtered : (egressOf t c.parts.uri).via = some via) {fallback : Bool}
    (back : fallback = true → c.requireVersion = none) (origin : Option AltSvc.Origin) :
    Follows S t c (overQuicVia t turns c via fallback origin) := by
  refine (Monitor.keeping_call _ _ _).mpr
    ⟨⟨⟨trivial, trivial⟩, fun s same => by cases same⟩, fun began => ?_⟩
  split
  · trivial
  next arm _ =>
    refine Monitor.wp_seq _ (unsent_wp (stageVia_within may filtered arm began)) ?_
    rintro sent r ⟨rfl, -⟩
    cases r with
    | staged staged => exact sends_wp (exchangeStaged_within may staged) (alone_nil _)
    | final e => trivial
    | switch e =>
        exact sends_wp (quicRefused_within (fun falls => undemanded_ne (back falls)) origin began e)
          (alone_nil _)

theorem serveQuic_wp (may : MayQuic t c) (direct : (egressOf t c.parts.uri).via = none)
    {fallback : Bool} (back : fallback = true → c.requireVersion = none)
    (origin : Option AltSvc.Origin) : Follows S t c (serveQuic t turns c fallback origin) := by
  unfold serveQuic
  split
  · exact overQuic_wp may direct back origin
  next headStart hedged =>
    have streamed := undemanded_ne (back (Option.filter_eq_some_iff.mp hedged).2)
    refine Monitor.wp_seq _ (unsent_wp (raceConnects_within may direct streamed origin headStart)) ?_
    rintro sent r ⟨rfl, left⟩
    rcases r with _ | ⟨raced, c'⟩
    · trivial
    · obtain ⟨timeouts, rfl⟩ := left raced c' rfl
      cases raced with
      | quic =>
          exact overQuic_wp (c := { c with timeouts := timeouts }) ⟨may.arm, may.demand⟩ direct back
            origin
      | tcp => exact sends_wp (run_within (c := { c with timeouts := timeouts }) streamed) (alone_nil _)
      | failed e => trivial

theorem execute_wp (t : Transport) (turns : Nat) (c : Call) : Follows S t c (execute t turns c) := by
  refine Monitor.wp_seq _ (unsent_wp (route_within t turns c)) ?_
  rintro sent r ⟨rfl, routed⟩
  cases r with
  | none => trivial
  | some r =>
      have routed := routed r rfl
      have followed : Follows S t c (follow t turns c (altSvcOrigin c.parts.uri) r) := by
        cases r with
        | refuse e => trivial
        | tcp found => exact sends_wp (run_within routed) (alone_nil _)
        | quic fallback => exact serveQuic_wp routed.1 routed.2.1 routed.2.2 _
        | quicVia via fallback => exact overQuicVia_wp routed.1 routed.2.1 routed.2.2 _
      refine Monitor.wp_seq _ followed fun sent answer _ => ?_
      have noted : (noteAnswer (altSvcOrigin c.parts.uri) answer : Script S _).Within
          (Sends t c.parts.uri c.requireVersion none) fun _ => True := by
        unfold noteAnswer
        split
        · exact ⟨Idle.sends trivial, fun now => (altSvc_within _).bind fun _ _ => trivial⟩
        · trivial
      exact Monitor.wp_mono _ (unsent_wp noted) fun _ _ _ => trivial

theorem execute_sends {record : List (Event S)} {q : Script S Outcome}
    (run : (execute t turns c).Steps record q) :
    ∀ e ∈ record, Confined t c.parts.uri e.op ∧ Demanded t c.requireVersion e.op := by
  intro e member
  obtain ⟨before, later, same⟩ := List.append_of_mem member
  exact ((Monitor.keeping_steps run (execute_wp t turns c)).1 before e later same).1

theorem after_eq (record : List (Event S)) :
    (watching S t uri demand).after sent record =
      sent ++ record.filterMap fun e => sentOver e.op := by
  induction record generalizing sent with
  | nil => exact (List.append_nil sent).symm
  | cons e record ih =>
      rw [Monitor.after, ih, List.filterMap_cons]
      change (sent ++ (sentOver e.op).toList) ++ _ = _
      rw [List.append_assoc]
      cases sentOver e.op <;> rfl

end

/-! ## A request's ways -/

/-- A transport with both its stacks, whose TCP goes through this filter if there is one. -/
def bothStacks (external : Option (HClient.Egress.Target → HClient.Egress.Decision)) :
    Transport where
  tcp := { Tcp.plain with external := external }
  h3 := some ⟨0, fun _ => none, false⟩
  versionH3 := true
  hedge := none
  rulesPath := false
  appliesEch := false

def getExample (demand : Option HttpVersion) : Call where
  parts := ⟨.get, ⟨some .https, some ⟨none, "example.com".toList, none⟩, some ⟨['/'], none⟩⟩, []⟩
  version := .http11
  body := .empty
  sizeHint := ⟨0, some 0⟩
  ended := true
  allowEarlyData := false
  identity := none
  requireVersion := demand
  timeouts := ⟨none, none, none, none⟩

/-- A network whose QUIC is blocked. An origin is known to speak HTTP/3 by its advertisement; it
speaks HTTP/1.1 over TCP. -/
def quicBlocked (pooled : Option (Established (Conn Unit))) (op : Op Unit) (s : Unit) :
    op.Answer × Unit :=
  match op with
  | .now => ((0 : Duration), s)
  | .systemNow => (SystemTime.unixEpoch, s)
  | .supportsHttps => (false, s)
  | .records _ => ([], s)
  | .altSvc (.getMany _ _) => ([[Hsts.toLeBytes 8 60]], s)
  | .altSvc (.put _ _ _ _) => ((), s)
  | .altSvc (.remove _ _) => ((), s)
  | .altSvc (.clear _) => ((), s)
  | .suppressed _ _ => (false, s)
  | .note _ _ => ((), s)
  | .externalPath _ _ => (.opened, s)
  | .rulesPath _ _ => (.opened, s)
  | .sleep _ => ((), s)
  | .first => (true, s)
  | .bound _ => ((), s)
  | .boundSpent => (false, s)
  | .h3 (.resolve _ _) => (.ok (), s)
  | .h3 (.checkout _) => (none, s)
  | .h3 .endpointOver => (.ok (), s)
  | .h3 (.setUp _) => (.ok (), s)
  | .h3 (.connectWith _ _) => (.ok (), s)
  | .h3 .into0rtt => (none, s)
  | .h3 .handshake => (.error (.new (.timeout .connect) (.allAttemptsFailed 1)), s)
  | .h3 (.buildH3 _) => (.ok (), s)
  | .h3 (.insert _ _) => ((), s)
  | .h3 (.sendHead _ _ _) => (.opened none, s)
  | .h3 (.sendData _ _) => (.stopped, s)
  | .h3 (.finishStream _) => (.stopped, s)
  | .h3 (.recvResponse _) => (.ok ⟨200, .http3, []⟩, s)
  | .h3 (.verdict _) => (true, s)
  | .tcp .elapsed => ((0 : Duration), s)
  | .tcp (.beginConnect _) => (true, s)
  | .tcp (.waitForConnect _ budget) => (.ok budget, s)
  | .tcp (.finishConnect _) => ((), s)
  | .tcp (.take _ _) => (pooled, s)
  | .tcp (.isReusable _) => (true, s)
  | .tcp (.forgetShared _ _) => ((), s)
  | .tcp (.stale _) => ((), s)
  | .tcp (.reused _ _) => ((), s)
  | .tcp (.connect _ _ _ _) => (.error (.new .connect (.allAttemptsFailed 0)), s)
  | .tcp (.connected _ _) => ((), s)
  | .tcp (.handshake _ _) => (.ok (), s)
  | .tcp (.share _) => ((0 : Nat), s)
  | .tcp (.put _ _ _) => ((), s)
  | .tcp (.exchange _) => (.answered ⟨200, .http11, []⟩, s)
  | .connector (.openExternal _) => (.ok (), s)
  | .connector (.openRules _) => (.ok (), s)
  | .connector (.lookup _) => ((), s)
  | .connector (.pollStream _) => (.ready none, s)
  | .connector (.suppressed _ _) => (false, s)
  | .connector .supportsHttps => (false, s)
  | .connector .pollRecords => (.ready none, s)
  | .connector (.record _ _) => ((), s)
  | .connector (.sleepFor _) => ((), s)
  | .connector .pollBound => (.pending, s)
  | .connector .pending => ((), s)
  | .connector (.race .elapsed) => ((0 : Nat), s)
  | .connector (.race (.connect _)) => ((), s)
  | .connector (.race (.sleep _)) => ((), s)
  | .connector (.race (.pollNext _)) => (.ready none, s)
  | .connector (.race (.pollAttempts _)) => (.pending, s)
  | .connector (.race .pollSleep) => (.pending, s)
  | .connector (.race .pending) => ((), s)
  | .connector (.tls _ _) => (.ok ⟨none⟩, s)

/-- A filter that carries everything, and lends no datagram path. -/
def carrying : HClient.Egress.Target → HClient.Egress.Decision :=
  fun _ => .filtered ⟨⟨true, false⟩, "mesh".toList, .origin⟩

/-- The target that a filter is asked to open, if it is. -/
def opens : Op S → Option HClient.Egress.Target
  | .connector (.openExternal target) => some target
  | _ => none

/-- Whatever it is answered, a request whose target a filter carries asks for no address and no
record of its origin, has its own target opened by that filter alone, over either stack, and shares
connections only under the filter's key; and one that no filter carries asks nothing of any. -/
theorem execute_confined (t : Transport) (turns : Nat) (c : Call) {record : List (Event S)}
    {q : Script S Outcome} (run : (execute t turns c).Steps record q) :
    ∀ e ∈ record, Confined t c.parts.uri e.op := by
  intro e member
  exact (execute_sends run e member).1

/-- A filtered request's one opening goes to the filter. -/
theorem execute_confined_filtered : ∃ record : List (Event Unit),
    (record.filterMap fun e => opens e.op) = [⟨"example.com".toList, 443, true⟩] ∧
      ∀ e ∈ record, Confined (bothStacks (some carrying)) (getExample none).parts.uri e.op :=
  ⟨_, rfl, execute_confined (bothStacks (some carrying)) 2 (getExample none)
    (Program.steps_log (quicBlocked none)
      (execute (bothStacks (some carrying)) 2 (getExample none)) ())⟩

/-- Whatever it is answered, a request that demands HTTP/3 is not taken over TCP, not by its hedge
and not where QUIC failed, and one that demands another version is not taken over QUIC. -/
theorem execute_demanded (t : Transport) (turns : Nat) (c : Call) {record : List (Event S)}
    {q : Script S Outcome} (run : (execute t turns c).Steps record q) :
    ∀ e ∈ record, Demanded t c.requireVersion e.op := by
  intro e member
  exact (execute_sends run e member).2

/-- Where QUIC is blocked, a request that demands HTTP/3 fails. -/
theorem execute_demanded_blocked : ∃ record : List (Event Unit),
    record.length = 8 ∧ ∀ e ∈ record, Demanded (bothStacks none) (some .http3) e.op :=
  ⟨_, rfl, execute_demanded (bothStacks none) 2 (getExample (some .http3))
    (Program.steps_log (quicBlocked none)
      (execute (bothStacks none) 2 (getExample (some .http3))) ())⟩

/-- What holds of each element and those before it holds of any two, if it is symmetric. -/
theorem related_of_split {ε : Type} {R : ε → ε → Prop} (refl : ∀ x, R x x)
    (symm : ∀ x y, R x y → R y x) {l : List ε}
    (related : ∀ before e rest, l = before ++ e :: rest → ∀ x ∈ before, R x e) :
    ∀ a ∈ l, ∀ b ∈ l, R a b := by
  induction l using List.reverseRecOn with
  | nil => exact List.forall_mem_nil _
  | append_singleton l e ih =>
      have earlier := ih fun before x rest same =>
        related before x (rest ++ [e]) (by rw [same, List.append_assoc]; rfl)
      have last := related l e [] rfl
      intro a of_a b of_b
      rcases List.mem_append.mp of_a with in_a | is_a <;>
        rcases List.mem_append.mp of_b with in_b | is_b
      · exact earlier a in_a b in_b
      · rw [List.mem_singleton.mp is_b]
        exact last a in_a
      · rw [List.mem_singleton.mp is_a]
        exact symm _ _ (last b in_b)
      · rw [List.mem_singleton.mp is_a, List.mem_singleton.mp is_b]
        exact refl e

/-- A request is sent over one of the two stacks at most. -/
theorem execute_one_stack (t : Transport) (turns : Nat) (c : Call) {record : List (Event S)}
    {q : Script S Outcome} (run : (execute t turns c).Steps record q) :
    ∀ a ∈ record, ∀ b ∈ record, ∀ s ∈ sentOver a.op, ∀ s' ∈ sentOver b.op, s = s' := by
  have calls := (Monitor.keeping_steps run (execute_wp t turns c)).1
  refine related_of_split
    (R := fun a b : Event S => ∀ s ∈ sentOver a.op, ∀ s' ∈ sentOver b.op, s = s') ?_ ?_ ?_
  · intro e s over_ s' over_'
    exact Option.mem_unique over_ over_'
  · intro a b same s over_ s' over_'
    exact (same s' over_' s over_).symm
  · intro before e rest split x member s over_ s' over_'
    refine (calls before e rest split).2 s' over_' s ?_
    rw [after_eq]
    exact List.mem_filterMap.mpr ⟨x, member, over_⟩

/-- Where QUIC is blocked, a request that demands no version goes over TCP. -/
theorem execute_one_stack_blocked : ∃ record : List (Event Unit),
    (record.filterMap fun e => sentOver e.op) = [.tcp] ∧
      ∀ a ∈ record, ∀ b ∈ record, ∀ s ∈ sentOver a.op, ∀ s' ∈ sentOver b.op, s = s' :=
  ⟨_, rfl, execute_one_stack (bothStacks none) 2 (getExample none)
    (Program.steps_log (quicBlocked (some (.h1 ⟨(), none⟩)))
      (execute (bothStacks none) 2 (getExample none)) ())⟩

end Routing
end HClient.Native
