import HClient.Core.Header
import HClient.Core.Net

/-!
# The bypass dialect

The patterns that take a host past a proxy: a name, a domain, a name at one port, an address
and a subnet. One function says which patterns the dialect has, another what each matches.
-/
namespace HClient.Egress

inductive BypassReason where
  | wildcard
  | malformed
  deriving DecidableEq, Repr

def BypassReason.display : BypassReason → Text
  | .wildcard => "a wildcard that is not a leading `*.`".toList
  | .malformed => "in none of the forms a bypass accepts".toList

structure UnsupportedBypass where
  pattern : Text
  reason : BypassReason
  deriving DecidableEq, Repr

def UnsupportedBypass.display (u : UnsupportedBypass) : Text :=
  "`".toList ++ u.pattern ++ "` (".toList ++ u.reason.display ++ [')']

def octets : IpAddr → List Nat
  | .v4 octets => octets
  | .v6 groups => groups.flatMap fun g => [g / 256, g % 256]

/-- `Ipv6Addr::from_str`. -/
def isIpv6 (s : Text) : Bool := (IpAddr.readIpv6Addr s).any fun (_, rest) => rest == []

/-- An octet of the abbreviated form: digits, and no leading zero. -/
def prefixOctet (part : Text) : Option Nat :=
  if ¬ part.all Text.isAsciiDigit ∨ (1 < part.length ∧ part.head? = some '0') then none
  else Text.parseUnsigned 256 part

def parsePrefix (addr : Text) : Option IpAddr :=
  match IpAddr.parse addr with
  | some ip => some ip
  | none =>
      let parts : List Text := addr.splitOn '.'
      if addr.contains ':' ∨ 4 ≤ parts.length then none
      else (parts.mapM prefixOctet).map fun os => .v4 (os ++ List.replicate (4 - os.length) 0)

def digits (s : Text) : Bool := s ≠ [] ∧ s.all Text.isAsciiDigit

def portOk (port : Text) : Bool := digits port && (Text.parseUnsigned 65536 port).isSome

def subnetIsWellFormed (addr len : Text) : Bool :=
  match (if digits len then Text.parseUnsigned (2 ^ 32) len else none) with
  | none => false
  | some len =>
      match parsePrefix addr with
      | some (.v4 _) => len ≤ 32
      | some (.v6 _) => len ≤ 128
      | none => false

def hostPatternIsWellFormed (p : Text) : Bool :=
  if p = [] ∨ p.any fun c => Text.isAsciiWhitespace c || Text.isAsciiControl c ||
      c = '<' || c = '>' then false
  else
    match p with
    | '[' :: rest =>
        match Text.splitOnce ']' rest with
        | some (host, tail) =>
            isIpv6 host && (tail = [] || (Text.stripPrefix [':'] tail).any portOk)
        | none => false
    | p =>
        -- two colons make a bare v6 literal, which carries no port
        if 1 < p.count ':' then isIpv6 p
        else
          match Text.rsplitOnce ':' p with
          | some (host, port) => portOk port && nameOk host
          | none => nameOk p
where
  nameOk (host : Text) : Bool :=
    let name : Text := (Text.stripPrefix ['.'] host).getD host
    name ≠ [] ∧ ¬ name.contains '[' ∧ ¬ name.contains ']'

def normalizeBypass (pattern : Text) : Except BypassReason Text :=
  let p := Text.toAsciiLowercase pattern
  let p : Text := match Text.stripPrefix ['*', '.'] p with
    | some rest => '.' :: rest
    | none => p
  if p.contains '*' then .error .wildcard
  else
    let wellFormed := match Text.splitOnce '/' p with
      | some (addr, len) => subnetIsWellFormed addr len
      | none => hostPatternIsWellFormed p
    if wellFormed then .ok p else .error .malformed

def samePrefix (net host : List Nat) (len : Nat) : Bool :=
  let whole := len / 8
  let bits := len % 8
  if net.take whole ≠ host.take whole then false
  else if bits = 0 then true
  else
    let mask := 255 <<< (8 - bits) % 256
    net.getD whole 0 &&& mask == host.getD whole 0 &&& mask

def matchesSubnet (pattern host : Text) : Bool :=
  match Text.splitOnce '/' pattern with
  | none => false
  | some (addr, len) =>
      match Text.parseUnsigned (2 ^ 32) len with
      | none => false
      | some len =>
          let host := Text.trimEndMatches ']' (Text.trimStartMatches '[' host)
          match parsePrefix addr, IpAddr.parse host with
          | some (.v4 net), some (.v4 h) => len ≤ 32 && samePrefix net h len
          | some (.v6 net), some (.v6 h) =>
              len ≤ 128 && samePrefix (octets (.v6 net)) (octets (.v6 h)) len
          | _, _ => false

def splitPattern (pattern : Text) : Text × Option Nat :=
  match pattern with
  | '[' :: rest =>
      match Text.splitOnce ']' rest with
      | some (h, []) => (h, none)
      | some (h, tail) => (h, (Text.stripPrefix [':'] tail).bind (Text.parseUnsigned 65536))
      | none => (pattern, none)
  | pattern =>
      if 1 < pattern.count ':' then (pattern, none)
      else
        match Text.rsplitOnce ':' pattern with
        | some (h, p) =>
            match Text.parseUnsigned 65536 p with
            | some port => (h, some port)
            | none => (pattern, none)
        | none => (pattern, none)

def hostMatches (pattern host : Text) : Bool :=
  match Text.stripPrefix ['.'] pattern with
  | some domain => host = domain || pattern.isSuffixOf host
  | none => host = pattern

def matchesBypass (pattern host : Text) (port : Nat) : Bool :=
  let host := Text.toAsciiLowercase host
  if pattern.contains '/' then matchesSubnet pattern host
  else
    match splitPattern pattern with
    | (pHost, some want) => want = port && hostMatches pHost host
    | (pHost, none) => hostMatches pHost host

example : matchesBypass "192.168.4.0/22".toList "192.168.7.9".toList 80 = true ∧
    matchesBypass "192.168.4.0/22".toList "192.168.8.1".toList 80 = false := by decide +kernel
example : matchesBypass "169.254/16".toList "169.254.1.1".toList 80 = true := by decide +kernel

end HClient.Egress

/-!
## Proxy rules

A list of proxies asked in order. A target goes through the first one that serves it, and
directly when the list runs out.
-/
namespace HClient.Egress

inductive ProxyScheme where
  | http
  | https
  deriving DecidableEq, Repr

inductive IpcAddr where
  | unix (path : Text)
  deriving DecidableEq, Repr

inductive Reach where
  | tcp (host : Text) (port : Nat)
  | ipc (addr : IpcAddr)
  deriving DecidableEq, Repr

structure Target where
  host : Text
  port : Nat
  useTls : Bool
  deriving DecidableEq, Repr

def Target.scheme (t : Target) : ProxyScheme := if t.useTls then .https else .http

/-- The target's host out of the brackets a literal wears. -/
def Target.name (t : Target) : Text :=
  Text.trimEndMatches ']' (Text.trimStartMatches '[' t.host)

inductive Approach where
  | tunnel
  | absolute
  deriving DecidableEq, Repr

/-- The answers a protocol gives before a connection is opened. -/
structure Handshake where
  approach : Bool → Approach
  proxyAuthorization : Option HeaderValue
  associates : Bool

structure Proxy (P : Type) where
  protocol : P
  reach : Reach
  bypass : List Text
  bypassLocal : Bool
  only : Option ProxyScheme
  tls : Bool
  deriving DecidableEq

namespace Proxy
variable {P Q : Type}

def new (protocol : P) (host : Text) (port : Nat) : Proxy P :=
  ⟨protocol, .tcp host port, [], false, none, false⟩

def mapProtocol (f : P → Q) (p : Proxy P) : Proxy Q :=
  ⟨f p.protocol, p.reach, p.bypass, p.bypassLocal, p.only, p.tls⟩

def serves (p : Proxy P) (t : Target) : Bool :=
  if p.only.any (· ≠ t.scheme) then false
  else if p.bypassLocal ∧ ¬ t.name.contains '.' then false
  else ¬ p.bypass.any fun pattern => matchesBypass pattern t.name t.port

end Proxy

inductive RequestForm where
  | origin
  | absolute (proxyAuthorization : Option HeaderValue)
  deriving DecidableEq, Repr

structure FilterSupport where
  stream : Bool
  datagrams : Bool
  deriving DecidableEq, Repr

structure Route where
  support : FilterSupport
  poolKey : Text
  form : RequestForm
  deriving DecidableEq, Repr

inductive Decision where
  | direct
  | filtered (route : Route)
  deriving DecidableEq, Repr

inductive Rule where
  | proxy (p : Proxy Handshake) (key : Text) (udp : Bool)
  | unix (addr : IpcAddr) (key : Text)

def ipcKey : IpcAddr → Text
  | .unix path => "unix:".toList ++ path

namespace Rule

def serves (t : Target) : Rule → Bool
  | .proxy p _ _ => p.serves t
  | .unix _ _ => true

/-- The rule `Rules::push` appends. -/
def ofProxy (p : Proxy Handshake) : Rule :=
  let key := match p.reach with
    | .tcp host port =>
        (if p.tls then "tls:".toList else []) ++ host ++ ':' :: (toString port).toList
    | .ipc addr => ipcKey addr
  let udp := match p.reach with
    | .tcp _ _ => p.protocol.associates
    | .ipc _ => false
  .proxy p key udp

def route (t : Target) : Rule → Route
  | .unix _ key => ⟨⟨true, false⟩, key, .origin⟩
  | .proxy p key udp =>
      let form := match p.protocol.approach t.useTls with
        | .absolute => .absolute p.protocol.proxyAuthorization
        | .tunnel => .origin
      ⟨⟨true, udp⟩, key, form⟩

end Rule

structure Rules where
  rules : List Rule

namespace Rules

def new : Rules := ⟨[]⟩

def push (list : Rules) (p : Proxy Handshake) : Rules := ⟨list.rules ++ [Rule.ofProxy p]⟩

def first (list : Rules) (t : Target) : Option Rule := list.rules.find? (Rule.serves t)

def route (list : Rules) (t : Target) : Decision :=
  match list.first t with
  | none => .direct
  | some rule => .filtered (rule.route t)

theorem route_eq_direct {list : Rules} {t : Target} :
    list.route t = .direct ↔ list.first t = none := by
  unfold route
  cases list.first t <;> simp

theorem rules_foldl_push (ps : List (Proxy Handshake)) (list : Rules) :
    (ps.foldl push list).rules = list.rules ++ ps.map Rule.ofProxy := by
  induction ps generalizing list with
  | nil => exact (List.append_nil _).symm
  | cons p ps ih =>
      rw [List.foldl_cons, ih]
      simp [push]

theorem first_pushed (ps : List (Proxy Handshake)) (t : Target) :
    (ps.foldl push new).first t = (ps.find? fun p => p.serves t).map Rule.ofProxy := by
  rw [first, rules_foldl_push, new, List.nil_append, List.find?_map]
  rfl

end Rules

/-- The protocol the machine's own settings are installed with. -/
structure HttpConnect where
  auth : Option HeaderValue
  deriving DecidableEq, Repr

namespace HttpConnect

def new : HttpConnect := ⟨none⟩

/-- A colon in the username cannot be told from the separator, so it is refused. -/
def basicAuth (user password : Text) : Option HttpConnect :=
  if user.contains ':' then none
  else
    some ⟨some (Bytes.ascii "Basic " ++
      Bytes.base64 ((user ++ ':' :: password).flatMap String.utf8EncodeChar))⟩

def handshake (h : HttpConnect) : Handshake where
  approach := fun useTls => if useTls then .tunnel else .absolute
  proxyAuthorization := h.auth
  associates := false

end HttpConnect
end HClient.Egress
