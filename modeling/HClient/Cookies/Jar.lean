import HClient.Core.Header
import HClient.Cookies.Store
import HClient.Effect.Program

/-!
# The cookie jar

`cookie::jar`: what RFC 6265bis decides about one `Set-Cookie` (`prepare`), and the jar's
operations as programs over the calls of its store. The public suffix list is a parameter.
-/
namespace HClient.Cookies

open Effect

structure PublicSuffixList where
  isPublicSuffix : Text → Bool
  hasList : Bool

inductive Rejected where
  | malformed (e : ParseError)
  | noHost
  | domainMismatch (domain host : Text)
  | domainIsPublicSuffix (domain : Text)
  | noPublicSuffixList (domain : Text)
  | secureOverInsecure
  | securePrefix
  | hostPrefix
  | tooLarge (bytes limit : Nat)
  | emptyDomain
  | relativePath (path : Text)
  | ipDomainNotHostOnly (domain : Text)
  deriving DecidableEq, Repr

structure Limits where
  maxNameValueBytes : Nat
  deriving DecidableEq, Repr

def Limits.default : Limits := ⟨4096⟩

/-- `str::len`. -/
def byteLen (s : Text) : Nat := (s.map fun c => c.utf8Size).sum

def maxExpiry : Duration := .fromHours 9600

def earlier (a b : SystemTime) : SystemTime := if b < a then b else a

/-- `Max-Age` beats `Expires`, and both are capped. -/
def expiry (parsed : SetCookie) (now : SystemTime) : Option SystemTime × Bool :=
  let cap := now.checkedAdd maxExpiry
  match parsed.maxAge, parsed.expires with
  | some seconds, _ =>
      if seconds ≤ 0 then (some .unixEpoch, true)
      else
        match now.checkedAdd (.fromSecs seconds.toNat), cap with
        | some requested, some cap => (some (earlier requested cap), true)
        | none, some cap => (some cap, true)
        | requested, none => (some (requested.getD now), true)
  | none, some seconds =>
      match cap with
      | some cap => (some (earlier (SystemTime.fromUnix seconds) cap), true)
      | none => (some (SystemTime.fromUnix seconds), true)
  | none, none => (none, false)

/-- A jar's configuration; what it holds is behind its store's calls. -/
structure CookieJar where
  limits : Limits
  suffixes : PublicSuffixList

namespace CookieJar
variable (jar : CookieJar)

/-- The domain a cookie is scoped to, and whether it goes to that host only. -/
def scopeDomain (host : Text) (domain : Option Text) : Except Rejected (Text × Bool) :=
  match domain with
  | none => .ok (host, true)
  | some domain =>
      if isIpLiteral host then
        if domain = host then .ok (host, true) else .error (.domainMismatch domain host)
      else if jar.suffixes.isPublicSuffix domain then
        -- the one rescue: the request host itself becomes a host-only cookie
        if domain = host then .ok (host, true)
        else if jar.suffixes.hasList then .error (.domainIsPublicSuffix domain)
        else .error (.noPublicSuffixList domain)
      else if domainMatches host domain then .ok (domain, false)
      else .error (.domainMismatch domain host)

def hasNamePrefix (start : String) (name : Text) : Bool :=
  start.toList.isPrefixOf name.toAsciiLowercase

/-- Everything that is decided about one `Set-Cookie` with the store untouched. -/
def prepare (uri : Uri) (setCookie : HeaderValue) (now : SystemTime) : Except Rejected Cookie :=
  match canonicalHost uri with
  | none => .error .noHost
  | some host =>
    match SetCookie.parse setCookie with
    | .error e => .error (.malformed e)
    | .ok parsed =>
      let bytes := byteLen parsed.name + byteLen parsed.value
      if jar.limits.maxNameValueBytes < bytes then
        .error (.tooLarge bytes jar.limits.maxNameValueBytes)
      else
        match jar.scopeDomain host parsed.domain with
        | .error e => .error e
        | .ok (domain, hostOnly) =>
          let path := parsed.path.getD (defaultPath (requestPath uri))
          let secureRequest := isSecureRequest uri
          if parsed.secure && !secureRequest then .error .secureOverInsecure
          else if hasNamePrefix "__secure-" parsed.name && !(parsed.secure && secureRequest) then
            .error .securePrefix
          else if hasNamePrefix "__host-" parsed.name &&
              !(parsed.secure && secureRequest && hostOnly && path = ['/']) then
            .error .hostPrefix
          else
            let (expires, persistent) := expiry parsed now
            .ok {
              name := parsed.name
              value := parsed.value
              domain
              path
              expires
              creation := now
              lastAccess := now
              seq := 0
              hostOnly
              persistent
              secure := parsed.secure
              httpOnly := parsed.httpOnly
              sameSite := parsed.sameSite }

abbrev Script := Program StoreCall StoreCall.Answer

def ask (op : StoreCall) : Script op.Answer := Program.perform op

/-- A `Set-Cookie` keeps the creation time and the place of the cookie it replaces; a new
cookie draws its place from the counter. -/
def resolve (held : List Cookie) (cookie : Cookie) : Script Cookie :=
  match held.find? fun c => CookieKey.of c = CookieKey.of cookie with
  | some old => pure { cookie with creation := old.creation, seq := old.seq }
  | none => (ask .nextSeq).bind fun (seq : Nat) => pure { cookie with seq }

def insert (cookie : Cookie) (now : SystemTime) : Script Unit :=
  (ask (.get [cookie.domain])).bind fun (held : List Cookie) =>
    (resolve held cookie).bind fun cookie => ask (.put cookie now)

def store (uri : Uri) (setCookie : HeaderValue) (now : SystemTime) :
    Script (Except Rejected Unit) :=
  match jar.prepare uri setCookie now with
  | .error e => pure (.error e)
  | .ok cookie => (insert cookie now).bind fun _ => pure (.ok ())

def setCookieName : HeaderName := "set-cookie".toList

/-- The cookies of a response that are not refused. -/
def arriving (uri : Uri) (headers : HeaderMap HeaderValue) (now : SystemTime) : List Cookie :=
  (headers.getAll setCookieName).filterMap fun v => (jar.prepare uri v now).toOption

/-- The loop of `store_response`: what this response has placed is looked up before what the
store answered. -/
def place (held : List Cookie) (now : SystemTime) : List Cookie → List Cookie → Script Unit
  | _, [] => pure ()
  | placed, cookie :: rest =>
      (resolve (placed ++ held) cookie).bind fun cookie =>
        (ask (.put cookie now)).bind fun _ =>
          place held now (placed ++ [cookie]) rest

/-- `sort` and `dedup`; the order is that of the characters. -/
def sortedDomains (cookies : List Cookie) : List Text :=
  ((cookies.map Cookie.domain).mergeSort fun a b => decide (a ≤ b)).dedup

def storeResponse (uri : Uri) (headers : HeaderMap HeaderValue) (now : SystemTime) : Script Nat :=
  let arriving := jar.arriving uri headers now
  if arriving = [] then pure 0
  else
    (ask (.get (sortedDomains arriving))).bind fun (held : List Cookie) =>
      (place held now [] arriving).bind fun _ => pure arriving.length

/-- The filter of `matching`. -/
def applies (host path : Text) (secure : Bool) (now : SystemTime) (c : Cookie) : Bool :=
  !c.isExpired now && (if c.hostOnly then host = c.domain else domainMatches host c.domain) &&
    pathMatches path c.path && (!c.secure || secure)

/-- Longer paths first, then earlier creation, then insertion order. -/
def goesBefore (a b : Cookie) : Bool :=
  byteLen b.path < byteLen a.path ∨
    (byteLen a.path = byteLen b.path ∧
      (a.creation < b.creation ∨ (a.creation = b.creation ∧ a.seq ≤ b.seq)))

def matching (uri : Uri) (now : SystemTime) : Script (List Cookie) :=
  match canonicalHost uri with
  | none => pure []
  | some host =>
      (ask (.get (candidateDomains host))).bind fun (held : List Cookie) =>
        pure ((held.filter (applies host (requestPath uri) (isSecureRequest uri) now)).mergeSort
          goesBefore)

def utf8Bytes (s : Text) : List UInt8 := s.flatMap String.utf8EncodeChar

def headerBytes (cookies : List Cookie) : List UInt8 :=
  List.intercalate [59, 32] (cookies.map fun c => utf8Bytes c.name ++ 61 :: utf8Bytes c.value)

/-- `HeaderValue::from_bytes`: no control character but the tab. -/
def headerValueOf (bytes : List UInt8) : Option HeaderValue :=
  if bytes.all fun b => (32 ≤ b ∧ b ≠ 127) ∨ b = 9 then some bytes else none

def cookieHeader (uri : Uri) (now : SystemTime) : Script (Option HeaderValue) :=
  (matching uri now).bind fun matched =>
    if matched = [] then pure none
    else
      (ask (.touch (matched.map CookieKey.of) now)).bind fun _ =>
        pure (headerValueOf (headerBytes matched))

end CookieJar
end HClient.Cookies
