import HClient.Sansio.HttpUri

/-!
# A string becomes a URI

`uri::parse`: the host through UTS 46, the rest percent-encoded, and then `http::Uri`, which finds
the pieces of the text again by itself. The two find the same host, or one of the pieces is given
the other's conversion. UTS 46 and `http::Uri` are values with what is documented of them.
-/
namespace HClient.Sansio
open HClient.Text HttpUri

/-- `hclient_idn::IdnError`. -/
inductive IdnError where
  | noImplementation (domain : Text)
  | notAnIdn (domain : Text)
  deriving DecidableEq, Repr

inductive UriError where
  | unusableBase (base : Text)
  | nonAsciiHost (host : Text)
  | notAnIdn (host : Text)
  | notAUri (uri source : Text)
  deriving DecidableEq, Repr

/-- An implementation of UTS 46. An A-label is ASCII, and the name's own colons and brackets, which
the mapping leaves alone, are copied into it. -/
structure Uts46 where
  toAscii : Text → Option Text
  ascii : ∀ {domain out}, toAscii domain = some out → out.isAscii = true
  copies : ∀ {domain out c}, toAscii domain = some out → c ∈ [':', '[', ']'] → c ∈ domain → c ∈ out

def isForbiddenDomainByte (c : Char) : Bool :=
  c.toNat ≤ 0x20 || c.toNat = 0x7F ||
    ['%', '#', '/', ':', '<', '>', '?', '@', '[', '\\', ']', '^', '|'].contains c

def probes : List (Text × Text) :=
  [("straße.de".toList, "xn--strae-oqa.de".toList), ("faß.de".toList, "xn--fa-hia.de".toList)]

def accepts (convert : Text → Option Text) : Bool :=
  probes.all fun probe => convert probe.1 == some probe.2

/-- The implementation that a platform finds, if it passes the probes. -/
def selected (find : Option Uts46) : Option Uts46 :=
  find.filter fun handle => accepts handle.toAscii

def domainToAscii (find : Option Uts46) (domain : Text) : Except IdnError Text :=
  match selected find with
  | none => .error (.noImplementation domain)
  | some handle =>
      match handle.toAscii domain with
      | none => .error (.notAnIdn domain)
      | some ascii =>
          if ascii.any isForbiddenDomainByte then .error (.notAnIdn domain) else .ok ascii

/-- The `idn` feature of a build: off, or on with what the platform has. -/
inductive Idn where
  | off
  | on (find : Option Uts46)

def idnError : IdnError → UriError
  | .noImplementation domain => .nonAsciiHost domain
  | .notAnIdn domain => .notAnIdn domain

def hostToAscii (host : Text) : Idn → Except UriError Text
  | .off => .error (.nonAsciiHost host)
  | .on find => (domainToAscii find host).mapError idnError

/-- `scheme_end`, by the scheme and what follows the colon. -/
def schemeEnd (s : Text) : Option (Text × Text) :=
  match upTo [':'] s, onward [':'] s with
  | c :: cs, _ :: rest => if c.isAlpha && cs.all isSchemeChar then some (c :: cs, rest) else none
  | _, _ => none

/-- `authority_range`, by what stands before the authority, the authority and what follows it. -/
def authorityRange (s : Text) : Option (Text × Text × Text) :=
  let (before, rest) := match schemeEnd s with
    | some (scheme, rest) => (scheme ++ [':'], rest)
    | none => ([], s)
  (stripPrefix ['/', '/'] rest).map fun rest =>
    (before ++ ['/', '/'], upTo authorityEnds rest, onward authorityEnds rest)

/-- `host_range`: the userinfo with its `@`, the host, and the port with its colon. -/
def hostRange (auth : Text) : Text × Text × Text :=
  let start := through ['@'] auth
  let hostport := behind ['@'] auth
  if ']' ∈ hostport then
    (start, through [']'] hostport ++ upTo [':'] (behind [']'] hostport),
      onward [':'] (behind [']'] hostport))
  else if ':' ∈ hostport then
    (start, (through [':'] hostport).dropLast, ':' :: behind [':'] hostport)
  else (start, hostport, [])

/-- The host that the two ranges locate, between what precedes it and what follows. -/
def locateHost (s : Text) : Option (Text × Text × Text) :=
  (authorityRange s).map fun (before, auth, after) =>
    let (start, host, port) := hostRange auth
    (before ++ start, host, port ++ after)

def toAscii (idn : Idn) (s : Text) : Except UriError (Option Text) :=
  if s.isAscii then .ok none
  else
    match locateHost s with
    | none => .ok (some (percentEncode s))
    | some (start, host, rest) =>
        if host.isAscii then .ok (some (percentEncode s))
        else (hostToAscii host idn).map fun ascii =>
          some (percentEncode start ++ ascii ++ percentEncode rest)

/-- What is documented of `http::Uri` as a parser: a URI that it reads has the pieces of the text,
and whether it reads a text depends on the pieces alone. -/
structure HttpParser where
  fromStr : Text → Except Text HttpUri
  reads : ∀ {s u}, fromStr s = .ok u → split s = some u
  uniform : ∀ {s t u}, fromStr s = .ok u → split t = some u → fromStr t = .ok u

def parseAscii (http : HttpParser) (s : Text) : Except UriError HttpUri :=
  (http.fromStr s).mapError (.notAUri s)

def parse (http : HttpParser) (idn : Idn) (s : Text) : Except UriError HttpUri := do
  match ← toAscii idn s with
  | some rewritten => parseAscii http rewritten
  | none => parseAscii http s

end HClient.Sansio
