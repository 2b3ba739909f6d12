import HClient.Core.Header
import HClient.Core.Net

/-!
# Methods, versions and responses

What the client reads of the `http` crate's types besides URIs and fields.
-/
namespace HClient

inductive Method where
  | get
  | head
  | post
  | put
  | delete
  | options
  | trace
  | connect
  | patch
  | extension (name : Text)
  deriving DecidableEq, Repr

inductive HttpVersion where
  | http09
  | http10
  | http11
  | http2
  | http3
  deriving DecidableEq, Repr

abbrev StatusCode := Nat

def StatusCode.isClientError (s : StatusCode) : Bool := 400 ≤ s ∧ s < 500

def StatusCode.isServerError (s : StatusCode) : Bool := 500 ≤ s ∧ s < 600

/-- A response's head. -/
structure ResponseParts where
  status : StatusCode
  version : HttpVersion
  headers : HeaderMap HeaderValue
  deriving DecidableEq, Repr

end HClient

/-!
## URIs

What the client reads of an `http::Uri`. A scheme is one of the two HTTP names or another;
a host keeps the brackets of an IPv6 literal, and a port is there only when it was written.
-/
namespace HClient

inductive Scheme where
  | http
  | https
  | other (name : Text)
  deriving DecidableEq, Repr

structure Authority where
  userinfo : Option Text
  host : Text
  port : Option Nat
  deriving DecidableEq, Repr

structure PathAndQuery where
  path : Text
  query : Option Text
  deriving DecidableEq, Repr

/-- `PathAndQuery::as_str`. -/
def PathAndQuery.asStr (p : PathAndQuery) : Text :=
  match p.query with
  | some query => p.path ++ '?' :: query
  | none => if p.path = [] then ['/'] else p.path

def Scheme.asStr : Scheme → Text
  | .http => "http".toList
  | .https => "https".toList
  | .other name => name

structure Uri where
  scheme : Option Scheme
  authority : Option Authority
  pathAndQuery : Option PathAndQuery
  deriving DecidableEq, Repr

namespace Uri

def host (u : Uri) : Option Text := u.authority.map Authority.host

def port (u : Uri) : Option Nat := u.authority.bind Authority.port

/-- `Uri::path`: an absolute URI with no path written after the authority has the path `/`. -/
def path (u : Uri) : Text :=
  match u.pathAndQuery with
  | some p => if p.path = [] then ['/'] else p.path
  | none => if u.scheme.isSome then ['/'] else []

end Uri

/-- `hclient_core::url::bare_host`: the host with an IPv6 literal's brackets removed. -/
def bareHost (host : Text) : Text :=
  ((Text.stripPrefix ['['] host).bind (Text.stripSuffix [']'])).getD host

example : bareHost "[2001:db8::1]".toList = "2001:db8::1".toList ∧
    bareHost "[::1".toList = "[::1".toList := by decide

end HClient
