import HClient.Core.Http

/-!
# Request heads

What is handed to the protocol below: the request to hyper, in origin-form or in absolute-form,
and the head to h2, from a connection of one's own or from a shared one.
-/
namespace HClient.Native

structure SizeHint where
  lower : Nat
  upper : Option Nat
  deriving DecidableEq, Repr

def SizeHint.exact (h : SizeHint) : Option Nat := if h.upper = some h.lower then h.upper else none

def SizeHint.withExact (n : Nat) : SizeHint := ⟨n, some n⟩

/-- A body before its first poll; of a stream, what it says of itself. -/
inductive Inner where
  | buffered (bytes : Option (List UInt8))
  | streaming (sizeHint : SizeHint) (ended : Bool)
  deriving DecidableEq, Repr

structure OutgoingBody where
  inner : Inner
  declaredTrailers : Option (Finset HeaderName)
  deriving DecidableEq

namespace OutgoingBody

def isEndStream (b : OutgoingBody) : Bool :=
  match b.inner with
  | .buffered bytes => bytes.isNone
  | .streaming _ ended => ended

def sizeHint (b : OutgoingBody) : SizeHint :=
  match b.inner with
  | .buffered (some bytes) => .withExact bytes.length
  | .buffered none => .withExact 0
  | .streaming hint _ => hint

end OutgoingBody

/-- The names of a `Trailer` list, its lines together. -/
def declaredTrailerNames (headers : HeaderMap HeaderValue) : Finset HeaderName :=
  (((headers.getAll "trailer".toList).filterMap HeaderValue.toStr).flatMap fun text =>
    (text.splitOn ',').filterMap fun t =>
      HeaderName.fromBytes ((Text.trim t).flatMap String.utf8EncodeChar)).toFinset

structure Request where
  method : Method
  uri : Uri
  version : HttpVersion
  headers : HeaderMap HeaderValue
  body : OutgoingBody
  deriving DecidableEq

/-- How a request goes to its peer: as to the origin, or as to a proxy that stands for it. -/
inductive Via where
  | direct
  | absoluteForm (auth : Option HeaderValue)
  deriving DecidableEq, Repr

/-- `PathAndQuery`'s text parsed as a URI. In an absolute URI it starts with a slash, or with the
question mark of a query on an empty path, and the latter is no URI. -/
def originForm (pq : PathAndQuery) : Option Uri :=
  match pq.asStr with
  | '/' :: _ => some ⟨none, none, some pq⟩
  | _ => none

namespace Rewritten

/-- The `Host` of a request that has none. -/
def hostOf (uri : Uri) : Text :=
  let defaultPort := if uri.scheme = some .https then 443 else 80
  let port := uri.port.getD defaultPort
  let host := uri.host.getD []
  if port = defaultPort then host else host ++ ':' :: (toString port).toList

def withHost (headers : HeaderMap HeaderValue) (uri : Uri) : HeaderMap HeaderValue × Bool :=
  if headers.containsKey HeaderName.host then (headers, false)
  else
    match HeaderValue.fromStr (hostOf uri) with
    | some v => (headers.insert HeaderName.host v, true)
    | none => (headers, false)

def uriFor (via : Via) (uri : Uri) : Uri :=
  match via with
  | .absoluteForm _ => uri
  | .direct => (originForm (uri.pathAndQuery.getD ⟨['/'], none⟩)).getD uri

def withAuth (via : Via) (headers : HeaderMap HeaderValue) : HeaderMap HeaderValue :=
  match via with
  | .absoluteForm (some auth) => headers.insert HeaderName.proxyAuthorization auth
  | _ => headers

/-- The request as hyper gets it, and whether its `Host` is ours. -/
def forHttp1 (req : Request) (via : Via) : Request × Bool :=
  let (headers, hostInserted) := withHost req.headers req.uri
  let headers := withAuth via headers
  ({ req with
      uri := uriFor via req.uri
      headers
      body := { req.body with declaredTrailers := some (declaredTrailerNames headers) } },
    hostInserted)

end Rewritten

/-- What h2 is given for a request, its body apart. -/
structure Head where
  method : Method
  uri : Uri
  version : HttpVersion
  headers : HeaderMap HeaderValue
  endOfStream : Bool
  deriving DecidableEq

namespace Http2

def connectionHeaders : List HeaderName :=
  ["connection", "transfer-encoding", "upgrade", "proxy-authenticate", "proxy-authorization",
    "host", "keep-alive", "proxy-connection"].map String.toList

def stripConnectionHeaders (headers : HeaderMap HeaderValue) : HeaderMap HeaderValue :=
  connectionHeaders.foldl HeaderMap.remove headers

def setContentLength (headers : HeaderMap HeaderValue) (body : OutgoingBody) :
    HeaderMap HeaderValue :=
  if headers.containsKey HeaderName.contentLength then headers
  else
    match body.sizeHint.exact with
    | none => headers
    | some len =>
        if 0 < len then headers.insert HeaderName.contentLength (Bytes.ascii (toString len))
        else headers

/-- The head `exchange` hands to h2. -/
def exchange (req : Request) : Head where
  method := req.method
  uri := req.uri
  version := .http2
  headers := setContentLength (stripConnectionHeaders req.headers) req.body
  endOfStream := req.body.isEndStream

/-- The head `exchange_shared` hands to h2. -/
def exchangeShared (req : Request) : Head where
  method := req.method
  uri := req.uri
  version := .http2
  headers := stripConnectionHeaders req.headers
  endOfStream := req.body.isEndStream

end Http2

/-- Where an exchange takes place. -/
inductive Exchange where
  | h1 (via : Via)
  | h2
  | h2Shared
  deriving DecidableEq, Repr

/-- What the protocol below is handed. -/
inductive Handed where
  | hyper (req : Request)
  | h2 (head : Head) (body : OutgoingBody)
  deriving DecidableEq

def handed (req : Request) : Exchange → Handed
  | .h1 via => .hyper (Rewritten.forHttp1 req via).1
  | .h2 => .h2 (Http2.exchange req) req.body
  | .h2Shared => .h2 (Http2.exchangeShared req) req.body

namespace Http2

/-- Stripping leaves a declared length. -/
theorem containsKey_contentLength_strip (headers : HeaderMap HeaderValue) :
    (stripConnectionHeaders headers).containsKey HeaderName.contentLength =
      headers.containsKey HeaderName.contentLength :=
  HeaderMap.containsKey_foldl_remove _ (by decide) headers

theorem setContentLength_eq_iff (headers : HeaderMap HeaderValue) (body : OutgoingBody) :
    setContentLength headers body = headers ↔
      headers.containsKey HeaderName.contentLength = true ∨
        ∀ len, body.sizeHint.exact = some len → len = 0 := by
  unfold setContentLength
  by_cases declared : headers.containsKey HeaderName.contentLength = true
  · rw [if_pos declared]
    exact iff_of_true rfl (.inl declared)
  · rw [if_neg declared, or_iff_right declared]
    cases exact : body.sizeHint.exact with
    | none => exact iff_of_true rfl nofun
    | some len =>
        dsimp only
        by_cases positive : 0 < len
        · rw [if_pos positive]
          refine iff_of_false ?_ ?_
          · intro same
            -- the field inserted is one that the map did not have
            apply declared
            rw [← same, HeaderMap.containsKey, List.any_eq_true]
            exact ⟨_, HeaderMap.mem_insert.mpr (.inr rfl), by simp⟩
          · intro empty
            exact absurd (empty len rfl) (Nat.ne_of_gt positive)
        · rw [if_neg positive]
          refine iff_of_true rfl ?_
          intro len' same
          cases same
          exact Nat.eq_zero_of_not_pos positive

/-- The two exchanges hand h2 the same head exactly when the length is declared already, or there
is none to declare. -/
theorem exchangeShared_eq_iff (req : Request) : exchangeShared req = exchange req ↔
    req.headers.containsKey HeaderName.contentLength = true ∨
      ∀ len, req.body.sizeHint.exact = some len → len = 0 := by
  rw [← containsKey_contentLength_strip, ← setContentLength_eq_iff]
  unfold exchange exchangeShared
  constructor
  · intro same
    exact (congrArg Head.headers same).symm
  · intro same
    rw [same]

/-- A `PUT` of four bytes. -/
def upload : Request :=
  ⟨.put, ⟨some .https, some ⟨none, "example.com".toList, none⟩, some ⟨"/blob".toList, none⟩⟩, .http11,
    [], ⟨.buffered (some [1, 2, 3, 4]), none⟩⟩

theorem exchangeShared_ne : exchangeShared upload ≠ exchange upload := by
  intro same
  have length : (exchangeShared upload).headers.containsKey HeaderName.contentLength =
      (exchange upload).headers.containsKey HeaderName.contentLength := by rw [same]
  revert length
  decide

end Http2

/-- The same URI with another userinfo. -/
def withUserinfo (uri : Uri) (userinfo : Option Text) : Uri :=
  { uri with authority := uri.authority.map fun a => { a with userinfo } }

def Request.withUserinfo (req : Request) (userinfo : Option Text) : Request :=
  { req with uri := Native.withUserinfo req.uri userinfo }

/-- The request goes out in origin-form. -/
def Exchange.InOriginForm (uri : Uri) : Exchange → Prop
  | .h1 .direct => (originForm (uri.pathAndQuery.getD ⟨['/'], none⟩)).isSome = true
  | .h1 (.absoluteForm _) => False
  | .h2 => False
  | .h2Shared => False

section
variable {uri : Uri} {req : Request} {a b : Option Text}

theorem withUserinfo_eq_iff :
    withUserinfo uri a = withUserinfo uri b ↔ a = b ∨ uri.authority = none := by
  obtain ⟨scheme, authority, pathAndQuery⟩ := uri
  cases authority with
  | none => simp [withUserinfo]
  | some authority => simp [withUserinfo]

theorem hostOf_withUserinfo (uri : Uri) (a : Option Text) :
    Rewritten.hostOf (withUserinfo uri a) = Rewritten.hostOf uri := by
  obtain ⟨scheme, authority, pathAndQuery⟩ := uri
  cases authority <;> rfl

/-- The head of an HTTP/1.1 request depends on the userinfo in its URI alone. -/
theorem forHttp1_withUserinfo (req : Request) (via : Via) (a : Option Text) :
    (Rewritten.forHttp1 (req.withUserinfo a) via).1 =
      { (Rewritten.forHttp1 req via).1 with
        uri := Rewritten.uriFor via (withUserinfo req.uri a) } := by
  have headers : Rewritten.withHost req.headers (withUserinfo req.uri a) =
      Rewritten.withHost req.headers req.uri := by
    unfold Rewritten.withHost
    rw [hostOf_withUserinfo]
  unfold Rewritten.forHttp1 Request.withUserinfo
  dsimp only
  rw [headers]

theorem forHttp1_withUserinfo_eq_iff (via : Via) :
    (Rewritten.forHttp1 (req.withUserinfo a) via).1 =
        (Rewritten.forHttp1 (req.withUserinfo b) via).1 ↔
      Rewritten.uriFor via (withUserinfo req.uri a) =
        Rewritten.uriFor via (withUserinfo req.uri b) := by
  rw [forHttp1_withUserinfo, forHttp1_withUserinfo]
  constructor
  · intro same
    exact congrArg Request.uri same
  · intro same
    rw [same]

theorem uriFor_direct_withUserinfo (uri : Uri) (a : Option Text) :
    Rewritten.uriFor .direct (withUserinfo uri a) =
      (originForm (uri.pathAndQuery.getD ⟨['/'], none⟩)).getD (withUserinfo uri a) := rfl

/-- Two requests that differ in their userinfo are handed down as the same exactly where the
request goes out in origin-form; nothing of the authority is in the request line then. -/
theorem handed_withUserinfo (req : Request) (exchange : Exchange) (a b : Option Text) :
    (handed (req.withUserinfo a) exchange = handed (req.withUserinfo b) exchange ↔
      a = b ∨ req.uri.authority = none ∨ exchange.InOriginForm req.uri) ∧
    (exchange.InOriginForm req.uri →
      (Rewritten.forHttp1 (req.withUserinfo a) .direct).1.uri.authority = none) := by
  constructor
  · cases exchange with
    | h1 via =>
        unfold handed
        rw [Handed.hyper.injEq, forHttp1_withUserinfo_eq_iff]
        cases via with
        | direct =>
            rw [uriFor_direct_withUserinfo, uriFor_direct_withUserinfo, Exchange.InOriginForm]
            cases originForm (req.uri.pathAndQuery.getD ⟨['/'], none⟩) with
            | some short => simp
            | none => simp [withUserinfo_eq_iff]
        | absoluteForm auth =>
            unfold Rewritten.uriFor
            rw [withUserinfo_eq_iff, Exchange.InOriginForm, or_false]
    | h2 =>
        rw [Exchange.InOriginForm, or_false, ← withUserinfo_eq_iff]
        constructor
        · intro same
          injection same with head body
          exact congrArg Head.uri head
        · intro same
          unfold handed Request.withUserinfo Http2.exchange
          rw [same]
    | h2Shared =>
        rw [Exchange.InOriginForm, or_false, ← withUserinfo_eq_iff]
        constructor
        · intro same
          injection same with head body
          exact congrArg Head.uri head
        · intro same
          unfold handed Request.withUserinfo Http2.exchangeShared
          rw [same]
  · intro inOriginForm
    rw [forHttp1_withUserinfo, uriFor_direct_withUserinfo]
    cases exchange with
    | h1 via =>
        cases via with
        | direct =>
            obtain ⟨short, parsed⟩ := Option.isSome_iff_exists.mp inOriginForm
            rw [parsed, Option.getD_some]
            unfold originForm at parsed
            split at parsed
            · cases parsed
              rfl
            · cases parsed
        | absoluteForm auth => cases inOriginForm
    | h2 => cases inOriginForm
    | h2Shared => cases inOriginForm

end

/-- Over HTTP/2 a password reaches the authority that h2 is handed. -/
theorem handed_userinfo_ne : handed (Http2.upload.withUserinfo (some "alice:pw".toList)) .h2 ≠
    handed (Http2.upload.withUserinfo none) .h2 := by
  intro same
  injection same with head body
  have uri := congrArg Head.uri head
  revert uri
  decide

end HClient.Native
