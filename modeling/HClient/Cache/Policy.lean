import HClient.Cache.Date
import HClient.Cache.Store
import HClient.Effect.Program

/-!
# What may be stored and what may be reused

`cache::policy`: RFC 9111's decisions, as functions of a request, a response and a `now`, and
the cache's operations as programs over the calls of its store.
-/
namespace HClient.Cache

open Effect

def cacheableStatuses : List StatusCode :=
  [200, 203, 204, 300, 301, 302, 307, 308, 404, 405, 410, 414, 501]

/-- Header fields a `304` must not carry into a stored response. -/
def notUpdatedBy304 : List HeaderName :=
  ["content-length", "content-encoding", "connection", "transfer-encoding", "te", "trailer",
    "upgrade", "proxy-authenticate", "proxy-authorization"].map String.toList

structure Limits where
  maxBodyBytes : Nat
  deriving DecidableEq, Repr

def Limits.default : Limits := ⟨1024 * 1024⟩

inductive Lookup where
  | miss
  | hit (stored : StoredResponse)
  | revalidate (key : Key) (stale : StoredResponse) (conditions : List (HeaderName × HeaderValue))
  | unsatisfiable

/-- The stored response a lookup serves. -/
def Lookup.served : Lookup → Option StoredResponse
  | .hit stored => some stored
  | _ => none

/-- A response that may be stored once its body has arrived. `request` has the meaning it has
in `StoredResponse`. -/
structure Storing where
  key : Key
  status : StatusCode
  version : HttpVersion
  headers : HeaderMap HeaderValue
  selector : Selector
  requestedAt : SystemTime
  receivedAt : SystemTime
  declaredLen : Option Nat
  maxBodyBytes : Nat
  request : HeaderMap HeaderValue
  deriving DecidableEq

inductive NotStored where
  | method (m : Method)
  | requestStoodAside
  | requestNoStore
  | status (s : StatusCode)
  | responseNoStore
  | varyAsterisk
  | nothingToReuseItWith
  | noKey
  | tooLarge (bytes limit : Nat)
  | lengthMismatch (bytes declared : Nat)
  deriving DecidableEq

def usableMethod (m : Method) : Bool := m = .get

def isSafe (m : Method) : Bool := m = .get || m = .head || m = .options || m = .trace

def bypasses (headers : HeaderMap HeaderValue) : Bool :=
  headers.containsKey HeaderName.ifNoneMatch || headers.containsKey HeaderName.ifModifiedSince ||
    headers.containsKey "range".toList

/-- One value of `Vary`, token by token; `none` is `*` or what is no field name. -/
def varyTokens (value : HeaderValue) : Option (List HeaderName) :=
  (value.splitOn 44).foldl (fun names piece =>
    names.bind fun names =>
      (Bytes.fromUtf8 piece).bind fun text =>
        let word := Text.trim text
        if word = [] then some names
        else if word = ['*'] then none
        else (HeaderName.fromBytes (word.flatMap String.utf8EncodeChar)).map fun n => names ++ [n])
    (some [])

/-- The field names a `Vary` nominates. -/
def varyNames (headers : HeaderMap HeaderValue) : Option (List HeaderName) :=
  ((headers.getAll "vary".toList).mapM varyTokens).map List.flatten

def selectorMatches (stored : StoredResponse) (headers : HeaderMap HeaderValue) : Bool :=
  Selector.of headers stored.selector.names = stored.selector

def conditionsFrom (headers : HeaderMap HeaderValue) : List (HeaderName × HeaderValue) :=
  ((headers.get "etag".toList).map fun etag => (HeaderName.ifNoneMatch, etag)).toList ++
    ((headers.get "last-modified".toList).map fun lm => (HeaderName.ifModifiedSince, lm)).toList

def connectionNominated (headers : HeaderMap HeaderValue) : List HeaderName :=
  ((headers.getAll "connection".toList).filterMap HeaderValue.toStr).flatMap fun text =>
    (text.splitOn ',').filterMap fun t =>
      HeaderName.fromBytes ((Text.trim t).flatMap String.utf8EncodeChar)

def dateOf (e : StoredResponse) : Option SystemTime :=
  ((e.headers.get "date".toList).bind parseHttpDate).map SystemTime.fromUnix

/-- RFC 9111 section 4.2.3. -/
def currentAge (e : StoredResponse) (now : SystemTime) : Duration :=
  let date := (dateOf e).getD e.receivedAt
  let apparent := (e.receivedAt.durationSince date).getD 0
  let ageValue : Duration :=
    match ((e.headers.get "age".toList).bind HeaderValue.toStr).bind
        fun v => Text.parseU64 (Text.trim v) with
    | some secs => .fromSecs secs
    | none => 0
  let responseDelay := (e.receivedAt.durationSince e.requestedAt).getD 0
  let initial := max apparent (ageValue.saturatingAdd responseDelay)
  initial.saturatingAdd ((now.durationSince e.receivedAt).getD 0)

def freshnessLifetime (e : StoredResponse) (resp : ResponseDirectives) : Option Duration :=
  match resp.maxAge with
  | some maxAge => some maxAge
  | none =>
      (e.headers.get "expires".toList).map fun expires =>
        match parseHttpDate expires with
        | none => 0
        | some secs =>
            ((SystemTime.fromUnix secs).durationSince ((dateOf e).getD e.receivedAt)).getD 0

def isFresh (age : Duration) (lifetime : Option Duration) (req : RequestDirectives) : Bool :=
  match lifetime with
  | none => false
  | some lifetime =>
      if lifetime ≤ age then false
      else if req.maxAge.any fun m => m < age then false
      else if req.minFresh.any fun m => lifetime - age < m then false
      else true

def withAge (e : StoredResponse) (age : Duration) : StoredResponse :=
  { e with
    headers := e.headers.insert "age".toList
      ((Nat.toDigits 10 age.asSecs).map fun c => UInt8.ofNat c.toNat) }

/-- `Iterator::max_by_key` on the receipt time: the last of the latest. -/
def latest : List StoredResponse → Option StoredResponse
  | [] => none
  | e :: rest =>
      some (rest.foldl (fun best e => if e.receivedAt < best.receivedAt then best else e) e)

/-- What a stored variant that matches is good for. -/
def judge (key : Key) (stored : StoredResponse) (req : RequestDirectives) (missed : Lookup)
    (now : SystemTime) : Lookup :=
  let resp := ResponseDirectives.parse stored.headers
  let age := currentAge stored now
  let lifetime := freshnessLifetime stored resp
  let reusable := !req.noCache && !resp.noCache
  if reusable && isFresh age lifetime req then .hit (withAge stored age)
  else
    let stretched := reusable && !resp.mustRevalidate &&
      match req.maxStale, lifetime with
      | some allowance, some lifetime => allowance.all fun d => age - lifetime ≤ d
      | _, _ => false
    if stretched then .hit (withAge stored age)
    else if conditionsFrom stored.headers = [] then missed
    else .revalidate key stored (conditionsFrom stored.headers)

/-- What is decided about a request before it is sent, given the variants under its key. -/
def choose (key : Key) (variants : List StoredResponse) (req : RequestDirectives) (missed : Lookup)
    (headers : HeaderMap HeaderValue) (now : SystemTime) : Lookup :=
  match latest (variants.filter fun e => selectorMatches e headers) with
  | none => missed
  | some stored => judge key stored req missed now

abbrev Script := Program StoreCall StoreCall.Answer

def ask (op : StoreCall) : Script op.Answer := Program.perform op

def Storing.entry (s : Storing) (body : List UInt8) : StoredResponse :=
  ⟨s.status, s.version, s.headers, body, s.selector, s.requestedAt, s.receivedAt, s.request,
    s.headers⟩

structure HttpCache where
  limits : Limits

namespace HttpCache

def lookup (method : Method) (uri : Uri) (headers : HeaderMap HeaderValue) (now : SystemTime) :
    Script Lookup :=
  let req := RequestDirectives.parse headers
  let missed := if req.onlyIfCached then Lookup.unsatisfiable else Lookup.miss
  if !usableMethod method || bypasses headers || req.noStore then pure missed
  else
    match Key.new method uri with
    | none => pure missed
    | some key =>
        (ask (.get key)).bind fun (variants : List StoredResponse) =>
          pure (choose key variants req missed headers now)

def declaredLength (headers : HeaderMap HeaderValue) : Option Nat :=
  ((headers.get HeaderName.contentLength).bind HeaderValue.toStr).bind
    fun v => Text.parseU64 (Text.trim v)

/-- Whether a response may be stored, decided from the head. `sent` is what the request whose
response this is was sent with. -/
def storing (cache : HttpCache) (method : Method) (uri : Uri)
    (requestHeaders : HeaderMap HeaderValue) (parts : ResponseParts)
    (requestedAt receivedAt : SystemTime) (sent : HeaderMap HeaderValue) :
    Except NotStored Storing :=
  if !usableMethod method then .error (.method method)
  else if bypasses requestHeaders then .error .requestStoodAside
  else if (RequestDirectives.parse requestHeaders).noStore then .error .requestNoStore
  else if !cacheableStatuses.contains parts.status then .error (.status parts.status)
  else
    let resp := ResponseDirectives.parse parts.headers
    if resp.noStore then .error .responseNoStore
    else
      match varyNames parts.headers with
      | none => .error .varyAsterisk
      | some names =>
          let hasLifetime := resp.maxAge.isSome || parts.headers.containsKey "expires".toList
          if !hasLifetime && conditionsFrom parts.headers = [] then .error .nothingToReuseItWith
          else
            match (declaredLength parts.headers).filter (cache.limits.maxBodyBytes < ·) with
            | some n => .error (.tooLarge n cache.limits.maxBodyBytes)
            | none =>
                match Key.new method uri with
                | none => .error .noKey
                | some key =>
                    .ok {
                      key
                      status := parts.status
                      version := parts.version
                      headers := parts.headers
                      selector := Selector.of requestHeaders names
                      requestedAt
                      receivedAt
                      declaredLen := declaredLength parts.headers
                      maxBodyBytes := cache.limits.maxBodyBytes
                      request := sent }

/-- Commits a response whose body has arrived. -/
def store (s : Storing) (body : List UInt8) : Script (Except NotStored Unit) :=
  if s.maxBodyBytes < body.length then pure (.error (.tooLarge body.length s.maxBodyBytes))
  else
    match s.declaredLen.filter (· ≠ body.length) with
    | some declared => pure (.error (.lengthMismatch body.length declared))
    | none => (ask (.put s.key (s.entry body))).bind fun _ => pure (.ok ())

/-- One field of a `304` in place of the stored one. -/
def updateField (from304 : HeaderMap HeaderValue) (headers : HeaderMap HeaderValue)
    (name : HeaderName) : HeaderMap HeaderValue :=
  (from304.getAll name).foldl (fun h v => h.append name v) (headers.remove name)

def freshened (stale : StoredResponse) (parts : ResponseParts)
    (requestedAt receivedAt : SystemTime) : StoredResponse :=
  let nominated := connectionNominated parts.headers
  let updating := (parts.headers.map Prod.fst).dedup.filter fun name =>
    !(notUpdatedBy304.contains name || nominated.contains name)
  { stale with
    headers := updating.foldl (updateField parts.headers) stale.headers
    requestedAt
    receivedAt }

/-- A `304` answered the conditional request a lookup asked for. -/
def revalidated (key : Key) (stale : StoredResponse) (parts : ResponseParts)
    (requestedAt receivedAt : SystemTime) : Script StoredResponse :=
  let fresh := freshened stale parts requestedAt receivedAt
  (ask (.put key fresh)).bind fun _ => pure (withAge fresh (currentAge fresh receivedAt))

/-- Anything else answered it. -/
def superseded (key : Key) (stale : StoredResponse) : Script Unit :=
  ask (.remove key stale.selector)

def invalidateKey : Option Key → Script Unit
  | some key => ask (.invalidate key)
  | none => pure ()

def invalidatedBy (method : Method) (uri : Uri) (status : StatusCode) : Script Unit :=
  if isSafe method || status.isClientError || status.isServerError then pure ()
  else
    (invalidateKey (Key.new .get uri)).bind fun _ => invalidateKey (Key.new .head uri)

end HttpCache
end HClient.Cache
