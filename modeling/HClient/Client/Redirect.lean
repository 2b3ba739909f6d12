import HClient.Client.Body
import HClient.Core.Http

/-!
# Redirects

`sansio::redirect` decides whether and how a redirect is followed, and `stages::redirect`
builds the next hop. A header value carries where it came from, which nothing here reads:
the marks are for the statements about where values go.
-/
namespace HClient.Client

/-- Who put a header value into a request. -/
inductive Origin where
  | caller
  | defaults
  | netrc
  | jar
  | cache
  | flow
  deriving DecidableEq, Repr

structure Marked where
  bytes : HeaderValue
  origin : Origin
  deriving DecidableEq, Repr

abbrev Headers := HeaderMap Marked

/-- The fields as they go out. -/
def unmarked (headers : Headers) : HeaderMap HeaderValue := headers.map fun f => (f.1, f.2.bytes)

/-- What a request is rebuilt from on every hop. -/
structure HopParts where
  method : Method
  uri : Uri
  headers : Headers
  version : HttpVersion
  allowEarlyData : Bool
  attempt : Option Attempt
  deriving DecidableEq, Repr

def sensitiveHeaders : List HeaderName :=
  [HeaderName.authorization, HeaderName.cookie, HeaderName.proxyAuthorization]

/-- What a policy relaxes. -/
structure Allow where
  preserveMethod : Bool
  keepCredentials : Bool
  deriving DecidableEq, Repr

inductive RedirectVerdict where
  | follow (allow : Allow)
  | stop
  | refuse (why : Text)
  deriving DecidableEq, Repr

structure ProposedRedirect where
  source : Uri
  target : Uri
  status : StatusCode
  method : Method
  crossOrigin : Bool
  hops : Nat
  previous : List Uri
  deriving DecidableEq, Repr

structure Follow where
  uri : Uri
  method : Method
  stripSensitive : Bool
  dropBody : Bool
  deriving DecidableEq, Repr

inductive RedirectAction where
  | stop
  | follow (f : Follow)
  | refused (why : Text) (target : Uri)
  | invalidLocation
  deriving DecidableEq, Repr

def portOf (uri : Uri) : Option Nat :=
  uri.port <|> match uri.scheme with
    | some .https => some 443
    | some .http => some 80
    | _ => none

def sameHost (a b : Uri) : Bool :=
  match a.host, b.host with
  | some a, some b => Text.eqIgnoreAsciiCase a b
  | none, none => true
  | _, _ => false

def crossOrigin (source target : Uri) : Bool :=
  !sameHost target source || target.scheme ≠ source.scheme || portOf target ≠ portOf source

def isRedirect (status : StatusCode) : Bool := [301, 302, 303, 307, 308].contains status

/-- The first half of `decide`: what is offered to the policy, if anything. -/
def propose (resolveReference : Uri → Text → Option Uri) (hops : Nat) (current : Uri)
    (method : Method) (status : StatusCode) (location : Option HeaderValue)
    (previous : List Uri) : ProposedRedirect ⊕ RedirectAction :=
  if !isRedirect status then .inr .stop
  else
    match location with
    | none => .inr .stop
    | some location =>
        match (Bytes.fromUtf8 location).bind (resolveReference current) with
        | none => .inr .invalidLocation
        | some uri =>
            .inl ⟨current, uri, status, method, crossOrigin current uri, hops, previous⟩

def downgrades (status : StatusCode) (method : Method) : Bool :=
  if status = 303 then method ≠ .head
  else if status = 301 ∨ status = 302 then method = .post
  else false

/-- The second half: what the policy's verdict makes of the proposal. -/
def settle (p : ProposedRedirect) : RedirectVerdict → RedirectAction
  | .stop => .stop
  | .refuse why => .refused why p.target
  | .follow allow =>
      let downgrade := !allow.preserveMethod && downgrades p.status p.method
      .follow {
        uri := p.target
        method := if downgrade then .get else p.method
        stripSensitive := p.crossOrigin && !allow.keepCredentials
        dropBody := downgrade }

def removeAll (names : List HeaderName) (headers : Headers) : Headers :=
  names.foldl HeaderMap.remove headers

/-- The parts and the body of the hop a redirect leads to; `none` where the body is needed
again and cannot be had. -/
def nextHop (prev : HopParts) (replay : Option RequestBody) (follow : Follow) :
    Option (HopParts × RequestBody) :=
  let headers := if follow.stripSensitive then removeAll sensitiveHeaders prev.headers
    else prev.headers
  let early := if follow.stripSensitive then false else prev.allowEarlyData
  let parts (headers : Headers) : HopParts :=
    { prev with method := follow.method, uri := follow.uri, headers, allowEarlyData := early }
  if follow.dropBody then
    some (parts (removeAll [HeaderName.contentLength, HeaderName.contentType] headers), .empty)
  else replay.map fun body => (parts headers, body)

theorem mem_removeAll {names : List HeaderName} {headers : Headers}
    {field : HeaderName × Marked} :
    field ∈ removeAll names headers ↔ field ∈ headers ∧ field.1 ∉ names := by
  unfold removeAll
  induction names generalizing headers with
  | nil => simp
  | cons name names ih =>
      rw [List.foldl_cons, ih, HeaderMap.mem_remove]
      simp only [List.mem_cons, not_or]
      exact and_assoc

/-- What a next hop takes over: fields of the hop left, none of them sensitive where the
redirect strips, and the mark unless it strips. -/
theorem nextHop_parts {prev : HopParts} {replay : Option RequestBody} {f : Follow}
    {next : HopParts} {body : RequestBody} (followed : nextHop prev replay f = some (next, body)) :
    (∀ field ∈ next.headers, field ∈ prev.headers ∧
        (f.stripSensitive = true → field.1 ∉ sensitiveHeaders)) ∧
      next.allowEarlyData = (prev.allowEarlyData && !f.stripSensitive) := by
  have stripped : ∀ field ∈ (if f.stripSensitive then removeAll sensitiveHeaders prev.headers
      else prev.headers), field ∈ prev.headers ∧
        (f.stripSensitive = true → field.1 ∉ sensitiveHeaders) := by
    intro field member
    cases strips : f.stripSensitive with
    | true =>
        rw [strips, if_pos rfl] at member
        have kept := mem_removeAll.mp member
        exact ⟨kept.1, fun _ => kept.2⟩
    | false =>
        rw [strips, if_neg Bool.false_ne_true] at member
        exact ⟨member, fun impossible => by cases impossible⟩
  unfold nextHop at followed
  simp only at followed
  split at followed
  · cases followed
    refine ⟨fun field member => stripped field (mem_removeAll.mp member).1, ?_⟩
    cases f.stripSensitive <;> simp
  · obtain ⟨b, -, same⟩ := Option.map_eq_some_iff.mp followed
    cases same
    refine ⟨stripped, ?_⟩
    cases f.stripSensitive <;> simp

theorem nextHop_uri {prev : HopParts} {replay : Option RequestBody} {f : Follow}
    {next : HopParts} {body : RequestBody} (followed : nextHop prev replay f = some (next, body)) :
    next.uri = f.uri := by
  unfold nextHop at followed
  simp only at followed
  split at followed
  · cases followed
    rfl
  · obtain ⟨b, -, same⟩ := Option.map_eq_some_iff.mp followed
    cases same
    rfl

section
variable {resolveReference : Uri → Text → Option Uri} {hops : Nat} {current : Uri}
  {method : Method} {status : StatusCode} {location : Option HeaderValue} {previous : List Uri}

theorem crossOrigin_of_propose {p : ProposedRedirect}
    (proposed : propose resolveReference hops current method status location previous = .inl p) :
    p.crossOrigin = crossOrigin current p.target := by
  unfold propose at proposed
  split at proposed
  · cases proposed
  split at proposed
  · cases proposed
  split at proposed
  · cases proposed
  · cases proposed
    rfl

/-- What a proposal tells the policy of the run. -/
theorem told_of_propose {p : ProposedRedirect}
    (proposed : propose resolveReference hops current method status location previous = .inl p) :
    p.hops = hops ∧ p.previous = previous := by
  unfold propose at proposed
  split at proposed
  · cases proposed
  split at proposed
  · cases proposed
  split at proposed
  · cases proposed
  · cases proposed
    exact ⟨rfl, rfl⟩

/-- Nothing is followed without the policy's verdict. -/
theorem propose_ne_follow {f : Follow} :
    propose resolveReference hops current method status location previous ≠ .inr (.follow f) := by
  unfold propose
  intro proposed
  split at proposed
  · cases proposed
  split at proposed
  · cases proposed
  split at proposed <;> cases proposed

/-- Without a grant a redirect is stripped exactly when it crosses. -/
theorem strips_of_settle {p : ProposedRedirect} {verdict : RedirectVerdict} {f : Follow}
    (proposed : propose resolveReference hops current method status location previous = .inl p)
    (grants : ∀ allow, verdict = .follow allow → allow.keepCredentials = false)
    (settled : settle p verdict = .follow f) :
    f.stripSensitive = crossOrigin current f.uri := by
  cases verdict with
  | stop => cases settled
  | refuse why => cases settled
  | follow allow =>
      cases settled
      simp only [grants allow rfl, Bool.not_false, Bool.and_true]
      exact crossOrigin_of_propose proposed

end

end HClient.Client
