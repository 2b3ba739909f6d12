import HClient.Cache.Policy
import HClient.Client.Redirect
import HClient.Effect.Loop

/-!
# One request through the client

`Client::run` after its checks: a hop is prepared, looked up in the cache, authorized, sent
with its retries, replayed after a 425, answered to challenges, handed to the cache and
perhaps followed. Everything outside is a call: the transport, the jar, the HSTS policies,
the cache, the authorization flow and the two policies. `F` is the type of the flows' states.
-/
namespace HClient.Client

open Effect Cache

structure AuthRequest where
  method : Method
  uri : Uri
  body : BodyView
  deriving DecidableEq, Repr

/-- One change a flow makes to the header fields it is handed. -/
inductive HeaderEdit where
  | insert (name : HeaderName) (value : HeaderValue)
  | append (name : HeaderName) (value : HeaderValue)
  | remove (name : HeaderName)
  deriving DecidableEq, Repr

def HeaderEdit.name : HeaderEdit → HeaderName
  | .insert name _ | .append name _ | .remove name => name

def HeaderEdit.apply (headers : Headers) : HeaderEdit → Headers
  | .insert name value => headers.insert name ⟨value, .flow⟩
  | .append name value => headers.append name ⟨value, .flow⟩
  | .remove name => headers.remove name

def applyEdits (edits : List HeaderEdit) (headers : Headers) : Headers :=
  edits.foldl HeaderEdit.apply headers

inductive AuthStep where
  | finished
  | again
  deriving DecidableEq, Repr

inductive Outcome where
  | unsent
  | status (status : StatusCode) (retryAfter : Option Duration) (unreadable : Bool)
  deriving DecidableEq, Repr

/-- What the retry policy is asked about, but for the jitter drawn for it. -/
structure ProposedRetry where
  method : Method
  uri : Uri
  attempt : Nat
  outcome : Outcome
  bodyReplayable : Bool
  deriving DecidableEq, Repr

inductive RetryVerdict where
  | after (delay : Duration)
  | stop
  deriving DecidableEq, Repr

structure TransportError where
  isUnsent : Bool
  deriving DecidableEq, Repr

structure Request where
  parts : HopParts
  body : RequestBody
  deriving DecidableEq, Repr

def HopParts.toRequest (hp : HopParts) (body : RequestBody) : Request := ⟨hp, body⟩

/-- Which of its places in the source makes a send, or has a flow authorize one. -/
inductive Cause where
  | first
  | retry
  | tooEarly
  | leg
  deriving DecidableEq, Repr

/-- A response's head with the header fields its request was sent with, and, when a challenge
was answered, the names of those the flow wrote to answer it. -/
structure Received where
  parts : ResponseParts
  sent : Headers
  written : List HeaderName
  deriving DecidableEq, Repr

inductive ClientCall (F : Type) where
  | upgrade (uri : Uri)
  | cookieHeader (uri : Uri)
  | clock
  | lookup (method : Method) (uri : Uri) (headers : HeaderMap HeaderValue) (now : SystemTime)
  | revalidated (key : Key) (stale : StoredResponse) (received : Received)
      (requestedAt receivedAt : SystemTime)
  | superseded (key : Key) (stale : StoredResponse)
  | invalidatedBy (method : Method) (uri : Uri) (status : StatusCode)
  | record (storing : Storing) (received : Received)
  | startFlow
  | authorize (flow : F) (request : AuthRequest) (headers : HeaderMap HeaderValue) (cause : Cause)
  | onResponse (flow : F) (status : StatusCode) (headers : HeaderMap HeaderValue)
  | send (request : Request) (cause : Cause)
  | storeCookies (uri : Uri) (headers : HeaderMap HeaderValue)
  | noteHsts (uri : Uri) (headers : HeaderMap HeaderValue) (secure : Bool)
  | retryVerdict (proposed : ProposedRetry)
  | sleep (delay : Duration)
  | redirectVerdict (proposed : ProposedRedirect)

def ClientCall.Answer {F : Type} : ClientCall F → Type
  | .upgrade _ => Option Uri
  | .cookieHeader _ => Option HeaderValue
  | .clock => SystemTime
  | .lookup .. => Lookup
  | .revalidated .. => StoredResponse
  | .superseded .. | .invalidatedBy .. | .record .. | .storeCookies .. | .noteHsts .. | .sleep _ =>
      Unit
  | .startFlow => F
  | .authorize .. => List HeaderEdit × F
  | .onResponse .. => AuthStep × F
  | .send .. => Except TransportError ResponseParts
  | .retryVerdict _ => RetryVerdict
  | .redirectVerdict _ => RedirectVerdict

/-- The request a call hands to the transport. -/
def ClientCall.sent {F : Type} : ClientCall F → Option Request
  | .send request _ => some request
  | _ => none

structure NetrcEntry where
  machine : Option Text
  login : Text
  password : Text
  deriving DecidableEq, Repr

/-- The first entry for the host, or else the first default. -/
def netrcLookup (entries : List NetrcEntry) (host : Text) : Option NetrcEntry :=
  (entries.find? fun e => e.machine = some host) <|> entries.find? fun e => e.machine = none

/-- What a client is built with. The policies, the jar and the stores answer calls, so only
whether they are there stands here. -/
structure Config where
  hsts : Bool
  cookies : Bool
  cache : Option HttpCache
  defaultHeaders : HeaderMap HeaderValue
  netrc : Option (List NetrcEntry)
  retry : Bool
  resolveReference : Uri → Text → Option Uri

inductive RunError where
  | bodyVanishedBeforeRetry
  | transport (e : TransportError)
  | tooManyLegs
  | redirectRefused (target : Uri) (status : StatusCode) (why : Text) (afterHops : Nat)
  | badLocation
  | outOfFuel
  deriving DecidableEq, Repr

abbrev Script (F : Type) := Program (ClientCall F) ClientCall.Answer

section
variable {F : Type}

def ask (op : ClientCall F) : Script F op.Answer := Program.perform op

/-- The state of the loop over the hops. -/
structure RunState where
  hp : HopParts
  body : RequestBody
  auth : Bool
  hops : Nat
  visited : List Uri
  attemptId : Attempt
  callerOwnsTheCookieHeader : Bool
  callerOwnsTheConditionals : Bool

/-- The loop's first state, for a request that has passed the checks before it. -/
def RunState.start (method : Method) (uri : Uri) (headers : HeaderMap HeaderValue)
    (version : HttpVersion) (allowEarlyData : Bool) (body : RequestBody) (auth : Bool)
    (requestId : Nat) : RunState where
  hp := ⟨method, uri, headers.map fun f => (f.1, ⟨f.2, .caller⟩), version, allowEarlyData, none⟩
  body
  auth
  hops := 0
  visited := [uri]
  attemptId := .new requestId
  callerOwnsTheCookieHeader := headers.containsKey HeaderName.cookie
  callerOwnsTheConditionals := headers.containsKey HeaderName.ifNoneMatch ||
    headers.containsKey HeaderName.ifModifiedSince

/-- A stale entry that a conditional request is out for. -/
abbrev Plan := Option (Key × StoredResponse)

/-- What the loops of a hop hand on. -/
structure Exchange where
  hp : HopParts
  received : Received
  attemptId : Attempt
  requestedAt : SystemTime

structure RetryState where
  hp : HopParts
  sending : Option RequestBody
  attempt : Nat
  attemptId : Attempt
  requestedAt : SystemTime

/-- The state once a turn of the loop has taken its body: from the second turn on the
attempt is a new one. -/
def RetryState.taken (s : RetryState) : RetryState :=
  let attemptId := if s.attempt = 0 then s.attemptId else s.attemptId.resent
  { s with
    hp := { s.hp with attempt := some attemptId }
    sending := none
    attempt := s.attempt + 1
    attemptId }

/-- The exchange after another send of the hop, whose parts stay what they were. -/
def Exchange.resumed (x : Exchange) (attemptId : Attempt) (requestedAt : SystemTime) :
    Except TransportError Received → Except RunError Exchange
  | .ok received => .ok { x with received, attemptId, requestedAt }
  | .error e => .error (.transport e)

/-- How one turn of the loop ends. `left` is the hop a redirect leads away from. -/
inductive HopEnd where
  | finished (result : Except RunError (ResponseParts × Uri))
  | follow (left : HopParts) (f : Follow) (next : RunState)

namespace Config
variable (cfg : Config)

def upgradeScheme (uri : Uri) : Script F Uri :=
  if cfg.hsts then
    (ask (.upgrade uri)).bind fun (upgraded : Option Uri) => pure (upgraded.getD uri)
  else pure uri

def attachCookies (hp : HopParts) (callerOwnsTheHeader : Bool) : Script F HopParts :=
  if !cfg.cookies || callerOwnsTheHeader then pure hp
  else
    (ask (.cookieHeader hp.uri)).bind fun (value : Option HeaderValue) =>
      let headers := hp.headers.remove HeaderName.cookie
      pure { hp with
        headers := match value with
          | some v => headers.insert HeaderName.cookie ⟨v, .jar⟩
          | none => headers }

def addDefault (headers : Headers) (field : HeaderName × HeaderValue) : Headers :=
  if headers.containsKey field.1 then headers else headers.append field.1 ⟨field.2, .defaults⟩

def basicCredential (entry : NetrcEntry) : HeaderValue :=
  Bytes.ascii "Basic " ++
    Bytes.base64 ((entry.login ++ ':' :: entry.password).flatMap String.utf8EncodeChar)

def addNetrc (auth : Bool) (uri : Uri) (headers : Headers) : Headers :=
  if headers.containsKey HeaderName.authorization || auth then headers
  else
    match cfg.netrc.bind fun entries => uri.host.bind (netrcLookup entries) with
    | some entry =>
        headers.insert HeaderName.authorization ⟨basicCredential entry, .netrc⟩
    | none => headers

/-- The hop before its lookup. -/
def prepare (s : RunState) : Script F HopParts :=
  (cfg.upgradeScheme s.hp.uri).bind fun uri =>
    (cfg.attachCookies { s.hp with uri } s.callerOwnsTheCookieHeader).bind fun hp =>
      pure { hp with
        headers := cfg.addNetrc s.auth hp.uri (cfg.defaultHeaders.foldl addDefault hp.headers) }

def cacheNow : Script F SystemTime :=
  if cfg.cache.isSome then ask .clock else pure .unixEpoch

def serve (stored : StoredResponse) : ResponseParts :=
  ⟨stored.status, stored.version, stored.headers⟩

def onlyIfCachedMiss : ResponseParts := ⟨504, .http11, []⟩

def conditionals : List HeaderName := [HeaderName.ifNoneMatch, HeaderName.ifModifiedSince]

def addCondition (headers : Headers) (c : HeaderName × HeaderValue) : Headers :=
  headers.insert c.1 ⟨c.2, .cache⟩

def cacheBefore (hp : HopParts) (callerOwnsTheConditionals : Bool) :
    Script F ((HopParts × ResponseParts) ⊕ (HopParts × Plan)) :=
  if cfg.cache.isNone || callerOwnsTheConditionals then pure (.inr (hp, none))
  else
    let hp := { hp with headers := removeAll conditionals hp.headers }
    (ask .clock).bind fun (now : SystemTime) =>
      (ask (.lookup hp.method hp.uri (unmarked hp.headers) now)).bind fun (found : Lookup) =>
        match found with
        | .miss => pure (.inr (hp, none))
        | .hit stored => pure (.inl (hp, serve stored))
        | .unsatisfiable => pure (.inl (hp, onlyIfCachedMiss))
        | .revalidate key stale conditions =>
            pure (.inr ({ hp with headers := conditions.foldl addCondition hp.headers },
              some (key, stale)))

/-- Before the hop's first send a flow writes into the hop's own header fields. -/
def authorizeFirst (auth : Bool) (hp : HopParts) (replay : Option RequestBody) :
    Script F (Option F × HopParts) :=
  if !auth then pure (none, hp)
  else
    (ask .startFlow).bind fun (flow : F) =>
      (ask (.authorize flow ⟨hp.method, hp.uri, authBody replay⟩ (unmarked hp.headers) .first)).bind
        fun (answer : List HeaderEdit × F) =>
          pure (some answer.2, { hp with headers := applyEdits answer.1 hp.headers })

/-- What every response leaves behind, whatever is done with it. -/
def noteResponse (hp : HopParts) (parts : ResponseParts) : Script F Unit :=
  (if cfg.cookies then ask (.storeCookies hp.uri parts.headers) else pure ()).bind fun (_ : Unit) =>
    if cfg.hsts then ask (.noteHsts hp.uri parts.headers (hp.uri.scheme = some .https)) else pure ()

def sendHop (hp : HopParts) (body : RequestBody) (cause : Cause) (written : List HeaderName) :
    Script F (Except TransportError Received) :=
  (ask (.send (hp.toRequest body) cause)).bind
    fun (answer : Except TransportError ResponseParts) =>
      match answer with
      | .error e => pure (.error e)
      | .ok parts =>
          (cfg.noteResponse hp parts).bind fun _ => pure (.ok ⟨parts, hp.headers, written⟩)

def retryAfterSeconds (value : Text) : Option Duration :=
  let v := Text.trim value
  if v = [] ∨ ¬ v.all Text.isAsciiDigit then none
  else (Text.parseU64 v).map Duration.fromSecs

/-- `read_retry_after`: the delay, and whether the field is there but unreadable. -/
def readRetryAfter (headers : HeaderMap HeaderValue) : Option Duration × Bool :=
  match headers.get "retry-after".toList with
  | none => (none, false)
  | some raw =>
      let parsed := (HeaderValue.toStr raw).bind retryAfterSeconds
      (parsed, parsed.isNone)

/-- What a policy is asked about; `none` for an error that is not its business. -/
def retryOutcome : Except TransportError Received → Option Outcome
  | .ok r =>
      let (after, unreadable) := readRetryAfter r.parts.headers
      some (.status r.parts.status after unreadable)
  | .error e => if e.isUnsent then some .unsent else none

def settleExchange (s : RetryState) : Except TransportError Received → Except RunError Exchange
  | .ok received => .ok ⟨s.hp, received, s.attemptId, s.requestedAt⟩
  | .error e => .error (.transport e)

/-- Whether a policy asks for another turn: the time it starts at, after the policy's delay. -/
def askRetry (replay : Option RequestBody) (s : RetryState)
    (outcome : Except TransportError Received) : Script F (Option SystemTime) :=
  match if cfg.retry then retryOutcome outcome else none with
  | none => pure none
  | some what =>
      (ask (.retryVerdict ⟨s.hp.method, s.hp.uri, s.attempt, what,
        replay.any fun b => b.retryKind.mayReplay⟩)).bind fun (verdict : RetryVerdict) =>
          match verdict with
          | .stop => pure none
          | .after delay =>
              (ask (.sleep delay)).bind fun (_ : Unit) =>
                cfg.cacheNow.bind fun requestedAt => pure (some requestedAt)

/-- The retry loop. A policy may ask for retries without end, so it runs on fuel. -/
def retryLoop (replay : Option RequestBody) :
    Nat → RetryState → Script F (Except RunError Exchange)
  | 0, _ => pure (.error .outOfFuel)
  | fuel + 1, s =>
      match s.sending <|> replayForTooEarly replay with
      | none => pure (.error .bodyVanishedBeforeRetry)
      | some this =>
          (cfg.sendHop s.taken.hp this (if s.attempt = 0 then .first else .retry) []).bind
            fun outcome =>
              (cfg.askRetry replay s.taken outcome).bind fun again =>
                match again with
                | none => pure (settleExchange s.taken outcome)
                | some requestedAt => retryLoop replay fuel { s.taken with requestedAt }

/-- The replay after a 425: the hop's parts without the mark, for this send only. -/
def replayTooEarly (replay : Option RequestBody) (x : Exchange) :
    Script F (Except RunError Exchange) :=
  if x.received.parts.status ≠ 425 then pure (.ok x)
  else
    match replayForTooEarly replay with
    | none => pure (.ok x)
    | some again =>
        cfg.cacheNow.bind fun requestedAt =>
          let attemptId := x.attemptId.resent
          (cfg.sendHop { x.hp with allowEarlyData := false, attempt := some attemptId } again
            .tooEarly []).bind fun outcome => pure (x.resumed attemptId requestedAt outcome)

def maxLegs : Nat := 4

/-- One answer to a challenge, built from the hop's parts and not from the leg before. -/
def sendLeg (flow : F) (again : RequestBody) (x : Exchange) :
    Script F (Except RunError Exchange × F) :=
  (ask (.authorize flow ⟨x.hp.method, x.hp.uri, authBody (some again)⟩ (unmarked x.hp.headers)
      .leg)).bind
    fun (answer : List HeaderEdit × F) =>
      cfg.cacheNow.bind fun requestedAt =>
        let attemptId := x.attemptId.resent
        (cfg.sendHop { x.hp with
            headers := applyEdits answer.1 x.hp.headers
            attempt := some attemptId } again .leg (answer.1.map HeaderEdit.name)).bind
          fun outcome => pure (x.resumed attemptId requestedAt outcome, answer.2)

def askFlow (flow : F) (x : Exchange) : Script F (AuthStep × F) :=
  ask (.onResponse flow x.received.parts.status x.received.parts.headers)

/-- The challenge legs, `left` of them still allowed. -/
def legLoop (replay : Option RequestBody) :
    (left : Nat) → F → Exchange → Script F (Except RunError Exchange)
  | 0, flow, x =>
      (askFlow flow x).bind fun (step, _) =>
        match step with
        | .finished => pure (.ok x)
        | .again => pure (.error .tooManyLegs)
  | left + 1, flow, x =>
      (askFlow flow x).bind fun (step, flow) =>
        match step with
        | .finished => pure (.ok x)
        | .again =>
            match replayForTooEarly replay with
            | none => pure (.ok x)
            | some again =>
                (cfg.sendLeg flow again x).bind fun (sent, flow) =>
                  match sent with
                  | .error e => pure (.error e)
                  | .ok x => legLoop replay left flow x

def answerChallenges (replay : Option RequestBody) (flow : Option F) (x : Exchange) :
    Script F (Except RunError Exchange) :=
  match flow with
  | none => pure (.ok x)
  | some flow => cfg.legLoop replay (maxLegs - 1) flow x

/-- A live response: what it invalidates, and the recorder that may store its body. -/
def recordResponse (cache : HttpCache) (x : Exchange) (receivedAt : SystemTime) :
    Script F ResponseParts :=
  let parts := x.received.parts
  (ask (.invalidatedBy x.hp.method x.hp.uri parts.status)).bind fun (_ : Unit) =>
    match cache.storing x.hp.method x.hp.uri (unmarked x.hp.headers) parts x.requestedAt
        receivedAt (unmarked x.received.sent) with
    | .error _ => pure parts
    | .ok storing => (ask (.record storing x.received)).bind fun (_ : Unit) => pure parts

def cacheAfter (plan : Plan) (x : Exchange) : Script F ResponseParts :=
  match cfg.cache with
  | none => pure x.received.parts
  | some cache =>
      (ask .clock).bind fun (receivedAt : SystemTime) =>
        match plan with
        | none => recordResponse cache x receivedAt
        | some (key, stale) =>
            if x.received.parts.status = 304 then
              (ask (.revalidated key stale x.received x.requestedAt receivedAt)).bind
                fun (served : StoredResponse) => pure (serve served)
            else
              (ask (.superseded key stale)).bind fun (_ : Unit) =>
                recordResponse cache x receivedAt

/-- The sends of a hop that the cache has no answer for. -/
def exchange (fuel : Nat) (s : RunState) (hp : HopParts) (replay : Option RequestBody) :
    Script F (Except RunError Exchange) :=
  (authorizeFirst s.auth hp replay).bind fun (flow, hp) =>
    cfg.cacheNow.bind fun requestedAt =>
      (cfg.retryLoop replay fuel ⟨hp, some s.body, 0, s.attemptId, requestedAt⟩).bind fun sent =>
        match sent with
        | .error e => pure (.error e)
        | .ok x =>
            (cfg.replayTooEarly replay x).bind fun replayed =>
              match replayed with
              | .error e => pure (.error e)
              | .ok x => cfg.answerChallenges replay flow x

/-- What a redirect action makes of the hop. -/
def act (s : RunState) (hp : HopParts) (replay : Option RequestBody) (attemptId : Attempt)
    (resp : ResponseParts) : RedirectAction → HopEnd
  | .stop => .finished (.ok (resp, hp.uri))
  | .refused why target => .finished (.error (.redirectRefused target resp.status why s.hops))
  | .invalidLocation => .finished (.error .badLocation)
  | .follow f =>
      match nextHop hp replay f with
      | none => .finished (.ok (resp, hp.uri))
      | some (next, body) =>
          .follow hp f { s with
            hp := next
            body
            auth := s.auth && !f.stripSensitive
            -- a release build's `+= 1` on a `u8`
            hops := (s.hops + 1) % 256
            visited := s.visited ++ [f.uri]
            attemptId := attemptId.nextHop }

/-- A response at the end of a hop: the redirect policy is asked, and the next hop built. -/
def afterHop (s : RunState) (hp : HopParts) (replay : Option RequestBody) (attemptId : Attempt)
    (resp : ResponseParts) : Script F HopEnd :=
  match propose cfg.resolveReference s.hops hp.uri hp.method resp.status
      (resp.headers.get HeaderName.location) s.visited with
  | .inr action => pure (act s hp replay attemptId resp action)
  | .inl proposal =>
      (ask (.redirectVerdict proposal)).bind fun (verdict : RedirectVerdict) =>
        pure (act s hp replay attemptId resp (settle proposal verdict))

/-- One turn of the loop of `run`. -/
def hop (fuel : Nat) (s : RunState) : Script F HopEnd :=
  (cfg.prepare s).bind fun hp =>
    let replay := s.body.rewind
    (cfg.cacheBefore hp s.callerOwnsTheConditionals).bind fun before =>
      match before with
      | .inl (hp, answered) => cfg.afterHop s hp replay s.attemptId answered
      | .inr (hp, plan) =>
          (cfg.exchange fuel s hp replay).bind fun sent =>
            match sent with
            | .error e => pure (.finished (.error e))
            | .ok x =>
                (cfg.cacheAfter plan x).bind fun resp =>
                  cfg.afterHop s x.hp replay x.attemptId resp

end Config

def HopEnd.next : HopEnd → Option RunState
  | .follow _ _ next => some next
  | .finished _ => none

/-- The chain of redirects of a run, from the caller's request on. -/
abbrev Chain (cfg : Config) (fuel : Nat) (s : RunState)
    (turns : List (Turn RunState (ClientCall F) ClientCall.Answer HopEnd)) (s' : RunState) : Prop :=
  Iterates (cfg.hop fuel) HopEnd.next s turns s'

end

section Scene

def plainUri (host : String) : Uri :=
  ⟨some .https, some ⟨none, host.toList, none⟩, some ⟨['/'], none⟩⟩

/-- A client with nothing configured; the one reference it can resolve is an absolute URI. -/
def plainConfig : Config where
  hsts := false
  cookies := false
  cache := none
  defaultHeaders := []
  netrc := none
  retry := false
  resolveReference _ reference :=
    if reference = "https://b.test/".toList then some (plainUri "b.test") else none

/-- A small environment: a transport, and a flow that makes the same edits each time. -/
structure Scene where
  transport : Request → Cause → Except TransportError ResponseParts
  edits : List HeaderEdit
  step : StatusCode → AuthStep

def Scene.handle (scene : Scene) : (op : ClientCall Unit) → Unit → op.Answer × Unit
  | .upgrade _, _ => (none, ())
  | .cookieHeader _, _ => (none, ())
  | .clock, _ => (.unixEpoch, ())
  | .lookup .., _ => (.miss, ())
  | .revalidated _ stale .., _ => (stale, ())
  | .superseded .., _ => ((), ())
  | .invalidatedBy .., _ => ((), ())
  | .record .., _ => ((), ())
  | .startFlow, _ => ((), ())
  | .authorize .., _ => ((scene.edits, ()), ())
  | .onResponse _ status _, _ => ((scene.step status, ()), ())
  | .send request cause, _ => (scene.transport request cause, ())
  | .storeCookies .., _ => ((), ())
  | .noteHsts .., _ => ((), ())
  | .retryVerdict _, _ => (.stop, ())
  | .sleep _, _ => ((), ())
  | .redirectVerdict _, _ => (.follow ⟨false, false⟩, ())

end Scene
end HClient.Client
