import HClient.Body.Frame
import HClient.Core.Table
import HClient.Native.Heads

/-!
# A request handed back unsent

`exchange` over HTTP/1 rewrites the request it is given and guards its body, and undoes the
rewriting where the connection hands the request back. The body keeps its gate, and the headers
keep the credentials of a proxy.
-/
namespace HClient.Native.Undo

open Body (Answer)

/-- A gate is shared with those who open it. -/
abbrev GateId := Nat

/-- The body of a request with the gate that withholds it, and the octets it has handed over
where they are counted. -/
structure Guarded where
  body : OutgoingBody
  gate : Option GateId
  sent : Option Nat

/-- A request on its way out; its body is in two parts, `request.body` and the rest. -/
structure Outgoing where
  request : Request
  gate : Option GateId
  sent : Option Nat

/-- Which gates are open, and what the caller's stream answers if it is polled. -/
structure World where
  opened : GateId → Bool
  streamed : Answer

/-! ## The body -/

def undeclaredRequestTrailers (names : List HeaderName) : ErrorSource :=
  let list := ", ".toList.intercalate names
  .text ("the request body emitted trailer field(s) [".toList ++ list ++
    ("] that the request's \x60Trailer:\x60 header did not declare, and this connection speaks " ++
      "HTTP/1.1, where hyper's encoder drops an undeclared trailer field silently (RFC 9110 " ++
      "§6.6.2) — send \x60Trailer: ").toList ++ list ++
    ("\x60 with the request head. The message was aborted rather than finished without them, so " ++
      "the server never saw a complete request; how much of it had already been flushed depends " ++
      "on whether the body pended before its trailers, and a non-idempotent request that had may " ++
      "already have taken effect — do not retry blindly").toList)

/-- Trailers with a name that was not declared become an error. -/
def checkTrailers (declared : Option (Finset HeaderName)) (fields : HeaderMap HeaderValue) :
    Answer :=
  match declared with
  | none => .trailers fields
  | some declared =>
      match ((fields.map Prod.fst).eraseDups).filter (· ∉ declared) with
      | [] => .trailers fields
      | undeclared => .failed (.new .body (undeclaredRequestTrailers undeclared))

def pollInner (inner : Inner) (streamed : Answer) : Answer × Inner :=
  match inner with
  | .buffered (some bytes) => (.data bytes, .buffered none)
  | .buffered none => (.ended, .buffered none)
  | .streaming hint ended => (streamed, .streaming hint ended)

namespace Guarded

/-- A gate that is not open withholds the body before anything is read of it. -/
def pollFrame (b : Guarded) (w : World) : Answer × Guarded :=
  if b.gate.any fun g => !w.opened g then (.pending, b)
  else
    let (polled, inner) := pollInner b.body.inner w.streamed
    let left := { b with body := { b.body with inner } }
    match polled with
    | .data bytes => (.data bytes, { left with sent := b.sent.map (· + bytes.length) })
    | .trailers fields => (checkTrailers b.body.declaredTrailers fields, left)
    | other => (other, left)

def polls : Guarded → List World → List Answer
  | _, [] => []
  | b, w :: worlds => (b.pollFrame w).1 :: polls (b.pollFrame w).2 worlds

end Guarded

/-! ## The exchange -/

namespace Outgoing

/-- A request as it is built, with nothing to guard its body. -/
def new (req : Request) (sent : Option Nat) : Outgoing :=
  ⟨{ req with body := { req.body with declaredTrailers := none } }, none, sent⟩

def withholdUntil (r : Outgoing) (gate : GateId) : Outgoing := { r with gate := some gate }

def allowUndeclaredTrailers (r : Outgoing) : Outgoing :=
  { r with request :=
      { r.request with body := { r.request.body with declaredTrailers := none } } }

/-- `Rewritten::undo`. -/
def undo (r : Outgoing) (hostInserted : Bool) (canonical : Uri) : Outgoing :=
  let headers := if hostInserted then r.request.headers.remove HeaderName.host else r.request.headers
  { r with request := { r.request with uri := canonical, headers } }.allowUndeclaredTrailers

/-- The request as hyper gets it, and whether its `Host` is ours. -/
def sendHttp1 (r : Outgoing) (via : Via) (gate : Option GateId) : Outgoing × Bool :=
  let (request, hostInserted) := Rewritten.forHttp1 r.request via
  let r := { r with request }
  (match gate with
    | some gate => r.withholdUntil gate
    | none => r, hostInserted)

/-- An attempt that hyper hands back unsent. -/
def unsent (r : Outgoing) (via : Via) (gate : Option GateId) (canonical : Uri) : Outgoing :=
  let (sent, hostInserted) := r.sendHttp1 via gate
  sent.undo hostInserted canonical

end Outgoing

/-- How one attempt goes out. -/
inductive Dispatch where
  | h1 (via : Via) (gate : Option GateId)
  | h2
  | h2Shared

/-- What the protocol below is handed, with the guards of the body. -/
structure Sending where
  handed : Handed
  gate : Option GateId
  sent : Option Nat

def start (r : Outgoing) : Dispatch → Sending
  | .h1 via gate =>
      let (r, _) := r.sendHttp1 via gate
      ⟨.hyper r.request, r.gate, r.sent⟩
  | .h2 => ⟨.h2 (Http2.exchange r.request) r.request.body, r.gate, r.sent⟩
  | .h2Shared => ⟨.h2 (Http2.exchangeShared r.request) r.request.body, r.gate, r.sent⟩

def Sending.guarded (s : Sending) : Guarded :=
  match s.handed with
  | .hyper req => ⟨req.body, s.gate, s.sent⟩
  | .h2 _ body => ⟨body, s.gate, s.sent⟩

/-! ## What an attempt leaves -/

/-- The same request, its headers as a multimap. -/
structure Request.Same (a b : Request) : Prop where
  method : a.method = b.method
  uri : a.uri = b.uri
  version : a.version = b.version
  headers : HeaderMap.Alike a.headers b.headers
  body : a.body = b.body

structure Head.Same (a b : Head) : Prop where
  method : a.method = b.method
  uri : a.uri = b.uri
  version : a.version = b.version
  headers : HeaderMap.Alike a.headers b.headers
  endOfStream : a.endOfStream = b.endOfStream

def Handed.Same : Handed → Handed → Prop
  | .hyper a, .hyper b => Request.Same a b
  | .h2 a body, .h2 b body' => Head.Same a b ∧ body = body'
  | _, _ => False

/-- The request is as it was before the attempt, nothing withholds its body, and the next attempt,
whatever it is, hands on the same head and reads the same body. The gate of the attempt that
failed stays as it is; nobody has it any more. -/
structure Restored (before after : Outgoing) (gate : Option GateId) (opened : GateId → Bool) :
    Prop where
  request : Request.Same after.request before.request
  sent : after.sent = before.sent
  unguarded : after.request.body.declaredTrailers = none
  free : ∀ g ∈ after.gate, opened g = true
  next : ∀ d, Handed.Same (start after d).handed (start before d).handed ∧
    ∀ worlds : List World, (∀ w ∈ worlds, ∀ g ∈ gate, w.opened g = opened g) →
      (start after d).guarded.polls worlds = (start before d).guarded.polls worlds

/-- The attempt wrote no credentials but those that were there, and its gate is none or open. -/
def LeavesNothing (req : Request) (via : Via) (gate : Option GateId) (opened : GateId → Bool) :
    Prop :=
  (∀ auth, via = .absoluteForm (some auth) →
    req.headers.getAll HeaderName.proxyAuthorization = [auth]) ∧
  ∀ g ∈ gate, opened g = true

/-! ## The headers -/

theorem proxyAuthorization_ne_host : HeaderName.proxyAuthorization ≠ HeaderName.host := by decide

/-- The headers of a request that is handed back. -/
def handedBack (req : Request) (via : Via) : HeaderMap HeaderValue :=
  let (headers, hostInserted) := Rewritten.withHost req.headers req.uri
  let headers := Rewritten.withAuth via headers
  if hostInserted then headers.remove HeaderName.host else headers

theorem getAll_withAuth_of_ne {name : HeaderName} (other : name ≠ HeaderName.proxyAuthorization)
    (via : Via) (headers : HeaderMap HeaderValue) :
    (Rewritten.withAuth via headers).getAll name = headers.getAll name := by
  unfold Rewritten.withAuth
  split
  · exact HeaderMap.getAll_insert_of_ne other
  · rfl

/-- A `Host` is put in only where there is none. -/
theorem withHost_cases (headers : HeaderMap HeaderValue) (uri : Uri) :
    Rewritten.withHost headers uri = (headers, false) ∨
      headers.getAll HeaderName.host = [] ∧ ∃ v,
        Rewritten.withHost headers uri = (headers.insert HeaderName.host v, true) := by
  unfold Rewritten.withHost
  split
  · exact .inl rfl
  next absent =>
    rw [Bool.not_eq_true, HeaderMap.containsKey_eq_false_iff] at absent
    split
    next v _ => exact .inr ⟨absent, v, rfl⟩
    · exact .inl rfl

theorem getAll_handedBack_of_ne {name : HeaderName}
    (other : name ≠ HeaderName.proxyAuthorization) (req : Request) (via : Via) :
    (handedBack req via).getAll name = req.headers.getAll name := by
  unfold handedBack
  rcases withHost_cases req.headers req.uri with kept | ⟨absent, v, put⟩
  · rw [kept]
    exact getAll_withAuth_of_ne other via req.headers
  · rw [put]
    dsimp only
    rw [if_pos rfl]
    by_cases host : name = HeaderName.host
    · rw [host, HeaderMap.getAll_remove_self, absent]
    · rw [HeaderMap.getAll_remove_of_ne host, getAll_withAuth_of_ne other,
        HeaderMap.getAll_insert_of_ne host]

theorem getAll_withHost_proxyAuthorization (headers : HeaderMap HeaderValue) (uri : Uri) :
    (Rewritten.withHost headers uri).1.getAll HeaderName.proxyAuthorization =
      headers.getAll HeaderName.proxyAuthorization := by
  rcases withHost_cases headers uri with kept | ⟨-, v, put⟩
  · rw [kept]
  · rw [put]
    exact HeaderMap.getAll_insert_of_ne proxyAuthorization_ne_host

theorem getAll_handedBack_proxyAuthorization (req : Request) (via : Via) :
    (handedBack req via).getAll HeaderName.proxyAuthorization =
      match via with
      | .absoluteForm (some auth) => [auth]
      | _ => req.headers.getAll HeaderName.proxyAuthorization := by
  have removed : (handedBack req via).getAll HeaderName.proxyAuthorization =
      (Rewritten.withAuth via (Rewritten.withHost req.headers req.uri).1).getAll
        HeaderName.proxyAuthorization := by
    unfold handedBack
    dsimp only
    split
    · exact HeaderMap.getAll_remove_of_ne proxyAuthorization_ne_host
    · rfl
  rw [removed]
  match via with
  | .direct => exact getAll_withHost_proxyAuthorization req.headers req.uri
  | .absoluteForm none => exact getAll_withHost_proxyAuthorization req.headers req.uri
  | .absoluteForm (some auth) => exact HeaderMap.getAll_insert_self _ _ auth

theorem handedBack_alike_iff (req : Request) (via : Via) :
    HeaderMap.Alike (handedBack req via) req.headers ↔
      ∀ auth, via = .absoluteForm (some auth) →
        req.headers.getAll HeaderName.proxyAuthorization = [auth] := by
  have auth := getAll_handedBack_proxyAuthorization req via
  constructor
  · rintro alike auth' rfl
    rw [← alike, auth]
  · intro kept name
    by_cases same : name = HeaderName.proxyAuthorization
    · rw [same, auth]
      split
      · exact (kept _ rfl).symm
      · rfl
    · exact getAll_handedBack_of_ne same req via

theorem unsent_new (req : Request) (sent : Option Nat) (via : Via) (gate : Option GateId) :
    (Outgoing.new req sent).unsent via gate req.uri =
      ⟨{ (Outgoing.new req sent).request with headers := handedBack req via }, gate, sent⟩ := by
  cases gate <;> rfl

/-! ## The next attempt -/

theorem declaredTrailerNames_congr {headers headers' : HeaderMap HeaderValue}
    (alike : HeaderMap.Alike headers headers') :
    declaredTrailerNames headers = declaredTrailerNames headers' := by
  unfold declaredTrailerNames
  rw [alike]

theorem withHost_congr {headers headers' : HeaderMap HeaderValue}
    (alike : HeaderMap.Alike headers headers') (uri : Uri) :
    HeaderMap.Alike (Rewritten.withHost headers uri).1 (Rewritten.withHost headers' uri).1 := by
  unfold Rewritten.withHost
  rw [alike.containsKey]
  split
  · exact alike
  · split
    · exact alike.insert _ _
    · exact alike

theorem withAuth_congr {headers headers' : HeaderMap HeaderValue}
    (alike : HeaderMap.Alike headers headers') (via : Via) :
    HeaderMap.Alike (Rewritten.withAuth via headers) (Rewritten.withAuth via headers') := by
  unfold Rewritten.withAuth
  split
  · exact alike.insert _ _
  · exact alike

theorem forHttp1_congr {a b : Request} (same : Request.Same a b) (via : Via) :
    Request.Same (Rewritten.forHttp1 a via).1 (Rewritten.forHttp1 b via).1 := by
  obtain ⟨method, uri, version, headers, body⟩ := a
  obtain ⟨method', uri', version', headers', body'⟩ := b
  obtain ⟨rfl, rfl, rfl, alike, rfl⟩ := same
  have sent := withAuth_congr (withHost_congr alike uri) via
  refine ⟨rfl, rfl, rfl, sent, ?_⟩
  unfold Rewritten.forHttp1
  dsimp only
  rw [declaredTrailerNames_congr sent]

theorem setContentLength_congr {headers headers' : HeaderMap HeaderValue}
    (alike : HeaderMap.Alike headers headers') (body : OutgoingBody) :
    HeaderMap.Alike (Http2.setContentLength headers body)
      (Http2.setContentLength headers' body) := by
  unfold Http2.setContentLength
  rw [alike.containsKey]
  split
  · exact alike
  · split
    · exact alike
    · split
      · exact alike.insert _ _
      · exact alike

theorem exchange_congr {a b : Request} (same : Request.Same a b) :
    Head.Same (Http2.exchange a) (Http2.exchange b) := by
  refine ⟨same.method, same.uri, rfl, ?_, congrArg OutgoingBody.isEndStream same.body⟩
  unfold Http2.exchange
  rw [same.body]
  exact setContentLength_congr (same.headers.foldl_remove _) b.body

theorem exchangeShared_congr {a b : Request} (same : Request.Same a b) :
    Head.Same (Http2.exchangeShared a) (Http2.exchangeShared b) :=
  ⟨same.method, same.uri, rfl, same.headers.foldl_remove _,
    congrArg OutgoingBody.isEndStream same.body⟩

theorem start_congr {a b : Outgoing} (same : Request.Same a.request b.request) (d : Dispatch) :
    Handed.Same (start a d).handed (start b d).handed := by
  cases d with
  | h1 via gate => cases gate <;> exact forHttp1_congr same via
  | h2 => exact ⟨exchange_congr same, same.body⟩
  | h2Shared => exact ⟨exchangeShared_congr same, same.body⟩

theorem pollFrame_gate (b : Guarded) (w : World) : (b.pollFrame w).2.gate = b.gate := by
  unfold Guarded.pollFrame
  split
  · rfl
  · dsimp only
    split <;> rfl

/-- A body whose gate is open is read as one that has none. -/
theorem pollFrame_of_open {b : Guarded} {w : World} (free : ∀ g ∈ b.gate, w.opened g = true) :
    b.pollFrame w =
      (({ b with gate := none }.pollFrame w).1,
        { ({ b with gate := none }.pollFrame w).2 with gate := b.gate }) := by
  have passes : (b.gate.any fun g => !w.opened g) = false := by
    cases held : b.gate with
    | none => rfl
    | some g => rw [Option.any_some, free g held, Bool.not_true]
  unfold Guarded.pollFrame
  rw [passes]
  dsimp only [Option.any_none]
  rw [if_neg Bool.false_ne_true, if_neg Bool.false_ne_true]
  split <;> rfl

theorem polls_of_open {b : Guarded} {worlds : List World}
    (free : ∀ w ∈ worlds, ∀ g ∈ b.gate, w.opened g = true) :
    b.polls worlds = { b with gate := none }.polls worlds := by
  induction worlds generalizing b with
  | nil => rfl
  | cons w worlds ih =>
      obtain ⟨first, rest⟩ := List.forall_mem_cons.mp free
      have gate := pollFrame_gate { b with gate := none } w
      rw [Guarded.polls, Guarded.polls, pollFrame_of_open first]
      generalize { b with gate := none }.pollFrame w = r at gate ⊢
      obtain ⟨answer, body, _, sent⟩ := r
      obtain rfl := gate
      exact congrArg (answer :: ·) (ih rest)

@[simp] theorem guarded_gate (s : Sending) : s.guarded.gate = s.gate := by
  unfold Sending.guarded
  split <;> rfl

/-- An attempt has a gate of its own, or the one its request came with. -/
theorem start_gate (a b : Outgoing) (d : Dispatch) :
    (start a d).gate = (start b d).gate ∨
      (start a d).gate = a.gate ∧ (start b d).gate = b.gate := by
  cases d with
  | h1 via gate =>
      cases gate with
      | none => exact .inr ⟨rfl, rfl⟩
      | some gate => exact .inl rfl
  | h2 => exact .inr ⟨rfl, rfl⟩
  | h2Shared => exact .inr ⟨rfl, rfl⟩

/-- But for their gates, attempts read the same body. -/
theorem start_guarded {a b : Outgoing} (same : Request.Same a.request b.request)
    (counted : a.sent = b.sent) (d : Dispatch) :
    { (start a d).guarded with gate := (start b d).gate } = (start b d).guarded := by
  have sent (body : OutgoingBody) (gate : Option GateId) :
      Guarded.mk body gate a.sent = .mk body gate b.sent := by rw [counted]
  cases d with
  | h1 via gate =>
      have body := (forHttp1_congr same via).body
      cases gate <;> exact (congrArg (Guarded.mk · _ a.sent) body).trans (sent _ _)
  | h2 => exact (congrArg (Guarded.mk · b.gate a.sent) same.body).trans (sent _ _)
  | h2Shared => exact (congrArg (Guarded.mk · b.gate a.sent) same.body).trans (sent _ _)

theorem polls_start {a b : Outgoing} (same : Request.Same a.request b.request)
    (counted : a.sent = b.sent) (ungated : b.gate = none) (d : Dispatch) {worlds : List World}
    (free : ∀ w ∈ worlds, ∀ g ∈ a.gate, w.opened g = true) :
    (start a d).guarded.polls worlds = (start b d).guarded.polls worlds := by
  rw [← start_guarded same counted d]
  rcases start_gate a b d with gates | ⟨theirs, ours⟩
  · rw [← gates, ← guarded_gate]
  · rw [ours, ungated]
    apply polls_of_open
    rw [guarded_gate, theirs]
    exact free

/-- Whatever the request, the proxy and the gate, an attempt handed back unsent is undone exactly
where it wrote no credentials that were not there, and has no gate or an open one. -/
theorem restored_iff (req : Request) (sent : Option Nat) (via : Via) (gate : Option GateId)
    (opened : GateId → Bool) :
    Restored (.new req sent) ((Outgoing.new req sent).unsent via gate req.uri) gate opened ↔
      LeavesNothing req via gate opened := by
  rw [unsent_new]
  constructor
  · intro restored
    exact ⟨(handedBack_alike_iff req via).mp restored.request.headers, restored.free⟩
  · rintro ⟨credentials, free⟩
    have same : Request.Same
        { (Outgoing.new req sent).request with headers := handedBack req via }
        (Outgoing.new req sent).request :=
      ⟨rfl, rfl, rfl, (handedBack_alike_iff req via).mpr credentials, rfl⟩
    refine ⟨same, rfl, rfl, free, fun d => ⟨start_congr same d, fun worlds still => ?_⟩⟩
    refine polls_start (a := ⟨_, gate, sent⟩) (b := .new req sent) same rfl rfl d ?_
    intro w mem g held
    rw [still w mem g held]
    exact free g held

/-- A `GET` of a page with nothing else to it. -/
def plain : Request :=
  ⟨.get, ⟨some .http, some ⟨none, "example.com".toList, none⟩, some ⟨['/'], none⟩⟩, .http11, [],
    ⟨.buffered none, none⟩⟩

/-- The credentials of the proxy stay in the headers; the gate stays in the body, closed. -/
theorem unsent_leaves :
    ¬ Restored (.new plain none)
      ((Outgoing.new plain none).unsent (.absoluteForm (some [66])) none plain.uri) none
      (fun _ => false) ∧
    ¬ Restored (.new plain none) ((Outgoing.new plain none).unsent .direct (some 0) plain.uri)
      (some 0) (fun _ => false) := by
  constructor
  · intro restored
    have none_left := restored.request.headers HeaderName.proxyAuthorization
    revert none_left
    decide
  · intro restored
    exact Bool.false_ne_true (restored.free 0 rfl)

end HClient.Native.Undo
