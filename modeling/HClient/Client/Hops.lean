import HClient.Client.Stages

/-!
# Counting the redirects

The redirect policies of `sansio::redirect`, and what the loop over the hops tells them: how
many redirects it has followed and where it has been. The counter is a `u8`, so it says the
number only up to 255; a limit in a conjunction keeps a run below that.
-/
namespace HClient.Client

open Effect Program Config

section Policies

/-- A policy, as what it says of one hop. -/
abbrev RedirectPolicy := ProposedRedirect → RedirectVerdict

/-- A grant survives only if both policies gave it. -/
def Allow.and (a b : Allow) : Allow :=
  ⟨a.preserveMethod && b.preserveMethod, a.keepCredentials && b.keepCredentials⟩

namespace RedirectVerdict

/-- `RedirectVerdict::follow`, with no relaxations. -/
def plain : RedirectVerdict := .follow ⟨false, false⟩

/-- The more conservative of two verdicts. -/
def and : RedirectVerdict → RedirectVerdict → RedirectVerdict
  | .refuse r, _ => .refuse r
  | _, .refuse r => .refuse r
  | .stop, _ => .stop
  | _, .stop => .stop
  | .follow a, .follow b => .follow (a.and b)

def refuses : RedirectVerdict → Bool
  | .refuse _ => true
  | _ => false

theorem refuses_and (a b : RedirectVerdict) : (a.and b).refuses = (a.refuses || b.refuses) := by
  cases a <;> cases b <;> rfl

end RedirectVerdict

namespace RedirectPolicy

def both (a b : RedirectPolicy) : RedirectPolicy := fun hop =>
  match a hop with
  | .refuse why => .refuse why
  | first => first.and (b hop)

def forbid : RedirectPolicy := fun _ => .stop

def limit (n : UInt8) : RedirectPolicy := fun hop =>
  if n.toNat ≤ hop.hops then .refuse "redirect limit reached".toList else .plain

def sameOriginOnly : RedirectPolicy := fun hop =>
  if hop.crossOrigin then .refuse "redirect leaves the origin".toList else .plain

def httpsOnly : RedirectPolicy := fun hop =>
  if hop.source.scheme = some .https ∧ hop.target.scheme ≠ some .https then
    .refuse "redirect downgrades https".toList
  else .plain

/-- The loop of `All::follow`, from the verdict it has come to. -/
def allFrom (hop : ProposedRedirect) : RedirectVerdict → List RedirectPolicy → RedirectVerdict
  | verdict, [] => verdict
  | verdict, policy :: policies =>
      match verdict.and (policy hop) with
      | .refuse why => .refuse why
      | verdict => allFrom hop verdict policies

def all (policies : List RedirectPolicy) : RedirectPolicy := fun hop =>
  allFrom hop .plain policies

/-- A `Limit` of `n` occurs in a conjunction. -/
inductive Limited (n : UInt8) : RedirectPolicy → Prop
  | limit : Limited n (limit n)
  | left {a b : RedirectPolicy} (h : Limited n a) : Limited n (both a b)
  | right {a b : RedirectPolicy} (h : Limited n b) : Limited n (both a b)
  | all {policies : List RedirectPolicy} {policy : RedirectPolicy} (member : policy ∈ policies)
      (h : Limited n policy) : Limited n (all policies)

theorem refuses_both (a b : RedirectPolicy) (hop : ProposedRedirect) :
    (both a b hop).refuses = ((a hop).refuses || (b hop).refuses) := by
  unfold both
  split
  next why same => rw [same]; rfl
  · exact RedirectVerdict.refuses_and _ _

theorem refuses_allFrom (hop : ProposedRedirect) (verdict : RedirectVerdict)
    (policies : List RedirectPolicy) :
    (allFrom hop verdict policies).refuses =
      (verdict.refuses || policies.any fun policy => (policy hop).refuses) := by
  induction policies generalizing verdict with
  | nil => exact (Bool.or_false _).symm
  | cons policy policies ih =>
      have met := RedirectVerdict.refuses_and verdict (policy hop)
      rw [List.any_cons, ← Bool.or_assoc, ← met]
      unfold allFrom
      split
      next why same => rw [same]; rfl
      · exact ih _

/-- Wherever it stands in a conjunction, a limit that is reached refuses. -/
theorem Limited.refuses {n : UInt8} {policy : RedirectPolicy} (limited : Limited n policy)
    {hop : ProposedRedirect} (reached : n.toNat ≤ hop.hops) : (policy hop).refuses = true := by
  induction limited with
  | limit => rw [RedirectPolicy.limit, if_pos reached]; rfl
  | left h ih => rw [refuses_both, ih, Bool.true_or]
  | right h ih => rw [refuses_both, ih, Bool.or_true]
  | @all policies policy member h ih =>
      have any : (policies.any fun policy => (policy hop).refuses) = true :=
        List.any_eq_true.mpr ⟨policy, member, ih⟩
      rw [RedirectPolicy.all, refuses_allFrom, any, Bool.or_true]

end RedirectPolicy

theorem settle_of_refuses {p : ProposedRedirect} {verdict : RedirectVerdict} {f : Follow}
    (refuses : verdict.refuses = true) : settle p verdict ≠ .follow f := by
  cases verdict <;> cases refuses
  exact RedirectAction.noConfusion

end Policies

variable {F : Type} {cfg : Config}

/-- Not a question to the redirect policy. -/
def Unasked : ClientCall F → Prop
  | .redirectVerdict _ => False
  | _ => True

/-- A question to the redirect policy, if it is one, that tells it of `s`. -/
def Tells (s : RunState) : ClientCall F → Prop
  | .redirectVerdict p => p.hops = s.hops ∧ p.previous = s.visited
  | _ => True

theorem Unasked.tells (s : RunState) (op : ClientCall F) (unasked : Unasked op) : Tells s op := by
  cases op with
  | redirectVerdict p => cases unasked
  | _ => trivial

section Stages
variable {hp : HopParts} {replay : Option RequestBody}

/-- The program never asks the redirect policy. -/
abbrev NeverAsks {α : Type} (p : Script F α) : Prop := p.Within Unasked fun _ => True

theorem NeverAsks.bind {α β : Type} {p : Script F α} {f : α → Script F β} (first : NeverAsks p)
    (rest : ∀ a, NeverAsks (f a)) : NeverAsks (p.bind f) :=
  Within.bind first fun a _ => rest a

theorem prepare_neverAsks (s : RunState) : NeverAsks (cfg.prepare s : Script F HopParts) := by
  unfold prepare upgradeScheme attachCookies
  refine .bind ?_ fun uri => .bind ?_ fun hp => trivial
  · split
    · exact ⟨trivial, fun _ => trivial⟩
    · trivial
  · split
    · trivial
    · exact ⟨trivial, fun _ => trivial⟩

theorem cacheNow_neverAsks : NeverAsks (cfg.cacheNow : Script F SystemTime) := by
  unfold cacheNow
  cases cfg.cache with
  | none => trivial
  | some cache => exact ⟨trivial, fun _ => trivial⟩

theorem cacheBefore_neverAsks (owns : Bool) :
    NeverAsks (cfg.cacheBefore hp owns : Script F _) := by
  unfold cacheBefore
  split
  · trivial
  · refine ⟨trivial, fun now => ⟨trivial, fun found => ?_⟩⟩
    cases found <;> trivial

theorem noteResponse_neverAsks (parts : ResponseParts) :
    NeverAsks (cfg.noteResponse hp parts : Script F _) := by
  refine .bind ?_ fun _ => ?_
  · cases cfg.cookies with
    | false => trivial
    | true => exact ⟨trivial, fun _ => trivial⟩
  · cases cfg.hsts with
    | false => trivial
    | true => exact ⟨trivial, fun _ => trivial⟩

theorem sendHop_neverAsks (body : RequestBody) (cause : Cause) (written : List HeaderName) :
    NeverAsks (cfg.sendHop hp body cause written : Script F _) := by
  refine ⟨trivial, fun answer => ?_⟩
  cases answer with
  | error e => trivial
  | ok parts => exact (noteResponse_neverAsks parts).bind fun _ => trivial

theorem askRetry_neverAsks (s : RetryState) (outcome : Except TransportError Received) :
    NeverAsks (cfg.askRetry replay s outcome : Script F _) := by
  unfold askRetry
  split
  · trivial
  · refine ⟨trivial, fun verdict => ?_⟩
    cases verdict with
    | stop => trivial
    | after delay => exact ⟨trivial, fun _ => cacheNow_neverAsks.bind fun _ => trivial⟩

theorem retryLoop_neverAsks (fuel : Nat) (s : RetryState) :
    NeverAsks (cfg.retryLoop replay fuel s : Script F _) := by
  induction fuel generalizing s with
  | zero => trivial
  | succ fuel ih =>
      unfold retryLoop
      split
      · trivial
      refine (sendHop_neverAsks _ _ _).bind fun outcome => ?_
      refine (askRetry_neverAsks _ _).bind fun again => ?_
      cases again with
      | none => trivial
      | some requestedAt => exact ih _

theorem replayTooEarly_neverAsks (x : Exchange) :
    NeverAsks (cfg.replayTooEarly replay x : Script F _) := by
  unfold replayTooEarly
  split
  · trivial
  split
  · trivial
  · exact cacheNow_neverAsks.bind fun _ => (sendHop_neverAsks _ _ _).bind fun _ => trivial

theorem sendLeg_neverAsks (flow : F) (again : RequestBody) (x : Exchange) :
    NeverAsks (cfg.sendLeg flow again x) := by
  refine ⟨trivial, fun edits => ?_⟩
  exact cacheNow_neverAsks.bind fun _ => (sendHop_neverAsks _ _ _).bind fun _ => trivial

theorem legLoop_neverAsks (left : Nat) (flow : F) (x : Exchange) :
    NeverAsks (cfg.legLoop replay left flow x) := by
  induction left generalizing flow x with
  | zero =>
      unfold legLoop
      refine ⟨trivial, fun step => ?_⟩
      obtain ⟨step, flow⟩ := step
      cases step <;> trivial
  | succ left ih =>
      unfold legLoop
      refine ⟨trivial, fun step => ?_⟩
      obtain ⟨step, flow⟩ := step
      cases step with
      | finished => trivial
      | again =>
          simp only
          split
          · trivial
          · refine (sendLeg_neverAsks flow _ x).bind fun r => ?_
            obtain ⟨sent, flow⟩ := r
            cases sent with
            | error e => trivial
            | ok x => exact ih flow x

theorem exchange_neverAsks (fuel : Nat) (s : RunState) :
    NeverAsks (cfg.exchange fuel s hp replay : Script F _) := by
  unfold exchange
  refine .bind ?_ fun (flow, hp) => ?_
  · unfold authorizeFirst
    split
    · trivial
    · exact ⟨trivial, fun _ => ⟨trivial, fun _ => trivial⟩⟩
  refine cacheNow_neverAsks.bind fun _ => (retryLoop_neverAsks _ _).bind fun sent => ?_
  cases sent with
  | error e => trivial
  | ok x =>
      refine (replayTooEarly_neverAsks x).bind fun replayed => ?_
      cases replayed with
      | error e => trivial
      | ok x =>
          cases flow with
          | none => trivial
          | some flow => exact legLoop_neverAsks _ flow x

theorem cacheAfter_neverAsks (plan : Plan) (x : Exchange) :
    NeverAsks (cfg.cacheAfter plan x : Script F _) := by
  have recorded : ∀ cache receivedAt,
      NeverAsks (recordResponse cache x receivedAt : Script F _) := by
    intro cache receivedAt
    refine ⟨trivial, fun _ => ?_⟩
    simp only
    split
    · trivial
    · exact ⟨trivial, fun _ => trivial⟩
  unfold cacheAfter
  split
  · trivial
  refine ⟨trivial, fun receivedAt => ?_⟩
  simp only
  split
  · exact recorded _ _
  split
  · exact ⟨trivial, fun _ => trivial⟩
  · exact ⟨trivial, fun _ => recorded _ _⟩

end Stages

/-- What the end of a hop leaves of the counter and of the history. -/
def CountsOn (s : RunState) (e : HopEnd) : Prop :=
  ∀ next, e.next = some next → next.hops = (s.hops + 1) % 256 ∧
    next.visited = s.visited ++ [next.hp.uri]

theorem act_countsOn (s : RunState) (hp : HopParts) (replay : Option RequestBody)
    (attemptId : Attempt) (resp : ResponseParts) (action : RedirectAction) :
    CountsOn s (act s hp replay attemptId resp action) := by
  intro next continued
  cases action with
  | stop => cases continued
  | refused why target => cases continued
  | invalidLocation => cases continued
  | follow f =>
      simp only [act] at continued
      split at continued
      · cases continued
      next parts body followed =>
        cases continued
        refine ⟨rfl, ?_⟩
        simp only
        rw [nextHop_uri followed]

theorem afterHop_countsOn (s : RunState) (hp : HopParts) (replay : Option RequestBody)
    (attemptId : Attempt) (resp : ResponseParts) :
    (cfg.afterHop s hp replay attemptId resp : Script F _).Within (Tells s) (CountsOn s) := by
  unfold afterHop
  split
  · exact act_countsOn s hp replay attemptId resp _
  next p proposed =>
    obtain ⟨hops, previous⟩ := told_of_propose proposed
    exact ⟨⟨hops, previous⟩, fun verdict => act_countsOn s hp replay attemptId resp _⟩

/-- A hop tells the policy of its own state only, and counts on from there. -/
theorem hop_countsOn (fuel : Nat) (s : RunState) :
    (cfg.hop fuel s : Script F HopEnd).Within (Tells s) (CountsOn s) := by
  have silent {α : Type} {p : Script F α} (h : NeverAsks p) : p.Within (Tells s) fun _ => True :=
    Within.mono h (Unasked.tells s) fun _ => id
  unfold hop
  refine (silent (prepare_neverAsks s)).bind fun hp _ => ?_
  refine (silent (cacheBefore_neverAsks _)).bind fun before _ => ?_
  match before with
  | .inl (hp, answered) => exact afterHop_countsOn s hp _ _ answered
  | .inr (hp, plan) =>
      refine (silent (exchange_neverAsks fuel s)).bind fun sent _ => ?_
      cases sent with
      | error e =>
          intro next continued
          cases continued
      | ok x =>
          exact (silent (cacheAfter_neverAsks plan x)).bind fun resp _ =>
            afterHop_countsOn s x.hp _ _ resp

/-- A question to the policy with its answer. -/
def verdictOf : Event (ClientCall F) ClientCall.Answer → Option (ProposedRedirect × RedirectVerdict)
  | ⟨.redirectVerdict p, verdict⟩ => some (p, verdict)
  | _ => none

/-- The answer, if the policy gave it, is that of a policy in which a limit of `n` occurs. -/
def AnsweredWithin (n : UInt8) (e : Event (ClientCall F) ClientCall.Answer) : Prop :=
  ∀ p verdict, verdictOf e = some (p, verdict) →
    ∃ policy, RedirectPolicy.Limited n policy ∧ verdict = policy p

/-- Nothing is followed once the counter has reached the limit. -/
def StopsAt (n : UInt8) (s : RunState) (e : HopEnd) : Prop := e.next ≠ none → s.hops < n.toNat

theorem act_stops {n : UInt8} {s : RunState} {hp : HopParts} {replay : Option RequestBody}
    {attemptId : Attempt} {resp : ResponseParts} {action : RedirectAction}
    (stops : ∀ f, action = .follow f → s.hops < n.toNat) :
    StopsAt n s (act s hp replay attemptId resp action) := by
  intro continued
  cases action with
  | follow f => exact stops f rfl
  | _ => exact absurd rfl continued

theorem afterHop_stopsAt (n : UInt8) (s : RunState) (hp : HopParts) (replay : Option RequestBody)
    (attemptId : Attempt) (resp : ResponseParts) :
    (Monitor.relying (AnsweredWithin n)).wp
      (cfg.afterHop s hp replay attemptId resp : Script F HopEnd) (fun _ e => StopsAt n s e) () := by
  unfold afterHop
  split
  next action proposed =>
    exact act_stops fun f same => absurd (same ▸ proposed) propose_ne_follow
  next p proposed =>
    refine ⟨trivial, fun verdict answered => act_stops fun f same => ?_⟩
    obtain ⟨policy, limited, rfl⟩ := answered p verdict rfl
    obtain ⟨hops, -⟩ := told_of_propose proposed
    rw [← hops]
    by_contra reached
    exact settle_of_refuses (limited.refuses (Nat.not_lt.mp reached)) same

theorem hop_stopsAt (n : UInt8) (fuel : Nat) (s : RunState) :
    (Monitor.relying (AnsweredWithin n)).wp (cfg.hop fuel s : Script F HopEnd)
      (fun _ e => StopsAt n s e) () := by
  have top (α : Type) (p : Script F α) :
      (Monitor.relying (AnsweredWithin n)).wp p (fun _ _ => True) () :=
    Monitor.wp_top _ (fun _ _ => trivial) p ()
  unfold hop
  refine Monitor.wp_seq _ (top _ _) fun _ hp _ => ?_
  refine Monitor.wp_seq _ (top _ _) fun _ before _ => ?_
  match before with
  | .inl (hp, answered) => exact afterHop_stopsAt n s hp _ _ answered
  | .inr (hp, plan) =>
      refine Monitor.wp_seq _ (top _ _) fun _ sent _ => ?_
      cases sent with
      | error e => exact fun continued => absurd rfl continued
      | ok x =>
          exact Monitor.wp_seq _ (top _ _) fun _ resp _ => afterHop_stopsAt n s x.hp _ _ resp

section Chains

abbrev Turns (F : Type) := List (Turn RunState (ClientCall F) ClientCall.Answer HopEnd)

variable {fuel : Nat} {s s' : RunState} {turns : Turns F}

/-- The URIs of the hops a chain has made, and of the one it has come to. -/
def visits (turns : Turns F) (s : RunState) : List Uri :=
  turns.map (fun turn => turn.start.hp.uri) ++ [s.hp.uri]

/-- A step of the counter that stays within its type. -/
def CounterFits (turns : Turns F) : Prop := ∀ turn ∈ turns, turn.start.hops + 1 < 256

theorem chain_hops (chain : Chain cfg fuel s turns s') (fits : s.hops < 256) :
    s'.hops = (s.hops + turns.length) % 256 := by
  induction chain with
  | refl s => exact (Nat.mod_eq_of_lt fits).symm
  | turn steps continued rest ih =>
      obtain ⟨hops, -⟩ := (hop_countsOn fuel _).steps steps _ continued
      rw [ih (hops ▸ Nat.mod_lt _ (by decide)), hops, List.length_cons]
      omega

theorem chain_visited {earlier : List Uri} (chain : Chain cfg fuel s turns s')
    (visited : s.visited = earlier ++ [s.hp.uri]) :
    s'.visited = earlier ++ visits turns s' := by
  induction chain generalizing earlier with
  | refl s => exact visited
  | @turn s middle s' t e turns steps continued rest ih =>
      obtain ⟨-, grown⟩ := (hop_countsOn fuel _).steps steps _ continued
      rw [ih grown, visited, visits, visits, List.map_cons, List.append_assoc]
      rfl

theorem chain_counterFits (chain : Chain cfg fuel s turns s') (fits : s.hops < 256) :
    CounterFits turns ↔ s.hops + turns.length < 256 := by
  induction chain with
  | refl s => exact ⟨fun _ => fits, fun _ turn member => by cases member⟩
  | @turn s middle s' t e turns steps continued rest ih =>
      obtain ⟨hops, -⟩ := (hop_countsOn fuel _).steps steps _ continued
      have later := ih (hops ▸ Nat.mod_lt _ (by decide))
      unfold CounterFits at later ⊢
      rw [List.forall_mem_cons, later, hops, List.length_cons]
      change s.hops + 1 < 256 ∧ _ ↔ _
      omega

/-- With a limit in every answer, a chain is no longer than the limit allows. -/
theorem chain_limited {n : UInt8} (chain : Chain cfg fuel s turns s')
    (limited : ∀ turn ∈ turns, ∀ e ∈ turn.trace, AnsweredWithin n e) (below : s.hops ≤ n.toNat) :
    s.hops + turns.length ≤ n.toNat := by
  induction chain with
  | refl s => exact below
  | @turn s middle s' t e turns steps continued rest ih =>
      obtain ⟨first, others⟩ := List.forall_mem_cons.mp limited
      obtain ⟨hops, -⟩ := (hop_countsOn fuel _).steps steps _ continued
      have stops := Monitor.wp_result _ (hop_stopsAt n fuel s) steps
        (Monitor.relying_answered first)
      have more : s.hops < n.toNat := stops (by rw [continued]; exact Option.some_ne_none _)
      have small := n.toNat_lt
      have counted : middle.hops = s.hops + 1 := by rw [hops]; omega
      have rest := ih others (by omega)
      rw [List.length_cons]
      omega

/-- The policy is told how many redirects were followed and where they led. -/
def AsksRight (cfg : Config) (fuel : Nat) (turns : Turns F) (s : RunState) : Prop :=
  ∀ t q, (cfg.hop fuel s : Script F HopEnd).Steps t q → ∀ e ∈ t, ∀ p, e.op = .redirectVerdict p →
    p.hops = turns.length ∧ p.previous = visits turns s

/-- What a run is to keep of its redirects. -/
structure Counted (cfg : Config) (fuel : Nat) (turns : Turns F) (s : RunState) : Prop where
  fits : CounterFits turns
  asks : AsksRight cfg fuel turns s
  limited : ∀ n : UInt8, (∀ turn ∈ turns, ∀ e ∈ turn.trace, AnsweredWithin n e) →
    turns.length ≤ n.toNat

/-- The redirects of a run are counted as long as there are no more than 255 of them, which a
limit in the policy sees to; the history is right in any case. -/
theorem counted_iff (F : Type) (cfg : Config) (fuel : Nat) (method : Method) (uri : Uri)
    (headers : HeaderMap HeaderValue) (version : HttpVersion) (allowEarlyData : Bool)
    (body : RequestBody) (auth : Bool) (requestId : Nat) (turns : Turns F) (s : RunState)
    (chain : Chain cfg fuel
      (.start method uri headers version allowEarlyData body auth requestId) turns s) :
    (Counted cfg fuel turns s ↔ turns.length < 256) ∧ s.visited = visits turns s ∧
      ∀ n : UInt8, (∀ turn ∈ turns, ∀ e ∈ turn.trace, AnsweredWithin n e) →
        turns.length ≤ n.toNat := by
  have started : 0 < 256 := by decide
  have hops : s.hops = (0 + turns.length) % 256 := chain_hops chain started
  have fits : CounterFits turns ↔ 0 + turns.length < 256 := chain_counterFits chain started
  rw [Nat.zero_add] at hops fits
  have visited : s.visited = [] ++ visits turns s := chain_visited chain rfl
  have limited : ∀ n : UInt8, (∀ turn ∈ turns, ∀ e ∈ turn.trace, AnsweredWithin n e) →
      turns.length ≤ n.toNat := by
    intro n within
    have bounded : 0 + turns.length ≤ n.toNat := chain_limited chain within (Nat.zero_le _)
    rwa [Nat.zero_add] at bounded
  refine ⟨⟨fun counted => fits.mp counted.fits, fun few => ⟨fits.mpr few, ?_, limited⟩⟩,
    visited, limited⟩
  intro t q steps e member p asked
  have tells := (hop_countsOn fuel s).trace steps e member
  rw [asked] at tells
  obtain ⟨told, previous⟩ := tells
  exact ⟨by rw [told, hops, Nat.mod_eq_of_lt few], previous.trans visited⟩

end Chains

section Scene

/-- The answer, if the policy gave it, is that of `policy`. -/
def AnsweredBy (policy : RedirectPolicy) (e : Event (ClientCall F) ClientCall.Answer) : Prop :=
  ∀ p verdict, verdictOf e = some (p, verdict) → verdict = policy p

/-- One server that redirects to itself, and a policy that gives its own answers. -/
def loopScene (policy : RedirectPolicy) : (op : ClientCall Unit) → Unit → op.Answer × Unit
  | .redirectVerdict p, _ => (policy p, ())
  | op, u => Scene.handle {
      transport _ _ := .ok ⟨302, .http11, [(HeaderName.location, .ofAscii "https://b.test/")]⟩
      edits := []
      step _ := .finished } op u

theorem loopScene_answers {α : Type} (policy : RedirectPolicy) (p : Script Unit α) :
    ∀ e ∈ p.log (loopScene policy) (), AnsweredBy policy e := by
  induction p with
  | done a =>
      intro e member
      cases member
  | call op next ih =>
      intro e member
      obtain rfl | later := List.mem_cons.mp member
      · intro p verdict same
        cases op with
        | redirectVerdict p' =>
            cases same
            rfl
        | _ => cases same
      · exact ih _ e later

/-- The state of the loop after redirects from `b.test` to itself. -/
def loopState (hops : Nat) (visited : List Uri) (attempt : Option Attempt)
    (attemptId : Attempt) : RunState where
  hp := ⟨.get, plainUri "b.test", [], .http11, false, attempt⟩
  body := .empty
  auth := false
  hops
  visited
  attemptId
  callerOwnsTheCookieHeader := false
  callerOwnsTheConditionals := false

def loopTurn (policy : RedirectPolicy) (s : RunState) :
    Turn RunState (ClientCall Unit) ClientCall.Answer HopEnd where
  start := s
  trace := (plainConfig.hop 1 s).log (loopScene policy) ()
  result := ((plainConfig.hop 1 s).runWith (loopScene policy) ()).1

/-- A turn of the loop is followed by the next one, as far as the policy looks at origins. -/
theorem loopTurn_next (hops : Nat) (visited : List Uri) (attempt : Option Attempt)
    (attemptId : Attempt) :
    (loopTurn .sameOriginOnly (loopState hops visited attempt attemptId)).result.next =
      some (loopState ((hops + 1) % 256) (visited ++ [plainUri "b.test"]) (some attemptId)
        attemptId.nextHop) := rfl

theorem loopTurn_asks (hops : Nat) (visited : List Uri) (attempt : Option Attempt)
    (attemptId : Attempt) :
    ∃ e ∈ (loopTurn .sameOriginOnly (loopState hops visited attempt attemptId)).trace,
      ∃ p, e.op = .redirectVerdict p ∧ p.hops = hops :=
  ⟨_, .tail _ (.head _), _, rfl, rfl⟩

/-- The loop comes round as often as it is let. -/
theorem loop_chain (k : Nat) {hops : Nat} (fits : hops < 256) (visited : List Uri)
    (attempt : Option Attempt) (attemptId : Attempt) :
    ∃ (turns : Turns Unit) (visited' : List Uri) (attempt' : Option Attempt)
        (attemptId' : Attempt),
      Chain plainConfig 1 (loopState hops visited attempt attemptId) turns
          (loopState ((hops + k) % 256) visited' attempt' attemptId') ∧
        turns.length = k ∧
          ∀ turn ∈ turns, ∀ e ∈ turn.trace, AnsweredBy .sameOriginOnly e := by
  induction k generalizing hops visited attempt attemptId with
  | zero =>
      rw [Nat.add_zero, Nat.mod_eq_of_lt fits]
      exact ⟨[], visited, attempt, attemptId, .refl _, rfl, fun turn member => by cases member⟩
  | succ k ih =>
      obtain ⟨turns, visited', attempt', attemptId', chain, length, answered⟩ :=
        ih (Nat.mod_lt (hops + 1) (by decide)) (visited ++ [plainUri "b.test"]) (some attemptId)
          attemptId.nextHop
      have round : ((hops + 1) % 256 + k) % 256 = (hops + (k + 1)) % 256 := by omega
      rw [round] at chain
      refine ⟨loopTurn .sameOriginOnly (loopState hops visited attempt attemptId) :: turns, visited',
        attempt', attemptId', ?_, congrArg (· + 1) length, ?_⟩
      · exact .turn (steps_log _ _ _) (loopTurn_next hops visited attempt attemptId) chain
      · rw [List.forall_mem_cons]
        exact ⟨loopScene_answers _ _, answered⟩

def loopStart : RunState := .start .get (plainUri "b.test") [] .http11 false .empty false 0

/-- After 256 redirects within one origin the policy is told that none was followed. -/
theorem sameOriginOnly_miscounts :
    ¬ ∀ (turns : Turns Unit) (s : RunState), Chain plainConfig 1 loopStart turns s →
      (∀ turn ∈ turns, ∀ e ∈ turn.trace, AnsweredBy .sameOriginOnly e) →
        Counted plainConfig 1 turns s := by
  intro counted
  have started : 0 < 256 := by decide
  obtain ⟨turns, visited, attempt, attemptId, chain, length, answered⟩ :=
    loop_chain 256 started [plainUri "b.test"] none (.new 0)
  obtain ⟨e, member, p, asked, zero⟩ := loopTurn_asks ((0 + 256) % 256) visited attempt attemptId
  obtain ⟨told, -⟩ := (counted turns _ chain answered).asks _ _
    (steps_log (loopScene .sameOriginOnly) _ ()) e member p asked
  rw [length, zero] at told
  cases told

theorem counted_iff_twice :
    ∃ turns : Turns Unit, ∃ s, turns.length = 2 ∧
      (Counted plainConfig 1 turns s ↔ turns.length < 256) ∧ s.visited = visits turns s ∧
        ∀ n : UInt8, (∀ turn ∈ turns, ∀ e ∈ turn.trace, AnsweredWithin n e) →
          turns.length ≤ n.toNat := by
  have started : 0 < 256 := by decide
  obtain ⟨turns, visited, attempt, attemptId, chain, length, -⟩ :=
    loop_chain 2 started [plainUri "b.test"] none (.new 0)
  exact ⟨turns, _, length, counted_iff Unit plainConfig 1 .get (plainUri "b.test") [] .http11 false
    .empty false 0 turns _ chain⟩

end Scene

end HClient.Client
