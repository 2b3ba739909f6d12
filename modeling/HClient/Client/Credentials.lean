import HClient.Client.Stages

/-!
# Credentials and origins

What a chain of redirects carries once it has left an origin. A hop away from the origin
drops the three sensitive fields, the flow and the early-data mark; whatever else a flow
wrote into the hop's own fields goes along.
-/
namespace HClient.Client

open Effect Program Config

variable {F : Type} {cfg : Config}

/-- No credential of the caller's, and nothing a flow wrote. -/
def FieldClean (field : HeaderName × Marked) : Prop :=
  field.2.origin ≠ .flow ∧ (field.2.origin = .caller → field.1 ∉ sensitiveHeaders)

instance (field : HeaderName × Marked) : Decidable (FieldClean field) :=
  inferInstanceAs (Decidable (_ ∧ _))

def cleanRule : FieldRule where
  holds := FieldClean
  ofClient _ _ _ flow caller := ⟨flow, fun same => absurd same caller⟩

def PartsClean (hp : HopParts) : Prop :=
  (∀ field ∈ hp.headers, FieldClean field) ∧ hp.allowEarlyData = false

instance (hp : HopParts) : Decidable (PartsClean hp) := inferInstanceAs (Decidable (_ ∧ _))

theorem PartsClean.kept {hp hp' : HopParts} (clean : PartsClean hp)
    (keeps : Keeps cleanRule hp hp') : PartsClean hp' :=
  ⟨keeps.fields clean.1, keeps.mark.trans clean.2⟩

def SendClean (op : ClientCall F) : Prop := ∀ request ∈ op.sent, PartsClean request.parts

instance (op : ClientCall F) : Decidable (SendClean op) :=
  inferInstanceAs (Decidable (∀ _ ∈ _, _))

theorem sendClean_of_quiet (op : ClientCall F) (quiet : Quiet op) : SendClean op := by
  intro request same
  rw [quiet] at same
  cases same

/-- A state of the loop after the chain has left an origin. -/
structure Clean (s : RunState) : Prop where
  noFlow : s.auth = false
  parts : PartsClean s.hp

/-- The redirect leads to another origin than the hop it leaves. -/
def Crosses : HopEnd → Bool
  | .follow left f _ => crossOrigin left.uri f.uri
  | .finished _ => false

/-- Of the hop's fields, those a flow wrote are all sensitive ones. -/
def FlowWroteSensitiveOnly : HopEnd → Prop
  | .follow left _ _ => ∀ field ∈ left.headers, field.2.origin = .flow → field.1 ∈ sensitiveHeaders
  | .finished _ => True

instance : DecidablePred FlowWroteSensitiveOnly
  | .follow left _ _ =>
      inferInstanceAs (Decidable (∀ field ∈ left.headers, _ → field.1 ∈ sensitiveHeaders))
  | .finished _ => .isTrue trivial

def RedirectVerdict.grantsCredentials : RedirectVerdict → Bool
  | .follow allow => allow.keepCredentials
  | _ => false

def grantOf : Event (ClientCall F) ClientCall.Answer → Bool
  | ⟨.redirectVerdict _, answer⟩ => RedirectVerdict.grantsCredentials answer
  | _ => false

/-- The answer is not a redirect policy's grant to keep credentials. -/
def GrantsNothing (e : Event (ClientCall F) ClientCall.Answer) : Prop := grantOf e = false

instance (e : Event (ClientCall F) ClientCall.Answer) : Decidable (GrantsNothing e) :=
  inferInstanceAs (Decidable (_ = _))

theorem sendClean_of_aside (op : ClientCall F) (aside : Aside op) : SendClean op :=
  sendClean_of_quiet op (Aside.quiet op aside)

theorem sendHop_clean (hp : HopParts) (body : RequestBody) (cause : Cause)
    (written : List HeaderName) (clean : PartsClean hp) :
    (cfg.sendHop hp body cause written : Script F _).Within SendClean fun _ => True := by
  refine ⟨?_, fun answer => ?_⟩
  · intro request same
    cases same
    exact clean
  · cases answer with
    | error e => trivial
    | ok parts =>
        exact ((noteResponse_aside hp parts).mono sendClean_of_aside fun _ _ => trivial).bind
          fun _ _ => trivial

def ExchangeClean : Except RunError Exchange → Prop
  | .ok x => PartsClean x.hp
  | .error _ => True

theorem settleExchange_clean {s : RetryState} (outcome : Except TransportError Received)
    (clean : PartsClean s.hp) : ExchangeClean (settleExchange s outcome) := by
  cases outcome with
  | ok received => exact clean
  | error e => trivial

theorem retryLoop_clean (replay : Option RequestBody) (fuel : Nat) {s : RetryState}
    (clean : PartsClean s.hp) :
    (cfg.retryLoop replay fuel s : Script F _).Within SendClean ExchangeClean := by
  induction fuel generalizing s with
  | zero => trivial
  | succ fuel ih =>
      unfold retryLoop
      split
      · trivial
      refine (sendHop_clean s.taken.hp _ _ _ clean).bind fun outcome _ => ?_
      refine ((askRetry_aside _ _ _).mono sendClean_of_aside fun _ _ => trivial).bind
        fun again _ => ?_
      cases again with
      | none => exact settleExchange_clean (s := s.taken) outcome clean
      | some requestedAt => exact ih (s := { s.taken with requestedAt }) clean

theorem resumed_clean {x : Exchange} {attemptId : Attempt} {requestedAt : SystemTime}
    (outcome : Except TransportError Received) (clean : PartsClean x.hp) :
    ExchangeClean (x.resumed attemptId requestedAt outcome) := by
  cases outcome with
  | ok received => exact clean
  | error e => trivial

theorem replayTooEarly_clean (replay : Option RequestBody) {x : Exchange}
    (clean : PartsClean x.hp) :
    (cfg.replayTooEarly replay x : Script F _).Within SendClean ExchangeClean := by
  unfold replayTooEarly
  split
  · exact clean
  split
  · exact clean
  · refine (cacheNow_aside.mono sendClean_of_aside fun _ _ => trivial).bind fun _ _ => ?_
    have unmarked : PartsClean { x.hp with
        allowEarlyData := false, attempt := some x.attemptId.resent } := ⟨clean.1, rfl⟩
    exact (sendHop_clean _ _ _ _ unmarked).bind fun outcome _ => resumed_clean outcome clean

theorem exchange_clean (fuel : Nat) {s : RunState} (noFlow : s.auth = false) {hp : HopParts}
    (replay : Option RequestBody) (clean : PartsClean hp) :
    (cfg.exchange fuel s hp replay : Script F _).Within SendClean ExchangeClean := by
  simp only [exchange, authorizeFirst, noFlow, Bool.not_false, if_true, pure_eq, done_bind]
  refine (cacheNow_aside.mono sendClean_of_aside fun _ _ => trivial).bind fun _ _ => ?_
  refine (retryLoop_clean replay fuel clean).bind fun sent sentClean => ?_
  cases sent with
  | error e => trivial
  | ok x =>
      refine (replayTooEarly_clean replay sentClean).bind fun replayed replayedClean => ?_
      cases replayed with
      | error e => trivial
      | ok x => exact replayedClean

theorem nextHop_clean {left : HopParts} {replay : Option RequestBody} {f : Follow}
    {next : HopParts} {body : RequestBody} (clean : PartsClean left)
    (followed : nextHop left replay f = some (next, body)) : PartsClean next := by
  obtain ⟨fields, mark⟩ := nextHop_parts followed
  refine ⟨fun field member => clean.1 field (fields field member).1, ?_⟩
  rw [mark, clean.2, Bool.false_and]

/-- A hop that is stripped is clean where the flow wrote sensitive fields only. -/
theorem nextHop_clean_of_strips {left : HopParts} {replay : Option RequestBody} {f : Follow}
    {next : HopParts} {body : RequestBody} (strips : f.stripSensitive = true)
    (wrote : ∀ field ∈ left.headers, field.2.origin = .flow → field.1 ∈ sensitiveHeaders)
    (followed : nextHop left replay f = some (next, body)) : PartsClean next := by
  obtain ⟨fields, mark⟩ := nextHop_parts followed
  constructor
  · intro field member
    obtain ⟨old, kept⟩ := fields field member
    exact ⟨fun flow => kept strips (wrote field old flow), fun _ => kept strips⟩
  · rw [mark, strips, Bool.not_true, Bool.and_false]

/-- A hop after the crossing sends clean parts only and leads to a clean state. -/
theorem hop_clean (fuel : Nat) {s : RunState} (clean : Clean s) :
    (cfg.hop fuel s : Script F HopEnd).Within SendClean fun e =>
      ∀ next, e.next = some next → Clean next := by
  have ended : ∀ (hp : HopParts) (attemptId : Attempt) (resp : ResponseParts), PartsClean hp →
      (cfg.afterHop s hp s.body.rewind attemptId resp : Script F HopEnd).Within SendClean fun e =>
        ∀ next, e.next = some next → Clean next := by
    intro hp attemptId resp hpClean
    refine (afterHop_aside s hp _ attemptId resp).mono sendClean_of_aside ?_
    intro e h next continued
    obtain ⟨action, rfl⟩ := h
    cases same : act s hp s.body.rewind attemptId resp action with
    | finished result =>
        rw [same] at continued
        cases continued
    | follow left f next' =>
        rw [same] at continued
        cases continued
        obtain ⟨-, -, followed, auth⟩ := act_follow same
        exact ⟨by rw [auth, clean.noFlow, Bool.false_and], nextHop_clean hpClean followed⟩
  unfold Config.hop
  refine ((prepare_aside cleanRule s).mono sendClean_of_aside fun _ => id).bind fun hp kept => ?_
  refine ((cacheBefore_aside cleanRule hp _).mono sendClean_of_aside fun _ => id).bind
    fun before kept' => ?_
  have beforeClean := (clean.parts.kept kept).kept kept'
  match before, beforeClean with
  | .inl (hp, answered), hpClean => exact ended hp _ answered hpClean
  | .inr (hp, plan), hpClean =>
      refine (exchange_clean fuel clean.noFlow _ hpClean).bind fun sent sentClean => ?_
      cases sent with
      | error e =>
          intro next continued
          cases continued
      | ok x =>
          exact ((cacheAfter_quiet plan x).mono sendClean_of_quiet fun _ _ => trivial).bind
            fun resp _ => ended x.hp _ resp sentClean

/-- Where no policy grants to keep credentials, a followed redirect strips exactly when it
crosses, and takes the flow away with that. -/
def StripsCrossing (s : RunState) : HopEnd → Prop
  | .finished _ => True
  | .follow left f next =>
      f.stripSensitive = crossOrigin left.uri f.uri ∧ next.auth = (s.auth && !f.stripSensitive) ∧
        ∃ replay, nextHop left replay f = some (next.hp, next.body)

theorem act_stripsCrossing {s : RunState} {hp : HopParts} {replay : Option RequestBody}
    {attemptId : Attempt} {resp : ResponseParts} {action : RedirectAction}
    (strips : ∀ f, action = .follow f → f.stripSensitive = crossOrigin hp.uri f.uri) :
    StripsCrossing s (act s hp replay attemptId resp action) := by
  cases same : act s hp replay attemptId resp action with
  | finished result => trivial
  | follow left f next =>
      obtain ⟨rfl, rfl, followed, auth⟩ := act_follow same
      exact ⟨strips f rfl, auth, replay, followed⟩

theorem afterHop_strips (s : RunState) (hp : HopParts) (replay : Option RequestBody)
    (attemptId : Attempt) (resp : ResponseParts) :
    (Monitor.relying GrantsNothing).wp (cfg.afterHop s hp replay attemptId resp : Script F HopEnd)
      (fun _ e => StripsCrossing s e) () := by
  unfold afterHop
  split
  next action proposed =>
    refine act_stripsCrossing fun f same => ?_
    subst same
    exact absurd proposed propose_ne_follow
  next proposal proposed =>
    refine ⟨trivial, fun verdict grants => act_stripsCrossing fun f same => ?_⟩
    refine strips_of_settle proposed (fun allow followed => ?_) same
    rw [followed] at grants
    exact grants

theorem hop_strips (fuel : Nat) (s : RunState) :
    (Monitor.relying GrantsNothing).wp (cfg.hop fuel s : Script F HopEnd)
      (fun _ e => StripsCrossing s e) () := by
  have top := fun (α : Type) => (Monitor.relying (GrantsNothing (F := F))).wp_top (α := α)
    (fun _ _ => trivial)
  unfold Config.hop
  refine Monitor.wp_seq _ (top _ _ ()) fun _ hp _ => ?_
  refine Monitor.wp_seq _ (top _ _ _) fun _ before _ => ?_
  match before with
  | .inl (hp, answered) => exact afterHop_strips s hp _ _ answered
  | .inr (hp, plan) =>
      refine Monitor.wp_seq _ (top _ _ _) fun _ sent _ => ?_
      cases sent with
      | error e => trivial
      | ok x =>
          exact Monitor.wp_seq _ (top _ _ _) fun _ resp _ => afterHop_strips s x.hp _ _ resp

theorem crossing_clean {fuel : Nat} {s next : RunState} {t : List (Event (ClientCall F) _)}
    {e : HopEnd} (steps : (cfg.hop fuel s).Steps t (.done e)) (grants : ∀ e ∈ t, GrantsNothing e)
    (crosses : Crosses e = true) (wrote : FlowWroteSensitiveOnly e)
    (continued : e.next = some next) : Clean next := by
  have strips := Monitor.wp_result _ (hop_strips fuel s) steps (Monitor.relying_answered grants)
  cases e with
  | finished result => cases continued
  | follow left f next' =>
      cases continued
      obtain ⟨same, auth, replay, followed⟩ := strips
      have strip : f.stripSensitive = true := same.trans crosses
      exact ⟨by rw [auth, strip, Bool.not_true, Bool.and_false],
        nextHop_clean_of_strips strip wrote followed⟩

/-- Everything sent after the chain has left an origin is clean. -/
def CredentialsStay (cfg : Config) (fuel : Nat) (s₀ : RunState)
    (allowed : Turn RunState (ClientCall F) ClientCall.Answer HopEnd → Prop) : Prop :=
  ∀ (turns : List (Turn RunState (ClientCall F) ClientCall.Answer HopEnd)) (s : RunState),
    Chain cfg fuel s₀ turns s → (∀ turn ∈ turns, ∀ e ∈ turn.trace, GrantsNothing e) →
      (∀ turn ∈ turns, allowed turn) → (∃ turn ∈ turns, Crosses turn.result = true) →
        ∀ (t : List (Event (ClientCall F) ClientCall.Answer)) (q : Script F HopEnd),
          (cfg.hop fuel s).Steps t q → ∀ e ∈ t, SendClean e.op

/-- In every chain whose hops, where they are left for another origin, hold no field of a
flow's but sensitive ones, everything sent after a crossing is clean. -/
theorem crossed_chain_clean (F : Type) (cfg : Config) (fuel : Nat) (method : Method) (uri : Uri)
    (headers : HeaderMap HeaderValue) (version : HttpVersion) (allowEarlyData : Bool)
    (body : RequestBody) (auth : Bool) (requestId : Nat) :
    CredentialsStay (F := F) cfg fuel
      (.start method uri headers version allowEarlyData body auth requestId)
      fun turn => Crosses turn.result = true → FlowWroteSensitiveOnly turn.result := by
  intro turns s chain grants wrote crossed t q steps
  obtain ⟨turn, member, crosses⟩ := crossed
  obtain ⟨before, after, middle, -, -, stepped, continued, rest⟩ := chain.split member
  have clean : Clean middle :=
    crossing_clean stepped (grants turn member) crosses (wrote turn member crosses) continued
  have kept : Clean s := by
    have preserved : ∀ s t b s', True → Clean s → (cfg.hop fuel s : Script F HopEnd).Steps t (.done b) →
        b.next = some s' → Clean s' := by
      intro s t b s' _ holds stepped continued
      exact (hop_clean fuel holds).steps stepped s' continued
    exact rest.preserves preserved (fun _ _ => trivial) clean
  exact (hop_clean fuel kept).trace steps

section Scene

/-- `a.test` redirects to `b.test`, and a flow makes the same edits on every hop. -/
def redirectScene (edits : List HeaderEdit) : (op : ClientCall Unit) → Unit → op.Answer × Unit :=
  Scene.handle {
    transport request _ :=
      if request.parts.uri = plainUri "a.test" then
        .ok ⟨302, .http11, [(HeaderName.location, .ofAscii "https://b.test/")]⟩
      else .ok ⟨200, .http11, []⟩
    edits
    step _ := .finished }

def authorizedGet : RunState :=
  .start .get (plainUri "a.test") [] .http11 false .empty true 0

def firstTurn (edits : List HeaderEdit) :
    Turn RunState (ClientCall Unit) ClientCall.Answer HopEnd where
  start := authorizedGet
  trace := (plainConfig.hop 1 authorizedGet).log (redirectScene edits) ()
  result := ((plainConfig.hop 1 authorizedGet).runWith (redirectScene edits) ()).1

def secondState (edits : List HeaderEdit) : RunState :=
  (firstTurn edits).result.next.getD authorizedGet

theorem firstTurn_chain {edits : List HeaderEdit} (on : (firstTurn edits).result.next.isSome) :
    Chain plainConfig 1 authorizedGet [firstTurn edits] (secondState edits) := by
  refine .turn (steps_log _ _ _) ?_ (.refl _)
  obtain ⟨next, same⟩ := Option.isSome_iff_exists.mp on
  rw [secondState]
  change (firstTurn edits).result.next = _
  rw [same]
  rfl

def bearer : HeaderEdit := .insert HeaderName.authorization (.ofAscii "Bearer t")
def apiKey : HeaderEdit := .insert "x-api-key".toList (.ofAscii "k")

theorem crossed_chain_clean_bearer :
    ∀ e ∈ (plainConfig.hop 1 (secondState [bearer])).log (redirectScene [bearer]) (),
      SendClean e.op :=
  crossed_chain_clean Unit plainConfig 1 .get (plainUri "a.test") [] .http11 false .empty true 0
    [firstTurn [bearer]] (secondState [bearer]) (firstTurn_chain (by decide +kernel))
    (by decide +kernel) (by decide +kernel) (by decide +kernel) _ _ (steps_log _ _ _)

/-- A key that a flow writes under a name of its own goes along to the other origin. -/
theorem apiKey_crosses :
    ¬ CredentialsStay (F := Unit) plainConfig 1 authorizedGet fun _ => True := by
  intro stay
  have clean := stay [firstTurn [apiKey]] (secondState [apiKey])
    (firstTurn_chain (by decide +kernel)) (by decide +kernel) (fun _ _ => trivial)
    (by decide +kernel) _ _ (steps_log (redirectScene [apiKey]) _ ())
  revert clean
  decide +kernel

end Scene

end HClient.Client
