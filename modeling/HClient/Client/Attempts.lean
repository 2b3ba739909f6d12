import HClient.Client.Stages

/-!
# The sends of a hop

How often a hop sends its body, in which form and under which attempt. A send that follows
a 425 is out of early data as long as nothing but the replay of that 425 asks for it: the
parts a retry or a challenge leg is built from still hold the hop's mark.
-/
namespace HClient.Client

open Effect Program Config

variable {F : Type} {cfg : Config}

abbrev Calls (F : Type) := List (Event (ClientCall F) ClientCall.Answer)

/-- One send with its outcome. -/
structure Sent where
  request : Request
  cause : Cause
  answer : Except TransportError ResponseParts

def Sent.tooEarly (x : Sent) : Bool :=
  match x.answer with
  | .ok parts => parts.status = 425
  | .error _ => false

def sendOf : Event (ClientCall F) ClientCall.Answer → Option Sent
  | ⟨.send request cause, answer⟩ => some ⟨request, cause, answer⟩
  | _ => none

def sendsOf (t : Calls F) : List Sent := t.filterMap sendOf

theorem sendOf_of_quiet (op : ClientCall F) (r : op.Answer) (quiet : Quiet op) :
    sendOf ⟨op, r⟩ = none := by
  cases op with
  | send request cause => cases quiet
  | _ => rfl

def RetryVerdict.isAfter : RetryVerdict → Bool
  | .after _ => true
  | .stop => false

def stepIsAgain (step : AuthStep × F) : Bool := step.1 = .again

/-- A retry policy or a flow asks for another send. -/
def asksAgain : Event (ClientCall F) ClientCall.Answer → Bool
  | ⟨.retryVerdict _, verdict⟩ => RetryVerdict.isAfter verdict
  | ⟨.onResponse .., step⟩ => stepIsAgain step
  | _ => false

/-- The hop is marked, and its body can be sent again. -/
def AtRisk (s : RunState) : Prop :=
  s.hp.allowEarlyData = true ∧ (replayForTooEarly s.body.rewind).isSome = true

/-- The attempt of a hop's send after `k` others. -/
def Attempt.afterResends (a : Attempt) (k : Nat) : Attempt := { a with resend := min k u16Max }

theorem Attempt.resent_afterResends (a : Attempt) (k : Nat) :
    (a.afterResends k).resent = a.afterResends (k + 1) := by
  unfold resent afterResends
  congr 1
  simp only
  omega

theorem Attempt.afterResends_zero {a : Attempt} (fresh : a.resend = 0) : a.afterResends 0 = a := by
  cases a
  cases fresh
  rfl

/-- What a send of the hop from `s` is, after the hop's `earlier` ones. -/
structure SendFine (s : RunState) (earlier : List Sent) (request : Request) (cause : Cause) :
    Prop where
  first : earlier = [] → request.body = s.body
  again : earlier ≠ [] → s.body.retryKind.mayReplay = true ∧
    replayForTooEarly s.body.rewind = some request.body
  once : cause = .tooEarly → ∀ x ∈ earlier, x.cause ≠ .tooEarly
  unmarked : (∃ x ∈ earlier, x.tooEarly = true) → request.parts.allowEarlyData = false
  attempt : request.parts.attempt = some (s.attemptId.afterResends earlier.length)

/-- The sends of a hop from `s`. After a 425 on a hop at risk nothing may ask again. -/
def hopMonitor (F : Type) (s : RunState) : Monitor (ClientCall F) ClientCall.Answer (List Sent) :=
  .observing sendOf
    (fun earlier op => ∀ request cause, op = .send request cause →
      SendFine s earlier request cause)
    (fun earlier e => AtRisk s → (∃ x ∈ earlier, x.tooEarly = true) → asksAgain e = false)

variable {s : RunState}

theorem quiet_wp {α : Type} {p : Script F α} {Q : α → Prop} (h : p.Within Quiet Q)
    (sends : List Sent) :
    (hopMonitor F s).wp p (fun sends' a => sends' = sends ∧ Q a) sends := by
  refine Monitor.observing_within h sendOf_of_quiet ?_ sends
  intro seen op quiet request cause same
  subst same
  cases quiet

theorem aside_wp {α : Type} {p : Script F α} {Q : α → Prop} (h : p.Within Aside Q)
    (sends : List Sent) :
    (hopMonitor F s).wp p (fun sends' a => sends' = sends ∧ Q a) sends :=
  quiet_wp (h.mono Aside.quiet fun _ => id) sends

variable {sends : List Sent}

/-- One send and what its response leaves behind. -/
theorem sendHop_wp {hp : HopParts} {body : RequestBody} {cause : Cause}
    {written : List HeaderName}
    (fine : SendFine s sends (hp.toRequest body) cause) :
    (hopMonitor F s).wp (cfg.sendHop hp body cause written)
      (fun sends' _ => ∃ x : Sent, x.cause = cause ∧ sends' = sends ++ [x]) sends := by
  refine ⟨?_, fun answer _ => ?_⟩
  · intro request cause' same
    cases same
    exact fine
  · cases answer with
    | error e => exact ⟨_, rfl, rfl⟩
    | ok parts =>
        change (hopMonitor F s).wp ((cfg.noteResponse hp parts).bind _) _ _
        refine Monitor.wp_seq _ (aside_wp (noteResponse_aside hp parts) _) ?_
        rintro sends' u ⟨rfl, -⟩
        exact ⟨_, rfl, rfl⟩

/-- The turns of the retry loop, before the turn's send. -/
structure Retrying (s : RunState) (sends : List Sent) (rs : RetryState) : Prop where
  mark : rs.hp.allowEarlyData = s.hp.allowEarlyData
  attempt : rs.attempt = sends.length
  attemptId : rs.attemptId = s.attemptId.afterResends (sends.length - 1)
  sending : rs.sending = if sends = [] then some s.body else none
  causes : ∀ x ∈ sends, x.cause ≠ .tooEarly
  heeded : (∃ x ∈ sends, x.tooEarly = true) → ¬ AtRisk s

/-- What the sends of a hop have made of its exchange. -/
structure Exchanged (s : RunState) (sends : List Sent) (x : Exchange) : Prop where
  mark : x.hp.allowEarlyData = s.hp.allowEarlyData
  sent : sends ≠ []
  attemptId : x.attemptId = s.attemptId.afterResends (sends.length - 1)

def OnExchange (P : Exchange → Prop) : Except RunError Exchange → Prop
  | .ok x => P x
  | .error _ => True

/-- The snapshot is there only of a body whose kind allows a replay. -/
theorem mayReplay_of_replay {body again : RequestBody}
    (replayed : replayForTooEarly body.rewind = some again) : body.retryKind.mayReplay = true := by
  rw [← rewind_isSome]
  cases same : body.rewind with
  | none =>
      rw [same] at replayed
      cases replayed
  | some snapshot => rfl

/-- Without the risk, a send that is asked for is out of early data. -/
theorem unmarked_of_heeded (hp : HopParts) {again : RequestBody}
    (replayed : replayForTooEarly s.body.rewind = some again)
    (mark : hp.allowEarlyData = s.hp.allowEarlyData) (heeded : ¬ AtRisk s) :
    hp.allowEarlyData = false := by
  rw [mark]
  cases marked : s.hp.allowEarlyData with
  | false => rfl
  | true => exact absurd ⟨marked, by rw [replayed]; rfl⟩ heeded

theorem Retrying.taken_attempt {rs : RetryState}
    (inv : Retrying s sends rs) :
    rs.taken.attemptId = s.attemptId.afterResends sends.length := by
  cases sends with
  | nil =>
      have none_yet : rs.attempt = 0 := inv.attempt
      simp only [RetryState.taken, none_yet, if_true, inv.attemptId]
      rfl
  | cons x sends =>
      have some_yet : rs.attempt ≠ 0 := by simp [inv.attempt]
      simp only [RetryState.taken, if_neg some_yet, inv.attemptId, Attempt.resent_afterResends]
      rfl

theorem Retrying.fine {rs : RetryState} {this : RequestBody}
    (inv : Retrying s sends rs)
    (body : (rs.sending <|> replayForTooEarly s.body.rewind) = some this) :
    SendFine s sends (rs.taken.hp.toRequest this) (if rs.attempt = 0 then .first else .retry) where
  first none_yet := by
    rw [inv.sending, if_pos none_yet] at body
    cases body
    rfl
  again some_yet := by
    rw [inv.sending, if_neg some_yet] at body
    exact ⟨mayReplay_of_replay body, body⟩
  once impossible := by
    split at impossible <;> cases impossible
  unmarked early := by
    have some_yet : sends ≠ [] := by
      obtain ⟨x, member, -⟩ := early
      exact List.ne_nil_of_mem member
    rw [inv.sending, if_neg some_yet] at body
    exact unmarked_of_heeded _ body inv.mark (inv.heeded early)
  attempt := congrArg some (inv.taken_attempt)

theorem Retrying.sent {rs : RetryState} {x : Sent}
    (inv : Retrying s sends rs) (cause : x.cause ≠ .tooEarly)
    (heeded : (∃ y ∈ sends ++ [x], y.tooEarly = true) → ¬ AtRisk s) (requestedAt : SystemTime) :
    Retrying s (sends ++ [x]) { rs.taken with requestedAt } where
  mark := inv.mark
  attempt := by simp [RetryState.taken, inv.attempt]
  attemptId := by simpa using inv.taken_attempt
  sending := by simp [RetryState.taken]
  causes y member := by
    obtain old | new := List.mem_append.mp member
    · exact inv.causes y old
    · rw [List.mem_singleton.mp new]
      exact cause
  heeded

/-- A policy that asks again after a 425 shows that the hop was not at risk. -/
theorem askRetry_wp (replay : Option RequestBody) (rs : RetryState)
    (outcome : Except TransportError Received) (sends : List Sent) :
    (hopMonitor F s).wp (cfg.askRetry replay rs outcome) (fun sends' again => sends' = sends ∧
      (again.isSome = true → (∃ x ∈ sends, x.tooEarly = true) → ¬ AtRisk s)) sends := by
  unfold askRetry
  split
  · exact ⟨rfl, fun impossible => by cases impossible⟩
  refine ⟨fun _ _ impossible => (by cases impossible), fun verdict answered => ?_⟩
  cases verdict with
  | stop => exact ⟨List.append_nil sends, fun impossible => by cases impossible⟩
  | after delay =>
      have heeded : (∃ x ∈ sends, x.tooEarly = true) → ¬ AtRisk s := by
        intro early risk
        cases answered risk early
      refine ⟨fun _ _ impossible => (by cases impossible), fun _ _ => ?_⟩
      change (hopMonitor F s).wp (cfg.cacheNow.bind _) _ _
      refine Monitor.wp_seq _ (aside_wp cacheNow_aside _) ?_
      intro sends' requestedAt same
      refine ⟨?_, fun _ => heeded⟩
      rw [same.1]
      exact (List.append_nil _).trans (List.append_nil sends)

theorem retryLoop_wp (fuel : Nat) {rs : RetryState} (inv : Retrying s sends rs) :
    (hopMonitor F s).wp (cfg.retryLoop s.body.rewind fuel rs)
      (fun sends' => OnExchange fun x => Exchanged s sends' x ∧
        ∀ y ∈ sends', y.cause ≠ .tooEarly) sends := by
  induction fuel generalizing rs sends with
  | zero => trivial
  | succ fuel ih =>
      unfold retryLoop
      split
      · trivial
      next this body =>
        refine Monitor.wp_seq _ (sendHop_wp (inv.fine body)) ?_
        rintro sends' outcome ⟨x, cause, rfl⟩
        have loop_cause : x.cause ≠ .tooEarly := by
          rw [cause]
          split <;> decide
        refine Monitor.wp_seq _ (askRetry_wp _ _ outcome _) ?_
        rintro sends' again ⟨rfl, heeded⟩
        cases again with
        | some requestedAt =>
            exact ih (inv.sent loop_cause (heeded rfl) requestedAt)
        | none =>
            cases outcome with
            | error e => trivial
            | ok received =>
                refine ⟨⟨inv.mark, by simp, by simpa using inv.taken_attempt⟩, ?_⟩
                intro y member
                obtain old | new := List.mem_append.mp member
                · exact inv.causes y old
                · rw [List.mem_singleton.mp new]
                  exact loop_cause

/-- A send after the retry loop's last one. -/
theorem Exchanged.fine {x : Exchange} {again : RequestBody} {cause : Cause}
    {hp : HopParts} (inv : Exchanged s sends x)
    (replayed : replayForTooEarly s.body.rewind = some again)
    (once : cause = .tooEarly → ∀ y ∈ sends, y.cause ≠ .tooEarly)
    (unmarked : (∃ y ∈ sends, y.tooEarly = true) → hp.allowEarlyData = false)
    (attempt : hp.attempt = some x.attemptId.resent) :
    SendFine s sends (hp.toRequest again) cause where
  first none_yet := absurd none_yet inv.sent
  again _ := ⟨mayReplay_of_replay replayed, replayed⟩
  once
  unmarked
  attempt := by
    have counted : sends.length - 1 + 1 = sends.length :=
      Nat.sub_add_cancel (List.length_pos_iff.mpr inv.sent)
    rw [HopParts.toRequest, attempt, inv.attemptId, Attempt.resent_afterResends, counted]

theorem Exchanged.resumed {x : Exchange} (y : Sent)
    (inv : Exchanged s sends x) (requestedAt : SystemTime)
    (outcome : Except TransportError Received) :
    OnExchange (Exchanged s (sends ++ [y]))
      (x.resumed x.attemptId.resent requestedAt outcome) := by
  cases outcome with
  | error e => trivial
  | ok received =>
      refine ⟨inv.mark, by simp, ?_⟩
      have counted : sends.length - 1 + 1 = sends.length :=
        Nat.sub_add_cancel (List.length_pos_iff.mpr inv.sent)
      simp [inv.attemptId, Attempt.resent_afterResends, counted]

theorem replayTooEarly_wp {x : Exchange} (inv : Exchanged s sends x)
    (causes : ∀ y ∈ sends, y.cause ≠ .tooEarly) :
    (hopMonitor F s).wp (cfg.replayTooEarly s.body.rewind x)
      (fun sends' => OnExchange (Exchanged s sends')) sends := by
  unfold replayTooEarly
  split
  · exact inv
  split
  · exact inv
  next again replayed =>
    refine Monitor.wp_seq _ (aside_wp cacheNow_aside sends) ?_
    rintro sends' requestedAt ⟨rfl, -⟩
    -- the mark is taken off for this send, and stays in `x.hp`
    refine Monitor.wp_seq _ (sendHop_wp ?_) ?_
    · exact inv.fine replayed (fun _ => causes) (fun _ => rfl) rfl
    · rintro sends' outcome ⟨y, -, rfl⟩
      exact inv.resumed y requestedAt outcome

/-- A leg is sent from the hop's own parts, which still hold the hop's mark. -/
theorem sendLeg_wp (flow : F) {again : RequestBody} {x : Exchange}
    (inv : Exchanged s sends x) (replayed : replayForTooEarly s.body.rewind = some again)
    (heeded : (∃ y ∈ sends, y.tooEarly = true) → ¬ AtRisk s) :
    (hopMonitor F s).wp (cfg.sendLeg flow again x)
      (fun sends' r => OnExchange (Exchanged s sends') r.1) sends := by
  refine ⟨fun _ _ impossible => (by cases impossible), fun answer _ => ?_⟩
  rw [show (hopMonitor F s).update sends _ answer = sends from List.append_nil sends]
  change (hopMonitor F s).wp (cfg.cacheNow.bind _) _ _
  refine Monitor.wp_seq _ (aside_wp cacheNow_aside sends) ?_
  rintro sends' requestedAt ⟨rfl, -⟩
  refine Monitor.wp_seq _ (sendHop_wp ?_) ?_
  · exact inv.fine replayed (fun impossible => by cases impossible)
      (fun early => unmarked_of_heeded x.hp replayed inv.mark (heeded early)) rfl
  · rintro sends' outcome ⟨y, -, rfl⟩
    exact inv.resumed y requestedAt outcome

/-- A flow that asks for a leg after a 425 shows that the hop was not at risk. -/
theorem askFlow_wp (flow : F) (x : Exchange) (sends : List Sent) :
    (hopMonitor F s).wp (askFlow flow x) (fun sends' step => sends' = sends ∧
      (step.1 = .again → (∃ y ∈ sends, y.tooEarly = true) → ¬ AtRisk s)) sends := by
  refine ⟨fun _ _ impossible => (by cases impossible), fun step answered => ?_⟩
  refine ⟨List.append_nil sends, fun again early risk => ?_⟩
  have asked : stepIsAgain step = false := answered risk early
  exact absurd again (of_decide_eq_false asked)

theorem legLoop_wp (left : Nat) (flow : F) {x : Exchange}
    (inv : Exchanged s sends x) :
    (hopMonitor F s).wp (cfg.legLoop s.body.rewind left flow x)
      (fun sends' => OnExchange (Exchanged s sends')) sends := by
  induction left generalizing flow x sends with
  | zero =>
      unfold legLoop
      refine Monitor.wp_seq _ (askFlow_wp flow x sends) ?_
      rintro _ ⟨step, flow'⟩ ⟨rfl, -⟩
      cases step with
      | finished => exact inv
      | again => trivial
  | succ left ih =>
      unfold legLoop
      refine Monitor.wp_seq _ (askFlow_wp flow x sends) ?_
      rintro _ ⟨step, flow'⟩ ⟨rfl, heeded⟩
      cases step with
      | finished => exact inv
      | again =>
          simp only
          split
          · exact inv
          next again replayed =>
            refine Monitor.wp_seq _ (sendLeg_wp flow' inv replayed (heeded rfl)) ?_
            rintro sends' ⟨sent, flow''⟩ exchanged
            cases sent with
            | error e => trivial
            | ok x => exact ih flow'' exchanged

theorem answerChallenges_wp (flow : Option F) {x : Exchange}
    (inv : Exchanged s sends x) :
    (hopMonitor F s).wp (cfg.answerChallenges s.body.rewind flow x)
      (fun sends' => OnExchange (Exchanged s sends')) sends := by
  cases flow with
  | none => exact inv
  | some flow => exact legLoop_wp _ flow inv

theorem exchange_wp (fresh : s.attemptId.resend = 0) (fuel : Nat) {hp : HopParts}
    (mark : hp.allowEarlyData = s.hp.allowEarlyData) :
    (hopMonitor F s).wp (cfg.exchange fuel s hp s.body.rewind)
      (fun sends' => OnExchange (Exchanged s sends')) [] := by
  unfold exchange
  refine Monitor.wp_seq _ (aside_wp (authorizeFirst_aside s.auth hp _) []) ?_
  rintro _ ⟨flow, hp'⟩ ⟨rfl, kept⟩
  refine Monitor.wp_seq _ (aside_wp cacheNow_aside []) ?_
  rintro _ requestedAt ⟨rfl, -⟩
  have inv : Retrying s [] ⟨hp', some s.body, 0, s.attemptId, requestedAt⟩ :=
    ⟨kept.trans mark, rfl, (Attempt.afterResends_zero fresh).symm, rfl,
      fun _ member => (by cases member), fun early => (by simp at early)⟩
  refine Monitor.wp_seq _ (retryLoop_wp fuel inv) ?_
  intro sends sent looped
  cases sent with
  | error e => trivial
  | ok x =>
      refine Monitor.wp_seq _ (replayTooEarly_wp looped.1 looped.2) ?_
      intro sends replayed exchanged
      cases replayed with
      | error e => trivial
      | ok x => exact answerChallenges_wp flow exchanged

/-- A hop goes on under the attempt of the next hop. -/
def NextAttempt (s : RunState) (e : HopEnd) : Prop :=
  ∀ next, e.next = some next → next.attemptId = s.attemptId.nextHop

theorem afterHop_wp (cfg : Config) (F : Type) (s : RunState) (hp : HopParts)
    (replay : Option RequestBody) (k : Nat)
    (resp : ResponseParts) (sends : List Sent) :
    (hopMonitor F s).wp (cfg.afterHop s hp replay (s.attemptId.afterResends k) resp)
      (fun _ => NextAttempt s) sends := by
  refine (hopMonitor F s).wp_mono (aside_wp (afterHop_aside s hp replay _ resp) sends) ?_
  rintro _ e ⟨-, action, rfl⟩ next continued
  cases action with
  | stop => cases continued
  | refused why target => cases continued
  | invalidLocation => cases continued
  | follow f =>
      simp only [act] at continued
      split at continued
      · cases continued
      · cases continued
        rfl

theorem hop_wp (fresh : s.attemptId.resend = 0) (fuel : Nat) :
    (hopMonitor F s).wp (cfg.hop fuel s) (fun _ => NextAttempt s) [] := by
  unfold Config.hop
  refine Monitor.wp_seq _ (aside_wp (prepare_aside .any s) []) ?_
  rintro _ hp ⟨rfl, prepared⟩
  refine Monitor.wp_seq _ (aside_wp (cacheBefore_aside .any hp _) []) ?_
  rintro _ before ⟨rfl, kept⟩
  match before, kept with
  | .inl (hp', answered), _ =>
      have served := afterHop_wp cfg F s hp' s.body.rewind 0 answered []
      rw [Attempt.afterResends_zero fresh] at served
      exact served
  | .inr (hp', plan), kept =>
      refine Monitor.wp_seq _ (exchange_wp fresh fuel (kept.mark.trans prepared.mark)) ?_
      intro sends sent exchanged
      cases sent with
      | error e => exact fun next continued => by cases continued
      | ok x =>
          refine Monitor.wp_seq _ (quiet_wp (cacheAfter_quiet plan x) sends) ?_
          intro sends' resp _
          have ended := afterHop_wp cfg F s x.hp s.body.rewind (sends.length - 1) resp sends'
          rw [← exchanged.attemptId] at ended
          exact ended

def answeredTooEarly (e : Event (ClientCall F) ClientCall.Answer) : Bool :=
  (sendOf e).any Sent.tooEarly

/-- Once a hop at risk was answered 425, nothing asks for another send of it; and it makes no
more sends than there are resend numbers. -/
structure CarefulHop (s : RunState) (t : Calls F) : Prop where
  heeded : AtRisk s → t.Pairwise fun e later => answeredTooEarly e = true → asksAgain later = false
  few : (sendsOf t).length ≤ u16Max + 1

/-- How the sends of a hop from `s` go together. -/
structure HopSends (s : RunState) (sends : List Sent) : Prop where
  first : ∀ x ∈ sends.head?, x.request.body = s.body
  replayed : sends.Pairwise fun _ x => s.body.retryKind.mayReplay = true ∧
    replayForTooEarly s.body.rewind = some x.request.body
  tooEarlyOnce : sends.Pairwise fun x y => x.cause = .tooEarly → y.cause ≠ .tooEarly
  unmarked : sends.Pairwise fun x y => x.tooEarly = true → y.request.parts.allowEarlyData = false
  increasing : sends.Pairwise fun x y => ∃ a b, x.request.parts.attempt = some a ∧
    y.request.parts.attempt = some b ∧ a.resend < b.resend

theorem pairwise_of_earlier {α : Type} {R : α → α → Prop} {l : List α}
    (h : ∀ earlier x later, l = earlier ++ x :: later → ∀ y ∈ earlier, R y x) : l.Pairwise R := by
  induction l using List.reverseRecOn with
  | nil => exact .nil
  | append_singleton l x ih =>
      refine List.pairwise_append.mpr ⟨?_, List.pairwise_singleton R x, ?_⟩
      · refine ih fun earlier y later same => h earlier y (later ++ [x]) ?_
        rw [same, List.append_assoc, List.cons_append]
      · intro y member z last
        rw [List.mem_singleton.mp last]
        exact h l x [] rfl y member

/-- A list whose elements are told by their places. -/
theorem map_eq_range {α β : Type} {f : α → β} {g : Nat → β} {l : List α}
    (h : ∀ earlier x later, l = earlier ++ x :: later → f x = g earlier.length) :
    l.map f = (List.range l.length).map g := by
  induction l using List.reverseRecOn with
  | nil => rfl
  | append_singleton l x ih =>
      have init := ih fun earlier y later same => h earlier y (later ++ [x]) (by
        rw [same, List.append_assoc, List.cons_append])
      rw [List.map_append, init, List.length_append, List.length_singleton, List.range_succ,
        List.map_append, List.map_singleton, List.map_singleton, h l x [] rfl]

theorem hop_answered {t : Calls F} (careful : CarefulHop s t) : (hopMonitor F s).Answered [] t := by
  refine Monitor.observing_answered fun before e rest same risk early => ?_
  obtain ⟨x, member, tooEarly⟩ := early
  obtain ⟨e', earlier, sent⟩ := List.mem_filterMap.mp member
  have heeded := careful.heeded risk
  rw [same] at heeded
  refine (List.pairwise_append.mp heeded).2.2 e' earlier e List.mem_cons_self ?_
  rw [answeredTooEarly, sent]
  exact tooEarly

/-- Every send of a careful hop is what it should be after those before it. -/
theorem hop_fine {fuel : Nat} {t : Calls F} {q : Script F HopEnd} (fresh : s.attemptId.resend = 0)
    (steps : (cfg.hop fuel s).Steps t q) (careful : CarefulHop s t) {earlier later : List Sent}
    {x : Sent} (split : sendsOf t = earlier ++ x :: later) :
    SendFine s earlier x.request x.cause := by
  have accepts := ((hopMonitor F s).wp_steps steps (hop_wp fresh fuel)).1
  obtain ⟨⟨op, answer⟩, -, sent, fine⟩ :=
    Monitor.observing_allowed accepts (hop_answered careful) split
  cases op with
  | send request cause =>
      cases sent
      exact fine request cause rfl
  | _ => cases sent

theorem hop_attempts {fuel : Nat} {t : Calls F} {q : Script F HopEnd}
    (fresh : s.attemptId.resend = 0) (steps : (cfg.hop fuel s).Steps t q)
    (careful : CarefulHop s t) :
    (sendsOf t).map (fun x => x.request.parts.attempt) =
      ((List.range (sendsOf t).length).map s.attemptId.afterResends).map some := by
  rw [List.map_map]
  exact map_eq_range fun earlier x later split => (hop_fine fresh steps careful split).attempt

theorem hop_sends {fuel : Nat} {t : Calls F} {q : Script F HopEnd} (fresh : s.attemptId.resend = 0)
    (steps : (cfg.hop fuel s).Steps t q) (careful : CarefulHop s t) : HopSends s (sendsOf t) where
  first := by
    intro x head
    obtain ⟨later, same⟩ := List.head?_eq_some_iff.mp head
    have split : sendsOf t = [] ++ x :: later := same
    exact (hop_fine fresh steps careful split).first rfl
  replayed := pairwise_of_earlier fun earlier x later split y member =>
    (hop_fine fresh steps careful split).again (List.ne_nil_of_mem member)
  tooEarlyOnce := pairwise_of_earlier fun earlier x later split y member first second =>
    (hop_fine fresh steps careful split).once second y member first
  unmarked := pairwise_of_earlier fun earlier x later split y member tooEarly =>
    (hop_fine fresh steps careful split).unmarked ⟨y, member, tooEarly⟩
  increasing := by
    refine pairwise_of_earlier fun earlier x later split y member => ?_
    obtain ⟨before, between, same⟩ := List.append_of_mem member
    have split' : sendsOf t = before ++ y :: (between ++ x :: later) := by
      rw [split, same, List.append_assoc, List.cons_append]
    refine ⟨_, _, (hop_fine fresh steps careful split').attempt,
      (hop_fine fresh steps careful split).attempt, ?_⟩
    have few := careful.few
    rw [split, same] at few
    simp only [List.length_append, List.length_cons] at few
    simp only [Attempt.afterResends, same, List.length_append, List.length_cons]
    omega

theorem hop_next {fuel : Nat} {t : Calls F} {e : HopEnd} {next : RunState}
    (fresh : s.attemptId.resend = 0) (steps : (cfg.hop fuel s).Steps t (.done e))
    (careful : CarefulHop s t) (continued : e.next = some next) :
    next.attemptId = s.attemptId.nextHop :=
  (hopMonitor F s).wp_result (hop_wp fresh fuel) steps (hop_answered careful) next continued

/-- The hops of a run with their calls: those a redirect has left, and the one under way. -/
def hopsOf (turns : List (Turn RunState (ClientCall F) ClientCall.Answer HopEnd)) (s : RunState)
    (t : Calls F) : List (RunState × Calls F) :=
  turns.map (fun turn => (turn.start, turn.trace)) ++ [(s, t)]

def attemptsOf (hops : List (RunState × Calls F)) : List (Option Attempt) :=
  hops.flatMap fun h => (sendsOf h.2).map fun x => x.request.parts.attempt

/-- Careful hops, no more of them than there are hop numbers. -/
structure CarefulRun (hops : List (RunState × Calls F)) : Prop where
  careful : ∀ h ∈ hops, CarefulHop h.1 h.2
  few : hops.length ≤ u8Max + 1

/-- The attempts are different ones, each of a hop number from `hop` on. -/
def FreshFrom (hop : Nat) (attempts : List (Option Attempt)) : Prop :=
  ∃ reported : List Attempt, attempts = reported.map some ∧ reported.Nodup ∧
    ∀ a ∈ reported, hop ≤ a.hop

theorem hop_freshFrom {fuel : Nat} {t : Calls F} {q : Script F HopEnd}
    (fresh : s.attemptId.resend = 0) (steps : (cfg.hop fuel s).Steps t q)
    (careful : CarefulHop s t) :
    FreshFrom s.attemptId.hop ((sendsOf t).map fun x => x.request.parts.attempt) := by
  refine ⟨_, hop_attempts fresh steps careful, ?_, ?_⟩
  · refine (List.nodup_map_iff_inj_on List.nodup_range).mpr fun i hi j hj same => ?_
    have few := careful.few
    have capped : min i u16Max = min j u16Max := congrArg Attempt.resend same
    rw [List.mem_range] at hi hj
    omega
  · intro a member
    obtain ⟨k, -, rfl⟩ := List.mem_map.mp member
    exact Nat.le_refl _

/-- A hop's attempts in front of those of later hops. -/
theorem FreshFrom.cons {n : Nat} {later : List (Option Attempt)}
    {a : Attempt}
    (own : sends.map (fun x => x.request.parts.attempt) =
      ((List.range n).map a.afterResends).map some)
    (first : FreshFrom a.hop (sends.map fun x => x.request.parts.attempt))
    (rest : FreshFrom (a.hop + 1) later) :
    FreshFrom a.hop (sends.map (fun x => x.request.parts.attempt) ++ later) := by
  obtain ⟨reported, same, nodup, from_hop⟩ := first
  obtain ⟨reported', rfl, nodup', from_next⟩ := rest
  have one_hop : ∀ b ∈ reported, b.hop = a.hop := by
    intro b member
    have listed : some b ∈ ((List.range n).map a.afterResends).map some := by
      rw [← own, same]
      exact List.mem_map_of_mem member
    obtain ⟨c, member, found⟩ := List.mem_map.mp listed
    cases found
    obtain ⟨k, -, rfl⟩ := List.mem_map.mp member
    rfl
  refine ⟨reported ++ reported', by rw [same, List.map_append], ?_, ?_⟩
  · refine List.nodup_append.mpr ⟨nodup, nodup', fun b old c new same => ?_⟩
    have hop_b := one_hop b old
    have hop_c := from_next c new
    rw [← same] at hop_c
    omega
  · intro b member
    obtain old | new := List.mem_append.mp member
    · exact from_hop b old
    · exact Nat.le_of_succ_le (from_next b new)

theorem chain_sends {fuel : Nat} {s₀ s : RunState}
    {turns : List (Turn RunState (ClientCall F) ClientCall.Answer HopEnd)}
    (chain : Chain cfg fuel s₀ turns s) {t : Calls F} {q : Script F HopEnd}
    (steps : (cfg.hop fuel s).Steps t q) (fresh : s₀.attemptId.resend = 0)
    (careful : ∀ h ∈ hopsOf turns s t, CarefulHop h.1 h.2)
    (few : s₀.attemptId.hop + (hopsOf turns s t).length ≤ u8Max + 1) :
    (∀ h ∈ hopsOf turns s t, HopSends h.1 (sendsOf h.2)) ∧
      FreshFrom s₀.attemptId.hop (attemptsOf (hopsOf turns s t)) := by
  induction chain with
  | refl s =>
      have last := careful (s, t) List.mem_cons_self
      constructor
      · intro h member
        rw [List.mem_singleton.mp member]
        exact hop_sends fresh steps last
      · simpa [attemptsOf, hopsOf] using hop_freshFrom fresh steps last
  | @turn s s₁ s₂ t₁ e turns stepped continued rest ih =>
      have first := careful (s, t₁) List.mem_cons_self
      have next := hop_next fresh stepped first continued
      have later : ∀ h ∈ hopsOf turns s₂ t, CarefulHop h.1 h.2 :=
        fun h member => careful h (List.mem_cons_of_mem _ member)
      have length : (hopsOf (⟨s, t₁, e⟩ :: turns) s₂ t).length = (hopsOf turns s₂ t).length + 1 := rfl
      have nonempty : 0 < (hopsOf turns s₂ t).length := by simp [hopsOf]
      -- there is a hop number left for the next hop, so it is not capped
      have hop : s₁.attemptId.hop = s.attemptId.hop + 1 := by
        rw [next]
        exact Nat.min_eq_left (by omega)
      have rest := ih steps (by rw [next]; rfl) later (by omega)
      constructor
      · intro h member
        obtain rfl | others := List.mem_cons.mp member
        · exact hop_sends fresh stepped first
        · exact rest.1 h others
      · have after := rest.2
        rw [hop] at after
        exact .cons (hop_attempts fresh stepped first) (hop_freshFrom fresh stepped first) after

/-- The sends of every run from the request on are as they should be, hop by hop, and no two
of the run are reported under one attempt. -/
def SendsKeep (F : Type) (cfg : Config) (fuel : Nat) (s₀ : RunState)
    (careful : List (RunState × Calls F) → Prop) : Prop :=
  ∀ (turns : List (Turn RunState (ClientCall F) ClientCall.Answer HopEnd)) (s : RunState),
    Chain cfg fuel s₀ turns s → ∀ (t : Calls F) (q : Script F HopEnd),
      (cfg.hop fuel s).Steps t q → careful (hopsOf turns s t) →
        (∀ h ∈ hopsOf turns s t, HopSends h.1 (sendsOf h.2)) ∧
          ∃ reported : List Attempt,
            attemptsOf (hopsOf turns s t) = reported.map some ∧ reported.Nodup

theorem careful_run_sends (F : Type) (cfg : Config) (fuel : Nat) (method : Method) (uri : Uri)
    (headers : HeaderMap HeaderValue) (version : HttpVersion) (allowEarlyData : Bool)
    (body : RequestBody) (auth : Bool) (requestId : Nat) :
    SendsKeep F cfg fuel
      (.start method uri headers version allowEarlyData body auth requestId) CarefulRun := by
  intro turns s chain t q steps run
  obtain ⟨hops, reported, same, nodup, -⟩ :=
    chain_sends chain steps rfl run.careful (by simpa [RunState.start, Attempt.new] using run.few)
  exact ⟨hops, reported, same, nodup⟩

section Scene

/-- A marked request with a flow, which asks for a leg after a 401. -/
def markedGet : RunState :=
  .start .get (plainUri "a.test") [] .http11 true .empty true 0

/-- The first send is answered 425, its replay with `status`, and a leg 200. -/
def earlyScene (status : StatusCode) : (op : ClientCall Unit) → Unit → op.Answer × Unit :=
  Scene.handle {
    transport _ cause :=
      match cause with
      | .first | .retry => .ok ⟨425, .http11, []⟩
      | .tooEarly => .ok ⟨status, .http11, []⟩
      | .leg => .ok ⟨200, .http11, []⟩
    edits := []
    step status := if status = 401 then .again else .finished }

theorem careful_run_sends_replayed :
    HopSends markedGet (sendsOf ((plainConfig.hop 1 markedGet).log (earlyScene 200) ())) :=
  (careful_run_sends Unit plainConfig 1 .get (plainUri "a.test") [] .http11 true .empty true 0
    [] markedGet (.refl _) _ _ (steps_log (earlyScene 200) _ ()) {
      careful := by
        intro h member
        rw [List.mem_singleton.mp member]
        exact ⟨fun _ => by decide +kernel, by decide +kernel⟩
      few := by decide +kernel }).1 _ List.mem_cons_self

/-- A challenge leg after the replay of a 425 carries the mark again. -/
theorem leg_after_tooEarly_marked : ¬ SendsKeep Unit plainConfig 1 markedGet fun _ => True := by
  intro keep
  have sends := (keep [] markedGet (.refl _) _ _ (steps_log (earlyScene 401) _ ()) trivial).1 _
    List.mem_cons_self
  have unmarked := sends.unmarked
  revert unmarked
  decide +kernel

end Scene

end HClient.Client
