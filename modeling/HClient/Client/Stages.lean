import HClient.Client.Run
import HClient.Effect.Monitor

/-!
# The stages that send nothing

What the stages before and after a hop's sends leave of its parts: they make no send, keep
the early-data mark, and every field they add is the client's own.
-/
namespace HClient.Client

open Effect Program Config

variable {F : Type} {cfg : Config}

def Quiet (op : ClientCall F) : Prop := op.sent = none

/-- The calls of the stages around the sends, which are neither sends nor what a cache is
told of a response. -/
def Aside : ClientCall F → Prop
  | .send .. | .record .. | .revalidated .. => False
  | _ => True

theorem Aside.quiet (op : ClientCall F) (aside : Aside op) : Quiet op := by
  cases op with
  | send request cause => cases aside
  | _ => rfl

/-- A property of header fields that those the client adds by itself have. -/
structure FieldRule where
  holds : HeaderName × Marked → Prop
  ofClient : ∀ name bytes origin, origin ≠ .flow → origin ≠ .caller →
    holds (name, ⟨bytes, origin⟩)

def FieldRule.Fields (rule : FieldRule) (headers : Headers) : Prop :=
  ∀ field ∈ headers, rule.holds field

/-- The rule that every field meets. -/
def FieldRule.any : FieldRule := ⟨fun _ => True, fun _ _ _ _ _ => trivial⟩

namespace FieldRule
variable {rule : FieldRule} {headers : Headers}

theorem Fields.insert {name : HeaderName} {value : Marked} (fields : rule.Fields headers)
    (own : rule.holds (name, value)) : rule.Fields (headers.insert name value) := by
  intro field member
  obtain ⟨old, -⟩ | rfl := HeaderMap.mem_insert.mp member
  · exact fields field old
  · exact own

theorem Fields.remove {name : HeaderName} (fields : rule.Fields headers) :
    rule.Fields (headers.remove name) :=
  fun field member => fields field (HeaderMap.mem_remove.mp member).1

theorem Fields.removeAll {names : List HeaderName} (fields : rule.Fields headers) :
    rule.Fields (removeAll names headers) :=
  fun field member => fields field (mem_removeAll.mp member).1

theorem Fields.foldl {α : Type} {step : Headers → α → Headers}
    (keeps : ∀ headers a, rule.Fields headers → rule.Fields (step headers a))
    (as : List α) (fields : rule.Fields headers) : rule.Fields (as.foldl step headers) := by
  induction as generalizing headers with
  | nil => exact fields
  | cons a as ih => exact ih (keeps headers a fields)

theorem Fields.addDefault (headers : Headers) (field : HeaderName × HeaderValue)
    (fields : rule.Fields headers) : rule.Fields (Config.addDefault headers field) := by
  unfold Config.addDefault
  split
  · exact fields
  · intro field' member
    obtain old | rfl := HeaderMap.mem_append.mp member
    · exact fields field' old
    · exact rule.ofClient _ _ _ (by decide) (by decide)

theorem Fields.addNetrc (auth : Bool) (uri : Uri) (fields : rule.Fields headers) :
    rule.Fields (cfg.addNetrc auth uri headers) := by
  unfold Config.addNetrc
  split
  · exact fields
  split
  · exact fields.insert (rule.ofClient _ _ _ (by decide) (by decide))
  · exact fields

theorem Fields.addCondition (headers : Headers) (c : HeaderName × HeaderValue)
    (fields : rule.Fields headers) : rule.Fields (Config.addCondition headers c) :=
  fields.insert (rule.ofClient _ _ _ (by decide) (by decide))

end FieldRule

/-- The parts a stage hands on keep the mark and the rule. -/
structure Keeps (rule : FieldRule) (hp hp' : HopParts) : Prop where
  mark : hp'.allowEarlyData = hp.allowEarlyData
  fields : rule.Fields hp.headers → rule.Fields hp'.headers

namespace Keeps
variable {rule : FieldRule} {hp hp' hp'' : HopParts}

theorem refl (hp : HopParts) : Keeps rule hp hp := ⟨rfl, id⟩

end Keeps

theorem upgradeScheme_aside (uri : Uri) :
    (cfg.upgradeScheme uri : Script F Uri).Within Aside fun _ => True := by
  unfold upgradeScheme
  split
  · exact ⟨trivial, fun _ => trivial⟩
  · trivial

theorem attachCookies_aside (rule : FieldRule) (hp : HopParts) (owns : Bool) :
    (cfg.attachCookies hp owns : Script F HopParts).Within Aside (Keeps rule hp) := by
  unfold attachCookies
  split
  · exact .refl hp
  · refine ⟨trivial, fun value => ⟨rfl, fun fields => ?_⟩⟩
    cases value with
    | none => exact fields.remove
    | some v => exact fields.remove.insert (rule.ofClient _ _ _ (by decide) (by decide))

theorem prepare_aside (rule : FieldRule) (s : RunState) :
    (cfg.prepare s : Script F HopParts).Within Aside (Keeps rule s.hp) := by
  refine (upgradeScheme_aside s.hp.uri).bind fun uri _ => ?_
  refine (attachCookies_aside rule { s.hp with uri } _).bind fun hp attached => ?_
  exact ⟨attached.mark, fun fields =>
    ((attached.fields fields).foldl FieldRule.Fields.addDefault _).addNetrc _ _⟩

/-- The parts a lookup hands on, answered or not. -/
def partsOf : (HopParts × ResponseParts) ⊕ (HopParts × Plan) → HopParts
  | .inl (hp, _) => hp
  | .inr (hp, _) => hp

theorem cacheBefore_aside (rule : FieldRule) (hp : HopParts) (owns : Bool) :
    (cfg.cacheBefore hp owns : Script F _).Within Aside fun before =>
      Keeps rule hp (partsOf before) := by
  unfold cacheBefore
  split
  · exact .refl hp
  refine ⟨trivial, fun now => ⟨trivial, fun found => ?_⟩⟩
  cases found with
  | miss => exact ⟨rfl, fun fields => fields.removeAll⟩
  | hit stored => exact ⟨rfl, fun fields => fields.removeAll⟩
  | unsatisfiable => exact ⟨rfl, fun fields => fields.removeAll⟩
  | revalidate key stale conditions =>
      exact ⟨rfl, fun fields => fields.removeAll.foldl FieldRule.Fields.addCondition _⟩

theorem cacheNow_aside : (cfg.cacheNow : Script F SystemTime).Within Aside fun _ => True := by
  unfold cacheNow
  cases cfg.cache with
  | none => trivial
  | some cache => exact ⟨trivial, fun _ => trivial⟩

theorem authorizeFirst_aside (auth : Bool) (hp : HopParts) (replay : Option RequestBody) :
    (authorizeFirst auth hp replay : Script F _).Within Aside fun r =>
      r.2.allowEarlyData = hp.allowEarlyData := by
  cases auth with
  | false => exact rfl
  | true => exact ⟨trivial, fun _ => ⟨trivial, fun _ => rfl⟩⟩

theorem noteResponse_aside (hp : HopParts) (parts : ResponseParts) :
    (cfg.noteResponse hp parts : Script F _).Within Aside fun _ => True := by
  unfold noteResponse
  refine Within.bind (Q := fun _ => True) ?_ fun _ _ => ?_
  · cases cfg.cookies with
    | false => trivial
    | true => exact ⟨trivial, fun _ => trivial⟩
  · cases cfg.hsts with
    | false => trivial
    | true => exact ⟨trivial, fun _ => trivial⟩

theorem askRetry_aside (replay : Option RequestBody) (s : RetryState)
    (outcome : Except TransportError Received) :
    (cfg.askRetry replay s outcome : Script F _).Within Aside fun _ => True := by
  unfold askRetry
  split
  · trivial
  · refine ⟨trivial, fun verdict => ?_⟩
    cases verdict with
    | stop => trivial
    | after delay => exact ⟨trivial, fun _ => cacheNow_aside.bind fun _ _ => trivial⟩

theorem recordResponse_quiet (cache : Cache.HttpCache) (x : Exchange) (receivedAt : SystemTime) :
    (recordResponse cache x receivedAt : Script F _).Within Quiet fun _ => True := by
  refine ⟨rfl, fun _ => ?_⟩
  simp only
  split
  · trivial
  · exact ⟨rfl, fun _ => trivial⟩

theorem cacheAfter_quiet (plan : Plan) (x : Exchange) :
    (cfg.cacheAfter plan x : Script F _).Within Quiet fun _ => True := by
  unfold cacheAfter
  split
  · trivial
  refine ⟨rfl, fun receivedAt => ?_⟩
  simp only
  split
  · exact recordResponse_quiet _ x receivedAt
  split
  · exact ⟨rfl, fun _ => trivial⟩
  · exact ⟨rfl, fun _ => recordResponse_quiet _ x receivedAt⟩

/-- The end of a hop is what an action makes of it. -/
theorem afterHop_aside (s : RunState) (hp : HopParts) (replay : Option RequestBody)
    (attemptId : Attempt) (resp : ResponseParts) :
    (cfg.afterHop s hp replay attemptId resp : Script F _).Within Aside fun e =>
      ∃ action, e = act s hp replay attemptId resp action := by
  unfold afterHop
  split
  · exact ⟨_, rfl⟩
  · exact ⟨trivial, fun verdict => ⟨_, rfl⟩⟩

/-- What the end of a hop makes of a followed redirect. -/
theorem act_follow {s : RunState} {hp left : HopParts} {replay : Option RequestBody}
    {attemptId : Attempt} {resp : ResponseParts} {action : RedirectAction} {f : Follow}
    {next : RunState} (same : act s hp replay attemptId resp action = .follow left f next) :
    action = .follow f ∧ left = hp ∧ nextHop hp replay f = some (next.hp, next.body) ∧
      next.auth = (s.auth && !f.stripSensitive) := by
  cases action with
  | stop => cases same
  | refused why target => cases same
  | invalidLocation => cases same
  | follow g =>
      simp only [act] at same
      split at same
      · cases same
      next parts body followed =>
        cases same
        exact ⟨rfl, rfl, followed, rfl⟩

end HClient.Client
