import HClient.Client.Backoff
import HClient.Client.Run
import HClient.Core.Conjunction

/-!
# Retry policies together

The standard policy of `sansio::retry` and the conjunctions of policies: what stops one, and how
long one waits that does not stop. `J` is the type of the jitter a policy is offered, and
`keepNum` what `Backoff::delay` makes of it.
-/
namespace HClient.Client

inductive RetryStatuses where
  | none
  | transient
  | anyServerError
  deriving DecidableEq, Repr

def RetryStatuses.contains : RetryStatuses → StatusCode → Bool
  | .none, _ => false
  | .transient, code => [408, 429, 500, 502, 503, 504].contains code
  | .anyServerError, code => code = 408 ∨ code = 429 ∨ (500 ≤ code ∧ code < 600)

inductive StopReason where
  | notRetryable
  | bodyCannotBeReplayed
  | outOfAttempts
  | retryAfterTooLong
  deriving DecidableEq, Repr

inductive Decision where
  | after (delay : Duration)
  | stop (reason : StopReason)
  deriving DecidableEq, Repr

structure Standard where
  backoff : Backoff
  retryUnsent : Bool
  statuses : RetryStatuses
  maxRetryAfter : Duration

/-- What the server asked for, or why the outcome is not retried. -/
def Standard.asked (s : Standard) : Outcome → Except StopReason (Option Duration)
  | .unsent => if s.retryUnsent then .ok none else .error .notRetryable
  | .status status retryAfter unreadable =>
      if ¬ s.statuses.contains status then .error .notRetryable
      else if unreadable then .error .retryAfterTooLong
      else .ok retryAfter

def Standard.decide (s : Standard) (outcome : Outcome) (attempt : Nat) (keep : KeepNum)
    (bodyReplayable : Bool) : Decision :=
  if ¬ bodyReplayable then .stop .bodyCannotBeReplayed
  else
    match s.asked outcome with
    | .error reason => .stop reason
    | .ok asked =>
        match s.backoff.delay attempt keep with
        | none => .stop .outOfAttempts
        | some backoff =>
            match asked with
            | some asked =>
                if s.maxRetryAfter < asked then .stop .retryAfterTooLong
                else .after (max asked backoff)
            | none => .after backoff

/-- A proposed retry with the jitter that the client has drawn for it. -/
structure Offer (J : Type) extends ProposedRetry where
  jitter : J

/-- A policy, as what it answers to one offer. -/
abbrev RetryPolicy (J : Type) := Offer J → RetryVerdict

namespace RetryVerdict

/-- Permit, with no opinion about how long to wait. -/
def permit : RetryVerdict := .after 0

/-- The more conservative of two verdicts. -/
def and : RetryVerdict → RetryVerdict → RetryVerdict
  | .stop, _ => .stop
  | _, .stop => .stop
  | .after a, .after b => .after (if b < a then a else b)

theorem after_and (a b : Duration) : (RetryVerdict.after a).and (.after b) = .after (max a b) := by
  change RetryVerdict.after (if b < a then a else b) = _
  split
  next shorter => rw [Nat.max_eq_left (Nat.le_of_lt shorter)]
  next longer => rw [Nat.max_eq_right (Nat.le_of_not_lt longer)]

theorem and_stop (v : RetryVerdict) : v.and .stop = .stop := by
  cases v <;> rfl

/-- The meet of two verdicts as a product: a permit without an opinion changes nothing. -/
instance : CommMonoid RetryVerdict where
  mul := and
  one := permit
  mul_assoc a b c := by
    change (a.and b).and c = a.and (b.and c)
    cases a with
    | stop => rfl
    | after a =>
        cases b with
        | stop => rfl
        | after b =>
            cases c with
            | stop => rw [after_and, and_stop, and_stop, and_stop]
            | after c => rw [after_and, after_and, after_and, after_and, Nat.max_assoc]
  one_mul a := by
    cases a with
    | stop => rfl
    | after a => exact (after_and 0 a).trans (congrArg after (Nat.zero_max a))
  mul_one a := by
    cases a with
    | stop => rfl
    | after a => exact (after_and a 0).trans (congrArg after (Nat.max_zero a))
  mul_comm a b := by
    change a.and b = b.and a
    cases a with
    | stop => exact (and_stop b).symm
    | after a =>
        cases b with
        | stop => rfl
        | after b => rw [after_and, after_and, Nat.max_comm]

variable {v : RetryVerdict} {vs : List RetryVerdict} {w : Duration}

theorem mul_def (a b : RetryVerdict) : a * b = a.and b := rfl

theorem after_mul_after (a b : Duration) :
    (RetryVerdict.after a) * .after b = .after (max a b) :=
  after_and a b

theorem mul_eq_stop_iff {a b : RetryVerdict} : a * b = .stop ↔ a = .stop ∨ b = .stop := by
  cases a with
  | stop => exact ⟨fun _ => .inl rfl, fun _ => rfl⟩
  | after a =>
      cases b with
      | stop => exact ⟨fun _ => .inr rfl, fun _ => rfl⟩
      | after b => simp [after_mul_after]

theorem prod_eq_stop_iff : vs.prod = .stop ↔ .stop ∈ vs := by
  induction vs with
  | nil =>
      constructor
      · intro stopped
        cases stopped
      · intro member
        cases member
  | cons v vs ih => rw [List.prod_cons, mul_eq_stop_iff, ih, List.mem_cons, eq_comm (a := v)]

/-- No verdict of them stops, and none waits longer than this one of them. -/
def Longest (vs : List RetryVerdict) (w : Duration) : Prop :=
  .after w ∈ vs ∧ ∀ v ∈ vs, ∃ d ≤ w, v = .after d

theorem Longest.unique {w' : Duration} (h : Longest vs w) (h' : Longest vs w') : w = w' := by
  obtain ⟨d, le, same⟩ := h.2 _ h'.1
  obtain ⟨d', le', same'⟩ := h'.2 _ h.1
  cases same
  cases same'
  exact Nat.le_antisymm le' le

/-- Verdicts of which none stops come to one, and it waits as long as the longest. -/
theorem longest_prod (occupied : vs ≠ []) (going : .stop ∉ vs) :
    ∃ w, vs.prod = .after w ∧ Longest vs w := by
  induction vs with
  | nil => exact absurd rfl occupied
  | cons v vs ih =>
      rw [List.mem_cons, not_or] at going
      cases v with
      | stop => exact absurd rfl going.1
      | after a =>
          rcases Decidable.em (vs = []) with rfl | more
          · refine ⟨a, mul_one _, List.mem_cons_self, ?_⟩
            intro v member
            exact ⟨a, le_rfl, List.mem_singleton.mp member⟩
          obtain ⟨b, met, member, longest⟩ := ih more going.2
          refine ⟨max a b, ?_, ?_, ?_⟩
          · rw [List.prod_cons, met, after_mul_after]
          · rcases Nat.le_total a b with shorter | longer
            · rw [Nat.max_eq_right shorter]
              exact List.mem_cons_of_mem _ member
            · rw [Nat.max_eq_left longer]
              exact List.mem_cons_self
          · intro v member
            rcases List.mem_cons.mp member with rfl | member
            · exact ⟨a, Nat.le_max_left a b, rfl⟩
            · obtain ⟨d, le, same⟩ := longest v member
              exact ⟨d, le.trans (Nat.le_max_right a b), same⟩

theorem prod_eq_after_iff (occupied : vs ≠ []) : vs.prod = .after w ↔ Longest vs w := by
  constructor
  · intro met
    have going : .stop ∉ vs := by
      intro member
      rw [prod_eq_stop_iff.mpr member] at met
      cases met
    obtain ⟨w', met', longest⟩ := longest_prod occupied going
    rw [met] at met'
    cases met'
    exact longest
  · intro longest
    have going : .stop ∉ vs := by
      intro member
      obtain ⟨d, -, same⟩ := longest.2 _ member
      cases same
    obtain ⟨w', met', longest'⟩ := longest_prod occupied going
    rw [met', longest.unique longest']

/-- What a list in a conjunction adds: an empty one stops. -/
def ofList (empty : Bool) : RetryVerdict :=
  if empty then .stop else .permit

theorem prod_ofList_eq_stop_iff (bs : List Bool) : (bs.map ofList).prod = .stop ↔ true ∈ bs := by
  rw [prod_eq_stop_iff, List.mem_map]
  constructor
  · rintro ⟨b, member, stops⟩
    cases b with
    | true => exact member
    | false => cases stops
  · intro member
    exact ⟨true, member, rfl⟩

theorem prod_ofList_of_filled {bs : List Bool} (filled : true ∉ bs) :
    (bs.map ofList).prod = 1 := by
  induction bs with
  | nil => rfl
  | cons b bs ih =>
      rw [List.mem_cons, not_or] at filled
      cases b with
      | true => exact absurd rfl filled.1
      | false => rw [List.map_cons, List.prod_cons, ih filled.2, mul_one]; rfl

end RetryVerdict

namespace RetryPolicy
open RetryVerdict

variable {J : Type}

/-- `RetryAnd`. -/
def both (a b : RetryPolicy J) : RetryPolicy J := fun offer =>
  match a offer with
  | .stop => .stop
  | first => first.and (b offer)

/-- The loop of `RetryAll::retry` at its policy `i`, from the verdict it has come to. -/
def allFrom (offer : Offer J) : Nat → RetryVerdict → List (RetryPolicy J) → RetryVerdict
  | _, verdict, [] => verdict
  | i, verdict, policy :: policies =>
      let this := policy offer
      match if i = 0 then this else verdict.and this with
      | .stop => .stop
      | verdict => allFrom offer (i + 1) verdict policies

/-- `RetryAll`. -/
def all (policies : List (RetryPolicy J)) : RetryPolicy J := fun offer =>
  allFrom offer 0 .stop policies

/-- `Standard` as a policy. -/
def ofStandard (keepNum : J → KeepNum) (s : Standard) : RetryPolicy J := fun offer =>
  match s.decide offer.outcome offer.attempt (keepNum offer.jitter) offer.bodyReplayable with
  | .after d => .after d
  | .stop _ => .stop

/-- The policy that a conjunction is. -/
def ofConjunction (c : Conjunction (RetryPolicy J)) : RetryPolicy J := c.joined both all

/-- A field value that is a number of seconds, between blanks. -/
def DelaySeconds (raw : HeaderValue) (d : Duration) : Prop :=
  ∃ text, HeaderValue.toStr raw = some text ∧ Text.trim text ≠ [] ∧
    (Text.trim text).all Text.isAsciiDigit = true ∧ ∃ secs, Text.parseU64 (Text.trim text) = some secs ∧
      d = .fromSecs secs

variable {c : Conjunction (RetryPolicy J)} {offer : Offer J} {keepNum : J → KeepNum}

/-- The laws of a conjunction at an offer. -/
structure Lawful (keepNum : J → KeepNum) (c : Conjunction (RetryPolicy J)) (offer : Offer J) :
    Prop where
  stops : ofConjunction c offer = .stop ↔
    true ∈ c.lists ∨ ∃ policy ∈ c.members, policy offer = .stop
  waits : ∀ w, ofConjunction c offer = .after w ↔
    true ∉ c.lists ∧ Longest (c.members.map fun policy => policy offer) w
  arranged : ∀ c' : Conjunction (RetryPolicy J), (true ∈ c'.lists ↔ true ∈ c.lists) →
    c'.members.Perm c.members → ofConjunction c' offer = ofConjunction c offer
  replayable : ∀ s, ofStandard keepNum s ∈ c.members → offer.bodyReplayable = false →
    ofConjunction c offer = .stop
  asked : ∀ s, ofStandard keepNum s ∈ c.members → ∀ received raw,
    Config.retryOutcome (.ok received) = some offer.outcome →
    received.parts.headers.get "retry-after".toList = some raw →
    ∀ w, ofConjunction c offer = .after w → ∃ d ≤ s.maxRetryAfter, DelaySeconds raw d ∧ d ≤ w

theorem both_eq (a b : RetryPolicy J) (offer : Offer J) : both a b offer = a offer * b offer := by
  unfold both
  split
  next same => rw [same]; rfl
  · rfl

theorem allFrom_eq (offer : Offer J) (i : Nat) (verdict : RetryVerdict)
    (policies : List (RetryPolicy J)) : allFrom offer (i + 1) verdict policies =
      verdict * (policies.map fun policy => policy offer).prod := by
  induction policies generalizing i verdict with
  | nil => exact (mul_one verdict).symm
  | cons policy policies ih =>
      rw [List.map_cons, List.prod_cons, ← mul_assoc, mul_def verdict, allFrom,
        if_neg (Nat.succ_ne_zero i)]
      split
      next same => rw [same]; rfl
      · exact ih _ _

/-- A list begins with its first policy's verdict, whatever it would answer empty. -/
theorem all_eq (policies : List (RetryPolicy J)) (offer : Offer J) : all policies offer =
    ofList policies.isEmpty * (policies.map fun policy => policy offer).prod := by
  cases policies with
  | nil => rfl
  | cons policy policies =>
      rw [all, allFrom, if_pos rfl, List.map_cons, List.prod_cons]
      change _ = 1 * _
      rw [one_mul]
      split
      next same => rw [same]; rfl
      · exact allFrom_eq offer 0 _ policies

theorem ofConjunction_eq (c : Conjunction (RetryPolicy J)) (offer : Offer J) :
    ofConjunction c offer =
      (c.lists.map ofList).prod * (c.members.map fun policy => policy offer).prod := by
  have answered := @Conjunction.answer_joined (RetryPolicy J) RetryVerdict _
    (fun policy => policy offer) ofList both all (fun _ _ => mul_comm _ _)
    (fun a b => both_eq a b offer) (fun policies => all_eq policies offer) c
  exact answered

theorem stops_iff : ofConjunction c offer = .stop ↔
    true ∈ c.lists ∨ ∃ policy ∈ c.members, policy offer = .stop := by
  rw [ofConjunction_eq, mul_eq_stop_iff, prod_ofList_eq_stop_iff, prod_eq_stop_iff, List.mem_map]

theorem waits_iff {w : Duration} : ofConjunction c offer = .after w ↔
    true ∉ c.lists ∧ Longest (c.members.map fun policy => policy offer) w := by
  by_cases filled : true ∈ c.lists
  · have stopped : ofConjunction c offer = .stop := stops_iff.mpr (.inl filled)
    rw [stopped]
    constructor
    · intro same
      cases same
    · intro met
      exact absurd filled met.1
  · have occupied : c.members.map (fun policy => policy offer) ≠ [] := by
      intro empty
      exact c.members_ne_nil filled (List.map_eq_nil_iff.mp empty)
    rw [ofConjunction_eq, prod_ofList_of_filled filled, one_mul, prod_eq_after_iff occupied]
    exact ⟨fun longest => ⟨filled, longest⟩, fun met => met.2⟩

theorem arranged_eq {c' : Conjunction (RetryPolicy J)} (lists : true ∈ c'.lists ↔ true ∈ c.lists)
    (members : c'.members.Perm c.members) : ofConjunction c' offer = ofConjunction c offer := by
  have same : (c'.lists.map ofList).prod = (c.lists.map ofList).prod := by
    by_cases filled : true ∈ c.lists
    · rw [(prod_ofList_eq_stop_iff _).mpr filled, (prod_ofList_eq_stop_iff _).mpr (lists.mpr filled)]
    · rw [prod_ofList_of_filled filled, prod_ofList_of_filled fun h => filled (lists.mp h)]
  rw [ofConjunction_eq, ofConjunction_eq, same, (members.map _).prod_eq]

/-- What the standard policy has looked at when it permits another attempt. -/
theorem decide_after {s : Standard} {outcome : Outcome} {attempt : Nat} {keep : KeepNum}
    {bodyReplayable : Bool} {w : Duration}
    (decided : s.decide outcome attempt keep bodyReplayable = .after w) :
    bodyReplayable = true ∧ ∃ asked backoff, s.asked outcome = .ok asked ∧
      s.backoff.delay attempt keep = some backoff ∧ backoff ≤ w ∧
      ∀ d ∈ asked, d ≤ s.maxRetryAfter ∧ d ≤ w := by
  cases bodyReplayable with
  | false => cases decided
  | true =>
      refine ⟨rfl, ?_⟩
      rw [Standard.decide, if_neg (by decide)] at decided
      cases asking : s.asked outcome with
      | error reason => rw [asking] at decided; cases decided
      | ok asked =>
          cases delayed : s.backoff.delay attempt keep with
          | none => rw [asking, delayed] at decided; cases decided
          | some backoff =>
              rw [asking, delayed] at decided
              cases asked with
              | none =>
                  injection decided with same
                  subst same
                  exact ⟨none, backoff, rfl, rfl, le_rfl, fun d absent => by cases absent⟩
              | some asked =>
                  dsimp only at decided
                  split at decided
                  · cases decided
                  next short =>
                    injection decided with same
                    subst same
                    refine ⟨some asked, backoff, rfl, rfl, Nat.le_max_right _ _, ?_⟩
                    intro d same
                    cases same
                    exact ⟨Nat.le_of_not_lt short, Nat.le_max_left _ _⟩

theorem ofStandard_after {s : Standard} {w : Duration}
    (permitted : ofStandard keepNum s offer = .after w) :
    s.decide offer.outcome offer.attempt (keepNum offer.jitter) offer.bodyReplayable = .after w := by
  unfold ofStandard at permitted
  split at permitted
  next d same => cases permitted; exact same
  · cases permitted

theorem ofStandard_not_replayable (s : Standard) (kept : offer.bodyReplayable = false) :
    ofStandard keepNum s offer = .stop := by
  rw [ofStandard, kept]
  rfl

/-- A `Retry-After` field is read as a delay, or else it is there and unreadable. -/
theorem readRetryAfter_of_get {headers : HeaderMap HeaderValue} {raw : HeaderValue}
    (field : headers.get "retry-after".toList = some raw) :
    (∃ d, Config.readRetryAfter headers = (some d, false) ∧ DelaySeconds raw d) ∨
      Config.readRetryAfter headers = (none, true) := by
  unfold Config.readRetryAfter
  rw [field]
  dsimp only
  cases visible : HeaderValue.toStr raw with
  | none => exact .inr rfl
  | some text =>
      rw [Option.bind_some]
      cases read : Config.retryAfterSeconds text with
      | none => exact .inr rfl
      | some d =>
          refine .inl ⟨d, rfl, text, visible, ?_⟩
          rw [Config.retryAfterSeconds] at read
          split at read
          · cases read
          next digits =>
            rw [not_or, not_not] at digits
            obtain ⟨secs, parsed, same⟩ := Option.map_eq_some_iff.mp read
            exact ⟨digits.1, digits.2, secs, parsed, same.symm⟩

theorem asked_of_get {s : Standard} {received : Received} {raw : HeaderValue} {w : Duration}
    (answered : Config.retryOutcome (.ok received) = some offer.outcome)
    (field : received.parts.headers.get "retry-after".toList = some raw)
    (permitted : ofStandard keepNum s offer = .after w) :
    ∃ d ≤ s.maxRetryAfter, DelaySeconds raw d ∧ d ≤ w := by
  obtain ⟨-, asked, -, asking, -, -, waited⟩ := decide_after (ofStandard_after permitted)
  unfold Config.retryOutcome at answered
  rw [Option.some.injEq] at answered
  rw [← answered] at asking
  rcases readRetryAfter_of_get field with ⟨d, read, seconds⟩ | unread
  · rw [read] at asking
    unfold Standard.asked at asking
    dsimp only at asking
    split at asking
    · cases asking
    · cases asking
      obtain ⟨allowed, floor⟩ := waited d rfl
      exact ⟨d, allowed, seconds, floor⟩
  · rw [unread] at asking
    unfold Standard.asked at asking
    dsimp only at asking
    split at asking <;> cases asking

/-- No member of a conjunction waits longer than the conjunction. -/
theorem member_after {policy : RetryPolicy J} {w : Duration} (member : policy ∈ c.members)
    (permitted : ofConjunction c offer = .after w) : ∃ d ≤ w, policy offer = .after d :=
  (waits_iff.mp permitted).2.2 _ (List.mem_map.mpr ⟨policy, member, rfl⟩)

/-- Every conjunction keeps the laws, at every offer. -/
theorem lawful (keepNum : J → KeepNum) (c : Conjunction (RetryPolicy J)) (offer : Offer J) :
    Lawful keepNum c offer where
  stops := stops_iff
  waits _ := waits_iff
  arranged _ := arranged_eq
  replayable s member kept := stops_iff.mpr (.inr ⟨_, member, ofStandard_not_replayable s kept⟩)
  asked s member received raw answered field w permitted := by
    obtain ⟨d, le, waited⟩ := member_after member permitted
    obtain ⟨d', allowed, seconds, floor⟩ := asked_of_get answered field waited
    exact ⟨d', allowed, seconds, floor.trans le⟩

end RetryPolicy
end HClient.Client
