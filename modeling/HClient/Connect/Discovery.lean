import HClient.Connect.Scheduler
import HClient.Core.Table

/-!
# Discovery

What an HTTPS record says of where an origin is reached, and the origins whose record has led a
connect astray: for a time they are connected to as if they had none.
-/
namespace HClient.Connect

/-- An origin, whose host is compared without case. -/
structure Origin where
  host : Text
  port : Nat
  deriving DecidableEq, Repr

def Origin.new (host : Text) (port : Nat) : Origin := ⟨host.toAsciiLowercase, port⟩

/-! ## The record -/

/-- What of a record can change a connect. -/
structure Endpoint where
  port : Option Nat
  ipv4hint : List (List Nat)
  ipv6hint : List (List Nat)
  alpn : List (List UInt8)
  ech : Option (List UInt8)
  deriving DecidableEq, Repr

def Endpoint.isInert (e : Endpoint) : Bool :=
  e.port.isNone && e.ipv4hint.isEmpty && e.ipv6hint.isEmpty && e.alpn.isEmpty && e.ech.isNone

def Endpoint.ofSvcb (e : SvcbEndpoint) : Endpoint :=
  ⟨e.port, e.ipv4hint, e.ipv6hint, e.alpn, e.echConfigList⟩

/-- One more record of the lookup: an alias is not followed, and of equals the first is kept. -/
def better (best : Option SvcbEndpoint) (record : SvcbEndpoint) : Option SvcbEndpoint :=
  if record.priority = 0 then best
  else
    match best with
    | none => some record
    | some b => if record.priority < b.priority then some record else some b

/-- An answer of the lookup; an error and a record of another kind are passed over. -/
def considered (best : Option SvcbEndpoint) : Item → Option SvcbEndpoint
  | .ok ⟨_, .https record⟩ => better best record
  | .ok ⟨_, .a _⟩ => best
  | .ok ⟨_, .aaaa _⟩ => best
  | .error _ => best

/-- What the answers of a lookup come to. -/
def chosen (items : List Item) : Option Endpoint := (items.foldl considered none).map .ofSvcb

inductive Prefetched where
  | notConsulted
  | looked (found : Option Endpoint)
  deriving DecidableEq, Repr

def Prefetched.actionable : Prefetched → Option Endpoint
  | .notConsulted => none
  | .looked found => found.filter fun e => !e.isInert

/-- What is proposed under a record: of what we would, what it advertises and HTTP/1.1, and all of
it where that is nothing. -/
def alpnOffer (ours record : List (List UInt8)) : List (List UInt8) :=
  match ours.filter fun p => p = Bytes.ascii "http/1.1" ∨ p ∈ record with
  | [] => ours
  | first :: offer => first :: offer

/-! ## Origins that a record has led astray -/

def svcbFailureTtl : Duration := .fromSecs 300

structure NegativeCache where
  expiries : Table Origin Duration

namespace NegativeCache

def new : NegativeCache := ⟨∅⟩

def suppressed (c : NegativeCache) (origin : Origin) (now : Duration) : Bool × NegativeCache :=
  match c.expiries.lookup origin with
  | some expiresAt => if now < expiresAt then (true, c) else (false, ⟨c.expiries.erase origin⟩)
  | none => (false, c)

def record (c : NegativeCache) (origin : Origin) (now : Duration) : NegativeCache :=
  ⟨c.expiries.insert origin (now.saturatingAdd svcbFailureTtl)⟩

inductive Call where
  | suppressed (origin : Origin) (now : Duration)
  | record (origin : Origin) (now : Duration)
  deriving DecidableEq

def Call.now : Call → Duration
  | .suppressed _ now => now
  | .record _ now => now

def step (c : NegativeCache) : Call → NegativeCache
  | .suppressed origin now => (c.suppressed origin now).2
  | .record origin now => c.record origin now

/-- The cache after these calls. -/
def after (calls : List Call) : NegativeCache := calls.foldl step new

/-- An origin whose record failed a connect not long ago. -/
def Marked (calls : List Call) (origin : Origin) (now : Duration) : Prop :=
  ∃ failed, .record origin failed ∈ calls ∧ now < failed.saturatingAdd svcbFailureTtl

/-- The calls' readings of the clock in order, and none past `now`. -/
def Clock (calls : List Call) (now : Duration) : Prop :=
  calls.Pairwise (fun a b => a.now ≤ b.now) ∧ ∀ c ∈ calls, c.now ≤ now

theorem saturatingAdd_mono {a b : Duration} (le : a ≤ b) (d : Duration) :
    a.saturatingAdd d ≤ b.saturatingAdd d :=
  min_le_min_right _ (Nat.add_le_add_right le d)

/-- What the cache holds of an origin: the latest expiry there was, or none that has not passed. -/
def Holds (calls : List Call) (now : Duration) (origin : Origin) : Option Duration → Prop
  | some expiresAt => (∃ failed, .record origin failed ∈ calls ∧
      expiresAt = failed.saturatingAdd svcbFailureTtl) ∧
      ∀ failed, .record origin failed ∈ calls → failed.saturatingAdd svcbFailureTtl ≤ expiresAt
  | none => ∀ failed, .record origin failed ∈ calls → failed.saturatingAdd svcbFailureTtl ≤ now

theorem Holds.concat {calls : List Call} {c : Call} {now : Duration} {origin : Origin}
    {held : Option Duration} (h : Holds calls c.now origin held) (later : c.now ≤ now)
    (other : ∀ failed, c ≠ .record origin failed) : Holds (calls ++ [c]) now origin held := by
  have earlier {failed : Duration} (member : .record origin failed ∈ calls ++ [c]) :
      .record origin failed ∈ calls := by
    rcases List.mem_append.mp member with before | last
    · exact before
    · exact absurd (List.mem_singleton.mp last).symm (other failed)
  cases held with
  | none => exact fun failed member => (h failed (earlier member)).trans later
  | some expiresAt =>
      obtain ⟨⟨failed, member, same⟩, latest⟩ := h
      exact ⟨⟨failed, List.mem_append_left _ member, same⟩,
        fun failed member => latest failed (earlier member)⟩

theorem after_concat (calls : List Call) (c : Call) :
    after (calls ++ [c]) = (after calls).step c := List.foldl_concat _ _ _ _

theorem after_holds (calls : List Call) {now : Duration} (clock : Clock calls now)
    (origin : Origin) : Holds calls now origin ((after calls).expiries.lookup origin) := by
  induction calls using List.reverseRecOn generalizing now with
  | nil => exact nofun
  | append_singleton calls c ih =>
      obtain ⟨ordered, past⟩ := clock
      rw [List.pairwise_append] at ordered
      have before : ∀ a ∈ calls, a.now ≤ c.now := fun a member =>
        ordered.2.2 a member c List.mem_cons_self
      have later : c.now ≤ now := past c (by simp)
      have held := ih ⟨ordered.1, before⟩
      rw [after_concat]
      cases c with
      | record origin' failed =>
          rw [step, record]
          by_cases same : origin = origin'
          · subst same
            rw [AList.lookup_insert]
            refine ⟨⟨failed, by simp, rfl⟩, fun failed' member => ?_⟩
            rcases List.mem_append.mp member with earlier | last
            · exact saturatingAdd_mono (before _ earlier) _
            · cases List.mem_singleton.mp last
              exact Nat.le_refl _
          · rw [AList.lookup_insert_ne same]
            refine held.concat later fun failed' h => ?_
            cases h
            exact same rfl
      | suppressed origin' asked =>
          have kept := held.concat later (fun failed => by simp)
          rw [step, suppressed]
          cases looked : (after calls).expiries.lookup origin' with
          | none => exact kept
          | some expiresAt =>
              dsimp only
              split
              · exact kept
              next expired =>
                by_cases same : origin = origin'
                · subst same
                  rw [looked] at held
                  rw [AList.lookup_erase]
                  intro failed member
                  have earlier : .record origin failed ∈ calls := by simpa using member
                  exact ((held.2 failed earlier).trans (Nat.le_of_not_lt expired)).trans later
                · rw [AList.lookup_erase_ne same]
                  exact kept

/-- By a clock that does not go back, an origin is suppressed exactly while a record of it has
failed a connect not long ago. -/
theorem suppressed_iff (calls : List Call) (origin : Origin) (now : Duration)
    (clock : Clock calls now) :
    ((after calls).suppressed origin now).1 = true ↔ Marked calls origin now := by
  have held := after_holds calls clock origin
  unfold suppressed Marked
  cases looked : (after calls).expiries.lookup origin with
  | none =>
      rw [looked] at held
      refine iff_of_false Bool.false_ne_true ?_
      rintro ⟨failed, member, current⟩
      exact absurd (held failed member) (Nat.not_le_of_lt current)
  | some expiresAt =>
      rw [looked] at held
      obtain ⟨⟨failed, member, same⟩, latest⟩ := held
      dsimp only
      constructor
      · intro answered
        split at answered
        next current => exact ⟨failed, member, same ▸ current⟩
        · cases answered
      · rintro ⟨failed', member', current⟩
        rw [if_pos (Nat.lt_of_lt_of_le current (latest failed' member'))]

/-- A connect to an origin soon after its record failed one. -/
theorem suppressed_iff_soon :
    ((after [.record ⟨"example.com".toList, 443⟩ 0]).suppressed
      ⟨"example.com".toList, 443⟩ 1).1 = true :=
  (suppressed_iff [.record ⟨"example.com".toList, 443⟩ 0] ⟨"example.com".toList, 443⟩ 1
    ⟨List.pairwise_singleton _ _, by decide⟩).mpr ⟨0, List.mem_cons_self, by decide +kernel⟩

end NegativeCache
end HClient.Connect
