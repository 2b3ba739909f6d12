import HClient.Body.Frame

/-!
# Reversing a content coding

`decompress::Decode` and `decompress::Decompressed`. The body inside is a parameter: each poll of
it meets one moment of its surroundings, and what it does there is recorded.
-/
namespace HClient.Body

open Native

structure Decode (D : Type) where
  push : D → List UInt8 → Except Text (List UInt8) × D
  finish : D → Except Text (List UInt8) × D
  token : D → Text

inductive State (D : Type) where
  | through
  | decoding (decoder : D) (fed : Bool)
  | ended

structure Decompressed (σ D : Type) where
  inner : σ
  state : State D

def decodeError (coding source : Text) : Error := .new .decode (.decodeFailed coding source)

namespace Decompressed
variable {σ D M β : Type}

def new (inner : σ) : Option D → Decompressed σ D
  | some decoder => ⟨inner, .decoding decoder false⟩
  | none => ⟨inner, .through⟩

/-- One pass of the loop of `poll_frame`, over what the body inside answered: what is answered in
turn, if that is anything yet, and the state the pass leaves. -/
def receive (dec : Decode D) : State D → Answer → Option Answer × State D
  | .through, met => (some met, .through)
  | .ended, _ => (some .ended, .ended)
  | .decoding decoder fed, .pending => (some .pending, .decoding decoder fed)
  | .decoding decoder _, .data bytes =>
      match dec.push decoder bytes with
      | (.ok [], decoder) => (none, .decoding decoder true)
      | (.ok out, decoder) => (some (.data out), .decoding decoder true)
      | (.error e, decoder) => (some (.failed (decodeError (dec.token decoder) e)), .ended)
  | .decoding decoder fed, .trailers fields => (some (.trailers fields), .decoding decoder fed)
  | .decoding _ _, .failed e => (some (.failed e), .ended)
  | .decoding decoder fed, .ended =>
      -- a body nothing was fed from has no end to check
      match if fed then (dec.finish decoder).1 else .ok [] with
      | .ok [] => (some .ended, .ended)
      | .ok out => (some (.data out), .ended)
      | .error e => (some (.failed (decodeError (dec.token decoder) e)), .ended)

/-- `poll_frame`, with the moments its polls of the body inside meet; `none` where these run out
before it answers. -/
def pollFrame (dec : Decode D) (poll : σ → M → Answer × σ × List β) :
    Decompressed σ D → List M → Option (Answer × Decompressed σ D × List β × List M)
  | ⟨inner, .ended⟩, moments => some (.ended, ⟨inner, .ended⟩, [], moments)
  | _, [] => none
  | ⟨inner, state⟩, m :: moments =>
      let (met, inner, calls) := poll inner m
      match receive dec state met with
      | (some answer, state) => some (answer, ⟨inner, state⟩, calls, moments)
      | (none, state) =>
          (pollFrame dec poll ⟨inner, state⟩ moments).map fun (answer, b, later, moments) =>
            (answer, b, calls ++ later, moments)

section
variable {dec : Decode D} {poll : σ → M → Answer × σ × List β}

theorem pollFrame_cons {inner : σ} {state : State D} {m : M} {moments : List M}
    (going : state ≠ .ended) :
    pollFrame dec poll ⟨inner, state⟩ (m :: moments) =
      match receive dec state (poll inner m).1 with
      | (some answer, state) =>
          some (answer, ⟨(poll inner m).2.1, state⟩, (poll inner m).2.2, moments)
      | (none, state) =>
          (pollFrame dec poll ⟨(poll inner m).2.1, state⟩ moments).map
            fun (answer, b, later, rest) => (answer, b, (poll inner m).2.2 ++ later, rest) := by
  cases state with
  | ended => exact absurd rfl going
  | through => rfl
  | decoding => rfl

/-- The loop taken apart: a body that has ended, a pass that answers, and one that does not. -/
inductive Polled (dec : Decode D) (poll : σ → M → Answer × σ × List β) :
    Decompressed σ D → List M → Answer → Decompressed σ D → List β → List M → Prop where
  | atEnd (inner : σ) (moments : List M) :
      Polled dec poll ⟨inner, .ended⟩ moments .ended ⟨inner, .ended⟩ [] moments
  | answered {inner inner' : σ} {state state' : State D} {m : M} {met answer : Answer}
      {calls : List β} (moments : List M) (going : state ≠ .ended)
      (polled : poll inner m = (met, inner', calls))
      (received : receive dec state met = (some answer, state')) :
      Polled dec poll ⟨inner, state⟩ (m :: moments) answer ⟨inner', state'⟩ calls moments
  | again {inner inner' : σ} {state state' : State D} {m : M} {met answer : Answer}
      {calls later : List β} {moments rest : List M} {b : Decompressed σ D}
      (going : state ≠ .ended) (polled : poll inner m = (met, inner', calls))
      (received : receive dec state met = (none, state'))
      (looped : Polled dec poll ⟨inner', state'⟩ moments answer b later rest) :
      Polled dec poll ⟨inner, state⟩ (m :: moments) answer b (calls ++ later) rest

theorem polled_of_pollFrame {b b' : Decompressed σ D} {moments rest : List M} {answer : Answer}
    {calls : List β} (h : pollFrame dec poll b moments = some (answer, b', calls, rest)) :
    Polled dec poll b moments answer b' calls rest := by
  rcases b with ⟨inner, state⟩
  induction moments generalizing inner state calls with
  | nil =>
      cases state with
      | ended =>
          cases h
          exact .atEnd inner []
      | through => cases h
      | decoding => cases h
  | cons m moments ih =>
      by_cases done : state = .ended
      · subst done
        cases h
        exact .atEnd inner _
      · rw [pollFrame_cons done] at h
        rcases received : receive dec state (poll inner m).1 with ⟨_ | given, state'⟩
        · rw [received] at h
          obtain ⟨⟨answer', b'', later, rest'⟩, h', same⟩ := Option.map_eq_some_iff.mp h
          cases same
          exact .again done rfl received (ih _ _ h')
        · rw [received] at h
          cases h
          exact .answered _ done rfl received

/-- A poll asks no more than it meets. -/
theorem Polled.pollFrame_append {b b' : Decompressed σ D} {moments rest : List M} {answer : Answer}
    {calls : List β} (h : Polled dec poll b moments answer b' calls rest) :
    ∃ used, moments = used ++ rest ∧ ∀ more,
      pollFrame dec poll b (used ++ more) = some (answer, b', calls, more) := by
  induction h with
  | atEnd inner moments =>
      refine ⟨[], rfl, fun more => ?_⟩
      cases more <;> rfl
  | @answered _ _ _ _ m _ _ _ moments going polled received =>
      refine ⟨[m], rfl, fun more => ?_⟩
      rw [List.singleton_append, pollFrame_cons going, polled]
      simp only [received]
  | @again _ _ _ _ m _ _ _ _ _ _ _ going polled received _ ih =>
      obtain ⟨used, rfl, looped⟩ := ih
      refine ⟨m :: used, rfl, fun more => ?_⟩
      rw [List.cons_append, pollFrame_cons going, polled]
      simp only [received, looped, Option.map_some]

section
variable {b b' : Decompressed σ D} {moments rest : List M} {answer : Answer} {calls : List β}
  (inv : σ → Prop)

/-- What the polls of the body inside preserve, a poll preserves. -/
theorem Polled.inner_preserves (kept : ∀ s m a s' c, poll s m = (a, s', c) → inv s → inv s')
    (h : Polled dec poll b moments answer b' calls rest) (holds : inv b.inner) : inv b'.inner := by
  induction h with
  | atEnd => exact holds
  | answered _ _ polled _ => exact kept _ _ _ _ _ polled holds
  | again _ polled _ _ ih => exact ih (kept _ _ _ _ _ polled holds)

/-- What holds of all that the polls inside do holds of all that a poll does. -/
theorem Polled.forall_calls {right : β → Prop}
    (kept : ∀ s m a s' c, poll s m = (a, s', c) → inv s → (∀ call ∈ c, right call) ∧ inv s')
    (h : Polled dec poll b moments answer b' calls rest) (holds : inv b.inner) :
    ∀ call ∈ calls, right call := by
  induction h with
  | atEnd => exact nofun
  | answered _ _ polled _ => exact (kept _ _ _ _ _ polled holds).1
  | again _ polled _ _ ih =>
      have here := kept _ _ _ _ _ polled holds
      exact List.forall_mem_append.mpr ⟨here.1, ih here.2⟩

theorem receive_pending {state state' : State D} {met : Answer}
    (received : receive dec state met = (some .pending, state')) (going : state ≠ .ended) :
    met = .pending := by
  cases state with
  | ended => exact absurd rfl going
  | through =>
      cases received
      rfl
  | decoding d fed =>
      cases met with
      | pending => rfl
      | trailers => cases received
      | failed => cases received
      | data bytes =>
          simp only [receive] at received
          split at received <;> cases received
      | ended =>
          simp only [receive] at received
          split at received <;> cases received

/-- A poll is pending where its last poll of the body inside was. -/
theorem Polled.pending_inside
    (kept : ∀ s m a s' c, poll s m = (a, s', c) → inv s → inv s')
    (h : Polled dec poll b moments .pending b' calls rest) (holds : inv b.inner) :
    ∃ s m here, inv s ∧ poll s m = (.pending, b'.inner, here) ∧ ∀ call ∈ here, call ∈ calls := by
  generalize same : Answer.pending = answer at h
  induction h with
  | atEnd => cases same
  | answered _ going polled received =>
      subst same
      obtain rfl := receive_pending received going
      exact ⟨_, _, _, holds, polled, fun _ => id⟩
  | again _ polled _ _ ih =>
      obtain ⟨s, m, here, held, pending, among⟩ := ih (kept _ _ _ _ _ polled holds) same
      exact ⟨s, m, here, held, pending, fun call member => List.mem_append_right _ (among call member)⟩

end
end

def isEndStream (inner : σ → Bool) (b : Decompressed σ D) : Bool :=
  match b.state with
  | .through => inner b.inner
  | .decoding _ _ => false
  | .ended => true

def sizeHint (inner : σ → SizeHint) (b : Decompressed σ D) : SizeHint :=
  match b.state with
  | .through => inner b.inner
  | .decoding _ _ => .default
  | .ended => .withExact 0

end Decompressed
end HClient.Body
