import HClient.Body.ChainSteps
import HClient.Effect.Walk

/-!
# What a client's body promises

Over any sequence of polls: the limit and the deadline hold, a pending poll is one that will be
woken, and what the body says of itself is true of the polls that follow.
-/
namespace HClient.Body

open Effect Native Decompressed

variable {t : Transport} {w : Waker} {m : Moment}
variable {D : Type} {dec : Decode D}

/-- No frame is to come: what is inside is dropped, or there is nothing more to decode, or nothing
is decoded and none is to come from inside. -/
def Silent (t : Transport) (b : Decompressed Deadline D) : Prop :=
  b.inner.inner = none ∨ b.state = .ended ∨ (b.state = .through ∧ b.inner.Finished t)

section
variable {b b' : Decompressed Deadline D} {moments rest : List Moment} {a : Answer}
  {calls : List Call} {recorded : Prop} {asked : Duration} {total : Option Duration}

theorem receive_failed {state state' : State D} {met : Answer} {given : Option Answer}
    (failed : met.isFailed = true) (received : receive dec state met = (given, state')) :
    given = some .ended ∨ given = some met := by
  cases met with
  | failed e =>
      cases state <;> cases received
      · exact .inr rfl
      · exact .inr rfl
      · exact .inl rfl
  | pending => cases failed
  | ended => cases failed
  | data => cases failed
  | trailers => cases failed

theorem silent_polled (polled : Polled dec (Deadline.pollFrame t w) b moments a b' calls rest)
    (held : b.inner.Held t recorded asked total) (silent : Silent t b) :
    a.isFrame = false ∧ Silent t b' := by
  cases polled with
  | atEnd => exact ⟨rfl, .inr (.inl rfl)⟩
  | answered _ going polled received =>
      have step := Deadline.step_of_pollFrame polled
      rcases silent with gone | ended | ⟨through, finished⟩
      · obtain ⟨failed, gone'⟩ := step.stays_dropped gone
        refine ⟨?_, .inl gone'⟩
        rcases receive_failed failed received with same | same <;> cases same
        · rfl
        · exact Answer.not_frame_of_isFailed failed
      · exact absurd ended going
      · obtain ⟨quiet, finished'⟩ := step.finished held finished
        cases through
        cases received
        exact ⟨quiet, .inr (.inr ⟨rfl, finished'⟩)⟩
  | again going polled received =>
      have step := Deadline.step_of_pollFrame polled
      rcases silent with gone | ended | ⟨through, finished⟩
      · rcases receive_failed (step.stays_dropped gone).1 received with same | same <;> cases same
      · exact absurd ended going
      · cases through
        cases received

theorem expired_polled (polled : Polled dec (Deadline.pollFrame t w) b moments a b' calls rest)
    (held : b.inner.Held t recorded asked total) (fired : .expired ∈ calls) :
    b'.inner.inner = none := by
  induction polled with
  | atEnd => cases fired
  | answered _ _ polled => exact (Deadline.step_of_pollFrame polled).expired held fired
  | again _ polled _ looped ih =>
      have step := Deadline.step_of_pollFrame polled
      rcases List.mem_append.mp fired with here | later
      · exact looped.inner_preserves (·.inner = none)
          (fun _ _ _ _ _ polled gone => ((Deadline.step_of_pollFrame polled).stays_dropped gone).2)
          (step.expired held here)
      · exact ih (step.held held) later

theorem silent_of_isEndStream (said : b.isEndStream (Deadline.isEndStream t) = true) :
    Silent t b := by
  rcases b with ⟨inner, state⟩
  cases state with
  | ended => exact .inr (.inl rfl)
  | decoding => cases said
  | through => exact .inr (.inr ⟨rfl, Deadline.finished_of_isEndStream said⟩)

abbrev Reversed (t : Transport) (dec : Decode D) (b : Decompressed Deadline D) (a : Answer)
    (b' : Decompressed Deadline D) : Prop :=
  ∃ w moments calls rest, Polled dec (Deadline.pollFrame t w) b moments a b' calls rest

theorem ends_ended {n : Nat} (ends : Ends (Reversed t dec) b n) (done : b.state = .ended) :
    n = 0 := by
  cases ends with
  | ended => rfl
  | goes first on =>
      obtain ⟨w, moments, calls, rest, polled⟩ := first
      cases polled with
      | atEnd => cases on
      | answered _ going => exact absurd done going
      | again going => exact absurd done going

theorem ends_through {n : Nat} (ends : Ends (Reversed t dec) b n) (through : b.state = .through) :
    Ends (Deadline.Answers t) b.inner n := by
  have passes : ∀ {b b' a}, Reversed t dec b a b' → b.state = .through →
      b'.state = .through ∧ Deadline.Answers t b.inner a b'.inner := by
    rintro b b' a ⟨w, moments, calls, rest, polled⟩ through
    cases polled with
    | atEnd => cases through
    | answered _ _ polled received =>
        cases through
        cases received
        exact ⟨rfl, _, _, _, polled⟩
    | again _ _ received =>
        cases through
        cases received
  induction ends with
  | ended last => exact .ended (passes last through).2
  | goes first on rest ih =>
      obtain ⟨through', first⟩ := passes first through
      exact .goes first on (ih through')

theorem sizeHint_contains {n : Nat} (held : b.inner.Held t recorded asked total)
    (ends : Ends (Reversed t dec) b n) : (b.sizeHint (Deadline.sizeHint t)).Contains n := by
  rcases b with ⟨inner, state⟩
  cases state with
  | through => exact Deadline.sizeHint_contains held (ends_through ends rfl)
  | decoding => exact SizeHint.default_contains n
  | ended => exact SizeHint.withExact_contains.mpr (ends_ended ends rfl).symm

end

namespace ClientBody

/-- What a poll makes of a body: there is none, the answer inside passes the limit, or it does not. -/
inductive Step (t : Transport) (dec : Decode D) (w : Waker) (moments : List Moment)
    (rest : List Moment) (b : ClientBody D) : Answer → ClientBody D → List Call → Prop where
  | dropped (gone : b.inner = none) (unmet : rest = moments) :
      Step t dec w moments rest b .ended b []
  | passed {inner inner' : Decompressed Deadline D} {a : Answer} {calls : List Call} {seen : Nat}
      (inside : b.inner = some inner)
      (polled : Polled dec (Deadline.pollFrame t w) inner moments a inner' calls rest)
      (counted : ∀ limit ∈ b.limit,
        seen = b.seen + a.bytes.length ∧ (a.isFrame = true → seen ≤ limit)) :
      Step t dec w moments rest b a ⟨some inner', b.limit, seen⟩ calls
  | exceeded {inner inner' : Decompressed Deadline D} {a : Answer} {calls : List Call}
      {limit seen : Nat} (inside : b.inner = some inner)
      (polled : Polled dec (Deadline.pollFrame t w) inner moments a inner' calls rest)
      (limited : b.limit = some limit) :
      Step t dec w moments rest b (.failed (tooLarge limit seen)) ⟨none, b.limit, seen⟩
        (calls ++ [.exceeded])

variable {b b' : ClientBody D} {moments rest : List Moment} {a : Answer} {calls : List Call}
  {recorded : Prop} {asked : Duration} {total : Option Duration}

theorem step_of_pollFrame (polled : b.pollFrame t dec w moments = some (a, b', calls, rest)) :
    Step t dec w moments rest b a b' calls := by
  rcases b with ⟨_ | inner, limit, seen⟩
  · cases polled
    exact .dropped rfl rfl
  · obtain ⟨⟨a', inner', calls', rest'⟩, inside, same⟩ := Option.map_eq_some_iff.mp polled
    have passed := polled_of_pollFrame inside
    cases limit with
    | none =>
        cases same
        exact .passed rfl passed nofun
    | some limit =>
        by_cases frame : a'.isFrame = true
        · by_cases many : seen + a'.bytes.length > limit
          · simp only [count, frame, many, if_true] at same
            cases same
            exact .exceeded rfl passed rfl
          · simp only [count, frame, many, if_true, if_false] at same
            cases same
            refine .passed rfl passed fun limit' bound => ?_
            cases bound
            exact ⟨rfl, fun _ => Nat.le_of_not_lt many⟩
        · have empty : a'.bytes = [] := Answer.bytes_of_not_frame frame
          simp only [count, frame, Bool.false_eq_true, if_false] at same
          cases same
          refine .passed rfl passed fun limit' bound => ?_
          exact ⟨by simp [empty], fun isFrame => absurd isFrame frame⟩

def Held (t : Transport) (recorded : Prop) (asked : Duration) (total : Option Duration)
    (b : ClientBody D) : Prop := ∀ inner ∈ b.inner, inner.inner.Held t recorded asked total

theorem inside_held {inner inner' : Decompressed Deadline D}
    (polled : Polled dec (Deadline.pollFrame t w) inner moments a inner' calls rest)
    (held : inner.inner.Held t recorded asked total) : inner'.inner.Held t recorded asked total :=
  polled.inner_preserves (Deadline.Held t recorded asked total)
    (fun _ _ _ _ _ polled held => (Deadline.step_of_pollFrame polled).held held) held

theorem Step.held (step : Step t dec w moments rest b a b' calls)
    (held : b.Held t recorded asked total) : b'.Held t recorded asked total := by
  cases step with
  | dropped => exact held
  | passed inside polled =>
      rintro inner same
      cases same
      exact inside_held polled (held _ inside)
  | exceeded => exact nofun

theorem Step.in_time (step : Step t dec w moments rest b a b' calls)
    (held : b.Held t recorded asked total) :
    ∀ call ∈ calls, ∀ w' elapsed, call = .transport w' elapsed → ∀ T ∈ total, elapsed < T := by
  have inside : ∀ inner inner' a made, b.inner = some inner →
      Polled dec (Deadline.pollFrame t w) inner moments a inner' made rest →
      ∀ call ∈ made, ∀ w' elapsed, call = .transport w' elapsed → ∀ T ∈ total, elapsed < T :=
    fun inner inner' a made here polled =>
      polled.forall_calls (Deadline.Held t recorded asked total)
        (fun _ _ _ _ _ polled held => ⟨(Deadline.step_of_pollFrame polled).in_time held,
          (Deadline.step_of_pollFrame polled).held held⟩) (held inner here)
  cases step with
  | dropped => exact nofun
  | passed here polled => exact inside _ _ _ _ here polled
  | exceeded here polled =>
      exact List.forall_mem_append.mpr ⟨inside _ _ _ _ here polled, by simp⟩

theorem Step.pending (step : Step t dec w moments rest b .pending b' calls)
    (held : b.Held t recorded asked total) :
    (∀ T ∈ total, .sleep w ⟨asked, T - asked⟩ ∈ calls) ∧
      ((∃ elapsed, .transport w elapsed ∈ calls) ∨ (recorded ∧ .write w ∈ calls ∧
        ∃ i, b'.transport = some (i + 1) ∧ t.answer i = .ended)) := by
  generalize same : Answer.pending = a at step
  cases step with
  | dropped => cases same
  | exceeded => cases same
  | passed inside polled =>
      subst same
      obtain ⟨s, m, here, held, pending, among⟩ :=
        polled.pending_inside (Deadline.Held t recorded asked total)
          (fun _ _ _ _ _ polled held => (Deadline.step_of_pollFrame polled).held held)
          (held _ inside)
      obtain ⟨sleeps, wakes⟩ := (Deadline.step_of_pollFrame pending).pending held
      refine ⟨fun T bound => among _ (sleeps T bound), ?_⟩
      rcases wakes with polls | ⟨may, writes, ended⟩
      · exact .inl ⟨_, among _ polls⟩
      · exact .inr ⟨may, among _ writes, ended⟩

def Over (t : Transport) (b : ClientBody D) : Prop := ∀ inner ∈ b.inner, Silent t inner

theorem Step.stays_over (step : Step t dec w moments rest b a b' calls)
    (held : b.Held t recorded asked total) (done : b.Over t) : a.isFrame = false ∧ b'.Over t := by
  cases step with
  | dropped gone => exact ⟨rfl, done⟩
  | passed inside polled =>
      obtain ⟨quiet, silent⟩ := silent_polled polled (held _ inside) (done _ inside)
      exact ⟨quiet, fun inner same => by cases same; exact silent⟩
  | exceeded => exact ⟨rfl, nofun⟩

/-- Once the deadline or the limit has fired, the transport's body is dropped. -/
theorem Step.fired (step : Step t dec w moments rest b a b' calls)
    (held : b.Held t recorded asked total) (fired : .expired ∈ calls ∨ .exceeded ∈ calls) :
    b'.transport = none ∧ b'.Over t := by
  cases step with
  | dropped => rcases fired with h | h <;> cases h
  | exceeded => exact ⟨rfl, nofun⟩
  | passed inside polled =>
      have untold : .exceeded ∉ calls := fun member => by
        have never := polled.forall_calls (Deadline.Held t recorded asked total)
          (fun _ _ _ _ _ polled held => ⟨(Deadline.step_of_pollFrame polled).not_exceeded held,
            (Deadline.step_of_pollFrame polled).held held⟩) (held _ inside)
        exact never _ member rfl
      have gone := expired_polled polled (held _ inside) (fired.resolve_right untold)
      refine ⟨?_, fun inner same => by cases same; exact .inl gone⟩
      rw [transport, Option.bind_some, gone]
      rfl

theorem over_of_isEndStream (said : b.isEndStream t = true) : b.Over t := by
  intro inner inside
  rw [isEndStream, inside] at said
  exact silent_of_isEndStream said

abbrev Answers (t : Transport) (dec : Decode D) (b : ClientBody D) (a : Answer)
    (b' : ClientBody D) : Prop :=
  ∃ w moments calls rest, Step t dec w moments rest b a b' calls

theorem ends_dropped {n : Nat} (ends : Ends (Answers t dec) b n) (gone : b.inner = none) :
    n = 0 := by
  cases ends with
  | ended => rfl
  | goes first on =>
      obtain ⟨w, moments, calls, rest, step⟩ := first
      cases step with
      | dropped => cases on
      | passed inside => exact absurd (inside.symm.trans gone) nofun
      | exceeded => cases on

theorem ends_inside {n : Nat} {inner : Decompressed Deadline D} (ends : Ends (Answers t dec) b n)
    (inside : b.inner = some inner) :
    Ends (Reversed t dec) inner n ∧ ∀ limit ∈ b.limit, n ≤ limit - b.seen := by
  induction ends generalizing inner with
  | ended last =>
      obtain ⟨w, moments, calls, rest, step⟩ := last
      generalize same : Answer.ended = a at step
      cases step with
      | dropped gone => exact absurd (inside.symm.trans gone) nofun
      | exceeded => cases same
      | passed here polled =>
          subst same
          obtain rfl := Option.some.inj (inside.symm.trans here)
          exact ⟨.ended ⟨_, _, _, _, polled⟩, fun _ _ => Nat.zero_le _⟩
  | goes first on rest ih =>
      obtain ⟨w, moments, calls, left, step⟩ := first
      cases step with
      | dropped gone => exact absurd (inside.symm.trans gone) nofun
      | exceeded => cases on
      | passed here polled counted =>
          obtain rfl := Option.some.inj (inside.symm.trans here)
          obtain ⟨ends, few⟩ := ih rfl
          refine ⟨.goes ⟨_, _, _, _, polled⟩ on ends, fun limit bound => ?_⟩
          obtain ⟨same, fits⟩ := counted limit bound
          have later := few limit bound
          dsimp only at later
          rcases Decidable.em (Answer.isFrame _ = true) with frame | none
          · have := fits frame
            omega
          · rw [Answer.bytes_of_not_frame none, List.length_nil] at same ⊢
            omega

theorem sizeHint_contains {n : Nat} (held : b.Held t recorded asked total)
    (ends : Ends (Answers t dec) b n) : (b.sizeHint t).Contains n := by
  rcases b with ⟨_ | inner, limit, seen⟩
  · exact SizeHint.withExact_contains.mpr (ends_dropped ends rfl).symm
  · obtain ⟨inside, few⟩ := ends_inside ends rfl
    have contains := Body.sizeHint_contains (held _ rfl) inside
    cases limit with
    | none => exact contains
    | some limit => exact SizeHint.atMost_contains contains (few limit rfl)

/-- One poll of the caller's. -/
structure Turn where
  waker : Waker
  met : List Moment
  answer : Answer
  calls : List Call

def Polls (t : Transport) (dec : Decode D) (b : ClientBody D) (turn : Turn) (b' : ClientBody D) :
    Prop := b.pollFrame t dec turn.waker turn.met = some (turn.answer, b', turn.calls, [])

abbrev given (turns : List Turn) : List Answer := turns.map Turn.answer

theorem given_cons (turn : Turn) (turns : List Turn) :
    given (turn :: turns) = turn.answer :: given turns := rfl

theorem held_new (origin : Origin) (decoder : Option D) (limit : Option Nat) :
    (new origin.cached asked total decoder limit).Held t (∃ bound, origin = .recorded bound) asked
      total := by
  have shape : origin.cached.Shape t (∃ bound, origin = .recorded bound) := by
    cases origin with
    | live => exact .plain 0
    | store bytes => exact .stored bytes
    | recorded bound => exact .teed 0 ⟨[], bound⟩ ⟨bound, rfl⟩
  rintro inner same
  cases same
  cases decoder <;> exact Deadline.held_new shape

section
variable {turns more : List Turn}

theorem walk_held (walk : Walk (Polls t dec) b turns b') (held : b.Held t recorded asked total) :
    b'.Held t recorded asked total :=
  walk.preserves (Held t recorded asked total)
    (fun _ _ _ polls held => (step_of_pollFrame polls).held held) held

theorem walk_over (walk : Walk (Polls t dec) b turns b') (held : b.Held t recorded asked total)
    (done : b.Over t) : ∀ turn ∈ turns, turn.answer.isFrame = false := by
  refine walk.forall_shown (fun b => b.Held t recorded asked total ∧ b.Over t) ?_ ⟨held, done⟩
  rintro s turn s' polls ⟨held, done⟩
  have step := step_of_pollFrame polls
  obtain ⟨quiet, done'⟩ := step.stays_over held done
  exact ⟨quiet, step.held held, done'⟩

theorem walk_ends {last : Turn} (walk : Walk (Polls t dec) b (more ++ [last]) b')
    (ended : last.answer = .ended) (on : ∀ turn ∈ more, turn.answer.isLast = false) :
    Ends (Answers t dec) b (output (given more)).length := by
  induction more generalizing b with
  | nil =>
      obtain - | ⟨first, -⟩ := walk
      have step := step_of_pollFrame first
      rw [ended] at step
      exact .ended ⟨_, _, _, _, step⟩
  | cons turn more ih =>
      obtain - | ⟨first, rest⟩ := walk
      obtain ⟨here, later⟩ := List.forall_mem_cons.mp on
      rw [given_cons, output_cons, List.length_append]
      exact .goes ⟨_, _, _, _, step_of_pollFrame first⟩ here (ih rest later)

theorem walk_dropped (walk : Walk (Polls t dec) b turns b') (gone : b.inner = none) :
    output (given turns) = [] := by
  have none : ∀ inner ∈ b.inner, False := by
    rw [gone]
    exact nofun
  have held : b.Held t False (0 : Nat) Option.none := fun inner same => (none inner same).elim
  have quiet := walk_over walk held fun inner same => (none inner same).elim
  refine List.flatMap_eq_nil_iff.mpr fun a member => ?_
  obtain ⟨turn, among, rfl⟩ := List.mem_map.mp member
  exact Answer.bytes_of_not_frame (by rw [quiet turn among]; exact nofun)

/-- The limit holds whatever is polled. -/
theorem walk_within {limit : Nat} (walk : Walk (Polls t dec) b turns b')
    (limited : b.limit = some limit) (within : b.seen ≤ limit) :
    b.seen + (output (given turns)).length ≤ limit := by
  induction walk with
  | nil => exact within
  | @cons b next b' turn later first rest ih =>
      rw [given_cons, output_cons, List.length_append]
      have step := step_of_pollFrame first
      generalize turn.answer = a at step ⊢
      generalize turn.calls = calls at step
      cases step with
      | dropped =>
          have := ih limited within
          simpa [Answer.bytes] using this
      | exceeded => simpa [walk_dropped rest rfl, Answer.bytes] using within
      | passed _ _ counted =>
          obtain ⟨same, fits⟩ := counted limit limited
          have fits' : b.seen + a.bytes.length ≤ limit := by
            by_cases frame : a.isFrame = true
            · exact same ▸ fits frame
            · rwa [Answer.bytes_of_not_frame frame]
          have := ih limited (same ▸ fits')
          dsimp only at this
          omega

theorem poll_limited {inner : Option (Decompressed Deadline D)} {s : Nat} (seen limit : Nat)
    {turn : Turn} {next : ClientBody D} (polls : Polls t dec ⟨inner, none, s⟩ turn next)
    (within : seen + turn.answer.bytes.length ≤ limit) :
    next.limit = none ∧ Polls t dec ⟨inner, some limit, seen⟩ turn
      ⟨next.inner, some limit, seen + turn.answer.bytes.length⟩ := by
  cases inner with
  | none =>
      have polled : some (Answer.ended, _, _, _) = some (turn.answer, next, turn.calls, _) := polls
      obtain ⟨answer, rfl, calls, met⟩ := by simpa using polled
      refine ⟨rfl, ?_⟩
      rw [Polls, pollFrame, ← answer, ← calls, met]
      rfl
  | some inner =>
      obtain ⟨⟨a, inner', calls, rest⟩, polled, same⟩ := Option.map_eq_some_iff.mp polls
      obtain ⟨answer, rfl, made, used⟩ := by simpa [count] using same
      refine ⟨rfl, ?_⟩
      rw [← answer] at within
      simp only [Polls, pollFrame, polled, Option.map_some, count, ← answer, ← made, used]
      by_cases frame : a.isFrame = true
      · simp [frame, Nat.not_lt.mpr within]
      · simp [frame, Answer.bytes_of_not_frame frame]

/-- Without a limit the polls are those under one, as long as their data stays within it. -/
theorem walk_limited {limit : Nat} (walk : Walk (Polls t dec) b turns b')
    (unlimited : b.limit = none) (seen : Nat)
    (within : seen + (output (given turns)).length ≤ limit) :
    ∃ b'', Walk (Polls t dec) ⟨b.inner, some limit, seen⟩ turns b'' := by
  induction walk generalizing seen with
  | nil => exact ⟨_, .nil _⟩
  | @cons b next b' turn later first rest ih =>
      rw [given_cons, output_cons, List.length_append] at within
      obtain ⟨inner, limit', s⟩ := b
      obtain rfl : limit' = none := unlimited
      obtain ⟨unlimited', polls⟩ := poll_limited seen limit first (by omega)
      obtain ⟨b'', walk⟩ := ih unlimited' (seen + turn.answer.bytes.length) (by omega)
      exact ⟨b'', .cons polls walk⟩

end

/-- In every run, whatever the transport's body, the decoder, the clock, the bound and the limit
are: the limit holds, and as long as data stays within it the polls are those without one; the
transport's body is polled only before the deadline; a pending poll has polled, with its own
waker, a sleep due at the deadline, and the transport's body or, where that has ended and was
recorded, the store's write; once the deadline or the limit has fired the transport's body is
dropped and no frame follows; where the body says it has ended none does; and the size hint
contains what comes before a clean end. -/
theorem clientBody_run (t : Transport) (dec : Decode D) (origin : Origin) (asked : Duration)
    (total : Option Duration) (decoder : Option D) (limit : Option Nat) (turns : List Turn)
    (b : ClientBody D)
    (walk : Walk (Polls t dec) (.new origin.cached asked total decoder limit) turns b) :
    (∀ l ∈ limit, (output (given turns)).length ≤ l) ∧
    (limit = none → ∀ l, (output (given turns)).length ≤ l →
      ∃ b', Walk (Polls t dec) (.new origin.cached asked total decoder (some l)) turns b') ∧
    (∀ turn b', Polls t dec b turn b' →
      (∀ w elapsed, .transport w elapsed ∈ turn.calls → ∀ T ∈ total, elapsed < T) ∧
      (turn.answer = .pending →
        (∀ T ∈ total, ∃ s, .sleep turn.waker s ∈ turn.calls ∧ s.due = max asked T) ∧
        ((∃ elapsed, .transport turn.waker elapsed ∈ turn.calls) ∨
          ((∃ bound, origin = .recorded bound) ∧ .write turn.waker ∈ turn.calls ∧
            ∃ i, b'.transport = some (i + 1) ∧ t.answer i = .ended))) ∧
      (.expired ∈ turn.calls ∨ .exceeded ∈ turn.calls → b'.transport = none ∧
        ∀ more b'', Walk (Polls t dec) b' more b'' →
          ∀ later ∈ more, later.answer.isFrame = false)) ∧
    (b.isEndStream t = true → ∀ more b', Walk (Polls t dec) b more b' →
      ∀ turn ∈ more, turn.answer.isFrame = false) ∧
    ∀ more last b', Walk (Polls t dec) b (more ++ [last]) b' → last.answer = .ended →
      (∀ turn ∈ more, turn.answer.isLast = false) →
        (b.sizeHint t).Contains (output (given more)).length := by
  have held := walk_held walk (held_new origin decoder limit)
  refine ⟨fun l bound => ?_, fun unlimited l within => ?_, fun turn b' polls => ?_, ?_, ?_⟩
  · simpa [new] using walk_within walk bound (Nat.zero_le l)
  · exact walk_limited walk unlimited 0 (by rwa [Nat.zero_add])
  · have step := step_of_pollFrame polls
    refine ⟨fun w elapsed member => step.in_time held _ member w elapsed rfl, fun pending => ?_,
      fun fired => ?_⟩
    · rw [pending] at step
      obtain ⟨sleeps, wakes⟩ := step.pending held
      refine ⟨fun T bound => ⟨_, sleeps T bound, ?_⟩, wakes⟩
      rw [Sleep.due, Nat.add_comm, Nat.sub_add_eq_max, Nat.max_comm]
    · obtain ⟨dropped, done⟩ := step.fired held fired
      exact ⟨dropped, fun more b'' later => walk_over later (step.held held) done⟩
  · exact fun said more b' later => walk_over later held (over_of_isEndStream said)
  · exact fun more last b' later ended on => sizeHint_contains held (walk_ends later ended on)

/-- A body of two bytes, which says so. -/
def greeting : Transport where
  answer i := if i = 0 then .data [104, 105] else .ended
  isEndStream i := i ≠ 0
  sizeHint i := .withExact (if i = 0 then 2 else 0)
  stays_ended i _ := if_neg (Nat.succ_ne_zero i)
  no_frame_after_end i j said after := by
    have : j ≠ 0 := by
      have : i ≠ 0 := of_decide_eq_true said
      omega
    rw [if_neg this]
    rfl
  hint_contains i n ends := by
    have none : ∀ i n, i ≠ 0 → Ends (fun i a i' =>
        (if i = 0 then Answer.data [104, 105] else .ended) = a ∧ i' = i + 1) i n → n = 0 := by
      intro i n later ends
      cases ends with
      | ended => rfl
      | goes first on =>
          obtain ⟨rfl, -⟩ := first
          rw [if_neg later] at on
          cases on
    rw [SizeHint.withExact_contains]
    by_cases first : i = 0
    · subst first
      cases ends with
      | ended last => cases last.1
      | goes first on rest =>
          obtain ⟨rfl, rfl⟩ := first
          rw [none 1 _ (Nat.succ_ne_zero 0) rest]
          rfl
    · rw [if_neg first, none i n first ends]

/-- Hands everything on, as a coding that changes nothing would. -/
def verbatim : Decode Unit where
  push _ bytes := (.ok bytes, ())
  finish _ := (.ok [], ())
  token _ := "identity".toList

theorem clientBody_run_greeting :
    ∃ b, Walk (Polls greeting verbatim) (.new Origin.live.cached 0 (some 100) none (some 5))
        [⟨1, [⟨3, false, false⟩], .data [104, 105], [.transport 1 3]⟩] b ∧
      b.isEndStream greeting = true ∧
      (∀ more b', Walk (Polls greeting verbatim) b more b' →
        ∀ turn ∈ more, turn.answer.isFrame = false) ∧
      (b.sizeHint greeting).Contains 0 := by
  have walk : Walk (Polls greeting verbatim)
      (.new Origin.live.cached 0 (some 100) none (some 5))
      [⟨1, [⟨3, false, false⟩], .data [104, 105], [.transport 1 3]⟩] _ := .cons rfl (.nil _)
  obtain ⟨-, -, -, ended, hint⟩ := clientBody_run greeting verbatim .live 0 (some 100) none (some 5)
    _ _ walk
  refine ⟨_, walk, rfl, ended rfl, ?_⟩
  exact hint [] ⟨2, [⟨4, false, false⟩], .ended, [.transport 2 4]⟩ _ (.cons rfl (.nil _)) rfl nofun

/-- A body that has nothing to say. -/
def silence : Transport where
  answer _ := .ended
  isEndStream _ := true
  sizeHint _ := .withExact 0
  stays_ended _ _ := rfl
  no_frame_after_end _ _ _ _ := rfl
  hint_contains i n ends := by
    cases ends with
    | ended => exact SizeHint.withExact_contains.mpr rfl
    | goes first on =>
        obtain ⟨rfl, -⟩ := first
        cases on

/-- While the store writes what was recorded, the transport's body is not polled. -/
theorem pending_on_the_store :
    ¬ ∀ (t : Transport) (D : Type) (dec : Decode D) (origin : Origin) asked total decoder limit turns
        b turn b',
      Walk (Polls t dec) (.new origin.cached asked (some total) decoder limit) turns b →
      Polls t dec b turn b' → turn.answer = .pending →
        ∃ elapsed, .transport turn.waker elapsed ∈ turn.calls := by
  intro always
  have walk : Walk (Polls silence verbatim) (.new (Origin.recorded 10).cached 0 (some 100) none none)
      [⟨1, [⟨3, false, false⟩], .pending, [.transport 1 3, .write 1, .sleep 1 ⟨0, 100⟩]⟩] _ :=
    .cons rfl (.nil _)
  obtain ⟨elapsed, polled⟩ := always silence Unit verbatim _ _ _ _ _ _ _
    ⟨2, [⟨4, false, false⟩], .pending, [.write 2, .sleep 2 ⟨0, 100⟩]⟩ _ walk rfl rfl
  simp at polled

end ClientBody
end HClient.Body
