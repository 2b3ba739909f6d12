import HClient.Body.Decompressed
import HClient.Effect.Walk

/-!
# What a decoded body amounts to

A body is read a poll at a time, over whatever the body inside answers meanwhile. What comes out
and how it ends is what the decoder makes of the bytes alone, where it does not matter to it how
they are cut.
-/
namespace HClient.Body

open Effect Native Decompressed

inductive Ending where
  | clean
  | failed (e : Error)

namespace Ending

def error : Ending → Option Error
  | .clean => none
  | .failed e => some e

def of : Option Error → Ending
  | none => clean
  | some e => failed e

@[simp] theorem error_of (e : Option Error) : (of e).error = e := by
  cases e <;> rfl

@[simp] theorem of_error (ends : Ending) : of ends.error = ends := by
  cases ends <;> rfl

end Ending

/-- The data frames before the end. -/
def chunks : List Answer → List (List UInt8)
  | [] | .ended :: _ | .failed _ :: _ => []
  | .data bytes :: rest => bytes :: chunks rest
  | .pending :: rest | .trailers _ :: rest => chunks rest

def ending : List Answer → Option Ending
  | [] => none
  | .ended :: _ => some .clean
  | .failed e :: _ => some (.failed e)
  | .data _ :: rest | .pending :: rest | .trailers _ :: rest => ending rest

namespace Decode
variable {D : Type} (dec : Decode D)

/-- What the chunks give, and the decoder they leave or the error one of them is refused with. -/
def pushAll : D → List (List UInt8) → List UInt8 × Except Error D
  | d, [] => ([], .ok d)
  | d, chunk :: rest =>
      match dec.push d chunk with
      | (.ok out, d) => (out ++ (pushAll d rest).1, (pushAll d rest).2)
      | (.error e, d) => ([], .error (decodeError (dec.token d) e))

def close (d : D) : List UInt8 × Option Error :=
  match (dec.finish d).1 with
  | .ok out => (out, none)
  | .error e => ([], some (decodeError (dec.token d) e))

/-- The decoder on its own: fed the chunks, and finished where they end cleanly. -/
def outcome (d : D) (chunks : List (List UInt8)) (ends : Ending) : List UInt8 × Option Error :=
  match dec.pushAll d chunks, ends with
  | (out, .error e), _ => (out, some e)
  | (out, .ok d), .clean => (out ++ (dec.close d).1, (dec.close d).2)
  | (out, .ok _), .failed e => (out, some e)

/-- It does not matter to the decoder how `bytes` are cut. -/
def CutFree (d : D) (bytes : List UInt8) : Prop :=
  ∀ cut, cut ≠ [] → cut.flatten = bytes → ∀ ends,
    dec.outcome d cut ends = dec.outcome d [bytes] ends

/-- A body without a byte is not decoded at all. -/
def decoded (d : D) (bytes : List UInt8) (ends : Ending) : List UInt8 × Option Error :=
  if bytes = [] then ([], ends.error) else dec.outcome d [bytes] ends

end Decode

/-- One poll of the reader's, with what the body inside answered during it. -/
structure Read where
  met : List Answer
  answer : Answer

def replay (_ : Unit) (met : Answer) : Answer × Unit × List Empty := (met, (), [])

variable {D : Type} {dec : Decode D}

def Reads (dec : Decode D) (b : Decompressed Unit D) (read : Read) (b' : Decompressed Unit D) :
    Prop := pollFrame dec replay b read.met = some (read.answer, b', [], [])

abbrev answers (reads : List Read) : List Answer := reads.map Read.answer
abbrev met (reads : List Read) : List Answer := reads.flatMap Read.met

theorem answers_cons (read : Read) (reads : List Read) :
    answers (read :: reads) = read.answer :: answers reads := rfl

theorem met_cons (read : Read) (reads : List Read) : met (read :: reads) = read.met ++ met reads :=
  rfl

/-- What a decoder at `d` has still to give out over what the body inside will answer, and how it
ends. -/
def owing (dec : Decode D) : D → Bool → List Answer → List UInt8 × Option Ending
  | _, _, [] => ([], none)
  | d, fed, .pending :: rest | d, fed, .trailers _ :: rest => owing dec d fed rest
  | d, _, .data bytes :: rest =>
      match dec.push d bytes with
      | (.ok out, d) => (out ++ (owing dec d true rest).1, (owing dec d true rest).2)
      | (.error e, d) => ([], some (.failed (decodeError (dec.token d) e)))
  | _, _, .failed e :: _ => ([], some (.failed e))
  | d, fed, .ended :: _ =>
      if fed then ((dec.close d).1, some (.of (dec.close d).2))
      else ([], some .clean)

def owed (dec : Decode D) : State D → List Answer → List UInt8 × Option Ending
  | .decoding d fed, rest => owing dec d fed rest
  | .through, _ | .ended, _ => ([], some .clean)

/-- What is owed before an answer, from what is owed after it. -/
def Answer.before (a : Answer) (after : List UInt8 × Option Ending) : List UInt8 × Option Ending :=
  (a.bytes ++ after.1, ((firstError [a]).map Ending.failed).or after.2)

theorem foldr_before (given : List Answer) (after : List UInt8 × Option Ending) :
    given.foldr Answer.before after =
      (output given ++ after.1, ((firstError given).map Ending.failed).or after.2) := by
  induction given with
  | nil => rfl
  | cons a given ih =>
      rw [List.foldr_cons, ih]
      cases a <;> simp [Answer.before, Answer.bytes, firstError]

/-- What a pass of the loop makes of an answer met, while a coding is being reversed. -/
inductive Pass (dec : Decode D) : D → Bool → Answer → Option Answer → State D → Prop where
  | pending (d : D) (fed : Bool) : Pass dec d fed .pending (some .pending) (.decoding d fed)
  | swallowed {d d' : D} (fed : Bool) {bytes : List UInt8}
      (pushed : dec.push d bytes = (.ok [], d')) :
      Pass dec d fed (.data bytes) none (.decoding d' true)
  | given {d d' : D} (fed : Bool) {bytes out : List UInt8}
      (pushed : dec.push d bytes = (.ok out, d')) :
      Pass dec d fed (.data bytes) (some (.data out)) (.decoding d' true)
  | refused {d d' : D} (fed : Bool) {bytes : List UInt8} {e : Text}
      (pushed : dec.push d bytes = (.error e, d')) :
      Pass dec d fed (.data bytes) (some (.failed (decodeError (dec.token d') e))) .ended
  | trailers (d : D) (fed : Bool) (fields : HeaderMap HeaderValue) :
      Pass dec d fed (.trailers fields) (some (.trailers fields)) (.decoding d fed)
  | failed (d : D) (fed : Bool) (e : Error) : Pass dec d fed (.failed e) (some (.failed e)) .ended
  | unfed (d : D) : Pass dec d false .ended (some .ended) .ended
  | closed {d : D} (finished : (dec.finish d).1 = .ok []) :
      Pass dec d true .ended (some .ended) .ended
  | flushed {d : D} {out : List UInt8} (finished : (dec.finish d).1 = .ok out) :
      Pass dec d true .ended (some (.data out)) .ended
  | truncated {d : D} {e : Text} (finished : (dec.finish d).1 = .error e) :
      Pass dec d true .ended (some (.failed (decodeError (dec.token d) e))) .ended

section
variable {d : D} {fed : Bool} {met answer : Answer} {given : Option Answer} {state : State D}

theorem pass_of_receive (received : receive dec (.decoding d fed) met = (given, state)) :
    Pass dec d fed met given state := by
  cases met with
  | pending =>
      cases received
      exact .pending d fed
  | trailers fields =>
      cases received
      exact .trailers d fed fields
  | failed e =>
      cases received
      exact .failed d fed e
  | data bytes =>
      simp only [receive] at received
      split at received <;> cases received
      · exact .swallowed fed ‹_›
      · exact .given fed ‹_›
      · exact .refused fed ‹_›
  | ended =>
      simp only [receive] at received
      cases fed with
      | false =>
          cases received
          exact .unfed d
      | true =>
          rw [if_pos rfl] at received
          split at received <;> cases received
          · exact .closed ‹_›
          · exact .flushed ‹_›
          · exact .truncated ‹_›

theorem Pass.reversing (pass : Pass dec d fed met given state) : state ≠ .through := by
  cases pass <;> exact nofun

theorem Pass.again (pass : Pass dec d fed met none state) :
    ∃ bytes d', met = .data bytes ∧ dec.push d bytes = (.ok [], d') ∧ state = .decoding d' true := by
  cases pass with
  | swallowed _ pushed => exact ⟨_, _, rfl, pushed, rfl⟩

theorem Pass.owed (pass : Pass dec d fed met (some answer) state) (rest : List Answer) :
    owing dec d fed (met :: rest) = answer.before (owed dec state rest) := by
  cases pass with
  | pending => rfl
  | trailers => rfl
  | failed => rfl
  | unfed => rfl
  | given _ pushed => simp [owing, pushed, Answer.before, Answer.bytes, firstError, Body.owed]
  | refused _ pushed => simp [owing, pushed, Answer.before, Answer.bytes, firstError, Body.owed]
  | closed finished =>
      simp [owing, Decode.close, finished, Answer.before, Answer.bytes, firstError, Body.owed,
        Ending.of]
  | flushed finished =>
      simp [owing, Decode.close, finished, Answer.before, Answer.bytes, firstError, Body.owed,
        Ending.of]
  | truncated finished =>
      simp [owing, Decode.close, finished, Answer.before, Answer.bytes, firstError, Body.owed,
        Ending.of]

theorem Pass.stops (pass : Pass dec d fed met (some answer) state)
    (stops : answer.isFailed ∨ answer = .ended) : state = .ended := by
  cases pass <;> first | rfl | exact absurd stops (by simp [Answer.isFailed])

theorem Pass.trailers_eq (pass : Pass dec d fed met (some answer) state) :
    [met].filter Answer.isTrailers = [answer].filter Answer.isTrailers := by
  cases pass <;> rfl

/-- Only of data does a pass that goes on make data. -/
theorem Pass.last (pass : Pass dec d fed met (some answer) state) (quiet : met.isData = false)
    (last : answer.isData || answer.isFailed) : state = .ended := by
  cases pass with
  | pending => cases last
  | given => cases quiet
  | refused => cases quiet
  | trailers => cases last
  | failed => rfl
  | unfed => rfl
  | closed => rfl
  | flushed => rfl
  | truncated => rfl

end

/-- A poll of a body that is being decoded, or has been, over what it meets. -/
inductive Loop (dec : Decode D) :
    State D → List Answer → Answer → State D → List Answer → Prop where
  | atEnd (rest : List Answer) : Loop dec .ended rest .ended .ended rest
  | passed {d : D} {fed : Bool} {met answer : Answer} {state : State D}
      (pass : Pass dec d fed met (some answer) state) (rest : List Answer) :
      Loop dec (.decoding d fed) (met :: rest) answer state rest
  | again {d d' : D} (fed : Bool) {bytes : List UInt8} {later rest : List Answer} {answer : Answer}
      {state : State D} (pushed : dec.push d bytes = (.ok [], d'))
      (loop : Loop dec (.decoding d' true) later answer state rest) :
      Loop dec (.decoding d fed) (.data bytes :: later) answer state rest

theorem loop_of_polled {b b' : Decompressed Unit D} {met rest : List Answer} {answer : Answer}
    {calls : List Empty} (polled : Polled dec replay b met answer b' calls rest)
    (reversing : b.state ≠ .through) : Loop dec b.state met answer b'.state rest := by
  induction polled with
  | atEnd inner moments => exact .atEnd moments
  | @answered _ _ state _ _ _ _ _ moments going polled received =>
      cases polled
      cases state with
      | through => exact absurd rfl reversing
      | ended => exact absurd rfl going
      | decoding d fed => exact .passed (pass_of_receive received) moments
  | @again _ _ state _ _ _ _ _ _ _ _ _ going polled received _ ih =>
      cases polled
      cases state with
      | through => exact absurd rfl reversing
      | ended => exact absurd rfl going
      | decoding d fed =>
          obtain ⟨bytes, d', rfl, pushed, rfl⟩ := (pass_of_receive received).again
          exact .again fed pushed (ih nofun)

namespace Loop
variable {state state' : State D} {met rest : List Answer} {answer : Answer}

theorem reversing (loop : Loop dec state met answer state' rest) : state' ≠ .through := by
  induction loop with
  | atEnd => exact nofun
  | passed pass => exact pass.reversing
  | again _ _ _ ih => exact ih

/-- What one poll gives is what was owed before it and is not after it. -/
theorem owed_eq (loop : Loop dec state met answer state' rest) :
    owed dec state met = answer.before (owed dec state' rest) := by
  induction loop with
  | atEnd => rfl
  | passed pass rest => exact pass.owed rest
  | again _ pushed _ ih =>
      rw [← ih]
      simp [owed, owing, pushed]

theorem stops (loop : Loop dec state met answer state' rest)
    (stops : answer.isFailed ∨ answer = .ended) : state' = .ended := by
  induction loop with
  | atEnd => rfl
  | passed pass => exact pass.stops stops
  | again _ _ _ ih => exact ih stops

theorem trailers_eq (loop : Loop dec state met answer state' rest) :
    met.filter Answer.isTrailers =
      [answer].filter Answer.isTrailers ++ rest.filter Answer.isTrailers := by
  induction loop with
  | atEnd => rfl
  | passed pass rest => rw [← List.singleton_append, List.filter_append, pass.trailers_eq]
  | again _ _ _ ih => exact ih

theorem last (loop : Loop dec state met answer state' rest) (quiet : ∀ x ∈ met, x.isData = false)
    (last : answer.isData || answer.isFailed) : state' = .ended := by
  cases loop with
  | atEnd => rfl
  | passed pass => exact pass.last (quiet _ (.head _)) last
  | again => exact absurd (quiet _ (.head _)) nofun

/-- Trailers are answered with as they are met. -/
theorem met_trailers {fields : HeaderMap HeaderValue}
    (loop : Loop dec state met (.trailers fields) state' rest) :
    ∃ before, met = before ++ .trailers fields :: rest := by
  generalize same : Answer.trailers fields = answer at loop
  induction loop with
  | atEnd => cases same
  | passed pass rest =>
      subst same
      cases pass
      exact ⟨[], rfl⟩
  | again _ _ _ ih =>
      obtain ⟨before, rfl⟩ := ih same
      exact ⟨_ :: before, rfl⟩

theorem ended (loop : Loop dec .ended met answer state' rest) :
    answer = .ended ∧ state' = .ended ∧ rest = met := by
  cases loop
  exact ⟨rfl, rfl, rfl⟩

end Loop

section
variable {b b' : Decompressed Unit D} {read : Read} {reads : List Read}

theorem Reads.loop (h : Reads dec b read b') (reversing : b.state ≠ .through)
    (rest : List Answer) : Loop dec b.state (read.met ++ rest) read.answer b'.state rest := by
  obtain ⟨used, same, polled⟩ := (polled_of_pollFrame h).pollFrame_append
  rw [List.append_nil] at same
  subst same
  exact loop_of_polled (polled_of_pollFrame (polled rest)) reversing

theorem walk_reversing (walk : Walk (Reads dec) b reads b') (reversing : b.state ≠ .through) :
    b'.state ≠ .through :=
  walk.preserves (·.state ≠ .through) (fun _ _ _ reads holds => (reads.loop holds []).reversing)
    reversing

theorem walk_owed (walk : Walk (Reads dec) b reads b') (reversing : b.state ≠ .through)
    (rest : List Answer) :
    owed dec b.state (met reads ++ rest) =
      (answers reads).foldr Answer.before (owed dec b'.state rest) := by
  induction walk with
  | nil => rfl
  | cons first _ ih =>
      have loop := first.loop reversing
      rw [met_cons, List.append_assoc, (loop _).owed_eq, ih (loop []).reversing]
      rfl

/-- A body that has ended has nothing more to say. -/
theorem walk_ended (walk : Walk (Reads dec) b reads b') (done : b.state = .ended) :
    b'.state = .ended ∧ ∀ read ∈ reads, read.answer = .ended := by
  have still : ∀ s read s', Reads dec s read s' → s.state = .ended →
      read.answer = .ended ∧ s'.state = .ended := by
    intro s read s' reads ended
    have loop := reads.loop (by rw [ended]; exact nofun) []
    rw [ended] at loop
    exact ⟨loop.ended.1, loop.ended.2.1⟩
  exact ⟨walk.preserves (·.state = .ended) (fun s read s' reads ended => (still _ _ _ reads ended).2)
    done, walk.forall_shown (·.state = .ended) still done⟩

/-- Nothing but the end follows an error or the end. -/
theorem walk_stopped (walk : Walk (Reads dec) b reads b') (reversing : b.state ≠ .through)
    {before after : List Answer} {a : Answer} (split : answers reads = before ++ a :: after)
    (stops : a.isFailed ∨ a = .ended) : b'.state = .ended ∧ ∀ x ∈ after, x = .ended := by
  obtain ⟨first, later, rfl, rfl, same⟩ := List.map_eq_append_iff.mp split
  obtain ⟨read, rest, rfl, rfl, rfl⟩ := List.map_eq_cons_iff.mp same
  obtain ⟨s, head, tail⟩ := walk.of_append
  obtain - | ⟨stopping, tail⟩ := tail
  obtain ⟨done, ended⟩ :=
    walk_ended tail ((stopping.loop (walk_reversing head reversing) []).stops stops)
  refine ⟨done, fun x member => ?_⟩
  obtain ⟨read', among, rfl⟩ := List.mem_map.mp member
  exact ended read' among

theorem walk_outcome (walk : Walk (Reads dec) b reads b') (reversing : b.state ≠ .through)
    (rest : List Answer) (finished : .ended ∈ answers reads) :
    owed dec b.state (met reads ++ rest) = (output (answers reads),
      some (.of (firstError (answers reads)))) := by
  obtain ⟨before, after, split⟩ := List.append_of_mem finished
  obtain ⟨done, -⟩ := walk_stopped walk reversing split (.inr rfl)
  rw [walk_owed walk reversing rest, foldr_before, done]
  cases firstError (answers reads) <;> simp [owed, Ending.of]

theorem walk_trailers (walk : Walk (Reads dec) b reads b') (reversing : b.state ≠ .through) :
    (answers reads).filter Answer.isTrailers = (met reads).filter Answer.isTrailers := by
  induction walk with
  | nil => rfl
  | cons first _ ih =>
      have loop := first.loop reversing
      have kept := (loop []).trailers_eq
      rw [List.filter_nil, List.append_nil, List.append_nil] at kept
      rw [met_cons, List.filter_append, kept, ← ih (loop []).reversing, ← List.filter_append]
      rfl

/-- Without more data met, one more frame or error at most is to come. -/
theorem walk_last (walk : Walk (Reads dec) b reads b') (reversing : b.state ≠ .through)
    (quiet : ∀ x ∈ met reads, x.isData = false) :
    (answers reads).countP (fun a => a.isData || a.isFailed) ≤ 1 := by
  induction walk with
  | nil => exact Nat.zero_le 1
  | @cons s next s' read later first rest ih =>
      rw [met_cons, List.forall_mem_append] at quiet
      have loop := first.loop reversing []
      rw [List.append_nil] at loop
      rw [answers_cons, List.countP_cons]
      by_cases last : (read.answer.isData || read.answer.isFailed) = true
      · have none : (answers later).countP (fun a => a.isData || a.isFailed) = 0 := by
          refine List.countP_eq_zero.mpr fun a member => ?_
          obtain ⟨read', among, rfl⟩ := List.mem_map.mp member
          rw [(walk_ended rest (loop.last quiet.1 last)).2 read' among]
          exact nofun
        rw [none, if_pos last]
      · rw [if_neg last]
        exact ih loop.reversing quiet.2

end

theorem owing_eq (d : D) {fed : Bool} {xs : List Answer} {ends : Ending}
    (h : ending xs = some ends) (framed : fed = true ∨ chunks xs ≠ []) :
    owing dec d fed xs = ((dec.outcome d (chunks xs) ends).1,
      some (.of (dec.outcome d (chunks xs) ends).2)) := by
  induction xs generalizing d fed with
  | nil => cases h
  | cons x xs ih =>
      cases x with
      | pending => exact ih d h framed
      | trailers => exact ih d h framed
      | failed e =>
          cases h
          rfl
      | ended =>
          cases h
          obtain rfl : fed = true := framed.resolve_right (absurd rfl)
          rfl
      | data bytes =>
          simp only [owing, chunks, Decode.outcome, Decode.pushAll]
          rcases pushed : dec.push d bytes with ⟨e | out, d'⟩
          · rfl
          · have later := @ih d' true h (.inl rfl)
            dsimp only
            rw [later]
            rcases all : dec.pushAll d' (chunks xs) with ⟨out', e | d''⟩
            · simp [Decode.outcome, all]
            · cases ends <;> simp [Decode.outcome, all]

theorem owing_unfed {d : D} {xs : List Answer} {ends : Ending} (h : ending xs = some ends)
    (unframed : chunks xs = []) :
    owing dec d false xs = ([], some ends) := by
  induction xs with
  | nil => cases h
  | cons x xs ih =>
      cases x with
      | pending => exact ih h unframed
      | trailers => exact ih h unframed
      | failed e =>
          cases h
          rfl
      | ended =>
          cases h
          rfl
      | data bytes => cases unframed

theorem owing_decoded {d : D} {xs : List Answer} {ends : Ending} (h : ending xs = some ends)
    (cutFree : dec.CutFree d (chunks xs).flatten)
    (framed : (chunks xs).flatten = [] → chunks xs = []) :
    owing dec d false xs = ((dec.decoded d (chunks xs).flatten ends).1,
      some (.of (dec.decoded d (chunks xs).flatten ends).2)) := by
  by_cases none : chunks xs = []
  · rw [owing_unfed h none, none]
    simp [Decode.decoded]
  · rw [owing_eq d h (.inr none), cutFree (chunks xs) none rfl ends, Decode.decoded,
      if_neg fun empty => none (framed empty)]

/-- A poll of a body whose end is to come answers, and has come nearer to that end. -/
theorem pollFrame_total (xs : List Answer) (state : State D) (reversing : state ≠ .through)
    (comes : ending xs ≠ none) : ∃ answer b' rest,
      pollFrame dec replay ⟨(), state⟩ xs = some (answer, b', [], rest) ∧
        (b'.state = .ended ∨ (ending rest ≠ none ∧ rest.length < xs.length)) := by
  induction xs generalizing state with
  | nil => exact absurd rfl comes
  | cons x xs ih =>
      cases state with
      | through => exact absurd rfl reversing
      | ended => exact ⟨.ended, _, _, rfl, .inl rfl⟩
      | decoding d fed =>
          rw [pollFrame_cons (by exact nofun)]
          rcases received : receive dec (.decoding d fed) (replay () x).1 with ⟨_ | given, state⟩
          · obtain ⟨bytes, d', same, -, rfl⟩ := (pass_of_receive received).again
            obtain rfl : x = .data bytes := same
            obtain ⟨answer, b', rest, polled, nearer⟩ := ih (.decoding d' true) nofun comes
            refine ⟨answer, b', rest, ?_, nearer.imp_right fun h => ⟨h.1, ?_⟩⟩
            · simp only [replay, polled, Option.map_some, List.nil_append]
            · exact Nat.lt_succ_of_lt h.2
          · refine ⟨given, _, _, rfl, ?_⟩
            cases x with
            | pending => exact .inr ⟨comes, Nat.lt_succ_self _⟩
            | trailers => exact .inr ⟨comes, Nat.lt_succ_self _⟩
            | data => exact .inr ⟨comes, Nat.lt_succ_self _⟩
            | failed => exact .inl (by cases pass_of_receive received; rfl)
            | ended => exact .inl (by cases pass_of_receive received <;> rfl)

theorem reads_ended (inner : Unit) (rest : List Answer) :
    ∃ reads b' left, Walk (Reads dec) (⟨inner, .ended⟩ : Decompressed Unit D) reads b' ∧
      met reads ++ left = rest ∧ .ended ∈ answers reads :=
  ⟨[⟨[], .ended⟩], _, rest, .cons rfl (.nil _), rfl, List.mem_singleton_self _⟩

/-- A body whose end is to come is read to its end. -/
theorem reads_end (n : Nat) (xs : List Answer) (state : State D) (reversing : state ≠ .through)
    (short : xs.length < n) (comes : ending xs ≠ none) :
    ∃ reads b' rest, Walk (Reads dec) ⟨(), state⟩ reads b' ∧ met reads ++ rest = xs ∧
      .ended ∈ answers reads := by
  induction n generalizing xs state with
  | zero => exact absurd short (Nat.not_lt_zero _)
  | succ n ih =>
      obtain ⟨answer, ⟨_, state'⟩, rest, polled, nearer⟩ :=
        pollFrame_total xs state reversing comes
      obtain ⟨used, rfl, enough⟩ := (polled_of_pollFrame polled).pollFrame_append
      have first : Reads dec ⟨(), state⟩ ⟨used, answer⟩ ⟨(), state'⟩ := by
        have polled := enough []
        rwa [List.append_nil] at polled
      have later : ∃ reads b' left, Walk (Reads dec) ⟨(), state'⟩ reads b' ∧
          met reads ++ left = rest ∧ .ended ∈ answers reads := by
        rcases nearer with stopped | ⟨comes', shorter⟩
        · obtain rfl : state' = .ended := stopped
          exact reads_ended () rest
        · exact ih rest state' (first.loop reversing []).reversing (by omega) comes'
      obtain ⟨reads, b', left, walk, same, finished⟩ := later
      refine ⟨⟨used, answer⟩ :: reads, b', left, .cons first walk, ?_, .tail _ finished⟩
      rw [met_cons, List.append_assoc, same]

/-- Over any answers of the body inside: where it does not matter to the decoder how the bytes are
cut, and a body without a byte has no data frame, what comes out and how it ends are those of the
bytes and of the end alone, and the end is reached. After an error only the end is reported; the
trailers are those met, as they are met, and where no data is met after them, one data frame or
error follows them at most. -/
theorem decompressed_run (dec : Decode D) (d : D) (xs : List Answer) :
    (∀ ends, ending xs = some ends → dec.CutFree d (chunks xs).flatten →
      ((chunks xs).flatten = [] → chunks xs = []) →
        (∃ reads b' rest, Walk (Reads dec) (.new () (some d)) reads b' ∧ met reads ++ rest = xs ∧
          .ended ∈ answers reads) ∧
        ∀ reads b' rest, Walk (Reads dec) (.new () (some d)) reads b' → met reads ++ rest = xs →
          .ended ∈ answers reads → (output (answers reads), firstError (answers reads)) =
            dec.decoded d (chunks xs).flatten ends) ∧
    ∀ reads b' rest, Walk (Reads dec) (.new () (some d)) reads b' → met reads ++ rest = xs →
      (∀ before e after, answers reads = before ++ .failed e :: after → ∀ a ∈ after, a = .ended) ∧
      (answers reads).filter Answer.isTrailers = (met reads).filter Answer.isTrailers ∧
      ((∀ before fields after, xs = before ++ .trailers fields :: after →
          ∀ x ∈ after, x.isData = false) →
        ∀ before fields after, answers reads = before ++ .trailers fields :: after →
          after.countP (fun a => a.isData || a.isFailed) ≤ 1) := by
  constructor
  · intro ends comes cutFree framed
    refine ⟨reads_end (xs.length + 1) xs _ nofun (Nat.lt_succ_self _) (by rw [comes]; exact nofun),
      ?_⟩
    rintro reads b' rest walk rfl finished
    have given : owing dec d false (met reads ++ rest) = _ := walk_outcome walk nofun rest finished
    rw [owing_decoded comes cutFree framed] at given
    obtain ⟨bytes, verdict⟩ := Prod.mk.inj given
    rw [← bytes, ← Ending.error_of (firstError _), ← Option.some.inj verdict, Ending.error_of]
  · rintro reads b' rest walk rfl
    refine ⟨fun before e after split => (walk_stopped walk nofun split (.inl rfl)).2,
      walk_trailers walk nofun, fun late before fields after split => ?_⟩
    obtain ⟨first, later, rfl, rfl, same⟩ := List.map_eq_append_iff.mp split
    obtain ⟨read, tail, rfl, answer, rfl⟩ := List.map_eq_cons_iff.mp same
    obtain ⟨s, head, others⟩ := walk.of_append
    obtain - | ⟨trailing, others⟩ := others
    have loop := trailing.loop (walk_reversing head nofun) []
    rw [answer] at loop
    obtain ⟨skipped, used⟩ := loop.met_trailers
    rw [List.append_nil] at used
    refine walk_last others loop.reversing fun x member => ?_
    refine late (met first ++ skipped) fields (met tail ++ rest) ?_ x (List.mem_append_left _ member)
    simp [used]

/-- A decoder that holds everything back until it is finished. -/
def hoarding : Decode (List UInt8) where
  push held bytes := (.ok [], held ++ bytes)
  finish held := (.ok held, [])
  token _ := "hoard".toList

theorem hoarding_pushAll (held : List UInt8) (cut : List (List UInt8)) :
    hoarding.pushAll held cut = ([], .ok (held ++ cut.flatten)) := by
  induction cut generalizing held with
  | nil => simp [Decode.pushAll]
  | cons chunk cut ih => simp [Decode.pushAll, hoarding, ← ih, ← List.append_assoc]

theorem hoarding_cutFree (held bytes : List UInt8) : hoarding.CutFree held bytes := by
  rintro cut - rfl ends
  simp only [Decode.outcome, hoarding_pushAll, List.flatten_singleton]

theorem decompressed_run_hoarding :
    ∃ reads b' rest, Walk (Reads hoarding) (.new () (some [])) reads b' ∧
      met reads ++ rest = [.data [104], .pending, .data [], .data [105], .trailers [], .ended] ∧
      (output (answers reads), firstError (answers reads)) = ([104, 105], none) ∧
      ∀ before fields after, answers reads = before ++ .trailers fields :: after →
        after.countP (fun a => a.isData || a.isFailed) ≤ 1 := by
  obtain ⟨outcome, others⟩ := decompressed_run hoarding []
    [.data [104], .pending, .data [], .data [105], .trailers [], .ended]
  obtain ⟨⟨reads, b', rest, walk, same, finished⟩, given⟩ :=
    outcome .clean rfl (hoarding_cutFree _ _) nofun
  refine ⟨reads, b', rest, walk, same, (given reads b' rest walk same finished).trans rfl, ?_⟩
  refine (others reads b' rest walk same).2.2 fun before fields after split x member => ?_
  rcases before with _ | ⟨_, _ | ⟨_, _ | ⟨_, _ | ⟨_, _ | ⟨_, _ | ⟨_, before⟩⟩⟩⟩⟩⟩ <;>
    simp at split
  obtain ⟨-, rfl⟩ := split.2.2.2.2
  obtain rfl := List.mem_singleton.mp member
  rfl

/-- What the decoder held back follows the trailers. -/
theorem data_follows_trailers :
    ¬ ∀ (D : Type) (dec : Decode D) (d : D), (∀ bytes, dec.CutFree d bytes) →
      ∀ reads b', Walk (Reads dec) (.new () (some d)) reads b' → ∀ before fields after,
        answers reads = before ++ .trailers fields :: after →
          ∀ a ∈ after, (a.isData || a.isFailed) = false := by
  intro never
  have walk : Walk (Reads hoarding) (.new () (some []))
      [⟨[.data [104], .trailers []], .trailers []⟩, ⟨[.ended], .data [104]⟩] ⟨(), .ended⟩ :=
    .cons rfl (.cons rfl (.nil _))
  exact absurd (never _ hoarding [] (hoarding_cutFree []) _ _ walk [] [] [.data [104]] rfl _
    (.head _)) nofun

end HClient.Body
