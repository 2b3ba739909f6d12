import HClient.Multipart.Wire

/-!
# Polls of a form

Any polls of an encoded form, however its streams are cut: what they put out, and the size that
is said to come.
-/
namespace HClient.Multipart
open Body

/-- What is left to be polled. -/
def Segment.steps : Segment → Nat
  | .bytes _ => 1
  | .stream s => s.answers.length + 1

theorem Segment.steps_pos (segment : Segment) : 0 < segment.steps := by
  cases segment with
  | bytes d => exact Nat.one_pos
  | stream s => exact Nat.succ_pos _

namespace MultipartBody

/-- So many polls: what they answer, and what they leave. -/
def run : Nat → MultipartBody → List Answer × MultipartBody
  | 0, b => ([], b)
  | k + 1, b => (b.poll.1 :: (run k b.poll.2).1, (run k b.poll.2).2)

/-- The bytes that are still to come. -/
def content (b : MultipartBody) : List UInt8 := b.queue.flatMap Segment.content

variable {b : MultipartBody}

theorem map_sub_zero (remaining : Option Nat) : remaining.map (· - 0) = remaining := by
  cases remaining with
  | none => rfl
  | some n => rfl

/-- A poll puts out the first of the bytes that were to come and counts them off. -/
theorem pollFrame_content (remaining : Option Nat) (queue : List Segment) :
    queue.flatMap Segment.content = (pollFrame remaining queue).1.bytes ++
        (pollFrame remaining queue).2.content ∧
      (pollFrame remaining queue).2.remaining =
        remaining.map (· - (pollFrame remaining queue).1.bytes.length) ∧
      ((pollFrame remaining queue).1 = .ended → (pollFrame remaining queue).2.queue = []) := by
  induction queue with
  | nil => exact ⟨rfl, (map_sub_zero remaining).symm, fun _ => rfl⟩
  | cons segment rest ih =>
      cases segment with
      | bytes d =>
          rw [pollFrame]
          by_cases empty : d = []
          · rw [if_pos empty, empty]
            exact ih
          · rw [if_neg empty]
            exact ⟨rfl, rfl, nofun⟩
      | stream s =>
          rcases s with ⟨hint, _ | ⟨answer, answers⟩⟩
          · exact ih
          · cases answer with
            | ended => exact ih
            | pending => exact ⟨rfl, (map_sub_zero remaining).symm, nofun⟩
            | failed e => exact ⟨rfl, (map_sub_zero remaining).symm, nofun⟩
            | data d =>
                refine ⟨?_, rfl, nofun⟩
                exact List.append_assoc d (delivered answers) _
            | trailers fields => exact ⟨rfl, (map_sub_zero remaining).symm, nofun⟩

theorem run_content (k : Nat) (b : MultipartBody) :
    b.content = output (run k b).1 ++ (run k b).2.content ∧
      (run k b).2.remaining = b.remaining.map (· - (output (run k b).1).length) := by
  induction k generalizing b with
  | zero => exact ⟨rfl, (map_sub_zero b.remaining).symm⟩
  | succ k ih =>
      obtain ⟨content, remaining, _⟩ := pollFrame_content b.remaining b.queue
      obtain ⟨later, left⟩ := ih b.poll.2
      have first : b.content = b.poll.1.bytes ++ b.poll.2.content := content
      have counted : b.poll.2.remaining = b.remaining.map (· - b.poll.1.bytes.length) := remaining
      rw [run, output_cons]
      refine ⟨?_, ?_⟩
      · rw [first, later, List.append_assoc]
      · rw [left, counted, Option.map_map, List.length_append]
        congr 1
        funext n
        exact (Nat.sub_add_eq n _ _).symm

theorem run_empty {k : Nat} (drained : b.queue = []) : (run k b).2.content = [] := by
  induction k generalizing b with
  | zero =>
      rw [run, content, drained]
      rfl
  | succ k ih =>
      rw [run]
      apply ih
      rw [poll, drained]
      rfl

/-- Once the end was answered nothing is to come. -/
theorem run_ended {k : Nat} (ended : Answer.ended ∈ (run k b).1) : (run k b).2.content = [] := by
  induction k generalizing b with
  | zero => cases ended
  | succ k ih =>
      rw [run] at ended ⊢
      rcases List.mem_cons.mp ended with same | ended
      · exact run_empty ((pollFrame_content b.remaining b.queue).2.2 same.symm)
      · exact ih ended

/-- What polls up to the end put out is all that was to come. -/
theorem run_output {k : Nat} (ended : Answer.ended ∈ (run k b).1) :
    output (run k b).1 = b.content := by
  rw [(run_content k b).1, run_ended ended, List.append_nil]

/-! ## The end -/

def steps (queue : List Segment) : Nat := (queue.map Segment.steps).sum

theorem steps_cons (segment : Segment) (rest : List Segment) :
    steps (segment :: rest) = segment.steps + steps rest := by
  rw [steps, List.map_cons, List.sum_cons, steps]

theorem pollFrame_steps (remaining : Option Nat) (queue : List Segment) :
    (pollFrame remaining queue).1 = .ended ∨
      steps (pollFrame remaining queue).2.queue < steps queue := by
  induction queue with
  | nil => exact .inl rfl
  | cons segment rest ih =>
      have popped : (pollFrame remaining rest).1 = .ended ∨
          steps (pollFrame remaining rest).2.queue < steps (segment :: rest) := by
        apply ih.imp_right
        intro fewer
        rw [steps_cons]
        omega
      cases segment with
      | bytes d =>
          rw [pollFrame]
          by_cases empty : d = []
          · rw [if_pos empty]
            exact popped
          · rw [if_neg empty, steps_cons]
            exact .inr (Nat.lt_add_of_pos_left (Segment.steps_pos _))
      | stream s =>
          rcases s with ⟨hint, _ | ⟨answer, answers⟩⟩
          · exact popped
          · have taken : steps (.stream ⟨hint, answers⟩ :: rest) <
                steps (.stream ⟨hint, answer :: answers⟩ :: rest) := by
              rw [steps_cons, steps_cons]
              exact Nat.add_lt_add_right (Nat.lt_succ_self _) _
            cases answer with
            | ended => exact popped
            | pending => exact .inr taken
            | failed e => exact .inr taken
            | data d => exact .inr taken
            | trailers fields => exact .inr taken

theorem run_ends (b : MultipartBody) : ∃ k, Answer.ended ∈ (run k b).1 := by
  induction many : steps b.queue using Nat.strong_induction_on generalizing b with
  | _ many ih =>
      rcases pollFrame_steps b.remaining b.queue with same | fewer
      · refine ⟨1, ?_⟩
        have first : b.poll.1 = .ended := same
        rw [run, first]
        exact List.mem_cons_self
      · obtain ⟨k, ended⟩ := ih _ (many ▸ fewer) b.poll.2 rfl
        exact ⟨k + 1, List.mem_cons_of_mem _ ended⟩

end MultipartBody

/-! ## Sizes -/

/-- A body that puts out as many bytes as it says, if it says how many. -/
def RequestBody.Honest : RequestBody → Prop
  | .streaming s => ∀ n, exact s.hint = some n → (delivered s.answers).length = n
  | .rewindable made => made.Honest
  | .empty | .full _ => True

def Segment.Honest (segment : Segment) : Prop :=
  ∀ n, segment.len = some n → segment.content.length = n

theorem Segment.honest_bytes (d : List UInt8) : (Segment.bytes d).Honest := by
  intro n same
  exact Option.some.inj same

theorem resolveIn_honest {fuel : Nat} {body : RequestBody} {r : Resolved} (honest : body.Honest)
    (ok : resolveIn fuel body = .ok r) : r.segment.Honest := by
  induction fuel generalizing body with
  | zero => cases ok
  | succ fuel ih =>
      cases body with
      | empty =>
          cases ok
          exact Segment.honest_bytes []
      | full bytes =>
          cases ok
          exact Segment.honest_bytes bytes
      | rewindable made => exact @ih made honest ok
      | streaming s =>
          cases ok
          exact honest

theorem segmentsOf_honest {boundary : Boundary} {parts : List Part} {segments : List Segment}
    (honest : ∀ p ∈ parts, p.body.Honest) (ok : segmentsOf boundary parts = .ok segments) :
    ∀ segment ∈ segments, segment.Honest := by
  induction parts generalizing segments with
  | nil =>
      cases ok
      exact List.forall_mem_singleton.mpr (Segment.honest_bytes _)
  | cons p rest ih =>
      obtain ⟨head, headed, ok⟩ := bind_ok_iff.mp ok
      obtain ⟨r, resolved, ok⟩ := bind_ok_iff.mp ok
      obtain ⟨later, rested, ok⟩ := bind_ok_iff.mp ok
      cases ok
      obtain ⟨here, others⟩ := List.forall_mem_cons.mp honest
      rw [List.forall_mem_cons, List.forall_mem_cons, List.forall_mem_cons]
      exact ⟨Segment.honest_bytes _, resolveIn_honest here resolved, Segment.honest_bytes _,
        ih others rested⟩

theorem sumLengths_none (segments : List Segment) : sumLengths none segments = some none := by
  induction segments with
  | nil => rfl
  | cons segment rest ih => exact ih

theorem sumLengths_known {segment : Segment} {b : Nat} (len : segment.len = some b) (a : Nat)
    (rest : List Segment) : sumLengths (some a) (segment :: rest) =
      if a + b < 2 ^ 64 then sumLengths (some (a + b)) rest else none := by
  simp only [sumLengths, len]

theorem sumLengths_unknown {segment : Segment} (len : segment.len = none) (a : Nat)
    (rest : List Segment) : sumLengths (some a) (segment :: rest) = some none := by
  simp only [sumLengths, len, sumLengths_none]

/-- The sum of the lengths is that of the bytes, and fits where these do. -/
theorem sumLengths_honest {segments : List Segment}
    (honest : ∀ segment ∈ segments, segment.Honest) (a : Nat) :
    (∀ n, sumLengths (some a) segments = some (some n) →
      n = a + (segments.flatMap Segment.content).length) ∧
    (a + (segments.flatMap Segment.content).length < 2 ^ 64 →
      ∃ remaining, sumLengths (some a) segments = some remaining) := by
  induction segments generalizing a with
  | nil =>
      refine ⟨fun n same => ?_, fun _ => ⟨some a, rfl⟩⟩
      cases same
      rfl
  | cons segment rest ih =>
      obtain ⟨here, others⟩ := List.forall_mem_cons.mp honest
      rw [List.flatMap_cons, List.length_append]
      cases len : segment.len with
      | none =>
          rw [sumLengths_unknown len]
          exact ⟨nofun, fun _ => ⟨none, rfl⟩⟩
      | some b =>
          have size := here b len
          obtain ⟨same, fits⟩ := ih others (a + b)
          rw [sumLengths_known len, size, ← Nat.add_assoc]
          by_cases small : a + b < 2 ^ 64
          · rw [if_pos small]
            exact ⟨same, fits⟩
          · rw [if_neg small]
            exact ⟨nofun, fun room => by omega⟩

theorem mapM_buffered {segments : List Segment} {buffered : List (List UInt8)}
    (all : segments.mapM Segment.buffered = some buffered) : buffered.map .bytes = segments := by
  induction segments generalizing buffered with
  | nil =>
      cases all
      rfl
  | cons segment rest ih =>
      rw [List.mapM_cons] at all
      obtain ⟨d, first, all⟩ := Option.bind_eq_some_iff.mp all
      obtain ⟨later, others, all⟩ := Option.bind_eq_some_iff.mp all
      cases all
      cases segment with
      | bytes d' =>
          cases first
          rw [List.map_cons, ih others]
      | stream s => cases first

/-- A form is sent as its segments, each time. -/
theorem encode_sent {boundary : Boundary} {parts : List Part} {encoded : Encoded}
    (ok : encode parts boundary = .ok encoded) : ∃ segments,
      segmentsOf boundary parts = .ok segments ∧ encoded.sent = MultipartBody.new segments := by
  obtain ⟨segments, made, ok⟩ := bind_ok_iff.mp ok
  refine ⟨segments, made, ?_⟩
  cases all : segments.mapM Segment.buffered with
  | none =>
      rw [all] at ok
      cases ok
      rfl
  | some buffered =>
      rw [all] at ok
      cases ok
      rw [Encoded.sent, mapM_buffered all]

/-! ## Forms -/

/-- What is sent of a form puts out its wire, and the size it says is that of what is to come. -/
theorem sent_wire {boundary : Boundary} {parts : List Part} {encoded : Encoded}
    {body : MultipartBody} (ok : encode parts boundary = .ok encoded)
    (sent : encoded.sent = some body) : body.content = wire boundary parts := by
  obtain ⟨segments, made, same⟩ := encode_sent ok
  rw [sent] at same
  obtain ⟨remaining, _, rfl⟩ := Option.map_eq_some_iff.mp same.symm
  exact (segmentsOf_wire made).1

theorem sent_remaining {boundary : Boundary} {parts : List Part} {encoded : Encoded}
    {body : MultipartBody} (honest : ∀ p ∈ parts, p.body.Honest)
    (ok : encode parts boundary = .ok encoded) (sent : encoded.sent = some body) :
    ∀ n, body.remaining = some n → n = body.content.length := by
  obtain ⟨segments, made, same⟩ := encode_sent ok
  rw [sent] at same
  obtain ⟨remaining, summed, rfl⟩ := Option.map_eq_some_iff.mp same.symm
  intro n left
  have left : remaining = some n := left
  rw [left] at summed
  have total := (sumLengths_honest (segmentsOf_honest honest made) 0).1 n summed
  rw [total, Nat.zero_add]
  rfl

theorem exact_sizeHint {body : MultipartBody} {n : Nat} (said : exact body.sizeHint = some n) :
    body.remaining = some n := by
  unfold MultipartBody.sizeHint at said
  cases left : body.remaining with
  | none =>
      rw [left] at said
      cases said
  | some r =>
      rw [left] at said
      unfold exact SizeHint.withExact at said
      simpa using said

def plainBoundary : Boundary := ⟨"b".toList, by decide⟩

/-- A part that streams two bytes, where its size is said to be so much. -/
def streamed (n : Nat) : Part := ⟨"n".toList, none, none, .streaming ⟨.withExact n, [.data [1, 2]]⟩⟩

def streamedHead : Text := "--b\r\nContent-Disposition: form-data; name=\"n\"\r\n\r\n".toList

/-- What is encoded of it. -/
def streamedForm (n : Nat) : Encoded :=
  .streaming (MultipartBody.new [.bytes (Bytes.utf8 streamedHead),
    .stream ⟨.withExact n, [.data [1, 2]]⟩, .bytes (Bytes.ascii "\r\n"),
    .bytes (closing plainBoundary)])

theorem streamed_head (n : Nat) :
    (streamed n).head plainBoundary = .ok (Bytes.utf8 streamedHead) := by
  have text : "--".toList ++ plainBoundary.text ++
      "\r\nContent-Disposition: form-data; name=\"".toList ++ ['n'] ++ ['"'] ++ "\r\n".toList ++
      "\r\n".toList = streamedHead := by decide
  rw [← text]
  rfl

theorem encode_streamed (n : Nat) : encode [streamed n] plainBoundary = .ok (streamedForm n) := by
  have made : segmentsOf plainBoundary [streamed n] = .ok [.bytes (Bytes.utf8 streamedHead),
      .stream ⟨.withExact n, [.data [1, 2]]⟩, .bytes (Bytes.ascii "\r\n"),
      .bytes (closing plainBoundary)] := by
    rw [segmentsOf, streamed_head]
    rfl
  rw [encode, made]
  rfl

/-- Every form with a boundary that no body holds, however its streams are cut: what is sent, and
sent again, is the same wire up to its end, and a reader finds the parts on it in order, each with
its own header lines and no other. A receiver makes of them the escaped names, the content types
and the bytes. Where the streams put out as many bytes as they say, the size that is said at any
point is that of the bytes to come. -/
theorem encode_reads (boundary : Boundary) (parts : List Part) (encoded : Encoded)
    (ok : encode parts boundary = .ok encoded)
    (alone : ∀ p ∈ parts, ¬ Mime.delimiter boundary.bytes <:+: Mime.crlf ++ p.body.content) :
    Mime.read boundary.bytes (wire boundary parts) = some (parts.map Part.entity) ∧
    (parts.map Part.entity).mapM receive = some (parts.map Part.received) ∧
    (∀ p ∈ parts, ∀ line ∈ p.lines, 13 ∉ line ∧ 10 ∉ line) ∧
    (∀ body, encoded.sent = some body →
      (∃ k, Answer.ended ∈ (body.run k).1) ∧
      ∀ k, Answer.ended ∈ (body.run k).1 → output (body.run k).1 = wire boundary parts) ∧
    ((∀ p ∈ parts, p.body.Honest) →
      ((wire boundary parts).length < 2 ^ 64 → ∃ body, encoded.sent = some body) ∧
      ∀ body, encoded.sent = some body → ∀ k n, exact (body.run k).2.sizeHint = some n →
        ∀ m, Answer.ended ∈ ((body.run k).2.run m).1 →
          (output ((body.run k).2.run m).1).length = n) := by
  obtain ⟨segments, made, same⟩ := encode_sent ok
  obtain ⟨content, plain⟩ := segmentsOf_wire made
  refine ⟨read_wire plain alone, receive_entities parts, ?_, ?_, ?_⟩
  · intro p member line there
    exact (lines_clean (plain p member) line there).2
  · intro body sent
    refine ⟨body.run_ends, fun k ended => ?_⟩
    rw [MultipartBody.run_output ended, sent_wire ok sent]
  · intro honest
    constructor
    · intro fits
      rw [← content, ← Nat.zero_add (List.length _)] at fits
      obtain ⟨remaining, summed⟩ := (sumLengths_honest (segmentsOf_honest honest made) 0).2 fits
      exact ⟨⟨segments, remaining⟩, by rw [same, MultipartBody.new, summed]; rfl⟩
    · intro body sent k n said m ended
      obtain ⟨whole, left⟩ := MultipartBody.run_content k body
      have remaining := exact_sizeHint said
      rw [MultipartBody.run_output ended]
      rw [left] at remaining
      obtain ⟨total, said, counted⟩ := Option.map_eq_some_iff.mp remaining
      have all := sent_remaining honest ok sent total said
      rw [whole, List.length_append] at all
      omega

/-- A streamed part with a quote in its name, and a file. -/
def twoParts : List Part :=
  [⟨"a\"b".toList, none, none, .streaming ⟨.withExact 2, [.data [1], .data [2]]⟩⟩,
    ⟨"f".toList, some "x y.txt".toList, some "text/plain".toList, .full (Bytes.ascii "hi")⟩]

/-- Both parts are read from the wire, and what is sent ends with it. -/
theorem encode_reads_streamed : ∃ encoded, encode twoParts plainBoundary = .ok encoded ∧
    Mime.read plainBoundary.bytes (wire plainBoundary twoParts) =
      some (twoParts.map Part.entity) ∧
    (twoParts.map Part.entity).mapM receive = some
      [⟨Bytes.ascii "a%22b", none, none, [1, 2]⟩, ⟨Bytes.ascii "f", some (Bytes.ascii "x y.txt"),
        some (Bytes.ascii "text/plain"), Bytes.ascii "hi"⟩] ∧
    ∃ body k, encoded.sent = some body ∧ output (body.run k).1 = wire plainBoundary twoParts := by
  have encoded : ∃ encoded, encode twoParts plainBoundary = .ok encoded := ⟨_, rfl⟩
  obtain ⟨encoded, ok⟩ := encoded
  have honest : ∀ p ∈ twoParts, p.body.Honest := by
    intro p member
    rcases List.mem_pair.mp member with rfl | rfl
    · intro n said
      cases said
      rfl
    · trivial
  obtain ⟨read, received, -, sends, sized⟩ :=
    encode_reads plainBoundary twoParts encoded ok (by decide +kernel)
  obtain ⟨body, sent⟩ := (sized honest).1 (by decide +kernel)
  obtain ⟨⟨k, ended⟩, whole⟩ := sends body sent
  exact ⟨encoded, ok, read, received.trans (by decide +kernel), body, k, sent, whole k ended⟩

/-- The size that a stream says of itself is believed. -/
theorem hint_is_believed : ¬ ∀ (boundary : Boundary) (parts : List Part) (encoded : Encoded)
    (body : MultipartBody), encode parts boundary = .ok encoded →
    (∀ p ∈ parts, ¬ Mime.delimiter boundary.bytes <:+: Mime.crlf ++ p.body.content) →
    encoded.sent = some body → ∀ k n, exact (body.run k).2.sizeHint = some n →
      ∀ m, Answer.ended ∈ ((body.run k).2.run m).1 →
        (output ((body.run k).2.run m).1).length = n := by
  intro claimed
  have sent : ∃ body, (streamedForm 5).sent = some body := ⟨_, rfl⟩
  obtain ⟨body, sent⟩ := sent
  have hint : exact body.sizeHint = some 63 := by
    cases sent
    decide
  obtain ⟨m, ended⟩ := body.run_ends
  have said := claimed plainBoundary [streamed 5] (streamedForm 5) body (encode_streamed 5)
    (by decide) sent 0 63 hint m ended
  have whole : output (body.run m).1 = body.content := MultipartBody.run_output ended
  rw [MultipartBody.run, whole] at said
  cases sent
  exact absurd said (by decide)

end HClient.Multipart
