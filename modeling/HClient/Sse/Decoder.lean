import HClient.Core.Utf8Lossy
import HClient.Sse.Lines

/-!
# The decoder of an event stream

Lines fill three buffers, and a blank line sends off what they hold. The bytes of an event are
counted as its lines are taken, and a line that has not ended is counted too.
-/
namespace HClient.Sse

inductive SseEvent where
  | message (event : Option Text) (data : Text) (id : Option Text)
  | comment (text : Text)
  | retry (millis : Nat)
  deriving DecidableEq, Repr

inductive SseError where
  | eventTooLarge (limit : Nat)
  deriving DecidableEq, Repr

/-- What the lines of an event fill. -/
structure Buffers where
  data : Text
  eventType : Option Text
  lastEventId : Option Text
  deriving DecidableEq, Repr

structure SseDecoder extends Buffers where
  lines : LineSplitter
  maxEventSize : Nat
  /-- Bytes accumulated in the current event. -/
  eventBytes : Nat
  ready : List SseEvent
  deriving DecidableEq, Repr

def colon : UInt8 := 58

/-- Exactly one space is taken off. -/
def stripSpace (value : Bytes) : Bytes := if value.head? = some 32 then value.drop 1 else value

def u64Max : Nat := 2 ^ 64 - 1

/-- The digits of a retry field, saturating. -/
def retryMillis (value : Bytes) : Nat := (Text.parseU64 (value.map Bytes.asciiChar)).getD u64Max

namespace SseDecoder

def new (maxEventSize : Nat) : SseDecoder :=
  { lines := .new, maxEventSize, eventBytes := 0, data := [], eventType := none,
    lastEventId := none, ready := [] }

def newWithLastEventId (maxEventSize : Nat) (lastEventId : Option Text) : SseDecoder :=
  { new maxEventSize with lastEventId }

/-- The name of a field, and its value. -/
def splitField (line : Bytes) : Bytes × Bytes :=
  match line.dropWhile (· != colon) with
  | [] => (line, [])
  | _ :: value => (line.takeWhile (· != colon), stripSpace value)

def handleField (d : SseDecoder) (name value : Bytes) : SseDecoder :=
  if name = Bytes.ascii "data" then
    { d with data := d.data ++ Bytes.fromUtf8Lossy value ++ ['\n'] }
  else if name = Bytes.ascii "event" then
    { d with eventType := some (Bytes.fromUtf8Lossy value) }
  else if name = Bytes.ascii "id" then
    if 0 ∈ value then d else { d with lastEventId := some (Bytes.fromUtf8Lossy value) }
  else if name = Bytes.ascii "retry" ∧ value ≠ [] ∧ value.all Bytes.isDigit then
    { d with ready := d.ready ++ [.retry (retryMillis value)] }
  else d

def handleLine (d : SseDecoder) (line : Bytes) : SseDecoder :=
  if line.head? = some colon then
    { d with ready := d.ready ++ [.comment (Bytes.fromUtf8Lossy (stripSpace (line.drop 1)))] }
  else
    let (name, value) := splitField line
    d.handleField name value

def dispatch (d : SseDecoder) : SseDecoder :=
  let event := d.eventType
  let d := { d with eventType := none }
  if d.data = [] then d
  else
    let data := if d.data.getLast? = some '\n' then d.data.dropLast else d.data
    { d with data := [], ready := d.ready ++ [.message event data d.lastEventId] }

/-- The lines that there are, while the event they belong to is not too large. -/
def pushLines : Nat → SseDecoder → Except SseError Unit × SseDecoder
  | 0, d => (.ok (), d)
  | fuel + 1, d =>
      match d.lines.nextLine with
      | none => (.ok (), d)
      | some ((line, consumed), lines) =>
          let d := { d with lines }
          if line = [] then pushLines fuel { d.dispatch with eventBytes := 0 }
          else
            let d := { d with eventBytes := d.eventBytes + consumed }
            if d.maxEventSize < d.eventBytes then (.error (.eventTooLarge d.maxEventSize), d)
            else pushLines fuel (d.handleLine line)

def push (d : SseDecoder) (chunk : Bytes) : Except SseError Unit × SseDecoder :=
  let d := { d with lines := d.lines.push chunk }
  match pushLines d.lines.buf.length d with
  | (.error e, d) => (.error e, d)
  | (.ok (), d) =>
      if d.maxEventSize < d.eventBytes + d.lines.bufferedLen then
        (.error (.eventTooLarge d.maxEventSize), d)
      else (.ok (), d)

def next (d : SseDecoder) : Option SseEvent × SseDecoder :=
  match d.ready with
  | [] => (none, d)
  | event :: ready => (some event, { d with ready })

/-- The events that are ready, taken one by one. -/
def nextAll : Nat → SseDecoder → List SseEvent × SseDecoder
  | 0, d => ([], d)
  | fuel + 1, d =>
      match d.next with
      | (none, d) => ([], d)
      | (some event, d) => prepend [event] (nextAll fuel d)

/-- Chunks pushed one after another, with everything taken after each, up to the one that is
refused. -/
def run : SseDecoder → List Bytes → List SseEvent × Except SseError SseDecoder
  | d, [] => ([], .ok d)
  | d, chunk :: chunks =>
      let (verdict, d) := d.push chunk
      let (events, d) := nextAll d.ready.length d
      match verdict with
      | .error e => (events, .error e)
      | .ok () => prepend events (run d chunks)

theorem nextAll_eq (b : Buffers) (lines : LineSplitter) (limit used : Nat) (ready : List SseEvent) :
    nextAll ready.length ⟨b, lines, limit, used, ready⟩ = (ready, ⟨b, lines, limit, used, []⟩) := by
  induction ready with
  | nil => rfl
  | cons event ready ih => exact congrArg (prepend [event]) ih

/-! ## What a line does to the buffers -/

/-- A line as the decoder takes it. -/
def takeLine (d : SseDecoder) (line : Bytes) : SseDecoder :=
  if line = [] then d.dispatch else d.handleLine line

end SseDecoder

/-- The events of a line, and the buffers behind it. -/
def Buffers.read (b : Buffers) (line : Bytes) : List SseEvent × Buffers :=
  let d := SseDecoder.takeLine { SseDecoder.new 0 with toBuffers := b } line
  (d.ready, d.toBuffers)

/-- The events of some lines, and the buffers behind them. -/
def Buffers.readAll (b : Buffers) : List Bytes → List SseEvent × Buffers
  | [] => ([], b)
  | line :: lines => prepend (b.read line).1 ((b.read line).2.readAll lines)

/-- The lines of an event up to the one that makes it too large, from so many bytes on. -/
def admitAll (limit : Nat) :
    Nat → Buffers → List (Bytes × Nat) → List SseEvent × Option (Nat × Buffers)
  | used, b, [] => ([], some (used, b))
  | used, b, (line, consumed) :: more =>
      if line = [] then prepend (b.read line).1 (admitAll limit 0 (b.read line).2 more)
      else if limit < used + consumed then ([], none)
      else prepend (b.read line).1 (admitAll limit (used + consumed) (b.read line).2 more)

theorem Buffers.readAll_append (b : Buffers) (lines more : List Bytes) :
    b.readAll (lines ++ more) = prepend (b.readAll lines).1 ((b.readAll lines).2.readAll more) := by
  induction lines generalizing b with
  | nil => rfl
  | cons line lines ih =>
      rw [List.cons_append, readAll, readAll, ih, prepend_prepend]
      rfl

/-- What is admitted is read as if there were no limit. -/
theorem readAll_of_admit {limit used used' : Nat} {b b' : Buffers} {lines : List (Bytes × Nat)}
    {events : List SseEvent} (admitted : admitAll limit used b lines = (events, some (used', b'))) :
    b.readAll (lines.map Prod.fst) = (events, b') := by
  induction lines generalizing used b events with
  | nil =>
      cases admitted
      rfl
  | cons entry lines ih =>
      obtain ⟨line, consumed⟩ := entry
      rw [admitAll] at admitted
      rw [List.map_cons, Buffers.readAll]
      split at admitted
      · obtain ⟨rfl, rest⟩ := Prod.mk.injEq .. ▸ admitted
        rw [ih (Prod.ext rfl rest)]
        rfl
      split at admitted
      · cases admitted
      · obtain ⟨rfl, rest⟩ := Prod.mk.injEq .. ▸ admitted
        rw [ih (Prod.ext rfl rest)]
        rfl

namespace SseDecoder

theorem dispatch_eq (d : SseDecoder) : d.dispatch =
    { d with
      toBuffers := (d.toBuffers.read []).2
      ready := d.ready ++ (d.toBuffers.read []).1 } := by
  by_cases empty : d.data = []
  · simp [Buffers.read, takeLine, dispatch, new, empty]
  · simp [Buffers.read, takeLine, dispatch, new, empty]

theorem handleField_eq (d : SseDecoder) (b : Buffers) (same : d.toBuffers = b)
    (name value : Bytes) :
    d.handleField name value =
      { d with
        toBuffers := (handleField { new 0 with toBuffers := b } name value).toBuffers
        ready := d.ready ++ (handleField { new 0 with toBuffers := b } name value).ready } := by
  subst same
  unfold handleField
  split
  · simp [new]
  split
  · simp [new]
  split
  · split
    · simp [new]
    · simp [new]
  split
  · simp [new]
  · simp [new]

/-- A line reads the buffers and writes them, and adds to what is ready; nothing else. -/
theorem takeLine_eq (d : SseDecoder) (line : Bytes) : d.takeLine line =
    { d with
      toBuffers := (d.toBuffers.read line).2
      ready := d.ready ++ (d.toBuffers.read line).1 } := by
  by_cases blank : line = []
  · subst blank
    rw [takeLine, if_pos rfl]
    exact dispatch_eq d
  · simp only [Buffers.read, takeLine, if_neg blank]
    unfold handleLine
    split
    · simp [new]
    · exact handleField_eq d _ rfl _ _

/-- A decoder that has taken the lines of its splitter. -/
def taken (d : SseDecoder) (lines : LineSplitter) (events : List SseEvent)
    (r : Nat × Buffers) : SseDecoder :=
  { d with toBuffers := r.2, lines, eventBytes := r.1, ready := d.ready ++ events }

/-- How the taking of lines went. -/
def Took (d : SseDecoder) (lines : LineSplitter) (r : List SseEvent × Option (Nat × Buffers))
    (out : Except SseError Unit × SseDecoder) : Prop :=
  match r.2 with
  | some after => out = (.ok (), d.taken lines r.1 after)
  | none => out.1 = .error (.eventTooLarge d.maxEventSize) ∧ out.2.ready = d.ready ++ r.1

theorem pushLines_admit {fuel : Nat} {d : SseDecoder} (enough : d.lines.buf.length ≤ fuel) :
    d.Took d.lines.drain.2 (admitAll d.maxEventSize d.eventBytes d.toBuffers d.lines.drain.1)
      (pushLines fuel d) := by
  induction fuel generalizing d with
  | zero =>
      have empty : d.lines.buf = [] := List.length_eq_zero_iff.mp (Nat.le_zero.mp enough)
      rw [LineSplitter.drain_none (LineSplitter.nextLine_plain (empty ▸ plain_nil))]
      simp [Took, admitAll, pushLines, taken]
  | succ fuel ih =>
      cases next : d.lines.nextLine with
      | none =>
          rw [LineSplitter.drain_none next, pushLines, next]
          simp [Took, admitAll, taken]
      | some r =>
          obtain ⟨⟨line, consumed⟩, lines⟩ := r
          have shorter := LineSplitter.nextLine_shorter next
          rw [LineSplitter.drain_some next, pushLines, next]
          dsimp only [prepend, List.singleton_append]
          by_cases blank : line = []
          · subst blank
            rw [admitAll, if_pos rfl, if_pos rfl, dispatch_eq]
            have rest := ih (d := { d with
              toBuffers := (d.toBuffers.read []).2
              lines
              eventBytes := 0
              ready := d.ready ++ (d.toBuffers.read []).1 }) (by dsimp only; omega)
            simpa [Took, taken, prepend] using rest
          · rw [admitAll, if_neg blank, if_neg blank]
            by_cases large : d.maxEventSize < d.eventBytes + consumed
            · rw [if_pos large, if_pos large]
              simp [Took]
            · have line_eq :=
                takeLine_eq { d with lines, eventBytes := d.eventBytes + consumed } line
              rw [takeLine, if_neg blank] at line_eq
              rw [if_neg large, if_neg large, line_eq]
              have rest := ih (d := { d with
                toBuffers := (d.toBuffers.read line).2
                lines
                eventBytes := d.eventBytes + consumed
                ready := d.ready ++ (d.toBuffers.read line).1 }) (by dsimp only; omega)
              simpa [Took, taken, prepend] using rest

/-- The decoder behind a chunk that it accepted. -/
def fed (d : SseDecoder) (chunk : Bytes) (after : Nat × Buffers) : SseDecoder :=
  { d with
    toBuffers := after.2, lines := (d.lines.push chunk).drain.2, eventBytes := after.1 }

/-- What the lines of a chunk come to. -/
def admitted (d : SseDecoder) (chunk : Bytes) : List SseEvent × Option (Nat × Buffers) :=
  admitAll d.maxEventSize d.eventBytes d.toBuffers (d.lines.push chunk).drain.1

theorem run_cons {d : SseDecoder} (idle : d.ready = []) (chunk : Bytes) (chunks : List Bytes) :
    run d (chunk :: chunks) =
      match (d.admitted chunk).2 with
      | none => ((d.admitted chunk).1, .error (.eventTooLarge d.maxEventSize))
      | some after =>
          if d.maxEventSize < after.1 + (d.fed chunk after).lines.bufferedLen then
            ((d.admitted chunk).1, .error (.eventTooLarge d.maxEventSize))
          else prepend (d.admitted chunk).1 (run (d.fed chunk after) chunks) := by
  have took := pushLines_admit (d := { d with lines := d.lines.push chunk }) le_rfl
  unfold Took at took
  change match (d.admitted chunk).2 with
    | some after => _ = (Except.ok (), taken _ _ (d.admitted chunk).1 after)
    | none => _ ∧ _ = d.ready ++ (d.admitted chunk).1 at took
  rw [run, push]
  cases said : (d.admitted chunk).2 with
  | none =>
      rw [said] at took
      obtain ⟨verdict, ready⟩ := took
      generalize pushLines _ _ = out at verdict ready
      obtain ⟨error, out⟩ := out
      dsimp only at verdict ready
      subst verdict
      obtain ⟨b, lines, limit, used, all⟩ := out
      dsimp only at ready ⊢
      rw [nextAll_eq, ready, idle, List.nil_append]
  | some after =>
      rw [said] at took
      dsimp only at took ⊢
      rw [took]
      dsimp only [taken]
      by_cases large : d.maxEventSize < after.1 + (d.lines.push chunk).drain.2.bufferedLen
      · simp only [if_pos large]
        rw [idle, List.nil_append, nextAll_eq]
        exact (if_pos large).symm
      · simp only [if_neg large]
        rw [idle, List.nil_append, nextAll_eq]
        refine Eq.trans ?_ (if_neg large).symm
        rw [fed, idle]

theorem lines_entries (carried : Nat) (tokens : List Token) :
    (entries carried tokens).1.map Prod.fst = tokens.filterMap LineToken.line? := by
  fun_induction entries carried tokens with
  | case1 => rfl
  | case2 carried tokens ih => exact ih
  | case3 carried content tokens ih => exact congrArg (content :: ·) ih
  | case4 carried content tokens _ ih => exact congrArg (content :: ·) ih

/-- The lines of a stream that have ended. -/
def linesOf (stream : Bytes) : List Bytes := (scanned stream).1.filterMap LineToken.line?

/-- Accepted chunks are read line by line, and the lines are those of the stream. -/
theorem run_accepted {d d' : SseDecoder} {stream : Bytes} {chunks : List Bytes}
    {events : List SseEvent} (idle : d.ready = []) (reads : d.lines.Reads stream)
    (accepted : run d chunks = (events, .ok d')) :
    d'.lines.Reads (stream ++ chunks.flatten) ∧
      ∃ lines, linesOf (stream ++ chunks.flatten) = linesOf stream ++ lines ∧
        d.toBuffers.readAll lines = (events, d'.toBuffers) := by
  induction chunks generalizing d stream events with
  | nil =>
      cases accepted
      rw [List.flatten_nil, List.append_nil]
      exact ⟨reads, [], (List.append_nil _).symm, rfl⟩
  | cons chunk chunks ih =>
      rw [run_cons idle] at accepted
      obtain ⟨fresh, whole, taken, -, after_reads⟩ := LineSplitter.push_reads reads chunk
      cases said : (d.admitted chunk).2 with
      | none =>
          rw [said] at accepted
          cases accepted
      | some after =>
          rw [said] at accepted
          dsimp only at accepted
          split at accepted
          · cases accepted
          · obtain ⟨rfl, rest⟩ := Prod.mk.injEq .. ▸ accepted
            obtain ⟨final, lines, same, read⟩ :=
              ih (d := d.fed chunk after) idle after_reads (Prod.ext rfl rest)
            rw [List.flatten_cons, ← List.append_assoc]
            refine ⟨final, fresh.filterMap LineToken.line? ++ lines, ?_, ?_⟩
            · rw [same, linesOf, whole, List.filterMap_append, List.append_assoc]
              rfl
            · have first : d.toBuffers.readAll (fresh.filterMap LineToken.line?) =
                  ((d.admitted chunk).1, after.2) := by
                rw [← lines_entries d.lines.carriedTerminator, ← taken]
                exact readAll_of_admit (Prod.ext rfl said)
              rw [Buffers.readAll_append, first]
              exact congrArg (prepend (d.admitted chunk).1) read

end SseDecoder
end HClient.Sse
