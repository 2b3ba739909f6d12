import HClient.Core.Cuts
import HClient.Sse.Decoder

/-!
# What an event stream says

The interpretation of the decoded text, line by line. The decoder reads bytes and decodes the
values alone; it reports what the text says, with what an empty event field leaves open.
-/
namespace HClient.Sse

/-! ## The interpretation of a text -/

namespace Whatwg

inductive Event where
  | message (type data lastEventId : Text)
  | comment (text : Text)
  | retry (millis : Nat)
  deriving DecidableEq, Repr

structure Buffers where
  data : Text
  type : Text
  lastEventId : Text
  deriving DecidableEq, Repr

def stripSpace (value : Text) : Text := if value.head? = some ' ' then value.drop 1 else value

def number (digits : Text) : Nat :=
  digits.foldl (fun n c => n * 10 + (c.toNat - '0'.toNat)) 0

/-- A time that no counter holds is the largest that one does. -/
def process (b : Buffers) (field value : Text) : List Event × Buffers :=
  if field = "data".toList then ([], { b with data := b.data ++ value ++ ['\n'] })
  else if field = "event".toList then ([], { b with type := value })
  else if field = "id".toList then
    if Char.ofNat 0 ∈ value then ([], b) else ([], { b with lastEventId := value })
  else if field = "retry".toList ∧ value ≠ [] ∧ value.all Text.isAsciiDigit then
    ([.retry (min (number value) u64Max)], b)
  else ([], b)

def dispatch (b : Buffers) : List Event × Buffers :=
  if b.data = [] then ([], { b with type := [] })
  else
    let type := if b.type = [] then "message".toList else b.type
    let data := if b.data.getLast? = some '\n' then b.data.dropLast else b.data
    ([.message type data b.lastEventId], { b with data := [], type := [] })

def interpretLine (b : Buffers) (line : Text) : List Event × Buffers :=
  if line = [] then dispatch b
  else if line.head? = some ':' then ([.comment (stripSpace (line.drop 1))], b)
  else
    match Text.splitOnce ':' line with
    | some (field, value) => process b field (stripSpace value)
    | none => process b line []

def interpretLines (b : Buffers) : List Text → List Event × Buffers
  | [] => ([], b)
  | line :: lines =>
      prepend (interpretLine b line).1 (interpretLines (interpretLine b line).2 lines)

/-- A byte order mark is taken off before anything is decoded. -/
def decode (stream : Bytes) : Text := Bytes.fromUtf8Lossy (unmarked stream)

/-- The events of a stream, for a source that had some last event id. -/
def interpret (lastEventId : Text) (stream : Bytes) : List Event :=
  (interpretLines ⟨[], [], lastEventId⟩ (LineScan.linesOf '\r' '\n' (decode stream))).1

end Whatwg

/-! ## Lines of the text and lines of the bytes -/

theorem lines_plain {bytes : Bytes} (plain : Plain bytes) : LineScan.linesOf cr lf bytes = [] := by
  rw [LineScan.linesOf, LineScan.run_plain plain]
  rfl

theorem lossy_plain {bytes : Bytes} (plain : Plain bytes) :
    LineScan.Plain '\r' '\n' (Bytes.fromUtf8Lossy bytes) := by
  intro c mem
  constructor
  · rintro rfl
    exact (plain lf ((Bytes.asciiChar_mem_fromUtf8Lossy (b := lf) (by decide) bytes).mp mem)).1 rfl
  · rintro rfl
    exact (plain cr ((Bytes.asciiChar_mem_fromUtf8Lossy (b := cr) (by decide) bytes).mp mem)).2 rfl

/-- Decoding a stream and cutting it into lines may be done in either order. -/
theorem lines_lossy (bytes : Bytes) : LineScan.linesOf '\r' '\n' (Bytes.fromUtf8Lossy bytes) =
    (LineScan.linesOf cr lf bytes).map Bytes.fromUtf8Lossy := by
  induction len : bytes.length using Nat.strong_induction_on generalizing bytes with
  | _ n ih =>
      subst len
      rcases LineSplitter.plain_or_line bytes with plain | ⟨content, b, behind, rfl, plain, ends⟩
      · rw [LineScan.linesOf, LineScan.run_plain (lossy_plain plain), lines_plain plain]
        rfl
      · have ascii : Bytes.IsAscii b := by
          rcases ends with rfl | rfl <;> decide
        have shorter : behind.length < (content ++ b :: behind).length := by
          rw [List.length_append, List.length_cons]
          omega
        rw [Bytes.fromUtf8Lossy_append ascii, LineScan.linesOf, LineScan.linesOf,
          LineScan.run_line (lossy_plain plain), LineScan.run_line plain]
        rcases ends with rfl | rfl
        · exact congrArg (Bytes.fromUtf8Lossy content :: ·) (ih _ shorter behind rfl)
        · refine congrArg (Bytes.fromUtf8Lossy content :: ·) ?_
          change (LineScan.run '\r' '\n' .returned (Bytes.fromUtf8Lossy behind)).1.filterMap _ =
            ((LineScan.run cr lf .returned behind).1.filterMap _).map _
          cases behind with
          | nil => rfl
          | cons b more =>
              by_cases feed : b = lf
              · subst feed
                have decoded :
                    Bytes.fromUtf8Lossy (lf :: more) = '\n' :: Bytes.fromUtf8Lossy more :=
                  Bytes.fromUtf8Lossy_cons_ascii (by decide) more
                rw [decoded, LineScan.run_returned_feed, LineScan.run_returned_feed]
                exact ih _ (Nat.lt_of_succ_lt shorter) more rfl
              · rw [LineScan.run_returned feed, Bytes.fromUtf8Lossy_cons, LineScan.run_returned,
                  ← Bytes.fromUtf8Lossy_cons]
                · exact ih _ shorter (b :: more) rfl
                · exact fun same => feed ((Bytes.firstChar_eq_asciiChar (a := lf) (by decide) b
                    more).mp same)

/-! ## A line of bytes and its text -/

theorem lossy_stripSpace (value : Bytes) :
    Bytes.fromUtf8Lossy (stripSpace value) = Whatwg.stripSpace (Bytes.fromUtf8Lossy value) := by
  have first := Bytes.head_fromUtf8Lossy (a := 32) (by decide) value
  change _ = some ' ' ↔ _ at first
  unfold stripSpace Whatwg.stripSpace
  by_cases space : value.head? = some 32
  · rw [if_pos space, if_pos (first.mpr space)]
    cases value with
    | nil => rfl
    | cons b value =>
        cases space
        rw [Bytes.fromUtf8Lossy_cons_ascii (by decide)]
        rfl
  · rw [if_neg space, if_neg (mt first.mp space)]

/-- A field is cut at the same colon. -/
theorem splitOnce_lossy (line : Bytes) :
    (Text.splitOnce ':' (Bytes.fromUtf8Lossy line) = none ∧
        SseDecoder.splitField line = (line, [])) ∨
      ∃ value, Text.splitOnce ':' (Bytes.fromUtf8Lossy line) =
          some (Bytes.fromUtf8Lossy (SseDecoder.splitField line).1, Bytes.fromUtf8Lossy value) ∧
        (SseDecoder.splitField line).2 = stripSpace value := by
  have whole := List.takeWhile_append_dropWhile (p := (· != colon)) (l := line)
  have clean : colon ∉ line.takeWhile (· != colon) := by
    intro mem
    simpa using List.mem_takeWhile_imp mem
  have text_clean : ':' ∉ Bytes.fromUtf8Lossy (line.takeWhile (· != colon)) :=
    fun mem => clean ((Bytes.asciiChar_mem_fromUtf8Lossy (b := colon) (by decide) _).mp mem)
  unfold SseDecoder.splitField
  cases left : line.dropWhile (· != colon) with
  | nil =>
      rw [left, List.append_nil] at whole
      rw [whole] at text_clean
      exact .inl ⟨Text.splitOnce_none text_clean, rfl⟩
  | cons b value =>
      have stops := List.head_dropWhile_not (· != colon) (l := line) (by simp [left])
      simp only [left, List.head_cons, bne_eq_false_iff_eq] at stops
      subst stops
      rw [left] at whole
      have text : Bytes.fromUtf8Lossy line =
          Bytes.fromUtf8Lossy (line.takeWhile (· != colon)) ++
            ':' :: Bytes.fromUtf8Lossy value := by
        conv_lhs => rw [← whole]
        exact Bytes.fromUtf8Lossy_append (by decide) _ _
      refine .inr ⟨value, ?_, rfl⟩
      rw [text, Text.splitOnce_append text_clean]

/-- A name of a field is its own text and no other's. -/
theorem lossy_eq_name (field : Bytes) (name : String)
    (ascii : ∀ b ∈ Bytes.ascii name, Bytes.IsAscii b)
    (text : name.toList = (Bytes.ascii name).map Bytes.asciiChar) :
    Bytes.fromUtf8Lossy field = name.toList ↔ field = Bytes.ascii name := by
  rw [text]
  exact Bytes.fromUtf8Lossy_eq_ascii ascii

theorem isDigit_isAscii {b : UInt8} (digit : Bytes.isDigit b = true) : Bytes.IsAscii b := by
  have all : ∀ n < 256, Bytes.isDigit (UInt8.ofNat n) = true → Bytes.IsAscii (UInt8.ofNat n) := by
    decide +kernel
  simpa using all b.toNat b.toNat_lt (by simpa using digit)

theorem isAsciiDigit_asciiChar {b : UInt8} (ascii : Bytes.IsAscii b) :
    Text.isAsciiDigit (Bytes.asciiChar b) = Bytes.isDigit b := by
  have all : ∀ n < 256, Bytes.IsAscii (UInt8.ofNat n) →
      Text.isAsciiDigit (Bytes.asciiChar (UInt8.ofNat n)) = Bytes.isDigit (UInt8.ofNat n) := by
    decide +kernel
  simpa using all b.toNat b.toNat_lt (by simpa using ascii)

theorem isAsciiDigit_low {c : Char} (digit : Text.isAsciiDigit c = true) : c.toNat < 128 := by
  have both := of_decide_eq_true digit
  have le := UInt32.le_iff_toNat_le.mp (Char.le_def.mp both.2)
  exact Nat.lt_of_le_of_lt le (by decide)

/-- The bytes are digits where their text is. -/
theorem all_digits_lossy (value : Bytes) :
    (Bytes.fromUtf8Lossy value).all Text.isAsciiDigit = value.all Bytes.isDigit := by
  induction value with
  | nil => rfl
  | cons b value ih =>
      by_cases ascii : Bytes.IsAscii b
      · rw [Bytes.fromUtf8Lossy_cons_ascii ascii, List.all_cons, List.all_cons, ih,
          isAsciiDigit_asciiChar ascii]
      · have no_byte : Bytes.isDigit b = false :=
          Bool.eq_false_iff.mpr fun digit => ascii (isDigit_isAscii digit)
        have no_char : Text.isAsciiDigit (Bytes.firstChar b value).1 = false :=
          Bool.eq_false_iff.mpr fun digit =>
            absurd (Bytes.high_firstChar ascii value) (Nat.not_le.mpr (isAsciiDigit_low digit))
        rw [Bytes.fromUtf8Lossy_cons, List.all_cons, List.all_cons, no_byte, no_char,
          Bool.false_and, Bool.false_and]

theorem parseU64_unsigned {c : Char} (unsigned : c ≠ '+') (ds : Text)
    (digits : (c :: ds).all Text.isAsciiDigit = true) : Text.parseU64 (c :: ds) =
      if 2 ^ 64 ≤ Whatwg.number (c :: ds) then none else some (Whatwg.number (c :: ds)) := by
  unfold Text.parseU64
  split
  · rename_i same
    cases same
    exact absurd rfl unsigned
  · simp only [digits, reduceCtorEq, not_true, false_or]
    rfl

theorem retryMillis_eq {value : Bytes} (some_digit : value ≠ [])
    (digits : value.all Bytes.isDigit = true) :
    retryMillis value = min (Whatwg.number (Bytes.fromUtf8Lossy value)) u64Max := by
  have each := List.all_eq_true.mp digits
  have text : Bytes.fromUtf8Lossy value = value.map Bytes.asciiChar :=
    (Bytes.fromUtf8Lossy_eq_ascii fun b mem => isDigit_isAscii (each b mem)).mpr rfl
  have all : (value.map Bytes.asciiChar).all Text.isAsciiDigit = true := by
    rw [← text, all_digits_lossy, digits]
  obtain ⟨b, value, rfl⟩ := List.exists_cons_of_ne_nil some_digit
  have unsigned : Bytes.asciiChar b ≠ '+' := by
    intro plus
    have digit := List.all_eq_true.mp all _ List.mem_cons_self
    rw [plus] at digit
    exact absurd digit (by decide)
  rw [retryMillis, text, List.map_cons, parseU64_unsigned unsigned _ all]
  split
  · rw [Option.getD_none, Nat.min_eq_right]
    unfold u64Max
    omega
  · rw [Option.getD_some, Nat.min_eq_left]
    unfold u64Max
    omega

/-! ## The decoder reads what the text says -/

/-- What an event of the decoder reports: no event type and an empty one are both a message. -/
def SseEvent.report : SseEvent → Whatwg.Event
  | .message event data id =>
      .message (if event.getD [] = [] then "message".toList else event.getD []) data (id.getD [])
  | .comment text => .comment text
  | .retry millis => .retry millis

def Buffers.view (b : Buffers) : Whatwg.Buffers :=
  ⟨b.data, b.eventType.getD [], b.lastEventId.getD []⟩

/-- Events as they are reported, and the buffers as they are seen. -/
def reported (r : List SseEvent × Buffers) : List Whatwg.Event × Whatwg.Buffers :=
  (r.1.map SseEvent.report, r.2.view)

/-- The events that a field adds, and the buffers behind it. -/
def Buffers.readField (b : Buffers) (name value : Bytes) : List SseEvent × Buffers :=
  let d := SseDecoder.handleField { SseDecoder.new 0 with toBuffers := b } name value
  (d.ready, d.toBuffers)

theorem process_view (b : Buffers) (name value : Bytes) :
    Whatwg.process b.view (Bytes.fromUtf8Lossy name) (Bytes.fromUtf8Lossy value) =
      reported (b.readField name value) := by
  have data := lossy_eq_name name "data" (by decide +kernel) (by decide +kernel)
  have event := lossy_eq_name name "event" (by decide +kernel) (by decide +kernel)
  have id := lossy_eq_name name "id" (by decide +kernel) (by decide +kernel)
  have retry := lossy_eq_name name "retry" (by decide +kernel) (by decide +kernel)
  have nul : Char.ofNat 0 ∈ Bytes.fromUtf8Lossy value ↔ 0 ∈ value :=
    Bytes.asciiChar_mem_fromUtf8Lossy (b := 0) (by decide) value
  have empty : Bytes.fromUtf8Lossy value = [] ↔ value = [] :=
    Bytes.fromUtf8Lossy_eq_ascii fun _ mem => absurd mem List.not_mem_nil
  unfold Whatwg.process Buffers.readField SseDecoder.handleField
  simp only [data, event, id, retry, nul, ne_eq, empty, all_digits_lossy]
  split
  · rfl
  split
  · rfl
  split
  · split <;> rfl
  split
  · rename_i digits
    rw [← retryMillis_eq digits.2.1 digits.2.2]
    rfl
  · rfl

theorem dispatch_view (b : Buffers) : Whatwg.dispatch b.view = reported (b.read []) := by
  by_cases empty : b.data = []
  · have nothing : b.read [] = ([], { b with eventType := none }) := by
      simp [Buffers.read, SseDecoder.takeLine, SseDecoder.dispatch, SseDecoder.new, empty]
    rw [nothing]
    exact if_pos empty
  · have sent : b.read [] = ([.message b.eventType
        (if b.data.getLast? = some '\n' then b.data.dropLast else b.data) b.lastEventId],
        { b with data := [], eventType := none }) := by
      simp [Buffers.read, SseDecoder.takeLine, SseDecoder.dispatch, SseDecoder.new, empty]
    rw [sent]
    exact if_neg empty

/-- A line of bytes is read as its text is interpreted. -/
theorem interpretLine_view (b : Buffers) (line : Bytes) :
    Whatwg.interpretLine b.view (Bytes.fromUtf8Lossy line) = reported (b.read line) := by
  cases line with
  | nil => exact dispatch_view b
  | cons first rest =>
      have some_char : Bytes.fromUtf8Lossy (first :: rest) ≠ [] := by
        rw [Bytes.fromUtf8Lossy_cons]
        exact List.cons_ne_nil _ _
      have comment := Bytes.head_fromUtf8Lossy (a := colon) (by decide) (first :: rest)
      change _ = some ':' ↔ _ at comment
      unfold Whatwg.interpretLine Buffers.read SseDecoder.takeLine SseDecoder.handleLine
      rw [if_neg some_char, if_neg (List.cons_ne_nil _ _)]
      by_cases begins : (first :: rest).head? = some colon
      · rw [if_pos (comment.mpr begins), if_pos begins]
        cases begins
        rw [Bytes.fromUtf8Lossy_cons_ascii (by decide)]
        simp only [List.drop_succ_cons, List.drop_zero, ← lossy_stripSpace]
        rfl
      · rw [if_neg (mt comment.mp begins), if_neg begins]
        rcases splitOnce_lossy (first :: rest) with ⟨none, whole⟩ | ⟨value, cut, stripped⟩
        · rw [none, whole]
          exact process_view b _ []
        · rw [cut]
          dsimp only
          rw [← lossy_stripSpace, ← stripped]
          exact process_view b _ _

theorem interpretLines_view (b : Buffers) (lines : List Bytes) :
    Whatwg.interpretLines b.view (lines.map Bytes.fromUtf8Lossy) = reported (b.readAll lines) := by
  induction lines generalizing b with
  | nil => rfl
  | cons line lines ih =>
      rw [List.map_cons, Whatwg.interpretLines, interpretLine_view, Buffers.readAll]
      have rest := ih (b.read line).2
      change Whatwg.interpretLines (reported (b.read line)).2 _ = _ at rest
      rw [rest]
      simp [reported, prepend]

/-- Whatever the chunks, the events of an accepted stream are those of its text. -/
theorem events_interpreted {limit : Nat} {lastEventId : Option Text} {chunks : List Bytes}
    {d : SseDecoder}
    (accepted : ((SseDecoder.newWithLastEventId limit lastEventId).run chunks).2 = .ok d) :
    ((SseDecoder.newWithLastEventId limit lastEventId).run chunks).1.map SseEvent.report =
      Whatwg.interpret (lastEventId.getD []) chunks.flatten := by
  obtain ⟨-, lines, whole, read⟩ :=
    SseDecoder.run_accepted rfl LineSplitter.reads_new (Prod.ext rfl accepted)
  rw [List.nil_append] at whole
  have all : SseDecoder.linesOf chunks.flatten = lines := by rw [whole]; rfl
  have text : LineScan.linesOf '\r' '\n' (Whatwg.decode chunks.flatten) =
      lines.map Bytes.fromUtf8Lossy := by
    rw [← all]
    exact lines_lossy (unmarked chunks.flatten)
  have interpreted := interpretLines_view ⟨[], none, lastEventId⟩ lines
  change Whatwg.interpretLines ⟨[], [], lastEventId.getD []⟩ _ = _ at interpreted
  rw [Whatwg.interpret, text, interpreted]
  exact congrArg (fun r => (reported r).1) read.symm

/-- Three chunks, with a return and its feed apart. -/
def keptAlive : List Bytes :=
  [Bytes.ascii ": hi\r", Bytes.ascii "\nid: 7\ndata: x\r", Bytes.ascii "\n\r\nretry: 5\n"]

theorem events_interpreted_cut :
    ((SseDecoder.newWithLastEventId 64 none).run keptAlive).1.map SseEvent.report =
      Whatwg.interpret [] keptAlive.flatten := by
  have accepted : ((SseDecoder.newWithLastEventId 64 none).run keptAlive).2.isOk = true := by
    decide +kernel
  cases verdict : ((SseDecoder.newWithLastEventId 64 none).run keptAlive).2 with
  | error e =>
      rw [verdict] at accepted
      cases accepted
  | ok d => exact events_interpreted verdict

/-- What an event reports where only an event field that is not there is a message. -/
def SseEvent.named : SseEvent → Whatwg.Event
  | .message event data id => .message (event.getD "message".toList) data (id.getD [])
  | .comment text => .comment text
  | .retry millis => .retry millis

/-- An empty event field is reported as one, and the text says a message. -/
theorem empty_event_field_is_named :
    ((SseDecoder.new 64).run [Bytes.ascii "event:\ndata: x\n\n"]).1.map SseEvent.named ≠
      Whatwg.interpret [] (Bytes.ascii "event:\ndata: x\n\n") := by decide +kernel

end HClient.Sse
