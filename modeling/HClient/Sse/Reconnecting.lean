import HClient.Native.Error
import HClient.Sse.Decoder

/-!
# A stream that connects again

The last event id outlives the decoder: it is taken from it when a connection ends, and given to
the next. The decoder sets it at the line that names it, before the blank line that would send the
block off.
-/
namespace HClient.Sse

open Native (ErrorKind)

/-! ## One connection -/

structure SseStream where
  decoder : SseDecoder
  fatal : Option ErrorKind
  done : Bool
  deriving DecidableEq, Repr

/-- What `next` returns. -/
abbrev Returned := Option (Except ErrorKind SseEvent)

/-- Once round the loop of `next`, when the body would answer so; it returns, or goes round
again. -/
def SseStream.turn (s : SseStream) (chunk : Option (Except ErrorKind Bytes)) :
    SseStream × Option Returned :=
  match s.decoder.next with
  | (some event, decoder) => ({ s with decoder }, some (some (.ok event)))
  | (none, _) =>
      match s.fatal with
      | some e => ({ s with fatal := none }, some (some (.error e)))
      | none =>
          if s.done then (s, some none)
          else
            match chunk with
            | some (.ok chunk) =>
                match s.decoder.push chunk with
                | (.error _, decoder) => ({ decoder, done := true, fatal := some .decode }, none)
                | (.ok (), decoder) => ({ s with decoder }, none)
            | some (.error e) => ({ s with done := true, fatal := some e }, none)
            | none => ({ s with done := true }, none)

def SseStream.lastEventId (s : SseStream) : Option Text := s.decoder.lastEventId

def isRetryable : ErrorKind → Bool
  | .decode | .status | .unsupported | .uri | .cancelled | .redirect => false
  | _ => true

/-! ## Connections one after another -/

inductive ReconnectState where
  | live (inner : SseStream)
  | disconnected
  | terminated
  deriving DecidableEq, Repr

structure ReconnectingSseStream where
  maxEventSize : Nat
  cachedLastEventId : Option Text
  attempt : Nat
  serverRetry : Option Nat
  state : ReconnectState
  deriving DecidableEq, Repr

/-- What is answered to whatever is awaited: by the body, by the backoff for the server's own
retry time and an attempt, and by the client for a request with or without a `Last-Event-ID`. -/
structure World where
  chunk : Option (Except ErrorKind Bytes)
  delay : Option Nat → Nat → Option Nat
  execute : Option HeaderValue → Option ErrorKind

/-- A header is sent for an id that is not empty. -/
def lastEventIdHeader (lastEventId : Option Text) : Except ErrorKind (Option HeaderValue) :=
  match lastEventId with
  | none => .ok none
  | some id =>
      if id = [] then .ok none
      else
        match HeaderValue.fromStr id with
        | some value => .ok (some value)
        | none => .error .other

/-- `open`. -/
def openStream (w : World) (lastEventId : Option Text) (maxEventSize : Nat) :
    Except ErrorKind SseStream :=
  match lastEventIdHeader lastEventId with
  | .error e => .error e
  | .ok header =>
      match w.execute header with
      | some e => .error e
      | none =>
          .ok
            { decoder := .newWithLastEventId maxEventSize lastEventId
              fatal := none
              done := false }

/-- What a turn lets be seen: the id that a connection was asked for with, and what was
returned. -/
structure Seen where
  asked : Option (Option Text)
  returned : Option Returned

def u32Max : Nat := 2 ^ 32 - 1

namespace ReconnectingSseStream

/-- The stream as `connect` leaves it. -/
def connect (maxEventSize : Nat) : ReconnectingSseStream :=
  { maxEventSize, cachedLastEventId := none, attempt := 0, serverRetry := none
    state := .live
      { decoder := .newWithLastEventId maxEventSize none, fatal := none, done := false } }

def lastEventId (s : ReconnectingSseStream) : Option Text :=
  match s.state with
  | .live inner => inner.lastEventId
  | .disconnected => s.cachedLastEventId
  | .terminated => s.cachedLastEventId

/-- Once round the loop of `next`, or of the `next` it waits for. -/
def turn (s : ReconnectingSseStream) (w : World) : ReconnectingSseStream × Seen :=
  match s.state with
  | .terminated => (s, ⟨none, some none⟩)
  | .live inner =>
      match inner.turn w.chunk with
      | (inner, none) => ({ s with state := .live inner }, ⟨none, none⟩)
      | (inner, some (some (.ok event))) =>
          let serverRetry := match event with
            | .retry millis => some millis
            | _ => s.serverRetry
          ({ s with serverRetry, state := .live inner }, ⟨none, some (some (.ok event))⟩)
      | (inner, some (some (.error e))) =>
          let s := { s with cachedLastEventId := inner.lastEventId }
          if isRetryable e then ({ s with state := .disconnected }, ⟨none, none⟩)
          else ({ s with state := .terminated }, ⟨none, some (some (.error e))⟩)
      | (inner, some none) =>
          ({ s with cachedLastEventId := inner.lastEventId, state := .disconnected }, ⟨none, none⟩)
  | .disconnected =>
      match w.delay s.serverRetry s.attempt with
      | none => ({ s with state := .terminated }, ⟨none, some (some (.error .other))⟩)
      | some _ =>
          let s := { s with attempt := min (s.attempt + 1) u32Max }
          match openStream w s.cachedLastEventId s.maxEventSize with
          | .ok inner =>
              ({ s with attempt := 0, state := .live inner }, ⟨some s.cachedLastEventId, none⟩)
          | .error e =>
              if isRetryable e then (s, ⟨some s.cachedLastEventId, none⟩)
              else
                ({ s with state := .terminated },
                  ⟨some s.cachedLastEventId, some (some (.error e))⟩)

end ReconnectingSseStream

/-! ## The ids of a stream's blocks -/

/-- The id that a line names. -/
def idOf (line : Bytes) : Option Text :=
  if line.head? = some colon then none
  else if (SseDecoder.splitField line).1 = Bytes.ascii "id" ∧
      0 ∉ (SseDecoder.splitField line).2 then
    some (Bytes.fromUtf8Lossy (SseDecoder.splitField line).2)
  else none

/-- The last id that some lines name, or the one there was. -/
def idAfter (before : Option Text) (lines : List Bytes) : Option Text :=
  ((lines.filterMap idOf).getLast?).or before

/-- The lines behind the last blank one. -/
def cutOff (lines : List Bytes) : List Bytes := (lines.reverse.takeWhile (· ≠ [])).reverse

/-- The lines of the blocks that a blank line completes. -/
def completed (lines : List Bytes) : List Bytes := (lines.reverse.dropWhile (· ≠ [])).reverse

theorem completed_append_cutOff (lines : List Bytes) : completed lines ++ cutOff lines = lines := by
  rw [completed, cutOff, ← List.reverse_append, List.takeWhile_append_dropWhile,
    List.reverse_reverse]

theorem idAfter_append (before : Option Text) (lines more : List Bytes) :
    idAfter before (lines ++ more) = idAfter (idAfter before lines) more := by
  rw [idAfter, idAfter, idAfter, List.filterMap_append, List.getLast?_append, Option.or_assoc]

theorem idAfter_single (before : Option Text) (line : Bytes) :
    idAfter before [line] = (idOf line).or before := by
  cases named : idOf line with
  | none => simp [idAfter, named]
  | some id => simp [idAfter, named]

theorem dispatch_lastEventId (d : SseDecoder) : d.dispatch.lastEventId = d.lastEventId := by
  unfold SseDecoder.dispatch
  dsimp only
  split <;> rfl

theorem handleField_lastEventId (d : SseDecoder) (name value : Bytes) :
    (d.handleField name value).lastEventId =
      if name = Bytes.ascii "id" ∧ 0 ∉ value then some (Bytes.fromUtf8Lossy value)
      else d.lastEventId := by
  have data : Bytes.ascii "data" ≠ Bytes.ascii "id" := by decide +kernel
  have event : Bytes.ascii "event" ≠ Bytes.ascii "id" := by decide +kernel
  unfold SseDecoder.handleField
  split
  · rename_i same
    rw [if_neg fun both => data (same ▸ both.1)]
  split
  · rename_i same
    rw [if_neg fun both => event (same ▸ both.1)]
  split
  · rename_i named
    split
    · rename_i nul
      rw [if_neg fun both => both.2 nul]
    · rename_i clean
      rw [if_pos ⟨named, clean⟩]
  · rename_i other
    refine Eq.trans ?_ (if_neg fun both => other both.1).symm
    split <;> rfl

theorem read_lastEventId (b : Buffers) (line : Bytes) :
    (b.read line).2.lastEventId = (idOf line).or b.lastEventId := by
  unfold Buffers.read SseDecoder.takeLine
  dsimp only
  split
  · rename_i blank
    subst blank
    rw [dispatch_lastEventId]
    rfl
  · unfold SseDecoder.handleLine idOf
    split
    · rfl
    · dsimp only
      rw [handleField_lastEventId]
      split
      · rfl
      · rfl

theorem readAll_lastEventId (b : Buffers) (lines : List Bytes) :
    (b.readAll lines).2.lastEventId = idAfter b.lastEventId lines := by
  induction lines generalizing b with
  | nil => rfl
  | cons line lines ih =>
      rw [Buffers.readAll, prepend_snd, ih, read_lastEventId, ← idAfter_single,
        ← idAfter_append, List.singleton_append]

/-! ## What has been established -/

/-- A stream with what its server has sent: the id that the blocks of the connections before had
established, and the chunks of the last connection. -/
structure Watched where
  stream : ReconnectingSseStream
  before : Option Text
  chunks : List Bytes

namespace Watched

def lines (v : Watched) : List Bytes := SseDecoder.linesOf v.chunks.flatten

/-- The id of the blocks that are complete. -/
def established (v : Watched) : Option Text := idAfter v.before (completed v.lines)

/-- The block that was cut off names no id, or last the one that is established already. -/
def Repeats (v : Watched) : Prop :=
  ∀ id, ((cutOff v.lines).filterMap idOf).getLast? = some id → v.established = some id

def connect (maxEventSize : Nat) : Watched := ⟨.connect maxEventSize, none, []⟩

/-- The chunks that the body has given after a turn. -/
def heard (s : ReconnectingSseStream) (w : World) (chunks : List Bytes) : List Bytes :=
  match s.state, w.chunk with
  | .live inner, some (.ok chunk) =>
      if inner.decoder.ready = [] ∧ inner.fatal = none ∧ inner.done = false then chunks ++ [chunk]
      else chunks
  | _, _ => chunks

/-- A turn, and the next connection where one is made. -/
def turn (v : Watched) (w : World) : Watched × Seen :=
  let (stream, seen) := v.stream.turn w
  match v.stream.state, stream.state with
  | .disconnected, .live _ => (⟨stream, v.established, []⟩, seen)
  | _, _ => (⟨stream, v.before, heard v.stream w v.chunks⟩, seen)

/-- The ids that connections are asked for with, and what was established at each of them. -/
def asks (v : Watched) : List World → List (Watched × Option Text)
  | [] => []
  | w :: worlds => ((v.turn w).2.asked.map fun id => (v, id)).toList ++ (v.turn w).1.asks worlds

end Watched

/-! ## What a decoder knows in the middle of a connection -/

theorem push_accepted {d d' : SseDecoder} {stream chunk : Bytes} (idle : d.ready = [])
    (reads : d.lines.Reads stream) (pushed : d.push chunk = (.ok (), d')) :
    d'.lines.Reads (stream ++ chunk) ∧ ∃ lines,
      SseDecoder.linesOf (stream ++ chunk) = SseDecoder.linesOf stream ++ lines ∧
        d'.toBuffers = (d.toBuffers.readAll lines).2 := by
  obtain ⟨b, splitter, limit, used, ready⟩ := d'
  have accepted : d.run [chunk] = (ready ++ [], .ok ⟨b, splitter, limit, used, []⟩) := by
    rw [SseDecoder.run, pushed]
    dsimp only
    rw [SseDecoder.nextAll_eq]
    rfl
  have both := SseDecoder.run_accepted idle reads accepted
  rw [List.flatten_singleton] at both
  obtain ⟨final, lines, same, read⟩ := both
  exact ⟨final, lines, same, by rw [read]⟩

/-- What is known of a live connection that was asked for with some id: the decoder has read what
was heard, or has refused it and will end the stream. -/
def Hears (inner : SseStream) (lastEventId : Option Text) (chunks : List Bytes) : Prop :=
  (inner.done = true ∧ inner.fatal = some .decode) ∨
    (inner.decoder.lines.Reads chunks.flatten ∧ inner.lastEventId =
      idAfter lastEventId (SseDecoder.linesOf chunks.flatten))

theorem hears_new (maxEventSize : Nat) (lastEventId : Option Text) :
    Hears { decoder := .newWithLastEventId maxEventSize lastEventId, fatal := none, done := false }
      lastEventId [] := .inr ⟨LineSplitter.reads_new, rfl⟩

namespace Watched

theorem heard_busy {s : ReconnectingSseStream} {inner : SseStream} (live : s.state = .live inner)
    (w : World) (chunks : List Bytes)
    (busy : ¬ (inner.decoder.ready = [] ∧ inner.fatal = none ∧ inner.done = false)) :
    heard s w chunks = chunks := by
  unfold heard
  rw [live]
  split
  · rename_i same _
    cases same
    exact if_neg busy
  · rfl

theorem heard_idle {s : ReconnectingSseStream} {inner : SseStream} (live : s.state = .live inner)
    {w : World} (chunks : List Bytes)
    (idle : inner.decoder.ready = [] ∧ inner.fatal = none ∧ inner.done = false) :
    heard s w chunks =
      match w.chunk with
      | some (.ok chunk) => chunks ++ [chunk]
      | _ => chunks := by
  unfold heard
  rw [live]
  cases w.chunk with
  | none => rfl
  | some answer =>
      cases answer with
      | error e => rfl
      | ok chunk => exact if_pos idle

end Watched

theorem hears_pushed {inner : SseStream} {lastEventId : Option Text} {chunks : List Bytes}
    (reads : inner.decoder.lines.Reads chunks.flatten)
    (known : inner.lastEventId = idAfter lastEventId (SseDecoder.linesOf chunks.flatten))
    (idle : inner.decoder.ready = []) {chunk : Bytes} {d : SseDecoder}
    (pushed : inner.decoder.push chunk = (.ok (), d)) :
    Hears { inner with decoder := d } lastEventId (chunks ++ [chunk]) := by
  obtain ⟨final, lines, same, buffers⟩ := push_accepted idle reads pushed
  have whole : (chunks ++ [chunk]).flatten = chunks.flatten ++ chunk := by simp
  refine .inr ⟨by rw [whole]; exact final, ?_⟩
  rw [whole, same, idAfter_append, ← known]
  change d.toBuffers.lastEventId = _
  rw [buffers, readAll_lastEventId]
  rfl

/-- What a turn of one connection says about the id: it comes to an error or an end when it has
heard everything, or has refused it. -/
def TurnHears (lastEventId : Option Text) (chunks : List Bytes) :
    SseStream × Option Returned → Prop
  | (inner, none) => Hears inner lastEventId chunks
  | (inner, some (some (.ok _))) => Hears inner lastEventId chunks
  | (inner, some (some (.error e))) =>
      e = .decode ∨ inner.lastEventId = idAfter lastEventId (SseDecoder.linesOf chunks.flatten)
  | (inner, some none) =>
      inner.lastEventId = idAfter lastEventId (SseDecoder.linesOf chunks.flatten)

theorem hears_turn {inner : SseStream} {lastEventId : Option Text} {chunks : List Bytes}
    (hears : Hears inner lastEventId chunks) (w : World) {s : ReconnectingSseStream}
    (live : s.state = .live inner) :
    TurnHears lastEventId (Watched.heard s w chunks) (inner.turn w.chunk) := by
  unfold SseStream.turn
  cases ready : inner.decoder.ready with
  | cons event rest =>
      have taken : inner.decoder.next = (some event, { inner.decoder with ready := rest }) := by
        rw [SseDecoder.next, ready]
      rw [taken, Watched.heard_busy live w chunks fun idle => by rw [ready] at idle; cases idle.1]
      exact hears
  | nil =>
      have taken : inner.decoder.next = (none, inner.decoder) := by rw [SseDecoder.next, ready]
      rw [taken]
      dsimp only
      cases fatal : inner.fatal with
      | some e =>
          rw [Watched.heard_busy live w chunks fun idle => by rw [fatal] at idle; cases idle.2.1]
          rcases hears with ⟨-, refused⟩ | ⟨-, known⟩
          · exact .inl (Option.some.inj (fatal.symm.trans refused))
          · exact .inr known
      | none =>
          rcases hears with ⟨-, refused⟩ | ⟨reads, known⟩
          · rw [fatal] at refused
            cases refused
          · cases done : inner.done with
            | true =>
                rw [if_pos rfl, Watched.heard_busy live w chunks fun idle => by
                  rw [done] at idle
                  cases idle.2.2]
                exact known
            | false =>
                rw [if_neg Bool.false_ne_true, Watched.heard_idle live chunks ⟨ready, fatal, done⟩]
                cases w.chunk with
                | none => exact .inr ⟨reads, known⟩
                | some answer =>
                    cases answer with
                    | error e => exact .inr ⟨reads, known⟩
                    | ok chunk =>
                        dsimp only
                        cases pushed : inner.decoder.push chunk with
                        | mk verdict d =>
                            cases verdict with
                            | error e => exact .inl ⟨rfl, rfl⟩
                            | ok u =>
                                have heard := hears_pushed reads known ready pushed
                                rw [fatal, done] at heard
                                exact heard

/-! ## Runs -/

namespace Watched

/-- What came of the last connection, which was asked for with some id. -/
def Knows (v : Watched) (lastEventId : Option Text) : Prop :=
  match v.stream.state with
  | .live inner => Hears inner lastEventId v.chunks
  | .disconnected => v.stream.cachedLastEventId = idAfter lastEventId v.lines
  | .terminated => True

/-- Nothing is asked for but while disconnected, and then with the id that was kept. -/
def TurnKnows (v : Watched) (lastEventId : Option Text) (r : Watched × Seen) : Prop :=
  (r.2.asked = none ∧ r.1.before = v.before ∧ r.1.Knows lastEventId) ∨
    (r.2.asked = some (idAfter lastEventId v.lines) ∧
      (r.1.before = v.before ∧ r.1.Knows lastEventId ∨
        r.1.before = v.established ∧ r.1.Knows (idAfter lastEventId v.lines)))

theorem turn_live {v : Watched} {inner : SseStream} (live : v.stream.state = .live inner)
    {lastEventId : Option Text} (knows : v.Knows lastEventId) (w : World) :
    v.TurnKnows lastEventId (v.turn w) := by
  rw [Knows, live] at knows
  have hears := hears_turn knows w live
  unfold turn ReconnectingSseStream.turn
  rw [live]
  dsimp only
  revert hears
  cases inner.turn w.chunk with
  | mk inner returned =>
      intro hears
      cases returned with
      | none => exact .inl ⟨rfl, rfl, hears⟩
      | some returned =>
          cases returned with
          | none => exact .inl ⟨rfl, rfl, hears⟩
          | some answer =>
              cases answer with
              | ok event => exact .inl ⟨rfl, rfl, hears⟩
              | error e =>
                  dsimp only
                  by_cases again : isRetryable e = true
                  · rw [if_pos again]
                    refine .inl ⟨rfl, rfl, hears.resolve_left ?_⟩
                    rintro rfl
                    cases again
                  · rw [if_neg again]
                    exact .inl ⟨rfl, rfl, trivial⟩

theorem openStream_ok {w : World} {lastEventId : Option Text} {maxEventSize : Nat}
    {inner : SseStream} (opened : openStream w lastEventId maxEventSize = .ok inner) :
    inner = ⟨.newWithLastEventId maxEventSize lastEventId, none, false⟩ := by
  unfold openStream at opened
  split at opened
  · cases opened
  · split at opened
    · cases opened
    · cases opened
      rfl

theorem turn_disconnected {v : Watched} (apart : v.stream.state = .disconnected)
    {lastEventId : Option Text} (knows : v.Knows lastEventId) (w : World) :
    v.TurnKnows lastEventId (v.turn w) := by
  have kept := knows
  rw [Knows, apart] at kept
  dsimp only at kept
  unfold turn ReconnectingSseStream.turn
  rw [apart]
  dsimp only
  cases w.delay v.stream.serverRetry v.stream.attempt with
  | none => exact .inl ⟨rfl, rfl, trivial⟩
  | some delay =>
      dsimp only
      have still : heard v.stream w v.chunks = v.chunks := by
        unfold heard
        rw [apart]
      cases opened : openStream w v.stream.cachedLastEventId v.stream.maxEventSize with
      | ok inner =>
          refine .inr ⟨congrArg some kept, .inr ⟨rfl, ?_⟩⟩
          rw [openStream_ok opened, ← kept]
          exact hears_new _ _
      | error e =>
          dsimp only
          by_cases again : isRetryable e = true
          · rw [if_pos again]
            refine .inr ⟨congrArg some kept, .inl ⟨rfl, ?_⟩⟩
            change v.stream.cachedLastEventId =
              idAfter lastEventId (SseDecoder.linesOf (heard v.stream w v.chunks).flatten)
            rw [still]
            exact kept
          · rw [if_neg again]
            exact .inr ⟨congrArg some kept, .inl ⟨rfl, trivial⟩⟩

theorem turn_knows {v : Watched} {lastEventId : Option Text} (knows : v.Knows lastEventId)
    (w : World) : v.TurnKnows lastEventId (v.turn w) := by
  cases state : v.stream.state with
  | live inner => exact turn_live state knows w
  | disconnected => exact turn_disconnected state knows w
  | terminated =>
      unfold turn ReconnectingSseStream.turn
      rw [state]
      refine .inl ⟨rfl, rfl, ?_⟩
      rw [Knows]
      dsimp only
      rw [state]
      trivial

theorem established_iff {v : Watched} : idAfter v.before v.lines = v.established ↔ v.Repeats := by
  have parts := completed_append_cutOff v.lines
  have whole : idAfter v.before v.lines = idAfter v.established (cutOff v.lines) := by
    rw [established, ← idAfter_append, parts]
  rw [whole, idAfter, Repeats]
  cases ((cutOff v.lines).filterMap idOf).getLast? with
  | none => simp
  | some id => simp [eq_comm]

theorem asks_iff (v : Watched) (knows : v.Knows v.before) (worlds : List World) :
    (∀ p ∈ v.asks worlds, p.2 = p.1.established) ↔ ∀ p ∈ v.asks worlds, p.1.Repeats := by
  induction worlds generalizing v with
  | nil => simp [asks]
  | cons w worlds ih =>
      rw [asks, List.forall_mem_append, List.forall_mem_append]
      rcases turn_knows knows w with ⟨quiet, before, knows⟩ | ⟨asked, after⟩
      · rw [quiet]
        exact and_congr (by simp) (ih _ (by rw [before]; exact knows))
      · rw [asked]
        by_cases right : idAfter v.before v.lines = v.established
        · have repeats := established_iff.mp right
          refine and_congr (by simp [right, repeats]) (ih _ ?_)
          rcases after with ⟨before, knows⟩ | ⟨before, knows⟩
          · rw [before]
            exact knows
          · rw [before, ← right]
            exact knows
        · have changes : ¬ v.Repeats := fun repeats => right (established_iff.mpr repeats)
          simp [right, changes]

end Watched

/-- Every connection is asked for with the id of the blocks that were complete, just when no block
that was cut off had changed it. -/
theorem asked_established_iff (maxEventSize : Nat) (worlds : List World) :
    (∀ p ∈ (Watched.connect maxEventSize).asks worlds, p.2 = p.1.established) ↔
      ∀ p ∈ (Watched.connect maxEventSize).asks worlds, p.1.Repeats :=
  Watched.asks_iff (Watched.connect maxEventSize) (hears_new maxEventSize none) worlds

/-- A server that answers, and a body that does so in a way. -/
def answering (chunk : Option (Except ErrorKind Bytes)) : World :=
  { chunk, delay := fun _ _ => some 0, execute := fun _ => none }

/-- A block is cut off behind its id, and the next connection is asked for with that. -/
theorem cut_off_id_is_asked :
    ¬ ∀ p ∈ (Watched.connect 64).asks [answering (some (.ok (Bytes.ascii "id: 1\ndata: x\n"))),
        answering none, answering none, answering none], p.2 = p.1.established := by
  decide +kernel

end HClient.Sse
