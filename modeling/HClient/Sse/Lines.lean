import HClient.Core.LineScan
import Mathlib.Data.List.TakeWhile

/-!
# The line splitter of an event stream

One leading mark is taken off and the rest is cut into lines, whatever the chunks it arrives in.
A feed that comes in the chunk after its return is counted for the line after it.
-/
namespace HClient.Sse

abbrev Bytes := List UInt8

def lf : UInt8 := 10

def cr : UInt8 := 13

def bom : Bytes := [0xEF, 0xBB, 0xBF]

/-- The buffer is what has not been handed out: the source keeps the lines before it too, up to
the next chunk. -/
structure LineSplitter where
  buf : Bytes
  bomSeen : Nat
  bomDone : Bool
  pendingCr : Bool
  carriedTerminator : Nat
  deriving DecidableEq, Repr

namespace LineSplitter

def new : LineSplitter :=
  { buf := [], bomSeen := 0, bomDone := false, pendingCr := false, carriedTerminator := 0 }

/-- Up to three bytes, decided once. -/
def resolveBom (s : LineSplitter) : Bytes → LineSplitter × Bytes
  | [] => (s, [])
  | b :: rest =>
      if s.bomDone then (s, b :: rest)
      else if bom[s.bomSeen]? = some b then
        resolveBom { s with bomSeen := s.bomSeen + 1, bomDone := s.bomSeen + 1 == 3 } rest
      else ({ s with buf := s.buf ++ bom.take s.bomSeen, bomDone := true }, b :: rest)

def pushByte (s : LineSplitter) (b : UInt8) : LineSplitter :=
  if s.pendingCr ∧ b = lf then
    { s with pendingCr := false, carriedTerminator := s.carriedTerminator + 1 }
  else { s with pendingCr := false, buf := s.buf ++ [b] }

def push (s : LineSplitter) (chunk : Bytes) : LineSplitter :=
  let (s, rest) := s.resolveBom chunk
  rest.foldl pushByte s

/-- Up to the first of these the bytes are one line. -/
def inLine (b : UInt8) : Bool := !(b == lf || b == cr)

/-- A line, how many bytes it took with its terminator, and the splitter behind it. -/
def nextLine (s : LineSplitter) : Option ((Bytes × Nat) × LineSplitter) :=
  let line := s.buf.takeWhile inLine
  let consumed := line.length + 1 + s.carriedTerminator
  match s.buf.dropWhile inLine with
  | [] => none
  | term :: behind =>
      let s := { s with buf := behind, carriedTerminator := 0 }
      if term = cr then
        match behind with
        | [] => some ((line, consumed), { s with pendingCr := true })
        | b :: more =>
            if b = lf then some ((line, consumed + 1), { s with buf := more })
            else some ((line, consumed), s)
      else some ((line, consumed), s)

def bufferedLen (s : LineSplitter) : Nat :=
  s.buf.length + (if s.bomDone then 0 else s.bomSeen) + s.carriedTerminator

/-- The bytes behind the last line, at the end of the input: the start of a mark is data there. -/
def takeUnterminated (s : LineSplitter) : Bytes × LineSplitter :=
  let buf := if s.bomDone then s.buf else s.buf ++ bom.take s.bomSeen
  (buf, { s with buf := [], bomDone := true, carriedTerminator := 0 })

def drainUpTo : Nat → LineSplitter → List (Bytes × Nat) × LineSplitter
  | 0, s => ([], s)
  | fuel + 1, s =>
      match s.nextLine with
      | none => ([], s)
      | some (line, s) => prepend [line] (drainUpTo fuel s)

/-- All the lines there are. -/
def drain (s : LineSplitter) : List (Bytes × Nat) × LineSplitter := drainUpTo s.buf.length s

end LineSplitter

/-! ## What a drained splitter holds -/

abbrev Token := LineToken UInt8
abbrev Scan := LineScan UInt8

def scan (s : Scan) (bytes : Bytes) : List Token × Scan := s.run cr lf bytes

abbrev Plain (bytes : Bytes) : Prop := LineScan.Plain cr lf bytes

theorem plain_nil : Plain [] := fun _ mem => absurd mem List.not_mem_nil

theorem scan_append (s : Scan) (bytes more : Bytes) :
    scan s (bytes ++ more) = prepend (scan s bytes).1 (scan (scan s bytes).2 more) :=
  LineScan.run_append s bytes more

theorem scan_plain {bytes : Bytes} (plain : Plain bytes) (content : Bytes) :
    scan (.inside content) bytes = ([], .inside (content ++ bytes)) :=
  LineScan.run_plain plain content

theorem scan_feed {content : Bytes} (plain : Plain content) (behind : Bytes) :
    scan (.inside []) (content ++ lf :: behind) =
      prepend [.line content] (scan (.inside []) behind) := LineScan.run_line plain [] lf behind

theorem scan_return {content : Bytes} (plain : Plain content) (behind : Bytes) :
    scan (.inside []) (content ++ cr :: behind) =
      prepend [.line content] (scan .returned behind) := LineScan.run_line plain [] cr behind

theorem scan_returned {b : UInt8} (other : b ≠ lf) (bytes : Bytes) :
    scan .returned (b :: bytes) = scan (.inside []) (b :: bytes) :=
  LineScan.run_returned other bytes

theorem scan_returned_feed (bytes : Bytes) :
    scan .returned (lf :: bytes) = prepend [.feed] (scan (.inside []) bytes) :=
  LineScan.run_returned_feed bytes

theorem scan_inside_head (content bytes : Bytes) :
    (scan (.inside content) bytes).1.head? ≠ some .feed := LineScan.run_inside_head content bytes

/-- The lines with the bytes each of them took, when so many were carried to the first, and how
many are carried on. -/
def entries : Nat → List Token → List (Bytes × Nat) × Nat
  | carried, [] => ([], carried)
  | carried, .feed :: tokens => entries (carried + 1) tokens
  | carried, .line content :: .feed :: tokens =>
      prepend [(content, content.length + 2 + carried)] (entries 0 tokens)
  | carried, .line content :: tokens =>
      prepend [(content, content.length + 1 + carried)] (entries 0 tokens)

theorem entries_line {tokens : List Token} (first : tokens.head? ≠ some .feed) (carried : Nat)
    (content : Bytes) : entries carried (.line content :: tokens) =
      prepend [(content, content.length + 1 + carried)] (entries 0 tokens) := by
  cases tokens with
  | nil => rfl
  | cons token tokens =>
      cases token with
      | line l => rfl
      | feed => exact absurd rfl first

namespace LineSplitter

/-- The splitter when it has handed out what it can: the start of a line, or a return that a feed
may follow. -/
def settled (s : LineSplitter) (held : Scan) (carried : Nat) : LineSplitter :=
  { s with
    buf := held.content
    pendingCr := decide (held = .returned)
    carriedTerminator := carried }

theorem inLine_iff {b : UInt8} : inLine b = true ↔ b ≠ lf ∧ b ≠ cr := by
  simp [inLine]

/-- A buffer holds no line, or a line and what stands behind it. -/
theorem plain_or_line (bytes : Bytes) :
    Plain bytes ∨ ∃ content b behind, bytes = content ++ b :: behind ∧ Plain content ∧
      (b = lf ∨ b = cr) := by
  have whole := List.takeWhile_append_dropWhile (p := inLine) (l := bytes)
  have kept : Plain (bytes.takeWhile inLine) := fun b mem =>
    inLine_iff.mp (List.mem_takeWhile_imp mem)
  cases left : bytes.dropWhile inLine with
  | nil => exact .inl fun b mem => inLine_iff.mp (List.dropWhile_eq_nil_iff.mp left b mem)
  | cons b behind =>
      refine .inr ⟨_, b, behind, (left ▸ whole).symm, kept, ?_⟩
      have ends := List.head_dropWhile_not inLine (l := bytes) (by simp [left])
      simp only [left, List.head_cons] at ends
      by_contra other
      exact Bool.eq_false_iff.mp ends (inLine_iff.mpr (not_or.mp other))

theorem nextLine_plain {s : LineSplitter} (plain : Plain s.buf) : s.nextLine = none := by
  have nothing : s.buf.dropWhile inLine = [] :=
    List.dropWhile_eq_nil_iff.mpr fun b mem => inLine_iff.mpr (plain b mem)
  simp only [nextLine, nothing]

theorem nextLine_line {s : LineSplitter} {content behind : Bytes} {b : UInt8}
    (plain : Plain content) (ends : b = lf ∨ b = cr) (buf : s.buf = content ++ b :: behind) :
    s.nextLine =
      if b = cr then
        match behind with
        | [] => some ((content, content.length + 1 + s.carriedTerminator),
            { s with buf := [], carriedTerminator := 0, pendingCr := true })
        | c :: more =>
            if c = lf then some ((content, content.length + 1 + s.carriedTerminator + 1),
              { s with buf := more, carriedTerminator := 0 })
            else some ((content, content.length + 1 + s.carriedTerminator),
              { s with buf := behind, carriedTerminator := 0 })
      else some ((content, content.length + 1 + s.carriedTerminator),
        { s with buf := behind, carriedTerminator := 0 }) := by
  have kept : ∀ c ∈ content, inLine c = true := fun c mem => inLine_iff.mpr (plain c mem)
  have stops : ¬ inLine b = true := by
    rw [inLine_iff, not_and_or, not_not, not_not]
    exact ends
  have taken : s.buf.takeWhile inLine = content := by
    rw [buf, List.takeWhile_append_of_pos kept, List.takeWhile_cons_of_neg stops, List.append_nil]
  have left : s.buf.dropWhile inLine = b :: behind := by
    rw [buf, List.dropWhile_append_of_pos kept, List.dropWhile_cons_of_neg stops]
  simp only [nextLine, taken, left]
  split
  · cases behind with
    | nil => rfl
    | cons c more => rfl
  · rfl

theorem nextLine_shorter {s s' : LineSplitter} {line : Bytes × Nat}
    (next : s.nextLine = some (line, s')) : s'.buf.length < s.buf.length := by
  rcases plain_or_line s.buf with plain | ⟨content, b, behind, buf, plain, ends⟩
  · rw [nextLine_plain plain] at next
    cases next
  · rw [nextLine_line plain ends buf] at next
    rw [buf, List.length_append, List.length_cons]
    split at next
    · split at next
      · cases next
        simp
      · split at next
        all_goals
          cases next
          simp only [List.length_cons]
          omega
    · cases next
      dsimp only
      omega

theorem drainUpTo_of_le {fuel : Nat} {s : LineSplitter} (enough : s.buf.length ≤ fuel) :
    drainUpTo fuel s = s.drain := by
  have steady : ∀ (m n : Nat) (s : LineSplitter), s.buf.length ≤ m → s.buf.length ≤ n →
      drainUpTo m s = drainUpTo n s := by
    intro m
    induction m with
    | zero =>
        intro n s small _
        have empty : s.buf = [] := List.length_eq_zero_iff.mp (Nat.le_zero.mp small)
        have waits : s.nextLine = none := nextLine_plain (empty ▸ plain_nil)
        cases n with
        | zero => rfl
        | succ n => simp only [drainUpTo, waits]
    | succ m ih =>
        intro n s small enough
        cases next : s.nextLine with
        | none => cases n <;> simp only [drainUpTo, next]
        | some r =>
            have shorter := nextLine_shorter next
            cases n with
            | zero => omega
            | succ n =>
                simp only [drainUpTo, next]
                rw [ih n _ (by omega) (by omega)]
  exact steady fuel _ s enough le_rfl

theorem drain_none {s : LineSplitter} (waits : s.nextLine = none) : s.drain = ([], s) := by
  rw [← drainUpTo_of_le (Nat.le_succ _)]
  simp only [drainUpTo, waits]

theorem drain_some {s s' : LineSplitter} {line : Bytes × Nat}
    (next : s.nextLine = some (line, s')) : s.drain = prepend [line] s'.drain := by
  have shorter := nextLine_shorter next
  rw [← drainUpTo_of_le (Nat.le_succ _)]
  simp only [drainUpTo, next]
  rw [drainUpTo_of_le (by omega)]

/-- What is drained from a buffer is what the scan finds in it. -/
theorem drain_eq {s : LineSplitter} (quiet : s.pendingCr = false) :
    s.drain = ((entries s.carriedTerminator (scan (.inside []) s.buf).1).1,
      s.settled (scan (.inside []) s.buf).2
        (entries s.carriedTerminator (scan (.inside []) s.buf).1).2) := by
  induction len : s.buf.length using Nat.strong_induction_on generalizing s with
  | _ n ih =>
      subst len
      rcases plain_or_line s.buf with plain | ⟨content, b, behind, buf, plain, ends⟩
      · rw [drain_none (nextLine_plain plain), scan_plain plain]
        simp [entries, settled, LineScan.content, ← quiet]
      · have next := nextLine_line plain ends buf
        have drained (rest : Bytes) (shorter : rest.length < s.buf.length) :
            drain { s with buf := rest, carriedTerminator := 0 } =
              ((entries 0 (scan (.inside []) rest).1).1,
                s.settled (scan (.inside []) rest).2 (entries 0 (scan (.inside []) rest).1).2) :=
          ih _ shorter (s := { s with buf := rest, carriedTerminator := 0 }) quiet rfl
        have shorter : behind.length < s.buf.length := by
          rw [buf, List.length_append, List.length_cons]
          omega
        rcases ends with rfl | rfl
        · rw [if_neg (by decide)] at next
          rw [drain_some next, drained _ shorter, buf, scan_feed plain, prepend_fst,
            List.singleton_append, entries_line (scan_inside_head _ _)]
          rfl
        · rw [if_pos rfl] at next
          rw [buf, scan_return plain]
          cases behind with
          | nil =>
              rw [drain_some next, drain_none (nextLine_plain plain_nil)]
              rfl
          | cons c more =>
              dsimp only at next
              by_cases feed : c = lf
              · subst feed
                rw [if_pos rfl] at next
                rw [drain_some next, drained _ (Nat.lt_of_succ_lt shorter), scan_returned_feed,
                  prepend_prepend, Nat.add_right_comm]
                rfl
              · rw [if_neg feed] at next
                rw [drain_some next, drained _ shorter, scan_returned feed, prepend_fst,
                  List.singleton_append, entries_line (scan_inside_head _ _)]
                rfl

theorem foldl_pushByte {s : LineSplitter} (quiet : s.pendingCr = false) (bytes : Bytes) :
    bytes.foldl pushByte s = { s with buf := s.buf ++ bytes } := by
  induction bytes generalizing s with
  | nil => rw [List.append_nil]; rfl
  | cons b bytes ih =>
      have one : pushByte s b = { s with buf := s.buf ++ [b] } := by
        rw [pushByte, if_neg fun both => by rw [quiet] at both; exact absurd both.1 (by decide),
          ← quiet]
      rw [List.foldl_cons, one, ih (by exact quiet), List.append_assoc]
      rfl

theorem drain_buffer (s : LineSplitter) (bytes : Bytes) (carried : Nat) :
    drain { s with buf := bytes, pendingCr := false, carriedTerminator := carried } =
      ((entries carried (scan (.inside []) bytes).1).1,
        s.settled (scan (.inside []) bytes).2 (entries carried (scan (.inside []) bytes).1).2) :=
  drain_eq rfl

/-- Bytes behind what a drained splitter holds. -/
theorem drain_foldl {held : Scan} (plain : Plain held.content) (s : LineSplitter) (carried : Nat)
    (bytes : Bytes) : (bytes.foldl pushByte (s.settled held carried)).drain =
      ((entries carried (scan held bytes).1).1,
        s.settled (scan held bytes).2 (entries carried (scan held bytes).1).2) := by
  cases held with
  | inside content =>
      have whole : scan (.inside []) (content ++ bytes) = scan (.inside content) bytes := by
        rw [scan_append, scan_plain (show Plain content from plain), prepend_nil]
        rfl
      have fed : bytes.foldl pushByte (s.settled (.inside content) carried) =
          { s with buf := content ++ bytes, pendingCr := false, carriedTerminator := carried } :=
        foldl_pushByte rfl bytes
      rw [fed, drain_buffer, whole]
  | returned =>
      cases bytes with
      | nil => exact drain_none (nextLine_plain plain_nil)
      | cons b bytes =>
          rw [List.foldl_cons]
          by_cases feed : b = lf
          · subst feed
            have fed : bytes.foldl pushByte (pushByte (s.settled .returned carried) lf) =
                { s with buf := bytes, pendingCr := false, carriedTerminator := carried + 1 } :=
              foldl_pushByte rfl bytes
            rw [fed, drain_buffer, scan_returned_feed]
            rfl
          · have first : pushByte (s.settled .returned carried) b =
                { s with buf := [b], pendingCr := false, carriedTerminator := carried } :=
              if_neg fun both => feed both.2
            have fed : bytes.foldl pushByte (pushByte (s.settled .returned carried) b) =
                { s with buf := b :: bytes, pendingCr := false, carriedTerminator := carried } := by
              rw [first, foldl_pushByte rfl]
              rfl
            rw [fed, drain_buffer, scan_returned feed]

end LineSplitter

/-! ## The mark in front -/

/-- A stream without the mark that it may begin with. -/
def unmarked (stream : Bytes) : Bytes := if bom.isPrefixOf stream then stream.drop 3 else stream

/-- Too short to say whether it begins with the mark. -/
def Undecided (stream : Bytes) : Prop := stream.length < 3 ∧ stream <+: bom

/-- What a whole stream is read as. -/
def scanned (stream : Bytes) : List Token × Scan := scan (.inside []) (unmarked stream)

theorem unmarked_of_marked {stream : Bytes} (marked : bom <+: stream) :
    unmarked stream = stream.drop 3 := if_pos (List.isPrefixOf_iff_prefix.mpr marked)

theorem unmarked_of_plain {stream : Bytes} (plain : ¬ bom <+: stream) :
    unmarked stream = stream := if_neg fun marked => plain (List.isPrefixOf_iff_prefix.mp marked)

theorem plain_bom : Plain bom := by
  unfold Plain LineScan.Plain
  decide +kernel

theorem scanned_undecided {stream : Bytes} (undecided : Undecided stream) :
    scanned stream = ([], .inside stream) := by
  have short : ¬ bom <+: stream := fun marked =>
    absurd marked.length_le (Nat.not_le.mpr undecided.1)
  rw [scanned, unmarked_of_plain short]
  exact scan_plain (fun b mem => plain_bom b (undecided.2.subset mem)) []

theorem not_undecided_append {stream : Bytes} (decided : ¬ Undecided stream) (more : Bytes) :
    ¬ Undecided (stream ++ more) := by
  rintro ⟨short, start⟩
  rw [List.length_append] at short
  exact decided ⟨by omega, (List.prefix_append stream more).trans start⟩

theorem unmarked_append {stream : Bytes} (decided : ¬ Undecided stream) (more : Bytes) :
    unmarked (stream ++ more) = unmarked stream ++ more := by
  by_cases marked : bom <+: stream
  · rw [unmarked_of_marked marked, unmarked_of_marked (marked.trans (List.prefix_append _ _)),
      List.drop_append_of_le_length (i := 3) marked.length_le]
  · rw [unmarked_of_plain marked, unmarked_of_plain]
    intro whole
    rcases Nat.lt_or_ge stream.length 3 with short | long
    · exact decided ⟨short,
        List.prefix_of_prefix_length_le (List.prefix_append stream more) whole (Nat.le_of_lt short)⟩
    · exact marked (List.prefix_of_prefix_length_le whole (List.prefix_append stream more) long)

theorem scanned_append {stream : Bytes} (decided : ¬ Undecided stream) (more : Bytes) :
    scanned (stream ++ more) = prepend (scanned stream).1 (scan (scanned stream).2 more) := by
  rw [scanned, unmarked_append decided, scan_append]
  rfl

/-- The tokens that more bytes add. -/
theorem scanned_extends (stream more : Bytes) :
    ∃ rest, (scanned (stream ++ more)).1 = (scanned stream).1 ++ rest := by
  by_cases waits : Undecided stream
  · exact ⟨_, by rw [scanned_undecided waits]; rfl⟩
  · exact ⟨_, by rw [scanned_append waits]; rfl⟩

theorem plain_scanned (stream : Bytes) : Plain (scanned stream).2.content :=
  LineScan.plain_run (s := .inside []) plain_nil (unmarked stream)

namespace LineSplitter

theorem resolveBom_done {s : LineSplitter} (done : s.bomDone = true) (chunk : Bytes) :
    s.resolveBom chunk = (s, chunk) := by
  cases chunk with
  | nil => rfl
  | cons b rest => rw [resolveBom, if_pos done]

/-- Nothing but the start of a mark has come. -/
def undecided (stream : Bytes) : LineSplitter := { new with bomSeen := stream.length }

/-- The mark is found, or what was taken for its start is the start of the first line. -/
theorem resolveBom_undecided {stream : Bytes} (waits : Undecided stream) (chunk : Bytes) :
    (Undecided (stream ++ chunk) ∧
        resolveBom (undecided stream) chunk = (undecided (stream ++ chunk), [])) ∨
      (¬ Undecided (stream ++ chunk) ∧ ∃ n held rest,
        resolveBom (undecided stream) chunk =
            ({ new with buf := held, bomSeen := n, bomDone := true }, rest) ∧
          Plain held ∧ held ++ rest = unmarked (stream ++ chunk)) := by
  induction chunk generalizing stream with
  | nil =>
      rw [List.append_nil]
      exact .inl ⟨waits, rfl⟩
  | cons b chunk ih =>
      obtain ⟨short, tail, whole⟩ := waits
      have ends : tail.length = 3 - stream.length := by
        have := congrArg List.length whole
        rw [List.length_append] at this
        change _ = 3 at this
        omega
      obtain ⟨c, tail, rfl⟩ := List.exists_cons_of_ne_nil (l := tail) fun nil => by
        rw [nil] at ends
        change 0 = _ at ends
        omega
      have here : bom[stream.length]? = some c := by
        rw [← whole, List.getElem?_append_right le_rfl, Nat.sub_self]
        rfl
      have going : ¬ (undecided stream).bomDone = true := Bool.false_ne_true
      by_cases same : c = b
      · subst same
        have step : resolveBom (undecided stream) (c :: chunk) =
            resolveBom { undecided stream with
              bomSeen := stream.length + 1, bomDone := stream.length + 1 == 3 } chunk := by
          rw [resolveBom, if_neg going,
            if_pos (show bom[(undecided stream).bomSeen]? = some c from here)]
          rfl
        rw [step, List.append_cons]
        have longer : (stream ++ [c]).length = stream.length + 1 := by simp
        have start : stream ++ [c] <+: bom := ⟨tail, by rw [← whole, List.append_assoc]; rfl⟩
        by_cases full : stream.length + 1 = 3
        · have marked : stream ++ [c] = bom := start.eq_of_length (by rw [longer, full]; rfl)
          rw [full, resolveBom_done rfl, marked]
          refine .inr ⟨fun still => ?_, _, [], chunk, rfl, plain_nil, ?_⟩
          · have := still.1
            rw [List.length_append] at this
            exact absurd this (by change ¬ 3 + _ < 3; omega)
          · rw [unmarked_of_marked (List.prefix_append _ _)]
            rfl
        · have more := @ih (stream ++ [c]) ⟨by omega, start⟩
          have unfinished : (stream.length + 1 == 3) = false := by simpa using full
          rw [unfinished]
          have state : undecided (stream ++ [c]) =
              { undecided stream with bomSeen := stream.length + 1, bomDone := false } := by
            rw [undecided, longer]
            rfl
          rw [← state]
          exact more
      · have other : ¬ bom <+: stream ++ b :: chunk := by
          rw [← whole, List.prefix_append_right_inj, List.cons_prefix_cons]
          exact fun both => same both.1
        have taken : bom.take stream.length = stream := by rw [← whole, List.take_left]
        have step : resolveBom (undecided stream) (b :: chunk) =
            ({ undecided stream with buf := stream, bomDone := true }, b :: chunk) := by
          rw [resolveBom, if_neg going, if_neg]
          · change ({ undecided stream with buf := bom.take stream.length, bomDone := true }, _) = _
            rw [taken]
          · change ¬ bom[stream.length]? = some b
            rw [here, Option.some_inj]
            exact same
        rw [step, unmarked_of_plain other]
        refine .inr ⟨fun still => ?_, _, stream, b :: chunk, rfl, ?_, rfl⟩
        · have start := still.2
          rw [← whole, List.prefix_append_right_inj, List.cons_prefix_cons] at start
          exact same start.1.symm
        · exact fun x mem => plain_bom x (whole ▸ List.mem_append_left _ mem)

/-- A drained splitter that has been given a stream. -/
def Reads (s : LineSplitter) (stream : Bytes) : Prop :=
  (Undecided stream ∧ s = undecided stream) ∨
    (¬ Undecided stream ∧ s.bomDone = true ∧
      s = s.settled (scanned stream).2 s.carriedTerminator)

theorem reads_new : Reads new [] := .inl ⟨⟨by decide, List.nil_prefix⟩, rfl⟩

theorem bufferedLen_reads {s : LineSplitter} {stream : Bytes} (reads : s.Reads stream) :
    s.bufferedLen = (scanned stream).2.content.length + s.carriedTerminator := by
  rcases reads with ⟨waits, rfl⟩ | ⟨_, done, settled⟩
  · rw [scanned_undecided waits]
    simp [bufferedLen, undecided, new, LineScan.content]
  · have buf : s.buf = (scanned stream).2.content := by rw [settled]; rfl
    rw [bufferedLen, if_pos done, buf]
    rfl

theorem takeUnterminated_reads {s : LineSplitter} {stream : Bytes} (reads : s.Reads stream) :
    s.takeUnterminated.1 = (scanned stream).2.content := by
  rcases reads with ⟨waits, rfl⟩ | ⟨_, done, settled⟩
  · obtain ⟨short, tail, whole⟩ := waits
    rw [scanned_undecided ⟨short, tail, whole⟩]
    change bom.take stream.length = stream
    rw [← whole, List.take_left]
  · rw [takeUnterminated, if_pos done, settled]
    rfl

/-- The lines of a chunk are those that the stream has with it and not without it. -/
theorem push_reads {s : LineSplitter} {stream : Bytes} (reads : s.Reads stream) (chunk : Bytes) :
    ∃ fresh, (scanned (stream ++ chunk)).1 = (scanned stream).1 ++ fresh ∧
      (s.push chunk).drain.1 = (entries s.carriedTerminator fresh).1 ∧
      (s.push chunk).drain.2.carriedTerminator = (entries s.carriedTerminator fresh).2 ∧
      (s.push chunk).drain.2.Reads (stream ++ chunk) := by
  rcases reads with ⟨waits, rfl⟩ | ⟨decided, done, settled⟩
  · rcases resolveBom_undecided waits chunk with
      ⟨still, same⟩ | ⟨decided, n, held, rest, resolved, plain, whole⟩
    · refine ⟨[], ?_, ?_⟩
      · rw [scanned_undecided waits, scanned_undecided still]
        rfl
      · have pushed : (undecided stream).push chunk = undecided (stream ++ chunk) := by
          rw [push, same]
          rfl
        rw [pushed, drain_none (nextLine_plain plain_nil)]
        exact ⟨rfl, rfl, .inl ⟨still, rfl⟩⟩
    · have fed : (undecided stream).push chunk =
          rest.foldl pushByte
            (settled { new with bomSeen := n, bomDone := true } (.inside held) 0) := by
        rw [push, resolved]
        rfl
      have read : scanned (stream ++ chunk) = scan (.inside held) rest := by
        rw [scanned, ← whole, scan_append, scan_plain plain, prepend_nil]
        rfl
      refine ⟨(scanned (stream ++ chunk)).1, ?_, ?_⟩
      · rw [scanned_undecided waits]
        rfl
      · rw [fed, drain_foldl (show Plain (.inside held : Scan).content from plain), read]
        exact ⟨rfl, rfl, .inr ⟨decided, rfl, by rw [read]; rfl⟩⟩
  · refine ⟨(scan (scanned stream).2 chunk).1, by rw [scanned_append decided]; rfl, ?_⟩
    have fed : s.push chunk =
        chunk.foldl pushByte (s.settled (scanned stream).2 s.carriedTerminator) := by
      rw [push, resolveBom_done done, ← settled]
    rw [fed, drain_foldl (plain_scanned stream)]
    refine ⟨rfl, rfl, .inr ⟨not_undecided_append decided chunk, done, ?_⟩⟩
    rw [scanned_append decided]
    rfl

end LineSplitter
end HClient.Sse
