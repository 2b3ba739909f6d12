import HClient.Sse.Decoder

/-!
# Where the chunks end

The feed of a return that was the last byte of a chunk is counted late: for the next line, for
the next event, or not at all. A stream on which that decides about no line is read alike however
it is cut.
-/
namespace HClient.Sse

/-- The bytes of the event so far, with every terminator in full. -/
structure Count where
  used : Nat
  /-- The line that has ended was blank. -/
  blank : Bool
  /-- The blank line before the event ended in a return and a feed. -/
  late : Bool
  deriving DecidableEq, Repr

namespace Count

def start : Count := ⟨0, false, false⟩

def endEvent : Count := ⟨0, true, false⟩

def line (c : Count) (content : Bytes) : Count := ⟨c.used + content.length + 1, false, c.late⟩

def feed (c : Count) : Count :=
  if c.blank then ⟨c.used, false, true⟩ else ⟨c.used + 1, false, c.late⟩

/-- The event is within the limit, and so it is with a byte that belongs to the one before. -/
def Fits (limit : Nat) (c : Count) : Prop :=
  c.used ≤ limit ∧ (c.late = true → c.used ≠ limit) ∧
    (c.blank = true → c.used = 0 ∧ c.late = false)

/-- What a decoder has counted, with what its splitter carries: a byte of the event before may be
among it. -/
def Balanced (c : Count) (eventBytes carried : Nat) : Prop :=
  ∃ spare, eventBytes + carried = c.used + spare ∧ spare ≤ 1 ∧ (spare = 1 → c.late = true)

end Count

/-- No line, and not what is left behind the last, makes an event too large by just the byte that
may be counted late. Behind a line that is too large anyway there is no more to say. -/
def OffEdge (limit : Nat) : Count → List Token → Nat → Prop
  | c, [], held => c.late = true → c.used + held ≠ limit
  | c, .feed :: tokens, held =>
      (c.blank = false → c.used ≠ limit ∧ (c.late = true → c.used + 1 ≠ limit)) ∧
        OffEdge limit c.feed tokens held
  | c, .line content :: tokens, held =>
      if content = [] then OffEdge limit .endEvent tokens held
      else (c.late = true → c.used + content.length + 1 ≠ limit) ∧
        (limit < c.used + content.length + 1 ∨ OffEdge limit (c.line content) tokens held)

def decideOffEdge (limit : Nat) :
    (c : Count) → (tokens : List Token) → (held : Nat) → Decidable (OffEdge limit c tokens held)
  | c, [], held => inferInstanceAs (Decidable (c.late = true → c.used + held ≠ limit))
  | c, .feed :: tokens, held =>
      have := decideOffEdge limit c.feed tokens held
      inferInstanceAs (Decidable (_ ∧ _))
  | c, .line content :: tokens, held =>
      have := decideOffEdge limit .endEvent tokens held
      have := decideOffEdge limit (c.line content) tokens held
      inferInstanceAs (Decidable (if content = [] then _ else _))

instance (limit : Nat) (c : Count) (tokens : List Token) (held : Nat) :
    Decidable (OffEdge limit c tokens held) := decideOffEdge limit c tokens held

/-- The events of some lines, when every return is counted as its line ends and every feed when
it comes. -/
def gauge (limit : Nat) : Count → Buffers → List Token → List SseEvent × Option (Count × Buffers)
  | c, b, [] => ([], some (c, b))
  | c, b, .feed :: tokens => gauge limit c.feed b tokens
  | c, b, .line content :: tokens =>
      if content = [] then
        prepend (b.read content).1 (gauge limit .endEvent (b.read content).2 tokens)
      else if limit < c.used + content.length + 1 then ([], none)
      else prepend (b.read content).1 (gauge limit (c.line content) (b.read content).2 tokens)

theorem gauge_append (limit : Nat) (c : Count) (b : Buffers) (tokens more : List Token) :
    gauge limit c b (tokens ++ more) =
      match (gauge limit c b tokens).2 with
      | none => ((gauge limit c b tokens).1, none)
      | some (c', b') => prepend (gauge limit c b tokens).1 (gauge limit c' b' more) := by
  induction tokens generalizing c b with
  | nil => rfl
  | cons token tokens ih =>
      rw [List.cons_append]
      cases token with
      | feed =>
          rw [gauge, gauge]
          exact ih _ _
      | line content =>
          rw [gauge, gauge]
          split
          · rw [ih, prepend_snd]
            split
            · rfl
            · rw [prepend_prepend]
              rfl
          split
          · rfl
          · rw [ih, prepend_snd]
            split
            · rfl
            · rw [prepend_prepend]
              rfl

namespace Count

theorem fits_start {limit : Nat} : start.Fits limit :=
  ⟨Nat.zero_le _, nofun, nofun⟩

theorem fits_endEvent {limit : Nat} : endEvent.Fits limit :=
  ⟨Nat.zero_le _, nofun, fun _ => ⟨rfl, rfl⟩⟩

theorem fits_line {limit : Nat} {c : Count} {content : Bytes}
    (small : ¬ limit < c.used + content.length + 1)
    (off : c.late = true → c.used + content.length + 1 ≠ limit) : (c.line content).Fits limit :=
  ⟨Nat.not_lt.mp small, off, nofun⟩

theorem fits_feed {limit : Nat} (some_room : 0 < limit) {c : Count} (fits : c.Fits limit)
    (off : c.blank = false → c.used ≠ limit ∧ (c.late = true → c.used + 1 ≠ limit)) :
    c.feed.Fits limit := by
  obtain ⟨small, -, empty⟩ := fits
  unfold feed
  split
  · rename_i blank
    have none_yet := (empty blank).1
    exact ⟨small, fun _ => by dsimp only; omega, nofun⟩
  · rename_i filled
    have off := off (Bool.eq_false_iff.mpr filled)
    exact ⟨by dsimp only; omega, off.2, nofun⟩

theorem balanced_feed {limit : Nat} {c : Count} (fits : c.Fits limit) {eventBytes carried : Nat}
    (balanced : c.Balanced eventBytes carried) : c.feed.Balanced eventBytes (carried + 1) := by
  obtain ⟨spare, same, one, late⟩ := balanced
  unfold feed
  split
  · rename_i blank
    have early := (fits.2.2 blank).2
    have none_spare : spare = 0 := by
      by_contra more
      rw [late (by omega)] at early
      cases early
    exact ⟨1, by dsimp only; omega, le_rfl, fun _ => rfl⟩
  · exact ⟨spare, by dsimp only; omega, one, late⟩

theorem balanced_zero : endEvent.Balanced 0 0 := ⟨0, rfl, Nat.zero_le _, nofun⟩

end Count
/-- The lines of a chunk were taken as the count says, and the count goes on. -/
def Follows (limit : Nat) (rest : List Token) (held : Nat)
    (taken : List SseEvent × Option (Nat × Buffers)) (carried : Nat)
    (counted : List SseEvent × Option (Count × Buffers)) : Prop :=
  taken.1 = counted.1 ∧
    match counted.2 with
    | none => taken.2 = none
    | some (c, b) => ∃ used, taken.2 = some (used, b) ∧ c.Balanced used carried ∧ c.Fits limit ∧
        OffEdge limit c rest held

theorem Follows.prepend {limit : Nat} {rest : List Token} {held : Nat}
    {taken : List SseEvent × Option (Nat × Buffers)} {carried : Nat}
    {counted : List SseEvent × Option (Count × Buffers)}
    (follows : Follows limit rest held taken carried counted) (events : List SseEvent) :
    Follows limit rest held (HClient.prepend events taken) carried
      (HClient.prepend events counted) :=
  ⟨congrArg (events ++ ·) follows.1, follows.2⟩

/-- A byte that is counted late makes no event too large, and saves none that is. -/
theorem admit_follows {limit : Nat} (some_room : 0 < limit) {rest : List Token} {held : Nat}
    {carried : Nat} {tokens : List Token} {c : Count} {b : Buffers} {used : Nat}
    (balanced : c.Balanced used carried) (fits : c.Fits limit)
    (off : OffEdge limit c (tokens ++ rest) held) :
    Follows limit rest held (admitAll limit used b (entries carried tokens).1)
      (entries carried tokens).2 (gauge limit c b tokens) := by
  induction carried, tokens using entries.induct generalizing c b used with
  | case1 carried => exact ⟨rfl, used, rfl, balanced, fits, off⟩
  | case2 carried tokens ih =>
      exact ih (Count.balanced_feed fits balanced) (Count.fits_feed some_room fits off.1) off.2
  | case3 carried content tokens ih =>
      rw [entries, gauge, gauge, prepend_fst, prepend_snd, List.singleton_append, admitAll]
      rw [List.cons_append, List.cons_append, OffEdge] at off
      by_cases blank : content = []
      · rw [if_pos blank] at off
        rw [if_pos blank, if_pos blank]
        refine Follows.prepend (ih ?_ ?_ off.2) _
        · exact ⟨0, rfl, Nat.zero_le _, fun some => absurd some Nat.zero_ne_one⟩
        · exact Count.fits_feed some_room Count.fits_endEvent off.1
      · rw [if_neg blank] at off
        rw [if_neg blank, if_neg blank]
        obtain ⟨spare, same, one, late⟩ := balanced
        obtain ⟨edge, off⟩ := off
        by_cases large : limit < c.used + content.length + 1
        · rw [if_pos large, if_pos (by omega)]
          exact ⟨rfl, rfl⟩
        · rw [if_neg large]
          obtain ⟨feed, off⟩ := off.resolve_left large
          have edges := feed rfl
          have within : ¬ limit < used + (content.length + 2 + carried) := by
            have none_or_late : spare = 0 ∨ c.late = true := by
              rcases Nat.eq_zero_or_pos spare with none | some
              · exact .inl none
              · exact .inr (late (by omega))
            change c.used + content.length + 1 ≠ limit ∧
              (c.late = true → c.used + content.length + 1 + 1 ≠ limit) at edges
            rcases none_or_late with none | is_late
            · omega
            · have := edges.2 is_late
              omega
          rw [if_neg within]
          refine Follows.prepend (ih ?_ ?_ off) _
          · exact ⟨spare, by simp only [Count.feed, Count.line]; simp; omega, one, late⟩
          · exact Count.fits_feed some_room (Count.fits_line large edge) feed
  | case4 carried content tokens other ih =>
      have first : tokens.head? ≠ some .feed := by
        cases tokens with
        | nil => exact Option.some_ne_none _ |>.symm
        | cons token tokens =>
            rintro same
            exact other tokens (by rw [Option.some.inj same])
      rw [entries_line first, gauge, prepend_fst, prepend_snd, List.singleton_append, admitAll]
      rw [List.cons_append, OffEdge] at off
      by_cases blank : content = []
      · rw [if_pos blank] at off
        rw [if_pos blank, if_pos blank]
        exact Follows.prepend (ih Count.balanced_zero Count.fits_endEvent off) _
      · rw [if_neg blank] at off
        rw [if_neg blank, if_neg blank]
        obtain ⟨spare, same, one, late⟩ := balanced
        obtain ⟨edge, off⟩ := off
        by_cases large : limit < c.used + content.length + 1
        · rw [if_pos large, if_pos (by omega)]
          exact ⟨rfl, rfl⟩
        · rw [if_neg large]
          have within : ¬ limit < used + (content.length + 1 + carried) := by
            rcases Nat.eq_zero_or_pos spare with none | some
            · omega
            · have := edge (late (by omega))
              omega
          rw [if_neg within]
          refine Follows.prepend (ih ?_ (Count.fits_line large edge) (off.resolve_left large)) _
          exact ⟨spare, by simp only [Count.line]; omega, one, late⟩

/-! ## What is left behind the last line -/

/-- How a stream ends, when it has been counted to the end. -/
def finish (limit held : Nat) (counted : List SseEvent × Option (Count × Buffers)) :
    List SseEvent × Option (Option Text) :=
  match counted.2 with
  | none => (counted.1, none)
  | some (c, b) =>
      if limit < c.used + held then (counted.1, none) else (counted.1, some b.lastEventId)

theorem finish_prepend (limit held : Nat) (events : List SseEvent)
    (counted : List SseEvent × Option (Count × Buffers)) :
    finish limit held (prepend events counted) = prepend events (finish limit held counted) := by
  unfold finish
  rw [prepend_snd]
  split
  · rfl
  · split
    · rfl
    · rfl

/-- What has come of a line makes the event too large, and the line will not make it smaller. -/
theorem finish_doomed {limit : Nat} {c : Count} {content more : Bytes} (b : Buffers)
    (some_byte : content ≠ [])
    (off : OffEdge limit c (scan (.inside content) more).1
      (scan (.inside content) more).2.content.length)
    (large : limit < c.used + content.length ∨
      c.late = true ∧ limit < c.used + content.length + 1) :
    finish limit (scan (.inside content) more).2.content.length
      (gauge limit c b (scan (.inside content) more).1) = ([], none) := by
  rcases LineSplitter.plain_or_line more with all | ⟨front, d, behind, rfl, all, ends⟩
  · rw [scan_plain all] at off ⊢
    have edge : c.late = true → c.used + (content ++ more).length ≠ limit := off
    rw [List.length_append] at edge
    have ends : limit < c.used + (content ++ more).length := by
      rw [List.length_append]
      rcases large with large | ⟨late, large⟩
      · omega
      · have := edge late
        omega
    exact if_pos ends
  · have begins : ∃ tokens, (scan (.inside content) (front ++ d :: behind)).1 =
        .line (content ++ front) :: tokens := by
      rw [scan, LineScan.run_line all]
      rcases ends with rfl | rfl <;> exact ⟨_, rfl⟩
    obtain ⟨tokens, begins⟩ := begins
    have nonblank : content ++ front ≠ [] := fun empty =>
      some_byte (List.append_eq_nil_iff.mp empty).1
    have ends : limit < c.used + (content ++ front).length + 1 := by
      rw [List.length_append]
      rcases large with large | ⟨-, large⟩ <;> omega
    rw [begins, gauge, if_neg nonblank, if_pos ends]
    rfl

/-! ## Runs -/

/-- What a run shows: its events, and the last event id unless it failed. -/
def outcome (r : List SseEvent × Except SseError SseDecoder) :
    List SseEvent × Option (Option Text) :=
  (r.1, r.2.toOption.map (·.lastEventId))

/-- A decoder in the middle of a stream: it has counted what the count says. -/
structure Midway (limit : Nat) (d : SseDecoder) (stream : Bytes) (c : Count) : Prop where
  idle : d.ready = []
  bound : d.maxEventSize = limit
  reads : d.lines.Reads stream
  balanced : c.Balanced d.eventBytes d.lines.carriedTerminator
  fits : c.Fits limit
  within : d.eventBytes + d.lines.bufferedLen ≤ limit
  pristine : Undecided stream → c = .start

theorem Count.Fits.spare {limit : Nat} {c : Count} (fits : c.Fits limit) {eventBytes carried : Nat}
    (balanced : c.Balanced eventBytes carried) : eventBytes + carried ≤ limit := by
  obtain ⟨spare, same, one, late⟩ := balanced
  obtain ⟨small, edge, -⟩ := fits
  rcases Nat.eq_zero_or_pos spare with none | some
  · omega
  · have := edge (late (by omega))
    omega

/-- A decoder that refuses what is left behind the last line does so for good reason. -/
theorem finish_refused {limit used carried : Nat} (mark_fits : 3 ≤ limit) {stream : Bytes}
    {c : Count} {more : List Token} {bytes : Bytes} (b : Buffers)
    (balanced : c.Balanced used carried) (fits : c.Fits limit)
    (pristine : Undecided stream → c = .start)
    (later : (scanned (stream ++ bytes)).1 = (scanned stream).1 ++ more)
    (off : OffEdge limit c more (scanned (stream ++ bytes)).2.content.length)
    (large : limit < used + ((scanned stream).2.content.length + carried)) :
    finish limit (scanned (stream ++ bytes)).2.content.length (gauge limit c b more) =
      ([], none) := by
  have small := fits.spare balanced
  obtain ⟨spare, same, one, late⟩ := balanced
  by_cases waits : Undecided stream
  · have begins := pristine waits
    subst begins
    rw [scanned_undecided waits] at large
    change limit < used + (stream.length + carried) at large
    have short := waits.1
    have none_spare : spare = 0 := by
      by_contra more
      exact absurd (late (by omega)) Bool.false_ne_true
    have empty : Count.start.used = 0 := rfl
    omega
  · rw [scanned_append waits] at later off ⊢
    have rest : more = (scan (scanned stream).2 bytes).1 := (List.append_cancel_left later).symm
    subst rest
    generalize (scanned stream).2 = held at off large ⊢
    cases held with
    | returned =>
        change limit < used + (0 + carried) at large
        omega
    | inside content =>
        change limit < used + (content.length + carried) at large
        refine finish_doomed b ?_ off ?_
        · rintro rfl
          rw [List.length_nil] at large
          omega
        · rcases Nat.eq_zero_or_pos spare with none | some
          · exact .inl (by omega)
          · exact .inr ⟨late (by omega), by omega⟩

/-- Cut in any way, the rest of a stream off the edge is read as it is counted. -/
theorem run_outcome {limit : Nat} (mark_fits : 3 ≤ limit) {chunks : List Bytes} {d : SseDecoder}
    {stream : Bytes} {c : Count} (midway : Midway limit d stream c) {rest : List Token}
    (extended : (scanned (stream ++ chunks.flatten)).1 = (scanned stream).1 ++ rest)
    (off : OffEdge limit c rest (scanned (stream ++ chunks.flatten)).2.content.length) :
    outcome (d.run chunks) =
      finish limit (scanned (stream ++ chunks.flatten)).2.content.length
        (gauge limit c d.toBuffers rest) := by
  induction chunks generalizing d stream c rest with
  | nil =>
      rw [List.flatten_nil, List.append_nil] at extended off ⊢
      have none_more : rest = [] := by simpa using extended
      subst none_more
      obtain ⟨spare, same, -, -⟩ := midway.balanced
      have within := midway.within
      rw [LineSplitter.bufferedLen_reads midway.reads] at within
      exact (if_neg (by omega)).symm
  | cons chunk chunks ih =>
      obtain ⟨fresh, whole, taken, carried, reads⟩ := LineSplitter.push_reads midway.reads chunk
      obtain ⟨more, later⟩ := scanned_extends (stream ++ chunk) chunks.flatten
      rw [List.flatten_cons, ← List.append_assoc] at extended off ⊢
      have split : rest = fresh ++ more := by
        rw [later, whole, List.append_assoc] at extended
        exact (List.append_cancel_left extended).symm
      subst split
      have follows := admit_follows (b := d.toBuffers) (by omega) midway.balanced midway.fits off
      have admitted : d.admitted chunk =
          admitAll limit d.eventBytes d.toBuffers (entries d.lines.carriedTerminator fresh).1 := by
        rw [SseDecoder.admitted, taken, midway.bound]
      rw [SseDecoder.run_cons midway.idle, admitted, midway.bound, gauge_append]
      generalize said : gauge limit c d.toBuffers fresh = counted at follows
      generalize admitAll limit d.eventBytes d.toBuffers _ = lines at follows
      obtain ⟨first, lines⟩ := lines
      obtain ⟨events, counted⟩ := counted
      obtain ⟨same, follows⟩ := follows
      dsimp only at same follows ⊢
      subst same
      cases counted with
      | none =>
          rw [follows]
          rfl
      | some after =>
          obtain ⟨c', b⟩ := after
          obtain ⟨used, rfl, balanced, fits, off⟩ := follows
          rw [← carried] at balanced
          dsimp only
          have pristine : Undecided (stream ++ chunk) → c' = .start := by
            intro still
            have before : Undecided stream := by
              by_contra decided
              exact not_undecided_append decided chunk still
            rw [scanned_undecided still, scanned_undecided before] at whole
            have none_fresh : fresh = [] := whole.symm
            rw [none_fresh] at said
            cases said
            exact midway.pristine before
          rw [finish_prepend]
          by_cases large : limit < used + (d.fed chunk (used, b)).lines.bufferedLen
          · rw [if_pos large]
            rw [LineSplitter.bufferedLen_reads (s := (d.fed chunk (used, b)).lines) reads] at large
            rw [finish_refused mark_fits b balanced fits pristine later off large]
            exact (Prod.ext (List.append_nil first).symm rfl)
          · rw [if_neg large]
            have rest := ih (d := d.fed chunk (used, b))
              ⟨midway.idle, midway.bound, reads, balanced, fits, Nat.not_lt.mp large, pristine⟩
              later off
            exact congrArg (prepend first) rest

/-- The condition on a stream: counted from its start, it is off the edge. -/
def StreamOffEdge (limit : Nat) (stream : Bytes) : Prop :=
  OffEdge limit .start (scanned stream).1 (scanned stream).2.content.length

instance (limit : Nat) (stream : Bytes) : Decidable (StreamOffEdge limit stream) :=
  inferInstanceAs (Decidable (OffEdge _ _ _ _))

theorem midway_new (limit : Nat) (lastEventId : Option Text) :
    Midway limit (.newWithLastEventId limit lastEventId) [] .start :=
  ⟨rfl, rfl, LineSplitter.reads_new, ⟨0, rfl, Nat.zero_le _, nofun⟩, Count.fits_start,
    Nat.zero_le _, fun _ => rfl⟩

/-- Two ways of cutting a stream that is off the edge come to the same. -/
theorem outcome_of_offEdge {limit : Nat} {stream : Bytes} (mark_fits : 3 ≤ limit)
    (off : StreamOffEdge limit stream) (lastEventId : Option Text) {chunks others : List Bytes}
    (whole : chunks.flatten = stream) (same : others.flatten = stream) :
    outcome ((SseDecoder.newWithLastEventId limit lastEventId).run chunks) =
      outcome ((SseDecoder.newWithLastEventId limit lastEventId).run others) := by
  have counted : ∀ chunks : List Bytes, chunks.flatten = stream →
      outcome ((SseDecoder.newWithLastEventId limit lastEventId).run chunks) =
        finish limit (scanned stream).2.content.length
          (gauge limit .start ⟨[], none, lastEventId⟩ (scanned stream).1) := by
    rintro chunks rfl
    exact run_outcome mark_fits (midway_new limit lastEventId) rfl off
  rw [counted chunks whole, counted others same]

def greeting : Bytes := Bytes.ascii "data: x\r\n\r\n"

theorem outcome_of_offEdge_greeting :
    outcome ((SseDecoder.newWithLastEventId 16 none).run [greeting]) =
      outcome ((SseDecoder.newWithLastEventId 16 none).run
        [greeting.take 8, greeting.drop 8]) :=
  outcome_of_offEdge (by decide) (by decide +kernel : StreamOffEdge 16 greeting) none
    (by decide +kernel) (by decide +kernel)

/-- An event of nine bytes is too large for a limit of eight, unless a chunk ends behind its
return. -/
theorem cut_event_is_admitted :
    outcome ((SseDecoder.new 8).run [greeting]) = ([], none) ∧
      outcome ((SseDecoder.new 8).run [greeting.take 8, greeting.drop 8]) =
        ([.message none ['x'] none], some none) := by decide +kernel

end HClient.Sse
