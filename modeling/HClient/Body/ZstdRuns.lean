import HClient.Body.Zstd

/-!
# Cuts of a `zstd` body

What the decoder holds after any pushes is said by the bytes that they gave together, and so is the
verdict at the end. What is pending is at most a block and a frame header, unless the bytes end
inside a skippable frame.
-/
namespace HClient.Body

open Effect

namespace ZstdFormat
variable {α : Type} {fmt : ZstdFormat α} {eof : Bool} {s out rest : List UInt8} {frame : Option α}

theorem not_between {a : α} (unfinished : fmt.finished a = false) : ¬ fmt.Between (some a) := by
  intro between
  cases unfinished.symm.trans (between a rfl)

theorem Step.unique {c c' c'' : Option α × List UInt8} {o o' : List UInt8}
    (one : fmt.Step eof c o c') (other : fmt.Step eof c o' c'') : o = o' ∧ c' = c'' := by
  cases one with
  | frame between _ _ _ header =>
      cases other with
      | frame _ _ _ _ header' =>
          cases header.symm.trans header'
          exact ⟨rfl, rfl⟩
      | skippable _ _ _ _ header' _ => cases header.symm.trans header'
      | piece unfinished _ => exact absurd between (not_between unfinished)
  | skippable between _ _ _ header _ =>
      cases other with
      | frame _ _ _ _ header' => cases header.symm.trans header'
      | skippable _ _ _ _ header' _ =>
          cases header.symm.trans header'
          exact ⟨rfl, rfl⟩
      | piece unfinished _ => exact absurd between (not_between unfinished)
  | piece unfinished piece =>
      cases other with
      | frame between _ _ _ _ => exact absurd between (not_between unfinished)
      | skippable between _ _ _ _ _ => exact absurd between (not_between unfinished)
      | piece _ piece' =>
          cases piece.symm.trans piece'
          exact ⟨rfl, rfl⟩

/-- What is read of the bytes in hand is read of them whatever follows. -/
theorem Step.extend {c c' : Option α × List UInt8} (step : fmt.Step false c out c')
    (more : List UInt8) (eof : Bool) :
    fmt.Step eof (c.1, c.2 ++ more) out (c'.1, c'.2 ++ more) := by
  cases step with
  | @frame frame' s n a between sound some_ long header =>
      have fits := (fmt.header_frame _ _ _ header).2
      have whole := (fmt.header_append s more (long rfl)).trans header
      have step : fmt.Step eof (frame', s ++ more) [] (some a, (s ++ more).drop n) :=
        .frame between sound (List.append_ne_nil_of_left_ne_nil some_ more)
          (fun _ => Nat.le_trans (long rfl) (by simp)) whole
      rwa [List.drop_append_of_le_length fits] at step
  | @skippable frame' s n length between sound some_ long header fits =>
      have whole := (fmt.header_append s more (long rfl)).trans header
      have step : fmt.Step eof (frame', s ++ more) [] (frame', (s ++ more).drop (n + length)) :=
        .skippable between sound (List.append_ne_nil_of_left_ne_nil some_ more)
          (fun _ => Nat.le_trans (long rfl) (by simp)) whole (Nat.le_trans fits (by simp))
      rwa [List.drop_append_of_le_length fits] at step
  | @piece a a' s _ n unfinished piece =>
      have fits := (fmt.piece_length _ _ _ _ _ piece).2
      have whole := (fmt.piece_append a s more (by rw [piece]; intro none_; cases none_)).trans piece
      have step : fmt.Step eof (some a, s ++ more) out (some a', (s ++ more).drop n) :=
        .piece unfinished whole
      rwa [List.drop_append_of_le_length fits] at step

theorem Reads.refl (s : List UInt8) : fmt.Reads eof s [] none s := ⟨[], .nil _, rfl⟩

theorem Reads.step {rest' out' : List UInt8} {frame' : Option α}
    (reads : fmt.Reads eof s out frame rest)
    (step : fmt.Step eof (frame, rest) out' (frame', rest')) :
    fmt.Reads eof s (out ++ out') frame' rest' := by
  obtain ⟨outs, walk, rfl⟩ := reads
  exact ⟨outs ++ [out'], walk.append (.cons step (.nil _)), by simp⟩

theorem Reads.extend (reads : fmt.Reads false s out frame rest) (more : List UInt8) (eof : Bool) :
    fmt.Reads eof (s ++ more) out frame (rest ++ more) := by
  obtain ⟨outs, walk, rfl⟩ := reads
  have steps : ∀ c o c' t, fmt.Step false c o c' → t = (c.1, c.2 ++ more) →
      ∃ t', fmt.Step eof t o t' ∧ t' = (c'.1, c'.2 ++ more) := by
    rintro c o c' t step rfl
    exact ⟨_, step.extend more eof, rfl⟩
  obtain ⟨t, longer, rfl⟩ := walk.follow steps rfl
  exact ⟨outs, longer, rfl⟩

theorem Reads.pieces {a a' : α} {front later : List UInt8}
    (reads : fmt.Reads eof s out (some a) (front ++ rest)) (pieces : fmt.Pieces a front later a') :
    fmt.Reads eof s (out ++ later) (some a') rest := by
  induction pieces generalizing out with
  | nil a =>
      rw [List.append_nil]
      exact reads
  | @cons a b a'' s' rest' out' later' unfinished piece _ ih =>
      have whole : fmt.piece a (s' ++ (rest' ++ rest)) = .piece s'.length out' b :=
        (fmt.piece_append a s' _ (by rw [piece]; intro none_; cases none_)).trans piece
      rw [List.append_assoc] at reads
      have next := reads.step (.piece unfinished whole)
      rw [List.drop_left] at next
      rw [← List.append_assoc]
      exact ih next

/-- Nothing more can be read. -/
def Stuck (fmt : ZstdFormat α) (eof : Bool) (frame : Option α) (rest : List UInt8) : Prop :=
  ∀ out c, ¬ fmt.Step eof (frame, rest) out c

theorem stuck_nil (between : fmt.Between frame) : fmt.Stuck eof frame [] := by
  intro out c step
  cases step with
  | frame _ _ some_ _ _ => exact some_ rfl
  | skippable _ _ some_ _ _ _ => exact some_ rfl
  | piece unfinished _ => exact absurd between (not_between unfinished)

theorem Reads.unique {out' rest' : List UInt8} {frame' : Option α}
    (reads : fmt.Reads eof s out frame rest) (stuck : fmt.Stuck eof frame rest)
    (reads' : fmt.Reads eof s out' frame' rest') (stuck' : fmt.Stuck eof frame' rest') :
    out = out' ∧ frame = frame' ∧ rest = rest' := by
  obtain ⟨outs, walk, rfl⟩ := reads
  obtain ⟨outs', walk', rfl⟩ := reads'
  obtain ⟨rfl, same⟩ := walk.unique (fun _ _ _ _ _ one other => one.unique other)
    (fun o c => stuck o c) walk' (fun o c => stuck' o c)
  cases same
  exact ⟨rfl, rfl, rfl⟩

theorem Decodes.unique {out' : List UInt8} (decodes : fmt.Decodes s out)
    (decodes' : fmt.Decodes s out') : out = out' := by
  obtain ⟨frame, reads, between, -⟩ := decodes
  obtain ⟨frame', reads', between', -⟩ := decodes'
  exact (reads.unique (stuck_nil between) reads' (stuck_nil between')).1

/-- Where reading gets stuck, the bytes decode only if it is at their end and behind a frame. -/
theorem Reads.not_decodes (reads : fmt.Reads true s out frame rest)
    (stuck : fmt.Stuck true frame rest)
    (short : ¬ (rest = [] ∧ fmt.Between frame ∧ fmt.Sound frame)) (p : List UInt8) :
    ¬ fmt.Decodes s p := by
  rintro ⟨frame', reads', between, sound⟩
  obtain ⟨-, rfl, rfl⟩ := reads.unique stuck reads' (stuck_nil between)
  exact short ⟨rfl, between, sound⟩

/-- The bytes in hand are to be followed by others; at the end of a body, by none. -/
def Hopeless (fmt : ZstdFormat α) (eof : Bool) (s : List UInt8) : Prop :=
  ∀ more, (eof = true → more = []) → ∀ p, ¬ fmt.Decodes (s ++ more) p

/-- A decoder that got stuck for good with bytes in hand has no body to decode. -/
theorem Reads.hopeless (reads : fmt.Reads eof s out frame rest)
    (stuck : ∀ more, (eof = true → more = []) → fmt.Stuck true frame (rest ++ more) ∧
      ¬ (rest ++ more = [] ∧ fmt.Between frame ∧ fmt.Sound frame)) :
    fmt.Hopeless eof s := by
  intro more last
  obtain ⟨stuck, short⟩ := stuck more last
  have longer : fmt.Reads true (s ++ more) out frame (rest ++ more) := by
    cases eof with
    | false => exact reads.extend more true
    | true =>
        rw [last rfl, List.append_nil, List.append_nil]
        exact reads
  exact longer.not_decodes stuck short

theorem stuck_skippable {n length : Nat} (between : fmt.Between frame)
    (header : fmt.header s = .skippable n length) (longer : s.length < n + length) :
    fmt.Stuck eof frame s := by
  intro out c step
  cases step with
  | frame _ _ _ _ header' => cases header.symm.trans header'
  | skippable _ _ _ _ header' fits =>
      cases header.symm.trans header'
      exact absurd fits (Nat.not_le.mpr longer)
  | piece unfinished _ => exact absurd between (not_between unfinished)

theorem stuck_malformed (between : fmt.Between frame) (header : fmt.header s = .malformed) :
    fmt.Stuck eof frame s := by
  intro out c step
  cases step with
  | frame _ _ _ _ header' => cases header.symm.trans header'
  | skippable _ _ _ _ header' _ => cases header.symm.trans header'
  | piece unfinished _ => exact absurd between (not_between unfinished)

theorem stuck_unsound (between : fmt.Between frame) (unsound : ¬ fmt.Sound frame) :
    fmt.Stuck eof frame s := by
  intro out c step
  cases step with
  | frame _ sound _ _ _ => exact unsound sound
  | skippable _ sound _ _ _ _ => exact unsound sound
  | piece unfinished _ => exact absurd between (not_between unfinished)

theorem stuck_piece {a : α} (unfinished : fmt.finished a = false)
    (none_ : ∀ n out a', fmt.piece a s ≠ .piece n out a') : fmt.Stuck eof (some a) s := by
  intro out c step
  cases step with
  | frame between _ _ _ _ => exact absurd between (not_between unfinished)
  | skippable between _ _ _ _ _ => exact absurd between (not_between unfinished)
  | piece _ piece => exact none_ _ _ _ piece

theorem Hopeless.append (hopeless : fmt.Hopeless false s) (more : List UInt8) :
    fmt.Hopeless false (s ++ more) := by
  intro further _ p
  rw [List.append_assoc]
  exact hopeless (more ++ further) (fun last => absurd last Bool.false_ne_true) p

/-- What the bytes in hand wait for. -/
inductive Waiting (fmt : ZstdFormat α) (eof : Bool) : Option α → List UInt8 → Prop
  | atEnd {frame : Option α} : fmt.Between frame → Waiting fmt eof frame []
  | short {frame : Option α} {s : List UInt8} : eof = false → fmt.Between frame →
      s.length < ZstdStream.zstdMaxFrameHeader → Waiting fmt eof frame s
  | skippable {frame : Option α} {s : List UInt8} {n length : Nat} : eof = false →
      fmt.Between frame → fmt.header s = .skippable n length → s.length < n + length →
      Waiting fmt eof frame s
  | piece {a : α} {s : List UInt8} : fmt.finished a = false → fmt.piece a s = .incomplete →
      Waiting fmt eof (some a) s

theorem Waiting.stuck (waiting : fmt.Waiting eof frame s) : fmt.Stuck eof frame s := by
  cases waiting with
  | atEnd between => exact stuck_nil between
  | short open_ between short =>
      intro out c step
      cases step with
      | frame _ _ _ long _ => exact absurd (long open_) (Nat.not_le.mpr short)
      | skippable _ _ _ long _ _ => exact absurd (long open_) (Nat.not_le.mpr short)
      | piece unfinished _ => exact absurd between (not_between unfinished)
  | skippable _ between header longer => exact stuck_skippable between header longer
  | piece unfinished incomplete =>
      refine stuck_piece unfinished fun n out a' piece => ?_
      rw [incomplete] at piece
      cases piece

theorem pieces_nil {a a' : α} (pieces : fmt.Pieces a [] out a') : a' = a ∧ out = [] := by
  generalize none_ : ([] : List UInt8) = s at pieces
  cases pieces with
  | nil => exact ⟨rfl, rfl⟩
  | cons _ piece _ =>
      obtain ⟨rfl, rfl⟩ := List.append_eq_nil_iff.mp none_.symm
      exact absurd (fmt.piece_length _ _ _ _ _ piece).1 (Nat.lt_irrefl 0)

/-- Behind a frame no checksum is waited for. -/
theorem Reads.not_endsAtChecksum (reads : fmt.Reads eof s out frame rest)
    (waiting : fmt.Waiting eof frame rest) (between : fmt.Between frame) :
    ¬ fmt.EndsAtChecksum eof s := by
  rintro ⟨out', a, rest', reads', open_, -, incomplete⟩
  obtain ⟨-, rfl, -⟩ := reads.unique waiting.stuck reads' (Waiting.piece open_ incomplete).stuck
  exact not_between open_ between

/-- The bytes end inside a skippable frame, more than a block and a frame header behind its
start. -/
def EndsInLongSkippable (fmt : ZstdFormat α) (s : List UInt8) : Prop :=
  ∃ out frame rest n length, fmt.Reads false s out frame rest ∧ fmt.Between frame ∧
    fmt.header rest = .skippable n length ∧ rest.length < n + length ∧
    maxBlock + ZstdStream.zstdMaxFrameHeader < rest.length

end ZstdFormat

namespace ZstdStream
variable {δ α : Type} {f : FrameDecoder δ} {fmt : ZstdFormat α} {frame : δ → Option α}
  {held : δ → List UInt8} {eof : Bool} {s out y pending decoded : List UInt8} {d : δ}

theorem isFinished_of_frame (follows : f.Follows fmt frame held) {d' : δ}
    (same : frame d' = frame d) (finished : f.isFinished d = true) : f.isFinished d' = true := by
  rw [follows.isFinished, same, ← follows.isFinished]
  exact finished

theorem unfinished_frame (follows : f.Follows fmt frame held) (open_ : f.isFinished d = false) :
    ∃ a, frame d = some a ∧ fmt.finished a = false := by
  cases inside : frame d with
  | none =>
      have between : fmt.Between (frame d) := by
        rw [inside]
        intro a none_
        cases none_
      rw [(follows.isFinished d).mpr between] at open_
      cases open_
  | some a =>
      refine ⟨a, rfl, Bool.eq_false_iff.mpr fun finished => ?_⟩
      have between : fmt.Between (frame d) := by
        rw [inside]
        rintro b ⟨⟩
        exact finished
      rw [(follows.isFinished d).mpr between] at open_
      cases open_

theorem drain_yields (follows : f.Follows fmt frame held) (finished : f.isFinished d = true)
    (decoded : List UInt8) :
    ∃ d', Yields (fun fuel => drain f fuel d decoded) (.ok (), d', decoded ++ held d) ∧
      frame d' = frame d ∧ held d' = [] := by
  induction left : (held d).length using Nat.strong_induction_on generalizing d decoded with
  | _ n ih =>
      obtain ⟨part, d', called, same, split, empty⟩ := follows.read d finished
      cases part with
      | nil =>
          have none_ := empty rfl
          rw [none_] at split ⊢
          rw [List.append_nil]
          refine ⟨d', .of_succ fun fuel => ?_, same, split.symm⟩
          rw [drain, called]
      | cons b part =>
          have less : (held d').length < n := by
            rw [← left, split]
            simp
          obtain ⟨d'', yields, same', none_⟩ :=
            ih _ less (isFinished_of_frame follows same finished) (decoded ++ b :: part) rfl
          rw [split, ← List.append_assoc]
          refine ⟨d'', yields.next fun fuel drained => ?_, same'.trans same, none_⟩
          rw [drain, called]
          exact drained

/-- What `startFrame` comes to, over pending bytes of this length. -/
inductive Started (fmt : ZstdFormat α) (frame : δ → Option α) (held : δ → List UInt8) (eof : Bool)
    (s out : List UInt8) (length : Nat) : Except Text Bool × δ × List UInt8 → Prop
  | started {d : δ} {rest : List UInt8} : fmt.Reads eof s out (frame d) rest → held d = [] →
      rest.length < length → Started fmt frame held eof s out length (.ok true, d, rest)
  | waiting {d : δ} {rest : List UInt8} : fmt.Reads eof s out (frame d) rest → held d = [] →
      fmt.Between (frame d) → fmt.Sound (frame d) → fmt.Waiting eof (frame d) rest →
      Started fmt frame held eof s out length (.ok false, d, rest)
  | failed {e : Text} {d : δ} {rest : List UInt8} : fmt.Hopeless eof s →
      Started fmt frame held eof s out length (.error e, d, rest)

theorem Started.mono {length length' : Nat} {r : Except Text Bool × δ × List UInt8}
    (started : Started fmt frame held eof s out length r) (le : length ≤ length') :
    Started fmt frame held eof s out length' r := by
  cases started with
  | started reads none_ less => exact .started reads none_ (Nat.lt_of_lt_of_le less le)
  | waiting reads none_ between sound waiting => exact .waiting reads none_ between sound waiting
  | failed hopeless => exact .failed hopeless

theorem startFrame_yields (follows : f.Follows fmt frame held) (finished : f.isFinished d = true)
    (none_ : held d = []) (sound : fmt.Sound (frame d))
    (reads : fmt.Reads eof s out (frame d) pending) :
    ∃ r, Yields (fun fuel => startFrame f eof fuel d pending) r ∧
      Started fmt frame held eof s out pending.length r := by
  induction left : pending.length using Nat.strong_induction_on generalizing d pending with
  | _ k ih =>
      have between := (follows.isFinished d).mp finished
      by_cases empty : pending = []
      · subst empty
        refine ⟨_, .of_succ fun fuel => ?_, .waiting reads none_ between sound (.atEnd between)⟩
        rw [startFrame, if_pos rfl]
      by_cases short : !eof ∧ pending.length < zstdMaxFrameHeader
      · have open_ : eof = false := by simpa using short.1
        refine ⟨_, .of_succ fun fuel => ?_,
          .waiting reads none_ between sound (.short open_ between short.2)⟩
        rw [startFrame, if_neg empty, if_pos short]
      have long : eof = false → zstdMaxFrameHeader ≤ pending.length := by
        rintro rfl
        exact Nat.le_of_not_lt fun less => short ⟨rfl, less⟩
      have positive := List.length_pos_of_ne_nil empty
      cases header : fmt.header pending with
      | frame n a =>
          obtain ⟨d', called, inside, none'⟩ := follows.initFrame d pending n a finished none_ header
          have next := reads.step (.frame between sound empty long header)
          rw [List.append_nil, ← inside] at next
          have less : (pending.drop n).length < k := by
            have some_ := (fmt.header_frame _ _ _ header).1
            rw [List.length_drop]
            omega
          refine ⟨_, .of_succ fun fuel => ?_, .started next none' less⟩
          rw [startFrame, if_neg empty, if_neg short, called]
      | skippable n length =>
          obtain ⟨d', called, same, none'⟩ :=
            follows.initSkippable d pending n length finished none_ header
          by_cases longer : pending.length < n + length
          · cases eof with
            | true =>
                have hopeless : fmt.Hopeless true s := by
                  refine reads.hopeless fun more last => ?_
                  rw [last rfl, List.append_nil]
                  exact ⟨ZstdFormat.stuck_skippable between header longer,
                    fun ended => empty ended.1⟩
                refine ⟨(.error insideSkippable, d', pending), .of_succ fun fuel => ?_,
                  .failed hopeless⟩
                rw [startFrame, if_neg empty, if_neg short, called]
                simp only [if_pos longer]
                rfl
            | false =>
                rw [← same] at reads between sound
                refine ⟨_, .of_succ fun fuel => ?_, .waiting reads none' between sound
                  (.skippable rfl between header longer)⟩
                rw [startFrame, if_neg empty, if_neg short, called]
                simp only [if_pos longer]
                rfl
          · have next := reads.step
              (.skippable between sound empty long header (Nat.le_of_not_lt longer))
            rw [List.append_nil, ← same] at next
            rw [← same] at sound
            have less : (pending.drop (n + length)).length < k := by
              have some_ := (fmt.header_skippable _ _ _ header).1
              rw [List.length_drop]
              omega
            obtain ⟨r, yields, started⟩ := ih _ less (isFinished_of_frame follows same finished)
              none' sound next rfl
            refine ⟨r, yields.next fun fuel later => ?_, started.mono (Nat.le_of_lt less)⟩
            rw [startFrame, if_neg empty, if_neg short, called]
            simp only [if_neg longer]
            exact later
      | malformed =>
          obtain ⟨e, n, d', called⟩ := follows.initMalformed d pending finished none_ header
          have hopeless : fmt.Hopeless eof s := by
            refine reads.hopeless fun more last => ?_
            have whole : fmt.header (pending ++ more) = .malformed := by
              cases eof with
              | true => rw [last rfl, List.append_nil, header]
              | false => rw [fmt.header_append pending more (long rfl), header]
            exact ⟨ZstdFormat.stuck_malformed between whole,
              fun ended => empty (List.append_eq_nil_iff.mp ended.1).1⟩
          refine ⟨(.error e, d', pending), .of_succ fun fuel => ?_, .failed hopeless⟩
          rw [startFrame, if_neg empty, if_neg short, called]

theorem verifyChecksum_cases (follows : f.Follows fmt frame held)
    (finished : f.isFinished d = true) (none_ : held d = []) :
    (verifyChecksum f d = .ok () ∧ fmt.Sound (frame d)) ∨
      (∃ e, verifyChecksum f d = .error e) ∧ ¬ fmt.Sound (frame d) := by
  rw [← follows.checksum d finished none_]
  unfold verifyChecksum
  split
  next want got there there' =>
    split_ifs with same
    · refine .inl ⟨rfl, fun want' got' one other => ?_⟩
      rw [there] at one
      rw [there'] at other
      cases one
      cases other
      exact same
    · exact .inr ⟨⟨_, rfl⟩, fun all => same (all want got there there')⟩
  next absent => exact .inl ⟨rfl, fun want got one other => absurd other (absent want got one)⟩

/-- The whole of what is decoded is what was handed out, what waits to be, and what the decoder
still holds. -/
theorem nextFrame_yields (follows : f.Follows fmt frame held) (finished : f.isFinished d = true)
    (reads : fmt.Reads eof s (y ++ decoded ++ held d) (frame d) pending) :
    ∃ r : Except Text Bool × δ × List UInt8,
      Yields (fun fuel => nextFrame f eof fuel ⟨d, pending, decoded⟩)
        (r.1, ⟨r.2.1, r.2.2, decoded ++ held d⟩) ∧
      Started fmt frame held eof s (y ++ (decoded ++ held d)) pending.length r := by
  obtain ⟨d', drained, same, none_⟩ := drain_yields follows finished decoded
  have finished' := isFinished_of_frame follows same finished
  rw [← same, List.append_assoc] at reads
  rcases verifyChecksum_cases follows finished' none_ with
    ⟨verified, sound⟩ | ⟨⟨e, mismatch⟩, unsound⟩
  · obtain ⟨r, yields, started⟩ := startFrame_yields follows finished' none_ sound reads
    refine ⟨r, drained.map₂ yields fun fuel one other => ?_, started⟩
    unfold nextFrame
    dsimp only
    rw [one]
    dsimp only
    rw [verified]
    dsimp only
    rw [other]
    rfl
  · have between := (follows.isFinished d').mp finished'
    have hopeless : fmt.Hopeless eof s := by
      exact reads.hopeless fun more last =>
        ⟨ZstdFormat.stuck_unsound between unsound, fun ended => unsound ended.2.2⟩
    refine ⟨(.error e, d', pending), drained.map fun fuel one => ?_, .failed hopeless⟩
    unfold nextFrame
    dsimp only
    rw [one]
    dsimp only
    rw [mismatch]

/-- The stream behind the bytes `s`, of which `y` was handed out. -/
structure Holds (fmt : ZstdFormat α) (frame : δ → Option α) (held : δ → List UInt8) (eof : Bool)
    (s y : List UInt8) (stream : ZstdStream δ) : Prop where
  reads : fmt.Reads eof s (y ++ held stream.dec) (frame stream.dec) stream.pending
  waits : fmt.Waiting eof (frame stream.dec) stream.pending
  sound : fmt.Between (frame stream.dec) → held stream.dec = [] ∧ fmt.Sound (frame stream.dec)
  decoded : stream.decoded = []

/-- What calls come to that were given the last of `s`, where `y` was handed out before; a panic
comes of a `cut`. -/
inductive Driven (fmt : ZstdFormat α) (frame : δ → Option α) (held : δ → List UInt8) (eof : Bool)
    (cut : Prop) (s y : List UInt8) : Except Fault (List UInt8) × ZstdStream δ → Prop
  | ok {out : List UInt8} {stream : ZstdStream δ} :
      Holds fmt frame held eof s (y ++ out) stream →
      Driven fmt frame held eof cut s y (.ok out, stream)
  | io {e : Text} {stream : ZstdStream δ} : fmt.Hopeless eof s →
      Driven fmt frame held eof cut s y (.error (.io e), stream)
  | panicked {stream : ZstdStream δ} : cut →
      Driven fmt frame held eof cut s y (.error .panicked, stream)

theorem drive_yields (follows : f.Follows fmt frame held)
    (reads : fmt.Reads eof s (y ++ decoded ++ held d) (frame d) pending) :
    ∃ r, Yields (fun fuel => drive f eof fuel ⟨d, pending, decoded⟩) r ∧
      Driven fmt frame held eof (¬ f.Counts ∧ fmt.EndsAtChecksum eof s) s y r := by
  -- a turn takes of the pending bytes, or else of what the decoder holds
  induction left : pending.length using Nat.strong_induction_on generalizing d pending decoded with
  | _ k ihPending =>
    induction kept : (held d).length using Nat.strong_induction_on
      generalizing d pending decoded with
    | _ m ihHeld =>
      cases finished : f.isFinished d with
      | true =>
          obtain ⟨⟨answer, d', rest⟩, yields, started⟩ := nextFrame_yields follows finished reads
          cases started with
          | started next none_ less =>
              rw [← List.append_nil (y ++ _), ← none_] at next
              obtain ⟨r, later, driven⟩ := ihPending _ (left ▸ less) next rfl
              refine ⟨r, yields.next₂ later fun fuel one other => ?_, driven⟩
              rw [drive, if_pos finished, one]
              exact other
          | waiting next none_ between sound waiting =>
              refine ⟨(.ok (decoded ++ held d), ⟨d', rest, []⟩), yields.next fun fuel one => ?_,
                .ok ⟨?_, waiting, fun _ => ⟨none_, sound⟩, rfl⟩⟩
              · rw [drive, if_pos finished, one]
              · rw [none_, List.append_nil]
                exact next
          | @failed e _ _ hopeless =>
              refine ⟨(.error (.io e), ⟨d', rest, decoded ++ held d⟩),
                yields.next fun fuel one => ?_, .io hopeless⟩
              rw [drive, if_pos finished, one]
      | false =>
          obtain ⟨a, inside, unfinished⟩ := unfinished_frame follows finished
          have open_ : ¬ f.isFinished d = true := by
            rw [finished]
            exact Bool.false_ne_true
          rcases called : f.decodeFromTo d pending zstdChunk with ⟨e | ⟨n, written⟩, d'⟩
          · obtain ⟨front, rest, out, a', rfl, pieces, unfinished', malformed⟩ :=
              follows.decodeError d a pending e d' inside unfinished called
            rw [inside] at reads
            have hopeless : fmt.Hopeless eof s := by
              refine (reads.pieces pieces).hopeless fun more _ => ?_
              have whole : fmt.piece a' (rest ++ more) = .malformed := by
                rw [fmt.piece_append a' rest more (by rw [malformed]; intro none_; cases none_),
                  malformed]
              refine ⟨ZstdFormat.stuck_piece unfinished' fun n out b piece => ?_,
                fun ended => ?_⟩
              · rw [whole] at piece
                cases piece
              · exact ZstdFormat.not_between unfinished' ended.2.1
            refine ⟨(.error (.io e), ⟨d', front ++ rest, decoded⟩), .of_succ fun fuel => ?_,
              .io hopeless⟩
            rw [drive, if_neg open_, called]
          · rw [inside] at reads
            rcases follows.decode d a pending n written d' inside unfinished called with
              ⟨beyond, closing, incomplete⟩ | ⟨a', out, fits, pieces, inside', split, incomplete⟩
            · have miscounts : ¬ f.Counts := fun counts =>
                Nat.not_le.mpr beyond (counts d pending n written d' called)
              refine ⟨(.error .panicked, ⟨d', pending, decoded ++ written⟩),
                .of_succ fun fuel => ?_,
                .panicked ⟨miscounts, _, a, pending, reads, unfinished, closing, incomplete⟩⟩
              rw [drive, if_neg open_, called]
              exact if_pos beyond
            have within := Nat.not_lt.mpr fits
            have whole : pending.take n ++ pending.drop n = pending := List.take_append_drop ..
            rw [← whole] at reads
            have next := reads.pieces pieces
            have total : y ++ decoded ++ held d ++ out = y ++ (decoded ++ written) ++ held d' := by
              rw [List.append_assoc, split]
              simp only [List.append_assoc]
            rw [total, ← inside'] at next
            by_cases stuck : n = 0 ∧ written = []
            · obtain ⟨rfl, rfl⟩ := stuck
              obtain ⟨rfl, rfl⟩ := ZstdFormat.pieces_nil pieces
              rw [List.append_nil, List.drop_zero] at next
              refine ⟨(.ok decoded, ⟨d', pending, []⟩), .of_succ fun fuel => ?_,
                .ok ⟨next, ?_, fun between => ?_, rfl⟩⟩
              · rw [drive, if_neg open_, called]
                exact if_neg within
              · rw [inside']
                exact .piece unfinished (incomplete rfl)
              · rw [inside'] at between
                exact absurd between (ZstdFormat.not_between unfinished)
            · have turn : ∀ fuel, drive f eof (fuel + 1) ⟨d, pending, decoded⟩ =
                  drive f eof fuel ⟨d', pending.drop n, decoded ++ written⟩ := by
                intro fuel
                rw [drive, if_neg open_, called]
                exact (if_neg within).trans (if_neg stuck)
              rcases Nat.eq_zero_or_pos n with rfl | some_
              · obtain ⟨rfl, rfl⟩ := ZstdFormat.pieces_nil pieces
                have less : (held d').length < m := by
                  have some_ := List.length_pos_of_ne_nil fun none_ => stuck ⟨rfl, none_⟩
                  rw [List.append_nil] at split
                  rw [← kept, split, List.length_append]
                  omega
                obtain ⟨r, later, driven⟩ := ihHeld _ less next left rfl
                exact ⟨r, later.next fun fuel one => (turn fuel).trans one, driven⟩
              · have less : (pending.drop n).length < k := by
                  rw [List.length_drop]
                  omega
                obtain ⟨r, later, driven⟩ := ihPending _ less next rfl
                exact ⟨r, later.next fun fuel one => (turn fuel).trans one, driven⟩

/-! ## Pushes and the end -/

theorem holds_new (follows : f.Follows fmt frame held) :
    Holds fmt frame held false [] [] (new f) := by
  obtain ⟨none_, empty⟩ := follows.new zstdMaxWindow
  have between : fmt.Between (frame (new f).dec) := by
    have idle : frame (new f).dec = none := none_
    rw [idle]
    intro a there
    cases there
  refine ⟨?_, .atEnd between, fun _ => ⟨empty, ?_⟩, rfl⟩
  · have nothing : held (new f).dec = [] := empty
    have idle : frame (new f).dec = none := none_
    rw [nothing, idle]
    exact .refl []
  · have idle : frame (new f).dec = none := none_
    rw [idle]
    intro a there
    cases there

/-- A push of these ends at a checksum, and the decoder counts it as read. -/
def CutIn (f : FrameDecoder δ) (fmt : ZstdFormat α) (s : List UInt8) (inputs : List (List UInt8)) :
    Prop :=
  ¬ f.Counts ∧ ∃ front, front <+: inputs ∧ fmt.EndsAtChecksum false (s ++ front.flatten)

theorem CutIn.cons {input : List UInt8} {inputs : List (List UInt8)}
    (cut : CutIn f fmt (s ++ input) inputs) : CutIn f fmt s (input :: inputs) := by
  obtain ⟨miscounts, front, first, ends⟩ := cut
  refine ⟨miscounts, input :: front, List.prefix_cons_inj input |>.mpr first, ?_⟩
  rw [List.flatten_cons, ← List.append_assoc]
  exact ends

theorem push_yields (follows : f.Follows fmt frame held) {stream : ZstdStream δ}
    (holds : Holds fmt frame held false s y stream) (input : List UInt8) :
    ∃ r, Yields (fun fuel => push f fuel input stream) r ∧
      Driven fmt frame held false (¬ f.Counts ∧ fmt.EndsAtChecksum false (s ++ input))
        (s ++ input) y r := by
  obtain ⟨d, pending, decoded⟩ := stream
  obtain rfl := holds.decoded
  have reads := holds.reads.extend input false
  rw [← List.append_nil y] at reads
  exact drive_yields follows reads

theorem pushes_yields (follows : f.Follows fmt frame held) (inputs : List (List UInt8))
    {stream : ZstdStream δ} (holds : Holds fmt frame held false s y stream) :
    ∃ r, Yields (fun fuel => pushes f fuel inputs stream) r ∧
      Driven fmt frame held false (CutIn f fmt s inputs) (s ++ inputs.flatten) y r := by
  induction inputs generalizing s y stream with
  | nil =>
      refine ⟨(.ok [], stream), .of_forall fun fuel => rfl, .ok ?_⟩
      rw [List.flatten_nil, List.append_nil, List.append_nil]
      exact holds
  | cons input inputs ih =>
      rw [List.flatten_cons, ← List.append_assoc]
      obtain ⟨r, pushed, driven⟩ := push_yields follows holds input
      cases driven with
      | @ok out stream' holds' =>
          obtain ⟨⟨verdict, stream''⟩, later, driven'⟩ := ih holds'
          refine ⟨(verdict.map fun more => out ++ more, stream''),
            pushed.map₂ later fun fuel one other => ?_, ?_⟩
          · rw [pushes, one]
            dsimp only
            rw [other]
            rfl
          · cases driven' with
            | ok holds'' =>
                rw [List.append_assoc y] at holds''
                exact .ok holds''
            | io hopeless => exact .io hopeless
            | panicked cut => exact .panicked cut.cons
      | @io e stream' hopeless =>
          refine ⟨(.error (.io e), stream'), pushed.map fun fuel one => ?_,
            .io (hopeless.append _)⟩
          rw [pushes, one]
      | @panicked stream' cut =>
          obtain ⟨miscounts, ends⟩ := cut
          have first : [input] <+: input :: inputs := List.prefix_append [input] inputs
          refine ⟨(.error .panicked, stream'), pushed.map fun fuel one => ?_,
            .panicked ⟨miscounts, [input], first, ?_⟩⟩
          · rw [pushes, one]
          · rw [List.flatten_singleton]
            exact ends

/-- What the end of a body comes to: of the bytes `s`, `y` was handed out before. -/
inductive Verdict (fmt : ZstdFormat α) (cut : Prop) (s y : List UInt8) :
    Except Fault (List UInt8) → Prop
  | ok {out : List UInt8} : fmt.Decodes s (y ++ out) → Verdict fmt cut s y (.ok out)
  | io {e : Text} : (∀ p, ¬ fmt.Decodes s p) → Verdict fmt cut s y (.error (.io e))
  | panicked : cut → Verdict fmt cut s y (.error .panicked)

theorem finish_yields (follows : f.Follows fmt frame held) {stream : ZstdStream δ}
    (holds : Holds fmt frame held false s y stream) :
    ∃ r, Yields (fun fuel => finish f fuel stream) r ∧
      Verdict fmt (¬ f.Counts ∧ fmt.EndsAtChecksum true s) s y r.1 := by
  obtain ⟨d, pending, decoded⟩ := stream
  obtain rfl := holds.decoded
  have reads := holds.reads.extend [] true
  rw [List.append_nil, List.append_nil, ← List.append_nil y] at reads
  obtain ⟨r, yields, driven⟩ := drive_yields follows reads
  cases driven with
  | @ok out stream' holds' =>
      by_cases over_ : (!f.isFinished stream'.dec) = true ∨ stream'.pending ≠ []
      · refine ⟨(.error (.io truncated), stream'), yields.map fun fuel one => ?_, .io fun p => ?_⟩
        · unfold finish
          rw [one]
          exact if_pos over_
        · refine holds'.reads.not_decodes holds'.waits.stuck (fun ended => ?_) p
          rcases over_ with open_ | some_
          · rw [(follows.isFinished _).mpr ended.2.1] at open_
            cases open_
          · exact some_ ended.1
      · refine ⟨(.ok out, stream'), yields.map fun fuel one => ?_, .ok ?_⟩
        · unfold finish
          rw [one]
          exact if_neg over_
        · simp only [not_or, Bool.not_eq_true', Bool.not_eq_false, not_not] at over_
          have between := (follows.isFinished _).mp over_.1
          obtain ⟨none_, sound⟩ := holds'.sound between
          have whole := holds'.reads
          rw [none_, over_.2, List.append_nil] at whole
          exact ⟨_, whole, between, sound⟩
  | @io e stream' hopeless =>
      refine ⟨(.error (.io e), stream'), yields.map fun fuel one => ?_, .io fun p => ?_⟩
      · unfold finish
        rw [one]
      · have last := hopeless [] (fun _ => rfl) p
        rwa [List.append_nil] at last
  | @panicked stream' cut =>
      refine ⟨(.error .panicked, stream'), yields.map fun fuel one => ?_, .panicked cut⟩
      unfold finish
      rw [one]

theorem settles_verdict (follows : f.Follows fmt frame held) (inputs : List (List UInt8)) :
    ∃ r, Settles f inputs r ∧ Verdict fmt (¬ f.Careful fmt inputs) inputs.flatten [] r := by
  obtain ⟨⟨answer, stream⟩, pushed, driven⟩ := pushes_yields follows inputs (holds_new follows)
  rw [List.nil_append] at driven
  cases driven with
  | @ok out _ holds =>
      obtain ⟨⟨last, stream'⟩, finished, verdict⟩ := finish_yields follows holds
      have yields : Yields (fun fuel => run f fuel inputs (new f))
          (last.map fun more => out ++ more) := by
        refine pushed.map₂ finished fun fuel one other => ?_
        unfold run
        rw [one]
        dsimp only
        rw [other]
        rfl
      refine ⟨_, yields, ?_⟩
      cases verdict with
      | ok decodes => exact .ok decodes
      | io none_ => exact .io none_
      | panicked cut =>
          refine .panicked fun careful => ?_
          rcases careful with counts | ⟨-, uncut⟩
          · exact cut.1 counts
          · exact uncut cut.2
  | @io e _ hopeless =>
      have yields : Yields (fun fuel => run f fuel inputs (new f)) (.error (.io e)) := by
        refine pushed.map fun fuel one => ?_
        unfold run
        rw [one]
      refine ⟨_, yields, .io fun p => ?_⟩
      have last := hopeless [] (fun _ => rfl) p
      rwa [List.append_nil] at last
  | panicked cut =>
      have yields : Yields (fun fuel => run f fuel inputs (new f)) (.error .panicked) := by
        refine pushed.map fun fuel one => ?_
        unfold run
        rw [one]
      refine ⟨_, yields, .panicked fun careful => ?_⟩
      obtain ⟨miscounts, front, first, ends⟩ := cut
      rcases careful with counts | ⟨uncut, -⟩
      · exact miscounts counts
      · exact uncut front first ends

/-- A body that succeeds is whole, however it was cut. -/
theorem decodes_of_settles (follows : f.Follows fmt frame held) {inputs : List (List UInt8)}
    {p : List UInt8} (ok : Settles f inputs (.ok p)) : fmt.Decodes inputs.flatten p := by
  obtain ⟨r, settles, verdict⟩ := settles_verdict follows inputs
  rw [Yields.unique settles ok] at verdict
  cases verdict with
  | ok decodes => exact decodes

theorem settles_of_decodes (follows : f.Follows fmt frame held) {inputs : List (List UInt8)}
    {p : List UInt8} (careful : f.Careful fmt inputs) (decodes : fmt.Decodes inputs.flatten p) :
    Settles f inputs (.ok p) := by
  obtain ⟨r, settles, verdict⟩ := settles_verdict follows inputs
  cases verdict with
  | ok decodes' =>
      rw [decodes.unique decodes']
      exact settles
  | io none_ => exact absurd decodes (none_ p)
  | panicked cut => exact absurd careful cut

/-- The stream that pushes leave, where they all succeed. -/
def Pushed (f : FrameDecoder δ) (inputs : List (List UInt8)) (stream : ZstdStream δ) : Prop :=
  ∃ out, Yields (fun fuel => pushes f fuel inputs (new f)) (.ok out, stream)

theorem pending_le_iff (follows : f.Follows fmt frame held) {inputs : List (List UInt8)}
    {stream : ZstdStream δ} (pushed : Pushed f inputs stream) :
    stream.pending.length ≤ maxBlock + zstdMaxFrameHeader ↔
      ¬ fmt.EndsInLongSkippable inputs.flatten := by
  obtain ⟨out, yields⟩ := pushed
  obtain ⟨r, yields', driven⟩ := pushes_yields follows inputs (holds_new follows)
  rw [List.nil_append] at driven
  rw [← yields.unique yields'] at driven
  cases driven with
  | ok holds =>
    constructor
    · rintro fits ⟨out', frame', rest, n, length, reads, between, header, longer, long⟩
      have waiting : fmt.Waiting false frame' rest := .skippable rfl between header longer
      obtain ⟨-, -, same⟩ := holds.reads.unique holds.waits.stuck reads waiting.stuck
      rw [same] at fits
      exact absurd fits (Nat.not_le.mpr long)
    · intro none_
      refine Nat.le_of_not_lt fun long => ?_
      have waits := holds.waits
      generalize pending : stream.pending = rest at waits long
      generalize inside : frame stream.dec = frame' at waits
      cases waits with
      | atEnd _ => exact absurd long (Nat.not_lt_zero _)
      | short _ _ short => omega
      | skippable _ between header longer =>
          have reads := holds.reads
          rw [pending, inside] at reads
          exact none_ ⟨_, _, _, _, _, reads, between, header, longer, long⟩
      | piece _ incomplete =>
          have short := fmt.piece_incomplete _ _ incomplete
          omega

/-- Every run settles. A decoder that is careful does not panic, and its verdict is said by its
bytes: success, with what they decode to, where they are whole frames and skippable frames; no
other success is there for any. What is pending after pushes is at most a block and a frame
header, unless the bytes end far inside a skippable frame. -/
theorem pending_bounded_iff (follows : f.Follows fmt frame held) :
    (∀ inputs, ∃ r, Settles f inputs r ∧ (f.Careful fmt inputs → r ≠ .error .panicked)) ∧
    (∀ inputs inputs' : List (List UInt8), inputs.flatten = inputs'.flatten →
      f.Careful fmt inputs → f.Careful fmt inputs' →
        ∃ r r', Settles f inputs r ∧ Settles f inputs' r' ∧ r.toOption = r'.toOption) ∧
    (∀ inputs p, (Settles f inputs (.ok p) → fmt.Decodes inputs.flatten p) ∧
      (f.Careful fmt inputs → fmt.Decodes inputs.flatten p → Settles f inputs (.ok p))) ∧
    ∀ inputs stream, Pushed f inputs stream →
      (stream.pending.length ≤ maxBlock + zstdMaxFrameHeader ↔
        ¬ fmt.EndsInLongSkippable inputs.flatten) := by
  refine ⟨fun inputs => ?_, fun inputs inputs' same careful careful' => ?_,
    fun inputs p => ⟨decodes_of_settles follows, settles_of_decodes follows⟩,
    fun inputs stream pushed => pending_le_iff follows pushed⟩
  · obtain ⟨r, settles, verdict⟩ := settles_verdict follows inputs
    refine ⟨r, settles, ?_⟩
    rintro careful rfl
    cases verdict with
    | panicked cut => exact cut careful
  obtain ⟨r, settles, verdict⟩ := settles_verdict follows inputs
  obtain ⟨r', settles', verdict'⟩ := settles_verdict follows inputs'
  rw [← same] at verdict'
  refine ⟨r, r', settles, settles', ?_⟩
  cases verdict with
  | ok decodes =>
      cases verdict' with
      | ok decodes' =>
          have alike := decodes.unique decodes'
          rw [List.nil_append, List.nil_append] at alike
          rw [alike]
      | io none_ => exact absurd decodes (none_ _)
      | panicked cut => exact absurd careful' cut
  | io none_ =>
      cases verdict' with
      | ok decodes' => exact absurd decodes' (none_ _)
      | io _ => rfl
      | panicked cut => exact absurd careful' cut
  | panicked cut => exact absurd careful cut

end ZstdStream

/-! ## Frames of repeated bytes -/

def fromLe (bytes : List UInt8) : Nat := bytes.foldr (fun b n => b.toNat + 256 * n) 0

/-- A frame whose blocks repeat a byte: its content so far, whether its last block is read, and the
checksum that it was sent. -/
structure Rle where
  content : List UInt8
  last : Bool
  sum : Option Nat

namespace Rle

/-- The lower half of XXH64, as far as it is met here. -/
def hash (content : List UInt8) : Nat :=
  if content = List.replicate 20000 0 then 0xB77CB4E0 else 0

/-- A block, or behind the last one the checksum: each has four bytes. -/
def piece (a : Rle) (front : List UInt8) : FramePiece Rle :=
  if a.last then .piece 4 [] { a with sum := some (fromLe front) }
  else
    let header := fromLe (front.take 3)
    if header / 2 % 4 = 1 ∧ header / 8 ≤ 128 * 1024 then
      let out := List.replicate (header / 8) (front.getD 3 0)
      .piece 4 out ⟨a.content ++ out, header % 2 = 1, none⟩
    else .malformed

theorem piece_four {a a' : Rle} {front out : List UInt8} {n : Nat}
    (piece : a.piece front = .piece n out a') : n = 4 := by
  unfold Rle.piece at piece
  dsimp only at piece
  split_ifs at piece <;> cases piece <;> rfl

theorem piece_complete (a : Rle) (front : List UInt8) : a.piece front ≠ .incomplete := by
  unfold Rle.piece
  dsimp only
  split_ifs <;> exact nofun

/-- Frames with a checksum and a window of 32 KiB, and skippable frames of one magic number. -/
def format : ZstdFormat Rle where
  header s :=
    if s.take 6 = [0x28, 0xB5, 0x2F, 0xFD, 0x04, 0x28] then .frame 6 ⟨[], false, none⟩
    else if s.take 4 = [0x50, 0x2A, 0x4D, 0x18] ∧ 8 ≤ s.length then
      .skippable 8 (fromLe ((s.drop 4).take 4))
    else .malformed
  piece a s := if s.length < 4 then .incomplete else a.piece (s.take 4)
  finished a := a.sum.isSome
  closing a := a.last
  sound a := a.sum = some (hash a.content)
  header_frame := by
    intro s n a header
    split_ifs at header with there
    cases header
    have six : min 6 s.length = 6 := by
      rw [← List.length_take, there]
      rfl
    exact ⟨by decide, by omega⟩
  header_skippable := by
    intro s n length header
    split_ifs at header with _ there
    cases header
    exact ⟨by decide, there.2⟩
  header_append := by
    intro s more long
    have six : 6 ≤ s.length := Nat.le_trans (by decide) long
    have four : 4 ≤ s.length := Nat.le_trans (by decide) long
    have eight : 8 ≤ s.length := Nat.le_trans (by decide) long
    have eight' : 8 ≤ (s ++ more).length := Nat.le_trans eight (by simp)
    have field : 4 ≤ (s.drop 4).length := by
      rw [List.length_drop]
      omega
    rw [List.take_append_of_le_length six, List.take_append_of_le_length four,
      List.drop_append_of_le_length four, List.take_append_of_le_length field]
    simp only [eight, eight']
  piece_length := by
    intro a s n out a' piece
    split_ifs at piece with short
    rw [piece_four piece]
    exact ⟨by decide, Nat.le_of_not_lt short⟩
  piece_append := by
    intro a s more there
    have long : 4 ≤ s.length := by
      refine Nat.le_of_not_lt fun short => there ?_
      exact if_pos short
    have longer : ¬ (s ++ more).length < 4 := by
      rw [List.length_append]
      omega
    rw [if_neg longer, if_neg (Nat.not_lt.mpr long), List.take_append_of_le_length long]
  piece_incomplete := by
    intro a s incomplete
    split_ifs at incomplete with short
    · exact Nat.lt_trans short (by decide)
    · exact absurd incomplete (piece_complete a _)

theorem format_piece_long {a : Rle} {s : List UInt8} (long : ¬ s.length < 4) :
    format.piece a s = a.piece (s.take 4) := if_neg long

theorem format_piece_incomplete {a : Rle} {s : List UInt8}
    (incomplete : format.piece a s = .incomplete) : s.length < 4 := by
  by_contra long
  rw [format_piece_long long] at incomplete
  exact piece_complete a _ incomplete

theorem format_piece {a a' : Rle} {s out : List UInt8} {n : Nat}
    (piece : format.piece a s = .piece n out a') :
    format.piece a (s.take n) = .piece (s.take n).length out a' := by
  have found : (if s.length < 4 then .incomplete else a.piece (s.take 4)) =
      FramePiece.piece n out a' := piece
  split_ifs at found with short
  have four := piece_four found
  subst four
  have length : (s.take 4).length = 4 := List.length_take_of_le (Nat.le_of_not_lt short)
  rw [format_piece_long (Nat.not_lt.mpr (Nat.le_of_eq length.symm)), length, List.take_take,
    Nat.min_self]
  exact found

/-- The frame, and what is decoded of it and not given out. A call reads one piece, and holds the
window of a frame back that is not finished. A checksum that is cut is answered for with its four
bytes. -/
def decoder : FrameDecoder (Option Rle × List UInt8) where
  new _ := (none, [])
  isFinished d := d.1.all format.finished
  init d s :=
    match format.header s with
    | .frame n a => (.ok (), n, (some a, []))
    | .skippable n length => (.error (.skipFrame length), n, d)
    | .malformed => (.error (.other "bad magic number".toList), 0, d)
  decodeFromTo d s room :=
    match d.1 with
    | none => (.ok (0, []), d)
    | some a =>
        match format.piece a s with
        | .malformed => (.error "reserved block type".toList, d)
        | .incomplete => (.ok (if a.last then 4 else 0, []), d)
        | .piece n out a =>
            let all := d.2 ++ out
            let free := if format.finished a then all.length else all.length - 32 * 1024
            (.ok (n, all.take (min room free)), (some a, all.drop (min room free)))
  read d room := (.ok (d.2.take room), (d.1, d.2.drop room))
  getChecksumFromData d := d.1.bind Rle.sum
  getCalculatedChecksum d :=
    d.1.map fun a => hash (a.content.take (a.content.length - d.2.length))

theorem decoder_follows : decoder.Follows format Prod.fst Prod.snd where
  new _ := ⟨rfl, rfl⟩
  isFinished d := by
    obtain ⟨frame, held⟩ := d
    cases frame with
    | none => exact ⟨fun _ => nofun, fun _ => rfl⟩
    | some a =>
        refine ⟨fun finished => ?_, fun between => between a rfl⟩
        rintro b ⟨⟩
        exact finished
  checksum d finished none_ := by
    obtain ⟨frame, held⟩ := d
    obtain rfl : held = [] := none_
    cases frame with
    | none => exact ⟨fun _ => nofun, fun _ => nofun⟩
    | some a =>
        have whole : decoder.getCalculatedChecksum (some a, []) = some (hash a.content) := by
          simp only [decoder, List.length_nil, Nat.sub_zero, List.take_length, Option.map_some]
        obtain ⟨sum, sent⟩ : ∃ sum, a.sum = some sum := Option.isSome_iff_exists.mp finished
        have there : decoder.getChecksumFromData (some a, []) = some sum := sent
        rw [whole, there]
        constructor
        · intro same
          rintro b ⟨⟩
          exact decide_eq_true (sent.trans (congrArg some (same _ _ rfl rfl)))
        · intro sound want got one other
          have right : a.sum = some (hash a.content) := of_decide_eq_true (sound a rfl)
          rw [sent] at right
          cases one
          cases other
          exact Option.some.inj right
  read d _ := by
    refine ⟨d.2.take ZstdStream.zstdChunk, (d.1, d.2.drop ZstdStream.zstdChunk), rfl, rfl,
      (List.take_append_drop ..).symm, fun none_ => ?_⟩
    rcases List.take_eq_nil_iff.mp none_ with zero | empty
    · cases zero
    · exact empty
  initFrame d s n a _ _ header := by
    refine ⟨(some a, []), ?_, rfl, rfl⟩
    simp only [decoder, header]
  initSkippable d s n length _ none_ header := by
    refine ⟨d, ?_, rfl, none_⟩
    simp only [decoder, header]
  initMalformed d s _ _ header := by
    refine ⟨"bad magic number".toList, 0, d, ?_⟩
    simp only [decoder, header]
  decode d a s n written d' inside open_ called := by
    obtain ⟨frame, held⟩ := d
    obtain rfl : frame = some a := inside
    simp only [decoder] at called
    cases piece : format.piece a s with
    | malformed =>
        rw [piece] at called
        cases called
    | incomplete =>
        rw [piece] at called
        cases called
        cases last : a.last with
        | true => exact .inl ⟨format_piece_incomplete piece, last, rfl⟩
        | false =>
            exact .inr ⟨a, [], Nat.zero_le _, .nil a, rfl, List.append_nil _, fun _ => rfl⟩
    | piece n out a' =>
        rw [piece] at called
        cases called
        obtain ⟨some_, fits⟩ := format.piece_length _ _ _ _ _ piece
        have one : format.Pieces a (s.take n) out a' := by
          rw [← List.append_nil (s.take n), ← List.append_nil out]
          exact .cons open_ (format_piece piece) (.nil a')
        exact .inr ⟨a', out, fits, one, rfl, (List.take_append_drop ..).symm,
          fun none_ => absurd none_ (Nat.ne_of_gt some_)⟩
  decodeError d a s e d' inside open_ called := by
    obtain ⟨frame, held⟩ := d
    obtain rfl : frame = some a := inside
    simp only [decoder] at called
    cases piece : format.piece a s with
    | malformed => exact ⟨[], s, [], a, rfl, .nil a, open_, piece⟩
    | incomplete =>
        rw [piece] at called
        cases called
    | piece n out a' =>
        rw [piece] at called
        cases called

/-- Twenty thousand zeros in one block, with their checksum. -/
def zeros : List UInt8 :=
  [0x28, 0xB5, 0x2F, 0xFD, 0x04, 0x28, 0x03, 0x71, 0x02, 0x00, 0xE0, 0xB4, 0x7C, 0xB7]

variable {eof : Bool} {length : Nat}

def zerosRead (length : Nat) : Rle := ⟨List.replicate length 0, true, some 0xB77CB4E0⟩

theorem between_none : format.Between none := fun _ there => by cases there

theorem sound_none : format.Sound none := fun _ there => by cases there

/-- The last block, which repeats its byte so often. -/
theorem piece_last {front : List UInt8} (header : fromLe (front.take 3) = 8 * length + 3)
    (fits : length ≤ 128 * 1024) :
    Rle.piece ⟨[], false, none⟩ front = .piece 4 (List.replicate length (front.getD 3 0))
      ⟨List.replicate length (front.getD 3 0), true, none⟩ := by
  have repeats : (8 * length + 3) / 2 % 4 = 1 := by omega
  have times : (8 * length + 3) / 8 = length := by omega
  have last : (8 * length + 3) % 2 = 1 := by omega
  unfold Rle.piece
  dsimp only
  rw [header, times]
  simp only [Bool.false_eq_true, if_false, repeats, fits, and_self, if_true, last, decide_true,
    List.nil_append]

theorem reads_zeros (said : length = 20000) (more : List UInt8)
    (long : eof = false → 4 ≤ more.length) :
    format.Reads eof (zeros ++ more) (List.replicate length 0) (some (zerosRead length)) more := by
  have header : format.Step eof (none, zeros ++ more) []
      (some ⟨[], false, none⟩, (zeros ++ more).drop 6) := by
    have front : (zeros ++ more).take 6 = [0x28, 0xB5, 0x2F, 0xFD, 0x04, 0x28] := rfl
    have begins : format.header (zeros ++ more) = .frame 6 ⟨[], false, none⟩ := by
      simp only [format, if_pos front]
    refine .frame between_none sound_none (List.cons_ne_nil _ _) (fun open_ => ?_) begins
    have enough := long open_
    have whole : zeros.length = 14 := rfl
    rw [List.length_append, whole, ZstdStream.zstdMaxFrameHeader]
    omega
  have block : format.Step eof (some ⟨[], false, none⟩, (zeros ++ more).drop 6)
      (List.replicate length 0)
      (some ⟨List.replicate length 0, true, none⟩, ((zeros ++ more).drop 6).drop 4) := by
    have eight : ¬ ((zeros ++ more).drop 6).length < 4 := by simp [zeros]
    have open_ : format.finished ⟨[], false, none⟩ = false := rfl
    have header : fromLe ((((zeros ++ more).drop 6).take 4).take 3) = 8 * length + 3 := by
      have front : ((zeros ++ more).drop 6).take 4 = [0x03, 0x71, 0x02, 0x00] := rfl
      rw [front, said]
      decide
    have read : Rle.piece ⟨[], false, none⟩ (((zeros ++ more).drop 6).take 4) =
        .piece 4 (List.replicate length 0) ⟨List.replicate length 0, true, none⟩ :=
      piece_last header (by omega)
    exact .piece open_ ((format_piece_long eight).trans read)
  have checksum : format.Step eof (some ⟨List.replicate length 0, true, none⟩,
      ((zeros ++ more).drop 6).drop 4) []
      (some (zerosRead length), (((zeros ++ more).drop 6).drop 4).drop 4) := by
    have four : ¬ (((zeros ++ more).drop 6).drop 4).length < 4 := by simp [zeros]
    have open_ : format.finished ⟨List.replicate length 0, true, none⟩ = false := rfl
    have front : (((zeros ++ more).drop 6).drop 4).take 4 = [0xE0, 0xB4, 0x7C, 0xB7] := rfl
    have sum : fromLe [0xE0, 0xB4, 0x7C, 0xB7] = 0xB77CB4E0 := by decide
    have read : Rle.piece ⟨List.replicate length 0, true, none⟩
        ((((zeros ++ more).drop 6).drop 4).take 4) = .piece 4 [] (zerosRead length) := by
      rw [front]
      unfold Rle.piece
      rw [sum]
      rfl
    exact .piece open_ ((format_piece_long four).trans read)
  have whole := (((ZstdFormat.Reads.refl (zeros ++ more)).step header).step block).step checksum
  rwa [List.append_nil, List.nil_append] at whole

theorem between_zeros : format.Between (some (zerosRead length)) := by
  rintro a ⟨⟩
  rfl

theorem sound_zeros (said : length = 20000) : format.Sound (some (zerosRead length)) := by
  rintro a ⟨⟩
  have hashed : hash (List.replicate length 0) = 0xB77CB4E0 := if_pos (by rw [said])
  have sum : (zerosRead length).sum = some (hash (zerosRead length).content) :=
    congrArg some hashed.symm
  exact decide_eq_true sum

/-- A skippable frame of one byte. -/
def skippable : List UInt8 := [0x50, 0x2A, 0x4D, 0x18, 0x01, 0x00, 0x00, 0x00, 0xAB]

theorem reads_skippable (said : length = 20000) :
    format.Reads true (zeros ++ skippable) (List.replicate length 0)
      (some (zerosRead length)) [] := by
  have step : format.Step true (some (zerosRead length), skippable) []
      (some (zerosRead length), []) := by
    have header : format.header skippable = .skippable 8 1 := rfl
    have whole : (8 + 1 : Nat) ≤ skippable.length := by decide
    exact .skippable between_zeros (sound_zeros said) (List.cons_ne_nil _ _)
      (fun last => Bool.noConfusion last) header whole
  have whole := (reads_zeros said skippable (fun last => Bool.noConfusion last)).step step
  rwa [List.append_nil] at whole

/-- The pushes end inside the header, at five bytes of the skippable frame, and at its end. -/
theorem uncut_zeros : format.Uncut [zeros.take 8, zeros.drop 8 ++ skippable.take 5,
    skippable.drop 5] := by
  refine ⟨fun front first => ?_, ?_⟩
  · simp only [List.prefix_cons_iff, List.prefix_nil] at first
    have short : ∀ s : List UInt8, s.length < 18 → ¬ format.EndsAtChecksum false s :=
      fun s short => (ZstdFormat.Reads.refl s).not_endsAtChecksum (.short rfl between_none short)
        between_none
    have behind : ∀ more : List UInt8, 4 ≤ more.length → more.length < 18 →
        ¬ format.EndsAtChecksum false (zeros ++ more) :=
      fun more long short => (reads_zeros rfl more fun _ => long).not_endsAtChecksum
        (.short rfl between_zeros short) between_zeros
    obtain rfl | ⟨_, rfl, rfl | ⟨_, rfl, rfl | ⟨_, rfl, rfl⟩⟩⟩ := first
    · exact short _ (by decide)
    · exact short _ (by decide)
    · exact behind (skippable.take 5) (by decide) (by decide)
    · exact behind skippable (by decide) (by decide)
  · exact (reads_skippable rfl).not_endsAtChecksum (.atEnd between_zeros) between_zeros

end Rle

namespace ZstdStream

/-- Of the frame 3616 bytes are held back in the call that finishes it. -/
theorem pending_bounded_iff_zeros :
    Settles Rle.decoder [Rle.zeros.take 8, Rle.zeros.drop 8 ++ Rle.skippable.take 5,
      Rle.skippable.drop 5] (.ok (List.replicate 20000 0)) := by
  refine ((pending_bounded_iff Rle.decoder_follows).2.2.1 _ _).2 (.inr Rle.uncut_zeros) ?_
  exact ⟨_, Rle.reads_skippable rfl, Rle.between_zeros, Rle.sound_zeros rfl⟩

/-- Bytes that end inside a skippable frame stay pending. -/
theorem pushed_unfinished {s : List UInt8} {n length : Nat}
    (header : Rle.format.header s = .skippable n length)
    (long : zstdMaxFrameHeader ≤ s.length) (longer : s.length < n + length) :
    Pushed Rle.decoder [s] ⟨(none, []), s, []⟩ := by
  have some_ : s ≠ [] := List.ne_nil_of_length_pos (Nat.lt_of_lt_of_le (by decide) long)
  have called : Rle.decoder.init (none, []) s = (.error (.skipFrame length), n, (none, [])) := by
    simp only [Rle.decoder, header]
  refine ⟨[], 2, fun fuel enough => ?_⟩
  obtain ⟨fuel, rfl⟩ := Nat.exists_eq_add_of_le' enough
  have waits : startFrame Rle.decoder false (fuel + 1) (none, []) s =
      some (.ok false, (none, []), s) := by
    rw [startFrame, if_neg some_, if_neg fun short => Nat.not_lt.mpr long short.2, called]
    simp only [if_pos longer]
    rfl
  have next : nextFrame Rle.decoder false (fuel + 1) ⟨(none, []), s, []⟩ =
      some (.ok false, ⟨(none, []), s, []⟩) := by
    have drained : drain Rle.decoder (fuel + 1) (none, []) [] = some (.ok (), (none, []), []) := by
      simp only [drain, Rle.decoder, List.take_nil, List.drop_nil]
    have verified : verifyChecksum Rle.decoder (none, []) = .ok () := rfl
    unfold nextFrame
    dsimp only
    rw [drained]
    dsimp only
    rw [verified]
    dsimp only
    rw [waits]
    rfl
  have driven : push Rle.decoder (fuel + 2) s (new Rle.decoder) =
      some (.ok [], ⟨(none, []), s, []⟩) := by
    have whole : drive Rle.decoder false (fuel + 2) ⟨(none, []), s, []⟩ =
        some (.ok [], ⟨(none, []), s, []⟩) := by
      have finished : Rle.decoder.isFinished (none, []) = true := rfl
      rw [drive, if_pos finished, next]
    exact whole
  have whole : pushes Rle.decoder (fuel + 2) [s] (new Rle.decoder) =
      some (.ok [], ⟨(none, []), s, []⟩) := by
    rw [pushes, driven]
    rfl
  exact whole

/-- A skippable frame of two megabytes stays pending as its first bytes come. -/
theorem skippable_frame_stays_pending :
    ¬ ∀ (f : FrameDecoder (Option Rle × List UInt8)) (fmt : ZstdFormat Rle)
      (frame : Option Rle × List UInt8 → Option Rle)
      (held : Option Rle × List UInt8 → List UInt8), f.Follows fmt frame held →
      ∀ inputs stream, Pushed f inputs stream →
        stream.pending.length ≤ maxBlock + zstdMaxFrameHeader := by
  intro bounded
  obtain ⟨s, length, header⟩ : ∃ s, s.length = 140008 ∧
      Rle.format.header s = .skippable 8 2097152 := by
    have length : ([0x50, 0x2A, 0x4D, 0x18, 0x00, 0x00, 0x20, 0x00] ++
        List.replicate 140000 (0 : UInt8)).length = 140008 := by
      have eight : [(0x50 : UInt8), 0x2A, 0x4D, 0x18, 0x00, 0x00, 0x20, 0x00].length = 8 := rfl
      rw [List.length_append, List.length_replicate, eight]
    have frame : ¬ ([0x50, 0x2A, 0x4D, 0x18, 0x00, 0x00, 0x20, 0x00] ++
        List.replicate 140000 (0 : UInt8)).take 6 = [0x28, 0xB5, 0x2F, 0xFD, 0x04, 0x28] := by
      intro same
      cases congrArg List.head? same
    have magic : ([0x50, 0x2A, 0x4D, 0x18, 0x00, 0x00, 0x20, 0x00] ++
        List.replicate 140000 (0 : UInt8)).take 4 = [0x50, 0x2A, 0x4D, 0x18] := rfl
    have said : fromLe ((([0x50, 0x2A, 0x4D, 0x18, 0x00, 0x00, 0x20, 0x00] ++
        List.replicate 140000 (0 : UInt8)).drop 4).take 4) = 2097152 := by decide
    refine ⟨_, length, ?_⟩
    simp only [Rle.format]
    rw [if_neg frame, if_pos ⟨magic, by rw [length]; decide⟩, said]
  have pushed := pushed_unfinished header (by rw [length]; decide) (by rw [length]; decide)
  have fits := bounded _ _ _ _ Rle.decoder_follows [s] _ pushed
  rw [length] at fits
  exact absurd fits (by decide)

end ZstdStream
end HClient.Body
