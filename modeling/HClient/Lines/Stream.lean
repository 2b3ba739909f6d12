import HClient.Sse.Lines

/-!
# A response body read as lines

`LineStream` reads chunks off a response until it has a line to hand over. Whatever it hands
over, call by call, is what one pass over the frames of the body reads.
-/
namespace HClient.Lines

open Sse

/-- A frame of a body, whose trailers nothing here reads. -/
inductive BodyFrame where
  | data (bytes : Bytes)
  | trailers
  deriving DecidableEq, Repr

section
variable {E : Type}

/-- A response, as what polls of its body will bring. -/
structure Response (E : Type) where
  body : List (Except E BodyFrame)
  isSealed : Bool

/-- The loop of `Response::chunk`. -/
def chunkOf : List (Except E BodyFrame) → Option (Except E Bytes) × Response E
  | [] => (none, ⟨[], true⟩)
  | .ok (.data bytes) :: rest => (some (.ok bytes), ⟨rest, false⟩)
  | .ok .trailers :: rest => chunkOf rest
  | .error e :: rest => (some (.error e), ⟨rest, true⟩)

def Response.chunk (resp : Response E) : Option (Except E Bytes) × Response E :=
  if resp.isSealed then (none, resp) else chunkOf resp.body

inductive LineError (E : Type) where
  | lineTooLong (limit seen : Nat)
  | body (e : E)
  deriving DecidableEq, Repr

inductive Ending where
  | eof
  | failed
  deriving DecidableEq, Repr

structure LineStream (E : Type) where
  resp : Response E
  splitter : LineSplitter
  ready : List Bytes
  maxLine : Nat
  fatal : Option (LineError E)
  ending : Option Ending

abbrev Line (E : Type) := Except (LineError E) Bytes

namespace LineStream

def new (resp : Response E) (maxLine : Nat) : LineStream E :=
  { resp, splitter := .new, ready := [], maxLine, fatal := none, ending := none }

/-- A chunk that came: its lines are made ready, and what is left is checked. -/
def take (s : LineStream E) (chunk : Bytes) : LineStream E :=
  let drained := (s.splitter.push chunk).drain
  let s := { s with splitter := drained.2, ready := s.ready ++ drained.1.map Prod.fst }
  if s.splitter.bufferedLen > s.maxLine then
    { s with
      ending := some .failed
      fatal := some (.lineTooLong s.maxLine s.splitter.bufferedLen) }
  else s

/-- One turn of the loop of `next`: an answer, or another turn. -/
def turn (s : LineStream E) : (Option (Line E) × LineStream E) ⊕ LineStream E :=
  match s.ready, s.fatal, s.ending with
  | line :: ready, _, _ => .inl (some (.ok line), { s with ready })
  | [], some e, _ => .inl (some (.error e), { s with fatal := none })
  | [], none, some .failed => .inl (none, s)
  | [], none, some .eof =>
      let (tail, splitter) := s.splitter.takeUnterminated
      let s := { s with splitter }
      if tail = [] then .inl (none, s) else .inl (some (.ok tail), s)
  | [], none, none =>
      let (answer, resp) := s.resp.chunk
      let s := { s with resp }
      match answer with
      | some (.ok chunk) => .inr (s.take chunk)
      | some (.error e) => .inr { s with ending := some .failed, fatal := some (.body e) }
      | none => .inr { s with ending := some .eof }

/-- What calls of `next` answer, one after another, up to the first `None`. -/
inductive Yields : LineStream E → List (Line E) → Prop
  | again {s s' : LineStream E} {out : List (Line E)} (turned : s.turn = .inr s')
      (rest : Yields s' out) : Yields s out
  | line {s s' : LineStream E} {a : Line E} {out : List (Line E)}
      (answered : s.turn = .inl (some a, s')) (rest : Yields s' out) : Yields s (a :: out)
  | stop {s s' : LineStream E} (ended : s.turn = .inl (none, s')) : Yields s []

theorem Yields.unique {s : LineStream E} {out out' : List (Line E)} (h : Yields s out)
    (h' : Yields s out') : out = out' := by
  induction h generalizing out' with
  | again turned rest ih =>
      cases h' with
      | again turned' rest' =>
          cases turned.symm.trans turned'
          exact ih rest'
      | line answered rest' => cases turned.symm.trans answered
      | stop ended => cases turned.symm.trans ended
  | line answered rest ih =>
      cases h' with
      | again turned rest' => cases answered.symm.trans turned
      | line answered' rest' =>
          cases answered.symm.trans answered'
          rw [ih rest']
      | stop ended => cases answered.symm.trans ended
  | stop ended =>
      cases h' with
      | again turned rest' => cases ended.symm.trans turned
      | line answered rest' => cases ended.symm.trans answered
      | stop ended' => rfl

end LineStream

/-- What is behind the last line, when the body has ended. -/
def tailOf (splitter : LineSplitter) : List (Line E) :=
  if splitter.takeUnterminated.1 = [] then [] else [.ok splitter.takeUnterminated.1]

/-- One pass over the frames of a body. -/
def readLines (maxLine : Nat) : LineSplitter → List (Except E BodyFrame) → List (Line E)
  | s, [] => tailOf s
  | _, .error e :: _ => [.error (.body e)]
  | s, .ok .trailers :: rest => readLines maxLine s rest
  | s, .ok (.data chunk) :: rest =>
      let drained := (s.push chunk).drain
      drained.1.map (fun line => .ok line.1) ++
        if drained.2.bufferedLen > maxLine then
          [.error (.lineTooLong maxLine drained.2.bufferedLen)]
        else readLines maxLine drained.2 rest

namespace LineStream

/-- The lines that are ready come first. -/
theorem yields_ready {s : LineStream E} {out : List (Line E)}
    (rest : Yields { s with ready := [] } out) :
    Yields s (s.ready.map .ok ++ out) := by
  induction lines : s.ready generalizing s with
  | nil =>
      have same : { s with ready := [] } = s := by rw [← lines]
      rw [same] at rest
      exact rest
  | cons line ready ih =>
      refine Yields.line ?_ (ih (s := { s with ready }) rest rfl)
      rw [turn, lines]

theorem yields_failed {s : LineStream E} {e : LineError E} (ready : s.ready = [])
    (fatal : s.fatal = some e) (ending : s.ending = some .failed) : Yields s [.error e] := by
  have answered : s.turn = .inl (some (.error e), { s with fatal := none }) := by
    rw [turn, ready, fatal]
  have ended : turn { s with fatal := none } = .inl (none, { s with fatal := none }) := by
    rw [turn, ready, ending]
  exact .line answered (.stop ended)

theorem yields_eof {s : LineStream E} (ready : s.ready = []) (fatal : s.fatal = none)
    (ending : s.ending = some .eof) : Yields s (tailOf s.splitter) := by
  have answered (s : LineStream E) (ready : s.ready = []) (fatal : s.fatal = none)
      (ending : s.ending = some .eof) :
      s.turn = .inl (if s.splitter.takeUnterminated.1 = [] then none
          else some (.ok s.splitter.takeUnterminated.1),
        { s with splitter := s.splitter.takeUnterminated.2 }) := by
    rw [turn, ready, fatal, ending]
    simp only
    split <;> rfl
  have first := answered s ready fatal ending
  unfold tailOf
  split
  next empty =>
    rw [if_pos empty] at first
    exact .stop first
  next some =>
    rw [if_neg some] at first
    -- the splitter is empty now, so there is nothing more to take
    exact .line first (.stop (answered _ ready fatal ending))

/-- Calls of `next` hand over what one pass over the frames reads. -/
theorem yields_readLines (frames : List (Except E BodyFrame)) {s : LineStream E}
    (ready : s.ready = []) (fatal : s.fatal = none) (ending : s.ending = none)
    (resp : s.resp.chunk = chunkOf frames) :
    Yields s (readLines s.maxLine s.splitter frames) := by
  induction frames generalizing s with
  | nil =>
      have turned : s.turn = .inr { s with resp := ⟨[], true⟩, ending := some .eof } := by
        rw [turn, ready, fatal, ending]
        simp only [resp, chunkOf]
      exact .again turned (yields_eof ready fatal rfl)
  | cons frame rest ih =>
      match frame with
      | .ok .trailers => exact ih ready fatal ending resp
      | .error e =>
          have turned : s.turn = .inr { s with
              resp := ⟨rest, true⟩, ending := some .failed, fatal := some (.body e) } := by
            rw [turn, ready, fatal, ending]
            simp only [resp, chunkOf]
          exact .again turned (yields_failed ready rfl rfl)
      | .ok (.data chunk) =>
          have turned : s.turn = .inr ({ s with resp := ⟨rest, false⟩ }.take chunk) := by
            rw [turn, ready, fatal, ending]
            simp only [resp, chunkOf]
          refine .again turned ?_
          have lines : ({ s with resp := ⟨rest, false⟩ }.take chunk).ready =
              (s.splitter.push chunk).drain.1.map Prod.fst := by
            rw [LineStream.take, ready]
            split <;> rfl
          have read : readLines s.maxLine s.splitter (.ok (.data chunk) :: rest) =
              ({ s with resp := ⟨rest, false⟩ }.take chunk).ready.map .ok ++
                if (s.splitter.push chunk).drain.2.bufferedLen > s.maxLine then
                  [.error (.lineTooLong s.maxLine (s.splitter.push chunk).drain.2.bufferedLen)]
                else readLines s.maxLine (s.splitter.push chunk).drain.2 rest := by
            rw [lines, List.map_map]
            rfl
          rw [read]
          apply yields_ready
          by_cases long : (s.splitter.push chunk).drain.2.bufferedLen > s.maxLine
          · rw [if_pos long, LineStream.take, if_pos long]
            exact yields_failed rfl rfl rfl
          · rw [if_neg long, LineStream.take, if_neg long]
            exact ih rfl fatal ending rfl

theorem yields_new {frames : List (Except E BodyFrame)} {maxLine : Nat} {out : List (Line E)} :
    Yields (new ⟨frames, false⟩ maxLine) out ↔ out = readLines maxLine .new frames := by
  have read : Yields (new ⟨frames, false⟩ maxLine) (readLines maxLine .new frames) :=
    yields_readLines frames rfl rfl rfl rfl
  exact ⟨fun yields => yields.unique read, fun same => same ▸ read⟩

end LineStream
end
end HClient.Lines
