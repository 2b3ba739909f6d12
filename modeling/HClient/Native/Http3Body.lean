import HClient.Body.Frame
import HClient.Core.Poll

/-!
# The body of an HTTP/3 response

`H3Body`, which carries the rest of the request as well: each poll drives the pump first, and
then reads the response, its data and its trailers. A pump that fails once the response is over
is told of nevertheless.
-/
namespace HClient.Native.Http3Body

open Body (Answer)

inductive Phase where
  | data
  | trailers
  | done
  deriving DecidableEq, Repr

/-- Whether the pump is still there and whether somebody watches; the receive half is outside. -/
structure H3Body where
  pump : Bool
  phase : Phase
  watch : Bool
  deriving DecidableEq, Repr

/-- What the pump and the receive half answer in one poll, if they are asked. A buffer may be
several chunks, and an error of the stream is known by its text. -/
structure World where
  pump : Poll (Except Error Unit)
  recvData : Poll (Except Text (Option (List (List UInt8))))
  recvTrailers : Poll (Except Text (Option (HeaderMap HeaderValue)))

inductive Call where
  | pump
  | recvData
  | recvTrailers
  | watchFailed (e : Error)

def streamError (e : Text) : Error := .new .body (.text e)

namespace H3Body

def new (pump watch : Bool) : H3Body := ⟨pump, .data, watch⟩

def reportFailure (b : H3Body) (e : Error) : List Call := if b.watch then [.watchFailed e] else []

/-- The failure of the pump, if it failed, with the calls that were made. -/
def pollPump (b : H3Body) (w : World) : Option Error × List Call × H3Body :=
  if b.pump then
    match w.pump with
    | .ready (.ok ()) => (none, [.pump], { b with pump := false })
    | .ready (.error e) => (some e, [.pump], { b with pump := false })
    | .pending => (none, [.pump], b)
  else (none, [], b)

def pollTrailers (b : H3Body) (w : World) : Answer × List Call × H3Body :=
  match w.recvTrailers with
  | .pending => (.pending, [.recvTrailers], b)
  | .ready out =>
      let b := { b with phase := .done }
      match out with
      | .ok (some fields) => (.trailers fields, [.recvTrailers], b)
      | .ok none => (.ended, [.recvTrailers], b)
      | .error e =>
          (.failed (streamError e), .recvTrailers :: b.reportFailure (streamError e), b)

def pollData (b : H3Body) (w : World) : Answer × List Call × H3Body :=
  match w.recvData with
  | .pending => (.pending, [.recvData], b)
  | .ready (.ok (some buf)) => (.data buf.flatten, [.recvData], b)
  | .ready (.ok none) =>
      let (answer, calls, b) := pollTrailers { b with phase := .trailers } w
      (answer, .recvData :: calls, b)
  | .ready (.error e) =>
      (.failed (streamError e), .recvData :: b.reportFailure (streamError e),
        { b with phase := .done })

/-- The loop over the phases. -/
def pollRecv (b : H3Body) (w : World) : Answer × List Call × H3Body :=
  match b.phase with
  | .done => (.ended, [], b)
  | .data => b.pollData w
  | .trailers => b.pollTrailers w

def pollFrame (b : H3Body) (w : World) : Answer × List Call × H3Body :=
  match b.pollPump w with
  | (some e, calls, b) => (.failed e, calls ++ b.reportFailure e, { b with phase := .done })
  | (none, calls, b) => ((b.pollRecv w).1, calls ++ (b.pollRecv w).2.1, (b.pollRecv w).2.2)

end H3Body

/-- One poll, with the body and its halves as they were. -/
structure Polled where
  before : H3Body
  world : World
  answer : Answer
  calls : List Call

def polls : H3Body → List World → List Polled
  | _, [] => []
  | b, w :: worlds =>
      ⟨b, w, (b.pollFrame w).1, (b.pollFrame w).2.1⟩ :: polls (b.pollFrame w).2.2 worlds

/-! ## The contract of a body -/

/-- What a call brought from the receive half. -/
def World.brought (w : World) : Call → List Answer
  | .recvData =>
      match w.recvData with
      | .ready (.ok (some buf)) => [.data buf.flatten]
      | _ => []
  | .recvTrailers =>
      match w.recvTrailers with
      | .ready (.ok (some fields)) => [.trailers fields]
      | _ => []
  | _ => []

def Polled.received (x : Polled) : List Answer := x.calls.flatMap x.world.brought

def Polled.delivered (x : Polled) : List Answer := if x.answer.isFrame then [x.answer] else []

/-- An end, trailers or an error. -/
def reportsEnd : Answer → Bool
  | .ended | .failed _ | .trailers _ => true
  | .data _ | .pending => false

def readyTrailers (w : World) : Answer :=
  match w.recvTrailers with
  | .pending => .pending
  | .ready (.ok (some fields)) => .trailers fields
  | .ready (.ok none) => .ended
  | .ready (.error e) => .failed (streamError e)

/-- What the receive half has, by itself. -/
def ready (phase : Phase) (w : World) : Answer :=
  match phase with
  | .done => .ended
  | .trailers => readyTrailers w
  | .data =>
      match w.recvData with
      | .pending => .pending
      | .ready (.ok (some buf)) => .data buf.flatten
      | .ready (.ok none) => readyTrailers w
      | .ready (.error e) => .failed (streamError e)

/-- A pump that is still there does not fail once the response is over. -/
def Fine (x : Polled) : Prop :=
  x.before.phase = .done → x.before.pump = true → ∀ e, x.world.pump ≠ .ready (.error e)

/-! ## One poll -/

/-- What reading the response comes to. -/
structure Reads (b : H3Body) (w : World) (r : Answer × List Call × H3Body) : Prop where
  answer : r.1 = ready b.phase w
  brought : r.2.1.flatMap w.brought = if r.1.isFrame then [r.1] else []
  unpumped : .pump ∉ r.2.1
  pump : r.2.2.pump = b.pump
  phase : r.2.2.phase = .done ↔ reportsEnd r.1 = true

/-- What one poll comes to. -/
structure Step (b : H3Body) (w : World) (r : Answer × List Call × H3Body) : Prop where
  intact : (if r.1.isFrame then [r.1] else []) = r.2.1.flatMap w.brought
  prompt : w.pump = .pending → r.1 = ready b.phase w
  asks : .pump ∈ r.2.1 ↔ b.pump = true
  pump : r.2.2.pump = true ↔ b.pump = true ∧ w.pump = .pending
  phase : r.2.2.phase = .done ↔ reportsEnd r.1 = true
  final : b.phase = .done → (r.1 = .ended ↔ (b.pump = true → ∀ e, w.pump ≠ .ready (.error e)))

end HClient.Native.Http3Body
