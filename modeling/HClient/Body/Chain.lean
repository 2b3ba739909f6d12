import HClient.Body.Decompressed

/-!
# The body a client hands back

`ClientBody`: a limit, around a decoder, around a deadline, around what came from the transport or
out of the store. The transport's body is any that keeps the contract of `http_body::Body`. A poll
of the chain meets one moment for each poll of the deadline inside it.
-/
namespace HClient.Body

open Native

/-- From here the body goes on to end cleanly, after so many bytes. -/
inductive Ends {σ : Type} (step : σ → Answer → σ → Prop) : σ → Nat → Prop where
  | ended {s s' : σ} (last : step s .ended s') : Ends step s 0
  | goes {s s' : σ} {a : Answer} {n : Nat} (first : step s a s') (on : a.isLast = false)
      (rest : Ends step s' n) : Ends step s (a.bytes.length + n)

/-- A transport's body, by the number of times it has been polled. -/
structure Transport where
  answer : Nat → Answer
  isEndStream : Nat → Bool
  sizeHint : Nat → SizeHint
  stays_ended : ∀ i, answer i = .ended → answer (i + 1) = .ended
  no_frame_after_end : ∀ i j, isEndStream i = true → i ≤ j → (answer j).isFrame = false
  hint_contains : ∀ i n, Ends (fun i a i' => answer i = a ∧ i' = i + 1) i n →
    (sizeHint i).Contains n

/-- One poll of the transport's body. -/
abbrev Transport.Answers (t : Transport) (i : Nat) (a : Answer) (i' : Nat) : Prop :=
  t.answer i = a ∧ i' = i + 1

abbrev Waker := Nat

/-- What a sleep was asked for, at a reading of the clock since the operation began. -/
structure Sleep where
  asked : Duration
  length : Duration
  deriving DecidableEq

def Sleep.due (s : Sleep) : Duration := s.asked + s.length

/-- What a poll of the deadline meets: the reading of the clock, and what a sleep and a write of
the store answer there. -/
structure Moment where
  elapsed : Duration
  sleepReady : Bool
  written : Bool

inductive Call where
  | transport (waker : Waker) (elapsed : Duration)
  | write (waker : Waker)
  | sleep (waker : Waker) (sleep : Sleep)
  | expired
  | exceeded
  deriving DecidableEq

structure Recorder where
  buffered : List UInt8
  maxBodyBytes : Nat

def Recorder.push (r : Recorder) (data : List UInt8) : Option Recorder :=
  if r.buffered.length + data.length > r.maxBodyBytes then none
  else some { r with buffered := r.buffered ++ data }

/-- `inner` is how often the transport's body has been polled, and `committing` what the store is
writing. -/
structure Cached where
  inner : Option Nat
  stored : Option (List UInt8)
  recorder : Option Recorder
  committing : Option (List UInt8)

namespace Cached

def live : Cached := ⟨some 0, none, none, none⟩

def fromStore (bytes : List UInt8) : Cached := ⟨none, some bytes, none, none⟩

def recording (maxBodyBytes : Nat) : Cached := ⟨some 0, none, some ⟨[], maxBodyBytes⟩, none⟩

/-- What the recorder makes of an answer of the transport's body. -/
def record (b : Cached) : Answer → Cached
  | .data bytes => { b with recorder := b.recorder.bind (·.push bytes) }
  | .trailers _ | .failed _ => { b with recorder := none }
  | .ended =>
      match b.recorder with
      | some r => { b with recorder := none, committing := some r.buffered }
      | none => b
  | .pending => b

def pollWrite (w : Waker) (m : Moment) (b : Cached) : Answer × Cached × List Call :=
  if m.written then (.ended, { b with committing := none }, [.write w])
  else (.pending, b, [.write w])

def pollFrame (t : Transport) (w : Waker) (b : Cached) (m : Moment) :
    Answer × Cached × List Call :=
  match b.stored, b.committing, b.inner with
  | some (byte :: bytes), _, _ => (.data (byte :: bytes), { b with stored := none }, [])
  | _, some _, _ => pollWrite w m { b with stored := none }
  | _, none, none => (.ended, { b with stored := none }, [])
  | _, none, some i =>
      let b := { b with stored := none, inner := some (i + 1) }.record (t.answer i)
      match b.committing with
      | some _ =>
          let (answer, b, calls) := pollWrite w m b
          (answer, b, .transport w m.elapsed :: calls)
      | none => (t.answer i, b, [.transport w m.elapsed])

def isEndStream (t : Transport) (b : Cached) : Bool :=
  match b.stored, b.inner with
  | some _, _ => false
  | none, some i => t.isEndStream i
  | none, none => true

def sizeHint (t : Transport) (b : Cached) : SizeHint :=
  match b.stored, b.inner with
  | some bytes, _ => .withExact bytes.length
  | none, some i => t.sizeHint i
  | none, none => .withExact 0

end Cached

structure Deadline where
  inner : Option Cached
  total : Option Duration
  sleep : Option Sleep

namespace Deadline

/-- `started.elapsed()` is `elapsed` when the wrapper is made. -/
def new (inner : Cached) (elapsed : Duration) (total : Option Duration) : Deadline :=
  ⟨some inner, total, total.map fun t => ⟨elapsed, t - elapsed⟩⟩

def overrun (b : Deadline) (elapsed : Duration) : Option Duration :=
  b.total.bind fun total => if elapsed ≥ total then some total else none

def timedOut (total : Duration) : Error := .new (.timeout .total) (.totalTimeoutElapsed total)

def fire (b : Deadline) (total : Duration) (calls : List Call) : Answer × Deadline × List Call :=
  (.failed (timedOut total), { b with inner := none, sleep := none }, calls ++ [.expired])

def pollFrame (t : Transport) (w : Waker) (b : Deadline) (m : Moment) :
    Answer × Deadline × List Call :=
  match b.overrun m.elapsed, b.inner with
  | some total, _ => b.fire total []
  | none, none => (.failed (timedOut (b.total.getD 0)), b, [])
  | none, some inner =>
      match inner.pollFrame t w m, b.sleep with
      | (.pending, inner, calls), some sleep =>
          if m.sleepReady then
            { b with inner := some inner }.fire (b.total.getD 0) (calls ++ [Call.sleep w sleep])
          else (.pending, { b with inner := some inner }, calls ++ [Call.sleep w sleep])
      | (answer, inner, calls), _ => (answer, { b with inner := some inner }, calls)

def isEndStream (t : Transport) (b : Deadline) : Bool := b.inner.any (·.isEndStream t)

def sizeHint (t : Transport) (b : Deadline) : SizeHint := (b.inner.map (·.sizeHint t)).getD .default

end Deadline

/-- `Limited`, around the rest of the chain. `seen` counts in a `u64` no body fills. -/
structure ClientBody (D : Type) where
  inner : Option (Decompressed Deadline D)
  limit : Option Nat
  seen : Nat

namespace ClientBody
variable {D : Type}

def new (body : Cached) (elapsed : Duration) (total : Option Duration) (decoder : Option D)
    (limit : Option Nat) : ClientBody D :=
  ⟨some (.new (.new body elapsed total) decoder), limit, 0⟩

def tooLarge (limit seen : Nat) : Error := .new .body (.responseTooLarge limit seen)

/-- What the limit makes of an answer of the chain inside, which is left as `inner`. -/
def count (b : ClientBody D) (inner : Decompressed Deadline D) (answer : Answer)
    (calls : List Call) : Answer × ClientBody D × List Call :=
  match b.limit with
  | none => (answer, { b with inner := some inner }, calls)
  | some limit =>
      if answer.isFrame then
        let seen := b.seen + answer.bytes.length
        if seen > limit then
          (.failed (tooLarge limit seen), { b with inner := none, seen }, calls ++ [.exceeded])
        else (answer, { b with inner := some inner, seen }, calls)
      else (answer, { b with inner := some inner }, calls)

def pollFrame (t : Transport) (dec : Decode D) (w : Waker) (b : ClientBody D)
    (moments : List Moment) : Option (Answer × ClientBody D × List Call × List Moment) :=
  match b.inner with
  | none => some (.ended, b, [], moments)
  | some inner =>
      (inner.pollFrame dec (Deadline.pollFrame t w) moments).map
        fun (answer, inner, calls, moments) =>
          let (answer, b, calls) := b.count inner answer calls
          (answer, b, calls, moments)

def isEndStream (t : Transport) (b : ClientBody D) : Bool :=
  match b.inner with
  | none => true
  | some inner => inner.isEndStream (Deadline.isEndStream t)

def sizeHint (t : Transport) (b : ClientBody D) : SizeHint :=
  match b.inner, b.limit with
  | none, _ => .withExact 0
  | some inner, none => inner.sizeHint (Deadline.sizeHint t)
  | some inner, some limit => (inner.sizeHint (Deadline.sizeHint t)).atMost (limit - b.seen)

/-- The transport's body, unless it has been dropped. -/
def transport (b : ClientBody D) : Option Nat :=
  (b.inner.bind (·.inner.inner)).bind Cached.inner

end ClientBody
end HClient.Body
