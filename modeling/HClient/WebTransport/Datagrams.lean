import HClient.Effect.Machine
import HClient.WebTransport.Close

/-!
# The datagrams of several sessions

The sessions of one connection share its datagrams. Whichever call reads one that is not its own
session's leaves it for the session it names and wakes whoever waits there. A call runs from lock
to lock; anything else may happen in between, and a call may be dropped wherever it waits.
-/
namespace HClient.WebTransport

open Effect (Machine)

/-- A payload, and which arrival it came with. -/
structure Datagram where
  number : Nat
  payload : List UInt8
  deriving DecidableEq, Repr

/-- One session's side of the hand-off. -/
structure Parked (ω : Type) where
  held : Option Datagram
  waker : Option ω
  deriving DecidableEq, Repr

/-- Where a call of `recv_datagram` stands. -/
inductive Stage where
  | fresh
  | collecting
  | registering
  | reading
  | handing (id : Nat) (datagram : Datagram)
  | waiting
  deriving DecidableEq, Repr

/-- A call of a session, the waker it was last polled with, and whether that has been woken since
a datagram was last parked for the session. -/
structure Call (ω : Type) where
  quarter : Nat
  stage : Stage
  waker : Option ω
  woken : Bool
  deriving DecidableEq, Repr

structure Shared (ι ω : Type) where
  /-- The frames the connection has received; `read` of them have been read. -/
  arrived : List (List UInt8)
  read : Nat
  lost : Bool
  parked : Nat → Option (Parked ω)
  call : ι → Option (Call ω)
  /-- What was answered, and to which session's call. -/
  delivered : List (Nat × Datagram)
  dropped : List Nat

variable {ι ω : Type} [DecidableEq ι] [DecidableEq ω]

namespace Shared

def initial : Shared ι ω := ⟨[], 0, false, fun _ => none, fun _ => none, [], []⟩

/-- What every call is turned into. -/
def mark (s : Shared ι ω) (f : Call ω → Call ω) : Shared ι ω :=
  { s with call := fun i => (s.call i).map f }

def wake (s : Shared ι ω) (w : ω) : Shared ι ω :=
  s.mark fun c => if c.waker = some w then { c with woken := true } else c

/-- The connection wakes every read that waits on it. -/
def notify (s : Shared ι ω) : Shared ι ω :=
  s.mark fun c => if c.stage = .waiting then { c with woken := true } else c

/-- No wake-up of the session counts from here on. -/
def forget (s : Shared ι ω) (quarter : Nat) : Shared ι ω :=
  s.mark fun c => if c.quarter = quarter then { c with woken := false } else c

def put (s : Shared ι ω) (i : ι) (c : Option (Call ω)) : Shared ι ω :=
  { s with call := Function.update s.call i c }

def park (s : Shared ι ω) (quarter : Nat) (p : Option (Parked ω)) : Shared ι ω :=
  { s with parked := Function.update s.parked quarter p }

def deliver (s : Shared ι ω) (quarter : Nat) (d : Datagram) : Shared ι ω :=
  { s with delivered := s.delivered ++ [(quarter, d)] }

def discard (s : Shared ι ω) (number : Nat) : Shared ι ω :=
  { s with dropped := s.dropped ++ [number] }

/-- The datagram a sibling left, if there is one; the waker is forgotten with it. -/
def collect (s : Shared ι ω) (quarter : Nat) : Option Datagram × Shared ι ω :=
  match s.parked quarter with
  | none => (none, s)
  | some waiting => (waiting.held, s.park quarter (some ⟨none, none⟩))

/-- Whether a datagram is there already; if not, this is the waker to wake. -/
def waitForAHandover (s : Shared ι ω) (quarter : Nat) (waker : Option ω) : Bool × Shared ι ω :=
  let waiting := (s.parked quarter).getD ⟨none, none⟩
  if waiting.held.isSome then (true, s.park quarter (some waiting))
  else (false, s.park quarter (some { waiting with waker := waker }))

/-- At most one datagram is held for a session. -/
def handOver (s : Shared ι ω) (quarter : Nat) (d : Datagram) : Shared ι ω :=
  match s.parked quarter with
  | none => s.discard d.number
  | some waiting =>
      let s := s.park quarter (some ⟨some (waiting.held.getD d), none⟩)
      let s := if waiting.held.isSome then s.discard d.number else s.forget quarter
      match waiting.waker with
      | none => s
      | some waker => s.wake waker

/-- What a call that is being polled does up to its next lock. -/
def section_ (s : Shared ι ω) (i : ι) (c : Call ω) : Option (Shared ι ω) :=
  match c.stage with
  | .fresh => none
  | .waiting => none
  | .collecting =>
      match s.collect c.quarter with
      | (some d, s) => some ((s.deliver c.quarter d).put i none)
      | (none, s) => some (s.put i (some { c with stage := .registering }))
  | .registering =>
      match s.waitForAHandover c.quarter c.waker with
      | (true, s) => some (s.put i (some { c with stage := .collecting }))
      | (false, s) => some (s.put i (some { c with stage := .reading }))
  | .reading =>
      match s.arrived[s.read]? with
      | none =>
          if s.lost then some (s.put i none) else some (s.put i (some { c with stage := .waiting }))
      | some frame =>
          let number := s.read
          let s := { s with read := s.read + 1 }
          match getVarint frame with
          | none => some ((s.discard number).put i (some { c with stage := .collecting }))
          | some (id, header) =>
              let d := ⟨number, frame.drop header⟩
              if id = c.quarter then some ((s.deliver c.quarter d).put i none)
              else some (s.put i (some { c with stage := .handing id d }))
  | .handing id d => some ((s.put i (some { c with stage := .collecting })).handOver id d)

end Shared

inductive Label (ι ω : Type) where
  | openSession (quarter : Nat)
  | dropSession (quarter : Nat)
  | recvDatagram (i : ι) (quarter : Nat)
  | poll (i : ι) (waker : ω)
  | run (i : ι)
  | cancel (i : ι)
  | arrive (frame : List UInt8)
  | lose

namespace Shared

def step : Machine (Shared ι ω) (Label ι ω) := fun s l =>
  match l with
  | .openSession quarter =>
      if (s.parked quarter).isNone then some (s.park quarter (some ⟨none, none⟩)) else none
  | .dropSession quarter =>
      match s.parked quarter with
      | none => none
      | some waiting =>
          let s := s.park quarter none
          some (match waiting.held with
            | none => s
            | some d => s.discard d.number)
  | .recvDatagram i quarter =>
      if (s.call i).isNone ∧ (s.parked quarter).isSome then
        some (s.put i (some ⟨quarter, .fresh, none, false⟩))
      else none
  | .poll i waker =>
      match s.call i with
      | none => none
      | some c =>
          match c.stage with
          | .fresh => some (s.put i (some { c with stage := .collecting, waker := some waker }))
          | .waiting => some (s.put i (some { c with stage := .registering, waker := some waker }))
          | _ => none
  | .run i => (s.call i).bind fun c => s.section_ i c
  | .cancel i =>
      match s.call i with
      | none => none
      | some c => if c.stage = .fresh ∨ c.stage = .waiting then some (s.put i none) else none
  | .arrive frame =>
      if s.lost then none
      else
        let arrived := { s with arrived := s.arrived ++ [frame] }
        some (if s.read = s.arrived.length then arrived.notify else arrived)
  | .lose => some { s with lost := true }.notify

end Shared

/-- A session outlives its calls. -/
def Lawful (s : Shared ι ω) : Label ι ω → Prop
  | .dropSession quarter => ∀ i c, s.call i = some c → c.quarter ≠ quarter
  | _ => True

/-- A call is polled while no other call of its session is under way. -/
def Alone (s : Shared ι ω) : Label ι ω → Prop
  | .poll i _ => ∀ c, s.call i = some c → ∀ j other, s.call j = some other →
      other.quarter = c.quarter → other.stage ≠ .fresh → j = i
  | _ => True

end HClient.WebTransport
