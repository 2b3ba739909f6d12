import HClient.Core.Bytes
import HClient.Core.Net
import HClient.Core.Poll
import HClient.Core.Time
import HClient.Effect.Loop
import HClient.Native.Error

/-!
# The Happy Eyeballs scheduler

The addresses of two families wait in two queues. A poll at a reading of the caller's clock
answers the next address to try, or how long to wait, or that nothing is left to try.
-/
namespace HClient

def Duration.fromMillis (millis : Nat) : Duration := millis * 1000000

/-- `Add` for durations, which panics where this has no answer. -/
def Duration.checkedAdd (a b : Duration) : Option Duration :=
  if a + b ≤ longest then some (a + b) else none

def Duration.clamp (d least most : Duration) : Duration :=
  if d < least then least else if most < d then most else d

namespace Connect

inductive Family where
  | v6
  | v4
  deriving DecidableEq, Repr

structure HeConfig where
  resolutionDelay : Duration
  attemptDelay : Duration
  firstFamilyCount : Nat
  deriving DecidableEq, Repr

def HeConfig.default : HeConfig := ⟨.fromMillis 50, .fromMillis 250, 1⟩

def attemptMin : Duration := .fromMillis 100

def attemptMax : Duration := .fromSecs 2

inductive HeAction where
  | start (addr : IpAddr)
  | wait (d : Duration)
  | exhausted
  deriving DecidableEq, Repr

structure Scheduler where
  cfg : HeConfig
  v6 : List IpAddr
  v4 : List IpAddr
  v6Done : Bool
  v4Done : Bool
  started : Nat
  lastStart : Option Duration
  runInFirstFamily : Nat
  deriving DecidableEq, Repr

namespace Scheduler

def new (cfg : HeConfig) : Scheduler where
  cfg := { cfg with attemptDelay := cfg.attemptDelay.clamp attemptMin attemptMax }
  v6 := []
  v4 := []
  v6Done := false
  v4Done := false
  started := 0
  lastStart := none
  runInFirstFamily := 0

def offerV6 (s : Scheduler) (addrs : List IpAddr) : Scheduler := { s with v6 := s.v6 ++ addrs }

def offerV4 (s : Scheduler) (addrs : List IpAddr) : Scheduler := { s with v4 := s.v4 ++ addrs }

def markV6Done (s : Scheduler) : Scheduler := { s with v6Done := true }

def markV4Done (s : Scheduler) : Scheduler := { s with v4Done := true }

def takeV6 (s : Scheduler) : Bool :=
  if s.v6.isEmpty then false
  else if s.v4.isEmpty || s.started == 0 then true
  else s.runInFirstFamily < s.cfg.firstFamilyCount

/-- The front of the family whose turn it is. -/
def pick (s : Scheduler) (elapsed : Duration) : HeAction × Scheduler :=
  if s.takeV6 then
    match s.v6 with
    | [] => (.wait s.cfg.resolutionDelay, s)
    | addr :: v6 =>
        (.start addr, { s with
          v6 := v6
          started := s.started + 1
          lastStart := some elapsed
          runInFirstFamily := s.runInFirstFamily + 1 })
  else
    match s.v4 with
    | [] => (.wait s.cfg.resolutionDelay, s)
    | addr :: v4 =>
        (.start addr, { s with
          v4 := v4
          started := s.started + 1
          lastStart := some elapsed
          runInFirstFamily := 0 })

/-- IPv4 is held back while no IPv6 address has come and more may. -/
def holdBack (s : Scheduler) (elapsed : Duration) : HeAction × Scheduler :=
  if s.v6.isEmpty && !s.v6Done && decide (elapsed < s.cfg.resolutionDelay) then
    (.wait (s.cfg.resolutionDelay - elapsed), s)
  else s.pick elapsed

/-- One poll, with no answer where the end of the attempt delay is past the longest duration. -/
def poll (s : Scheduler) (elapsed : Duration) : Option (HeAction × Scheduler) :=
  if s.v6.isEmpty && s.v4.isEmpty && s.v6Done && s.v4Done then some (.exhausted, s)
  else
    match s.lastStart with
    | none => some (s.holdBack elapsed)
    | some last =>
        match last.checkedAdd s.cfg.attemptDelay with
        | none => none
        | some nextAt =>
            if elapsed < nextAt then some (.wait (nextAt - elapsed), s)
            else some (s.holdBack elapsed)

def queue (s : Scheduler) : Family → List IpAddr
  | .v6 => s.v6
  | .v4 => s.v4

def done (s : Scheduler) : Family → Bool
  | .v6 => s.v6Done
  | .v4 => s.v4Done

def offer (s : Scheduler) : Family → List IpAddr → Scheduler
  | .v6, addrs => s.offerV6 addrs
  | .v4, addrs => s.offerV4 addrs

def markDone (s : Scheduler) : Family → Scheduler
  | .v6 => s.markV6Done
  | .v4 => s.markV4Done

/-- Nothing waits to be tried, and nothing more will come. -/
def Complete (s : Scheduler) : Prop := ∀ f, s.queue f = [] ∧ s.done f = true

section
variable (s : Scheduler) (f g : Family) (addrs : List IpAddr)

theorem queue_offer : (s.offer f addrs).queue g = if g = f then s.queue g ++ addrs else s.queue g := by
  cases f <;> cases g <;> rfl

@[simp] theorem done_offer : (s.offer f addrs).done g = s.done g := by
  cases f <;> cases g <;> rfl

@[simp] theorem lastStart_offer : (s.offer f addrs).lastStart = s.lastStart := by
  cases f <;> rfl

@[simp] theorem cfg_offer : (s.offer f addrs).cfg = s.cfg := by
  cases f <;> rfl

@[simp] theorem queue_markDone : (s.markDone f).queue g = s.queue g := by
  cases f <;> cases g <;> rfl

theorem done_markDone : (s.markDone f).done g = if g = f then true else s.done g := by
  cases f <;> cases g <;> rfl

@[simp] theorem lastStart_markDone : (s.markDone f).lastStart = s.lastStart := by
  cases f <;> rfl

@[simp] theorem cfg_markDone : (s.markDone f).cfg = s.cfg := by
  cases f <;> rfl

theorem complete_iff : s.Complete ↔
    (s.v6.isEmpty && s.v4.isEmpty && s.v6Done && s.v4Done) = true := by
  simp only [Complete, Bool.and_eq_true, List.isEmpty_iff]
  constructor
  · intro all
    exact ⟨⟨⟨(all .v6).1, (all .v4).1⟩, (all .v6).2⟩, (all .v4).2⟩
  · rintro ⟨⟨⟨no6, no4⟩, done6⟩, done4⟩ f
    cases f with
    | v6 => exact ⟨no6, done6⟩
    | v4 => exact ⟨no4, done4⟩

end

/-- The attempt that a poll begins: the front of a family's queue leaves it. -/
structure Begins (s : Scheduler) (elapsed : Duration) (f : Family) (addr : IpAddr)
    (s' : Scheduler) : Prop where
  front : s.queue f = addr :: s'.queue f
  others : ∀ g, g ≠ f → s'.queue g = s.queue g
  done : ∀ g, s'.done g = s.done g
  cfg : s'.cfg = s.cfg
  lastStart : s'.lastStart = some elapsed
  paced : ∀ last ∈ s.lastStart, last + s.cfg.attemptDelay ≤ elapsed
  heldBack : f = .v4 → s.v6 ≠ [] ∨ s.v6Done = true ∨ s.cfg.resolutionDelay ≤ elapsed

/-- A wait, which is for the end of one of the two delays. -/
def Waits (s : Scheduler) (elapsed d : Duration) : Prop :=
  d ≤ s.cfg.resolutionDelay ∨ ∃ last ∈ s.lastStart, d = last + s.cfg.attemptDelay - elapsed

/-- Whether a pick comes from the first family. -/
def pickedFrom (s : Scheduler) : Family := if s.takeV6 then .v6 else .v4

theorem pick_cases (s : Scheduler) (elapsed : Duration) :
    s.pick elapsed = (.wait s.cfg.resolutionDelay, s) ∨
      ∃ addr s', s.pick elapsed = (.start addr, s') ∧
        s.queue s.pickedFrom = addr :: s'.queue s.pickedFrom ∧
        (∀ g, g ≠ s.pickedFrom → s'.queue g = s.queue g) ∧ (∀ g, s'.done g = s.done g) ∧
        s'.cfg = s.cfg ∧ s'.lastStart = some elapsed := by
  unfold pick pickedFrom
  cases turn : s.takeV6 with
  | true =>
      cases waiting : s.v6 with
      | nil => exact .inl rfl
      | cons addr v6 =>
          refine .inr ⟨addr, _, rfl, waiting, ?_, ?_, rfl, rfl⟩
          · intro g other
            cases g with
            | v6 => exact absurd rfl other
            | v4 => rfl
          · intro g
            cases g <;> rfl
  | false =>
      cases waiting : s.v4 with
      | nil => exact .inl rfl
      | cons addr v4 =>
          refine .inr ⟨addr, _, rfl, waiting, ?_, ?_, rfl, rfl⟩
          · intro g other
            cases g with
            | v6 => rfl
            | v4 => exact absurd rfl other
          · intro g
            cases g <;> rfl

/-- What is left of a poll once the attempt delay is past. -/
theorem holdBack_cases (s : Scheduler) (elapsed : Duration)
    (paced : ∀ last ∈ s.lastStart, last + s.cfg.attemptDelay ≤ elapsed) :
    (∃ d, s.holdBack elapsed = (.wait d, s) ∧ s.Waits elapsed d) ∨
      ∃ addr s', s.holdBack elapsed = (.start addr, s') ∧
        s.Begins elapsed s.pickedFrom addr s' := by
  unfold holdBack
  split
  · exact .inl ⟨_, rfl, .inl (Nat.sub_le _ _)⟩
  · rename_i free
    rcases s.pick_cases elapsed with waits | ⟨addr, s', picked, front, others, done, cfg, last⟩
    · exact .inl ⟨_, waits, .inl (Nat.le_refl _)⟩
    · refine .inr ⟨addr, s', picked, front, others, done, cfg, last, paced, ?_⟩
      intro _
      by_contra held
      push Not at held
      obtain ⟨none_waits, more, early⟩ := held
      apply free
      simp [none_waits, more, early]

/-- All that a poll can do. -/
theorem poll_cases {s : Scheduler} {elapsed : Duration} {action : HeAction} {s' : Scheduler}
    (h : s.poll elapsed = some (action, s')) :
    (action = .exhausted ∧ s' = s ∧ s.Complete) ∨
      (∃ d, action = .wait d ∧ s' = s ∧ ¬ s.Complete ∧ s.Waits elapsed d) ∨
      ∃ addr, action = .start addr ∧ ¬ s.Complete ∧ s.Begins elapsed s.pickedFrom addr s' := by
  unfold poll at h
  split at h
  · rename_i all
    cases h
    exact .inl ⟨rfl, rfl, s.complete_iff.mpr all⟩
  · rename_i some_left
    rw [← complete_iff] at some_left
    have later (paced : ∀ last ∈ s.lastStart, last + s.cfg.attemptDelay ≤ elapsed)
        (same : s.holdBack elapsed = (action, s')) :
        (∃ d, action = .wait d ∧ s' = s ∧ ¬ s.Complete ∧ s.Waits elapsed d) ∨
          ∃ addr, action = .start addr ∧ ¬ s.Complete ∧
            s.Begins elapsed s.pickedFrom addr s' := by
      rcases s.holdBack_cases elapsed paced with ⟨d, held, waits⟩ | ⟨addr, next, began, begins⟩
      · cases held.symm.trans same
        exact .inl ⟨d, rfl, rfl, some_left, waits⟩
      · cases began.symm.trans same
        exact .inr ⟨addr, rfl, some_left, begins⟩
    cases before : s.lastStart with
    | none =>
        rw [before] at h
        apply Or.inr
        apply later
        · rw [before]
          exact nofun
        · exact Option.some.inj h
    | some last =>
        rw [before] at h
        cases room : last.checkedAdd s.cfg.attemptDelay with
        | none => simp [room] at h
        | some nextAt =>
            have sum : nextAt = last + s.cfg.attemptDelay := by
              unfold Duration.checkedAdd at room
              split at room
              · exact (Option.some.inj room).symm
              · cases room
            simp only [room] at h
            split at h
            · cases h
              exact .inr (.inl ⟨_, rfl, rfl, some_left, .inr ⟨last, before, by rw [sum]⟩⟩)
            · rename_i past
              apply Or.inr
              apply later
              · rw [before]
                intro last' same
                cases same
                rw [← sum]
                exact Nat.le_of_not_lt past
              · exact Option.some.inj h

/-- A poll that has no answer leaves something to be tried. -/
theorem not_complete_of_poll {s : Scheduler} {elapsed : Duration} (h : s.poll elapsed = none) :
    ¬ s.Complete := by
  intro all
  rw [complete_iff] at all
  simp [poll, all] at h

end Scheduler
end Connect
end HClient

/-!
## DNS records

The answers of a resolver, as far as a connection reads them.
-/
namespace HClient

def IpAddr.family : IpAddr → Connect.Family
  | .v4 _ => .v4
  | .v6 _ => .v6

namespace Connect

structure SvcbEndpoint where
  priority : Nat
  target : Text
  alpn : List (List UInt8)
  port : Option Nat
  ipv4hint : List (List Nat)
  ipv6hint : List (List Nat)
  echConfigList : Option (List UInt8)
  deriving DecidableEq, Repr

inductive RData where
  | a (octets : List Nat)
  | aaaa (groups : List Nat)
  | https (endpoint : SvcbEndpoint)
  deriving DecidableEq, Repr

def RData.addr : RData → Option IpAddr
  | .a octets => some (.v4 octets)
  | .aaaa groups => some (.v6 groups)
  | .https _ => none

structure Record where
  ttl : Option Duration
  rdata : RData
  deriving DecidableEq, Repr

def Record.new (rdata : RData) : Record := ⟨none, rdata⟩

/-- The address that a lookup for a family takes from a record. -/
def Record.addrOf (f : Family) (record : Record) : Option IpAddr :=
  record.rdata.addr.filter fun addr => addr.family = f

end Connect
end HClient

/-!
## The connector's race

Happy Eyeballs over two streams of records: the scheduler is fed as they answer, and says when the
next attempt begins. What the streams, the attempts, the clock and the sleeps answer is left open.
What a hook is told of the timings is left out.
-/
namespace HClient.Connect

open Native (Error ErrorKind ErrorSource ResolveErrors)

structure SocketAddr where
  ip : IpAddr
  port : Nat
  deriving DecidableEq, Repr

inductive Op where
  | elapsed
  | connect (addr : SocketAddr)
  | sleep (d : Duration)
  | pollNext (f : Family)
  | pollAttempts (running : List SocketAddr)
  | pollSleep
  | pending
  deriving DecidableEq

/-- An item of a stream of records. -/
abbrev Item := Except Error Record

/-- What an operation answers, where a connection is an `S`. Of the attempts under way, one is
found finished. The task that answered `Pending` is polled again. -/
def Op.Answer (S : Type) : Op → Type
  | .elapsed => Duration
  | .connect _ => Unit
  | .sleep _ => Unit
  | .pollNext _ => Poll (Option Item)
  | .pollAttempts running => Poll (Fin running.length × Option S)
  | .pollSleep => Poll Unit
  | .pending => Unit

variable {S : Type}

abbrev Script (S α : Type) := Effect.Program Op (Op.Answer S) α

abbrev Event (S : Type) := Effect.Program.Event Op (Op.Answer S)

/-- The locals of `drive`. -/
structure Drive where
  sched : Scheduler
  v6Done : Bool
  v4Done : Bool
  v6Err : Option Error
  v4Err : Option Error
  attempts : List SocketAddr
  launched : Nat

/-- What happened first while the driver was waiting. -/
inductive Woken (S : Type) where
  | v6 (item : Option Item)
  | v4 (item : Option Item)
  | attempt (finished : Nat) (connected : Option S)
  | timedOut

/-- What a driver ends in. It panics where the scheduler does. -/
inductive Driven (S : Type) where
  | connected (stream : S)
  | failed (e : Error)
  | panicked

/-- Where the loop stands: at its head, in a wait, or past the last address. -/
inductive Point where
  | head (d : Drive)
  | waiting (d : Drive)
  | draining (d : Drive)

namespace Drive

def new (sched : Scheduler) : Drive := ⟨sched, false, false, none, none, [], 0⟩

/-- A source that has nothing more to say is not polled. -/
def pollFamily (f : Family) (done : Bool) : Script S (Poll (Option Item)) :=
  if done then .done .pending else .call (.pollNext f) .done

def pollAttempts (attempts : List SocketAddr) : Script S (Poll (Nat × Option S)) :=
  if attempts.isEmpty then .done .pending
  else
    .call (.pollAttempts attempts) fun
      | .ready (finished, connected) => .done (.ready (finished.val, connected))
      | .pending => .done .pending

/-- The sources of a wait, each polled when the ones before it are pending. -/
def pollWoken (d : Drive) : Script S (Poll (Woken S)) :=
  (pollFamily .v6 d.v6Done).bind fun
    | .ready item => .done (.ready (.v6 item))
    | .pending => (pollFamily .v4 d.v4Done).bind fun
        | .ready item => .done (.ready (.v4 item))
        | .pending => (pollAttempts d.attempts).bind fun
            | .ready (finished, connected) => .done (.ready (.attempt finished connected))
            | .pending => .call .pollSleep fun
                | .ready () => .done (.ready .timedOut)
                | .pending => .done .pending

def onV6 (d : Drive) : Option Item → Drive
  | some (.ok record) =>
      match record.addrOf .v6 with
      | some addr => { d with sched := d.sched.offerV6 [addr] }
      | none => d
  | some (.error e) => { d with v6Err := some e }
  | none => { d with v6Done := true, sched := d.sched.markV6Done }

def onV4 (d : Drive) : Option Item → Drive
  | some (.ok record) =>
      match record.addrOf .v4 with
      | some addr => { d with sched := d.sched.offerV4 [addr] }
      | none => d
  | some (.error e) => { d with v4Err := some e }
  | none => { d with v4Done := true, sched := d.sched.markV4Done }

/-- The error of a race that no attempt has won. -/
def failure (d : Drive) : Error :=
  let errs := ResolveErrors.fromFamilies d.v6Err d.v4Err
  match errs.distinguishingError with
  | some distinguishing => distinguishing.unsent
  | none =>
      if d.launched = 0 then (Error.new .resolve (.resolveErrors errs)).unsent
      else (Error.new .connect (.allAttemptsFailed d.launched)).unsent

/-- One turn of the loop from its head: the clock is read and the scheduler asked. -/
def poll (port : Nat) (d : Drive) : Script S (Point ⊕ Driven S) :=
  .call .elapsed fun elapsed =>
    match d.sched.poll elapsed with
    | none => .done (.inr .panicked)
    | some (.start ip, sched) =>
        .call (.connect ⟨ip, port⟩) fun _ =>
          .done (.inl (.head { d with
            sched := sched
            launched := d.launched + 1
            attempts := d.attempts ++ [⟨ip, port⟩] }))
    | some (.wait wait, sched) =>
        .call (.sleep wait) fun _ => .done (.inl (.waiting { d with sched := sched }))
    | some (.exhausted, sched) => .done (.inl (.draining { d with sched := sched }))

/-- One poll of a wait, and what the loop makes of what woke it. -/
def wait (d : Drive) : Script S (Point ⊕ Driven S) :=
  d.pollWoken.bind fun
    | .pending => .call .pending fun _ => .done (.inl (.waiting d))
    | .ready (.v6 item) => .done (.inl (.head (d.onV6 item)))
    | .ready (.v4 item) => .done (.inl (.head (d.onV4 item)))
    | .ready (.attempt _ (some stream)) => .done (.inr (.connected stream))
    | .ready (.attempt finished none) =>
        .done (.inl (.head { d with attempts := d.attempts.eraseIdx finished }))
    | .ready .timedOut => .done (.inl (.head d))

/-- The attempts that are left are waited for, one after another. -/
def drain (d : Drive) : Script S (Point ⊕ Driven S) :=
  if d.attempts.isEmpty then .done (.inr (.failed d.failure))
  else
    (pollAttempts d.attempts).bind fun
      | .pending => .call .pending fun _ => .done (.inl (.draining d))
      | .ready (_, some stream) => .done (.inr (.connected stream))
      | .ready (finished, none) =>
          .done (.inl (.draining { d with attempts := d.attempts.eraseIdx finished }))

end Drive

def Point.turn (port : Nat) : Point → Script S (Point ⊕ Driven S)
  | .head d => d.poll port
  | .waiting d => d.wait
  | .draining d => d.drain

/-- `drive`, for so many turns. -/
def drive (turns : Nat) (sched : Scheduler) (port : Nat) : Script S (Option (Driven S)) :=
  .loop (Point.turn port) turns (.head (.new sched))

end HClient.Connect
