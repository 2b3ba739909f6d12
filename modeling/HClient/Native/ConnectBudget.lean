import HClient.Core.Time

/-!
# One connect bound for a request

The ways of a request to a connection, by `route` and `race`: every stage is handed a bound, and
what has gone against the caller's is taken off it between the stages. The answers of the stages
and how long they took are those of the network.
-/
namespace HClient.Native.Budget

/-- The bounds of a caller that the connecting side rewrites. -/
structure Timeouts where
  resolve : Option Duration
  connect : Option Duration
  deriving DecidableEq, Repr

def Timeouts.narrowedToConnect (_ : Timeouts) (connect : Duration) : Timeouts :=
  ⟨none, some connect⟩

inductive Stage where
  | quic
  | hedge
  | pool
  | path
  | handshake
  | stream
  deriving DecidableEq, Repr

/-- A stage that began, the bound it was handed, and when. -/
structure Handed where
  stage : Stage
  bound : Option Duration
  time : Duration
  deriving DecidableEq, Repr

/-- A request on its way, the reading of the clock, and what was handed out so far. -/
structure Request where
  timeouts : Timeouts
  now : Duration
  handed : List Handed
  deriving DecidableEq, Repr

namespace Request

def hand (r : Request) (stage : Stage) (bound : Option Duration) : Request :=
  { r with handed := r.handed ++ [⟨stage, bound, r.now⟩] }

def wait (r : Request) (took : Duration) : Request := { r with now := r.now + took }

/-- Whether anything is left. -/
def spendConnectBudget (r : Request) (spent : Duration) : Bool × Request :=
  match r.timeouts.connect with
  | none => (true, r)
  | some connect =>
      (decide (connect - spent ≠ 0),
        { r with timeouts := r.timeouts.narrowedToConnect (connect - spent) })

end Request

/-- A stage that was waited for. -/
structure Waited (α : Type) where
  took : Duration
  said : α
  deriving DecidableEq, Repr

/-! ## The race -/

inductive Room where
  | unbounded
  | left (bound : Duration)
  | none
  deriving DecidableEq, Repr

def room (budget : Option Duration) (headStart : Duration) : Room :=
  match budget with
  | Option.none => .unbounded
  | some connect => if headStart < connect then .left (connect - headStart) else .none

inductive Raced where
  | quic
  | tcp
  | failed
  deriving DecidableEq, Repr

/-- What the two connects of a race come to. A hedge that failed leaves the QUIC connect alone. -/
inductive Selected where
  | quicReady
  | quicRefused
  | hedgeReady
  | hedgeFailed (more : Duration) (quicReady : Bool)
  deriving DecidableEq, Repr

/-- A race that was run: how late after its head start the hedge began to connect if it did, and
what the first answer was. -/
structure RaceRun where
  hedge : Option Duration
  first : Waited Selected
  deriving DecidableEq, Repr

/-- What is installed: the hedge's head start, and whether there is a QUIC arm. -/
structure Config where
  headStart : Option Duration
  arm : Bool
  deriving DecidableEq, Repr

def charge (r : Request) (began : Duration) : Bool × Request := r.spendConnectBudget (r.now - began)

/-- The QUIC connect of a race failed. -/
def quicFailed (r : Request) (began : Duration) : Raced × Request :=
  match charge r began with
  | (true, r) => (.tcp, r)
  | (false, r) => (.failed, r)

/-- The two connects are started, each with a bound of its own. -/
def startRace (r : Request) (headStart : Duration) (hedgeBound : Option Duration)
    (hedge : Option Duration) : Request :=
  let started := r.hand .quic r.timeouts.connect
  match hedge with
  | none => started
  | some late =>
      { started with handed := started.handed ++ [⟨.hedge, hedgeBound, r.now + headStart + late⟩] }

def finishRace (r : Request) (began : Duration) (first : Waited Selected) : Raced × Request :=
  let r := r.wait first.took
  match first.said with
  | .quicReady => (.quic, r)
  | .quicRefused => quicFailed r began
  | .hedgeReady => (.tcp, (charge r began).2)
  | .hedgeFailed more true => (.quic, r.wait more)
  | .hedgeFailed more false => quicFailed (r.wait more) began

def raceConnects (config : Config) (r : Request) (headStart : Duration) (run : RaceRun) :
    Raced × Request :=
  match room r.timeouts.connect headStart with
  | .none => (.quic, r)
  | .unbounded =>
      if config.arm then finishRace (startRace r headStart none run.hedge) r.now run.first
      else (.quic, r)
  | .left bound =>
      if config.arm then finishRace (startRace r headStart (some bound) run.hedge) r.now run.first
      else (.quic, r)

/-! ## The routes -/

inductive QuicSaid where
  | ready
  | refused
  deriving DecidableEq, Repr

/-- What the pool or a handshake over a path says to a request through a filter. -/
inductive ViaSaid where
  | ready
  | refused
  | needsPath
  deriving DecidableEq, Repr

inductive PathSaid where
  | opened
  | failed
  | unsupported
  | timedOut
  deriving DecidableEq, Repr

/-- What the network does. -/
structure Network where
  race : RaceRun
  quic : Waited QuicSaid
  pool : Waited ViaSaid
  path : Waited PathSaid
  handshake : Waited ViaSaid
  deriving DecidableEq, Repr

/-- The stream's connect, which is the last stage. -/
def run (r : Request) : Request := r.hand .stream r.timeouts.connect

def afterQuicFailed (r : Request) (spent : Duration) : Request :=
  match r.spendConnectBudget spent with
  | (false, r) => r
  | (true, r) => run r

def overQuic (config : Config) (r : Request) (fallback : Bool) (net : Network) : Request :=
  let began := r.now
  if config.arm then
    let r := (r.hand .quic r.timeouts.connect).wait net.quic.took
    match net.quic.said with
    | .ready => r
    | .refused => if fallback then afterQuicFailed r (r.now - began) else r
  else r

/-- How the connect through a filter ends: with a connection or an error, or with the request on
its way to the stream. -/
inductive Via where
  | done (r : Request)
  | switch (r : Request)

/-- The handshake over a path, with what is left of the bound; the request has the caller's
bounds again where it comes back. -/
def stageOver (r : Request) (began : Duration) (net : Network) : Via :=
  let caller := r.timeouts
  match r.spendConnectBudget (r.now - began) with
  | (false, r) => .switch { r with timeouts := caller }
  | (true, r) =>
      let r := (r.hand .handshake r.timeouts.connect).wait net.handshake.took
      match net.handshake.said with
      | .ready => .done r
      | .refused => .switch { r with timeouts := caller }
      | .needsPath => .switch { r with timeouts := caller }

def stageVia (r : Request) (began : Duration) (net : Network) : Via :=
  let r := (r.hand .pool r.timeouts.connect).wait net.pool.took
  match net.pool.said with
  | .ready => .done r
  | .refused => .switch r
  | .needsPath =>
      let left := r.timeouts.connect.map fun c => c - (r.now - began)
      let r := (r.hand .path left).wait net.path.took
      match net.path.said with
      | .opened => stageOver r began net
      | .failed => .done r
      | .unsupported => .switch r
      | .timedOut => .switch r

def overQuicVia (config : Config) (r : Request) (fallback : Bool) (net : Network) : Request :=
  let began := r.now
  if config.arm then
    match stageVia r began net with
    | .done r => r
    | .switch r => if fallback then afterQuicFailed r (r.now - began) else r
  else r

def serveQuic (config : Config) (r : Request) (fallback : Bool) (net : Network) : Request :=
  match config.headStart, fallback with
  | some headStart, true =>
      match raceConnects config r headStart net.race with
      | (.quic, r) => overQuic config r fallback net
      | (.tcp, r) => run r
      | (.failed, r) => r
  | _, _ => overQuic config r fallback net

/-- Where a request goes. An HTTPS record that the decision needs is looked up before it. -/
inductive Route where
  | refuse
  | tcp
  | quic (fallback : Bool)
  | quicVia (fallback : Bool)
  deriving DecidableEq, Repr

/-- The connecting of a routed request from a reading of the clock on. -/
def connectBy (config : Config) (route : Route) (timeouts : Timeouts) (start : Duration)
    (net : Network) : Request :=
  let r : Request := ⟨timeouts, start, []⟩
  match route with
  | .refuse => r
  | .tcp => run r
  | .quic fallback => serveQuic config r fallback net
  | .quicVia fallback => overQuicVia config r fallback net

/-! ## What is left of the bound -/

/-- What is left of a bound at a time, of a request that began to connect at another. -/
def leftOf (connect : Option Duration) (start time : Duration) : Option Duration :=
  connect.map fun c => c - (time - start)

/-- A stage was handed what was left when it began. -/
def Fair (connect : Option Duration) (start : Duration) (h : Handed) : Prop :=
  h.bound = leftOf connect start h.time

def AllFair (connect : Option Duration) (start : Duration) (r : Request) : Prop :=
  ∀ h ∈ r.handed, Fair connect start h

/-- The QUIC connect of a race won it. -/
def RaceRun.quicWon (run : RaceRun) : Bool :=
  match run.first.said with
  | .quicReady => true
  | .hedgeFailed _ ready => ready
  | _ => false

/-- How long a race took that the QUIC connect won. -/
def RaceRun.quicTook (run : RaceRun) : Duration :=
  match run.first.said with
  | .hedgeFailed more _ => run.first.took + more
  | _ => run.first.took

/-- A race is run: there is a head start within the bound, and an arm, and a way back. -/
def Config.Races (config : Config) (route : Route) (connect : Duration) : Prop :=
  config.arm = true ∧ route = .quic true ∧ ∃ headStart, config.headStart = some headStart ∧
    headStart < connect

/-! ## One stage after the other -/

section
variable {connect : Option Duration} {start began : Duration} {r : Request}

/-- The request carries what was left at a time. -/
structure Carries (connect : Option Duration) (start began : Duration) (r : Request) : Prop where
  bound : r.timeouts.connect = leftOf connect start began
  begun : start ≤ began
  passed : began ≤ r.now

theorem sub_spent {c start began now : Nat} (begun : start ≤ began) (passed : began ≤ now) :
    c - (began - start) - (now - began) = c - (now - start) := by
  omega

theorem leftOf_spent (connect : Option Duration) (begun : start ≤ began) {now : Duration}
    (passed : began ≤ now) :
    (leftOf connect start began).map (fun c => c - (now - began)) = leftOf connect start now := by
  cases connect with
  | none => rfl
  | some c => exact congrArg some (sub_spent begun passed)

theorem AllFair.hand (fair : AllFair connect start r) (stage : Stage) {bound : Option Duration}
    (left : bound = leftOf connect start r.now) : AllFair connect start (r.hand stage bound) := by
  intro h member
  rcases List.mem_append.mp member with earlier | now
  · exact fair h earlier
  · obtain rfl := List.mem_singleton.mp now
    exact left

theorem Carries.wait (carries : Carries connect start began r) (took : Duration) :
    Carries connect start began (r.wait took) :=
  ⟨carries.bound, carries.begun, Nat.le_trans carries.passed (Nat.le_add_right _ _)⟩

theorem Carries.hand (carries : Carries connect start began r) (stage : Stage)
    (bound : Option Duration) : Carries connect start began (r.hand stage bound) :=
  ⟨carries.bound, carries.begun, carries.passed⟩

/-- What has passed is taken off, and nothing else of the request changes. -/
theorem spend_spec (carries : Carries connect start began r) :
    ∃ go r', r.spendConnectBudget (r.now - began) = (go, r') ∧ r'.now = r.now ∧
      r'.handed = r.handed ∧ Carries connect start r.now r' := by
  have spent := leftOf_spent connect carries.begun carries.passed
  rw [← carries.bound] at spent
  have begun := Nat.le_trans carries.begun carries.passed
  unfold Request.spendConnectBudget
  cases bound : r.timeouts.connect with
  | none =>
      rw [bound] at spent
      exact ⟨_, _, rfl, rfl, rfl, by rw [bound]; exact spent, begun, Nat.le_refl _⟩
  | some c =>
      rw [bound] at spent
      exact ⟨_, _, rfl, rfl, rfl, spent, begun, Nat.le_refl _⟩

theorem run_fair (carries : Carries connect start r.now r) (fair : AllFair connect start r) :
    AllFair connect start (run r) :=
  fair.hand .stream carries.bound

theorem afterQuicFailed_fair (carries : Carries connect start began r)
    (fair : AllFair connect start r) :
    AllFair connect start (afterQuicFailed r (r.now - began)) := by
  obtain ⟨go, r', spent, now, handed, carries'⟩ := spend_spec carries
  have fair' : AllFair connect start r' := by
    unfold AllFair
    rw [handed]
    exact fair
  unfold afterQuicFailed
  rw [spent]
  cases go with
  | false => exact fair'
  | true =>
      rw [← now] at carries'
      exact run_fair carries' fair'

theorem overQuic_fair (config : Config) (fallback : Bool) (net : Network)
    (carries : Carries connect start r.now r) (fair : AllFair connect start r) :
    AllFair connect start (overQuic config r fallback net) := by
  have fair' : AllFair connect start ((r.hand .quic r.timeouts.connect).wait net.quic.took) :=
    fair.hand .quic carries.bound
  unfold overQuic
  dsimp only
  split
  · split
    · exact fair'
    · split
      · exact afterQuicFailed_fair ((carries.hand _ _).wait _) fair'
      · exact fair'
  · exact fair

/-- The request comes back from the filter as it went there. -/
structure ViaFair (connect : Option Duration) (start began : Duration) (via : Via) : Prop where
  done : ∀ r, via = .done r → AllFair connect start r
  switch : ∀ r, via = .switch r → AllFair connect start r ∧ Carries connect start began r

theorem viaFair_done (fair : AllFair connect start r) :
    ViaFair connect start began (.done r) := by
  constructor
  · rintro _ ⟨⟩
    exact fair
  · rintro _ ⟨⟩

theorem viaFair_switch (fair : AllFair connect start r) (carries : Carries connect start began r) :
    ViaFair connect start began (.switch r) := by
  constructor
  · rintro _ ⟨⟩
  · rintro _ ⟨⟩
    exact ⟨fair, carries⟩

theorem stageOver_fair (net : Network) (carries : Carries connect start began r)
    (fair : AllFair connect start r) : ViaFair connect start began (stageOver r began net) := by
  obtain ⟨go, r', spent, now, handed, carries'⟩ := spend_spec carries
  have fair' : AllFair connect start r' := by
    unfold AllFair
    rw [handed]
    exact fair
  unfold stageOver
  dsimp only
  rw [spent]
  have passed : began ≤ r'.now := by
    rw [now]
    exact carries.passed
  cases go with
  | false => exact viaFair_switch fair' ⟨carries.bound, carries.begun, passed⟩
  | true =>
      rw [← now] at carries'
      have shaken := fair'.hand .handshake carries'.bound
      have later := Nat.le_trans passed (Nat.le_add_right r'.now net.handshake.took)
      dsimp only
      split
      · exact viaFair_done shaken
      · exact viaFair_switch shaken ⟨carries.bound, carries.begun, later⟩
      · exact viaFair_switch shaken ⟨carries.bound, carries.begun, later⟩

theorem stageVia_fair (net : Network) (carries : Carries connect start r.now r)
    (fair : AllFair connect start r) : ViaFair connect start r.now (stageVia r r.now net) := by
  have pooled : AllFair connect start ((r.hand .pool r.timeouts.connect).wait net.pool.took) :=
    fair.hand .pool carries.bound
  have waited := (carries.hand .pool r.timeouts.connect).wait net.pool.took
  unfold stageVia
  dsimp only
  split
  · exact viaFair_done pooled
  · exact viaFair_switch pooled waited
  · have left := leftOf_spent connect waited.begun waited.passed
    rw [← waited.bound] at left
    have opening := pooled.hand .path left
    have opened := fun bound => (waited.hand .path bound).wait net.path.took
    split
    · exact stageOver_fair net (opened _) opening
    · exact viaFair_done opening
    · exact viaFair_switch opening (opened _)
    · exact viaFair_switch opening (opened _)

theorem overQuicVia_fair (config : Config) (fallback : Bool) (net : Network)
    (carries : Carries connect start r.now r) (fair : AllFair connect start r) :
    AllFair connect start (overQuicVia config r fallback net) := by
  have via := stageVia_fair net carries fair
  unfold overQuicVia
  dsimp only
  split
  · split
    next r' ended => exact via.done r' ended
    next r' switched =>
      obtain ⟨fair', carries'⟩ := via.switch r' switched
      split
      · exact afterQuicFailed_fair carries' fair'
      · exact fair'
  · exact fair

end

/-! ## The race -/

section
variable {connect : Option Duration} {start began : Duration} {r : Request}

/-- A race that the QUIC connect won leaves the request as it was; after any other, what has
passed is taken off. -/
theorem finishRace_cases (r : Request) (began : Duration) (run : RaceRun) :
    (run.quicWon = true ∧ finishRace r began run.first = (.quic, r.wait run.quicTook)) ∨
      (run.quicWon = false ∧ ∃ took raced, raced ≠ .quic ∧
        finishRace r began run.first = (raced, (charge (r.wait took) began).2)) := by
  obtain ⟨hedge, took, said⟩ := run
  have failed : ∀ r, ∃ raced, raced ≠ .quic ∧
      quicFailed r began = (raced, (charge r began).2) := by
    intro r
    unfold quicFailed
    rcases charge r began with ⟨go, r'⟩
    cases go with
    | false => exact ⟨.failed, by decide, rfl⟩
    | true => exact ⟨.tcp, by decide, rfl⟩
  cases said with
  | quicReady => exact .inl ⟨rfl, rfl⟩
  | quicRefused =>
      obtain ⟨raced, other, same⟩ := failed (r.wait took)
      exact .inr ⟨rfl, took, raced, other, same⟩
  | hedgeReady => exact .inr ⟨rfl, took, .tcp, by decide, rfl⟩
  | hedgeFailed more ready =>
      have waits : (r.wait took).wait more = r.wait (took + more) := by
        simp [Request.wait, Nat.add_assoc]
      cases ready with
      | true => exact .inl ⟨rfl, congrArg (Raced.quic, ·) waits⟩
      | false =>
          obtain ⟨raced, other, same⟩ := failed (r.wait (took + more))
          refine .inr ⟨rfl, took + more, raced, other, ?_⟩
          rw [← same, ← waits]
          rfl

theorem sub_eq_self_of_pos {c start took : Nat} (some_ : 0 < c)
    (same : c = c - (start + took - start)) : took = 0 := by
  omega

theorem hedge_on_time {c headStart start late : Nat} (within : headStart < c) :
    c - headStart = c - (start + headStart + late - start) ↔ late = 0 := by
  omega

/-- Both connects of a race are handed what is left when they begin, where the hedge begins at
its head start. -/
theorem startRace_fair_iff {timeouts : Timeouts} {c headStart : Duration}
    (bound : timeouts.connect = some c) (within : headStart < c) (hedge : Option Duration) :
    AllFair timeouts.connect start
      (startRace ⟨timeouts, start, []⟩ headStart (some (c - headStart)) hedge) ↔
        ∀ late ∈ hedge, late = 0 := by
  have first : AllFair timeouts.connect start
      (Request.hand ⟨timeouts, start, []⟩ .quic timeouts.connect) := by
    refine AllFair.hand (fun _ member => absurd member List.not_mem_nil) .quic ?_
    rw [bound]
    simp [leftOf]
  cases hedge with
  | none => exact ⟨fun _ late member => absurd member (by simp), fun _ => first⟩
  | some late =>
      have second : Fair timeouts.connect start
          ⟨.hedge, some (c - headStart), start + headStart + late⟩ ↔ late = 0 := by
        unfold Fair leftOf
        rw [bound, Option.map_some, Option.some.injEq]
        exact hedge_on_time within
      constructor
      · intro fair late' member
        cases member
        exact second.mp (fair _ (List.mem_append_right _ List.mem_cons_self))
      · intro onTime h member
        rcases List.mem_append.mp member with earlier | now
        · exact first h earlier
        · obtain rfl := List.mem_singleton.mp now
          exact second.mpr (onTime late rfl)

theorem startRace_carries (timeouts : Timeouts) (start headStart : Duration)
    (hedgeBound hedge : Option Duration) : Carries timeouts.connect start start
      (startRace ⟨timeouts, start, []⟩ headStart hedgeBound hedge) := by
  have whole : timeouts.connect = leftOf timeouts.connect start start := by
    unfold leftOf
    cases timeouts.connect <;> simp
  unfold startRace
  cases hedge <;> exact ⟨whole, Nat.le_refl _, Nat.le_refl _⟩

/-- What was handed out before stays, and the QUIC connect is handed what the request carries. -/
theorem overQuic_handed (config : Config) (arm : config.arm = true) (r : Request)
    (fallback : Bool) (net : Network) : ∃ more, (overQuic config r fallback net).handed =
      r.handed ++ ⟨.quic, r.timeouts.connect, r.now⟩ :: more := by
  have later (r : Request) (spent : Duration) :
      ∃ more, (afterQuicFailed r spent).handed = r.handed ++ more := by
    unfold afterQuicFailed Request.spendConnectBudget
    cases r.timeouts.connect with
    | none => exact ⟨_, rfl⟩
    | some c =>
        dsimp only
        split
        next same =>
          cases (Prod.mk.inj same).2
          exact ⟨[], (List.append_nil _).symm⟩
        next same =>
          cases (Prod.mk.inj same).2
          exact ⟨_, rfl⟩
  unfold overQuic
  rw [if_pos arm]
  dsimp only
  split
  · exact ⟨[], rfl⟩
  · split
    · obtain ⟨more, same⟩ := later
        ((r.hand .quic r.timeouts.connect).wait net.quic.took)
        (((r.hand .quic r.timeouts.connect).wait net.quic.took).now - r.now)
      refine ⟨more, same.trans ?_⟩
      change (r.handed ++ [_]) ++ more = _
      rw [List.append_assoc]
      rfl
    · exact ⟨[], rfl⟩

theorem charge_fair (carries : Carries connect start began r) (fair : AllFair connect start r) :
    AllFair connect start (charge r began).2 ∧
      Carries connect start (charge r began).2.now (charge r began).2 := by
  obtain ⟨go, r', spent, now, handed, carries'⟩ := spend_spec carries
  rw [charge, spent]
  refine ⟨?_, ?_⟩
  · unfold AllFair
    rw [handed]
    exact fair
  · rw [← now] at carries'
    exact carries'

/-- The request that a race was run for is routed with what is left of its bound, where the QUIC
connect did not win after a time. -/
theorem raced_fair {w : Request} (run : RaceRun) (config : Config) (net : Network)
    (carries : Carries connect start start w) (now : w.now = start)
    (fair : AllFair connect start w)
    (untimed : run.quicWon = true → connect = none ∨ run.quicTook = 0) :
    AllFair connect start (match finishRace w start run.first with
      | (.quic, r) => overQuic config r true net
      | (.tcp, r) => Budget.run r
      | (.failed, r) => r) := by
  rcases finishRace_cases w start run with ⟨won, same⟩ | ⟨-, took, raced, other, same⟩
  · rw [same]
    have left : leftOf connect start start = leftOf connect start (w.wait run.quicTook).now := by
      rcases untimed won with rfl | zero
      · rfl
      · rw [zero, ← now]
        rfl
    exact overQuic_fair config true net
      ⟨carries.bound.trans left, (carries.wait _).passed, Nat.le_refl _⟩ fair
  · rw [same]
    obtain ⟨fair', carries'⟩ := charge_fair (carries.wait took) fair
    cases raced with
    | quic => exact absurd rfl other
    | tcp => exact run_fair carries' fair'
    | failed => exact fair'

/-- What the stages of a race were handed stays handed. -/
theorem raced_handed {w : Request} {run : RaceRun} (config : Config) (arm : config.arm = true)
    (net : Network) (carries : Carries connect start start w)
    (fair : AllFair connect start (match finishRace w start run.first with
      | (.quic, r) => overQuic config r true net
      | (.tcp, r) => Budget.run r
      | (.failed, r) => r)) :
    AllFair connect start w ∧ (run.quicWon = true →
      Fair connect start ⟨.quic, w.timeouts.connect, w.now + run.quicTook⟩) := by
  rcases finishRace_cases w start run with ⟨-, same⟩ | ⟨lost, took, raced, other, same⟩
  · rw [same] at fair
    obtain ⟨more, handed⟩ := overQuic_handed config arm (w.wait run.quicTook) true net
    unfold AllFair at fair
    dsimp only at fair
    rw [handed] at fair
    exact ⟨fun h member => fair h (List.mem_append_left _ member),
      fun _ => fair _ (List.mem_append_right _ List.mem_cons_self)⟩
  · rw [same] at fair
    obtain ⟨go, r', spent, -, handed, -⟩ := spend_spec (carries.wait took)
    have charged : charge (w.wait took) start = (go, r') := spent
    rw [charged] at fair
    refine ⟨fun h member => ?_, fun won => absurd (won.symm.trans lost) (by decide)⟩
    have member' : h ∈ r'.handed := by
      rw [handed]
      exact member
    cases raced with
    | quic => exact absurd rfl other
    | tcp => exact fair h (List.mem_append_left _ member')
    | failed => exact fair h member'

theorem serveQuic_fair_iff {config : Config} {timeouts : Timeouts} {c headStart : Duration}
    (start : Duration) (bound : timeouts.connect = some c) (within : headStart < c)
    (hedged : config.headStart = some headStart) (arm : config.arm = true) (net : Network) :
    AllFair timeouts.connect start (serveQuic config ⟨timeouts, start, []⟩ true net) ↔
      (∀ late ∈ net.race.hedge, late = 0) ∧
        (net.race.quicWon = true → net.race.quicTook = 0) := by
  have raced : raceConnects config ⟨timeouts, start, []⟩ headStart net.race =
      finishRace (startRace ⟨timeouts, start, []⟩ headStart (some (c - headStart)) net.race.hedge)
        start net.race.first := by
    unfold raceConnects room
    dsimp only
    rw [bound]
    dsimp only
    rw [if_pos within]
    dsimp only
    rw [if_pos arm]
  have carries := startRace_carries timeouts start headStart
    (some (c - headStart)) net.race.hedge
  have now : (startRace ⟨timeouts, start, []⟩ headStart (some (c - headStart))
      net.race.hedge).now = start := by
    unfold startRace
    cases net.race.hedge <;> rfl
  have connects : (startRace ⟨timeouts, start, []⟩ headStart (some (c - headStart))
      net.race.hedge).timeouts.connect = some c := by
    unfold startRace
    cases net.race.hedge <;> exact bound
  unfold serveQuic
  rw [hedged]
  dsimp only
  rw [raced]
  constructor
  · intro fair
    obtain ⟨started, won⟩ := raced_handed config arm net carries fair
    refine ⟨(startRace_fair_iff bound within _).mp started, fun quic => ?_⟩
    have left := won quic
    unfold Fair leftOf at left
    rw [bound, connects, now, Option.map_some, Option.some.injEq] at left
    exact sub_eq_self_of_pos (Nat.lt_of_le_of_lt (Nat.zero_le _) within) left
  · rintro ⟨onTime, untimed⟩
    exact raced_fair net.race config net carries now
      ((startRace_fair_iff bound within _).mpr onTime) fun won => .inr (untimed won)

end

/-! ## All routes -/

section
variable {start : Duration} {timeouts : Timeouts}

theorem fair_new (connect : Option Duration) :
    AllFair connect start ⟨timeouts, start, []⟩ :=
  fun _ member => absurd member List.not_mem_nil

theorem carries_new (timeouts : Timeouts) (start : Duration) :
    Carries timeouts.connect start start ⟨timeouts, start, []⟩ := by
  refine ⟨?_, Nat.le_refl _, Nat.le_refl _⟩
  unfold leftOf
  cases timeouts.connect <;> simp

/-- Nothing is left to take off where there is no bound. -/
theorem startRace_unbounded (start : Duration) (unbounded : timeouts.connect = none)
    (headStart : Duration) (hedge : Option Duration) :
    AllFair timeouts.connect start (startRace ⟨timeouts, start, []⟩ headStart none hedge) := by
  have first : AllFair timeouts.connect start
      (Request.hand ⟨timeouts, start, []⟩ .quic timeouts.connect) :=
    (fair_new _).hand .quic (carries_new timeouts start).bound
  cases hedge with
  | none => exact first
  | some late =>
      intro h member
      rcases List.mem_append.mp member with earlier | now
      · exact first h earlier
      · obtain rfl := List.mem_singleton.mp now
        unfold Fair
        rw [unbounded]
        rfl

theorem serveQuic_fair {config : Config} (fallback : Bool) (net : Network)
    (unraced : ∀ connect, timeouts.connect = some connect →
      ¬ config.Races (.quic fallback) connect) :
    AllFair timeouts.connect start (serveQuic config ⟨timeouts, start, []⟩ fallback net) := by
  have direct := overQuic_fair config fallback net (carries_new timeouts start) (fair_new _)
  unfold serveQuic
  split
  next headStart hedged =>
    unfold raceConnects
    cases bound : timeouts.connect with
    | none =>
        by_cases arm : config.arm = true
        · have started := startRace_unbounded start bound headStart net.race.hedge
          have carries := startRace_carries timeouts start headStart none
            net.race.hedge
          have now : (startRace ⟨timeouts, start, []⟩ headStart none
              net.race.hedge).now = start := by
            unfold startRace
            cases net.race.hedge <;> rfl
          have raced := raced_fair net.race config net carries now started
            fun _ => .inl bound
          rw [bound] at raced
          simp only [room, arm, if_true]
          exact raced
        · simp only [room, arm]
          rw [bound] at direct
          exact direct
    | some c =>
        rw [bound] at direct
        by_cases within : headStart < c
        · have no_arm : ¬ config.arm = true := fun arm =>
            unraced c bound ⟨arm, rfl, headStart, hedged, within⟩
          simp only [room, within, if_true, no_arm]
          exact direct
        · simp only [room, within, if_false]
          exact direct
  · exact direct

/-- Every stage is handed what is left of the bound, except where the QUIC connect of a race won
it after a time, or the hedge began late. -/
theorem connectBy_fair_iff (config : Config) (route : Route) (timeouts : Timeouts)
    (start : Duration) (net : Network) :
    AllFair timeouts.connect start (connectBy config route timeouts start net) ↔
      ∀ connect, timeouts.connect = some connect → config.Races route connect →
        (∀ late ∈ net.race.hedge, late = 0) ∧
          (net.race.quicWon = true → net.race.quicTook = 0) := by
  by_cases races : ∃ connect, timeouts.connect = some connect ∧ config.Races route connect
  · obtain ⟨c, bound, arm, rfl, headStart, hedged, within⟩ := races
    have served := serveQuic_fair_iff start bound within hedged arm net
    constructor
    · intro fair _ _ _
      exact served.mp fair
    · intro all
      exact served.mpr (all c bound ⟨arm, rfl, headStart, hedged, within⟩)
  · push Not at races
    refine ⟨fun _ connect bound race => absurd race (races connect bound), fun _ => ?_⟩
    cases route with
    | refuse => exact fair_new _
    | tcp => exact run_fair (carries_new timeouts start) (fair_new _)
    | quic fallback => exact serveQuic_fair fallback net races
    | quicVia fallback =>
        exact overQuicVia_fair config fallback net (carries_new timeouts start) (fair_new _)

end

/-- A race that the QUIC connect wins after 200 ms, whose connection is gone by the time the
request is sent. -/
def lostWinner : Network :=
  ⟨⟨none, 200000000, .quicReady⟩, ⟨0, .refused⟩, ⟨0, .ready⟩, ⟨0, .opened⟩, ⟨0, .ready⟩⟩

/-- The stages behind a race are handed the whole second again. -/
theorem won_race_is_free :
    (connectBy ⟨some 250000000, true⟩ (.quic true) ⟨none, some 1000000000⟩ 0 lostWinner).handed =
      [⟨.quic, some 1000000000, 0⟩, ⟨.quic, some 1000000000, 200000000⟩,
        ⟨.stream, some 1000000000, 200000000⟩] ∧
      ¬ AllFair (some 1000000000) 0
        (connectBy ⟨some 250000000, true⟩ (.quic true) ⟨none, some 1000000000⟩ 0 lostWinner) := by
  have handed : (connectBy ⟨some 250000000, true⟩ (.quic true) ⟨none, some 1000000000⟩ 0
      lostWinner).handed = [⟨.quic, some 1000000000, 0⟩, ⟨.quic, some 1000000000, 200000000⟩,
        ⟨.stream, some 1000000000, 200000000⟩] := by decide +kernel
  refine ⟨handed, fun fair => ?_⟩
  have last := fair ⟨.stream, some 1000000000, 200000000⟩ (by rw [handed]; simp)
  unfold Fair leftOf at last
  exact absurd last (by decide)

end HClient.Native.Budget
