import HClient.WebTransport.Placed

/-!
# Runs of the demultiplexer

In every run each arrival stays in one place and is lost for one of two reasons. Where a session is
read by one call at a time, whoever waits for a datagram that is held has been woken for it.
-/
namespace HClient.WebTransport

open Effect (Machine)

variable {ι ω : Type}

def Stage.hand : Stage → Option (Nat × Datagram)
  | .handing id d => some (id, d)
  | _ => none

namespace Shared

def view (s : Shared ι ω) : View ι where
  arrived := s.arrived
  read := s.read
  hand i := (s.call i).bind fun c => c.stage.hand
  held q := (s.parked q).bind fun p => p.held
  delivered := s.delivered
  dropped := s.dropped

section Steps
variable [DecidableEq ι] [DecidableEq ω] {s next : Shared ι ω}

theorem step_dropSession {q : Nat} (stepped : step s (.dropSession q) = some next) :
    ∃ p, s.parked q = some p ∧ (p.held = none ∧ next = s.park q none ∨
      ∃ d, p.held = some d ∧ next = (s.park q none).discard d.number) := by
  simp only [step] at stepped
  cases waiting : s.parked q with
  | none => rw [waiting] at stepped; cases stepped
  | some p =>
      rw [waiting] at stepped
      refine ⟨p, rfl, ?_⟩
      cases held : p.held with
      | none => simp only [held] at stepped; cases stepped; exact .inl ⟨rfl, rfl⟩
      | some d => simp only [held] at stepped; cases stepped; exact .inr ⟨d, rfl, rfl⟩

theorem step_poll {i : ι} {waker : ω} (stepped : step s (.poll i waker) = some next) :
    ∃ c stage, s.call i = some c ∧ (c.stage = .fresh ∧ stage = .collecting ∨
      c.stage = .waiting ∧ stage = .registering) ∧
      next = s.put i (some { c with stage := stage, waker := some waker }) := by
  simp only [step] at stepped
  cases there : s.call i with
  | none => rw [there] at stepped; cases stepped
  | some c =>
      rw [there] at stepped
      dsimp only at stepped
      split at stepped
      next fresh => cases stepped; exact ⟨c, _, rfl, .inl ⟨fresh, rfl⟩, rfl⟩
      next waiting => cases stepped; exact ⟨c, _, rfl, .inr ⟨waiting, rfl⟩, rfl⟩
      next => cases stepped

theorem step_cancel {i : ι} (stepped : step s (.cancel i) = some next) :
    ∃ c, s.call i = some c ∧ (c.stage = .fresh ∨ c.stage = .waiting) ∧ next = s.put i none := by
  simp only [step] at stepped
  cases there : s.call i with
  | none => rw [there] at stepped; cases stepped
  | some c =>
      rw [there] at stepped
      obtain ⟨idle, same⟩ := Option.ite_none_right_eq_some.mp stepped
      exact ⟨c, rfl, idle, (Option.some.inj same).symm⟩

end Steps

theorem view_mark (s : Shared ι ω) {f : Call ω → Call ω} (stage : ∀ c, (f c).stage = c.stage) :
    (s.mark f).view = s.view := by
  unfold view mark
  congr 1
  funext i
  dsimp only
  cases s.call i with
  | none => rfl
  | some c => exact congrArg Stage.hand (stage c)

theorem view_put [DecidableEq ι] (s : Shared ι ω) (i : ι) (c : Option (Call ω)) :
    (s.put i c).view =
      { s.view with hand := Function.update s.view.hand i (c.bind fun c => c.stage.hand) } := by
  unfold view put
  congr 1
  funext j
  dsimp only
  obtain rfl | other := eq_or_ne j i
  · rw [Function.update_self, Function.update_self]
  · rw [Function.update_of_ne other, Function.update_of_ne other]

theorem view_park (s : Shared ι ω) (q : Nat) (p : Option (Parked ω)) :
    (s.park q p).view =
      { s.view with held := Function.update s.view.held q (p.bind fun p => p.held) } := by
  unfold view park
  congr 1
  funext q'
  dsimp only
  obtain rfl | other := eq_or_ne q' q
  · rw [Function.update_self, Function.update_self]
  · rw [Function.update_of_ne other, Function.update_of_ne other]

theorem view_put_same [DecidableEq ι] {s : Shared ι ω} {i : ι} {c : Option (Call ω)}
    (same : s.view.hand i = c.bind fun c => c.stage.hand) : (s.put i c).view = s.view := by
  rw [view_put, ← same, Function.update_eq_self]

theorem view_park_same {s : Shared ι ω} {q : Nat} {p : Option (Parked ω)}
    (same : s.view.held q = p.bind fun p => p.held) : (s.park q p).view = s.view := by
  rw [view_park, ← same, Function.update_eq_self]

theorem view_wake [DecidableEq ω] (s : Shared ι ω) (w : ω) : (s.wake w).view = s.view :=
  s.view_mark fun c => by split <;> rfl

theorem view_notify (s : Shared ι ω) : s.notify.view = s.view :=
  s.view_mark fun c => by split <;> rfl

theorem view_forget (s : Shared ι ω) (q : Nat) : (s.forget q).view = s.view :=
  s.view_mark fun c => by split <;> rfl

end Shared

/-! ## Every arrival has its place -/

section Placed
variable {s : Shared ι ω}

theorem hand_eq {i : ι} {c : Call ω} (there : s.call i = some c) :
    s.view.hand i = c.stage.hand := by
  change (s.call i).bind _ = _
  rw [there]
  rfl

theorem held_eq {q : Nat} {p : Parked ω} (there : s.parked q = some p) :
    s.view.held q = p.held := by
  change (s.parked q).bind _ = _
  rw [there]
  rfl

variable [DecidableEq ι] [DecidableEq ω]

omit [DecidableEq ω] in
/-- A call that has nothing in its hand goes on or ends. -/
theorem placed_put (placed : Placed s.view) {i : ι} {c : Call ω} (there : s.call i = some c)
    (empty : c.stage.hand = none) {next : Option (Call ω)}
    (still : (next.bind fun c => c.stage.hand) = none) : Placed (s.put i next).view := by
  rw [Shared.view_put_same (by rw [hand_eq there, empty, still])]
  exact placed

theorem placed_handOver (placed : Placed s.view) {i : ι} {c : Call ω} {id : Nat} {d : Datagram}
    (there : s.call i = some c) (hand : c.stage.hand = some (id, d)) {next : Call ω}
    (empty : next.stage.hand = none) : Placed ((s.put i (some next)).handOver id d).view := by
  have here : s.view.hand i = some (id, d) := (hand_eq there).trans hand
  have put : (s.put i (some next)).view =
      { s.view with hand := Function.update s.view.hand i none } := by
    rw [Shared.view_put]
    exact congrArg (fun h => { s.view with hand := Function.update s.view.hand i h }) empty
  unfold Shared.handOver
  cases waiting : (s.put i (some next)).parked id with
  | none =>
      have moved := placed.handDropped here
      change Placed ({ (s.put i (some next)).view with dropped := s.dropped ++ [d.number] })
      rw [put]
      exact moved
  | some p =>
      have same : s.view.held id = p.held := held_eq waiting
      have settled : Placed (Shared.view
          (if p.held.isSome = true then
            ((s.put i (some next)).park id (some ⟨some (p.held.getD d), none⟩)).discard d.number
          else
            ((s.put i (some next)).park id (some ⟨some (p.held.getD d), none⟩)).forget id)) := by
        cases held : p.held with
        | none =>
            have moved := placed.handHeld here (same.trans held)
            rw [if_neg (by simp), Shared.view_forget, Shared.view_park, put]
            exact moved
        | some e =>
            have moved := placed.handDropped here
            have parked : ((s.put i (some next)).park id (some ⟨some e, none⟩)).view =
                (s.put i (some next)).view :=
              Shared.view_park_same (by rw [put]; exact same.trans held)
            rw [if_pos (show (some e).isSome = true from rfl)]
            change Placed { Shared.view (((s.put i (some next)).park id (some ⟨some e, none⟩))) with
              dropped := s.dropped ++ [d.number] }
            rw [parked, put]
            exact moved
      -- the wake-ups that follow move nothing
      cases waker : p.waker with
      | none =>
          simp only [waker]
          exact settled
      | some w =>
          simp only [waker]
          rw [Shared.view_wake]
          exact settled

theorem placed_collect (placed : Placed s.view) {i : ι} {c : Call ω} (there : s.call i = some c)
    (stage : c.stage = .collecting) {next : Shared ι ω} (ran : s.section_ i c = some next) :
    Placed next.view := by
  have empty : c.stage.hand = none := by rw [stage]; rfl
  unfold Shared.section_ at ran
  rw [stage] at ran
  dsimp only at ran
  cases waiting : s.parked c.quarter with
  | none =>
      have collect : s.collect c.quarter = (none, s) := by rw [Shared.collect, waiting]
      rw [collect] at ran
      cases ran
      exact placed_put placed there empty rfl
  | some p =>
      have collect : s.collect c.quarter = (p.held, s.park c.quarter (some ⟨none, none⟩)) := by
        rw [Shared.collect, waiting]
      rw [collect] at ran
      have parked := held_eq waiting
      cases held : p.held with
      | none =>
          rw [held] at ran parked
          cases ran
          have same : (s.park c.quarter (some ⟨none, none⟩)).view = s.view :=
            Shared.view_park_same parked
          exact placed_put (s := s.park c.quarter (some ⟨none, none⟩)) (same ▸ placed) there empty rfl
      | some d =>
          rw [held] at ran parked
          cases ran
          have moved := placed.heldDelivered parked
          have same : ((s.park c.quarter (some ⟨none, none⟩)).deliver c.quarter d).view =
              { s.view with held := Function.update s.view.held c.quarter none,
                            delivered := s.delivered ++ [(c.quarter, d)] } := by
            change { Shared.view (s.park c.quarter (some ⟨none, none⟩)) with
              delivered := s.delivered ++ [(c.quarter, d)] } = _
            rw [Shared.view_park]
            rfl
          exact placed_put (s := (s.park c.quarter (some ⟨none, none⟩)).deliver c.quarter d)
            (same ▸ moved) there empty rfl

theorem placed_register (placed : Placed s.view) {i : ι} {c : Call ω} (there : s.call i = some c)
    (stage : c.stage = .registering) {next : Shared ι ω} (ran : s.section_ i c = some next) :
    Placed next.view := by
  have empty : c.stage.hand = none := by rw [stage]; rfl
  have parked : ∀ waker : Option ω, (s.park c.quarter
      (some { (s.parked c.quarter).getD ⟨none, none⟩ with waker := waker })).view = s.view := by
    intro waker
    refine Shared.view_park_same ?_
    change (s.parked c.quarter).bind _ = _
    cases s.parked c.quarter <;> rfl
  unfold Shared.section_ Shared.waitForAHandover at ran
  rw [stage] at ran
  dsimp only at ran
  by_cases held : ((s.parked c.quarter).getD ⟨none, none⟩).held.isSome
  · rw [if_pos held] at ran
    cases ran
    exact placed_put (s := s.park c.quarter (some ((s.parked c.quarter).getD ⟨none, none⟩)))
      ((parked _).symm ▸ placed) there empty rfl
  · rw [if_neg held] at ran
    cases ran
    exact placed_put (s := s.park c.quarter _) ((parked _).symm ▸ placed) there empty rfl

theorem placed_read (placed : Placed s.view) {i : ι} {c : Call ω} (there : s.call i = some c)
    (stage : c.stage = .reading) {next : Shared ι ω} (ran : s.section_ i c = some next) :
    Placed next.view := by
  have empty : c.stage.hand = none := by rw [stage]; rfl
  unfold Shared.section_ at ran
  rw [stage] at ran
  dsimp only at ran
  cases arrived : s.arrived[s.read]? with
  | none =>
      rw [arrived] at ran
      dsimp only at ran
      split at ran <;> cases ran <;> exact placed_put placed there empty rfl
  | some frame =>
      have more : s.view.read < s.view.arrived.length := (List.getElem?_eq_some_iff.mp arrived).1
      rw [arrived] at ran
      dsimp only at ran
      cases named : getVarint frame with
      | none =>
          rw [named] at ran
          cases ran
          exact placed_put (s := { s with read := s.read + 1, dropped := s.dropped ++ [s.read] })
            (placed.readDropped more) there empty rfl
      | some r =>
          obtain ⟨id, header⟩ := r
          rw [named] at ran
          dsimp only at ran
          have names : Names s.view.arrived ⟨s.read, frame.drop header⟩ id :=
            ⟨frame, header, arrived, named, rfl⟩
          split at ran
          next own =>
            cases ran
            subst own
            exact placed_put
              (s := { s with read := s.read + 1,
                             delivered := s.delivered ++ [(c.quarter, ⟨s.read, frame.drop header⟩)] })
              (placed.readDelivered more rfl names) there empty rfl
          next =>
            cases ran
            rw [Shared.view_put]
            exact placed.readHand more ((hand_eq there).trans empty) rfl names

theorem placed_section (placed : Placed s.view) {i : ι} {c : Call ω} (there : s.call i = some c)
    {next : Shared ι ω} (ran : s.section_ i c = some next) : Placed next.view := by
  cases stage : c.stage with
  | fresh => unfold Shared.section_ at ran; rw [stage] at ran; cases ran
  | waiting => unfold Shared.section_ at ran; rw [stage] at ran; cases ran
  | collecting => exact placed_collect placed there stage ran
  | registering => exact placed_register placed there stage ran
  | reading => exact placed_read placed there stage ran
  | handing id d =>
      unfold Shared.section_ at ran
      rw [stage] at ran
      cases ran
      exact placed_handOver placed there (by rw [stage]; rfl) rfl

omit [DecidableEq ι] [DecidableEq ω] in
theorem placed_initial : Placed (Shared.initial : Shared ι ω).view := by
  refine ⟨le_rfl, fun n => ⟨.unread, Nat.zero_le n, fun other there => ?_⟩, List.nodup_nil,
    nofun, nofun, nofun⟩
  cases other with
  | unread => rfl
  | hand i => obtain ⟨_, _, none, -⟩ := there; cases none
  | held q => obtain ⟨_, none, -⟩ := there; cases none
  | delivered q => obtain ⟨_, none, -⟩ := there; cases none
  | dropped => cases there

/-- What one step does to the datagrams. -/
theorem placed_step (placed : Placed s.view) {l : Label ι ω} {next : Shared ι ω}
    (stepped : Shared.step s l = some next) : Placed next.view := by
  cases l with
  | openSession q =>
      simp only [Shared.step, Option.isNone_iff_eq_none] at stepped
      split at stepped
      next free =>
        cases stepped
        rw [Shared.view_park_same (by change (s.parked q).bind _ = _; rw [free]; rfl)]
        exact placed
      next => cases stepped
  | dropSession q =>
      obtain ⟨p, waiting, ⟨held, rfl⟩ | ⟨d, held, rfl⟩⟩ := Shared.step_dropSession stepped
      · have parked := held_eq waiting
        rw [held] at parked
        rw [Shared.view_park_same parked]
        exact placed
      · change Placed { Shared.view (s.park q none) with dropped := s.dropped ++ [d.number] }
        rw [Shared.view_park]
        exact placed.heldDropped ((held_eq waiting).trans held)
  | recvDatagram i q =>
      simp only [Shared.step, Option.isNone_iff_eq_none] at stepped
      split at stepped
      next free =>
        cases stepped
        rw [Shared.view_put_same (by change (s.call i).bind _ = _; rw [free.1]; rfl)]
        exact placed
      next => cases stepped
  | poll i waker =>
      obtain ⟨c, stage, there, ⟨fresh, rfl⟩ | ⟨waiting, rfl⟩, rfl⟩ := Shared.step_poll stepped
      · exact placed_put placed there (by rw [fresh]; rfl) rfl
      · exact placed_put placed there (by rw [waiting]; rfl) rfl
  | run i =>
      obtain ⟨c, there, ran⟩ := Option.bind_eq_some_iff.mp stepped
      exact placed_section placed there ran
  | cancel i =>
      obtain ⟨c, there, idle, rfl⟩ := Shared.step_cancel stepped
      have empty : c.stage.hand = none := by
        obtain stage | stage := idle <;> rw [stage] <;> rfl
      exact placed_put placed there empty rfl
  | arrive frame =>
      simp only [Shared.step] at stepped
      split at stepped
      next => cases stepped
      next =>
        cases stepped
        have arrives : Placed (Shared.view { s with arrived := s.arrived ++ [frame] }) :=
          placed.arrives frame
        split
        · rw [Shared.view_notify]
          exact arrives
        · exact arrives
  | lose =>
      cases stepped
      rw [Shared.view_notify]
      exact placed

end Placed

/-! ## Losses -/

/-- What a step loses named no session that is open after it, or met another one held there. -/
def LosesOnly (s next : Shared ι ω) : Prop :=
  ∀ n ∈ next.dropped, n ∉ s.dropped →
    ∀ frame q header, s.arrived[n]? = some frame → getVarint frame = some (q, header) →
      next.parked q = none ∨ ∃ p d, s.parked q = some p ∧ p.held = some d ∧ d.number ≠ n

section Losses
variable {s : Shared ι ω}

theorem losesOnly_same {next : Shared ι ω} (same : next.dropped = s.dropped) : LosesOnly s next :=
  fun _ there absent => absurd (same ▸ there) absent

theorem losesOnly_one {next : Shared ι ω} {n : Nat} (one : next.dropped = s.dropped ++ [n])
    (reason : ∀ frame q header, s.arrived[n]? = some frame → getVarint frame = some (q, header) →
      next.parked q = none ∨ ∃ p d, s.parked q = some p ∧ p.held = some d ∧ d.number ≠ n) :
    LosesOnly s next := by
  intro m there absent
  rw [one] at there
  obtain old | new := List.mem_append.mp there
  · exact absurd old absent
  · cases List.mem_singleton.mp new
    exact reason

theorem Names.unique {arrived : List (List UInt8)} {d : Datagram} {q q' header : Nat}
    {frame : List UInt8} (names : Names arrived d q) (there : arrived[d.number]? = some frame)
    (named : getVarint frame = some (q', header)) : q' = q := by
  obtain ⟨frame', header', there', named', -⟩ := names
  cases there.symm.trans there'
  cases named.symm.trans named'
  rfl

variable [DecidableEq ι] [DecidableEq ω]

theorem losesOnly_handOver (placed : Placed s.view) {i : ι} {c next : Call ω} {id : Nat}
    {d : Datagram} (there : s.call i = some c) (stage : c.stage = .handing id d) :
    LosesOnly s ((s.put i (some next)).handOver id d) := by
  have hand : s.view.hand i = some (id, d) := by rw [hand_eq there, stage]; rfl
  have names := placed.handNames i id d hand
  unfold Shared.handOver
  cases waiting : (s.put i (some next)).parked id with
  | none =>
      refine losesOnly_one rfl fun frame q header arrived named => ?_
      rw [names.unique arrived named]
      exact .inl waiting
  | some p =>
      dsimp only
      cases held : p.held with
      | none =>
          refine losesOnly_same ?_
          cases p.waker <;> rfl
      | some e =>
          refine losesOnly_one (n := d.number) (by cases p.waker <;> rfl) ?_
          intro frame q header arrived named
          rw [names.unique arrived named]
          refine .inr ⟨p, e, waiting, held, fun same => ?_⟩
          -- the datagram held and the one in hand came with different arrivals
          have inHand : s.view.At d.number (.hand i) := ⟨id, d, hand, rfl⟩
          have isHeld : s.view.At d.number (.held id) := ⟨e, (held_eq waiting).trans held, same⟩
          cases (placed.one d.number).unique inHand isHeld

theorem losesOnly_section (placed : Placed s.view) {i : ι} {c : Call ω}
    (there : s.call i = some c) {next : Shared ι ω} (ran : s.section_ i c = some next) :
    LosesOnly s next := by
  unfold Shared.section_ at ran
  cases stage : c.stage with
  | fresh => rw [stage] at ran; cases ran
  | waiting => rw [stage] at ran; cases ran
  | collecting =>
      simp only [stage, Shared.collect] at ran
      refine losesOnly_same ?_
      cases waiting : s.parked c.quarter with
      | none => rw [waiting] at ran; cases ran; rfl
      | some p =>
          simp only [waiting] at ran
          cases held : p.held with
          | none => simp only [held] at ran; cases ran; rfl
          | some d => simp only [held] at ran; cases ran; rfl
  | registering =>
      simp only [stage, Shared.waitForAHandover] at ran
      refine losesOnly_same ?_
      split at ran
      next held => split at held <;> cases held; cases ran; rfl
      next held => split at held <;> cases held; cases ran; rfl
  | reading =>
      simp only [stage] at ran
      cases arrived : s.arrived[s.read]? with
      | none =>
          refine losesOnly_same ?_
          simp only [arrived] at ran
          split at ran <;> cases ran <;> rfl
      | some frame =>
          simp only [arrived] at ran
          cases named : getVarint frame with
          | none =>
              simp only [named] at ran
              cases ran
              refine losesOnly_one rfl fun frame' q header arrived' named' => ?_
              cases arrived.symm.trans arrived'
              rw [named] at named'
              cases named'
          | some r =>
              refine losesOnly_same ?_
              simp only [named] at ran
              split at ran <;> cases ran <;> rfl
  | handing id d =>
      simp only [stage] at ran
      cases ran
      exact losesOnly_handOver placed there stage

theorem losesOnly_step (placed : Placed s.view) {l : Label ι ω} {next : Shared ι ω}
    (stepped : Shared.step s l = some next) : LosesOnly s next := by
  cases l with
  | openSession q =>
      simp only [Shared.step] at stepped
      split at stepped <;> cases stepped
      exact losesOnly_same rfl
  | dropSession q =>
      obtain ⟨p, waiting, ⟨-, rfl⟩ | ⟨d, held, rfl⟩⟩ := Shared.step_dropSession stepped
      · exact losesOnly_same rfl
      · have names := placed.heldNames q d ((held_eq waiting).trans held)
        refine losesOnly_one rfl fun frame q' header arrived named => .inl ?_
        rw [names.unique arrived named]
        exact Function.update_self q _ _
  | recvDatagram i q =>
      simp only [Shared.step] at stepped
      split at stepped <;> cases stepped
      exact losesOnly_same rfl
  | poll i waker =>
      obtain ⟨c, stage, -, -, rfl⟩ := Shared.step_poll stepped
      exact losesOnly_same rfl
  | run i =>
      obtain ⟨c, there, ran⟩ := Option.bind_eq_some_iff.mp stepped
      exact losesOnly_section placed there ran
  | cancel i =>
      obtain ⟨c, -, -, rfl⟩ := Shared.step_cancel stepped
      exact losesOnly_same rfl
  | arrive frame =>
      simp only [Shared.step] at stepped
      split at stepped <;> cases stepped
      refine losesOnly_same ?_
      split <;> rfl
  | lose => cases stepped; exact losesOnly_same rfl

end Losses
/-! ## Wake-ups -/

/-- Whoever waits for a hand-over is the one to wake for it, or has been woken for it. -/
def Watches (c : Call ω) (p : Parked ω) : Prop :=
  (p.held = none → p.waker = c.waker) ∧ (p.held ≠ none → c.woken = true)

/-- The calls of a session that is read by one call at a time. -/
structure Orderly (parked : Nat → Option (Parked ω)) (call : ι → Option (Call ω)) : Prop where
  opened : ∀ i c, call i = some c → (parked c.quarter).isSome
  polled : ∀ i c, call i = some c → c.stage ≠ .fresh → c.waker.isSome
  single : ∀ i j c other, call i = some c → call j = some other → other.quarter = c.quarter →
    c.stage ≠ .fresh → other.stage ≠ .fresh → j = i
  watched : ∀ i c p, call i = some c → parked c.quarter = some p →
    c.stage = .waiting ∨ c.stage = .reading → Watches c p

namespace Orderly
variable {parked : Nat → Option (Parked ω)} {call : ι → Option (Call ω)}

/-- The calls stand where they stood, and who is there to be woken is watched for again. -/
theorem standing (o : Orderly parked call) {parked' : Nat → Option (Parked ω)}
    {f : Call ω → Call ω} (quarter : ∀ c, (f c).quarter = c.quarter)
    (stage : ∀ c, (f c).stage = c.stage) (waker : ∀ c, (f c).waker = c.waker)
    (opened : ∀ id, (parked id).isSome → (parked' id).isSome)
    (watched : ∀ i c p, call i = some c → parked' c.quarter = some p →
      c.stage = .waiting ∨ c.stage = .reading → Watches (f c) p) :
    Orderly parked' fun i => (call i).map f := by
  refine ⟨fun i c there => ?_, fun i c there going => ?_,
    fun i j c other there there' same going going' => ?_, fun i c p there held stands => ?_⟩
  · obtain ⟨c, before, rfl⟩ := Option.map_eq_some_iff.mp there
    rw [quarter]
    exact opened _ (o.opened i c before)
  · obtain ⟨c, before, rfl⟩ := Option.map_eq_some_iff.mp there
    rw [waker]
    exact o.polled i c before (stage c ▸ going)
  · obtain ⟨c, before, rfl⟩ := Option.map_eq_some_iff.mp there
    obtain ⟨other, before', rfl⟩ := Option.map_eq_some_iff.mp there'
    rw [quarter, quarter] at same
    exact o.single i j c other before before' same (stage c ▸ going) (stage other ▸ going')
  · obtain ⟨c, before, rfl⟩ := Option.map_eq_some_iff.mp there
    rw [quarter] at held
    rw [stage] at stands
    exact watched i c p before held stands

/-- A change of every call that leaves where it stands. -/
theorem mark (o : Orderly parked call) {f : Call ω → Call ω}
    (quarter : ∀ c, (f c).quarter = c.quarter) (stage : ∀ c, (f c).stage = c.stage)
    (waker : ∀ c, (f c).waker = c.waker) (woken : ∀ c, c.woken = true → (f c).woken = true) :
    Orderly parked fun i => (call i).map f := by
  refine o.standing quarter stage waker (fun _ opened => opened) fun i c p there held stands => ?_
  obtain ⟨waits, wakes⟩ := o.watched i c p there held stands
  exact ⟨fun none => (waits none).trans (waker c).symm, fun some => woken c (wakes some)⟩

variable [DecidableEq ι]

/-- A call ends or is dropped. -/
theorem remove (o : Orderly parked call) (i : ι) :
    Orderly parked (Function.update call i none) := by
  have old : ∀ j c, Function.update call i none j = some c → call j = some c := by
    intro j c there
    obtain rfl | other := eq_or_ne j i
    · rw [Function.update_self] at there
      cases there
    · rwa [Function.update_of_ne other] at there
  exact ⟨fun j c there => o.opened j c (old j c there),
    fun j c there => o.polled j c (old j c there),
    fun j k c other there there' => o.single j k c other (old j c there) (old k other there'),
    fun j c p there => o.watched j c p (old j c there)⟩

/-- A call is made and not polled yet. -/
theorem start (o : Orderly parked call) {i : ι} {c : Call ω} (fresh : c.stage = .fresh)
    (opened : (parked c.quarter).isSome) : Orderly parked (Function.update call i (some c)) := by
  have old : ∀ j d, Function.update call i (some c) j = some d → d.stage ≠ .fresh →
      call j = some d := by
    intro j d there going
    obtain rfl | other := eq_or_ne j i
    · rw [Function.update_self] at there
      cases there
      exact absurd fresh going
    · rwa [Function.update_of_ne other] at there
  refine ⟨fun j d there => ?_, fun j d there going => o.polled j d (old j d there going) going,
    fun j k d other there there' same going going' =>
      o.single j k d other (old j d there going) (old k other there' going') same going going',
    fun j d p there held stands => ?_⟩
  · obtain rfl | other := eq_or_ne j i
    · rw [Function.update_self] at there
      cases there
      exact opened
    · rw [Function.update_of_ne other] at there
      exact o.opened j d there
  · have going : d.stage ≠ .fresh := by obtain at_ | at_ := stands <;> rw [at_] <;> nofun
    exact o.watched j d p (old j d there going) held stands

/-- The only call of its session that is under way goes on, and may change what is parked there. -/
theorem advance (o : Orderly parked call) {i : ι} {c : Call ω} {p : Parked ω}
    (alone : ∀ j other, call j = some other → other.quarter = c.quarter →
      other.stage ≠ .fresh → j = i)
    (polled : c.waker.isSome) (watches : c.stage = .waiting ∨ c.stage = .reading → Watches c p) :
    Orderly (Function.update parked c.quarter (some p)) (Function.update call i (some c)) := by
  refine ⟨fun j d there => ?_, fun j d there going => ?_,
    fun j k d other there there' same going going' => ?_, fun j d p' there held stands => ?_⟩
  · obtain same | differs := eq_or_ne d.quarter c.quarter
    · rw [same, Function.update_self]
      rfl
    · rw [Function.update_of_ne differs]
      obtain rfl | other := eq_or_ne j i
      · rw [Function.update_self] at there
        cases there
        exact absurd rfl differs
      · rw [Function.update_of_ne other] at there
        exact o.opened j d there
  · obtain rfl | other := eq_or_ne j i
    · rw [Function.update_self] at there
      cases there
      exact polled
    · rw [Function.update_of_ne other] at there
      exact o.polled j d there going
  · obtain rfl | differs := eq_or_ne j i
    · rw [Function.update_self] at there
      cases there
      obtain rfl | differs' := eq_or_ne k j
      · rfl
      · rw [Function.update_of_ne differs'] at there'
        exact alone k other there' same going'
    · rw [Function.update_of_ne differs] at there
      obtain rfl | differs' := eq_or_ne k i
      · rw [Function.update_self] at there'
        cases there'
        exact (alone j d there same.symm going).symm
      · rw [Function.update_of_ne differs'] at there'
        exact o.single j k d other there there' same going going'
  · obtain rfl | differs := eq_or_ne j i
    · rw [Function.update_self] at there
      cases there
      rw [Function.update_self] at held
      cases held
      exact watches stands
    · rw [Function.update_of_ne differs] at there
      obtain same | apart := eq_or_ne d.quarter c.quarter
      · have going : d.stage ≠ .fresh := by
          obtain stage | stage := stands <;> rw [stage] <;> nofun
        exact absurd (alone j d there same going) differs
      · rw [Function.update_of_ne apart] at held
        exact o.watched j d p' there held stands

/-- The only call of its session that is under way goes on. -/
theorem goOn (o : Orderly parked call) (next : Call ω) {i : ι} {c : Call ω}
    (there : call i = some c)
    (quarter : next.quarter = c.quarter)
    (alone : ∀ j other, call j = some other → other.quarter = c.quarter →
      other.stage ≠ .fresh → j = i)
    (polled : next.waker.isSome)
    (watches : ∀ p, parked c.quarter = some p →
      next.stage = .waiting ∨ next.stage = .reading → Watches next p) :
    Orderly parked (Function.update call i (some next)) := by
  obtain ⟨p, here⟩ := Option.isSome_iff_exists.mp (o.opened i c there)
  have advanced := @advance _ _ _ _ _ o i next p
    (fun j other there same => alone j other there (same.trans quarter)) polled (watches p here)
  have same : Function.update parked next.quarter (some p) = parked := by
    rw [quarter, ← here, Function.update_eq_self]
  rwa [same] at advanced

omit [DecidableEq ι] in
/-- A call that is under way is the only one of its session. -/
theorem alone (o : Orderly parked call) {i : ι} {c : Call ω} (there : call i = some c)
    (going : c.stage ≠ .fresh) : ∀ j other, call j = some other → other.quarter = c.quarter →
      other.stage ≠ .fresh → j = i :=
  fun j other there' same going' => o.single i j c other there there' same going going'

omit [DecidableEq ι] in
/-- A session that no call is under way for may be opened, emptied or closed. -/
theorem repark (o : Orderly parked call) {q : Nat} {p : Option (Parked ω)}
    (idle : ∀ i c, call i = some c → c.quarter = q → p.isSome ∧ c.stage = .fresh) :
    Orderly (Function.update parked q p) call := by
  refine ⟨fun i c there => ?_, o.polled, o.single, fun i c p' there held stands => ?_⟩
  · obtain rfl | differs := eq_or_ne c.quarter q
    · rw [Function.update_self]
      exact (idle i c there rfl).1
    · rw [Function.update_of_ne differs]
      exact o.opened i c there
  · obtain rfl | differs := eq_or_ne c.quarter q
    · have fresh := (idle i c there rfl).2
      obtain stage | stage := stands <;> rw [fresh] at stage <;> cases stage
    · rw [Function.update_of_ne differs] at held
      exact o.watched i c p' there held stands

end Orderly

namespace Orderly
variable {parked : Nat → Option (Parked ω)} {call : ι → Option (Call ω)}

/-- A datagram comes to be held, and whoever watched for it is woken. -/
theorem handed (o : Orderly parked call) {id : Nat} {p : Parked ω} {e : Datagram}
    (waiting : parked id = some p) {f : Call ω → Call ω} (quarter : ∀ c, (f c).quarter = c.quarter)
    (stage : ∀ c, (f c).stage = c.stage) (waker : ∀ c, (f c).waker = c.waker)
    (kept : ∀ c, c.quarter ≠ id → c.woken = true → (f c).woken = true)
    (woken : ∀ c, c.waker.isSome → Watches c p → (f c).woken = true) :
    Orderly (Function.update parked id (some ⟨some e, none⟩)) fun i => (call i).map f := by
  refine o.standing quarter stage waker (fun id' opened => ?_) fun i c p' there held stands => ?_
  · obtain rfl | differs := eq_or_ne id' id
    · rw [Function.update_self]
      rfl
    · rwa [Function.update_of_ne differs]
  · obtain rfl | differs := eq_or_ne c.quarter id
    · rw [Function.update_self] at held
      cases held
      have going : c.stage ≠ .fresh := by obtain at_ | at_ := stands <;> rw [at_] <;> nofun
      exact ⟨nofun, fun _ => woken c (o.polled i c there going)
        (o.watched i c p there waiting stands)⟩
    · rw [Function.update_of_ne differs] at held
      obtain ⟨waits, wakes⟩ := o.watched i c p' there held stands
      exact ⟨fun none => (waits none).trans (waker c).symm,
        fun some => kept c differs (wakes some)⟩

end Orderly

section Orderly
variable [DecidableEq ι] [DecidableEq ω] {s : Shared ι ω}

omit [DecidableEq ι] in
theorem orderly_handOver (o : Orderly s.parked s.call) (id : Nat) (d : Datagram) :
    Orderly (s.handOver id d).parked (s.handOver id d).call := by
  unfold Shared.handOver
  cases waiting : s.parked id with
  | none => exact o
  | some p =>
      dsimp only
      cases held : p.held with
      | some e =>
          have woken : ∀ c : Call ω, Watches c p → c.woken = true := fun c watches =>
            watches.2 (by rw [held]; nofun)
          cases p.waker with
          | none =>
              have same := o.handed (e := e) (f := fun c => c) waiting (fun _ => rfl) (fun _ => rfl)
                (fun _ => rfl) (fun _ _ h => h) (fun c _ watches => woken c watches)
              simp only [Option.map_id'] at same
              exact same
          | some waker =>
              exact o.handed (e := e) waiting (fun c => by split <;> rfl)
                (fun c => by split <;> rfl) (fun c => by split <;> rfl)
                (fun c _ h => by split <;> first | rfl | exact h)
                (fun c _ watches => by split <;> first | rfl | exact woken c watches)
      | none =>
          -- the waker to wake is that of whoever watches
          have waits : ∀ c : Call ω, Watches c p → p.waker = c.waker := fun c watches =>
            watches.1 held
          cases slot : p.waker with
          | none =>
              refine o.handed (e := d) waiting (fun c => by split <;> rfl)
                (fun c => by split <;> rfl) (fun c => by split <;> rfl)
                (fun c other h => by rw [if_neg other]; exact h) fun c polled watches => ?_
              rw [← waits c watches, slot] at polled
              cases polled
          | some waker =>
              have both := o.handed (e := d) waiting
                (f := fun c : Call ω =>
                  (fun c : Call ω => if c.waker = some waker then { c with woken := true } else c)
                    (if c.quarter = id then { c with woken := false } else c))
                (fun c => by dsimp only; split <;> split <;> rfl)
                (fun c => by dsimp only; split <;> split <;> rfl)
                (fun c => by dsimp only; split <;> split <;> rfl)
                (fun c other h => by
                  dsimp only
                  rw [if_neg other]
                  split
                  · rfl
                  · exact h)
                (fun c polled watches => by
                  have mine : c.waker = some waker := (waits c watches).symm.trans slot
                  dsimp only
                  rw [if_pos (by split <;> exact mine)])
              change Orderly _ fun i => ((s.call i).map _).map _
              simp only [Option.map_map]
              exact both

theorem orderly_section (o : Orderly s.parked s.call) {i : ι} {c : Call ω}
    (there : s.call i = some c) {next : Shared ι ω} (ran : s.section_ i c = some next) :
    Orderly next.parked next.call := by
  unfold Shared.section_ at ran
  cases stage : c.stage with
  | fresh => rw [stage] at ran; cases ran
  | waiting => rw [stage] at ran; cases ran
  | collecting =>
      have going : c.stage ≠ .fresh := by rw [stage]; nofun
      have alone := o.alone there going
      have polled := o.polled i c there going
      simp only [stage, Shared.collect] at ran
      cases waiting : s.parked c.quarter with
      | none => have opened := o.opened i c there; rw [waiting] at opened; cases opened
      | some p =>
          simp only [waiting] at ran
          cases held : p.held with
          | none =>
              simp only [held] at ran
              cases ran
              exact o.advance (c := { c with stage := .registering }) alone polled nofun
          | some d =>
              simp only [held] at ran
              cases ran
              have removed := (o.advance (p := ⟨none, none⟩) (c := c) alone polled
                (by rw [stage]; nofun)).remove i
              rw [Function.update_idem] at removed
              exact removed
  | registering =>
      have going : c.stage ≠ .fresh := by rw [stage]; nofun
      have alone := o.alone there going
      have polled := o.polled i c there going
      simp only [stage, Shared.waitForAHandover] at ran
      by_cases held : ((s.parked c.quarter).getD ⟨none, none⟩).held.isSome
      · simp only [if_pos held] at ran
        cases ran
        exact o.advance (c := { c with stage := .collecting }) alone polled nofun
      · simp only [if_neg held] at ran
        cases ran
        exact o.advance (c := { c with stage := .reading }) alone polled fun _ =>
          ⟨fun _ => rfl, fun some => absurd (Option.isSome_iff_ne_none.mpr some) held⟩
  | reading =>
      have going : c.stage ≠ .fresh := by rw [stage]; nofun
      have alone := o.alone there going
      have polled := o.polled i c there going
      simp only [stage] at ran
      cases arrived : s.arrived[s.read]? with
      | none =>
          simp only [arrived] at ran
          split at ran
          next => cases ran; exact o.remove i
          next =>
            cases ran
            exact o.goOn { c with stage := .waiting } there rfl alone polled
              fun p held _ => o.watched i c p there held (.inr stage)
      | some frame =>
          simp only [arrived] at ran
          cases named : getVarint frame with
          | none =>
              simp only [named] at ran
              cases ran
              exact o.goOn { c with stage := .collecting } there rfl alone polled
                fun _ _ => nofun
          | some r =>
              simp only [named] at ran
              split at ran
              next => cases ran; exact o.remove i
              next =>
                cases ran
                exact o.goOn { c with stage := .handing _ _ } there rfl alone polled
                  fun _ _ => nofun
  | handing id d =>
      have going : c.stage ≠ .fresh := by rw [stage]; nofun
      simp only [stage] at ran
      cases ran
      exact orderly_handOver (s := s.put i (some { c with stage := .collecting }))
        (o.goOn { c with stage := .collecting } there rfl (o.alone there going)
          (o.polled i c there going) fun _ _ => nofun) id d

theorem orderly_step (o : Orderly s.parked s.call) {l : Label ι ω} (lawful : Lawful s l)
    (alone : Alone s l) {next : Shared ι ω} (stepped : Shared.step s l = some next) :
    Orderly next.parked next.call := by
  have woken : ∀ (t : Shared ι ω), Orderly t.parked t.call →
      Orderly t.notify.parked t.notify.call := fun t o =>
    o.mark (fun c => by split <;> rfl) (fun c => by split <;> rfl) (fun c => by split <;> rfl)
      fun c h => by split <;> first | rfl | exact h
  cases l with
  | openSession q =>
      simp only [Shared.step, Option.isNone_iff_eq_none] at stepped
      split at stepped
      next free =>
        cases stepped
        refine o.repark fun i c there same => ?_
        have opened := o.opened i c there
        rw [same, free] at opened
        cases opened
      next => cases stepped
  | dropSession q =>
      have closed : Orderly (Function.update s.parked q none) s.call :=
        o.repark fun i c there same => absurd same (lawful i c there)
      obtain ⟨p, -, ⟨-, rfl⟩ | ⟨d, -, rfl⟩⟩ := Shared.step_dropSession stepped
      · exact closed
      · exact closed
  | recvDatagram i q =>
      simp only [Shared.step, Option.isNone_iff_eq_none] at stepped
      split at stepped
      next free =>
        cases stepped
        exact o.start rfl free.2
      next => cases stepped
  | poll i waker =>
      obtain ⟨c, stage, there, ⟨-, rfl⟩ | ⟨-, rfl⟩, rfl⟩ := Shared.step_poll stepped
      · exact o.goOn { c with stage := .collecting, waker := some waker } there rfl
          (alone c there) rfl fun _ _ => nofun
      · exact o.goOn { c with stage := .registering, waker := some waker } there rfl
          (alone c there) rfl fun _ _ => nofun
  | run i =>
      obtain ⟨c, there, ran⟩ := Option.bind_eq_some_iff.mp stepped
      exact orderly_section o there ran
  | cancel i =>
      obtain ⟨c, -, -, rfl⟩ := Shared.step_cancel stepped
      exact o.remove i
  | arrive frame =>
      simp only [Shared.step] at stepped
      split at stepped <;> cases stepped
      split
      · exact woken { s with arrived := s.arrived ++ [frame] } o
      · exact o
  | lose =>
      cases stepped
      exact woken { s with lost := true } o

end Orderly
/-! ## Runs -/

/-- Every datagram that was answered came with an arrival that names the session, no arrival is
answered twice, and one that is not answered is unread, under way or dropped. -/
structure Fair (s : Shared ι ω) : Prop where
  once : (s.delivered.map (·.2.number)).Nodup
  named : ∀ q d, (q, d) ∈ s.delivered → Names s.arrived d q
  heldNamed : ∀ q p d, s.parked q = some p → p.held = some d → Names s.arrived d q
  kept : ∀ n < s.arrived.length, s.read ≤ n ∨ n ∈ s.dropped ∨
    (∃ q d, (q, d) ∈ s.delivered ∧ d.number = n) ∨
    (∃ q p d, s.parked q = some p ∧ p.held = some d ∧ d.number = n) ∨
    ∃ i c id d, s.call i = some c ∧ c.stage = .handing id d ∧ d.number = n
  apart : ∀ q d, (q, d) ∈ s.delivered → d.number ∉ s.dropped

/-- Where a datagram is held for a session that a call waits for, a call of it has been woken
since. -/
def Woken (s : Shared ι ω) : Prop :=
  ∀ q p i c, s.parked q = some p → p.held.isSome → s.call i = some c → c.quarter = q →
    c.stage = .waiting → ∃ j other, s.call j = some other ∧ other.quarter = q ∧
      other.woken = true

theorem hand_some {stage : Stage} {id : Nat} {d : Datagram} (hand : stage.hand = some (id, d)) :
    stage = .handing id d := by
  cases stage <;> cases hand
  rfl

theorem Placed.fair {s : Shared ι ω} (placed : Placed s.view) : Fair s := by
  refine ⟨placed.once, placed.deliveredNames,
    fun q p d there held => placed.heldNames q d ((held_eq there).trans held), fun n _ => ?_,
    fun q d member dropped => ?_⟩
  · obtain ⟨place, there, -⟩ := placed.one n
    cases place with
    | unread => exact .inl there
    | dropped => exact .inr (.inl there)
    | delivered q =>
        obtain ⟨d, member, number⟩ := there
        exact .inr (.inr (.inl ⟨q, d, member, number⟩))
    | held q =>
        obtain ⟨d, held, number⟩ := there
        obtain ⟨p, there, held⟩ := Option.bind_eq_some_iff.mp held
        exact .inr (.inr (.inr (.inl ⟨q, p, d, there, held, number⟩)))
    | hand i =>
        obtain ⟨id, d, hand, number⟩ := there
        obtain ⟨c, there, hand⟩ := Option.bind_eq_some_iff.mp hand
        exact .inr (.inr (.inr (.inr ⟨i, c, id, d, there, hand_some hand, number⟩)))
  · have here : s.view.At d.number (.delivered q) := ⟨d, member, rfl⟩
    have there : s.view.At d.number .dropped := dropped
    cases (placed.one d.number).unique here there

theorem Orderly.woken {s : Shared ι ω} (o : Orderly s.parked s.call) : Woken s := by
  intro q p i c there held call quarter stage
  subst quarter
  exact ⟨i, c, call, rfl, (o.watched i c p call there (.inl stage)).2
    (Option.isSome_iff_ne_none.mp held)⟩

variable [DecidableEq ι] [DecidableEq ω]

/-- In every run each arrival is answered at most once, to the session it names, and lost only for
naming no open session or meeting another one held for it; where the calls of each session are
polled one at a time, whoever waits for what is held has been woken. -/
theorem datagrams_run {labels : List (Label ι ω)} {s : Shared ι ω}
    (lawful : Shared.step.Always Lawful (Shared.initial : Shared ι ω) labels)
    (reached : Shared.step.run Shared.initial labels = some s) :
    Fair s ∧ (∀ l next, Shared.step s l = some next → LosesOnly s next) ∧
      (Shared.step.Always Alone (Shared.initial : Shared ι ω) labels → Woken s) := by
  have placed : Placed s.view :=
    @Machine.run_preserves _ _ _ _ (fun s => Placed s.view)
      (fun s l next _ placed stepped => placed_step placed stepped) _ _ _ lawful placed_initial
      reached
  refine ⟨placed.fair, fun l next => losesOnly_step placed, fun alone => ?_⟩
  have initial : Orderly (Shared.initial : Shared ι ω).parked (Shared.initial : Shared ι ω).call :=
    ⟨nofun, nofun, nofun, nofun⟩
  have orderly : Orderly s.parked s.call :=
    @Machine.run_preserves _ _ _ _ (fun s => Orderly s.parked s.call)
      (fun s l next ok orderly stepped => orderly_step orderly ok.1 ok.2 stepped) _ _ _
      (lawful.and alone) initial reached
  exact orderly.woken

/-- A run that drops no session. -/
theorem lawful_of_open {s : Shared ι ω} {labels : List (Label ι ω)}
    (stays : ∀ l ∈ labels, ∀ q, l ≠ .dropSession q) : Shared.step.Always Lawful s labels := by
  induction labels generalizing s with
  | nil => trivial
  | cons l labels ih =>
      refine ⟨?_, fun next _ => ih fun l member => stays l (List.mem_cons_of_mem _ member)⟩
      have here := stays l List.mem_cons_self
      cases l with
      | dropSession q => exact absurd rfl (here q)
      | _ => trivial

/-- Two sessions, a call that waits for the first, and one of the second that reads for it. -/
def handsOver : List (Label Nat Nat) :=
  [.openSession 0, .openSession 1, .recvDatagram 0 0, .poll 0 10, .run 0, .run 0, .run 0,
    .arrive [0, 7], .recvDatagram 1 1, .poll 1 11, .run 1, .run 1, .run 1, .run 1]

theorem datagrams_run_handsOver : ∃ s, Shared.step.run Shared.initial handsOver = some s ∧
    (∃ p, s.parked 0 = some p ∧ p.held = some ⟨0, [7]⟩) ∧ Fair s ∧
      (∀ l next, Shared.step s l = some next → LosesOnly s next) ∧ Woken s := by
  have lawful : Shared.step.Always Lawful Shared.initial handsOver :=
    lawful_of_open (by simp [handsOver])
  obtain ⟨s, reached⟩ : ∃ s, Shared.step.run Shared.initial handsOver = some s := ⟨_, rfl⟩
  obtain ⟨fair, losses, woken⟩ := datagrams_run lawful reached
  refine ⟨s, reached, ?_, fair, losses, woken ?_⟩
  · cases reached
    exact ⟨_, rfl, rfl⟩
  · -- each session has one call, which is polled once
    iterate 3
      refine ⟨trivial, fun s stepped => ?_⟩
      cases stepped
    refine ⟨fun c there j other there' same going => ?_, fun s stepped => ?_⟩
    · match j with
      | 0 => rfl
      | j + 1 => cases there'
    cases stepped
    iterate 5
      refine ⟨trivial, fun s stepped => ?_⟩
      cases stepped
    refine ⟨fun c there j other there' same going => ?_, fun s stepped => ?_⟩
    · match j with
      | 0 => cases there; cases there'; cases same
      | 1 => rfl
      | j + 2 => cases there'
    cases stepped
    iterate 4
      refine ⟨trivial, fun s stepped => ?_⟩
      cases stepped
    trivial

/-- A second call takes the wake-up of the first one with it. -/
def lostWake : List (Label Nat Nat) :=
  [.openSession 0, .openSession 1, .recvDatagram 0 0, .recvDatagram 1 0, .recvDatagram 2 1,
    .arrive [0, 7], .poll 2 12, .run 2, .run 2, .run 2,
    .poll 0 10, .run 0, .run 0, .run 0, .poll 1 11, .run 1, .run 1, .run 1, .run 2, .cancel 1]

theorem datagrams_lose_wake : ¬ ∀ (labels : List (Label Nat Nat)) (s : Shared Nat Nat),
    Shared.step.Always Lawful Shared.initial labels →
      Shared.step.run Shared.initial labels = some s → Woken s := by
  intro claimed
  have lawful : Shared.step.Always Lawful Shared.initial lostWake :=
    lawful_of_open (by simp [lostWake])
  obtain ⟨s, reached⟩ : ∃ s, Shared.step.run Shared.initial lostWake = some s := ⟨_, rfl⟩
  have woken := claimed lostWake s lawful reached
  cases reached
  obtain ⟨j, other, there, quarter, marked⟩ := woken 0 _ 0 _ rfl rfl rfl rfl rfl
  match j with
  | 0 => cases there; cases marked
  | 1 => cases there
  | 2 => cases there; cases quarter
  | j + 3 => cases there

end HClient.WebTransport
