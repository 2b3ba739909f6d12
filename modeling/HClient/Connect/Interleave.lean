import HClient.Connect.Scheduler

/-!
# The order of the attempts

With all addresses known before the first poll, a scheduler starts them family by family in
blocks: so many of the first family and one of the other, until one of the two runs dry.
-/
namespace HClient.Connect

/-! ## Interleaving two lists -/

section
variable {α : Type}

/-- A first block of the one list, then one of the other list, and so on with blocks of the other
size. A list that has run dry leaves the rest of the other. -/
def interleave (first block : Nat) : List α → List α → List α
  | v6, [] => v6
  | v6, a :: v4 =>
      if v6.length ≤ first then v6 ++ a :: v4
      else v6.take first ++ a :: interleave block block (v6.drop first) v4

theorem interleave_nil (first block : Nat) (v4 : List α) : interleave first block [] v4 = v4 := by
  cases v4 <;> simp [interleave]

theorem interleave_first (first block : Nat) (a : α) (v6 v4 : List α) :
    interleave (first + 1) block (a :: v6) v4 = a :: interleave first block v6 v4 := by
  cases v4 with
  | nil => rfl
  | cons b v4 => by_cases dry : v6.length ≤ first <;> simp [interleave, dry]

theorem interleave_second (block : Nat) (b : α) (v6 v4 : List α) :
    interleave 0 block v6 (b :: v4) = b :: interleave block block v6 v4 := by
  cases v6 with
  | nil => rw [interleave_nil, interleave_nil]
  | cons a v6 => simp [interleave]

theorem length_interleave (first block : Nat) (v6 v4 : List α) :
    (interleave first block v6 v4).length = v6.length + v4.length := by
  induction v4 generalizing first v6 with
  | nil => rfl
  | cons b v4 ih =>
      rw [interleave]
      split
      · simp
      · rw [List.length_append, List.length_cons, ih, List.length_drop, List.length_take,
          List.length_cons]
        omega

end

/-! ## What a scheduler has still to start -/

namespace Scheduler

/-- The addresses of the first family that may still be started in this block. -/
def block (s : Scheduler) : Nat :=
  if s.started = 0 then max s.cfg.firstFamilyCount 1
  else s.cfg.firstFamilyCount - s.runInFirstFamily

def todo (s : Scheduler) : List IpAddr := interleave s.block s.cfg.firstFamilyCount s.v6 s.v4

/-- Both lookups are over, and a scheduler that has started nothing counts nothing. -/
structure Ready (s : Scheduler) : Prop where
  v6Done : s.v6Done = true
  v4Done : s.v4Done = true
  fresh : s.started = 0 → s.runInFirstFamily = 0

/-- A scheduler that has started an address, at a reading of the clock. -/
structure Started (s : Scheduler) (elapsed : Duration) (addr : IpAddr) (s' : Scheduler) : Prop where
  todo : s.todo = addr :: s'.todo
  ready : s'.Ready
  cfg : s'.cfg = s.cfg
  lastStart : s'.lastStart = some elapsed

theorem pick_first {s : Scheduler} (turn : s.takeV6 = true) {a : IpAddr} {v6 : List IpAddr}
    (front : s.v6 = a :: v6) (elapsed : Duration) :
    s.pick elapsed = (.start a, { s with
      v6 := v6
      started := s.started + 1
      lastStart := some elapsed
      runInFirstFamily := s.runInFirstFamily + 1 }) := by
  unfold pick
  rw [if_pos turn, front]

theorem pick_second {s : Scheduler} (turn : s.takeV6 = false) {b : IpAddr} {v4 : List IpAddr}
    (front : s.v4 = b :: v4) (elapsed : Duration) :
    s.pick elapsed = (.start b, { s with
      v4 := v4
      started := s.started + 1
      lastStart := some elapsed
      runInFirstFamily := 0 }) := by
  unfold pick
  rw [turn, front]
  rfl

/-- The pick is the front of what is left to do, whichever family's turn it is. -/
theorem pick_started {s : Scheduler} (ready : s.Ready) (elapsed : Duration)
    (some_left : ¬ (s.v6 = [] ∧ s.v4 = [])) :
    ∃ addr s', s.pick elapsed = (.start addr, s') ∧ s.Started elapsed addr s' := by
  obtain ⟨cfg, v6, v4, v6Done, v4Done, started, lastStart, run⟩ := s
  obtain ⟨done6, done4, fresh⟩ := ready
  dsimp only at done6 done4 fresh some_left
  cases v6 with
  | nil =>
      cases v4 with
      | nil => exact absurd ⟨rfl, rfl⟩ some_left
      | cons b v4 =>
          refine ⟨b, _, rfl, ?_, ⟨done6, done4, fun none_ => ?_⟩, rfl, rfl⟩
          · unfold todo
            rw [interleave_nil, interleave_nil]
          · exact absurd none_ (Nat.succ_ne_zero _)
  | cons a v6 =>
      have taken (turn : takeV6 ⟨cfg, a :: v6, v4, v6Done, v4Done, started, lastStart, run⟩ = true)
          (first : v4 ≠ [] → block ⟨cfg, a :: v6, v4, v6Done, v4Done, started, lastStart, run⟩ =
            cfg.firstFamilyCount - (run + 1) + 1) :
          ∃ addr s', pick ⟨cfg, a :: v6, v4, v6Done, v4Done, started, lastStart, run⟩ elapsed =
            (.start addr, s') ∧
              Started ⟨cfg, a :: v6, v4, v6Done, v4Done, started, lastStart, run⟩ elapsed addr s' := by
        refine ⟨a, _, pick_first turn rfl elapsed, ?_, ⟨done6, done4, fun none_ => ?_⟩, rfl, rfl⟩
        · cases v4 with
          | nil => rfl
          | cons b v4 =>
              unfold todo
              rw [first (List.cons_ne_nil _ _), interleave_first]
              rfl
        · exact absurd none_ (Nat.succ_ne_zero _)
      cases v4 with
      | nil => exact taken rfl fun other => absurd rfl other
      | cons b v4 =>
          by_cases none_yet : started = 0
          · subst none_yet
            refine taken rfl fun _ => ?_
            have no_run : run = 0 := fresh rfl
            change max cfg.firstFamilyCount 1 = _
            omega
          · have counted : block ⟨cfg, a :: v6, b :: v4, v6Done, v4Done, started, lastStart, run⟩ =
                cfg.firstFamilyCount - run := if_neg none_yet
            by_cases more : run < cfg.firstFamilyCount
            · refine taken ?_ fun _ => ?_
              · simp [takeV6, more]
              · rw [counted]
                omega
            · have turn : takeV6 ⟨cfg, a :: v6, b :: v4, v6Done, v4Done, started, lastStart, run⟩ =
                  false := by simp [takeV6, none_yet, more]
              refine ⟨b, _, pick_second turn rfl elapsed, ?_, ⟨done6, done4, fun none_ => ?_⟩,
                rfl, rfl⟩
              · unfold todo
                rw [counted, Nat.sub_eq_zero_of_le (Nat.le_of_not_lt more), interleave_second]
                rfl
              · exact absurd none_ (Nat.succ_ne_zero _)

theorem todo_eq_nil {s : Scheduler} : s.todo = [] ↔ s.v6 = [] ∧ s.v4 = [] := by
  rw [← List.length_eq_zero_iff, todo, length_interleave, Nat.add_eq_zero_iff,
    List.length_eq_zero_iff, List.length_eq_zero_iff]

variable {s : Scheduler}

theorem poll_exhausted (ready : s.Ready) (elapsed : Duration) (none_left : s.todo = []) :
    s.poll elapsed = some (.exhausted, s) := by
  obtain ⟨no6, no4⟩ := todo_eq_nil.mp none_left
  unfold poll
  rw [no6, no4, ready.v6Done, ready.v4Done]
  rfl

/-- Nothing waits for the resolution delay once both lookups are over. -/
theorem holdBack_ready (ready : s.Ready) (elapsed : Duration) :
    s.holdBack elapsed = s.pick elapsed := by
  unfold holdBack
  rw [ready.v6Done]
  simp

theorem poll_started (ready : s.Ready) (elapsed : Duration) (some_left : s.todo ≠ [])
    (paced : ∀ last ∈ s.lastStart, last + s.cfg.attemptDelay ≤ elapsed ∧
      last + s.cfg.attemptDelay ≤ .longest) :
    ∃ addr s', s.poll elapsed = some (.start addr, s') ∧ s.Started elapsed addr s' := by
  have left : ¬ (s.v6 = [] ∧ s.v4 = []) := fun none_left => some_left (todo_eq_nil.mpr none_left)
  obtain ⟨addr, s', picked, started⟩ := pick_started ready elapsed left
  refine ⟨addr, s', ?_, started⟩
  have busy : ¬ (s.v6.isEmpty && s.v4.isEmpty && s.v6Done && s.v4Done) = true := by
    rw [ready.v6Done, ready.v4Done]
    simpa using left
  unfold poll
  rw [if_neg busy]
  cases before : s.lastStart with
  | none =>
      dsimp only
      rw [holdBack_ready ready, picked]
  | some last =>
      obtain ⟨past, fits⟩ := paced last before
      dsimp only
      rw [Duration.checkedAdd, if_pos fits]
      dsimp only
      rw [if_neg (Nat.not_lt.mpr past), holdBack_ready ready, picked]

theorem poll_waits (ready : s.Ready) {elapsed last : Duration} (some_left : s.todo ≠ [])
    (before : s.lastStart = some last) (early : elapsed < last + s.cfg.attemptDelay)
    (fits : last + s.cfg.attemptDelay ≤ .longest) :
    s.poll elapsed = some (.wait (last + s.cfg.attemptDelay - elapsed), s) := by
  have left : ¬ (s.v6 = [] ∧ s.v4 = []) := fun none_left => some_left (todo_eq_nil.mpr none_left)
  have busy : ¬ (s.v6.isEmpty && s.v4.isEmpty && s.v6Done && s.v4Done) = true := by
    rw [ready.v6Done, ready.v4Done]
    simpa using left
  unfold poll
  rw [if_neg busy, before]
  dsimp only
  rw [Duration.checkedAdd, if_pos fits]
  dsimp only
  rw [if_pos early]

end Scheduler

/-! ## Polling to the end -/

/-- How late each poll comes after the time it was to come. The clock has room for all of it. -/
structure Oversleep where
  late : Nat → Duration
  held : ∀ n, ((List.range n).map late).sum ≤ Duration.longest / 2

def addrBytes : Nat := 17

/-- What a list in memory can hold. -/
def maxBytes : Nat := 2 ^ 63 - 1

abbrev Addrs : Type := { addrs : List IpAddr // addrs.length * addrBytes ≤ maxBytes }

/-- What is started until a poll answers that all is exhausted, where each wait is waited out
before the next poll. It is none where the polls do not come to that. -/
def drain (late : Nat → Duration) : Nat → Nat → Scheduler → Duration → Option (List IpAddr)
  | 0, _, _, _ => none
  | polls + 1, n, s, elapsed =>
      match s.poll elapsed with
      | none => none
      | some (.exhausted, _) => some []
      | some (.start addr, s') => (drain late polls (n + 1) s' (elapsed + late n)).map (addr :: ·)
      | some (.wait d, s') => drain late polls (n + 1) s' (elapsed + d + late n)

section
variable {late : Nat → Duration}

/-- The lateness of so many polls from one of them on. -/
def lateness (late : Nat → Duration) (n m : Nat) : Duration :=
  ((List.range m).map fun i => late (n + i)).sum

theorem lateness_succ (late : Nat → Duration) (n m : Nat) :
    lateness late n (m + 1) = late n + lateness late (n + 1) m := by
  unfold lateness
  rw [List.range_succ_eq_map, List.map_cons, List.map_map, List.sum_cons]
  congr 2
  exact List.map_congr_left fun i _ => congrArg late (by dsimp; omega)

/-- The clock has room for all the attempts and for the lateness of all polls to come. -/
def Room (late : Nat → Duration) (n : Nat) (s : Scheduler) (elapsed : Duration) : Prop :=
  ∀ m, elapsed + lateness late n m + (s.todo.length + 1) * attemptMax ≤ .longest

/-- Less work has room too. -/
theorem room_less {elapsed slept work one most : Nat}
    (room : elapsed + slept + (work + one) ≤ most) : elapsed + slept + work ≤ most := by
  omega

/-- The end of a wait is within the room. -/
theorem room_wait {last elapsed delay slept work one most : Nat} (earlier : last ≤ elapsed)
    (short : delay ≤ one) (room : elapsed + slept + (work + one) ≤ most) : last + delay ≤ most := by
  omega

/-- The room behind a wait. -/
theorem room_waited {last elapsed delay slept rest work one most : Nat} (earlier : last ≤ elapsed)
    (short : delay ≤ one) (early : elapsed < last + delay)
    (room : elapsed + (slept + rest) + (work + one) ≤ most) :
    elapsed + (last + delay - elapsed) + slept + rest + work ≤ most := by
  omega

/-- An attempt takes one poll, or two where it has to be waited for. -/
theorem drain_todo {polls n : Nat} {s : Scheduler} {elapsed : Duration} (ready : s.Ready)
    (delay : s.cfg.attemptDelay ≤ attemptMax) (clock : ∀ last ∈ s.lastStart, last ≤ elapsed)
    (room : Room late n s elapsed) (enough : 2 * s.todo.length + 1 ≤ polls) :
    drain late polls n s elapsed = some s.todo := by
  induction len : s.todo.length generalizing polls n s elapsed with
  | zero =>
      have none_left := List.length_eq_zero_iff.mp len
      obtain ⟨polls, rfl⟩ := Nat.exists_eq_succ_of_ne_zero (by omega : polls ≠ 0)
      rw [drain, Scheduler.poll_exhausted ready elapsed none_left, none_left]
  | succ k ih =>
      have some_left : s.todo ≠ [] := fun none_left => by simp [none_left] at len
      -- A poll that comes late enough starts an attempt, and the rest is what is left to do.
      have starts {polls n : Nat} {elapsed : Duration} (enough : 2 * (k + 1) ≤ polls)
          (room : ∀ m, elapsed + lateness late n m + (k + 1) * attemptMax ≤ .longest)
          (paced : ∀ last ∈ s.lastStart, last + s.cfg.attemptDelay ≤ elapsed) :
          drain late polls n s elapsed = some s.todo := by
        have fits := room 0
        obtain ⟨addr, s', polled, started⟩ := Scheduler.poll_started ready elapsed some_left
          fun last before => ⟨paced last before, Nat.le_trans (paced last before)
            (Nat.le_trans (Nat.le_add_right_of_le (Nat.le_add_right _ _)) fits)⟩
        have shorter : s'.todo.length = k := by
          have := congrArg List.length started.todo
          rw [len, List.length_cons] at this
          omega
        obtain ⟨polls, rfl⟩ := Nat.exists_eq_succ_of_ne_zero (by omega : polls ≠ 0)
        have rest : 2 * s'.todo.length + 1 ≤ polls := by omega
        have clock' : ∀ last ∈ s'.lastStart, last ≤ elapsed + late n := by
          intro last before
          rw [started.lastStart] at before
          cases before
          exact Nat.le_add_right _ _
        have room' : Room late (n + 1) s' (elapsed + late n) := by
          intro m
          have later := room (m + 1)
          rw [lateness_succ] at later
          rw [shorter]
          grind
        rw [drain, polled]
        dsimp only
        rw [ih started.ready (by rw [started.cfg]; exact delay) clock' room' rest shorter,
          started.todo, Option.map_some]
      by_cases paced : ∀ last ∈ s.lastStart, last + s.cfg.attemptDelay ≤ elapsed
      · refine starts (by omega) (fun m => ?_) paced
        have later := room m
        rw [len, Nat.succ_mul] at later
        exact room_less later
      · push Not at paced
        obtain ⟨last, before, early⟩ := paced
        have earlier := clock last before
        have fits := room 0
        obtain ⟨polls, rfl⟩ := Nat.exists_eq_succ_of_ne_zero (by omega : polls ≠ 0)
        rw [len, Nat.succ_mul] at fits
        rw [drain, Scheduler.poll_waits ready some_left before early
          (room_wait earlier delay fits)]
        dsimp only
        refine starts (by omega) ?_ ?_
        · intro m
          have later := room (m + 1)
          rw [lateness_succ, len, Nat.succ_mul] at later
          exact room_waited earlier delay early later
        · intro last' before'
          rw [before] at before'
          cases before'
          grind

end

/-- A scheduler that both lookups have given all they had. -/
def offered (cfg : HeConfig) (v6 v4 : List IpAddr) : Scheduler :=
  Scheduler.new cfg |>.offerV6 v6 |>.offerV4 v4 |>.markV6Done |>.markV4Done

theorem clamp_le (d least most : Duration) (le : least ≤ most) : d.clamp least most ≤ most := by
  unfold Duration.clamp
  split
  · exact le
  · split
    · exact Nat.le_refl _
    · rename_i not_more
      exact Nat.le_of_not_lt not_more

/-- Two lists that memory can hold are started well before the clock ends. -/
theorem room_in_memory {first rest k6 k4 : Nat} (held : first + rest ≤ Duration.longest / 2)
    (fits6 : k6 * addrBytes ≤ maxBytes) (fits4 : k4 * addrBytes ≤ maxBytes) :
    first + rest + (k6 + k4 + 1) * attemptMax ≤ Duration.longest := by
  have longest : Duration.longest = 18446744073709551615999999999 := by decide
  have most : attemptMax = 2000000000 := by decide
  unfold addrBytes maxBytes at fits6 fits4
  rw [longest] at held ⊢
  rw [most]
  omega

/-- Polled to the end, a scheduler starts the addresses in blocks of the configured size, the first
of them of one address at least, each followed by one address of the other family. -/
theorem drain_interleaves (cfg : HeConfig) (v6 v4 : Addrs) (clock : Oversleep) (polls : Nat)
    (enough : 2 * (v6.val.length + v4.val.length) + 1 ≤ polls) :
    drain clock.late polls 1 (offered cfg v6 v4) (clock.late 0) =
      some (interleave (max cfg.firstFamilyCount 1) cfg.firstFamilyCount v6.val v4.val) := by
  have todo : (offered cfg v6 v4).todo =
      interleave (max cfg.firstFamilyCount 1) cfg.firstFamilyCount v6.val v4.val := rfl
  have len : (offered cfg v6 v4).todo.length = v6.val.length + v4.val.length := by
    rw [todo, length_interleave]
  rw [← todo]
  refine drain_todo ⟨rfl, rfl, fun _ => rfl⟩ ?_ (fun _ => nofun) (fun m => ?_) (by omega)
  · exact clamp_le cfg.attemptDelay attemptMin attemptMax (by decide)
  · have held := clock.held (m + 1)
    have all :
        ((List.range (m + 1)).map clock.late).sum = clock.late 0 + lateness clock.late 1 m := by
      have split := lateness_succ clock.late 0 m
      simpa [lateness, Nat.add_comm] using split
    rw [all] at held
    rw [len]
    exact room_in_memory held v6.property v4.property

/-- With blocks of none, one address of the first family goes before all of the other. -/
theorem drain_interleaves_zero :
    drain (fun _ => 0) 9 1 (offered ⟨0, 0, 0⟩ [.v6 [1], .v6 [2]] [.v4 [3], .v4 [4]]) 0 =
      some [.v6 [1], .v4 [3], .v4 [4], .v6 [2]] :=
  drain_interleaves ⟨0, 0, 0⟩ ⟨[.v6 [1], .v6 [2]], by decide⟩ ⟨[.v4 [3], .v4 [4]], by decide⟩
    ⟨fun _ => 0, fun n => by simp⟩ 9 (by decide)

end HClient.Connect
