import Mathlib

/-!
# One socket that many tasks wait for

The socket within remembers one waker. It is given one that wakes every task on a list, and a
task puts its own waker on the list before it polls. Registering, the poll within, taking the list
and each wake are steps of their own, between which other tasks may take theirs.
-/
namespace HClient.Native.SeamSocket

/-! ## The steps -/

/-- How far a task is with its poll. What waits has been answered `Pending`. -/
inductive Phase where
  | idle
  | waiting
  | polling
  | registered
  | answering
  deriving DecidableEq, Repr

/-- How far a call of `wake_all` is. What is taken off the list is woken one by one. -/
inductive Call (ι : Type) where
  | none
  | taking
  | waking (taken : List ι)

/-- A task that was answered `Ready` calls `wake_all`, and so does the waker that is fired. -/
abbrev Caller (ι : Type) : Type := ι ⊕ Nat

structure State (ι : Type) where
  list : List ι
  /-- The socket within remembers the waker. -/
  armed : Bool
  phase : ι → Phase
  calls : Caller ι → Call ι
  /-- A task has been woken since its last poll began. -/
  woken : ι → Bool

inductive Label (ι : Type) where
  | begins (i : ι)
  | registers (i : ι)
  | innerPending (i : ι)
  /-- Whether what is ready is also still remembered is left open. -/
  | innerReady (i : ι) (keeps : Bool)
  | fires (n : Nat)
  | takes (a : Caller ι)
  | wakes (a : Caller ι)
  | ends (a : Caller ι)
  deriving DecidableEq

variable {ι : Type}

def start : State ι := ⟨[], false, fun _ => .idle, fun _ => .none, fun _ => false⟩

section
variable [DecidableEq ι]

/-- `WakeAll::register`. -/
def register (list : List ι) (i : ι) : List ι := if i ∈ list then list else list ++ [i]

/-- A task whose call is over has its answer. -/
def Caller.leave (phase : ι → Phase) : Caller ι → ι → Phase
  | .inl i => Function.update phase i .idle
  | .inr _ => phase

def step (s : State ι) : Label ι → Option (State ι)
  | .begins i =>
      if s.phase i = .idle ∨ s.phase i = .waiting then
        some { s with phase := Function.update s.phase i .polling
                      woken := Function.update s.woken i false }
      else none
  | .registers i =>
      if s.phase i = .polling then
        some { s with list := register s.list i
                      phase := Function.update s.phase i .registered }
      else none
  | .innerPending i =>
      if s.phase i = .registered then
        some { s with armed := true, phase := Function.update s.phase i .waiting }
      else none
  | .innerReady i keeps =>
      if s.phase i = .registered then
        some { s with armed := s.armed && keeps
                      phase := Function.update s.phase i .answering
                      calls := Function.update s.calls (.inl i) .taking }
      else none
  | .fires n =>
      match s.armed, s.calls (.inr n) with
      | true, .none =>
          some { s with armed := false, calls := Function.update s.calls (.inr n) .taking }
      | _, _ => none
  | .takes a =>
      match s.calls a with
      | .taking =>
          some { s with list := [], calls := Function.update s.calls a (.waking s.list) }
      | _ => none
  | .wakes a =>
      match s.calls a with
      | .waking (w :: taken) =>
          some { s with woken := Function.update s.woken w true
                        calls := Function.update s.calls a (.waking taken) }
      | _ => none
  | .ends a =>
      match s.calls a with
      | .waking [] =>
          some { s with phase := a.leave s.phase, calls := Function.update s.calls a .none }
      | _ => none

def run (s : State ι) : List (Label ι) → Option (State ι)
  | [] => some s
  | l :: labels => (step s l).bind fun s' => run s' labels

end

/-! ## What holds in every run -/

/-- A call of `wake_all` that is going to wake a task. -/
def Call.Reaches (list : List ι) (i : ι) : Call ι → Prop
  | .none => False
  | .taking => i ∈ list
  | .waking taken => i ∈ taken

/-- A task that is woken, or that a call under way is going to wake. -/
def State.Waking (s : State ι) (i : ι) : Prop :=
  s.woken i = true ∨ ∃ a, (s.calls a).Reaches s.list i

structure Sound (s : State ι) : Prop where
  nodup : s.list.Nodup
  listed : ∀ i ∈ s.list, s.phase i ≠ .idle
  /-- A task that is to answer has not taken the list yet, or is not on it. -/
  answering : ∀ i ∈ s.list, s.phase i = .answering → s.calls (.inl i) = .taking
  calling : ∀ i, s.phase i ≠ .answering → s.calls (.inl i) = .none
  registered : ∀ i, s.phase i = .registered → i ∈ s.list ∨ s.Waking i
  waiting : ∀ i, s.phase i = .waiting → (i ∈ s.list ∧ s.armed = true) ∨ s.Waking i

theorem sound_start : Sound (start : State ι) where
  nodup := List.nodup_nil
  listed := fun _ => nofun
  answering := fun _ => nofun
  calling := fun _ _ => rfl
  registered := fun _ => nofun
  waiting := fun _ => nofun

variable [DecidableEq ι] {s s' : State ι}

theorem mem_register {list : List ι} {i j : ι} : j ∈ register list i ↔ j ∈ list ∨ j = i := by
  unfold register
  split
  · rename_i there
    exact ⟨.inl, fun either => either.elim id fun same => same ▸ there⟩
  · simp

theorem nodup_register {list : List ι} (nodup : list.Nodup) (i : ι) : (register list i).Nodup := by
  unfold register
  split
  · exact nodup
  · rename_i other
    rw [← List.concat_eq_append]
    exact nodup.concat other

/-- What a step does that is allowed. -/
inductive Moves (s : State ι) : Label ι → State ι → Prop where
  | begins {i : ι} (phase : s.phase i = .idle ∨ s.phase i = .waiting) :
      Moves s (.begins i) { s with
        phase := Function.update s.phase i .polling
        woken := Function.update s.woken i false }
  | registers {i : ι} (phase : s.phase i = .polling) :
      Moves s (.registers i) { s with
        list := register s.list i
        phase := Function.update s.phase i .registered }
  | innerPending {i : ι} (phase : s.phase i = .registered) :
      Moves s (.innerPending i) { s with
        armed := true
        phase := Function.update s.phase i .waiting }
  | innerReady {i : ι} {keeps : Bool} (phase : s.phase i = .registered) :
      Moves s (.innerReady i keeps) { s with
        armed := s.armed && keeps
        phase := Function.update s.phase i .answering
        calls := Function.update s.calls (.inl i) .taking }
  | fires {n : Nat} (armed : s.armed = true) (free : s.calls (.inr n) = .none) :
      Moves s (.fires n) { s with
        armed := false
        calls := Function.update s.calls (.inr n) .taking }
  | takes {a : Caller ι} (taking : s.calls a = .taking) :
      Moves s (.takes a) { s with
        list := []
        calls := Function.update s.calls a (.waking s.list) }
  | wakes {a : Caller ι} {w : ι} {taken : List ι} (waking : s.calls a = .waking (w :: taken)) :
      Moves s (.wakes a) { s with
        woken := Function.update s.woken w true
        calls := Function.update s.calls a (.waking taken) }
  | ends {a : Caller ι} (waking : s.calls a = .waking []) :
      Moves s (.ends a) { s with
        phase := a.leave s.phase
        calls := Function.update s.calls a .none }

theorem moves_of_step {l : Label ι} (stepped : step s l = some s') : Moves s l s' := by
  cases l with
  | begins i =>
      simp only [step] at stepped
      split at stepped
      · rename_i phase
        exact Option.some.inj stepped ▸ .begins phase
      · cases stepped
  | registers i =>
      simp only [step] at stepped
      split at stepped
      · rename_i phase
        exact Option.some.inj stepped ▸ .registers phase
      · cases stepped
  | innerPending i =>
      simp only [step] at stepped
      split at stepped
      · rename_i phase
        exact Option.some.inj stepped ▸ .innerPending phase
      · cases stepped
  | innerReady i keeps =>
      simp only [step] at stepped
      split at stepped
      · rename_i phase
        exact Option.some.inj stepped ▸ .innerReady phase
      · cases stepped
  | fires n =>
      simp only [step] at stepped
      split at stepped
      · rename_i armed free
        exact Option.some.inj stepped ▸ .fires armed free
      · cases stepped
  | takes a =>
      simp only [step] at stepped
      split at stepped
      · rename_i taking
        exact Option.some.inj stepped ▸ .takes taking
      · cases stepped
  | wakes a =>
      simp only [step] at stepped
      split at stepped
      · rename_i w taken waking
        exact Option.some.inj stepped ▸ .wakes waking
      · cases stepped
  | ends a =>
      simp only [step] at stepped
      split at stepped
      · rename_i waking
        exact Option.some.inj stepped ▸ .ends waking
      · cases stepped

/-! ### A wake is not lost -/

omit [DecidableEq ι] in
theorem Call.Reaches.mono {call : Call ι} {list list' : List ι} {i : ι}
    (reaches : call.Reaches list i) (more : ∀ j ∈ list, j ∈ list') : call.Reaches list' i := by
  cases call with
  | none => exact reaches
  | taking => exact more i reaches
  | waking taken => exact reaches

omit [DecidableEq ι] in
theorem waking_of {i : ι} (a : Caller ι) {call : Call ι} (calls : s.calls a = call)
    (reaches : call.Reaches s.list i) : s.Waking i := .inr ⟨a, by rw [calls]; exact reaches⟩

variable {l : Label ι}

/-- Only its own next poll makes a task that is woken wait for another wake. -/
theorem Moves.waking (moves : Moves s l s') (sound : Sound s) {i : ι} (other : l ≠ .begins i)
    (waking : s.Waking i) : s'.Waking i := by
  rcases waking with woken | ⟨a, reaches⟩
  · refine .inl ?_
    cases moves with
    | @begins j phase =>
        have apart : i ≠ j := fun same => other (same ▸ rfl)
        exact (Function.update_of_ne apart _ _).trans woken
    | @wakes a w taken waking =>
        by_cases same : i = w
        · exact same ▸ Function.update_self ..
        · exact (Function.update_of_ne same _ _).trans woken
    | registers phase => exact woken
    | innerPending phase => exact woken
    | innerReady phase => exact woken
    | fires armed free => exact woken
    | takes taking => exact woken
    | ends waking => exact woken
  · -- The call goes on as it is, but for the one that the step is about.
    have goes {b : Caller ι} (apart : a ≠ b) (call : Call ι) :
        (Function.update s.calls b call a).Reaches s.list i := by
      rw [Function.update_of_ne apart]
      exact reaches
    cases moves with
    | begins phase => exact .inr ⟨a, reaches⟩
    | innerPending phase => exact .inr ⟨a, reaches⟩
    | registers phase =>
        exact .inr ⟨a, reaches.mono fun j among => mem_register.mpr (.inl among)⟩
    | @innerReady j keeps phase =>
        have free := sound.calling j (by rw [phase]; decide)
        exact .inr ⟨a, goes (fun same => by rw [same, free] at reaches; exact reaches) _⟩
    | fires armed free =>
        exact .inr ⟨a, goes (fun same => by rw [same, free] at reaches; exact reaches) _⟩
    | @takes b taking =>
        by_cases same : a = b
        · subst same
          rw [taking] at reaches
          exact waking_of a (Function.update_self ..) reaches
        · cases call : s.calls a with
          | none => rw [call] at reaches; exact reaches.elim
          | taking =>
              rw [call] at reaches
              exact waking_of b (Function.update_self ..) reaches
          | waking taken =>
              rw [call] at reaches
              exact waking_of a ((Function.update_of_ne same _ _).trans call) reaches
    | @wakes b w taken waking =>
        by_cases same : a = b
        · subst same
          rw [waking] at reaches
          rcases List.mem_cons.mp reaches with rfl | rest
          · exact .inl (Function.update_self ..)
          · exact waking_of a (Function.update_self ..) rest
        · exact .inr ⟨a, goes same _⟩
    | @ends b waking =>
        refine .inr ⟨a, goes (fun same => ?_) _⟩
        rw [same, waking] at reaches
        exact List.not_mem_nil reaches

/-- Who is on the list stays there, or is going to be woken. -/
theorem Moves.listed (moves : Moves s l s') {i : ι} (among : i ∈ s.list) :
    i ∈ s'.list ∨ s'.Waking i := by
  cases moves with
  | begins phase => exact .inl among
  | registers phase => exact .inl (mem_register.mpr (.inl among))
  | innerPending phase => exact .inl among
  | innerReady phase => exact .inl among
  | fires armed free => exact .inl among
  | @takes a taking => exact .inr (waking_of a (Function.update_self ..) among)
  | wakes waking => exact .inl among
  | ends waking => exact .inl among

/-- A wait on the list is for the socket within, or is over. -/
theorem Moves.armed (moves : Moves s l s') {i : ι} (among : i ∈ s.list) (armed : s.armed = true) :
    (i ∈ s'.list ∧ s'.armed = true) ∨ s'.Waking i := by
  cases moves with
  | begins phase => exact .inl ⟨among, armed⟩
  | registers phase => exact .inl ⟨mem_register.mpr (.inl among), armed⟩
  | innerPending phase => exact .inl ⟨among, rfl⟩
  | @innerReady j keeps phase =>
      exact .inr (waking_of (.inl j) (Function.update_self ..) among)
  | @fires n armed free => exact .inr (waking_of (.inr n) (Function.update_self ..) among)
  | @takes a taking => exact .inr (waking_of a (Function.update_self ..) among)
  | wakes waking => exact .inl ⟨among, armed⟩
  | ends waking => exact .inl ⟨among, armed⟩

/-- Where the phase of a task comes from. -/
theorem Moves.phase (moves : Moves s l s') (i : ι) :
    s'.phase i = s.phase i ∧ l ≠ .begins i ∨
      s.phase i ≠ .answering ∧ s'.phase i = .polling ∨
      s.phase i ≠ .answering ∧ s'.phase i = .registered ∧ i ∈ s'.list ∨
      l = .innerPending i ∧ s.phase i = .registered ∧ s'.phase i = .waiting ∧ s'.armed = true ∨
      s.phase i = .registered ∧ s'.phase i = .answering ∧ s'.calls (.inl i) = .taking ∨
      s.calls (.inl i) = .waking [] ∧ s'.phase i = .idle ∧ s'.calls (.inl i) = .none := by
  cases moves with
  | @begins j phase =>
      by_cases same : i = j
      · subst same
        exact .inr (.inl ⟨by rcases phase with phase | phase <;> rw [phase] <;> decide,
          Function.update_self ..⟩)
      · exact .inl ⟨Function.update_of_ne same _ _, by simpa using Ne.symm same⟩
  | @registers j phase =>
      by_cases same : i = j
      · subst same
        exact .inr (.inr (.inl ⟨by rw [phase]; decide, Function.update_self ..,
          mem_register.mpr (.inr rfl)⟩))
      · exact .inl ⟨Function.update_of_ne same _ _, nofun⟩
  | @innerPending j phase =>
      by_cases same : i = j
      · subst same
        exact .inr (.inr (.inr (.inl ⟨rfl, phase, Function.update_self .., rfl⟩)))
      · exact .inl ⟨Function.update_of_ne same _ _, nofun⟩
  | @innerReady j keeps phase =>
      by_cases same : i = j
      · subst same
        exact .inr (.inr (.inr (.inr (.inl
          ⟨phase, Function.update_self .., Function.update_self ..⟩))))
      · exact .inl ⟨Function.update_of_ne same _ _, nofun⟩
  | fires armed free => exact .inl ⟨rfl, nofun⟩
  | takes taking => exact .inl ⟨rfl, nofun⟩
  | wakes waking => exact .inl ⟨rfl, nofun⟩
  | @ends a waking =>
      cases a with
      | inr n => exact .inl ⟨rfl, nofun⟩
      | inl j =>
          by_cases same : i = j
          · subst same
            exact .inr (.inr (.inr (.inr (.inr
              ⟨waking, Function.update_self .., Function.update_self ..⟩))))
          · exact .inl ⟨Function.update_of_ne same _ _, nofun⟩

/-- A call of `wake_all` for a task begins, goes on or ends. -/
theorem Moves.call (moves : Moves s l s') (i : ι) :
    s'.calls (.inl i) = s.calls (.inl i) ∨
      s'.phase i = .answering ∧ s'.calls (.inl i) = .taking ∨
      s.calls (.inl i) = .taking ∧ s'.list = [] ∧ s'.phase i = s.phase i ∨
      (∃ taken, s.calls (.inl i) = .waking taken) ∧
        (s'.phase i = s.phase i ∨ s'.calls (.inl i) = .none) := by
  have apart {a : Caller ι} (same : ¬ a = .inl i) (call : Call ι) :
      Function.update s.calls a call (.inl i) = s.calls (.inl i) :=
    Function.update_of_ne (Ne.symm same) _ _
  cases moves with
  | begins phase => exact .inl rfl
  | registers phase => exact .inl rfl
  | innerPending phase => exact .inl rfl
  | @innerReady j keeps phase =>
      by_cases same : (.inl j : Caller ι) = .inl i
      · cases same
        exact .inr (.inl ⟨Function.update_self .., Function.update_self ..⟩)
      · exact .inl (apart same _)
  | @fires n armed free => exact .inl (apart (a := .inr n) (by simp) .taking)
  | @takes a taking =>
      by_cases same : a = .inl i
      · subst same
        exact .inr (.inr (.inl ⟨taking, rfl, rfl⟩))
      · exact .inl (apart same _)
  | @wakes a w taken waking =>
      by_cases same : a = .inl i
      · subst same
        exact .inr (.inr (.inr ⟨⟨_, waking⟩, .inl rfl⟩))
      · exact .inl (apart same _)
  | @ends a waking =>
      by_cases same : a = .inl i
      · subst same
        exact .inr (.inr (.inr ⟨⟨_, waking⟩, .inr (Function.update_self ..)⟩))
      · exact .inl (apart same _)

theorem Moves.mem_list (moves : Moves s l s') {i : ι} (among : i ∈ s'.list) :
    i ∈ s.list ∨ s'.phase i = .registered := by
  cases moves with
  | @registers j phase =>
      rcases mem_register.mp among with there | rfl
      · exact .inl there
      · exact .inr (Function.update_self ..)
  | takes taking => cases among
  | begins phase => exact .inl among
  | innerPending phase => exact .inl among
  | innerReady phase => exact .inl among
  | fires armed free => exact .inl among
  | wakes waking => exact .inl among
  | ends waking => exact .inl among

theorem Moves.nodup (moves : Moves s l s') (nodup : s.list.Nodup) : s'.list.Nodup := by
  cases moves with
  | registers phase => exact nodup_register nodup _
  | takes taking => exact List.nodup_nil
  | begins phase => exact nodup
  | innerPending phase => exact nodup
  | innerReady phase => exact nodup
  | fires armed free => exact nodup
  | wakes waking => exact nodup
  | ends waking => exact nodup

omit [DecidableEq ι] in
theorem Sound.phase_of_call (sound : Sound s) {i : ι} {call : Call ι}
    (calls : s.calls (.inl i) = call) (busy : call ≠ .none) : s.phase i = .answering := by
  by_contra other
  exact busy (calls ▸ sound.calling i other)

theorem Moves.sound (moves : Moves s l s') (sound : Sound s) : Sound s' where
  nodup := moves.nodup sound.nodup
  listed i among := by
    rcases moves.mem_list among with there | now
    · rcases moves.phase i with ⟨same, -⟩ | ⟨-, now⟩ | ⟨-, now, -⟩ | ⟨-, -, now, -⟩ |
        ⟨-, now, -⟩ | ⟨calls, -, -⟩
      · rw [same]
        exact sound.listed i there
      · rw [now]; decide
      · rw [now]; decide
      · rw [now]; decide
      · rw [now]; decide
      · -- A task whose call is about to end has taken the list and has not come back to it.
        have taking := sound.answering i there (sound.phase_of_call calls nofun)
        rw [calls] at taking
        cases taking
    · rw [now]; decide
  answering i among phase := by
    rcases moves.mem_list among with there | now
    · rcases moves.call i with same | ⟨-, taking⟩ | ⟨-, empty, -⟩ | ⟨⟨taken, waking⟩, -⟩
      · rcases moves.phase i with ⟨before, -⟩ | ⟨-, now⟩ | ⟨-, now, -⟩ | ⟨-, -, now, -⟩ |
          ⟨-, -, taking⟩ | ⟨-, now, -⟩
        · rw [same]
          exact sound.answering i there (before ▸ phase)
        · rw [now] at phase; cases phase
        · rw [now] at phase; cases phase
        · rw [now] at phase; cases phase
        · exact taking
        · rw [now] at phase; cases phase
      · exact taking
      · rw [empty] at among; cases among
      · have taking := sound.answering i there (sound.phase_of_call waking nofun)
        rw [waking] at taking
        cases taking
    · rw [now] at phase; cases phase
  calling i phase := by
    rcases moves.call i with same | ⟨now, -⟩ | ⟨taking, -, before⟩ | ⟨⟨taken, waking⟩, before | done⟩
    · rw [same]
      rcases moves.phase i with ⟨before, -⟩ | ⟨before, -⟩ | ⟨before, -, -⟩ | ⟨-, before, -, -⟩ |
        ⟨-, now, -⟩ | ⟨-, -, done⟩
      · exact sound.calling i (before ▸ phase)
      · exact sound.calling i before
      · exact sound.calling i before
      · exact sound.calling i (by rw [before]; decide)
      · exact absurd now phase
      · exact same ▸ done
    · exact absurd now phase
    · rw [before] at phase
      exact absurd (sound.phase_of_call taking nofun) phase
    · rw [before] at phase
      exact absurd (sound.phase_of_call waking nofun) phase
    · exact done
  registered i phase := by
    rcases moves.phase i with ⟨same, other⟩ | ⟨-, now⟩ | ⟨-, -, there⟩ | ⟨-, -, now, -⟩ |
      ⟨-, now, -⟩ | ⟨-, now, -⟩
    · rcases sound.registered i (same ▸ phase) with among | waking
      · exact moves.listed among
      · exact .inr (moves.waking sound other waking)
    · rw [now] at phase; cases phase
    · exact .inl there
    · rw [now] at phase; cases phase
    · rw [now] at phase; cases phase
    · rw [now] at phase; cases phase
  waiting i phase := by
    rcases moves.phase i with ⟨same, other⟩ | ⟨-, now⟩ | ⟨-, now, -⟩ | ⟨inner, before, -, armed⟩ |
      ⟨-, now, -⟩ | ⟨-, now, -⟩
    · rcases sound.waiting i (same ▸ phase) with ⟨among, armed⟩ | waking
      · exact moves.armed among armed
      · exact .inr (moves.waking sound other waking)
    · rw [now] at phase; cases phase
    · rw [now] at phase; cases phase
    · rcases sound.registered i before with among | waking
      · exact (moves.listed among).imp_left fun still => ⟨still, armed⟩
      · exact .inr (moves.waking sound (by rw [inner]; nofun) waking)
    · rw [now] at phase; cases phase
    · rw [now] at phase; cases phase

/-! ### Runs -/

theorem run_sound {labels : List (Label ι)} (sound : Sound s) (runs : run s labels = some s') :
    Sound s' := by
  induction labels generalizing s with
  | nil => cases runs; exact sound
  | cons l labels ih =>
      obtain ⟨next, stepped, rest⟩ := Option.bind_eq_some_iff.mp runs
      exact ih ((moves_of_step stepped).sound sound) rest

theorem run_waking {labels : List (Label ι)} {i : ι} (sound : Sound s) (waking : s.Waking i)
    (runs : run s labels = some s') (other : .begins i ∉ labels) : s'.Waking i := by
  induction labels generalizing s with
  | nil => cases runs; exact waking
  | cons l labels ih =>
      obtain ⟨next, stepped, rest⟩ := Option.bind_eq_some_iff.mp runs
      have moves := moves_of_step stepped
      rw [List.mem_cons, not_or] at other
      exact ih (moves.sound sound) (moves.waking sound (Ne.symm other.1) waking) rest other.2

/-- The socket within fires the waker, or answers `Ready` to a task. -/
inductive Releases : Label ι → Prop where
  | fires (n : Nat) : Releases (.fires n)
  | innerReady (i : ι) (keeps : Bool) : Releases (.innerReady i keeps)

/-- Whoever waits at that moment is woken by the calls that are under way then. -/
theorem Moves.releases (moves : Moves s l s') (sound : Sound s) (release : Releases l) {i : ι}
    (waits : s.phase i = .waiting) : s'.Waking i := by
  rcases sound.waiting i waits with ⟨among, -⟩ | waking
  · cases moves with
    | @fires n armed free => exact waking_of (.inr n) (Function.update_self ..) among
    | @innerReady j keeps phase => exact waking_of (.inl j) (Function.update_self ..) among
    | begins phase => cases release
    | registers phase => cases release
    | innerPending phase => cases release
    | takes taking => cases release
    | wakes waking => cases release
    | ends waking => cases release
  · exact moves.waking sound (fun same => by rw [same] at release; cases release) waking

/-- No call of `wake_all` is under way. -/
def State.Quiet (s : State ι) : Prop := ∀ a, s.calls a = .none

omit [DecidableEq ι] in
theorem woken_of_quiet {i : ι} (quiet : s.Quiet) (waking : s.Waking i) : s.woken i = true := by
  rcases waking with woken | ⟨a, reaches⟩
  · exact woken
  · rw [quiet a] at reaches
    exact reaches.elim

/-- In every run, whatever the order of the steps: the list holds no task twice and none that
neither waits nor polls; a task that was answered `Pending` is woken, is going to be woken or is on
the list of a socket that remembers the waker; and once the waker is fired or a task is answered
`Ready`, every task that waits then is woken by the time that no call is under way, unless it has
polled again by itself. -/
theorem no_lost_wakeup {labels : List (Label ι)} {s : State ι} (runs : run start labels = some s) :
    (s.list.Nodup ∧
      ∀ waiters : Finset ι, (∀ i, s.phase i ≠ .idle → i ∈ waiters) →
        s.list.length ≤ waiters.card) ∧
      (∀ i, s.phase i = .waiting → (i ∈ s.list ∧ s.armed = true) ∨ s.Waking i) ∧
        ∀ l s₁, Releases l → step s l = some s₁ → ∀ i, s.phase i = .waiting →
          ∀ more s₂, run s₁ more = some s₂ → .begins i ∉ more → s₂.Quiet → s₂.woken i = true := by
  have sound := run_sound sound_start runs
  refine ⟨⟨sound.nodup, fun waiters all => ?_⟩, sound.waiting, ?_⟩
  · rw [← List.toFinset_card_of_nodup sound.nodup]
    exact Finset.card_le_card fun i among => all i (sound.listed i (List.mem_toFinset.mp among))
  · intro l s₁ release stepped i waits more s₂ goes other quiet
    have moves := moves_of_step stepped
    exact woken_of_quiet quiet
      (run_waking (moves.sound sound) (moves.releases sound release waits) goes other)

/-- A wake between a task's registering and its poll within. -/
theorem no_lost_wakeup_between : ∃ s : State Nat,
    run start [.begins 0, .registers 0, .innerPending 0, .begins 1, .registers 1, .fires 0,
      .takes (.inr 0), .innerPending 1] = some s ∧
      ((1 ∈ s.list ∧ s.armed = true) ∨ s.Waking 1) :=
  ⟨_, rfl, (@no_lost_wakeup Nat _ [.begins 0, .registers 0, .innerPending 0, .begins 1,
    .registers 1, .fires 0, .takes (.inr 0), .innerPending 1] _ rfl).2.1 1 rfl⟩

end HClient.Native.SeamSocket
