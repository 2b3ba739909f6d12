import HClient.Effect.Monitor

/-!
# Interleavings

Tasks run over one shared state, a call at a time, in any order. A label starts a task or
lets one make its next call; as the handler is a function, a run is determined by its labels.
-/
namespace HClient.Effect

structure Task (δ Op : Type) (Ans : Op → Type) (α : Type) where
  about : δ
  rest : Program Op Ans α

structure Pool (ι δ Op : Type) (Ans : Op → Type) (α σ : Type) where
  shared : σ
  task : ι → Option (Task δ Op Ans α)

inductive Label (ι δ : Type) where
  | start (i : ι) (about : δ)
  | advance (i : ι)

/-- What a task does, what starting it asks of the shared state, and how calls are answered. -/
structure System (δ Op : Type) (Ans : Op → Type) (α σ : Type) where
  body : δ → Program Op Ans α
  enter : δ → σ → Option σ
  handle : (op : Op) → σ → Ans op × σ

variable {ι δ Op : Type} {Ans : Op → Type} {α σ : Type} [DecidableEq ι]

def Pool.put (s : Pool ι δ Op Ans α σ) (i : ι) (task : Task δ Op Ans α) (shared : σ) :
    Pool ι δ Op Ans α σ := ⟨shared, Function.update s.task i (some task)⟩

@[simp] theorem Pool.put_shared (s : Pool ι δ Op Ans α σ) (i : ι) (task : Task δ Op Ans α)
    (shared : σ) : (s.put i task shared).shared = shared := rfl

@[simp] theorem Pool.put_task_self (s : Pool ι δ Op Ans α σ) (i : ι) (task : Task δ Op Ans α)
    (shared : σ) : (s.put i task shared).task i = some task := Function.update_self i _ _

def Pool.aboutOf (s : Pool ι δ Op Ans α σ) (i : ι) : Option δ := (s.task i).map Task.about

/-- What a finished task answered. -/
def Pool.resultOf (s : Pool ι δ Op Ans α σ) (i : ι) : Option α :=
  (s.task i).bind fun task => task.rest.result

/-- What a step lets its task call, with what the task is about. -/
def Pool.nextOp (s : Pool ι δ Op Ans α σ) : Label ι δ → Option (δ × Op)
  | .start _ _ => none
  | .advance i => (s.task i).bind fun task =>
      match task.rest with
      | .call op _ => some (task.about, op)
      | .done _ => none

theorem Pool.put_task_of_ne (s : Pool ι δ Op Ans α σ) {i j : ι} (other : j ≠ i)
    (task : Task δ Op Ans α) (shared : σ) : (s.put i task shared).task j = s.task j :=
  Function.update_of_ne other _ _

theorem Pool.put_task_eq_some {s : Pool ι δ Op Ans α σ} {i j : ι} {task task' : Task δ Op Ans α}
    {shared : σ} : (s.put i task shared).task j = some task' ↔
      j = i ∧ task = task' ∨ j ≠ i ∧ s.task j = some task' := by
  by_cases same : j = i
  · subst same
    simp
  · simp [put_task_of_ne s same, same]

/-- What holds of the task that is put and held of the others holds of all. -/
theorem Pool.forall_put {P : ι → Task δ Op Ans α → Prop} {s : Pool ι δ Op Ans α σ} {i : ι}
    {task : Task δ Op Ans α} {shared : σ} (put : P i task)
    (others : ∀ j task, s.task j = some task → P j task) :
    ∀ j task', (s.put i task shared).task j = some task' → P j task' := by
  intro j task' there
  rcases Pool.put_task_eq_some.mp there with ⟨rfl, rfl⟩ | ⟨-, there⟩
  · exact put
  · exact others j task' there

namespace System
variable (S : System δ Op Ans α σ)

def step (s : Pool ι δ Op Ans α σ) : Label ι δ → Option (Pool ι δ Op Ans α σ)
  | .start i about =>
      match s.task i with
      | some _ => none
      | none => (S.enter about s.shared).map fun shared => s.put i ⟨about, S.body about⟩ shared
  | .advance i =>
      match s.task i with
      | some ⟨about, .call op next⟩ =>
          some (s.put i ⟨about, next (S.handle op s.shared).1⟩ (S.handle op s.shared).2)
      | _ => none

def run : Pool ι δ Op Ans α σ → List (Label ι δ) → Option (Pool ι δ Op Ans α σ)
  | s, [] => some s
  | s, l :: ls => (S.step s l).bind fun s' => run s' ls

/-- Where a run leads, or where it began if a label of it cannot be taken. -/
def after (s : Pool ι δ Op Ans α σ) (ls : List (Label ι δ)) : Pool ι δ Op Ans α σ :=
  (S.run s ls).getD s

/-- Each step of the run is one `ok` allows where it is taken. -/
def Always (ok : Pool ι δ Op Ans α σ → Label ι δ → Prop) :
    Pool ι δ Op Ans α σ → List (Label ι δ) → Prop
  | _, [] => True
  | s, l :: ls => ok s l ∧ ∀ s' ∈ S.step s l, Always ok s' ls

instance decidableAlways (ok : Pool ι δ Op Ans α σ → Label ι δ → Prop)
    [∀ s l, Decidable (ok s l)] :
    (s : Pool ι δ Op Ans α σ) → (ls : List (Label ι δ)) → Decidable (S.Always ok s ls)
  | _, [] => .isTrue trivial
  | s, l :: ls =>
      have := fun s' => decidableAlways ok s' ls
      inferInstanceAs (Decidable (ok s l ∧ ∀ s' ∈ S.step s l, S.Always ok s' ls))

variable {S}

variable {s s' : Pool ι δ Op Ans α σ}

theorem step_start {i : ι} {about : δ}
    (h : S.step s (.start i about) = some s') :
    s.task i = none ∧ ∃ shared, S.enter about s.shared = some shared ∧
      s' = s.put i ⟨about, S.body about⟩ shared := by
  cases free : s.task i with
  | some task => simp [step, free] at h
  | none =>
      simp only [step, free] at h
      obtain ⟨shared, entered, same⟩ := Option.map_eq_some_iff.mp h
      exact ⟨rfl, shared, entered, same.symm⟩

theorem step_advance {i : ι}
    (h : S.step s (.advance i) = some s') :
    ∃ about op next, s.task i = some ⟨about, .call op next⟩ ∧
      s' = s.put i ⟨about, next (S.handle op s.shared).1⟩ (S.handle op s.shared).2 := by
  cases here : s.task i with
  | none => simp [step, here] at h
  | some task =>
      obtain ⟨about, rest⟩ := task
      cases rest with
      | done a => simp [step, here] at h
      | call op next =>
          simp only [step, here, Option.some.injEq] at h
          exact ⟨about, op, next, rfl, h.symm⟩

theorem run_append (S : System δ Op Ans α σ) (s : Pool ι δ Op Ans α σ)
    (ls ls' : List (Label ι δ)) :
    S.run s (ls ++ ls') = (S.run s ls).bind fun s' => S.run s' ls' := by
  induction ls generalizing s with
  | nil => rfl
  | cons l ls ih =>
      simp only [List.cons_append, run, Option.bind_assoc]
      congr 1
      funext s'
      exact ih s'

theorem run_append_some {s s'' : Pool ι δ Op Ans α σ} {ls ls' : List (Label ι δ)}
    (h : S.run s (ls ++ ls') = some s'') :
    ∃ s', S.run s ls = some s' ∧ S.run s' ls' = some s'' := by
  rw [run_append] at h
  exact Option.bind_eq_some_iff.mp h

variable {ls : List (Label ι δ)}

theorem run_cons_some {s s'' : Pool ι δ Op Ans α σ} {l : Label ι δ}
    (h : S.run s (l :: ls) = some s'') :
    ∃ s', S.step s l = some s' ∧ S.run s' ls = some s'' := Option.bind_eq_some_iff.mp h

theorem run_eq_after {s : Pool ι δ Op Ans α σ}
    (taken : (S.run s ls).isSome) : S.run s ls = some (S.after s ls) := by
  obtain ⟨s', reached⟩ := Option.isSome_iff_exists.mp taken
  simp [after, reached]

theorem run_singleton (s : Pool ι δ Op Ans α σ) (l : Label ι δ) : S.run s [l] = S.step s l := by
  simp [run]

theorem Always.append {ok : Pool ι δ Op Ans α σ → Label ι δ → Prop} {s : Pool ι δ Op Ans α σ}
    {ls ls' : List (Label ι δ)} (h : S.Always ok s (ls ++ ls')) :
    S.Always ok s ls ∧ ∀ s', S.run s ls = some s' → S.Always ok s' ls' := by
  induction ls generalizing s with
  | nil =>
      refine ⟨trivial, fun s' reached => ?_⟩
      cases reached
      exact h
  | cons l ls ih =>
      refine ⟨⟨h.1, fun s' stepped => (ih (h.2 s' stepped)).1⟩, fun s'' reached => ?_⟩
      obtain ⟨s', stepped, reached⟩ := run_cons_some reached
      exact (ih (h.2 s' stepped)).2 s'' reached

theorem always_true (s : Pool ι δ Op Ans α σ) (ls : List (Label ι δ)) :
    S.Always (fun _ _ => True) s ls := by
  induction ls generalizing s with
  | nil => trivial
  | cons l ls ih => exact ⟨trivial, fun s' _ => ih s'⟩

/-- A task is advanced as it may be with nobody beside it. -/
theorem always_advances {ok : Pool ι δ Op Ans α σ → Label ι δ → Prop} {i : ι}
    (alone : ∀ s, (∀ j, j ≠ i → s.task j = none) → ok s (.advance i))
    {s : Pool ι δ Op Ans α σ} (nobody : ∀ j, j ≠ i → s.task j = none) (n : Nat) :
    S.Always ok s (List.replicate n (.advance i)) := by
  induction n generalizing s with
  | zero => trivial
  | succ n ih =>
      refine ⟨alone s nobody, fun s' stepped => ih ?_⟩
      obtain ⟨about, op, next, here, rfl⟩ := step_advance stepped
      intro j other
      rw [Pool.put_task_of_ne s other, nobody j other]

theorem Always.mono {ok ok' : Pool ι δ Op Ans α σ → Label ι δ → Prop}
    (weaker : ∀ s l, ok s l → ok' s l) {s : Pool ι δ Op Ans α σ}
    (h : S.Always ok s ls) : S.Always ok' s ls := by
  induction ls generalizing s with
  | nil => trivial
  | cons l ls ih => exact ⟨weaker s l h.1, fun s' stepped => ih (h.2 s' stepped)⟩

theorem Always.and {ok ok' : Pool ι δ Op Ans α σ → Label ι δ → Prop}
    {s : Pool ι δ Op Ans α σ} (h : S.Always ok s ls)
    (h' : S.Always ok' s ls) : S.Always (fun s l => ok s l ∧ ok' s l) s ls := by
  induction ls generalizing s with
  | nil => trivial
  | cons l ls ih => exact ⟨⟨h.1, h'.1⟩, fun s' stepped => ih (h.2 s' stepped) (h'.2 s' stepped)⟩

/-- What every allowed step preserves, a run of allowed steps preserves. -/
theorem run_preserves {ok : Pool ι δ Op Ans α σ → Label ι δ → Prop}
    {inv : Pool ι δ Op Ans α σ → Prop}
    (preserved : ∀ s l s', ok s l → inv s → S.step s l = some s' → inv s')
    (allowed : S.Always ok s ls)
    (holds : inv s) (reached : S.run s ls = some s') : inv s' := by
  induction ls generalizing s with
  | nil =>
      cases reached
      exact holds
  | cons l ls ih =>
      obtain ⟨next, stepped, reached⟩ := run_cons_some reached
      exact ih (allowed.2 next stepped) (preserved s l next allowed.1 holds stepped) reached

/-- What follows from an invariant and the condition holds at each step of an allowed run. -/
theorem Always.of_invariant {ok right : Pool ι δ Op Ans α σ → Label ι δ → Prop}
    (inv : Pool ι δ Op Ans α σ → Prop)
    (preserved : ∀ s l s', ok s l → inv s → S.step s l = some s' → inv s')
    (follows : ∀ s l, ok s l → inv s → right s l)
    {s : Pool ι δ Op Ans α σ} (allowed : S.Always ok s ls)
    (holds : inv s) : S.Always right s ls := by
  induction ls generalizing s with
  | nil => trivial
  | cons l ls ih =>
      exact ⟨follows s l allowed.1 holds, fun s' stepped =>
        ih (allowed.2 s' stepped) (preserved s l s' allowed.1 holds stepped)⟩

/-- Every task is verified under the monitor from the monitor's state `g`. -/
def Verified {γ : Type} (m : Monitor Op Ans γ) (g : γ) (s : Pool ι δ Op Ans α σ) : Prop :=
  ∀ i task, s.task i = some task → m.wp task.rest (fun _ _ => True) g

/-- A monitor without a state of its own goes along with every step whose answer it relies on. -/
theorem verified_step {m : Monitor Op Ans Unit} {l : Label ι δ}
    (bodies : ∀ about, m.wp (S.body about) (fun _ _ => True) ())
    (answered : ∀ c ∈ s.nextOp l, m.answers () c.2 (S.handle c.2 s.shared).1)
    (h : Verified m () s) (stepped : S.step s l = some s') : Verified m () s' := by
  cases l with
  | start i about =>
      obtain ⟨-, shared, -, rfl⟩ := step_start stepped
      exact Pool.forall_put (bodies about) h
  | advance i =>
      obtain ⟨about, op, next, here, rfl⟩ := step_advance stepped
      have called := answered (about, op) (by simp [Pool.nextOp, here])
      exact Pool.forall_put ((h i _ here).2 _ called) h

/-- Every task is what some answers have left of its body. -/
def Residual (S : System δ Op Ans α σ) (s : Pool ι δ Op Ans α σ) : Prop :=
  ∀ i task, s.task i = some task → ∃ t, (S.body task.about).Steps t task.rest

theorem residual_step {l : Label ι δ} (h : S.Residual s)
    (stepped : S.step s l = some s') : S.Residual s' := by
  cases l with
  | start i about =>
      obtain ⟨-, shared, -, rfl⟩ := step_start stepped
      exact Pool.forall_put ⟨[], .refl _⟩ h
  | advance i =>
      obtain ⟨about, op, next, here, rfl⟩ := step_advance stepped
      obtain ⟨t, steps⟩ := h i _ here
      exact Pool.forall_put ⟨_, steps.snoc _⟩ h

/-- What is left of every task makes calls in `P` only. -/
def Contained (P : Op → Prop) (s : Pool ι δ Op Ans α σ) : Prop :=
  ∀ i task, s.task i = some task → task.rest.Within P fun _ => True

theorem contained_step {P : Op → Prop} {l : Label ι δ}
    (h : Contained P s)
    (starts : ∀ i about, l = .start i about → (S.body about).Within P fun _ => True)
    (stepped : S.step s l = some s') : Contained P s' := by
  cases l with
  | start i about =>
      obtain ⟨-, shared, -, rfl⟩ := step_start stepped
      exact Pool.forall_put (starts i about rfl) h
  | advance i =>
      obtain ⟨about, op, next, here, rfl⟩ := step_advance stepped
      exact Pool.forall_put ((h i _ here).2 _) h

/-- A step of contained tasks leaves the shared state alone or makes one call in `P`. -/
theorem shared_step {P : Op → Prop} {l : Label ι δ}
    (h : Contained P s) (stepped : S.step s l = some s') :
    (∃ i about, l = .start i about ∧ S.enter about s.shared = some s'.shared) ∨
      ∃ op, P op ∧ s'.shared = (S.handle op s.shared).2 := by
  cases l with
  | start i about =>
      obtain ⟨-, shared, entered, rfl⟩ := step_start stepped
      exact .inl ⟨i, about, rfl, entered⟩
  | advance i =>
      obtain ⟨about, op, next, here, rfl⟩ := step_advance stepped
      exact .inr ⟨op, (h i _ here).1, rfl⟩

end System
end HClient.Effect

/-!
## Bounds that grow

Some facts are about a bound that the shared state moves in one direction, such as a counter.
A program is grounded when it makes calls below the bound as long as it is told what is below
it; the bound may have grown at each answer, so that interleaved tasks stay grounded.
-/
namespace HClient.Effect

variable {β δ Op : Type} {Ans : Op → Type} {α γ σ ι : Type} [Preorder β]

/-- What is called, told and answered below a bound. -/
structure Ground (β Op : Type) (Ans : Op → Type) where
  called : β → Op → Prop
  told : β → (op : Op) → Ans op → Prop

def Program.Grounded (G : Ground β Op Ans) (Q : β → α → Prop) : Program Op Ans α → β → Prop
  | .done a, n => Q n a
  | .call op next, n => G.called n op ∧ ∀ m, n ≤ m → ∀ r, G.told m op r → (next r).Grounded G Q m

namespace Program
variable {G : Ground β Op Ans} {Q : β → α → Prop} {R : β → γ → Prop}

theorem Grounded.bind {p : Program Op Ans α} {f : α → Program Op Ans γ} {n : β}
    (first : p.Grounded G Q n) (rest : ∀ m, n ≤ m → ∀ a, Q m a → (f a).Grounded G R m) :
    (p.bind f).Grounded G R n := by
  induction p generalizing n with
  | done a => exact rest n le_rfl a first
  | call op next ih =>
      refine ⟨first.1, fun m le r told => ?_⟩
      exact ih r (first.2 m le r told) fun k le' => rest k (le_trans le le')

theorem Grounded.ignore {p : Program Op Ans α} {c : γ} {n : β} (h : p.Grounded G Q n) :
    (p.bind fun _ => .done c).Grounded G (fun _ _ => True) n :=
  h.bind fun _ _ _ _ => trivial

theorem Grounded.mono {p : Program Op Ans α} {n m : β} (le : n ≤ m)
    (calls : ∀ {n m} op, n ≤ m → G.called n op → G.called m op)
    (weaker : ∀ {n m} a, n ≤ m → Q n a → Q m a) (h : p.Grounded G Q n) : p.Grounded G Q m := by
  cases p with
  | done a => exact weaker a le h
  | call op next => exact ⟨calls op le h.1, fun k le' => h.2 k (le_trans le le')⟩

end Program

namespace System
variable [DecidableEq ι] {S : System δ Op Ans α σ} (G : Ground β Op Ans) (bound : σ → β)

/-- Every task is grounded at the bound of the shared state. -/
def AllGrounded (s : Pool ι δ Op Ans α σ) : Prop :=
  ∀ i task, s.task i = some task → task.rest.Grounded G (fun _ _ => True) (bound s.shared)

variable {G} {bound}

/-- What the calls of grounded tasks keep, a run keeps that starts with grounded tasks. -/
theorem grounded_run (inv : σ → Prop)
    (calls : ∀ {n m} op, n ≤ m → G.called n op → G.called m op)
    (bodies : ∀ about n, (S.body about).Grounded G (fun _ _ => True) n)
    (enters : ∀ about s s', S.enter about s = some s' → inv s → inv s' ∧ bound s ≤ bound s')
    (handles : ∀ op s, inv s → G.called (bound s) op →
      inv (S.handle op s).2 ∧ bound s ≤ bound (S.handle op s).2 ∧
        G.told (bound (S.handle op s).2) op (S.handle op s).1)
    {s s' : Pool ι δ Op Ans α σ} {ls : List (Label ι δ)} (grounded : AllGrounded G bound s)
    (holds : inv s.shared) (reached : S.run s ls = some s') :
    AllGrounded G bound s' ∧ inv s'.shared := by
  have later : ∀ {n m} {p : Program Op Ans α}, n ≤ m →
      p.Grounded G (fun _ _ => True) n → p.Grounded G (fun _ _ => True) m :=
    fun le h => h.mono le calls fun _ _ _ => trivial
  have kept : ∀ (s : Pool ι δ Op Ans α σ) (l : Label ι δ) (s' : Pool ι δ Op Ans α σ), True →
      AllGrounded G bound s ∧ inv s.shared → S.step s l = some s' →
        AllGrounded G bound s' ∧ inv s'.shared := by
    intro s l s' _ before stepped
    obtain ⟨grounded, holds⟩ := before
    cases l with
    | start i about =>
        obtain ⟨-, shared, entered, rfl⟩ := step_start stepped
        obtain ⟨holds', le⟩ := enters about s.shared shared entered holds
        exact ⟨Pool.forall_put (bodies about _) fun j task there =>
          later le (grounded j task there), holds'⟩
    | advance i =>
        obtain ⟨about, op, next, here, rfl⟩ := step_advance stepped
        obtain ⟨called, rest⟩ := grounded i _ here
        obtain ⟨holds', le, told⟩ := handles op s.shared holds called
        exact ⟨Pool.forall_put (rest _ le _ told) fun j task there =>
          later le (grounded j task there), holds'⟩
  exact run_preserves kept (always_true s ls) ⟨grounded, holds⟩ reached

end System
end HClient.Effect
