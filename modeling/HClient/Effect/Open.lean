import HClient.Effect.Monitor

/-!
# Recorded tasks in an open environment

Tasks run over one shared state, a call at a time, in any order, and each keeps its calls and what
they were answered. The environment answers a call with anything the shared state admits, and
takes steps of its own.
-/
namespace HClient.Effect

open Program

structure Recorded (δ Op : Type) (Ans : Op → Type) (α : Type) where
  about : δ
  record : List (Event Op Ans)
  rest : Program Op Ans α

structure Scene (ι δ Op : Type) (Ans : Op → Type) (α σ : Type) where
  shared : σ
  task : ι → Option (Recorded δ Op Ans α)

structure OpenSystem (δ ε Op : Type) (Ans : Op → Type) (α σ : Type) where
  body : δ → Program Op Ans α
  admits : σ → (op : Op) → Ans op → Prop
  update : σ → (op : Op) → Ans op → σ
  event : ε → σ → Option σ

variable {ι δ ε Op : Type} {Ans : Op → Type} {α σ : Type} [DecidableEq ι]

def Scene.put (s : Scene ι δ Op Ans α σ) (i : ι) (task : Recorded δ Op Ans α) (shared : σ) :
    Scene ι δ Op Ans α σ := ⟨shared, Function.update s.task i (some task)⟩

@[simp] theorem Scene.put_task_self (s : Scene ι δ Op Ans α σ) (i : ι)
    (task : Recorded δ Op Ans α) (shared : σ) : (s.put i task shared).task i = some task :=
  Function.update_self i _ _

theorem Scene.put_task_of_ne (s : Scene ι δ Op Ans α σ) {i j : ι} (other : j ≠ i)
    (task : Recorded δ Op Ans α) (shared : σ) : (s.put i task shared).task j = s.task j :=
  Function.update_of_ne other _ _

theorem Scene.put_task_eq_some {s : Scene ι δ Op Ans α σ} {i j : ι}
    {task task' : Recorded δ Op Ans α} {shared : σ} :
    (s.put i task shared).task j = some task' ↔
      j = i ∧ task = task' ∨ j ≠ i ∧ s.task j = some task' := by
  by_cases same : j = i
  · subst same
    simp
  · simp [put_task_of_ne s same, same]

/-- What holds of the task that is put and held of the others holds of all. -/
theorem Scene.forall_put {P : Recorded δ Op Ans α → Prop} {s : Scene ι δ Op Ans α σ} {i : ι}
    {task : Recorded δ Op Ans α} {shared : σ} (put : P task)
    (others : ∀ j task, s.task j = some task → P task) :
    ∀ j task', (s.put i task shared).task j = some task' → P task' := by
  intro j task' there
  rcases Scene.put_task_eq_some.mp there with ⟨rfl, rfl⟩ | ⟨-, there⟩
  · exact put
  · exact others j task' there

@[simp] theorem Scene.put_put (s : Scene ι δ Op Ans α σ) (i : ι) (first task : Recorded δ Op Ans α)
    (early shared : σ) : (s.put i first early).put i task shared = s.put i task shared := by
  unfold Scene.put
  rw [Function.update_idem]

/-- What the shared state is before any task starts. -/
def Scene.initial (shared : σ) : Scene ι δ Op Ans α σ := ⟨shared, fun _ => none⟩

namespace OpenSystem
variable (S : OpenSystem δ ε Op Ans α σ)

/-- The scenes a run leads to whose every answer is given where `ok` allows the call. -/
inductive Runs (ok : σ → δ → List (Event Op Ans) → Op → Prop) (s₀ : Scene ι δ Op Ans α σ) :
    Scene ι δ Op Ans α σ → Prop
  | refl : Runs ok s₀ s₀
  | start {s : Scene ι δ Op Ans α σ} (run : Runs ok s₀ s) {i : ι} (free : s.task i = none)
      (about : δ) : Runs ok s₀ (s.put i ⟨about, [], S.body about⟩ s.shared)
  | answer {s : Scene ι δ Op Ans α σ} (run : Runs ok s₀ s) {i : ι} {about : δ}
      {record : List (Event Op Ans)} {op : Op} {next : Ans op → Program Op Ans α}
      (here : s.task i = some ⟨about, record, .call op next⟩)
      (allowed : ok s.shared about record op) {r : Ans op} (admitted : S.admits s.shared op r) :
      Runs ok s₀ (s.put i ⟨about, record ++ [⟨op, r⟩], next r⟩ (S.update s.shared op r))
  | event {s : Scene ι δ Op Ans α σ} (run : Runs ok s₀ s) {e : ε} {shared : σ}
      (taken : S.event e s.shared = some shared) : Runs ok s₀ { s with shared }

variable {S} {ok : σ → δ → List (Event Op Ans) → Op → Prop} {s₀ s : Scene ι δ Op Ans α σ}

/-- Every task is what its record has left of its body. -/
theorem Runs.records (run : S.Runs ok s₀ s) (idle : ∀ i, s₀.task i = none) :
    ∀ i task, s.task i = some task → (S.body task.about).Steps task.record task.rest := by
  induction run with
  | refl =>
      intro i task there
      rw [idle] at there
      cases there
  | @start s run i free about ih =>
      exact Scene.forall_put (.refl _) ih
  | @answer s run i about record op next here allowed r admitted ih =>
      exact Scene.forall_put ((ih i _ here).snoc r) ih
  | event run taken ih => exact ih

/-- The rule of runs: an invariant of the shared state, and what it says of each task's record.
An answer is looked at twice, as it is to the task that asked and as it is to the others. -/
theorem Runs.preserves {inv : σ → Prop} {fine : σ → δ → List (Event Op Ans) → Prop}
    (start : ∀ s about, inv s → fine s about [])
    (answer : ∀ s about record op next r, inv s → fine s about record →
      (S.body about).Steps record (.call op next) → ok s about record op → S.admits s op r →
      inv (S.update s op r) ∧ fine (S.update s op r) about (record ++ [⟨op, r⟩]))
    (frame : ∀ s op r about record, inv s → S.admits s op r → fine s about record →
      fine (S.update s op r) about record)
    (event : ∀ s e s', inv s → S.event e s = some s' →
      inv s' ∧ ∀ about record, fine s about record → fine s' about record)
    (run : S.Runs ok s₀ s) (idle : ∀ i, s₀.task i = none) (first : inv s₀.shared) :
    inv s.shared ∧ ∀ i task, s.task i = some task → fine s.shared task.about task.record := by
  induction run with
  | refl =>
      refine ⟨first, fun i task there => ?_⟩
      rw [idle] at there
      cases there
  | @start s run i free about ih =>
      obtain ⟨holds, records⟩ := ih
      exact ⟨holds, Scene.forall_put (start s.shared about holds) records⟩
  | @answer s run i about record op next here allowed r admitted ih =>
      obtain ⟨holds, records⟩ := ih
      have steps := run.records idle i _ here
      obtain ⟨kept, mine⟩ :=
        answer s.shared about record op next r holds (records i _ here) steps allowed admitted
      exact ⟨kept, Scene.forall_put mine fun j task there =>
        frame s.shared op r _ _ holds admitted (records j task there)⟩
  | event run taken ih =>
      obtain ⟨holds, records⟩ := ih
      obtain ⟨kept, others⟩ := event _ _ _ holds taken
      exact ⟨kept, fun j task there => others _ _ (records j task there)⟩

/-- The calls of a trace after a record, each allowed and its answer admitted in the state the ones
before it led to. -/
def Takes (S : OpenSystem δ ε Op Ans α σ) (ok : σ → δ → List (Event Op Ans) → Op → Prop)
    (about : δ) : σ → List (Event Op Ans) → List (Event Op Ans) → Prop
  | _, _, [] => True
  | s, record, e :: t => (ok s about record e.op ∧ S.admits s e.op e.answer) ∧
      S.Takes ok about (S.update s e.op e.answer) (record ++ [e]) t

/-- The shared state after the answers of a trace. -/
def updates (S : OpenSystem δ ε Op Ans α σ) (s : σ) (t : List (Event Op Ans)) : σ :=
  t.foldl (fun s e => S.update s e.op e.answer) s

/-- One task goes on while the others wait. -/
theorem Runs.solo {i : ι} {about : δ} {record t : List (Event Op Ans)} {p q : Program Op Ans α}
    (steps : p.Steps t q) (run : S.Runs ok s₀ s) (here : s.task i = some ⟨about, record, p⟩)
    (taken : S.Takes ok about s.shared record t) :
    S.Runs ok s₀ (s.put i ⟨about, record ++ t, q⟩ (S.updates s.shared t)) := by
  induction steps generalizing s record with
  | refl p =>
      have same : s.put i ⟨about, record ++ [], p⟩ (S.updates s.shared []) = s := by
        unfold Scene.put
        rw [List.append_nil, ← here, Function.update_eq_self]
        rfl
      rw [same]
      exact run
  | @step op next r t q rest ih =>
      obtain ⟨⟨allowed, admitted⟩, later⟩ := taken
      have stepped := ih (run.answer here allowed admitted) (Scene.put_task_self s i _ _) later
      rw [Scene.put_put, List.append_assoc] at stepped
      exact stepped

end OpenSystem
end HClient.Effect
