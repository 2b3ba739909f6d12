import Mathlib

/-!
# Machines

A machine takes operations one after another; an operation that is not enabled is not taken.
The answers of operations are functions of the state they are taken in, so that what is
claimed of an answer is a property of a state and an operation.
-/
namespace HClient.Effect

abbrev Machine (σ Op : Type) := σ → Op → Option σ

namespace Machine
variable {σ Op : Type} (m : Machine σ Op)

def run : σ → List Op → Option σ
  | s, [] => some s
  | s, op :: ops => (m s op).bind fun s' => run s' ops

/-- Where a run leads, or where it began if an operation of it is not enabled. -/
def after (s : σ) (ops : List Op) : σ := (m.run s ops).getD s

/-- Each operation of the run is taken in a state in which `ok` allows it. -/
def Always (ok : σ → Op → Prop) : σ → List Op → Prop
  | _, [] => True
  | s, op :: ops => ok s op ∧ ∀ s' ∈ m s op, Always ok s' ops

instance decidableAlways (ok : σ → Op → Prop) [∀ s op, Decidable (ok s op)] :
    (s : σ) → (ops : List Op) → Decidable (m.Always ok s ops)
  | _, [] => .isTrue trivial
  | s, op :: ops =>
      have := fun s' => decidableAlways ok s' ops
      inferInstanceAs (Decidable (ok s op ∧ ∀ s' ∈ m s op, m.Always ok s' ops))

variable {m}

theorem run_cons_some {s s'' : σ} {op : Op} {ops : List Op}
    (h : m.run s (op :: ops) = some s'') : ∃ s', m s op = some s' ∧ m.run s' ops = some s'' :=
  Option.bind_eq_some_iff.mp h

theorem run_eq_after {s : σ} {ops : List Op} (taken : (m.run s ops).isSome) :
    m.run s ops = some (m.after s ops) := by
  obtain ⟨s', reached⟩ := Option.isSome_iff_exists.mp taken
  simp [after, reached]

theorem always_true (s : σ) (ops : List Op) : m.Always (fun _ _ => True) s ops := by
  induction ops generalizing s with
  | nil => trivial
  | cons op ops ih => exact ⟨trivial, fun s' _ => ih s'⟩

theorem Always.and {ok ok' : σ → Op → Prop} {s : σ} {ops : List Op} (h : m.Always ok s ops)
    (h' : m.Always ok' s ops) : m.Always (fun s op => ok s op ∧ ok' s op) s ops := by
  induction ops generalizing s with
  | nil => trivial
  | cons op ops ih =>
      exact ⟨⟨h.1, h'.1⟩, fun s' stepped => ih (h.2 s' stepped) (h'.2 s' stepped)⟩

section Invariant
variable {ok : σ → Op → Prop}

/-- What every allowed operation preserves, a run of allowed operations preserves. -/
theorem run_preserves {inv : σ → Prop} (preserved : ∀ s op s', ok s op → inv s → m s op = some s' → inv s')
    {s s' : σ} {ops : List Op} (allowed : m.Always ok s ops) (holds : inv s)
    (reached : m.run s ops = some s') : inv s' := by
  induction ops generalizing s with
  | nil =>
      cases reached
      exact holds
  | cons op ops ih =>
      obtain ⟨next, stepped, reached⟩ := run_cons_some reached
      exact ih (allowed.2 next stepped) (preserved s op next allowed.1 holds stepped) reached

/-- What follows from an invariant and the condition holds at each operation of a run. -/
theorem Always.of_invariant (inv : σ → Prop) {right : σ → Op → Prop}
    (preserved : ∀ s op s', ok s op → inv s → m s op = some s' → inv s')
    (follows : ∀ s op, ok s op → inv s → right s op) {s : σ} {ops : List Op}
    (allowed : m.Always ok s ops) (holds : inv s) : m.Always right s ops := by
  induction ops generalizing s with
  | nil => trivial
  | cons op ops ih =>
      exact ⟨follows s op allowed.1 holds, fun s' stepped =>
        ih (allowed.2 s' stepped) (preserved s op s' allowed.1 holds stepped)⟩

/-- Two conditions that agree under an invariant hold of the same runs. -/
theorem Always.iff_of_invariant (inv : σ → Prop) {right : σ → Op → Prop}
    (preserved : ∀ s op s', ok s op → inv s → m s op = some s' → inv s')
    (agree : ∀ s op, inv s → (ok s op ↔ right s op)) {s : σ} {ops : List Op} (holds : inv s) :
    m.Always ok s ops ↔ m.Always right s ops := by
  constructor
  · intro allowed
    exact allowed.of_invariant inv preserved (fun s op ok holds => (agree s op holds).mp ok) holds
  · intro allowed
    exact allowed.of_invariant inv
      (fun s op s' right holds => preserved s op s' ((agree s op holds).mpr right) holds)
      (fun s op right holds => (agree s op holds).mpr right) holds

end Invariant
end Machine
end HClient.Effect
