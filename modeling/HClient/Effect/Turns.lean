import Mathlib

/-!
# Loops with fuel

A loop that is cut off where its fuel runs out, and what it answers with any fuel from some amount
on.
-/
namespace HClient.Effect

variable {α β γ : Type} {g : Nat → Option α} {g' : Nat → Option β} {g'' : Nat → Option γ} {a : α}
  {b : β} {c : γ}

def Yields (g : Nat → Option α) (a : α) : Prop :=
  ∃ enough, ∀ fuel, enough ≤ fuel → g fuel = some a

namespace Yields

theorem of_forall (now : ∀ fuel, g fuel = some a) : Yields g a := ⟨0, fun fuel _ => now fuel⟩

/-- The loop answers in its first turn. -/
theorem of_succ (now : ∀ fuel, g (fuel + 1) = some a) : Yields g a := by
  refine ⟨1, fun fuel enough => ?_⟩
  obtain ⟨fuel, rfl⟩ := Nat.exists_eq_add_of_le' enough
  exact now fuel

theorem map (yields : Yields g a) (turn : ∀ fuel, g fuel = some a → g' fuel = some b) :
    Yields g' b := by
  obtain ⟨enough, answers⟩ := yields
  exact ⟨enough, fun fuel more => turn fuel (answers fuel more)⟩

/-- One more turn of the loop. -/
theorem next (yields : Yields g a) (turn : ∀ fuel, g fuel = some a → g' (fuel + 1) = some b) :
    Yields g' b := by
  obtain ⟨enough, answers⟩ := yields
  refine ⟨enough + 1, fun fuel more => ?_⟩
  obtain ⟨fuel, rfl⟩ := Nat.exists_eq_add_of_le' (Nat.le_of_add_left_le more)
  exact turn fuel (answers fuel (Nat.le_of_succ_le_succ more))

theorem map₂ (yields : Yields g a) (yields' : Yields g' b)
    (turn : ∀ fuel, g fuel = some a → g' fuel = some b → g'' fuel = some c) : Yields g'' c := by
  obtain ⟨enough, answers⟩ := yields
  obtain ⟨enough', answers'⟩ := yields'
  exact ⟨max enough enough', fun fuel more =>
    turn fuel (answers fuel (Nat.le_trans (Nat.le_max_left _ _) more))
      (answers' fuel (Nat.le_trans (Nat.le_max_right _ _) more))⟩

theorem next₂ (yields : Yields g a) (yields' : Yields g' b)
    (turn : ∀ fuel, g fuel = some a → g' fuel = some b → g'' (fuel + 1) = some c) :
    Yields g'' c := by
  have both : Yields (fun fuel => g'' (fuel + 1)) c := yields.map₂ yields' turn
  exact both.next fun fuel answers => answers

theorem unique (yields : Yields g a) {a' : α} (yields' : Yields g a') : a = a' := by
  obtain ⟨enough, answers⟩ := yields
  obtain ⟨enough', answers'⟩ := yields'
  have same := (answers _ (Nat.le_max_left enough enough')).symm.trans
    (answers' _ (Nat.le_max_right enough enough'))
  exact Option.some.inj same

end Yields
end HClient.Effect
