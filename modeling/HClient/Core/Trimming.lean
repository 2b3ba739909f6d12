import HClient.Core.Words
import Mathlib

/-!
# What stands between blanks

A list without the run at its front and the one at its end. `p` tells what counts as blank.
-/
namespace HClient.Runs

variable {α : Type} {p : α → Bool} {lead core trail : List α}

def trim (p : α → Bool) (s : List α) : List α :=
  ((s.dropWhile p).reverse.dropWhile p).reverse

/-- It is there, and has no blank at either end. -/
structure Solid (p : α → Bool) (s : List α) : Prop where
  occupied : s ≠ []
  first : ∀ a ∈ s.head?, p a = false
  last : ∀ a ∈ s.getLast?, p a = false

theorem trim_around (solid : Solid p core) (before : ∀ a ∈ lead, p a = true)
    (behind : ∀ a ∈ trail, p a = true) : trim p (lead ++ (core ++ trail)) = core := by
  have first : ∀ a ∈ (core ++ trail).head?, p a = false := by
    rw [List.head?_append_of_ne_nil core solid.occupied]
    exact solid.first
  have blank : ∀ a ∈ trail.reverse, p a = true := fun a member =>
    behind a (List.mem_reverse.mp member)
  have last : ∀ a ∈ core.reverse.head?, p a = false := by
    rw [List.head?_reverse]
    exact solid.last
  rw [trim, dropWhile_run before first, List.reverse_append, dropWhile_run blank last,
    List.reverse_reverse]

theorem trim_split (p : α → Bool) (s : List α) : ∃ lead trail, s = lead ++ (trim p s ++ trail) ∧
    (∀ a ∈ lead, p a = true) ∧ ∀ a ∈ trail, p a = true := by
  refine ⟨s.takeWhile p, ((s.dropWhile p).reverse.takeWhile p).reverse, ?_, ?_, ?_⟩
  · rw [trim, ← List.reverse_append, List.takeWhile_append_dropWhile, List.reverse_reverse,
      List.takeWhile_append_dropWhile]
  · intro a member
    exact List.mem_takeWhile_imp member
  · intro a member
    exact List.mem_takeWhile_imp (List.mem_reverse.mp member)

end HClient.Runs
