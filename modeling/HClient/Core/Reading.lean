import Mathlib.Data.List.Basic

/-!
# Readers of an input that is all there

A reader takes something from the front of an input. What it takes is measured against a relation
between what is read and how that is written; a loop over a reader reads the repetition of it.
-/
namespace HClient.Reading

variable {α β : Type} {p : List β → Option (α × List β)} {written : α → List β → Prop}

/-- As many as there are. Each takes something, so the length of the input is fuel enough. -/
def manyUpTo (p : List β → Option (α × List β)) : Nat → List β → List α × List β
  | 0, i => ([], i)
  | fuel + 1, i =>
      match p i with
      | some (a, rest) => (a :: (manyUpTo p fuel rest).1, (manyUpTo p fuel rest).2)
      | none => ([], i)

def many (p : List β → Option (α × List β)) (i : List β) : List α × List β :=
  manyUpTo p i.length i

/-- What is taken is how something is written. -/
def Sound (p : List β → Option (α × List β)) (written : α → List β → Prop) : Prop :=
  ∀ i a rest, p i = some (a, rest) → ∃ s, i = s ++ rest ∧ written a s

/-- What is written is taken, where an end of it stands behind it. -/
def Complete (p : List β → Option (α × List β)) (written : α → List β → Prop)
    (ends : List β → Prop) : Prop :=
  ∀ a s rest, written a s → ends rest → p (s ++ rest) = some (a, rest)

/-- One after the other. -/
inductive Repeated (written : α → List β → Prop) : List α → List β → Prop
  | nil : Repeated written [] []
  | cons {a : α} {as : List α} {s t : List β} : written a s → Repeated written as t →
      Repeated written (a :: as) (s ++ t)

theorem manyUpTo_sound (sound : Sound p written) (fuel : Nat) (i : List β) :
    ∃ s, i = s ++ (manyUpTo p fuel i).2 ∧ Repeated written (manyUpTo p fuel i).1 s := by
  induction fuel generalizing i with
  | zero => exact ⟨[], rfl, .nil⟩
  | succ fuel ih =>
      unfold manyUpTo
      split
      next a rest taken =>
        obtain ⟨s, rfl, first⟩ := sound i a rest taken
        obtain ⟨t, same, more⟩ := ih rest
        refine ⟨s ++ t, ?_, .cons first more⟩
        rw [List.append_assoc, ← same]
      · exact ⟨[], rfl, .nil⟩

theorem many_sound (sound : Sound p written) {i rest : List β} {as : List α}
    (taken : many p i = (as, rest)) : ∃ s, i = s ++ rest ∧ Repeated written as s := by
  have read := manyUpTo_sound sound i.length i
  rw [← many, taken] at read
  exact read

/-- The loop takes a repetition to its end where nothing more is taken. -/
theorem manyUpTo_complete {ends : List β → Prop} (complete : Complete p written ends)
    (some_ : ∀ a, ¬ written a []) (opens : ∀ a s rest, written a s → ends (s ++ rest))
    {as : List α} {s rest : List β} (repeated : Repeated written as s) (stops : ends rest)
    (nothing : p rest = none) (fuel : Nat) (enough : s.length ≤ fuel) :
    manyUpTo p fuel (s ++ rest) = (as, rest) := by
  induction repeated generalizing fuel with
  | nil =>
      cases fuel with
      | zero => rfl
      | succ fuel => rw [List.nil_append, manyUpTo, nothing]
  | @cons a as s t first more ih =>
      have longer : s ≠ [] := by
        rintro rfl
        exact some_ a first
      have count := List.length_pos_of_ne_nil longer
      rw [List.length_append] at enough
      obtain ⟨fuel, rfl⟩ := Nat.exists_eq_succ_of_ne_zero (by omega : fuel ≠ 0)
      have follows : ends (t ++ rest) := by
        cases more with
        | nil => exact stops
        | cons next later =>
            rw [List.append_assoc]
            exact opens _ _ _ next
      rw [List.append_assoc, manyUpTo, complete a s (t ++ rest) first follows]
      simp only [ih fuel (by omega)]

theorem many_complete {ends : List β → Prop} (complete : Complete p written ends)
    (some_ : ∀ a, ¬ written a []) (opens : ∀ a s rest, written a s → ends (s ++ rest))
    {as : List α} {s rest : List β} (repeated : Repeated written as s) (stops : ends rest)
    (nothing : p rest = none) : many p (s ++ rest) = (as, rest) :=
  manyUpTo_complete complete some_ opens repeated stops nothing _
    (by rw [List.length_append]; exact Nat.le_add_right _ _)

/-! ## One turn of the loop -/

/-- What is taken leaves less behind. -/
def Shrinks (p : List β → Option (α × List β)) : Prop :=
  ∀ i a rest, p i = some (a, rest) → rest.length < i.length

theorem manyUpTo_enough (shrinks : Shrinks p) {i : List β} {fuel more : Nat}
    (enough : i.length ≤ fuel) (enough' : i.length ≤ more) :
    manyUpTo p fuel i = manyUpTo p more i := by
  induction fuel generalizing i more with
  | zero =>
      cases i with
      | cons b i => exact absurd enough (Nat.not_succ_le_zero _)
      | nil =>
          cases more with
          | zero => rfl
          | succ more =>
              cases taken : p [] with
              | none => rw [manyUpTo, manyUpTo, taken]
              | some read => exact absurd (shrinks [] read.1 read.2 taken) (Nat.not_lt_zero _)
  | succ fuel ih =>
      cases taken : p i with
      | none =>
          cases more with
          | zero => rw [manyUpTo, manyUpTo, taken]
          | succ more => rw [manyUpTo, manyUpTo, taken]
      | some read =>
          have less := shrinks i read.1 read.2 taken
          obtain ⟨more, rfl⟩ := Nat.exists_eq_succ_of_ne_zero (by omega : more ≠ 0)
          rw [manyUpTo, manyUpTo, taken]
          simp only [ih (by omega : read.2.length ≤ fuel) (by omega : read.2.length ≤ more)]

theorem many_some (shrinks : Shrinks p) {i rest : List β} {a : α} (taken : p i = some (a, rest)) :
    many p i = (a :: (many p rest).1, (many p rest).2) := by
  have less := shrinks i a rest taken
  cases i with
  | nil => exact absurd less (Nat.not_lt_zero _)
  | cons b i =>
      rw [many, List.length_cons, manyUpTo, taken]
      simp only [manyUpTo_enough shrinks (Nat.le_of_lt_succ less) (Nat.le_refl rest.length)]
      rfl

theorem many_none {i : List β} (stops : p i = none) : many p i = ([], i) := by
  cases i with
  | nil => rfl
  | cons b i => rw [many, List.length_cons, manyUpTo, stops]

end HClient.Reading
