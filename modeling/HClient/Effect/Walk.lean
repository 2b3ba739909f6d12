import Mathlib

/-!
# Walks

Runs of a step relation, with what each step showed.
-/
namespace HClient.Effect

variable {σ τ α : Type}

inductive Walk (step : σ → α → σ → Prop) : σ → List α → σ → Prop where
  | nil (s : σ) : Walk step s [] s
  | cons {s next s' : σ} {a : α} {shown : List α} (first : step s a next)
      (rest : Walk step next shown s') : Walk step s (a :: shown) s'

namespace Walk
variable {step : σ → α → σ → Prop} {s s' : σ} {shown later : List α}

theorem of_append (walk : Walk step s (shown ++ later) s') :
    ∃ next, Walk step s shown next ∧ Walk step next later s' := by
  induction shown generalizing s with
  | nil => exact ⟨s, .nil s, walk⟩
  | cons a shown ih =>
      obtain - | ⟨first, rest⟩ := walk
      obtain ⟨next, before, after⟩ := ih rest
      exact ⟨next, .cons first before, after⟩

theorem append {s'' : σ} (walk : Walk step s shown s') (walk' : Walk step s' later s'') :
    Walk step s (shown ++ later) s'' := by
  induction walk with
  | nil => exact walk'
  | cons first _ ih => exact .cons first (ih walk')

/-- Where every step is the only one, there is one walk to a state without any. -/
theorem unique {s'' : σ} (only : ∀ s a b t t', step s a t → step s b t' → a = b ∧ t = t')
    (walk : Walk step s shown s') (stuck : ∀ a t, ¬ step s' a t)
    (walk' : Walk step s later s'') (stuck' : ∀ a t, ¬ step s'' a t) :
    shown = later ∧ s' = s'' := by
  induction walk generalizing later with
  | nil =>
      cases walk' with
      | nil => exact ⟨rfl, rfl⟩
      | cons first' _ => exact absurd first' (stuck _ _)
  | cons first _ ih =>
      cases walk' with
      | nil => exact absurd first (stuck' _ _)
      | cons first' rest' =>
          obtain ⟨rfl, rfl⟩ := only _ _ _ _ _ first first'
          obtain ⟨rfl, same⟩ := ih stuck rest'
          exact ⟨rfl, same⟩

/-- What every step preserves, a walk preserves. -/
theorem preserves (inv : σ → Prop) (kept : ∀ s a s', step s a s' → inv s → inv s')
    (walk : Walk step s shown s') (holds : inv s) : inv s' := by
  induction walk with
  | nil => exact holds
  | cons first _ ih => exact ih (kept _ _ _ first holds)

/-- What an invariant implies of each step's show holds of every entry of a walk. -/
theorem forall_shown (inv : σ → Prop) {right : α → Prop}
    (kept : ∀ s a s', step s a s' → inv s → right a ∧ inv s') (walk : Walk step s shown s')
    (holds : inv s) : ∀ a ∈ shown, right a := by
  induction walk with
  | nil => exact nofun
  | cons first _ ih =>
      obtain ⟨now, holds'⟩ := kept _ _ _ first holds
      exact List.forall_mem_cons.mpr ⟨now, ih holds'⟩

/-- A walk is taken by any system that can follow each of its steps. -/
theorem follow {step' : τ → α → τ → Prop} {R : σ → τ → Prop}
    (steps : ∀ s a s' t, step s a s' → R s t → ∃ t', step' t a t' ∧ R s' t')
    (walk : Walk step s shown s') {t : τ} (related : R s t) :
    ∃ t', Walk step' t shown t' ∧ R s' t' := by
  induction walk generalizing t with
  | nil => exact ⟨t, .nil t, related⟩
  | cons first _ ih =>
      obtain ⟨next, first', related'⟩ := steps _ _ _ t first related
      obtain ⟨t', rest', related''⟩ := ih related'
      exact ⟨t', .cons first' rest', related''⟩

end Walk
end HClient.Effect

/-!
## Splits of a trace

What is claimed of an entry of a trace is claimed of it after the entries before it.
-/
namespace HClient.Effect

variable {ε : Type}

/-- An entry of a longer trace is its last one, or an entry of the shorter. -/
theorem split_concat {t before later : List ε} {e x : ε} (h : t ++ [e] = before ++ x :: later) :
    (t = before ∧ e = x ∧ later = []) ∨ ∃ rest, t = before ++ x :: rest ∧ later = rest ++ [e] := by
  rcases List.eq_nil_or_concat later with rfl | ⟨rest, last, rfl⟩
  · obtain ⟨same, ends⟩ := List.append_inj' h rfl
    exact .inl ⟨same, (List.cons.inj ends).1, rfl⟩
  · rw [List.concat_eq_append, ← List.cons_append, ← List.append_assoc] at h
    obtain ⟨same, ends⟩ := List.append_inj' h rfl
    refine .inr ⟨rest, same, ?_⟩
    rw [List.concat_eq_append, (List.cons.inj ends).1]

/-- Something of `p` happened, and nothing of `q` since. -/
def Since (p q : ε → Prop) (t : List ε) : Prop :=
  ∃ before e later, t = before ++ e :: later ∧ p e ∧ ∀ x ∈ later, ¬ q x

/-- Something of `p` happened, and something of `q` after it. -/
def Then (p q : ε → Prop) (t : List ε) : Prop :=
  ∃ before e later, t = before ++ e :: later ∧ p e ∧ ∃ x ∈ later, q x

variable {p q : ε → Prop} {t : List ε} {e : ε}

theorem not_since_nil : ¬ Since p q [] := by
  rintro ⟨before, e, later, split, -⟩
  cases before <;> cases split

theorem since_concat : Since p q (t ++ [e]) ↔ p e ∨ (¬ q e ∧ Since p q t) := by
  constructor
  · rintro ⟨before, x, later, split, first, never⟩
    rcases split_concat split with ⟨-, rfl, -⟩ | ⟨rest, same, rfl⟩
    · exact .inl first
    · refine .inr ⟨never e (by simp), before, x, rest, same, first, fun y member => ?_⟩
      exact never y (by simp [member])
  · rintro (now | ⟨quiet, before, x, later, rfl, first, never⟩)
    · exact ⟨t, e, [], rfl, now, nofun⟩
    · refine ⟨before, x, later ++ [e], by simp, first, fun y member => ?_⟩
      rcases List.mem_append.mp member with earlier | last
      · exact never y earlier
      · rwa [List.mem_singleton.mp last]

end HClient.Effect
