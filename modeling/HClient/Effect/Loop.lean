import HClient.Effect.Monitor

/-!
# Loops

A loop runs its body from one state to the next for as long as the body's result names a
next state. The turns of a run are the completed executions of the body. A loop of at most so
many turns is a program again.
-/
namespace HClient.Effect

open Program

structure Turn (σ Op : Type) (Ans : Op → Type) (β : Type) where
  start : σ
  trace : List (Event Op Ans)
  result : β

variable {σ Op β : Type} {Ans : Op → Type}

inductive Iterates (body : σ → Program Op Ans β) (next : β → Option σ) :
    σ → List (Turn σ Op Ans β) → σ → Prop
  | refl (s : σ) : Iterates body next s [] s
  | turn {s s' s'' : σ} {t : List (Event Op Ans)} {b : β} {turns : List (Turn σ Op Ans β)}
      (steps : (body s).Steps t (.done b)) (continued : next b = some s')
      (rest : Iterates body next s' turns s'') :
      Iterates body next s (⟨s, t, b⟩ :: turns) s''

namespace Iterates
variable {body : σ → Program Op Ans β} {next : β → Option σ}

/-- What every allowed turn preserves, a run of allowed turns preserves. -/
theorem preserves {inv : σ → Prop} {ok : Turn σ Op Ans β → Prop}
    (preserved : ∀ s t b s', ok ⟨s, t, b⟩ → inv s → (body s).Steps t (.done b) →
      next b = some s' → inv s')
    {s s' : σ} {turns : List (Turn σ Op Ans β)} (run : Iterates body next s turns s')
    (allowed : ∀ turn ∈ turns, ok turn) (holds : inv s) : inv s' := by
  induction run with
  | refl s => exact holds
  | turn steps continued rest ih =>
      refine ih (fun turn member => allowed turn (List.mem_cons_of_mem _ member)) ?_
      exact preserved _ _ _ _ (allowed _ List.mem_cons_self) holds steps continued

/-- A turn of a run splits it in what came before and what came after. -/
theorem split {s s' : σ} {turns : List (Turn σ Op Ans β)} (run : Iterates body next s turns s')
    {turn : Turn σ Op Ans β} (member : turn ∈ turns) :
    ∃ before after middle, turns = before ++ turn :: after ∧
      Iterates body next s before turn.start ∧ (body turn.start).Steps turn.trace (.done turn.result) ∧
      next turn.result = some middle ∧ Iterates body next middle after s' := by
  induction run with
  | refl s => cases member
  | @turn s s₁ s₂ t b turns steps continued rest ih =>
      obtain rfl | later := List.mem_cons.mp member
      · exact ⟨[], turns, s₁, rfl, .refl _, steps, continued, rest⟩
      · obtain ⟨before, after, middle, same, first, stepped, on, last⟩ := ih later
        exact ⟨_ :: before, after, middle, by rw [same]; rfl, .turn steps continued first,
          stepped, on, last⟩

end Iterates

section Bounded
variable {α γ : Type}

/-- The loop whose body names the next state or the answer, with no answer after so many turns. -/
def Program.loop (body : σ → Program Op Ans (σ ⊕ α)) : Nat → σ → Program Op Ans (Option α)
  | 0, _ => .done none
  | turns + 1, s => (body s).bind fun
      | .inl s' => loop body turns s'
      | .inr a => .done (some a)

/-- What holds after a turn: the invariant of the next one, or what is claimed of the answer. -/
def Turned (inv : γ → σ → Prop) (post : γ → α → Prop) (g : γ) : σ ⊕ α → Prop
  | .inl s => inv g s
  | .inr a => post g a

/-- The rule of a loop: what each turn keeps or answers, the loop does. -/
theorem Monitor.wp_loop {m : Monitor Op Ans γ} {body : σ → Program Op Ans (σ ⊕ α)}
    {inv : γ → σ → Prop} {post : γ → α → Prop}
    (turn : ∀ g s, inv g s → m.wp (body s) (Turned inv post) g) (turns : Nat) {s : σ} {g : γ}
    (holds : inv g s) :
    m.wp (Program.loop body turns s)
      (fun g r => match r with
        | none => ∃ s, inv g s
        | some a => post g a) g := by
  induction turns generalizing s g with
  | zero => exact ⟨s, holds⟩
  | succ turns ih =>
      apply m.wp_seq (turn g s holds)
      intro g r turned
      cases r with
      | inl s' => exact ih turned
      | inr a => exact turned

end Bounded
end HClient.Effect
