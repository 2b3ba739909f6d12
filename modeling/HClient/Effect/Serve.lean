import HClient.Effect.Loop

/-!
# Programs made of programs

A program over one set of operations becomes a program over another when each of its calls is
served by a program over the other, which keeps a state from call to call. What is verified of the
program carries over: each call is served as it is allowed, and answered as it is relied on. A
program may also be given a bound, or be raced against another.
-/
namespace HClient.Effect

open Program

variable {Op Op' : Type} {Ans : Op → Type} {Ans' : Op' → Type} {α β γ γ' σ : Type}

namespace Program

/-- The program whose calls are served. -/
def served (serve : (op : Op) → σ → Program Op' Ans' (Ans op × σ)) :
    Program Op Ans α → σ → Program Op' Ans' (α × σ)
  | .done a, s => .done (a, s)
  | .call op next, s => (serve op s).bind fun r => (next r.1).served serve r.2

/-- The program whose every call is made by a program. -/
def through (perform : (op : Op) → Program Op' Ans' (Ans op)) :
    Program Op Ans α → Program Op' Ans' α
  | .done a => .done a
  | .call op next => (perform op).bind fun r => (next r).through perform

/-- What follows a program that may have no answer. -/
def ifAny (p : Program Op Ans (Option α)) (f : α → Program Op Ans (Option β)) :
    Program Op Ans (Option β) :=
  p.bind fun
    | none => .done none
    | some a => f a

/-- The program whose calls are served, with no answer from where one is not. -/
def servedIfAny (serve : (op : Op) → σ → Program Op' Ans' (Option (Ans op × σ))) :
    Program Op Ans α → σ → Program Op' Ans' (Option (α × σ))
  | .done a, s => .done (some (a, s))
  | .call op next, s => (serve op s).ifAny fun r => (next r.1).servedIfAny serve r.2

/-- The program given up where its bound is spent, which is asked after each call that waits. -/
def bounded (waits : Op → Bool) (spent : Program Op Ans Bool) :
    Program Op Ans α → Program Op Ans (Option α)
  | .done a => .done (some a)
  | .call op next => .call op fun r =>
      if waits op then
        spent.bind fun
          | true => .done none
          | false => bounded waits spent (next r)
      else bounded waits spent (next r)

/-- Which of two programs was done first, with what is left of the other. -/
abbrev Raced (Op : Type) (Ans : Op → Type) (α β : Type) :=
  (α × Program Op Ans β) ⊕ (Program Op Ans α × β)

/-- A program that has a call to make, against another. -/
def raceCall (first : Program Op Ans Bool) (op : Op) (next : Ans op → Program Op Ans α)
    (rest : Ans op → Program Op Ans β → Program Op Ans (Raced Op Ans α β)) :
    Program Op Ans β → Program Op Ans (Raced Op Ans α β)
  | .done b => .done (.inr (.call op next, b))
  | .call op' next' => first.bind fun
      | true => .call op fun r => rest r (.call op' next')
      | false => .call op' fun r => raceCall first op next rest (next' r)

/-- Two programs at once, their calls in any order, until one of them is done. -/
def race (first : Program Op Ans Bool) :
    Program Op Ans α → Program Op Ans β → Program Op Ans (Raced Op Ans α β)
  | .done a, q => .done (.inl (a, q))
  | .call op next, q => raceCall first op next (fun r => race first (next r)) q

end Program

namespace Program
variable {P : Op → Prop} {P' : Op' → Prop} {Q : α → Prop}

theorem Within.anyway {p : Program Op Ans α} (h : p.Within P Q) : p.Within P fun _ => True :=
  h.mono (fun _ free => free) fun _ _ => trivial

/-- Nothing is asked of what a program calls. -/
theorem within_free (p : Program Op Ans α) :
    p.Within (fun _ => True) fun _ => True := by
  induction p with
  | done a => trivial
  | call op next ih => exact ⟨trivial, ih⟩

theorem Within.loop {body : σ → Program Op Ans (σ ⊕ α)} {I : σ → Prop}
    (turn : ∀ s, I s → (body s).Within P (Sum.elim I Q)) (turns : Nat) {s : σ} (holds : I s) :
    (Program.loop body turns s).Within P fun r => ∀ a, r = some a → Q a := by
  induction turns generalizing s with
  | zero => exact fun a same => by cases same
  | succ turns ih =>
      refine (turn s holds).bind fun r turned => ?_
      cases r with
      | inl s' => exact ih turned
      | inr a =>
          rintro _ ⟨⟩
          exact turned

theorem Within.through {perform : (op : Op) → Program Op' Ans' (Ans op)}
    (calls : ∀ op, P op → (perform op).Within P' fun _ => True) {p : Program Op Ans α}
    (h : p.Within P Q) : (p.through perform).Within P' Q := by
  induction p with
  | done a => exact h
  | call op next ih => exact (calls op h.1).bind fun r _ => ih r (h.2 r)

theorem Within.ifAny {p : Program Op Ans (Option α)} {f : α → Program Op Ans (Option β)}
    {R : Option β → Prop} (none_ : R none) (h : p.Within P fun r => ∀ a, r = some a → Q a)
    (rest : ∀ a, Q a → (f a).Within P R) : (p.ifAny f).Within P R := by
  refine h.bind fun r answered => ?_
  cases r with
  | none => exact none_
  | some a => exact rest a (answered a rfl)

theorem Within.servedIfAny {serve : (op : Op) → σ → Program Op' Ans' (Option (Ans op × σ))}
    (calls : ∀ op s, P op → (serve op s).Within P' fun _ => True) {p : Program Op Ans α}
    (h : p.Within P Q) (s : σ) :
    (p.servedIfAny serve s).Within P' fun r => ∀ a, r = some a → Q a.1 := by
  induction p generalizing s with
  | done a =>
      rintro _ ⟨⟩
      exact h
  | call op next ih =>
      refine (calls op s h.1).bind fun r _ => ?_
      cases r with
      | none => exact fun a same => by cases same
      | some r => exact ih r.1 (h.2 r.1) r.2

theorem Within.bounded {p : Program Op Ans α} (h : p.Within P Q) {waits : Op → Bool}
    {spent : Program Op Ans Bool} (asked : spent.Within P fun _ => True) :
    (Program.bounded waits spent p).Within P fun r => ∀ a, r = some a → Q a := by
  induction p with
  | done a =>
      rintro _ ⟨⟩
      exact h
  | call op next ih =>
      refine ⟨h.1, fun r => ?_⟩
      split
      · refine asked.bind fun over_ _ => ?_
        cases over_ with
        | true => exact fun a same => by cases same
        | false => exact ih r (h.2 r)
      · exact ih r (h.2 r)

/-- What is left of a race: the answer of one, and of the other what is within the same calls. -/
def RacedWithin (P : Op → Prop) (Q : α → Prop) (R : β → Prop) : Raced Op Ans α β → Prop
  | .inl (a, q) => Q a ∧ q.Within P R
  | .inr (p, b) => p.Within P Q ∧ R b

theorem Within.race {R : β → Prop} {first : Program Op Ans Bool}
    (asked : first.Within P fun _ => True) {p : Program Op Ans α} {q : Program Op Ans β}
    (h : p.Within P Q) (other : q.Within P R) :
    (Program.race first p q).Within P (RacedWithin P Q R) := by
  induction p generalizing q with
  | done a => exact ⟨h, other⟩
  | call op next ih =>
      rw [Program.race]
      induction q with
      | done b => exact ⟨h, other⟩
      | call op' next' ih' =>
          rw [Program.raceCall]
          refine asked.bind fun left _ => ?_
          cases left with
          | true => exact ⟨h.1, fun r => ih r (h.2 r) other⟩
          | false => exact ⟨other.1, fun r => ih' r (other.2 r)⟩

end Program

namespace Monitor
variable {m : Monitor Op Ans γ} {m' : Monitor Op' Ans' γ'}

/-- The rule of served calls: `inv` ties what one monitor has seen to what the other has, and to
the state of the one who serves. -/
theorem wp_served {serve : (op : Op) → σ → Program Op' Ans' (Ans op × σ)}
    {inv : γ' → γ → σ → Prop}
    (call : ∀ g' g s op, inv g' g s → m.allowed g op →
      m'.wp (serve op s) (fun g' r => m.answers g op r.1 ∧ inv g' (m.update g op r.1) r.2) g')
    {p : Program Op Ans α} {post : γ → α → Prop} {g' : γ'} {g : γ} {s : σ}
    (verified : m.wp p post g) (holds : inv g' g s) :
    m'.wp (p.served serve s) (fun g' r => ∃ g, inv g' g r.2 ∧ post g r.1) g' := by
  induction p generalizing g' g s with
  | done a => exact ⟨g, holds, verified⟩
  | call op next ih =>
      refine m'.wp_seq (call g' g s op holds verified.1) fun g' r served => ?_
      exact ih r.1 (verified.2 r.1 served.1) served.2

/-- The rule of sequence where the first program may have no answer. -/
theorem wp_ifAny {p : Program Op Ans (Option α)} {f : α → Program Op Ans (Option β)}
    {mid : γ → α → Prop} {post : γ → β → Prop} {g : γ}
    (first : m.wp p (fun g r => ∀ a, r = some a → mid g a) g)
    (rest : ∀ g a, mid g a → m.wp (f a) (fun g r => ∀ b, r = some b → post g b) g) :
    m.wp (p.ifAny f) (fun g r => ∀ b, r = some b → post g b) g := by
  refine m.wp_seq first fun g r answered => ?_
  cases r with
  | none => exact nofun
  | some a => exact rest g a (answered a rfl)

/-- What a monitor allows in no state is never called. -/
theorem within_of_keeping {allowed : γ → Op → Prop} {update : γ → (op : Op) → Ans op → γ}
    {P : Op → Prop} {p : Program Op Ans α} {post : γ → α → Prop} {g : γ}
    (h : (keeping allowed update).wp p post g) (calls : ∀ g op, allowed g op → P op) :
    p.Within P fun _ => True := by
  induction p generalizing g with
  | done a => trivial
  | call op next ih => exact ⟨calls g op h.1, fun r => ih r (h.2 r trivial)⟩

/-- The rule of a loop that is read only where it answers. -/
theorem wp_loop_any {body : σ → Program Op Ans (σ ⊕ α)} {I : γ → σ → Prop} {Q : γ → α → Prop}
    (turn : ∀ g s, I g s → m.wp (body s) (Turned I Q) g) (turns : Nat) {s : σ} {g : γ}
    (holds : I g s) :
    m.wp (Program.loop body turns s) (fun g r => ∀ a, r = some a → Q g a) g := by
  apply m.wp_mono (m.wp_loop turn turns holds)
  rintro g r answered a rfl
  exact answered

end Monitor
end HClient.Effect
