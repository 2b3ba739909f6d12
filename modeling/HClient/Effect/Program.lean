import Mathlib

/-!
# Programs that call an environment

A program is the tree of its calls: at each node the operation it performs, and one
continuation for each answer. Nothing is said about where answers come from, so one tree
has a sequential meaning over a handler, a set of traces over arbitrary answers, and an
interleaved meaning over a shared state.
-/
namespace HClient.Effect

inductive Program (Op : Type) (Ans : Op → Type) (α : Type) where
  | done (a : α) : Program Op Ans α
  | call (op : Op) (next : Ans op → Program Op Ans α) : Program Op Ans α

variable {Op : Type} {Ans : Op → Type} {α β : Type}

namespace Program

def bind : Program Op Ans α → (α → Program Op Ans β) → Program Op Ans β
  | .done a, f => f a
  | .call op next, f => .call op fun r => (next r).bind f

instance : Monad (Program Op Ans) where
  pure := .done
  bind := bind

/-- The program that performs one operation and answers what it was told. -/
def perform (op : Op) : Program Op Ans (Ans op) := .call op .done

@[simp] theorem pure_eq (a : α) : (pure a : Program Op Ans α) = .done a := rfl

@[simp] theorem bind_eq (p : Program Op Ans α) (f : α → Program Op Ans β) :
    (p >>= f) = p.bind f := rfl

@[simp] theorem done_bind (a : α) (f : α → Program Op Ans β) :
    (Program.done a : Program Op Ans α).bind f = f a := rfl

@[simp] theorem call_bind (op : Op) (next : Ans op → Program Op Ans α)
    (f : α → Program Op Ans β) :
    (Program.call op next).bind f = .call op fun r => (next r).bind f := rfl

@[simp] theorem perform_bind (op : Op) (f : Ans op → Program Op Ans β) :
    (perform op : Program Op Ans (Ans op)).bind f = .call op f := rfl

/-- The sequential meaning: a handler over a state answers every call. -/
def runWith {σ : Type} (handle : (op : Op) → σ → Ans op × σ) :
    Program Op Ans α → σ → α × σ
  | .done a, s => (a, s)
  | .call op next, s => (next (handle op s).1).runWith handle (handle op s).2

section Sequential
variable {σ : Type} (handle : (op : Op) → σ → Ans op × σ)

@[simp] theorem runWith_done (a : α) (s : σ) :
    (Program.done a : Program Op Ans α).runWith handle s = (a, s) := rfl

@[simp] theorem runWith_call (op : Op) (next : Ans op → Program Op Ans α) (s : σ) :
    (Program.call op next).runWith handle s =
      (next (handle op s).1).runWith handle (handle op s).2 := rfl

@[simp] theorem runWith_bind (p : Program Op Ans α) (f : α → Program Op Ans β) (s : σ) :
    (p.bind f).runWith handle s =
      (f (p.runWith handle s).1).runWith handle (p.runWith handle s).2 := by
  induction p generalizing s with
  | done a => rfl
  | call op next ih => exact ih _ _

end Sequential

/-- One call with its answer. -/
structure Event (Op : Type) (Ans : Op → Type) where
  op : Op
  answer : Ans op

/-- `p.Steps t q`: after the calls and answers of `t`, `q` is what is left of `p`. -/
inductive Steps : Program Op Ans α → List (Event Op Ans) → Program Op Ans α → Prop
  | refl (p : Program Op Ans α) : Steps p [] p
  | step {op : Op} {next : Ans op → Program Op Ans α} (r : Ans op)
      {t : List (Event Op Ans)} {q : Program Op Ans α} (rest : Steps (next r) t q) :
      Steps (.call op next) (⟨op, r⟩ :: t) q

theorem Steps.done_inv {a : α} {t : List (Event Op Ans)} {q : Program Op Ans α}
    (h : (Program.done a).Steps t q) : t = [] ∧ q = .done a := by
  cases h
  exact ⟨rfl, rfl⟩

theorem Steps.snoc {p : Program Op Ans α} {t : List (Event Op Ans)} {op : Op}
    {next : Ans op → Program Op Ans α} (h : p.Steps t (.call op next)) (r : Ans op) :
    p.Steps (t ++ [⟨op, r⟩]) (next r) := by
  generalize left : Program.call op next = q at h
  induction h with
  | refl p =>
      subst left
      exact .step r (.refl _)
  | step r' rest ih => exact .step r' (ih left)

/-- The calls and answers of a run over a handler. -/
def log {σ : Type} (handle : (op : Op) → σ → Ans op × σ) :
    Program Op Ans α → σ → List (Event Op Ans)
  | .done _, _ => []
  | .call op next, s =>
      ⟨op, (handle op s).1⟩ :: (next (handle op s).1).log handle (handle op s).2

theorem steps_log {σ : Type} (handle : (op : Op) → σ → Ans op × σ) (p : Program Op Ans α)
    (s : σ) : p.Steps (p.log handle s) (.done (p.runWith handle s).1) := by
  induction p generalizing s with
  | done a => exact .refl _
  | call op next ih => exact .step _ (ih _ _)

def result : Program Op Ans α → Option α
  | .done a => some a
  | .call _ _ => none

theorem result_eq_some {p : Program Op Ans α} {a : α} : p.result = some a ↔ p = .done a := by
  cases p <;> simp [result]

end Program
end HClient.Effect

/-!
## What holds at each call

Over a handler a program makes its calls in one state after another. A condition on a state and
a call can be asked of every one of them.
-/
namespace HClient.Effect.Program

variable {Op : Type} {Ans : Op → Type} {α β σ : Type}
  {handle : (op : Op) → σ → Ans op × σ} {ok : σ → Op → Prop}

/-- Every call of the program is made where `ok` allows it. -/
def Along (handle : (op : Op) → σ → Ans op × σ) (ok : σ → Op → Prop) :
    Program Op Ans α → σ → Prop
  | .done _, _ => True
  | .call op next, s => ok s op ∧ (next (handle op s).1).Along handle ok (handle op s).2

@[simp] theorem along_done (a : α) (s : σ) :
    (Program.done a : Program Op Ans α).Along handle ok s := trivial

@[simp] theorem along_call (op : Op) (next : Ans op → Program Op Ans α) (s : σ) :
    (Program.call op next).Along handle ok s ↔
      ok s op ∧ (next (handle op s).1).Along handle ok (handle op s).2 := Iff.rfl

theorem along_bind {p : Program Op Ans α} {f : α → Program Op Ans β} {s : σ} :
    (p.bind f).Along handle ok s ↔ p.Along handle ok s ∧
      (f (p.runWith handle s).1).Along handle ok (p.runWith handle s).2 := by
  induction p generalizing s with
  | done a => simp
  | call op next ih =>
      simp only [call_bind, along_call, runWith_call, and_assoc]
      exact and_congr_right fun _ => ih _

end HClient.Effect.Program
