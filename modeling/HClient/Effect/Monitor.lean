import HClient.Effect.Program

/-!
# Monitors

A monitor watches the calls of a program: it keeps a state of its own, says which calls
are allowed in it and which answers the environment may give. `wp` is the weakest
condition on the monitor's state under which a program makes allowed calls only; it is
computed over the program's tree, so a sequence of commands is verified command by command.
-/
namespace HClient.Effect

open Program

structure Monitor (Op : Type) (Ans : Op → Type) (γ : Type) where
  allowed : γ → Op → Prop
  answers : γ → (op : Op) → Ans op → Prop
  update : γ → (op : Op) → Ans op → γ

variable {Op : Type} {Ans : Op → Type} {α β γ : Type}

/-- Whatever it is told, the program makes only calls in `P` and ends only in `Q`. -/
def Program.Within (P : Op → Prop) (Q : α → Prop) : Program Op Ans α → Prop
  | .done a => Q a
  | .call op next => P op ∧ ∀ r, (next r).Within P Q

namespace Monitor

/-- The weakest precondition of `post` under the monitor `m`. -/
def wp (m : Monitor Op Ans γ) : Program Op Ans α → (γ → α → Prop) → γ → Prop
  | .done a, post, g => post g a
  | .call op next, post, g =>
      m.allowed g op ∧ ∀ r, m.answers g op r → m.wp (next r) post (m.update g op r)

/-- Every call of the trace is allowed as long as the environment kept to its answers. -/
def Accepts (m : Monitor Op Ans γ) : γ → List (Event Op Ans) → Prop
  | _, [] => True
  | g, e :: t => m.allowed g e.op ∧
      (m.answers g e.op e.answer → m.Accepts (m.update g e.op e.answer) t)

/-- The environment gave only answers the monitor relies on. -/
def Answered (m : Monitor Op Ans γ) : γ → List (Event Op Ans) → Prop
  | _, [] => True
  | g, e :: t => m.answers g e.op e.answer ∧ m.Answered (m.update g e.op e.answer) t

/-- The monitor's state after a trace. -/
def after (m : Monitor Op Ans γ) : γ → List (Event Op Ans) → γ
  | g, [] => g
  | g, e :: t => m.after (m.update g e.op e.answer) t

variable (m : Monitor Op Ans γ)

@[simp] theorem wp_call (op : Op) (next : Ans op → Program Op Ans α) (post : γ → α → Prop)
    (g : γ) : m.wp (.call op next) post g =
      (m.allowed g op ∧ ∀ r, m.answers g op r → m.wp (next r) post (m.update g op r)) := rfl

theorem wp_bind (p : Program Op Ans α) (f : α → Program Op Ans β) (post : γ → β → Prop)
    (g : γ) : m.wp (p.bind f) post g ↔ m.wp p (fun g a => m.wp (f a) post g) g := by
  induction p generalizing g with
  | done a => rfl
  | call op next ih => simp only [call_bind, wp_call, ih]

theorem wp_mono {p : Program Op Ans α} {post post' : γ → α → Prop} {g : γ}
    (h : m.wp p post g) (weaker : ∀ g a, post g a → post' g a) : m.wp p post' g := by
  induction p generalizing g with
  | done a => exact weaker _ _ h
  | call op next ih => exact ⟨h.1, fun r hr => ih r (h.2 r hr)⟩

/-- The rule of sequence: what the first program establishes, the rest starts from. -/
theorem wp_seq {p : Program Op Ans α} {f : α → Program Op Ans β} {mid : γ → α → Prop}
    {post : γ → β → Prop} {g : γ} (first : m.wp p mid g)
    (rest : ∀ g a, mid g a → m.wp (f a) post g) : m.wp (p.bind f) post g :=
  (m.wp_bind p f post g).mpr (m.wp_mono first rest)

/-- What is verified at the root holds along every trace, and what is left of the program
is verified from the monitor's state there. -/
theorem wp_steps {p q : Program Op Ans α} {t : List (Event Op Ans)} {post : γ → α → Prop}
    {g : γ} (steps : p.Steps t q) (h : m.wp p post g) :
    m.Accepts g t ∧ (m.Answered g t → m.wp q post (m.after g t)) := by
  induction steps generalizing g with
  | refl p => exact ⟨trivial, fun _ => h⟩
  | step r rest ih =>
      refine ⟨⟨h.1, fun hr => (ih (h.2 r hr)).1⟩, ?_⟩
      rintro ⟨hr, answered⟩
      exact (ih (h.2 r hr)).2 answered

theorem wp_result {p : Program Op Ans α} {t : List (Event Op Ans)} {a : α}
    {post : γ → α → Prop} {g : γ} (h : m.wp p post g) (steps : p.Steps t (.done a))
    (answered : m.Answered g t) : post (m.after g t) a :=
  (m.wp_steps steps h).2 answered

/-- A monitor that forbids nothing verifies every program. -/
theorem wp_top (free : ∀ g op, m.allowed g op) (p : Program Op Ans α) (g : γ) :
    m.wp p (fun _ _ => True) g := by
  induction p generalizing g with
  | done a => trivial
  | call op next ih => exact ⟨free g op, fun r _ => ih r _⟩

theorem wp_of_within {P : Op → Prop} {Q : α → Prop} {p : Program Op Ans α} (h : p.Within P Q)
    (free : ∀ g op, P op → m.allowed g op) (g : γ) : m.wp p (fun _ a => Q a) g := by
  induction p generalizing g with
  | done a => exact h
  | call op next ih => exact ⟨free g op h.1, fun r _ => ih r (h.2 r) _⟩

/-- The monitor that only relies on answers, each by itself. -/
def relying (fine : Event Op Ans → Prop) : Monitor Op Ans Unit where
  allowed _ _ := True
  answers _ op r := fine ⟨op, r⟩
  update _ _ _ := ()

theorem relying_answered {fine : Event Op Ans → Prop} {t : List (Event Op Ans)}
    (h : ∀ e ∈ t, fine e) : (relying fine).Answered () t := by
  induction t with
  | nil => trivial
  | cons e t ih =>
      exact ⟨h e List.mem_cons_self, ih fun e' member => h e' (List.mem_cons_of_mem _ member)⟩

section Observing
variable {ω : Type}

/-- The monitor whose state is what it has seen, in order. -/
def observing (view : Event Op Ans → Option ω) (allowed : List ω → Op → Prop)
    (answers : List ω → Event Op Ans → Prop) : Monitor Op Ans (List ω) where
  allowed := allowed
  answers seen op r := answers seen ⟨op, r⟩
  update seen op r := seen ++ (view ⟨op, r⟩).toList

variable {view : Event Op Ans → Option ω} {allowed : List ω → Op → Prop}
  {answers : List ω → Event Op Ans → Prop}

theorem observing_answered {seen : List ω} {t : List (Event Op Ans)}
    (h : ∀ before e rest, t = before ++ e :: rest → answers (seen ++ before.filterMap view) e) :
    (observing view allowed answers).Answered seen t := by
  induction t generalizing seen with
  | nil => trivial
  | cons e t ih =>
      refine ⟨by simpa [observing] using h [] e t rfl, ih fun before e' rest same => ?_⟩
      have at_e' := h (e :: before) e' rest (by rw [same]; rfl)
      rw [List.filterMap_cons] at at_e'
      rw [observing, List.append_assoc]
      cases seen_e : view e <;> simpa [seen_e] using at_e'

/-- Whatever was seen was allowed after what had been seen before it. -/
theorem observing_allowed {seen : List ω} {t : List (Event Op Ans)}
    (accepts : (observing view allowed answers).Accepts seen t)
    (answered : (observing view allowed answers).Answered seen t) {earlier later : List ω} {w : ω}
    (split : t.filterMap view = earlier ++ w :: later) :
    ∃ e ∈ t, view e = some w ∧ allowed (seen ++ earlier) e.op := by
  induction t generalizing seen earlier with
  | nil => cases earlier <;> cases split
  | cons e t ih =>
      have rest := @ih _ (accepts.2 answered.1) answered.2
      rw [List.filterMap_cons] at split
      simp only [observing] at rest
      cases seen_e : view e with
      | none =>
          rw [seen_e] at split rest
          obtain ⟨e', member, found⟩ := rest split
          exact ⟨e', List.mem_cons_of_mem _ member, by simpa using found⟩
      | some w' =>
          rw [seen_e] at split rest
          cases earlier with
          | nil =>
              obtain ⟨rfl, -⟩ := List.cons.inj split
              exact ⟨e, List.mem_cons_self, seen_e, by simpa [observing] using accepts.1⟩
          | cons first earlier =>
              obtain ⟨rfl, same⟩ := List.cons.inj split
              obtain ⟨e', member, found⟩ := rest same
              exact ⟨e', List.mem_cons_of_mem _ member, by simpa using found⟩

/-- A program that is unseen leaves the monitor where it was. -/
theorem observing_within {P : Op → Prop} {Q : α → Prop} {p : Program Op Ans α}
    (h : p.Within P Q) (unseen : ∀ op r, P op → view ⟨op, r⟩ = none)
    (free : ∀ seen op, P op → allowed seen op) (seen : List ω) :
    (observing view allowed answers).wp p (fun seen' a => seen' = seen ∧ Q a) seen := by
  induction p with
  | done a => exact ⟨rfl, h⟩
  | call op next ih =>
      refine ⟨free seen op h.1, fun r _ => ?_⟩
      have same : (observing view allowed answers).update seen op r = seen := by
        simp only [observing, unseen op r h.1, Option.toList_none, List.append_nil]
      rw [same]
      exact ih r (h.2 r)

end Observing

/-- The rule of a loop over a list: what one turn keeps, the loop keeps. -/
theorem wp_foldlM {σ ι : Type} {m : Monitor Op Ans γ} {body : σ → ι → Program Op Ans σ}
    {inv : γ → σ → Prop} (turn : ∀ g s i, inv g s → m.wp (body s i) inv g) (is : List ι) {s : σ}
    {g : γ} (holds : inv g s) : m.wp (is.foldlM body s) inv g := by
  induction is generalizing s g with
  | nil => exact holds
  | cons i is ih =>
      rw [List.foldlM_cons, bind_eq]
      exact m.wp_seq (turn g s i holds) fun g s kept => ih kept

/-- The monitor whose state is every call so far, and that relies on no answer. -/
def history (allowed : List (Event Op Ans) → Op → Prop) : Monitor Op Ans (List (Event Op Ans)) where
  allowed := allowed
  answers _ _ _ := True
  update seen op r := seen ++ [⟨op, r⟩]

section History
variable {allowed : List (Event Op Ans) → Op → Prop} {post : List (Event Op Ans) → α → Prop}

theorem history_call (op : Op) (next : Ans op → Program Op Ans α) (seen : List (Event Op Ans)) :
    (history allowed).wp (.call op next) post seen ↔
      allowed seen op ∧ ∀ r, (history allowed).wp (next r) post (seen ++ [⟨op, r⟩]) := by
  rw [wp_call]
  apply and_congr_right
  intro _
  exact forall_congr' fun r => ⟨fun h => h trivial, fun h _ => h⟩

/-- Every call of a verified program is allowed after the calls before it. -/
theorem history_steps {p q : Program Op Ans α} {seen t : List (Event Op Ans)} (steps : p.Steps t q)
    (h : (history allowed).wp p post seen) :
    (∀ before e rest, t = before ++ e :: rest → allowed (seen ++ before) e.op) ∧
      (history allowed).wp q post (seen ++ t) := by
  induction steps generalizing seen with
  | refl p =>
      refine ⟨fun before e rest same => ?_, by rwa [List.append_nil]⟩
      cases before <;> cases same
  | @step op next r t q rest ih =>
      obtain ⟨first, later⟩ := (history_call op next seen).mp h
      obtain ⟨calls, last⟩ := ih (later r)
      rw [List.append_assoc] at last
      refine ⟨fun before e after same => ?_, last⟩
      cases before with
      | nil =>
          cases same
          rw [List.append_nil]
          exact first
      | cons e' before =>
          obtain ⟨rfl, tails⟩ := List.cons.inj same
          have allowed_e := calls before e after tails
          rwa [List.append_assoc] at allowed_e

end History

/-- The monitor that keeps what it is told in a state, and that relies on no answer. -/
def keeping (allowed : γ → Op → Prop) (update : γ → (op : Op) → Ans op → γ) : Monitor Op Ans γ where
  allowed := allowed
  answers _ _ _ := True
  update := update

section Keeping
variable {allowed : γ → Op → Prop} {update : γ → (op : Op) → Ans op → γ} {post : γ → α → Prop}

theorem keeping_call (op : Op) (next : Ans op → Program Op Ans α) (g : γ) :
    (keeping allowed update).wp (.call op next) post g ↔
      allowed g op ∧ ∀ r, (keeping allowed update).wp (next r) post (update g op r) := by
  rw [wp_call]
  apply and_congr_right
  intro _
  exact forall_congr' fun r => ⟨fun h => h trivial, fun h _ => h⟩

/-- Every call of a verified program is allowed by what was told before it. -/
theorem keeping_steps {p q : Program Op Ans α} {g : γ} {t : List (Event Op Ans)}
    (steps : p.Steps t q) (h : (keeping allowed update).wp p post g) :
    (∀ before e rest, t = before ++ e :: rest →
        allowed ((keeping allowed update).after g before) e.op) ∧
      (keeping allowed update).wp q post ((keeping allowed update).after g t) := by
  induction steps generalizing g with
  | refl p =>
      refine ⟨fun before e rest same => ?_, h⟩
      cases before <;> cases same
  | @step op next r t q rest ih =>
      obtain ⟨first, later⟩ := (keeping_call op next g).mp h
      obtain ⟨calls, last⟩ := ih (later r)
      refine ⟨fun before e after same => ?_, last⟩
      cases before with
      | nil =>
          cases same
          exact first
      | cons e' before =>
          obtain ⟨rfl, tails⟩ := List.cons.inj same
          exact calls before e after tails

end Keeping

end Monitor

/-- What happens only where it has not happened before happens at most once. -/
theorem countP_le_one {ε : Type} {p : ε → Bool} {t : List ε}
    (fresh : ∀ before e after, t = before ++ e :: after → p e = true → ∀ x ∈ before, p x = false) :
    t.countP p ≤ 1 := by
  induction t using List.reverseRecOn with
  | nil => exact Nat.zero_le 1
  | append_singleton t e ih =>
      have earlier : t.countP p ≤ 1 := by
        apply ih
        intro before x after same
        exact fresh before x (after ++ [e]) (by rw [same, List.append_assoc]; rfl)
      rw [List.countP_append, List.countP_singleton]
      split
      · have never := fresh t e [] rfl ‹_›
        rw [List.countP_eq_zero.mpr fun x member => by simp [never x member]]
      · exact earlier

namespace Program
variable {P : Op → Prop} {Q : α → Prop}

theorem Within.bind {p : Program Op Ans α} {f : α → Program Op Ans β} {R : β → Prop}
    (first : p.Within P Q) (rest : ∀ a, Q a → (f a).Within P R) : (p.bind f).Within P R := by
  induction p with
  | done a => exact rest a first
  | call op next ih => exact ⟨first.1, fun r => ih r (first.2 r)⟩

/-- The rule of sequence where the first answer is not used. -/
theorem Within.ignore {p : Program Op Ans α} {b : β} (h : p.Within P Q) :
    (p.bind fun _ => .done b).Within P fun _ => True := h.bind fun _ _ => trivial

theorem Within.mono {p : Program Op Ans α} {P' : Op → Prop} {Q' : α → Prop}
    (h : p.Within P Q) (calls : ∀ op, P op → P' op) (weaker : ∀ a, Q a → Q' a) :
    p.Within P' Q' := by
  induction p with
  | done a => exact weaker a h
  | call op next ih => exact ⟨calls op h.1, fun r => ih r (h.2 r)⟩

theorem Within.trace {p q : Program Op Ans α} {t : List (Event Op Ans)}
    (h : p.Within P Q) (steps : p.Steps t q) : ∀ e ∈ t, P e.op := by
  induction steps with
  | refl p =>
      intro e member
      cases member
  | step r rest ih =>
      intro e member
      obtain rfl | later := List.mem_cons.mp member
      · exact h.1
      · exact ih (h.2 r) e later

theorem Within.steps {p q : Program Op Ans α} {t : List (Event Op Ans)}
    (h : p.Within P Q) (steps : p.Steps t q) : q.Within P Q := by
  induction steps with
  | refl p => exact h
  | step r rest ih => exact ih (h.2 r)

end Program
end HClient.Effect
