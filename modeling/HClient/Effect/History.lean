import HClient.Effect.Interleave

/-!
# Histories of interleaved runs

What was called at each position of a run, what a task does between two positions, and the
calls a task still owes.
-/
namespace HClient.Effect

namespace Program
variable {Op : Type} {Ans : Op → Type} {α : Type}

/-- The program makes these calls and no others, whatever they are answered. -/
def Straight : List Op → Program Op Ans α → Prop
  | [], .done _ => True
  | op :: ops, .call op' next => op' = op ∧ ∀ r, Straight ops (next r)
  | _, _ => False

theorem Straight.of_steps {p q : Program Op Ans α} {t : List (Event Op Ans)}
    (steps : p.Steps t q) {ops : List Op} (straight : Straight ops p) :
    ∃ ops', ops' <:+ ops ∧ Straight ops' q := by
  induction steps generalizing ops with
  | refl p => exact ⟨ops, List.suffix_refl ops, straight⟩
  | step r rest ih =>
      cases ops with
      | nil => exact straight.elim
      | cons op ops =>
          obtain ⟨ops', suffix, left⟩ := ih (straight.2 r)
          exact ⟨ops', suffix.trans (List.suffix_cons op ops), left⟩

/-- The calls of a program whose every answer is the default one. -/
def ahead [∀ op, Inhabited (Ans op)] : Program Op Ans α → List Op
  | .done _ => []
  | .call op next => op :: (next default).ahead

theorem Straight.ahead_eq [∀ op, Inhabited (Ans op)] {p : Program Op Ans α} {ops : List Op}
    (straight : Straight ops p) : p.ahead = ops := by
  induction p generalizing ops with
  | done a =>
      cases ops with
      | nil => rfl
      | cons op ops => exact straight.elim
  | call op next ih =>
      cases ops with
      | nil => exact straight.elim
      | cons op' ops =>
          obtain ⟨rfl, rest⟩ := straight
          rw [ahead, ih _ (rest default)]

/-- The program ends in these calls, and makes calls in `P` before. -/
def Closes (P : Op → Prop) (tail : List Op) : Program Op Ans α → Prop
  | .done a => Straight tail (.done a : Program Op Ans α)
  | .call op next => Straight tail (.call op next) ∨ (P op ∧ ∀ r, Closes P tail (next r))

section Closes
variable {P : Op → Prop} {tail : List Op} {p q : Program Op Ans α}

theorem Straight.closes (straight : Straight tail p) : Closes P tail p := by
  cases p with
  | done a => exact straight
  | call op next => exact .inl straight

/-- Before its last calls a program still closes in them, and then it is straight. -/
theorem Closes.of_steps (closes : Closes P tail p) {t : List (Event Op Ans)}
    (steps : p.Steps t q) : Closes P tail q ∨ ∃ ops, ops <:+ tail ∧ Straight ops q := by
  induction steps with
  | refl p => exact .inl closes
  | step r rest ih =>
      rcases closes with straight | ⟨-, later⟩
      · exact .inr (straight.of_steps (.step r rest))
      · exact ih (later r)

theorem Closes.suffix_ahead [∀ op, Inhabited (Ans op)] (closes : Closes P tail p) :
    tail <:+ p.ahead := by
  induction p with
  | done a =>
      rw [Straight.ahead_eq closes]
  | call op next ih =>
      rcases closes with straight | ⟨-, later⟩
      · rw [straight.ahead_eq]
      · exact (ih default (later default)).trans (List.suffix_cons op _)

end Closes

end Program

variable {ι δ Op : Type} {Ans : Op → Type} {α σ : Type} [DecidableEq ι]

/-- No task has a call to make. -/
def Pool.Finished (s : Pool ι δ Op Ans α σ) : Prop :=
  ∀ i task, s.task i = some task → task.rest.result.isSome

namespace System
variable (S : System δ Op Ans α σ)

/-- What the label at a position of a run lets its task call, with what the task is about. -/
def callAt (s : Pool ι δ Op Ans α σ) (ls : List (Label ι δ)) (n : Nat) : Option (δ × Op) :=
  (ls[n]?).bind fun l => (S.after s (ls.take n)).nextOp l

variable {S} {s s' : Pool ι δ Op Ans α σ} {ls ls' : List (Label ι δ)} {l : Label ι δ} {n m : Nat}

theorem after_eq (reached : S.run s ls = some s') : S.after s ls = s' := by
  simp [after, reached]

theorem run_take (reached : S.run s ls = some s') (n : Nat) :
    S.run s (ls.take n) = some (S.after s (ls.take n)) := by
  rw [← List.take_append_drop n ls] at reached
  obtain ⟨middle, first, -⟩ := run_append_some reached
  rw [after_eq first, first]

theorem callAt_append (inside : n < ls.length) :
    S.callAt s (ls ++ ls') n = S.callAt s ls n := by
  unfold callAt
  rw [List.getElem?_append_left inside, List.take_append_of_le_length inside.le]

theorem callAt_concat (reached : S.run s ls = some s') :
    S.callAt s (ls ++ [l]) ls.length = s'.nextOp l := by
  unfold callAt
  rw [List.getElem?_concat_length, List.take_left, after_eq reached]
  rfl

theorem lt_of_callAt {c : δ × Op} (called : S.callAt s ls n = some c) : n < ls.length := by
  obtain ⟨l, there, -⟩ := Option.bind_eq_some_iff.mp called
  exact (List.getElem?_eq_some_iff.mp there).1

theorem callAt_take (earlier : n < m) : S.callAt s (ls.take m) n = S.callAt s ls n := by
  unfold callAt
  rw [List.getElem?_take_of_lt earlier, List.take_take, Nat.min_eq_left earlier.le]

/-- The task that makes the call at a position. -/
theorem callAt_some {c : δ × Op} (called : S.callAt s ls n = some c) :
    ∃ i next, ls[n]? = some (.advance i) ∧
      (S.after s (ls.take n)).task i = some ⟨c.1, .call c.2 next⟩ := by
  obtain ⟨l, there, next⟩ := Option.bind_eq_some_iff.mp called
  cases l with
  | start i about => cases next
  | advance i =>
      obtain ⟨task, found, next⟩ := Option.bind_eq_some_iff.mp next
      obtain ⟨about, rest⟩ := task
      cases rest with
      | done a => cases next
      | call op next' =>
          cases next
          exact ⟨i, next', there, found⟩

/-- The part of a run between two positions. -/
def between (ls : List (Label ι δ)) (n m : Nat) : List (Label ι δ) := (ls.take m).drop n

theorem run_between (reached : S.run s ls = some s') (ordered : n ≤ m) :
    S.run (S.after s (ls.take n)) (between ls n m) = some (S.after s (ls.take m)) := by
  have split : ls.take m = ls.take n ++ between ls n m := by
    conv_lhs => rw [← List.take_append_drop n (ls.take m), List.take_take, Nat.min_eq_left ordered]
    rfl
  have whole := run_take reached m
  rw [split, run_append, run_take reached n, Option.bind_some] at whole
  rw [split]
  exact whole

omit [DecidableEq ι] in
theorem getElem?_between {k : Nat} (taken : (between ls n m)[k]? = some l) :
    ls[n + k]? = some l ∧ n + k < m := by
  unfold between at taken
  rw [List.getElem?_drop] at taken
  have inside := (List.getElem?_eq_some_iff.mp taken).1
  have bound : n + k < m := inside.trans_le (List.length_take_le m ls)
  rw [List.getElem?_take_of_lt bound] at taken
  exact ⟨taken, bound⟩

theorem callAt_between (reached : S.run s ls = some s') {k : Nat} (inside : n + k < m) :
    S.callAt (S.after s (ls.take n)) (between ls n m) k = S.callAt s ls (n + k) := by
  have ordered : n ≤ m := (Nat.le_add_right n k).trans inside.le
  have state : S.run (S.after s (ls.take n)) (between ls n (n + k)) =
      some (S.after s (ls.take (n + k))) := run_between reached (Nat.le_add_right n k)
  have front : (between ls n m).take k = between ls n (n + k) := by
    unfold between
    rw [List.take_drop, List.take_take, Nat.min_eq_left inside.le]
  unfold callAt
  rw [front, after_eq state]
  unfold between
  rw [List.getElem?_drop, List.getElem?_take_of_lt inside]

theorem Always.at {ok : Pool ι δ Op Ans α σ → Label ι δ → Prop} (allowed : S.Always ok s ls)
    (reached : S.run s (ls.take n) = some s') (there : ls[n]? = some l) : ok s' l := by
  obtain ⟨inside, rfl⟩ := List.getElem?_eq_some_iff.mp there
  have split : ls = ls.take n ++ ls[n] :: ls.drop (n + 1) := by
    rw [List.getElem_cons_drop, List.take_append_drop]
  rw [split] at allowed
  exact (allowed.append.2 s' reached).1

theorem Always.take {ok : Pool ι δ Op Ans α σ → Label ι δ → Prop} (allowed : S.Always ok s ls)
    (n : Nat) : S.Always ok s (ls.take n) := by
  rw [← List.take_append_drop n ls] at allowed
  exact allowed.append.1

/-- Induction on a run from its start, with the labels taken so far. -/
theorem run_induction {ok : Pool ι δ Op Ans α σ → Label ι δ → Prop}
    {motive : List (Label ι δ) → Pool ι δ Op Ans α σ → Prop} (start : motive [] s)
    (step : ∀ ls s' l s'', S.run s ls = some s' → ok s' l → motive ls s' →
      S.step s' l = some s'' → motive (ls ++ [l]) s'')
    (allowed : S.Always ok s ls) (reached : S.run s ls = some s') : motive ls s' := by
  induction ls using List.reverseRecOn generalizing s' with
  | nil =>
      cases reached
      exact start
  | append_singleton ls l ih =>
      obtain ⟨middle, first, last⟩ := run_append_some reached
      rw [run_singleton] at last
      exact step ls middle l s' first (allowed.append.2 middle first).1
        (ih allowed.append.1 first) last

/-! ## One task along a run -/

variable {i : ι} {about : δ} {p : Program Op Ans α}

theorem task_step (there : s.task i = some ⟨about, p⟩) (stepped : S.step s l = some s') :
    (l ≠ .advance i ∧ s'.task i = some ⟨about, p⟩) ∨
      ∃ op next, l = .advance i ∧ p = .call op next ∧
        s'.task i = some ⟨about, next (S.handle op s.shared).1⟩ := by
  cases l with
  | start j about' =>
      obtain ⟨free, shared, -, rfl⟩ := step_start stepped
      refine .inl ⟨nofun, ?_⟩
      rw [Pool.put_task_of_ne, there]
      rintro rfl
      rw [there] at free
      cases free
  | advance j =>
      obtain ⟨about', op, next, here, rfl⟩ := step_advance stepped
      by_cases same : i = j
      · subst same
        rw [there] at here
        cases here
        exact .inr ⟨op, next, rfl, rfl, Pool.put_task_self ..⟩
      · refine .inl ⟨fun e => same (Label.advance.inj e).symm, ?_⟩
        rw [Pool.put_task_of_ne _ same, there]

/-- A task stays about the same and is left with what some answers leave of it. -/
theorem task_run (there : s.task i = some ⟨about, p⟩) (reached : S.run s ls = some s') :
    ∃ t q, s'.task i = some ⟨about, q⟩ ∧ p.Steps t q := by
  induction ls generalizing s p with
  | nil =>
      cases reached
      exact ⟨[], p, there, .refl p⟩
  | cons l ls ih =>
      obtain ⟨middle, first, rest⟩ := run_cons_some reached
      rcases task_step there first with ⟨-, still⟩ | ⟨op, next, -, rfl, moved⟩
      · exact ih still rest
      · obtain ⟨t, q, there', steps⟩ := ih moved rest
        exact ⟨_, q, there', .step _ steps⟩

/-- A task that was not there at first has its whole body to do, or has made a call. -/
theorem body_or_advanced (fresh : s.task i = none) (reached : S.run s ls = some s')
    (there : s'.task i = some ⟨about, p⟩) :
    p = S.body about ∨ ∃ n : Nat, ls[n]? = some (.advance i) := by
  induction ls using List.reverseRecOn generalizing s' p with
  | nil =>
      cases reached
      rw [fresh] at there
      cases there
  | append_singleton ls l ih =>
      obtain ⟨middle, first, last⟩ := run_append_some reached
      rw [run_singleton] at last
      have later : (∃ n : Nat, ls[n]? = some (.advance i)) → ∃ n : Nat, (ls ++ [l])[n]? = some (.advance i) := by
        rintro ⟨n, taken⟩
        have inside := (List.getElem?_eq_some_iff.mp taken).1
        exact ⟨n, by rw [List.getElem?_append_left inside, taken]⟩
      cases l with
      | start j about' =>
          obtain ⟨free, shared, -, rfl⟩ := step_start last
          rw [Pool.put_task_eq_some] at there
          rcases there with ⟨rfl, there⟩ | ⟨same, there⟩
          · cases there
            exact .inl rfl
          · exact (ih first there).imp_right later
      | advance j =>
          obtain ⟨about', op, next, here, rfl⟩ := step_advance last
          by_cases same : i = j
          · subst same
            exact .inr ⟨ls.length, List.getElem?_concat_length⟩
          · rw [Pool.put_task_of_ne _ same] at there
            exact (ih first there).imp_right later

theorem task_none (fresh : s.task i = none) (unstarted : ∀ about, .start i about ∉ ls)
    (reached : S.run s ls = some s') : s'.task i = none := by
  cases there : s'.task i with
  | none => rfl
  | some task =>
      exfalso
      induction ls generalizing s with
      | nil =>
          cases reached
          rw [fresh] at there
          cases there
      | cons l ls ih =>
          obtain ⟨middle, first, rest⟩ := run_cons_some reached
          refine ih ?_ (fun about member => unstarted about (List.mem_cons_of_mem l member)) rest
          cases l with
          | start j about =>
              obtain ⟨free, shared, -, rfl⟩ := step_start first
              rw [Pool.put_task_of_ne, fresh]
              rintro rfl
              exact unstarted about List.mem_cons_self
          | advance j =>
              obtain ⟨about, op, next, here, rfl⟩ := step_advance first
              rw [Pool.put_task_of_ne, fresh]
              rintro rfl
              rw [fresh] at here
              cases here

/-- A task that has a call to make is left alone by a run or makes that call in it. -/
theorem called_or_left {op : Op} {next : Ans op → Program Op Ans α}
    (there : s.task i = some ⟨about, .call op next⟩) (reached : S.run s ls = some s') :
    s'.task i = some ⟨about, .call op next⟩ ∨
      ∃ n, ls[n]? = some (.advance i) ∧ S.callAt s ls n = some (about, op) := by
  induction ls using List.reverseRecOn generalizing s' with
  | nil =>
      cases reached
      exact .inl there
  | append_singleton ls l ih =>
      obtain ⟨middle, first, last⟩ := run_append_some reached
      rw [run_singleton] at last
      rcases ih first with still | ⟨n, taken, called⟩
      · rcases task_step still last with ⟨-, still⟩ | ⟨op', next', rfl, same, -⟩
        · exact .inl still
        · cases same
          refine .inr ⟨ls.length, List.getElem?_concat_length, ?_⟩
          rw [callAt_concat first]
          simp [Pool.nextOp, still]
      · have inside := lt_of_callAt called
        exact .inr ⟨n, by rw [List.getElem?_append_left inside, taken],
          by rw [callAt_append inside, called]⟩

end System
end HClient.Effect
