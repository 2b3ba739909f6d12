import HClient.Core.Grammar

/-!
# How far a grammar looks

A grammar may look at bytes behind those it takes. What bounds them carries over to grammars put
together, where what follows takes as many as were looked at.
-/
namespace HClient.Grammar

variable {α β γ ε : Type}

/-- What it takes, it takes from no more than so many bytes behind that. -/
def Within (k : Nat) (p : Grammar β ε α) : Prop :=
  ∀ bytes a n, p.run bytes = .parsed a n → p.run (bytes.take (n + k)) = .parsed a n

/-- It backtracks for one of the first so many bytes. -/
def BacksWithin (k : Nat) (p : Grammar β ε α) : Prop :=
  ∀ bytes e, p.run bytes = .backtrack e → p.run (bytes.take k) = .backtrack e

/-- It takes at least so many bytes. -/
def Takes (k : Nat) (p : Grammar β ε α) : Prop := ∀ bytes a n, p.run bytes = .parsed a n → k ≤ n

section
variable {p q : Grammar β ε α} {f : α → Grammar β ε γ} {j k : Nat}

/-- Bytes behind those that are enough do not matter. -/
theorem run_take_of_le {bytes : List β} {m : Nat} {answer : Answer ε α}
    (settled : answer ≠ .incomplete) (said : p.run (bytes.take j) = answer) (more : j ≤ m) :
    p.run (bytes.take m) = answer := by
  have front : bytes.take m = bytes.take j ++ (bytes.take m).drop j := by
    conv_lhs => rw [← List.take_append_drop j (bytes.take m), List.take_take, min_eq_left more]
  rw [front, p.settles _ _ (by rw [said]; exact settled), said]

theorem Within.run_take {bytes : List β} {a : α} {n m : Nat} (within : p.Within k)
    (said : p.run bytes = .parsed a n) (enough : n + k ≤ m) :
    p.run (bytes.take m) = .parsed a n :=
  run_take_of_le nofun (within bytes a n said) enough

theorem BacksWithin.run_take {bytes : List β} {e : ε} {m : Nat} (backs : p.BacksWithin k)
    (said : p.run bytes = .backtrack e) (enough : k ≤ m) :
    p.run (bytes.take m) = .backtrack e :=
  run_take_of_le nofun (backs bytes e said) enough

theorem takes_zero : p.Takes 0 := fun _ _ _ _ => Nat.zero_le _

theorem within_pure (a : α) : (Grammar.pure a : Grammar β ε α).Within k := by
  intro bytes b n said
  cases said
  rfl

theorem within_cut (e : ε) : (Grammar.cut e : Grammar β ε α).Within k := fun _ _ _ => nofun

theorem within_backtrack (e : ε) : (Grammar.backtrack e : Grammar β ε α).Within k :=
  fun _ _ _ => nofun

theorem within_okOrCut (a : Option α) (e : ε) : (Grammar.okOrCut a e : Grammar β ε α).Within k := by
  cases a with
  | none => exact within_cut e
  | some a => exact within_pure a

theorem bind_eq_parsed {bytes : List β} {c : γ} {n : Nat}
    (said : (p.bind f).run bytes = .parsed c n) :
    ∃ a m l, p.run bytes = .parsed a m ∧ (f a).run (bytes.drop m) = .parsed c l ∧ n = m + l := by
  cases first : p.run bytes with
  | parsed a m =>
      rw [run_bind first] at said
      obtain ⟨l, second, rfl⟩ := Answer.after_eq_parsed said
      exact ⟨a, m, l, rfl, second, rfl⟩
  | incomplete => simp [Grammar.bind, first] at said
  | backtrack e => simp [Grammar.bind, first] at said
  | cut e => simp [Grammar.bind, first] at said

/-- What the second takes covers what the first looked at. -/
theorem Within.bind (first : p.Within j) (second : ∀ a, (f a).Within k)
    (covers : ∀ a bytes c m, (f a).run bytes = .parsed c m → j ≤ m + k) :
    (p.bind f).Within k := by
  intro bytes c n said
  obtain ⟨a, m, l, here, there, rfl⟩ := bind_eq_parsed said
  have room := covers a _ _ _ there
  rw [run_bind (first.run_take here (by omega)), List.drop_take,
    show m + l + k - m = l + k by omega, second a _ _ _ there]
  rfl

theorem BacksWithin.bind (backs : p.BacksWithin k)
    (never : ∀ a bytes e, (f a).run bytes ≠ .backtrack e) : (p.bind f).BacksWithin k := by
  intro bytes e said
  cases here : p.run bytes with
  | parsed a n =>
      rw [run_bind here] at said
      cases there : (f a).run (bytes.drop n) with
      | parsed c m => rw [there] at said; cases said
      | incomplete => rw [there] at said; cases said
      | cut e => rw [there] at said; cases said
      | backtrack e => exact absurd there (never a _ e)
  | incomplete => simp [Grammar.bind, here] at said
  | cut e => simp [Grammar.bind, here] at said
  | backtrack e₁ =>
      simp only [Grammar.bind, here] at said
      simp only [Grammar.bind, backs _ _ here]
      exact said

theorem Takes.bind_left (first : p.Takes k) : (p.bind f).Takes k := by
  intro bytes c n said
  obtain ⟨a, m, l, here, -, rfl⟩ := bind_eq_parsed said
  have := first _ _ _ here
  omega

theorem Within.alt (first : p.Within k) (second : q.Within k) (backs : p.BacksWithin j)
    (covers : ∀ bytes a n, q.run bytes = .parsed a n → j ≤ n + k) : (Grammar.alt p q).Within k := by
  intro bytes a n said
  unfold Grammar.alt at said ⊢
  dsimp only at said ⊢
  cases here : p.run bytes with
  | parsed b m =>
      rw [here] at said
      cases said
      rw [first _ _ _ here]
  | incomplete => rw [here] at said; cases said
  | cut e => rw [here] at said; cases said
  | backtrack e =>
      rw [here] at said
      rw [backs.run_take here (covers _ _ _ said)]
      exact second _ _ _ said

theorem Within.orCut (within : p.Within k) (e : ε)  : (p.orCut e).Within k := by
  intro bytes a n said
  unfold Grammar.orCut Grammar.alt at said ⊢
  dsimp only at said ⊢
  cases here : p.run bytes with
  | parsed b m =>
      rw [here] at said
      cases said
      rw [within _ _ _ here]
  | incomplete => rw [here] at said; cases said
  | cut e => rw [here] at said; cases said
  | backtrack e => rw [here] at said; cases said

end

/-! ## By the first byte -/

section
variable {f : β → Grammar β ε α} {k : Nat}

theorem Within.byFirst (within : ∀ b, (f b).Within k)
    (covers : ∀ b bytes a n, (f b).run (b :: bytes) = .parsed a n → 0 < n + k) :
    (Grammar.byFirst f).Within k := by
  intro bytes a n said
  cases bytes with
  | nil => cases said
  | cons b bytes =>
      have some_ := covers b bytes a n said
      have front := within b (b :: bytes) a n said
      obtain ⟨m, same⟩ := Nat.exists_eq_succ_of_ne_zero some_.ne'
      rw [same, List.take_succ_cons] at front ⊢
      exact front

theorem Takes.byFirst (takes : ∀ b, (f b).Takes k) : (Grammar.byFirst f).Takes k := by
  intro bytes a n said
  cases bytes with
  | nil => cases said
  | cons b bytes => exact takes b _ _ _ said

end

/-! ## Runs of bytes -/

theorem within_takeWhile0 (meant : β → Bool) : (takeWhile0 meant : Grammar β ε (List β)).Within 1 := by
  intro bytes a n said
  change (if bytes.all meant then Answer.incomplete else _) = _ at said
  split at said
  · cases said
  · rename_i there
    cases said
    obtain ⟨b, rest, split⟩ : ∃ b rest, bytes.dropWhile meant = b :: rest := by
      refine List.exists_cons_of_ne_nil fun none_left => there ?_
      rw [← List.takeWhile_append_dropWhile (p := meant) (l := bytes), none_left, List.append_nil]
      exact List.all_takeWhile
    have stop : ¬ meant b = true := by
      have head := List.head?_dropWhile_not meant bytes
      rw [split] at head
      simpa using head
    have whole : bytes = bytes.takeWhile meant ++ b :: rest := by
      rw [← split, List.takeWhile_append_dropWhile]
    have front : bytes.take ((bytes.takeWhile meant).length + 1) = bytes.takeWhile meant ++ [b] := by
      generalize bytes.takeWhile meant = run at whole ⊢
      rw [whole, List.take_length_add_append]
      rfl
    have kept : ∀ b ∈ bytes.takeWhile meant, meant b = true :=
      List.all_eq_true.mp List.all_takeWhile
    change (if (bytes.take _).all meant then Answer.incomplete else _) = _
    rw [front, if_neg (by simp [stop]), List.takeWhile_append_of_pos kept,
      List.takeWhile_cons_of_neg stop, List.append_nil]

theorem takeWhile0_ne_backtrack (meant : β → Bool) (bytes : List β) (e : ε) :
    (takeWhile0 meant).run bytes ≠ .backtrack e := by
  change (if bytes.all meant then Answer.incomplete else _) ≠ _
  split
  · exact nofun
  · exact nofun

theorem within_takeWhile1 (meant : β → Bool) (e : ε) : (takeWhile1 meant e).Within 1 := by
  refine Within.byFirst (fun b => ?_) fun _ _ _ n _ => Nat.succ_pos n
  split
  · exact within_takeWhile0 meant
  · exact within_backtrack e

theorem within_satisfy (meant : β → Bool) (e : ε) : (satisfy meant e).Within 0 := by
  refine Within.byFirst (fun b => ?_) fun b bytes a n said => ?_
  · split
    · intro bytes a n said
      cases bytes with
      | nil => cases said
      | cons c bytes => cases said; rfl
    · exact within_backtrack e
  · split at said
    · cases said; exact Nat.one_pos
    · cases said

theorem takes_satisfy (meant : β → Bool) (e : ε) : (satisfy meant e).Takes 1 := by
  refine Takes.byFirst fun b bytes a n said => ?_
  split at said
  · cases bytes with
    | nil => cases said
    | cons c bytes => cases said; exact Nat.le_refl 1
  · cases said

theorem backsWithin_satisfy (meant : β → Bool) (e : ε) : (satisfy meant e).BacksWithin 1 := by
  intro bytes e' said
  cases bytes with
  | nil => cases said
  | cons b bytes =>
      change (if meant b then token else backtrack e).run (b :: bytes) = _ at said
      change (if meant b then token else backtrack e).run [b] = _
      split at said
      · cases said
      · rename_i other
        rw [if_neg other]
        exact said

theorem within_takeExactly (meant : β → Bool) (e : ε) (n : Nat) :
    (takeExactly meant e n).Within 0 := by
  induction n with
  | zero => exact within_pure _
  | succ n ih =>
      exact (within_satisfy meant e).bind
        (fun _ => ih.bind (fun _ => within_pure _) fun _ _ _ _ _ => Nat.zero_le _)
        fun _ _ _ _ _ => Nat.zero_le _

section
variable [DecidableEq β]

theorem within_literal (e : ε) (tag : List β) : (literal e tag).Within 0 := by
  induction tag with
  | nil => exact within_pure _
  | cons b tag ih => exact (within_satisfy _ e).bind (fun _ => ih) fun _ _ _ _ _ => Nat.zero_le _

theorem takes_literal (e : ε) (tag : List β) : (literal e tag).Takes tag.length := by
  induction tag with
  | nil => exact takes_zero
  | cons b tag ih =>
      intro bytes a n said
      obtain ⟨c, m, l, here, there, rfl⟩ := bind_eq_parsed said
      have front := takes_satisfy _ e _ _ _ here
      have rest := ih _ _ _ there
      rw [List.length_cons]
      omega

theorem backsWithin_literal (e : ε) (tag : List β) : (literal e tag).BacksWithin tag.length := by
  induction tag with
  | nil => exact fun _ _ => nofun
  | cons b tag ih =>
      intro bytes e' said
      change ((satisfy _ e).bind fun _ => literal e tag).run bytes = _ at said
      change ((satisfy _ e).bind fun _ => literal e tag).run (bytes.take (tag.length + 1)) = _
      cases here : (satisfy (fun c => decide (c = b)) e).run bytes with
      | incomplete => simp [Grammar.bind, here] at said
      | cut e => simp [Grammar.bind, here] at said
      | backtrack e₁ =>
          have back := (backsWithin_satisfy _ e).run_take here (Nat.le_add_left 1 tag.length)
          simp only [Grammar.bind, here] at said
          simp only [Grammar.bind, back]
          exact said
      | parsed c n =>
          have one : n = 1 := by
            cases bytes with
            | nil => cases here
            | cons d bytes =>
                change (if decide (d = b) then token else backtrack e).run (d :: bytes) = _ at here
                split at here
                · cases here; rfl
                · cases here
          subst one
          rw [run_bind here] at said
          have front := (within_satisfy _ e).run_take here (Nat.le_add_left 1 tag.length)
          rw [run_bind front, List.drop_take, Nat.add_sub_cancel]
          cases there : (literal e tag).run (bytes.drop 1) with
          | parsed a n => rw [there] at said; cases said
          | incomplete => rw [there] at said; cases said
          | cut e => rw [there] at said; cases said
          | backtrack e₂ =>
              rw [there] at said
              rw [ih _ _ there]
              exact said

end

/-! ## Repetition -/

/-- What follows a repetition takes the bytes for which the repetition stopped. -/
theorem Within.many_bind {p : Grammar β ε α} {advances : p.Advances} {f : List α → Grammar β ε γ}
    (each : p.Within 0) (follows : ∀ as, (f as).Within 0)
    (stops : ∀ as bytes c m e, (f as).run bytes = .parsed c m → p.run bytes = .backtrack e →
      p.run (bytes.take m) = .backtrack e) : ((many p advances).bind f).Within 0 := by
  have repeats : ∀ (bytes : List β) (as all : List α) (k m : Nat) (c : γ),
      (many p advances).run bytes = .parsed as k → (f all).run (bytes.drop k) = .parsed c m →
        (many p advances).run (bytes.take (k + m)) = .parsed as k := by
    intro bytes
    induction len : bytes.length using Nat.strong_induction_on generalizing bytes with
    | _ l ih =>
        intro as all k m c said behind
        rw [many_run] at said ⊢
        cases here : p.run bytes with
        | incomplete => rw [here] at said; cases said
        | cut e => rw [here] at said; cases said
        | backtrack e =>
            rw [here] at said
            cases said
            rw [List.drop_zero] at behind
            rw [Nat.zero_add, stops _ _ _ _ _ behind here]
        | parsed a n =>
            rw [here] at said
            obtain ⟨k', rest, rfl⟩ := Answer.after_eq_parsed said
            obtain ⟨as', later, rfl⟩ := Answer.map_eq_parsed rest
            have shorter : (bytes.drop n).length < l := by
              have := advances _ _ _ here
              have := p.fits here
              rw [List.length_drop]
              omega
            rw [← List.drop_drop] at behind
            rw [each.run_take here (by omega)]
            dsimp only
            rw [List.drop_take, show n + k' + m - n = k' + m by omega,
              ih _ shorter _ rfl _ _ _ _ _ later behind]
            rfl
  intro bytes c n said
  obtain ⟨as, k, m, here, there, rfl⟩ := bind_eq_parsed said
  have front := repeats bytes as as k m c here there
  rw [Nat.add_zero, run_bind front, List.drop_take, Nat.add_sub_cancel_left]
  have rest := follows as _ _ _ there
  rw [Nat.add_zero] at rest
  rw [rest]
  rfl

end HClient.Grammar
