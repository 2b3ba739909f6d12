import HClient.Core.Framer

/-!
# Grammars of a stream that is still arriving

A parser of the front of a stream may answer that more has to arrive. Its failures are of two
kinds: another alternative may be tried after the one, and the other ends the parse. Once a
grammar does not wait it has settled, which every way of putting grammars together keeps.
-/
namespace HClient

variable {α β γ ε : Type}

inductive Grammar.Answer (ε α : Type) where
  | parsed (a : α) (n : Nat)
  | incomplete
  | backtrack (e : ε)
  | cut (e : ε)
  deriving DecidableEq, Repr

namespace Grammar.Answer

/-- The answer about what stands behind so many bytes. -/
def after (n : Nat) : Answer ε α → Answer ε α
  | .parsed a m => .parsed a (n + m)
  | other => other

def map (f : α → γ) : Answer ε α → Answer ε γ
  | .parsed a n => .parsed (f a) n
  | .incomplete => .incomplete
  | .backtrack e => .backtrack e
  | .cut e => .cut e

theorem after_eq_incomplete {n : Nat} {r : Answer ε α} :
    r.after n = .incomplete ↔ r = .incomplete := by
  cases r <;> simp [after]

theorem map_eq_incomplete {f : α → γ} {r : Answer ε α} :
    r.map f = .incomplete ↔ r = .incomplete := by
  cases r <;> simp [map]

theorem after_eq_parsed {n k : Nat} {r : Answer ε α} {a : α} (said : r.after n = .parsed a k) :
    ∃ m, r = .parsed a m ∧ k = n + m := by
  cases r with
  | parsed a' m => cases said; exact ⟨m, rfl, rfl⟩
  | incomplete => cases said
  | backtrack e => cases said
  | cut e => cases said

theorem map_eq_parsed {f : α → γ} {r : Answer ε α} {c : γ} {n : Nat}
    (said : r.map f = .parsed c n) : ∃ a, r = .parsed a n ∧ f a = c := by
  cases r with
  | parsed a m => cases said; exact ⟨a, rfl, rfl⟩
  | incomplete => cases said
  | backtrack e => cases said
  | cut e => cases said

end Grammar.Answer

open Grammar (Answer)

/-- A parser that more input only lets go on where it waits, and that reads what is there. -/
structure Grammar (β ε α : Type) where
  run : List β → Answer ε α
  settles : Settles (· = .incomplete) run
  fits : ∀ {bytes a n}, run bytes = .parsed a n → n ≤ bytes.length

namespace Grammar

def pure (a : α) : Grammar β ε α where
  run _ := .parsed a 0
  settles := Settles.const _
  fits said := by cases said; exact Nat.zero_le _

def backtrack (e : ε) : Grammar β ε α where
  run _ := .backtrack e
  settles := Settles.const _
  fits := nofun

def cut (e : ε) : Grammar β ε α where
  run _ := .cut e
  settles := Settles.const _
  fits := nofun

/-- A value, or the end of the parse. -/
def okOrCut (a : Option α) (e : ε) : Grammar β ε α :=
  match a with
  | some a => pure a
  | none => cut e

def bind (p : Grammar β ε α) (f : α → Grammar β ε γ) : Grammar β ε γ where
  run bytes :=
    match p.run bytes with
    | .parsed a n => ((f a).run (bytes.drop n)).after n
    | .incomplete => .incomplete
    | .backtrack e => .backtrack e
    | .cut e => .cut e
  settles bytes more waits := by
    dsimp only at waits ⊢
    cases first : p.run bytes with
    | incomplete => rw [first] at waits; exact absurd rfl waits
    | backtrack e => rw [p.settles bytes more (by rw [first]; nofun), first]
    | cut e => rw [p.settles bytes more (by rw [first]; nofun), first]
    | parsed a n =>
        rw [p.settles bytes more (by rw [first]; nofun), first]
        rw [first] at waits
        dsimp only at waits ⊢
        rw [List.drop_append_of_le_length (p.fits first),
          (f a).settles _ more fun second => waits (Answer.after_eq_incomplete.mpr second)]
  fits {bytes a n} said := by
    cases first : p.run bytes with
    | incomplete => rw [first] at said; cases said
    | backtrack e => rw [first] at said; cases said
    | cut e => rw [first] at said; cases said
    | parsed b k =>
        rw [first] at said
        obtain ⟨m, second, rfl⟩ := Answer.after_eq_parsed said
        have front := p.fits first
        have rest := (f b).fits second
        rw [List.length_drop] at rest
        omega

instance : Monad (Grammar β ε) where
  pure := Grammar.pure
  bind := Grammar.bind

/-- The first alternative that does not backtrack. -/
def alt (p q : Grammar β ε α) : Grammar β ε α where
  run bytes :=
    match p.run bytes with
    | .backtrack _ => q.run bytes
    | other => other
  settles bytes more waits := by
    dsimp only at waits ⊢
    cases first : p.run bytes with
    | incomplete => rw [first] at waits; exact absurd rfl waits
    | backtrack e =>
        rw [p.settles bytes more (by rw [first]; nofun), first]
        rw [first] at waits
        exact q.settles bytes more waits
    | cut e => rw [p.settles bytes more (by rw [first]; nofun), first]
    | parsed a n => rw [p.settles bytes more (by rw [first]; nofun), first]
  fits {bytes a n} said := by
    cases first : p.run bytes with
    | incomplete => rw [first] at said; cases said
    | backtrack e => rw [first] at said; exact q.fits said
    | cut e => rw [first] at said; cases said
    | parsed b k => rw [first] at said; cases said; exact p.fits first

/-- What is there, or nothing where it backtracks. -/
def opt (p : Grammar β ε α) : Grammar β ε (Option α) :=
  alt (p.bind fun a => pure (some a)) (pure none)

/-- A failure that ends the parse. -/
def orCut (p : Grammar β ε α) (e : ε) : Grammar β ε α := alt p (cut e)

/-- A grammar that the first byte decides on. -/
def byFirst (f : β → Grammar β ε α) : Grammar β ε α where
  run
    | [] => .incomplete
    | b :: bytes => (f b).run (b :: bytes)
  settles bytes more waits := by
    cases bytes with
    | nil => exact absurd rfl waits
    | cons b bytes => exact (f b).settles (b :: bytes) more waits
  fits {bytes a n} said := by
    cases bytes with
    | nil => cases said
    | cons b bytes => exact (f b).fits said

/-- The bytes up to the first that is not meant, which has to be there. -/
def takeWhile0 (meant : β → Bool) : Grammar β ε (List β) where
  run bytes :=
    if bytes.all meant then .incomplete
    else .parsed (bytes.takeWhile meant) (bytes.takeWhile meant).length
  settles bytes more waits := by
    dsimp only at waits ⊢
    have there : ¬ bytes.all meant = true := fun all => waits (if_pos all)
    have still : ¬ (bytes ++ more).all meant = true := fun all => there <| by
      rw [List.all_append, Bool.and_eq_true] at all
      exact all.1
    have stops : (bytes.takeWhile meant).length ≠ bytes.length := fun whole => there <| by
      have same := (List.takeWhile_prefix meant).eq_of_length whole
      rw [← same]
      exact List.all_takeWhile
    rw [if_neg there, if_neg still, List.takeWhile_append, if_neg stops]
  fits {bytes a n} said := by
    split at said
    · cases said
    · cases said
      exact (List.takeWhile_prefix meant).length_le

/-- At least one byte that is meant, and all of them. -/
def takeWhile1 (meant : β → Bool) (e : ε) : Grammar β ε (List β) :=
  byFirst fun b => if meant b then takeWhile0 meant else backtrack e

/-- The next byte. -/
def token : Grammar β ε β where
  run
    | [] => .incomplete
    | b :: _ => .parsed b 1
  settles bytes more waits := by
    cases bytes with
    | nil => exact absurd rfl waits
    | cons b bytes => rfl
  fits {bytes a n} said := by
    cases bytes with
    | nil => cases said
    | cons b bytes => cases said; simp

def satisfy (meant : β → Bool) (e : ε) : Grammar β ε β :=
  byFirst fun b => if meant b then token else backtrack e

/-- So many bytes that are meant. -/
def takeExactly (meant : β → Bool) (e : ε) : Nat → Grammar β ε (List β)
  | 0 => pure []
  | n + 1 => do
      let b ← satisfy meant e
      let rest ← takeExactly meant e n
      pure (b :: rest)

def literal [DecidableEq β] (e : ε) : List β → Grammar β ε Unit
  | [] => pure ()
  | b :: tag => do
      let _ ← satisfy (fun c => decide (c = b)) e
      literal e tag

/-! ## What is parsed -/

theorem run_append {p : Grammar β ε α} {bytes : List β} {a : α} {n : Nat}
    (said : p.run bytes = .parsed a n) (more : List β) : p.run (bytes ++ more) = .parsed a n := by
  rw [p.settles bytes more (by rw [said]; nofun), said]

theorem run_bind {p : Grammar β ε α} {bytes : List β} {a : α} {n : Nat}
    (said : p.run bytes = .parsed a n) (f : α → Grammar β ε γ) :
    (p.bind f).run bytes = ((f a).run (bytes.drop n)).after n := by
  change (match p.run bytes with
    | .parsed a n => ((f a).run (bytes.drop n)).after n
    | .incomplete => .incomplete
    | .backtrack e => .backtrack e
    | .cut e => .cut e) = _
  rw [said]

theorem run_opt {p : Grammar β ε α} {bytes : List β} {a : α} {n : Nat}
    (said : p.run bytes = .parsed a n) : (opt p).run bytes = .parsed (some a) n := by
  have there : (p.bind fun a => Grammar.pure (some a)).run bytes = .parsed (some a) n := by
    rw [run_bind said]
    rfl
  unfold opt alt
  simp only [there]

/-! ## Repetition -/

def manyUpTo (p : Grammar β ε α) : Nat → List β → Answer ε (List α)
  | 0, _ => .incomplete
  | fuel + 1, bytes =>
      match p.run bytes with
      | .parsed a n => ((manyUpTo p fuel (bytes.drop n)).map (a :: ·)).after n
      | .incomplete => .incomplete
      | .backtrack _ => .parsed [] 0
      | .cut e => .cut e

/-- What it takes is at least one byte. -/
def Advances (p : Grammar β ε α) : Prop := ∀ bytes a n, p.run bytes = .parsed a n → 0 < n

theorem manyUpTo_of_lt {p : Grammar β ε α} (advances : p.Advances) {fuel : Nat} {bytes : List β}
    (enough : bytes.length < fuel) : manyUpTo p fuel bytes = manyUpTo p (bytes.length + 1) bytes := by
  have steady : ∀ (m n : Nat) (bytes : List β), bytes.length < m → bytes.length < n →
      manyUpTo p m bytes = manyUpTo p n bytes := by
    intro m
    induction m with
    | zero => intro n bytes small; omega
    | succ m ih =>
        intro n bytes small enough
        cases n with
        | zero => omega
        | succ n =>
            unfold manyUpTo
            cases first : p.run bytes with
            | incomplete => rfl
            | backtrack e => rfl
            | cut e => rfl
            | parsed a k =>
                have some_ := advances _ _ _ first
                have front := p.fits first
                have shorter : (bytes.drop k).length < bytes.length := by
                  rw [List.length_drop]
                  omega
                simp only [ih n (bytes.drop k) (by omega) (by omega)]
  exact steady _ _ bytes enough (Nat.lt_succ_self _)

/-- As many as there are, until it backtracks. -/
def many (p : Grammar β ε α) (_advances : p.Advances) : Grammar β ε (List α) where
  run bytes := manyUpTo p (bytes.length + 1) bytes
  settles := by
    have settled : ∀ (fuel fuel' : Nat) (bytes more : List β), fuel ≤ fuel' →
        manyUpTo p fuel bytes ≠ .incomplete →
          manyUpTo p fuel' (bytes ++ more) = manyUpTo p fuel bytes := by
      intro fuel
      induction fuel with
      | zero => exact fun _ _ _ _ waits => absurd rfl waits
      | succ fuel ih =>
          intro fuel' bytes more le waits
          obtain ⟨fuel', rfl⟩ := Nat.exists_eq_succ_of_ne_zero (by omega : fuel' ≠ 0)
          unfold manyUpTo at waits ⊢
          cases first : p.run bytes with
          | incomplete => rw [first] at waits; exact absurd rfl waits
          | backtrack e => rw [p.settles bytes more (by rw [first]; nofun), first]
          | cut e => rw [p.settles bytes more (by rw [first]; nofun), first]
          | parsed a n =>
              rw [p.settles bytes more (by rw [first]; nofun), first]
              rw [first] at waits
              dsimp only at waits ⊢
              rw [List.drop_append_of_le_length (p.fits first),
                ih fuel' _ more (by omega) fun rest => waits (Answer.after_eq_incomplete.mpr
                  (Answer.map_eq_incomplete.mpr rest))]
    intro bytes more waits
    exact settled _ _ bytes more (by rw [List.length_append]; omega) waits
  fits {bytes as n} said := by
    have fits : ∀ (fuel : Nat) (bytes : List β) (as : List α) (n : Nat),
        manyUpTo p fuel bytes = .parsed as n → n ≤ bytes.length := by
      intro fuel
      induction fuel with
      | zero => exact fun _ _ _ => nofun
      | succ fuel ih =>
          intro bytes as n said
          unfold manyUpTo at said
          cases first : p.run bytes with
          | incomplete => rw [first] at said; cases said
          | backtrack e => rw [first] at said; cases said; exact Nat.zero_le _
          | cut e => rw [first] at said; cases said
          | parsed a k =>
              rw [first] at said
              obtain ⟨m, rest, rfl⟩ := Answer.after_eq_parsed said
              obtain ⟨as', rest', -⟩ := Answer.map_eq_parsed rest
              have front := p.fits first
              have later := ih _ _ _ rest'
              rw [List.length_drop] at later
              omega
    exact fits _ _ _ _ said

/-- The loop: what is taken, and then as many as there are behind it. -/
theorem many_run {p : Grammar β ε α} (advances : p.Advances) (bytes : List β) :
    (many p advances).run bytes =
      match p.run bytes with
      | .parsed a n => (((many p advances).run (bytes.drop n)).map (a :: ·)).after n
      | .incomplete => .incomplete
      | .backtrack _ => .parsed [] 0
      | .cut e => .cut e := by
  change manyUpTo p (bytes.length + 1) bytes = _
  rw [manyUpTo]
  cases first : p.run bytes with
  | incomplete => rfl
  | backtrack e => rfl
  | cut e => rfl
  | parsed a n =>
      have some_ := advances _ _ _ first
      have front := p.fits first
      have shorter : (bytes.drop n).length < bytes.length := by
        rw [List.length_drop]
        omega
      dsimp only
      rw [manyUpTo_of_lt advances shorter]
      rfl

theorem Advances.bind {p : Grammar β ε α} (advances : p.Advances) (f : α → Grammar β ε γ) :
    (p.bind f).Advances := by
  intro bytes c n said
  change (match p.run bytes with
    | .parsed a n => ((f a).run (bytes.drop n)).after n
    | .incomplete => .incomplete
    | .backtrack e => .backtrack e
    | .cut e => .cut e) = _ at said
  cases first : p.run bytes with
  | incomplete => rw [first] at said; cases said
  | backtrack e => rw [first] at said; cases said
  | cut e => rw [first] at said; cases said
  | parsed a k =>
      rw [first] at said
      obtain ⟨m, -, rfl⟩ := Answer.after_eq_parsed said
      have := advances _ _ _ first
      omega

theorem Advances.byFirst {f : β → Grammar β ε α}
    (advances : ∀ b bytes a n, (f b).run (b :: bytes) = .parsed a n → 0 < n) :
    (Grammar.byFirst f).Advances := by
  intro bytes a n said
  cases bytes with
  | nil => cases said
  | cons b bytes => exact advances b bytes a n said

theorem takeWhile1_advances (meant : β → Bool) (e : ε) : (takeWhile1 meant e).Advances := by
  refine Advances.byFirst fun b bytes a n said => ?_
  by_cases first : meant b
  · rw [if_pos first] at said
    change (if (b :: bytes).all meant then Answer.incomplete else _) = _ at said
    split at said
    · cases said
    · cases said
      rw [List.takeWhile_cons_of_pos first]
      exact Nat.succ_pos _
  · rw [if_neg first] at said
    cases said

end Grammar
end HClient
