import HClient.Core.Words
import HClient.Cache.Freshness

/-!
# The elements of a `Cache-Control` value

A value cut at the commas outside quoted strings, what an element is that can be read to its end,
and which elements the list parser comes to: those with nothing malformed before them in their
value.
-/
namespace HClient.Cache

open Bytes (ascii)

/-- A value up to its first comma outside a quoted string, and the pieces after it; the state is
whether a quoted string is open. -/
def scan : Bool → List UInt8 → List UInt8 × List (List UInt8)
  | _, [] => ([], [])
  | true, 92 :: b :: i => (92 :: b :: (scan true i).1, (scan true i).2)
  | quoted, b :: i =>
      if b = 44 ∧ quoted = false then ([], (scan false i).1 :: (scan false i).2)
      else
        let open_ := if b = 34 then !quoted else quoted
        (b :: (scan open_ i).1, (scan open_ i).2)

def elements (value : List UInt8) : List (List UInt8) := (scan false value).1 :: (scan false value).2

/-- Blanks only. -/
def Blank (s : List UInt8) : Prop := ∀ b ∈ s, b = 32 ∨ b = 9

instance (s : List UInt8) : Decidable (Blank s) := inferInstanceAs (Decidable (∀ b ∈ s, _))

def Token (s : List UInt8) : Prop := s ≠ [] ∧ ∀ b ∈ s, HeaderName.isTokenByte b = true

instance (s : List UInt8) : Decidable (Token s) := inferInstanceAs (Decidable (_ ∧ ∀ b ∈ s, _))

/-- What can stand between the quotes of a quoted string. -/
inductive Quotable : List UInt8 → Prop
  | nil : Quotable []
  | byte {b : UInt8} {s : List UInt8} : b ≠ 34 → b ≠ 92 → Quotable s → Quotable (b :: s)
  | pair {s : List UInt8} (b : UInt8) : Quotable s → Quotable (92 :: b :: s)

/-- An argument and how it is written. -/
inductive Argument : List UInt8 → List UInt8 → Prop
  | token {s : List UInt8} : Token s → Argument s s
  | quoted {s : List UInt8} : Quotable s → Argument s (34 :: (s ++ [34]))

/-- The elements of a list: an empty one, a name, and a name with an argument. -/
inductive Element : Option Directive → List UInt8 → Prop
  | empty {s : List UInt8} : Blank s → Element none s
  | bare {lead name trail : List UInt8} : Blank lead → Token name → Blank trail →
      Element (some ⟨name, none⟩) (lead ++ (name ++ trail))
  | argued {lead name before after arg written trail : List UInt8} : Blank lead → Token name →
      Blank before → Blank after → Argument arg written → Blank trail →
      Element (some ⟨name, some arg⟩)
        (lead ++ (name ++ (before ++ 61 :: (after ++ (written ++ trail)))))

/-- The element is a directive of this name, with or without an argument. -/
def Is (name e : List UInt8) : Prop := ∃ d, Element (some d) e ∧ d.name.map Bytes.toLower = name

def WellFormed (e : List UInt8) : Prop := ∃ d, Element d e

/-- The token an element opens with, whatever is behind it. -/
def opening (e : List UInt8) : List UInt8 := (ows e).takeWhile HeaderName.isTokenByte

/-- An element opens with this name, and nothing before it in its value is malformed. -/
inductive Reached (name : List UInt8) : List (List UInt8) → Prop
  | here {e : List UInt8} {rest : List (List UInt8)} :
      (opening e).map Bytes.toLower = name → Reached name (e :: rest)
  | later {e : List UInt8} {rest : List (List UInt8)} :
      WellFormed e → Reached name rest → Reached name (e :: rest)

/-! ## The cut -/

section Scan
variable {b : UInt8} {i s t : List UInt8}

@[simp] theorem scan_nil (quoted : Bool) : scan quoted [] = ([], []) := by
  cases quoted <;> rfl

theorem scan_comma (i : List UInt8) : scan false (44 :: i) = ([], elements i) := rfl

theorem scan_plain (comma : b ≠ 44) (quote : b ≠ 34) :
    scan false (b :: i) = (b :: (scan false i).1, (scan false i).2) := by
  rw [scan.eq_3 false b i (by simp)]
  simp [comma, quote]

theorem scan_open (i : List UInt8) :
    scan false (34 :: i) = (34 :: (scan true i).1, (scan true i).2) := rfl

theorem scan_close (i : List UInt8) :
    scan true (34 :: i) = (34 :: (scan false i).1, (scan false i).2) := rfl

theorem scan_pair (b : UInt8) (i : List UInt8) :
    scan true (92 :: b :: i) = (92 :: b :: (scan true i).1, (scan true i).2) := rfl

theorem scan_inside (quote : b ≠ 34) (escape : b ≠ 92) :
    scan true (b :: i) = (b :: (scan true i).1, (scan true i).2) := by
  rw [scan.eq_3 true b i (by simp [escape])]
  simp [quote]

/-- What is read in front does not change how the rest is cut. -/
def Passes (s : List UInt8) : Prop :=
  ∀ rest, scan false (s ++ rest) = (s ++ (scan false rest).1, (scan false rest).2)

theorem Passes.append (first : Passes s) (second : Passes t) : Passes (s ++ t) := by
  intro rest
  rw [List.append_assoc, first, second, List.append_assoc]

theorem passes_plain (plain : ∀ b ∈ s, b ≠ 44 ∧ b ≠ 34) : Passes s := by
  intro rest
  induction s with
  | nil => rfl
  | cons b s ih =>
      obtain ⟨comma, quote⟩ := plain b List.mem_cons_self
      rw [List.cons_append, scan_plain comma quote,
        ih fun c member => plain c (List.mem_cons_of_mem _ member)]
      rfl

theorem scan_quotable (quotable : Quotable s) (rest : List UInt8) :
    scan true (s ++ 34 :: rest) = (s ++ 34 :: (scan false rest).1, (scan false rest).2) := by
  induction quotable with
  | nil => exact scan_close rest
  | byte quote escape _ ih =>
      rw [List.cons_append, scan_inside quote escape, ih]
      rfl
  | pair b _ ih =>
      rw [List.cons_append, List.cons_append, scan_pair, ih]
      rfl

theorem passes_blank (blank : Blank s) : Passes s := by
  refine passes_plain fun b member => ?_
  rcases blank b member with rfl | rfl <;> decide

theorem passes_token (token : Token s) : Passes s := by
  refine passes_plain fun b member => ?_
  have there := token.2 b member
  constructor
  · rintro rfl
    exact absurd there (by decide)
  · rintro rfl
    exact absurd there (by decide)

theorem Argument.passes {arg written : List UInt8} (argument : Argument arg written) :
    Passes written := by
  cases argument with
  | token token => exact passes_token token
  | quoted quotable =>
      intro rest
      have quote := scan_quotable quotable rest
      rw [List.cons_append, List.append_assoc, scan_open, List.singleton_append, quote]
      simp

theorem Element.passes {d : Option Directive} (element : Element d s) : Passes s := by
  cases element with
  | empty blank => exact passes_blank blank
  | bare lead name trail =>
      exact (passes_blank lead).append ((passes_token name).append (passes_blank trail))
  | argued lead name before after argument trail =>
      have equals : Passes [61] := passes_plain fun b member => by
        rw [List.mem_singleton.mp member]
        decide
      have tail := (passes_blank after).append (argument.passes.append (passes_blank trail))
      exact (passes_blank lead).append ((passes_token name).append
        ((passes_blank before).append (equals.append tail)))

/-- The input ends here, or the next element begins. -/
def Stops (rest : List UInt8) : Prop := rest = [] ∨ rest.head? = some 44

theorem scan_split (quoted : Bool) (i : List UInt8) :
    ∃ rest, i = (scan quoted i).1 ++ rest ∧ Stops rest := by
  fun_induction scan quoted i with
  | case1 => exact ⟨[], rfl, .inl rfl⟩
  | case2 b i ih =>
      obtain ⟨rest, same, stops⟩ := ih
      refine ⟨rest, ?_, stops⟩
      rw [List.cons_append, List.cons_append, ← same]
  | case3 quoted b i other ends ih =>
      obtain ⟨rfl, -⟩ := ends
      exact ⟨44 :: i, rfl, .inr rfl⟩
  | case4 quoted b i other inside open_ ih =>
      obtain ⟨rest, same, stops⟩ := ih
      refine ⟨rest, ?_, stops⟩
      rw [List.cons_append, ← same]

end Scan

/-! ## What the parser takes -/

section Parser
variable {i s rest : List UInt8}

theorem ows_split (i : List UInt8) : ∃ lead, i = lead ++ ows i ∧ Blank lead := by
  refine ⟨i.takeWhile fun b => b = 32 ∨ b = 9, (List.takeWhile_append_dropWhile ..).symm, ?_⟩
  intro b member
  simpa using List.mem_takeWhile_imp member

theorem ows_blank (blank : Blank s) (solid : ∀ b ∈ rest.head?, ¬ (b = 32 ∨ b = 9)) :
    ows (s ++ rest) = rest :=
  Runs.dropWhile_run (fun b member => decide_eq_true (blank b member))
    (fun b there => decide_eq_false (solid b there))

theorem Stops.solid (stops : Stops rest) : ∀ b ∈ rest.head?, ¬ (b = 32 ∨ b = 9) := by
  rcases stops with rfl | comma
  · simp
  · rw [comma]
    intro b same
    cases same
    decide

theorem Stops.not_token (stops : Stops rest) :
    ∀ b ∈ rest.head?, HeaderName.isTokenByte b = false := by
  rcases stops with rfl | comma
  · simp
  · rw [comma]
    intro b same
    cases same
    decide

theorem token_sound {name : List UInt8} (taken : token i = some (name, rest)) :
    i = name ++ rest ∧ Token name := by
  unfold token at taken
  split at taken
  · cases taken
  next some_ =>
    cases taken
    exact ⟨(List.takeWhile_append_dropWhile ..).symm, some_,
      fun b member => List.mem_takeWhile_imp member⟩

theorem token_complete {name : List UInt8} (isToken : Token name)
    (ends : ∀ b ∈ rest.head?, HeaderName.isTokenByte b = false) :
    token (name ++ rest) = some (name, rest) := by
  rw [token, Runs.takeWhile_run isToken.2 ends, Runs.dropWhile_run isToken.2 ends,
    if_neg isToken.1]

theorem quotedBody_sound {body : List UInt8} (taken : quotedBody i = some (body, rest)) :
    i = body ++ 34 :: rest ∧ Quotable body := by
  fun_induction quotedBody i generalizing body with
  | case1 => cases taken
  | case2 =>
      cases taken
      exact ⟨rfl, .nil⟩
  | case3 b i ih =>
      obtain ⟨⟨inner, left⟩, found, same⟩ := Option.map_eq_some_iff.mp taken
      cases same
      obtain ⟨rfl, quotable⟩ := ih found
      exact ⟨rfl, .pair b quotable⟩
  | case4 b i quote escape ih =>
      obtain ⟨⟨inner, left⟩, found, same⟩ := Option.map_eq_some_iff.mp taken
      cases same
      obtain ⟨rfl, quotable⟩ := ih found
      refine ⟨rfl, .byte quote ?_ quotable⟩
      rintro rfl
      cases inner with
      | nil => exact escape 34 _ rfl rfl
      | cons c inner => exact escape c _ rfl rfl

theorem quotedBody_complete {body : List UInt8} (quotable : Quotable body) :
    quotedBody (body ++ 34 :: rest) = some (body, rest) := by
  induction quotable with
  | nil => rfl
  | byte quote escape _ ih =>
      rw [List.cons_append, quotedBody.eq_4 _ _ quote (by simp [escape]), ih]
      rfl
  | pair b _ ih =>
      rw [List.cons_append, List.cons_append, quotedBody.eq_3, ih]
      rfl

theorem blank_not_token (blank : Blank s)
    (ends : ∀ b ∈ rest.head?, HeaderName.isTokenByte b = false) :
    ∀ b ∈ (s ++ rest).head?, HeaderName.isTokenByte b = false := by
  refine Runs.forall_head_run (fun b member => ?_) ends
  rcases blank b member with rfl | rfl <;> decide

theorem argument_solid {arg written : List UInt8} (argument : Argument arg written)
    (more : List UInt8) : ∀ b ∈ (written ++ more).head?, ¬ (b = 32 ∨ b = 9) := by
  cases argument with
  | quoted quotable =>
      intro b same
      cases same
      decide
  | token isToken =>
      obtain ⟨b, s, rfl⟩ := List.exists_cons_of_ne_nil isToken.1
      intro c same
      cases same
      rintro (rfl | rfl) <;> exact absurd (isToken.2 _ List.mem_cons_self) (by decide)

theorem argument_sound {arg : List UInt8}
    (taken : (quotedString i <|> token i) = some (arg, rest)) :
    ∃ written, i = written ++ rest ∧ Argument arg written := by
  cases read : quotedString i with
  | none =>
      rw [read] at taken
      obtain ⟨rfl, isToken⟩ := token_sound taken
      exact ⟨arg, rfl, .token isToken⟩
  | some body =>
      rw [read] at taken
      have same : some body = some (arg, rest) := taken
      cases same
      unfold quotedString at read
      split at read
      · obtain ⟨rfl, quotable⟩ := quotedBody_sound read
        exact ⟨34 :: (arg ++ [34]), by simp, .quoted quotable⟩
      · cases read

theorem argument_complete {arg written : List UInt8} (argument : Argument arg written)
    (ends : ∀ b ∈ rest.head?, HeaderName.isTokenByte b = false) :
    (quotedString (written ++ rest) <|> token (written ++ rest)) = some (arg, rest) := by
  cases argument with
  | quoted quotable =>
      have body : quotedBody (arg ++ 34 :: rest) = some (arg, rest) := quotedBody_complete quotable
      have whole : quotedString (34 :: (arg ++ [34]) ++ rest) = some (arg, rest) := by
        rw [List.cons_append, List.append_assoc]
        exact body
      rw [whole]
      rfl
  | token isToken =>
      have unquoted : quotedString (arg ++ rest) = none := by
        refine quotedString.eq_2 _ fun more same => ?_
        have first := Runs.forall_head_append isToken.1 isToken.2 rest 34 (by rw [same]; rfl)
        exact absurd first (by decide)
      rw [unquoted, token_complete isToken ends]
      rfl

theorem directiveArg_sound {arg : List UInt8} (taken : directiveArg i = some (arg, rest)) :
    ∃ before after written, i = before ++ 61 :: (after ++ (written ++ rest)) ∧
      Blank before ∧ Blank after ∧ Argument arg written := by
  obtain ⟨before, split, blank⟩ := ows_split i
  unfold directiveArg at taken
  split at taken
  next j equals =>
    obtain ⟨after, split', blank'⟩ := ows_split j
    obtain ⟨written, same, argument⟩ := argument_sound taken
    refine ⟨before, after, written, ?_, blank, blank', argument⟩
    rw [← same, ← split', ← equals, ← split]
  · cases taken

/-- What is taken from the front is an element, up to where the parser looks for a comma. -/
theorem optDirective_sound (i : List UInt8) : ∃ s, i = s ++ ows (optDirective (ows i)).2 ∧
    Element (optDirective (ows i)).1 s := by
  obtain ⟨lead, split, blank⟩ := ows_split i
  obtain ⟨trail, split', blank'⟩ := ows_split (optDirective (ows i)).2
  cases named : token (ows i) with
  | none =>
      have nothing : optDirective (ows i) = (none, ows i) := by rw [optDirective, named]
      rw [nothing] at split' ⊢
      refine ⟨lead ++ trail, ?_, .empty fun b member => ?_⟩
      · rw [List.append_assoc, ← split', ← split]
      · exact (List.mem_append.mp member).elim (blank b) (blank' b)
  | some taken =>
      obtain ⟨name, j⟩ := taken
      obtain ⟨same, isToken⟩ := token_sound named
      cases argued : directiveArg j with
      | none =>
          have bare : optDirective (ows i) = (some ⟨name, none⟩, j) := by
            rw [optDirective, named]
            simp only [argued]
          rw [bare] at split' ⊢
          refine ⟨lead ++ (name ++ trail), ?_, .bare blank isToken blank'⟩
          rw [List.append_assoc, List.append_assoc, ← split', ← same, ← split]
      | some taken =>
          obtain ⟨arg, k⟩ := taken
          have whole : optDirective (ows i) = (some ⟨name, some arg⟩, k) := by
            rw [optDirective, named]
            simp only [argued]
          obtain ⟨before, after, written, same', blank₁, blank₂, argument⟩ :=
            directiveArg_sound argued
          rw [whole] at split' ⊢
          refine ⟨_, ?_, .argued blank isToken blank₁ blank₂ argument blank'⟩
          simp only [List.append_assoc, List.cons_append]
          rw [← split', ← same', ← same, ← split]

/-- An element is taken to its end where the value ends or a comma follows. -/
theorem optDirective_complete {d : Option Directive} (element : Element d s)
    (stops : Stops rest) : ∃ trail, Blank trail ∧
      optDirective (ows (s ++ rest)) = (d, trail ++ rest) := by
  have solid := stops.solid
  cases element with
  | empty blank =>
      refine ⟨[], fun b member => absurd member List.not_mem_nil, ?_⟩
      have none_ : token rest = none := by
        rw [token, if_pos]
        cases rest with
        | nil => rfl
        | cons b rest => rw [List.takeWhile_cons_of_neg (by simp [stops.not_token b rfl])]
      rw [ows_blank blank solid, optDirective, none_]
      rfl
  | @bare lead name trail blank isToken blank' =>
      refine ⟨trail, blank', ?_⟩
      have first : ∀ b ∈ (name ++ (trail ++ rest)).head?, ¬ (b = 32 ∨ b = 9) :=
        argument_solid (.token isToken) _
      have ends := blank_not_token blank' stops.not_token
      have noArg : directiveArg (trail ++ rest) = none := by
        rw [directiveArg, ows_blank blank' solid]
        rcases stops with rfl | comma
        · rfl
        · split
          next same => cases comma
          · rfl
      rw [List.append_assoc, List.append_assoc, ows_blank blank first, optDirective,
        token_complete isToken ends]
      simp only [noArg]
  | @argued lead name before after arg written trail blank isToken blank₁ blank₂ argument blank' =>
      refine ⟨trail, blank', ?_⟩
      have first : ∀ b ∈ (name ++ (before ++ 61 :: (after ++ (written ++ (trail ++ rest))))).head?,
          ¬ (b = 32 ∨ b = 9) := argument_solid (.token isToken) _
      have ends : ∀ b ∈ (before ++ 61 :: (after ++ (written ++ (trail ++ rest)))).head?,
          HeaderName.isTokenByte b = false := by
        refine blank_not_token blank₁ fun b same => ?_
        cases same
        decide
      have ends' := blank_not_token blank' stops.not_token
      have equals : ∀ b ∈ (61 :: (after ++ (written ++ (trail ++ rest)))).head?,
          ¬ (b = 32 ∨ b = 9) := by
        intro c same
        cases same
        decide
      have some_ : directiveArg (before ++ 61 :: (after ++ (written ++ (trail ++ rest)))) =
          some (arg, trail ++ rest) := by
        rw [directiveArg, ows_blank blank₁ equals]
        simp only [ows_blank blank₂ (argument_solid argument _)]
        exact argument_complete argument ends'
      simp only [List.append_assoc, List.cons_append]
      rw [ows_blank blank first, optDirective, token_complete isToken ends]
      simp only [some_]

end Parser

/-! ## The elements the parser comes to -/

theorem takeWhile_append_stops {s rest : List UInt8} (stops : Stops rest) :
    (s ++ rest).takeWhile HeaderName.isTokenByte = s.takeWhile HeaderName.isTokenByte := by
  induction s with
  | nil =>
      cases rest with
      | nil => rfl
      | cons b rest =>
          rw [List.nil_append, List.takeWhile_cons_of_neg (by simp [stops.not_token b rfl])]
          rfl
  | cons b s ih =>
      rw [List.cons_append, List.takeWhile_cons, List.takeWhile_cons, ih]

/-- What an element opens with is seen in the value it is cut from. -/
theorem opening_append {e rest : List UInt8} (stops : Stops rest) :
    opening (e ++ rest) = opening e := by
  obtain ⟨lead, split, blank⟩ := ows_split e
  cases solid : ows e with
  | nil =>
      rw [solid, List.append_nil] at split
      rw [opening, opening, solid, split, ows_blank blank stops.solid]
      exact takeWhile_append_stops (s := []) stops
  | cons b s =>
      have first : ∀ c ∈ (b :: s ++ rest).head?, ¬ (c = 32 ∨ c = 9) := by
        intro c same
        cases same
        have head : (ows e).head? = some b := by rw [solid]; rfl
        exact of_decide_eq_false (Runs.dropWhile_ends (fun b => decide (b = 32 ∨ b = 9)) e b head)
      rw [opening, opening, solid, split, solid, List.append_assoc, ows_blank blank first]
      exact takeWhile_append_stops stops

theorem optDirective_name (i : List UInt8) :
    (optDirective i).1.map Directive.name =
      if i.takeWhile HeaderName.isTokenByte = [] then none
      else some (i.takeWhile HeaderName.isTokenByte) := by
  unfold optDirective token
  split_ifs with none_
  · rfl
  · dsimp only
    split <;> rfl

theorem reached_cons {name e : List UInt8} {rest : List (List UInt8)} :
    Reached name (e :: rest) ↔
      (opening e).map Bytes.toLower = name ∨ WellFormed e ∧ Reached name rest := by
  constructor
  · intro reached
    cases reached with
    | here opens => exact .inl opens
    | later wellFormed reached => exact .inr ⟨wellFormed, reached⟩
  · rintro (opens | ⟨wellFormed, reached⟩)
    · exact .here opens
    · exact .later wellFormed reached

theorem not_reached_nil {name : List UInt8} : ¬ Reached name [] := by
  intro reached
  cases reached

/-- The parser visits a directive of the name. -/
def Visits (fuel : Nat) (name i : List UInt8) : Prop :=
  ∃ d, some d ∈ directives fuel (ows i) ∧ d.name.map Bytes.toLower = name

/-- The directive in front is named by what the first element opens with. -/
theorem first_named {name : List UInt8} (named : name ≠ []) (i : List UInt8) :
    (∃ d, (optDirective (ows i)).1 = some d ∧ d.name.map Bytes.toLower = name) ↔
      (opening (scan false i).1).map Bytes.toLower = name := by
  obtain ⟨rest, split, stops⟩ := scan_split false i
  have opens : opening (scan false i).1 = (ows i).takeWhile HeaderName.isTokenByte := by
    rw [← opening_append stops, ← split, opening]
  have front := optDirective_name (ows i)
  rw [← opens] at front
  split_ifs at front with none_
  · rw [none_, List.map_nil]
    refine ⟨fun found => ?_, fun same => absurd same.symm named⟩
    obtain ⟨d, found, -⟩ := found
    rw [found] at front
    cases front
  · obtain ⟨d, found, same⟩ := Option.map_eq_some_iff.mp front
    rw [← same]
    constructor
    · rintro ⟨d', found', lower⟩
      rw [found] at found'
      cases found'
      exact lower
    · exact fun lower => ⟨d, found, lower⟩

/-- Behind something that no element has, the parser has left the first element in its middle. -/
theorem not_wellFormed_of_left {i : List UInt8} {b : UInt8} {left : List UInt8}
    (stuck : ows (optDirective (ows i)).2 = b :: left) (comma : b ≠ 44) :
    ¬ WellFormed (scan false i).1 := by
  rintro ⟨d, element⟩
  obtain ⟨rest, split, stops⟩ := scan_split false i
  obtain ⟨trail, blank, taken⟩ := optDirective_complete element stops
  rw [← split] at taken
  rw [taken, ows_blank blank stops.solid] at stuck
  rw [stuck] at stops
  rcases stops with none_ | first
  · cases none_
  · exact comma (Option.some.inj first)

theorem visited_cons {first : Option Directive} {rest : List (Option Directive)}
    {P : Directive → Prop} : (∃ d, some d ∈ first :: rest ∧ P d) ↔
      (∃ d, first = some d ∧ P d) ∨ ∃ d, some d ∈ rest ∧ P d := by
  simp only [List.mem_cons, or_and_right, exists_or, eq_comm]

/-- The parser visits what is reached: it takes one element after the other, and a malformed one
ends the list. -/
theorem visits_iff {name : List UInt8} (named : name ≠ []) (fuel : Nat) (i : List UInt8)
    (enough : i.length ≤ fuel) : Visits fuel name i ↔ Reached name (elements i) := by
  induction fuel generalizing i with
  | zero =>
      obtain rfl := List.length_eq_zero_iff.mp (Nat.le_zero.mp enough)
      rw [elements, reached_cons, ← first_named named, Visits, directives, visited_cons, scan_nil]
      simp [not_reached_nil]
  | succ fuel ih =>
      obtain ⟨s, split, element⟩ := optDirective_sound i
      have cut := element.passes (ows (optDirective (ows i)).2)
      rw [← split] at cut
      rw [elements, reached_cons, ← first_named named]
      unfold Visits directives
      dsimp only
      split
      next j comma =>
        rw [comma, scan_comma, List.append_nil] at cut
        have shorter : j.length ≤ fuel := by
          have whole := congrArg List.length split
          rw [comma, List.length_append, List.length_cons] at whole
          omega
        have wellFormed : WellFormed s := ⟨_, element⟩
        have rest := ih j shorter
        unfold Visits at rest
        rw [visited_cons, rest, cut]
        simp only [wellFormed, true_and]
      next other =>
        have ends : ¬ (WellFormed (scan false i).1 ∧ Reached name (scan false i).2) := by
          rintro ⟨wellFormed, reached⟩
          cases left : ows (optDirective (ows i)).2 with
          | nil =>
              rw [left, scan_nil] at cut
              rw [cut] at reached
              exact not_reached_nil reached
          | cons b more =>
              refine not_wellFormed_of_left left ?_ wellFormed
              rintro rfl
              exact other more left
        rw [visited_cons]
        simp only [ends, List.not_mem_nil, false_and, exists_false]

/-! ## What a response's directives say -/

/-- The directives that need no argument to be understood. -/
inductive Flag where
  | noStore
  | noCache
  | isPrivate
  | mustRevalidate

def Flag.token : Flag → List UInt8
  | .noStore => ascii "no-store"
  | .noCache => ascii "no-cache"
  | .isPrivate => ascii "private"
  | .mustRevalidate => ascii "must-revalidate"

def Flag.of (d : ResponseDirectives) : Flag → Bool
  | .noStore => d.noStore
  | .noCache => d.noCache
  | .isPrivate => d.isPrivate
  | .mustRevalidate => d.mustRevalidate

theorem Flag.token_ne_nil (flag : Flag) : flag.token ≠ [] := by
  cases flag <;> decide

theorem Flag.of_add (flag : Flag) (out : ResponseDirectives) (d : Directive) :
    flag.of (out.add d) = (flag.of out || decide (d.name = flag.token)) := by
  have distinct := responseNames_distinct
  simp only [List.map_cons, List.nodup_cons, List.mem_cons, not_or] at distinct
  unfold ResponseDirectives.add
  cases flag <;> simp only [Flag.of, Flag.token] <;> grind

theorem Flag.of_foldl (flag : Flag) (ds : List Directive) (out : ResponseDirectives) :
    flag.of (ds.foldl ResponseDirectives.add out) =
      (flag.of out || ds.any fun d => decide (d.name = flag.token)) := by
  induction ds generalizing out with
  | nil => simp
  | cons d ds ih => rw [List.foldl_cons, ih, flag.of_add, List.any_cons, Bool.or_assoc]

/-- A flag is set by the elements that are reached. -/
theorem Flag.of_parse (flag : Flag) (headers : HeaderMap HeaderValue) :
    flag.of (ResponseDirectives.parse headers) = true ↔
      ∃ value ∈ headers.getAll cacheControl, Reached flag.token (elements value) := by
  have start : flag.of ⟨false, false, false, false, none⟩ = false := by cases flag <;> rfl
  rw [ResponseDirectives.parse, flag.of_foldl, start, Bool.false_or, List.any_eq_true]
  have visits : ∀ value, Reached flag.token (elements value) ↔
      ∃ d, some d ∈ directives value.length (ows value) ∧ d.name.map Bytes.toLower = flag.token :=
    fun value => (visits_iff flag.token_ne_nil value.length value (Nat.le_refl _)).symm
  simp only [visits, allDirectives, List.mem_flatMap, List.mem_filterMap, decide_eq_true_eq]
  constructor
  · rintro ⟨d, ⟨value, there, first, listed, lower⟩, same⟩
    obtain ⟨d', rfl, rfl⟩ := Option.map_eq_some_iff.mp lower
    exact ⟨value, there, d', listed, same⟩
  · rintro ⟨value, there, d, listed, same⟩
    exact ⟨{ d with name := d.name.map Bytes.toLower }, ⟨value, there, some d, listed, rfl⟩, same⟩

/-- Values whose elements are the same but for the empty ones. -/
def SameFilled (value value' : List UInt8) : Prop :=
  (elements value).filter (fun e => ¬ Blank e) = (elements value').filter fun e => ¬ Blank e

theorem opening_blank {e : List UInt8} (blank : Blank e) : opening e = [] := by
  have nothing : ows (e ++ []) = [] := ows_blank blank (by simp)
  rw [List.append_nil] at nothing
  rw [opening, nothing]
  rfl

/-- An empty element is passed over. -/
theorem reached_filter {name : List UInt8} (named : name ≠ []) (es : List (List UInt8)) :
    Reached name (es.filter fun e => ¬ Blank e) ↔ Reached name es := by
  induction es with
  | nil => rfl
  | cons e es ih =>
      by_cases blank : Blank e
      · have wellFormed : WellFormed e := ⟨none, .empty blank⟩
        have unnamed : (opening e).map Bytes.toLower ≠ name := by
          rw [opening_blank blank]
          exact fun same => named same.symm
        rw [List.filter_cons_of_neg (by simpa using blank), reached_cons, ih]
        simp only [unnamed, wellFormed, true_and, false_or]
      · rw [List.filter_cons_of_pos (by simpa using blank), reached_cons, reached_cons, ih]

/-- Whatever else a value holds, an element that is one of the four tokens sets its flag, and
empty elements make no difference. -/
structure ElementsCount (headers : HeaderMap HeaderValue) : Prop where
  sets : ∀ flag : Flag, (∃ value ∈ headers.getAll cacheControl, ∃ e ∈ elements value,
    Is flag.token e) → flag.of (ResponseDirectives.parse headers) = true
  emptySkipped : ∀ headers' : HeaderMap HeaderValue,
    List.Forall₂ SameFilled (headers.getAll cacheControl) (headers'.getAll cacheControl) →
      ∀ flag : Flag, flag.of (ResponseDirectives.parse headers') =
        flag.of (ResponseDirectives.parse headers)

theorem emptySkipped {headers headers' : HeaderMap HeaderValue}
    (same : List.Forall₂ SameFilled (headers.getAll cacheControl) (headers'.getAll cacheControl))
    (flag : Flag) : flag.of (ResponseDirectives.parse headers') =
      flag.of (ResponseDirectives.parse headers) := by
  rw [Bool.eq_iff_iff, flag.of_parse, flag.of_parse]
  generalize headers.getAll cacheControl = values at same
  generalize headers'.getAll cacheControl = values' at same
  induction same with
  | nil => rfl
  | @cons value value' _ _ filled _ ih =>
      have first := reached_filter flag.token_ne_nil (elements value)
      have first' := reached_filter flag.token_ne_nil (elements value')
      rw [List.exists_mem_cons_iff, List.exists_mem_cons_iff, ih, ← first, ← first', filled]

/-- Every element counts exactly where none that is one of the four tokens stands behind a
malformed one, unless the token opens an element that does not. -/
theorem elementsCount_iff (headers : HeaderMap HeaderValue) :
    ElementsCount headers ↔ ∀ flag : Flag,
      (∃ value ∈ headers.getAll cacheControl, ∃ e ∈ elements value, Is flag.token e) →
        ∃ value ∈ headers.getAll cacheControl, Reached flag.token (elements value) := by
  constructor
  · intro count flag there
    exact (flag.of_parse headers).mp (count.sets flag there)
  · intro reached
    exact ⟨fun flag there => (flag.of_parse headers).mpr (reached flag there),
      fun headers' same flag => emptySkipped same flag⟩

/-- `max-age=@, no-store` -/
def hidingValue : HeaderValue := .ofAscii "max-age=@, no-store"

/-- A `max-age` with a stray byte hides the `no-store` behind it. -/
theorem malformed_hides_noStore :
    elements hidingValue = [ascii "max-age=@", ascii " no-store"] ∧
      Is Flag.noStore.token (ascii " no-store") ∧
      (ResponseDirectives.parse [(cacheControl, hidingValue)]).noStore = false ∧
      ¬ ElementsCount [(cacheControl, hidingValue)] := by
  have written : ascii " no-store" = [32] ++ (ascii "no-store" ++ []) := by decide +kernel
  have element : Element (some ⟨ascii "no-store", none⟩) (ascii " no-store") := by
    rw [written]
    exact .bare (by decide +kernel) (by decide +kernel) (by decide +kernel)
  have isNoStore : Is Flag.noStore.token (ascii " no-store") :=
    ⟨_, element, by decide +kernel⟩
  have cut : elements hidingValue = [ascii "max-age=@", ascii " no-store"] := by decide +kernel
  have unset : (ResponseDirectives.parse [(cacheControl, hidingValue)]).noStore = false := by
    decide +kernel
  refine ⟨cut, isNoStore, unset, fun count => ?_⟩
  have set := count.sets .noStore
    ⟨hidingValue, by decide +kernel, ascii " no-store", by rw [cut]; simp, isNoStore⟩
  exact absurd (unset.symm.trans set) (by decide)

end HClient.Cache
