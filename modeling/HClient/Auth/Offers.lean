import HClient.Auth.Digest
import HClient.Core.Trimming
import HClient.Hsts.Directives

/-!
# The challenges of a field value

RFC 9110's grammar of `WWW-Authenticate` as relations between a text and what is offered by it, on
the two levels of the rule and laid out as one row of elements. The parser reads the same where no
empty element stands in front of another.
-/
namespace HClient.Digest

open Reading
open HClient.Field (token ows isTokenChar quotedString)
open Hsts (Blank IsToken Written ows_split ows_solid ows_blank blank_not_token token_sound token_complete
  token_none value_sound value_complete written_solid)

/-! ## The grammar -/

/-- `OWS "," OWS`. -/
inductive Separator : Text → Prop where
  | comma {before after : Text} : Blank before → Blank after → Separator (before ++ ',' :: after)

/-- `*( OWS "," OWS [ element ] )`. -/
inductive Tail {α : Type} (written : α → Text → Prop) : List α → Text → Prop where
  | done : Tail written [] []
  | empty {as : List α} {s t : Text} : Separator s → Tail written as t → Tail written as (s ++ t)
  | element {a : α} {as : List α} {s e t : Text} : Separator s → written a e → Tail written as t →
      Tail written (a :: as) (s ++ (e ++ t))

/-- `#element` as a recipient takes it. -/
inductive Listed {α : Type} (written : α → Text → Prop) : List α → Text → Prop where
  | empty {as : List α} {t : Text} : Tail written as t → Listed written as t
  | element {a : α} {as : List α} {e t : Text} : written a e → Tail written as t →
      Listed written (a :: as) (e ++ t)

/-- `token BWS "=" BWS ( token / quoted-string )`. -/
inductive ParamWritten : Param → Text → Prop where
  | mk {name before after value written : Text} : IsToken name → Blank before → Blank after →
      Written value written →
      ParamWritten (name.toAsciiLowercase, value) (name ++ (before ++ '=' :: (after ++ written)))

theorem isToken_of_all {s : Text} (all : (s ≠ [] && s.all isTokenChar) = true) : IsToken s := by
  simpa [IsToken] using all

theorem ParamWritten.quoted {name value written : Text} (isToken : IsToken name)
    (escaped : Hsts.Escaped value written) :
    ParamWritten (name.toAsciiLowercase, value) (name ++ '=' :: '"' :: (written ++ ['"'])) :=
  @ParamWritten.mk name [] [] value _ isToken nofun nofun (.quoted escaped)

/-- `1*SP`. -/
def Spaces (s : Text) : Prop := s ≠ [] ∧ ∀ c ∈ s, c = ' '

inductive Token68 : Text → Prop where
  | mk {body padding : Text} : body ≠ [] → (∀ c ∈ body, isToken68Char c = true) →
      (∀ c ∈ padding, c = '=') → Token68 (body ++ padding)

/-- `auth-scheme [ 1*SP ( token68 / #auth-param ) ]`. -/
inductive OfferWritten : Offer → Text → Prop where
  | alone {scheme : Text} : IsToken scheme → OfferWritten (scheme.toAsciiLowercase, []) scheme
  | token68 {scheme gap s : Text} : IsToken scheme → Spaces gap → Token68 s →
      OfferWritten (scheme.toAsciiLowercase, []) (scheme ++ (gap ++ s))
  | params {scheme gap s : Text} {ps : List Param} : IsToken scheme → Spaces gap →
      Listed ParamWritten ps s →
      OfferWritten (scheme.toAsciiLowercase, ps) (scheme ++ (gap ++ s))

/-! ## One row of elements

Both lists are cut at the same commas, so a value is a row of elements: empty ones, parameters of
the offer before, and openings of offers. With `gaps` an empty element may stand anywhere; without,
only where nothing but empty ones follows. -/

/-- A scheme and what stands before the next comma, and whether parameters may follow. -/
inductive Opening (gaps : Bool) : Offer → Bool → Text → Prop where
  | alone {scheme : Text} : IsToken scheme → Opening gaps (scheme.toAsciiLowercase, []) false scheme
  | token68 {scheme gap s : Text} : IsToken scheme → Spaces gap → Token68 s →
      Opening gaps (scheme.toAsciiLowercase, []) false (scheme ++ (gap ++ s))
  | param {scheme gap s : Text} {p : Param} : IsToken scheme → Spaces gap → ParamWritten p s →
      Opening gaps (scheme.toAsciiLowercase, [p]) true (scheme ++ (gap ++ s))
  -- The first parameter is left out.
  | bare {scheme gap : Text} : gaps = true → IsToken scheme → Spaces gap →
      Opening gaps (scheme.toAsciiLowercase, []) true (scheme ++ gap)

/-- What stands behind an element: parameters of its offer, where it takes any, and offers. -/
inductive Rest (gaps : Bool) : Bool → List Param → List Offer → Text → Prop where
  | done {open_ : Bool} {trail : Text} : Blank trail → Rest gaps open_ [] [] trail
  | empty {open_ : Bool} {ps : List Param} {cs : List Offer} {s t : Text} : Separator s →
      (gaps = true ∨ (ps = [] ∧ cs = [])) → Rest gaps open_ ps cs t →
      Rest gaps open_ ps cs (s ++ t)
  | param {p : Param} {ps : List Param} {cs : List Offer} {s e t : Text} : Separator s →
      ParamWritten p e → Rest gaps true ps cs t → Rest gaps true (p :: ps) cs (s ++ (e ++ t))
  | offer {open_ next : Bool} {c : Offer} {ps : List Param} {cs : List Offer} {s e t : Text} :
      Separator s → Opening gaps c next e → Rest gaps next ps cs t →
      Rest gaps open_ [] ((c.1, c.2 ++ ps) :: cs) (s ++ (e ++ t))

/-- A whole value. -/
inductive Row (gaps : Bool) : List Offer → Text → Prop where
  | empty {cs : List Offer} {t : Text} : (gaps = true ∨ cs = []) → Rest gaps false [] cs t →
      Row gaps cs t
  | offer {open_ : Bool} {c : Offer} {ps : List Param} {cs : List Offer} {e t : Text} :
      Opening gaps c open_ e → Rest gaps open_ ps cs t →
      Row gaps ((c.1, c.2 ++ ps) :: cs) (e ++ t)

/-- The value writes these offers, and no empty element stands in front of another. -/
def Dense (cs : List Offer) (s : Text) : Prop := Row false cs s

theorem rest_params {ps : List Param} {cs : List Offer} {s t : Text} (inner : Tail ParamWritten ps s)
    (outer : ∀ open_, Rest true open_ [] cs t) : Rest true true ps cs (s ++ t) := by
  induction inner with
  | done => exact outer true
  | empty sep _ ih =>
      rw [List.append_assoc]
      exact .empty sep (.inl rfl) ih
  | element sep written _ ih =>
      rw [List.append_assoc, List.append_assoc]
      exact .param sep written ih

/-- An offer on its own level is an opening and the parameters behind it. -/
theorem OfferWritten.opening {c : Offer} {cs : List Offer} {e t : Text} (written : OfferWritten c e)
    (outer : ∀ open_, Rest true open_ [] cs t) : ∃ first next ps front behind,
      e ++ t = front ++ behind ∧ c = (first.1, first.2 ++ ps) ∧ Opening true first next front ∧
        Rest true next ps cs behind := by
  cases written with
  | alone scheme => exact ⟨_, _, [], _, t, rfl, rfl, .alone scheme, outer false⟩
  | token68 scheme gap token68 =>
      exact ⟨_, _, [], _, t, rfl, rfl, .token68 scheme gap token68, outer false⟩
  | params scheme gap listed =>
      cases listed with
      | empty tail =>
          refine ⟨_, _, _, _, _, ?_, rfl, .bare rfl scheme gap, rest_params tail outer⟩
          simp only [List.append_assoc]
      | element written tail =>
          refine ⟨_, _, _, _, _, ?_, rfl, .param scheme gap written, rest_params tail outer⟩
          simp only [List.append_assoc]

theorem rest_offers {cs : List Offer} {s : Text} (tail : Tail OfferWritten cs s) (open_ : Bool) :
    Rest true open_ [] cs s := by
  induction tail generalizing open_ with
  | done => exact .done (by intro c member; cases member)
  | empty sep _ ih => exact .empty sep (.inl rfl) (ih open_)
  | element sep written _ ih =>
      obtain ⟨first, next, ps, front, behind, same, rfl, opening, rest⟩ := written.opening ih
      rw [same]
      exact .offer sep opening rest

/-- The two levels of the rule make one row. -/
theorem row_of_listed {cs : List Offer} {s : Text} (listed : Listed OfferWritten cs s) :
    Row true cs s := by
  cases listed with
  | empty tail => exact .empty (.inl rfl) (rest_offers tail false)
  | element written tail =>
      obtain ⟨first, next, ps, front, behind, same, rfl, opening, rest⟩ :=
        written.opening (rest_offers tail)
      rw [same]
      exact .offer opening rest

/-! ## Where an element ends -/

section
variable {c : Char} {s t e : Text}

/-- The end, or a comma with blanks before it. -/
def Ends (t : Text) : Prop := ∀ c ∈ (ows t).head?, c = ','

theorem ows_append (blank : Blank s) (t : Text) : ows (s ++ t) = ows t := by
  unfold ows
  rw [List.dropWhile_append_of_pos fun c member => decide_eq_true (blank c member)]

theorem ows_of_solid (solid : ∀ c ∈ t.head?, ¬ (c = ' ' ∨ c = '\t')) : ows t = t :=
  ows_blank (s := []) (by intro c member; cases member) solid

/-- A text begins with a blank or with what is left without the blanks. -/
theorem head_ows {c : Char} (there : c ∈ t.head?) : (c = ' ' ∨ c = '\t') ∨ c ∈ (ows t).head? := by
  by_cases blank : c = ' ' ∨ c = '\t'
  · exact .inl blank
  · right
    rw [ows_of_solid]
    · exact there
    · intro d first
      rw [Option.mem_unique first there]
      exact blank

theorem ows_ows (t : Text) : ows (ows t) = ows t := ows_of_solid (ows_solid t)

theorem ends_blank (blank : Blank t) : Ends t := by
  intro c there
  have nothing : ows t = [] := by
    rw [← List.append_nil t, ows_append blank]
    rfl
  rw [nothing] at there
  cases there

theorem Separator.ends (sep : Separator s) (t : Text) : Ends (s ++ t) := by
  cases sep with
  | comma before after =>
      intro c there
      rw [List.append_assoc, ows_append before, List.cons_append, ows_of_solid] at there
      · exact (Option.some.inj there).symm
      · intro d first
        cases first
        decide

theorem Ends.append (ends : Ends t) (blank : Blank s) : Ends (s ++ t) := by
  intro c there
  rw [ows_append blank] at there
  exact ends c there

theorem Ends.head (ends : Ends t) : ∀ c ∈ t.head?, c = ' ' ∨ c = '\t' ∨ c = ',' := by
  intro c there
  rw [← or_assoc]
  exact (head_ows there).imp_right (ends c)

theorem Ends.not_token (ends : Ends t) : ∀ c ∈ t.head?, isTokenChar c = false := by
  intro c there
  rcases ends.head c there with rfl | rfl | rfl <;> decide

theorem Ends.not_token68 (ends : Ends t) : ∀ c ∈ t.head?, isToken68Char c = false := by
  intro c there
  rcases ends.head c there with rfl | rfl | rfl <;> decide

theorem Rest.ends {gaps open_ : Bool} {ps : List Param} {cs : List Offer}
    (rest : Rest gaps open_ ps cs t) : Ends t := by
  cases rest with
  | done blank => exact ends_blank blank
  | empty sep _ _ => exact sep.ends _
  | param sep _ _ => exact sep.ends _
  | offer sep _ _ => exact sep.ends _

/-! ## What the parser takes of an element -/

theorem separator_append (sep : Separator s) (t : Text) : separator (s ++ t) = some (ows t) := by
  cases sep with
  | @comma before after blank blank' =>
      have comma : ∀ c ∈ (',' :: (after ++ t)).head?, ¬ (c = ' ' ∨ c = '\t') :=
        Runs.forall_head (by decide)
      rw [separator, List.append_assoc, List.cons_append, ows_blank blank comma]
      simp only [ows_append blank']

theorem separator_blank (blank : Blank s) (t : Text) : separator (s ++ t) = separator t := by
  rw [separator, ows_append blank, separator]

theorem separator_nil : separator [] = none := rfl

/-- What begins as neither kind of value. -/
theorem value_none (other : ∀ c ∈ t.head?, c ≠ '"' ∧ isTokenChar c = false) :
    (quotedString t <|> token t) = none := by
  have unquoted : quotedString t = none := by
    unfold quotedString
    split
    · exact absurd rfl (other '"' rfl).1
    · rfl
  rw [unquoted, token_none fun c there => (other c there).2]
  rfl

theorem authParam_complete {p : Param} (written : ParamWritten p e) (ends : Ends t) :
    authParam (e ++ t) = some (p, t) := by
  cases written with
  | @mk name before after value written isToken blank blank' wrote =>
      have equals : ∀ c ∈ ('=' :: (after ++ (written ++ t))).head?, ¬ (c = ' ' ∨ c = '\t') :=
        Runs.forall_head (by decide)
      have stops : ∀ c ∈ (before ++ '=' :: (after ++ (written ++ t))).head?,
          isTokenChar c = false := blank_not_token blank (Runs.forall_head (by decide))
      simp only [authParam, List.append_assoc, List.cons_append, token_complete isToken stops,
        ows_blank blank equals, ows_blank blank' (written_solid wrote t),
        value_complete wrote ends.not_token]
      rfl

/-- A token with no sign behind it is no parameter. -/
theorem authParam_other {name : Text} (isToken : IsToken name)
    (stops : ∀ c ∈ t.head?, isTokenChar c = false) (other : ∀ c ∈ (ows t).head?, c ≠ '=') :
    authParam (name ++ t) = none := by
  simp only [authParam, token_complete isToken stops]
  split
  next rest equals =>
    rw [equals] at other
    exact absurd rfl (other '=' rfl)
  · rfl

theorem authParam_none (stops : ∀ c ∈ t.head?, isTokenChar c = false) : authParam t = none := by
  rw [authParam, token_none stops]

theorem Ends.not_equals (ends : Ends t) : ∀ c ∈ (ows t).head?, c ≠ '=' := by
  intro c there
  rw [ends c there]
  decide

theorem Ends.authParam_ows (ends : Ends t) : authParam (ows t) = none := by
  apply authParam_none
  intro c there
  rw [ends c there]
  decide

theorem token68_solid (isToken68 : Token68 s) (t : Text) :
    ∀ c ∈ (s ++ t).head?, isToken68Char c = true := by
  cases isToken68 with
  | mk some_ body padding =>
      rw [List.append_assoc]
      exact Runs.forall_head_append some_ body _

/-- Padding is no parameter: there is no value behind its first sign, or a second sign. -/
theorem authParam_padding {padding : Text} (signs : ∀ c ∈ padding, c = '=') (ends : Ends t)
    {name : Text} (isToken : IsToken name) : authParam (name ++ (padding ++ t)) = none := by
  cases padding with
  | nil => exact authParam_other isToken ends.not_token ends.not_equals
  | cons c padding =>
      obtain rfl := signs c List.mem_cons_self
      have stops : ∀ c ∈ ('=' :: (padding ++ t)).head?, isTokenChar c = false :=
        Runs.forall_head (by decide)
      have sign : ows ('=' :: (padding ++ t)) = '=' :: (padding ++ t) := by
        exact ows_of_solid (Runs.forall_head (by decide))
      have behind : ∀ c ∈ (ows (padding ++ t)).head?, c ≠ '"' ∧ isTokenChar c = false := by
        cases padding with
        | nil =>
            intro c there
            rw [List.nil_append] at there
            rw [ends c there]
            decide
        | cons d padding =>
            obtain rfl := signs d (List.mem_cons_of_mem _ List.mem_cons_self)
            intro c there
            rw [List.cons_append, ows_of_solid] at there
            · cases there
              decide
            · intro d first
              cases first
              decide
      simp only [List.cons_append, authParam, token_complete isToken stops, sign, value_none behind]
      rfl

theorem authParam_token68 (isToken68 : Token68 s) (ends : Ends t) : authParam (s ++ t) = none := by
  cases isToken68 with
  | @mk body padding some_ chars signs =>
      have split := List.takeWhile_append_dropWhile (p := isTokenChar) (l := body)
      by_cases nameless : body.takeWhile isTokenChar = []
      · obtain ⟨c, rest, rfl⟩ := List.exists_cons_of_ne_nil some_
        have first : isTokenChar c = false := by
          cases named : isTokenChar c with
          | false => rfl
          | true =>
              rw [List.takeWhile_cons_of_pos named] at nameless
              cases nameless
        apply authParam_none
        intro d there
        cases there
        exact first
      · have isToken : IsToken (body.takeWhile isTokenChar) :=
          ⟨nameless, fun c member => List.mem_takeWhile_imp member⟩
        cases more : body.dropWhile isTokenChar with
        | nil =>
            rw [more, List.append_nil] at split
            rw [split] at isToken
            rw [List.append_assoc]
            exact authParam_padding signs ends isToken
        | cons c rest =>
            -- the character that ends the token is a slash
            have stop : isTokenChar c = false :=
              Runs.dropWhile_ends isTokenChar body c (by rw [more]; rfl)
            have member : c ∈ body := by
              rw [← split, more]
              exact List.mem_append_right _ List.mem_cons_self
            have char := chars c member
            rw [← split, more, List.append_assoc, List.append_assoc]
            apply authParam_other isToken
            · intro d first
              cases first
              exact stop
            · rw [List.cons_append, ows_of_solid]
              · intro d first
                cases first
                rintro rfl
                exact absurd char (by decide)
              · intro d first
                cases first
                rintro (rfl | rfl) <;> exact absurd char (by decide)

theorem token68_complete (isToken68 : Token68 s) (ends : Ends t) : token68 (s ++ t) = some t := by
  cases isToken68 with
  | @mk body padding some_ chars signs =>
      have stops : ∀ c ∈ (padding ++ t).head?, isToken68Char c = false := by
        cases padding with
        | nil => exact ends.not_token68
        | cons c padding =>
            intro d first
            cases first
            rw [signs c List.mem_cons_self]
            decide
      have unpadded : ∀ c ∈ t.head?, decide (c = '=') = false := by
        intro c there
        rcases ends.head c there with rfl | rfl | rfl <;> decide
      rw [token68, List.append_assoc, Runs.takeWhile_run chars stops, if_neg some_,
        Runs.dropWhile_run chars stops,
        Runs.dropWhile_run (fun c member => decide_eq_true (signs c member)) unpadded]

theorem Ends.token68_ows (ends : Ends t) : token68 (ows t) = none := by
  have stops : ∀ c ∈ (ows t).head?, isToken68Char c = false := by
    intro c there
    rw [ends c there]
    decide
  cases same : ows t with
  | nil => rfl
  | cons c rest =>
      rw [same] at stops
      rw [token68, List.takeWhile_cons_of_neg (by simp [stops c rfl]), if_pos rfl]

theorem Spaces.blank (spaces : Spaces s) : Blank s := fun c member => .inl (spaces.2 c member)

theorem Spaces.not_token (spaces : Spaces s) (t : Text) :
    ∀ c ∈ (s ++ t).head?, isTokenChar c = false := by
  refine Runs.forall_head_append spaces.1 ?_ t
  intro c member
  rw [spaces.2 c member]
  decide

theorem space1_spaces (spaces : Spaces s) (solid : ∀ c ∈ t.head?, ¬ (c = ' ' ∨ c = '\t')) :
    space1 (s ++ t) = some t := by
  have run : ∀ c ∈ s, isSpace c = true := fun c member => decide_eq_true (spaces.blank c member)
  have ends : ∀ c ∈ t.head?, isSpace c = false := fun c there => decide_eq_false (solid c there)
  rw [space1, Runs.takeWhile_run run ends, if_neg spaces.1, Runs.dropWhile_run run ends]

theorem param_solid {p : Param} (written : ParamWritten p e) (t : Text) :
    ∀ c ∈ (e ++ t).head?, isTokenChar c = true := by
  cases written with
  | mk isToken _ _ _ =>
      rw [List.append_assoc]
      exact Runs.forall_head_append isToken.1 isToken.2 _

theorem not_blank_of_token (first : ∀ c ∈ t.head?, isTokenChar c = true) :
    ∀ c ∈ t.head?, ¬ (c = ' ' ∨ c = '\t') := by
  intro c there
  rintro (rfl | rfl) <;> exact absurd (first _ there) (by decide)

theorem not_blank_of_token68 (first : ∀ c ∈ t.head?, isToken68Char c = true) :
    ∀ c ∈ t.head?, ¬ (c = ' ' ∨ c = '\t') := by
  intro c there
  rintro (rfl | rfl) <;> exact absurd (first _ there) (by decide)

/-- Where an offer opens there is no parameter. -/
theorem Opening.not_param {gaps next : Bool} {c : Offer} (opening : Opening gaps c next e)
    (ends : Ends t) : authParam (e ++ t) = none := by
  cases opening with
  | alone scheme => exact authParam_other scheme ends.not_token ends.not_equals
  | token68 scheme gap isToken68 =>
      rw [List.append_assoc, List.append_assoc]
      apply authParam_other scheme (gap.not_token _)
      rw [ows_blank gap.blank (not_blank_of_token68 (token68_solid isToken68 t))]
      intro c there
      rintro rfl
      exact absurd (token68_solid isToken68 t _ there) (by decide)
  | param scheme gap written =>
      rw [List.append_assoc, List.append_assoc]
      apply authParam_other scheme (gap.not_token _)
      rw [ows_blank gap.blank (not_blank_of_token (param_solid written t))]
      intro c there
      rintro rfl
      exact absurd (param_solid written t _ there) (by decide)
  | bare _ scheme gap =>
      rw [List.append_assoc]
      exact authParam_other scheme (gap.not_token t) (ends.append gap.blank).not_equals

/-! ## What the parser takes of a row -/

def nextParam (i : Text) : Option (Param × Text) := (separator i).bind authParam

def nextOffer (i : Text) : Option (Offer × Text) := (separator i).bind challenge

/-- What the two lists take behind an element, where the list of parameters has begun or not. -/
def readRest (open_ : Bool) (t : Text) : List Param × List Offer :=
  if open_ then ((many nextParam t).1, (many nextOffer (many nextParam t).2).1)
  else ([], (many nextOffer t).1)

theorem ows_suffix (i : Text) : ows i <:+ i := List.dropWhile_suffix _

theorem token_suffix {i rest name : Text} (taken : token i = some (name, rest)) : rest <:+ i :=
  ⟨name, (token_sound taken).1.symm⟩

theorem separator_shrinks {i rest : Text} (taken : separator i = some rest) :
    rest.length < i.length := by
  unfold separator at taken
  split at taken
  next behind comma =>
    cases taken
    have inside := (ows_suffix i).length_le
    have after := (ows_suffix behind).length_le
    rw [comma, List.length_cons] at inside
    omega
  · cases taken

theorem authParam_suffix {i rest : Text} {p : Param} (taken : authParam i = some (p, rest)) :
    rest <:+ i := by
  unfold authParam at taken
  split at taken
  next name j named =>
    split at taken
    next k equals =>
      obtain ⟨⟨value, left⟩, read, same⟩ := Option.map_eq_some_iff.mp taken
      cases same
      obtain ⟨written, split, -⟩ := value_sound read
      have behind : k <:+ j := (List.suffix_cons '=' k).trans (equals ▸ ows_suffix j)
      exact (List.IsSuffix.trans ⟨written, split.symm⟩ (ows_suffix k)).trans
        (behind.trans (token_suffix named))
    · cases taken
  · cases taken

theorem many_suffix {α : Type} {p : Text → Option (α × Text)}
    (suffix : ∀ i a rest, p i = some (a, rest) → rest <:+ i) (i : Text) : (many p i).2 <:+ i := by
  have sound : Sound p fun _ _ => True := by
    intro i a rest taken
    obtain ⟨s, same⟩ := suffix i a rest taken
    exact ⟨s, same.symm, trivial⟩
  obtain ⟨s, same, -⟩ := many_sound sound (rfl : many p i = ((many p i).1, (many p i).2))
  exact ⟨s, same.symm⟩

theorem next_suffix {α : Type} {p : Text → Option (α × Text)}
    (suffix : ∀ i a rest, p i = some (a, rest) → rest <:+ i) {i rest : Text} {a : α}
    (taken : (separator i).bind p = some (a, rest)) : ∃ j, separator i = some j ∧ rest <:+ j := by
  obtain ⟨j, found, read⟩ := Option.bind_eq_some_iff.mp taken
  exact ⟨j, found, suffix j a rest read⟩

theorem separator_suffix {i rest : Text} (taken : separator i = some rest) : rest <:+ i := by
  unfold separator at taken
  split at taken
  next behind comma =>
    cases taken
    exact (ows_suffix behind).trans ((List.suffix_cons ',' behind).trans (comma ▸ ows_suffix i))
  · cases taken

theorem next_shrinks {α : Type} {p : Text → Option (α × Text)}
    (suffix : ∀ i a rest, p i = some (a, rest) → rest <:+ i) :
    Shrinks fun i => (separator i).bind p := by
  intro i a rest taken
  obtain ⟨j, found, behind⟩ := next_suffix suffix taken
  exact Nat.lt_of_le_of_lt behind.length_le (separator_shrinks found)

theorem nextParam_shrinks : Shrinks nextParam := next_shrinks fun _ _ _ => authParam_suffix

theorem separated1_suffix {α : Type} {p : Text → Option (α × Text)}
    (suffix : ∀ i a rest, p i = some (a, rest) → rest <:+ i) {i rest : Text} {as : List α}
    (taken : separated1 p i = some (as, rest)) : rest <:+ i := by
  obtain ⟨⟨a, j⟩, first, same⟩ := Option.map_eq_some_iff.mp taken
  cases same
  refine (many_suffix ?_ j).trans (suffix i a j first)
  intro i a rest next
  obtain ⟨j, found, behind⟩ := next_suffix suffix next
  exact behind.trans (separator_suffix found)

theorem params_suffix {i rest : Text} {ps : List Param} (taken : params i = some (ps, rest)) :
    rest <:+ i := by
  obtain ⟨j, spaces, read⟩ := Option.bind_eq_some_iff.mp taken
  have behind : j <:+ i := by
    unfold space1 at spaces
    split at spaces
    · cases spaces
    · cases spaces
      exact List.dropWhile_suffix _
  cases listed : separated1 authParam j with
  | some found =>
      rw [listed] at read
      have same : some found = some (ps, rest) := read
      cases same
      exact (separated1_suffix (fun _ _ _ => authParam_suffix) listed).trans behind
  | none =>
      rw [listed] at read
      obtain ⟨k, skipped, same⟩ := Option.map_eq_some_iff.mp read
      cases same
      unfold token68 at skipped
      split at skipped
      · cases skipped
      · cases skipped
        exact ((List.dropWhile_suffix _).trans (List.dropWhile_suffix _)).trans behind

theorem challenge_token {i scheme j : Text} (named : token i = some (scheme, j)) :
    challenge i = some ((scheme.toAsciiLowercase, ((params j).getD ([], j)).1),
      ((params j).getD ([], j)).2) := by
  rw [challenge, named]
  rfl

theorem challenge_suffix {i rest : Text} {c : Offer} (taken : challenge i = some (c, rest)) :
    rest <:+ i := by
  cases named : token i with
  | none =>
      rw [challenge, named] at taken
      cases taken
  | some scheme =>
      rw [challenge_token named] at taken
      cases taken
      cases read : params scheme.2 with
      | none => exact token_suffix named
      | some found => exact (params_suffix read).trans (token_suffix named)

theorem nextOffer_shrinks : Shrinks nextOffer := next_shrinks fun _ _ _ => challenge_suffix

/-- The blanks behind a scheme are not taken where no parameter follows them. -/
theorem Ends.params (ends : Ends t) : params t = none := by
  unfold HClient.Digest.params space1
  split
  · rfl
  · have listed : separated1 authParam (ows t) = none := by
      rw [separated1, ends.authParam_ows]
      rfl
    have behind : t.dropWhile isSpace = ows t := rfl
    rw [Option.bind_some, behind, listed, ends.token68_ows]
    rfl

theorem challenge_alone {scheme : Text} (isToken : IsToken scheme) (ends : Ends t) :
    challenge (scheme ++ t) = some ((scheme.toAsciiLowercase, []), t) := by
  rw [challenge_token (token_complete isToken ends.not_token), ends.params]
  rfl

theorem challenge_token68 {scheme gap : Text} (isToken : IsToken scheme) (spaces : Spaces gap)
    (isToken68 : Token68 s) (ends : Ends t) :
    challenge (scheme ++ (gap ++ (s ++ t))) = some ((scheme.toAsciiLowercase, []), t) := by
  have listed : separated1 authParam (s ++ t) = none := by
    rw [separated1, authParam_token68 isToken68 ends]
    rfl
  have read : params (gap ++ (s ++ t)) = some ([], t) := by
    rw [params, space1_spaces spaces (not_blank_of_token68 (token68_solid isToken68 t)),
      Option.bind_some, listed, token68_complete isToken68 ends]
    rfl
  rw [challenge_token (token_complete isToken (spaces.not_token _)), read]
  rfl

theorem challenge_param {scheme gap : Text} {p : Param} (isToken : IsToken scheme)
    (spaces : Spaces gap) (written : ParamWritten p s) (ends : Ends t) :
    challenge (scheme ++ (gap ++ (s ++ t))) =
      some ((scheme.toAsciiLowercase, p :: (many nextParam t).1), (many nextParam t).2) := by
  have listed : separated1 authParam (s ++ t) =
      some (p :: (many nextParam t).1, (many nextParam t).2) := by
    rw [separated1, authParam_complete written ends]
    rfl
  have read : params (gap ++ (s ++ t)) = some (p :: (many nextParam t).1, (many nextParam t).2) := by
    rw [params, space1_spaces spaces (not_blank_of_token (param_solid written t)),
      Option.bind_some, listed]
    rfl
  rw [challenge_token (token_complete isToken (spaces.not_token _)), read]
  rfl

theorem Ends.challenge_none (ends : Ends t) : challenge t = none := by
  rw [challenge, token_none ends.not_token]
  rfl

/-- An offer whose first parameter is not left out is taken with the parameters behind it. -/
theorem Opening.challenge {next : Bool} {c : Offer} (opening : Opening false c next e)
    (ends : Ends t) : ∃ left, challenge (e ++ t) = some ((c.1, c.2 ++ (readRest next t).1), left) ∧
      (many nextOffer left).1 = (readRest next t).2 := by
  cases opening with
  | alone scheme => exact ⟨t, challenge_alone scheme ends, rfl⟩
  | token68 scheme gap isToken68 =>
      rw [List.append_assoc, List.append_assoc]
      exact ⟨t, challenge_token68 scheme gap isToken68 ends, rfl⟩
  | param scheme gap written =>
      rw [List.append_assoc, List.append_assoc]
      exact ⟨_, challenge_param scheme gap written ends, rfl⟩
  | bare gaps _ _ => cases gaps

theorem many_nextOffer {i left : Text} {c : Offer} (taken : nextOffer i = some (c, left)) :
    (many nextOffer i).1 = c :: (many nextOffer left).1 := by
  rw [many_some nextOffer_shrinks taken]

/-! ## One step of a row -/

theorem readRest_of_none {open_ : Bool} (none_ : nextParam t = none) :
    readRest open_ t = readRest false t := by
  cases open_ with
  | false => rfl
  | true => rw [readRest, if_pos rfl, many_none none_, readRest, if_neg Bool.false_ne_true]

theorem readRest_done (open_ : Bool) (blank : Blank t) : readRest open_ t = ([], []) := by
  have nothing : separator t = none := by
    rw [← List.append_nil t, separator_blank blank, separator_nil]
  have noParam : nextParam t = none := by rw [nextParam, nothing, Option.bind_none]
  have noOffer : nextOffer t = none := by rw [nextOffer, nothing, Option.bind_none]
  rw [readRest_of_none noParam, readRest, if_neg Bool.false_ne_true, many_none noOffer]

theorem nextParam_empty (sep : Separator s) (ends : Ends t) : nextParam (s ++ t) = none := by
  rw [nextParam, separator_append sep, Option.bind_some, ends.authParam_ows]

/-- Nothing is read behind an empty element. -/
theorem readRest_empty (open_ : Bool) (sep : Separator s) (ends : Ends t) :
    readRest open_ (s ++ t) = ([], []) := by
  have ends' : Ends (ows t) := by
    intro c there
    rw [ows_ows] at there
    exact ends c there
  have noOffer : nextOffer (s ++ t) = none := by
    rw [nextOffer, separator_append sep, Option.bind_some, ends'.challenge_none]
  rw [readRest_of_none (nextParam_empty sep ends), readRest, if_neg Bool.false_ne_true,
    many_none noOffer]

theorem readRest_param {p : Param} (sep : Separator s) (written : ParamWritten p e) (ends : Ends t) :
    readRest true (s ++ (e ++ t)) = (p :: (readRest true t).1, (readRest true t).2) := by
  have taken : nextParam (s ++ (e ++ t)) = some (p, t) := by
    rw [nextParam, separator_append sep, Option.bind_some,
      ows_of_solid (not_blank_of_token (param_solid written t)), authParam_complete written ends]
  rw [readRest, if_pos rfl, many_some nextParam_shrinks taken, readRest, if_pos rfl]

theorem Opening.solid {gaps next : Bool} {c : Offer} (opening : Opening gaps c next e) (t : Text) :
    ∀ c ∈ (e ++ t).head?, ¬ (c = ' ' ∨ c = '\t') := by
  have first {scheme : Text} (isToken : IsToken scheme) (more : Text) :
      ∀ c ∈ (scheme ++ more).head?, isTokenChar c = true :=
    Runs.forall_head_append isToken.1 isToken.2 more
  apply not_blank_of_token
  cases opening with
  | alone scheme => exact first scheme t
  | token68 scheme _ _ =>
      rw [List.append_assoc]
      exact first scheme _
  | param scheme _ _ =>
      rw [List.append_assoc]
      exact first scheme _
  | bare _ scheme _ =>
      rw [List.append_assoc]
      exact first scheme _

theorem nextParam_opening {gaps next : Bool} {c : Offer} (sep : Separator s)
    (opening : Opening gaps c next e) (ends : Ends t) : nextParam (s ++ (e ++ t)) = none := by
  rw [nextParam, separator_append sep, Option.bind_some, ows_of_solid (opening.solid t),
    opening.not_param ends]

theorem nextOffer_opening {gaps next : Bool} {c : Offer} (sep : Separator s)
    (opening : Opening gaps c next e) (t : Text) :
    nextOffer (s ++ (e ++ t)) = challenge (e ++ t) := by
  rw [nextOffer, separator_append sep, Option.bind_some, ows_of_solid (opening.solid t)]

theorem readRest_offer {open_ next : Bool} {c : Offer} (sep : Separator s)
    (opening : Opening false c next e) (ends : Ends t) : readRest open_ (s ++ (e ++ t)) =
      ([], (c.1, c.2 ++ (readRest next t).1) :: (readRest next t).2) := by
  obtain ⟨left, taken, behind⟩ := opening.challenge ends
  have offer := (nextOffer_opening sep opening t).trans taken
  rw [readRest_of_none (nextParam_opening sep opening ends), readRest, if_neg Bool.false_ne_true,
    many_nextOffer offer, behind]

theorem readRest_blank (blank : Blank s) (t : Text) :
    readRest false (s ++ t) = readRest false t := by
  have same : nextOffer (s ++ t) = nextOffer t := by rw [nextOffer, separator_blank blank, nextOffer]
  rw [readRest, if_neg Bool.false_ne_true, readRest, if_neg Bool.false_ne_true]
  cases taken : nextOffer t with
  | none => rw [many_none taken, many_none (same.trans taken)]
  | some read =>
      rw [many_some nextOffer_shrinks taken, many_some nextOffer_shrinks (same.trans taken)]

/-- Where the first parameter is left out, the parser is behind the offer. -/
theorem readRest_bare {open_ : Bool} {scheme gap : Text} (sep : Separator s)
    (isToken : IsToken scheme) (spaces : Spaces gap) (ends : Ends t) :
    readRest open_ (s ++ ((scheme ++ gap) ++ t)) =
      ([], (scheme.toAsciiLowercase, []) :: (readRest false t).2) := by
  rw [List.append_assoc, readRest_offer sep (.alone isToken) (ends.append spaces.blank),
    readRest_blank spaces.blank]
  rfl

end

/-! ## The whole row -/

section
variable {open_ : Bool} {ps : List Param} {cs : List Offer} {s t : Text}

theorem Rest.empties (rest : Rest true open_ [] [] t) : Rest false open_ [] [] t := by
  generalize noParams : ([] : List Param) = ps at rest
  generalize noOffers : ([] : List Offer) = cs at rest
  induction rest with
  | done blank => exact .done blank
  | empty sep _ _ ih => exact .empty sep (.inr ⟨noParams.symm, noOffers.symm⟩) (ih noParams noOffers)
  | param => cases noParams
  | offer => cases noOffers

/-- Where there are no parameters, none need be allowed. -/
theorem Rest.closed {gaps : Bool} (rest : Rest gaps open_ [] cs t) : Rest gaps false [] cs t := by
  generalize noParams : ([] : List Param) = ps at rest
  induction rest with
  | done blank => exact .done blank
  | empty sep gap _ ih =>
      subst noParams
      exact .empty sep gap (ih rfl)
  | param => cases noParams
  | offer sep opening rest _ => exact .offer sep opening rest

theorem Rest.blank {gaps : Bool} (rest : Rest gaps open_ ps cs t) (blank : Blank s) :
    Rest gaps open_ ps cs (s ++ t) := by
  have before {sep : Text} (isSeparator : Separator sep) : Separator (s ++ sep) := by
    cases isSeparator with
    | comma lead trail =>
        rw [← List.append_assoc]
        refine .comma ?_ trail
        intro c member
        cases List.mem_append.mp member with
        | inl member => exact blank c member
        | inr member => exact lead c member
  cases rest with
  | done trail =>
      refine .done ?_
      intro c member
      cases List.mem_append.mp member with
      | inl member => exact blank c member
      | inr member => exact trail c member
  | empty sep gap rest =>
      rw [← List.append_assoc]
      exact .empty (before sep) gap rest
  | param sep written rest =>
      rw [← List.append_assoc]
      exact .param (before sep) written rest
  | offer sep opening rest =>
      rw [← List.append_assoc]
      exact .offer (before sep) opening rest

theorem Rest.nextParam (rest : Rest true true [] cs t) : nextParam t = none := by
  cases rest with
  | done blank =>
      rw [HClient.Digest.nextParam, ← List.append_nil t, separator_blank blank, separator_nil,
        Option.bind_none]
  | empty sep _ rest => exact nextParam_empty sep rest.ends
  | offer sep opening rest => exact nextParam_opening sep opening rest.ends

/-- Without gaps everything is read. -/
theorem readRest_of_dense (rest : Rest false open_ ps cs t) : readRest open_ t = (ps, cs) := by
  induction rest with
  | done blank => exact readRest_done _ blank
  | empty sep gap rest _ =>
      cases gap with
      | inl gap => cases gap
      | inr nothing =>
          obtain ⟨rfl, rfl⟩ := nothing
          exact readRest_empty _ sep rest.ends
  | param sep written rest ih => rw [readRest_param sep written rest.ends, ih]
  | offer sep opening rest ih => rw [readRest_offer sep opening rest.ends, ih]

theorem Opening.dense {next : Bool} {c : Offer} {e : Text} (opening : Opening true c next e) :
    Opening false c next e ∨ ∃ scheme gap, IsToken scheme ∧ Spaces gap ∧
      c = (scheme.toAsciiLowercase, []) ∧ next = true ∧ e = scheme ++ gap := by
  cases opening with
  | alone scheme => exact .inl (.alone scheme)
  | token68 scheme gap isToken68 => exact .inl (.token68 scheme gap isToken68)
  | param scheme gap written => exact .inl (.param scheme gap written)
  | bare _ scheme gap => exact .inr ⟨_, _, scheme, gap, rfl, rfl, rfl⟩

/-- No parameter follows, so the blanks behind the scheme belong to the separator behind them. -/
theorem Rest.bare (rest : Rest true true [] cs t) (spaces : Spaces s)
    (others : (readRest false t).2 = cs)
    (dense : readRest true t = ([], cs) → Rest false true [] cs t) :
    Rest false false [] cs (s ++ t) := by
  have read : readRest true t = ([], cs) := by
    rw [readRest_of_none rest.nextParam]
    exact Prod.ext rfl others
  exact (dense read).closed.blank spaces.blank

/-- Where everything is read there are no gaps. -/
theorem dense_of_readRest (rest : Rest true open_ ps cs t) (read : readRest open_ t = (ps, cs)) :
    Rest false open_ ps cs t := by
  induction rest with
  | done blank => exact .done blank
  | empty sep gap rest _ =>
      rw [readRest_empty _ sep rest.ends] at read
      cases read
      exact .empty sep (.inr ⟨rfl, rfl⟩) rest.empties
  | param sep written rest ih =>
      rw [readRest_param sep written rest.ends] at read
      injection read with params offers
      injection params with _ params
      exact .param sep written (ih (Prod.ext params offers))
  | @offer _ _ c ps cs s e t sep opening rest ih =>
      cases opening.dense with
      | inl opening =>
          rw [readRest_offer sep opening rest.ends] at read
          injection read with _ offers
          injection offers with first others
          injection first with _ params
          exact .offer sep opening (ih (Prod.ext (List.append_cancel_left params) others))
      | inr bare =>
          obtain ⟨scheme, gap, isToken, spaces, rfl, rfl, rfl⟩ := bare
          rw [readRest_bare sep isToken spaces rest.ends] at read
          injection read with _ offers
          injection offers with first others
          injection first with _ params
          obtain rfl : ps = [] := params.symm
          rw [List.append_assoc]
          exact .offer sep (.alone isToken) (rest.bare spaces others ih)

/-- What the parser makes of a value without blanks around it. -/
def offersOf (s : Text) : List Offer := ((separated1 challenge s).getD ([], s)).1

theorem offersOf_ends (ends : Ends t) : offersOf t = [] := by
  rw [offersOf, separated1, ends.challenge_none]
  rfl

theorem offersOf_opening {next : Bool} {c : Offer} {e : Text} (opening : Opening false c next e)
    (ends : Ends t) :
    offersOf (e ++ t) = (c.1, c.2 ++ (readRest next t).1) :: (readRest next t).2 := by
  obtain ⟨left, taken, behind⟩ := opening.challenge ends
  rw [offersOf, separated1, taken, ← behind]
  rfl

/-- The parser reads exactly the offers of a value where no empty element stands in front of
another. -/
theorem offersOf_iff (row : Row true cs s) : offersOf s = cs ↔ Dense cs s := by
  constructor
  · intro read
    cases row with
    | empty _ rest =>
        rw [offersOf_ends rest.ends] at read
        subst read
        exact .empty (.inr rfl) rest.empties
    | @offer next c ps cs e t opening rest =>
        cases opening.dense with
        | inl opening =>
            rw [offersOf_opening opening rest.ends] at read
            injection read with first others
            injection first with _ params
            have same : readRest next t = (ps, cs) :=
              Prod.ext (List.append_cancel_left params) others
            exact .offer opening (dense_of_readRest rest same)
        | inr bare =>
            obtain ⟨scheme, gap, isToken, spaces, rfl, rfl, rfl⟩ := bare
            have ends := rest.ends.append spaces.blank
            rw [List.append_assoc, offersOf_opening (.alone isToken) ends,
              readRest_blank spaces.blank] at read
            injection read with first others
            injection first with _ params
            obtain rfl : ps = [] := params.symm
            rw [List.append_assoc]
            exact .offer (.alone isToken) (rest.bare spaces others (dense_of_readRest rest))
  · intro dense
    cases dense with
    | empty gap rest =>
        cases gap with
        | inl gap => cases gap
        | inr none_ =>
            subst none_
            exact offersOf_ends rest.ends
    | offer opening rest => rw [offersOf_opening opening rest.ends, readRest_of_dense rest]

end

end HClient.Digest
