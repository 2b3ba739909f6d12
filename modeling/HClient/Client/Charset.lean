import HClient.Auth.Offers

/-!
# The charset of a media type

RFC 9110's grammar of `Content-Type` as a relation between a value and its parameters, and what the
client reads of it: the first charset, as it is written, unless an empty parameter stands in front.
-/
namespace HClient.Client

open Reading
open HClient.Field (token ows isTokenChar quotedBodyRaw quotedStringRaw)
open Hsts (Blank IsToken Escaped ows_blank token_complete token_none token_sound)
open Digest (head_ows ows_append ows_of_solid ows_ows ows_suffix token_suffix)

/-! ## The reader -/

/-- `token BWS "=" BWS ( token / quoted-string )`, with blanks around it. -/
def parameter (i : Text) : Option ((Text × Text) × Text) := do
  let (name, i) ← token (ows i)
  match ows i with
  | '=' :: i =>
      let i := ows i
      let (v, i) ← quotedStringRaw i <|> token i
      some ((name, v), ows i)
  | _ => none

/-- A separator and a parameter behind it. -/
def nextParameter : Text → Option ((Text × Text) × Text)
  | ';' :: i => parameter i
  | _ => none

/-- `separated(0.., parameter, ';')`. -/
def separatedParameters (i : Text) : List (Text × Text) :=
  match parameter i with
  | some (p, i) => p :: (many nextParameter i).1
  | none => []

def isCharset (name : Text) : Bool := Text.eqIgnoreAsciiCase name "charset".toList

/-- `charset_param`. -/
def charsetParam (value : Text) : Option Text :=
  match value.dropWhile (· != ';') with
  | [] => none
  | _ :: i => ((separatedParameters i).find? fun p => isCharset p.1).map Prod.snd

/-! ## The grammar -/

/-- A parameter: its value, and what is written of it, without the quotes. -/
structure MediaParameter where
  name : Text
  value : Text
  raw : Text

inductive ValueWritten : Text → Text → Text → Prop
  | token {value : Text} (isToken : IsToken value) : ValueWritten value value value
  | quoted {value raw : Text} (escaped : Escaped value raw) :
      ValueWritten value raw ('"' :: (raw ++ ['"']))

inductive ParameterWritten : MediaParameter → Text → Prop
  | mk {name value raw written : Text} (isToken : IsToken name)
      (wrote : ValueWritten value raw written) :
      ParameterWritten ⟨name, value, raw⟩ (name ++ '=' :: written)

/-- `*( OWS ";" OWS [ parameter ] )`, where an empty parameter may stand in front of another only
with `gaps`. -/
inductive Parameters (gaps : Bool) : List MediaParameter → Text → Prop
  | done : Parameters gaps [] []
  | empty {ps : List MediaParameter} {before after t : Text} (dense : gaps = true ∨ ps = [])
      (blank : Blank before) (blank' : Blank after) (rest : Parameters gaps ps t) :
      Parameters gaps ps (before ++ ';' :: (after ++ t))
  | parameter {p : MediaParameter} {ps : List MediaParameter} {before after e t : Text}
      (blank : Blank before) (blank' : Blank after) (wrote : ParameterWritten p e)
      (rest : Parameters gaps ps t) : Parameters gaps (p :: ps) (before ++ ';' :: (after ++ (e ++ t)))

/-- `type "/" subtype parameters`. -/
inductive MediaType (gaps : Bool) : List MediaParameter → Text → Prop
  | mk {type subtype t : Text} {ps : List MediaParameter} (isToken : IsToken type)
      (isToken' : IsToken subtype) (parameters : Parameters gaps ps t) :
      MediaType gaps ps (type ++ '/' :: (subtype ++ t))

/-- The value of the first charset. -/
def charsetOf (read : MediaParameter → Text) (ps : List MediaParameter) : Option Text :=
  (ps.find? fun p => isCharset p.name).map read

variable {gaps : Bool} {p : MediaParameter} {ps : List MediaParameter}
  {i rest s t e name value raw written : Text}

/-! ## One parameter -/

theorem quotedBodyRaw_complete (escaped : Escaped value raw) (rest : Text) :
    quotedBodyRaw (raw ++ '"' :: rest) = some (raw, rest) := by
  induction escaped with
  | nil => rfl
  | char quote escape _ ih =>
      rw [List.cons_append, Field.quotedBodyRaw.eq_4 _ _ quote (by simp [escape]), ih]
      rfl
  | pair c _ ih =>
      rw [List.cons_append, List.cons_append, Field.quotedBodyRaw.eq_3, ih]
      rfl

theorem quotedBodyRaw_suffix (taken : quotedBodyRaw i = some (raw, rest)) : rest <:+ i := by
  fun_induction quotedBodyRaw i generalizing raw with
  | case1 => cases taken
  | case2 =>
      cases taken
      exact List.suffix_cons _ _
  | case3 c i ih =>
      obtain ⟨⟨inner, left⟩, found, same⟩ := Option.map_eq_some_iff.mp taken
      cases same
      exact (ih found).trans ((List.suffix_cons c i).trans (List.suffix_cons _ _))
  | case4 c i quote escape ih =>
      obtain ⟨⟨inner, left⟩, found, same⟩ := Option.map_eq_some_iff.mp taken
      cases same
      exact (ih found).trans (List.suffix_cons c i)

theorem quotedStringRaw_suffix (taken : quotedStringRaw i = some (raw, rest)) : rest <:+ i := by
  unfold quotedStringRaw at taken
  split at taken
  · exact (quotedBodyRaw_suffix taken).trans (List.suffix_cons _ _)
  · cases taken

theorem value_suffix (taken : (quotedStringRaw i <|> token i) = some (raw, rest)) :
    rest <:+ i := by
  cases read : quotedStringRaw i with
  | none =>
      rw [read] at taken
      exact token_suffix taken
  | some body =>
      rw [read] at taken
      cases taken
      exact quotedStringRaw_suffix read

theorem parameter_suffix {p : Text × Text} (taken : parameter i = some (p, rest)) : rest <:+ i := by
  unfold parameter at taken
  obtain ⟨⟨name, j⟩, named, taken⟩ := Option.bind_eq_some_iff.mp taken
  dsimp only at taken
  have first := (token_suffix named).trans (ows_suffix i)
  split at taken
  next k equals =>
    obtain ⟨⟨v, l⟩, read, taken⟩ := Option.bind_eq_some_iff.mp taken
    cases taken
    have behind : k <:+ j := (List.suffix_cons '=' k).trans (equals ▸ ows_suffix j)
    exact (ows_suffix l).trans (((value_suffix read).trans (ows_suffix k)).trans (behind.trans first))
  · cases taken

theorem nextParameter_shrinks : Shrinks nextParameter := by
  intro i p rest taken
  unfold nextParameter at taken
  split at taken
  next j => exact Nat.lt_succ_of_le (parameter_suffix taken).length_le
  · cases taken

theorem value_complete (wrote : ValueWritten value raw written)
    (ends : ∀ c ∈ rest.head?, isTokenChar c = false) :
    (quotedStringRaw (written ++ rest) <|> token (written ++ rest)) = some (raw, rest) := by
  cases wrote with
  | quoted escaped =>
      have whole : quotedStringRaw ('"' :: (raw ++ ['"']) ++ rest) = some (raw, rest) := by
        rw [List.cons_append, List.append_assoc]
        exact quotedBodyRaw_complete escaped rest
      rw [whole]
      rfl
  | token isToken =>
      have unquoted : quotedStringRaw (value ++ rest) = none := by
        obtain ⟨c, s, rfl⟩ := List.exists_cons_of_ne_nil isToken.1
        have first := isToken.2 c List.mem_cons_self
        unfold quotedStringRaw
        split
        next same =>
          cases same
          exact absurd first (by decide)
        · rfl
      rw [unquoted, token_complete isToken ends]
      rfl

theorem token_solid (isToken : IsToken s) (t : Text) :
    ∀ c ∈ (s ++ t).head?, ¬ (c = ' ' ∨ c = '\t') := by
  refine Runs.forall_head_append isToken.1 ?_ t
  intro c member
  rintro (rfl | rfl) <;> exact absurd (isToken.2 _ member) (by decide)

theorem value_solid (wrote : ValueWritten value raw written) (t : Text) :
    ∀ c ∈ (written ++ t).head?, ¬ (c = ' ' ∨ c = '\t') := by
  cases wrote with
  | token isToken => exact token_solid isToken t
  | quoted escaped => exact Runs.forall_head (by decide)

/-- A parameter is read with the blanks in front of it and behind. -/
theorem parameter_complete (wrote : ParameterWritten p e) (blank : Blank s)
    (ends : ∀ c ∈ t.head?, isTokenChar c = false) :
    parameter (s ++ (e ++ t)) = some ((p.name, p.raw), ows t) := by
  cases wrote with
  | @mk name value raw written isToken wrote =>
      have equals : ows ('=' :: (written ++ t)) = '=' :: (written ++ t) :=
        ows_of_solid (Runs.forall_head (by decide))
      have stops : ∀ c ∈ ('=' :: (written ++ t)).head?, isTokenChar c = false :=
        Runs.forall_head (by decide)
      rw [List.append_assoc, List.cons_append, parameter, ows_append blank,
        ows_of_solid (token_solid isToken _), token_complete isToken stops]
      simp only [Option.bind_eq_bind, Option.bind_some, equals, ows_of_solid (value_solid wrote t),
        value_complete wrote ends]

/-- No parameter begins where its name would not. -/
theorem parameter_none (ends : ∀ c ∈ (ows i).head?, isTokenChar c = false) : parameter i = none := by
  rw [parameter, token_none ends]
  rfl

/-! ## The parameters -/

/-- The end, or a semicolon with blanks before it. -/
def Stops (t : Text) : Prop := ∀ c ∈ (ows t).head?, c = ';'

theorem stops_semicolon (blank : Blank s) (t : Text) : Stops (s ++ ';' :: t) := by
  intro c there
  rw [ows_append blank, ows_of_solid (Runs.forall_head (by decide))] at there
  exact (Option.some.inj there).symm

theorem Parameters.stops (parameters : Parameters gaps ps t) : Stops t := by
  cases parameters with
  | done => exact nofun
  | empty dense blank blank' rest => exact stops_semicolon blank _
  | parameter blank blank' wrote rest => exact stops_semicolon blank _

theorem Stops.parameter (stops : Stops t) (blank : Blank s) : Client.parameter (s ++ t) = none := by
  apply parameter_none
  intro c there
  rw [ows_append blank] at there
  rw [stops c there]
  decide

theorem Stops.not_token (stops : Stops t) : ∀ c ∈ t.head?, isTokenChar c = false := by
  intro c there
  rcases head_ows there with (rfl | rfl) | left
  · decide
  · decide
  · rw [stops c left]
    decide

/-- The parameters in front of the first empty one are read. -/
theorem many_parameters (parameters : Parameters gaps ps t) : ∃ qs, qs <+: ps ∧
    (gaps = false → qs = ps) ∧
      (many nextParameter (ows t)).1 = qs.map fun p => (p.name, p.raw) := by
  induction parameters with
  | done => exact ⟨[], List.nil_prefix, fun _ => rfl, rfl⟩
  | @empty ps before after t dense blank blank' rest ih =>
      refine ⟨[], List.nil_prefix, ?_, ?_⟩
      · rintro rfl
        exact (dense.resolve_left Bool.false_ne_true).symm
      · have nothing : nextParameter (';' :: (after ++ t)) = none := rest.stops.parameter blank'
        rw [ows_append blank, ows_of_solid (Runs.forall_head (by decide)), many_none nothing]
        rfl
  | @parameter p ps before after e t blank blank' wrote rest ih =>
      obtain ⟨qs, front, all, read⟩ := ih
      have taken : nextParameter (';' :: (after ++ (e ++ t))) = some ((p.name, p.raw), ows t) :=
        parameter_complete wrote blank' rest.stops.not_token
      refine ⟨p :: qs, List.cons_prefix_cons.mpr ⟨rfl, front⟩, ?_, ?_⟩
      · intro dense
        rw [all dense]
      · rw [ows_append blank, ows_of_solid (Runs.forall_head (by decide)),
          many_some nextParameter_shrinks taken, read]
        rfl

theorem separatedParameters_eq (i : Text) :
    separatedParameters i = (many nextParameter (';' :: i)).1 := by
  unfold separatedParameters
  cases taken : parameter i with
  | none =>
      have nothing : nextParameter (';' :: i) = none := taken
      rw [many_none nothing]
  | some read =>
      have next : nextParameter (';' :: i) = some (read.1, read.2) := taken
      rw [many_some nextParameter_shrinks next]

/-! ## The charset -/

theorem dropWhile_mediaType {type subtype : Text} (isToken : IsToken type)
    (isToken' : IsToken subtype) (stops : Stops t) :
    (type ++ '/' :: (subtype ++ t)).dropWhile (· != ';') = ows t := by
  have clean : ∀ {s : Text}, IsToken s → ∀ c ∈ s, (c != ';') = true := by
    intro s isToken c member
    refine bne_iff_ne.mpr fun same => ?_
    exact absurd (isToken.2 c member) (by rw [same]; decide)
  have slash : ∀ s : Text, ('/' :: s).dropWhile (· != ';') = s.dropWhile (· != ';') := fun s => rfl
  have rest : t.dropWhile (· != ';') = ows t := by
    obtain ⟨lead, split, blank⟩ := Hsts.ows_split t
    conv_lhs => rw [split]
    apply Runs.dropWhile_run
    · intro c member
      rcases blank c member with rfl | rfl <;> decide
    · intro c there
      rw [stops c there]
      decide
  rw [List.dropWhile_append_of_pos (clean isToken), slash,
    List.dropWhile_append_of_pos (clean isToken'), rest]

theorem charsetParam_eq (value : Text) :
    charsetParam value = ((many nextParameter (value.dropWhile (· != ';'))).1.find?
      fun p => isCharset p.1).map Prod.snd := by
  unfold charsetParam
  cases cut : value.dropWhile (· != ';') with
  | nil => rfl
  | cons c i =>
      have semicolon : (c != ';') = false := Runs.dropWhile_ends _ value c (by rw [cut]; rfl)
      obtain rfl : c = ';' := of_not_not fun other => by
        rw [bne_iff_ne.mpr other] at semicolon
        cases semicolon
      dsimp only
      rw [separatedParameters_eq]

theorem find_map_raw (qs : List MediaParameter) :
    (((qs.map fun p => (p.name, p.raw)).find? fun p => isCharset p.1).map Prod.snd) =
      charsetOf MediaParameter.raw qs := by
  rw [List.find?_map, Option.map_map, charsetOf]
  rfl

/-- Without escapes a value is what is written of it. -/
theorem raw_of_plain (escaped : Escaped value raw) (plain : '\\' ∉ raw) : raw = value := by
  induction escaped with
  | nil => rfl
  | char _ _ _ ih => rw [ih fun there => plain (List.mem_cons_of_mem _ there)]
  | pair c _ _ => exact absurd List.mem_cons_self plain

theorem ParameterWritten.plain (wrote : ParameterWritten p e) (plain : '\\' ∉ p.raw) :
    p.raw = p.value := by
  cases wrote with
  | mk isToken wrote =>
      cases wrote with
      | token isToken => rfl
      | quoted escaped => exact raw_of_plain escaped plain

theorem Parameters.plain (parameters : Parameters gaps ps t) :
    ∀ p ∈ ps, '\\' ∉ p.raw → p.raw = p.value := by
  induction parameters with
  | done => exact nofun
  | empty _ _ _ _ ih => exact ih
  | parameter _ _ wrote _ ih =>
      intro p member
      rcases List.mem_cons.mp member with rfl | member
      · exact wrote.plain
      · exact ih p member

/-- What is read is the first charset, as it is written; and it is read where no empty parameter
stands in front of another. -/
theorem charsetParam_reads (gaps : Bool) (ps : List MediaParameter) (value : Text)
    (written : MediaType gaps ps value) :
    (gaps = false → charsetParam value = charsetOf MediaParameter.raw ps) ∧
      (∀ label ∈ charsetParam value, charsetOf MediaParameter.raw ps = some label) ∧
      ∀ p ∈ ps, '\\' ∉ p.raw → p.raw = p.value := by
  cases written with
  | @mk type subtype t ps isToken isToken' parameters =>
      obtain ⟨qs, front, all, read⟩ := many_parameters parameters
      have result : charsetParam (type ++ '/' :: (subtype ++ t)) =
          charsetOf MediaParameter.raw qs := by
        rw [charsetParam_eq, dropWhile_mediaType isToken isToken' parameters.stops, read,
          find_map_raw]
      rw [result]
      refine ⟨?_, ?_, parameters.plain⟩
      · intro dense
        rw [all dense]
      · intro label there
        obtain ⟨p, found, rfl⟩ := Option.map_eq_some_iff.mp there
        rw [charsetOf, front.find?_eq_some found]
        rfl

/-- A parameter whose value holds what a charset parameter is written with, and one with an
escape. -/
def escapedType : List MediaParameter :=
  [⟨"a".toList, ";charset=x".toList, ";charset=x".toList⟩,
    ⟨"Charset".toList, "utf-8".toList, "utf\\-8".toList⟩]

theorem mediaType_escapedType : MediaType false escapedType
    "text/plain; a=\";charset=x\" ;\tCharset=\"utf\\-8\"".toList := by
  have type : IsToken "text".toList := Digest.isToken_of_all (by decide)
  have subtype : IsToken "plain".toList := Digest.isToken_of_all (by decide)
  have name : IsToken "a".toList := Digest.isToken_of_all (by decide)
  have name' : IsToken "Charset".toList := Digest.isToken_of_all (by decide)
  have held : Escaped ";charset=x".toList ";charset=x".toList := by
    repeat first
      | exact .nil
      | refine .char (by decide) (by decide) ?_
  have escaped : Escaped "utf-8".toList "utf\\-8".toList :=
    .char (by decide) (by decide) (.char (by decide) (by decide) (.char (by decide) (by decide)
      (.pair '-' (.char (by decide) (by decide) .nil))))
  have second := @Parameters.parameter false _ _ [' '] ['\t'] _ _ (by simp [Blank])
    (by simp [Blank]) (.mk name' (.quoted escaped)) .done
  have none : Blank [] := List.forall_mem_nil _
  have first := @Parameters.parameter false _ _ [] [' '] _ _ none (by simp [Blank])
    (.mk name (.quoted held)) second
  exact .mk type subtype first

theorem charsetParam_reads_escaped :
    charsetParam "text/plain; a=\";charset=x\" ;\tCharset=\"utf\\-8\"".toList =
      some "utf\\-8".toList :=
  (charsetParam_reads _ _ _ mediaType_escapedType).1 rfl

/-- The escape is in what is read. -/
theorem escape_is_kept :
    MediaType false escapedType
        "text/plain; a=\";charset=x\" ;\tCharset=\"utf\\-8\"".toList ∧
      charsetParam "text/plain; a=\";charset=x\" ;\tCharset=\"utf\\-8\"".toList ≠
        charsetOf MediaParameter.value escapedType :=
  ⟨mediaType_escapedType, by decide⟩

end HClient.Client
