import HClient.Core.Header

/-!
# Content codings

`decompress::coding`: the codings a client carries, which of them a name is for, and what it asks a
server for.
-/
namespace HClient.Body

/-- A coding by its name, its other spellings, and the decoder it starts a body with. -/
structure ContentCoding (D : Type) where
  token : Text
  aliases : List Text
  decoder : D

namespace Coding
variable {D : Type}

def lookup (codings : List (ContentCoding D)) (token : Text) : Option (ContentCoding D) :=
  (codings.find? fun c => c.token.eqIgnoreAsciiCase token).or
    (codings.find? fun c => c.aliases.any fun a => a.eqIgnoreAsciiCase token)

def acceptEncoding (codings : List (ContentCoding D)) : Option HeaderValue :=
  if codings.isEmpty then none
  else HeaderValue.fromStr ((codings.map ContentCoding.token).intersperse ", ".toList).flatten

def isToken (s : Text) : Bool := !s.isEmpty && s.all Field.isTokenChar

structure InvalidCodingToken where
  token : Text
  coding : Text
  deriving DecidableEq, Repr

def validateOne (c : ContentCoding D) : Except InvalidCodingToken Unit :=
  if !isToken c.token then .error ⟨c.token, c.token⟩
  else match c.aliases.find? fun a => !isToken a with
    | some a => .error ⟨a, c.token⟩
    | none => .ok ()

def validate : List (ContentCoding D) → Except InvalidCodingToken Unit
  | [] => .ok ()
  | c :: rest =>
      match validateOne c with
      | .ok () => validate rest
      | .error e => .error e

/-- The codings a client starts with, over the decoders of each. -/
def builtin (zstd brotli gzip deflate : D) : List (ContentCoding D) :=
  [⟨"zstd".toList, [], zstd⟩, ⟨"br".toList, [], brotli⟩, ⟨"gzip".toList, ["x-gzip".toList], gzip⟩,
    ⟨"deflate".toList, [], deflate⟩]

/-- The coding goes by this name, however it is written. -/
def Answers (c : ContentCoding D) (name : Text) : Prop :=
  ∃ known ∈ c.token :: c.aliases, known.eqIgnoreAsciiCase name

variable {codings : List (ContentCoding D)} {c : ContentCoding D} {name : Text}

theorem lookup_some (found : lookup codings name = some c) : c ∈ codings ∧ Answers c name := by
  rcases Option.or_eq_some_iff.mp found with byToken | ⟨-, byAlias⟩
  · have same := List.find?_some byToken
    exact ⟨List.mem_of_find?_eq_some byToken, c.token, .head _, same⟩
  · have answers := List.find?_some byAlias
    obtain ⟨a, among, same⟩ := List.any_eq_true.mp answers
    exact ⟨List.mem_of_find?_eq_some byAlias, a, .tail _ among, same⟩

theorem validateOne_ok (valid : validateOne c = .ok ()) {known : Text}
    (among : known ∈ c.token :: c.aliases) : isToken known = true := by
  simp only [validateOne] at valid
  split at valid
  · cases valid
  · rename_i token
    split at valid
    · cases valid
    · rename_i none
      rcases List.mem_cons.mp among with rfl | among
      · simpa using token
      · simpa using List.find?_eq_none.mp none known among

theorem validate_ok (valid : validate codings = .ok ()) :
    ∀ c ∈ codings, ∀ known ∈ c.token :: c.aliases, isToken known = true := by
  induction codings with
  | nil => exact nofun
  | cons c codings ih =>
      rcases one : validateOne c with e | ⟨⟩
      · simp [validate, one] at valid
      · simp only [validate, one] at valid
        exact List.forall_mem_cons.mpr ⟨fun known among => validateOne_ok one among, ih valid⟩

theorem isTokenChar_of_isAlpha {c : Char} (letter : c.isAlpha = true) :
    Field.isTokenChar c = true := by
  simp only [Char.isAlpha, Char.isUpper, Char.isLower, Bool.or_eq_true, Bool.and_eq_true,
    decide_eq_true_eq, ge_iff_le] at letter
  simp only [Field.isTokenChar, Bool.or_eq_true, decide_eq_true_eq]
  rcases letter with upper | lower
  · exact .inl (.inl (.inr upper))
  · exact .inl (.inl (.inl lower))

theorem isTokenChar_toLower (c : Char) : Field.isTokenChar c.toLower = Field.isTokenChar c := by
  by_cases upper : c.isUpper
  · have letter : c.isAlpha = true := by simp [Char.isAlpha, upper]
    rw [isTokenChar_of_isAlpha letter, isTokenChar_of_isAlpha]
    rw [Char.isAlpha_toLower_eq_isAlpha, letter]
  · rw [Char.toLower_eq_of_not_isUpper upper]

/-- How a name is written does not matter to whether it is a token. -/
theorem isToken_toAsciiLowercase (s : Text) : isToken s.toAsciiLowercase = isToken s := by
  simp only [isToken, Text.toAsciiLowercase, List.isEmpty_map, List.all_map]
  congr 2
  funext c
  exact isTokenChar_toLower c

/-- What a valid coding answers to is a token. -/
theorem isToken_of_answers (valid : validate codings = .ok ()) (among : c ∈ codings)
    (answers : Answers c name) : isToken name = true := by
  obtain ⟨known, member, same⟩ := answers
  have token := validate_ok valid c among known member
  rw [Text.eqIgnoreAsciiCase_iff] at same
  rwa [← isToken_toAsciiLowercase, ← same, isToken_toAsciiLowercase]

end Coding
end HClient.Body
