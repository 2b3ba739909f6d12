import HClient.Core.Bytes
import HClient.Core.Text

/-!
# Header fields

A `HeaderMap` is the list of its fields in the order they were appended. Names are the
lowercase forms `HeaderName` keeps. The value type is a parameter: most of the client moves
values about without reading them.
-/
namespace HClient

abbrev HeaderName := Text
abbrev HeaderValue := List UInt8

abbrev HeaderMap (V : Type) := List (HeaderName × V)

namespace HeaderMap
variable {V : Type}

/-- The first value of a field, as `HeaderMap::get` answers. -/
def get : HeaderMap V → HeaderName → Option V
  | [], _ => none
  | (n, v) :: rest, name => if n = name then some v else get rest name

def getAll (headers : HeaderMap V) (name : HeaderName) : List V :=
  (headers.filter fun field => field.1 = name).map Prod.snd

def containsKey (headers : HeaderMap V) (name : HeaderName) : Bool :=
  headers.any fun field => field.1 = name

def remove (headers : HeaderMap V) (name : HeaderName) : HeaderMap V :=
  headers.filter fun field => field.1 ≠ name

def append (headers : HeaderMap V) (name : HeaderName) (value : V) : HeaderMap V :=
  headers ++ [(name, value)]

/-- `HeaderMap::insert`: the new value is the field's only one. -/
def insert (headers : HeaderMap V) (name : HeaderName) (value : V) : HeaderMap V :=
  (headers.remove name).append name value

theorem mem_remove {headers : HeaderMap V} {name : HeaderName} {field : HeaderName × V} :
    field ∈ headers.remove name ↔ field ∈ headers ∧ field.1 ≠ name := by
  simp [remove]

theorem mem_append {headers : HeaderMap V} {name : HeaderName} {value : V}
    {field : HeaderName × V} :
    field ∈ headers.append name value ↔ field ∈ headers ∨ field = (name, value) := by
  simp [append]

theorem mem_insert {headers : HeaderMap V} {name : HeaderName} {value : V}
    {field : HeaderName × V} :
    field ∈ headers.insert name value ↔
      (field ∈ headers ∧ field.1 ≠ name) ∨ field = (name, value) := by
  simp only [insert, mem_append, mem_remove]

section
variable {headers : HeaderMap V} {name other : HeaderName} {value : V}

theorem getAll_remove_of_ne (differ : name ≠ other) :
    (headers.remove other).getAll name = headers.getAll name := by
  rw [getAll, remove, List.filter_filter, getAll]
  congr 2
  funext field
  by_cases h : field.1 = name <;> simp [h, differ]

theorem getAll_append_of_ne (differ : name ≠ other) :
    (headers.append other value).getAll name = headers.getAll name := by
  simp [getAll, append, differ.symm]

theorem getAll_insert_of_ne (differ : name ≠ other) :
    (headers.insert other value).getAll name = headers.getAll name := by
  rw [insert, getAll_append_of_ne differ, getAll_remove_of_ne differ]

theorem getAll_appends (values : List V) :
    (values.foldl (fun h v => h.append name v) headers).getAll name =
      headers.getAll name ++ values := by
  induction values generalizing headers with
  | nil => exact (List.append_nil _).symm
  | cons v values ih =>
      rw [List.foldl_cons, ih]
      simp [getAll, append]

theorem getAll_appends_of_ne (differ : name ≠ other) (values : List V) :
    (values.foldl (fun h v => h.append other v) headers).getAll name = headers.getAll name := by
  induction values generalizing headers with
  | nil => rfl
  | cons v values ih => rw [List.foldl_cons, ih, getAll_append_of_ne differ]

theorem containsKey_remove_of_ne (differ : name ≠ other) :
    (headers.remove other).containsKey name = headers.containsKey name := by
  rw [Bool.eq_iff_iff]
  simp only [containsKey, List.any_eq_true, decide_eq_true_eq]
  constructor
  · rintro ⟨field, mem, same⟩
    exact ⟨field, (mem_remove.mp mem).1, same⟩
  · rintro ⟨field, mem, same⟩
    refine ⟨field, mem_remove.mpr ⟨mem, ?_⟩, same⟩
    rw [same]
    exact differ

theorem containsKey_foldl_remove (names : List HeaderName) (kept : name ∉ names)
    (headers : HeaderMap V) :
    (names.foldl remove headers).containsKey name = headers.containsKey name := by
  induction names generalizing headers with
  | nil => rfl
  | cons other names ih =>
      rw [List.foldl_cons, ih (fun mem => kept (List.mem_cons_of_mem _ mem))]
      apply containsKey_remove_of_ne
      rintro rfl
      exact kept List.mem_cons_self

theorem get_eq_head (headers : HeaderMap V) (name : HeaderName) :
    headers.get name = (headers.getAll name).head? := by
  induction headers with
  | nil => rfl
  | cons field headers ih =>
      obtain ⟨n, v⟩ := field
      by_cases same : n = name
      · simp [get, getAll, same]
      · simpa [get, getAll, same] using ih

end

end HeaderMap

namespace HeaderName

def isTokenByte (b : UInt8) : Bool :=
  Bytes.isDigit b || (65 ≤ b ∧ b ≤ 90) || (97 ≤ b ∧ b ≤ 122) ||
    (Bytes.ascii "!#$%&'*+-.^_\x60|~").contains b

/-- `HeaderName::from_bytes`: a token, kept in lower case. -/
def fromBytes (bytes : List UInt8) : Option HeaderName :=
  if bytes = [] ∨ ¬ bytes.all isTokenByte then none
  else some (bytes.map fun b => Char.ofNat (Bytes.toLower b).toNat)

def authorization : HeaderName := "authorization".toList
def cookie : HeaderName := "cookie".toList
def proxyAuthorization : HeaderName := "proxy-authorization".toList
def acceptEncoding : HeaderName := "accept-encoding".toList
def contentEncoding : HeaderName := "content-encoding".toList
def contentLength : HeaderName := "content-length".toList
def contentType : HeaderName := "content-type".toList
def host : HeaderName := "host".toList
def location : HeaderName := "location".toList
def ifNoneMatch : HeaderName := "if-none-match".toList
def ifModifiedSince : HeaderName := "if-modified-since".toList
def range : HeaderName := "range".toList

end HeaderName

namespace HeaderValue

/-- `HeaderValue::to_str`: visible ASCII and the tab, or nothing. -/
def toStr (value : HeaderValue) : Option Text :=
  if value.all fun b => b = 9 ∨ (32 ≤ b ∧ b < 127) then
    some (value.map fun b => Char.ofNat b.toNat)
  else none

/-- `HeaderValue::from_str`: no control character but the tab. -/
def fromStr (s : Text) : Option HeaderValue :=
  let bytes := s.flatMap String.utf8EncodeChar
  if bytes.all fun b => (32 ≤ b ∧ b ≠ 127) ∨ b = 9 then some bytes else none

def ofAscii (s : String) : HeaderValue := Bytes.ascii s

end HeaderValue
end HClient

/-!
## Field-value primitives

`sansio::field`'s `token`, `OWS` and `quoted-string`. A parser takes what it reads off the
front and answers the rest; `none` is the parser's backtrack, which leaves the input alone.
-/
namespace HClient.Field

def isTokenChar (c : Char) : Bool :=
  ('a' ≤ c ∧ c ≤ 'z') || ('A' ≤ c ∧ c ≤ 'Z') || Text.isAsciiDigit c ||
    "!#$%&'*+-.^_\x60|~".toList.contains c

def token (i : Text) : Option (Text × Text) :=
  if i.takeWhile isTokenChar = [] then none
  else some (i.takeWhile isTokenChar, i.dropWhile isTokenChar)

def ows (i : Text) : Text := i.dropWhile fun c => c = ' ' ∨ c = '\t'

/-- The body of a `quoted-string` after its opening quote, unescaped, and what follows the
closing one. A backslash with nothing behind it is read as itself. -/
def quotedBody : Text → Option (Text × Text)
  | [] => none
  | '"' :: rest => some ([], rest)
  | '\\' :: c :: rest => (quotedBody rest).map fun (body, rest) => (c :: body, rest)
  | c :: rest => (quotedBody rest).map fun (body, rest) => (c :: body, rest)

def quotedString : Text → Option (Text × Text)
  | '"' :: rest => quotedBody rest
  | _ => none

/-- The body of a `quoted-string` as it is written: an escape is taken whole and kept. -/
def quotedBodyRaw : Text → Option (Text × Text)
  | [] => none
  | '"' :: rest => some ([], rest)
  | '\\' :: c :: rest => (quotedBodyRaw rest).map fun (body, rest) => ('\\' :: c :: body, rest)
  | c :: rest => (quotedBodyRaw rest).map fun (body, rest) => (c :: body, rest)

def quotedStringRaw : Text → Option (Text × Text)
  | '"' :: rest => quotedBodyRaw rest
  | _ => none

example : quotedString "\"say \\\"hi\\\"\" rest".toList =
    some ("say \"hi\"".toList, " rest".toList) := by decide

end HClient.Field
