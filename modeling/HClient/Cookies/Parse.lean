import HClient.Cookies.Date

/-!
# The `Set-Cookie` grammar

`cookie::parse`: a name-value pair and then attributes, each up to a semicolon. An attribute
that does not parse is ignored; the pair is refused with one of four errors.
-/
namespace HClient.Cookies

open Bytes (ascii fromUtf8)

inductive SameSite where
  | strict
  | lax
  | none
  deriving DecidableEq, Repr

inductive ParseError where
  | noNameValueSeparator
  | emptyName
  | controlCharacter
  | nonUtf8
  deriving DecidableEq, Repr

structure SetCookie where
  name : Text
  value : Text
  domain : Option Text
  path : Option Text
  expires : Option Int
  maxAge : Option Int
  secure : Bool
  httpOnly : Bool
  sameSite : Option SameSite
  deriving DecidableEq, Repr

/-- What stands before the next semicolon, and what after it. -/
def segment (t : List UInt8) : List UInt8 × List UInt8 :=
  (t.takeWhile (· ≠ 59), (t.dropWhile (· ≠ 59)).drop 1)

def isBlank (b : UInt8) : Bool := b = 32 || b = 9

def trim (s : List UInt8) : List UInt8 :=
  ((s.dropWhile isBlank).reverse.dropWhile isBlank).reverse

def splitOnceOnEquals (s : List UInt8) : List UInt8 × List UInt8 :=
  if s.contains 61 then
    (trim (s.takeWhile (· ≠ 61)), trim ((s.dropWhile (· ≠ 61)).drop 1))
  else (trim s, [])

def isCtl (b : UInt8) : Bool := b ≤ 0x08 || (0x0A ≤ b ∧ b ≤ 0x1F) || b = 0x7F

/-- `str::parse::<i64>`. -/
def parseI64 (s : Text) : Option Int :=
  let digits := match s with
    | '-' :: ds => ds
    | '+' :: ds => ds
    | ds => ds
  if digits = [] ∨ ¬ digits.all Text.isAsciiDigit then none
  else
    let n : Nat := digits.foldl (fun acc c => acc * 10 + (c.toNat - 48)) 0
    let v : Int := if s.head? = some '-' then -(n : Int) else n
    if -(2 ^ 63 : Nat) ≤ v ∧ v < (2 ^ 63 : Nat) then some v else none

def parseMaxAge (value : List UInt8) : Option Int :=
  match value with
  | b :: _ => if Bytes.isDigit b || b = 45 then (fromUtf8 value).bind parseI64 else none
  | [] => none

def parseDomain (value : List UInt8) : Option Text :=
  let domain := if value.head? = some 46 then value.drop 1 else value
  if domain = [] then none else (fromUtf8 domain).map Text.toAsciiLowercase

def parsePath (value : List UInt8) : Option Text :=
  if value.head? = some 47 then fromUtf8 value else none

def parseSameSite (value : List UInt8) : Option SameSite :=
  let value := value.map Bytes.toLower
  if value = ascii "strict" then some .strict
  else if value = ascii "lax" then some .lax
  else if value = ascii "none" then some .none
  else none

/-- An attribute's new value, or the old one where the new one does not parse. -/
def SetCookie.applyAttribute (out : SetCookie) (key value : List UInt8) : SetCookie :=
  let key := key.map Bytes.toLower
  if key = ascii "expires" then
    { out with expires := (parseCookieDate value).or out.expires }
  else if key = ascii "max-age" then { out with maxAge := (parseMaxAge value).or out.maxAge }
  else if key = ascii "domain" then { out with domain := (parseDomain value).or out.domain }
  else if key = ascii "path" then { out with path := (parsePath value).or out.path }
  else if key = ascii "secure" then { out with secure := true }
  else if key = ascii "httponly" then { out with httpOnly := true }
  else if key = ascii "samesite" then { out with sameSite := parseSameSite value }
  else out

/-- The loop over the attributes. Each segment takes a byte at least, so the length of the
input is fuel enough. -/
def SetCookie.applyAttributes : Nat → SetCookie → List UInt8 → SetCookie
  | 0, out, _ => out
  | fuel + 1, out, input =>
      if input = [] then out
      else
        let (one, input) := segment input
        let (key, value) := splitOnceOnEquals one
        applyAttributes fuel (out.applyAttribute key value) input

def SetCookie.parse (header : List UInt8) : Except ParseError SetCookie :=
  let (pair, input) := segment header
  if ¬ pair.contains 61 then .error .noNameValueSeparator
  else
    let (name, value) := splitOnceOnEquals pair
    if name = [] then .error .emptyName
    else if (name ++ value).any isCtl then .error .controlCharacter
    else
      match fromUtf8 name, fromUtf8 value with
      | some name, some value =>
          .ok (applyAttributes input.length
            ⟨name, value, none, none, none, none, false, false, none⟩ input)
      | _, _ => .error .nonUtf8

example : SetCookie.parse (ascii " a = \"b\" ; Path=/x; Max-Age=-30; Domain=.EX.com; Secure") =
    .ok ⟨"a".toList, "\"b\"".toList, some "ex.com".toList, some "/x".toList, none, some (-30),
      true, false, none⟩ := by
  decide +kernel

end HClient.Cookies
