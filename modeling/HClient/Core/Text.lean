import Mathlib

/-!
# Strings

A Rust `str` is the list of its characters here, so that a definition can follow the source's
`split_once`, `strip_prefix` and `eq_ignore_ascii_case` by recursion on it.
-/
namespace HClient

abbrev Text := List Char

namespace Text

instance : LawfulBEq Text := inferInstanceAs (LawfulBEq (List Char))

def toAsciiLowercase (s : Text) : Text := s.map Char.toLower

def eqIgnoreAsciiCase (s t : Text) : Bool := s.toAsciiLowercase == t.toAsciiLowercase

/-- `str::split_once` at a character. -/
def splitOnce (sep : Char) : Text → Option (Text × Text)
  | [] => none
  | c :: cs =>
      if c = sep then some ([], cs)
      else (splitOnce sep cs).map fun (before, after) => (c :: before, after)

def stripPrefix (start s : Text) : Option Text :=
  if start.isPrefixOf s then some (s.drop start.length) else none

def stripSuffix (finish s : Text) : Option Text :=
  if finish.isSuffixOf s then some (s.take (s.length - finish.length)) else none

def isAsciiDigit (c : Char) : Bool := '0' ≤ c ∧ c ≤ '9'

/-- `char::is_whitespace`. -/
def isWhitespace (c : Char) : Bool :=
  (9 ≤ c.toNat ∧ c.toNat ≤ 13) || (0x2000 ≤ c.toNat ∧ c.toNat ≤ 0x200A) ||
    [0x20, 0x85, 0xA0, 0x1680, 0x2028, 0x2029, 0x202F, 0x205F, 0x3000].contains c.toNat

def trim (s : Text) : Text :=
  ((s.dropWhile isWhitespace).reverse.dropWhile isWhitespace).reverse

/-- `str::parse::<u64>`, which takes a leading plus. -/
def parseU64 (s : Text) : Option Nat :=
  let digits : Text := match s with
    | '+' :: ds => ds
    | ds => ds
  let n : Nat := digits.foldl (fun acc c => acc * 10 + (c.toNat - '0'.toNat)) 0
  if digits = [] ∨ ¬ digits.all isAsciiDigit ∨ 2 ^ 64 ≤ n then none else some n

/-- `str::parse` for an unsigned type below `bound`, which takes a leading plus. -/
def parseUnsigned (bound : Nat) (s : Text) : Option Nat :=
  let digits : Text := match s with
    | '+' :: ds => ds
    | ds => ds
  let n : Nat := digits.foldl (fun acc c => acc * 10 + (c.toNat - '0'.toNat)) 0
  if digits = [] ∨ ¬ digits.all isAsciiDigit ∨ bound ≤ n then none else some n

/-- `str::rsplit_once` at a character. -/
def rsplitOnce (sep : Char) (s : Text) : Option (Text × Text) :=
  (splitOnce sep s.reverse).map fun (after, before) => (before.reverse, after.reverse)

/-- `str::split_once` at a string. -/
def splitOnceAt (sep : Text) : Text → Option (Text × Text)
  | [] => if sep = [] then some ([], []) else none
  | c :: cs =>
      if sep.isPrefixOf (c :: cs) then some ([], (c :: cs).drop sep.length)
      else (splitOnceAt sep cs).map fun (before, after) => (c :: before, after)

def trimStartMatches (c : Char) (s : Text) : Text := s.dropWhile (· == c)

def trimEndMatches (c : Char) (s : Text) : Text := (s.reverse.dropWhile (· == c)).reverse

def isAsciiWhitespace (c : Char) : Bool := [0x20, 0x09, 0x0A, 0x0C, 0x0D].contains c.toNat

def isAsciiControl (c : Char) : Bool := c.toNat < 0x20 ∨ c.toNat = 0x7F

/-- Lowering makes letters only. -/
theorem toLower_eq_iff {c d : Char} (other : d.isAlpha = false) : c.toLower = d ↔ c = d := by
  by_cases upper : c.isUpper
  · have letter : c.isAlpha := by simp [Char.isAlpha, upper]
    constructor
    · intro h
      rw [← h, Char.isAlpha_toLower_eq_isAlpha, letter] at other
      cases other
    · intro h
      rw [← h, letter] at other
      cases other
  · rw [Char.toLower_eq_of_not_isUpper upper]

@[simp] theorem toAsciiLowercase_idem (s : Text) :
    s.toAsciiLowercase.toAsciiLowercase = s.toAsciiLowercase := by
  simp [toAsciiLowercase]

@[simp] theorem toAsciiLowercase_eq_nil (s : Text) : s.toAsciiLowercase = [] ↔ s = [] := by
  simp [toAsciiLowercase]

theorem eqIgnoreAsciiCase_iff (s t : Text) :
    eqIgnoreAsciiCase s t = true ↔ s.toAsciiLowercase = t.toAsciiLowercase := by
  simp [eqIgnoreAsciiCase]

end Text
end HClient
