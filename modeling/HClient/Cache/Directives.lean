import HClient.Core.Header
import HClient.Core.Time

/-!
# The `Cache-Control` grammar

`cache::directives`: a list of names with optional arguments, read up to the first thing that
is not an element; a request and a response each know their own names.
-/
namespace HClient.Cache

open Bytes (ascii)

def token (i : List UInt8) : Option (List UInt8 × List UInt8) :=
  if i.takeWhile HeaderName.isTokenByte = [] then none
  else some (i.takeWhile HeaderName.isTokenByte, i.dropWhile HeaderName.isTokenByte)

def ows (i : List UInt8) : List UInt8 := i.dropWhile fun b => b = 32 ∨ b = 9

/-- The inside of a quoted string as written, and what follows the closing quote. -/
def quotedBody : List UInt8 → Option (List UInt8 × List UInt8)
  | [] => none
  | 34 :: rest => some ([], rest)
  | 92 :: b :: rest => (quotedBody rest).map fun (body, rest) => (92 :: b :: body, rest)
  | b :: rest => (quotedBody rest).map fun (body, rest) => (b :: body, rest)

def quotedString : List UInt8 → Option (List UInt8 × List UInt8)
  | 34 :: rest => quotedBody rest
  | _ => none

structure Directive where
  name : List UInt8
  arg : Option (List UInt8)
  deriving DecidableEq, Repr

def directiveArg (i : List UInt8) : Option (List UInt8 × List UInt8) :=
  match ows i with
  | 61 :: i => quotedString (ows i) <|> token (ows i)
  | _ => none

/-- `opt(directive)`: nothing is taken where there is no token. -/
def optDirective (i : List UInt8) : Option Directive × List UInt8 :=
  match token i with
  | none => (none, i)
  | some (name, i) =>
      match directiveArg i with
      | some (arg, i) => (some ⟨name, some arg⟩, i)
      | none => (some ⟨name, none⟩, i)

/-- `separated(0.., opt(directive), (ows, ",", ows))`. Each separator takes a byte, so the
length of the input is fuel enough. -/
def directives : Nat → List UInt8 → List (Option Directive)
  | 0, i => [(optDirective i).1]
  | fuel + 1, i =>
      let (first, i) := optDirective i
      match ows i with
      | 44 :: i => first :: directives fuel (ows i)
      | _ => [first]

def cacheControl : HeaderName := "cache-control".toList

/-- What `for_each_directive` visits, names in lower case. -/
def allDirectives (headers : HeaderMap HeaderValue) : List Directive :=
  (headers.getAll cacheControl).flatMap fun value =>
    (directives value.length (ows value)).filterMap fun d =>
      d.map fun d => { d with name := d.name.map Bytes.toLower }

def u64Max : Nat := 2 ^ 64 - 1

/-- A `delta-seconds`, saturating; anything but digits is no value at all. -/
def secondsOf (arg : List UInt8) : Option Duration :=
  if arg = [] ∨ ¬ arg.all Bytes.isDigit then none
  else some (.fromSecs (min (Bytes.decimal arg) u64Max))

def seconds (arg : Option (List UInt8)) : Option Duration := arg.bind secondsOf

structure RequestDirectives where
  noStore : Bool
  noCache : Bool
  onlyIfCached : Bool
  maxAge : Option Duration
  maxStale : Option (Option Duration)
  minFresh : Option Duration
  deriving DecidableEq, Repr

def RequestDirectives.add (out : RequestDirectives) (d : Directive) : RequestDirectives :=
  if d.name = ascii "no-store" then { out with noStore := true }
  else if d.name = ascii "no-cache" then { out with noCache := true }
  else if d.name = ascii "only-if-cached" then { out with onlyIfCached := true }
  else if d.name = ascii "max-age" then { out with maxAge := seconds d.arg }
  else if d.name = ascii "min-fresh" then { out with minFresh := seconds d.arg }
  else if d.name = ascii "max-stale" then { out with maxStale := some (d.arg.bind secondsOf) }
  else out

def RequestDirectives.parse (headers : HeaderMap HeaderValue) : RequestDirectives :=
  (allDirectives headers).foldl add ⟨false, false, false, none, none, none⟩

structure ResponseDirectives where
  noStore : Bool
  noCache : Bool
  isPrivate : Bool
  mustRevalidate : Bool
  maxAge : Option Duration
  deriving DecidableEq, Repr

def ResponseDirectives.add (out : ResponseDirectives) (d : Directive) : ResponseDirectives :=
  if d.name = ascii "no-store" then { out with noStore := true }
  else if d.name = ascii "no-cache" then { out with noCache := true }
  else if d.name = ascii "private" then { out with isPrivate := true }
  else if d.name = ascii "must-revalidate" then { out with mustRevalidate := true }
  else if d.name = ascii "max-age" then { out with maxAge := seconds d.arg }
  else out

def ResponseDirectives.parse (headers : HeaderMap HeaderValue) : ResponseDirectives :=
  (allDirectives headers).foldl add ⟨false, false, false, false, none⟩

example : (ResponseDirectives.parse
    [(cacheControl, .ofAscii "private=\"X-A, X-B\" ,, Max-Age = 60")]) =
      ⟨false, false, true, false, some (.fromSecs 60)⟩ := by decide +kernel
example : (RequestDirectives.parse [(cacheControl, .ofAscii "max-stale")]).maxStale =
    some none := by decide +kernel

end HClient.Cache
