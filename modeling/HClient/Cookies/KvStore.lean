import HClient.Core.Reader
import HClient.Cookies.Jar
import HClient.Kv.Calls

/-!
# Cookies over the byte seam

`cookie::kv`: a cookie is encoded whole and kept under its replacement key, the domain first and
with its labels reversed. The bounds of the jar are kept here, one by a scan of the domain and
one by a counter.
-/
namespace HClient.Cookies

open Effect Kv
open Hsts (toLeBytes)
open CookieJar (utf8Bytes)

namespace KvStore

/-- The namespace this wrapper writes under. -/
def ns : Text := "cookie".toList

def separator : Char := Char.ofNat 1

/-- The same function of a name as `hsts::kv` has: an address keeps its labels in their order. -/
def reverseLabels (domain : Text) : Text := Hsts.reverseLabels domain

def prefixFor (domain : Text) : Text := reverseLabels domain ++ [separator]

def keyFor (key : CookieKey) : Text :=
  prefixFor key.domain ++ key.name ++ separator :: key.path ++
    [separator, if key.hostOnly then '1' else '0']

/-! ## The encoding -/

def secs (t : SystemTime) : Nat := Duration.asSecs (t.sinceEpoch.getD 0)

/-- What a session cookie's expiry is written as. -/
def noExpiry : Nat := 2 ^ 64 - 1

def sameSiteTag : Option SameSite → Nat
  | none => 0
  | some .strict => 1
  | some .lax => 2
  | some .none => 3

/-- `none` for a tag this encoder does not write. -/
def sameSiteOf : Nat → Option (Option SameSite)
  | 0 => some none
  | 1 => some (some .strict)
  | 2 => some (some .lax)
  | 3 => some (some .none)
  | _ => none

def flagsOf (c : Cookie) : Nat :=
  c.hostOnly.toNat + c.persistent.toNat * 2 + c.secure.toNat * 4 + c.httpOnly.toNat * 8

/-- `none` for a cookie whose name, value, domain or path is longer than its length field can
say. -/
def encode (c : Cookie) : Option Bytes := do
  let name ← Reader.writeBlob 2 (utf8Bytes c.name)
  let value ← Reader.writeBlob 4 (utf8Bytes c.value)
  let domain ← Reader.writeBlob 2 (utf8Bytes c.domain)
  let path ← Reader.writeBlob 2 (utf8Bytes c.path)
  pure (toLeBytes 8 ((c.expires.map secs).getD noExpiry) ++ (toLeBytes 8 (secs c.creation) ++
    (toLeBytes 8 (secs c.lastAccess) ++ (toLeBytes 8 c.seq ++ (toLeBytes 1 (flagsOf c) ++
      (toLeBytes 1 (sameSiteTag c.sameSite) ++ (name ++ (value ++ (domain ++ path)))))))))

def atEpochPlus (secs : Nat) : Option SystemTime :=
  SystemTime.unixEpoch.checkedAdd (Duration.fromSecs secs)

def instant : Reader SystemTime := do
  let secs ← Reader.number 8
  Reader.some? (atEpochPlus secs)

def expiry : Reader (Option SystemTime) := do
  let secs ← Reader.number 8
  if secs = noExpiry then pure none else Reader.some? ((atEpochPlus secs).map some)

/-- Bits that this encoder does not write mean that the value came from somewhere else. -/
def flags : Reader Nat := do
  let flags ← Reader.number 1
  Reader.some? (if flags < 16 then some flags else none)

def sameSite : Reader (Option SameSite) := do
  let tag ← Reader.number 1
  Reader.some? (sameSiteOf tag)

def reader : Reader Cookie := do
  let expires ← expiry
  let creation ← instant
  let lastAccess ← instant
  let seq ← Reader.number 8
  let flags ← flags
  let sameSite ← sameSite
  let name ← Reader.str 2
  let value ← Reader.str 4
  let domain ← Reader.str 2
  let path ← Reader.str 2
  pure ⟨name, value, domain, path, expires, creation, lastAccess, seq, flags.testBit 0,
    flags.testBit 1, flags.testBit 2, flags.testBit 3, sameSite⟩

/-- The inverse of `encode`, or `none` for bytes it did not write. -/
def decode (bytes : Bytes) : Option Cookie :=
  ((do let c ← reader; Reader.finished; pure c : Reader Cookie).run bytes).map Prod.fst

/-! ## The store -/

/-- What a scan answers, decoded and in the order of arrival. -/
def decoded (found : List (Text × Bytes)) : List Cookie :=
  (found.filterMap fun e => decode e.2).insertionSort fun a b => a.seq ≤ b.seq

def get (domains : List Text) : Calls (List Cookie) := do
  let found ← Program.perform (Call.scanMany (domains.map prefixFor))
  pure (decoded found)

def all : Calls (List Cookie) := do
  let found ← Program.perform (Call.scan [])
  pure (decoded found)

def len : Calls Nat := do
  let found ← Program.perform (Call.scan [])
  pure found.length

/-- A value found, as an eviction looks at it. -/
structure Victim where
  lastAccess : SystemTime
  seq : Nat
  key : Text

def Victim.before (a b : Victim) : Bool :=
  a.lastAccess < b.lastAccess ∨ (a.lastAccess = b.lastAccess ∧ a.seq ≤ b.seq)

def victimOf (e : Text × Bytes) : Option Victim :=
  (decode e.2).map fun c => ⟨c.lastAccess, c.seq, e.1⟩

/-- The least recently used of what was found, as many as there are above the bound. -/
def victims (bound : Nat) (found : List (Text × Bytes)) : List Text :=
  (((found.filterMap victimOf).insertionSort fun a b => a.before b).take
    (found.length - bound)).map Victim.key

/-- `Plan::Touch`: each listed key is written again with the new time. -/
def touchSteps (keys : List Text) (now : SystemTime) (found : List (Text × Bytes)) : List Step :=
  found.flatMap fun e =>
    if e.1 ∈ keys then
      match (decode e.2).bind fun c => encode { c with lastAccess := now } with
      | some value => [.remove e.1, .put e.1 value]
      | none => []
    else []

/-- The counter decides which of the two bounds is looked at. -/
def put (capacity : Capacity) (cookie : Cookie) : Calls Unit :=
  let key := keyFor (CookieKey.of cookie)
  let stem := prefixFor cookie.domain
  match encode cookie with
  | none => pure ()
  | some value => do
      let before ← Program.perform Call.fetchAdd
      let held := wrappingSucc before
      if capacity.maxCookies < held then
        let found ← Program.perform (Call.scan [])
        evict true (victims (capacity.maxCookies - 1) found) [.remove key, .put key value]
      else
        let found ← Program.perform (Call.scan stem)
        evict false (victims (capacity.maxPerDomain - 1) found) [.remove key, .put key value]

def remove (key : CookieKey) : Calls Unit := do
  let _ ← Program.perform Call.fetchSub
  Program.perform (Call.remove (keyFor key))

/-- `sort` and `dedup` of the prefixes. -/
def stemsOf (keys : List CookieKey) : List Text :=
  ((keys.map fun k => prefixFor k.domain).insertionSort fun a b => a ≤ b).dedup

def touch (keys : List CookieKey) (now : SystemTime) : Calls Unit :=
  if keys = [] then pure ()
  else do
    let found ← Program.perform (Call.scanMany (stemsOf keys))
    runSteps (touchSteps (keys.map keyFor) now found)

def clear : Calls Unit := do
  let _ ← Program.perform Call.reset
  Program.perform Call.clear

end KvStore
end HClient.Cookies
