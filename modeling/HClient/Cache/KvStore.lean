import HClient.Cache.Store
import HClient.Core.Header
import HClient.Core.Reader
import HClient.Kv.Calls

/-!
# Stored responses over the byte seam

`cache::kv`: a variant is a value of its own, under the request's prefix and a digest of its
selector. The bound on the variants is kept here by a counter, and the victim of an eviction is
the oldest by the time it was received.
-/
namespace HClient.Cache

open Effect Kv
open Hsts (toLeBytes)

namespace KvStore

/-- The namespace this wrapper writes under. -/
def ns : Text := "cache".toList

def separator : Char := Char.ofNat 1

def methodText : Method → Text
  | .get => "GET".toList
  | .head => "HEAD".toList
  | .post => "POST".toList
  | .put => "PUT".toList
  | .delete => "DELETE".toList
  | .options => "OPTIONS".toList
  | .trace => "TRACE".toList
  | .connect => "CONNECT".toList
  | .patch => "PATCH".toList
  | .extension name => name

/-- Every variant of one request shares this prefix. -/
def prefixFor (key : Key) : Text :=
  methodText key.method ++ separator :: key.target ++ [separator]

/-! ## The digest -/

def eat (h : Nat) (bytes : List UInt8) : Nat :=
  bytes.foldl (fun h b => ((h ^^^ b.toNat) * 0x100000001b3) % 2 ^ 64) h

def nameBytes (name : HeaderName) : List UInt8 := name.flatMap String.utf8EncodeChar

/-- A 64-bit FNV-1a of the fields; an absent field is not an empty one. -/
def digest (selector : Selector) : Nat :=
  selector.fields.foldl (fun h field =>
    let h := eat (eat h (nameBytes field.1)) [0]
    let h := match field.2 with
      | some v => eat (eat h [1]) v
      | none => eat h [2]
    eat h [0]) 0xcbf29ce484222325

/-- `{:016x}`. -/
def hex16 (n : Nat) : Text := (Nat.toDigits 16 n).leftpad 16 '0'

def keyFor (key : Key) (selector : Selector) : Text := prefixFor key ++ hex16 (digest selector)

/-! ## The encoding -/

def versionTag : HttpVersion → Nat
  | .http09 => 0
  | .http10 => 1
  | .http11 => 2
  | .http2 => 3
  | .http3 => 4

def versionOf : Nat → Option HttpVersion
  | 0 => some .http09
  | 1 => some .http10
  | 2 => some .http11
  | 3 => some .http2
  | 4 => some .http3
  | _ => none

def secs (t : SystemTime) : Nat := Duration.asSecs (t.sinceEpoch.getD 0)

def encodeHeader (field : HeaderName × HeaderValue) : Option Bytes := do
  let name ← Reader.writeBlob 2 (nameBytes field.1)
  let value ← Reader.writeBlob 4 field.2
  pure (name ++ value)

/-- An absent field of a selector has a byte of its own. -/
def encodeSelected (field : HeaderName × Option HeaderValue) : Option Bytes := do
  let name ← Reader.writeBlob 2 (nameBytes field.1)
  match field.2 with
  | some value =>
      let value ← Reader.writeBlob 4 value
      pure (name ++ (toLeBytes 1 1 ++ value))
  | none => pure (name ++ toLeBytes 1 0)

/-- So many items behind their number. -/
def writeMany {α : Type} (write : α → Option Bytes) (items : List α) : Option Bytes := do
  if items.length < 256 ^ 4 then
    let written ← items.mapM write
    pure (toLeBytes 4 items.length ++ written.flatten)
  else none

/-- `none` for a response this encoder cannot represent. -/
def encode (e : StoredResponse) : Option Bytes := do
  let headers ← writeMany encodeHeader e.headers
  let fields ← writeMany encodeSelected e.selector.fields
  let body ← Reader.writeBlob 8 e.body
  pure (toLeBytes 2 e.status ++ (toLeBytes 1 (versionTag e.version) ++
    (toLeBytes 8 (secs e.requestedAt) ++ (toLeBytes 8 (secs e.receivedAt) ++
      (headers ++ (fields ++ body))))))

def atEpochPlus (secs : Nat) : Option SystemTime :=
  SystemTime.unixEpoch.checkedAdd (Duration.fromSecs secs)

/-- `StatusCode::from_u16`. -/
def statusOf (n : Nat) : Option StatusCode := if 100 ≤ n ∧ n < 1000 then some n else none

/-- `HeaderName::from_bytes`. -/
def headerName (bytes : Bytes) : Option HeaderName :=
  (HClient.Bytes.fromUtf8 bytes).bind fun name =>
    if name ≠ [] ∧ name.all Field.isTokenChar ∧ bytes.length < 2 ^ 16 then
      some name.toAsciiLowercase
    else none

/-- `HeaderValue::from_bytes`. -/
def headerValue (bytes : Bytes) : Option HeaderValue :=
  if bytes.all fun b => (32 ≤ b && b ≠ 127) || b = 9 then some bytes else none

def instant : Reader SystemTime := do
  let secs ← Reader.number 8
  Reader.some? (atEpochPlus secs)

def name : Reader HeaderName := do
  let bytes ← Reader.blob 2
  Reader.some? (headerName bytes)

def value : Reader HeaderValue := do
  let bytes ← Reader.blob 4
  Reader.some? (headerValue bytes)

def header : Reader (HeaderName × HeaderValue) := do
  let name ← name
  let value ← value
  pure (name, value)

def selected : Reader (HeaderName × Option HeaderValue) := do
  let name ← name
  let present ← Reader.number 1
  match present with
  | 0 => pure (name, none)
  | 1 =>
      let value ← value
      pure (name, some value)
  | _ => Reader.some? none

def readMany {α : Type} (r : Reader α) : Reader (List α) := do
  let n ← Reader.number 4
  Reader.times r n

/-- What stands in front of the header fields, and how many of them there are. -/
def opening : Reader (StatusCode × HttpVersion × SystemTime × SystemTime × Nat) := do
  let status ← Reader.number 2
  let status ← Reader.some? (statusOf status)
  let version ← Reader.number 1
  let version ← Reader.some? (versionOf version)
  let requestedAt ← instant
  let receivedAt ← instant
  let n ← Reader.number 4
  pure (status, version, requestedAt, receivedAt, n)

/-- What is read behind the header fields; there is nothing where they made the map panic. What is
read back names no request. -/
def readRest (status : StatusCode) (version : HttpVersion) (requestedAt receivedAt : SystemTime) :
    Option (HeaderMap HeaderValue) → Reader (Option StoredResponse)
  | none => pure none
  | some headers => do
      let fields ← readMany selected
      let body ← Reader.blob 8
      pure (some ⟨status, version, headers, body, Selector.fromFields fields, requestedAt,
        receivedAt, [], []⟩)

section
variable (full : HeaderMap HeaderValue → Bool)

/-- So many fields, appended one after another. `HeaderMap::append` panics where the map is `full`:
then there is nothing. -/
def appendHeaders : Nat → HeaderMap HeaderValue → Reader (Option (HeaderMap HeaderValue))
  | 0, headers => pure (some headers)
  | n + 1, headers => do
      let field ← header
      if full headers then pure none else appendHeaders n (headers ++ [field])

def reader : Reader (Option StoredResponse) := do
  let (status, version, requestedAt, receivedAt, n) ← opening
  let headers ← appendHeaders full n []
  readRest status version requestedAt receivedAt headers

/-- What comes of a value that a store hands back. -/
inductive Decoded where
  | entry (e : StoredResponse)
  | refused
  | panicked
  deriving DecidableEq

/-- The inverse of `encode`; bytes it did not write are refused. -/
def decode (bytes : Bytes) : Decoded :=
  match (reader full).run bytes with
  | none => .refused
  | some (none, _) => .panicked
  | some (some e, rest) => if rest = [] then .entry e else .refused

/-- What is refused is skipped. -/
def decodeAll : List (Text × Bytes) → Option (List StoredResponse)
  | [] => some []
  | e :: found =>
      match decode full e.2 with
      | .entry r => (decodeAll found).map fun rest => r :: rest
      | .refused => decodeAll found
      | .panicked => none

end

/-- `received_at` alone. -/
def receivedAtReader : Reader Nat := do
  let _ ← Reader.take (2 + 1 + 8)
  Reader.number 8

def receivedAtOf (bytes : Bytes) : Option Nat := (receivedAtReader.run bytes).map Prod.fst

/-! ## The store -/

/-- There is no answer where it panics. -/
def get (full : HeaderMap HeaderValue → Bool) (key : Key) : Calls (Option (List StoredResponse)) := do
  let found ← Program.perform (Call.scan (prefixFor key))
  pure (decodeAll full found)

def len : Calls Nat := do
  let found ← Program.perform (Call.scan [])
  pure found.length

def victimOf (e : Text × Bytes) : Option (Nat × Text) :=
  (receivedAtOf e.2).map fun received => (received, e.1)

/-- The oldest of what was found, as many as there are above the room for one more. -/
def victims (capacity : Nat) (found : List (Text × Bytes)) : List Text :=
  Kv.choose (fun a b => decide (a.1 ≤ b.1)) Prod.snd (found.length - (capacity - 1))
    (found.filterMap victimOf)

def put (capacity : Nat) (key : Key) (entry : StoredResponse) : Calls Unit :=
  match encode entry with
  | none => pure ()
  | some value =>
      if capacity = 0 then pure ()
      else do
        let key := keyFor key entry.selector
        let before ← Program.perform Call.fetchAdd
        if capacity < wrappingSucc before then
          let found ← Program.perform (Call.scan [])
          evict true (victims capacity found) [.remove key, .put key value]
        else runSteps [.remove key, .put key value]

def remove (key : Key) (selector : Selector) : Calls Unit := do
  let _ ← Program.perform Call.fetchSub
  Program.perform (Call.remove (keyFor key selector))

def invalidate (key : Key) : Calls Unit :=
  Program.perform (Call.removePrefix (prefixFor key))

def clear : Calls Unit := do
  let _ ← Program.perform Call.reset
  Program.perform Call.clear

end KvStore
end HClient.Cache
