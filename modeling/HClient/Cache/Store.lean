import HClient.Cache.Directives
import HClient.Core.Http
import HClient.Core.Table

/-!
# Where stored responses live

`cache::store`: the primary key, the selector built from a request's fields, and the
in-memory multimap from keys to variants. No rule of RFC 9111 is decided here.
-/
namespace HClient.Cache

structure Key where
  method : Method
  target : Text
  deriving DecidableEq, Repr

/-- Scheme and host in lower case, the default port dropped, the rest as written. -/
def Key.new (method : Method) (uri : Uri) : Option Key :=
  match uri.scheme, uri.authority with
  | some scheme, some authority =>
      let scheme := scheme.asStr.toAsciiLowercase
      let port := match authority.port with
        | none => []
        | some p =>
            if (p = 80 ∧ scheme = "http".toList) ∨ (p = 443 ∧ scheme = "https".toList) then []
            else ':' :: Nat.toDigits 10 p
      let path := (uri.pathAndQuery.map PathAndQuery.asStr).getD ['/']
      some ⟨method, scheme ++ "://".toList ++ authority.host.toAsciiLowercase ++ port ++ path⟩
  | _, _ => none

/-- Every value of a field, joined with a comma and a space. A joined value is a valid one,
since its parts are. -/
def combined (headers : HeaderMap HeaderValue) (name : HeaderName) : Option HeaderValue :=
  match headers.getAll name with
  | [] => none
  | values => some (List.intercalate [44, 32] values)

/-- The secondary key: fields of the request with their values, by name. -/
structure Selector where
  fields : List (HeaderName × Option HeaderValue)
  deriving DecidableEq, Repr

/-- `Vec::dedup_by` on the names. -/
def dedupByName : List (HeaderName × Option HeaderValue) → List (HeaderName × Option HeaderValue)
  | [] => []
  | [f] => [f]
  | f :: g :: rest =>
      if f.1 = g.1 then
        match dedupByName (g :: rest) with
        | _ :: kept => f :: kept
        | [] => [f]
      else f :: dedupByName (g :: rest)

namespace Selector

def fromFields (fields : List (HeaderName × Option HeaderValue)) : Selector :=
  ⟨dedupByName (fields.insertionSort fun a b => a.1 ≤ b.1)⟩

/-- The credential is part of it whether or not it was named. -/
def of (headers : HeaderMap HeaderValue) (names : List HeaderName) : Selector :=
  fromFields ((names ++ [HeaderName.authorization]).map fun n => (n, combined headers n))

def names (s : Selector) : List HeaderName := s.fields.map Prod.fst

end Selector

/-- A message as it came off the wire and what is needed to age it. `request` and `arrived` are
no part of the stored entry: they are the header fields of the request whose response this is,
and those the body arrived with, for the statements about where an entry comes from. -/
structure StoredResponse where
  status : StatusCode
  version : HttpVersion
  headers : HeaderMap HeaderValue
  body : List UInt8
  selector : Selector
  requestedAt : SystemTime
  receivedAt : SystemTime
  request : HeaderMap HeaderValue
  arrived : HeaderMap HeaderValue
  deriving DecidableEq

structure Held where
  entries : Table Key (List StoredResponse)
  held : Nat

namespace Held

def new : Held := ⟨∅, 0⟩

def get (h : Held) (key : Key) : List StoredResponse := (h.entries.lookup key).getD []

def allEntries (h : Held) : List (Key × Nat × StoredResponse) :=
  h.entries.entries.flatMap fun e => e.2.zipIdx.map fun (r, i) => (e.1, i, r)

def replace (h : Held) (key : Key) (variants : List StoredResponse) (held : Nat) : Held :=
  if variants = [] then ⟨h.entries.erase key, held⟩ else ⟨h.entries.insert key variants, held⟩

/-- `Iterator::min_by_key` on the receipt time: the first of the earliest. -/
def earliest : List (Key × Nat × StoredResponse) → Option (Key × Nat × StoredResponse)
  | [] => none
  | e :: rest =>
      some (rest.foldl
        (fun best e => if e.2.2.receivedAt < best.2.2.receivedAt then e else best) e)

def dropAt (h : Held) (key : Key) (i : Nat) : Held :=
  match h.entries.lookup key with
  | none => h
  | some variants => h.replace key (variants.eraseIdx i) (h.held - 1)

/-- The loop of `evict_until_room`. Every turn takes one from the count, so the count is
fuel enough. -/
def evictUntilRoom (capacity : Nat) : Nat → Held → Held
  | 0, h => h
  | fuel + 1, h =>
      if capacity ≤ h.held ∧ 0 < h.held then
        match earliest h.allEntries with
        | some (key, i, _) => evictUntilRoom capacity fuel (h.dropAt key i)
        | none => h
      else h

def remove (h : Held) (key : Key) (selector : Selector) : Held :=
  match h.entries.lookup key with
  | none => h
  | some variants =>
      let kept := variants.filter fun e => e.selector ≠ selector
      h.replace key kept (h.held - (variants.length - kept.length))

def put (capacity : Nat) (h : Held) (key : Key) (entry : StoredResponse) : Held :=
  let h := h.remove key entry.selector
  if capacity = 0 then h
  else
    let h := evictUntilRoom capacity h.held h
    ⟨h.entries.insert key (h.get key ++ [entry]), h.held + 1⟩

def invalidate (h : Held) (key : Key) : Held :=
  match h.entries.lookup key with
  | none => h
  | some variants => ⟨h.entries.erase key, h.held - variants.length⟩

end Held

/-- The calls of the `CacheStore` trait. -/
inductive StoreCall where
  | get (key : Key)
  | put (key : Key) (entry : StoredResponse)
  | remove (key : Key) (selector : Selector)
  | invalidate (key : Key)
  | len
  | clear

def StoreCall.Answer : StoreCall → Type
  | .get _ => List StoredResponse
  | .put .. | .remove .. | .invalidate _ | .clear => Unit
  | .len => Nat

def MemoryStore.handle (capacity : Nat) : (op : StoreCall) → Held → op.Answer × Held
  | .get key, h => (h.get key, h)
  | .put key entry, h => ((), h.put capacity key entry)
  | .remove key selector, h => ((), h.remove key selector)
  | .invalidate key, h => ((), h.invalidate key)
  | .len, h => (h.held, h)
  | .clear, _ => ((), Held.new)

end HClient.Cache
