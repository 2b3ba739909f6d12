import HClient.Core.Bytes
import HClient.Hsts.Store

/-!
# The advertisements and where they live

`altsvc_cache` and `altsvc_cache::kv`: an origin that advertised `h3` at its own authority is
kept with the end of its lease. Whether it outlives a change of network is not in the value but
in which of two namespaces the value stands.
-/
namespace HClient.AltSvc

open Effect Kv

/-- The host is lowercased, so that two spellings of it are one origin. -/
structure Origin where
  host : Text
  port : UInt16
  lowered : host.toAsciiLowercase = host
  deriving DecidableEq

@[ext] theorem Origin.ext {a b : Origin} (host : a.host = b.host) (port : a.port = b.port) :
    a = b := by
  cases a
  cases b
  cases host
  cases port
  rfl

def Origin.new (host : Text) (port : UInt16) : Origin :=
  ⟨host.toAsciiLowercase, port, Text.toAsciiLowercase_idem host⟩

structure Alternative where
  protocolId : Bytes
  host : Option Text
  port : UInt16
  maxAge : Nat
  persist : Bool
  deriving DecidableEq

def Alternative.isAt (a : Alternative) (origin : Origin) : Bool :=
  a.port = origin.port &&
    match a.host with
    | none => true
    | some h => h.eqIgnoreAsciiCase origin.host

inductive FieldValue where
  | clear
  | alternatives (list : List Alternative)
  deriving DecidableEq

structure Entry where
  expiresAt : SystemTime
  persist : Bool
  deriving DecidableEq

/-! ## Over the byte store -/

/-- The two namespaces. -/
inductive Space where
  | volatile
  | persistent
  deriving DecidableEq

def Space.ns : Space → Text
  | .volatile => "altsvc".toList
  | .persistent => "altsvc-persist".toList

def Space.other : Space → Space
  | .volatile => .persistent
  | .persistent => .volatile

def Entry.space (entry : Entry) : Space := if entry.persist then .persistent else .volatile

/-- The reading of an address that the `hsts` keys have too. -/
def isIpLiteral (host : Text) : Bool := Hsts.isAddressKey host

/-- Between the host and the port, where neither can have it. -/
def separator : Char := Char.ofNat 1

def keyFor (origin : Origin) : Text :=
  let host :=
    if isIpLiteral origin.host then origin.host
    else Hsts.pushLabels (origin.host.splitOn '.').reverse
  host ++ separator :: Nat.toDigits 10 origin.port.toNat

/-- The end of the lease in whole seconds; the persist flag is in the namespace. -/
def encode (entry : Entry) : Bytes := Hsts.toLeBytes 8 (Hsts.expirySecs entry.expiresAt)

def decode (bytes : Bytes) (persist : Bool) : Option Entry :=
  if bytes.length = 8 then
    (Hsts.atEpochPlus (Hsts.fromLeBytes bytes)).map fun expiresAt => ⟨expiresAt, persist⟩
  else none

inductive KvCall where
  | getMany (space : Space) (keys : List Text)
  | put (space : Space) (key : Text) (value : Bytes) (expires : SystemTime)
  | remove (space : Space) (key : Text)
  | clear (space : Space)
  deriving DecidableEq

abbrev KvCall.Answer : KvCall → Type
  | .getMany _ _ => List (List Bytes)
  | .put _ _ _ _ => Unit
  | .remove _ _ => Unit
  | .clear _ => Unit

abbrev Memory := MemoryStore SystemTime

/-- The wrapper has no clock: every call is made at the epoch. -/
def KvCall.handle : (op : KvCall) → Memory → op.Answer × Memory
  | .getMany space keys, kv => (kv.getMany space.ns keys SystemTime.unixEpoch, kv)
  | .put space key value expires, kv =>
      ((), kv.put space.ns key value (some expires) SystemTime.unixEpoch)
  | .remove space key, kv => ((), kv.remove space.ns key)
  | .clear space, kv => ((), kv.clear space.ns)

abbrev StoreProgram := Program KvCall KvCall.Answer

namespace KvStore

/-- The persistent namespace first, and the volatile one if it answered nothing. -/
def get (origin : Origin) : StoreProgram (Option Entry) := do
  let found ← Program.perform (KvCall.getMany .persistent [keyFor origin])
  match found.flatten.findSome? fun b => decode b true with
  | some entry => pure (some entry)
  | none =>
      let found ← Program.perform (KvCall.getMany .volatile [keyFor origin])
      pure (found.flatten.findSome? fun b => decode b false)

/-- Cleared from the other namespace and from its own, then written. -/
def put (origin : Origin) (entry : Entry) : StoreProgram Unit := do
  let key := keyFor origin
  let _ ← Program.perform (KvCall.remove entry.space.other key)
  let _ ← Program.perform (KvCall.remove entry.space key)
  Program.perform (KvCall.put entry.space key (encode entry) entry.expiresAt)

def remove (origin : Origin) : StoreProgram Unit := do
  let _ ← Program.perform (KvCall.remove .volatile (keyFor origin))
  Program.perform (KvCall.remove .persistent (keyFor origin))

def retainPersistent : StoreProgram Unit := Program.perform (KvCall.clear .volatile)

end KvStore

/-! ## The rules -/

def alpnH3 : Bytes := HClient.Bytes.ascii "h3"

def maxLease : Duration := .fromHours 9600

/-- The alternative a field advertises for the origin itself, the first if there are several. -/
def advertised (origin : Origin) : FieldValue → Option Alternative
  | .clear => none
  | .alternatives list => list.find? fun a => a.protocolId = alpnH3 && a.isAt origin

def expiryOf (now : SystemTime) (maxAge : Nat) : SystemTime :=
  (now.checkedAdd (min maxLease (Duration.fromSecs maxAge))).getD now

def advertisesH3 (origin : Origin) (now : SystemTime) : StoreProgram Bool := do
  match ← KvStore.get origin with
  | some e =>
      if now < e.expiresAt then pure true
      else
        let _ ← KvStore.remove origin
        pure false
  | none => pure false

def note (origin : Origin) (value : FieldValue) (now : SystemTime) : StoreProgram Unit :=
  match advertised origin value with
  | some a => KvStore.put origin ⟨expiryOf now a.maxAge, a.persist⟩
  | none => KvStore.remove origin

def networkChanged : StoreProgram Unit := KvStore.retainPersistent

/-! ## Keys and values -/

theorem decode_encode (entry : Entry) (persist : Bool) :
    decode (encode entry) persist = some ⟨Hsts.keptExpiry entry.expiresAt, persist⟩ := by
  have width := Hsts.length_toLeBytes 8 (Hsts.expirySecs entry.expiresAt)
  have small : Hsts.expirySecs entry.expiresAt < 256 ^ 8 :=
    Nat.lt_trans (Hsts.expirySecs_lt _) (by decide)
  rw [decode, encode, if_pos width, Hsts.fromLeBytes_toLeBytes 8 _ small,
    Hsts.atEpochPlus_expirySecs]
  rfl

theorem toDigits_inj {m n : Nat} (same : Nat.toDigits 10 m = Nat.toDigits 10 n) : m = n := by
  have read := congrArg (fun digits => Nat.ofDigitChars 10 digits 0) same
  simpa [Nat.ofDigitChars_ten_toDigits] using read

theorem separator_not_mem_toDigits (n : Nat) : separator ∉ Nat.toDigits 10 n := by
  intro member
  have digit := Nat.isDigit_of_mem_toDigits (by decide) (Nat.le_refl 10) member
  exact absurd digit (by decide)

/-- What stands behind the last separator of a text is determined by the text. -/
theorem append_cons_inj {α : Type} {c : α} {a a' b b' : List α} (hb : c ∉ b) (hb' : c ∉ b')
    (same : a ++ c :: b = a' ++ c :: b') : a = a' ∧ b = b' := by
  rcases List.append_eq_append_iff.mp same with ⟨middle, rfl, rest⟩ | ⟨middle, rfl, rest⟩
  · cases middle with
    | nil => exact ⟨by simp, by simpa using rest⟩
    | cons d middle =>
        simp only [List.cons_append, List.cons.injEq] at rest
        exact absurd (by simp [rest.2]) hb
  · cases middle with
    | nil => exact ⟨by simp, by simpa using rest.symm⟩
    | cons d middle =>
        simp only [List.cons_append, List.cons.injEq] at rest
        exact absurd (by simp [rest.2]) hb'

/-- Two origins whose hosts do not end in a dot have two keys. -/
theorem keyFor_inj {a b : Origin} (ha : a.host.getLast? ≠ some '.')
    (hb : b.host.getLast? ≠ some '.') (same : keyFor a = keyFor b) : a = b := by
  obtain ⟨hosts, ports⟩ := append_cons_inj (separator_not_mem_toDigits _)
    (separator_not_mem_toDigits _) same
  exact Origin.ext (Hsts.reverseLabels_inj ha hb hosts)
    (UInt16.toNat_inj.mp (toDigits_inj ports))

end HClient.AltSvc
