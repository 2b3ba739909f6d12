import HClient.Core.Bytes
import HClient.Core.Kv
import HClient.Core.Net
import HClient.Core.Segments
import HClient.Core.Time
import HClient.Effect.Program

/-!
# Where the known hosts live

`hsts::store` and `hsts::kv`: an entry is encoded to bytes and kept under its domain with the
labels reversed. A store call of the rules is a program of calls on the byte store, because
the byte store's futures are where another request's calls can come in between.
-/
namespace HClient.Hsts

open Effect Kv

structure Entry where
  domain : Text
  expiresAt : SystemTime
  includeSubdomains : Bool
  deriving DecidableEq

/-- The tails of a host after each of its dots; the loop stops at an empty one. -/
def superdomains : Text → List Text
  | [] => []
  | c :: tail =>
      if c = '.' ∧ tail ≠ [] then Text.toAsciiLowercase tail :: superdomains tail
      else superdomains tail

def candidateDomains (host : Text) : List Text :=
  Text.toAsciiLowercase host :: superdomains host

/-- The key's own reading of an address: a colon, or labels that are all digits. -/
def isAddressKey (host : Text) : Bool :=
  host.contains ':' ||
    (host ≠ [] && (host.splitOn '.').all fun l => l ≠ [] && l.all Text.isAsciiDigit)

/-- The loop of `reverse_labels`: a separator is written only once something stands before it. -/
def pushLabels (labels : List Text) : Text :=
  labels.foldl (fun out label => (if out ≠ [] then out ++ ['.'] else out) ++ label) []

def reverseLabels (domain : Text) : Text :=
  if isAddressKey domain then domain else pushLabels (domain.splitOn '.').reverse

/-- `to_le_bytes` at a width in bytes. -/
def toLeBytes : Nat → Nat → Bytes
  | 0, _ => []
  | width + 1, n => UInt8.ofNat n :: toLeBytes width (n / 256)

def fromLeBytes : Bytes → Nat
  | [] => 0
  | b :: bs => b.toNat + 256 * fromLeBytes bs

def headLen : Nat := 9

/-- An expiry is kept in whole seconds; one before the epoch is kept as the epoch. -/
def expirySecs (t : SystemTime) : Nat := Duration.asSecs (t.sinceEpoch.getD 0)

def encode (entry : Entry) : Bytes :=
  toLeBytes 8 (expirySecs entry.expiresAt) ++
    (if entry.includeSubdomains then 1 else 0) :: entry.domain.flatMap String.utf8EncodeChar

def atEpochPlus (secs : Nat) : Option SystemTime :=
  SystemTime.unixEpoch.checkedAdd (Duration.fromSecs secs)

def decodeFlag (b : UInt8) : Option Bool :=
  if b = 0 then some false else if b = 1 then some true else none

def decode (bytes : Bytes) : Option Entry := do
  let flagByte ← bytes[8]?
  let secs := fromLeBytes (bytes.take 8)
  let includeSubdomains ← decodeFlag flagByte
  let domain ← (bytes.drop headLen).toByteArray.utf8Decode?.map Array.toList
  if domain = [] then none
  else
    let expiresAt ← atEpochPlus secs
    pure ⟨domain, expiresAt, includeSubdomains⟩

/-- The calls on the byte store under the `hsts` namespace. No expiry is handed down. -/
inductive KvCall where
  | getMany (keys : List Text)
  | put (key : Text) (value : Bytes)
  | remove (key : Text)
  | clear

abbrev KvCall.Answer : KvCall → Type
  | .getMany _ => List (List Bytes)
  | .put _ _ => Unit
  | .remove _ => Unit
  | .clear => Unit

def ns : Text := "hsts".toList

abbrev Memory := MemoryStore SystemTime

def KvCall.handle : (op : KvCall) → Memory → op.Answer × Memory
  | .getMany keys, kv => (kv.getMany ns keys SystemTime.unixEpoch, kv)
  | .put key value, kv => ((), kv.put ns key value none SystemTime.unixEpoch)
  | .remove key, kv => ((), kv.remove ns key)
  | .clear, kv => ((), ⟨kv.namespaces.erase ns⟩)

abbrev StoreProgram := Program KvCall KvCall.Answer

namespace KvStore

def getMany (keys : List Text) : StoreProgram (List (List Bytes)) :=
  Program.perform (KvCall.getMany keys)

def get (domains : List Text) : StoreProgram (List Entry) := do
  let found ← getMany (domains.map reverseLabels)
  pure (found.flatten.filterMap decode)

/-- A remove and then the write, because the byte store appends. The pair is not atomic. -/
def put (entry : Entry) : StoreProgram Unit := do
  let key := reverseLabels entry.domain
  let _ ← Program.perform (KvCall.remove key)
  Program.perform (KvCall.put key (encode entry))

def remove (domain : Text) : StoreProgram Unit :=
  Program.perform (KvCall.remove (reverseLabels domain))

end KvStore
end HClient.Hsts

/-!
## What the encoding keeps

Decoding an encoded entry gives it back with its expiry cut to whole seconds, and a key
determines the name it was made from as long as no name ends in a dot.
-/
namespace HClient.Hsts

open Kv

theorem length_toLeBytes (width n : Nat) : (toLeBytes width n).length = width := by
  induction width generalizing n with
  | zero => rfl
  | succ width ih => simp [toLeBytes, ih]

theorem fromLeBytes_toLeBytes (width n : Nat) (h : n < 256 ^ width) :
    fromLeBytes (toLeBytes width n) = n := by
  induction width generalizing n with
  | zero => simp at h; simp [toLeBytes, fromLeBytes, h]
  | succ width ih =>
      have quotient : n / 256 < 256 ^ width := by rw [Nat.pow_succ] at h; omega
      simp only [toLeBytes, fromLeBytes, ih _ quotient, UInt8.toNat_ofNat']
      omega

theorem expirySecs_lt (t : SystemTime) : expirySecs t < 2 ^ 63 := by
  have bound := t.nanos_lt
  unfold expirySecs SystemTime.sinceEpoch Duration.asSecs
  split
  · simp only [Option.getD_some, maxNanos, nanosPerSec] at bound ⊢
    omega
  · simp

/-- The instant an expiry is read back as. -/
def keptExpiry (t : SystemTime) : SystemTime :=
  ⟨expirySecs t * nanosPerSec, by have := expirySecs_lt t; simp only [maxNanos, nanosPerSec]; omega⟩

theorem nanos_keptExpiry (t : SystemTime) :
    (keptExpiry t).nanos = (expirySecs t * nanosPerSec : Nat) := by
  unfold keptExpiry
  simp only [Int.natCast_mul]

theorem expirySecs_of_nanos {t : SystemTime} {n : Nat}
    (whole : t.nanos = (n * nanosPerSec : Nat)) : expirySecs t = n := by
  have positive : 0 ≤ t.nanos := by omega
  rw [expirySecs, SystemTime.sinceEpoch, if_pos positive, Option.getD_some, Duration.asSecs, whole,
    Int.toNat_natCast]
  exact Nat.mul_div_cancel n (by decide)

/-- A time in whole seconds after the epoch is kept as it is. -/
theorem keptExpiry_of_whole {t : SystemTime} (later : SystemTime.unixEpoch ≤ t)
    (whole : t.WholeSeconds) : keptExpiry t = t := by
  have positive : 0 ≤ t.nanos := later
  obtain ⟨secs, seconds⟩ := whole
  have count : t.nanos = (secs.toNat * nanosPerSec : Nat) := by
    simp only [nanosPerSec] at seconds ⊢
    omega
  ext
  rw [nanos_keptExpiry, expirySecs_of_nanos count, count]

theorem keptExpiry_idem (t : SystemTime) : keptExpiry (keptExpiry t) = keptExpiry t := by
  have same : expirySecs (keptExpiry t) = expirySecs t := expirySecs_of_nanos (nanos_keptExpiry t)
  ext
  rw [nanos_keptExpiry, same, nanos_keptExpiry]

theorem atEpochPlus_expirySecs (t : SystemTime) :
    atEpochPlus (expirySecs t) = some (keptExpiry t) := by
  have bound := expirySecs_lt t
  have inside : SystemTime.unixEpoch.nanos + (Duration.fromSecs (expirySecs t) : Nat) <
      maxNanos := by
    simp only [SystemTime.unixEpoch, Duration.fromSecs, maxNanos, nanosPerSec]
    omega
  simp only [atEpochPlus, SystemTime.checkedAdd, dif_pos inside, Option.some.injEq]
  ext
  simp [keptExpiry, SystemTime.unixEpoch, Duration.fromSecs]

/-- The seconds of an instant that was made from seconds. -/
theorem expirySecs_of_atEpochPlus {n : Nat} {t : SystemTime} (found : atEpochPlus n = some t) :
    expirySecs t = n := by
  rw [atEpochPlus, SystemTime.checkedAdd] at found
  split at found
  · cases found
    refine expirySecs_of_nanos ?_
    simp [SystemTime.unixEpoch, Duration.fromSecs]
  · cases found

theorem decodeFlag_encoded (b : Bool) : decodeFlag (if b then 1 else 0) = some b := by
  cases b <;> rfl

theorem decode_domain (domain : Text) :
    (domain.flatMap String.utf8EncodeChar).toByteArray.utf8Decode?.map Array.toList =
      some domain := HClient.Bytes.fromUtf8_utf8 domain

/-- What was put is what is got, but for the fraction of a second and a name of no length. -/
theorem decode_encode (entry : Entry) : decode (encode entry) =
    if entry.domain = [] then none
    else some { entry with expiresAt := keptExpiry entry.expiresAt } := by
  have width := length_toLeBytes 8 (expirySecs entry.expiresAt)
  have small : expirySecs entry.expiresAt < 256 ^ 8 :=
    Nat.lt_trans (expirySecs_lt _) (by decide)
  have flag : (encode entry)[8]? = some (if entry.includeSubdomains then 1 else 0) := by
    simp [encode, width]
  have secs : fromLeBytes ((encode entry).take 8) = expirySecs entry.expiresAt := by
    rw [encode, List.take_left' width, fromLeBytes_toLeBytes 8 _ small]
  have domain : (encode entry).drop headLen = entry.domain.flatMap String.utf8EncodeChar := by
    simp [encode, headLen, List.drop_append, width]
  simp only [decode, flag, secs, domain, decodeFlag_encoded, decode_domain,
    atEpochPlus_expirySecs, Option.bind_eq_bind, Option.bind_some, Option.pure_def]

/-! ## Keys -/

theorem mem_intercalate {sep c : Char} (other : c ≠ sep) {labels : List Text} :
    c ∈ [sep].intercalate labels ↔ ∃ l ∈ labels, c ∈ l := by
  cases labels with
  | nil => simp [List.intercalate]
  | cons first rest => simp [Segments.intercalate_cons, Segments.led, other]

theorem pushLabels_from (out : Text) (nonempty : out ≠ []) (labels : List Text) :
    labels.foldl (fun out label => (if out ≠ [] then out ++ ['.'] else out) ++ label) out =
      out ++ labels.flatMap fun l => '.' :: l := by
  induction labels generalizing out with
  | nil => simp
  | cons label labels ih =>
      rw [List.foldl_cons, if_pos nonempty, ih _ (by simp)]
      simp

theorem pushLabels_eq_intercalate {first : Text} (nonempty : first ≠ []) (rest : List Text) :
    pushLabels (first :: rest) = ['.'].intercalate (first :: rest) := by
  rw [Segments.intercalate_cons, Segments.led, pushLabels, List.foldl_cons]
  simpa using pushLabels_from first nonempty rest

theorem intercalate_labels (s : Text) : ['.'].intercalate (s.splitOn '.') = s :=
  List.intercalate_splitOn '.'

theorem splitOn_inj {s t : Text} (h : s.splitOn '.' = t.splitOn '.') : s = t := by
  rw [← intercalate_labels s, h, intercalate_labels t]

/-- A name that does not end in a dot has a last label to put in front. -/
theorem reverse_labels_cons {domain : Text} (nonempty : domain ≠ [])
    (nodot : domain.getLast? ≠ some '.') :
    ∃ first rest, (domain.splitOn '.').reverse = first :: rest ∧ first ≠ [] := by
  cases h : (domain.splitOn '.').reverse with
  | nil => simp [List.splitOn, List.splitOnP_ne_nil] at h
  | cons first rest =>
      refine ⟨first, rest, rfl, ?_⟩
      rintro rfl
      have split : domain.splitOn '.' = rest.reverse ++ [[]] := by
        rw [← List.reverse_reverse (domain.splitOn '.'), h, List.reverse_cons]
      have whole := intercalate_labels domain
      rw [split] at whole
      cases rest' : rest.reverse with
      | nil => exact nonempty (by simpa [rest', List.intercalate] using whole)
      | cons a l =>
          rw [rest', List.cons_append, Segments.intercalate_cons] at whole
          apply nodot
          rw [← whole]
          simp

/-- The labels can be read off the key of such a name. -/
theorem splitOn_pushLabels {domain : Text} (nonempty : domain ≠ [])
    (nodot : domain.getLast? ≠ some '.') :
    (pushLabels (domain.splitOn '.').reverse).splitOn '.' = (domain.splitOn '.').reverse := by
  obtain ⟨first, rest, labels, first_ne⟩ := reverse_labels_cons nonempty nodot
  rw [labels, pushLabels_eq_intercalate first_ne, ← labels]
  refine List.splitOn_intercalate '.' (fun l member => ?_) (by simp)
  exact Segments.not_mem_of_splitOn (List.mem_reverse.mp member)

theorem pushLabels_ne_nil {domain : Text} (nonempty : domain ≠ [])
    (nodot : domain.getLast? ≠ some '.') : pushLabels (domain.splitOn '.').reverse ≠ [] := by
  obtain ⟨first, rest, labels, first_ne⟩ := reverse_labels_cons nonempty nodot
  rw [labels, pushLabels_eq_intercalate first_ne, Segments.intercalate_cons]
  simp [first_ne]

/-- A reversed name does not read as an address unless the name did. -/
theorem isAddressKey_pushLabels {domain : Text} (nonempty : domain ≠ [])
    (nodot : domain.getLast? ≠ some '.') (name : isAddressKey domain = false) :
    isAddressKey (pushLabels (domain.splitOn '.').reverse) = false := by
  simp only [isAddressKey, Bool.or_eq_false_iff] at name ⊢
  refine ⟨?_, ?_⟩
  · have colon : ':' ∉ domain := by simpa using name.1
    obtain ⟨first, rest, labels, first_ne⟩ := reverse_labels_cons nonempty nodot
    rw [← Bool.not_eq_true, List.contains_iff_mem, labels, pushLabels_eq_intercalate first_ne,
      ← labels, mem_intercalate (by decide)]
    rw [← intercalate_labels domain, mem_intercalate (by decide)] at colon
    simpa using colon
  · have digits := name.2
    rw [splitOn_pushLabels nonempty nodot, List.all_reverse]
    simpa [nonempty, pushLabels_ne_nil nonempty nodot] using digits

/-- Two names that do not end in a dot have two keys. -/
theorem reverseLabels_inj {a b : Text} (ha : a.getLast? ≠ some '.')
    (hb : b.getLast? ≠ some '.') (same : reverseLabels a = reverseLabels b) : a = b := by
  have reversed : ∀ {a b : Text}, a.getLast? ≠ some '.' → isAddressKey a = false →
      isAddressKey b = true → pushLabels (a.splitOn '.').reverse ≠ b := by
    rintro a b ha name address rfl
    by_cases empty : a = []
    · subst empty
      exact absurd address (by decide)
    · rw [isAddressKey_pushLabels empty ha name] at address
      exact Bool.false_ne_true address
  unfold reverseLabels at same
  split at same <;> split at same
  · exact same
  · rename_i address name
    exact absurd same.symm (reversed hb (by simpa using name) address)
  · rename_i name address
    exact absurd same (reversed ha (by simpa using name) address)
  · by_cases emptya : a = [] <;> by_cases emptyb : b = []
    · rw [emptya, emptyb]
    · subst emptya
      exact absurd same.symm (pushLabels_ne_nil emptyb hb)
    · subst emptyb
      exact absurd same (pushLabels_ne_nil emptya ha)
    · have labels := congrArg (List.splitOn '.') same
      rw [splitOn_pushLabels emptya ha, splitOn_pushLabels emptyb hb] at labels
      exact splitOn_inj (List.reverse_injective labels)

end HClient.Hsts
