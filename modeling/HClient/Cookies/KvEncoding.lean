import HClient.Cookies.KvStore
import HClient.Core.Reader

/-!
# What an encoded cookie keeps

Decoding an encoded cookie gives it back with its times cut to whole seconds, and so under the
key it was written under.
-/
namespace HClient.Cookies

open Kv Reader
open Hsts (toLeBytes keptExpiry)

/-- The cookie as it is read back. -/
def Cookie.kept (c : Cookie) : Cookie :=
  { c with
    expires := c.expires.map keptExpiry
    creation := keptExpiry c.creation
    lastAccess := keptExpiry c.lastAccess }

/-- The insertion counter is a `u64`. -/
def Cookie.SeqFits (c : Cookie) : Prop := c.seq < 2 ^ 64

instance (c : Cookie) : Decidable c.SeqFits := inferInstanceAs (Decidable (c.seq < 2 ^ 64))

namespace KvStore

theorem secs_lt (t : SystemTime) : secs t < 2 ^ 63 := Hsts.expirySecs_lt t

theorem atEpochPlus_secs (t : SystemTime) : atEpochPlus (secs t) = some (keptExpiry t) :=
  Hsts.atEpochPlus_expirySecs t

theorem reads_instant (t : SystemTime) :
    Reads instant (toLeBytes 8 (secs t)) (keptExpiry t) := by
  have small : secs t < 256 ^ 8 := Nat.lt_trans (secs_lt t) (by decide)
  have number := Reads.number small
  have whole := number.bind (f := fun secs => Reader.some? (atEpochPlus secs))
    (atEpochPlus_secs t ▸ Reads.some? (keptExpiry t))
  rw [List.append_nil] at whole
  exact whole

theorem reads_expiry (e : Option SystemTime) :
    Reads expiry (toLeBytes 8 ((e.map secs).getD noExpiry)) (e.map keptExpiry) := by
  cases e with
  | none =>
      have fits : noExpiry < 256 ^ 8 := by decide
      have whole := (Reads.number fits).bind (f := fun secs =>
        if secs = noExpiry then (Pure.pure none : Reader (Option SystemTime))
        else Reader.some? ((atEpochPlus secs).map some))
        (by rw [if_pos rfl]; exact Reads.pure none)
      rw [List.append_nil] at whole
      exact whole
  | some t =>
      have small : secs t < 256 ^ 8 := Nat.lt_trans (secs_lt t) (by decide)
      have other : secs t ≠ noExpiry := by
        have below := secs_lt t
        unfold noExpiry
        omega
      have whole := (Reads.number small).bind (f := fun secs =>
        if secs = noExpiry then (Pure.pure none : Reader (Option SystemTime))
        else Reader.some? ((atEpochPlus secs).map some))
        (by rw [if_neg other, atEpochPlus_secs]; exact Reads.some? (some (keptExpiry t)))
      rw [List.append_nil] at whole
      exact whole

theorem flagsOf_lt (c : Cookie) : flagsOf c < 16 := by
  unfold flagsOf
  cases c.hostOnly <;> cases c.persistent <;> cases c.secure <;> cases c.httpOnly <;> decide

theorem reads_flags (c : Cookie) : Reads flags (toLeBytes 1 (flagsOf c)) (flagsOf c) := by
  have small : flagsOf c < 256 ^ 1 := Nat.lt_trans (flagsOf_lt c) (by decide)
  have whole := (Reads.number small).bind
    (f := fun flags => Reader.some? (if flags < 16 then some flags else none))
    (by rw [if_pos (flagsOf_lt c)]; exact Reads.some? (flagsOf c))
  rw [List.append_nil] at whole
  exact whole

theorem sameSiteOf_tag (s : Option SameSite) : sameSiteOf (sameSiteTag s) = some s := by
  rcases s with _ | _ | _ | _ <;> rfl

theorem reads_sameSite (s : Option SameSite) :
    Reads sameSite (toLeBytes 1 (sameSiteTag s)) s := by
  have small : sameSiteTag s < 256 ^ 1 := by rcases s with _ | _ | _ | _ <;> decide
  have whole := (Reads.number small).bind (f := fun tag => Reader.some? (sameSiteOf tag))
    (by rw [sameSiteOf_tag]; exact Reads.some? s)
  rw [List.append_nil] at whole
  exact whole

theorem flags_bits (c : Cookie) :
    (flagsOf c).testBit 0 = c.hostOnly ∧ (flagsOf c).testBit 1 = c.persistent ∧
      (flagsOf c).testBit 2 = c.secure ∧ (flagsOf c).testBit 3 = c.httpOnly := by
  unfold flagsOf
  cases c.hostOnly <;> cases c.persistent <;> cases c.secure <;> cases c.httpOnly <;> decide

theorem reads_reader {c : Cookie} {bytes : Bytes} (fits : c.SeqFits)
    (encoded : encode c = some bytes) : Reads reader bytes c.kept := by
  unfold encode at encoded
  simp only [Option.bind_eq_bind, Option.bind_eq_some_iff, Option.pure_def, Option.some.injEq]
    at encoded
  obtain ⟨name, wroteName, value, wroteValue, domain, wroteDomain, path, wrotePath, rfl⟩ :=
    encoded
  have seqFits : c.seq < 256 ^ 8 := Nat.lt_of_lt_of_le fits (by decide)
  obtain ⟨hostOnly, persistent, secure, httpOnly⟩ := flags_bits c
  refine (reads_expiry c.expires).bind ?_
  refine (reads_instant c.creation).bind ?_
  refine (reads_instant c.lastAccess).bind ?_
  refine (Reads.number seqFits).bind ?_
  refine (reads_flags c).bind ?_
  refine (reads_sameSite c.sameSite).bind ?_
  refine (Reads.str wroteName).bind ?_
  refine (Reads.str wroteValue).bind ?_
  refine (Reads.str wroteDomain).bind ?_
  rw [← List.append_nil path]
  refine (Reads.str wrotePath).bind ?_
  rw [hostOnly, persistent, secure, httpOnly]
  exact Reads.pure c.kept

/-- What was put is what is read, but for the fractions of its seconds. -/
theorem decode_encode {c : Cookie} {bytes : Bytes} (fits : c.SeqFits)
    (encoded : encode c = some bytes) : decode bytes = some c.kept := by
  unfold decode
  rw [(reads_reader fits encoded).run_finished]
  rfl

end KvStore
end HClient.Cookies

/-!
## The one encoding of a cookie

A value decodes to a cookie only if it is what is written for that cookie, so that the format
has one spelling for each and none for anything else.
-/
namespace HClient.Cookies

open Kv Reader
open Hsts (toLeBytes keptExpiry)

/-- The cookie's times are what the format can say: whole seconds from the epoch on. -/
structure Cookie.WholeTimes (c : Cookie) : Prop where
  expires : ∀ t ∈ c.expires, SystemTime.unixEpoch ≤ t ∧ t.WholeSeconds
  creation : SystemTime.unixEpoch ≤ c.creation ∧ c.creation.WholeSeconds
  lastAccess : SystemTime.unixEpoch ≤ c.lastAccess ∧ c.lastAccess.WholeSeconds

/-- The cookie's numbers and strings fit their fields. -/
structure Cookie.Fits (c : Cookie) : Prop where
  seq : c.seq < 2 ^ 64
  name : (CookieJar.utf8Bytes c.name).length < 2 ^ 16
  value : (CookieJar.utf8Bytes c.value).length < 2 ^ 32
  domain : (CookieJar.utf8Bytes c.domain).length < 2 ^ 16
  path : (CookieJar.utf8Bytes c.path).length < 2 ^ 16

theorem Cookie.WholeTimes.kept {c : Cookie} (whole : c.WholeTimes) : c.kept = c := by
  have expires : c.expires.map keptExpiry = c.expires := by
    cases there : c.expires with
    | none => rfl
    | some t =>
        obtain ⟨later, seconds⟩ := whole.expires t there
        rw [Option.map_some, Hsts.keptExpiry_of_whole later seconds]
  rw [Cookie.kept, expires, Hsts.keptExpiry_of_whole whole.creation.1 whole.creation.2,
    Hsts.keptExpiry_of_whole whole.lastAccess.1 whole.lastAccess.2]

namespace KvStore

variable {bytes rest : Bytes}

theorem encode_isSome_of_fits {c : Cookie} (fits : c.Fits) : ∃ bytes, encode c = some bytes := by
  have wide : (256 : Nat) ^ 2 = 2 ^ 16 ∧ (256 : Nat) ^ 4 = 2 ^ 32 := by decide
  rw [encode, writeBlob, writeBlob, writeBlob, writeBlob, wide.1, wide.2, if_pos fits.name,
    if_pos fits.value, if_pos fits.domain, if_pos fits.path]
  exact ⟨_, rfl⟩

theorem instant_taken {t : SystemTime} (ran : instant.run bytes = some (t, rest)) :
    bytes = toLeBytes 8 (secs t) ++ rest := by
  obtain ⟨n, middle, first, second⟩ := bind_taken ran
  obtain ⟨found, rfl⟩ := some?_taken second
  have seconds : secs t = n := Hsts.expirySecs_of_atEpochPlus found
  rw [seconds]
  exact (number_taken first).2

theorem expiry_taken {e : Option SystemTime} (ran : expiry.run bytes = some (e, rest)) :
    bytes = toLeBytes 8 ((e.map secs).getD noExpiry) ++ rest := by
  obtain ⟨n, middle, first, second⟩ := bind_taken ran
  have here := (number_taken first).2
  by_cases session : n = noExpiry
  · rw [if_pos session] at second
    obtain ⟨rfl, rfl⟩ := pure_taken second
    rw [here, session]
    rfl
  · rw [if_neg session] at second
    obtain ⟨found, rfl⟩ := some?_taken second
    obtain ⟨t, at_, rfl⟩ := Option.map_eq_some_iff.mp found
    have seconds : secs t = n := Hsts.expirySecs_of_atEpochPlus at_
    rw [here, Option.map_some, Option.getD_some, seconds]

theorem flags_taken {n : Nat} (ran : flags.run bytes = some (n, rest)) :
    n < 16 ∧ bytes = toLeBytes 1 n ++ rest := by
  obtain ⟨m, middle, first, second⟩ := bind_taken ran
  obtain ⟨found, rfl⟩ := some?_taken second
  split at found
  next small =>
    cases found
    exact ⟨small, (number_taken first).2⟩
  · cases found

theorem sameSite_taken {s : Option SameSite} (ran : sameSite.run bytes = some (s, rest)) :
    bytes = toLeBytes 1 (sameSiteTag s) ++ rest := by
  obtain ⟨tag, middle, first, second⟩ := bind_taken ran
  obtain ⟨found, rfl⟩ := some?_taken second
  have same : sameSiteTag s = tag := by
    unfold sameSiteOf at found
    split at found <;> cases found <;> rfl
  rw [same]
  exact (number_taken first).2

/-- Four bits are what the four flags are written as. -/
theorem flagsOf_testBit {n : Nat} (small : n < 16) (c : Cookie) (hostOnly : c.hostOnly = n.testBit 0)
    (persistent : c.persistent = n.testBit 1) (secure : c.secure = n.testBit 2)
    (httpOnly : c.httpOnly = n.testBit 3) : flagsOf c = n := by
  rw [flagsOf, hostOnly, persistent, secure, httpOnly]
  interval_cases n <;> rfl

theorem encode_of_decode {c : Cookie} (decoded : decode bytes = some c) : encode c = some bytes := by
  have ran := finished_taken decoded
  obtain ⟨expires, _, read, ran⟩ := bind_taken ran
  have expires_ := expiry_taken read
  obtain ⟨creation, _, read, ran⟩ := bind_taken ran
  have creation_ := instant_taken read
  obtain ⟨lastAccess, _, read, ran⟩ := bind_taken ran
  have lastAccess_ := instant_taken read
  obtain ⟨seq, _, read, ran⟩ := bind_taken ran
  have seq_ := (number_taken read).2
  obtain ⟨flags, _, read, ran⟩ := bind_taken ran
  obtain ⟨small, flags_⟩ := flags_taken read
  obtain ⟨sameSite, _, read, ran⟩ := bind_taken ran
  have sameSite_ := sameSite_taken read
  obtain ⟨name, _, read, ran⟩ := bind_taken ran
  obtain ⟨name_, wroteName, first⟩ := str_taken read
  obtain ⟨value, _, read, ran⟩ := bind_taken ran
  obtain ⟨value_, wroteValue, second⟩ := str_taken read
  obtain ⟨domain, _, read, ran⟩ := bind_taken ran
  obtain ⟨domain_, wroteDomain, third⟩ := str_taken read
  obtain ⟨path, _, read, ran⟩ := bind_taken ran
  obtain ⟨path_, wrotePath, fourth⟩ := str_taken read
  obtain ⟨rfl, none⟩ := pure_taken ran
  have bits := flagsOf_testBit small ⟨name, value, domain, path, expires, creation, lastAccess, seq,
    flags.testBit 0, flags.testBit 1, flags.testBit 2, flags.testBit 3, sameSite⟩ rfl rfl rfl rfl
  have names : writeBlob 2 (CookieJar.utf8Bytes name) = some name_ := wroteName
  have values : writeBlob 4 (CookieJar.utf8Bytes value) = some value_ := wroteValue
  have domains : writeBlob 2 (CookieJar.utf8Bytes domain) = some domain_ := wroteDomain
  have paths : writeBlob 2 (CookieJar.utf8Bytes path) = some path_ := wrotePath
  rw [encode, names, values, domains, paths]
  rw [expires_, creation_, lastAccess_, seq_, flags_, sameSite_, first, second, third, fourth, none,
    List.append_nil]
  simp only [Option.bind_eq_bind, Option.bind_some, Option.pure_def, bits]

/-- A cookie that the format can hold is read back as it was written, and nothing is read back
but what is written for it. -/
theorem one_encoding :
    (∀ c : Cookie, c.WholeTimes → c.Fits → ∃ bytes, encode c = some bytes ∧ decode bytes = some c) ∧
      ∀ (bytes : Bytes) (c : Cookie), decode bytes = some c → encode c = some bytes := by
  refine ⟨fun c whole fits => ?_, fun bytes c => encode_of_decode⟩
  obtain ⟨bytes, encoded⟩ := encode_isSome_of_fits fits
  have decoded := decode_encode fits.seq encoded
  rw [whole.kept] at decoded
  exact ⟨bytes, encoded, decoded⟩

end KvStore
end HClient.Cookies
