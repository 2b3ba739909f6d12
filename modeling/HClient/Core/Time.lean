import Mathlib

/-!
# Clocks

A `SystemTime` counts nanoseconds from the Unix epoch within what a signed 64-bit count of
seconds can say, so that `checked_add` refuses where the platform's does.
-/
namespace HClient

/-- A length of time in nanoseconds. -/
abbrev Duration := Nat

def nanosPerSec : Nat := 1000000000

def Duration.fromSecs (secs : Nat) : Duration := secs * nanosPerSec

def Duration.fromHours (hours : Nat) : Duration := .fromSecs (hours * 3600)

def Duration.asSecs (d : Duration) : Nat := d / nanosPerSec

/-- `Duration::MAX`. -/
def Duration.longest : Duration := .fromSecs (2 ^ 64 - 1) + (nanosPerSec - 1)

def Duration.saturatingAdd (a b : Duration) : Duration := min (a + b) longest

/-- The nanoseconds a clock can be away from its epoch. -/
def maxNanos : Nat := 2 ^ 63 * nanosPerSec

structure SystemTime where
  nanos : Int
  inRange : -(maxNanos : Int) ≤ nanos ∧ nanos < maxNanos
  deriving DecidableEq

namespace SystemTime

@[ext] theorem ext {a b : SystemTime} (h : a.nanos = b.nanos) : a = b := by
  cases a
  cases b
  cases h
  rfl

instance : LE SystemTime := ⟨fun a b => a.nanos ≤ b.nanos⟩
instance : LT SystemTime := ⟨fun a b => a.nanos < b.nanos⟩
instance (a b : SystemTime) : Decidable (a ≤ b) := inferInstanceAs (Decidable (a.nanos ≤ b.nanos))
instance (a b : SystemTime) : Decidable (a < b) := inferInstanceAs (Decidable (a.nanos < b.nanos))

theorem le_def {a b : SystemTime} : a ≤ b ↔ a.nanos ≤ b.nanos := Iff.rfl
theorem lt_def {a b : SystemTime} : a < b ↔ a.nanos < b.nanos := Iff.rfl

theorem not_le {a b : SystemTime} : ¬ a ≤ b ↔ b < a := Int.not_le

theorem not_lt {a b : SystemTime} : ¬ a < b ↔ b ≤ a := Int.not_lt

theorem le_trans {a b c : SystemTime} (h : a ≤ b) (h' : b ≤ c) : a ≤ c := Int.le_trans h h'

theorem le_refl (a : SystemTime) : a ≤ a := Int.le_refl _

def unixEpoch : SystemTime := ⟨0, by decide⟩

def checkedAdd (t : SystemTime) (d : Duration) : Option SystemTime :=
  if h : t.nanos + d < maxNanos then
    some ⟨t.nanos + d, by have := t.inRange; omega⟩
  else none

/-- `duration_since(UNIX_EPOCH)`, which has no answer before the epoch. -/
def sinceEpoch (t : SystemTime) : Option Duration :=
  if 0 ≤ t.nanos then some t.nanos.toNat else none

/-- `duration_since`, which has no answer when `earlier` is not earlier. -/
def durationSince (t earlier : SystemTime) : Option Duration :=
  if earlier.nanos ≤ t.nanos then some (t.nanos - earlier.nanos).toNat else none

/-- The instant of a count of seconds. The years of the date grammars have four digits at
most, so what they answer is always within the clock's range. -/
def fromUnix (seconds : Int) : SystemTime :=
  if h : -(maxNanos : Int) ≤ seconds * nanosPerSec ∧ seconds * nanosPerSec < maxNanos then
    ⟨seconds * nanosPerSec, h⟩
  else unixEpoch

def WholeSeconds (t : SystemTime) : Prop := (nanosPerSec : Int) ∣ t.nanos

theorem nanos_lt (t : SystemTime) : t.nanos < maxNanos := t.inRange.2

end SystemTime
end HClient
