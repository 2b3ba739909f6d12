import HClient.Core.Text

/-!
# Byte strings

The few operations on field values that the parsers share, and the proleptic Gregorian
calendar both date grammars end in.
-/
namespace HClient

namespace Bytes

def isDigit (b : UInt8) : Bool := 48 ≤ b ∧ b ≤ 57

def toLower (b : UInt8) : UInt8 := if 65 ≤ b ∧ b ≤ 90 then b + 32 else b

/-- The bytes of an ASCII literal. -/
def ascii (s : String) : List UInt8 := s.toList.map fun c => UInt8.ofNat c.toNat

def fromUtf8 (bytes : List UInt8) : Option Text := bytes.toByteArray.utf8Decode?.map Array.toList

/-- The bytes of a text. -/
def utf8 (text : Text) : List UInt8 := text.flatMap String.utf8EncodeChar

theorem fromUtf8_utf8 (text : Text) : fromUtf8 (utf8 text) = some text := by
  change text.utf8Encode.utf8Decode?.map Array.toList = some text
  rw [List.utf8Decode?_utf8Encode]
  rfl

theorem eq_utf8_of_fromUtf8 {bytes : List UInt8} {text : Text}
    (decoded : fromUtf8 bytes = some text) : bytes = utf8 text := by
  obtain ⟨chars, there, rfl⟩ := Option.map_eq_some_iff.mp decoded
  have whole := ByteArray.utf8Encode_get_utf8Decode? (b := bytes.toByteArray)
    (h := by rw [there]; rfl)
  simp only [there, Option.get_some] at whole
  have same : (utf8 chars.toList).toByteArray = bytes.toByteArray := whole
  exact (List.toByteArray_inj.mp same).symm

@[simp] theorem utf8_append (s t : Text) : utf8 (s ++ t) = utf8 s ++ utf8 t :=
  List.flatMap_append

theorem utf8_ne_nil {s : Text} (nonempty : s ≠ []) : utf8 s ≠ [] := by
  cases s with
  | nil => exact absurd rfl nonempty
  | cons c s =>
      rw [utf8, List.flatMap_cons]
      have := String.utf8EncodeChar_ne_nil (c := c)
      simp [this]

/-- A byte of an ASCII character stands for that character and no other. -/
theorem mem_utf8EncodeChar {b : UInt8} (low : b.toNat < 128) (c : Char) :
    b ∈ String.utf8EncodeChar c ↔ c.toNat = b.toNat := by
  have code : c.toNat = c.val.toNat := rfl
  unfold String.utf8EncodeChar
  dsimp only
  rw [code]
  generalize c.val.toNat = v
  split
  · rw [List.mem_singleton, ← UInt8.toNat_inj, UInt8.toNat_ofNat']
    omega
  · split
    · simp only [List.mem_cons, List.not_mem_nil, or_false, ← UInt8.toNat_inj, UInt8.toNat_ofNat']
      omega
    · split <;>
        simp only [List.mem_cons, List.not_mem_nil, or_false, ← UInt8.toNat_inj,
          UInt8.toNat_ofNat'] <;>
        omega

theorem mem_utf8 {b : UInt8} (low : b.toNat < 128) (s : Text) :
    b ∈ utf8 s ↔ ∃ c ∈ s, c.toNat = b.toNat := by
  rw [utf8, List.mem_flatMap]
  simp only [mem_utf8EncodeChar low]

/-- The value of a string of digits. -/
def decimal (digits : List UInt8) : Nat := digits.foldl (fun v b => v * 10 + (b.toNat - 48)) 0

def base64Char (n : Nat) : UInt8 :=
  ((ascii "ABCDEFGHIJKLMNOPQRSTUVWXYZabcdefghijklmnopqrstuvwxyz0123456789+/")[n % 64]?).getD 61

/-- The standard alphabet, padded. -/
def base64 : List UInt8 → List UInt8
  | a :: b :: c :: rest =>
      let n := a.toNat * 65536 + b.toNat * 256 + c.toNat
      base64Char (n / 262144) :: base64Char (n / 4096) :: base64Char (n / 64) ::
        base64Char n :: base64 rest
  | [a, b] =>
      let n := a.toNat * 65536 + b.toNat * 256
      [base64Char (n / 262144), base64Char (n / 4096), base64Char (n / 64), 61]
  | [a] => [base64Char (a.toNat / 4), base64Char (a.toNat * 16), 61, 61]
  | [] => []

example : base64 (ascii "alice:pw") = ascii "YWxpY2U6cHc=" := by decide +kernel

end Bytes

namespace Calendar

def isLeapYear (y : Nat) : Bool := (y % 4 = 0 ∧ y % 100 ≠ 0) ∨ y % 400 = 0

def daysInMonth (y m : Nat) : Nat :=
  if m = 2 then (if isLeapYear y then 29 else 28)
  else if m = 4 ∨ m = 6 ∨ m = 9 ∨ m = 11 then 30 else 31

/-- Days from the first of January of year 0, which is a leap year. -/
def dayNumber (y m d : Nat) : Nat :=
  365 * y + (y + 3) / 4 - (y + 99) / 100 + (y + 399) / 400 +
    ((List.range (m - 1)).map fun i => daysInMonth y (i + 1)).sum + (d - 1)

/-- The seconds from the epoch of a date and a time of day, where the calendar has them. -/
def seconds (year month day hour minute second : Nat) : Option Int :=
  if 1 ≤ month ∧ month ≤ 12 ∧ 1 ≤ day ∧ day ≤ daysInMonth year month ∧ hour < 24 ∧
      minute < 60 ∧ second < 60 then
    some (((dayNumber year month day : Int) - (dayNumber 1970 1 1 : Int)) * 86400 +
      hour * 3600 + minute * 60 + second)
  else none

end Calendar
end HClient
