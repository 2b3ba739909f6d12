import HClient.Core.Bytes
import HClient.Core.Calendar
import HClient.Core.Trimming

/-!
# The HTTP-date grammar

`cache::date`: the three fixed layouts of RFC 9110. Each reader takes what it reads off the
front and answers the rest.
-/
namespace HClient.Cache

open Bytes (ascii)

def isWhitespace (b : UInt8) : Bool := b = 32 || b = 9 || b = 10 || b = 12 || b = 13

def trimOws (v : List UInt8) : List UInt8 :=
  ((v.dropWhile isWhitespace).reverse.dropWhile isWhitespace).reverse

def literal (s : String) (t : List UInt8) : Option (List UInt8) :=
  if (ascii s).isPrefixOf t then some (t.drop (ascii s).length) else none

/-- The first of the names that the input starts with, by its place. -/
def oneOf (names : List String) (t : List UInt8) : Option (Nat × List UInt8) :=
  (names.zipIdx.findSome? fun (name, i) => (literal name t).map fun rest => (i, rest))

def days : List String := ["Mon", "Tue", "Wed", "Thu", "Fri", "Sat", "Sun"]

def longDays : List String :=
  ["Monday", "Tuesday", "Wednesday", "Thursday", "Friday", "Saturday", "Sunday"]

def months : List String :=
  ["Jan", "Feb", "Mar", "Apr", "May", "Jun", "Jul", "Aug", "Sep", "Oct", "Nov", "Dec"]

def month (t : List UInt8) : Option (Nat × List UInt8) :=
  (oneOf months t).map fun (i, rest) => (i + 1, rest)

/-- Exactly `n` digits; more may follow. -/
def digits (n : Nat) (t : List UInt8) : Option (Nat × List UInt8) :=
  if (t.take n).length = n ∧ (t.take n).all Bytes.isDigit then
    some (Bytes.decimal (t.take n), t.drop n)
  else none

/-- A leap second reads as the second before it. -/
def timeOfDay (t : List UInt8) : Option ((Nat × Nat × Nat) × List UInt8) := do
  let (h, t) ← digits 2 t
  let (m, t) ← digits 2 (← literal ":" t)
  let (s, t) ← digits 2 (← literal ":" t)
  if 23 < h ∨ 59 < m ∨ 60 < s then none else pure ((h, m, min s 59), t)

def civil (year month day : Nat) (hms : Nat × Nat × Nat) : Option Int :=
  Calendar.seconds year month day hms.1 hms.2.1 hms.2.2

def imfFixdate (t : List UInt8) : Option (Int × List UInt8) := do
  let (_, t) ← oneOf days t
  let (day, t) ← digits 2 (← literal ", " t)
  let (month, t) ← month (← literal " " t)
  let (year, t) ← digits 4 (← literal " " t)
  let (hms, t) ← timeOfDay (← literal " " t)
  let t ← literal " GMT" t
  pure (← civil year month day hms, t)

def rfc850 (t : List UInt8) : Option (Int × List UInt8) := do
  let (_, t) ← oneOf longDays t
  let (day, t) ← digits 2 (← literal ", " t)
  let (month, t) ← month (← literal "-" t)
  let (yy, t) ← digits 2 (← literal "-" t)
  let (hms, t) ← timeOfDay (← literal " " t)
  let t ← literal " GMT" t
  pure (← civil (if 70 ≤ yy then 1900 + yy else 2000 + yy) month day hms, t)

def asctime (t : List UInt8) : Option (Int × List UInt8) := do
  let (_, t) ← oneOf days t
  let (month, t) ← month (← literal " " t)
  let t ← literal " " t
  let (day, t) ← digits 2 t <|> (literal " " t).bind (digits 1)
  let (hms, t) ← timeOfDay (← literal " " t)
  let (year, t) ← digits 4 (← literal " " t)
  pure (← civil year month day hms, t)

/-- The first layout that reads has to read all of the input. -/
def parseHttpDate (input : List UInt8) : Option Int :=
  let input := trimOws input
  match imfFixdate input <|> rfc850 input <|> asctime input with
  | some (t, []) => some t
  | _ => none

example : parseHttpDate (ascii "Sun, 06 Nov 1994 08:49:37 GMT") = some 784111777 ∧
    parseHttpDate (ascii " Sunday, 06-Nov-94 08:49:37 GMT ") = some 784111777 ∧
    parseHttpDate (ascii "Sun Nov  6 08:49:37 1994") = some 784111777 := by decide +kernel
example : parseHttpDate (ascii "Sun, 06 Nov 1994 08:49:37 GMT x") = none := by decide +kernel

end HClient.Cache

/-!
## What the date layouts denote

The three layouts of an HTTP-date as what is written in each place, and that the readers take
nothing else: a value that reads denotes its instant, and every one that denotes an instant reads.
-/
namespace HClient.Cache

open Bytes (ascii isDigit decimal)

/-! ## The grammar -/

/-- So many digits, and their value. -/
def Digits (n v : Nat) (s : List UInt8) : Prop :=
  s.length = n ∧ s.all isDigit = true ∧ v = decimal s

/-- The month of a number from one on, by its name. -/
def MonthName (m : Nat) (s : List UInt8) : Prop :=
  ∃ i name, months[i]? = some name ∧ m = i + 1 ∧ s = ascii name

/-- A time of day, which may be a leap second. -/
def ClockTime (hour minute second : Nat) (s : List UInt8) : Prop :=
  ∃ hh mm ss, Digits 2 hour hh ∧ Digits 2 minute mm ∧ Digits 2 second ss ∧
    hour ≤ 23 ∧ minute ≤ 59 ∧ second ≤ 60 ∧ s = hh ++ ascii ":" ++ mm ++ ascii ":" ++ ss

/-- A day of the month in two places, the first of which may be blank. -/
def PaddedDay (day : Nat) (s : List UInt8) : Prop :=
  Digits 2 day s ∨ ∃ d, Digits 1 day d ∧ s = ascii " " ++ d

section Layouts
variable (year month day hour minute second : Nat) (s : List UInt8)

def ImfFixdate : Prop :=
  ∃ name ∈ days, ∃ dd mon yyyy time, Digits 2 day dd ∧ MonthName month mon ∧ Digits 4 year yyyy ∧
    ClockTime hour minute second time ∧
    s = ascii name ++ ascii ", " ++ dd ++ ascii " " ++ mon ++ ascii " " ++ yyyy ++ ascii " " ++ time ++
      ascii " GMT"

/-- The years from 70 on are of the last century, and those before of this one. -/
def Rfc850 : Prop :=
  ∃ name ∈ longDays, ∃ yy dd mon short time, Digits 2 day dd ∧ MonthName month mon ∧
    Digits 2 yy short ∧ year = (if 70 ≤ yy then 1900 + yy else 2000 + yy) ∧
    ClockTime hour minute second time ∧
    s = ascii name ++ ascii ", " ++ dd ++ ascii "-" ++ mon ++ ascii "-" ++ short ++ ascii " " ++ time ++
      ascii " GMT"

def Asctime : Prop :=
  ∃ name ∈ days, ∃ mon dd time yyyy, MonthName month mon ∧ PaddedDay day dd ∧
    ClockTime hour minute second time ∧ Digits 4 year yyyy ∧
    s = ascii name ++ ascii " " ++ mon ++ ascii " " ++ dd ++ ascii " " ++ time ++ ascii " " ++ yyyy

/-- A date and a time of day as one of the layouts writes them. -/
def Layout : Prop :=
  ImfFixdate year month day hour minute second s ∨ Rfc850 year month day hour minute second s ∨
    Asctime year month day hour minute second s

end Layouts

/-- A value that is one of the layouts between blanks, of a date that there is. The instant is
that many days from the epoch, and a leap second is the second before it. -/
def DenotesDate (input : List UInt8) (t : Int) : Prop :=
  ∃ lead core trail year month day hour minute second, input = lead ++ (core ++ trail) ∧
    (∀ b ∈ lead, isWhitespace b = true) ∧ (∀ b ∈ trail, isWhitespace b = true) ∧
    Layout year month day hour minute second core ∧
    ∃ date : Calendar.Date, date.year = year ∧ date.month = month ∧ date.day = day ∧
      ∃ k, Calendar.Date.Apart .epoch date k ∧
        t = k * 86400 + hour * 3600 + minute * 60 + min second 59

/-! ## The readers of the parts -/

section Parts
variable {s t rest : List UInt8}

theorem literal_eq_some {name : String} :
    literal name t = some rest ↔ t = ascii name ++ rest := by
  unfold literal
  constructor
  · intro taken
    split at taken
    next front =>
      obtain ⟨more, rfl⟩ := List.isPrefixOf_iff_prefix.mp front
      rw [List.drop_left, Option.some.injEq] at taken
      rw [taken]
    · cases taken
  · rintro rfl
    rw [if_pos (List.isPrefixOf_iff_prefix.mpr (List.prefix_append _ _)), List.drop_left]

/-- None of the names begins with another of them. -/
def PrefixFree (names : List String) : Prop :=
  names.Pairwise fun a b => ¬ ascii a <+: ascii b ∧ ¬ ascii b <+: ascii a

instance (names : List String) : Decidable (PrefixFree names) :=
  inferInstanceAs (Decidable (names.Pairwise _))

theorem findSome_zipIdx {names : List String} (free : PrefixFree names) (k i : Nat) :
    ((names.zipIdx k).findSome? fun (name, i) => (literal name t).map fun rest => (i, rest)) =
      some (i, rest) ↔ ∃ j name, i = k + j ∧ names[j]? = some name ∧ t = ascii name ++ rest := by
  induction free generalizing k with
  | nil =>
      constructor
      · intro found
        cases found
      · rintro ⟨j, name, -, there, -⟩
        cases there
  | @cons name names others _ ih =>
      rw [List.zipIdx_cons, List.findSome?_cons]
      dsimp only
      cases read : literal name t with
      | some more =>
          have front := literal_eq_some.mp read
          dsimp only [Option.map_some]
          constructor
          · intro found
            cases found
            exact ⟨0, name, rfl, rfl, front⟩
          · rintro ⟨j, name', rfl, there, front'⟩
            cases j with
            | zero =>
                cases there
                rw [front] at front'
                rw [List.append_cancel_left front', Nat.add_zero]
            | succ j =>
                have apart := others name' (List.mem_of_getElem? there)
                have fits : ascii name <+: t := ⟨more, front.symm⟩
                have fits' : ascii name' <+: t := ⟨rest, front'.symm⟩
                rcases List.prefix_or_prefix_of_prefix fits fits' with first | second
                · exact absurd first apart.1
                · exact absurd second apart.2
      | none =>
          dsimp only [Option.map_none]
          rw [ih]
          constructor
          · rintro ⟨j, name', rfl, there, front⟩
            exact ⟨j + 1, name', by omega, there, front⟩
          · rintro ⟨j, name', rfl, there, front⟩
            cases j with
            | zero =>
                cases there
                rw [literal_eq_some.mpr front] at read
                cases read
            | succ j => exact ⟨j, name', by omega, there, front⟩

theorem oneOf_eq_some {names : List String} (free : PrefixFree names) {i : Nat} :
    oneOf names t = some (i, rest) ↔ ∃ name, names[i]? = some name ∧ t = ascii name ++ rest := by
  rw [oneOf, findSome_zipIdx free]
  constructor
  · rintro ⟨j, name, rfl, there, front⟩
    exact ⟨name, by rwa [Nat.zero_add], front⟩
  · rintro ⟨name, there, front⟩
    exact ⟨i, name, (Nat.zero_add i).symm, there, front⟩

theorem digits_eq_some {n v : Nat} :
    digits n t = some (v, rest) ↔ ∃ s, t = s ++ rest ∧ Digits n v s := by
  unfold digits
  constructor
  · intro taken
    split at taken
    next front =>
      cases taken
      exact ⟨_, (List.take_append_drop n t).symm, front.1, front.2, rfl⟩
    · cases taken
  · rintro ⟨s, rfl, length, digit, rfl⟩
    rw [List.take_left' length, List.drop_left' length, if_pos ⟨length, digit⟩]

theorem month_eq_some {m : Nat} :
    month t = some (m, rest) ↔ ∃ s, t = s ++ rest ∧ MonthName m s := by
  unfold month
  rw [Option.map_eq_some_iff]
  constructor
  · rintro ⟨⟨i, more⟩, taken, same⟩
    cases same
    obtain ⟨name, there, rfl⟩ := (oneOf_eq_some (by decide)).mp taken
    exact ⟨_, rfl, i, name, there, rfl, rfl⟩
  · rintro ⟨s, rfl, i, name, there, rfl, rfl⟩
    exact ⟨(i, rest), (oneOf_eq_some (by decide)).mpr ⟨name, there, rfl⟩, rfl⟩

theorem timeOfDay_eq_some {hms : Nat × Nat × Nat} : timeOfDay t = some (hms, rest) ↔
    ∃ s hour minute second, t = s ++ rest ∧ ClockTime hour minute second s ∧
      hms = (hour, minute, min second 59) := by
  unfold timeOfDay
  simp only [Option.bind_eq_bind, Option.bind_eq_some_iff, Prod.exists, literal_eq_some,
    digits_eq_some]
  constructor
  · rintro ⟨hour, _, ⟨hh, rfl, hours⟩, _, rfl, minute, _, ⟨mm, rfl, minutes⟩, _, rfl, second, _,
      ⟨ss, rfl, seconds⟩, taken⟩
    split at taken
    · cases taken
    next within =>
      cases taken
      rw [not_or, not_or] at within
      refine ⟨_, hour, minute, second, ?_, ⟨hh, mm, ss, hours, minutes, seconds,
        Nat.le_of_not_lt within.1, Nat.le_of_not_lt within.2.1, Nat.le_of_not_lt within.2.2, rfl⟩, rfl⟩
      simp only [List.append_assoc]
  · rintro ⟨_, hour, minute, second, rfl, ⟨hh, mm, ss, hours, minutes, seconds, hour_le, minute_le,
      second_le, rfl⟩, rfl⟩
    refine ⟨hour, _, ⟨hh, ?_, hours⟩, _, rfl, minute, _, ⟨mm, rfl, minutes⟩, _, rfl, second,
      rest, ⟨ss, rfl, seconds⟩, ?_⟩
    · simp only [List.append_assoc]
    · rw [if_neg]
      · rfl
      · rw [not_or, not_or]
        exact ⟨Nat.not_lt.mpr hour_le, Nat.not_lt.mpr minute_le, Nat.not_lt.mpr second_le⟩

end Parts

/-! ## The readers of the layouts -/

section Layouts
variable {t rest : List UInt8} {x : Int}

theorem imfFixdate_eq_some : imfFixdate t = some (x, rest) ↔
    ∃ s year month day hour minute second, t = s ++ rest ∧
      ImfFixdate year month day hour minute second s ∧
      civil year month day (hour, minute, min second 59) = some x := by
  unfold imfFixdate
  simp only [Option.bind_eq_bind, Option.bind_eq_some_iff, Prod.exists, literal_eq_some,
    digits_eq_some, month_eq_some, timeOfDay_eq_some, oneOf_eq_some (by decide : PrefixFree days)]
  constructor
  · rintro ⟨i, _, ⟨name, there, rfl⟩, _, rfl, day, _, ⟨dd, rfl, days⟩, _, rfl, month, _,
      ⟨mon, rfl, months⟩, _, rfl, year, _, ⟨yyyy, rfl, years⟩, _, rfl, _, _, _, _,
      ⟨time, hour, minute, second, rfl, clock, same⟩, _, rfl, x', exists_, taken⟩
    cases taken
    rw [same] at exists_
    exact ⟨_, year, month, day, hour, minute, second, by simp only [List.append_assoc],
      ⟨name, List.mem_of_getElem? there, dd, mon, yyyy, time, days, months, years, clock, rfl⟩, exists_⟩
  · rintro ⟨_, year, month, day, hour, minute, second, rfl, ⟨name, member, dd, mon, yyyy, time, days,
      months, years, clock, rfl⟩, exists_⟩
    obtain ⟨i, there⟩ := List.mem_iff_getElem?.mp member
    exact ⟨i, _, ⟨name, there, by simp only [List.append_assoc]⟩, _, rfl, day, _, ⟨dd, rfl, days⟩, _,
      rfl, month, _, ⟨mon, rfl, months⟩, _, rfl, year, _, ⟨yyyy, rfl, years⟩, _, rfl, hour, minute, _,
      _, ⟨time, hour, minute, second, rfl, clock, rfl⟩, rest, rfl, x, exists_, rfl⟩

theorem rfc850_eq_some : rfc850 t = some (x, rest) ↔
    ∃ s year month day hour minute second, t = s ++ rest ∧
      Rfc850 year month day hour minute second s ∧
      civil year month day (hour, minute, min second 59) = some x := by
  unfold rfc850
  simp only [Option.bind_eq_bind, Option.bind_eq_some_iff, Prod.exists, literal_eq_some,
    digits_eq_some, month_eq_some, timeOfDay_eq_some,
    oneOf_eq_some (by decide : PrefixFree longDays)]
  constructor
  · rintro ⟨i, _, ⟨name, there, rfl⟩, _, rfl, day, _, ⟨dd, rfl, days⟩, _, rfl, month, _,
      ⟨mon, rfl, months⟩, _, rfl, yy, _, ⟨short, rfl, years⟩, _, rfl, _, _, _, _,
      ⟨time, hour, minute, second, rfl, clock, same⟩, _, rfl, x', exists_, taken⟩
    cases taken
    rw [same] at exists_
    exact ⟨_, _, month, day, hour, minute, second, by simp only [List.append_assoc],
      ⟨name, List.mem_of_getElem? there, yy, dd, mon, short, time, days, months, years, rfl, clock, rfl⟩,
      exists_⟩
  · rintro ⟨_, _, month, day, hour, minute, second, rfl, ⟨name, member, yy, dd, mon, short, time,
      days, months, years, rfl, clock, rfl⟩, exists_⟩
    obtain ⟨i, there⟩ := List.mem_iff_getElem?.mp member
    exact ⟨i, _, ⟨name, there, by simp only [List.append_assoc]⟩, _, rfl, day, _, ⟨dd, rfl, days⟩, _,
      rfl, month, _, ⟨mon, rfl, months⟩, _, rfl, yy, _, ⟨short, rfl, years⟩, _, rfl, hour, minute, _,
      _, ⟨time, hour, minute, second, rfl, clock, rfl⟩, rest, rfl, x, exists_, rfl⟩

/-- Two digits, or a blank and one: what the second way reads, the first refuses. -/
theorem paddedDay_eq_some {day : Nat} :
    (digits 2 t <|> (literal " " t).bind (digits 1)) = some (day, rest) ↔
      ∃ s, t = s ++ rest ∧ PaddedDay day s := by
  constructor
  · intro taken
    rw [Option.orElse_eq_orElse, Option.orElse_eq_or, Option.or_eq_some_iff] at taken
    rcases taken with two | ⟨-, one⟩
    · obtain ⟨s, rfl, digits⟩ := digits_eq_some.mp two
      exact ⟨s, rfl, .inl digits⟩
    · obtain ⟨more, blank, one⟩ := Option.bind_eq_some_iff.mp one
      obtain ⟨s, rfl, digits⟩ := digits_eq_some.mp one
      rw [literal_eq_some] at blank
      exact ⟨_, by rw [blank, List.append_assoc], .inr ⟨s, digits, rfl⟩⟩
  · rintro ⟨s, rfl, two | ⟨d, one, rfl⟩⟩
    · rw [digits_eq_some.mpr ⟨s, rfl, two⟩]
      rfl
    · have refused : digits 2 (ascii " " ++ d ++ rest) = none := by
        apply Option.eq_none_iff_forall_ne_some.mpr
        rintro ⟨v, more⟩ taken
        obtain ⟨s, same, length, digit, -⟩ := digits_eq_some.mp taken
        cases s with
        | nil => cases length
        | cons b s =>
            injection same with same
            rw [← same] at digit
            cases digit
      have read : (literal " " (ascii " " ++ d ++ rest)).bind (digits 1) = some (day, rest) := by
        rw [List.append_assoc, literal_eq_some.mpr rfl, Option.bind_some]
        exact digits_eq_some.mpr ⟨d, rfl, one⟩
      rw [refused, read]
      rfl

theorem asctime_eq_some : asctime t = some (x, rest) ↔
    ∃ s year month day hour minute second, t = s ++ rest ∧
      Asctime year month day hour minute second s ∧
      civil year month day (hour, minute, min second 59) = some x := by
  unfold asctime
  simp only [Option.bind_eq_bind, Option.bind_eq_some_iff, Prod.exists, literal_eq_some,
    digits_eq_some, month_eq_some, timeOfDay_eq_some, paddedDay_eq_some,
    oneOf_eq_some (by decide : PrefixFree days)]
  constructor
  · rintro ⟨i, _, ⟨name, there, rfl⟩, _, rfl, month, _, ⟨mon, rfl, months⟩, _, rfl, day, _,
      ⟨dd, rfl, days⟩, _, rfl, _, _, _, _, ⟨time, hour, minute, second, rfl, clock, same⟩, _, rfl, year,
      _, ⟨yyyy, rfl, years⟩, x', exists_, taken⟩
    cases taken
    rw [same] at exists_
    exact ⟨_, year, month, day, hour, minute, second, by simp only [List.append_assoc],
      ⟨name, List.mem_of_getElem? there, mon, dd, time, yyyy, months, days, clock, years, rfl⟩, exists_⟩
  · rintro ⟨_, year, month, day, hour, minute, second, rfl, ⟨name, member, mon, dd, time, yyyy, months,
      days, clock, years, rfl⟩, exists_⟩
    obtain ⟨i, there⟩ := List.mem_iff_getElem?.mp member
    exact ⟨i, _, ⟨name, there, by simp only [List.append_assoc]⟩, _, rfl, month, _, ⟨mon, rfl, months⟩,
      _, rfl, day, _, ⟨dd, rfl, days⟩, _, rfl, hour, minute, _, _,
      ⟨time, hour, minute, second, rfl, clock, rfl⟩, _, rfl, year, rest, ⟨yyyy, rfl, years⟩, x, exists_,
      rfl⟩

end Layouts

/-! ## The layout that reads -/

section Fourth
variable {year month day hour minute second : Nat} {s rest : List UInt8}

theorem getElem?_front {front : List UInt8} {i : Nat} {b : UInt8} (there : front[i]? = some b) :
    (front ++ rest)[i]? = some b := by
  rw [List.getElem?_append_left (List.getElem?_eq_some_iff.mp there).1, there]

/-- Each layout tells itself by what stands in the fourth place. -/
theorem imfFixdate_fourth (written : ImfFixdate year month day hour minute second s) :
    (s ++ rest)[3]? = some 44 := by
  obtain ⟨name, member, dd, mon, yyyy, time, -, -, -, -, rfl⟩ := written
  have each : ∀ name ∈ days, (ascii name ++ ascii ", ")[3]? = some 44 := by decide
  simp only [List.append_assoc]
  rw [← List.append_assoc, getElem?_front (each name member)]

theorem asctime_fourth (written : Asctime year month day hour minute second s) :
    (s ++ rest)[3]? = some 32 := by
  obtain ⟨name, member, mon, dd, time, yyyy, -, -, -, -, rfl⟩ := written
  have each : ∀ name ∈ days, (ascii name ++ ascii " ")[3]? = some 32 := by decide
  simp only [List.append_assoc]
  rw [← List.append_assoc, getElem?_front (each name member)]

theorem rfc850_fourth (written : Rfc850 year month day hour minute second s) :
    (s ++ rest)[3]? ≠ some 44 ∧ (s ++ rest)[3]? ≠ some 32 := by
  obtain ⟨name, member, yy, dd, mon, short, time, -, -, -, -, -, rfl⟩ := written
  have each : ∀ name ∈ longDays, (ascii name)[3]? ≠ some 44 ∧ (ascii name)[3]? ≠ some 32 := by decide
  have length : ∀ name ∈ longDays, 3 < (ascii name).length := by decide
  simp only [List.append_assoc]
  rw [List.getElem?_append_left (length name member)]
  exact each name member

theorem Layout.clock (written : Layout year month day hour minute second s) :
    hour ≤ 23 ∧ minute ≤ 59 := by
  rcases written with ⟨_, _, _, _, _, _, -, -, -, clock, -⟩ | ⟨_, _, _, _, _, _, _, -, -, -, -, clock, -⟩ |
    ⟨_, _, _, _, _, _, -, -, clock, -, -⟩
  all_goals
    obtain ⟨_, _, _, -, -, -, hour_le, minute_le, -, -⟩ := clock
    exact ⟨hour_le, minute_le⟩

theorem not_isWhitespace_of_isDigit {b : UInt8} (digit : isDigit b = true) :
    isWhitespace b = false := by
  apply Bool.eq_false_iff.mpr
  intro blank
  unfold isWhitespace at blank
  simp only [Bool.or_eq_true, decide_eq_true_eq] at blank
  rcases blank with (((rfl | rfl) | rfl) | rfl) | rfl <;> exact absurd digit (by decide)

/-- A layout begins with a name and ends with a letter or a digit. -/
theorem Layout.solid (written : Layout year month day hour minute second s) :
    Runs.Solid isWhitespace s := by
  have named : ∀ name ∈ days ++ longDays, ascii name ≠ [] ∧
      ∀ b ∈ (ascii name).head?, isWhitespace b = false := by decide +kernel
  have begins : ∃ name ∈ days ++ longDays, ∃ more, s = ascii name ++ more := by
    rcases written with ⟨name, member, _, _, _, _, -, -, -, -, rfl⟩ |
      ⟨name, member, _, _, _, _, _, -, -, -, -, -, rfl⟩ | ⟨name, member, _, _, _, _, -, -, -, -, rfl⟩
    · exact ⟨name, List.mem_append_left _ member, _, by simp only [List.append_assoc]; rfl⟩
    · exact ⟨name, List.mem_append_right _ member, _, by simp only [List.append_assoc]; rfl⟩
    · exact ⟨name, List.mem_append_left _ member, _, by simp only [List.append_assoc]; rfl⟩
  obtain ⟨name, member, more, same⟩ := begins
  obtain ⟨occupied, first⟩ := named name member
  refine ⟨?_, ?_, ?_⟩
  · rw [same]
    exact List.append_ne_nil_of_left_ne_nil occupied _
  · rw [same, List.head?_append_of_ne_nil _ occupied]
    exact first
  · rcases written with ⟨_, _, _, _, _, _, -, -, -, -, rfl⟩ | ⟨_, _, _, _, _, _, _, -, -, -, -, -, rfl⟩ |
      ⟨_, _, _, _, _, yyyy, -, -, -, ⟨length, digits, -⟩, rfl⟩
    · rw [List.getLast?_append_of_ne_nil _ (by decide)]
      decide +kernel
    · rw [List.getLast?_append_of_ne_nil _ (by decide)]
      decide +kernel
    · have occupied : yyyy ≠ [] := by
        rintro rfl
        cases length
      rw [List.getLast?_append_of_ne_nil _ occupied]
      intro b there
      exact not_isWhitespace_of_isDigit (List.all_eq_true.mp digits b (List.mem_of_getLast? there))

end Fourth

section Parse
variable {t rest : List UInt8} {x : Int}

theorem imfFixdate_none (other : t[3]? ≠ some 44) : imfFixdate t = none := by
  apply Option.eq_none_iff_forall_ne_some.mpr
  rintro ⟨x, rest⟩ taken
  obtain ⟨s, _, _, _, _, _, _, rfl, written, -⟩ := imfFixdate_eq_some.mp taken
  exact other (imfFixdate_fourth written)

theorem rfc850_none (blank : t[3]? = some 32) : rfc850 t = none := by
  apply Option.eq_none_iff_forall_ne_some.mpr
  rintro ⟨x, rest⟩ taken
  obtain ⟨s, _, _, _, _, _, _, rfl, written, -⟩ := rfc850_eq_some.mp taken
  exact (rfc850_fourth written).2 blank

/-- The first layout that reads is the only one. -/
theorem layouts_eq_some : (imfFixdate t <|> rfc850 t <|> asctime t) = some (x, rest) ↔
    ∃ s year month day hour minute second, t = s ++ rest ∧
      Layout year month day hour minute second s ∧
      civil year month day (hour, minute, min second 59) = some x := by
  constructor
  · intro taken
    simp only [Option.orElse_eq_orElse, Option.orElse_eq_or, Option.or_eq_some_iff] at taken
    rcases taken with imf | ⟨-, rfc | ⟨-, asc⟩⟩
    · obtain ⟨s, _, _, _, _, _, _, split, written, date⟩ := imfFixdate_eq_some.mp imf
      exact ⟨s, _, _, _, _, _, _, split, .inl written, date⟩
    · obtain ⟨s, _, _, _, _, _, _, split, written, date⟩ := rfc850_eq_some.mp rfc
      exact ⟨s, _, _, _, _, _, _, split, .inr (.inl written), date⟩
    · obtain ⟨s, _, _, _, _, _, _, split, written, date⟩ := asctime_eq_some.mp asc
      exact ⟨s, _, _, _, _, _, _, split, .inr (.inr written), date⟩
  · rintro ⟨s, _, _, _, _, _, _, rfl, imf | rfc | asc, date⟩
    · rw [imfFixdate_eq_some.mpr ⟨s, _, _, _, _, _, _, rfl, imf, date⟩]
      rfl
    · rw [imfFixdate_none (rfc850_fourth rfc).1,
        rfc850_eq_some.mpr ⟨s, _, _, _, _, _, _, rfl, rfc, date⟩]
      rfl
    · have fourth : (s ++ rest)[3]? = some 32 := asctime_fourth asc
      have other : (s ++ rest)[3]? ≠ some 44 := by
        rw [fourth]
        decide
      rw [imfFixdate_none other, rfc850_none fourth,
        asctime_eq_some.mpr ⟨s, _, _, _, _, _, _, rfl, asc, date⟩]
      rfl

/-- The parser answers exactly the instants that values denote. -/
theorem parseHttpDate_eq_some {input : List UInt8} {t : Int} :
    parseHttpDate input = some t ↔ DenotesDate input t := by
  have parsed : parseHttpDate input = some t ↔
      (imfFixdate (trimOws input) <|> rfc850 (trimOws input) <|> asctime (trimOws input)) =
        some (t, []) := by
    unfold parseHttpDate
    dsimp only
    split
    next taken => simp only [taken, Option.some.injEq, Prod.mk.injEq, and_true]
    next other =>
      constructor
      · intro same
        cases same
      · intro same
        exact absurd same (other t)
  rw [parsed, layouts_eq_some]
  constructor
  · rintro ⟨s, year, month, day, hour, minute, second, whole, written, date⟩
    rw [List.append_nil] at whole
    obtain ⟨lead, trail, split, before, behind⟩ := Runs.trim_split isWhitespace input
    obtain ⟨day, rfl, rfl, rfl, -, -, -, k, apart, rfl⟩ := Calendar.seconds_eq_some.mp date
    refine ⟨lead, s, trail, _, _, _, hour, minute, second, ?_, before, behind, written, day, rfl, rfl,
      rfl, k, apart, ?_⟩
    · rw [← whole]
      exact split
    · push_cast
      rfl
  · rintro ⟨lead, s, trail, _, _, _, hour, minute, second, rfl, before, behind, written, date, rfl, rfl,
      rfl, k, apart, rfl⟩
    obtain ⟨hour_le, minute_le⟩ := written.clock
    have whole : trimOws (lead ++ (s ++ trail)) = s := Runs.trim_around written.solid before behind
    refine ⟨s, _, _, _, hour, minute, second, ?_, written, ?_⟩
    · rw [whole, List.append_nil]
    · apply Calendar.seconds_eq_some.mpr
      refine ⟨date, rfl, rfl, rfl, ?_, ?_, ?_, k, apart, ?_⟩
      · exact Nat.lt_succ_of_le hour_le
      · exact Nat.lt_succ_of_le minute_le
      · exact Nat.lt_succ_of_le (Nat.min_le_right _ _)
      · push_cast
        rfl

end Parse

end HClient.Cache
