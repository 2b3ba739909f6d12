import HClient.Core.Bytes
import HClient.Core.Calendar
import HClient.Core.Words

/-!
# The cookie-date algorithm

`cookie::date`: the tokens of a date are assigned to the first production that matches and
has not been filled in yet.
-/
namespace HClient.Cookies

open Bytes (ascii)

def isDelimiter (b : UInt8) : Bool :=
  b = 0x09 || (0x20 ≤ b ∧ b ≤ 0x2F) || (0x3B ≤ b ∧ b ≤ 0x40) || (0x5B ≤ b ∧ b ≤ 0x60) ||
    (0x7B ≤ b ∧ b ≤ 0x7E)

/-- `min` to `max` digits and then no digit; the value and what follows. -/
def number (min max : Nat) (t : List UInt8) : Option (Nat × List UInt8) :=
  let digits := t.takeWhile Bytes.isDigit
  if min ≤ digits.length ∧ digits.length ≤ max then
    some (Bytes.decimal digits, t.drop digits.length)
  else none

def colonNumber (t : List UInt8) : Option (Nat × List UInt8) :=
  match t with
  | 58 :: t => number 1 2 t
  | _ => none

def matchTime (t : List UInt8) : Option (Nat × Nat × Nat) := do
  let (hour, t) ← number 1 2 t
  let (minute, t) ← colonNumber t
  let (second, _) ← colonNumber t
  pure (hour, minute, second)

def monthNames : List (List UInt8) :=
  ["jan", "feb", "mar", "apr", "may", "jun", "jul", "aug", "sep", "oct", "nov", "dec"].map ascii

def matchMonth (t : List UInt8) : Option Nat :=
  (monthNames.findIdx? fun name => name = (t.take 3).map Bytes.toLower).map (· + 1)

structure DateFields where
  time : Option (Nat × Nat × Nat)
  day : Option Nat
  month : Option Nat
  year : Option Nat

/-- One token of the assignment loop: time, day of month, month and year, in this order. -/
def DateFields.assign (f : DateFields) (token : List UInt8) : DateFields :=
  match f.time, matchTime token with
  | none, some t => { f with time := some t }
  | _, _ =>
    match f.day, number 1 2 token with
    | none, some (d, _) => { f with day := some d }
    | _, _ =>
      match f.month, matchMonth token with
      | none, some m => { f with month := some m }
      | _, _ =>
        match f.year, number 2 4 token with
        | none, some (y, _) => { f with year := some y }
        | _, _ => f

def adjustYear (year : Nat) : Nat :=
  if 70 ≤ year ∧ year ≤ 99 then year + 1900 else if year ≤ 69 then year + 2000 else year

def parseCookieDate (input : List UInt8) : Option Int := do
  let tokens := (input.splitOnP isDelimiter).filter (· ≠ [])
  let fields := tokens.foldl DateFields.assign ⟨none, none, none, none⟩
  let (hour, minute, second) ← fields.time
  let day ← fields.day
  let month ← fields.month
  let year := adjustYear (← fields.year)
  if year < 1601 then none else Calendar.seconds year month day hour minute second

example : parseCookieDate (ascii "Sun, 06 Nov 1994 08:49:37 GMT") = some 784111777 := by
  decide +kernel
example : parseCookieDate (ascii "1970 GMT 00:00:00 Jan 01 Thu") = some 0 ∧
    parseCookieDate (ascii "Sat, 29 Feb 2030 00:00:00 GMT") = none := by
  decide +kernel

end HClient.Cookies

/-!
## What the cookie-date algorithm reads

RFC 6265 section 5.1.1 as relations: how a value divides into date tokens, what a token can be,
which field a token fills, and the instant the fields name. The code computes the same.
-/
namespace HClient.Cookies

/-- The grammar's `non-delimiter`. -/
def NonDelimiter (b : UInt8) : Prop :=
  b ≤ 0x08 ∨ (0x0A ≤ b ∧ b ≤ 0x1F) ∨ (0x30 ≤ b ∧ b ≤ 0x39) ∨ b = 0x3A ∨ (0x41 ≤ b ∧ b ≤ 0x5A) ∨
    (0x61 ≤ b ∧ b ≤ 0x7A) ∨ 0x7F ≤ b

/-- `*delimiter date-token-list *delimiter`, where the list may also be empty. -/
inductive Divided : List UInt8 → List (List UInt8) → Prop
  | done {s : List UInt8} : (∀ b ∈ s, ¬ NonDelimiter b) → Divided s []
  | token {lead token rest : List UInt8} {tokens : List (List UInt8)} :
      (∀ b ∈ lead, ¬ NonDelimiter b) → token ≠ [] → (∀ b ∈ token, NonDelimiter b) →
      (∀ b ∈ rest.head?, ¬ NonDelimiter b) → Divided rest tokens →
      Divided (lead ++ (token ++ rest)) (token :: tokens)

/-- `min` to `max` digits, and then the end or something that is not a digit. -/
def Numeric (min max : Nat) (s : List UInt8) (n : Nat) (rest : List UInt8) : Prop :=
  ∃ digits, s = digits ++ rest ∧ min ≤ digits.length ∧ digits.length ≤ max ∧
    (∀ b ∈ digits, Bytes.isDigit b = true) ∧ (∀ b ∈ rest.head?, Bytes.isDigit b = false) ∧
    n = Bytes.decimal digits

def IsTime (token : List UInt8) (t : Nat × Nat × Nat) : Prop :=
  ∃ minutes seconds rest, Numeric 1 2 token t.1 (0x3A :: minutes) ∧
    Numeric 1 2 minutes t.2.1 (0x3A :: seconds) ∧ Numeric 1 2 seconds t.2.2 rest

def IsDayOfMonth (token : List UInt8) (d : Nat) : Prop := ∃ rest, Numeric 1 2 token d rest

def IsMonth (token : List UInt8) (m : Nat) : Prop :=
  ∃ i name rest, token = name ++ rest ∧ monthNames[i]? = some (name.map Bytes.toLower) ∧ m = i + 1

def IsYear (token : List UInt8) (y : Nat) : Prop := ∃ rest, Numeric 2 4 token y rest

namespace DateFields

def TakesTime (f : DateFields) (token : List UInt8) (t : Nat × Nat × Nat) : Prop :=
  f.time = none ∧ IsTime token t

def TakesDay (f : DateFields) (token : List UInt8) (d : Nat) : Prop :=
  f.day = none ∧ IsDayOfMonth token d

def TakesMonth (f : DateFields) (token : List UInt8) (m : Nat) : Prop :=
  f.month = none ∧ IsMonth token m

def TakesYear (f : DateFields) (token : List UInt8) (y : Nat) : Prop :=
  f.year = none ∧ IsYear token y

/-- One token: the first production that matches it, of those not found yet. -/
inductive Takes (f : DateFields) (token : List UInt8) : DateFields → Prop
  | time {t : Nat × Nat × Nat} : f.TakesTime token t → Takes f token { f with time := some t }
  | day {d : Nat} : (∀ t, ¬ f.TakesTime token t) → f.TakesDay token d →
      Takes f token { f with day := some d }
  | month {m : Nat} : (∀ t, ¬ f.TakesTime token t) → (∀ d, ¬ f.TakesDay token d) →
      f.TakesMonth token m → Takes f token { f with month := some m }
  | year {y : Nat} : (∀ t, ¬ f.TakesTime token t) → (∀ d, ¬ f.TakesDay token d) →
      (∀ m, ¬ f.TakesMonth token m) → f.TakesYear token y →
      Takes f token { f with year := some y }
  | nothing : (∀ t, ¬ f.TakesTime token t) → (∀ d, ¬ f.TakesDay token d) →
      (∀ m, ¬ f.TakesMonth token m) → (∀ y, ¬ f.TakesYear token y) → Takes f token f

/-- The tokens one after the other. -/
inductive Assigned : DateFields → List (List UInt8) → DateFields → Prop
  | done (f : DateFields) : Assigned f [] f
  | next {f g h : DateFields} {token : List UInt8} {tokens : List (List UInt8)} :
      f.Takes token g → Assigned g tokens h → Assigned f (token :: tokens) h

end DateFields

/-- Two digits stand for a year from 1970 to 2069. -/
def fullYear (y : Nat) : Nat :=
  if y ≤ 69 then y + 2000 else if y ≤ 99 then y + 1900 else y

/-- The value names this instant, in seconds from the epoch. -/
def Denotes (input : List UInt8) (t : Int) : Prop :=
  ∃ tokens hour minute second day month year,
    Divided input tokens ∧
      DateFields.Assigned ⟨none, none, none, none⟩ tokens
        ⟨some (hour, minute, second), some day, some month, some year⟩ ∧
      1601 ≤ fullYear year ∧
      ∃ date : Calendar.Date, date.year = fullYear year ∧ date.month = month ∧ date.day = day ∧
        hour < 24 ∧ minute < 60 ∧ second < 60 ∧
        ∃ k, Calendar.Date.Apart Calendar.Date.epoch date k ∧
          t = k * 86400 + hour * 3600 + minute * 60 + second

/-! ## The tokens -/

theorem isDelimiter_eq_false {b : UInt8} : isDelimiter b = false ↔ NonDelimiter b := by
  unfold isDelimiter NonDelimiter
  simp only [Bool.or_eq_false_iff, decide_eq_false_iff_not, UInt8.le_iff_toNat_le,
    ← UInt8.toNat_inj]
  simp only [UInt8.reduceToNat]
  omega

theorem isDelimiter_iff {b : UInt8} : isDelimiter b = true ↔ ¬ NonDelimiter b := by
  rw [← isDelimiter_eq_false, Bool.not_eq_false]

/-- The runs between the delimiters that are not empty. -/
def dateTokens (input : List UInt8) : List (List UInt8) :=
  (input.splitOnP isDelimiter).filter (· ≠ [])

theorem dateTokens_delimiters {lead : List UInt8} (delimiters : ∀ b ∈ lead, isDelimiter b = true)
    (s : List UInt8) : dateTokens (lead ++ s) = dateTokens s := Runs.words_blanks delimiters s

theorem dateTokens_token {token rest : List UInt8} (some_ : token ≠ [])
    (inside : ∀ b ∈ token, isDelimiter b = false)
    (ends : ∀ b ∈ rest.head?, isDelimiter b = true) :
    dateTokens (token ++ rest) = token :: dateTokens rest := Runs.words_word some_ inside ends

theorem dateTokens_of_divided {input : List UInt8} {tokens : List (List UInt8)}
    (divided : Divided input tokens) : dateTokens input = tokens := by
  induction divided with
  | @done s delimiters =>
      have none_ := dateTokens_delimiters (fun b member => isDelimiter_iff.mpr (delimiters b member)) []
      rw [List.append_nil] at none_
      exact none_
  | token lead some_ inside ends _ ih =>
      rw [dateTokens_delimiters fun b member => isDelimiter_iff.mpr (lead b member),
        dateTokens_token some_ (fun b member => isDelimiter_eq_false.mpr (inside b member))
          (fun b there => isDelimiter_iff.mpr (ends b there)), ih]

theorem divided_dateTokens (input : List UInt8) : Divided input (dateTokens input) := by
  induction shorter : input.length using Nat.strong_induction_on generalizing input with
  | _ n ih =>
      subst shorter
      have lead : ∀ b ∈ input.takeWhile isDelimiter, isDelimiter b = true :=
        fun b member => List.mem_takeWhile_imp member
      have split := List.takeWhile_append_dropWhile (p := isDelimiter) (l := input)
      have solid := Runs.dropWhile_ends isDelimiter input
      generalize input.takeWhile isDelimiter = front at lead split
      generalize input.dropWhile isDelimiter = s at solid split
      subst split
      rw [dateTokens_delimiters lead]
      cases s with
      | nil =>
          rw [List.append_nil]
          exact .done fun b member => isDelimiter_iff.mp (lead b member)
      | cons c s =>
          have first : isDelimiter c = false := solid c rfl
          have inside : ∀ b ∈ (c :: s).takeWhile (fun b => !isDelimiter b),
              isDelimiter b = false := by
            intro b member
            simpa using List.mem_takeWhile_imp member
          have split := List.takeWhile_append_dropWhile (p := fun b => !isDelimiter b) (l := c :: s)
          have ends := Runs.dropWhile_ends (fun b => !isDelimiter b) (c :: s)
          have some_ : (c :: s).takeWhile (fun b => !isDelimiter b) ≠ [] := by
            rw [List.takeWhile_cons_of_pos (by rw [first]; rfl)]
            exact List.cons_ne_nil _ _
          generalize (c :: s).takeWhile (fun b => !isDelimiter b) = token at inside split some_
          generalize (c :: s).dropWhile (fun b => !isDelimiter b) = rest at ends split
          rw [← split]
          have stops : ∀ b ∈ rest.head?, isDelimiter b = true := by
            intro b there
            simpa using ends b there
          rw [dateTokens_token some_ inside stops]
          refine .token (fun b member => isDelimiter_iff.mp (lead b member)) some_
            (fun b member => isDelimiter_eq_false.mp (inside b member))
            (fun b there => isDelimiter_iff.mp (stops b there)) (ih rest.length ?_ rest rfl)
          have taken := List.length_pos_of_ne_nil some_
          rw [← split, List.length_append, List.length_append]
          omega

/-! ## The productions -/

theorem number_eq_some {min max n : Nat} {t rest : List UInt8} :
    number min max t = some (n, rest) ↔ Numeric min max t n rest := by
  constructor
  · intro taken
    unfold number at taken
    dsimp only at taken
    split_ifs at taken with fits
    rw [Runs.drop_takeWhile] at taken
    cases taken
    exact ⟨_, List.takeWhile_append_dropWhile.symm, fits.1, fits.2,
      fun b member => List.mem_takeWhile_imp member, Runs.dropWhile_ends Bytes.isDigit t, rfl⟩
  · rintro ⟨digits, rfl, low, high, all, ends, rfl⟩
    unfold number
    dsimp only
    rw [Runs.takeWhile_run all ends, if_pos ⟨low, high⟩, List.drop_left]

theorem colonNumber_eq_some {t rest : List UInt8} {n : Nat} :
    colonNumber t = some (n, rest) ↔ ∃ s, t = 0x3A :: s ∧ Numeric 1 2 s n rest := by
  constructor
  · intro taken
    unfold colonNumber at taken
    split at taken
    next s => exact ⟨s, rfl, number_eq_some.mp taken⟩
    · cases taken
  · rintro ⟨s, rfl, numeric⟩
    exact number_eq_some.mpr numeric

theorem matchTime_eq_some {token : List UInt8} {t : Nat × Nat × Nat} :
    matchTime token = some t ↔ IsTime token t := by
  constructor
  · intro taken
    obtain ⟨⟨hour, afterHour⟩, hours, taken⟩ := Option.bind_eq_some_iff.mp taken
    obtain ⟨⟨minute, afterMinute⟩, minutes, taken⟩ := Option.bind_eq_some_iff.mp taken
    obtain ⟨⟨second, rest⟩, seconds, same⟩ := Option.bind_eq_some_iff.mp taken
    cases same
    obtain ⟨s, rfl, minuteField⟩ := colonNumber_eq_some.mp minutes
    obtain ⟨s', rfl, secondField⟩ := colonNumber_eq_some.mp seconds
    exact ⟨s, s', rest, number_eq_some.mp hours, minuteField, secondField⟩
  · obtain ⟨hour, minute, second⟩ := t
    rintro ⟨s, s', rest, hours, minutes, seconds⟩
    unfold matchTime
    rw [number_eq_some.mpr hours]
    simp only [Option.bind_eq_bind, Option.bind_some, colonNumber_eq_some.mpr ⟨s, rfl, minutes⟩,
      colonNumber_eq_some.mpr ⟨s', rfl, seconds⟩]
    rfl

theorem monthNames_length {i : Nat} {name : List UInt8} (there : monthNames[i]? = some name) :
    name.length = 3 := by
  have all : ∀ name ∈ monthNames, name.length = 3 := by decide
  exact all name (List.mem_of_getElem? there)

theorem monthNames_nodup : monthNames.Nodup := by decide +kernel

theorem matchMonth_eq_some {token : List UInt8} {m : Nat} :
    matchMonth token = some m ↔ IsMonth token m := by
  unfold matchMonth
  rw [Option.map_eq_some_iff]
  constructor
  · rintro ⟨i, found, rfl⟩
    obtain ⟨inside, name, -⟩ := List.findIdx?_eq_some_iff_getElem.mp found
    refine ⟨i, token.take 3, token.drop 3, (List.take_append_drop 3 token).symm, ?_, rfl⟩
    rw [List.getElem?_eq_getElem inside]
    exact congrArg some (of_decide_eq_true name)
  · rintro ⟨i, name, rest, rfl, there, rfl⟩
    have three : name.length = 3 := by
      have length := monthNames_length there
      rwa [List.length_map] at length
    obtain ⟨inside, same⟩ := List.getElem?_eq_some_iff.mp there
    refine ⟨i, List.findIdx?_eq_some_iff_getElem.mpr ⟨inside, ?_, fun j before other => ?_⟩, rfl⟩
    · rw [← three, List.take_left, same]
      exact decide_eq_true rfl
    · rw [← three, List.take_left, ← same] at other
      have twice := (List.Nodup.getElem_inj_iff monthNames_nodup).mp (of_decide_eq_true other)
      exact absurd twice (Nat.ne_of_lt before)

/-! ## The fields -/

theorem takes_assign (f : DateFields) (token : List UInt8) : f.Takes token (f.assign token) := by
  unfold DateFields.assign
  split
  next t open_ time => exact .time ⟨open_, matchTime_eq_some.mp time⟩
  next noTime =>
    have noTime : ∀ t, ¬ f.TakesTime token t :=
      fun t took => noTime t took.1 (matchTime_eq_some.mpr took.2)
    split
    next d rest open_ day => exact .day noTime ⟨open_, rest, number_eq_some.mp day⟩
    next noDay =>
      have noDay : ∀ d, ¬ f.TakesDay token d := by
        rintro d ⟨open_, rest, numeric⟩
        exact noDay d rest open_ (number_eq_some.mpr numeric)
      split
      next m open_ month => exact .month noTime noDay ⟨open_, matchMonth_eq_some.mp month⟩
      next noMonth =>
        have noMonth : ∀ m, ¬ f.TakesMonth token m :=
          fun m took => noMonth m took.1 (matchMonth_eq_some.mpr took.2)
        split
        next y rest open_ year =>
          exact .year noTime noDay noMonth ⟨open_, rest, number_eq_some.mp year⟩
        next noYear =>
          refine .nothing noTime noDay noMonth ?_
          rintro y ⟨open_, rest, numeric⟩
          exact noYear y rest open_ (number_eq_some.mpr numeric)

theorem Numeric.unique {min max n n' : Nat} {s rest rest' : List UInt8}
    (one : Numeric min max s n rest) (other : Numeric min max s n' rest') : n = n' := by
  have same := (number_eq_some.mpr one).symm.trans (number_eq_some.mpr other)
  cases same
  rfl

theorem IsTime.unique {token : List UInt8} {t t' : Nat × Nat × Nat} (one : IsTime token t)
    (other : IsTime token t') : t = t' :=
  Option.some.inj ((matchTime_eq_some.mpr one).symm.trans (matchTime_eq_some.mpr other))

theorem IsMonth.unique {token : List UInt8} {m m' : Nat} (one : IsMonth token m)
    (other : IsMonth token m') : m = m' :=
  Option.some.inj ((matchMonth_eq_some.mpr one).symm.trans (matchMonth_eq_some.mpr other))

/-- A token fills one field in one way. -/
theorem DateFields.Takes.unique {f g h : DateFields} {token : List UInt8} (one : f.Takes token g)
    (other : f.Takes token h) : g = h := by
  cases one with
  | time took =>
      cases other with
      | time took' => rw [took.2.unique took'.2]
      | day no _ => exact absurd took (no _)
      | month no _ _ => exact absurd took (no _)
      | year no _ _ _ => exact absurd took (no _)
      | nothing no _ _ _ => exact absurd took (no _)
  | day noTime took =>
      cases other with
      | time took' => exact absurd took' (noTime _)
      | day _ took' =>
          obtain ⟨-, rest, numeric⟩ := took
          obtain ⟨-, rest', numeric'⟩ := took'
          rw [numeric.unique numeric']
      | month _ no _ => exact absurd took (no _)
      | year _ no _ _ => exact absurd took (no _)
      | nothing _ no _ _ => exact absurd took (no _)
  | month noTime noDay took =>
      cases other with
      | time took' => exact absurd took' (noTime _)
      | day _ took' => exact absurd took' (noDay _)
      | month _ _ took' => rw [took.2.unique took'.2]
      | year _ _ no _ => exact absurd took (no _)
      | nothing _ _ no _ => exact absurd took (no _)
  | year noTime noDay noMonth took =>
      cases other with
      | time took' => exact absurd took' (noTime _)
      | day _ took' => exact absurd took' (noDay _)
      | month _ _ took' => exact absurd took' (noMonth _)
      | year _ _ _ took' =>
          obtain ⟨-, rest, numeric⟩ := took
          obtain ⟨-, rest', numeric'⟩ := took'
          rw [numeric.unique numeric']
      | nothing _ _ _ no => exact absurd took (no _)
  | nothing noTime noDay noMonth noYear =>
      cases other with
      | time took' => exact absurd took' (noTime _)
      | day _ took' => exact absurd took' (noDay _)
      | month _ _ took' => exact absurd took' (noMonth _)
      | year _ _ _ took' => exact absurd took' (noYear _)
      | nothing _ _ _ _ => rfl

theorem assigned_iff {tokens : List (List UInt8)} {f g : DateFields} :
    f.Assigned tokens g ↔ tokens.foldl DateFields.assign f = g := by
  constructor
  · intro assigned
    induction assigned with
    | done f => rfl
    | next took _ ih => rw [List.foldl_cons, (takes_assign _ _).unique took, ih]
  · rintro rfl
    induction tokens generalizing f with
    | nil => exact .done f
    | cons token tokens ih => exact .next (takes_assign f token) ih

/-! ## The date -/

theorem adjustYear_eq (y : Nat) : adjustYear y = fullYear y := by
  unfold adjustYear fullYear
  split_ifs <;> omega

/-- The code answers exactly the instants that values denote. -/
theorem parseCookieDate_eq_some {input : List UInt8} {t : Int} :
    parseCookieDate input = some t ↔ Denotes input t := by
  constructor
  · intro parsed
    unfold parseCookieDate at parsed
    obtain ⟨⟨hour, minute, second⟩, time, parsed⟩ := Option.bind_eq_some_iff.mp parsed
    obtain ⟨day, there, parsed⟩ := Option.bind_eq_some_iff.mp parsed
    obtain ⟨month, there', parsed⟩ := Option.bind_eq_some_iff.mp parsed
    obtain ⟨year, there'', parsed⟩ := Option.bind_eq_some_iff.mp parsed
    dsimp only at parsed
    split_ifs at parsed with early
    rw [adjustYear_eq] at early parsed
    refine ⟨dateTokens input, hour, minute, second, day, month, year, divided_dateTokens input,
      assigned_iff.mpr ?_, Nat.le_of_not_lt early, Calendar.seconds_eq_some.mp parsed⟩
    generalize fields : (dateTokens input).foldl DateFields.assign ⟨none, none, none, none⟩ = f
    have same : ((input.splitOnP isDelimiter).filter (· ≠ [])).foldl DateFields.assign
        ⟨none, none, none, none⟩ = f := fields
    rw [same] at time there there' there''
    obtain ⟨time', day', month', year'⟩ := f
    cases time
    cases there
    cases there'
    cases there''
    rfl
  · rintro ⟨tokens, hour, minute, second, day, month, year, divided, assigned, late, date⟩
    have fields := assigned_iff.mp assigned
    rw [← dateTokens_of_divided divided] at fields
    have same : ((input.splitOnP isDelimiter).filter (· ≠ [])).foldl DateFields.assign
        ⟨none, none, none, none⟩ = ⟨some (hour, minute, second), some day, some month, some year⟩ :=
      fields
    unfold parseCookieDate
    dsimp only
    rw [same]
    simp only [Option.bind_eq_bind, Option.bind_some, adjustYear_eq]
    rw [if_neg (Nat.not_lt.mpr late)]
    exact Calendar.seconds_eq_some.mpr date

end HClient.Cookies
