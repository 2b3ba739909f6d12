import HClient.Core.Bytes
import Mathlib.Logic.Function.Iterate

/-!
# Days of the calendar

The dates of the proleptic Gregorian calendar, each with the day after it. `dayNumber` counts
these days, so that two numbers differ by the days between their dates.
-/
namespace HClient.Calendar

theorem one_le_daysInMonth (y m : Nat) : 1 ≤ daysInMonth y m := by
  unfold daysInMonth
  split_ifs <;> decide

/-- A date that the calendar has. -/
@[ext]
structure Date where
  year : Nat
  month : Nat
  day : Nat
  one_le_month : 1 ≤ month
  month_le : month ≤ 12
  one_le_day : 1 ≤ day
  day_le : day ≤ daysInMonth year month

namespace Date

def first : Date := ⟨0, 1, 1, by decide, by decide, by decide, by decide⟩

def epoch : Date := ⟨1970, 1, 1, by decide, by decide, by decide, by decide⟩

/-- The day after. -/
def next (d : Date) : Date :=
  if more : d.day < daysInMonth d.year d.month then
    ⟨d.year, d.month, d.day + 1, d.one_le_month, d.month_le, Nat.le_add_left _ _, more⟩
  else if more : d.month < 12 then
    ⟨d.year, d.month + 1, 1, Nat.le_add_left _ _, more, Nat.le_refl _, one_le_daysInMonth _ _⟩
  else
    ⟨d.year + 1, 1, 1, Nat.le_refl _, by decide, Nat.le_refl _, one_le_daysInMonth _ _⟩

def number (d : Date) : Nat := dayNumber d.year d.month d.day

/-- From the one date it is `k` days to the other; back, where `k` is negative. -/
def Apart (a b : Date) (k : Int) : Prop :=
  ∃ n : Nat, (k = n ∧ next^[n] a = b) ∨ (k = -n ∧ next^[n] b = a)

end Date

/-! ## Day numbers -/

theorem dayNumber_add_one (y m : Nat) {d : Nat} (positive : 1 ≤ d) :
    dayNumber y m (d + 1) = dayNumber y m d + 1 := by
  unfold dayNumber
  omega

theorem dayNumber_month (y : Nat) {m : Nat} (positive : 1 ≤ m) :
    dayNumber y (m + 1) 1 = dayNumber y m (daysInMonth y m) + 1 := by
  have some_ := one_le_daysInMonth y m
  obtain ⟨i, rfl⟩ := Nat.exists_eq_add_of_le' positive
  unfold dayNumber
  rw [Nat.add_sub_cancel, Nat.add_sub_cancel, List.range_succ, List.map_append, List.sum_append,
    List.map_singleton, List.sum_singleton]
  omega

/-- The months before December, and December. -/
theorem sum_daysInMonth (y : Nat) :
    ((List.range 11).map fun i => daysInMonth y (i + 1)).sum + 31 =
      if isLeapYear y then 366 else 365 := by
  have spread : (List.range 11).map (fun i => daysInMonth y (i + 1)) =
      [31, if isLeapYear y then 29 else 28, 31, 30, 31, 30, 31, 31, 30, 31, 30] := rfl
  rw [spread]
  cases isLeapYear y <;> rfl

theorem dayNumber_year (y : Nat) : dayNumber (y + 1) 1 1 = dayNumber y 12 31 + 1 := by
  have months := sum_daysInMonth y
  -- how many years of each kind there are before the next one
  have fourth : (y + 1 + 3) / 4 = (y + 3) / 4 + if y % 4 = 0 then 1 else 0 := by
    split_ifs <;> omega
  have century : (y + 1 + 99) / 100 = (y + 99) / 100 + if y % 100 = 0 then 1 else 0 := by
    split_ifs <;> omega
  have cycle : (y + 1 + 399) / 400 = (y + 399) / 400 + if y % 400 = 0 then 1 else 0 := by
    split_ifs <;> omega
  have cycleCentury : y % 400 = 0 → y % 100 = 0 := by omega
  have centuryFourth : y % 100 = 0 → y % 4 = 0 := by omega
  have fewer : (y + 99) / 100 ≤ (y + 3) / 4 := by omega
  have leap : isLeapYear y = true ↔ (y % 4 = 0 ∧ y % 100 ≠ 0) ∨ y % 400 = 0 := by
    unfold isLeapYear
    simp
  have last : 12 - 1 = 11 := rfl
  unfold dayNumber
  rw [Nat.sub_self, List.range_zero, List.map_nil, List.sum_nil, last, fourth, century, cycle]
  simp only [leap] at months
  generalize ((List.range 11).map fun i => daysInMonth y (i + 1)).sum = before at months ⊢
  generalize (y + 3) / 4 = fourths at fewer ⊢
  generalize (y + 99) / 100 = centuries at fewer ⊢
  generalize (y + 399) / 400 = cycles
  by_cases four : y % 4 = 0 <;> by_cases hundred : y % 100 = 0 <;>
    by_cases fourHundred : y % 400 = 0 <;>
    simp only [four, hundred, fourHundred, if_true, if_false, true_and, and_true, or_true,
      or_false, false_and, ne_eq, not_true_eq_false, not_false_eq_true] at months ⊢ <;>
    omega

namespace Date

theorem number_next (d : Date) : d.next.number = d.number + 1 := by
  unfold next
  split_ifs with day month
  · exact dayNumber_add_one _ _ d.one_le_day
  · have last : d.day = daysInMonth d.year d.month := Nat.le_antisymm d.day_le (Nat.le_of_not_lt day)
    rw [number, number, last]
    exact dayNumber_month _ d.one_le_month
  · have last : d.day = daysInMonth d.year d.month := Nat.le_antisymm d.day_le (Nat.le_of_not_lt day)
    have december : d.month = 12 := Nat.le_antisymm d.month_le (Nat.le_of_not_lt month)
    rw [number, number, last, december]
    exact dayNumber_year _

theorem number_iterate (n : Nat) (d : Date) : (next^[n] d).number = d.number + n := by
  induction n with
  | zero => rfl
  | succ n ih =>
      rw [Function.iterate_succ_apply', number_next, ih]
      rfl

/-- Every date but the first is the day after another. -/
theorem exists_next_eq (d : Date) : d = first ∨ ∃ c : Date, c.next = d := by
  obtain ⟨y, m, day, one_le_month, month_le, one_le_day, day_le⟩ := d
  by_cases firstDay : day = 1
  · subst firstDay
    by_cases january : m = 1
    · subst january
      cases y with
      | zero => exact .inl rfl
      | succ y =>
          have last : 31 ≤ daysInMonth y 12 := Nat.le_refl _
          refine .inr ⟨⟨y, 12, 31, by decide, Nat.le_refl _, by decide, last⟩, ?_⟩
          unfold next
          rw [dif_neg (show ¬ 31 < daysInMonth y 12 from Nat.lt_irrefl 31),
            dif_neg (show ¬ 12 < 12 from Nat.lt_irrefl 12)]
    · refine .inr ⟨⟨y, m - 1, daysInMonth y (m - 1), by omega, by omega, one_le_daysInMonth _ _,
        Nat.le_refl _⟩, ?_⟩
      unfold next
      rw [dif_neg (Nat.lt_irrefl _), dif_pos (show m - 1 < 12 by omega)]
      ext
      · rfl
      · exact Nat.sub_add_cancel one_le_month
      · rfl
  · refine .inr ⟨⟨y, m, day - 1, one_le_month, month_le, by omega, by omega⟩, ?_⟩
    unfold next
    rw [dif_pos (show day - 1 < daysInMonth y m by omega)]
    ext
    · rfl
    · rfl
    · exact Nat.sub_add_cancel one_le_day

theorem iterate_first (d : Date) : next^[d.number] first = d := by
  induction days : d.number generalizing d with
  | zero =>
      rcases exists_next_eq d with rfl | ⟨c, rfl⟩
      · rfl
      · rw [number_next] at days
        cases days
  | succ n ih =>
      rcases exists_next_eq d with rfl | ⟨c, rfl⟩
      · cases days
      · rw [number_next] at days
        rw [Function.iterate_succ_apply', ih c (Nat.succ.inj days)]

theorem number_inj {a b : Date} (same : a.number = b.number) : a = b := by
  rw [← iterate_first a, same, iterate_first b]

theorem apart_iff {a b : Date} {k : Int} : Apart a b k ↔ k = (b.number : Int) - a.number := by
  constructor
  · rintro ⟨n, ⟨rfl, rfl⟩ | ⟨rfl, rfl⟩⟩
    · rw [number_iterate]
      omega
    · rw [number_iterate]
      omega
  · rintro rfl
    rcases Nat.le_total a.number b.number with before | behind
    · refine ⟨b.number - a.number, .inl ⟨by omega, number_inj ?_⟩⟩
      rw [number_iterate]
      omega
    · refine ⟨a.number - b.number, .inr ⟨by omega, number_inj ?_⟩⟩
      rw [number_iterate]
      omega

end Date

/-- The instant is that many seconds from the epoch: whole days, and the time of day. -/
theorem seconds_eq_some {year month day hour minute second : Nat} {t : Int} :
    seconds year month day hour minute second = some t ↔
      ∃ date : Date, date.year = year ∧ date.month = month ∧ date.day = day ∧
        hour < 24 ∧ minute < 60 ∧ second < 60 ∧
        ∃ k, Date.Apart Date.epoch date k ∧ t = k * 86400 + hour * 3600 + minute * 60 + second := by
  unfold seconds
  constructor
  · intro counted
    split_ifs at counted with exists_
    obtain ⟨one_le_month, month_le, one_le_day, day_le, hours, minutes, seconds⟩ := exists_
    cases counted
    exact ⟨⟨year, month, day, one_le_month, month_le, one_le_day, day_le⟩, rfl, rfl, rfl, hours,
      minutes, seconds, _, Date.apart_iff.mpr rfl, rfl⟩
  · rintro ⟨date, rfl, rfl, rfl, hours, minutes, seconds, k, apart, rfl⟩
    rw [if_pos ⟨date.one_le_month, date.month_le, date.one_le_day, date.day_le, hours, minutes,
      seconds⟩, Date.apart_iff.mp apart]
    rfl

end HClient.Calendar
