import Ods.Blocks
import Mathlib.Data.Int.Order.Basic

/-! The Gregorian calendar, before its introduction too: days and seconds are numbered, and dates
and times of day are another way to write the numbers, in the same order. -/
namespace Calendar
open Blocks

def leap (year : Int) : Bool := year % 4 = 0 ∧ (year % 100 ≠ 0 ∨ year % 400 = 0)

def monthLength (leap : Bool) : Nat → Nat
  | 1 => if leap then 29 else 28
  | 3 | 5 | 8 | 10 => 30
  | _ => 31

def yearLength (i : Nat) : Nat := if leap i then 366 else 365

theorem leap_cycle (e : Int) (i : Nat) : leap (e * 400 + i) = leap i := by
  have h₄ : (e * 400 + i) % 4 = (i : Int) % 4 := by omega
  have h₁ : (e * 400 + i) % 100 = (i : Int) % 100 := by omega
  have h₂ : (e * 400 + i) % 400 = (i : Int) % 400 := by omega
  rw [leap,leap,h₄,h₁,h₂]

theorem start_monthLength (b : Bool) : start (monthLength b) 12 = if b then 366 else 365 := by
  cases b <;> rfl

theorem start_yearLength : start yearLength 400 = 146097 := by decide +kernel

section Dates

/-- A date; the first day of a month is day 0. -/
@[ext] structure Date where
  year : Int
  month : Nat
  day : Nat
  month_lt : month < 12
  day_lt : day < monthLength (leap year) month
  deriving DecidableEq

def monthStart (year : Int) (month : Nat) : Int :=
  year / 400 * 146097 +
    (start yearLength (year % 400).toNat + start (monthLength (leap year)) month : Nat)

def Date.number (d : Date) : Int := monthStart d.year d.month + d.day

def yearOf (n : Int) : Nat × Nat := locate yearLength 399 0 (n % 146097).toNat

theorem cycleDay_lt (n : Int) : (n % 146097).toNat < start yearLength (399 + 1) := by
  rw [start_yearLength]
  omega

theorem yearOf_spec (n : Int) : start yearLength (yearOf n).1 + (yearOf n).2 = (n % 146097).toNat ∧
    (yearOf n).1 < 400 ∧ (yearOf n).2 < start (monthLength (leap (yearOf n).1)) (11 + 1) := by
  obtain ⟨heq,hlt,hday⟩ := locate_zero (cycleDay_lt n)
  refine ⟨heq,hlt,?_⟩
  rw [start_monthLength]
  exact hday

def monthOf (n : Int) : Nat × Nat := locate (monthLength (leap (yearOf n).1)) 11 0 (yearOf n).2

theorem monthOf_spec (n : Int) :
    start (monthLength (leap (yearOf n).1)) (monthOf n).1 + (monthOf n).2 = (yearOf n).2 ∧
      (monthOf n).1 < 12 ∧ (monthOf n).2 < monthLength (leap (yearOf n).1) (monthOf n).1 :=
  locate_zero (yearOf_spec n).2.2

def Date.ofNumber (n : Int) : Date where
  year := n / 146097 * 400 + (yearOf n).1
  month := (monthOf n).1
  day := (monthOf n).2
  month_lt := (monthOf_spec n).2.1
  day_lt := by
    rw [leap_cycle]
    exact (monthOf_spec n).2.2

def Date.yearDay (d : Date) : Nat := start (monthLength (leap d.year)) d.month + d.day

def Date.cycleYear (d : Date) : Nat := (d.year % 400).toNat

theorem Date.leap_year (d : Date) : leap d.year = leap d.cycleYear := by
  have hyear : d.year = d.year / 400 * 400 + d.cycleYear := by
    rw [cycleYear]
    omega
  have hleap := leap_cycle (d.year / 400) d.cycleYear
  rwa [← hyear] at hleap

theorem Date.yearDay_lt (d : Date) : d.yearDay < yearLength d.cycleYear := by
  have hlt := start_add_lt d.day_lt d.month_lt
  rw [start_monthLength,leap_year] at hlt
  rw [yearDay,leap_year]
  exact hlt

theorem Date.cycleYear_lt (d : Date) : d.cycleYear < 400 := by
  rw [cycleYear]
  omega

theorem Date.number_eq (d : Date) : d.number =
    d.year / 400 * 146097 + (start yearLength d.cycleYear + d.yearDay : Nat) := by
  rw [number,monthStart,cycleYear,yearDay]
  omega

theorem Date.cycleDay_lt (d : Date) : start yearLength d.cycleYear + d.yearDay < 146097 := by
  have hlt := start_add_lt d.yearDay_lt d.cycleYear_lt
  rwa [start_yearLength] at hlt

theorem Date.number_ofNumber (n : Int) : (ofNumber n).number = n := by
  obtain ⟨hyear,hlt,-⟩ := yearOf_spec n
  obtain ⟨hmonth,-,-⟩ := monthOf_spec n
  have hcycle : (ofNumber n).year / 400 = n / 146097 := by
    simp only [ofNumber]
    omega
  have hin : (ofNumber n).cycleYear = (yearOf n).1 := by
    simp only [cycleYear,ofNumber]
    omega
  have hday : (ofNumber n).yearDay = (yearOf n).2 := by
    rw [yearDay,leap_year,hin]
    exact hmonth
  rw [number_eq,hcycle,hin,hday,hyear]
  omega

def Date.Before (d e : Date) : Prop :=
  d.year < e.year ∨ d.year = e.year ∧ (d.month < e.month ∨ d.month = e.month ∧ d.day < e.day)

/-- Dates are in the order of their days. -/
theorem Date.number_lt_iff {d e : Date} : d.number < e.number ↔ d.Before e := by
  have hd := d.cycleDay_lt
  have he := e.cycleDay_lt
  have hyears := start_add_lt_iff d.yearDay_lt e.yearDay_lt
  have hmonths : d.year = e.year →
      (d.yearDay < e.yearDay ↔ d.month < e.month ∨ d.month = e.month ∧ d.day < e.day) := by
    intro h
    have hday := e.day_lt
    rw [← h] at hday
    rw [yearDay,yearDay,← h]
    exact start_add_lt_iff d.day_lt hday
  rw [number_eq,number_eq,Before]
  have hcycle : d.cycleYear = (d.year % 400).toNat := rfl
  have hcycle' : e.cycleYear = (e.year % 400).toNat := rfl
  by_cases heq : d.year = e.year
  · rw [← hmonths heq]
    omega
  · omega

theorem Date.eq_of_number {d e : Date} (h : d.number = e.number) : d = e := by
  have hd : ¬ d.Before e := by
    rw [← number_lt_iff]
    exact h.not_lt
  have he : ¬ e.Before d := by
    rw [← number_lt_iff]
    exact h.not_gt
  rw [Before] at hd he
  ext <;> omega

end Dates

section Moments

@[ext] structure Moment where
  date : Date
  hour : Nat
  minute : Nat
  second : Nat
  hour_lt : hour < 24
  minute_lt : minute < 60
  second_lt : second < 60
  deriving DecidableEq

def Moment.number (m : Moment) : Int :=
  m.date.number * 86400 + (m.hour * 3600 + m.minute * 60 + m.second : Nat)

def Moment.ofNumber (n : Int) : Moment where
  date := .ofNumber (n / 86400)
  hour := (n % 86400).toNat / 3600
  minute := (n % 86400).toNat % 3600 / 60
  second := (n % 86400).toNat % 60
  hour_lt := by omega
  minute_lt := by omega
  second_lt := Nat.mod_lt _ (by decide)

theorem Moment.number_ofNumber (n : Int) : (ofNumber n).number = n := by
  simp only [number,ofNumber,Date.number_ofNumber]
  omega

def Moment.Before (m k : Moment) : Prop :=
  m.date.Before k.date ∨ m.date = k.date ∧ (m.hour < k.hour ∨ m.hour = k.hour ∧
    (m.minute < k.minute ∨ m.minute = k.minute ∧ m.second < k.second))

theorem Moment.number_lt_iff {m k : Moment} : m.number < k.number ↔ m.Before k := by
  have hdates : m.date.Before k.date ↔ m.date.number < k.date.number := Date.number_lt_iff.symm
  have heq : m.date = k.date ↔ m.date.number = k.date.number :=
    ⟨fun h => congrArg Date.number h,Date.eq_of_number⟩
  have hm := m.hour_lt
  have hk := k.hour_lt
  have hm' := m.minute_lt
  have hk' := k.minute_lt
  have hm'' := m.second_lt
  have hk'' := k.second_lt
  rw [Before,hdates,heq,number,number]
  omega

theorem Moment.eq_of_number {m k : Moment} (h : m.number = k.number) : m = k := by
  have hmk : ¬ m.Before k := by
    rw [← number_lt_iff]
    exact h.not_lt
  have hkm : ¬ k.Before m := by
    rw [← number_lt_iff]
    exact h.not_gt
  have hdate : m.date = k.date := by
    have hd := mt Or.inl hmk
    have he := mt Or.inl hkm
    rw [← Date.number_lt_iff] at hd he
    exact Date.eq_of_number (le_antisymm (not_lt.mp he) (not_lt.mp hd))
  simp only [Before,hdate,true_and,not_or] at hmk hkm
  exact Moment.ext hdate (by omega) (by omega) (by omega)

end Moments

end Calendar
