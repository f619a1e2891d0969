import Mathlib.Tactic

/-!
# The Gregorian calendar

The calendar is given by the day after a day. `dayNumber` counts the days from the first of
January 1970 with a closed formula, which also gives a number to dates with a month or a day
that does not exist.
-/
namespace Foundation

/-- A leap year has no remainder by 4, and by 400 if it has none by 100. -/
def isLeap (year : ℤ) : Bool := year % 4 = 0 ∧ (year % 100 ≠ 0 ∨ year % 400 = 0)

/-- The days of a month; months are counted from 1. -/
def daysInMonth (leap : Bool) : ℕ → ℕ
  | 2 => if leap then 29 else 28
  | 4 => 30
  | 6 => 30
  | 9 => 30
  | 11 => 30
  | _ => 31

structure Date where
  year : ℤ
  month : ℕ
  day : ℕ
  deriving DecidableEq, Repr

namespace Date

def epoch : Date where
  year := 1970
  month := 1
  day := 1

def next (d : Date) : Date :=
  if d.day < daysInMonth (isLeap d.year) d.month then { d with day := d.day + 1 }
  else if d.month < 12 then { d with month := d.month + 1, day := 1 }
  else { year := d.year + 1, month := 1, day := 1 }

/-- The day that is `n` days after the first of January 1970. -/
def ofDays : ℕ → Date
  | 0 => epoch
  | n + 1 => (ofDays n).next

structure Valid (d : Date) : Prop where
  month : 1 ≤ d.month ∧ d.month ≤ 12
  day : 1 ≤ d.day ∧ d.day ≤ daysInMonth (isLeap d.year) d.month

theorem daysInMonth_pos (leap : Bool) (month : ℕ) : 1 ≤ daysInMonth leap month := by
  unfold daysInMonth
  split
  · split_ifs
    · decide
    · decide
  all_goals decide

theorem daysInMonth_le (leap : Bool) (month : ℕ) : daysInMonth leap month ≤ 31 := by
  unfold daysInMonth
  split
  · split_ifs
    · decide
    · decide
  all_goals decide

theorem Valid.next {d : Date} (h : d.Valid) : d.next.Valid := by
  have hmonth := h.month
  have hday := h.day
  unfold Date.next
  split_ifs with h₁ h₂
  · exact ⟨hmonth, by dsimp only; omega⟩
  · exact ⟨by dsimp only; omega, Nat.le_refl 1, daysInMonth_pos _ _⟩
  · exact ⟨⟨Nat.le_refl 1, Nat.le_add_left 1 11⟩, Nat.le_refl 1, daysInMonth_pos _ _⟩

theorem ofDays_valid (n : ℕ) : (ofDays n).Valid := by
  induction n with
  | zero => exact ⟨by decide, by decide⟩
  | succ n ih => exact ih.next

theorem year_le_next (d : Date) : d.year ≤ d.next.year := by
  unfold next
  split_ifs
  · exact le_rfl
  · exact le_rfl
  · dsimp only
    omega

theorem ofDays_year_mono {m n : ℕ} (h : m ≤ n) : (ofDays m).year ≤ (ofDays n).year := by
  induction h with
  | refl => exact le_rfl
  | step _ ih => exact ih.trans (year_le_next _)

/-- The days before a year, from the first of January 1970 on. -/
def daysBeforeYear (year : ℤ) : ℤ :=
  365 * (year - 1) + (year - 1) / 4 - (year - 1) / 100 + (year - 1) / 400 - 719162

/-- The days of a year before the month `month + 1`. -/
def daysOfMonths (leap : Bool) : ℕ → ℕ
  | 0 => 0
  | month + 1 => daysOfMonths leap month + daysInMonth leap (month + 1)

def dayNumber (year : ℤ) (month : ℕ) (day : ℤ) : ℤ :=
  daysBeforeYear year + daysOfMonths (isLeap year) month + (day - 1)

def number (d : Date) : ℤ := dayNumber d.year (d.month - 1) d.day

theorem daysBeforeYear_succ (year : ℤ) :
    daysBeforeYear (year + 1) = daysBeforeYear year + daysOfMonths (isLeap year) 12 := by
  have hdays : ∀ leap, daysOfMonths leap 12 = if leap then 366 else 365 := by decide
  rw [hdays, daysBeforeYear, daysBeforeYear, isLeap]
  simp only [decide_eq_true_eq]
  split_ifs with h
  · push_cast
    omega
  · push_cast
    omega

theorem Valid.number_next {d : Date} (h : d.Valid) : d.next.number = d.number + 1 := by
  obtain ⟨year, month, day⟩ := d
  obtain ⟨⟨hmin, hmax⟩, hday, hlast⟩ := h
  obtain ⟨month, rfl⟩ : ∃ m, month = m + 1 := ⟨month - 1, by dsimp only at hmin; omega⟩
  dsimp only at hmax hday hlast
  unfold Date.next number
  dsimp only
  split_ifs with h₁ h₂
  · unfold dayNumber
    push_cast
    ring
  · have hend : day = daysInMonth (isLeap year) (month + 1) := by omega
    subst hend
    unfold dayNumber
    simp only [Nat.add_sub_cancel, daysOfMonths]
    push_cast
    ring
  · obtain rfl : month = 11 := by omega
    have hend : day = daysInMonth (isLeap year) (11 + 1) := by omega
    subst hend
    unfold dayNumber
    rw [daysBeforeYear_succ]
    simp only [Nat.sub_self, daysOfMonths]
    push_cast
    ring

/-- Counting days and naming them are inverse to each other. -/
theorem number_ofDays (n : ℕ) : (ofDays n).number = n := by
  induction n with
  | zero => decide
  | succ n ih =>
    rw [ofDays, (ofDays_valid n).number_next, ih]
    push_cast
    ring

theorem monotone_daysBeforeYear : Monotone daysBeforeYear := by
  apply monotone_int_of_le_succ
  intro year
  rw [daysBeforeYear_succ]
  omega

theorem monotone_daysOfMonths (leap : Bool) : Monotone (daysOfMonths leap) := by
  apply monotone_nat_of_le_succ
  intro month
  rw [daysOfMonths]
  omega

theorem Valid.day_lt {d : Date} (h : d.Valid) :
    daysOfMonths (isLeap d.year) (d.month - 1) + (d.day - 1) <
      daysOfMonths (isLeap d.year) d.month := by
  obtain ⟨year, month, day⟩ := d
  obtain ⟨⟨hmin, hmax⟩, hday, hlast⟩ := h
  obtain ⟨month, rfl⟩ : ∃ m, month = m + 1 := ⟨month - 1, by dsimp only at hmin; omega⟩
  dsimp only at hday hlast ⊢
  rw [Nat.add_sub_cancel, daysOfMonths]
  omega

theorem Valid.number_eq {d : Date} (h : d.Valid) :
    d.number = daysBeforeYear d.year +
      (daysOfMonths (isLeap d.year) (d.month - 1) + (d.day - 1) : ℕ) := by
  have hday := h.day.1
  rw [number, dayNumber]
  push_cast
  omega

theorem Valid.number_lt {d : Date} (h : d.Valid) : d.number < daysBeforeYear (d.year + 1) := by
  have hday := h.day_lt
  have hmonths := monotone_daysOfMonths (isLeap d.year) h.month.2
  rw [h.number_eq, daysBeforeYear_succ]
  omega

theorem Valid.year_le {d d' : Date} (h : d.Valid) (h' : d'.Valid) (heq : d.number = d'.number) :
    d.year ≤ d'.year := by
  by_contra hlt
  have hyears : daysBeforeYear (d'.year + 1) ≤ daysBeforeYear d.year :=
    monotone_daysBeforeYear (by omega)
  have hnumber := h'.number_lt
  have hday := h.number_eq
  omega

theorem Valid.month_le {d d' : Date} (h : d.Valid) (h' : d'.Valid) (hyear : d.year = d'.year)
    (heq : d.number = d'.number) : d.month ≤ d'.month := by
  by_contra hlt
  have hmonths : daysOfMonths (isLeap d'.year) d'.month ≤
      daysOfMonths (isLeap d'.year) (d.month - 1) := monotone_daysOfMonths _ (by omega)
  have hday' := h'.day_lt
  rw [h.number_eq, h'.number_eq, hyear] at heq
  omega

/-- A number names one day. -/
theorem Valid.number_injective {d d' : Date} (h : d.Valid) (h' : d'.Valid)
    (heq : d.number = d'.number) : d = d' := by
  have hyear : d.year = d'.year := le_antisymm (h.year_le h' heq) (h'.year_le h heq.symm)
  have hmonth : d.month = d'.month :=
    le_antisymm (h.month_le h' hyear heq) (h'.month_le h hyear.symm heq.symm)
  have hday := h.day.1
  have hday' := h'.day.1
  rw [h.number_eq, h'.number_eq, hyear, hmonth] at heq
  obtain ⟨year, month, day⟩ := d
  obtain ⟨year', month', day'⟩ := d'
  dsimp only at hyear hmonth hday hday' heq
  obtain rfl : day = day' := by omega
  rw [hyear, hmonth]

def addYears (d : Date) (years : ℤ) : Date := { d with year := d.year + years }

theorem isLeap_add_cycle (year k : ℤ) : isLeap (year + 10000 * k) = isLeap year := by
  rw [isLeap, isLeap, decide_eq_decide]
  omega

theorem number_add_cycle (d : Date) (k : ℤ) :
    (d.addYears (10000 * k)).number = d.number + 3652425 * k := by
  rw [number, number, addYears, dayNumber, dayNumber, isLeap_add_cycle, daysBeforeYear,
    daysBeforeYear]
  dsimp only
  omega

theorem Valid.add_cycle {d : Date} (h : d.Valid) (k : ℤ) : (d.addYears (10000 * k)).Valid := by
  refine ⟨h.month, ?_⟩
  rw [addYears, isLeap_add_cycle]
  exact h.day

/-- Ten thousand years later the calendar is the same. -/
theorem ofDays_add_cycle (n k : ℕ) :
    ofDays (n + 3652425 * k) = (ofDays n).addYears (10000 * k) := by
  apply (ofDays_valid _).number_injective ((ofDays_valid n).add_cycle k)
  rw [number_add_cycle, number_ofDays, number_ofDays]
  push_cast
  ring

end Date

end Foundation
