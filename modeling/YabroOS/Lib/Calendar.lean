import Mathlib.Algebra.BigOperators.Intervals
import Mathlib.Algebra.Order.BigOperators.Group.Finset
import Mathlib.Tactic.IntervalCases

namespace YabroOS.Lib

/-- A day of the Gregorian calendar. -/
structure Date where
  year : ℕ
  month : ℕ
  day : ℕ
  deriving DecidableEq

namespace Date

open Finset

variable {d d' : Date} {y m n : ℕ}

def IsLeap (y : ℕ) : Prop := (y % 4 = 0 ∧ y % 100 ≠ 0) ∨ y % 400 = 0

instance : DecidablePred IsLeap :=
  fun y ↦ inferInstanceAs (Decidable ((y % 4 = 0 ∧ y % 100 ≠ 0) ∨ y % 400 = 0))

def yearDays (y : ℕ) : ℕ := if IsLeap y then 366 else 365

def monthDays (y : ℕ) : ℕ → ℕ
  | 1 | 3 | 5 | 7 | 8 | 10 | 12 => 31
  | 4 | 6 | 9 | 11 => 30
  | 2 => if IsLeap y then 29 else 28
  | _ => 0

structure Valid (d : Date) : Prop where
  month_pos : 1 ≤ d.month
  month_le : d.month ≤ 12
  day_pos : 1 ≤ d.day
  day_le : d.day ≤ monthDays d.year d.month

def next (d : Date) : Date :=
  if d.day < monthDays d.year d.month then ⟨d.year, d.month, d.day + 1⟩
  else if d.month < 12 then ⟨d.year, d.month + 1, 1⟩
  else ⟨d.year + 1, 1, 1⟩

def epoch : Date := ⟨1970, 1, 1⟩

def beforeYear (y : ℕ) : ℕ := ∑ k ∈ Ico 1970 y, yearDays k

def beforeMonth (y m : ℕ) : ℕ := ∑ k ∈ Ico 1 m, monthDays y k

def dayNumber (d : Date) : ℕ := beforeYear d.year + beforeMonth d.year d.month + (d.day - 1)

theorem monthDays_pos (h₁ : 1 ≤ m) (h₂ : m ≤ 12) : 0 < monthDays y m := by
  interval_cases m
  all_goals
    simp only [monthDays]
    try split_ifs
    all_goals decide

theorem beforeMonth_succ (h : 1 ≤ m) : beforeMonth y (m + 1) = beforeMonth y m + monthDays y m :=
  sum_Ico_succ_top h _

theorem beforeYear_succ (h : 1970 ≤ y) : beforeYear (y + 1) = beforeYear y + yearDays y :=
  sum_Ico_succ_top h _

theorem beforeMonth_all (y : ℕ) : beforeMonth y 13 = yearDays y := by
  have hsplit : beforeMonth y 13 = 334 + (if IsLeap y then 29 else 28) + 3 := by
    simp only [beforeMonth, sum_Ico_eq_sum_range, sum_range_succ, sum_range_zero, monthDays]
    omega
  rw [hsplit, yearDays]
  split_ifs <;> rfl

theorem beforeMonth_mono (h : m ≤ n) : beforeMonth y m ≤ beforeMonth y n :=
  sum_le_sum_of_subset (Ico_subset_Ico_right h)

theorem beforeYear_mono (h : m ≤ n) : beforeYear m ≤ beforeYear n :=
  sum_le_sum_of_subset (Ico_subset_Ico_right h)

theorem valid_epoch : epoch.Valid := ⟨by decide, by decide, by decide, by decide⟩

theorem Valid.next (h : d.Valid) : d.next.Valid := by
  obtain ⟨h₁, h₂, h₃, h₄⟩ := h
  unfold Date.next
  split_ifs with hday hmonth
  · exact ⟨h₁, h₂, Nat.succ_pos _, hday⟩
  · exact ⟨Nat.succ_pos _, hmonth, le_rfl, monthDays_pos (Nat.succ_pos _) hmonth⟩
  · exact ⟨le_rfl, Nat.le_add_left 1 11, le_rfl, Nat.le_add_left 1 30⟩

theorem dayNumber_next (h : d.Valid) (hy : 1970 ≤ d.year) : d.next.dayNumber = d.dayNumber + 1 := by
  obtain ⟨h₁, h₂, h₃, h₄⟩ := h
  unfold Date.next
  split_ifs with hday hmonth
  · simp only [dayNumber]
    omega
  · simp only [dayNumber, beforeMonth_succ h₁]
    omega
  · obtain hm : d.month = 12 := by omega
    have hall := beforeMonth_all d.year
    rw [beforeMonth_succ (by decide), ← hm] at hall
    have hone : beforeMonth (d.year + 1) 1 = 0 := rfl
    simp only [dayNumber, beforeYear_succ hy, hone]
    omega

theorem Valid.dayNumber_lt_month (h : d.Valid) :
    d.dayNumber < beforeYear d.year + beforeMonth d.year (d.month + 1) := by
  have hpos := h.day_pos
  have hle := h.day_le
  rw [beforeMonth_succ h.month_pos, dayNumber]
  omega

theorem Valid.dayNumber_lt_year (h : d.Valid) (hy : 1970 ≤ d.year) :
    d.dayNumber < beforeYear (d.year + 1) := by
  have hmonth := h.dayNumber_lt_month
  have hle : beforeMonth d.year (d.month + 1) ≤ beforeMonth d.year 13 :=
    beforeMonth_mono (Nat.succ_le_succ h.month_le)
  rw [beforeMonth_all] at hle
  rw [beforeYear_succ hy]
  omega

theorem Valid.year_le (h : d.Valid) (hy : 1970 ≤ d.year) (he : d'.dayNumber = d.dayNumber) :
    d'.year ≤ d.year := by
  by_contra hlt
  have hmono : beforeYear (d.year + 1) ≤ beforeYear d'.year := beforeYear_mono (by omega)
  have hnumber := h.dayNumber_lt_year hy
  have hge : beforeYear d'.year ≤ d'.dayNumber := (Nat.le_add_right _ _).trans (Nat.le_add_right _ _)
  omega

theorem Valid.month_le_of_eq (h : d.Valid) (hy : d'.year = d.year)
    (he : d'.dayNumber = d.dayNumber) : d'.month ≤ d.month := by
  by_contra hlt
  have hmono : beforeMonth d.year (d.month + 1) ≤ beforeMonth d.year d'.month :=
    beforeMonth_mono (by omega)
  have hnumber := h.dayNumber_lt_month
  have hge : beforeYear d.year + beforeMonth d.year d'.month ≤ d'.dayNumber := by
    rw [dayNumber, hy]
    exact Nat.le_add_right _ _
  omega

theorem Valid.eq_of_dayNumber (h : d.Valid) (h' : d'.Valid) (hy : 1970 ≤ d.year)
    (hy' : 1970 ≤ d'.year) (he : d.dayNumber = d'.dayNumber) : d = d' := by
  have hyear : d.year = d'.year := (h'.year_le hy' he).antisymm (h.year_le hy he.symm)
  have hmonth : d.month = d'.month :=
    (h'.month_le_of_eq hyear he).antisymm (h.month_le_of_eq hyear.symm he.symm)
  have hday : d.day = d'.day := by
    have hpos := h.day_pos
    have hpos' := h'.day_pos
    simp only [dayNumber, hyear, hmonth] at he
    omega
  cases d
  cases d'
  simp_all

theorem valid_iterate (n : ℕ) :
    (next^[n] epoch).Valid ∧ 1970 ≤ (next^[n] epoch).year ∧ (next^[n] epoch).dayNumber = n := by
  induction n with
  | zero => exact ⟨valid_epoch, le_rfl, rfl⟩
  | succ n ih =>
    obtain ⟨hv, hy, hn⟩ := ih
    rw [Function.iterate_succ_apply']
    refine ⟨hv.next, ?_, by rw [dayNumber_next hv hy, hn]⟩
    unfold Date.next
    split_ifs
    · exact hy
    · exact hy
    · exact hy.trans (Nat.le_succ _)

theorem Valid.iterate_next_iff (h : d.Valid) (hy : 1970 ≤ d.year) :
    Date.next^[n] epoch = d ↔ n = d.dayNumber := by
  obtain ⟨hv, hyear, hn⟩ := valid_iterate n
  constructor
  · rintro rfl
    exact hn.symm
  · intro he
    exact hv.eq_of_dayNumber h hyear hy (hn.trans he)

end Date

end YabroOS.Lib
