import Mathlib.Algebra.Order.Field.Rat
import Mathlib.Algebra.Order.Ring.Abs
import Mathlib.Tactic.LinearCombination
import Mathlib.Tactic.NormNum
import Mathlib.Tactic.Linarith
import ValkeyFdw.Table.Render

/-!
# The duration of a ttl

A ttl column is an interval, and what is sent is a number of milliseconds. PostgreSQL has
a duration for an interval too, `EXTRACT(EPOCH)`, which counts twelve months as a year of
365.25 days; the conversion counts every month as thirty days.

* `intervalSteps_inInt64`: no interval is too large for the conversion;
* `epochMs_sub_ttlMs`: the two durations are apart by 5.25 days for each year and less
  than a millisecond;
* `ttl_agrees_iff`: so they agree for less than twelve months, and otherwise only where
  neither is a duration that can be set.
-/

namespace ValkeyFdw

/-! ## The two durations -/

/-- The milliseconds of the conversion. -/
def ttlMs (month day time : Int) : Int := (month * 30 + day) * 86400000 + time.tdiv 1000

/-- The values that the conversion computes with, one after another. -/
def intervalSteps (month day time : Int) : List Int :=
  [month * 30, month * 30 + day, (month * 30 + day) * 86400000, time.tdiv 1000,
    ttlMs month day time]

/-- `EXTRACT(EPOCH)` of an interval, in milliseconds. -/
def epochMs (month day time : Int) : ℚ :=
  (1461 / 4 * month.tdiv 12 + 30 * month.tmod 12 + day) * 86400000 + time / 1000

theorem epochMs_sub_ttlMs (month day time : Int) :
    epochMs month day time - ttlMs month day time =
      453600000 * month.tdiv 12 + (time.tmod 1000 : ℚ) / 1000 := by
  have hMonth : (month : ℚ) = 12 * month.tdiv 12 + month.tmod 12 := by
    exact_mod_cast (Int.mul_tdiv_add_tmod month 12).symm
  have hTime : (time : ℚ) = 1000 * time.tdiv 1000 + time.tmod 1000 := by
    exact_mod_cast (Int.mul_tdiv_add_tmod time 1000).symm
  rw [epochMs, ttlMs]
  push_cast
  linear_combination 1 / 1000 * hTime - 2592000000 * hMonth

theorem tmod_bounds (time : Int) : -1000 < time.tmod 1000 ∧ time.tmod 1000 < 1000 :=
  ⟨Int.lt_tmod_of_pos time (by omega), Int.tmod_lt_of_pos time (by omega)⟩

theorem abs_tmod_div_lt (time : Int) : |(time.tmod 1000 : ℚ) / 1000| < 1 := by
  obtain ⟨hLower, hUpper⟩ := tmod_bounds time
  rw [abs_lt]
  constructor
  · rw [lt_div_iff₀ (by norm_num)]
    exact_mod_cast hLower
  · rw [div_lt_iff₀ (by norm_num)]
    exact_mod_cast hUpper

section Range

variable (month day : Int32) (time : Int64)

theorem intervalSteps_inInt64 :
    ∀ x ∈ intervalSteps month.toInt day.toInt time.toInt, inInt64 x = true := by
  have hMonth : -2147483648 ≤ month.toInt ∧ month.toInt < 2147483648 :=
    ⟨month.le_toInt, month.toInt_lt⟩
  have hDay : -2147483648 ≤ day.toInt ∧ day.toInt < 2147483648 := ⟨day.le_toInt, day.toInt_lt⟩
  have hTime : -9223372036854775808 ≤ time.toInt ∧ time.toInt < 9223372036854775808 :=
    ⟨time.le_toInt, time.toInt_lt⟩
  have hRest := tmod_bounds time.toInt
  have hSplit := Int.mul_tdiv_add_tmod time.toInt 1000
  intro x hx
  simp only [intervalSteps, ttlMs, List.mem_cons, List.not_mem_nil, or_false] at hx
  simp only [inInt64, Bool.and_eq_true, decide_eq_true_eq]
  rcases hx with rfl | rfl | rfl | rfl | rfl <;> omega

theorem renderInterval_eq (c : Column) :
    renderInterval c month.toInt day.toInt time.toInt =
      if ttlMs month.toInt day.toInt time.toInt ≤ 0 then .error (.ttlNotPositive c)
      else .ok (ttlMs month.toInt day.toInt time.toInt).toNat := by
  have hSteps := intervalSteps_inInt64 month day time
  have hDays := hSteps ((month.toInt * 30 + day.toInt) * 86400000) (by simp [intervalSteps])
  have hMs := hSteps (ttlMs month.toInt day.toInt time.toInt) (by simp [intervalSteps])
  unfold renderInterval
  unfold ttlMs at hMs ⊢
  simp only [hDays, hMs, Bool.not_true, Bool.or_self, Bool.false_eq_true, if_false]

/-- What a ttl means is what PostgreSQL means by the interval. -/
structure TtlAgrees (c : Column) (month day time : Int) : Prop where
  near : ∀ ms, renderInterval c month day time = .ok ms → |(ms : ℚ) - epochMs month day time| < 1
  fits : ∀ x ∈ intervalSteps month day time, inInt64 x = true
  refused : ∀ e, renderInterval c month day time = .error e → epochMs month day time < 1

theorem tdiv_eq_zero_iff (month : Int) : month.tdiv 12 = 0 ↔ |month| < 12 := by
  have hSplit := Int.mul_tdiv_add_tmod month 12
  have hUpper : month.tmod 12 < 12 := Int.tmod_lt_of_pos month (by omega)
  have hLower : -12 < month.tmod 12 := Int.lt_tmod_of_pos month (by omega)
  rw [abs_lt]
  constructor
  · intro h
    rw [h] at hSplit
    omega
  · rintro ⟨hNeg, hPos⟩
    rcases le_total 0 month with hSign | hSign
    · exact Int.tdiv_eq_zero_of_lt hSign hPos
    · have hZero := Int.tdiv_eq_zero_of_lt (neg_nonneg.mpr hSign) (neg_lt.mp hNeg)
      rwa [Int.neg_tdiv, neg_eq_zero] at hZero

theorem abs_ttlMs_sub_epochMs {month : Int} (h : month.tdiv 12 = 0) (day time : Int) :
    |(ttlMs month day time : ℚ) - epochMs month day time| < 1 := by
  have hApart := epochMs_sub_ttlMs month day time
  rw [h, Int.cast_zero, mul_zero, zero_add] at hApart
  rw [abs_sub_comm, hApart]
  exact abs_tmod_div_lt time

theorem one_le_abs_ttlMs_sub_epochMs {month : Int} (h : month.tdiv 12 ≠ 0) (day time : Int) :
    1 ≤ |(ttlMs month day time : ℚ) - epochMs month day time| := by
  have hYear : (1 : ℚ) ≤ |(month.tdiv 12 : ℚ)| := by exact_mod_cast Int.one_le_abs h
  have hCut := abs_tmod_div_lt time
  rw [abs_sub_comm, epochMs_sub_ttlMs]
  calc (1 : ℚ) ≤ 453600000 * |(month.tdiv 12 : ℚ)| - |(time.tmod 1000 : ℚ) / 1000| := by linarith
    _ = |453600000 * (month.tdiv 12 : ℚ)| - |(time.tmod 1000 : ℚ) / 1000| := by
      rw [abs_mul]
      norm_num
    _ ≤ |453600000 * (month.tdiv 12 : ℚ) + (time.tmod 1000 : ℚ) / 1000| := by
      have hSub := abs_sub_abs_le_abs_sub (453600000 * (month.tdiv 12 : ℚ))
        (-((time.tmod 1000 : ℚ) / 1000))
      rwa [abs_neg, sub_neg_eq_add] at hSub

/-- The duration of a ttl agrees with that of the interval exactly where the interval has
less than twelve months, or neither of the two is a duration that could be set. -/
theorem ttl_agrees_iff (c : Column) :
    TtlAgrees c month.toInt day.toInt time.toInt ↔
      |month.toInt| < 12 ∨ (ttlMs month.toInt day.toInt time.toInt ≤ 0 ∧
        epochMs month.toInt day.toInt time.toInt < 1) := by
  have hRender := renderInterval_eq month day time c
  have hFits := intervalSteps_inInt64 month day time
  rw [← tdiv_eq_zero_iff]
  generalize month.toInt = m at hRender hFits ⊢
  generalize day.toInt = d at hRender hFits ⊢
  generalize time.toInt = t at hRender hFits ⊢
  by_cases hPos : ttlMs m d t ≤ 0
  · rw [if_pos hPos] at hRender
    constructor
    · intro h
      exact .inr ⟨hPos, h.refused _ hRender⟩
    · intro h
      refine ⟨fun ms hOk => ?_, hFits, fun e _ => ?_⟩
      · rw [hRender] at hOk
        cases hOk
      · rcases h with hYear | ⟨-, hSmall⟩
        · have hNear := (abs_lt.mp (abs_ttlMs_sub_epochMs hYear d t)).1
          have hMs : (ttlMs m d t : ℚ) ≤ 0 := by exact_mod_cast hPos
          linarith
        · exact hSmall
  · rw [if_neg hPos] at hRender
    have hMs : (((ttlMs m d t).toNat : ℕ) : ℚ) = ttlMs m d t := by
      exact_mod_cast Int.toNat_of_nonneg (by omega)
    constructor
    · intro h
      by_contra hNot
      obtain ⟨hYear, -⟩ := not_or.mp hNot
      have hNear := h.near _ hRender
      rw [hMs] at hNear
      exact absurd hNear (not_lt.mpr (one_le_abs_ttlMs_sub_epochMs hYear d t))
    · rintro (hYear | ⟨hNot, -⟩)
      · refine ⟨fun ms hOk => ?_, hFits, fun e hErr => ?_⟩
        · rw [hRender] at hOk
          cases hOk
          rw [hMs]
          exact abs_ttlMs_sub_epochMs hYear d t
        · rw [hRender] at hErr
          cases hErr
      · exact absurd hNot hPos

end Range

/-- The ttl column of a field. -/
def ttlColumn : Column := ⟨true, .ttl, some (ascii "f"), .interval, false⟩

/-- A year is sent as 360 days. -/
theorem ttl_year_differs :
    renderInterval ttlColumn 12 0 0 = .ok 31104000000 ∧
      epochMs 12 0 0 = 31557600000 ∧ ¬TtlAgrees ttlColumn 12 0 0 := by
  have hRender : renderInterval ttlColumn 12 0 0 = .ok 31104000000 := by decide
  have hEpoch : epochMs 12 0 0 = 31557600000 := by norm_num [epochMs]
  refine ⟨hRender, hEpoch, fun h => ?_⟩
  have hNear := h.near _ hRender
  rw [hEpoch] at hNear
  norm_num at hNear

theorem ttl_agrees_iff_month :
    |(11 : Int32).toInt| < 12 ∧ TtlAgrees ttlColumn (11 : Int32).toInt (0 : Int32).toInt
      (1500 : Int64).toInt := by
  have hMonths : |(11 : Int32).toInt| < 12 := by decide
  exact ⟨hMonths, (ttl_agrees_iff 11 0 1500 ttlColumn).mpr (.inl hMonths)⟩

end ValkeyFdw
