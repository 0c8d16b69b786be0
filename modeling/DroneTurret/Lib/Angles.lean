import Mathlib.Algebra.Order.Archimedean.Basic
import Mathlib.Algebra.Order.ToIntervalMod
import Mathlib.Tactic.Linarith

/-!
# Distances on a circle

A circle of circumference `2 * P` is the interval from `-P` to `P` with its ends glued together, and
`toIcoMod` takes any number to its place there. The distance of two places is the absolute value of
their difference, taken to its place as well: for a difference that goes round less than once it is
`min |d| (2 * P - |d|)`, the shorter of the two ways.

A weighted mean of two places does not know of the other way. It moves along the interval, and so
away from its goal when the goal is nearer across the ends.

## Main results

* `Angles.abs_mean_le` — a mean stays in the interval
* `Angles.abs_toIcoMod` — the distance
* `Angles.abs_toIcoMod_mul_le_iff` — when a shorter difference is a shorter distance
-/

namespace Angles

variable {F : Type*} [Field F] [LinearOrder F] [IsStrictOrderedRing F] {P : F}

/-- A mean of two places. -/
theorem abs_mean_le {x y a : F} (hx : |x| ≤ P) (hy : |y| ≤ P) (ha : 0 ≤ a) (ha' : a ≤ 1) :
    |a * x + (1 - a) * y| ≤ P := by
  have hb : 0 ≤ 1 - a := sub_nonneg.mpr ha'
  calc
    |a * x + (1 - a) * y| ≤ |a * x| + |(1 - a) * y| := abs_add_le _ _
    _ = a * |x| + (1 - a) * |y| := by rw [abs_mul, abs_mul, abs_of_nonneg ha, abs_of_nonneg hb]
    _ ≤ a * P + (1 - a) * P :=
      add_le_add (mul_le_mul_of_nonneg_left hx ha) (mul_le_mul_of_nonneg_left hy hb)
    _ = P := by ring

variable [Archimedean F]

/-- **The distance** is the shorter of the two ways. -/
theorem abs_toIcoMod (hP : 0 < 2 * P) {d : F} (hd : |d| ≤ 2 * P) :
    |toIcoMod hP (-P) d| = min |d| (2 * P - |d|) := by
  obtain ⟨hlow, hhigh⟩ := abs_le.mp hd
  rcases lt_trichotomy 0 d with hpos | rfl | hneg
  · rw [abs_of_pos hpos]
    by_cases hfar : P ≤ d
    · -- the place is on the other side
      have hplace : toIcoMod hP (-P) d = d - 2 * P := by
        rw [← toIcoMod_sub hP, toIcoMod_eq_self]
        constructor <;> linarith
      rw [hplace, abs_of_nonpos (by linarith), neg_sub, min_eq_right (by linarith)]
    · rw [not_le] at hfar
      have hplace : toIcoMod hP (-P) d = d := by
        rw [toIcoMod_eq_self]
        constructor <;> linarith
      rw [hplace, abs_of_pos hpos, min_eq_left (by linarith)]
  · have hplace : toIcoMod hP (-P) (0 : F) = 0 := by
      rw [toIcoMod_eq_self]
      constructor <;> linarith
    rw [hplace, abs_zero, sub_zero, min_eq_left hP.le]
  · rw [abs_of_neg hneg]
    by_cases hfar : d < -P
    · have hplace : toIcoMod hP (-P) d = d + 2 * P := by
        rw [← toIcoMod_add_right hP, toIcoMod_eq_self]
        constructor <;> linarith
      rw [hplace, abs_of_nonneg (by linarith), min_eq_right (by linarith)]
      ring
    · rw [not_lt] at hfar
      have hplace : toIcoMod hP (-P) d = d := by
        rw [toIcoMod_eq_self]
        constructor <;> linarith
      rw [hplace, abs_of_neg hneg, min_eq_left (by linarith)]

/-- **A difference is scaled down.** The distance does not grow as long as the two ways are not
exchanged: the difference and the scaled one together go round at most once. -/
theorem abs_toIcoMod_mul_le_iff (hP : 0 < 2 * P) {d a : F} (hd : |d| ≤ 2 * P) (ha : 0 ≤ a)
    (ha' : a ≤ 1) :
    |toIcoMod hP (-P) (a * d)| ≤ |toIcoMod hP (-P) d| ↔ a = 1 ∨ (1 + a) * |d| ≤ 2 * P := by
  have hscaled : |a * d| = a * |d| := by rw [abs_mul, abs_of_nonneg ha]
  have hpos := abs_nonneg d
  have hle : a * |d| ≤ |d| := mul_le_of_le_one_left hpos ha'
  rw [abs_toIcoMod hP (hscaled ▸ hle.trans hd), abs_toIcoMod hP hd, hscaled]
  generalize |d| = x at hd hpos hle
  have hsum : (1 + a) * x = x + a * x := by ring
  rw [hsum]
  constructor
  · intro hmin
    by_cases hfit : x + a * x ≤ 2 * P
    · exact .inr hfit
    · -- the scaled difference is the longer way, so nothing may have been taken off it
      rw [not_le] at hfit
      left
      have hright : min x (2 * P - x) ≤ 2 * P - x := min_le_right _ _
      rcases min_le_iff.mp (hmin.trans hright) with h | h
      · linarith
      · have hx : 0 < x := by
          by_contra hzero
          have : x = 0 := le_antisymm (not_lt.mp hzero) hpos
          rw [this] at hfit
          linarith
        have hge : x ≤ a * x := by linarith
        exact le_antisymm ha' ((le_mul_iff_one_le_left hx).mp hge)
  · rintro (rfl | hfit)
    · rw [one_mul]
    · refine le_min ((min_le_left _ _).trans hle) ((min_le_left _ _).trans ?_)
      linarith

end Angles
