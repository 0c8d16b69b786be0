import DroneTurret.Lib.Decimal
import Mathlib.Data.Int.Log
import Mathlib.Tactic.Ring

/-!
# Numbers with a significand of bounded length

Rounding to the nearest number with `p` binary digits, of two to the one with an even significand.
`nearest 24` is what a conversion to `float` does and `nearest 53` one to `double`, as long as the
number is in the range of normal numbers. The exponent is not bounded.

## Main results

* `nearest_le_nearest` — rounding keeps the order
* `nearest_eq_self`, `nearest_nearest` — numbers with few digits are not changed
-/

namespace DroneTurret

namespace Significand

open Decimal

/-- The distance of two neighbours with `p` digits, at a positive number. -/
def ulp (p : ℕ) (q : ℚ) : ℚ := 2 ^ (Int.log 2 q + 1 - p)

/-- The nearest number with `p` digits. -/
def nearest (p : ℕ) (q : ℚ) : ℚ := roundHalfEven (q / ulp p |q|) * ulp p |q|

theorem ulp_pos (p : ℕ) (q : ℚ) : 0 < ulp p q := zpow_pos (by norm_num) _

theorem floor_mono_or_eq {q r : ℚ} (h : q ≤ r) :
    ⌊q⌋ + 1 ≤ ⌊r⌋ ∨ ⌊q⌋ = ⌊r⌋ ∧ Int.fract q ≤ Int.fract r := by
  rcases (Int.floor_mono h).lt_or_eq with hlt | heq
  · exact .inl hlt
  · refine .inr ⟨heq, ?_⟩
    rw [Int.fract, Int.fract, heq]
    linarith

theorem roundHalfEven_le_roundHalfEven {q r : ℚ} (h : q ≤ r) :
    roundHalfEven q ≤ roundHalfEven r := by
  rcases floor_mono_or_eq h with hlt | ⟨heq, hfract⟩
  · exact (roundHalfEven_le q).trans (hlt.trans (floor_le_roundHalfEven r))
  · rw [roundHalfEven, roundHalfEven, heq]
    split_ifs <;> first | omega | linarith

theorem roundHalfEven_intCast (n : ℤ) : roundHalfEven n = n := by
  rw [roundHalfEven, Int.fract_intCast, if_pos (by norm_num), Int.floor_intCast]

/-- A number between two powers stays between them. -/
theorem nearest_le_zpow {p : ℕ} {q : ℚ} (h : 0 < q) : nearest p q ≤ 2 ^ (Int.log 2 q + 1) := by
  have hpow : (2 : ℚ) ^ (Int.log 2 q + 1) = ((2 ^ p : ℕ) : ℤ) * ulp p q := by
    rw [ulp, Int.cast_natCast, Nat.cast_pow, Nat.cast_ofNat, ← zpow_natCast,
      ← zpow_add₀ (by norm_num)]
    congr 1
    ring
  have hlt : q / ulp p q < ((2 ^ p : ℕ) : ℤ) := by
    rw [div_lt_iff₀ (ulp_pos p q), ← hpow]
    exact Int.lt_zpow_succ_log_self (by norm_num) q
  rw [nearest, abs_of_pos h, hpow]
  exact mul_le_mul_of_nonneg_right (by exact_mod_cast roundHalfEven_le_of_lt hlt) (ulp_pos p q).le

theorem zpow_le_nearest {p : ℕ} (hp : 0 < p) {q : ℚ} (h : 0 < q) :
    2 ^ Int.log 2 q ≤ nearest p q := by
  have hpow : (2 : ℚ) ^ Int.log 2 q = ((2 ^ (p - 1) : ℕ) : ℤ) * ulp p q := by
    rw [ulp, Int.cast_natCast, Nat.cast_pow, Nat.cast_ofNat, ← zpow_natCast,
      ← zpow_add₀ (by norm_num), Nat.cast_pred hp]
    congr 1
    ring
  have hle : (((2 ^ (p - 1) : ℕ) : ℤ) : ℚ) ≤ q / ulp p q := by
    rw [le_div_iff₀ (ulp_pos p q), ← hpow]
    exact Int.zpow_log_le_self (by norm_num) h
  have hround := roundHalfEven_le_roundHalfEven hle
  rw [roundHalfEven_intCast] at hround
  rw [nearest, abs_of_pos h, hpow]
  exact mul_le_mul_of_nonneg_right (by exact_mod_cast hround) (ulp_pos p q).le

theorem nearest_zero (p : ℕ) : nearest p 0 = 0 := by
  have hzero : roundHalfEven 0 = 0 := roundHalfEven_intCast 0
  rw [nearest, zero_div, hzero, Int.cast_zero, zero_mul]

/-- **Rounding keeps the order.** Numbers with the same exponent are rounded at the same distance;
between two others there is a power of two. -/
theorem nearest_le_nearest {p : ℕ} (hp : 0 < p) {q r : ℚ} (hq : 0 ≤ q) (h : q ≤ r) :
    nearest p q ≤ nearest p r := by
  rcases hq.lt_or_eq with hpos | rfl
  · have hr := hpos.trans_le h
    rcases (Int.log_mono_right (b := 2) hpos h).lt_or_eq with hlt | heq
    · calc nearest p q ≤ 2 ^ (Int.log 2 q + 1) := nearest_le_zpow hpos
        _ ≤ 2 ^ Int.log 2 r := zpow_le_zpow_right₀ (by norm_num) hlt
        _ ≤ nearest p r := zpow_le_nearest hp hr
    · have hulp : ulp p q = ulp p r := by rw [ulp, ulp, heq]
      rw [nearest, nearest, abs_of_pos hpos, abs_of_pos hr, hulp]
      refine mul_le_mul_of_nonneg_right ?_ (ulp_pos p r).le
      exact_mod_cast roundHalfEven_le_roundHalfEven
        (div_le_div_of_nonneg_right h (ulp_pos p r).le)
  · rw [nearest_zero]
    rcases h.lt_or_eq with hr | rfl
    · exact (zpow_pos (by norm_num) _).le.trans (zpow_le_nearest hp hr)
    · rw [nearest_zero]

/-! ### Numbers that need no rounding -/

theorem abs_roundHalfEven_le {q : ℚ} {n : ℤ} (h : |q| ≤ n) : |roundHalfEven q| ≤ n := by
  obtain ⟨hlo, hhi⟩ := abs_le.mp h
  have hlo' := roundHalfEven_le_roundHalfEven (q := ((-n : ℤ) : ℚ)) (by push_cast; exact hlo)
  have hhi' := roundHalfEven_le_roundHalfEven hhi
  rw [roundHalfEven_intCast] at hlo' hhi'
  exact abs_le.mpr ⟨hlo', hhi'⟩

/-- A multiple of the distance of its neighbours is not rounded. -/
theorem nearest_eq_self_of_mul {p : ℕ} {q : ℚ} (m : ℤ) (h : q = m * ulp p |q|) :
    nearest p q = q := by
  have hdiv : q / ulp p |q| = m := (div_eq_iff (ulp_pos p |q|).ne').mpr h
  rw [nearest, hdiv, roundHalfEven_intCast, ← h]

/-- **Numbers with at most `p` digits are not rounded.** -/
theorem nearest_eq_self {p : ℕ} (hp : 0 < p) {n : ℤ} (hn : |n| ≤ 2 ^ p) (e : ℤ) :
    nearest p (n * 2 ^ e) = n * 2 ^ e := by
  rcases eq_or_ne n 0 with rfl | hne
  · rw [Int.cast_zero, zero_mul, nearest_zero]
  set q : ℚ := n * 2 ^ e with hq
  set l := Int.log 2 |q| with hl
  have habs : |q| = |(n : ℚ)| * 2 ^ e := by
    rw [hq, abs_mul, abs_of_pos (zpow_pos (by norm_num : (0 : ℚ) < 2) e)]
  have hn' : |(n : ℚ)| ≤ 2 ^ p := by exact_mod_cast hn
  have hlow : (2 : ℚ) ^ l ≤ |(n : ℚ)| * 2 ^ e := by
    rw [← habs]
    exact Int.zpow_log_le_self (by norm_num) (abs_pos.mpr (mul_ne_zero (Int.cast_ne_zero.mpr hne)
      (zpow_pos (by norm_num : (0 : ℚ) < 2) e).ne'))
  have hle : l ≤ p + e := by
    refine (zpow_le_zpow_iff_right₀ (by norm_num : (1 : ℚ) < 2)).mp ?_
    rw [zpow_add₀ (by norm_num), zpow_natCast]
    exact hlow.trans (mul_le_mul_of_nonneg_right hn' (zpow_pos (by norm_num) e).le)
  rcases hle.lt_or_eq with hlt | heq
  · -- the distance of the neighbours divides `2 ^ e`
    obtain ⟨k, hk⟩ : ∃ k : ℕ, e = k + (l + 1 - p) := ⟨(e - (l + 1 - p)).toNat, by omega⟩
    refine nearest_eq_self_of_mul (n * 2 ^ k) ?_
    rw [ulp, ← hl, hq, hk, zpow_add₀ (by norm_num), zpow_natCast]
    push_cast
    ring
  · -- `n` is `2 ^ p` or its negative, so it is even
    rw [heq, zpow_add₀ (by norm_num), zpow_natCast] at hlow
    have hge := le_of_mul_le_mul_right hlow (zpow_pos (by norm_num) e)
    have hpow : |n| = 2 ^ p := by
      refine le_antisymm hn ?_
      exact_mod_cast hge
    obtain ⟨m, hm⟩ : 2 ∣ n := (dvd_abs 2 n).mp (hpow ▸ dvd_pow_self 2 hp.ne')
    have hulp : (p + e + 1 - p : ℤ) = 1 + e := by ring
    refine nearest_eq_self_of_mul m ?_
    rw [ulp, ← hl, heq, hulp, hq, hm, zpow_add₀ (by norm_num), zpow_one]
    push_cast
    ring

/-- Rounding twice to the same number of digits is rounding once. -/
theorem nearest_nearest {p : ℕ} (hp : 0 < p) (q : ℚ) : nearest p (nearest p q) = nearest p q := by
  refine nearest_eq_self hp ?_ _
  rcases eq_or_ne q 0 with rfl | hne
  · rw [zero_div]
    have hzero : roundHalfEven 0 = 0 := roundHalfEven_intCast 0
    rw [hzero, abs_zero]
    positivity
  · refine abs_roundHalfEven_le ?_
    have hlt := Int.lt_zpow_succ_log_self (by norm_num : 1 < 2) |q|
    rw [abs_div, abs_of_pos (ulp_pos p |q|), div_le_iff₀ (ulp_pos p |q|), ulp]
    have hpow : (((2 ^ p : ℤ) : ℚ)) * 2 ^ (Int.log 2 |q| + 1 - p) = 2 ^ (Int.log 2 |q| + 1) := by
      rw [Int.cast_pow, Int.cast_ofNat, ← zpow_natCast, ← zpow_add₀ (by norm_num)]
      congr 1
      ring
    rw [hpow]
    exact_mod_cast hlt.le

end Significand

end DroneTurret
