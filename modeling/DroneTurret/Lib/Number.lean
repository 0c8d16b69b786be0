import DroneTurret.Lib.Significand

/-!
# Numbers with infinities

A floating-point number is a rational, an infinity, or not a number. There is one zero only, and
nothing is said of how many digits a rational has: that is the matter of the rounding behind an
operation, `Number.round`, which may overflow.

A comparison with something that is not a number is false, so of two such comparisons that exclude
each other neither need hold.

## Main definitions

* `Number` — with `add`, `sub`, `mul` and the two comparisons
* `overflow` — a rounding that is infinite beyond a bound
* `binary` — the rounding to `p` digits below `2 ^ e`

## Main results

* `not_le_iff` — the comparisons exclude each other, and one of them holds of numbers
* `mul_zero_eq_nan_iff` — zero times an infinity is not a number
* `binary_idem` — a rounded number is not changed
-/

namespace DroneTurret

inductive Number
  | nan
  | inf (neg : Bool)
  | fin (q : ℚ)
  deriving DecidableEq

namespace Number

instance : Coe ℚ Number := ⟨fin⟩

/-! ### Operations -/

def neg : Number → Number
  | nan => nan
  | inf s => inf !s
  | fin q => fin (-q)

def add : Number → Number → Number
  | nan, _ => nan
  | _, nan => nan
  | inf s, inf t => if s = t then inf s else nan
  | inf s, fin _ => inf s
  | fin _, inf t => inf t
  | fin q, fin r => fin (q + r)

def sub (a b : Number) : Number := a.add b.neg

def mul : Number → Number → Number
  | nan, _ => nan
  | _, nan => nan
  | inf s, inf t => inf (s != t)
  | inf s, fin r => if r = 0 then nan else inf (s != decide (r < 0))
  | fin q, inf t => if q = 0 then nan else inf (t != decide (q < 0))
  | fin q, fin r => fin (q * r)

/-- The result of an operation, rounded. -/
def round (r : ℚ → Number) : Number → Number
  | nan => nan
  | inf s => inf s
  | fin q => r q

/-! ### Comparisons -/

/-- `<=`. -/
def ble : Number → Number → Bool
  | nan, _ => false
  | _, nan => false
  | inf true, _ => true
  | _, inf false => true
  | fin q, fin r => q ≤ r
  | _, _ => false

/-- `<`. -/
def blt : Number → Number → Bool
  | nan, _ => false
  | _, nan => false
  | inf s, inf t => s && !t
  | inf s, fin _ => s
  | fin _, inf t => !t
  | fin q, fin r => q < r

instance : LE Number := ⟨fun a b => a.ble b = true⟩

instance : LT Number := ⟨fun a b => a.blt b = true⟩

instance (a b : Number) : Decidable (a ≤ b) := inferInstanceAs (Decidable (a.ble b = true))

instance (a b : Number) : Decidable (a < b) := inferInstanceAs (Decidable (a.blt b = true))

@[simp] theorem fin_le_fin {q r : ℚ} : fin q ≤ fin r ↔ q ≤ r := decide_eq_true_iff

@[simp] theorem fin_lt_fin {q r : ℚ} : fin q < fin r ↔ q < r := decide_eq_true_iff

theorem not_lt_nan (a : Number) : ¬a < nan := by
  cases a <;> exact Bool.false_ne_true

theorem not_nan_le (a : Number) : ¬nan ≤ a := Bool.false_ne_true

theorem not_nan_lt (a : Number) : ¬nan < a := Bool.false_ne_true

theorem lt_irrefl (a : Number) : ¬a < a := by
  cases a with
  | nan => exact not_nan_lt _
  | inf s => cases s <;> decide
  | fin q => exact fun h => Rat.lt_irrefl (fin_lt_fin.mp h)

/-- **Of two numbers** the one is at most the other, or greater. -/
theorem not_le_iff {a b : Number} (ha : a ≠ nan) (hb : b ≠ nan) : ¬a ≤ b ↔ b < a := by
  cases a with
  | nan => exact absurd rfl ha
  | inf s =>
    cases b with
    | nan => exact absurd rfl hb
    | inf t => cases s <;> cases t <;> decide
    | fin r => cases s <;> exact Iff.of_eq (by simp [LE.le, LT.lt, ble, blt])
  | fin q =>
    cases b with
    | nan => exact absurd rfl hb
    | inf t => cases t <;> exact Iff.of_eq (by simp [LE.le, LT.lt, ble, blt])
    | fin r => rw [fin_le_fin, fin_lt_fin, not_le]

theorem not_le_of_lt {a b : Number} (h : a < b) : ¬b ≤ a := by
  refine (not_le_iff ?_ ?_).mpr h
  · rintro rfl
    exact not_lt_nan a h
  · rintro rfl
    exact not_nan_lt b h

theorem fin_lt_trans {q r : ℚ} {a : Number} (hqr : q ≤ r) (h : fin r < a) : fin q < a := by
  cases a with
  | nan => exact absurd h (not_lt_nan _)
  | inf s => exact h
  | fin p => exact fin_lt_fin.mpr (hqr.trans_lt (fin_lt_fin.mp h))

/-! ### Zero and one -/

theorem zero_mul_eq_nan_iff {a : Number} : mul (fin 0) a = nan ↔ ∀ q, a ≠ fin q := by
  cases a with
  | nan => exact iff_of_true rfl fun q => Number.noConfusion
  | inf s => exact iff_of_true rfl fun q => Number.noConfusion
  | fin q => exact iff_of_false Number.noConfusion fun h => h q rfl

theorem zero_mul_fin (q : ℚ) : mul (fin 0) (fin q) = fin 0 := congrArg fin (zero_mul q)

theorem one_mul (a : Number) : mul (fin 1) a = a := by
  cases a with
  | nan => rfl
  | inf s => cases s <;> rfl
  | fin q => exact congrArg fin (Rat.one_mul q)

theorem zero_add (a : Number) : add (fin 0) a = a := by
  cases a with
  | nan => rfl
  | inf s => rfl
  | fin q => exact congrArg fin (Rat.zero_add q)

theorem nan_add (a : Number) : add nan a = nan := by cases a <;> rfl

/-! ### Rounding -/

/-- A rounding that gives no number above a bound. -/
def overflow (r : ℚ → ℚ) (top : ℚ) (q : ℚ) : Number :=
  if top ≤ |r q| then inf (decide (r q < 0)) else fin (r q)

open Significand in
/-- Numbers with `p` digits, below `2 ^ e`. -/
def binary (p e : ℕ) : ℚ → Number := overflow (nearest p) (2 ^ e)

theorem round_eq_nan_iff {r : ℚ → Number} (hr : ∀ q, r q ≠ nan) {a : Number} :
    a.round r = nan ↔ a = nan := by
  cases a with
  | nan => exact Iff.rfl
  | inf s => exact iff_of_false Number.noConfusion Number.noConfusion
  | fin q => exact iff_of_false (hr q) Number.noConfusion

theorem overflow_ne_nan (r : ℚ → ℚ) (top q : ℚ) : overflow r top q ≠ nan := by
  rw [overflow]
  split_ifs <;> exact Number.noConfusion

theorem binary_of_abs_lt {p e : ℕ} {q : ℚ} (h : |Significand.nearest p q| < 2 ^ e) :
    binary p e q = fin (Significand.nearest p q) := if_neg (not_le.mpr h)

theorem binary_of_nonneg {p : ℕ} (hp : 0 < p) (e : ℕ) {q : ℚ} (hq : 0 ≤ q) :
    binary p e q = inf false ∨ binary p e q = fin (Significand.nearest p q) := by
  have hnonneg := Significand.nearest_le_nearest hp (le_refl 0) hq
  rw [Significand.nearest_zero] at hnonneg
  rw [binary, overflow]
  split_ifs
  · exact .inl (by rw [decide_eq_false (not_lt.mpr hnonneg)])
  · exact .inr rfl

/-- Rounding keeps a number above a bound. -/
theorem fin_lt_binary {p : ℕ} (hp : 0 < p) (e : ℕ) {a q r : ℚ} (hq : 0 ≤ q) (hqr : q ≤ r)
    (h : a < Significand.nearest p q) : fin a < binary p e r := by
  rcases binary_of_nonneg hp e (hq.trans hqr) with hr | hr
  · exact hr ▸ rfl
  · exact hr ▸ fin_lt_fin.mpr (h.trans_le (Significand.nearest_le_nearest hp hq hqr))

/-- **A rounded number** is not changed. -/
theorem binary_idem {p : ℕ} (hp : 0 < p) (e : ℕ) (q : ℚ) :
    (binary p e q).round (binary p e) = binary p e q := by
  by_cases h : 2 ^ e ≤ |Significand.nearest p q|
  · rw [binary, overflow, if_pos h]
    rfl
  · have hfin : binary p e q = fin (Significand.nearest p q) := if_neg h
    rw [hfin, round, binary_of_abs_lt] <;> rw [Significand.nearest_nearest hp]
    exact not_le.mp h

theorem round_binary_idem {p : ℕ} (hp : 0 < p) (e : ℕ) (a : Number) :
    (a.round (binary p e)).round (binary p e) = a.round (binary p e) := by
  cases a with
  | nan => rfl
  | inf s => rfl
  | fin q => exact binary_idem hp e q

end Number

end DroneTurret
