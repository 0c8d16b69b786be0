import DroneTurret.Keymap
import Mathlib.Algebra.Order.Monoid.WithTop
import Mathlib.Algebra.Order.Floor.Ring
import Mathlib.Data.Rat.Floor
import Mathlib.Tactic.IntervalCases
import Mathlib.Tactic.Positivity
import Mathlib.Tactic.SplitIfs
import Mathlib.Tactic.Linarith

/-!
# What the vision programs send to the turret

`app_hailo` and `app_cuda` share the inference loop's contract: a selected box gives a grid letter
and a depth, and `uart_thread` writes the two as one line. They differ in what they keep of a depth
reading and in the level digit they send for it.

Depths and the quotient `3 * x / w` are exact rationals, and `int()` truncates towards zero. Without
a depth frame a reading is `none`. In `app_cuda` a reading that is not positive is given the depth
`inf`, which is stored and passes for a depth beyond all levels.
-/

namespace DroneTurret

namespace Vision

open CString

/-- The two vision programs. -/
inductive App
  | hailo
  | cuda
  deriving DecidableEq, Repr

/-- Python's `int()` of a float. -/
def pyInt (q : ℚ) : ℤ := if 0 ≤ q then ⌊q⌋ else ⌈q⌉

theorem pyInt_intCast (n : ℤ) : pyInt n = n := by
  rw [pyInt, Int.floor_intCast, Int.ceil_intCast, ite_self]

def valueFromXy (x y w h : ℤ) : Option Byte :=
  if ¬(0 ≤ x ∧ x < w ∧ 0 ≤ y ∧ y < h) then none
  else
    let col := min 2 (pyInt (3 * x / w))
    let row := min 2 (pyInt (3 * y / h))
    some (keyAt row.toNat col.toNat)

/-- `latest_result` for a selected box: the letter of the sector its centre is in, or `?`. -/
def latestResult (x1 y1 x2 y2 w h : ℤ) : List Byte :=
  match valueFromXy ((x1 + x2) / 2) ((y1 + y2) / 2) w h with
  | some key => [key]
  | none => bytes "?"

namespace Cuda

/-- `_valid_depth` of a reading. -/
def validDepth (z : Option ℚ) : Bool := z.any fun z => decide (0 < z)

/-- `z if has_z else float('inf')`. -/
def keyDepth (z : Option ℚ) : WithTop ℚ := if validDepth z then z.elim ⊤ WithTop.some else ⊤

theorem keyDepth_pos (z : Option ℚ) : 0 < keyDepth z := by
  rw [keyDepth]
  cases z with
  | none => exact WithTop.top_pos
  | some z =>
    split_ifs with hz
    · exact WithTop.coe_pos.mpr (of_decide_eq_true hz)
    · exact WithTop.top_pos

theorem validDepth_iff (z : Option ℚ) : validDepth z = true ↔ keyDepth z ≠ ⊤ := by
  rw [keyDepth]
  cases z with
  | none => simp [validDepth]
  | some z => split_ifs with hz <;> simp [hz]

/-- `float(z) if _valid_depth(z) else 0.0`, for what is selected. `inf` passes the test. -/
def storedDepth (z : WithTop ℚ) : WithTop ℚ := if 0 < z then z else 0

end Cuda

/-- `latest_depth` for a reading at the centre of the box. `app_cuda` stores `inf` for what is not a
positive number. -/
def App.latestDepth : App → Option ℚ → Option (WithTop ℚ)
  | .hailo, z => z.map WithTop.some
  | .cuda, z => some (Cuda.storedDepth (Cuda.keyDepth z))

/-- The digit that `uart_thread` sends for a depth. -/
def App.digit : App → Option (WithTop ℚ) → Byte
  | .hailo, depth => if depth = none ∨ depth = some 0 then '1'.toUInt8 else '2'.toUInt8
  | .cuda, none => '0'.toUInt8
  | .cuda, some depth =>
    if depth ≤ 0 then '0'.toUInt8
    else if 0 ≤ depth ∧ depth < ((1 / 2 : ℚ) : WithTop ℚ) then '1'.toUInt8
    else if ((1 / 2 : ℚ) : WithTop ℚ) ≤ depth ∧ depth < ((4 / 5 : ℚ) : WithTop ℚ) then '2'.toUInt8
    else if ((4 / 5 : ℚ) : WithTop ℚ) ≤ depth ∧ depth < ((11 / 10 : ℚ) : WithTop ℚ) then '3'.toUInt8
    else if ((11 / 10 : ℚ) : WithTop ℚ) ≤ depth ∧ depth < ((7 / 5 : ℚ) : WithTop ℚ) then '4'.toUInt8
    else '5'.toUInt8

/-- `tag`. -/
def App.tag (app : App) (depth : Option (WithTop ℚ)) : List Byte := [app.digit depth]

/-- The line `uart_thread` writes, from `latest_result` and `latest_depth`. -/
def App.payload (app : App) (cur : List Byte) (depth : Option (WithTop ℚ)) : List Byte :=
  cur ++ bytes "@" ++ app.tag depth ++ bytes "\n"

/-- The bytes one selected box and depth reading put on the UART. -/
def App.uartThread (app : App) (x1 y1 x2 y2 w h : ℤ) (z : Option ℚ) : List Byte :=
  app.payload (latestResult x1 y1 x2 y2 w h) (app.latestDepth z)

/-! ### The grid -/

/-- A position inside the frame is in one of three thirds, and `min 2` never cuts. -/
theorem pyInt_third {x w : ℤ} (hx : 0 ≤ x) (hxw : x < w) :
    min 2 (pyInt (3 * x / w)) = ⌊(3 * x / w : ℚ)⌋ ∧ 0 ≤ ⌊(3 * x / w : ℚ)⌋ ∧
      ⌊(3 * x / w : ℚ)⌋ < 3 := by
  have hw : (0 : ℚ) < w := by exact_mod_cast lt_of_le_of_lt hx hxw
  have hx' : (0 : ℚ) ≤ x := by exact_mod_cast hx
  have hxw' : (x : ℚ) < w := by exact_mod_cast hxw
  have hnonneg : (0 : ℚ) ≤ 3 * x / w := by positivity
  have hlt : (3 * x / w : ℚ) < 3 := by
    rw [div_lt_iff₀ hw]
    linarith
  have h0 : 0 ≤ ⌊(3 * x / w : ℚ)⌋ := Int.floor_nonneg.mpr hnonneg
  have h3 : ⌊(3 * x / w : ℚ)⌋ < 3 := Int.floor_lt.mpr (by exact_mod_cast hlt)
  refine ⟨?_, h0, h3⟩
  rw [pyInt, if_pos hnonneg]
  omega

/-- **The letter of a selected box** is the one of the sector its centre is in. -/
theorem latestResult_eq {x1 y1 x2 y2 w h : ℤ} (hx1 : 0 ≤ x1) (hx : x1 < x2) (hx2 : x2 ≤ w - 1)
    (hy1 : 0 ≤ y1) (hy : y1 < y2) (hy2 : y2 ≤ h - 1) :
    latestResult x1 y1 x2 y2 w h =
      [keyAt ⌊(3 * ((y1 + y2) / 2 : ℤ) / h : ℚ)⌋.toNat
        ⌊(3 * ((x1 + x2) / 2 : ℤ) / w : ℚ)⌋.toNat] := by
  have hbx : 0 ≤ (x1 + x2) / 2 := by omega
  have hbxw : (x1 + x2) / 2 < w := by omega
  have hby : 0 ≤ (y1 + y2) / 2 := by omega
  have hbyh : (y1 + y2) / 2 < h := by omega
  rw [latestResult, valueFromXy, if_neg (not_not.mpr ⟨hbx, hbxw, hby, hbyh⟩)]
  dsimp only
  rw [(pyInt_third hbx hbxw).1, (pyInt_third hby hbyh).1]

/-- The nine letters, without the bytes that mean something else on the line. -/
theorem keyAt_of_lt {row col : ℕ} (hrow : row < 3) (hcol : col < 3) :
    keyAt row col ∈ bytes "QWEASDZXC" := by
  interval_cases row <;> interval_cases col <;> decide

/-! ### The level digit -/

/-- The digit of `app_cuda` for a depth greater than zero. -/
theorem cuda_digit_of_pos {z : WithTop ℚ} (hz : 0 < z) : App.cuda.digit (some z) =
    if z < ((1 / 2 : ℚ) : WithTop ℚ) then '1'.toUInt8
    else if z < ((4 / 5 : ℚ) : WithTop ℚ) then '2'.toUInt8
    else if z < ((11 / 10 : ℚ) : WithTop ℚ) then '3'.toUInt8
    else if z < ((7 / 5 : ℚ) : WithTop ℚ) then '4'.toUInt8 else '5'.toUInt8 := by
  rw [App.digit, if_neg (not_le.mpr hz)]
  simp only [hz.le, true_and]
  by_cases h1 : z < ((1 / 2 : ℚ) : WithTop ℚ)
  · rw [if_pos h1, if_pos h1]
  by_cases h2 : z < ((4 / 5 : ℚ) : WithTop ℚ)
  · rw [if_neg h1, if_neg h1, if_pos ⟨not_lt.mp h1, h2⟩, if_pos h2]
  by_cases h3 : z < ((11 / 10 : ℚ) : WithTop ℚ)
  · rw [if_neg h1, if_neg h1, if_neg fun h => h2 h.2, if_neg h2, if_pos ⟨not_lt.mp h2, h3⟩,
      if_pos h3]
  by_cases h4 : z < ((7 / 5 : ℚ) : WithTop ℚ)
  · rw [if_neg h1, if_neg h1, if_neg fun h => h2 h.2, if_neg h2, if_neg fun h => h3 h.2, if_neg h3,
      if_pos ⟨not_lt.mp h3, h4⟩, if_pos h4]
  · rw [if_neg h1, if_neg h1, if_neg fun h => h2 h.2, if_neg h2, if_neg fun h => h3 h.2, if_neg h3,
      if_neg fun h => h4 h.2, if_neg h4]

theorem cuda_digit_mem {z : WithTop ℚ} (hz : 0 < z) :
    App.cuda.digit (some z) ∈ bytes "12345" := by
  rw [cuda_digit_of_pos hz]
  split_ifs <;> decide

theorem hailo_digit_mem (depth : Option (WithTop ℚ)) :
    App.hailo.digit depth ∈ bytes "12" ∧
      (App.hailo.digit depth = '1'.toUInt8 ↔ depth = none ∨ depth = some 0) := by
  rw [App.digit]
  split_ifs with hdepth
  · exact ⟨by decide, iff_of_true rfl hdepth⟩
  · exact ⟨by decide, iff_of_false (by decide) hdepth⟩

/-- The digits of both programs are digits. -/
theorem App.digit_mem (app : App) (depth : Option (WithTop ℚ)) :
    app.digit depth ∈ bytes "012345" := by
  have h12 : ∀ d ∈ bytes "12", d ∈ bytes "012345" := forall_mem_of_all rfl
  have h5 : ∀ d ∈ bytes "12345", d ∈ bytes "012345" := forall_mem_of_all rfl
  cases app with
  | hailo => exact h12 _ (hailo_digit_mem depth).1
  | cuda =>
    cases depth with
    | none => exact show '0'.toUInt8 ∈ bytes "012345" by decide
    | some z =>
      by_cases hz : z ≤ 0
      · rw [App.digit, if_pos hz]
        decide
      · exact h5 _ (cuda_digit_mem (not_le.mp hz))

/-- A reading that is a positive number is stored as it is, and any other one as `inf`. -/
theorem App.latestDepth_cuda_of_pos {z : ℚ} (hz : 0 < z) :
    App.cuda.latestDepth (some z) = some (z : WithTop ℚ) := by
  have hkey : Cuda.keyDepth (some z) = z := if_pos (decide_eq_true hz)
  rw [App.latestDepth, hkey, Cuda.storedDepth, if_pos (WithTop.coe_pos.mpr hz)]

theorem App.latestDepth_cuda_of_not_pos {z : Option ℚ} (hz : ∀ d ∈ z, ¬0 < d) :
    App.cuda.latestDepth z = some ⊤ := by
  have hkey : Cuda.keyDepth z = ⊤ := by
    by_contra hne
    have hvalid := (Cuda.validDepth_iff z).mpr hne
    cases z with
    | none => cases hvalid
    | some d => exact hz d rfl (of_decide_eq_true hvalid)
  rw [App.latestDepth, hkey, Cuda.storedDepth, if_pos WithTop.top_pos]

end Vision

end DroneTurret
