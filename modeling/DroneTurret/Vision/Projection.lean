import Mathlib.Analysis.SpecialFunctions.Trigonometric.Basic
import Mathlib.Data.Sign.Basic
import Mathlib.LinearAlgebra.Matrix.Notation
import Mathlib.Tactic.FieldSimp
import Mathlib.Tactic.Linarith
import Mathlib.Tactic.Positivity

/-!
# Correcting a target for the turn of the camera

After the camera has turned, `apply_adjustment` moves the target to where it is in the new picture.
With a depth it rotates the point in space and projects it again; without one it shifts the pixel in
proportion to the angle.

The numbers are those of an ordered field with functions for the angles. `radians` are those of the
real numbers. All numbers are finite, so the tests for numbers that are not are left out.

## Main definitions

* `project`, `shift` — the two ways, before rounding and clamping
* `applyAdjustment` — the choice between them
* `Turn.Agree` — the two move a target in the same direction

## Main results

* `applyAdjustment_mem` — a target stays in the frame
* `K_mul_Kinv`, `project_eq` — what the projection is
* `Turn.moves_none`, `Turn.moves_yaw`, `Turn.moves_pitch` — where the corrections move a target
* `agree_iff` — when the two ways agree
-/

namespace DroneTurret

namespace Vision

open Matrix

/-- The functions on angles. -/
structure Angles (F : Type*) where
  cos : F → F
  sin : F → F
  tan : F → F

/-- `w`, `h`, `FOV_X_RAD` and `FOV_Y_RAD`. -/
structure Lens (F : Type*) where
  w : F
  h : F
  fovX : F
  fovY : F

section Field

variable {F : Type*} [Field F] [LinearOrder F] [IsStrictOrderedRing F]

/-- `SIGN_YAW_TO_PIX`. -/
def signYawToPix : F := -1

/-- `SIGN_PITCH_TO_PIX`. -/
def signPitchToPix : F := -1

/-- The bound `1e-6` of the guards. -/
def tiny : F := 1 / 10 ^ 6

namespace Lens

variable (A : Angles F) (L : Lens F)

def fx : F := L.w / 2 / A.tan (L.fovX / 2)

def fy : F := L.h / 2 / A.tan (L.fovY / 2)

/-- `K`. -/
def K : Matrix (Fin 3) (Fin 3) F :=
  !![L.fx A, 0, L.w / 2; 0, L.fy A, L.h / 2; 0, 0, 1]

/-- The inverse of `K`. -/
def Kinv : Matrix (Fin 3) (Fin 3) F :=
  !![1 / L.fx A, 0, -(L.w / 2) / L.fx A; 0, 1 / L.fy A, -(L.h / 2) / L.fy A; 0, 0, 1]

/-- The field of view is usable. -/
def Usable : Prop := tiny < L.fovX ∧ tiny < L.fovY

instance : Decidable L.Usable := inferInstanceAs (Decidable (_ ∧ _))

end Lens

def rYaw (A : Angles F) (a : F) : Matrix (Fin 3) (Fin 3) F :=
  !![A.cos a, 0, A.sin a; 0, 1, 0; -A.sin a, 0, A.cos a]

def rPitch (A : Angles F) (a : F) : Matrix (Fin 3) (Fin 3) F :=
  !![1, 0, 0; 0, A.cos a, -A.sin a; 0, A.sin a, A.cos a]

variable (A : Angles F) (L : Lens F)

def ray (cx cy : F) : Fin 3 → F := L.Kinv A *ᵥ ![cx, cy, 1]

/-- The point of a pixel at a depth, after the turn. -/
def rotated (dyaw dpitch depth cx cy : F) : Fin 3 → F :=
  (rYaw A dyaw * rPitch A dpitch) *ᵥ ((depth / ray A L cx cy 2) • ray A L cx cy)

/-- The depth-based projection. There is none where a guard falls back to the pixel. -/
def project (dyaw dpitch depth cx cy : F) : Option (F × F) :=
  if ¬L.Usable ∨ ¬(0 < L.fx A ∧ 0 < L.fy A) then none
  else if |ray A L cx cy 2| < tiny then none
  else
    let hp2 := L.K A *ᵥ rotated A L dyaw dpitch depth cx cy
    if |hp2 2| < tiny then none else some (hp2 0 / hp2 2, hp2 1 / hp2 2)

/-- The shift in proportion to the angle. -/
def shift (dyaw dpitch cx cy : F) : Option (F × F) :=
  if ¬L.Usable then none
  else some (cx + signYawToPix * dyaw * (L.w / L.fovX),
    cy + signPitchToPix * dpitch * (L.h / L.fovY))

/-- The corrected pixel before rounding. -/
def corrected (dyaw dpitch : F) (depth : Option F) (cx cy : F) : Option (F × F) :=
  match depth with
  | some z => if 0 < z then project A L dyaw dpitch z cx cy else shift L dyaw dpitch cx cy
  | none => shift L dyaw dpitch cx cy

/-- `max(0, min(n-1, round(v)))`. -/
def toFrame (round : F → ℤ) (n : ℤ) (v : F) : ℤ := max 0 (min (n - 1) (round v))

/-- `apply_adjustment`, for the angles `dyaw` and `dpitch` turned since the last command. -/
def applyAdjustment (round : F → ℤ) (imuAvailable baseline : Bool) (fovX fovY dyaw dpitch : F)
    (cx cy w h : ℤ) (depth : Option F) : Option (ℤ × ℤ) :=
  if w ≤ 0 ∨ h ≤ 0 then none
  else if !imuAvailable || !baseline then some (cx, cy)
  else
    match corrected A ⟨w, h, fovX, fovY⟩ dyaw dpitch depth cx cy with
    | none => some (cx, cy)
    | some (u, v) => some (toFrame round w u, toFrame round h v)

omit [IsStrictOrderedRing F] in
/-- A target in the frame stays there. -/
theorem applyAdjustment_mem {round : F → ℤ} {imuAvailable baseline : Bool}
    {fovX fovY dyaw dpitch : F} {cx cy w h x y : ℤ} {depth : Option F}
    (hx : 0 ≤ cx ∧ cx < w) (hy : 0 ≤ cy ∧ cy < h)
    (hadjust : applyAdjustment A round imuAvailable baseline fovX fovY dyaw dpitch cx cy w h depth =
      some (x, y)) : (0 ≤ x ∧ x < w) ∧ 0 ≤ y ∧ y < h := by
  rw [applyAdjustment, if_neg (by omega)] at hadjust
  split_ifs at hadjust
  · obtain ⟨rfl, rfl⟩ := Prod.mk.inj (Option.some.inj hadjust)
    exact ⟨hx, hy⟩
  · split at hadjust
    · obtain ⟨rfl, rfl⟩ := Prod.mk.inj (Option.some.inj hadjust)
      exact ⟨hx, hy⟩
    · obtain ⟨rfl, rfl⟩ := Prod.mk.inj (Option.some.inj hadjust)
      simp only [toFrame]
      omega

/-! ### The projection in closed form -/

section Closed

variable {A L}

omit [LinearOrder F] [IsStrictOrderedRing F] in
theorem K_mul_Kinv (hfx : L.fx A ≠ 0) (hfy : L.fy A ≠ 0) : L.K A * L.Kinv A = 1 := by
  ext i j
  fin_cases i <;> fin_cases j <;> simp [Lens.K, Lens.Kinv, Matrix.mul_apply, Fin.sum_univ_three,
    hfx, hfy] <;> field_simp <;> ring

/-- The direction of a column of pixels, as the distance from the axis at unit depth. -/
def slopeX (A : Angles F) (L : Lens F) (cx : F) : F := (cx - L.w / 2) / L.fx A

/-- The direction of a row of pixels. -/
def slopeY (A : Angles F) (L : Lens F) (cy : F) : F := (cy - L.h / 2) / L.fy A

omit [LinearOrder F] [IsStrictOrderedRing F] in
theorem ray_eq (cx cy : F) : ray A L cx cy = ![slopeX A L cx, slopeY A L cy, 1] := by
  ext i
  fin_cases i <;> simp [ray, Lens.Kinv, slopeX, slopeY, Matrix.mulVec, dotProduct,
    Fin.sum_univ_three] <;> ring

omit [LinearOrder F] [IsStrictOrderedRing F] in
theorem rotated_eq (dyaw dpitch depth cx cy : F) :
    rotated A L dyaw dpitch depth cx cy =
      ![depth * (A.cos dyaw * slopeX A L cx +
          A.sin dyaw * (A.sin dpitch * slopeY A L cy + A.cos dpitch)),
        depth * (A.cos dpitch * slopeY A L cy - A.sin dpitch),
        depth * (-A.sin dyaw * slopeX A L cx +
          A.cos dyaw * (A.sin dpitch * slopeY A L cy + A.cos dpitch))] := by
  rw [rotated, ray_eq]
  ext i
  fin_cases i <;> simp [rYaw, rPitch, Matrix.mulVec, dotProduct, Matrix.mul_apply,
    Fin.sum_univ_three] <;> ring

omit [LinearOrder F] [IsStrictOrderedRing F] in
theorem eq_slopeX (hfx : L.fx A ≠ 0) (cx : F) : cx = L.fx A * slopeX A L cx + L.w / 2 := by
  rw [slopeX]
  field_simp
  ring

omit [LinearOrder F] [IsStrictOrderedRing F] in
theorem eq_slopeY (hfy : L.fy A ≠ 0) (cy : F) : cy = L.fy A * slopeY A L cy + L.h / 2 := by
  rw [slopeY]
  field_simp
  ring

theorem tiny_lt_one : (tiny : F) < 1 := by
  rw [tiny]
  norm_num

theorem tiny_pos : 0 < (tiny : F) := by
  rw [tiny]
  positivity

/-- The projection of the rotated point. -/
theorem project_eq (husable : L.Usable) (hfx : 0 < L.fx A) (hfy : 0 < L.fy A)
    (dyaw dpitch depth cx cy : F) :
    project A L dyaw dpitch depth cx cy =
      if |rotated A L dyaw dpitch depth cx cy 2| < tiny then none
      else some (L.fx A * (rotated A L dyaw dpitch depth cx cy 0 /
            rotated A L dyaw dpitch depth cx cy 2) + L.w / 2,
          L.fy A * (rotated A L dyaw dpitch depth cx cy 1 /
            rotated A L dyaw dpitch depth cx cy 2) + L.h / 2) := by
  have hray : ¬|ray A L cx cy 2| < tiny := by
    rw [ray_eq]
    simpa using tiny_lt_one.le
  generalize hq : rotated A L dyaw dpitch depth cx cy = q
  have hhp2 : L.K A *ᵥ q =
      ![L.fx A * q 0 + L.w / 2 * q 2, L.fy A * q 1 + L.h / 2 * q 2, q 2] := by
    ext i
    fin_cases i <;> simp [Lens.K, Matrix.mulVec, dotProduct, Fin.sum_univ_three]
  rw [project, if_neg (by simp [husable, hfx, hfy]), if_neg hray, hq, hhp2]
  change (if |q 2| < tiny then none else some ((L.fx A * q 0 + L.w / 2 * q 2) / q 2,
    (L.fy A * q 1 + L.h / 2 * q 2) / q 2)) = _
  split
  · rfl
  · rename_i hz
    have hne : q 2 ≠ 0 := by
      intro hzero
      rw [hzero, abs_zero] at hz
      exact hz tiny_pos
    congr 2 <;> field_simp

end Closed

end Field

/-! ### The camera -/

/-- `cos`, `sin` and `tan`. -/
noncomputable def radians : Angles ℝ := ⟨Real.cos, Real.sin, Real.tan⟩

/-- The frame with `FOV_X_DEG` and `FOV_Y_DEG`. -/
noncomputable def lens (w h : ℝ) : Lens ℝ :=
  ⟨w, h, 69.4 * Real.pi / 180, 42.5 * Real.pi / 180⟩

/-- A turn of the camera about one axis. -/
inductive Turn
  | yaw
  | pitch
  deriving DecidableEq

def Turn.dyaw (a : ℝ) : Turn → ℝ
  | .yaw => a
  | .pitch => 0

def Turn.dpitch (a : ℝ) : Turn → ℝ
  | .yaw => 0
  | .pitch => a

/-- The coordinate that a turn changes. -/
def Turn.coordinate : Turn → ℝ × ℝ → ℝ
  | .yaw => Prod.fst
  | .pitch => Prod.snd

/-- The direction in which a correction moves a target along a coordinate. -/
noncomputable def direction (coordinate : ℝ × ℝ → ℝ) (target : ℝ × ℝ) :
    Option (ℝ × ℝ) → SignType
  | none => 0
  | some q => SignType.sign (coordinate q - coordinate target)

/-- The direction of the correction with or without a depth. -/
noncomputable def Turn.moves (t : Turn) (a w h cx cy : ℝ) (depth : Option ℝ) : SignType :=
  direction t.coordinate (cx, cy)
    (corrected radians (lens w h) (t.dyaw a) (t.dpitch a) depth cx cy)

/-- The corrections with and without the depth move the target in the same direction. -/
def Turn.Agree (t : Turn) (a w h cx cy depth : ℝ) : Prop :=
  t.moves a w h cx cy (some depth) = t.moves a w h cx cy none

/-- How far in front of the camera the target is after the turn. -/
noncomputable def Turn.rotatedDepth (t : Turn) (a w h cx cy depth : ℝ) : ℝ :=
  rotated radians (lens w h) (t.dyaw a) (t.dpitch a) depth cx cy 2

section Camera

variable {w h : ℝ}

theorem lens_usable : (lens w h).Usable := by
  have hpi := Real.two_le_pi
  constructor
  · change 1 / 10 ^ 6 < 69.4 * Real.pi / 180
    linarith
  · change 1 / 10 ^ 6 < 42.5 * Real.pi / 180
    linarith

theorem lens_fx_pos (hw : 0 < w) : 0 < (lens w h).fx radians := by
  have hpi := Real.pi_pos
  refine div_pos (half_pos hw) (Real.tan_pos_of_pos_of_lt_pi_div_two ?_ ?_)
  · change 0 < 69.4 * Real.pi / 180 / 2
    positivity
  · change 69.4 * Real.pi / 180 / 2 < Real.pi / 2
    linarith

theorem lens_fy_pos (hh : 0 < h) : 0 < (lens w h).fy radians := by
  have hpi := Real.pi_pos
  refine div_pos (half_pos hh) (Real.tan_pos_of_pos_of_lt_pi_div_two ?_ ?_)
  · change 0 < 42.5 * Real.pi / 180 / 2
    positivity
  · change 42.5 * Real.pi / 180 / 2 < Real.pi / 2
    linarith

/-! ### Directions -/

variable {a cx cy depth : ℝ}

/-- A quantity with a positive factor has the sign of the other factor. -/
theorem sign_mul_of_pos {x y : ℝ} (hy : 0 < y) : SignType.sign (x * y) = SignType.sign x := by
  rw [sign_mul, sign_pos hy, mul_one]

theorem sign_sin (h : |a| < Real.pi / 2) : SignType.sign (Real.sin a) = SignType.sign a := by
  obtain ⟨hlo, hhi⟩ := abs_lt.mp h
  have hpi := Real.pi_pos
  rcases lt_trichotomy a 0 with ha | rfl | ha
  · rw [sign_neg ha, sign_neg (Real.sin_neg_of_neg_of_neg_pi_lt ha (by linarith))]
  · rw [Real.sin_zero]
  · rw [sign_pos ha, sign_pos (Real.sin_pos_of_pos_of_lt_pi ha (by linarith))]

/-- Without a depth, a target moves against the turn. -/
theorem Turn.moves_none (t : Turn) (hw : 0 < w) (hh : 0 < h) :
    t.moves a w h cx cy none = -SignType.sign a := by
  have hpi := Real.pi_pos
  have hstep : ∀ c x : ℝ, 0 < x → SignType.sign (c + -1 * a * x - c) = -SignType.sign a := by
    intro c x hx
    rw [add_sub_cancel_left, sign_mul_of_pos hx, neg_one_mul, Left.sign_neg]
  have hfovX : 0 < w / (69.4 * Real.pi / 180) := by positivity
  have hfovY : 0 < h / (42.5 * Real.pi / 180) := by positivity
  rw [moves, corrected, shift, if_neg (not_not.mpr lens_usable)]
  cases t with
  | yaw => exact hstep cx _ hfovX
  | pitch => exact hstep cy _ hfovY

/-- The point after a turn about the vertical axis. -/
theorem rotated_yaw : rotated radians (lens w h) (Turn.yaw.dyaw a) (Turn.yaw.dpitch a) depth cx cy =
    ![depth * (Real.cos a * slopeX radians (lens w h) cx + Real.sin a),
      depth * slopeY radians (lens w h) cy,
      depth * (Real.cos a - Real.sin a * slopeX radians (lens w h) cx)] := by
  rw [rotated_eq]
  simp only [Turn.dyaw, Turn.dpitch, radians, Real.cos_zero, Real.sin_zero, zero_mul, zero_add,
    mul_one, one_mul, sub_zero]
  rw [neg_mul, neg_add_eq_sub]

/-- The point after a turn about the horizontal axis. -/
theorem rotated_pitch :
    rotated radians (lens w h) (Turn.pitch.dyaw a) (Turn.pitch.dpitch a) depth cx cy =
      ![depth * slopeX radians (lens w h) cx,
        depth * (Real.cos a * slopeY radians (lens w h) cy - Real.sin a),
        depth * (Real.sin a * slopeY radians (lens w h) cy + Real.cos a)] := by
  rw [rotated_eq]
  simp only [Turn.dyaw, Turn.dpitch, radians, Real.cos_zero, Real.sin_zero, zero_mul, add_zero,
    one_mul, neg_zero, zero_add]

/-- Turning a direction with slope `x` by an angle changes the slope in the direction of its
sine. -/
theorem sign_turned {f d c s x m : ℝ} (hf : 0 < f) (hd : 0 < d) (hz : 0 < d * (c - s * x)) :
    SignType.sign (f * (d * (c * x + s) / (d * (c - s * x))) + m - (f * x + m)) =
      SignType.sign s := by
  have hmove : f * (d * (c * x + s) / (d * (c - s * x))) + m - (f * x + m) =
      s * (f * d * (1 + x ^ 2) / (d * (c - s * x))) := by
    obtain ⟨z, rfl⟩ : ∃ z, c = z + s * x := ⟨c - s * x, by ring⟩
    rw [add_sub_cancel_right] at hz ⊢
    have hne : z ≠ 0 := (pos_of_mul_pos_right hz hd.le).ne'
    have hd' := hd.ne'
    field_simp
    ring
  have hpos : 0 < f * d * (1 + x ^ 2) / (d * (c - s * x)) := by positivity
  rw [hmove, sign_mul_of_pos hpos]

/-- With a depth, a target moves in the direction of a turn about the vertical axis. -/
theorem Turn.moves_yaw (hw : 0 < w) (hh : 0 < h) (hdepth : 0 < depth) (ha : |a| < Real.pi / 2)
    (hfront : 0 < Turn.yaw.rotatedDepth a w h cx cy depth) :
    Turn.yaw.moves a w h cx cy (some depth) =
      if Turn.yaw.rotatedDepth a w h cx cy depth < tiny then 0 else SignType.sign a := by
  have hfx := lens_fx_pos (h := h) hw
  have hz : Turn.yaw.rotatedDepth a w h cx cy depth =
      depth * (Real.cos a - Real.sin a * slopeX radians (lens w h) cx) := by
    rw [rotatedDepth, rotated_yaw]
    rfl
  rw [hz] at hfront ⊢
  have hsign := sign_turned (m := (lens w h).w / 2) hfx hdepth hfront
  rw [← eq_slopeX hfx.ne' cx, sign_sin ha] at hsign
  rw [moves, corrected]
  simp only [if_pos hdepth]
  rw [project_eq lens_usable hfx (lens_fy_pos hh), rotated_yaw]
  simp only [Matrix.cons_val, abs_of_pos hfront]
  split
  · rfl
  · exact hsign

/-- With a depth, a target moves against a turn about the horizontal axis. -/
theorem Turn.moves_pitch (hw : 0 < w) (hh : 0 < h) (hdepth : 0 < depth) (ha : |a| < Real.pi / 2)
    (hfront : 0 < Turn.pitch.rotatedDepth a w h cx cy depth) :
    Turn.pitch.moves a w h cx cy (some depth) =
      if Turn.pitch.rotatedDepth a w h cx cy depth < tiny then 0 else -SignType.sign a := by
  have hfy := lens_fy_pos (w := w) hh
  have hz : Turn.pitch.rotatedDepth a w h cx cy depth =
      depth * (Real.cos a - -Real.sin a * slopeY radians (lens w h) cy) := by
    rw [rotatedDepth, rotated_pitch]
    change depth * (Real.sin a * slopeY radians (lens w h) cy + Real.cos a) = _
    ring
  have hz' : depth * (Real.sin a * slopeY radians (lens w h) cy + Real.cos a) =
      depth * (Real.cos a - -Real.sin a * slopeY radians (lens w h) cy) := by ring
  rw [hz] at hfront ⊢
  have hsign := sign_turned (m := (lens w h).h / 2) hfy hdepth hfront
  rw [← eq_slopeY hfy.ne' cy, Left.sign_neg, sign_sin ha, ← sub_eq_add_neg] at hsign
  rw [moves, corrected]
  simp only [if_pos hdepth]
  rw [project_eq lens_usable (lens_fx_pos hw) hfy, rotated_pitch]
  simp only [Matrix.cons_val, hz', abs_of_pos hfront]
  split
  · rfl
  · exact hsign

end Camera

/-- **The two corrections agree** for turns about the horizontal axis, as long as the projection is
not given up because the target is nearly beside the camera. About the vertical axis they never
agree: the projection moves a target with the turn and the shift against it. -/
theorem agree_iff (t : Turn) {a w h cx cy depth : ℝ} (hw : 0 < w) (hh : 0 < h) (hdepth : 0 < depth)
    (ha : 0 < |a| ∧ |a| < Real.pi / 2) (hfront : 0 < t.rotatedDepth a w h cx cy depth) :
    t.Agree a w h cx cy depth ↔ t = .pitch ∧ tiny ≤ t.rotatedDepth a w h cx cy depth := by
  have hsign : SignType.sign a ≠ 0 := sign_ne_zero.mpr (abs_pos.mp ha.1)
  have hopposite : 0 ≠ -SignType.sign a ∧ SignType.sign a ≠ -SignType.sign a := by
    generalize SignType.sign a = s at hsign
    revert s
    decide
  rw [Turn.Agree, t.moves_none hw hh]
  cases t with
  | yaw =>
    rw [Turn.moves_yaw hw hh hdepth ha.2 hfront]
    refine iff_of_false ?_ fun h => by cases h.1
    split
    · exact hopposite.1
    · exact hopposite.2
  | pitch =>
    rw [Turn.moves_pitch hw hh hdepth ha.2 hfront]
    split
    · rename_i hz
      exact iff_of_false hopposite.1 fun h => not_le.mpr hz h.2
    · rename_i hz
      exact iff_of_true rfl ⟨rfl, not_lt.mp hz⟩

/-- A target in the middle of the frame stays in front of the camera when it turns by 45°. -/
theorem rotatedDepth_middle (t : Turn) :
    t.rotatedDepth (Real.pi / 4) 1280 720 640 360 1 = Real.cos (Real.pi / 4) := by
  have hx : slopeX radians (lens 1280 720) 640 = 0 := by
    rw [slopeX]
    norm_num [lens]
  have hy : slopeY radians (lens 1280 720) 360 = 0 := by
    rw [slopeY]
    norm_num [lens]
  cases t with
  | yaw =>
    rw [Turn.rotatedDepth, rotated_yaw, hx]
    simp
  | pitch =>
    rw [Turn.rotatedDepth, rotated_pitch, hy]
    simp

theorem half_lt_cos : 1 / 2 < Real.cos (Real.pi / 4) := by
  rw [Real.cos_pi_div_four]
  have hroot : 1 < √2 := Real.lt_sqrt_of_sq_lt (by norm_num)
  linarith

theorem quarter_turn : 0 < |Real.pi / 4| ∧ |Real.pi / 4| < Real.pi / 2 := by
  have hpi := Real.pi_pos
  rw [abs_of_pos (by positivity)]
  constructor <;> linarith

/-- The camera turns by 45° up, or to the right, under a target in the middle of the frame. -/
theorem agree_iff_witness :
    Turn.pitch.Agree (Real.pi / 4) 1280 720 640 360 1 ∧
      ¬Turn.yaw.Agree (Real.pi / 4) 1280 720 640 360 1 := by
  have hcos := half_lt_cos
  have hfront : ∀ t : Turn, 0 < t.rotatedDepth (Real.pi / 4) 1280 720 640 360 1 := by
    intro t
    rw [rotatedDepth_middle]
    linarith
  have hpitch := agree_iff .pitch (by norm_num) (by norm_num) one_pos quarter_turn (hfront .pitch)
  have hyaw := agree_iff .yaw (by norm_num) (by norm_num) one_pos quarter_turn (hfront .yaw)
  refine ⟨hpitch.mpr ⟨rfl, ?_⟩, fun h => by cases (hyaw.mp h).1⟩
  rw [rotatedDepth_middle, tiny]
  linarith

/-- The shift moves a target to the left where the projection moves it to the right. -/
theorem not_agree : ¬∀ (t : Turn) (a w h cx cy depth : ℝ), 0 < w → 0 < h → 0 ≤ cx ∧ cx < w →
    0 ≤ cy ∧ cy < h → 0 < depth → 0 < |a| ∧ |a| < Real.pi / 2 →
    0 < t.rotatedDepth a w h cx cy depth → t.Agree a w h cx cy depth := by
  intro h
  have hcos := half_lt_cos
  have hdepth := rotatedDepth_middle .yaw
  have hfront : 0 < Turn.yaw.rotatedDepth (Real.pi / 4) 1280 720 640 360 1 := by linarith
  have hagree := h .yaw (Real.pi / 4) 1280 720 640 360 1 (by norm_num) (by norm_num)
    (by norm_num) (by norm_num) one_pos quarter_turn hfront
  have hpos : 0 < Real.pi / 4 := div_pos Real.pi_pos four_pos
  rw [Turn.Agree, Turn.moves_none _ (by norm_num) (by norm_num),
    Turn.moves_yaw (by norm_num) (by norm_num) one_pos quarter_turn.2 hfront, sign_pos hpos,
    if_neg] at hagree
  · cases hagree
  · rw [hdepth, tiny]
    linarith

end Vision

end DroneTurret
