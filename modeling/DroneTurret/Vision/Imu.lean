import DroneTurret.Lib.Angles
import DroneTurret.Vision.Projection
import Mathlib.Analysis.SpecialFunctions.Complex.Arg

/-!
# The orientation filter

`complementary_update` adds up what the gyroscope reports and wraps each sum, and then draws pitch
and roll towards the direction of gravity by a weighted mean. All three angles stay where
`_wrap_pi` has put them.

The mean is taken of the numbers, while the angles are places on a circle. It draws an angle the
right way as long as the direct way to the other angle is not much longer than the one across `pi`.
Everywhere else in the program a difference of angles is wrapped first: what `apply_adjustment`
takes for the turn since the last command is the turn, wherever on the circle it began.

The numbers are those of an ordered field with a floor, without rounding, and `pi` is any positive
one. `arctan2` returns any numbers between `-pi` and `pi`, not the same ones at every call.

## Main definitions

* `wrapPi`, `complementaryUpdate`, `imu` — the program, and a sequence of calls
* `InRange` — where the angles stay
* `Approaches` — a call draws no angle away from the accelerometer's
* `Near` — the condition for that, before the call
* `adjust` — the target is corrected by the differences to the last command

## Main results

* `wrapPi_eq` — the wrap is the place on the circle
* `approaches_iff` — one call
* `corrections_approach_iff` — any number of calls
* `adjust_eq` — the target is corrected by the turn
-/

namespace DroneTurret

namespace Vision

section Field

variable {F : Type*} [Field F] [LinearOrder F] [IsStrictOrderedRing F] [FloorRing F]

/-! ### The program -/

/-- Python's `%`, for a positive modulus. -/
def pymod (a b : F) : F := a - ⌊a / b⌋ * b

/-- `_wrap_pi`. -/
def wrapPi (P a : F) : F := pymod (a + P) (2 • P) - P

/-- `np.sqrt` and `np.arctan2`, with `P` for `np.pi`. -/
structure Numpy (P : F) where
  sqrt : F → F
  arctan2 : F → F → F
  arctan2_mem : ∀ y x, |arctan2 y x| ≤ P

/-- A call of `complementary_update`, with what the functions do during it. -/
structure Call (P : F) where
  np : Numpy P
  gx : F
  gy : F
  gz : F
  ax : F
  ay : F
  az : F
  dt : F
  alpha : F

structure Imu (F : Type*) where
  yaw : F
  pitch : F
  roll : F

namespace Call

variable {P : F} (c : Call P)

def g : F := c.np.sqrt (c.ax * c.ax + c.ay * c.ay + c.az * c.az)

def pitchAcc : F := c.np.arctan2 (c.az / c.g) (-(c.ay / c.g))

def rollAcc : F := c.np.arctan2 (c.ax / c.g) (-(c.ay / c.g))

/-- `g > 1e-3`. -/
def Corrects : Prop := c.g > 1 / 1000

instance : Decidable c.Corrects := inferInstanceAs (Decidable (_ > _))

/-- The first part: the gyroscope. -/
def integrate (s : Imu F) : Imu F where
  yaw := wrapPi P (s.yaw + c.gz * c.dt)
  pitch := wrapPi P (s.pitch + c.gx * c.dt)
  roll := wrapPi P (s.roll + c.gy * c.dt)

/-- The second part: the accelerometer. -/
def correct (s : Imu F) : Imu F :=
  if c.Corrects then
    { s with
      pitch := c.alpha * s.pitch + (1 - c.alpha) * c.pitchAcc
      roll := c.alpha * s.roll + (1 - c.alpha) * c.rollAcc }
  else s

end Call

def complementaryUpdate {P : F} (s : Imu F) (c : Call P) : Imu F := c.correct (c.integrate s)

/-- The angles after a sequence of calls. -/
def imu {P : F} (cs : List (Call P)) : Imu F := cs.foldl complementaryUpdate ⟨0, 0, 0⟩

/-- `SIGN_YAW_IMU`. -/
def signYawImu : F := 1

/-- `SIGN_PITCH_IMU`. -/
def signPitchImu : F := 1

/-- `dyaw`, from the angles at the last command. -/
def dyaw (P : F) (last s : Imu F) : F := signYawImu * wrapPi P (s.yaw - last.yaw)

def dpitch (P : F) (last s : Imu F) : F := signPitchImu * wrapPi P (s.pitch - last.pitch)

/-- `apply_adjustment`, from the angles at the last command. -/
def adjust (A : Angles F) (round : F → ℤ) (imuAvailable baseline : Bool) (P fovX fovY : F)
    (last s : Imu F) (cx cy w h : ℤ) (depth : Option F) : Option (ℤ × ℤ) :=
  applyAdjustment A round imuAvailable baseline fovX fovY (dyaw P last s) (dpitch P last s)
    cx cy w h depth

/-! ### What is said of it -/

/-- Where the angles stay. -/
structure InRange (P : F) (s : Imu F) : Prop where
  yaw : -P ≤ s.yaw ∧ s.yaw < P
  pitch : |s.pitch| ≤ P
  roll : |s.roll| ≤ P

/-- The correction does not make an angular distance larger. -/
structure Approaches {P : F} (s : Imu F) (c : Call P) : Prop where
  pitch : |wrapPi P ((complementaryUpdate s c).pitch - c.pitchAcc)| ≤
    |wrapPi P ((c.integrate s).pitch - c.pitchAcc)|
  roll : |wrapPi P ((complementaryUpdate s c).roll - c.rollAcc)| ≤
    |wrapPi P ((c.integrate s).roll - c.rollAcc)|

/-- The direct way from `x` to `y` is short enough for a mean with weight `alpha`. -/
def Near (P alpha x y : F) : Prop := alpha = 1 ∨ (1 + alpha) * |x - y| ≤ 2 • P

/-- Nothing is corrected, or both angles are near those of the accelerometer. -/
def Gentle {P : F} (s : Imu F) (c : Call P) : Prop :=
  c.Corrects → Near P c.alpha (wrapPi P (s.pitch + c.gx * c.dt)) c.pitchAcc ∧
    Near P c.alpha (wrapPi P (s.roll + c.gy * c.dt)) c.rollAcc

/-! ### The wrap -/

variable {P : F}

omit [IsStrictOrderedRing F] in
theorem wrapPi_eq_floor (P a : F) :
    wrapPi P a = a + P - ⌊(a + P) / (2 * P)⌋ * (2 * P) - P := by
  rw [wrapPi, pymod, two_nsmul, two_mul]

/-- **The wrap** takes an angle to its place on the circle. -/
theorem wrapPi_eq (hP : 0 < 2 * P) (a : F) : wrapPi P a = toIcoMod hP (-P) a := by
  refine ((toIcoMod_eq_iff hP).mpr ⟨⟨?_, ?_⟩, ⌊(a + P) / (2 * P)⌋, ?_⟩).symm
  · have := Int.floor_le ((a + P) / (2 * P))
    rw [le_div_iff₀ hP] at this
    rw [wrapPi_eq_floor]
    linarith
  · have := Int.lt_floor_add_one ((a + P) / (2 * P))
    rw [div_lt_iff₀ hP] at this
    rw [wrapPi_eq_floor]
    linarith
  · rw [wrapPi_eq_floor, zsmul_eq_mul]
    ring

theorem wrapPi_mem (hP : 0 < P) (a : F) : -P ≤ wrapPi P a ∧ wrapPi P a < P := by
  have hP' : 0 < 2 * P := by linarith
  obtain ⟨hlow, hhigh⟩ := toIcoMod_mem_Ico hP' (-P) a
  rw [wrapPi_eq hP']
  exact ⟨hlow, by linarith⟩

theorem abs_wrapPi_le (hP : 0 < P) (a : F) : |wrapPi P a| ≤ P := by
  obtain ⟨hlow, hhigh⟩ := wrapPi_mem hP a
  exact abs_le.mpr ⟨hlow, hhigh.le⟩

/-- An angle that is in its place. -/
theorem wrapPi_eq_self (hP : 0 < P) {a : F} (hlow : -P ≤ a) (hhigh : a < P) : wrapPi P a = a := by
  have hP' : 0 < 2 * P := by linarith
  rw [wrapPi_eq hP', toIcoMod_eq_self]
  exact ⟨hlow, by linarith⟩

omit [IsStrictOrderedRing F] in
theorem wrapPi_modEq (P a : F) : wrapPi P a ≡ a [PMOD 2 * P] := by
  refine AddCommGroup.modEq_iff_eq_add_zsmul.mpr ⟨⌊(a + P) / (2 * P)⌋, ?_⟩
  rw [wrapPi_eq_floor, zsmul_eq_mul]
  ring

/-- Angles that are full turns apart are in one place. -/
theorem wrapPi_congr (hP : 0 < P) {a b : F} (h : a ≡ b [PMOD 2 * P]) :
    wrapPi P a = wrapPi P b := by
  have hP' : 0 < 2 * P := by linarith
  rw [wrapPi_eq hP', wrapPi_eq hP']
  exact (toIcoMod_inj hP').mpr h

/-! ### One call -/

theorem inRange_integrate (hP : 0 < P) (s : Imu F) (c : Call P) : InRange P (c.integrate s) :=
  ⟨wrapPi_mem hP _, abs_wrapPi_le hP _, abs_wrapPi_le hP _⟩

omit [FloorRing F] in
theorem InRange.correct {s : Imu F} (h : InRange P s) {c : Call P}
    (halpha : 0 ≤ c.alpha ∧ c.alpha ≤ 1) : InRange P (c.correct s) := by
  rw [Call.correct]
  split_ifs
  · exact ⟨h.yaw, Angles.abs_mean_le h.pitch (c.np.arctan2_mem _ _) halpha.1 halpha.2,
      Angles.abs_mean_le h.roll (c.np.arctan2_mem _ _) halpha.1 halpha.2⟩
  · exact h

/-- **One angle.** The mean is drawn towards `y` exactly when `y` is near. -/
theorem abs_wrapPi_mean_le_iff (hP : 0 < P) {x y alpha : F} (hx : |x| ≤ P) (hy : |y| ≤ P)
    (halpha : 0 ≤ alpha ∧ alpha ≤ 1) :
    |wrapPi P (alpha * x + (1 - alpha) * y - y)| ≤ |wrapPi P (x - y)| ↔ Near P alpha x y := by
  have hP' : 0 < 2 * P := by linarith
  have hdiff : alpha * x + (1 - alpha) * y - y = alpha * (x - y) := by ring
  have hle : |x - y| ≤ 2 * P := by
    calc
      |x - y| ≤ |x| + |y| := abs_sub _ _
      _ ≤ P + P := add_le_add hx hy
      _ = 2 * P := (two_mul P).symm
  rw [hdiff, wrapPi_eq hP', wrapPi_eq hP', Near, two_nsmul, ← two_mul]
  exact Angles.abs_toIcoMod_mul_le_iff hP' hle halpha.1 halpha.2

/-- **One call.** -/
theorem approaches_iff (hP : 0 < P) (s : Imu F) {c : Call P} (halpha : 0 ≤ c.alpha ∧ c.alpha ≤ 1) :
    Approaches s c ↔ Gentle s c := by
  have hrange := inRange_integrate hP s c
  have hiff : Approaches s c ↔ _ ∧ _ := ⟨fun h => ⟨h.pitch, h.roll⟩, fun h => ⟨h.1, h.2⟩⟩
  rw [hiff, Gentle, complementaryUpdate, Call.correct]
  by_cases hcorrects : c.Corrects
  · rw [if_pos hcorrects, forall_prop_of_true hcorrects]
    exact and_congr
      (abs_wrapPi_mean_le_iff hP hrange.pitch (c.np.arctan2_mem _ _) halpha)
      (abs_wrapPi_mean_le_iff hP hrange.roll (c.np.arctan2_mem _ _) halpha)
  · rw [if_neg hcorrects]
    exact iff_of_true ⟨le_refl _, le_refl _⟩ fun h => absurd h hcorrects

omit [IsStrictOrderedRing F] in
/-- The yaw turns with the gyroscope alone. -/
theorem yaw_complementaryUpdate (s : Imu F) (c : Call P) :
    (complementaryUpdate s c).yaw = wrapPi P (s.yaw + c.gz * c.dt) := by
  rw [complementaryUpdate, Call.correct]
  split_ifs <;> rfl

/-! ### Any number of calls -/

omit [IsStrictOrderedRing F] in
theorem imu_concat (cs : List (Call P)) (c : Call P) :
    imu (cs ++ [c]) = complementaryUpdate (imu cs) c := by
  rw [imu, List.foldl_append]
  rfl

/-- The angles stay in their ranges. -/
theorem inRange_imu (hP : 0 < P) {cs : List (Call P)}
    (halpha : ∀ c ∈ cs, 0 ≤ c.alpha ∧ c.alpha ≤ 1) : InRange P (imu cs) := by
  rcases List.eq_nil_or_concat' cs with rfl | ⟨cs, c, rfl⟩
  · exact ⟨⟨neg_nonpos.mpr hP.le, hP⟩, abs_zero.trans_le hP.le, abs_zero.trans_le hP.le⟩
  · rw [imu_concat]
    exact (inRange_integrate hP _ c).correct (halpha c (List.mem_append_right _ List.mem_cons_self))

/-- **The filter.** The angles stay in their ranges, and no correction of a run makes an angular
distance larger if and only if each of them finds the angles near those of the accelerometer. -/
theorem corrections_approach_iff (hP : 0 < P) {cs : List (Call P)}
    (halpha : ∀ c ∈ cs, 0 ≤ c.alpha ∧ c.alpha ≤ 1) :
    (∀ before c after, cs = before ++ c :: after →
        InRange P (imu (before ++ [c])) ∧ Approaches (imu before) c) ↔
      ∀ before c after, cs = before ++ c :: after → Gentle (imu before) c := by
  refine forall₄_congr fun before c after hcs => ?_
  have hc : c ∈ cs := hcs ▸ List.mem_append_right _ List.mem_cons_self
  rw [approaches_iff hP _ (halpha c hc)]
  refine and_iff_right (inRange_imu hP fun c' hc' => halpha c' ?_)
  rw [hcs, List.append_cons]
  exact List.mem_append_left _ hc'

/-! ### The turn since the last command -/

omit [IsStrictOrderedRing F] in
/-- The yaw adds up the turns, up to full ones. -/
theorem yaw_foldl_modEq (cs : List (Call P)) (s : Imu F) :
    (cs.foldl complementaryUpdate s).yaw ≡ s.yaw + (cs.map fun c => c.gz * c.dt).sum
      [PMOD 2 * P] := by
  induction cs generalizing s with
  | nil =>
    rw [List.foldl_nil, List.map_nil, List.sum_nil, add_zero]
  | cons c cs ih =>
    have hstep := (wrapPi_modEq P (s.yaw + c.gz * c.dt)).add_right
      (cs.map fun c => c.gz * c.dt).sum
    rw [← yaw_complementaryUpdate] at hstep
    rw [List.foldl_cons, List.map_cons, List.sum_cons, ← add_assoc]
    exact (ih _).trans hstep

/-- **The difference** to the last command is the turn since then, if that is less than half a
circle. Whether the yaw has crossed the end of the interval meanwhile makes no difference. -/
theorem dyaw_imu (hP : 0 < P) (cs since : List (Call P)) {turn : F}
    (hturn : (since.map fun c => c.gz * c.dt).sum = turn) (hlow : -P ≤ turn) (hhigh : turn < P) :
    dyaw P (imu cs) (imu (cs ++ since)) = turn := by
  have hsum := yaw_foldl_modEq since (imu cs)
  rw [hturn] at hsum
  have hdiff := hsum.sub_right (imu cs).yaw
  rw [add_sub_cancel_left] at hdiff
  rw [dyaw, signYawImu, one_mul, imu, List.foldl_append]
  exact (wrapPi_congr hP hdiff).trans (wrapPi_eq_self hP hlow hhigh)

/-- **The correction.** A target is moved by the turn since the last command. -/
theorem adjust_eq (hP : 0 < P) (A : Angles F) (round : F → ℤ) (fovX fovY : F)
    (cs since : List (Call P)) {turn : F}
    (hturn : (since.map fun c => c.gz * c.dt).sum = turn) (hlow : -P ≤ turn) (hhigh : turn < P)
    (cx cy w h : ℤ) (depth : Option F) :
    adjust A round true true P fovX fovY (imu cs) (imu (cs ++ since)) cx cy w h depth =
      applyAdjustment A round true true fovX fovY turn (dpitch P (imu cs) (imu (cs ++ since)))
        cx cy w h depth := by
  rw [adjust, dyaw_imu hP cs since hturn hlow hhigh]

end Field

/-! ### The functions of `numpy` -/

/-- The functions of real numbers. -/
noncomputable def numpy : Numpy Real.pi where
  sqrt := Real.sqrt
  arctan2 y x := Complex.arg ⟨x, y⟩
  arctan2_mem _ _ := Complex.abs_arg_le_pi _

/-- A call with the gravity along the second axis, `1` if the camera is upside down and `-1` if it
stands upright, and a turn of `gx` around the first one. -/
noncomputable def standing (gx ay : ℝ) : Call Real.pi := ⟨numpy, gx, 0, 0, 0, ay, 0, 1, 98 / 100⟩

theorem g_standing {gx ay : ℝ} (h : ay * ay = 1) : (standing gx ay).g = 1 := by
  change Real.sqrt (0 * 0 + ay * ay + 0 * 0) = 1
  rw [h, mul_zero, zero_add, add_zero, Real.sqrt_one]

theorem pitchAcc_upright (gx : ℝ) : (standing gx (-1)).pitchAcc = 0 := by
  rw [Call.pitchAcc, g_standing (by norm_num)]
  have hone : (⟨-(-1 / 1), 0 / 1⟩ : ℂ) = 1 := Complex.ext (by norm_num) (by norm_num)
  exact (congrArg Complex.arg hone).trans Complex.arg_one

theorem pitchAcc_upsideDown (gx : ℝ) : (standing gx 1).pitchAcc = Real.pi := by
  rw [Call.pitchAcc, g_standing (by norm_num)]
  have hneg : (⟨-(1 / 1), 0 / 1⟩ : ℂ) = -1 := Complex.ext (by norm_num) (by norm_num)
  exact (congrArg Complex.arg hneg).trans Complex.arg_neg_one

theorem standing_alpha (gx ay : ℝ) : 0 ≤ (standing gx ay).alpha ∧ (standing gx ay).alpha ≤ 1 := by
  change (0 : ℝ) ≤ 98 / 100 ∧ (98 / 100 : ℝ) ≤ 1
  norm_num

/-- The camera stands upright and does not turn. -/
theorem corrections_approach_iff_witness :
    InRange Real.pi (imu [standing 0 (-1)]) ∧ Approaches ⟨0, 0, 0⟩ (standing 0 (-1)) := by
  refine (corrections_approach_iff Real.pi_pos
    (List.forall_mem_singleton.mpr (standing_alpha 0 (-1)))).mpr ?_ [] (standing 0 (-1)) [] rfl
  rintro before c after hcs
  obtain ⟨rfl, rfl⟩ : before = [] ∧ c = standing 0 (-1) := by
    cases before with
    | nil => exact ⟨rfl, (List.cons.inj hcs).1.symm⟩
    | cons b before =>
      have htail := (List.cons.inj hcs).2.symm
      exact absurd (List.append_eq_nil_iff.mp htail).2 (List.cons_ne_nil _ _)
  intro _
  have hturn : wrapPi Real.pi ((0 : ℝ) + 0 * 1) = 0 := by
    rw [mul_one, add_zero, wrapPi_eq_self Real.pi_pos (neg_nonpos.mpr Real.pi_pos.le) Real.pi_pos]
  have hnear : Near Real.pi (98 / 100) (wrapPi Real.pi ((0 : ℝ) + 0 * 1)) 0 := by
    rw [hturn, Near, sub_zero, abs_zero, mul_zero]
    exact .inr (nsmul_nonneg Real.pi_pos.le 2)
  have hacc := pitchAcc_upright 0
  have hroll : (standing 0 (-1)).rollAcc = (standing 0 (-1)).pitchAcc := rfl
  rw [hroll, hacc]
  exact ⟨hnear, hnear⟩

/-- The camera is upside down, and the pitch has got half the way there. The nearer way to `pi` is
across the end of the interval, and the pitch is drawn the other way. -/
theorem not_corrections_approach :
    ¬∀ cs : List (Call Real.pi), (∀ c ∈ cs, 0 ≤ c.alpha ∧ c.alpha ≤ 1) →
      ∀ before c after, cs = before ++ c :: after →
        InRange Real.pi (imu (before ++ [c])) ∧ Approaches (imu before) c := by
  intro h
  have hpi := Real.pi_pos
  have halpha := standing_alpha (-(Real.pi / 2)) 1
  obtain ⟨-, happroaches⟩ := h [standing (-(Real.pi / 2)) 1]
    (List.forall_mem_singleton.mpr halpha) [] _ [] rfl
  rw [approaches_iff hpi _ halpha] at happroaches
  have hcorrects : (standing (-(Real.pi / 2)) 1).Corrects := by
    rw [Call.Corrects, g_standing (mul_one 1)]
    norm_num
  have hturn : wrapPi Real.pi ((0 : ℝ) + -(Real.pi / 2) * 1) = -(Real.pi / 2) := by
    rw [mul_one, zero_add, wrapPi_eq_self hpi (by linarith) (by linarith)]
  have hnear : Near Real.pi (98 / 100) (wrapPi Real.pi ((0 : ℝ) + -(Real.pi / 2) * 1))
      (standing (-(Real.pi / 2)) 1).pitchAcc := (happroaches hcorrects).1
  rw [hturn, pitchAcc_upsideDown] at hnear
  have hway : |-(Real.pi / 2) - Real.pi| = 3 / 2 * Real.pi := by
    rw [abs_of_neg (by linarith)]
    ring
  rcases hnear with hone | hshort
  · norm_num at hone
  · rw [hway, two_nsmul] at hshort
    linarith

end Vision

end DroneTurret
