import DroneTurret.Firmware.Parse
import DroneTurret.Keymap
import Mathlib.Tactic.Tauto

/-!
# One law for the twelve call sites

`control_pantilt` saturates by hand at every call, and the setters saturate again. `servoLaw` says
what the two amount to: a command moves the pair of angles by its direction times its step and
clamps each to its axis, `R` sets the rest position, and any other line changes nothing. The law
is about integers and lines; `serveCommands_spec` is the refinement, over runs of any length, of
the byte-and-register code to it.

The two saturations of an axis that is moved make one clamp, `clamp_stepUp` and `clamp_stepDown`.
An axis that is not moved is not clamped by the code, and the law clamps it all the same; that this
is no difference is where the induction needs `Servo.Synced`.
-/

namespace DroneTurret

namespace Firmware

open CString

/-- Both angles moved towards `area` by `moveDeg` and clamped, tilt to 90 and pan to 180. -/
def move (area : Byte) (moveDeg : ℤ) (a : ℤ × ℤ) : ℤ × ℤ :=
  (max 0 (min (a.1 + dy area * moveDeg) 90), max 0 (min (a.2 + dx area * moveDeg) 180))

/-- What a line does to the angles. -/
def servoLaw (a : ℤ × ℤ) (line : List Byte) : ℤ × ℤ :=
  if line = bytes "R" then (0, 90)
  else match command line with
    | some (area, level) => move area (levelDegree level) a
    | none => a

variable {s : Servo} {moveDeg : ℤ}

/-! ### The call sites -/

/-- A saturating step up and the setter's clamp make one clamp, whichever saturates lower. -/
theorem clamp_stepUp {cur : UInt8} {bound : ℤ} (hb : bound ≤ 180) :
    max 0 (min (stepUp cur moveDeg) bound) = max 0 (min (cur.toNat + 1 * moveDeg) bound) := by
  rw [stepUp]
  split_ifs <;> omega

theorem clamp_stepDown {cur : UInt8} {bound : ℤ} (hb : 0 ≤ bound) :
    max 0 (min (stepDown cur moveDeg) bound) = max 0 (min (cur.toNat + -1 * moveDeg) bound) := by
  rw [stepDown]
  split_ifs <;> omega

theorem tiltUp_angles (s : Servo) (moveDeg : ℤ) :
    (setServoDegree s (stepUp s.currentServoDegree moveDeg)).angles =
      (max 0 (min (s.angles.1 + 1 * moveDeg) 90), s.angles.2) := by
  rw [setServoDegree_angles, clamp_stepUp (by norm_num)]
  rfl

theorem tiltDown_angles (s : Servo) (moveDeg : ℤ) :
    (setServoDegree s (stepDown s.currentServoDegree moveDeg)).angles =
      (max 0 (min (s.angles.1 + -1 * moveDeg) 90), s.angles.2) := by
  rw [setServoDegree_angles, clamp_stepDown (by norm_num)]
  rfl

theorem panUp_angles (s : Servo) (moveDeg : ℤ) :
    (setServo2Degree s (stepUp s.currentServo2Degree moveDeg)).angles =
      (s.angles.1, max 0 (min (s.angles.2 + 1 * moveDeg) 180)) := by
  rw [setServo2Degree_angles, clamp_stepUp (by norm_num)]
  rfl

theorem panDown_angles (s : Servo) (moveDeg : ℤ) :
    (setServo2Degree s (stepDown s.currentServo2Degree moveDeg)).angles =
      (s.angles.1, max 0 (min (s.angles.2 + -1 * moveDeg) 180)) := by
  rw [setServo2Degree_angles, clamp_stepDown (by norm_num)]
  rfl

/-- Angles in range are not moved by clamping. -/
theorem Servo.Synced.clamp_angles (h : s.Synced) :
    s.angles = (max 0 (min s.angles.1 90), max 0 (min s.angles.2 180)) := by
  have h1 := h.tilt_le
  have h2 := h.pan_le
  refine Prod.ext ?_ ?_ <;> simp only [Servo.angles] <;> omega

/-- **All twelve call sites obey one saturating law.** -/
theorem controlPantilt_angles (h : s.Synced) (area : Byte) (moveDeg : ℤ) :
    (controlPantilt s area moveDeg).angles = move area moveDeg s.angles := by
  have hclamp := h.clamp_angles
  have h1 : max 0 (min s.angles.1 90) = s.angles.1 := congrArg Prod.fst hclamp.symm
  have h2 : max 0 (min s.angles.2 180) = s.angles.2 := congrArg Prod.snd hclamp.symm
  rw [controlPantilt]
  by_cases hQ : area = 'Q'.toUInt8
  · rw [if_pos hQ, hQ, move, show dy 'Q'.toUInt8 = 1 from rfl, show dx 'Q'.toUInt8 = -1 from rfl,
      panDown_angles, tiltUp_angles]
  rw [if_neg hQ]
  by_cases hW : area = 'W'.toUInt8
  · rw [if_pos hW, hW, move, show dy 'W'.toUInt8 = 1 from rfl, show dx 'W'.toUInt8 = 0 from rfl,
      tiltUp_angles, Int.zero_mul, Int.add_zero, h2]
  rw [if_neg hW]
  by_cases hE : area = 'E'.toUInt8
  · rw [if_pos hE, hE, move, show dy 'E'.toUInt8 = 1 from rfl, show dx 'E'.toUInt8 = 1 from rfl,
      panUp_angles, tiltUp_angles]
  rw [if_neg hE]
  by_cases hA : area = 'A'.toUInt8
  · rw [if_pos hA, hA, move, show dy 'A'.toUInt8 = 0 from rfl, show dx 'A'.toUInt8 = -1 from rfl,
      panDown_angles, Int.zero_mul, Int.add_zero, h1]
  rw [if_neg hA]
  by_cases hS : area = 'S'.toUInt8
  · rw [if_pos hS, hS, move, show dy 'S'.toUInt8 = 0 from rfl, show dx 'S'.toUInt8 = 0 from rfl,
      Int.zero_mul, Int.add_zero, Int.add_zero, h1, h2]
  rw [if_neg hS]
  by_cases hD : area = 'D'.toUInt8
  · rw [if_pos hD, hD, move, show dy 'D'.toUInt8 = 0 from rfl, show dx 'D'.toUInt8 = 1 from rfl,
      panUp_angles, Int.zero_mul, Int.add_zero, h1]
  rw [if_neg hD]
  by_cases hZ : area = 'Z'.toUInt8
  · rw [if_pos hZ, hZ, move, show dy 'Z'.toUInt8 = -1 from rfl, show dx 'Z'.toUInt8 = -1 from rfl,
      panDown_angles, tiltDown_angles]
  rw [if_neg hZ]
  by_cases hX : area = 'X'.toUInt8
  · rw [if_pos hX, hX, move, show dy 'X'.toUInt8 = -1 from rfl, show dx 'X'.toUInt8 = 0 from rfl,
      tiltDown_angles, Int.zero_mul, Int.add_zero, h2]
  rw [if_neg hX]
  by_cases hC : area = 'C'.toUInt8
  · rw [if_pos hC, hC, move, show dy 'C'.toUInt8 = -1 from rfl, show dx 'C'.toUInt8 = 1 from rfl,
      panUp_angles, tiltDown_angles]
  rw [if_neg hC]
  -- a letter outside the grid: the default branch, and no direction
  have hdy : dy area = 0 := by
    rw [dy, if_neg, if_neg] <;> simp [keyAt, keymap, bytes] <;> tauto
  have hdx : dx area = 0 := by
    rw [dx, if_neg, if_neg] <;> simp [keyAt, keymap, bytes] <;> tauto
  rw [move, hdy, hdx, Int.zero_mul, Int.add_zero, Int.add_zero, h1, h2]

theorem controlPantilt_synced (h : s.Synced) (area : Byte) (moveDeg : ℤ) :
    (controlPantilt s area moveDeg).Synced := by
  have hboth : ∀ tilt pan, (setServo2Degree (setServoDegree s tilt) pan).Synced := fun tilt pan =>
    setServo2Degree_synced (setServoDegree_synced h tilt) pan
  rw [controlPantilt]
  refine iteInduction (fun _ => hboth _ _) fun _ => ?_
  refine iteInduction (fun _ => setServoDegree_synced h _) fun _ => ?_
  refine iteInduction (fun _ => hboth _ _) fun _ => ?_
  refine iteInduction (fun _ => setServo2Degree_synced h _) fun _ => ?_
  refine iteInduction (fun _ => h) fun _ => ?_
  refine iteInduction (fun _ => setServo2Degree_synced h _) fun _ => ?_
  refine iteInduction (fun _ => hboth _ _) fun _ => ?_
  refine iteInduction (fun _ => setServoDegree_synced h _) fun _ => ?_
  exact iteInduction (fun _ => hboth _ _) fun _ => h

/-! ### Runs -/

/-- One command keeps the registers in step with the mirrors. -/
theorem parsingCommand_synced (h : s.Synced) (recvBuf : List Byte) :
    (parsingCommand s recvBuf).1.Synced := by
  rw [parsingCommand_fst]
  split
  · exact setServo2Degree_synced (setServoDegree_synced h _) _
  · split
    · exact controlPantilt_synced h _ _
    · exact h

/-- One command acts on the angles by the law. -/
theorem parsingCommand_angles (h : s.Synced) (recvBuf : List Byte) :
    (parsingCommand s recvBuf).1.angles = servoLaw s.angles (cString recvBuf) := by
  rw [parsingCommand_fst, servoLaw, show bytes "R" = ['R'.toUInt8] from rfl]
  split
  · rw [setServo2Degree_angles, setServoDegree_angles]
    rfl
  · cases command (cString recvBuf) with
    | none => rfl
    | some c => exact controlPantilt_angles h c.1 (levelDegree c.2)

/-- The servos after a sequence of commands. -/
def serveCommands (s : Servo) (cmds : List (List Byte)) : Servo :=
  cmds.foldl (fun s cmd => (parsingCommand s cmd).1) s

theorem serveCommands_spec (h : s.Synced) (cmds : List (List Byte)) :
    (serveCommands s cmds).Synced ∧
      (serveCommands s cmds).angles = (cmds.map cString).foldl servoLaw s.angles := by
  induction cmds generalizing s with
  | nil => exact ⟨h, rfl⟩
  | cons cmd cmds ih =>
    have hstep := ih (parsingCommand_synced h cmd)
    rw [parsingCommand_angles h] at hstep
    exact hstep

/-- **The servo state machine.** After any sequence of commands the angles are the fold of the law
from the rest position, and the compare registers hold the pulses of exactly those angles. -/
theorem serveCommands_startUp (cmds : List (List Byte)) :
    let s := serveCommands Servo.startUp cmds
    let a := (cmds.map cString).foldl servoLaw (0, 90)
    ((s.currentServoDegree.toNat : ℤ), (s.currentServo2Degree.toNat : ℤ)) = a ∧
      (s.ccr1.toNat : ℤ) = 500 + 2000 * a.1 / 180 ∧ (s.ccr2.toNat : ℤ) = 500 + 2000 * a.2 / 180 ∧
      500 ≤ s.ccr1.toNat ∧ s.ccr1.toNat ≤ 1500 ∧ 500 ≤ s.ccr2.toNat ∧ s.ccr2.toNat ≤ 2500 := by
  intro s a
  obtain ⟨hsync, hangles⟩ := serveCommands_spec Servo.startUp_synced cmds
  rw [Servo.startUp_angles] at hangles
  have h1 : (s.currentServoDegree.toNat : ℤ) = a.1 := congrArg Prod.fst hangles
  have h2 : (s.currentServo2Degree.toNat : ℤ) = a.2 := congrArg Prod.snd hangles
  have htilt : s.currentServoDegree.toNat ≤ 90 := hsync.tilt_le
  have hpan : s.currentServo2Degree.toNat ≤ 180 := hsync.pan_le
  have hp1 : s.ccr1.toNat = 500 + 2000 * s.currentServoDegree.toNat / 180 := hsync.tilt_pulse
  have hp2 : s.ccr2.toNat = 500 + 2000 * s.currentServo2Degree.toNat / 180 := hsync.pan_pulse
  refine ⟨hangles, ?_, ?_, ?_, ?_, ?_, ?_⟩ <;> omega

end Firmware

end DroneTurret
