import DroneTurret.Gui.Graph
import DroneTurret.Gui.Target
import DroneTurret.Lib.Significand
import DroneTurret.Vision.Encoder

/-!
# Alarms for targets that were not measured

A target without a measured depth is stored with the depth `inf` and reported with it. The GUI reads
`inf` as an infinity, which is far away, or not at all. Numbers are `double` in the GUI and `float`
in its 3D view, so a target at 0.401 m is compared with the threshold of 0.4 m after four roundings:
to three decimals, to the nearest `double`, to the nearest `float`, and the threshold to the nearest
`float`.

## Main definitions

* `Target` — a target that was not measured or is at least 0.401 m away
* `ingest` — a report of a target, from its text to the 3D view
* `Quiet` — no alarm

## Main results

* `not_isRed_of_received` — no report of such a target adds a red point
* `quiet_view` — no number of them raises an alarm
-/

namespace DroneTurret

namespace Gui

open CString Trim Decimal Significand Vision
open Relay (isSpace)

/-- The arithmetic of `double` and `float`. -/
def ieee : Arithmetic := ⟨Number.binary 53 1024, Number.binary 24 128⟩

/-- Qt's `toDouble`, for numerals of any length and for `inf`. -/
structure QtDoubles extends Doubles Number where
  ofRat_eq : ofRat = ieee.double
  read_fraction : ∀ s f d, Numeral s → Numeral f → toDouble (s ++ bytes "." ++ f) = some d →
    d = ieee.double (value s + value f / 10 ^ f.length)
  read_inf : ∀ d, toDouble (bytes "inf") = some d → d = .inf false

/-- A target that is sent, with the reading of its depth: not measured or at least 0.401 m away. -/
structure Target extends Position where
  reading : Option ℚ
  label : List Byte
  labelled : label ≠ []
  far : ∀ z ∈ reading, 0 < z → 401 / 1000 ≤ z

namespace Target

variable (t : Target)

/-- `latest_depth`. -/
def depth : Option (WithTop ℚ) := App.cuda.latestDepth t.reading

/-- The text that the GUI gets for the report of a target. -/
def received : List Byte := raspberrypi ++ targetPayload t.x t.y t.depth t.label

/-- The GUI reports drones only. -/
def Drone : Prop := trim isSpace t.label = bytes "drone"

instance : Decidable t.Drone := inferInstanceAs (Decidable (_ = _))

/-- An infinite depth, or one of at least 0.401 m. -/
theorem depth_cases :
    t.depth = some ⊤ ∨ ∃ z : ℚ, 401 / 1000 ≤ z ∧ t.depth = some (z : WithTop ℚ) := by
  by_cases hpos : ∃ z ∈ t.reading, 0 < z
  · obtain ⟨z, hz, hz0⟩ := hpos
    refine .inr ⟨z, t.far z hz hz0, ?_⟩
    rw [depth, Option.mem_def.mp hz]
    exact App.latestDepth_cuda_of_pos hz0
  · exact .inl (App.latestDepth_cuda_of_not_pos fun z hz h => hpos ⟨z, hz, h⟩)

end Target

section Report

variable (qt : QtDoubles)

def ingest (g : Tab3DGraph) (t : Target) : Tab3DGraph :=
  match onRecvLine qt.toDouble t.received with
  | none => g
  | some d => g.addDetection ieee d.x d.y d.z

/-- The view after the reports of targets. -/
def view (ts : List Target) : Tab3DGraph := ts.foldl (ingest qt) .start

/-- No sound was started, no point is red and the level is not high. -/
structure Quiet (g : Tab3DGraph) : Prop where
  sound : g.redAlerts = 0
  red : g.seriesRed = []
  risk : g.risk ≠ .high

/-! ### From a depth to a point -/

variable {qt}

/-- The text of a target, with its depth as it is printed. -/
theorem Target.received_eq (t : Target) :
    t.received = raspberrypi ++ payload (digits t.x.natAbs) (digits t.y.natAbs)
      (formatDepth (depthVal t.depth)) (t.label ++ bytes "\n") := by
  rw [Target.received, targetPayload, paddedInt_of_nonneg t.x_mem.1, paddedInt_of_nonneg t.y_mem.1]
  simp [payload, bytes, sep]
  rfl

/-- The depth is printed as `inf` or as a number with three decimals. -/
theorem Target.formatDepth_cases (t : Target) :
    formatDepth (depthVal t.depth) = bytes "inf" ∨
      ∃ q i f, 401 / 1000 ≤ q ∧
        formatDepth (depthVal t.depth) = digits i ++ bytes "." ++ padded 3 f ∧ f < 1000 ∧
        (i : ℚ) + f / 10 ^ 3 = roundTo 3 q := by
  rcases t.depth_cases with h | ⟨q, hq, h⟩
  · rw [h, depthVal_of_nonneg le_top]
    exact .inl rfl
  · have hq0 : 0 ≤ q := le_trans (by norm_num) hq
    obtain ⟨i, f, hfixed, hf, hvalue, -⟩ := fixed_eq 3 hq0
    exact .inr ⟨q, i, f, hq, by rw [h, formatDepth_depthVal hq0, hfixed], hf, hvalue⟩

/-- What the report of a target leads to. -/
theorem onRecvLine_received (t : Target) {d : Detection Number}
    (h : onRecvLine qt.toDouble t.received = some d) :
    t.Drone ∧ qt.toDouble (formatDepth (depthVal t.depth)) = some d.z := by
  have hsep : ∀ s ∈ [digits t.x.natAbs, digits t.y.natAbs, formatDepth (depthVal t.depth)],
      sep ∉ s := by
    rcases t.formatDepth_cases with hinf | ⟨q, i, f, -, hfixed, -⟩
    · rw [hinf]
      intro s hs
      simp only [List.mem_cons, List.not_mem_nil, or_false] at hs
      rcases hs with rfl | rfl | rfl
      · exact (numeral_digits _).sep_notMem
      · exact (numeral_digits _).sep_notMem
      · decide
    · rw [hfixed]
      exact sep_notMem_fields _ _ i f
  rw [t.received_eq, onRecvLine_payload hsep (digits_ne_nil _) fun b hb =>
    (numeral_digits _).not_space (List.mem_of_mem_head? hb),
    trim_append_right t.label (forall_mem_of_all rfl)] at h
  exact ⟨h.1, h.2.2.2⟩

/-- The thresholds of the view. -/
theorem float_threshold : ieee.float 0.4 = .fin (nearest 24 0.4) :=
  Number.binary_of_abs_lt (by decide +kernel)

theorem threshold_lt : nearest 24 (0.4) < nearest 24 (nearest 53 (401 / 1000)) := by
  decide +kernel

/-- A depth above the threshold is not red. -/
theorem not_isRed_of_lt {x y z : Number} (h : .fin (nearest 24 0.4) < z.round ieee.float) :
    isRed ieee (normalize ieee x y z) = false := by
  refine decide_eq_false ?_
  rw [float_threshold]
  exact Number.not_le_of_lt h

/-- A depth of at least 0.401 m is not red. -/
theorem not_isRed_of_far {q : ℚ} {x y : Number} (h : 401 / 1000 ≤ q) :
    isRed ieee (normalize ieee x y (ieee.double (roundTo 3 q))) = false := by
  have hround : 401 / 1000 ≤ roundTo 3 q := by
    have hscaled : ((401 : ℤ) : ℚ) ≤ q * 10 ^ 3 := by
      push_cast
      linarith
    have hle := roundHalfEven_le_roundHalfEven hscaled
    rw [roundHalfEven_intCast] at hle
    have hcast : (401 : ℚ) ≤ roundHalfEven (q * 10 ^ 3) := by exact_mod_cast hle
    rw [roundTo, le_div_iff₀ (by norm_num)]
    norm_num
    exact hcast
  have hdouble := nearest_le_nearest (p := 53) (by decide) (by norm_num) hround
  have hpos : (0 : ℚ) ≤ nearest 53 (401 / 1000) := by decide +kernel
  refine not_isRed_of_lt ?_
  have hq : 0 ≤ roundTo 3 q := le_trans (by norm_num) hround
  rcases Number.binary_of_nonneg (p := 53) (by decide) 1024 hq with hz | hz
  · exact (congrArg (Number.fin (nearest 24 0.4) < Number.round ieee.float ·) hz).mpr rfl
  · refine (congrArg (Number.fin (nearest 24 0.4) < Number.round ieee.float ·) hz).mpr ?_
    exact Number.fin_lt_binary (by decide) 128 hpos hdouble threshold_lt

/-! ### One report -/

/-- **No report adds a red point.** -/
theorem not_isRed_of_received {t : Target} {d : Detection Number}
    (h : onRecvLine qt.toDouble t.received = some d) :
    isRed ieee (normalize ieee d.x d.y d.z) = false := by
  obtain ⟨-, hz⟩ := onRecvLine_received t h
  rcases t.formatDepth_cases with hinf | ⟨q, i, f, hq, hfixed, hf, hvalue⟩
  · rw [hinf] at hz
    rw [qt.read_inf _ hz]
    exact not_isRed_of_lt rfl
  · have hlen : (padded 3 f).length = 3 := length_padded (by decide) hf
    rw [hfixed] at hz
    have hread := qt.read_fraction _ _ _ (numeral_digits i) (numeral_padded 3 f) hz
    rw [value_digits, value_padded, hlen, hvalue] at hread
    rw [hread]
    exact not_isRed_of_far hq

/-! ### Any number of reports -/

/-- The points that are kept do not alarm, and none did. -/
def Calm (g : Tab3DGraph) : Prop :=
  Quiet g ∧ ∀ p ∈ g.points, isRed ieee p = false

theorem calm_start : Calm .start :=
  ⟨⟨rfl, rfl, Risk.noConfusion⟩, List.forall_mem_nil _⟩

/-- A point that is not red raises no alarm. -/
theorem Calm.addDetection {g : Tab3DGraph} (hg : Calm g) {x y z : Number}
    (h : isRed ieee (normalize ieee x y z) = false) : Calm (g.addDetection ieee x y z) := by
  have hsound : (g.addDetection ieee x y z).redAlerts = 0 := by
    rw [Tab3DGraph.redAlerts_addDetection, hg.1.sound, h]
    rfl
  obtain ⟨g', hpoints, hadd⟩ := g.addDetection_eq x y z (A := ieee)
  have hall : ∀ p ∈ (g'.pushPoint ieee (normalize ieee x y z)).points, isRed ieee p = false := by
    intro p hp
    rcases g'.mem_points_pushPoint hp with hp | rfl
    · exact hg.2 p (hpoints ▸ hp)
    · exact h
  rw [hadd] at hsound ⊢
  refine ⟨⟨hsound, ?_, ?_⟩, hall⟩
  · rw [Tab3DGraph.pushPoint, Tab3DGraph.seriesRed_rebuildAll]
    exact List.filter_eq_nil_iff.mpr fun p hp => by simp [hall p hp]
  · rw [Tab3DGraph.pushPoint, Tab3DGraph.risk_rebuildAll]
    exact updateRiskLabel_ne_high hall

theorem Calm.ingest {g : Tab3DGraph} (hg : Calm g) (t : Target) : Calm (ingest qt g t) := by
  rw [Gui.ingest]
  split
  · exact hg
  · rename_i d hd
    exact hg.addDetection (not_isRed_of_received hd)

/-- A run of reports. -/
theorem Calm.foldl {g : Tab3DGraph} (hg : Calm g) (ts : List Target) :
    Calm (ts.foldl (Gui.ingest qt) g) := by
  induction ts generalizing g with
  | nil => exact hg
  | cons t ts ih =>
    rw [List.foldl_cons]
    exact ih (hg.ingest t)

theorem calm_view (qt : QtDoubles) (ts : List Target) : Calm (view qt ts) := by
  rw [view]
  exact Calm.foldl calm_start ts

end Report

/-- **An unknown depth is not an alarm**: after every report of a sequence of targets that were not
measured or are at least 0.401 m away, the GUI is quiet. -/
theorem quiet_view (qt : QtDoubles) (ts : List Target) (n : ℕ) : Quiet (view qt (ts.take n)) :=
  (calm_view qt (ts.take n)).1

/-- `toDouble` with the rounding of `double` behind it, and an infinity for `inf`. -/
def roundedDoubles : QtDoubles where
  ofRat := ieee.double
  toDouble s := ((decimalNumber s).map ieee.double).or
    (if trim isSpace s = bytes "inf" then some (.inf false) else none)
  trims s := by rw [decimalNumber_trim, trim_eq_self (tight_trim s)]
  integer _ h _ := by rw [decimalNumber_integer h, Option.map_some, Option.some_or]
  fraction _ _ hs hf _ := by rw [decimalNumber_fraction hs hf, Option.map_some, Option.some_or]
  ofRat_eq := rfl
  read_fraction _ _ _ hs hf h := by
    rw [decimalNumber_fraction hs hf, Option.map_some, Option.some_or] at h
    exact (Option.some.inj h).symm
  read_inf _ h := (Option.some.inj h).symm

end Gui

end DroneTurret
