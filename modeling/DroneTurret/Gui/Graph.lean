import DroneTurret.Lib.Number
import DroneTurret.Lib.Rtake
import DroneTurret.Vision.SendLoop
import Mathlib.Tactic.Ring

/-!
# The 3D view of the GUI

`addDetection` scales a target into the box that is drawn and appends it to the points that are
kept. All that is shown follows from these points: three series by depth, a path through them, the
counts, the level and the latest point. The sound is the one thing that `addDetection` does itself.

Every operation on numbers is followed by a rounding, `double` or `float`. `exactly` rounds nothing.
`toDouble` accepts infinities and NaN, and `normalize` clamps the coordinates of the frame but not
the depth.

## Main definitions

* `Tab3DGraph` — the points, and what is shown for them
* `addDetection` — the slot for a detection
* `Faithful` — when two targets are plotted as they lie in the frame

## Main results

* `plotted_faithfully` — which targets are
-/

namespace DroneTurret

namespace Gui

/-- The rounding after an operation on numbers of either type. -/
structure Arithmetic where
  double : ℚ → Number
  float : ℚ → Number

/-- Arithmetic on rational numbers. -/
def exactly : Arithmetic := ⟨.fin, .fin⟩

/-- `QVector3D`. -/
structure Vec3 where
  x : Number
  y : Number
  z : Number
  deriving DecidableEq

/-- The levels that `m_lblRisk` shows. -/
inductive Risk
  | none
  | safe
  | approach
  | high
  deriving DecidableEq

/-- `m_maxPoints`. -/
def maxPoints : ℕ := 30

/-- `m_lineInterp`. -/
def lineInterp : ℕ := 10

/-- `m_inputWidth`. -/
def inputWidth : ℚ := 1280

/-- `m_inputHeight`. -/
def inputHeight : ℚ := 640

/-- The view. The sound is represented by the number of times it was started. -/
structure Tab3DGraph where
  points : List Vec3
  seriesRed : List Vec3
  seriesYellow : List Vec3
  seriesBlue : List Vec3
  seriesPath : List Vec3
  seriesLatest : List Vec3
  countRed : ℕ
  countYellow : ℕ
  countBlue : ℕ
  countTotal : ℕ
  risk : Risk
  redAlerts : ℕ

/-- The view after its construction. -/
def Tab3DGraph.start : Tab3DGraph := ⟨[], [], [], [], [], [], 0, 0, 0, 0, .none, 0⟩

/-- Qt's `qBound`: `qMax(lo, qMin(hi, v))`, where a comparison with NaN is false. -/
def qBound (lo : ℚ) (v : Number) (hi : ℚ) : ℚ :=
  match v with
  | .nan => lo
  | .inf true => lo
  | .inf false => max lo hi
  | .fin q => max lo (min hi q)

section View

variable (A : Arithmetic)

def normalize (x y z : Number) : Vec3 :=
  let X := qBound 0 x inputWidth
  let scaled := (Number.mul (A.double (X / inputWidth)) (.fin 2)).round A.double
  let nx := ((scaled.sub (.fin 1)).round A.double).round A.float
  let Y := qBound 0 y inputHeight
  let ny := (A.double (Y / inputHeight)).round A.float
  ⟨.fin (qBound (-1) nx 1), .fin (qBound 0 ny 1), z.round A.float⟩

/-- The test for the red series, for the sound and for the level. -/
def isRed (p : Vec3) : Bool := p.z ≤ A.float 0.4

/-- The test for the yellow series, behind that for the red one. -/
def isYellow (p : Vec3) : Bool := p.z ≤ A.float 0.7

/-- `(1.0f - t) * a + t * b`, for one coordinate. -/
def between (t a b : Number) : Number :=
  let rest := (Number.sub (.fin 1) t).round A.float
  (((rest.mul a).round A.float).add ((t.mul b).round A.float)).round A.float

/-- The points drawn from `a` to `b`. -/
def segment (a b : Vec3) : List Vec3 :=
  (List.range lineInterp).map fun k =>
    let t := A.float ((k + 1 : ℕ) / (lineInterp : ℚ))
    ⟨between A t a.x b.x, between A t a.y b.y, between A t a.z b.z⟩

def rebuildPath (points : List Vec3) : List Vec3 :=
  (points.zip points.tail).flatMap fun ab => segment A ab.1 ab.2

def updateRiskLabel (points : List Vec3) : Risk :=
  if points = [] then .none
  else
    let red := points.countP (isRed A)
    -- the last five, each compared with the one before it
    let recent := points.drop (points.length - min 5 points.length)
    let decreasing := (recent.zip recent.tail).countP fun ab =>
      ab.2.z < (ab.1.z.sub (A.float 0.02)).round A.float
    if 5 ≤ red then .high else if 3 ≤ decreasing then .approach else .safe

def Tab3DGraph.rebuildAll (g : Tab3DGraph) : Tab3DGraph :=
  let points := if maxPoints < g.points.length then g.points.drop (g.points.length - maxPoints)
    else g.points
  let red := points.filter (isRed A)
  let yellow := points.filter fun p => !isRed A p && isYellow A p
  let blue := points.filter fun p => !isRed A p && !isYellow A p
  { g with
    points := points
    seriesRed := red
    seriesYellow := yellow
    seriesBlue := blue
    seriesPath := rebuildPath A points
    seriesLatest := match points.getLast? with
      | none => g.seriesLatest
      | some p => [p]
    countRed := red.length
    countYellow := yellow.length
    countBlue := blue.length
    countTotal := red.length + yellow.length + blue.length
    risk := updateRiskLabel A points }

def Tab3DGraph.pushPoint (g : Tab3DGraph) (p : Vec3) : Tab3DGraph :=
  let points := g.points ++ [p]
  Tab3DGraph.rebuildAll A { g with points := points.drop (points.length - maxPoints) }

def Tab3DGraph.addDetection (g : Tab3DGraph) (x y z : Number) : Tab3DGraph :=
  let p := normalize A x y z
  Tab3DGraph.pushPoint A
    (if isRed A p then { g with redAlerts := g.redAlerts + 1 } else g) p

end View

/-! ### The view follows from the points -/

section View

variable {A : Arithmetic} (g : Tab3DGraph)

/-- No more points are kept than `maxPoints`, and they are the last ones. -/
theorem Tab3DGraph.points_rebuildAll :
    (g.rebuildAll A).points = g.points.drop (g.points.length - maxPoints) := by
  rw [rebuildAll]
  exact ite_eq_rtake maxPoints g.points

theorem Tab3DGraph.points_pushPoint (p : Vec3) :
    (g.pushPoint A p).points = (g.points ++ [p]).drop ((g.points ++ [p]).length - maxPoints) := by
  rw [pushPoint, points_rebuildAll]
  exact rtake_rtake maxPoints (g.points ++ [p])

theorem Tab3DGraph.length_points_pushPoint (p : Vec3) :
    (g.pushPoint A p).points.length ≤ maxPoints := by
  rw [points_pushPoint, List.length_drop]
  omega

theorem Tab3DGraph.mem_points_pushPoint {p q : Vec3} (h : q ∈ (g.pushPoint A p).points) :
    q ∈ g.points ∨ q = p := by
  rw [points_pushPoint] at h
  simpa using List.mem_of_mem_drop h

theorem Tab3DGraph.seriesRed_rebuildAll :
    (g.rebuildAll A).seriesRed = (g.rebuildAll A).points.filter (isRed A) := by
  simp only [rebuildAll]

theorem Tab3DGraph.seriesPath_rebuildAll :
    (g.rebuildAll A).seriesPath = rebuildPath A (g.rebuildAll A).points := by
  simp only [rebuildAll]

/-- Without points, the latest point is not touched. -/
theorem Tab3DGraph.seriesLatest_rebuildAll : (g.rebuildAll A).seriesLatest =
    (g.rebuildAll A).points.getLast?.elim g.seriesLatest fun p => [p] := by
  simp only [rebuildAll]
  split <;> rename_i h <;> rw [h] <;> rfl

theorem Tab3DGraph.risk_rebuildAll :
    (g.rebuildAll A).risk = updateRiskLabel A (g.rebuildAll A).points := by
  simp only [rebuildAll]

theorem Tab3DGraph.redAlerts_pushPoint (p : Vec3) :
    (g.pushPoint A p).redAlerts = g.redAlerts := by
  simp only [pushPoint, rebuildAll]

/-- Every point is in exactly one of the three series. -/
theorem Tab3DGraph.countTotal_rebuildAll :
    (g.rebuildAll A).countTotal = (g.rebuildAll A).points.length := by
  have hsplit : ∀ l : List Vec3, (l.filter (isRed A)).length +
      (l.filter fun p => !isRed A p && isYellow A p).length +
      (l.filter fun p => !isRed A p && !isYellow A p).length = l.length := by
    intro l
    induction l with
    | nil => rfl
    | cons p l ih =>
      cases hred : isRed A p <;> cases hyellow : isYellow A p <;>
        simp only [List.filter_cons, hred, hyellow, Bool.not_false, Bool.not_true, Bool.and_true,
          Bool.and_false, if_true, Bool.false_eq_true, if_false, List.length_cons] <;> omega
  exact hsplit _

theorem Tab3DGraph.redAlerts_addDetection (x y z : Number) :
    (g.addDetection A x y z).redAlerts =
      g.redAlerts + if isRed A (normalize A x y z) then 1 else 0 := by
  rw [addDetection, redAlerts_pushPoint]
  split <;> rfl

/-- But for the sound, a detection is a point. -/
theorem Tab3DGraph.addDetection_eq (x y z : Number) :
    ∃ g' : Tab3DGraph, g'.points = g.points ∧
      g.addDetection A x y z = g'.pushPoint A (normalize A x y z) := by
  refine ⟨_, ?_, rfl⟩
  split <;> rfl

/-- The level is high only if there are red points. -/
theorem updateRiskLabel_ne_high {points : List Vec3} (h : ∀ p ∈ points, isRed A p = false) :
    updateRiskLabel A points ≠ .high := by
  have hred : points.countP (isRed A) = 0 :=
    List.countP_eq_zero.mpr fun p hp => by simp [h p hp]
  simp only [updateRiskLabel, hred]
  split_ifs
  · exact Risk.noConfusion
  · omega
  · exact Risk.noConfusion
  · exact Risk.noConfusion

end View

/-! ### Where targets are drawn -/

theorem qBound_of_mem {lo v hi : ℚ} (hlo : lo ≤ v) (hhi : v ≤ hi) : qBound lo (.fin v) hi = v := by
  rw [qBound, min_eq_right hhi, max_eq_right hlo]

theorem qBound_mem {lo hi : ℚ} (h : lo ≤ hi) (v : Number) :
    lo ≤ qBound lo v hi ∧ qBound lo v hi ≤ hi := by
  match v with
  | .nan => exact ⟨le_refl lo, h⟩
  | .inf true => exact ⟨le_refl lo, h⟩
  | .inf false => exact ⟨le_max_left _ _, max_le h (le_refl hi)⟩
  | .fin q => exact ⟨le_max_left _ _, max_le h (min_le_left _ _)⟩

/-- Results lie in the box, whatever the arithmetic. -/
theorem normalize_mem (A : Arithmetic) (x y z : Number) :
    (.fin (-1) ≤ (normalize A x y z).x ∧ (normalize A x y z).x ≤ .fin 1) ∧
      .fin 0 ≤ (normalize A x y z).y ∧ (normalize A x y z).y ≤ .fin 1 := by
  have hx := qBound_mem (show (-1 : ℚ) ≤ 1 by norm_num)
  have hy := qBound_mem (show (0 : ℚ) ≤ 1 by norm_num)
  exact ⟨⟨Number.fin_le_fin.mpr (hx _).1, Number.fin_le_fin.mpr (hx _).2⟩,
    Number.fin_le_fin.mpr (hy _).1, Number.fin_le_fin.mpr (hy _).2⟩

/-- A target position that `send_loop` can send. -/
structure Position where
  x : ℤ
  y : ℤ
  x_mem : 0 ≤ x ∧ x < Vision.width
  y_mem : 0 ≤ y ∧ y < Vision.height

namespace Position

variable (p q : Position)

/-- The place of the target in the view, without rounding. -/
def plot (z : ℚ) : Vec3 := normalize exactly (.fin p.x) (.fin p.y) z

theorem plot_x (z : ℚ) : (p.plot z).x = .fin (p.x / 1280 * 2 - 1) := by
  have hlo : (0 : ℚ) ≤ p.x := by exact_mod_cast p.x_mem.1
  have hhi : (p.x : ℚ) < 1280 := by exact_mod_cast p.x_mem.2
  change Number.fin (qBound (-1) (.fin (qBound 0 (.fin p.x) 1280 / 1280 * 2 + -1)) 1) = _
  rw [qBound_of_mem hlo hhi.le, ← sub_eq_add_neg, qBound_of_mem (by linarith) (by linarith)]

theorem plot_y (z : ℚ) : (p.plot z).y = .fin (min 640 (p.y : ℚ) / 640) := by
  have hlo : (0 : ℚ) ≤ min 640 (p.y : ℚ) := le_min (by norm_num) (by exact_mod_cast p.y_mem.1)
  have hhi : min 640 (p.y : ℚ) ≤ 640 := min_le_left _ _
  change Number.fin (qBound 0 (.fin (max 0 (min 640 (p.y : ℚ)) / 640)) 1) = _
  rw [max_eq_right hlo, qBound_of_mem (by linarith) (by linarith)]

theorem plot_x_lt_iff (z : ℚ) : (p.plot z).x < (q.plot z).x ↔ p.x < q.x := by
  rw [plot_x, plot_x, Number.fin_lt_fin]
  constructor
  · intro h
    exact_mod_cast (by linarith : (p.x : ℚ) < q.x)
  · intro h
    have hlt : (p.x : ℚ) < q.x := by exact_mod_cast h
    linarith

/-- Below the last row that the view knows, all rows are the same. -/
theorem plot_y_lt_iff (z : ℚ) : (p.plot z).y < (q.plot z).y ↔ p.y < q.y ∧ p.y < 640 := by
  have hcast : min 640 (p.y : ℚ) < min 640 (q.y : ℚ) ↔ min 640 p.y < min 640 q.y := by
    rw [← Int.cast_lt (R := ℚ)]
    push_cast
    rfl
  rw [plot_y, plot_y, Number.fin_lt_fin, div_lt_div_iff_of_pos_right (by norm_num), hcast]
  omega

theorem plot_eq_iff (z : ℚ) :
    p.plot z = q.plot z ↔ p.x = q.x ∧ (p.y = q.y ∨ 640 ≤ p.y ∧ 640 ≤ q.y) := by
  constructor
  · intro h
    have hx := (plot_x_lt_iff p q z).not
    have hx' := (plot_x_lt_iff q p z).not
    have hy := (plot_y_lt_iff p q z).not
    have hy' := (plot_y_lt_iff q p z).not
    rw [h] at hx hx' hy hy'
    have := hx.mp (Number.lt_irrefl _)
    have := hx'.mp (Number.lt_irrefl _)
    have := hy.mp (Number.lt_irrefl _)
    have := hy'.mp (Number.lt_irrefl _)
    omega
  · rintro ⟨h, hrows⟩
    have hmin : min 640 (p.y : ℚ) = min 640 (q.y : ℚ) := by
      have hint : min 640 p.y = min 640 q.y := by omega
      exact_mod_cast hint
    have hx : (p.plot z).x = (q.plot z).x := by rw [plot_x, plot_x, h]
    have hy : (p.plot z).y = (q.plot z).y := by rw [plot_y, plot_y, hmin]
    exact Vec3.mk.injEq .. ▸ ⟨hx, hy, rfl⟩

end Position

/-- Two targets are told apart, lie to each other in the view as in the frame, and are drawn in
the box. -/
structure Faithful (p q : Position) (z : ℚ) : Prop where
  distinct : p ≠ q → p.plot z ≠ q.plot z
  increasing_x : (p.x < q.x → (p.plot z).x < (q.plot z).x) ∧
    (q.x < p.x → (q.plot z).x < (p.plot z).x)
  increasing_y : (p.y < q.y → (p.plot z).y < (q.plot z).y) ∧
    (q.y < p.y → (q.plot z).y < (p.plot z).y)
  box : ∀ r ∈ [p, q], (.fin (-1) ≤ (r.plot z).x ∧ (r.plot z).x ≤ .fin 1) ∧
    .fin 0 ≤ (r.plot z).y ∧ (r.plot z).y ≤ .fin 1

/-- **Targets are plotted as they lie**, except that those below the 640 rows the view expects are
all drawn on its lower edge. -/
theorem plotted_faithfully (p q : Position) (z : ℚ) :
    Faithful p q z ↔ p.y = q.y ∨ p.y < 640 ∨ q.y < 640 := by
  constructor
  · intro h
    have hlt := (p.plot_y_lt_iff q z).mp
    have hgt := (q.plot_y_lt_iff p z).mp
    rcases lt_trichotomy p.y q.y with hy | hy | hy
    · exact .inr (.inl (hlt (h.increasing_y.1 hy)).2)
    · exact .inl hy
    · exact .inr (.inr (hgt (h.increasing_y.2 hy)).2)
  · intro h
    refine ⟨?_, ⟨(p.plot_x_lt_iff q z).mpr, (q.plot_x_lt_iff p z).mpr⟩,
      ⟨fun hy => (p.plot_y_lt_iff q z).mpr ⟨hy, by omega⟩,
        fun hy => (q.plot_y_lt_iff p z).mpr ⟨hy, by omega⟩⟩, fun r _ => normalize_mem exactly _ _ _⟩
    intro hne heq
    obtain ⟨hx, hy⟩ := (p.plot_eq_iff q z).mp heq
    refine hne ?_
    rw [Position.mk.injEq]
    exact ⟨hx, by omega⟩

/-- Two targets in the lowest ninth of the frame, half a metre away. -/
theorem not_plotted_faithfully :
    ¬∀ p q : Position, ∀ z, p ≠ q → Faithful p q z := by
  intro h
  have hfaithful := h ⟨0, 650, by decide, by decide⟩ ⟨0, 700, by decide, by decide⟩ (1 / 2)
    (fun heq => absurd (congrArg Position.y heq) (by decide))
  have hlt := hfaithful.increasing_y.1 (by decide)
  exact absurd ((Position.plot_y_lt_iff _ _ _).mp hlt).2 (by decide)

end Gui

end DroneTurret
