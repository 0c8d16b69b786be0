import DroneTurret.Gui.Alarm

/-!
# The window of the 3D view

The view keeps the last thirty points. Detections add to them, the button clears them, and a query
of the database replaces them. Whatever happens, `rebuildAll` makes the series, the path and the
counts again from the points that are kept, except for the latest point: without points it is left
as it is.

The history is what the window is about: all the points since it was emptied or replaced.

A depth may be infinite or NaN. A point whose depth is NaN is drawn with the far ones, since both
tests fail. From an infinite depth no path leads anywhere: at the end of a segment it is multiplied
by zero, and NaN stays NaN.

## Main definitions

* `Op`, `run` — the operations on the view
* `history` — the points that it stands for
* `Shows` — the view shows a history
* `Regular` — points whose depths are drawn as they should be

## Main results

* `displays_rebuildAll_iff` — the displays are right exactly for regular points
* `shows_iff` — when the view shows its history after every operation
-/

namespace DroneTurret

namespace Gui

open Significand

/-! ### Operations -/

/-- A row of `SELECT x,y,z FROM events`. -/
abbrev EventRow := Number × Number × Number

def normalizeRow (r : EventRow) : Vec3 := normalize ieee r.1 r.2.1 r.2.2

namespace Tab3DGraph

variable (g : Tab3DGraph)

def onClearClicked : Tab3DGraph := Tab3DGraph.rebuildAll ieee { g with points := [] }

/-- The rows are those of the query, the latest first; `none` if there was no connection or the
query failed. -/
def reloadRecentFromDb : Option (List EventRow) → Tab3DGraph
  | none => g
  | some rows =>
    let tmp := (rows.map normalizeRow).reverse
    Tab3DGraph.rebuildAll ieee
      { g with points := if maxPoints < tmp.length then tmp.drop (tmp.length - maxPoints) else tmp }

end Tab3DGraph

/-- What changes the points. -/
inductive Op
  | addDetection (x y z : Number)
  | onClearClicked
  | reloadRecentFromDb (result : Option (List EventRow))

def Op.apply (g : Tab3DGraph) : Op → Tab3DGraph
  | .addDetection x y z => g.addDetection ieee x y z
  | .onClearClicked => g.onClearClicked
  | .reloadRecentFromDb result => g.reloadRecentFromDb result

/-- The view after some operations. -/
def run (ops : List Op) : Tab3DGraph := ops.foldl Op.apply .start

/-- The history after an operation. A query that fails replaces nothing. -/
def Op.record (h : List Vec3) : Op → List Vec3
  | .addDetection x y z => h ++ [normalize ieee x y z]
  | .onClearClicked => []
  | .reloadRecentFromDb none => h
  | .reloadRecentFromDb (some rows) => rows.reverse.map normalizeRow

/-- The points since the last operation that replaced them. -/
def history (ops : List Op) : List Vec3 := ops.foldl Op.record []

/-- The operation leaves no points: the button, or a query that finds nothing. -/
def Op.Empties : Op → Prop
  | .onClearClicked => True
  | .reloadRecentFromDb (some []) => True
  | _ => False

/-- The three series, by the depth. -/
structure Series (g : Tab3DGraph) : Prop where
  red : g.seriesRed = g.points.filter fun p => decide (p.z ≤ ieee.float 0.4)
  yellow : g.seriesYellow =
    g.points.filter fun p => decide (ieee.float 0.4 < p.z ∧ p.z ≤ ieee.float 0.7)
  blue : g.seriesBlue = g.points.filter fun p => decide (ieee.float 0.7 < p.z)

/-- What is displayed for the points. -/
structure Displays (g : Tab3DGraph) : Prop extends Series g where
  count_red : g.countRed = g.seriesRed.length
  count_yellow : g.countYellow = g.seriesYellow.length
  count_blue : g.countBlue = g.seriesBlue.length
  count_total : g.countTotal = g.points.length
  path_length : g.seriesPath.length = 10 * (g.points.length - 1)
  path_last : g.seriesPath ≠ [] → g.seriesPath.getLast? = g.points.getLast?

/-- The points are the last thirty of a history, and the displays show them. -/
structure Shows (h : List Vec3) (g : Tab3DGraph) : Prop extends Displays g where
  points : g.points = h.rtake (min 30 h.length)
  latest : g.seriesLatest = g.points.getLast?.toList

/-- No depth is NaN, and that of the last point but one is finite. -/
structure Regular (points : List Vec3) : Prop where
  number : ∀ p ∈ points, p.z ≠ .nan
  finite : ∀ p ∈ points.dropLast.getLast?, ∃ q, p.z = .fin q

/-! ### Points -/

/-- The coordinates are numbers of type `float`, and finite but for the depth. -/
structure Exact (p : Vec3) : Prop where
  x : ∃ q, p.x = .fin q ∧ ieee.float q = .fin q
  y : ∃ q, p.y = .fin q ∧ ieee.float q = .fin q
  z : p.z.round ieee.float = p.z

theorem float_intCast {n : ℤ} (h : |n| ≤ 2 ^ 24) : ieee.float n = .fin n := by
  have heq := nearest_eq_self (p := 24) (by decide) h 0
  rw [zpow_zero, mul_one] at heq
  have habs : |(n : ℚ)| ≤ 2 ^ 24 := by exact_mod_cast h
  have hlt : |nearest 24 (n : ℚ)| < 2 ^ 128 := by
    rw [heq]
    exact habs.trans_lt (by norm_num)
  exact (Number.binary_of_abs_lt hlt).trans (congrArg Number.fin heq)

theorem float_zero : ieee.float 0 = .fin 0 := by
  exact_mod_cast float_intCast (n := 0) (by decide)

theorem float_one : ieee.float 1 = .fin 1 := by
  exact_mod_cast float_intCast (n := 1) (by decide)

theorem float_neg_one : ieee.float (-1) = .fin (-1) := by
  exact_mod_cast float_intCast (n := -1) (by decide)

/-- A bounded number is a bound or itself. -/
theorem float_qBound {lo hi : ℚ} {v : Number} (hlo : ieee.float lo = .fin lo)
    (hv : v.round ieee.float = v) (hhi : ieee.float hi = .fin hi) :
    ieee.float (qBound lo v hi) = .fin (qBound lo v hi) := by
  have hmax : ∀ q, ieee.float q = .fin q → ieee.float (max lo q) = .fin (max lo q) := by
    intro q hq
    rcases max_choice lo q with h | h <;> rw [h]
    · exact hlo
    · exact hq
  match v with
  | .nan => exact hlo
  | .inf true => exact hlo
  | .inf false => exact hmax hi hhi
  | .fin q =>
    refine hmax _ ?_
    rcases min_choice hi q with h | h <;> rw [h]
    · exact hhi
    · exact hv

theorem round_float_idem (a : Number) :
    (a.round ieee.float).round ieee.float = a.round ieee.float :=
  Number.round_binary_idem (by decide) 128 a

theorem exact_normalize (x y z : Number) : Exact (normalize ieee x y z) where
  x := ⟨_, rfl, float_qBound float_neg_one (round_float_idem _) float_one⟩
  y := ⟨_, rfl, float_qBound float_zero (round_float_idem _) float_one⟩
  z := round_float_idem z

/-- Histories consist of such points. -/
theorem exact_record {h : List Vec3} (hh : ∀ p ∈ h, Exact p) (op : Op) :
    ∀ p ∈ op.record h, Exact p := by
  intro p hp
  match op with
  | .addDetection x y z =>
    rcases List.mem_append.mp hp with hp | hp
    · exact hh p hp
    · rw [List.mem_singleton.mp hp]
      exact exact_normalize x y z
  | .onClearClicked => cases hp
  | .reloadRecentFromDb none => exact hh p hp
  | .reloadRecentFromDb (some rows) =>
    obtain ⟨r, -, rfl⟩ := List.mem_map.mp hp
    exact exact_normalize _ _ _

/-! ### The path -/

theorem rebuildPath_cons (a b : Vec3) (l : List Vec3) :
    rebuildPath ieee (a :: b :: l) = segment ieee a b ++ rebuildPath ieee (b :: l) := rfl

theorem length_segment (a b : Vec3) : (segment ieee a b).length = 10 := by
  rw [segment, List.length_map, List.length_range]
  rfl

theorem length_rebuildPath (l : List Vec3) :
    (rebuildPath ieee l).length = 10 * (l.length - 1) := by
  match l with
  | [] => rfl
  | [_] => rfl
  | a :: b :: l =>
    have ih := length_rebuildPath (b :: l)
    rw [rebuildPath_cons, List.length_append, length_segment, ih]
    simp only [List.length_cons]
    omega

/-- The end of a segment, for one coordinate. -/
theorem between_one {a b : Number} (hb : b.round ieee.float = b) :
    between ieee (.fin 1) a b =
      (((Number.mul (.fin 0) a).round ieee.float).add b).round ieee.float := by
  have hrest : (Number.sub (.fin 1) (.fin 1)).round ieee.float = .fin 0 := by
    change ieee.float (1 + -1) = _
    rw [add_neg_cancel, float_zero]
  rw [between, hrest, Number.one_mul, hb]

theorem between_one_of_fin {a : ℚ} {b : Number} (hb : b.round ieee.float = b) :
    between ieee (.fin 1) (.fin a) b = b := by
  have hzero : (Number.mul (.fin 0) (.fin a)).round ieee.float = .fin 0 := by
    rw [Number.zero_mul_fin]
    exact float_zero
  rw [between_one hb, hzero, Number.zero_add, hb]

theorem between_one_of_ne_fin {a b : Number} (ha : ∀ q, a ≠ .fin q)
    (hb : b.round ieee.float = b) : between ieee (.fin 1) a b = .nan := by
  rw [between_one hb, Number.zero_mul_eq_nan_iff.mpr ha, Number.round, Number.nan_add]
  rfl

/-- The last point of a segment. -/
theorem getLast?_segment (a b : Vec3) : (segment ieee a b).getLast? =
    some ⟨between ieee (.fin 1) a.x b.x, between ieee (.fin 1) a.y b.y,
      between ieee (.fin 1) a.z b.z⟩ := by
  have hrange : List.range lineInterp = List.range 9 ++ [9] := rfl
  have hone : ieee.float ((9 + 1 : ℕ) / (lineInterp : ℚ)) = .fin 1 := by
    rw [show ((9 + 1 : ℕ) / (lineInterp : ℚ)) = 1 by rw [lineInterp]; norm_num, float_one]
  rw [segment, hrange, List.map_append, List.map_singleton, List.getLast?_concat]
  simp only [hone]

/-- **A segment ends at its second point**, unless the depth of its first one is infinite or one of
the two is NaN. -/
theorem getLast?_segment_eq_iff {a b : Vec3} (ha : Exact a) (hb : Exact b) (hnan : b.z ≠ .nan) :
    (segment ieee a b).getLast? = some b ↔ ∃ q, a.z = .fin q := by
  obtain ⟨ax, hax, -⟩ := ha.x
  obtain ⟨ay, hay, -⟩ := ha.y
  obtain ⟨bx, hbx, hfx⟩ := hb.x
  obtain ⟨by', hby, hfy⟩ := hb.y
  have hx : between ieee (.fin 1) a.x b.x = b.x := by
    rw [hax]
    exact between_one_of_fin (by rw [hbx]; exact hfx)
  have hy : between ieee (.fin 1) a.y b.y = b.y := by
    rw [hay]
    exact between_one_of_fin (by rw [hby]; exact hfy)
  rw [getLast?_segment, hx, hy, Option.some.injEq]
  constructor
  · intro heq
    by_contra hne
    have hz := congrArg Vec3.z heq
    rw [between_one_of_ne_fin (not_exists.mp hne) hb.z] at hz
    exact hnan hz.symm
  · rintro ⟨q, hq⟩
    rw [hq, between_one_of_fin hb.z]

/-- The end of a path is that of its last segment. -/
theorem getLast?_rebuildPath (l : List Vec3) (a b : Vec3) :
    (rebuildPath ieee (l ++ [a, b])).getLast? = (segment ieee a b).getLast? := by
  match l with
  | [] =>
    rw [List.nil_append, rebuildPath_cons, show rebuildPath ieee [b] = [] from rfl, List.append_nil]
  | [c] =>
    have htail : rebuildPath ieee [a, b] ≠ [] := by
      rw [← List.length_pos_iff, length_rebuildPath]
      exact Nat.succ_pos 9
    rw [List.singleton_append, rebuildPath_cons, List.getLast?_append_of_ne_nil _ htail]
    exact getLast?_rebuildPath [] a b
  | c :: d :: l =>
    have htail : rebuildPath ieee (d :: l ++ [a, b]) ≠ [] := by
      rw [← List.length_pos_iff, length_rebuildPath, List.length_append, List.length_cons,
        List.length_cons]
      omega
    have ih := getLast?_rebuildPath (d :: l) a b
    rw [List.cons_append] at htail ih
    rw [List.cons_append, List.cons_append, rebuildPath_cons,
      List.getLast?_append_of_ne_nil _ htail, ih]

/-! ### What `rebuildAll` does -/

theorem float_ne_nan (q : ℚ) : ieee.float q ≠ .nan := Number.overflow_ne_nan _ _ q

theorem threshold_lt_trans {z : Number} (h : ieee.float 0.7 < z) : ieee.float 0.4 < z := by
  have hle : nearest 24 0.4 ≤ nearest 24 0.7 :=
    nearest_le_nearest (by decide) (by norm_num) (by norm_num)
  have hfloat : ieee.float 0.7 = .fin (nearest 24 0.7) :=
    Number.binary_of_abs_lt (by decide +kernel)
  rw [hfloat] at h
  rw [float_threshold]
  exact Number.fin_lt_trans hle h

/-- The tests of the loop, one behind the other, as ranges. -/
theorem not_isRed_and_isYellow (p : Vec3) : (!isRed ieee p && isYellow ieee p) =
    decide (ieee.float 0.4 < p.z ∧ p.z ≤ ieee.float 0.7) := by
  rw [Bool.eq_iff_iff]
  simp only [isRed, isYellow, Bool.and_eq_true, Bool.not_eq_true', decide_eq_false_iff_not,
    decide_eq_true_eq]
  refine and_congr_left fun hyellow => Number.not_le_iff ?_ (float_ne_nan _)
  intro hnan
  rw [hnan] at hyellow
  exact Number.not_nan_le _ hyellow

/-- The far points are the rest, if the depth is a number. -/
theorem not_isRed_and_not_isYellow_iff (p : Vec3) : (!isRed ieee p && !isYellow ieee p) =
    decide (ieee.float 0.7 < p.z) ↔ p.z ≠ .nan := by
  rw [Bool.eq_iff_iff]
  simp only [isRed, isYellow, Bool.and_eq_true, Bool.not_eq_true', decide_eq_false_iff_not,
    decide_eq_true_eq]
  constructor
  · rintro hiff hnan
    rw [hnan] at hiff
    exact Number.not_lt_nan _ (hiff.mp ⟨Number.not_nan_le _, Number.not_nan_le _⟩)
  · intro hne
    rw [Number.not_le_iff hne (float_ne_nan _), Number.not_le_iff hne (float_ne_nan _)]
    exact ⟨fun h => h.2, fun h => ⟨threshold_lt_trans h, h⟩⟩

/-- **The series** are right if every depth is a number, and only then. -/
theorem series_rebuildAll_iff (g : Tab3DGraph) :
    Series (g.rebuildAll ieee) ↔ ∀ p ∈ (g.rebuildAll ieee).points, p.z ≠ .nan := by
  have hblue : (g.rebuildAll ieee).seriesBlue = (g.rebuildAll ieee).points.filter
      fun p => !isRed ieee p && !isYellow ieee p := by simp only [Tab3DGraph.rebuildAll]
  constructor
  · intro h p hp
    refine (not_isRed_and_not_isYellow_iff p).mp ?_
    have hfilter := hblue.symm.trans h.blue
    have hmem := congrArg (p ∈ ·) hfilter
    simp only [List.mem_filter, hp, true_and, eq_iff_iff] at hmem
    rwa [Bool.eq_iff_iff]
  · intro h
    refine ⟨g.seriesRed_rebuildAll, ?_, ?_⟩
    · exact List.filter_congr fun p _ => not_isRed_and_isYellow p
    · rw [hblue]
      exact List.filter_congr fun p hp => (not_isRed_and_not_isYellow_iff p).mpr (h p hp)

/-- **The path** ends at the last point if the depth before it is finite, and only then. -/
theorem path_last_iff {points : List Vec3} (hexact : ∀ p ∈ points, Exact p)
    (hnumber : ∀ p ∈ points, p.z ≠ .nan) :
    (rebuildPath ieee points ≠ [] → (rebuildPath ieee points).getLast? = points.getLast?) ↔
      ∀ p ∈ points.dropLast.getLast?, ∃ q, p.z = .fin q := by
  rcases List.eq_nil_or_concat points with rfl | ⟨front, b, rfl⟩
  · exact iff_of_true (fun hne => absurd rfl hne) nofun
  rcases List.eq_nil_or_concat front with rfl | ⟨front, a, rfl⟩
  · exact iff_of_true (fun hne => absurd rfl hne) nofun
  have hsplit : front ++ [a] ++ [b] = front ++ [a, b] := List.append_assoc front [a] [b]
  have hne : rebuildPath ieee (front ++ [a, b]) ≠ [] := by
    rw [← List.length_pos_iff, length_rebuildPath, List.length_append, List.length_cons,
      List.length_singleton]
    omega
  have ha : Exact a := hexact a (by simp)
  have hb : Exact b := hexact b (by simp)
  rw [List.concat_eq_append, List.concat_eq_append, List.dropLast_concat, List.getLast?_concat,
    List.getLast?_concat, hsplit, getLast?_rebuildPath,
    getLast?_segment_eq_iff ha hb (hnumber b (by simp))]
  constructor
  · rintro h p hp
    exact Option.some.inj hp ▸ h hne
  · exact fun h _ => h a rfl

/-- **What is displayed** is right exactly for regular points. -/
theorem displays_rebuildAll_iff (g : Tab3DGraph)
    (hexact : ∀ p ∈ (g.rebuildAll ieee).points, Exact p) :
    Displays (g.rebuildAll ieee) ↔ Regular (g.rebuildAll ieee).points := by
  constructor
  · intro h
    have hnumber := (series_rebuildAll_iff g).mp h.toSeries
    have hlast := h.path_last
    rw [g.seriesPath_rebuildAll] at hlast
    exact ⟨hnumber, (path_last_iff hexact hnumber).mp hlast⟩
  · intro h
    refine ⟨(series_rebuildAll_iff g).mpr h.number, ?_, ?_, ?_, g.countTotal_rebuildAll, ?_, ?_⟩
    · simp only [Tab3DGraph.rebuildAll]
    · simp only [Tab3DGraph.rebuildAll]
    · simp only [Tab3DGraph.rebuildAll]
    · rw [g.seriesPath_rebuildAll, length_rebuildPath]
    · rw [g.seriesPath_rebuildAll]
      exact (path_last_iff hexact h.number).mpr h.finite

/-- The latest point is shown, if there is one. -/
theorem latest_rebuildAll (g : Tab3DGraph) : (g.rebuildAll ieee).seriesLatest =
    if g.points = [] then g.seriesLatest else g.points.getLast?.toList := by
  have hlast : (g.rebuildAll ieee).points.getLast? = g.points.getLast? := by
    rw [g.points_rebuildAll]
    exact getLast?_rtake (by decide) g.points
  rw [g.seriesLatest_rebuildAll, hlast]
  cases h : g.points.getLast? with
  | none =>
    rw [if_pos (List.getLast?_eq_none_iff.mp h)]
    rfl
  | some p =>
    have hne : g.points ≠ [] := fun hnil => by
      rw [hnil] at h
      cases h
    rw [if_neg hne]
    rfl

/-- A view that is made again from the last points of a history shows it, if they are regular, and
there are any or none was shown as the latest. -/
theorem shows_rebuildAll {g : Tab3DGraph} {h : List Vec3} (hh : ∀ p ∈ h, Exact p)
    (hpoints : g.points = h.rtake maxPoints) (hregular : Regular (h.rtake maxPoints))
    (hlatest : h = [] → g.seriesLatest = []) : Shows h (g.rebuildAll ieee) := by
  have hkept : (g.rebuildAll ieee).points = h.rtake maxPoints := by
    rw [g.points_rebuildAll, hpoints]
    exact rtake_rtake maxPoints h
  have hexact : ∀ p ∈ (g.rebuildAll ieee).points, Exact p := fun p hp => by
    rw [hkept] at hp
    exact hh p (List.mem_of_mem_drop hp)
  refine ⟨(displays_rebuildAll_iff g hexact).mpr (hkept ▸ hregular), ?_, ?_⟩
  · rw [rtake_min_length]
    exact hkept
  · rw [latest_rebuildAll, hkept, ← hpoints]
    split
    · rename_i hnil
      rw [hpoints, rtake_eq_nil_iff (by decide)] at hnil
      rw [hlatest hnil, hpoints, hnil]
      rfl
    · rfl

/-! ### One operation -/

variable {g : Tab3DGraph} {h : List Vec3}

theorem Shows.points_eq_nil_iff (hg : Shows h g) : g.points = [] ↔ h = [] := by
  rw [hg.points, rtake_min_length, rtake_eq_nil_iff (by decide)]

/-- An operation does nothing, or the view is made again from the last points of the history. -/
theorem Op.apply_eq (hg : Shows h g) (op : Op) :
    (op.apply g = g ∧ op.record h = h ∧ ¬op.Empties) ∨
      ∃ g' : Tab3DGraph, op.apply g = g'.rebuildAll ieee ∧
        g'.points = (op.record h).rtake maxPoints ∧ (op.record h = [] ↔ op.Empties) ∧
        (op.Empties → g'.seriesLatest = g.seriesLatest) := by
  match op with
  | .addDetection x y z =>
    obtain ⟨g', hpoints, hadd⟩ := g.addDetection_eq x y z (A := ieee)
    refine .inr ⟨_, hadd, ?_, ⟨fun hnil => ?_, False.elim⟩, False.elim⟩
    · have hkept := hg.points
      rw [rtake_min_length] at hkept
      change (g'.points ++ [normalize ieee x y z]).rtake maxPoints = _
      rw [hpoints, hkept]
      exact rtake_append_rtake maxPoints h _
    · exact List.append_ne_nil_of_right_ne_nil _ (List.cons_ne_nil _ _) hnil
  | .onClearClicked => exact .inr ⟨_, rfl, rfl, ⟨fun _ => trivial, fun _ => rfl⟩, fun _ => rfl⟩
  | .reloadRecentFromDb none => exact .inl ⟨rfl, rfl, id⟩
  | .reloadRecentFromDb (some rows) =>
    refine .inr ⟨_, rfl, ?_, ?_, fun _ => rfl⟩
    · change (if _ then _ else _) = _
      rw [ite_eq_rtake, ← List.map_reverse]
      rfl
    · cases rows with
      | nil => exact ⟨fun _ => trivial, fun _ => rfl⟩
      | cons r rows => simp [Op.record, Op.Empties]

/-- **An operation is shown**, unless it empties a window with points or leaves some that are not
regular. -/
theorem Shows.apply (hh : ∀ p ∈ h, Exact p) (hg : Shows h g) {op : Op}
    (hop : op.Empties → h = []) (hregular : Regular ((op.record h).rtake maxPoints)) :
    Shows (op.record h) (op.apply g) := by
  rcases op.apply_eq hg with ⟨happly, hrecord, -⟩ | ⟨g', happly, hpoints, hempty, hlatest⟩
  · rw [happly, hrecord]
    exact hg
  · rw [happly]
    refine shows_rebuildAll (exact_record hh op) hpoints hregular fun hnil => ?_
    have hop' := hempty.mp hnil
    rw [hlatest hop', hg.latest, hg.points_eq_nil_iff.mpr (hop hop')]
    rfl

/-- A window with points that is emptied still shows the latest one. -/
theorem Shows.eq_nil (hg : Shows h g) {op : Op} (hop : op.Empties)
    (hg' : Shows (op.record h) (op.apply g)) : h = [] := by
  rcases op.apply_eq hg with ⟨-, -, hne⟩ | ⟨g', happly, hpoints, hempty, hlatest⟩
  · exact absurd hop hne
  · have hnil := hempty.mpr hop
    have hshown := hg'.latest
    rw [hg'.points_eq_nil_iff.mpr hnil, happly, latest_rebuildAll, hpoints, hnil,
      if_pos (List.rtake_nil _), hlatest hop, hg.latest] at hshown
    rw [← hg.points_eq_nil_iff, ← List.getLast?_eq_none_iff]
    exact Option.toList_eq_nil_iff.mp hshown

/-! ### A run -/

theorem run_concat (ops : List Op) (op : Op) : run (ops ++ [op]) = op.apply (run ops) := by
  rw [run, List.foldl_append]
  rfl

theorem history_concat (ops : List Op) (op : Op) :
    history (ops ++ [op]) = op.record (history ops) := by
  rw [history, List.foldl_append]
  rfl

theorem exact_history (ops : List Op) : ∀ p ∈ history ops, Exact p := by
  induction ops using List.reverseRecOn with
  | nil => exact List.forall_mem_nil _
  | append_singleton ops op ih =>
    rw [history_concat]
    exact exact_record ih op

theorem shows_start : Shows [] .start :=
  ⟨⟨⟨rfl, rfl, rfl⟩, rfl, rfl, rfl, rfl, rfl, fun hne => absurd rfl hne⟩, rfl, rfl⟩

theorem regular_nil : Regular [] := ⟨List.forall_mem_nil _, nofun⟩

/-- The view was never touched, or it was made again from its points. -/
theorem run_eq_rebuildAll (ops : List Op) :
    run ops = .start ∨ ∃ g : Tab3DGraph, run ops = g.rebuildAll ieee := by
  induction ops using List.reverseRecOn with
  | nil => exact .inl rfl
  | append_singleton ops op ih =>
    rw [run_concat]
    match op with
    | .addDetection x y z =>
      obtain ⟨g, -, hadd⟩ := (run ops).addDetection_eq x y z (A := ieee)
      exact .inr ⟨_, hadd⟩
    | .onClearClicked => exact .inr ⟨_, rfl⟩
    | .reloadRecentFromDb none => exact ih
    | .reloadRecentFromDb (some rows) => exact .inr ⟨_, rfl⟩

/-- No operation empties a window with points. -/
def Kept (ops : List Op) : Prop :=
  ∀ before op after, ops = before ++ op :: after → op.Empties → history before = []

/-- The points that are kept are always regular. -/
def Drawable (ops : List Op) : Prop :=
  ∀ before after, ops = before ++ after → Regular ((history before).rtake maxPoints)

/-- A run that never empties a window with points is shown, if its points are regular. -/
theorem shows_run {ops : List Op} (hops : Kept ops) (hregular : Drawable ops) :
    Shows (history ops) (run ops) := by
  induction ops using List.reverseRecOn with
  | nil => exact shows_start
  | append_singleton ops op ih =>
    have hkept : Kept ops := fun before op' after heq =>
      hops before op' (after ++ [op]) (by rw [heq, List.append_assoc, List.cons_append])
    have hdrawable : Drawable ops := fun before after heq =>
      hregular before (after ++ [op]) (by rw [heq, List.append_assoc])
    have hlast := hregular (ops ++ [op]) [] (List.append_nil _).symm
    rw [history_concat] at hlast
    rw [history_concat, run_concat]
    exact (ih hkept hdrawable).apply (exact_history ops) (hops ops op [] rfl) hlast

/-- A history that is shown has regular points. -/
theorem regular_of_shows {ops : List Op} (h : Shows (history ops) (run ops)) :
    Regular ((history ops).rtake maxPoints) := by
  have hpoints := h.points
  rw [rtake_min_length] at hpoints
  change (run ops).points = (history ops).rtake maxPoints at hpoints
  rw [← hpoints]
  rcases run_eq_rebuildAll ops with hrun | ⟨g, hrun⟩
  · rw [hrun]
    exact regular_nil
  · have hexact : ∀ p ∈ (run ops).points, Exact p := fun p hp => by
      rw [hpoints] at hp
      exact exact_history ops p (List.mem_of_mem_drop hp)
    have hdisplays := h.toDisplays
    rw [hrun] at hexact hdisplays ⊢
    exact (displays_rebuildAll_iff g hexact).mp hdisplays

/-- **The view shows the history after every operation of a run** exactly if no operation empties a
window with points and the points that are kept are always regular. -/
theorem shows_iff (ops : List Op) :
    (∀ n, Shows (history (ops.take n)) (run (ops.take n))) ↔ Kept ops ∧ Drawable ops := by
  constructor
  · intro hshows
    refine ⟨?_, ?_⟩
    · rintro before op after rfl hop
      have htake : (before ++ op :: after).take before.length = before := List.take_left
      have htake' : (before ++ op :: after).take (before.length + 1) = before ++ [op] := by
        rw [List.take_append, List.take_of_length_le (Nat.le_succ _)]
        simp
      have hbefore := hshows before.length
      have hafter := hshows (before.length + 1)
      rw [htake] at hbefore
      rw [htake', history_concat, run_concat] at hafter
      exact hbefore.eq_nil hop hafter
    · rintro before after rfl
      have hbefore := hshows before.length
      rw [List.take_left] at hbefore
      exact regular_of_shows hbefore
  · rintro ⟨hops, hregular⟩ n
    refine shows_run (fun before op after heq => hops before op (after ++ ops.drop n) ?_)
      fun before after heq => hregular before (after ++ ops.drop n) ?_
    · rw [← List.cons_append, ← List.append_assoc, ← heq, List.take_append_drop]
    · rw [← List.append_assoc, ← heq, List.take_append_drop]

/-- A detection, and the button: the point stays where it was. -/
theorem not_shows_run :
    ¬∀ (ops : List Op) (n : ℕ), Shows (history (ops.take n)) (run (ops.take n)) := by
  intro h
  have hlatest := (h [.addDetection (.fin 0) (.fin 0) (.fin 1), .onClearClicked] 2).latest
  exact absurd hlatest (by decide +kernel)

end Gui

end DroneTurret
