import DroneTurret.Lib.Argmin
import DroneTurret.Lib.Decimal
import DroneTurret.Vision.Snapshots
import Mathlib.Algebra.Order.Monoid.WithTop
import Mathlib.Data.Prod.Lex

/-!
# The target of an iteration

Both vision programs drop the boxes below the confidence threshold, clamp the corners of the others
to the frame, drop what is left without width or height, and select one of the rest. `app_cuda`
takes the nearest box with a valid depth, or the most confident one if no depth is valid, and
`app_hailo` the largest one.

In `app_cuda` a box without a valid depth is given the depth `inf`. The selected depth is tested
again before it is stored, and `inf` is greater than zero, so it is stored as it is: the `0.0` of
the other branch is never stored.

## Main definitions

* `Box` — a box of positive width and height inside a frame
* `Cuda.candidates`, `Cuda.best`, `Cuda.publish` — an iteration of `app_cuda`
* `Hailo.candidates`, `Hailo.best` — the selection of `app_hailo`

## Main results

* `Cuda.best_eq_argmin` — the two searches of `app_cuda` are one search by depth, then confidence,
  then area
* `Cuda.cuda_selects_iff`, `Hailo.hailo_selects_iff` — which of the boxes that the model returns is
  selected
* `Cuda.publish_eq` — what is stored for the selection
-/

namespace DroneTurret

namespace Vision

open CString Decimal

/-- `CONF_TH`. -/
def confTh : ℚ := 1 / 2

/-! ### Boxes inside the frame -/

/-- A coordinate clamped to a side of `n` pixels; for a side without pixels it is 0. -/
structure Clamped (n : ℤ) where
  val : ℤ
  nonneg : 0 ≤ val
  le : 0 < val → val ≤ n - 1

/-- `int(max(0, min(n - 1, x)))` of a float. -/
def clampFloat (n : ℤ) (x : ℚ) : Clamped n where
  val := pyInt (max 0 (min ((n : ℚ) - 1) x))
  nonneg := by
    rw [pyInt, if_pos (le_max_left _ _)]
    exact Int.floor_nonneg.mpr (le_max_left _ _)
  le h := by
    rw [pyInt, if_pos (le_max_left _ _)] at h ⊢
    have hone : (1 : ℚ) ≤ max 0 (min ((n : ℚ) - 1) x) := by exact_mod_cast Int.le_floor.mp h
    have hmin : max 0 (min ((n : ℚ) - 1) x) ≤ n - 1 := by
      rcases le_max_iff.mp hone with h0 | h1
      · norm_num at h0
      · rw [max_eq_right (zero_le_one.trans h1)]
        exact min_le_left _ _
    have hfloor := (Int.floor_le (max 0 (min ((n : ℚ) - 1) x))).trans hmin
    exact_mod_cast hfloor

/-- `max(0, min(n - 1, x))` of an integer. -/
def clampInt (n x : ℤ) : Clamped n where
  val := max 0 (min (n - 1) x)
  nonneg := le_max_left _ _
  le h := by omega

/-- A box of positive width and height inside a frame of `w` by `h` pixels. -/
structure Box (w h : ℤ) where
  x1 : ℤ
  y1 : ℤ
  x2 : ℤ
  y2 : ℤ
  left : 0 ≤ x1
  top : 0 ≤ y1
  right : x2 ≤ w - 1
  bottom : y2 ≤ h - 1
  wide : x1 < x2
  high : y1 < y2
  deriving DecidableEq

variable {w h : ℤ}

/-- The box with the given corners, unless `x2 <= x1 or y2 <= y1`. -/
def Box.of? (x1 : Clamped w) (y1 : Clamped h) (x2 : Clamped w) (y2 : Clamped h) :
    Option (Box w h) :=
  if hempty : x2.val ≤ x1.val ∨ y2.val ≤ y1.val then none
  else
    have hne := not_or.mp hempty
    some {
      x1 := x1.val, y1 := y1.val, x2 := x2.val, y2 := y2.val
      left := x1.nonneg
      top := y1.nonneg
      right := x2.le (lt_of_le_of_lt x1.nonneg (not_le.mp hne.1))
      bottom := y2.le (lt_of_le_of_lt y1.nonneg (not_le.mp hne.2))
      wide := not_le.mp hne.1
      high := not_le.mp hne.2 }

namespace Box

variable (b : Box w h)

def area : ℤ := (b.x2 - b.x1) * (b.y2 - b.y1)

/-- `bx`, the centre. -/
def cx : ℤ := (b.x1 + b.x2) / 2

/-- `by`. -/
def cy : ℤ := (b.y1 + b.y2) / 2

theorem cx_mem : 0 ≤ b.cx ∧ b.cx < w := by
  have hleft := b.left
  have hright := b.right
  have hwide := b.wide
  rw [cx]
  omega

theorem cy_mem : 0 ≤ b.cy ∧ b.cy < h := by
  have htop := b.top
  have hbottom := b.bottom
  have hhigh := b.high
  rw [cy]
  omega

/-- The letter of the sector that the centre is in. -/
def letter : Byte := keyAt ⌊(3 * b.cy / h : ℚ)⌋.toNat ⌊(3 * b.cx / w : ℚ)⌋.toNat

/-- `value_from_xy(bx, by, w, h) or "?"` is that letter. -/
theorem latestResult_eq_letter : latestResult b.x1 b.y1 b.x2 b.y2 w h = [b.letter] :=
  latestResult_eq b.left b.wide b.right b.top b.high b.bottom

theorem letter_mem : b.letter ∈ bytes "QWEASDZXC" := by
  have hrow := (pyInt_third b.cy_mem.1 b.cy_mem.2).2
  have hcol := (pyInt_third b.cx_mem.1 b.cx_mem.2).2
  exact keyAt_of_lt (by omega) (by omega)

end Box

theorem Box.of?_eq_none_iff {x1 : Clamped w} {y1 : Clamped h} {x2 : Clamped w} {y2 : Clamped h} :
    Box.of? x1 y1 x2 y2 = none ↔ x2.val ≤ x1.val ∨ y2.val ≤ y1.val := by
  rw [Box.of?]
  split <;> simp [*]

/-! ### The nearest box -/

namespace Cuda

/-- A box that the model returns. -/
structure Detected where
  x1 : ℚ
  y1 : ℚ
  x2 : ℚ
  y2 : ℚ
  conf : ℚ
  clsId : ℤ

/-- `model.names`, a dictionary or a list. -/
inductive Names
  | dict (get : ℤ → Option (List Byte))
  | list (names : List (List Byte))

/-- The name of a class, or its number. -/
def Names.lbl (clsId : ℤ) : Names → List Byte
  | .dict get => (get clsId).getD (paddedInt 0 clsId)
  | .list names =>
    if 0 ≤ clsId ∧ clsId < names.length then names.getD clsId.toNat [] else paddedInt 0 clsId

/-- What the camera gives for an iteration: the boxes of the model and, if there is a depth frame,
the distance at each of its pixels. -/
structure Frame where
  result : List Detected
  depthFrame : Option (ℤ → ℤ → ℚ)

/-- A tuple of `cand`. The depth is infinite where the reading is not valid. -/
structure Candidate (w h : ℤ) where
  hasZ : Bool
  z : WithTop ℚ
  nconf : ℚ
  narea : ℤ
  lbl : List Byte
  box : Box w h
  pos : 0 < z
  hasZ_iff : hasZ = true ↔ z ≠ ⊤
  deriving DecidableEq

/-- The candidate for a box, if it is confident and not empty. -/
def candidate (w h : ℤ) (names : Names) (depthFrame : Option (ℤ → ℤ → ℚ)) (d : Detected) :
    Option (Candidate w h) :=
  if d.conf < confTh then none
  else (Box.of? (clampFloat w d.x1) (clampFloat h d.y1) (clampFloat w d.x2)
      (clampFloat h d.y2)).map fun b =>
    let z := depthFrame.map fun getDistance =>
      getDistance (clampInt w b.cx).val (clampInt h b.cy).val
    { hasZ := validDepth z
      z := keyDepth z
      nconf := -d.conf
      narea := -b.area
      lbl := names.lbl d.clsId
      box := b
      pos := keyDepth_pos z
      hasZ_iff := validDepth_iff z }

def candidates (w h : ℤ) (names : Names) (frame : Frame) : List (Candidate w h) :=
  frame.result.filterMap (candidate w h names frame.depthFrame)

/-- `(t[2], t[3])`. Keys are compared as tuples are. -/
def Rest : Type := ℚ ×ₗ ℤ

instance : LinearOrder Rest := @Prod.Lex.instLinearOrder ℚ ℤ Rat.linearOrder Int.instLinearOrder

/-- `(t[1], t[2], t[3])`. -/
def Rank : Type := WithTop ℚ ×ₗ Rest

instance : LinearOrder Rank :=
  @Prod.Lex.instLinearOrder (WithTop ℚ) Rest (@WithTop.linearOrder ℚ Rat.linearOrder) inferInstance

/-- The key without the depth. -/
def Candidate.rest (t : Candidate w h) : Rest := toLex (t.nconf, t.narea)

/-- The key with the depth in front. -/
def Candidate.rank (t : Candidate w h) : Rank := toLex (t.z, t.rest)

def best (cand : List (Candidate w h)) : Option (Candidate w h) :=
  if cand.any Candidate.hasZ then (cand.filter Candidate.hasZ).argmin Candidate.rank
  else cand.argmin Candidate.rest

/-- What an iteration stores. -/
structure Published where
  latestResult : Option (List Byte)
  latestIsDrone : Bool
  latestLabel : Option (List Byte)
  latestCx : Option ℤ
  latestCy : Option ℤ
  latestDepth : Option (WithTop ℚ)
  deriving DecidableEq

def publish (w h : ℤ) : Option (Candidate w h) → Published
  | some b => {
      latestResult := some (Vision.latestResult b.box.x1 b.box.y1 b.box.x2 b.box.y2 w h)
      latestIsDrone := lower b.lbl = bytes "drone"
      latestLabel := some b.lbl
      latestCx := some b.box.cx
      latestCy := some b.box.cy
      latestDepth := some (storedDepth b.z) }
  | none => ⟨none, false, none, none, none, none⟩

theorem Candidate.rank_le_iff {a b : Candidate w h} :
    a.rank ≤ b.rank ↔ a.z < b.z ∨ a.z = b.z ∧ a.rest ≤ b.rest := Prod.Lex.toLex_le_toLex

theorem Candidate.rank_lt_iff {a b : Candidate w h} :
    a.rank < b.rank ↔ a.z < b.z ∨ a.z = b.z ∧ a.rest < b.rest := Prod.Lex.toLex_lt_toLex

/-- **One search.** Looking among the boxes with a valid depth first, and at the depth only then, is
to look among all boxes by depth, then confidence, then area. -/
theorem best_eq_argmin (cand : List (Candidate w h)) : best cand = cand.argmin Candidate.rank := by
  rw [best]
  split_ifs with hany
  · refine argmin_filter (List.any_eq_true.mp hany) fun a ha b hb hza hzb => ?_
    have hfinite := a.hasZ_iff.mp hza
    have htop : b.z = ⊤ := by
      by_contra hne
      rw [b.hasZ_iff.mpr hne] at hzb
      cases hzb
    exact Candidate.rank_lt_iff.mpr (.inl (by rw [htop]; exact lt_top_iff_ne_top.mpr hfinite))
  · refine argmin_congr fun a ha b hb => ?_
    have htop : ∀ c ∈ cand, c.z = ⊤ := by
      intro c hc
      by_contra hne
      exact hany (List.any_eq_true.mpr ⟨c, hc, c.hasZ_iff.mpr hne⟩)
    rw [Candidate.rank_le_iff, htop a ha, htop b hb]
    simp

theorem candidate_eq_none_iff {names : Names} {depthFrame : Option (ℤ → ℤ → ℚ)} {d : Detected} :
    candidate w h names depthFrame d = none ↔ d.conf < confTh ∨
      (clampFloat w d.x2).val ≤ (clampFloat w d.x1).val ∨
        (clampFloat h d.y2).val ≤ (clampFloat h d.y1).val := by
  rw [candidate]
  split_ifs with hconf
  · exact iff_of_true rfl (.inl hconf)
  · rw [Option.map_eq_none_iff, Box.of?_eq_none_iff, or_iff_right hconf]

/-- **The target of an iteration** is the first of the nearest, among these the most confident,
among these the largest boxes that are confident and not empty. There is none exactly if no box
is. -/
theorem cuda_selects_iff (w h : ℤ) (names : Names) (frame : Frame) :
    (best (candidates w h names frame) = none ↔ ∀ d ∈ frame.result, d.conf < confTh ∨
        (clampFloat w d.x2).val ≤ (clampFloat w d.x1).val ∨
          (clampFloat h d.y2).val ≤ (clampFloat h d.y1).val) ∧
      ∀ b, best (candidates w h names frame) = some b ↔
        ∃ front d back, frame.result = front ++ d :: back ∧
          candidate w h names frame.depthFrame d = some b ∧
          (∀ e ∈ front, ∀ c ∈ candidate w h names frame.depthFrame e, b.rank < c.rank) ∧
          ∀ e ∈ back, ∀ c ∈ candidate w h names frame.depthFrame e, b.rank ≤ c.rank := by
  refine ⟨?_, fun b => ?_⟩
  · rw [best_eq_argmin, List.argmin_eq_none, candidates, List.filterMap_eq_nil_iff]
    exact forall₂_congr fun d _ => candidate_eq_none_iff
  · rw [best_eq_argmin, candidates, argmin_filterMap_eq_some_iff]

/-- **What is stored** for a selection: the letter of its sector, its name, its centre, and a depth
greater than zero. -/
theorem publish_eq (b : Candidate w h) : publish w h (some b) = {
    latestResult := some [b.box.letter]
    latestIsDrone := lower b.lbl = bytes "drone"
    latestLabel := some b.lbl
    latestCx := some b.box.cx
    latestCy := some b.box.cy
    latestDepth := some b.z } := by
  rw [publish, b.box.latestResult_eq_letter, storedDepth, if_pos b.pos]

end Cuda

/-! ### The largest box -/

namespace Hailo

/-- An entry of what `example` returns. -/
structure Detection where
  objectLabel : List Byte
  startX : ℤ
  startY : ℤ
  endX : ℤ
  endY : ℤ
  accuracy : ℚ

structure Frame where
  rawDets : List Detection
  depthFrame : Option (ℤ → ℤ → ℚ)

/-- A tuple of `cand`. -/
structure Candidate (w h : ℤ) where
  area : ℤ
  acc : ℚ
  lbl : List Byte
  box : Box w h
  deriving DecidableEq

def candidate (w h : ℤ) (d : Detection) : Option (Candidate w h) :=
  if d.accuracy < confTh then none
  else (Box.of? (clampInt w d.startX) (clampInt h d.startY) (clampInt w d.endX)
    (clampInt h d.endY)).map fun b => ⟨b.area, d.accuracy, d.objectLabel, b⟩

def candidates (w h : ℤ) (frame : Frame) : List (Candidate w h) :=
  frame.rawDets.filterMap (candidate w h)

/-- `(t[0], t[1])`. -/
def Rank : Type := ℤ ×ₗ ℚ

instance : LinearOrder Rank := @Prod.Lex.instLinearOrder ℤ ℚ Int.instLinearOrder Rat.linearOrder

def Candidate.rank (t : Candidate w h) : Rank := toLex (t.area, t.acc)

def best (cand : List (Candidate w h)) : Option (Candidate w h) := cand.argmax Candidate.rank

/-- `latest_depth` for the selected box. -/
def latestDepth (frame : Frame) (b : Candidate w h) : Option ℚ :=
  frame.depthFrame.map fun getDistance =>
    getDistance (clampInt w b.box.cx).val (clampInt h b.box.cy).val

theorem candidate_eq_none_iff {d : Detection} :
    candidate w h d = none ↔ d.accuracy < confTh ∨
      (clampInt w d.endX).val ≤ (clampInt w d.startX).val ∨
        (clampInt h d.endY).val ≤ (clampInt h d.startY).val := by
  rw [candidate]
  split_ifs with hacc
  · exact iff_of_true rfl (.inl hacc)
  · rw [Option.map_eq_none_iff, Box.of?_eq_none_iff, or_iff_right hacc]

/-- **The target of an iteration** is the first of the largest, among these the most accurate boxes
that are accurate and not empty. There is none exactly if no box is. -/
theorem hailo_selects_iff (w h : ℤ) (frame : Frame) :
    (best (candidates w h frame) = none ↔ ∀ d ∈ frame.rawDets, d.accuracy < confTh ∨
        (clampInt w d.endX).val ≤ (clampInt w d.startX).val ∨
          (clampInt h d.endY).val ≤ (clampInt h d.startY).val) ∧
      ∀ b, best (candidates w h frame) = some b ↔
        ∃ front d back, frame.rawDets = front ++ d :: back ∧ candidate w h d = some b ∧
          (∀ e ∈ front, ∀ c ∈ candidate w h e, c.rank < b.rank) ∧
          ∀ e ∈ back, ∀ c ∈ candidate w h e, c.rank ≤ b.rank := by
  refine ⟨?_, fun b => ?_⟩
  · rw [best, List.argmax_eq_none, candidates, List.filterMap_eq_nil_iff]
    exact forall₂_congr fun d _ => candidate_eq_none_iff
  · rw [best, candidates]
    exact argmin_filterMap_eq_some_iff (f := OrderDual.toDual ∘ Candidate.rank)

end Hailo

end Vision

end DroneTurret
