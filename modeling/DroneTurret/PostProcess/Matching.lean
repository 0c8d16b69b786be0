import DroneTurret.Lib.FirstMax
import DroneTurret.PostProcess.Nms

/-!
# Which detection a track belongs to

A track gets the class and the score of the detection that overlaps it most. The overlap is that of
`compute_iou`, which floors the area of a box, so that it can be computed for boxes of any shape,
with the corners in any order.

## Main definitions

* `Box.Overlaps` — two boxes share a point inside both
* `computeIou`, `findBestMatchingDetectionIndex` — the overlap, and the search

## Main results

* `matching_correct` — what the overlap measures, and what the search finds
-/

namespace DroneTurret

namespace PostProcess

namespace Box

/-- The point is inside the box. There is none inside a box without area. -/
structure Contains (b : Box) (x y : ℚ) : Prop where
  left : b.x1 < x
  right : x < b.x2
  top : b.y1 < y
  bottom : y < b.y2

/-- What the boxes share has an area. -/
def Overlaps (a b : Box) : Prop := ∃ x y, a.Contains x y ∧ b.Contains x y

/-- `areaA`, `areaB`: corners in the wrong order twice make an area as well. -/
def flooredArea (b : Box) : ℚ := Max.max (1 / 100000) b.area

end Box

/-- The divisor in `compute_iou`. -/
def iouDivisor (boxA boxB : Box) : ℚ :=
  boxA.flooredArea + boxB.flooredArea - boxA.inter boxB + 1 / 100000

def computeIou (boxA boxB : Box) : ℚ := boxA.inter boxB / iouDivisor boxA boxB

/-- The place is `none` where the source has -1. -/
def findBestMatchingDetectionIndex (trackBox : Box) (detectionBoxes : List Box) : Option ℕ :=
  (searchMax (computeIou trackBox) 0 (0, none) detectionBoxes).2

section Overlap

variable (a b : Box)

theorem inter_nonneg : 0 ≤ a.inter b := mul_nonneg (le_max_left _ _) (le_max_left _ _)

/-- The sides of what is shared are both positive, or the shared area is zero. -/
theorem inter_pos_iff :
    0 < a.inter b ↔ max a.x1 b.x1 < min a.x2 b.x2 ∧ max a.y1 b.y1 < min a.y2 b.y2 := by
  have hside : ∀ u v : ℚ, 0 < max 0 (v - u) ↔ u < v := fun u v => by
    rw [lt_max_iff, or_iff_right (lt_irrefl 0), sub_pos]
  rw [Box.inter, mul_pos_iff, hside, hside]
  refine or_iff_left fun h => ?_
  exact absurd h.1 (not_lt.mpr (le_max_left _ _))

theorem overlaps_iff :
    a.Overlaps b ↔ max a.x1 b.x1 < min a.x2 b.x2 ∧ max a.y1 b.y1 < min a.y2 b.y2 := by
  constructor
  · rintro ⟨x, y, ha, hb⟩
    exact ⟨(max_lt ha.left hb.left).trans (lt_min ha.right hb.right),
      (max_lt ha.top hb.top).trans (lt_min ha.bottom hb.bottom)⟩
  · rintro ⟨hw, hh⟩
    obtain ⟨x, hleft, hright⟩ := exists_between hw
    obtain ⟨y, htop, hbottom⟩ := exists_between hh
    rw [max_lt_iff] at hleft htop
    rw [lt_min_iff] at hright hbottom
    exact ⟨x, y, ⟨hleft.1, hright.1, htop.1, hbottom.1⟩, ⟨hleft.2, hright.2, htop.2, hbottom.2⟩⟩

/-- What is shared is no more than the floored area, also of a box with corners in another order:
only a proper one shares anything. -/
theorem inter_le_flooredArea : a.inter b ≤ a.flooredArea := by
  rcases (inter_nonneg a b).eq_or_lt with hzero | hpos
  · rw [← hzero]
    exact (by norm_num : (0 : ℚ) ≤ 1 / 100000).trans (le_max_left _ _)
  · obtain ⟨hw, hh⟩ := (inter_pos_iff a b).mp hpos
    have hproper : a.Proper :=
      ⟨((le_max_left _ _).trans hw.le).trans (min_le_left _ _),
        ((le_max_left _ _).trans hh.le).trans (min_le_left _ _)⟩
    exact (Box.inter_le hproper b).trans (le_max_right _ _)

/-- The divisor exceeds what is shared. -/
theorem inter_lt_iouDivisor : a.inter b < iouDivisor a b := by
  have ha := inter_le_flooredArea a b
  have hb := inter_le_flooredArea b a
  rw [Box.inter_comm] at hb
  rw [iouDivisor]
  linarith

theorem iouDivisor_pos : 0 < iouDivisor a b := (inter_nonneg a b).trans_lt (inter_lt_iouDivisor a b)

theorem computeIou_comm : computeIou a b = computeIou b a := by
  rw [computeIou, computeIou, iouDivisor, iouDivisor, Box.inter_comm, add_comm a.flooredArea]

theorem computeIou_nonneg : 0 ≤ computeIou a b :=
  div_nonneg (inter_nonneg a b) (iouDivisor_pos a b).le

theorem computeIou_lt_one : computeIou a b < 1 :=
  (div_lt_one (iouDivisor_pos a b)).mpr (inter_lt_iouDivisor a b)

theorem computeIou_pos_iff : 0 < computeIou a b ↔ a.Overlaps b := by
  rw [overlaps_iff, ← inter_pos_iff]
  exact div_pos_iff_of_pos_right (iouDivisor_pos a b)

end Overlap

/-- **The overlap is a number from 0 to 1, for all boxes, and the search finds the first detection
with the greatest one.** -/
theorem matching_correct :
    (∀ a b : Box, 0 < iouDivisor a b ∧ computeIou a b = computeIou b a ∧
      (0 ≤ computeIou a b ∧ computeIou a b < 1) ∧ (0 < computeIou a b ↔ a.Overlaps b)) ∧
    ∀ (trackBox : Box) (detectionBoxes : List Box),
      (findBestMatchingDetectionIndex trackBox detectionBoxes = none ↔
        ∀ b ∈ detectionBoxes, ¬trackBox.Overlaps b) ∧
      ∀ i, findBestMatchingDetectionIndex trackBox detectionBoxes = some i →
        IsFirstMax (computeIou trackBox) detectionBoxes i := by
  refine ⟨fun a b => ⟨iouDivisor_pos a b, computeIou_comm a b, ⟨computeIou_nonneg a b,
    computeIou_lt_one a b⟩, computeIou_pos_iff a b⟩, fun track boxes => ⟨?_, fun i hi =>
    isFirstMax_of_searchMax hi⟩⟩
  rw [findBestMatchingDetectionIndex, searchMax_eq_none_iff]
  refine forall₂_congr fun b _ => ?_
  rw [← computeIou_pos_iff, not_lt]

end PostProcess

end DroneTurret
