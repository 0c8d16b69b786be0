import DroneTurret.Lib.Greedy
import DroneTurret.Lib.Selection
import Mathlib

/-!
# Non-maximum suppression

`nms_xyxy_agnostic` takes the best box of those in the list, drops the boxes that overlap it too
much, and goes on with the others. An array index that is out of range and `argsort` are as NumPy
has them: the former raises, the latter gives some order in which the scores do not decrease.

## Main definitions

* `Box`, `Box.iou` — boxes, and their overlap as it is computed
* `nmsLoop`, `nmsXyxyAgnostic` — the loop and the function

## Main results

* `nmsLoop_eq` — the loop is a greedy selection
* `nmsXyxyAgnostic_correct` — the boxes it keeps
-/

namespace DroneTurret

namespace PostProcess

/-- A box by two of its corners. -/
structure Box where
  x1 : ℚ
  y1 : ℚ
  x2 : ℚ
  y2 : ℚ
  deriving DecidableEq, Inhabited

namespace Box

/-- `inter`: the area that two boxes share. -/
def inter (a b : Box) : ℚ :=
  max 0 (min a.x2 b.x2 - max a.x1 b.x1) * max 0 (min a.y2 b.y2 - max a.y1 b.y1)

def area (a : Box) : ℚ := (a.x2 - a.x1) * (a.y2 - a.y1)

/-- The divisor of `iou`. -/
def union (a b : Box) : ℚ :=
  (a.area + 1 / 100000) + (b.area + 1 / 100000) - a.inter b + 1 / 100000

def iou (a b : Box) : ℚ := a.inter b / a.union b

/-- The second corner is not before the first. -/
structure Proper (a : Box) : Prop where
  x : a.x1 ≤ a.x2
  y : a.y1 ≤ a.y2

theorem inter_comm (a b : Box) : a.inter b = b.inter a := by
  rw [inter, inter, min_comm a.x2, max_comm a.x1, min_comm a.y2, max_comm a.y1]

theorem iou_comm (a b : Box) : a.iou b = b.iou a := by
  rw [iou, iou, union, union, inter_comm a b, add_comm (a.area + _)]

/-- What two boxes share is no more than either. -/
theorem inter_le {a : Box} (ha : a.Proper) (b : Box) : a.inter b ≤ a.area := by
  have hx := sub_nonneg.mpr ha.x
  have hy := sub_nonneg.mpr ha.y
  have hw : max 0 (min a.x2 b.x2 - max a.x1 b.x1) ≤ a.x2 - a.x1 :=
    max_le hx (sub_le_sub (min_le_left _ _) (le_max_left _ _))
  have hh : max 0 (min a.y2 b.y2 - max a.y1 b.y1) ≤ a.y2 - a.y1 :=
    max_le hy (sub_le_sub (min_le_left _ _) (le_max_left _ _))
  exact mul_le_mul hw hh (le_max_left _ _) hx

/-- **There is no division by zero.** -/
theorem union_pos {a b : Box} (ha : a.Proper) (hb : b.Proper) : 0 < a.union b := by
  have hinter := inter_le ha b
  have harea : 0 ≤ b.area := mul_nonneg (sub_nonneg.mpr hb.x) (sub_nonneg.mpr hb.y)
  unfold union
  linarith

end Box

/-- `order[1:][iou < iou_th]`. -/
def survivors (boxes : List Box) (iouTh : ℚ) (i : ℕ) (rest : List ℕ) : Option (List ℕ) := do
  let box ← boxes[i]?
  let others ← gather boxes rest
  mask (others.map fun other => decide (box.iou other < iouTh)) rest

theorem length_survivors {boxes : List Box} {iouTh : ℚ} {i : ℕ} {rest order : List ℕ}
    (h : survivors boxes iouTh i rest = some order) : order.length ≤ rest.length := by
  obtain ⟨box, -, h⟩ := Option.bind_eq_some_iff.mp h
  obtain ⟨others, -, h⟩ := Option.bind_eq_some_iff.mp h
  exact length_mask_le h

/-- The loop. -/
def nmsLoop (boxes : List Box) (iouTh : ℚ) (maxDet : ℤ) (order keep : List ℕ) :
    Option (List ℕ) :=
  match order with
  | [] => some keep
  | i :: rest =>
    if (keep.length : ℤ) < maxDet then
      if rest = [] then some (keep ++ [i])
      else
        match _ : survivors boxes iouTh i rest with
        | none => none
        | some order => nmsLoop boxes iouTh maxDet order (keep ++ [i])
    else some keep
  termination_by order.length
  decreasing_by exact Nat.lt_succ_of_le (length_survivors ‹_›)

/-- `scores.argsort()` is some order in which the scores do not decrease. -/
structure Argsort (scores : List ℚ) (order : List ℕ) : Prop where
  perm : order.Perm (List.range scores.length)
  sorted : order.Pairwise fun i j => scores.getD i 0 ≤ scores.getD j 0

def nmsXyxyAgnostic (argsort : List ℚ → List ℕ) (boxes : List Box) (scores : List ℚ)
    (iouTh : ℚ) (maxDet : ℤ) : Option (List ℕ) :=
  nmsLoop boxes iouTh maxDet (argsort scores).reverse []

/-- The computed overlap of two boxes of a list. -/
def iouAt (boxes : List Box) (i j : ℕ) : ℚ :=
  (boxes.getD i default).iou (boxes.getD j default)

/-- The boxes to keep. -/
structure Suppressed (boxes : List Box) (scores : List ℚ) (iouTh : ℚ) (maxDet : ℤ)
    (keep : List ℕ) : Prop where
  valid : ∀ i ∈ keep, i < boxes.length
  nodup : keep.Nodup
  length : keep.length ≤ maxDet
  sorted : keep.Pairwise fun i j => scores.getD j 0 ≤ scores.getD i 0
  apart : ∀ i ∈ keep, ∀ j ∈ keep, i ≠ j → iouAt boxes i j < iouTh
  /-- A box that is dropped for another reason than the limit overlaps one that is kept. -/
  maximal : keep.length < maxDet → ∀ j < boxes.length, j ∉ keep →
    ∃ i ∈ keep, iouTh ≤ iouAt boxes i j ∧ scores.getD j 0 ≤ scores.getD i 0

/-- The box at `i` is no reason to drop that at `j`. -/
def leaves (boxes : List Box) (iouTh : ℚ) (i j : ℕ) : Bool := iouAt boxes i j < iouTh

section Loop

variable {boxes : List Box} {iouTh : ℚ} {maxDet : ℤ}

/-- With valid indices, the mask leaves the boxes that the first one leaves. -/
theorem survivors_eq {i : ℕ} {rest : List ℕ} (hi : i < boxes.length)
    (hrest : ∀ j ∈ rest, j < boxes.length) :
    survivors boxes iouTh i rest = some (rest.filter (leaves boxes iouTh i)) := by
  have hmask := mask_map (leaves boxes iouTh i) id rest
  rw [List.map_id, List.map_id] at hmask
  rw [survivors, List.getElem?_eq_getElem hi, gather_eq_some hrest, ← hmask,
    ← List.getD_eq_getElem _ default hi]
  change mask (List.map _ (List.map _ rest)) rest = _
  rw [List.map_map]
  rfl

/-- **The loop is a greedy selection.** -/
theorem nmsLoop_eq {order keep : List ℕ} (horder : ∀ j ∈ order, j < boxes.length) :
    nmsLoop boxes iouTh maxDet order keep =
      some (keep ++ greedy (leaves boxes iouTh) (maxDet - keep.length).toNat order) := by
  fun_induction nmsLoop boxes iouTh maxDet order keep with
  | case1 keep =>
    cases (maxDet - (keep.length : ℤ)).toNat <;> rw [greedy, List.append_nil]
  | case2 keep i hlt =>
    obtain ⟨k, hk⟩ : ∃ k, (maxDet - (keep.length : ℤ)).toNat = k + 1 :=
      Nat.exists_eq_succ_of_ne_zero (by omega)
    rw [hk, greedy]
    cases k <;> rfl
  | case3 keep i rest hlt hrest hnone =>
    obtain ⟨hi, hvalid⟩ := List.forall_mem_cons.mp horder
    rw [survivors_eq hi hvalid] at hnone
    cases hnone
  | case4 keep i rest hlt hrest order hsome ih =>
    obtain ⟨hi, hvalid⟩ := List.forall_mem_cons.mp horder
    rw [survivors_eq hi hvalid] at hsome
    obtain rfl := Option.some.inj hsome
    have hk : (maxDet - (keep.length : ℤ)).toNat =
        (maxDet - ((keep ++ [i]).length : ℤ)).toNat + 1 := by
      rw [List.length_append, List.length_singleton]
      omega
    rw [ih fun j hj => hvalid j (List.mem_of_mem_filter hj), hk, greedy, List.append_assoc]
    rfl
  | case5 keep i rest hlt =>
    have hk : (maxDet - (keep.length : ℤ)).toNat = 0 := by omega
    rw [hk, greedy, List.append_nil]

end Loop

section Correct

variable {boxes : List Box} {scores : List ℚ} {iouTh : ℚ} {maxDet : ℤ} {order : List ℕ}

/-- The greedy selection from the boxes in the order of their scores, the best first. -/
theorem suppressed_greedy (hperm : order.Perm (List.range boxes.length))
    (hsorted : order.Pairwise fun i j => scores.getD j 0 ≤ scores.getD i 0)
    (hmaxDet : 0 ≤ maxDet) :
    Suppressed boxes scores iouTh maxDet
      (greedy (leaves boxes iouTh) maxDet.toNat order) := by
  have hsub := greedy_sublist (leaves boxes iouTh) maxDet.toNat order
  have hlength := length_greedy_le (leaves boxes iouTh) maxDet.toNat order
  have hpairwise := greedy_pairwise (leaves boxes iouTh) maxDet.toNat order
  refine ⟨?_, ?_, ?_, hsorted.sublist hsub, ?_, ?_⟩
  · intro i hi
    exact List.mem_range.mp (hperm.subset (hsub.subset hi))
  · exact (hperm.nodup_iff.mpr List.nodup_range).sublist hsub
  · omega
  · -- the overlap is the same from either box
    have : Std.Symm fun i j => iouAt boxes i j < iouTh :=
      ⟨fun i j h => by rwa [iouAt, Box.iou_comm]⟩
    have hall := hpairwise.imp fun h => of_decide_eq_true h
    exact fun i hi j hj hne => hall.forall hi hj hne
  · intro hlt j hj hmem
    have hjorder : j ∈ order := hperm.symm.subset (List.mem_range.mpr hj)
    have hshort : (greedy (leaves boxes iouTh) maxDet.toNat order).length < maxDet.toNat := by
      omega
    rcases greedy_maximal (leaves boxes iouTh) hshort hjorder with hkept | ⟨i, hi, hij, hbefore⟩
    · exact absurd hkept hmem
    · exact ⟨i, hi, not_lt.mp (of_decide_eq_false hij), hsorted.forall_sublist hbefore⟩

/-- **The suppression is correct**, for every order of equal scores. -/
theorem nmsXyxyAgnostic_correct (argsort : List ℚ → List ℕ) (boxes : List Box)
    (scores : List ℚ) (iouTh : ℚ) (maxDet : ℤ) (hproper : ∀ b ∈ boxes, b.Proper)
    (hlength : scores.length = boxes.length) (hargsort : Argsort scores (argsort scores))
    (hmaxDet : 0 ≤ maxDet) :
    (∃ keep, nmsXyxyAgnostic argsort boxes scores iouTh maxDet = some keep ∧
      Suppressed boxes scores iouTh maxDet keep) ∧
    ∀ a ∈ boxes, ∀ b ∈ boxes, 0 < a.union b := by
  have hperm : (argsort scores).reverse.Perm (List.range boxes.length) := by
    rw [← hlength]
    exact (List.reverse_perm _).trans hargsort.perm
  have hsorted := List.pairwise_reverse.mpr hargsort.sorted
  refine ⟨⟨_, ?_, suppressed_greedy hperm hsorted hmaxDet⟩,
    fun a ha b hb => Box.union_pos (hproper a ha) (hproper b hb)⟩
  rw [nmsXyxyAgnostic, nmsLoop_eq fun j hj => List.mem_range.mp (hperm.subset hj)]
  rw [List.nil_append, List.length_nil, Nat.cast_zero, sub_zero]

end Correct

section Example

/-- One of the orders that `argsort` may give. -/
def stableArgsort (scores : List ℚ) : List ℕ :=
  (List.range scores.length).insertionSort fun i j => scores.getD i 0 ≤ scores.getD j 0

theorem argsort_stableArgsort (scores : List ℚ) : Argsort scores (stableArgsort scores) := by
  have : Std.Total fun i j => scores.getD i 0 ≤ scores.getD j 0 := ⟨fun _ _ => le_total _ _⟩
  have : IsTrans ℕ fun i j => scores.getD i 0 ≤ scores.getD j 0 := ⟨fun _ _ _ => le_trans⟩
  exact ⟨List.perm_insertionSort _ _, List.pairwise_insertionSort _ _⟩

/-- Two boxes that overlap, and one apart from them. -/
def threeBoxes : List Box := [⟨0, 0, 10, 10⟩, ⟨1, 1, 11, 11⟩, ⟨20, 20, 30, 30⟩]

theorem nmsXyxyAgnostic_correct_witness :
    ∃ keep, nmsXyxyAgnostic stableArgsort threeBoxes [7 / 10, 9 / 10, 8 / 10] (45 / 100) 100 =
      some keep ∧ Suppressed threeBoxes [7 / 10, 9 / 10, 8 / 10] (45 / 100) 100 keep := by
  refine (nmsXyxyAgnostic_correct stableArgsort threeBoxes [7 / 10, 9 / 10, 8 / 10] (45 / 100) 100
    ?_ rfl (argsort_stableArgsort _) (by decide)).1
  intro b hb
  fin_cases hb <;> exact ⟨by norm_num, by norm_num⟩

end Example

end PostProcess

end DroneTurret
