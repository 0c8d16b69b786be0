import DroneTurret.Lib.Decimal
import DroneTurret.PostProcess.Nms

/-!
# Decoding what the accelerator detects

`extract_detections` on the output of the non-maximum suppression on the chip, an array of five rows
with a column for each detection: it drops the columns with a low score, turns the boxes of the
others into pixels of the frame, drops those that have become too small, are of the wrong size or
touch the border, keeps the best of the rest and rounds. Each of these steps selects from the boxes
and from the scores.

Coordinates and scores are exact here, `none` is an exception, and `argsort` is a parameter.

## Main definitions

* `Config` — the settings, with their defaults
* `denormAndUnletterboxXyxy`, `toPixelBoxes`, `convert` — from the columns to boxes in the frame
* `finish`, `extractDetections` — the filters, the limit and the rounding

## Main results

* `toPixelBoxes_eq`, `convert_eq` — the columns whose boxes are valid, and their boxes and scores
-/

namespace DroneTurret

namespace PostProcess

/-- `preprocess_mode`; every other word is read as `letterbox`. -/
inductive PreMode
  | letterbox
  | resize
  deriving DecidableEq

/-- The order of the coordinates in the rows. -/
inductive BoxOrder
  | xyxy
  | yxyx
  deriving DecidableEq

/-- `nms_order`; every other word is read as `auto`. -/
inductive NmsOrder
  | fixed (tag : BoxOrder)
  | auto
  deriving DecidableEq

/-- The settings that `extract_detections` reads here; `none` where there is no such key. -/
structure Config where
  inputSize : Option ℤ
  preprocessMode : Option PreMode
  minBoxAreaRatio : Option ℚ
  maxBoxAreaRatio : Option ℚ
  dropBorderRatio : Option ℚ
  scoreThreshold : Option ℚ
  scoreThres : Option ℚ
  maxDetections : Option ℤ
  maxBoxesToDraw : Option ℤ
  nmsOrder : Option NmsOrder
  nmsLayout : Option NmsOrder

namespace Config

def netSize (cfg : Config) : ℤ := cfg.inputSize.getD 320

def preMode (cfg : Config) : PreMode := cfg.preprocessMode.getD .letterbox

def minAreaRatio (cfg : Config) : ℚ := cfg.minBoxAreaRatio.getD 0

def maxAreaRatio (cfg : Config) : ℚ := cfg.maxBoxAreaRatio.getD 1

def dropBorder (cfg : Config) : ℚ := cfg.dropBorderRatio.getD 0

def scoreTh (cfg : Config) : ℚ := cfg.scoreThreshold.getD (cfg.scoreThres.getD (1 / 2))

def maxDet (cfg : Config) : ℤ := cfg.maxDetections.getD (cfg.maxBoxesToDraw.getD 10)

def order (cfg : Config) : NmsOrder := cfg.nmsOrder.getD (cfg.nmsLayout.getD .auto)

end Config

/-- An array of two dimensions; only the entries inside count. -/
structure Array2 where
  rows : ℕ
  cols : ℕ
  entry : ℕ → ℕ → ℚ

def Array2.transpose (a : Array2) : Array2 := ⟨a.cols, a.rows, fun i j => a.entry j i⟩

/-- The detections, as an array of two or three dimensions. -/
inductive Detections
  | two (a : Array2)
  | three (batch rows cols : ℕ) (entry : ℕ → ℕ → ℕ → ℚ)

/-- `mat`, if the shape is one of `(1,5,N)`, `(5,N)` and `(N,5)`. -/
def Detections.mat (d : Detections) : Option Array2 :=
  let a : Option Array2 := match d with
    | .two a => some a
    | .three batch rows cols entry => if batch = 1 then some ⟨rows, cols, entry 0⟩ else none
  a.bind fun a =>
    if a.rows = 5 ∨ a.cols = 5 then some (if a.rows = 5 then a else a.transpose) else none

/-- `boxes_net[j]`. -/
def Array2.box (mat : Array2) (tag : BoxOrder) (j : ℕ) : Box :=
  match tag with
  | .yxyx => ⟨mat.entry 1 j, mat.entry 0 j, mat.entry 3 j, mat.entry 2 j⟩
  | .xyxy => ⟨mat.entry 0 j, mat.entry 1 j, mat.entry 2 j, mat.entry 3 j⟩

/-- `scr[j]`. -/
def Array2.score (mat : Array2) (j : ℕ) : ℚ := mat.entry 4 j

/-- A division of Python numbers. -/
def pyDiv (a b : ℚ) : Option ℚ := if b = 0 then none else some (a / b)

/-- `np.clip`. -/
def clip (lo hi x : ℚ) : ℚ := min (max x lo) hi

namespace Box

def map (f g : ℚ → ℚ) (b : Box) : Box := ⟨f b.x1, g b.y1, f b.x2, g b.y2⟩

/-- `b.max()`. -/
def max (b : Box) : ℚ := Max.max (Max.max b.x1 b.y1) (Max.max b.x2 b.y2)

/-- Both sides are longer than a pixel. -/
def Large (b : Box) : Prop := 1 < b.x2 - b.x1 ∧ 1 < b.y2 - b.y1

instance (b : Box) : Decidable b.Large := inferInstanceAs (Decidable (_ ∧ _))

/-- `round().astype(int)`. -/
def round (b : Box) : ℤ × ℤ × ℤ × ℤ :=
  (Decimal.roundHalfEven b.x1, Decimal.roundHalfEven b.y1, Decimal.roundHalfEven b.x2,
    Decimal.roundHalfEven b.y2)

end Box

/-- The coordinates in pixels of the network's image. -/
def denorm (box : Box) (netSize : ℤ) : Box :=
  if box.max ≤ 1 + 1 / 1000000 then box.map (· * netSize) (· * netSize) else box

/-- The way back from the letterbox that `r` is the scale of. -/
def unletterbox (b : Box) (netSize : ℤ) (r : ℚ) (h0 w0 : ℕ) : Option Box :=
  let dw := (netSize - w0 * r) / 2
  let dh := (netSize - h0 * r) / 2
  -- a division of NumPy numbers by zero gives something that is not finite
  if r = 0 then none
  else
    let pixels := b.map (fun x => (x - dw) / r) (fun y => (y - dh) / r)
    let clipped := pixels.map (clip 0 w0) (clip 0 h0)
    if pixels.Large ∧ clipped.Large then some clipped else none

/-- The inner `none` is that of Python. -/
def denormAndUnletterboxXyxy (box : Box) (netSize : ℤ) (h0 w0 : ℕ) : Option (Option Box) := do
  let rh ← pyDiv netSize h0
  let rw ← pyDiv netSize w0
  return unletterbox (denorm box netSize) netSize (min rh rw) h0 w0

/-- One round of `_to_pixel_boxes`. -/
def toPixel (cfg : Config) (H W : ℕ) (sx sy : ℚ) (b : Box) : Option (Option Box) := do
  let d ← match cfg.preMode with
    | .resize => some (some (b.map (· * sx) (· * sy)))
    | .letterbox => denormAndUnletterboxXyxy b cfg.netSize H W
  return d.filter fun d => decide d.Large

/-- The loop of `_to_pixel_boxes`: `boxes_pix` and `keep_idx`. -/
def toPixelLoop (pixel : Box → Option (Option Box)) (i : ℕ) :
    List Box → Option (List Box × List ℕ)
  | [] => some ([], [])
  | b :: bs => do
    let d ← pixel b
    let (boxesPix, keepIdx) ← toPixelLoop pixel (i + 1) bs
    return match d with
      | some d => (d :: boxesPix, i :: keepIdx)
      | none => (boxesPix, keepIdx)

def toPixelBoxes (cfg : Config) (H W : ℕ) (boxesNet : List Box) :
    Option (List Box × List ℕ) := do
  let sx ← pyDiv W cfg.netSize
  let sy ← pyDiv H cfg.netSize
  toPixelLoop (toPixel cfg H W sx sy) 0 boxesNet

/-- `_convert`: the boxes in the frame and their scores. -/
def convert (cfg : Config) (H W : ℕ) (mat : Array2) (tag : BoxOrder) :
    Option (List Box × List ℚ) := do
  let boxesNet := (List.range mat.cols).map (mat.box tag)
  let scr := (List.range mat.cols).map mat.score
  let keep := scr.map fun s => decide (cfg.scoreTh ≤ s)
  if ¬keep.any id then return ([], [])
  let boxesKept ← mask keep boxesNet
  let scrKept ← mask keep scr
  let (boxesPix, keepIdx) ← toPixelBoxes cfg H W boxesKept
  if boxesPix.isEmpty then return ([], [])
  let scrAligned ← if keepIdx.isEmpty then some [] else gather scrKept keepIdx
  let m := min boxesPix.length scrAligned.length
  return (boxesPix.take m, scrAligned.take m)

/-- `_valid_score`: the number of boxes and their mean area. -/
def validScore (b : List Box) : ℕ × ℚ :=
  if b.isEmpty then (0, 0) else (b.length, (b.map Box.area).sum / b.length)

/-- The boxes and scores by the order of the coordinates, or by the better one of the two. -/
def orient (cfg : Config) (H W : ℕ) (mat : Array2) : Option (List Box × List ℚ) :=
  match cfg.order with
  | .fixed tag => convert cfg H W mat tag
  | .auto => do
    let xy ← convert cfg H W mat .xyxy
    let yx ← convert cfg H W mat .yxyx
    let (n, area) := validScore yx.1
    let (n', area') := validScore xy.1
    return if n' < n ∨ n' = n ∧ area' < area then yx else xy

/-- The border that a box may not touch. -/
def Edge (cfg : Config) (H W : ℕ) (b : Box) : Prop :=
  b.x1 ≤ cfg.dropBorder * W ∨ (1 - cfg.dropBorder) * W ≤ b.x2 ∨
    b.y1 ≤ cfg.dropBorder * H ∨ (1 - cfg.dropBorder) * H ≤ b.y2

/-- The filters for the area and the border. -/
structure Passes (cfg : Config) (H W : ℕ) (b : Box) : Prop where
  minArea : 0 < cfg.minAreaRatio → cfg.minAreaRatio * (W * H) ≤ b.area
  maxArea : cfg.maxAreaRatio < 1 → b.area ≤ cfg.maxAreaRatio * (W * H)
  border : 0 < cfg.dropBorder → ¬Edge cfg H W b

instance (cfg : Config) (H W : ℕ) (b : Box) : Decidable (Edge cfg H W b) :=
  inferInstanceAs (Decidable (_ ∨ _))

instance (cfg : Config) (H W : ℕ) (b : Box) : Decidable (Passes cfg H W b) :=
  decidable_of_iff
    ((0 < cfg.minAreaRatio → cfg.minAreaRatio * (W * H) ≤ b.area) ∧
      (cfg.maxAreaRatio < 1 → b.area ≤ cfg.maxAreaRatio * (W * H)) ∧
      (0 < cfg.dropBorder → ¬Edge cfg H W b))
    ⟨fun ⟨h1, h2, h3⟩ => ⟨h1, h2, h3⟩, fun ⟨h1, h2, h3⟩ => ⟨h1, h2, h3⟩⟩

/-- `xs[:m]`. -/
def pySlice {α : Type*} (xs : List α) (m : ℤ) : List α :=
  xs.take (if 0 ≤ m then m else xs.length + m).toNat

theorem pySlice_map {α β : Type*} (g : α → β) (xs : List α) (m : ℤ) :
    pySlice (xs.map g) m = (pySlice xs m).map g := by
  rw [pySlice, pySlice, List.length_map, List.map_take]

theorem mem_of_mem_pySlice {α : Type*} {a : α} {xs : List α} {m : ℤ} (h : a ∈ pySlice xs m) :
    a ∈ xs :=
  List.mem_of_mem_take h

/-- What `extract_detections` returns. -/
structure Result where
  boxes : List (ℤ × ℤ × ℤ × ℤ)
  classes : List ℕ
  scores : List ℚ
  numDetections : ℕ
  deriving DecidableEq

def Result.empty : Result := ⟨[], [], [], 0⟩

/-- From the boxes in the frame to the result. -/
def finish (argsort : List ℚ → List ℕ) (cfg : Config) (H W : ℕ) (boxesPix : List Box)
    (scores : List ℚ) : Option Result := do
  if boxesPix.isEmpty then return .empty
  let classes := List.replicate boxesPix.length 0
  let idx := nonzero (boxesPix.map fun b => decide (Passes cfg H W b))
  if idx.isEmpty then return .empty
  let boxesPix ← gather boxesPix idx
  let scores ← gather scores idx
  let classes ← gather classes idx
  let (boxesPix, scores, classes) ←
    if cfg.maxDet ≠ 0 ∧ cfg.maxDet < boxesPix.length then do
      let order := pySlice (argsort (scores.map (-·))) cfg.maxDet
      pure (← gather boxesPix order, ← gather scores order, ← gather classes order)
    else pure (boxesPix, scores, classes)
  return ⟨boxesPix.map Box.round, classes, scores.map (clip 0 1), boxesPix.length⟩

/-- The first path of `extract_detections`; `none` if another one is taken, and then `none` for an
exception. -/
def extractDetections (argsort : List ℚ → List ℕ) (cfg : Config) (H W : ℕ) (d : Detections) :
    Option (Option Result) :=
  d.mat.map fun mat => (orient cfg H W mat).bind fun (boxes, scores) =>
    finish argsort cfg H W boxes scores

section Convert

variable {cfg : Config} {H W : ℕ}

/-- The loop keeps the boxes that become one in the frame, and their indices. -/
theorem toPixelLoop_eq {pixel : Box → Option (Option Box)} {g : Box → Option Box} {bs : List Box}
    (i : ℕ) (h : ∀ b ∈ bs, pixel b = some (g b)) :
    toPixelLoop pixel i bs =
      some (bs.filterMap g, nonzeroFrom i (bs.map fun b => (g b).isSome)) := by
  induction bs generalizing i with
  | nil => rfl
  | cons b bs ih =>
    obtain ⟨hb, h⟩ := List.forall_mem_cons.mp h
    rw [toPixelLoop, hb, ih (i + 1) h, List.map_cons, List.filterMap_cons]
    cases g b <;> rfl

/-- Where every box can be converted, what the loop keeps. -/
theorem toPixelBoxes_eq_filterMap {sx sy : ℚ} {g : Box → Option Box} (bs : List Box)
    (hsx : pyDiv W cfg.netSize = some sx) (hsy : pyDiv H cfg.netSize = some sy)
    (h : ∀ b, toPixel cfg H W sx sy b = some (g b)) :
    toPixelBoxes cfg H W bs = some (bs.filterMap g, nonzero (bs.map fun b => (g b).isSome)) := by
  rw [toPixelBoxes, hsx, hsy]
  exact toPixelLoop_eq 0 fun b _ => h b

/-- The boxes of `xs` in the frame are those of the elements kept, and the indices select from an
array beside it what belongs to them. -/
theorem toPixelBoxes_eq {α : Type*} {sx sy : ℚ} {g : Box → Option Box} (xs : List α)
    (box : α → Box) (hsx : pyDiv W cfg.netSize = some sx) (hsy : pyDiv H cfg.netSize = some sy)
    (h : ∀ b, toPixel cfg H W sx sy b = some (g b)) :
    ∃ keepIdx, toPixelBoxes cfg H W (xs.map box) = some (xs.filterMap (g ∘ box), keepIdx) ∧
      gather xs keepIdx = some (xs.filter fun x => (g (box x)).isSome) := by
  refine ⟨nonzero ((xs.map box).map fun b => (g b).isSome), ?_, ?_⟩
  · rw [toPixelBoxes_eq_filterMap _ hsx hsy h, List.filterMap_map]
  · rw [List.map_map]
    exact gather_nonzero _ xs

theorem filterMap_eq_map_filter {α β : Type*} [Inhabited β] (f : α → Option β) (xs : List α) :
    xs.filterMap f = (xs.filter fun x => (f x).isSome).map fun x => (f x).getD default := by
  induction xs with
  | nil => rfl
  | cons x xs ih =>
    rw [List.filterMap_cons, List.filter_cons]
    cases hx : f x with
    | none => exact ih
    | some y =>
      rw [Option.isSome_some, if_pos rfl, List.map_cons, hx, ← ih]
      rfl

/-- The columns with a sufficient score whose boxes `g` leaves. -/
def validColumns (cfg : Config) (mat : Array2) (tag : BoxOrder) (g : Box → Option Box) : List ℕ :=
  ((List.range mat.cols).filter fun j => decide (cfg.scoreTh ≤ mat.score j)).filter
    fun j => (g (mat.box tag j)).isSome

/-- The first step of `_convert` keeps the columns with a sufficient score. -/
theorem convert_masked (cfg : Config) (H W : ℕ) (mat : Array2) (tag : BoxOrder) {kept : List ℕ}
    (hkept : ((List.range mat.cols).filter fun j => decide (cfg.scoreTh ≤ mat.score j)) = kept) :
    convert cfg H W mat tag =
      if kept = [] then some ([], [])
      else do
        let (boxesPix, keepIdx) ← toPixelBoxes cfg H W (kept.map (mat.box tag))
        if boxesPix.isEmpty then return ([], [])
        let scrAligned ← if keepIdx.isEmpty then some [] else gather (kept.map mat.score) keepIdx
        let m := min boxesPix.length scrAligned.length
        return (boxesPix.take m, scrAligned.take m) := by
  have hkeep : ((List.range mat.cols).map mat.score).map (fun s => decide (cfg.scoreTh ≤ s)) =
      (List.range mat.cols).map fun j => decide (cfg.scoreTh ≤ mat.score j) := List.map_map
  have hboxes := mask_map (fun j => decide (cfg.scoreTh ≤ mat.score j)) (mat.box tag)
    (List.range mat.cols)
  have hscores := mask_map (fun j => decide (cfg.scoreTh ≤ mat.score j)) mat.score
    (List.range mat.cols)
  have hany : ((List.range mat.cols).map fun j => decide (cfg.scoreTh ≤ mat.score j)).any id =
      true ↔ kept ≠ [] := by
    rw [← hkept, Ne, List.filter_eq_nil_iff]
    simp
  rw [convert, hkeep, hboxes, hscores, hkept]
  by_cases hnil : kept = []
  · rw [if_pos fun h => hany.mp h hnil, if_pos hnil]
    rfl
  · rw [if_neg fun h => h (hany.mpr hnil), if_neg hnil]
    rfl

/-- **The boxes and the scores stay parallel.** -/
theorem convert_eq {mat : Array2} {tag : BoxOrder} {sx sy : ℚ} {g : Box → Option Box}
    (hsx : pyDiv W cfg.netSize = some sx) (hsy : pyDiv H cfg.netSize = some sy)
    (h : ∀ b, toPixel cfg H W sx sy b = some (g b)) :
    convert cfg H W mat tag =
      some ((validColumns cfg mat tag g).map fun j => (g (mat.box tag j)).getD default,
        (validColumns cfg mat tag g).map mat.score) := by
  rw [validColumns]
  generalize hkept : (List.range mat.cols).filter (fun j => decide (cfg.scoreTh ≤ mat.score j)) =
    kept
  rw [convert_masked cfg H W mat tag hkept]
  obtain ⟨keepIdx, hpix, hgather⟩ := toPixelBoxes_eq kept (mat.box tag) hsx hsy h
  have haligned : gather (kept.map mat.score) keepIdx =
      some ((kept.filter fun j => (g (mat.box tag j)).isSome).map mat.score) := by
    rw [gather_map, hgather]
    rfl
  rw [filterMap_eq_map_filter] at hpix
  simp only [Function.comp_apply] at hpix
  generalize hvalid : kept.filter (fun j => (g (mat.box tag j)).isSome) = valid at *
  simp only [Option.bind_eq_bind, Option.bind_some, hpix]
  split
  · rename_i hnil
    rw [← hvalid, hnil]
    rfl
  split
  · rename_i hempty
    rw [List.isEmpty_iff, List.map_eq_nil_iff] at hempty
    rw [hempty]
    rfl
  split
  · rename_i hempty
    rw [List.isEmpty_iff] at hempty
    rw [hempty, gather_nil, Option.some.injEq, eq_comm, List.map_eq_nil_iff] at haligned
    rw [haligned]
    rfl
  · rw [haligned, Option.bind_some, List.length_map, List.length_map, min_self]
    rw [List.take_of_length_le (List.length_map _).le,
      List.take_of_length_le (List.length_map _).le]
    rfl

end Convert

end PostProcess

end DroneTurret
