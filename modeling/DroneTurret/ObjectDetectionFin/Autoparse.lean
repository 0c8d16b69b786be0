import DroneTurret.Inference.BoxFormats
import DroneTurret.Lib.Chunks
import DroneTurret.ObjectDetectionFin.Handler
import DroneTurret.Vision.Snapshots

/-!
# Reading the output of an unknown network

Where the handler finds nothing, `_autoparse_detections` looks for detections in the output itself.
It goes by the names in a dictionary and by the number of columns of an array: a table of boxes with
their scores and classes, the heads of a network one by one, or an array with a row for each box.

The callback makes a dictionary of two or more outputs with `np.expand_dims`, but `np` is a variable
of the callback, since it is imported further down in it, and has no value yet. So a network with
more than one output is never reported on.

The numbers are exact here, and a value that is not a regular array is one without a shape.

## Main definitions

* `NdArray`, `Output` — what is looked at
* `autoparse` — the detections in it; `none` for an exception
* `resultOf` — what the callback makes of the outputs of a network
* `detDicts` — what the callback reports
* `Written`, `WrittenYolo` — the same rows in different layouts

## Main results

* `mem_autoparse` — what is found lies in the frame
* `autoparse_of_written`, `autoparse_of_writtenYolo` — the layout of the rows does not matter
* `detDicts_layouts` — what is reported of a network
-/

namespace DroneTurret

namespace ObjectDetectionFin

open CString Decimal Significand
open Inference (Det Four Reported detectionsToDict labelOf orZeros toPixelXyxy)
open Vision (lower pyInt)

/-! ### Arrays -/

structure NdArray where
  shape : List ℕ
  data : List ℚ
  size : data.length = shape.prod

/-- An array of two dimensions. -/
structure Mat where
  cols : ℕ
  rows : List (List ℚ)
  regular : ∀ r ∈ rows, r.length = cols

/-- A value of a dictionary; `none` for what `np.asarray` does not make an array of. -/
abbrev Value := Option NdArray

/-- What is looked at. -/
inductive Output
  | dict (items : List (List Byte × Value))
  | other (value : Value)

/-- `reshape(-1, n)`. -/
def NdArray.reshape (a : NdArray) (n : ℕ) : Option Mat :=
  if h : 0 < n ∧ n ∣ a.data.length then
    some ⟨n, chunks n a.data, length_of_mem_chunks h.1 h.2⟩
  else none

/-- `_to2d`. -/
def NdArray.to2d (a : NdArray) : Option Mat :=
  if 2 ≤ a.shape.length then a.reshape (a.shape.getLastD 0) else none

/-- The rows of `classes`, which may have a single dimension. -/
def NdArray.classRows (a : NdArray) : Option Mat :=
  if a.shape = [] then none else a.reshape (a.shape.getLastD 0)

def Mat.col (m : Mat) (j : ℕ) : List ℚ := m.rows.map fun r => r.getD j 0

/-- `np.concatenate`. -/
def Mat.concat : List Mat → Option Mat
  | [] => none
  | m :: ms =>
    if h : ∀ m' ∈ ms, m'.cols = m.cols then
      some ⟨m.cols, (m :: ms).flatMap Mat.rows, by
        refine List.forall_mem_flatMap.mpr (List.forall_mem_cons.mpr ⟨m.regular, fun m' hm' => ?_⟩)
        exact h m' hm' ▸ m'.regular⟩
    else none

/-- The place of the first of the largest numbers. -/
def rowArgmax (r : List ℚ) : ℕ := ((List.range r.length).argmax fun j => r.getD j 0).getD 0

def rowMax (r : List ℚ) : ℚ := r.getD (rowArgmax r) 0

/-! ### A detection -/

/-- The arguments of `_add`. -/
structure Scored where
  ci : ℚ
  sc : ℚ
  box : List ℚ

/-- An entry of the list. -/
structure Parsed where
  classId : ℤ
  score : ℚ
  x1 : ℤ
  y1 : ℤ
  x2 : ℤ
  y2 : ℤ
  deriving DecidableEq

/-- `cls_thresh`. -/
def clsThresh : ℚ := 1 / 100000

/-- The test for an entry. -/
def Parsed.Kept (d : Parsed) : Prop := 1 < d.x2 - d.x1 ∧ 1 < d.y2 - d.y1 ∧ clsThresh ≤ d.score

instance (d : Parsed) : Decidable d.Kept := inferInstanceAs (Decidable (_ ∧ _ ∧ _))

section Parse

variable (H W : ℕ)

/-- The entry for four coordinates. -/
def entryFor (ci sc x1 y1 x2 y2 : ℚ) : Parsed :=
  let lo := min (min x1 y1) (min x2 y2)
  let hi := max (max x1 y1) (max x2 y2)
  let s : ℚ × ℚ := if (0 ≤ lo ∧ lo ≤ 6 / 5) ∧ hi ≤ 6 / 5 then (W, H) else (1, 1)
  ⟨pyInt ci, sc, roundClip (x1 * s.1) W, roundClip (y1 * s.2) H, roundClip (x2 * s.1) W,
    roundClip (y2 * s.2) H⟩

/-- `_add`: the entry, if it is one; a box of another length raises. -/
def add (s : Scored) : Option (Option Parsed) :=
  match s.box with
  | [x1, y1, x2, y2] =>
    let d := entryFor H W s.ci s.sc x1 y1 x2 y2
    some (if d.Kept then some d else none)
  | _ => none

def addAll (ss : List Scored) : Option (List Parsed) := (ss.mapM (add H W)).map List.reduceOption

/-- `zip(boxes, scores, clsids)`. -/
def zipScored (boxes : List (List ℚ)) (scores clsids : List ℚ) : List Scored :=
  (boxes.zip (scores.zip clsids)).map fun (b, sc, ci) => ⟨ci, sc, b⟩

/-- The corners of a box that is given by its centre and its sides. -/
def ofCenter : List ℚ → List ℚ
  | [x, y, w, h] => [x - w / 2, y - h / 2, x + w / 2, y + h / 2]
  | r => r

/-! ### A table -/

/-- The value under a name, whatever its capitals; the last one counts. -/
def field (items : List (List Byte × Value)) (name : List Byte) : Option Value :=
  (items.reverse.find? fun p => decide (lower p.1 = name)).map Prod.snd

/-- `result[bkey]`. -/
def boxesField (items : List (List Byte × Value)) : Option Value :=
  (field items (bytes "boxes")).or <| (field items (bytes "bboxes")).or <|
    (field items (bytes "bbox")).or <| field items (bytes "detections")

/-- `boxes`; `none` where there are none. -/
def boxesOf (v : Value) : Option Mat := v.bind fun a => a.to2d.or (a.reshape 4)

/-- `np.asarray(_).reshape(-1)` of a field, if there is one. -/
def flatField (items : List (List Byte × Value)) (name : List Byte) : Option (Option (List ℚ)) :=
  match field items name with
  | none => some none
  | some v => v.map fun a => some a.data

/-- `cls_mat`, if there are classes. -/
def classField (items : List (List Byte × Value)) : Option (Option Mat) :=
  match field items (bytes "classes") with
  | none => some none
  | some v => (v.bind NdArray.classRows).map some

/-- The boxes of a table with their scores and classes. -/
def tableRows (items : List (List Byte × Value)) (boxes : Mat) : Option (List Scored) := do
  let scores ← flatField items (bytes "scores")
  let labels ← flatField items (bytes "labels")
  let clsMat ← classField items
  let scores := scores.or (clsMat.map fun m => m.rows.map rowMax)
  let clsids := labels.or (clsMat.map fun m => m.rows.map fun r => (rowArgmax r : ℚ))
  let wide := 6 ≤ boxes.cols ∧ (scores = none ∨ clsids = none)
  let scores := if wide then scores.or (some (boxes.col 4)) else scores
  let clsids := if wide then clsids.or (some (boxes.col 5)) else clsids
  return zipScored (if wide then boxes.rows.map (List.take 4) else boxes.rows)
    (scores.getD (boxes.rows.map fun _ => 1)) (clsids.getD (boxes.rows.map fun _ => 0))

/-! ### Heads -/

/-- What an array is taken for. -/
inductive Kind
  | box
  | cls
  | obj
  deriving DecidableEq

def mentions (s : List Byte) (words : List String) : Bool :=
  words.any fun w => decide (bytes w <:+: s)

/-- By the number of columns and the name. -/
def kindOf (name : List Byte) (cols : ℕ) : Option Kind :=
  let lk := lower name
  if cols = 4 ∨ mentions lk ["box", "bbox", "reg"] then some .box
  else if cols = 80 ∨ cols = 84 ∨ cols = 85 ∨ mentions lk ["cls", "class"] then some .cls
  else if cols = 1 ∨ cols = 5 ∨ mentions lk ["obj", "object"] then some .obj
  else none

/-- The arrays of a kind, in the order of the dictionary. -/
def cands (kind : Kind) (items : List (List Byte × Value)) : List Mat :=
  items.filterMap fun p => (p.2.bind NdArray.to2d).filter fun a => kindOf p.1 a.cols = some kind

/-- The product of two arrays, of which one may have a single number. -/
def broadcastMul (s o : List ℚ) : Option (List ℚ) :=
  if s.length = o.length then some (List.zipWith (· * ·) s o)
  else
    match o, s with
    | [c], s => some (s.map (· * c))
    | o, [c] => some (o.map (c * ·))
    | _, _ => none

/-- The scores of the classes, multiplied by the objects if there are any. -/
def headScores (scores : List ℚ) (m : ℕ) (objCands : List Mat) : Option (List ℚ) :=
  if objCands = [] then some scores
  else (Mat.concat objCands).bind fun obj => broadcastMul scores (obj.rows.flatten.take m)

/-- The boxes of heads that are given on their own. -/
def headRows (boxCands clsCands objCands : List Mat) : Option (List Scored) := do
  let boxes ← Mat.concat boxCands
  let clsMat ← Mat.concat clsCands
  let m := min boxes.rows.length clsMat.rows.length
  let rows := boxes.rows.take m
  let clsRows := clsMat.rows.take m
  let clsids := clsRows.map fun r => if 2 ≤ clsMat.cols then (rowArgmax r : ℚ) else 0
  let scores ← headScores (clsRows.map rowMax) m objCands
  return zipScored (rows.map (if boxes.cols = 4 then ofCenter else List.take 4)) scores clsids

/-! ### An array -/

/-- The boxes of an array with a row for each; `none` for an unknown number of columns. -/
def arrayRows (a : Mat) : Option (List Scored) :=
  if a.cols = 85 then
    some (a.rows.map fun r =>
      ⟨rowArgmax (r.drop 5), r.getD 4 0 * rowMax (r.drop 5), ofCenter (r.take 4)⟩)
  else if a.cols = 84 then
    some (a.rows.map fun r => ⟨rowArgmax (r.drop 4), rowMax (r.drop 4), ofCenter (r.take 4)⟩)
  else if a.cols = 6 ∨ a.cols = 7 then
    some (a.rows.map fun r => ⟨pyInt (r.getD 5 0), r.getD 4 0, r.take 4⟩)
  else none

def parseHeads (items : List (List Byte × Value)) : Option (List Parsed) :=
  if cands .box items = [] ∨ cands .cls items = [] then some []
  else (headRows (cands .box items) (cands .cls items) (cands .obj items)).bind (addAll H W)

/-- `_autoparse_detections`; `none` for an exception. -/
def autoparse : Output → Option (List Parsed)
  | .dict items =>
    match (boxesField items).bind boxesOf with
    | some boxes => (tableRows items boxes).bind (addAll H W)
    | none => parseHeads H W items
  | .other v => addAll H W (((v.bind NdArray.to2d).bind arrayRows).getD [])

end Parse

/-! ### The callback -/

/-- An entry as `detections_to_dict` sees it. -/
def Parsed.toDet (d : Parsed) : Det :=
  .dict (some d.classId) (some d.score)
    (some (.ofKeys .x1 .y1 .x2 .y2 ⟨.num d.x1, .num d.y1, .num d.x2, .num d.y2⟩)) none fun _ => none

/-- `result`, from the outputs of the network by their names. The buffer of a single one is taken as
it is. For more, `np` is used before its import in the same function: a `NameError`. -/
def resultOf : List (List Byte × Value) → Option Output
  | [] => some (.dict [])
  | [(_, buffer)] => some (.other buffer)
  | _ => none

/-- The detections of `inference_callback`: those of the handler, if it found any. -/
def detectionsOf (H W : ℕ) (found : List Det) (result : Output) : List Det :=
  match found with
  | [] => ((autoparse H W result).getD []).map Parsed.toDet
  | found => found

/-- The list in the payload; `none` for an exception. -/
def detDicts (labels : List (List Byte)) (H W : ℕ) (found : List Det)
    (outputs : List (List Byte × Value)) : Option (List Reported) :=
  (resultOf outputs).bind fun result =>
    detectionsToDict (some (detectionsOf H W found result)) labels W H (some false)

def Parsed.reported (labels : List (List Byte)) (d : Parsed) : Reported :=
  ⟨labelOf labels d.classId, roundTo 3 d.score, d.x1, d.y1, d.x2, d.y2⟩

/-- `np.asarray` of a list with an array for each class. -/
def asarrayOfClasses : List (List Row) → Value
  | [] => some ⟨[0], [], rfl⟩
  | c :: cs =>
    if h : ∀ d ∈ c :: cs, d.length = c.length then
      some ⟨[cs.length + 1, c.length, 5], (c :: cs).flatten.flatMap List.ofFn, by
        have hrow : ((c :: cs).flatten.map fun det : Row => (List.ofFn det).length) =
            List.replicate (c :: cs).flatten.length 5 := by
          rw [List.eq_replicate_iff]
          refine ⟨List.length_map _, List.forall_mem_map.mpr fun det _ => List.length_ofFn⟩
        have hclass : (c :: cs).map List.length = List.replicate (cs.length + 1) c.length := by
          rw [List.eq_replicate_iff]
          exact ⟨List.length_map _, List.forall_mem_map.mpr h⟩
        rw [List.length_flatMap, hrow, List.sum_replicate, List.length_flatten, hclass,
          List.sum_replicate]
        simp [mul_assoc]⟩
    else none

/-! ### What is found -/

/-- A box that is wider and higher than a pixel in the frame. -/
structure Parsed.Inside (H W : ℕ) (d : Parsed) : Prop where
  x : 0 ≤ d.x1 ∧ d.x1 + 1 < d.x2 ∧ d.x2 < W
  y : 0 ≤ d.y1 ∧ d.y1 + 1 < d.y2 ∧ d.y2 < H
  score : clsThresh ≤ d.score

section Found

variable {H W : ℕ}

theorem roundClip_mem (hW : 0 < W) (q : ℚ) : 0 ≤ roundClip q W ∧ roundClip q W < W := by
  rw [roundClip]
  omega

theorem inside_of_add (hH : 0 < H) (hW : 0 < W) {s : Scored} {d : Parsed}
    (h : add H W s = some (some d)) : d.Inside H W := by
  rw [add] at h
  split at h
  · rename_i x1 y1 x2 y2 hbox
    dsimp only at h
    obtain ⟨hkept, rfl⟩ := Option.ite_some_none_eq_some.mp (Option.some.inj h)
    obtain ⟨hx, hy, hscore⟩ := hkept
    refine ⟨⟨(roundClip_mem hW _).1, ?_, (roundClip_mem hW _).2⟩,
      ⟨(roundClip_mem hH _).1, ?_, (roundClip_mem hH _).2⟩, hscore⟩
    · omega
    · omega
  · cases h

theorem inside_of_mem_addAll (hH : 0 < H) (hW : 0 < W) {ss : List Scored} {ds : List Parsed}
    (h : addAll H W ss = some ds) : ∀ d ∈ ds, d.Inside H W := by
  intro d hd
  obtain ⟨os, hos, rfl⟩ := Option.map_eq_some_iff.mp h
  obtain ⟨s, -, hs⟩ := exists_of_forall₂ (forall₂_of_mapM hos) (List.reduceOption_mem_iff.mp hd)
  exact inside_of_add hH hW hs

/-- **What is found lies in the frame.** -/
theorem mem_autoparse (hH : 0 < H) (hW : 0 < W) {out : Output} {ds : List Parsed}
    (h : autoparse H W out = some ds) : ∀ d ∈ ds, d.Inside H W := by
  have hempty : ∀ {ds : List Parsed}, some [] = some ds → ∀ d ∈ ds, d.Inside H W := by
    rintro _ h
    rw [← Option.some.inj h]
    exact List.forall_mem_nil _
  have hrows : ∀ {o : Option (List Scored)}, o.bind (addAll H W) = some ds →
      ∀ d ∈ ds, d.Inside H W := by
    intro o ho
    obtain ⟨ss, -, hss⟩ := Option.bind_eq_some_iff.mp ho
    exact inside_of_mem_addAll hH hW hss
  cases out with
  | other v => exact inside_of_mem_addAll hH hW h
  | dict items =>
    rw [autoparse] at h
    split at h
    · exact hrows h
    · rw [parseHeads] at h
      split at h
      · exact hempty h
      · exact hrows h

end Found

/-! ### Layouts -/

/-- A row with the corners of a box. -/
structure Plain where
  x1 : ℚ
  y1 : ℚ
  x2 : ℚ
  y2 : ℚ
  score : ℚ
  cls : ℚ

def Plain.corners (p : Plain) : List ℚ := [p.x1, p.y1, p.x2, p.y2]

def Plain.row (p : Plain) : List ℚ := p.corners ++ [p.score, p.cls]

/-- The entry for a row, if there is one. -/
def Plain.entry? (H W : ℕ) (p : Plain) : Option Parsed :=
  (some (entryFor H W p.cls p.score p.x1 p.y1 p.x2 p.y2)).filter fun d => decide d.Kept

/-- The rows in a layout of their own. -/
inductive Written (rows : List Plain) : Output → Prop
  /-- An array, which may have a seventh column. -/
  | array {a : NdArray} {m : Mat} (h2d : a.to2d = some m) (hcols : m.cols = 6 ∨ m.cols = 7)
    (hrows : m.rows.map (List.take 6) = rows.map Plain.row) : Written rows (.other (some a))
  /-- An array in a dictionary that has neither scores nor classes. -/
  | table {items : List (List Byte × Value)} {a : NdArray} {m : Mat}
    (hboxes : boxesField items = some (some a)) (h2d : a.to2d = some m) (hcols : 6 ≤ m.cols)
    (hrows : m.rows.map (List.take 6) = rows.map Plain.row)
    (hscores : field items (bytes "scores") = none)
    (hlabels : field items (bytes "labels") = none)
    (hclasses : field items (bytes "classes") = none) : Written rows (.dict items)
  /-- A dictionary with the corners, the scores and the classes. -/
  | columns {items : List (List Byte × Value)} {a s l : NdArray} {m : Mat}
    (hboxes : boxesField items = some (some a)) (h2d : a.to2d = some m)
    (hrows : m.rows = rows.map Plain.corners)
    (hscores : field items (bytes "scores") = some (some s)) (hs : s.data = rows.map Plain.score)
    (hlabels : field items (bytes "labels") = some (some l)) (hl : l.data = rows.map Plain.cls)
    (hclasses : (classField items).isSome) : Written rows (.dict items)

/-- A row of a network that gives the centre of a box, its sides and a score for each class. -/
structure YoloRow where
  x : ℚ
  y : ℚ
  w : ℚ
  h : ℚ
  obj : ℚ
  classes : List ℚ
  length_classes : classes.length = 80

def YoloRow.box (r : YoloRow) : List ℚ := [r.x, r.y, r.w, r.h]

/-- The row with its corners, the best of its classes and the score of that. -/
def YoloRow.plain (r : YoloRow) : Plain :=
  ⟨r.x - r.w / 2, r.y - r.h / 2, r.x + r.w / 2, r.y + r.h / 2, r.obj * rowMax r.classes,
    rowArgmax r.classes⟩

/-- The arrays have a number of columns and these rows. -/
def Holds (ms : List Mat) (cols : ℕ) (rows : List (List (List ℚ))) : Prop :=
  (∀ m ∈ ms, m.cols = cols) ∧ ms.map Mat.rows = rows

/-- The rows in a layout of a network. -/
inductive WrittenYolo (rows : List YoloRow) : Output → Prop
  | array85 {a : NdArray} {m : Mat} (h2d : a.to2d = some m) (hcols : m.cols = 85)
    (hrows : m.rows = rows.map fun r => r.box ++ r.obj :: r.classes) :
    WrittenYolo rows (.other (some a))
  | array84 {a : NdArray} {m : Mat} (h2d : a.to2d = some m) (hcols : m.cols = 84)
    (hrows : m.rows = rows.map fun r => r.box ++ r.classes) (hobj : ∀ r ∈ rows, r.obj = 1) :
    WrittenYolo rows (.other (some a))
  /-- The scales one by one, and the boxes, the classes and the objects of each on their own. -/
  | heads {items : List (List Byte × Value)} {scales : List (List YoloRow)}
    (hscales : scales.flatten = rows) (hne : scales ≠ []) (hboxes : boxesField items = none)
    (hbox : Holds (cands .box items) 4 (scales.map (List.map YoloRow.box)))
    (hcls : Holds (cands .cls items) 80 (scales.map (List.map YoloRow.classes)))
    (hobj : Holds (cands .obj items) 1 (scales.map (List.map fun r => [r.obj])) ∨
      cands .obj items = [] ∧ ∀ r ∈ rows, r.obj = 1) : WrittenYolo rows (.dict items)

section Layouts

variable {H W : ℕ}

/-- Boxes of four coordinates do not raise. -/
theorem addAll_map {α : Type*} (H W : ℕ) {f : α → Scored} {g : α → Option Parsed} {xs : List α}
    (h : ∀ x ∈ xs, add H W (f x) = some (g x)) :
    addAll H W (xs.map f) = some (xs.filterMap g) := by
  have hmapM : (xs.map f).mapM (add H W) = some (xs.map g) := by
    induction xs with
    | nil => rfl
    | cons x xs ih =>
      obtain ⟨hx, hxs⟩ := List.forall_mem_cons.mp h
      rw [List.map_cons, List.mapM_cons, hx, ih hxs]
      rfl
  rw [addAll, hmapM, Option.map_some, List.reduceOption, List.filterMap_map]
  rfl

theorem add_corners (H W : ℕ) (p : Plain) (ci : ℚ) (hci : pyInt ci = pyInt p.cls) :
    add H W ⟨ci, p.score, p.corners⟩ = some (p.entry? H W) := by
  have hentry : entryFor H W ci p.score p.x1 p.y1 p.x2 p.y2 =
      entryFor H W p.cls p.score p.x1 p.y1 p.x2 p.y2 := by
    rw [entryFor, entryFor, hci]
  rw [Plain.entry?, Option.filter_some, ← hentry]
  simp only [decide_eq_true_eq]
  rfl

theorem zipScored_map {α : Type*} (f : α → List ℚ) (g h : α → ℚ) (xs : List α) :
    zipScored (xs.map f) (xs.map g) (xs.map h) = xs.map fun x => ⟨h x, g x, f x⟩ := by
  rw [zipScored, List.zip_map', List.zip_map', List.map_map]
  rfl

/-- The numbers of a row are in its first six columns. -/
theorem map_scored {rows : List Plain} {rs : List (List ℚ)}
    (h : rs.map (List.take 6) = rows.map Plain.row) (c : ℚ → ℚ) :
    rs.map (fun r => (⟨c (r.getD 5 0), r.getD 4 0, r.take 4⟩ : Scored)) =
      rows.map fun p => ⟨c p.cls, p.score, p.corners⟩ := by
  have hfirst : ∀ r : List ℚ, (⟨c (r.getD 5 0), r.getD 4 0, r.take 4⟩ : Scored) =
      ⟨c ((r.take 6).getD 5 0), (r.take 6).getD 4 0, (r.take 6).take 4⟩ := by
    intro r
    rw [List.take_take, List.getD_eq_getElem?_getD, List.getD_eq_getElem?_getD,
      List.getD_eq_getElem?_getD, List.getD_eq_getElem?_getD, List.getElem?_take_of_lt (by decide),
      List.getElem?_take_of_lt (by decide)]
    rfl
  have hrow := congrArg (List.map fun r : List ℚ =>
    (⟨c (r.getD 5 0), r.getD 4 0, r.take 4⟩ : Scored)) h
  rw [List.map_map, List.map_map] at hrow
  rw [List.map_congr_left fun r _ => hfirst r]
  exact hrow

theorem addAll_plain (H W : ℕ) (rows : List Plain) (c : ℚ → ℚ) (hc : ∀ x, pyInt (c x) = pyInt x) :
    addAll H W (rows.map fun p => ⟨c p.cls, p.score, p.corners⟩) =
      some (rows.filterMap (Plain.entry? H W)) :=
  addAll_map H W fun p _ => add_corners H W p _ (hc p.cls)

theorem autoparse_array {a : NdArray} {m : Mat} {ss : List Scored} (h2d : a.to2d = some m)
    (hrows : arrayRows m = some ss) : autoparse H W (.other (some a)) = addAll H W ss := by
  rw [autoparse, Option.bind_some, h2d, Option.bind_some, hrows, Option.getD_some]

theorem boxes_of_to2d {items : List (List Byte × Value)} {a : NdArray} {m : Mat}
    (hboxes : boxesField items = some (some a)) (h2d : a.to2d = some m) :
    (boxesField items).bind boxesOf = some m := by
  rw [hboxes, Option.bind_some, boxesOf, Option.bind_some, h2d, Option.some_or]

theorem autoparse_of_written {rows : List Plain} {out : Output} (h : Written rows out) :
    autoparse H W out = some (rows.filterMap (Plain.entry? H W)) := by
  cases h with
  | array h2d hcols hrows =>
    rename_i a m
    have hrows' : arrayRows m = some (rows.map fun p => ⟨pyInt p.cls, p.score, p.corners⟩) := by
      rw [arrayRows, if_neg (by omega), if_neg (by omega), if_pos hcols]
      exact congrArg some (map_scored hrows fun x => pyInt x)
    rw [autoparse_array h2d hrows']
    exact addAll_plain H W rows (fun x => pyInt x) fun x => Vision.pyInt_intCast _
  | table hboxes h2d hcols hrows hscores hlabels hclasses =>
    rename_i items a m
    have htable : tableRows items m = some (rows.map fun p => ⟨p.cls, p.score, p.corners⟩) := by
      rw [tableRows, flatField, flatField, classField, hscores, hlabels, hclasses]
      simp only [Option.bind_eq_bind, Option.bind_some, Option.map_none, Option.or_none, true_or,
        hcols, and_true, if_true, Option.none_or, Option.getD_some, Mat.col, zipScored_map]
      exact congrArg some (map_scored hrows id)
    rw [autoparse, boxes_of_to2d hboxes h2d]
    dsimp only
    rw [htable]
    exact addAll_plain H W rows id fun _ => rfl
  | columns hboxes h2d hrows hscores hs hlabels hl hclasses =>
    rename_i items a s l m
    obtain ⟨c, hc⟩ := Option.isSome_iff_exists.mp hclasses
    have htable : tableRows items m = some (rows.map fun p => ⟨p.cls, p.score, p.corners⟩) := by
      rw [tableRows, flatField, flatField, hscores, hlabels, hc]
      simp only [Option.bind_eq_bind, Option.bind_some, Option.map_some, Option.some_or,
        reduceCtorEq, or_false, and_false, if_false, Option.getD_some, hs, hl, hrows, zipScored_map]
      rfl
    rw [autoparse, boxes_of_to2d hboxes h2d]
    dsimp only
    rw [htable]
    exact addAll_plain H W rows id fun _ => rfl

theorem Holds.concat {α : Type*} {ms : List Mat} {cols : ℕ} {scales : List (List α)}
    {f : α → List ℚ} (h : Holds ms cols (scales.map (List.map f))) (hne : scales ≠ []) :
    ∃ m, Mat.concat ms = some m ∧ m.cols = cols ∧ m.rows = scales.flatten.map f := by
  obtain ⟨hcols, hrows⟩ := h
  have hflat : ms.flatMap Mat.rows = scales.flatten.map f := by
    rw [List.flatMap_def, hrows, List.map_flatten]
  cases ms with
  | nil => exact absurd (List.map_eq_nil_iff.mp hrows.symm) hne
  | cons m ms =>
    obtain ⟨hm, hms⟩ := List.forall_mem_cons.mp hcols
    have hsame : ∀ m' ∈ ms, m'.cols = m.cols := fun m' hm' => (hms m' hm').trans hm.symm
    exact ⟨_, dif_pos hsame, hm, hflat⟩

theorem Holds.ne_nil {ms : List Mat} {cols : ℕ} {rows : List (List (List ℚ))}
    (h : Holds ms cols rows) (hne : rows ≠ []) : ms ≠ [] := by
  rintro rfl
  exact hne h.2.symm

theorem headScores_of_holds {objCands : List Mat} {scales : List (List YoloRow)} (hne : scales ≠ [])
    (hobj : Holds objCands 1 (scales.map (List.map fun r => [r.obj])) ∨
      objCands = [] ∧ ∀ r ∈ scales.flatten, r.obj = 1) :
    headScores (scales.flatten.map fun r => rowMax r.classes) scales.flatten.length objCands =
      some (scales.flatten.map fun r => r.plain.score) := by
  rcases hobj with hobj | ⟨hnil, hone⟩
  · obtain ⟨obj, hobjMat, -, hobjRows⟩ := hobj.concat hne
    have hflat : obj.rows.flatten.take scales.flatten.length = scales.flatten.map YoloRow.obj := by
      rw [hobjRows, ← List.flatMap_def, ← List.map_eq_flatMap]
      exact List.take_of_length_le (List.length_map _).le
    have hlen : (scales.flatten.map fun r => rowMax r.classes).length =
        (scales.flatten.map YoloRow.obj).length := by
      rw [List.length_map, List.length_map]
    rw [headScores, if_neg (hobj.ne_nil (mt List.map_eq_nil_iff.mp hne)), hobjMat,
      Option.bind_some, hflat]
    unfold broadcastMul
    rw [if_pos hlen, List.zipWith_map, List.zipWith_self]
    exact congrArg some (List.map_congr_left fun r _ => mul_comm _ _)
  · rw [headScores, if_pos hnil]
    refine congrArg some (List.map_congr_left fun r hr => ?_)
    change _ = r.obj * rowMax r.classes
    rw [hone r hr, one_mul]

theorem headRows_of_holds {boxCands clsCands objCands : List Mat} {scales : List (List YoloRow)}
    (hne : scales ≠ []) (hbox : Holds boxCands 4 (scales.map (List.map YoloRow.box)))
    (hcls : Holds clsCands 80 (scales.map (List.map YoloRow.classes)))
    (hobj : Holds objCands 1 (scales.map (List.map fun r => [r.obj])) ∨
      objCands = [] ∧ ∀ r ∈ scales.flatten, r.obj = 1) :
    headRows boxCands clsCands objCands = some (scales.flatten.map fun r =>
      ⟨r.plain.cls, r.plain.score, r.plain.corners⟩) := by
  obtain ⟨boxes, hboxes, hboxCols, hboxRows⟩ := hbox.concat hne
  obtain ⟨clsMat, hclsMat, hclsCols, hclsRows⟩ := hcls.concat hne
  have hm : min boxes.rows.length clsMat.rows.length = scales.flatten.length := by
    rw [hboxRows, hclsRows, List.length_map, List.length_map, min_self]
  have htake : ∀ f : YoloRow → List ℚ,
      (scales.flatten.map f).take scales.flatten.length = scales.flatten.map f := by
    intro f
    exact List.take_of_length_le (List.length_map f).le
  rw [headRows, hboxes, hclsMat]
  simp only [Option.bind_eq_bind, Option.bind_some]
  rw [hm, hboxRows, hclsRows, htake, htake, hboxCols, hclsCols, List.map_map, List.map_map]
  have hscores := headScores_of_holds hne hobj
  rw [Function.comp_def, hscores, Option.bind_some, if_pos rfl, List.map_map]
  exact congrArg some (zipScored_map _ _ _ _)

theorem arrayRows_of_eighty_five {m : Mat} {rows : List YoloRow} (hcols : m.cols = 85)
    (hrows : m.rows = rows.map fun r => r.box ++ r.obj :: r.classes) :
    arrayRows m = some (rows.map fun r => ⟨r.plain.cls, r.plain.score, r.plain.corners⟩) := by
  rw [arrayRows, if_pos hcols, hrows, List.map_map]
  rfl

theorem arrayRows_of_eighty_four {m : Mat} {rows : List YoloRow} (hcols : m.cols = 84)
    (hrows : m.rows = rows.map fun r => r.box ++ r.classes) (hobj : ∀ r ∈ rows, r.obj = 1) :
    arrayRows m = some (rows.map fun r => ⟨r.plain.cls, r.plain.score, r.plain.corners⟩) := by
  rw [arrayRows, if_neg (by omega), if_pos hcols, hrows, List.map_map]
  refine congrArg some (List.map_congr_left fun r hr => ?_)
  have hscore : r.plain.score = rowMax r.classes := by
    change r.obj * rowMax r.classes = _
    rw [hobj r hr, one_mul]
  rw [hscore]
  rfl

theorem addAll_yolo (H W : ℕ) (rows : List YoloRow) :
    addAll H W (rows.map fun r => ⟨r.plain.cls, r.plain.score, r.plain.corners⟩) =
      some ((rows.map YoloRow.plain).filterMap (Plain.entry? H W)) := by
  rw [← addAll_plain H W _ id fun _ => rfl, List.map_map]
  rfl

theorem autoparse_of_writtenYolo {rows : List YoloRow} {out : Output} (h : WrittenYolo rows out) :
    autoparse H W out = some ((rows.map YoloRow.plain).filterMap (Plain.entry? H W)) := by
  cases h with
  | array85 h2d hcols hrows =>
    rw [autoparse_array h2d (arrayRows_of_eighty_five hcols hrows)]
    exact addAll_yolo H W rows
  | array84 h2d hcols hrows hobj =>
    rw [autoparse_array h2d (arrayRows_of_eighty_four hcols hrows hobj)]
    exact addAll_yolo H W rows
  | heads hscales hne hboxes hbox hcls hobj =>
    rename_i items scales
    subst hscales
    have hmap : ∀ f : YoloRow → List ℚ, scales.map (List.map f) ≠ [] :=
      fun _ => mt List.map_eq_nil_iff.mp hne
    rw [autoparse, hboxes, Option.bind_none]
    dsimp only
    rw [parseHeads, if_neg (by simp only [hbox.ne_nil (hmap _), hcls.ne_nil (hmap _), or_self,
      not_false_eq_true]), headRows_of_holds hne hbox hcls hobj, Option.bind_some]
    exact addAll_yolo H W _

theorem NdArray.cols_of_to2d {a : NdArray} {m : Mat} (h : a.to2d = some m) :
    m.cols = a.shape.getLastD 0 := by
  rw [NdArray.to2d] at h
  split at h
  · obtain ⟨_, hm⟩ := Option.dite_none_right_eq_some.mp h
    exact Option.some.inj hm ▸ rfl
  · cases h

/-- A list with an array for each class has five columns, which are not looked at. -/
theorem autoparse_classes (H W : ℕ) (cs : List (List Row)) :
    autoparse H W (.other (asarrayOfClasses cs)) = some [] := by
  have hrows : ((asarrayOfClasses cs).bind NdArray.to2d).bind arrayRows = none := by
    refine Option.bind_eq_none_iff.mpr fun m hm => ?_
    obtain ⟨a, ha, hm⟩ := Option.bind_eq_some_iff.mp hm
    have hcols : m.cols = 5 := by
      rw [NdArray.cols_of_to2d hm]
      cases cs with
      | nil =>
        obtain rfl := Option.some.inj ha
        cases hm
      | cons c cs =>
        obtain ⟨_, ha⟩ := Option.dite_none_right_eq_some.mp ha
        exact Option.some.inj ha ▸ rfl
    simp [arrayRows, hcols]
  rw [autoparse, hrows]
  rfl

/-- An exception counts as nothing found. -/
theorem inside_of_mem_autoparse (hH : 0 < H) (hW : 0 < W) (result : Output) :
    ∀ d ∈ (autoparse H W result).getD [], d.Inside H W := by
  cases hds : autoparse H W result with
  | none => exact List.forall_mem_nil _
  | some ds => exact mem_autoparse hH hW hds

/-- What is reported of a frame in which the handler found nothing. -/
theorem detectionsToDict_nil (hH : 0 < H) (hW : 0 < W) (labels : List (List Byte))
    (result : Output) :
    detectionsToDict (some (detectionsOf H W [] result)) labels W H (some false) =
      some (((autoparse H W result).getD []).map (Parsed.reported labels)) := by
  have hinside := inside_of_mem_autoparse hH hW result
  have hbox : ∀ d ∈ (autoparse H W result).getD [],
      toPixelXyxy (orZeros d.toDet.found) W H (some false) = some ⟨d.x1, d.y1, d.x2, d.y2⟩ := by
    intro d hd
    have hx := (hinside d hd).x
    have hy := (hinside d hd).y
    exact Inference.toPixelXyxy_ofKeys (by omega) (by omega)
  rw [detectionsOf, Inference.detectionsToDict_of_forall hbox]
  refine congrArg some (List.map_congr_left fun d _ => ?_)
  have hclass : pyInt d.toDet.classId = d.classId := Vision.pyInt_intCast d.classId
  rw [hclass]
  rfl

/-- Only one output, or none, is looked at. -/
theorem resultOf_eq_none_iff {outputs : List (List Byte × Value)} :
    resultOf outputs = none ↔ 2 ≤ outputs.length := by
  match outputs with
  | [] => exact iff_of_false nofun (Nat.not_le.mpr Nat.two_pos)
  | [_] => exact iff_of_false nofun (Nat.not_le.mpr Nat.one_lt_two)
  | _ :: _ :: outputs => exact iff_of_true rfl (Nat.le_add_left 2 outputs.length)

/-- The report on a network with a single output. -/
theorem detDicts_single (hH : 0 < H) (hW : 0 < W) (labels : List (List Byte)) (name : List Byte)
    {v : Value} {ds : List Parsed} (h : autoparse H W (.other v) = some ds) :
    detDicts labels H W [] [(name, v)] = some (ds.map (Parsed.reported labels)) := by
  rw [detDicts, resultOf, Option.bind_some, detectionsToDict_nil hH hW, h, Option.getD_some]

/-- **What is reported** where the handler finds nothing. For two or more outputs an exception
leaves the callback, whatever the handler finds; otherwise what is reported lies in the frame.
`autoparse` finds the same in rows of any layout: those whose boxes are wider and higher than a
pixel and whose scores are not too small, in order. So arrays with the same rows give the same
report. A list with an array for each class gives nothing more than the handler. -/
theorem detDicts_layouts (hH : 0 < H) (hW : 0 < W) (labels : List (List Byte)) :
    (∀ outputs, 2 ≤ outputs.length → ∀ found, detDicts labels H W found outputs = none) ∧
      (∀ outputs, outputs.length < 2 → ∃ ds : List Parsed,
        detDicts labels H W [] outputs = some (ds.map (Parsed.reported labels)) ∧
          ∀ d ∈ ds, d.Inside H W) ∧
      (∀ rows result, Written rows result →
        autoparse H W result = some (rows.filterMap (Plain.entry? H W))) ∧
      (∀ rows result, WrittenYolo rows result →
        autoparse H W result = some ((rows.map YoloRow.plain).filterMap (Plain.entry? H W))) ∧
      (∀ name v rows, Written rows (.other v) → detDicts labels H W [] [(name, v)] =
        some ((rows.filterMap (Plain.entry? H W)).map (Parsed.reported labels))) ∧
      (∀ name v rows, WrittenYolo rows (.other v) → detDicts labels H W [] [(name, v)] =
        some (((rows.map YoloRow.plain).filterMap (Plain.entry? H W)).map
          (Parsed.reported labels))) ∧
      ∀ name found cs, detDicts labels H W found [(name, asarrayOfClasses cs)] =
        detectionsToDict (some found) labels W H (some false) := by
  refine ⟨fun outputs h found => ?_, fun outputs h => ?_, fun rows result h => ?_,
    fun rows result h => ?_, fun name v rows h => ?_, fun name v rows h => ?_,
    fun name found cs => ?_⟩
  · rw [detDicts, resultOf_eq_none_iff.mpr h, Option.bind_none]
  · obtain ⟨result, hresult⟩ := Option.ne_none_iff_exists'.mp
      fun hnone => Nat.not_lt.mpr (resultOf_eq_none_iff.mp hnone) h
    refine ⟨(autoparse H W result).getD [], ?_, inside_of_mem_autoparse hH hW result⟩
    rw [detDicts, hresult, Option.bind_some, detectionsToDict_nil hH hW]
  · exact autoparse_of_written h
  · exact autoparse_of_writtenYolo h
  · exact detDicts_single hH hW labels name (autoparse_of_written h)
  · exact detDicts_single hH hW labels name (autoparse_of_writtenYolo h)
  · cases found with
    | nil =>
      rw [detDicts_single hH hW labels name (autoparse_classes H W cs)]
      rfl
    | cons d found => rfl

end Layouts

/-- A box in the upper left of the frame. -/
def plainExample : Plain := ⟨0, 0, 1 / 2, 1 / 2, 3 / 4, 2⟩

/-- The same box by its centre. -/
def yoloExample : YoloRow :=
  ⟨1 / 4, 1 / 4, 1 / 2, 1 / 2, 3 / 4, [0, 0, 1] ++ List.replicate 77 0, by decide⟩

def arrayExample : Value := some ⟨[1, 1, 6], plainExample.row, rfl⟩

def columnsExample : Output :=
  .dict [(bytes "Boxes", some ⟨[1, 4], plainExample.corners, rfl⟩),
    (bytes "scores", some ⟨[1], [3 / 4], rfl⟩), (bytes "labels", some ⟨[1], [2], rfl⟩)]

def headsExample : Output :=
  .dict [(bytes "conv_obj", some ⟨[1, 1], [3 / 4], rfl⟩),
    (bytes "conv_cls", some ⟨[1, 80], yoloExample.classes, by decide⟩),
    (bytes "conv_reg", some ⟨[1, 4], yoloExample.box, rfl⟩)]

theorem arrayExample_written : Written [plainExample] (.other arrayExample) :=
  .array (m := ⟨6, [plainExample.row], by decide⟩) rfl (.inl rfl) rfl

theorem columnsExample_written : Written [plainExample] columnsExample :=
  .columns (a := ⟨[1, 4], plainExample.corners, rfl⟩) (s := ⟨[1], [3 / 4], rfl⟩)
    (l := ⟨[1], [2], rfl⟩) (m := ⟨4, [plainExample.corners], by decide⟩) rfl rfl rfl rfl rfl rfl rfl
    (by decide)

theorem headsExample_writtenYolo : WrittenYolo [yoloExample] headsExample := by
  refine @WrittenYolo.heads _ _ [[yoloExample]] rfl (List.cons_ne_nil _ _) rfl ⟨?_, rfl⟩
    ⟨?_, rfl⟩ (.inl ⟨?_, rfl⟩)
  · decide +kernel
  · decide +kernel
  · decide +kernel

theorem detDicts_layouts_witness :
    let reported : List Reported := [⟨bytes "person", 3 / 4, 0, 0, 320, 240⟩]
    let labels := [bytes "car", bytes "dog", bytes "person"]
    let box : Parsed := ⟨2, 3 / 4, 0, 0, 320, 240⟩
    detDicts labels 480 640 [] [(bytes "conv", arrayExample)] = some reported ∧
      autoparse 480 640 columnsExample = some [box] ∧
      autoparse 480 640 headsExample = some [box] ∧
      detDicts labels 480 640 [] [(bytes "nms", asarrayOfClasses [[], []])] = some [] := by
  intro reported labels box
  obtain ⟨-, -, hplain, hyolo, harray, -, hclasses⟩ :=
    detDicts_layouts (H := 480) (W := 640) (by decide) (by decide) labels
  have hfound : [plainExample].filterMap (Plain.entry? 480 640) = [box] := by decide +kernel
  have hyoloFound : ([yoloExample].map YoloRow.plain).filterMap (Plain.entry? 480 640) = [box] := by
    decide +kernel
  have hreported : [box].map (Parsed.reported labels) = reported := by decide +kernel
  refine ⟨?_, (hplain _ _ columnsExample_written).trans (congrArg some hfound),
    (hyolo _ _ headsExample_writtenYolo).trans (congrArg some hyoloFound),
    hclasses _ [] [[], []]⟩
  rw [harray _ _ _ arrayExample_written, hfound, hreported]

end ObjectDetectionFin

end DroneTurret
