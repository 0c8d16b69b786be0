import DroneTurret.Lib.Significand
import DroneTurret.ObjectDetectionFin.Handler
import Mathlib.Data.List.Forall2

/-!
# Boxes that are drawn and boxes that are reported

The same result is drawn by the visualizer and listed for everything else. The two do not read it
alike. A row starts with `ymin`, and drawing reads it so, while the list takes the first coordinate
for `x1`. Before it draws, the visualizer unwraps a list with a single class, and then the rows are
taken for classes; and drawing needs a label for every class.

## Main definitions

* `best` — the rows that both answers are about
* `vizCallback` — what the visualizer calls
* `SameCorners` — the rectangles that are drawn have the corners that are listed
* `Diagonal` — a box between two points of the diagonal

## Main results

* `sameCorners_iff` — when the two agree
-/

namespace DroneTurret

namespace ObjectDetectionFin

open Vision PostProcess Decimal

/-- A box strictly inside the frame whose sides exceed a pixel, with a positive score. -/
structure Visible (f : Frame) (det : Row) : Prop where
  score : 0 < det.score
  min : 0 < f.ymin det ∧ 0 < f.xmin det
  max : f.ymax det < f.height ∧ f.xmax det < f.width
  sides : 1 < f.ymax det - f.ymin det ∧ 1 < f.xmax det - f.xmin det

/-- A box between two points of the diagonal. -/
def Diagonal (f : Frame) (det : Row) : Prop :=
  f.ymin det = f.xmin det ∧ f.ymax det = f.xmax det

instance (f : Frame) (det : Row) : Decidable (Diagonal f det) := inferInstanceAs (Decidable (_ ∧ _))

section Callback

variable (f : Frame) (cfg : VisualizationParams) (labels : List String)

/-- The rows with a sufficient score and their classes. -/
def candidates (classId : ℕ) : List (List Row) → List (ℕ × Row)
  | [] => []
  | rows :: cs =>
    (rows.filter fun det => decide (cfg.threshold ≤ det.score)).map (Prod.mk classId) ++
      candidates (classId + 1) cs

/-- The best of them, as many as are drawn. -/
def best (cs : List (List Row)) : List (ℕ × Row) :=
  pySlice ((candidates cfg 0 cs).mergeSort fun a b => decide (b.2.score ≤ a.2.score)) cfg.maxBoxes

/-- The callback of the script, without a tracker for the objects. -/
def vizCallback {Extra : Type} (frame : Frame) (infer : Results) (_ : Option Extra) :
    Option (List Drawing) :=
  match (inferenceResultHandler frame cfg labels false infer).1 with
  | some (.frame drawn) => some drawn
  | _ => none

/-- The visualizer of the script. A frame is represented by what is drawn on it, and text is no
rectangle. -/
def viewer (Extra : Type) (cap saveStreamOutput tracker : Bool) :
    Viewer Frame (List Row) Extra (List Drawing) :=
  ⟨vizCallback cfg labels, fun drawn _ => drawn, cap, saveStreamOutput, tracker⟩

def Drawing.corners (d : Drawing) : ℤ × ℤ × ℤ × ℤ := (d.xmin, d.ymin, d.xmax, d.ymax)

def Detection.corners (d : Detection) : ℤ × ℤ × ℤ × ℤ := (d.x1, d.y1, d.x2, d.y2)

/-- The visualizer draws rectangles, and their corners are those of the detections in the list. -/
def SameCorners (cs : List (List Row)) : Prop :=
  ∀ (Extra : Type) (rest : List Extra) (cap saveStreamOutput tracker : Bool), ∃ drawn ds,
    (viewer cfg labels Extra cap saveStreamOutput tracker).frameWithDetections
        ⟨f, .list cs, rest⟩ = some drawn ∧
      (inferenceResultHandler f cfg labels true (.list cs)).1 = some (.detections ds) ∧
      drawn.map Drawing.corners = ds.map Detection.corners

end Callback

/-! ### The rows behind an answer -/

section Rows

variable {f : Frame} {cfg : VisualizationParams} {labels : List String}

/-- The entry for a row. -/
def entryOf (f : Frame) (a : ℕ × Row) : Entry := ⟨a.2.score, a.1, view (denormalizeAndRmPad f a.2)⟩

theorem entryOf_box (a : ℕ × Row) :
    (entryOf f a).box 0 = f.ymin a.2 ∧ (entryOf f a).box 1 = f.xmin a.2 ∧
      (entryOf f a).box 2 = f.ymax a.2 ∧ (entryOf f a).box 3 = f.xmax a.2 :=
  ⟨denormalizeAndRmPad_castSucc a.2 0, denormalizeAndRmPad_castSucc a.2 1,
    denormalizeAndRmPad_castSucc a.2 2, denormalizeAndRmPad_castSucc a.2 3⟩

theorem fst_extractClass (classId : ℕ) (rows : List Row) :
    (extractClass f cfg classId rows).1 =
      ((rows.filter fun det => decide (cfg.threshold ≤ det.score)).map (Prod.mk classId)).map
        (entryOf f) := by
  induction rows with
  | nil => rfl
  | cons det rows ih =>
    rw [extractClass, List.filter_cons]
    by_cases h : cfg.threshold ≤ det.score
    · rw [if_pos h, if_pos (decide_eq_true h), ih]
      rfl
    · rw [if_neg h, if_neg (fun hd => h (of_decide_eq_true hd)), ih]

theorem fst_extractClasses (classId : ℕ) (cs : List (List Row)) :
    (extractClasses f cfg classId cs).1 = (candidates cfg classId cs).map (entryOf f) := by
  induction cs generalizing classId with
  | nil => rfl
  | cons rows cs ih => rw [extractClasses, candidates, List.map_append, fst_extractClass, ih]

/-- Sorting and cutting off go by the scores, which the rows have too. -/
theorem topDetections_eq (cs : List (List Row)) :
    topDetections cfg (extractClasses f cfg 0 cs).1 = (best cfg cs).map (entryOf f) := by
  rw [topDetections, fst_extractClasses, best, ← pySlice_map, List.map_mergeSort]
  exact fun _ _ _ _ => rfl

theorem fst_extractDetections (cs : List (List Row)) :
    (extractDetections f cfg (.list cs)).1 =
      some (toDetections ((best cfg cs).map (entryOf f))) := by
  rw [← topDetections_eq]
  rfl

theorem exists_of_mem_candidates {classId : ℕ} {cs : List (List Row)} {a : ℕ × Row}
    (h : a ∈ candidates cfg classId cs) : ∃ rows ∈ cs, a.2 ∈ rows ∧ cfg.threshold ≤ a.2.score := by
  induction cs generalizing classId with
  | nil => cases h
  | cons rows cs ih =>
    rcases List.mem_append.mp h with h | h
    · obtain ⟨det, hdet, rfl⟩ := List.mem_map.mp h
      obtain ⟨hmem, hscore⟩ := List.mem_filter.mp hdet
      exact ⟨rows, List.mem_cons_self, hmem, of_decide_eq_true hscore⟩
    · obtain ⟨rows', hrows, hrow⟩ := ih h
      exact ⟨rows', List.mem_cons_of_mem _ hrows, hrow⟩

/-- The best rows are rows of the result with a sufficient score. -/
theorem exists_of_mem_best {cs : List (List Row)} {a : ℕ × Row} (h : a ∈ best cfg cs) :
    ∃ rows ∈ cs, a.2 ∈ rows ∧ cfg.threshold ≤ a.2.score :=
  exists_of_mem_candidates ((List.mergeSort_perm _ _).mem_iff.mp (mem_of_mem_pySlice h))

/-- The loops over the three lists of the dictionary run over the rows. -/
theorem zip_toDetections (as : List (ℕ × Row)) :
    let d := toDetections (as.map (entryOf f))
    d.boxes.zip (d.classes.zip d.scores) =
      as.map fun a => ((entryOf f a).box, a.1, a.2.score) := by
  simp only [toDetections, List.map_map, List.zip_map']
  rfl

/-! ### The two readings of a row -/

theorem roundClip_intCast (p : ℤ) (n : ℕ) : roundClip p n = min (max p 0) (n - 1) := by
  rw [roundClip, Significand.roundHalfEven_intCast]

/-- The rectangle for a row. -/
theorem corners_drawDetection (a : ℕ × Row) (label : String) (percent : ℚ) :
    (drawDetection (entryOf f a).box label percent).corners =
      (f.xmin a.2, f.ymin a.2, f.xmax a.2, f.ymax a.2) := by
  obtain ⟨h0, h1, h2, h3⟩ := entryOf_box (f := f) a
  simp only [drawDetection, Drawing.corners, h0, h1, h2, h3, pyInt_intCast]

/-- The entry of the list for a row. -/
theorem corners_toDetection (a : ℕ × Row) :
    (toDetection f 1 1 (entryOf f a).box a.1 (a.2.score)).corners =
      (min (max (f.ymin a.2) 0) (f.width - 1), min (max (f.xmin a.2) 0) (f.height - 1),
        min (max (f.ymax a.2) 0) (f.width - 1), min (max (f.xmax a.2) 0) (f.height - 1)) := by
  obtain ⟨h0, h1, h2, h3⟩ := entryOf_box (f := f) a
  simp only [toDetection, Detection.corners, h0, h1, h2, h3, mul_one, roundClip_intCast]

/-- A row that is visible is read alike, and kept, if and only if it is on the diagonal. -/
theorem Visible.corners_eq_iff {a : ℕ × Row} (h : Visible f a.2) (label : String) (percent : ℚ) :
    (decide (toDetection f 1 1 (entryOf f a).box a.1 (a.2.score)).Kept = true ∧
      (drawDetection (entryOf f a).box label percent).corners =
        (toDetection f 1 1 (entryOf f a).box a.1 (a.2.score)).corners) ↔ Diagonal f a.2 := by
  obtain ⟨hscore, ⟨hmin0, hmin1⟩, ⟨hmax2, hmax3⟩, hside0, hside1⟩ := h
  have hcorners := corners_toDetection (f := f) a
  rw [corners_drawDetection, hcorners, decide_eq_true_iff, Detection.Kept]
  simp only [Detection.corners, Prod.mk.injEq] at hcorners
  obtain ⟨h1, h2, h3, h4⟩ := hcorners
  rw [h1, h2, h3, h4, Diagonal, Prod.mk.injEq, Prod.mk.injEq, Prod.mk.injEq]
  constructor
  · rintro ⟨-, heq⟩
    omega
  · intro hdiag
    exact ⟨⟨by omega, by omega, hscore⟩, by omega, by omega, by omega, by omega⟩

/-! ### The two answers -/

/-- Visible boxes do not look normalised. -/
theorem not_normLike {as : List (ℕ × Row)} (hne : as ≠ []) (h : ∀ a ∈ as, Visible f a.2) :
    ¬normLike (as.map fun a => (entryOf f a).box) := by
  rintro ⟨-, hmax⟩
  obtain ⟨a, ha⟩ := List.exists_mem_of_ne_nil as hne
  obtain ⟨-, ⟨hmin, -⟩, -, hside, -⟩ := h a ha
  have hle := hmax _ (List.mem_map_of_mem ha) 2
  have hlarge : (3 : ℚ) ≤ f.ymax a.2 := by exact_mod_cast (by omega : 3 ≤ f.ymax a.2)
  rw [(entryOf_box a).2.2.1] at hle
  norm_num at hle
  linarith

/-- The list has an entry for each visible row that is kept. -/
theorem listDetections_eq {as : List (ℕ × Row)} (h : ∀ a ∈ as, Visible f a.2) :
    listDetections f (toDetections (as.map (entryOf f))) =
      (as.map fun a => toDetection f 1 1 (entryOf f a).box a.1 (a.2.score)).filter
        fun e => decide e.Kept := by
  cases as with
  | nil => rfl
  | cons a as =>
    have hboxes : (toDetections ((a :: as).map (entryOf f))).boxes =
        (a :: as).map fun a => (entryOf f a).box := by
      rw [toDetections, List.map_map]
      rfl
    have hne : (a :: as).map (fun a => (entryOf f a).box) ≠ [] := by
      rw [List.map_cons]
      exact List.cons_ne_nil _ _
    rw [listDetections, zip_toDetections, hboxes, if_neg hne,
      if_neg (not_normLike (List.cons_ne_nil _ _) h)]
    dsimp only
    rw [List.map_map]
    rfl

/-- Every row is drawn if every class has a label. -/
theorem drawDetections_eq {as : List (ℕ × Row)} (h : ∀ a ∈ as, a.1 < labels.length) :
    drawDetections labels (toDetections (as.map (entryOf f))) =
      some (as.map fun a =>
        drawDetection (entryOf f a).box (labels[a.1]?.getD "") (a.2.score * 100)) := by
  rw [drawDetections, zip_toDetections, List.mapM_map]
  refine mapM_eq_some_map fun a ha => ?_
  simp only [Function.comp_apply, List.getElem?_eq_getElem (h a ha), Option.getD_some]
  rfl

theorem lt_length_of_drawDetections {as : List (ℕ × Row)} {drawn : List Drawing}
    (h : drawDetections labels (toDetections (as.map (entryOf f))) = some drawn) {a : ℕ × Row}
    (ha : a ∈ as) : a.1 < labels.length := by
  rw [drawDetections, zip_toDetections, List.mapM_map] at h
  obtain ⟨d, -, hd⟩ := exists_of_forall₂ (forall₂_of_mapM h).flip ha
  obtain ⟨label, hlabel, -⟩ := Option.bind_eq_some_iff.mp hd
  exact (List.getElem?_eq_some_iff.mp hlabel).1

/-- The corners that are drawn for visible rows are those that are listed, if the rows are on the
diagonal, and only then. -/
theorem map_corners_eq_iff {as : List (ℕ × Row)} (h : ∀ a ∈ as, Visible f a.2)
    {drawn : List Drawing}
    (hdrawn : drawDetections labels (toDetections (as.map (entryOf f))) = some drawn) :
    drawn.map Drawing.corners =
        (listDetections f (toDetections (as.map (entryOf f)))).map Detection.corners ↔
      ∀ a ∈ as, Diagonal f a.2 := by
  have hlabels : ∀ a ∈ as, a.1 < labels.length := fun a => lt_length_of_drawDetections hdrawn
  rw [drawDetections_eq hlabels] at hdrawn
  obtain rfl := Option.some.inj hdrawn
  rw [listDetections_eq h, List.filter_map, List.map_map, List.map_map, map_eq_map_filter_iff]
  exact forall₂_congr fun a ha => (h a ha).corners_eq_iff _ _

theorem fst_inferenceResultHandler (cs : List (List Row)) :
    (inferenceResultHandler f cfg labels true (.list cs)).1 =
      some (.detections (listDetections f (toDetections ((best cfg cs).map (entryOf f))))) := by
  simp only [inferenceResultHandler, fst_extractDetections]
  rfl

/-- The visualizer draws what is in a result that it does not unwrap, or that is empty. -/
theorem vizCallback_unwrap {Extra : Type} {cs : List (List Row)}
    (hcs : cs.length ≠ 1 ∨ cs = [[]]) (rest : Option Extra) :
    vizCallback cfg labels f (Infer.unwrap (.list cs)) rest =
      drawDetections labels (toDetections ((best cfg cs).map (entryOf f))) := by
  have hbest : vizCallback cfg labels f (.list cs) rest =
      drawDetections labels (toDetections ((best cfg cs).map (entryOf f))) := by
    simp only [vizCallback, inferenceResultHandler, fst_extractDetections, Option.bind_eq_bind,
      Option.bind_some, Bool.false_eq_true, if_false]
    cases drawDetections labels (toDetections ((best cfg cs).map (entryOf f))) <;> rfl
  rcases hcs with hcs | rfl
  · match cs with
    | [] => exact hbest
    | [_] => exact absurd rfl hcs
    | _ :: _ :: _ => exact hbest
  · have hnil : best cfg [[]] = [] := by
      rw [best, candidates, candidates, List.filter_nil, List.map_nil, List.nil_append,
        List.mergeSort_nil, pySlice, List.take_nil]
    rw [hnil]
    rfl

/-- The rows of an only class are taken for classes. -/
theorem vizCallback_singleton {Extra : Type} {rows : List Row} (hrows : rows ≠ [])
    (rest : Option Extra) :
    vizCallback cfg labels f (Infer.unwrap (.list [rows])) rest = none := by
  match rows with
  | [] => exact absurd rfl hrows
  | _ :: _ => rfl

end Rows

/-- **The boxes that are drawn are those that are reported** exactly if the result is not a single
class with detections, every class that is drawn has a label, and the boxes lie between points of
the diagonal. -/
theorem sameCorners_iff (f : Frame) (cfg : VisualizationParams) (labels : List String)
    (cs : List (List Row))
    (hvisible : ∀ rows ∈ cs, ∀ det ∈ rows, cfg.threshold ≤ det.score → Visible f det) :
    SameCorners f cfg labels cs ↔ (cs.length ≠ 1 ∨ cs = [[]]) ∧
      ∀ a ∈ best cfg cs, a.1 < labels.length ∧ Diagonal f a.2 := by
  have hbest : ∀ a ∈ best cfg cs, Visible f a.2 := fun a ha => by
    obtain ⟨rows, hrows, hdet, hscore⟩ := exists_of_mem_best ha
    exact hvisible rows hrows a.2 hdet hscore
  constructor
  · intro h
    obtain ⟨drawn, ds, hdrawn, hds, heq⟩ := h Unit [] false false true
    rw [fst_inferenceResultHandler] at hds
    obtain rfl := Answer.detections.inj (Option.some.inj hds)
    have hcs : cs.length ≠ 1 ∨ cs = [[]] := by
      by_contra hcs
      rw [not_or, not_not] at hcs
      obtain ⟨rows, rfl⟩ := List.length_eq_one_iff.mp hcs.1
      have hrows : rows ≠ [] := fun hnil => hcs.2 (congrArg (fun r => [r]) hnil)
      have hnone : some drawn = none :=
        hdrawn.symm.trans (vizCallback_singleton hrows (none : Option Unit))
      exact absurd hnone (Option.some_ne_none _)
    have hdrawn' := (vizCallback_unwrap hcs (none : Option Unit)).symm.trans hdrawn
    have hdiag := (map_corners_eq_iff hbest hdrawn').mp heq
    exact ⟨hcs, fun a ha => ⟨lt_length_of_drawDetections hdrawn' ha, hdiag a ha⟩⟩
  · rintro ⟨hcs, hall⟩ Extra rest cap saveStreamOutput tracker
    have hdrawn := drawDetections_eq (f := f) fun a ha => (hall a ha).1
    exact ⟨_, _, (vizCallback_unwrap hcs rest.head?).trans hdrawn, fst_inferenceResultHandler cs,
      (map_corners_eq_iff hbest hdrawn).mpr fun a ha => (hall a ha).2⟩

/-- A square frame. -/
def square : Frame := ⟨640, 640, by decide, by decide⟩

theorem centred_visible : Visible square centred :=
  ⟨by decide +kernel, by decide +kernel, by decide +kernel, by decide +kernel⟩

/-- What holds of a row holds of all rows of a result without others. -/
theorem forall_row {p : Row → Prop} {det : Row} (h : p det) :
    ∀ rows ∈ [[det], []], ∀ d ∈ rows, p d := by
  intro rows hrows d hd
  simp only [List.mem_cons, List.not_mem_nil, or_false] at hrows
  rcases hrows with rfl | rfl
  · exact List.mem_singleton.mp hd ▸ h
  · cases hd

theorem sameCorners_iff_witness :
    SameCorners square ⟨none, none⟩ ["person", "bicycle"] [[centred], []] ↔
      ([[centred], []].length ≠ 1 ∨ [[centred], []] = [[]]) ∧
        ∀ a ∈ best ⟨none, none⟩ [[centred], []],
          a.1 < ["person", "bicycle"].length ∧ Diagonal square a.2 :=
  sameCorners_iff square ⟨none, none⟩ ["person", "bicycle"] [[centred], []]
    fun rows hrows det hdet _ => forall_row centred_visible rows hrows det hdet

/-- A person to the right of the middle. -/
def aside : Row := ![1 / 4, 1 / 2, 1 / 2, 3 / 4, 9 / 10]

theorem aside_visible : Visible square aside :=
  ⟨by decide +kernel, by decide +kernel, by decide +kernel, by decide +kernel⟩

/-- The person is drawn to the right of the middle and reported below it. -/
theorem not_sameCorners :
    ¬∀ (f : Frame) (cfg : VisualizationParams) (labels : List String) (cs : List (List Row)),
      cs ≠ [] → cs.length ≤ labels.length →
        (∀ rows ∈ cs, ∀ det ∈ rows, cfg.threshold < det.score ∧ Visible f det) →
          SameCorners f cfg labels cs := by
  intro h
  have hrows := forall_row
    (p := fun det => (VisualizationParams.mk none none).threshold < det.score ∧ Visible square det)
    ⟨by decide +kernel, aside_visible⟩
  obtain ⟨drawn, ds, hdrawn, hds, heq⟩ := h square ⟨none, none⟩ ["person", "bicycle"]
    [[aside], []] (List.cons_ne_nil _ _) le_rfl hrows Unit [] false false true
  have hdrawn' : drawn = [⟨320, 160, 480, 320, "person", 90⟩] :=
    Option.some.inj (hdrawn.symm.trans (by decide +kernel))
  have hds' : ds = [⟨0, 9 / 10, 9 / 10, 160, 320, 320, 480⟩] :=
    Answer.detections.inj (Option.some.inj (hds.symm.trans (by decide +kernel)))
  rw [hdrawn', hds'] at heq
  exact absurd heq (by decide)

end ObjectDetectionFin

end DroneTurret
