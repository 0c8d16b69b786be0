import DroneTurret.ObjectDetectionFin.Visualize
import DroneTurret.PostProcess.Decode
import DroneTurret.Vision.Encoder

/-!
# The result handler of the detection script

`inference_result_handler` either lists the detections of a frame or draws them. Both start from
`extract_detections`, which takes the rows with a sufficient score out of the arrays of all classes,
turns their coordinates into pixels and keeps the best ones. A row is an array, so `det[:4]` is a
view of it, and the pixels are written to the row itself.

Coordinates and scores are exact here, and `none` is an exception. A call returns the result that it
was given as it is afterwards. Only the path without a tracker is modelled.

## Main definitions

* `denormalizeAndRmPad` — the pixels of a row, in place
* `extractDetections`, `inferenceResultHandler` — the answer, and what becomes of the result
* `NotConsumed` — the result can be processed again
* `Still` — a row that is its own pixels

## Main results

* `snd_inferenceResultHandler` — what becomes of the result
* `notConsumed_iff` — when it can be processed again
-/

namespace DroneTurret

namespace ObjectDetectionFin

open Vision PostProcess Decimal

/-- `original_frame.shape[:2]`. -/
structure Frame where
  height : ℕ
  width : ℕ
  height_pos : 0 < height
  width_pos : 0 < width

/-- The entries of `visualization_params` that are read here; `none` where there is no such key. -/
structure VisualizationParams where
  scoreThres : Option ℚ
  maxBoxesToDraw : Option ℤ

def VisualizationParams.threshold (cfg : VisualizationParams) : ℚ := cfg.scoreThres.getD (1 / 2)

def VisualizationParams.maxBoxes (cfg : VisualizationParams) : ℤ := cfg.maxBoxesToDraw.getD 50

/-- A detection in an array: `ymin`, `xmin`, `ymax`, `xmax` and the score. -/
abbrev Row := Fin 5 → ℚ

/-- `det[4]`. -/
def Row.score (det : Row) : ℚ := det 4

/-- A result: an array for each class, or an array that was unwrapped. -/
abbrev Results := Infer (List Row)

/-- The dictionary that `extract_detections` returns. -/
structure Detections where
  boxes : List (Fin 4 → ℚ)
  classes : List ℕ
  scores : List ℚ
  numDetections : ℕ
  deriving DecidableEq

/-- An entry of the list that the handler returns. -/
structure Detection where
  classId : ℕ
  accuracy : ℚ
  score : ℚ
  x1 : ℤ
  y1 : ℤ
  x2 : ℤ
  y2 : ℤ
  deriving DecidableEq

/-- A rectangle with the text above it. -/
structure Drawing where
  xmin : ℤ
  ymin : ℤ
  xmax : ℤ
  ymax : ℤ
  label : String
  percent : ℚ
  deriving DecidableEq

/-- What the handler returns. -/
inductive Answer
  | detections (ds : List Detection)
  | frame (drawn : List Drawing)
  deriving DecidableEq

/-! ### Pixels -/

namespace Frame

variable (f : Frame)

def size : ℕ := max f.height f.width

def paddingLength : ℤ := pyInt (|(f.height : ℚ) - f.width| / 2)

/-- What is written to `box[i]`. -/
def denormalize (i : ℕ) (x : ℚ) : ℤ :=
  let v := pyInt (x * f.size)
  let v := if f.width ≠ f.size ∧ i % 2 ≠ 0 then v - f.paddingLength else v
  if f.height ≠ f.size ∧ i % 2 = 0 then v - f.paddingLength else v

end Frame

/-- The coordinates of a row in pixels. -/
def Frame.pixel (f : Frame) (det : Row) (i : Fin 4) : ℤ := f.denormalize i (det i.castSucc)

def Frame.ymin (f : Frame) (det : Row) : ℤ := f.pixel det 0

def Frame.xmin (f : Frame) (det : Row) : ℤ := f.pixel det 1

def Frame.ymax (f : Frame) (det : Row) : ℤ := f.pixel det 2

def Frame.xmax (f : Frame) (det : Row) : ℤ := f.pixel det 3

/-- `det[:4]`. -/
def view (det : Row) : Fin 4 → ℚ := fun i => det i.castSucc

/-- The loop over `box = det[:4]` writes to the row. -/
def denormalizeAndRmPad (f : Frame) (det : Row) : Row :=
  (List.finRange 4).foldl
    (fun (det : Row) (i : Fin 4) => Function.update det i.castSucc
      (f.denormalize i (det i.castSucc))) det

/-! ### Extraction -/

/-- An entry of `all_detections`. The box is a view, with the pixels in it. -/
structure Entry where
  score : ℚ
  classId : ℕ
  box : Fin 4 → ℚ

section Handler

variable (f : Frame) (cfg : VisualizationParams)

/-- The loop over the rows of a class: the entries, and the rows afterwards. -/
def extractClass (classId : ℕ) : List Row → List Entry × List Row
  | [] => ([], [])
  | det :: rows =>
    let rest := extractClass classId rows
    if cfg.threshold ≤ det.score then
      let box := denormalizeAndRmPad f det
      (⟨det.score, classId, view box⟩ :: rest.1, box :: rest.2)
    else (rest.1, det :: rest.2)

/-- The loop over the classes, from class `classId`. -/
def extractClasses (classId : ℕ) : List (List Row) → List Entry × List (List Row)
  | [] => ([], [])
  | rows :: cs =>
    let first := extractClass f cfg classId rows
    let rest := extractClasses (classId + 1) cs
    (first.1 ++ rest.1, first.2 :: rest.2)

/-- The best entries, those with the same score in the order of the rows. -/
def topDetections (entries : List Entry) : List Entry :=
  pySlice (entries.mergeSort fun a b => b.score ≤ a.score) cfg.maxBoxes

def toDetections (top : List Entry) : Detections :=
  ⟨top.map Entry.box, top.map Entry.classId, top.map Entry.score, top.length⟩

def extractDetections : Results → Option Detections × Results
  | .list cs =>
    let allDetections := extractClasses f cfg 0 cs
    (some (toDetections (topDetections cfg allDetections.1)), .list allDetections.2)
  -- a row counts as a class and its numbers as detections, but a number has no `det[:4]`
  | .other [] => (some (toDetections []), .other [])
  | .other (det :: rows) => (none, .other (det :: rows))

/-! ### The two answers -/

/-- Coordinates that look normalised are taken for that. -/
def normLike (boxes : List (Fin 4 → ℚ)) : Prop :=
  (∀ b ∈ boxes, ∀ i, -0.05 ≤ b i) ∧ ∀ b ∈ boxes, ∀ i, b i ≤ 1.2

instance (boxes : List (Fin 4 → ℚ)) : Decidable (normLike boxes) :=
  inferInstanceAs (Decidable (_ ∧ _))

/-- `np.clip(_.round().astype(int), 0, _ - 1)`. -/
def roundClip (q : ℚ) (n : ℕ) : ℤ := min (max (roundHalfEven q) 0) (n - 1)

/-- The entry for one box, with the factors for its columns and rows. -/
def toDetection (sx sy : ℚ) (b : Fin 4 → ℚ) (classId : ℕ) (score : ℚ) : Detection :=
  ⟨classId, score, score, roundClip (b 0 * sx) f.width, roundClip (b 1 * sy) f.height,
    roundClip (b 2 * sx) f.width, roundClip (b 3 * sy) f.height⟩

/-- The test for an entry of the list. -/
def Detection.Kept (d : Detection) : Prop := 1 < d.x2 - d.x1 ∧ 1 < d.y2 - d.y1 ∧ 0 < d.score

instance (d : Detection) : Decidable d.Kept := inferInstanceAs (Decidable (_ ∧ _ ∧ _))

/-- The answer with `return_detection`. -/
def listDetections (d : Detections) : List Detection :=
  if d.boxes = [] then []
  else
    let s : ℚ × ℚ := if normLike d.boxes then (f.width, f.height) else (1, 1)
    ((d.boxes.zip (d.classes.zip d.scores)).map fun b =>
      toDetection f s.1 s.2 b.1 b.2.1 b.2.2).filter fun e => decide e.Kept

/-- `ymin, xmin, ymax, xmax = map(int, box)`. -/
def drawDetection (b : Fin 4 → ℚ) (label : String) (percent : ℚ) : Drawing :=
  ⟨pyInt (b 1), pyInt (b 0), pyInt (b 3), pyInt (b 2), label, percent⟩

/-- The loop that draws; a class without a label raises an exception. -/
def drawDetections (labels : List String) (d : Detections) : Option (List Drawing) :=
  (d.boxes.zip (d.classes.zip d.scores)).mapM fun b => do
    let label ← labels[b.2.1]?
    pure (drawDetection b.1 label (b.2.2 * 100))

def inferenceResultHandler (labels : List String) (returnDetection : Bool) (infer : Results) :
    Option Answer × Results :=
  let detRaw := extractDetections f cfg infer
  (do
    let d ← detRaw.1
    if returnDetection then pure (.detections (listDetections f d))
    else pure (.frame (← drawDetections labels d)), detRaw.2)

end Handler

/-! ### What becomes of the result -/

section Effect

variable {f : Frame} {cfg : VisualizationParams}

/-- Each place that is written in turn gets its own new value. -/
theorem foldl_update {ι α β : Type*} [DecidableEq ι] [DecidableEq β] (place : β → ι)
    (hplace : Function.Injective place) (new : β → α → α) {is : List β} (his : is.Nodup)
    (row : ι → α) (i : β) :
    is.foldl (fun row i => Function.update row (place i) (new i (row (place i)))) row (place i) =
      if i ∈ is then new i (row (place i)) else row (place i) := by
  induction is generalizing row with
  | nil => rfl
  | cons j is ih =>
    obtain ⟨hj, his⟩ := List.nodup_cons.mp his
    rw [List.foldl_cons, ih his]
    by_cases hij : i = j
    · rw [hij, if_neg hj, if_pos List.mem_cons_self, Function.update_self]
    · rw [Function.update_of_ne (hplace.ne hij)]
      simp only [List.mem_cons, hij, false_or]

theorem foldl_update_of_ne {ι α β : Type*} [DecidableEq ι] (place : β → ι) (new : β → α → α)
    {k : ι} {is : List β} (hk : ∀ i ∈ is, k ≠ place i) (row : ι → α) :
    is.foldl (fun row i => Function.update row (place i) (new i (row (place i)))) row k =
      row k := by
  induction is generalizing row with
  | nil => rfl
  | cons j is ih =>
    rw [List.foldl_cons, ih fun i hi => hk i (List.mem_cons_of_mem _ hi),
      Function.update_of_ne (hk j List.mem_cons_self)]

theorem denormalizeAndRmPad_castSucc (det : Row) (i : Fin 4) :
    denormalizeAndRmPad f det i.castSucc = f.denormalize i (det i.castSucc) := by
  have h := foldl_update Fin.castSucc (Fin.castSucc_injective 4)
    (fun i x => (f.denormalize i x : ℚ)) (List.nodup_finRange 4) det i
  rwa [if_pos (List.mem_finRange i)] at h

theorem score_denormalizeAndRmPad (det : Row) : (denormalizeAndRmPad f det).score = det.score :=
  foldl_update_of_ne Fin.castSucc (fun i x => (f.denormalize i x : ℚ))
    (fun i _ => (Fin.castSucc_lt_last i).ne') det

/-- What becomes of a row. -/
def processed (f : Frame) (cfg : VisualizationParams) (det : Row) : Row :=
  if cfg.threshold ≤ det.score then denormalizeAndRmPad f det else det

theorem snd_extractClass (classId : ℕ) (rows : List Row) :
    (extractClass f cfg classId rows).2 = rows.map (processed f cfg) := by
  induction rows with
  | nil => rfl
  | cons det rows ih =>
    rw [extractClass, List.map_cons, processed, ← ih]
    split <;> rfl

theorem snd_extractClasses (classId : ℕ) (cs : List (List Row)) :
    (extractClasses f cfg classId cs).2 = cs.map (List.map (processed f cfg)) := by
  induction cs generalizing classId with
  | nil => rfl
  | cons rows cs ih => rw [extractClasses, List.map_cons, snd_extractClass, ih]

/-- **The pixels of all rows with a sufficient score are written to the result**, whatever is asked
for. -/
theorem snd_inferenceResultHandler (labels : List String) (returnDetection : Bool)
    (cs : List (List Row)) :
    (inferenceResultHandler f cfg labels returnDetection (.list cs)).2 =
      .list (cs.map (List.map (processed f cfg))) :=
  congrArg Infer.list (snd_extractClasses 0 cs)

end Effect

/-! ### Processing a result twice -/

/-- A call leaves the result as it is, and a second call on the same object finds the same
detections and gives the answer that it would have given without the first one. -/
structure NotConsumed (f : Frame) (cfg : VisualizationParams) (cs : List (List Row)) : Prop where
  unchanged : ∀ labels b, (inferenceResultHandler f cfg labels b (.list cs)).2 = .list cs
  detections : ∀ labels b,
    (extractDetections f cfg (inferenceResultHandler f cfg labels b (.list cs)).2).1 =
      (extractDetections f cfg (.list cs)).1
  answer : ∀ labels b b',
    (inferenceResultHandler f cfg labels b'
      (inferenceResultHandler f cfg labels b (.list cs)).2).1 =
        (inferenceResultHandler f cfg labels b' (.list cs)).1

/-- The row is its own pixels: integers in a frame of a single pixel, or zeros if there is no
padding to remove. -/
def Still (f : Frame) (det : Row) : Prop :=
  (f.height = 1 ∧ f.width = 1 ∧ ∀ i : Fin 4, ∃ n : ℤ, det i.castSucc = n) ∨
    (f.height ≤ f.width + 1 ∧ f.width ≤ f.height + 1 ∧ ∀ i : Fin 4, det i.castSucc = 0)

section Twice

variable {f : Frame} {cfg : VisualizationParams}

theorem Frame.paddingLength_eq (f : Frame) :
    f.paddingLength = |(f.height : ℤ) - f.width| / 2 := by
  have hcast : |(f.height : ℚ) - f.width| / 2 =
      ((|(f.height : ℤ) - f.width| : ℤ) : ℚ) / (2 : ℕ) := by
    push_cast
    rfl
  rw [Frame.paddingLength, pyInt, if_pos (by positivity), hcast, Rat.floor_intCast_div_natCast]
  rfl

/-- What is taken off a coordinate. -/
def Frame.shift (f : Frame) (i : ℕ) : ℤ :=
  (if f.width ≠ f.size ∧ i % 2 ≠ 0 then f.paddingLength else 0) +
    if f.height ≠ f.size ∧ i % 2 = 0 then f.paddingLength else 0

theorem Frame.denormalize_eq (f : Frame) (i : ℕ) (x : ℚ) :
    f.denormalize i x = pyInt (x * f.size) - f.shift i := by
  simp only [Frame.denormalize, Frame.shift]
  split_ifs <;> ring

/-- Padding is less than half of the frame. -/
theorem Frame.two_mul_shift_lt (f : Frame) (i : ℕ) : 0 ≤ f.shift i ∧ 2 * f.shift i < f.size := by
  have hh := f.height_pos
  have hw := f.width_pos
  rw [Frame.shift, f.paddingLength_eq, Frame.size]
  rcases abs_cases ((f.height : ℤ) - f.width) with ⟨h, _⟩ | ⟨h, _⟩ <;> rw [h] <;>
    split_ifs <;> omega

/-- Only zeros stay what they are, if there is more than one pixel. -/
theorem Frame.denormalize_eq_self_iff (hsize : 1 < f.size) (i : ℕ) (x : ℚ) :
    (f.denormalize i x : ℚ) = x ↔ x = 0 ∧ f.shift i = 0 := by
  obtain ⟨hnonneg, hlt⟩ := f.two_mul_shift_lt i
  constructor
  · intro h
    -- a fixed point is an integer `n` with `n * size - shift = n`
    obtain ⟨n, rfl⟩ : ∃ n : ℤ, x = n := ⟨_, h.symm⟩
    have hmul : (n : ℚ) * f.size = ((n * f.size : ℤ) : ℚ) := by push_cast; rfl
    rw [f.denormalize_eq, hmul, pyInt_intCast, Int.cast_inj] at h
    have hsize' : (1 : ℤ) < f.size := by exact_mod_cast hsize
    have hn : n * (f.size - 1) = f.shift i := by linarith
    have hzero : n = 0 := by
      rcases lt_trichotomy n 0 with hneg | hzero | hpos
      · have hle := mul_neg_of_neg_of_pos hneg (by linarith : (0 : ℤ) < f.size - 1)
        omega
      · exact hzero
      · have hle := le_mul_of_one_le_left (by linarith : (0 : ℤ) ≤ f.size - 1) hpos
        omega
    rw [hzero, zero_mul] at hn
    exact ⟨by rw [hzero, Int.cast_zero], hn.symm⟩
  · rintro ⟨rfl, hshift⟩
    have hzero : pyInt 0 = 0 := pyInt_intCast 0
    rw [f.denormalize_eq, zero_mul, hzero, hshift, sub_zero, Int.cast_zero]

theorem Frame.denormalize_eq_self_iff_of_size (hsize : f.size = 1) (i : ℕ) (x : ℚ) :
    (f.denormalize i x : ℚ) = x ↔ ∃ n : ℤ, x = n := by
  obtain ⟨hnonneg, hlt⟩ := f.two_mul_shift_lt i
  have hshift : f.shift i = 0 := by omega
  rw [f.denormalize_eq, hshift, sub_zero, hsize, Nat.cast_one, mul_one]
  constructor
  · exact fun h => ⟨_, h.symm⟩
  · rintro ⟨n, rfl⟩
    rw [pyInt_intCast]

/-- There is nothing to take off if the sides differ by at most a pixel. -/
theorem Frame.shift_eq_zero_iff (f : Frame) :
    (∀ i : Fin 4, f.shift i = 0) ↔ f.height ≤ f.width + 1 ∧ f.width ≤ f.height + 1 := by
  have hshift : ∀ i, f.shift i = f.shift (i % 2) := fun i => by
    rw [Frame.shift, Frame.shift, Nat.mod_mod]
  have hparity : (∀ i : Fin 4, f.shift i = 0) ↔ f.shift 0 = 0 ∧ f.shift 1 = 0 := by
    refine ⟨fun h => ⟨h 0, h 1⟩, fun ⟨h0, h1⟩ i => ?_⟩
    rw [hshift]
    rcases Nat.mod_two_eq_zero_or_one i with h | h <;> rw [h]
    · exact h0
    · exact h1
  rw [hparity, Frame.shift, Frame.shift, f.paddingLength_eq, Frame.size]
  rcases abs_cases ((f.height : ℤ) - f.width) with ⟨h, _⟩ | ⟨h, _⟩ <;> rw [h] <;>
    simp only [Nat.zero_mod, Nat.one_mod, ne_eq, not_true_eq_false, and_false, if_false, and_true,
      one_ne_zero, not_false_eq_true, zero_add, add_zero] <;> split_ifs <;> omega

theorem denormalizeAndRmPad_eq_self_iff (det : Row) :
    denormalizeAndRmPad f det = det ↔ Still f det := by
  have hcells : denormalizeAndRmPad f det = det ↔
      ∀ i : Fin 4, (f.denormalize i (det i.castSucc) : ℚ) = det i.castSucc := by
    constructor
    · intro h i
      rw [← denormalizeAndRmPad_castSucc, h]
    · intro h
      funext i
      refine Fin.lastCases ?_ (fun i => ?_) i
      · exact score_denormalizeAndRmPad det
      · rw [denormalizeAndRmPad_castSucc, h]
  have hh := f.height_pos
  have hw := f.width_pos
  rw [hcells, Still, ← and_assoc (a := f.height ≤ f.width + 1), ← f.shift_eq_zero_iff]
  rcases Nat.lt_or_ge 1 f.size with hsize | hsize
  · have hone : ¬(f.height = 1 ∧ f.width = 1 ∧ ∀ i : Fin 4, ∃ n : ℤ, det i.castSucc = n) := by
      rintro ⟨hheight, hwidth, -⟩
      rw [Frame.size, hheight, hwidth] at hsize
      exact absurd hsize (by decide)
    simp only [Frame.denormalize_eq_self_iff hsize, hone, false_or, forall_and]
    exact and_comm
  · have hone : f.height = 1 ∧ f.width = 1 := by
      rw [Frame.size] at hsize
      omega
    have hsize' : f.size = 1 := by rw [Frame.size, hone.1, hone.2, max_self]
    simp only [Frame.denormalize_eq_self_iff_of_size hsize', hone, true_and]
    refine ⟨.inl, fun h i => ?_⟩
    rcases h with h | ⟨-, h⟩
    · exact h i
    · exact ⟨0, by rw [h i, Int.cast_zero]⟩

theorem map_processed_eq_self_iff (cs : List (List Row)) :
    cs.map (List.map (processed f cfg)) = cs ↔
      ∀ rows ∈ cs, ∀ det ∈ rows, cfg.threshold ≤ det.score → Still f det := by
  have hself : ∀ {α : Type} (g : α → α) (l : List α), l.map g = l ↔ ∀ a ∈ l, g a = a := by
    intro α g l
    rw [← List.map_inj_left, List.map_id']
  rw [hself]
  refine forall₂_congr fun rows _ => ?_
  rw [hself]
  refine forall₂_congr fun det _ => ?_
  rw [processed, ← denormalizeAndRmPad_eq_self_iff]
  split <;> rename_i h <;> simp only [h, true_imp_iff, false_imp_iff]

end Twice

/-- **A result can be processed again** exactly if every row with a sufficient score is its own
pixels. -/
theorem notConsumed_iff (f : Frame) (cfg : VisualizationParams) (cs : List (List Row)) :
    NotConsumed f cfg cs ↔ ∀ rows ∈ cs, ∀ det ∈ rows, cfg.threshold ≤ det.score → Still f det := by
  rw [← map_processed_eq_self_iff]
  constructor
  · intro h
    have heq := h.unchanged [] true
    rw [snd_inferenceResultHandler] at heq
    exact Infer.list.inj heq
  · intro h
    have heq : ∀ labels b,
        (inferenceResultHandler f cfg labels b (.list cs)).2 = .list cs := fun labels b => by
      rw [snd_inferenceResultHandler, h]
    exact ⟨heq, fun labels b => by rw [heq], fun labels b b' => by rw [heq]⟩

/-- A person in the middle of a square frame. -/
def centred : Row := ![1 / 4, 1 / 4, 3 / 4, 3 / 4, 9 / 10]

/-- The second call finds coordinates of a size that no frame has. -/
theorem not_notConsumed : ¬∀ f cfg cs, NotConsumed f cfg cs := by
  intro h
  have hmid := congrArg (fun d => d.map Detections.boxes)
    ((h ⟨640, 640, by decide, by decide⟩ ⟨none, none⟩ [[centred]]).detections [] true)
  exact absurd hmid (by decide +kernel)

end ObjectDetectionFin

end DroneTurret
