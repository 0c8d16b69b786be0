import DroneTurret.PostProcess.Dfl

/-!
# Boxes with their classes

The other head has a row for each box: its middle and size, how likely it is that there is an object
in it, and how likely each class is. Where the likelihood of an object stands, whether numbers are
probabilities already and in what unit the boxes are is read off the array as a whole, so it is the
same for all rows.

The deviation by which the head's layout is guessed and `exp` are parameters. The least of no
numbers raises an error.

## Main definitions

* `Head`, `readHead` — what is read off the array as a whole
* `decodeYoloXywhWithHead` — the decoder

## Main results

* `readHead_prob` — what is used as a probability is one
* `exists_readHead` — only an array without rows raises
* `decodeYoloXywhWithHead_eq` — the rows that are kept
-/

namespace DroneTurret

namespace PostProcess

/-- The sigmoid, here and in `_sigmoid`. -/
def sigmoid (exp : ℚ → ℚ) (x : ℚ) : ℚ := 1 / (1 + exp (-clip (-50) 50 x))

/-- What `_as_prob` does to each entry of an array with the entries `xs`. -/
def asProb (exp : ℚ → ℚ) (xs : List ℚ) : Option (ℚ → ℚ) := do
  let xmin ← xs.min?
  let xmax ← xs.max?
  return if 0 ≤ xmin ∧ xmax ≤ 255 ∧ 2 ≤ xmax then fun x => clip 0 1 (x / 255) else sigmoid exp

/-- `score` of the guess of the layout. -/
def layoutScore (std : List ℚ → ℚ) (o : List ℚ) : ℚ :=
  let m := o.sum / o.length
  let pen := if 5 / 100 ≤ m ∧ m ≤ 8 / 10 then 0 else 3 / 10
  std o - pen

def Array2.col (a : Array2) (j : ℕ) : List ℚ := (List.range a.rows).map fun i => a.entry i j

/-- `K`. -/
def Array2.classes (a : Array2) : ℕ := a.cols - 5

/-- `ix_obj`, and the first column of `sl_cls`. -/
def headColumns (exp : ℚ → ℚ) (std : List ℚ → ℚ) (cfg : Settings) (a : Array2) :
    Option (ℕ × ℕ) :=
  match cfg.headOpt with
  | .objCls => some (4, 5)
  | .clsObj => some (a.cols - 1, 4)
  | .auto => do
    let o4 := (a.col 4).map (← asProb exp (a.col 4))
    let ol := (a.col (a.cols - 1)).map (← asProb exp (a.col (a.cols - 1)))
    return if layoutScore std ol ≤ layoutScore std o4 then (4, 5) else (a.cols - 1, 4)

/-- What is the same for all rows. -/
structure Head where
  /-- The column with the likelihood of an object. -/
  obj : ℕ
  /-- The first column of the classes. -/
  cls : ℕ
  /-- The boxes are in parts of the image. -/
  relative : Bool
  objP : ℚ → ℚ
  clsP : ℚ → ℚ

def readHead (exp : ℚ → ℚ) (std : List ℚ → ℚ) (cfg : Settings) (a : Array2) : Option Head := do
  let (obj, cls) ← headColumns exp std cfg a
  let size ← ((List.range 4).flatMap fun j => (a.col j).map abs).max?
  let objP ← asProb exp (a.col obj)
  let clsP ← asProb exp ((List.range a.classes).flatMap fun j => a.col (cls + j))
  return ⟨obj, cls, decide (size ≤ 15 / 10), objP, clsP⟩

namespace Head

variable (h : Head) (cfg : Settings) (a : Array2) (i : ℕ)

/-- `boxes[i]`: `_xywh_to_xyxy` of a row. -/
def box : Box :=
  let entry := fun j => if h.relative then a.entry i j * cfg.netSize else a.entry i j
  ⟨entry 0 - entry 2 * (1 / 2), entry 1 - entry 3 * (1 / 2), entry 0 + entry 2 * (1 / 2),
    entry 1 + entry 3 * (1 / 2)⟩

/-- `cls_p[i, j]`. -/
def clsProb (j : ℕ) : ℚ := h.clsP (a.entry i (h.cls + j))

/-- `max_idx[i]`. -/
def maxIdx : ℕ := ((List.range a.classes).argmax (h.clsProb a i)).getD 0

/-- The class whose likelihood counts. -/
def counted : ℕ :=
  match cfg.droneClassIndex with
  | some di => if 0 ≤ di ∧ di < a.classes then di.toNat else h.maxIdx a i
  | none => h.maxIdx a i

/-- `obj_p[i]`. -/
def objScore : ℚ := h.objP (a.entry i h.obj)

/-- `cls_score[i]`. -/
def clsScore : ℚ := h.clsProb a i (h.counted cfg a i)

/-- `class_ids[i]`. -/
def classId : ℕ := if cfg.forceSc then 0 else h.counted cfg a i

/-- `scores[i]`. -/
def score : ℚ := h.objScore a i * h.clsScore cfg a i

end Head

/-- `decode_yolo_xywh_with_head`, for the arguments that `extract_detections` gives it. -/
def decodeYoloXywhWithHead (exp : ℚ → ℚ) (std : List ℚ → ℚ) (cfg : Settings) (a : Array2) :
    Option Decoded := do
  let h ← readHead exp std cfg a
  let rows := List.range a.rows
  let keep := rows.map fun i =>
    decide (cfg.objTh ≤ h.objScore a i ∧ cfg.classMin ≤ h.clsScore cfg a i)
  if ¬keep.any id then return .empty
  let scores := rows.map (h.score cfg a)
  let keep := List.zipWith (fun k s => k && decide (cfg.scoreTh ≤ s)) keep scores
  if ¬keep.any id then return .empty
  let boxes ← mask keep (rows.map (h.box cfg a))
  let scores ← mask keep scores
  let classes ← mask keep (rows.map (h.classId cfg a))
  return ⟨boxes.map (Box.clipToNet cfg.netSize), scores, classes⟩

section YoloHead

variable {exp : ℚ → ℚ} {std : List ℚ → ℚ} {cfg : Settings} {a : Array2} {h : Head}

theorem asProb_bounds (hexp : ∀ x, 0 < exp x) {xs : List ℚ} {p : ℚ → ℚ}
    (hp : asProb exp xs = some p) (x : ℚ) : 0 ≤ p x ∧ p x ≤ 1 := by
  obtain ⟨xmin, -, hp⟩ := Option.bind_eq_some_iff.mp hp
  obtain ⟨xmax, -, hp⟩ := Option.bind_eq_some_iff.mp hp
  obtain rfl := Option.some.inj hp
  split
  · exact ⟨le_min (le_max_right _ _) zero_le_one, min_le_right _ _⟩
  · have hpos := hexp (-clip (-50) 50 x)
    rw [sigmoid]
    exact ⟨by positivity, (div_le_one (by linarith)).mpr (by linarith)⟩

theorem exists_asProb {xs : List ℚ} (hne : xs ≠ []) : ∃ p, asProb exp xs = some p := by
  cases xs with
  | nil => exact absurd rfl hne
  | cons x xs => exact ⟨_, rfl⟩

/-- **What is used as a probability is one.** -/
theorem readHead_prob (hexp : ∀ x, 0 < exp x) (hh : readHead exp std cfg a = some h) :
    (∀ x, 0 ≤ h.objP x ∧ h.objP x ≤ 1) ∧ ∀ x, 0 ≤ h.clsP x ∧ h.clsP x ≤ 1 := by
  obtain ⟨⟨obj, cls⟩, -, hh⟩ := Option.bind_eq_some_iff.mp hh
  obtain ⟨size, -, hh⟩ := Option.bind_eq_some_iff.mp hh
  obtain ⟨objP, hobj, hh⟩ := Option.bind_eq_some_iff.mp hh
  obtain ⟨clsP, hcls, hh⟩ := Option.bind_eq_some_iff.mp hh
  obtain rfl := Option.some.inj hh
  exact ⟨asProb_bounds hexp hobj, asProb_bounds hexp hcls⟩

theorem Array2.col_ne_nil (hrows : a.rows ≠ 0) (j : ℕ) : a.col j ≠ [] := by
  rw [Array2.col, Ne, List.map_eq_nil_iff, List.range_eq_nil]
  exact hrows

/-- **Only an array without rows raises.** -/
theorem exists_readHead (hcols : 6 ≤ a.cols) (hrows : a.rows ≠ 0) :
    ∃ h, readHead exp std cfg a = some h := by
  have hflat : ∀ {n : ℕ} (f : ℕ → List ℚ), 0 < n → (∀ j, f j ≠ []) →
      (List.range n).flatMap f ≠ [] := by
    intro n f hn hf hnil
    exact hf 0 (List.flatMap_eq_nil_iff.mp hnil 0 (List.mem_range.mpr hn))
  obtain ⟨columns, hcolumns⟩ : ∃ c, headColumns exp std cfg a = some c := by
    rw [headColumns]
    obtain ⟨p4, h4⟩ := @exists_asProb exp _ (Array2.col_ne_nil hrows 4)
    obtain ⟨pl, hl⟩ := @exists_asProb exp _ (Array2.col_ne_nil hrows (a.cols - 1))
    cases cfg.headOpt with
    | objCls => exact ⟨_, rfl⟩
    | clsObj => exact ⟨_, rfl⟩
    | auto =>
      rw [h4, hl]
      exact ⟨_, rfl⟩
  obtain ⟨size, hsize⟩ :
      ∃ m, ((List.range 4).flatMap fun j => (a.col j).map abs).max? = some m := by
    refine Option.isSome_iff_exists.mp (List.isSome_max?_iff.mpr ?_)
    refine hflat _ (by decide) fun j hj => Array2.col_ne_nil hrows j (List.map_eq_nil_iff.mp hj)
  obtain ⟨objP, hobj⟩ := @exists_asProb exp _ (Array2.col_ne_nil hrows columns.1)
  obtain ⟨clsP, hcls⟩ := @exists_asProb exp _ (hflat (fun j => a.col (columns.2 + j))
    (show 0 < a.classes by rw [Array2.classes]; omega) fun j => Array2.col_ne_nil hrows _)
  refine ⟨⟨columns.1, columns.2, decide (size ≤ 15 / 10), objP, clsP⟩, ?_⟩
  rw [readHead, hcolumns, Option.bind_eq_bind, Option.bind_some]
  dsimp only
  rw [hsize, hobj, hcls]
  rfl

/-- An array without rows raises. -/
theorem readHead_eq_none (hrows : a.rows = 0) : readHead exp std cfg a = none := by
  have hcol : ∀ j, a.col j = [] := fun j => by
    rw [Array2.col, hrows]
    rfl
  rw [readHead]
  cases headColumns exp std cfg a with
  | none => rfl
  | some columns =>
    simp only [hcol]
    rfl

/-- The rows that are kept. -/
def Head.rows (h : Head) (cfg : Settings) (a : Array2) : List ℕ :=
  (List.range a.rows).filter fun i => decide (cfg.objTh ≤ h.objScore a i ∧
    cfg.classMin ≤ h.clsScore cfg a i) && decide (cfg.scoreTh ≤ h.score cfg a i)

/-- **The decoder keeps the rows that reach all three thresholds.** -/
theorem decodeYoloXywhWithHead_eq (hh : readHead exp std cfg a = some h) :
    decodeYoloXywhWithHead exp std cfg a =
      some (.ofRows (h.rows cfg a) (fun i => (h.box cfg a i).clipToNet cfg.netSize)
        (h.score cfg a) (h.classId cfg a)) := by
  have hmask := fun (β : Type) (f : ℕ → β) => mask_map (fun i =>
    decide (cfg.objTh ≤ h.objScore a i ∧ cfg.classMin ≤ h.clsScore cfg a i) &&
      decide (cfg.scoreTh ≤ h.score cfg a i)) f (List.range a.rows)
  have hany := any_map_id_iff (fun i =>
    decide (cfg.objTh ≤ h.objScore a i ∧ cfg.classMin ≤ h.clsScore cfg a i)) (List.range a.rows)
  have hany' := any_map_id_iff (fun i =>
    decide (cfg.objTh ≤ h.objScore a i ∧ cfg.classMin ≤ h.clsScore cfg a i) &&
      decide (cfg.scoreTh ≤ h.score cfg a i)) (List.range a.rows)
  rw [decodeYoloXywhWithHead, hh, Option.bind_eq_bind, Option.bind_some]
  simp only [List.zipWith_map, List.zipWith_self, hmask, Option.bind_eq_bind, Option.bind_some,
    Option.pure_def, List.map_map]
  change _ = some (Decoded.ofRows ((List.range a.rows).filter fun i =>
    decide (cfg.objTh ≤ h.objScore a i ∧ cfg.classMin ≤ h.clsScore cfg a i) &&
      decide (cfg.scoreTh ≤ h.score cfg a i)) _ _ _)
  by_cases hnone : (List.range a.rows).filter (fun i =>
      decide (cfg.objTh ≤ h.objScore a i ∧ cfg.classMin ≤ h.clsScore cfg a i) &&
        decide (cfg.scoreTh ≤ h.score cfg a i)) = []
  · rw [hnone]
    split
    · rfl
    · rw [if_pos fun h => hany'.mp h hnone]
      rfl
  · have hsome : (List.range a.rows).filter (fun i =>
        decide (cfg.objTh ≤ h.objScore a i ∧ cfg.classMin ≤ h.clsScore cfg a i)) ≠ [] := by
      intro hnil
      rw [List.filter_eq_nil_iff] at hnil
      refine hnone (List.filter_eq_nil_iff.mpr fun i hi hboth => hnil i hi ?_)
      exact (Bool.and_eq_true_iff.mp hboth).1
    rw [if_neg (not_not.mpr (hany.mpr hsome)), if_neg (not_not.mpr (hany'.mpr hnone))]
    rfl

end YoloHead

end PostProcess

end DroneTurret
