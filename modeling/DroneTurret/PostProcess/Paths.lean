import DroneTurret.PostProcess.Alignment
import DroneTurret.PostProcess.YoloHead

/-!
# All ways through the decoder

`extract_detections` looks at the shape of what it is given and takes one of four ways. The first is
for the output of the suppression on the chip; the two for the heads and the one for a list of
classes suppress overlapping boxes themselves. In these three the boxes that pass all tests are the
candidates. The best of them are kept, if there is a limit before the suppression; of these, the
suppression keeps boxes that do not overlap.

An exception in the loop over a list of classes is caught, and nothing is returned. Arithmetic is
exact here.

## Main definitions

* `Raw`, `Raw.asarray` — what the function is given, and the array that NumPy makes of it
* `Settings.extractDetections` — the function
* `Settings.candidates` — the boxes that pass all tests
* `Chosen` — what the suppression keeps

## Main results

* `suppress_eq` — the suppression on candidates
* `Settings.extractDetections_chosen` — what is returned, where nothing was suppressed on the chip
* `Settings.mem_candidates` — every candidate lies in the frame
* `Settings.extractDetections_run` — one call after the other, with one cache
-/

namespace DroneTurret

namespace PostProcess

/-! ### What the function is given -/

/-- An array, or a list with a list of detections for each class. -/
inductive Raw
  | array (d : Detections)
  | list (classes : List (List (List ℚ)))

/-- `np.asarray(detections)`, if it has two or three dimensions. Lists of different lengths raise an
error. -/
def Raw.asarray : Raw → Option Detections
  | .array d => some d
  | .list [] => none
  | .list (c :: cs) =>
    let n := c.length
    let k := (c.headD []).length
    if cs.all (fun c' => c'.length = n) ∧ (c :: cs).all (fun c' => c'.all fun det => det.length = k)
    then
      if n = 0 then some (.two ⟨cs.length + 1, 0, fun _ _ => 0⟩)
      else some (.three (cs.length + 1) n k fun i j l =>
        (((c :: cs).getD i []).getD j []).getD l 0)
    else none

/-- The list that the last path goes through. -/
def Raw.raw : Raw → List (List (List ℚ))
  | .array _ => []
  | .list classes => classes

/-- An entry of `detections`. -/
structure Xywh where
  classId : ℕ
  confidence : ℚ
  x : ℚ
  y : ℚ
  w : ℚ
  h : ℚ

/-- What `extract_detections` returns, with `detections` where there is such a key. -/
structure FullResult extends Result where
  detections : Option (List Xywh)

def FullResult.empty : FullResult := ⟨.empty, none⟩

/-- `_xyxy_to_xywh` of a rounded box, with its score and class. -/
def xyxyToXywh (b : ℤ × ℤ × ℤ × ℤ) (score : ℚ) (cls : ℕ) : Xywh :=
  ⟨cls, score, (b.1 + b.2.2.1) * (1 / 2), (b.2.1 + b.2.2.2) * (1 / 2), b.2.2.1 - b.1,
    b.2.2.2 - b.2.1⟩

/-! ### The function -/

/-- `pre_nms_topk`: the limit before the suppression. -/
def limitTopk (argsort : List ℚ → List ℕ) (topk : ℤ) (boxes : List Box) (scores : List ℚ)
    (classes : List ℕ) : Option (List Box × List ℚ × List ℕ) :=
  if topk ≠ 0 ∧ topk < boxes.length then do
    let order := pySlice (argsort (scores.map (-·))) topk
    return (← gather boxes order, ← gather scores order, ← gather classes order)
  else some (boxes, scores, classes)

/-- The limit before the suppression, the suppression and the rounding. -/
def suppress (argsort : List ℚ → List ℕ) (cfg : Settings) (topk : ℤ) (single xywh : Bool)
    (boxes : List Box) (scores : List ℚ) (classes : List ℕ) : Option FullResult := do
  let (boxes, scores, classes) ← limitTopk argsort topk boxes scores classes
  let keepIdx ← nmsXyxyAgnostic argsort boxes scores cfg.iouTh cfg.maxDet
  if keepIdx.isEmpty then return .empty
  let boxes := (← gather boxes keepIdx).map Box.round
  let scores := (← gather scores keepIdx).map (clip 0 1)
  let classes ← if single then pure (scores.map fun _ => 0) else gather classes keepIdx
  let detections := List.zipWith (fun b (s, c) => xyxyToXywh b s c) boxes (scores.zip classes)
  return ⟨⟨boxes, classes, scores, keepIdx.length⟩, if xywh then some detections else none⟩

/-- From the boxes of a head to the result. -/
def finishHead (argsort : List ℚ → List ℕ) (cfg : Settings) (H W : ℕ) (single : Bool)
    (d : Decoded) : Option FullResult := do
  if d.boxes.isEmpty then return .empty
  let (boxesPix, keep) ← toPixelBoxes cfg.toConfig H W d.boxes
  if boxesPix.isEmpty then return .empty
  let scores ← gather d.scores keep
  let classes ← gather d.classes keep
  let passes := boxesPix.map fun b => decide (Passes cfg.toConfig H W b)
  if ¬passes.any id then return .empty
  suppress argsort cfg cfg.preTopk single true (← mask passes boxesPix) (← mask passes scores)
    (← mask passes classes)

/-- The choice between the two layouts of the rows. -/
def better (d1 d2 : Decoded) : Decoded :=
  if d1.boxes.length < d2.boxes.length ∨
    d2.boxes.length = d1.boxes.length ∧ d1.scores.sum < d2.scores.sum then d2 else d1

/-- `arr`: the rows of the second path, after `output_dequant`. -/
def dequantized (cfg : Settings) (a : Array2) (i j : ℕ) : ℚ :=
  match cfg.outputDequant with
  | some dq => (a.entry i j - dq.zp.getD 0) * dq.scale.getD 1
  | none => a.entry i j

/-- The second path, up to the choice of a layout. -/
def decodeDfl (exp : ℚ → ℚ) (cfg : Settings) (cache : CenterCache) (a : Array2) :
    Option Decoded × CenterCache :=
  let arr := dequantized cfg a
  let (d1, cache) := decodeYolov8DflCore .exact exp cfg cache a.rows arr fun i => arr i 64
  match d1 with
  | none => (none, cache)
  | some d1 =>
    let (d2, cache) :=
      decodeYolov8DflCore .exact exp cfg cache a.rows (fun i j => arr i (j + 1)) fun i => arr i 0
    (d2.map (better d1), cache)

/-- A box in the frame, with its score and its class. -/
structure Candidate where
  box : Box
  score : ℚ
  cls : ℕ
  deriving Inhabited

/-- One round of the loop over the list. -/
def legacyItem (cfg : Settings) (H W : ℕ) (classId : ℕ) (det : List ℚ) :
    Option (Option Candidate) :=
  match det with
  | x1 :: y1 :: x2 :: y2 :: score :: _ =>
    let score := max 0 (min 1 score)
    if score < cfg.scoreTh then some none
    else do
      let d ← denormAndUnletterboxXyxy ⟨x1, y1, x2, y2⟩ cfg.netSize H W
      return (d.filter fun d => decide d.Large).map fun d => ⟨d, score, classId⟩
  | _ => none

/-- The loop over the list, and what it has put aside. -/
def legacyLoop (cfg : Settings) (H W : ℕ) (raw : List (List (List ℚ))) :
    Option (List Candidate) :=
  ((raw.zipIdx.flatMap fun p => p.1.map (Prod.mk p.2)).mapM fun p =>
    legacyItem cfg H W p.1 p.2).map List.reduceOption

/-- The fourth path. -/
def extractLegacy (argsort : List ℚ → List ℕ) (cfg : Settings) (H W : ℕ)
    (raw : List (List (List ℚ))) : Option FullResult :=
  match legacyLoop cfg H W raw with
  | none => some .empty
  | some cands =>
    if cands.isEmpty then some .empty
    else suppress argsort cfg 0 false false (cands.map Candidate.box) (cands.map Candidate.score)
      (cands.map Candidate.cls)

namespace Settings

variable (exp : ℚ → ℚ) (std : List ℚ → ℚ) (argsort : List ℚ → List ℕ)

/-- `extract_detections`; `none` for an exception. -/
def extractDetections (cfg : Settings) (H W : ℕ) (cache : CenterCache) (detections : Raw) :
    Option FullResult × CenterCache :=
  match detections.asarray with
  | none => (extractLegacy argsort cfg H W detections.raw, cache)
  | some d =>
    match PostProcess.extractDetections argsort cfg.toConfig H W d with
    | some r => (r.map (⟨·, none⟩), cache)
    | none =>
      match d with
      | .two a =>
        if a.cols = 65 then
          let (d, cache) := decodeDfl exp cfg cache a
          (d.bind (finishHead argsort cfg H W true), cache)
        else if 6 ≤ a.cols then
          ((decodeYoloXywhWithHead exp std cfg a).bind (finishHead argsort cfg H W cfg.forceSc),
            cache)
        else (extractLegacy argsort cfg H W detections.raw, cache)
      | .three .. => (extractLegacy argsort cfg H W detections.raw, cache)

end Settings

/-! ### The suppression on candidates -/

/-- What the suppression keeps of the candidates at `limited`. -/
structure Chosen (cfg : Settings) (cands : List Candidate) (limited chosen : List ℕ) : Prop where
  nodup : chosen.Nodup
  subset : chosen ⊆ limited
  length : chosen.length ≤ max cfg.maxDet 0
  sorted : chosen.Pairwise fun i j =>
    (cands.getD j default).score ≤ (cands.getD i default).score
  apart : ∀ i ∈ chosen, ∀ j ∈ chosen, i ≠ j →
    (cands.getD i default).box.iou (cands.getD j default).box < cfg.iouTh
  /-- A candidate that is dropped for another reason than the limits overlaps one that is no
  worse. -/
  maximal : chosen.length < cfg.maxDet → ∀ j ∈ limited, j ∉ chosen → ∃ i ∈ chosen,
    cfg.iouTh ≤ (cands.getD i default).box.iou (cands.getD j default).box ∧
      (cands.getD j default).score ≤ (cands.getD i default).score

/-- What is returned for candidates. -/
def reportOf (xywh : Bool) (kept : List Candidate) : FullResult :=
  ⟨⟨kept.map fun c => c.box.round, kept.map Candidate.cls, kept.map fun c => clip 0 1 c.score,
      kept.length⟩,
    if xywh ∧ kept ≠ [] then
      some (kept.map fun c => xyxyToXywh c.box.round (clip 0 1 c.score) c.cls)
    else none⟩

section Suppress

variable {argsort : List ℚ → List ℕ} {cfg : Settings}

/-- The suppression keeps something else only for a limit that is negative. -/
theorem exists_suppressed (hargsort : ∀ l, Argsort l (argsort l)) (boxes : List Box)
    {scores : List ℚ} (hlength : scores.length = boxes.length) :
    ∃ keep, nmsXyxyAgnostic argsort boxes scores cfg.iouTh cfg.maxDet = some keep ∧
      Suppressed boxes scores cfg.iouTh (max cfg.maxDet 0) keep := by
  have hspec := hargsort scores
  have hperm : (argsort scores).reverse.Perm (List.range boxes.length) := by
    rw [← hlength]
    exact (List.reverse_perm _).trans hspec.perm
  have hsorted := List.pairwise_reverse.mpr hspec.sorted
  have htoNat : cfg.maxDet.toNat = (max cfg.maxDet 0).toNat := by omega
  refine ⟨_, ?_, suppressed_greedy hperm hsorted (le_max_right _ _)⟩
  rw [nmsXyxyAgnostic, nmsLoop_eq fun j hj => List.mem_range.mp (hperm.subset hj)]
  rw [List.nil_append, List.length_nil, Nat.cast_zero, sub_zero, htoNat]

theorem getD_map_of_lt {α β : Type*} (f : α → β) {xs : List α} {k : ℕ} (hk : k < xs.length)
    (d : α) (d' : β) : (xs.map f).getD k d' = f (xs.getD k d) := by
  rw [List.getD_eq_getElem _ _ (by rwa [List.length_map]), List.getD_eq_getElem _ _ hk,
    List.getElem_map]

/-- The suppression on the candidates at `limited`. -/
theorem exists_chosen (hargsort : ∀ l, Argsort l (argsort l)) (cands : List Candidate)
    {limited : List ℕ} (hnodup : limited.Nodup) :
    ∃ keep chosen, nmsXyxyAgnostic argsort
        (limited.map fun i => (cands.getD i default).box)
        (limited.map fun i => (cands.getD i default).score) cfg.iouTh cfg.maxDet = some keep ∧
      gather limited keep = some chosen ∧ Chosen cfg cands limited chosen := by
  generalize hbox : (fun i => (cands.getD i default).box) = box
  generalize hscore : (fun i => (cands.getD i default).score) = score
  have hbox' := fun i => congrFun hbox i
  have hscore' := fun i => congrFun hscore i
  obtain ⟨keep, hkeep, hspec⟩ := @exists_suppressed argsort cfg hargsort (limited.map box)
    (limited.map score) (by rw [List.length_map, List.length_map])
  have hvalid : ∀ k ∈ keep, k < limited.length := fun k hk => by
    have hlt := hspec.valid k hk
    rwa [List.length_map] at hlt
  have hboxAt : ∀ k < limited.length, (limited.map box).getD k default =
      box (limited.getD k default) := fun k hk => getD_map_of_lt box hk _ _
  have hscoreAt : ∀ k < limited.length, (limited.map score).getD k 0 =
      score (limited.getD k default) := fun k hk => getD_map_of_lt score hk _ _
  have hinj : ∀ k < limited.length, ∀ l < limited.length,
      limited.getD k default = limited.getD l default → k = l := by
    intro k hk l hl heq
    rw [List.getD_eq_getElem _ _ hk, List.getD_eq_getElem _ _ hl] at heq
    exact (List.Nodup.getElem_inj_iff hnodup).mp heq
  refine ⟨keep, _, hkeep, gather_eq_some hvalid, ⟨?_, ?_, ?_, ?_, ?_, ?_⟩⟩
  · exact hspec.nodup.map_on fun k hk l hl => hinj k (hvalid k hk) l (hvalid l hl)
  · intro i hi
    obtain ⟨k, hk, rfl⟩ := List.mem_map.mp hi
    rw [List.getD_eq_getElem _ _ (hvalid k hk)]
    exact List.getElem_mem _
  · rw [List.length_map]
    exact hspec.length
  · rw [List.pairwise_map]
    refine hspec.sorted.imp_of_mem fun {k l} hk hl h => ?_
    rw [hscoreAt k (hvalid k hk), hscoreAt l (hvalid l hl)] at h
    rw [hscore', hscore']
    exact h
  · refine List.forall_mem_map.mpr fun k hk => List.forall_mem_map.mpr fun l hl hne => ?_
    have hkl : k ≠ l := fun h => hne (by rw [h])
    have happart := hspec.apart k hk l hl hkl
    rw [iouAt, hboxAt k (hvalid k hk), hboxAt l (hvalid l hl)] at happart
    rwa [hbox', hbox']
  · intro hlt j hj homitted
    obtain ⟨l, hl, rfl⟩ := List.getElem_of_mem hj
    have hget : limited.getD l default = limited[l] := List.getD_eq_getElem _ _ hl
    have hlkeep : l ∉ keep := fun h => homitted (hget ▸ List.mem_map_of_mem h)
    rw [List.length_map] at hlt
    obtain ⟨k, hk, hiou, hle⟩ := hspec.maximal (lt_max_of_lt_left hlt) l
      (by rwa [List.length_map]) hlkeep
    rw [iouAt, hboxAt k (hvalid k hk), hboxAt l hl, hget] at hiou
    rw [hscoreAt k (hvalid k hk), hscoreAt l hl, hget] at hle
    refine ⟨_, List.mem_map_of_mem hk, ?_, ?_⟩
    · rwa [hbox', hbox']
    · rwa [hscore', hscore']

/-- An array beside the candidates, in terms of their places. -/
theorem map_eq_range_map {β : Type*} (f : Candidate → β) (cands : List Candidate) :
    cands.map f = (List.range cands.length).map fun i => f (cands.getD i default) := by
  have hmap := congrArg (List.map f) (map_getD_range cands)
  rw [List.map_map] at hmap
  exact hmap.symm

/-- The limit before the suppression. -/
theorem exists_limitedTo (hargsort : ∀ l, Argsort l (argsort l)) (cands : List Candidate)
    (topk : ℤ) :
    ∃ limited, Limited topk (fun i => (cands.getD i default).score) (List.range cands.length)
        limited ∧
      limitTopk argsort topk (cands.map Candidate.box) (cands.map Candidate.score)
          (cands.map Candidate.cls) =
        some (limited.map fun i => (cands.getD i default).box,
          limited.map fun i => (cands.getD i default).score,
          limited.map fun i => (cands.getD i default).cls) := by
  have hlength : (cands.map Candidate.box).length = (List.range cands.length).length := by
    rw [List.length_map, List.length_range]
  obtain ⟨ranked, hperm, hsorted, hslice⟩ := exists_ranked hargsort
    (fun i => (cands.getD i default).score) (List.range cands.length)
  by_cases hcut : topk ≠ 0 ∧ topk < (cands.map Candidate.box).length
  · refine ⟨pySlice ranked topk, ?_, ?_⟩
    · rw [Limited, if_pos (hlength ▸ hcut)]
      exact ⟨ranked, hperm, hsorted, rfl⟩
    · rw [limitTopk, if_pos hcut]
      simp only [map_eq_range_map, gather_map, hslice]
      rfl
  · refine ⟨List.range cands.length, ?_, ?_⟩
    · rw [Limited, if_neg (hlength ▸ hcut)]
    · rw [limitTopk, if_neg hcut]
      simp only [map_eq_range_map]

/-- **The suppression on candidates.** -/
theorem suppress_eq (hargsort : ∀ l, Argsort l (argsort l)) (topk : ℤ) {single : Bool}
    (xywh : Bool) (cands : List Candidate) (hsingle : single = true → ∀ c ∈ cands, c.cls = 0) :
    ∃ limited chosen, suppress argsort cfg topk single xywh (cands.map Candidate.box)
          (cands.map Candidate.score) (cands.map Candidate.cls) =
        some (reportOf xywh (chosen.map fun i => cands.getD i default)) ∧
      Limited topk (fun i => (cands.getD i default).score) (List.range cands.length) limited ∧
      Chosen cfg cands limited chosen := by
  obtain ⟨limited, hlimited, heq⟩ := exists_limitedTo hargsort cands topk
  obtain ⟨keep, chosen, hkeep, hgather, hchosen⟩ := @exists_chosen argsort cfg hargsort cands
    limited (hlimited.nodup List.nodup_range)
  refine ⟨limited, chosen, ?_, hlimited, hchosen⟩
  rw [suppress, heq]
  simp only [Option.bind_eq_bind, Option.bind_some, hkeep, gather_map, hgather, Option.map_some]
  have hlength : keep.length = chosen.length := (forall₂_of_mapM hgather).length_eq
  by_cases hnil : keep = []
  · rw [hnil, List.length_nil, eq_comm, List.length_eq_zero_iff] at hlength
    rw [hnil, hlength]
    cases xywh <;> rfl
  have hclasses : single = true → ((chosen.map fun i => (cands.getD i default).score).map
      (clip 0 1)).map (fun _ => 0) = chosen.map fun i => (cands.getD i default).cls := by
    intro h
    rw [List.map_map, List.map_map]
    refine List.map_congr_left fun i _ => ?_
    rcases lt_or_ge i cands.length with hi | hi
    · rw [List.getD_eq_getElem _ _ hi]
      exact (hsingle h _ (List.getElem_mem hi)).symm
    · rw [List.getD_eq_default _ _ hi]
      rfl
  have hne : chosen ≠ [] := by
    rw [Ne, ← List.length_eq_zero_iff, ← hlength, List.length_eq_zero_iff]
    exact hnil
  rw [if_neg (by rwa [List.isEmpty_iff]), reportOf]
  split
  · rename_i hs
    rw [hclasses hs, Option.pure_def, Option.bind_some]
    simp [hlength, hne, List.zip_map', List.zipWith_map, List.zipWith_self, Function.comp_def]
  · simp [hlength, hne, List.zip_map', List.zipWith_map, List.zipWith_self, Function.comp_def]

end Suppress

/-! ### The candidates -/

/-- The box of the network's image in the frame, if it is one of more than a pixel there. -/
def pixelBox (cfg : Config) (H W : ℕ) (b : Box) : Option Box :=
  match cfg.preMode with
  | .resize => (some (b.map (· * (W / cfg.netSize)) (· * (H / cfg.netSize)))).filter
      fun d => decide d.Large
  | .letterbox => letterboxed cfg H W b

/-- The boxes of a head that pass all tests. -/
def Decoded.candidates (d : Decoded) (cfg : Config) (H W : ℕ) : List Candidate :=
  ((d.boxes.zip (d.scores.zip d.classes)).filterMap fun (b, score, cls) =>
    (pixelBox cfg H W b).map fun box => ⟨box, score, cls⟩).filter
      fun c => decide (Passes cfg H W c.box)

/-- The rows of the second path, with the scores behind the distances or before them. -/
def dflDecoded (exp : ℚ → ℚ) (cfg : Settings) (a : Array2) (clsFirst : Bool) : Decoded :=
  let arr := dequantized cfg a
  let cls := fun i => arr i (if clsFirst then 0 else 64)
  if (a.rows : ℤ) = nExpect cfg.netSize then
    .ofRows (sufficient .exact exp cfg a.rows cls (List.range a.rows))
      (dflBox .exact exp cfg fun i j => arr i (if clsFirst then j + 1 else j))
      (dflScore .exact exp cfg a.rows cls) fun _ => 0
  else .empty

namespace Settings

variable (exp : ℚ → ℚ) (std : List ℚ → ℚ)

/-- The boxes that pass all tests; `none` where the decoder raises. -/
def candidates (cfg : Settings) (H W : ℕ) (detections : Raw) : Option (List Candidate) :=
  match detections.asarray with
  | some (.two a) =>
    if a.cols = 65 then
      some ((better (dflDecoded exp cfg a false) (dflDecoded exp cfg a true)).candidates
        cfg.toConfig H W)
    else if 6 ≤ a.cols then
      (decodeYoloXywhWithHead exp std cfg a).map fun d => d.candidates cfg.toConfig H W
    else some ((legacyLoop cfg H W detections.raw).getD [])
  | _ => some ((legacyLoop cfg H W detections.raw).getD [])

end Settings

section Heads

variable {argsort : List ℚ → List ℕ} {cfg : Settings} {H W : ℕ}

theorem toPixel_pixelBox (cfg : Config) (hH : 0 < H) (hW : 0 < W) (b : Box) :
    toPixel cfg H W (W / cfg.netSize) (H / cfg.netSize) b = some (pixelBox cfg H W b) := by
  rw [pixelBox]
  cases hmode : cfg.preMode with
  | letterbox => exact toPixel_eq hmode hH hW _ _ b
  | resize =>
    rw [toPixel, hmode]
    rfl

theorem filter_isSome_map {α β γ : Type*} (o : α → Option β) (f : α → γ) (xs : List α) :
    (xs.filter fun x => (o x).isSome).map f = xs.filterMap fun x => (o x).map fun _ => f x := by
  induction xs with
  | nil => rfl
  | cons x xs ih =>
    rw [List.filter_cons, List.filterMap_cons]
    cases o x with
    | none => exact ih
    | some y =>
      rw [Option.isSome_some, if_pos rfl, List.map_cons, ih]
      rfl

theorem chosen_nil (cands : List Candidate) : Chosen cfg cands [] [] := by
  refine ⟨.nil, List.nil_subset _, le_max_right _ _, .nil, ?_, ?_⟩
  · exact List.forall_mem_nil _
  · exact fun _ => List.forall_mem_nil _

/-- The rows whose boxes are boxes of the frame, with their scores and classes beside them. -/
theorem toPixelBoxes_rows (hH : 0 < H) (hW : 0 < W) (hnet : cfg.netSize ≠ 0) (rows : List ℕ)
    (box : ℕ → Box) (score : ℕ → ℚ) (cls : ℕ → ℕ) {valid : List Candidate}
    (hvalid : (rows.filterMap fun i => (pixelBox cfg.toConfig H W (box i)).map
      fun b => (⟨b, score i, cls i⟩ : Candidate)) = valid) :
    ∃ keepIdx, toPixelBoxes cfg.toConfig H W (rows.map box) =
        some (valid.map Candidate.box, keepIdx) ∧
      gather (rows.map score) keepIdx = some (valid.map Candidate.score) ∧
      gather (rows.map cls) keepIdx = some (valid.map Candidate.cls) := by
  have hnet' : (cfg.netSize : ℚ) ≠ 0 := Int.cast_ne_zero.mpr hnet
  obtain ⟨keepIdx, hpix, hgather⟩ := @toPixelBoxes_eq cfg.toConfig H W ℕ _ _ _ rows box
    (if_neg hnet') (if_neg hnet') (toPixel_pixelBox cfg.toConfig hH hW)
  have hboxes : rows.filterMap (pixelBox cfg.toConfig H W ∘ box) = valid.map Candidate.box := by
    rw [← hvalid, List.map_filterMap]
    refine List.filterMap_congr fun i _ => ?_
    rw [Option.map_map]
    exact Option.map_id'.symm
  have hbeside : ∀ {β : Type} (f : ℕ → β) (f' : Candidate → β),
      (∀ i b, f' ⟨b, score i, cls i⟩ = f i) →
      gather (rows.map f) keepIdx = some (valid.map f') := by
    intro β f f' hf
    rw [gather_map, hgather, Option.map_some, filter_isSome_map, ← hvalid, List.map_filterMap]
    congr 1
    refine List.filterMap_congr fun i _ => ?_
    rw [Option.map_map]
    exact Option.map_congr fun b _ => (hf i b).symm
  exact ⟨keepIdx, hboxes ▸ hpix, hbeside score Candidate.score fun _ _ => rfl,
    hbeside cls Candidate.cls fun _ _ => rfl⟩

/-- **A head, from its rows to the result.** -/
theorem finishHead_eq (hargsort : ∀ l, Argsort l (argsort l)) (hH : 0 < H) (hW : 0 < W)
    (hnet : cfg.netSize ≠ 0) {single : Bool} (rows : List ℕ) (box : ℕ → Box) (score : ℕ → ℚ)
    (cls : ℕ → ℕ) (hsingle : single = true → ∀ i, cls i = 0) {cands : List Candidate}
    (hcands : (Decoded.ofRows rows box score cls).candidates cfg.toConfig H W = cands) :
    ∃ limited chosen, finishHead argsort cfg H W single (.ofRows rows box score cls) =
        some (reportOf true (chosen.map fun i => cands.getD i default)) ∧
      Limited cfg.preTopk (fun i => (cands.getD i default).score) (List.range cands.length)
        limited ∧
      Chosen cfg cands limited chosen := by
  generalize hvalid : (rows.filterMap fun i => (pixelBox cfg.toConfig H W (box i)).map
    fun b => (⟨b, score i, cls i⟩ : Candidate)) = valid
  obtain ⟨keepIdx, hpix, hscores, hclasses⟩ := toPixelBoxes_rows hH hW hnet rows box score cls hvalid
  have hcands' : valid.filter (fun c => decide (Passes cfg.toConfig H W c.box)) = cands := by
    rw [← hcands, ← hvalid, Decoded.candidates, Decoded.ofRows, List.zip_map', List.zip_map',
      List.filterMap_map]
    rfl
  have hmask := fun (β : Type) (f : Candidate → β) =>
    mask_map (fun c => decide (Passes cfg.toConfig H W c.box)) f valid
  have hany := any_map_id_iff (fun c : Candidate => decide (Passes cfg.toConfig H W c.box)) valid
  have hzero : single = true → ∀ c ∈ cands, c.cls = 0 := by
    intro h c hc
    rw [← hcands', ← hvalid] at hc
    obtain ⟨i, -, hi⟩ := List.mem_filterMap.mp (List.mem_of_mem_filter hc)
    obtain ⟨b, -, rfl⟩ := Option.map_eq_some_iff.mp hi
    exact hsingle h i
  have hempty : cands = [] → ∃ limited chosen, some FullResult.empty =
        some (reportOf true (chosen.map fun i => cands.getD i default)) ∧
      Limited cfg.preTopk (fun i => (cands.getD i default).score) (List.range cands.length)
        limited ∧
      Chosen cfg cands limited chosen := by
    rintro rfl
    exact ⟨[], [], rfl, limited_nil _ _, chosen_nil _⟩
  rw [finishHead, Decoded.ofRows]
  split
  · rename_i hnil
    rw [List.isEmpty_iff, List.map_eq_nil_iff] at hnil
    refine hempty ?_
    rw [← hcands', ← hvalid, hnil]
    rfl
  simp only [hpix, Option.bind_eq_bind, Option.bind_some]
  split
  · rename_i hnil
    rw [List.isEmpty_iff, List.map_eq_nil_iff] at hnil
    refine hempty ?_
    rw [← hcands', hnil]
    rfl
  simp only [hscores, hclasses, Option.bind_some, List.map_map]
  split
  · rename_i hnone
    refine hempty ?_
    rw [← hcands']
    exact not_not.mp (mt hany.mpr hnone)
  · have hpasses : (fun b => decide (Passes cfg.toConfig H W b)) ∘ Candidate.box =
        fun c => decide (Passes cfg.toConfig H W c.box) := rfl
    rw [hpasses, hmask _ Candidate.box, hmask _ Candidate.score, hmask _ Candidate.cls, hcands']
    exact suppress_eq hargsort cfg.preTopk true cands hzero

/-- **A list of classes, from the list to the result.** -/
theorem extractLegacy_eq (hargsort : ∀ l, Argsort l (argsort l)) (raw : List (List (List ℚ)))
    {cands : List Candidate} (hcands : (legacyLoop cfg H W raw).getD [] = cands) :
    ∃ limited chosen, extractLegacy argsort cfg H W raw =
        some (reportOf false (chosen.map fun i => cands.getD i default)) ∧
      Limited 0 (fun i => (cands.getD i default).score) (List.range cands.length) limited ∧
      Chosen cfg cands limited chosen := by
  have hempty : cands = [] → ∃ limited chosen, some FullResult.empty =
        some (reportOf false (chosen.map fun i => cands.getD i default)) ∧
      Limited 0 (fun i => (cands.getD i default).score) (List.range cands.length) limited ∧
      Chosen cfg cands limited chosen := by
    rintro rfl
    exact ⟨[], [], rfl, limited_nil _ _, chosen_nil _⟩
  rw [extractLegacy]
  cases hloop : legacyLoop cfg H W raw with
  | none =>
    rw [hloop] at hcands
    exact hempty hcands.symm
  | some found =>
    rw [hloop] at hcands
    obtain rfl : found = cands := hcands
    dsimp only
    split
    · rename_i hnil
      exact hempty (List.isEmpty_iff.mp hnil)
    · exact suppress_eq hargsort 0 false found nofun

/-- The second path, up to the choice of a layout. -/
theorem decodeDfl_eq {exp : ℚ → ℚ} (hexp : ∀ x, 0 < exp x) {cache : CenterCache}
    (hcache : cache.Valid) (hnet : 0 ≤ cfg.netSize) (a : Array2) :
    (decodeDfl exp cfg cache a).1 =
      some (better (dflDecoded exp cfg a false) (dflDecoded exp cfg a true)) := by
  have hfirst : (decodeYolov8DflCore .exact exp cfg cache a.rows (dequantized cfg a)
      fun i => dequantized cfg a i 64).1 = some (dflDecoded exp cfg a false) :=
    decodeYolov8DflCore_eq hexp hcache hnet
  have hcache' := (decodeYolov8DflCore_cache .exact exp cfg a.rows (dequantized cfg a)
    (fun i => dequantized cfg a i 64) hcache).2
  have hsecond := @decodeYolov8DflCore_eq exp cfg a.rows (fun i j => dequantized cfg a i (j + 1))
    (fun i => dequantized cfg a i 0) hexp _ hcache' hnet
  rw [decodeDfl]
  dsimp only
  rw [hfirst]
  dsimp only
  rw [hsecond]
  rfl

/-- The cache does not show in the second path. -/
theorem decodeDfl_cache (exp : ℚ → ℚ) (cfg : Settings) {cache : CenterCache}
    (hcache : cache.Valid) (a : Array2) :
    (decodeDfl exp cfg cache a).1 = (decodeDfl exp cfg [] a).1 ∧
      (decodeDfl exp cfg cache a).2.Valid := by
  have hfirst := fun c hc => @decodeYolov8DflCore_cache .exact exp cfg a.rows (dequantized cfg a)
    (fun i => dequantized cfg a i 64) c hc
  have hsecond := fun c hc => @decodeYolov8DflCore_cache .exact exp cfg a.rows
    (fun i j => dequantized cfg a i (j + 1)) (fun i => dequantized cfg a i 0) c hc
  have hfirst' := hfirst cache hcache
  have hfirstNil := hfirst [] CenterCache.valid_nil
  rw [decodeDfl, decodeDfl]
  dsimp only
  rw [hfirst'.1]
  cases (decodeYolov8DflCore .exact exp cfg [] a.rows (dequantized cfg a)
    fun i => dequantized cfg a i 64).1 with
  | none => exact ⟨rfl, hfirst'.2⟩
  | some d1 =>
    dsimp only
    rw [(hsecond _ hfirst'.2).1, (hsecond _ hfirstNil.2).1]
    exact ⟨rfl, (hsecond _ hfirst'.2).2⟩

end Heads

/-! ### All ways together -/

/-- The way that is taken is one for a head. -/
def Raw.byHead (detections : Raw) : Bool :=
  match detections.asarray with
  | some (.two a) => decide (6 ≤ a.cols)
  | _ => false

/-- The limit before the suppression. -/
def Settings.topk (cfg : Settings) (detections : Raw) : ℤ :=
  if detections.byHead then cfg.preTopk else 0

/-- The suppression has not been done on the chip. -/
def Raw.OffChip (detections : Raw) : Prop := detections.asarray.bind Detections.mat = none

/-- A box in the image of the network. -/
structure Box.InNet (netSize : ℤ) (b : Box) : Prop where
  left : 0 ≤ b.x1
  right : b.x2 ≤ netSize
  top : 0 ≤ b.y1
  bottom : b.y2 ≤ netSize

/-- What passes all tests. -/
structure Candidate.Sound (cfg : Settings) (H W : ℕ) (c : Candidate) : Prop where
  inside : c.box.Inside H W
  large : c.box.Large
  score : cfg.scoreTh ≤ c.score
  nonneg : 0 ≤ c.score
  le_one : c.score ≤ 1

/-- What a head's decoder returns. -/
structure Decoded.Sound (cfg : Settings) (d : Decoded) : Prop where
  boxes : ∀ b ∈ d.boxes, b.InNet cfg.netSize
  scores : ∀ s ∈ d.scores, cfg.scoreTh ≤ s ∧ 0 ≤ s ∧ s ≤ 1

section Sound

variable {exp : ℚ → ℚ} {std : List ℚ → ℚ} {cfg : Settings} {H W : ℕ}

theorem Box.inNet_clipToNet {netSize : ℤ} (hnet : 0 ≤ netSize) (b : Box) :
    (b.clipToNet netSize).InNet netSize := by
  have hnet' : (0 : ℚ) ≤ netSize := by exact_mod_cast hnet
  exact ⟨clip_nonneg hnet', clip_le, clip_nonneg hnet', clip_le⟩

/-- A box of the network's image has its place in the frame. -/
theorem pixelBox_inside {cfg : Config} (hnet : 0 < cfg.netSize) {b box : Box}
    (hb : b.InNet cfg.netSize) (h : pixelBox cfg H W b = some box) :
    box.Inside H W ∧ box.Large := by
  rw [pixelBox] at h
  split at h
  · obtain ⟨hbox, hlarge⟩ := Option.filter_eq_some_iff.mp h
    obtain rfl := Option.some.inj hbox
    have hnet' : (0 : ℚ) < cfg.netSize := by exact_mod_cast hnet
    have hscale : ∀ n : ℕ, (0 : ℚ) ≤ n / cfg.netSize := fun n => div_nonneg n.cast_nonneg hnet'.le
    have hside : ∀ (n : ℕ) (x : ℚ), x ≤ cfg.netSize → x * (n / cfg.netSize) ≤ n := by
      intro n x hx
      calc x * (n / cfg.netSize) ≤ cfg.netSize * (n / cfg.netSize) :=
            mul_le_mul_of_nonneg_right hx (hscale n)
        _ = n := mul_div_cancel₀ _ hnet'.ne'
    exact ⟨⟨mul_nonneg hb.left (hscale W), hside W _ hb.right, mul_nonneg hb.top (hscale H),
      hside H _ hb.bottom⟩, of_decide_eq_true hlarge⟩
  · exact unletterbox_inside h

theorem Decoded.Sound.candidates {d : Decoded} (h : d.Sound cfg) (hnet : 0 < cfg.netSize) :
    ∀ c ∈ d.candidates cfg.toConfig H W, c.Sound cfg H W := by
  intro c hc
  obtain ⟨⟨b, score, cls⟩, hmem, hmap⟩ := List.mem_filterMap.mp (List.mem_of_mem_filter hc)
  obtain ⟨box, hbox, rfl⟩ := Option.map_eq_some_iff.mp hmap
  obtain ⟨hb, hrest⟩ := List.of_mem_zip hmem
  have hinside := pixelBox_inside hnet (h.boxes b hb) hbox
  obtain ⟨hscore, hnonneg, hle⟩ := h.scores score (List.of_mem_zip hrest).1
  exact ⟨hinside.1, hinside.2, hscore, hnonneg, hle⟩

theorem better_cases (d1 d2 : Decoded) : better d1 d2 = d1 ∨ better d1 d2 = d2 := by
  rw [better]
  split
  · exact .inr rfl
  · exact .inl rfl

theorem sound_dflDecoded (hexp : ∀ x, 0 < exp x) (hnet : 0 ≤ cfg.netSize) (a : Array2)
    (clsFirst : Bool) : (dflDecoded exp cfg a clsFirst).Sound cfg := by
  rw [dflDecoded]
  split
  · refine ⟨List.forall_mem_map.mpr fun i _ => Box.inNet_clipToNet hnet _,
      List.forall_mem_map.mpr fun i hi => ⟨?_, dflScore_bounds hexp i⟩⟩
    exact of_decide_eq_true (List.mem_filter.mp hi).2
  · exact ⟨List.forall_mem_nil _, List.forall_mem_nil _⟩

theorem sound_yoloHead (hexp : ∀ x, 0 < exp x) (hnet : 0 ≤ cfg.netSize) {a : Array2}
    {d : Decoded} (hd : decodeYoloXywhWithHead exp std cfg a = some d) : d.Sound cfg := by
  obtain ⟨h, hh, -⟩ := Option.bind_eq_some_iff.mp hd
  rw [decodeYoloXywhWithHead_eq hh] at hd
  obtain rfl := Option.some.inj hd
  obtain ⟨hobj, hcls⟩ := readHead_prob hexp hh
  refine ⟨List.forall_mem_map.mpr fun i _ => Box.inNet_clipToNet hnet _,
    List.forall_mem_map.mpr fun i hi => ⟨?_, ?_, ?_⟩⟩
  · have hkept := (List.mem_filter.mp hi).2
    exact of_decide_eq_true (Bool.and_eq_true_iff.mp hkept).2
  · exact mul_nonneg (hobj _).1 (hcls _).1
  · exact mul_le_one₀ (hobj _).2 (hcls _).1 (hcls _).2

theorem sound_legacyLoop {raw : List (List (List ℚ))} {cands : List Candidate}
    (hloop : legacyLoop cfg H W raw = some cands) : ∀ c ∈ cands, c.Sound cfg H W := by
  obtain ⟨items, hitems, rfl⟩ := Option.map_eq_some_iff.mp hloop
  intro c hc
  obtain ⟨⟨classId, det⟩, -, hitem⟩ := exists_of_forall₂ (forall₂_of_mapM hitems)
    (List.reduceOption_mem_iff.mp hc)
  unfold legacyItem at hitem
  split at hitem
  · rename_i x1 y1 x2 y2 score tail heq
    dsimp only at hitem
    by_cases hscore : max 0 (min 1 score) < cfg.scoreTh
    · rw [if_pos hscore] at hitem
      cases Option.some.inj hitem
    · rw [if_neg hscore] at hitem
      obtain ⟨d, hd, hitem⟩ := Option.bind_eq_some_iff.mp hitem
      obtain ⟨box, hbox, rfl⟩ := Option.map_eq_some_iff.mp (Option.some.inj hitem)
      obtain ⟨rfl, -⟩ := Option.filter_eq_some_iff.mp hbox
      obtain ⟨rh, -, hd⟩ := Option.bind_eq_some_iff.mp hd
      obtain ⟨rw, -, hd⟩ := Option.bind_eq_some_iff.mp hd
      have hinside := unletterbox_inside (Option.some.inj hd)
      exact ⟨hinside.1, hinside.2, not_lt.mp hscore, le_max_left _ _,
        max_le zero_le_one (min_le_left _ _)⟩
  · cases hitem

/-- **Every candidate lies in the frame**, with a score that is a probability and suffices. -/
theorem Settings.mem_candidates (hexp : ∀ x, 0 < exp x) (hnet : 0 < cfg.netSize)
    {detections : Raw} {cands : List Candidate}
    (h : cfg.candidates exp std H W detections = some cands) : ∀ c ∈ cands, c.Sound cfg H W := by
  have hlegacy : ∀ c ∈ (legacyLoop cfg H W detections.raw).getD [], c.Sound cfg H W := by
    cases hloop : legacyLoop cfg H W detections.raw with
    | none => exact List.forall_mem_nil _
    | some found => exact sound_legacyLoop hloop
  rw [Settings.candidates] at h
  split at h
  · rename_i a _
    split at h
    · obtain rfl := Option.some.inj h
      refine Decoded.Sound.candidates ?_ hnet
      rcases better_cases (dflDecoded exp cfg a false) (dflDecoded exp cfg a true) with heq | heq
      all_goals
        rw [heq]
        exact sound_dflDecoded hexp hnet.le a _
    · split at h
      · obtain ⟨d, hd, rfl⟩ := Option.map_eq_some_iff.mp h
        exact (sound_yoloHead hexp hnet.le hd).candidates hnet
      · obtain rfl := Option.some.inj h
        exact hlegacy
  · obtain rfl := Option.some.inj h
    exact hlegacy

/-- **Only a head's array without rows raises.** -/
theorem Settings.candidates_eq_none_iff (detections : Raw) :
    cfg.candidates exp std H W detections = none ↔
      ∃ a, detections.asarray = some (.two a) ∧ a.cols ≠ 65 ∧ 6 ≤ a.cols ∧ a.rows = 0 := by
  rw [Settings.candidates]
  constructor
  · intro h
    split at h
    · rename_i a harray
      split_ifs at h with hdfl hyolo
      refine ⟨a, harray, hdfl, hyolo, ?_⟩
      by_contra hrows
      obtain ⟨head, hhead⟩ := @exists_readHead exp std cfg a hyolo hrows
      rw [decodeYoloXywhWithHead_eq hhead] at h
      cases h
    · cases h
  · rintro ⟨a, harray, hdfl, hyolo, hrows⟩
    rw [harray]
    dsimp only
    rw [if_neg hdfl, if_pos hyolo, decodeYoloXywhWithHead, readHead_eq_none hrows]
    rfl

end Sound

section All

variable {exp : ℚ → ℚ} {std : List ℚ → ℚ} {argsort : List ℚ → List ℕ} {cfg : Settings} {H W : ℕ}
  {cache : CenterCache} {detections : Raw} {cands : List Candidate}

/-- The function on what was not suppressed on the chip. -/
theorem Settings.extractDetections_offChip (hchip : detections.OffChip) :
    cfg.extractDetections exp std argsort H W cache detections =
      match detections.asarray with
      | some (.two a) =>
        if a.cols = 65 then
          ((decodeDfl exp cfg cache a).1.bind (finishHead argsort cfg H W true),
            (decodeDfl exp cfg cache a).2)
        else if 6 ≤ a.cols then
          ((decodeYoloXywhWithHead exp std cfg a).bind (finishHead argsort cfg H W cfg.forceSc),
            cache)
        else (extractLegacy argsort cfg H W detections.raw, cache)
      | _ => (extractLegacy argsort cfg H W detections.raw, cache) := by
  rw [Settings.extractDetections]
  rw [Raw.OffChip] at hchip
  cases harray : detections.asarray with
  | none => rfl
  | some d =>
    rw [harray, Option.bind_some] at hchip
    dsimp only
    rw [PostProcess.extractDetections, hchip, Option.map_none]
    cases d <;> rfl

/-- The rows of a head. -/
theorem exists_ofRows_dflDecoded (exp : ℚ → ℚ) (cfg : Settings) (a : Array2) (clsFirst : Bool) :
    ∃ rows box score, dflDecoded exp cfg a clsFirst = .ofRows rows box score fun _ => 0 := by
  rw [dflDecoded]
  split
  · exact ⟨_, _, _, rfl⟩
  · exact ⟨[], fun _ => default, fun _ => 0, rfl⟩

/-- Where there are no candidates, the decoder has raised. -/
theorem Settings.extractDetections_of_candidates_eq_none (hchip : detections.OffChip)
    (hcands : cfg.candidates exp std H W detections = none) :
    (cfg.extractDetections exp std argsort H W cache detections).1 = none := by
  obtain ⟨a, harray, hdfl, hyolo, hrows⟩ := (candidates_eq_none_iff detections).mp hcands
  rw [extractDetections_offChip hchip, harray]
  dsimp only
  rw [if_neg hdfl, if_pos hyolo, decodeYoloXywhWithHead, readHead_eq_none hrows]
  rfl

/-- **What is returned for the candidates.** -/
theorem Settings.extractDetections_of_candidates (hargsort : ∀ l, Argsort l (argsort l))
    (hexp : ∀ x, 0 < exp x) (hH : 0 < H) (hW : 0 < W) (hnet : 0 < cfg.netSize)
    (hcache : cache.Valid) (hchip : detections.OffChip)
    (hcands : cfg.candidates exp std H W detections = some cands) :
    ∃ limited chosen, (cfg.extractDetections exp std argsort H W cache detections).1 =
        some (reportOf detections.byHead (chosen.map fun i => cands.getD i default)) ∧
      Limited (cfg.topk detections) (fun i => (cands.getD i default).score)
        (List.range cands.length) limited ∧
      Chosen cfg cands limited chosen := by
  have htopk : ∀ b, detections.byHead = b → cfg.topk detections = if b then cfg.preTopk else 0 :=
    fun b hb => by rw [Settings.topk, hb]
  rw [extractDetections_offChip hchip]
  rw [Settings.candidates] at hcands
  split at hcands
  · rename_i a harray
    have hby : detections.byHead = decide (6 ≤ a.cols) := by rw [Raw.byHead, harray]
    split_ifs at hcands with hdfl hyolo
    · have hhead : detections.byHead = true := hby.trans (decide_eq_true (by omega))
      obtain rfl := Option.some.inj hcands
      obtain ⟨rows, box, score, hdecoded⟩ : ∃ rows box score, better (dflDecoded exp cfg a false)
          (dflDecoded exp cfg a true) = .ofRows rows box score fun _ => 0 := by
        rcases better_cases (dflDecoded exp cfg a false) (dflDecoded exp cfg a true) with h | h
        all_goals
          rw [h]
          exact exists_ofRows_dflDecoded exp cfg a _
      rw [htopk true hhead, hhead, if_pos rfl, if_pos hdfl, decodeDfl_eq hexp hcache hnet.le,
        Option.bind_some, hdecoded]
      exact finishHead_eq hargsort hH hW hnet.ne' rows box score _ (fun _ _ => rfl) rfl
    · have hhead : detections.byHead = true := hby.trans (decide_eq_true hyolo)
      obtain ⟨d, hd, rfl⟩ := Option.map_eq_some_iff.mp hcands
      obtain ⟨head, hread, -⟩ := Option.bind_eq_some_iff.mp hd
      have hrows := hd
      rw [decodeYoloXywhWithHead_eq hread] at hrows
      obtain rfl := Option.some.inj hrows
      rw [htopk true hhead, hhead, if_pos rfl, if_neg hdfl, if_pos hyolo, hd, Option.bind_some]
      exact finishHead_eq hargsort hH hW hnet.ne' _ _ _ _
        (fun hforce i => by rw [Head.classId, if_pos hforce]) rfl
    · have hlist : detections.byHead = false := hby.trans (decide_eq_false hyolo)
      obtain rfl := Option.some.inj hcands
      rw [htopk false hlist, hlist, if_neg hdfl, if_neg hyolo]
      exact extractLegacy_eq hargsort detections.raw rfl
  · rename_i hother
    have hlist : detections.byHead = false := by
      rw [Raw.byHead]
      split
      · rename_i a harray
        exact absurd harray (hother a)
      · rfl
    obtain rfl := Option.some.inj hcands
    rw [htopk false hlist, hlist]
    exact extractLegacy_eq hargsort detections.raw rfl

/-- **What was not suppressed on the chip.** The function raises only on the rows of a head of which
there are none. Otherwise it returns candidates, and every candidate is a box in the frame with a
score that is a probability and suffices. Those that are returned are among the best that the limit
before the suppression leaves, no two of them overlap too much, the better ones come first, and one
that is missing overlaps a better one, unless there are as many as may be returned. -/
theorem Settings.extractDetections_suppressed (hargsort : ∀ l, Argsort l (argsort l))
    (hexp : ∀ x, 0 < exp x) (hH : 0 < H) (hW : 0 < W) (hnet : 0 < cfg.netSize)
    (hcache : cache.Valid) (hchip : detections.OffChip) :
    ((cfg.extractDetections exp std argsort H W cache detections).1 = none ↔
        ∃ a, detections.asarray = some (.two a) ∧ a.cols ≠ 65 ∧ 6 ≤ a.cols ∧ a.rows = 0) ∧
      ∀ r, (cfg.extractDetections exp std argsort H W cache detections).1 = some r →
        ∃ cands limited chosen, cfg.candidates exp std H W detections = some cands ∧
          (∀ c ∈ cands, c.Sound cfg H W) ∧
          Limited (cfg.topk detections) (fun i => (cands.getD i default).score)
            (List.range cands.length) limited ∧
          Chosen cfg cands limited chosen ∧
          r = reportOf detections.byHead (chosen.map fun i => cands.getD i default) := by
  have hraises := @Settings.candidates_eq_none_iff exp std cfg H W detections
  cases hcands : cfg.candidates exp std H W detections with
  | none =>
    have hnone : (cfg.extractDetections exp std argsort H W cache detections).1 = none :=
      extractDetections_of_candidates_eq_none hchip hcands
    refine ⟨iff_of_true hnone (hraises.mp hcands), fun r hr => ?_⟩
    rw [hnone] at hr
    cases hr
  | some cands =>
    obtain ⟨limited, chosen, heq, hlimited, hchosen⟩ := extractDetections_of_candidates hargsort
      hexp hH hW hnet hcache hchip hcands
    rw [hcands] at hraises
    rw [heq]
    refine ⟨iff_of_false (Option.some_ne_none _) (mt hraises.mpr (Option.some_ne_none _)),
      fun r hr => ?_⟩
    exact ⟨cands, limited, chosen, rfl, mem_candidates hexp hnet hcands, hlimited, hchosen,
      (Option.some.inj hr).symm⟩

/-- A call of the function. -/
structure Call where
  cfg : Settings
  height : ℕ
  width : ℕ
  detections : Raw

/-- One call after the other. -/
def extractAll (exp : ℚ → ℚ) (std : List ℚ → ℚ) (argsort : List ℚ → List ℕ) :
    CenterCache → List Call → List (Option FullResult)
  | _, [] => []
  | cache, c :: cs =>
    let (r, cache) :=
      c.cfg.extractDetections exp std argsort c.height c.width cache c.detections
    r :: extractAll exp std argsort cache cs

/-- The cache does not show in what is returned. -/
theorem Settings.extractDetections_cache (cfg : Settings) (H W : ℕ) (hcache : cache.Valid)
    (detections : Raw) :
    (cfg.extractDetections exp std argsort H W cache detections).1 =
        (cfg.extractDetections exp std argsort H W [] detections).1 ∧
      (cfg.extractDetections exp std argsort H W cache detections).2.Valid := by
  rw [Settings.extractDetections, Settings.extractDetections]
  cases detections.asarray with
  | none => exact ⟨rfl, hcache⟩
  | some d =>
    dsimp only
    cases PostProcess.extractDetections argsort cfg.toConfig H W d with
    | some r => exact ⟨rfl, hcache⟩
    | none =>
      cases d with
      | three batch rows cols entry => exact ⟨rfl, hcache⟩
      | two a =>
        obtain ⟨hfirst, hvalid⟩ := decodeDfl_cache exp cfg hcache a
        dsimp only
        split
        · exact ⟨congrArg (Option.bind · _) hfirst, hvalid⟩
        · split <;> exact ⟨rfl, hcache⟩

theorem extractAll_of_valid (hcache : cache.Valid) (calls : List Call) :
    extractAll exp std argsort cache calls = calls.map fun c =>
      (c.cfg.extractDetections exp std argsort c.height c.width [] c.detections).1 := by
  induction calls generalizing cache with
  | nil => rfl
  | cons c cs ih =>
    have hcall := @Settings.extractDetections_cache exp std argsort cache c.cfg c.height c.width
      hcache c.detections
    rw [extractAll, List.map_cons]
    dsimp only
    rw [hcall.1, ih hcall.2]

/-- **The cache does not show**, whatever the settings and the frames of the calls are. -/
theorem extractAll_eq (exp : ℚ → ℚ) (std : List ℚ → ℚ) (argsort : List ℚ → List ℕ)
    (calls : List Call) :
    extractAll exp std argsort [] calls = calls.map fun c =>
      (c.cfg.extractDetections exp std argsort c.height c.width [] c.detections).1 :=
  extractAll_of_valid CenterCache.valid_nil calls

end All

section Example

/-- Two classes with two boxes each, of which the first ones overlap. -/
def listExample : Raw :=
  .list [[[0, 0, 100, 100, 9 / 10], [200, 200, 300, 300, 6 / 10]],
    [[1, 1, 101, 101, 8 / 10], [0, 200, 100, 300, 1 / 10]]]

theorem Settings.extractDetections_suppressed_witness :
    ∃ cands limited chosen, (settingsExample 320 10 0).candidates (fun _ => 1) (fun _ => 0) 320 320
        listExample = some cands ∧ (∀ c ∈ cands, c.Sound (settingsExample 320 10 0) 320 320) ∧
      Chosen (settingsExample 320 10 0) cands limited chosen := by
  have hspec := @Settings.extractDetections_suppressed (fun _ => 1) (fun _ => 0) stableArgsort
    (settingsExample 320 10 0) 320 320 [] listExample argsort_stableArgsort (fun _ => zero_lt_one)
    (by decide) (by decide) (by decide) CenterCache.valid_nil rfl
  have hsome : ((settingsExample 320 10 0).extractDetections (fun _ => 1) (fun _ => 0)
      stableArgsort 320 320 [] listExample).1 ≠ none := by
    rw [Ne, hspec.1]
    rintro ⟨a, ha, -⟩
    cases ha
  obtain ⟨r, hr⟩ := Option.ne_none_iff_exists'.mp hsome
  obtain ⟨cands, limited, chosen, hcands, hsound, -, hchosen, -⟩ := hspec.2 r hr
  exact ⟨cands, limited, chosen, hcands, hsound, hchosen⟩

end Example

end PostProcess

end DroneTurret
