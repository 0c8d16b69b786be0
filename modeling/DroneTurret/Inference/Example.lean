import DroneTurret.ObjectDetectionFin.Handler
import DroneTurret.PostProcess.Paths
import DroneTurret.Vision.Snapshots
import DroneTurret.Vision.Tracking

/-!
# From the network to the target

`example` is what the vision process calls for a frame: it gives the result of the network to
`inference_result_handler` and returns the detections with their labels. The handler rounds the
boxes, clips them to the frame and leaves out those that are not wider and higher than a pixel after
that. The vision process clips them once more and selects the largest one that is accurate.

Its own clipping changes nothing, and no detection is lost for being empty.

## Main definitions

* `listDetections`, `handler` — what the handler lists for a result, and for the network's output
* `resultForPp` — the output that is processed
* `exampleDet` — what `example` makes of an entry
* `Sized` — a box with an inside
* `PostProcess.Result.Balanced` — the lists of a result belong together

## Main results

* `balanced_extractDetections` — every result is balanced, whichever way it was extracted
* `target_of_example` — the target for a result of the network
-/

namespace DroneTurret

namespace PostProcess

/-- The three lists are as long as each other, and the scores are probabilities that suffice. -/
structure Result.Balanced (scoreTh : ℚ) (r : Result) : Prop where
  classes : r.classes.length = r.boxes.length
  scores : r.scores.length = r.boxes.length
  nonneg : ∀ s ∈ r.scores, 0 ≤ s
  le_one : ∀ s ∈ r.scores, s ≤ 1
  suffice : scoreTh ≤ 1 → ∀ s ∈ r.scores, scoreTh ≤ s

/-- Scores that suffice are clipped to probabilities that do. -/
theorem Result.balanced_of_map {α : Type*} {scoreTh : ℚ} {as : List α}
    (box : α → ℤ × ℤ × ℤ × ℤ) (cls : α → ℕ) (score : α → ℚ) (n : ℕ)
    (h : ∀ a ∈ as, scoreTh ≤ score a) :
    Result.Balanced scoreTh ⟨as.map box, as.map cls, as.map fun a => clip 0 1 (score a), n⟩ where
  classes := by rw [List.length_map, List.length_map]
  scores := by rw [List.length_map, List.length_map]
  nonneg := List.forall_mem_map.mpr fun _ _ => clip_nonneg zero_le_one
  le_one := List.forall_mem_map.mpr fun _ _ => clip_le
  suffice hone := List.forall_mem_map.mpr fun a ha =>
    le_min ((h a ha).trans (le_max_left _ _)) hone

section Balanced

variable {exp : ℚ → ℚ} {std : List ℚ → ℚ} {argsort : List ℚ → List ℕ} {cfg : Settings} {H W : ℕ}
  {cache : CenterCache} {detections : Raw}

/-- A box is turned into pixels without an exception. -/
theorem exists_toPixel (cfg : Config) (hH : 0 < H) (hW : 0 < W) (sx sy : ℚ) :
    ∃ g : Box → Option Box, ∀ b, toPixel cfg H W sx sy b = some (g b) := by
  cases hmode : cfg.preMode with
  | letterbox => exact ⟨letterboxed cfg H W, toPixel_eq hmode hH hW sx sy⟩
  | resize =>
    refine ⟨fun b => (some (b.map (· * sx) (· * sy))).filter fun d => decide d.Large, fun b => ?_⟩
    rw [toPixel, hmode]
    rfl

/-- What the first path returns, in either orientation. -/
theorem balanced_onChip (hargsort : ∀ l, Argsort l (argsort l)) (hH : 0 < H) (hW : 0 < W)
    {cfg : Config} (hnet : cfg.netSize ≠ 0) {d : Detections} {o : Option Result}
    (ho : extractDetections argsort cfg H W d = some o) :
    ∃ r, o = some r ∧ r.Balanced cfg.scoreTh := by
  obtain ⟨mat, hmat, rfl⟩ := Option.map_eq_some_iff.mp ho
  have hnet' : (cfg.netSize : ℚ) ≠ 0 := Int.cast_ne_zero.mpr hnet
  obtain ⟨g, hg⟩ := exists_toPixel cfg hH hW (W / cfg.netSize) (H / cfg.netSize)
  have hconvert : ∀ tag, convert cfg H W mat tag = _ := fun tag =>
    convert_eq (if_neg hnet') (if_neg hnet') hg
  obtain ⟨tag, horient⟩ : ∃ tag, orient cfg H W mat = convert cfg H W mat tag := by
    rw [orient]
    split
    · exact ⟨_, rfl⟩
    · rw [hconvert .xyxy, hconvert .yxyx]
      simp only [Option.bind_eq_bind, Option.bind_some]
      split
      · exact ⟨.yxyx, (hconvert .yxyx).symm⟩
      · exact ⟨.xyxy, (hconvert .xyxy).symm⟩
  obtain ⟨cols, hfinish, hlimited⟩ := @finish_eq argsort cfg H W hargsort
    (fun j => (g (mat.box tag j)).getD default) mat.score (validColumns cfg mat tag g)
  refine ⟨resultOf (fun j => (g (mat.box tag j)).getD default) mat.score cols, ?_, ?_⟩
  · rw [horient, hconvert]
    exact hfinish
  · refine Result.balanced_of_map _ (fun _ => 0) mat.score _ fun j hj => ?_
    have hvalid := List.mem_of_mem_filter (hlimited.subperm.subset hj)
    rw [validColumns, List.mem_filter, List.mem_filter] at hvalid
    exact of_decide_eq_true hvalid.1.2

/-- **Every result is balanced.** -/
theorem balanced_extractDetections (hargsort : ∀ l, Argsort l (argsort l))
    (hexp : ∀ x, 0 < exp x) (hH : 0 < H) (hW : 0 < W) (hnet : 0 < cfg.netSize)
    (hcache : cache.Valid) {r : FullResult}
    (hr : (cfg.extractDetections exp std argsort H W cache detections).1 = some r) :
    r.toResult.Balanced cfg.scoreTh := by
  cases hchip : detections.asarray.bind Detections.mat with
  | some mat =>
    obtain ⟨d, hd, hmat⟩ := Option.bind_eq_some_iff.mp hchip
    obtain ⟨o, ho⟩ : ∃ o, PostProcess.extractDetections argsort cfg.toConfig H W d = some o :=
      ⟨_, congrArg (Option.map _) hmat⟩
    obtain ⟨r', ho', hr'⟩ := balanced_onChip hargsort hH hW hnet.ne' ho
    rw [Settings.extractDetections, hd] at hr
    dsimp only at hr
    rw [ho, ho'] at hr
    obtain rfl := Option.some.inj hr
    exact hr'
  | none =>
    cases hcands : cfg.candidates exp std H W detections with
    | none =>
      rw [Settings.extractDetections_of_candidates_eq_none hchip hcands] at hr
      cases hr
    | some cands =>
      obtain ⟨limited, chosen, hextract, hlimited, hchosen⟩ :=
        Settings.extractDetections_of_candidates hargsort hexp hH hW hnet hcache hchip hcands
      rw [hextract] at hr
      obtain rfl := Option.some.inj hr
      refine Result.balanced_of_map _ _ Candidate.score _ fun c hc => ?_
      obtain ⟨i, hi, rfl⟩ := List.mem_map.mp hc
      have hlt := List.mem_range.mp (hlimited.subperm.subset (hchosen.subset hi))
      rw [List.getD_eq_getElem _ _ hlt]
      exact (Settings.mem_candidates hexp hnet hcands _ (List.getElem_mem hlt)).score

end Balanced

end PostProcess

namespace Inference

open CString PostProcess ObjectDetectionFin Decimal

/-! ### The list of the handler -/

/-- `np.clip(_, 0, n - 1)`. -/
def clipPixel (n : ℕ) (v : ℤ) : ℤ := min (max v 0) (n - 1)

/-- `inference_result_handler` with `return_detection`. A list that is empty counts as missing. -/
def listDetections (H W : ℕ) (detRaw : Result) : List Detection :=
  let classes := if detRaw.classes = [] then detRaw.boxes.map fun _ => 0 else detRaw.classes
  let scores := if detRaw.scores = [] then detRaw.boxes.map fun _ => 1 else detRaw.scores
  ((detRaw.boxes.zip (classes.zip scores)).map fun ((x1, y1, x2, y2), ci, sc) =>
    ⟨ci, sc, sc, clipPixel W x1, clipPixel H y1, clipPixel W x2, clipPixel H y2⟩).filter
      fun d => decide d.Kept

/-- `_pick_nms_stream`, where the streams have names. -/
def pickNmsStream (outputs : List (List Byte × Raw)) : Option Raw :=
  let nms := outputs.find? fun p => decide (bytes "nms" <:+: Vision.lower p.1)
  (nms.or outputs.head?).map Prod.snd

/-- The stream that is processed, `None` if there is none. -/
def resultForPp (outputs : List (List Byte × Raw)) : Raw :=
  match outputs with
  | [p] => p.2
  | _ => (pickNmsStream outputs).getD (.list [])

/-- What the handler lists for the output of the network; `none` for an exception. -/
def handler (exp : ℚ → ℚ) (std : List ℚ → ℚ) (argsort : List ℚ → List ℕ) (cfg : Settings)
    (H W : ℕ) (cache : CenterCache) (out : Raw) : Option (List Detection) :=
  (cfg.extractDetections exp std argsort H W cache out).1.map fun r => listDetections H W r.toResult

/-- `lbl`: the label of a class, or its number. -/
def lblOf (labels : List (List Byte)) (cid : ℕ) : List Byte :=
  if cid < labels.length then labels.getD cid [] else digits cid

/-- An entry of what `example` returns. -/
def exampleDet (labels : List (List Byte)) (d : Detection) : Vision.Hailo.Detection :=
  ⟨lblOf labels d.classId, d.x1, d.y1, d.x2, d.y2, d.accuracy⟩

/-- A box that is wider and higher than a pixel inside the frame, with a probability. -/
structure Sized (H W : ℕ) (d : Detection) : Prop where
  x : 0 ≤ d.x1 ∧ d.x1 + 1 < d.x2 ∧ d.x2 < W
  y : 0 ≤ d.y1 ∧ d.y1 + 1 < d.y2 ∧ d.y2 < H
  accuracy : d.accuracy = d.score ∧ 0 < d.accuracy ∧ d.accuracy ≤ 1

def area (d : Detection) : ℤ := (d.x2 - d.x1) * (d.y2 - d.y1)

section Handler

variable {H W : ℕ}

theorem clipPixel_mem (hW : 0 < W) (v : ℤ) : 0 ≤ clipPixel W v ∧ clipPixel W v < W := by
  rw [clipPixel]
  omega

/-- What is listed comes from an entry of the result. -/
theorem exists_of_mem_listDetections {scoreTh : ℚ} {r : Result} (hr : r.Balanced scoreTh)
    {d : Detection} (hd : d ∈ listDetections H W r) :
    d.Kept ∧ ∃ b ∈ r.boxes, ∃ s ∈ r.scores, ∃ ci,
      d = ⟨ci, s, s, clipPixel W b.1, clipPixel H b.2.1, clipPixel W b.2.2.1,
        clipPixel H b.2.2.2⟩ := by
  obtain ⟨hmem, hkept⟩ := List.mem_filter.mp hd
  obtain ⟨⟨b, ci, s⟩, hb, rfl⟩ := List.mem_map.mp hmem
  have hzip := List.of_mem_zip hb
  have hs := (List.of_mem_zip hzip.2).2
  refine ⟨of_decide_eq_true hkept, b, hzip.1, s, ?_, ci, rfl⟩
  rwa [if_neg] at hs
  intro hempty
  have hboxes : r.boxes = [] := by
    rw [← List.length_eq_zero_iff, ← hr.scores, hempty, List.length_nil]
  rw [hboxes] at hzip
  exact List.not_mem_nil hzip.1

theorem sized_of_mem {scoreTh : ℚ} {r : Result} (hr : r.Balanced scoreTh) (hH : 0 < H)
    (hW : 0 < W) {d : Detection} (hd : d ∈ listDetections H W r) :
    Sized H W d ∧ (scoreTh ≤ 1 → scoreTh ≤ d.accuracy) := by
  obtain ⟨hkept, b, -, s, hs, ci, rfl⟩ := exists_of_mem_listDetections hr hd
  obtain ⟨hx, hy, hscore⟩ := hkept
  have hx1 := clipPixel_mem hW b.1
  have hx2 := clipPixel_mem hW b.2.2.1
  have hy1 := clipPixel_mem hH b.2.1
  have hy2 := clipPixel_mem hH b.2.2.2
  dsimp only at hx hy hscore
  refine ⟨⟨⟨hx1.1, ?_, hx2.2⟩, ⟨hy1.1, ?_, hy2.2⟩, rfl, hscore, hr.le_one s hs⟩,
    fun hone => hr.suffice hone s hs⟩
  · dsimp only
    omega
  · dsimp only
    omega

/-- **What is listed** lies in the frame, with probabilities that suffice. -/
theorem sound_handler {exp : ℚ → ℚ} {std : List ℚ → ℚ} {argsort : List ℚ → List ℕ} {cfg : Settings}
    {cache : CenterCache} {out : Raw} (hargsort : ∀ l, Argsort l (argsort l))
    (hexp : ∀ x, 0 < exp x) (hH : 0 < H) (hW : 0 < W) (hnet : 0 < cfg.netSize)
    (hcache : cache.Valid) :
    ∀ d ∈ (handler exp std argsort cfg H W cache out).getD [],
      Sized H W d ∧ (cfg.scoreTh ≤ 1 → cfg.scoreTh ≤ d.accuracy) := by
  intro d hd
  cases hr : (cfg.extractDetections exp std argsort H W cache out).1 with
  | none =>
    rw [handler, hr] at hd
    cases hd
  | some r =>
    rw [handler, hr] at hd
    exact sized_of_mem (balanced_extractDetections hargsort hexp hH hW hnet hcache hr) hH hW hd

end Handler

/-! ### The target -/

section Target

open Vision (Box clampInt confTh Target)

variable {H W : ℕ} {labels : List (List Byte)}

/-- A coordinate inside is not clamped. -/
theorem val_clampInt {n x : ℤ} (h0 : 0 ≤ x) (hlt : x < n) : (clampInt n x).val = x := by
  change max 0 (min (n - 1) x) = x
  omega

/-- A detection that is accurate is a candidate, with its own box. -/
theorem exists_candidate (labels : List (List Byte)) {d : Detection} (hd : Sized H W d)
    (hacc : confTh ≤ d.accuracy) :
    ∃ b : Box W H, (b.x1, b.y1, b.x2, b.y2) = (d.x1, d.y1, d.x2, d.y2) ∧
      Vision.Hailo.candidate W H (exampleDet labels d) =
        some ⟨area d, d.accuracy, lblOf labels d.classId, b⟩ := by
  have hx := hd.x
  have hy := hd.y
  have hx1 : (clampInt W d.x1).val = d.x1 := val_clampInt hx.1 (by omega)
  have hy1 : (clampInt H d.y1).val = d.y1 := val_clampInt hy.1 (by omega)
  have hx2 : (clampInt W d.x2).val = d.x2 := val_clampInt (by omega) hx.2.2
  have hy2 : (clampInt H d.y2).val = d.y2 := val_clampInt (by omega) hy.2.2
  cases hb : Box.of? (clampInt W d.x1) (clampInt H d.y1) (clampInt W d.x2) (clampInt H d.y2) with
  | none =>
    rw [Box.of?_eq_none_iff] at hb
    omega
  | some b =>
    have hcorners : (b.x1, b.y1, b.x2, b.y2) = (d.x1, d.y1, d.x2, d.y2) := by
      rw [Box.of?] at hb
      split at hb
      · cases hb
      · obtain rfl := Option.some.inj hb
        simp only [hx1, hy1, hx2, hy2]
    refine ⟨b, hcorners, ?_⟩
    have harea : b.area = area d := by
      obtain ⟨h1, h2, h3, h4⟩ : b.x1 = d.x1 ∧ b.y1 = d.y1 ∧ b.x2 = d.x2 ∧ b.y2 = d.y2 := by
        simpa only [Prod.mk.injEq] using hcorners
      rw [Vision.Box.area, area, h1, h2, h3, h4]
    rw [← harea]
    exact (if_neg (not_lt.mpr hacc)).trans (congrArg (Option.map _) hb)

theorem candidate_eq_none_iff {d : Detection} (hd : Sized H W d) :
    Vision.Hailo.candidate W H (exampleDet labels d) = none ↔ d.accuracy < confTh := by
  constructor
  · intro hnone
    by_contra hacc
    obtain ⟨b, -, hb⟩ := exists_candidate labels hd (not_lt.mp hacc)
    rw [hnone] at hb
    cases hb
  · intro hacc
    rw [Vision.Hailo.candidate]
    exact if_pos hacc

variable {dets : List Detection}

/-- The candidates are the accurate detections, in order. -/
theorem target_eq_none_iff (labels : List (List Byte)) (hdets : ∀ d ∈ dets, Sized H W d)
    (depthFrame : Option (ℤ → ℤ → ℚ)) :
    Vision.Hailo.target W H ⟨dets.map (exampleDet labels), depthFrame⟩ = none ↔
      ∀ d ∈ dets, d.accuracy < confTh := by
  rw [Vision.Hailo.target, Option.map_eq_none_iff, Vision.Hailo.best, List.argmax_eq_none,
    Vision.Hailo.candidates, List.filterMap_eq_nil_iff, List.forall_mem_map]
  exact forall₂_congr fun d hd => candidate_eq_none_iff (hdets d hd)

/-- The detection behind a candidate. -/
theorem exists_of_candidate {d : Detection} (hd : Sized H W d)
    {c : Vision.Hailo.Candidate (W : ℤ) H}
    (hc : Vision.Hailo.candidate W H (exampleDet labels d) = some c) :
    confTh ≤ d.accuracy ∧ c.area = area d ∧ c.acc = d.accuracy ∧
      (c.box.x1, c.box.y1, c.box.x2, c.box.y2) = (d.x1, d.y1, d.x2, d.y2) := by
  have hacc : confTh ≤ d.accuracy := by
    refine not_lt.mp fun hlt => ?_
    rw [(candidate_eq_none_iff hd).mpr hlt] at hc
    cases hc
  obtain ⟨b, hcorners, hb⟩ := exists_candidate labels hd hacc
  rw [hb] at hc
  obtain rfl := Option.some.inj hc
  exact ⟨hacc, rfl, rfl, hcorners⟩

/-- The target is the largest of the accurate detections, and among these the most accurate. -/
theorem exists_of_target (hdets : ∀ d ∈ dets, Sized H W d) {depthFrame : Option (ℤ → ℤ → ℚ)}
    {t : Target (W : ℤ) H}
    (ht : Vision.Hailo.target W H ⟨dets.map (exampleDet labels), depthFrame⟩ = some t) :
    ∃ d ∈ dets, confTh ≤ d.accuracy ∧
      (t.box.x1, t.box.y1, t.box.x2, t.box.y2) = (d.x1, d.y1, d.x2, d.y2) ∧
      ∀ e ∈ dets, confTh ≤ e.accuracy →
        area e < area d ∨ area e = area d ∧ e.accuracy ≤ d.accuracy := by
  obtain ⟨c, hbest, rfl⟩ := Option.map_eq_some_iff.mp ht
  have hmem := List.argmax_mem hbest
  rw [Vision.Hailo.candidates, List.filterMap_map, List.mem_filterMap] at hmem
  obtain ⟨d, hd, hc⟩ := hmem
  obtain ⟨hacc, harea, hscore, hcorners⟩ := exists_of_candidate (hdets d hd) hc
  refine ⟨d, hd, hacc, hcorners, fun e he heacc => ?_⟩
  obtain ⟨b, -, hb⟩ := exists_candidate labels (hdets e he) heacc
  have hle := List.le_of_mem_argmax (List.mem_filterMap.mpr
    ⟨exampleDet labels e, List.mem_map_of_mem he, hb⟩) hbest
  rw [← harea, ← hscore]
  exact Prod.Lex.toLex_le_toLex.mp hle

end Target

/-- **The target of a frame**, whatever the network gives for it. All detections lie in the frame
and have probabilities that suffice. There is a target exactly if one of them is accurate, so with a
sufficient threshold exactly if there is a detection, and it is the largest of the accurate ones,
among these the most accurate. An exception counts as no detection. -/
theorem target_of_example {exp : ℚ → ℚ} {std : List ℚ → ℚ} {argsort : List ℚ → List ℕ}
    {cfg : Settings} {H W : ℕ} {cache : CenterCache} (hargsort : ∀ l, Argsort l (argsort l))
    (hexp : ∀ x, 0 < exp x) (hH : 0 < H) (hW : 0 < W) (hnet : 0 < cfg.netSize)
    (hcache : cache.Valid) (labels : List (List Byte))
    (outputs : List (List Byte × Raw)) (depthFrame : Option (ℤ → ℤ → ℚ)) :
    let dets := (handler exp std argsort cfg H W cache (resultForPp outputs)).getD []
    let target := Vision.Hailo.target W H ⟨dets.map (exampleDet labels), depthFrame⟩
    (∀ d ∈ dets, Sized H W d ∧ (cfg.scoreTh ≤ 1 → cfg.scoreTh ≤ d.accuracy)) ∧
      (target = none ↔ ∀ d ∈ dets, d.accuracy < Vision.confTh) ∧
      (Vision.confTh ≤ cfg.scoreTh → cfg.scoreTh ≤ 1 → (target = none ↔ dets = [])) ∧
      ∀ t, target = some t → ∃ d ∈ dets, Vision.confTh ≤ d.accuracy ∧
        (t.box.x1, t.box.y1, t.box.x2, t.box.y2) = (d.x1, d.y1, d.x2, d.y2) ∧
        ∀ e ∈ dets, Vision.confTh ≤ e.accuracy →
          area e < area d ∨ area e = area d ∧ e.accuracy ≤ d.accuracy := by
  intro dets target
  have hsound : ∀ d ∈ dets, Sized H W d ∧ (cfg.scoreTh ≤ 1 → cfg.scoreTh ≤ d.accuracy) :=
    sound_handler hargsort hexp hH hW hnet hcache
  have hsized : ∀ d ∈ dets, Sized H W d := fun d hd => (hsound d hd).1
  have hnone := target_eq_none_iff labels hsized depthFrame
  refine ⟨hsound, hnone, fun hth hone => hnone.trans ?_, fun t => exists_of_target hsized⟩
  constructor
  · intro h
    refine List.eq_nil_iff_forall_not_mem.mpr fun d hd => ?_
    exact absurd (hth.trans ((hsound d hd).2 hone)) (not_le.mpr (h d hd))
  · intro h
    rw [h]
    exact List.forall_mem_nil _

/-- Two detections are left of the four of the example. -/
theorem target_of_example_witness :
    let dets := (handler (fun _ => 1) (fun _ => 0) stableArgsort (settingsExample 320 10 0) 320 320
      [] (resultForPp [([], listExample)])).getD []
    ∃ t, Vision.Hailo.target 320 320 ⟨dets.map (exampleDet []), none⟩ = some t ∧
      ∃ d ∈ dets, (t.box.x1, t.box.y1, t.box.x2, t.box.y2) = (d.x1, d.y1, d.x2, d.y2) := by
  intro dets
  obtain ⟨-, -, hsome, hlargest⟩ := @target_of_example (fun _ => 1) (fun _ => 0) stableArgsort
    (settingsExample 320 10 0) 320 320 [] argsort_stableArgsort (fun _ => zero_lt_one) (by decide)
    (by decide) (by decide) CenterCache.valid_nil [] [([], listExample)] none
  have hne : dets ≠ [] := by decide +kernel
  obtain ⟨t, ht⟩ := Option.ne_none_iff_exists'.mp
    (mt (hsome (by decide +kernel) (by decide +kernel)).mp hne)
  obtain ⟨d, hd, -, hcorners, -⟩ := hlargest t ht
  exact ⟨t, ht, d, hd, hcorners⟩

end Inference

end DroneTurret
