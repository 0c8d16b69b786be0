import DroneTurret.PostProcess.Alignment

/-!
# Which axis and which order

`extract_detections` has to guess two things about an array. Which axis is that of the coordinates
follows from its shape: the one of length five, and the first one if both are. Which order the
coordinates have is a setting, and with `auto` the order that leaves more boxes in the frame, or as
many that are larger, and otherwise `xyxy`.

So five detections, one to a row, are read as if they stood in the columns, and two orders that are
as good as each other are both read as `xyxy`.

## Main definitions

* `LayoutIndependent` — the result is the same for all layouts
* `Barren` — settings with which five detections lead to nothing
* `swapped`, `Tie` — the other order of the coordinates, and when both are as good

## Main results

* `layoutIndependent_iff` — when the layout makes no difference
* `auto_symmetric` — when the order is found
* `tie_of_square` — on a square frame it never is
-/

namespace DroneTurret

namespace PostProcess

section Shape

/-- The detections of a 5×N array give the same result in the other three layouts. -/
structure LayoutIndependent (argsort : List ℚ → List ℕ) (cfg : Config) (H W N : ℕ)
    (entry : ℕ → ℕ → ℚ) : Prop where
  rows : extractDetections argsort cfg H W (.two ⟨N, 5, fun i j => entry j i⟩) =
    extractDetections argsort cfg H W (.two ⟨5, N, entry⟩)
  batch : extractDetections argsort cfg H W (.three 1 5 N fun _ => entry) =
    extractDetections argsort cfg H W (.two ⟨5, N, entry⟩)
  batchRows : extractDetections argsort cfg H W (.three 1 N 5 fun _ i j => entry j i) =
    extractDetections argsort cfg H W (.two ⟨5, N, entry⟩)

/-- What becomes of a box; `none` for an exception. -/
def pixelOf (cfg : Config) (H W : ℕ) (b : Box) : Option (Option Box) := do
  let sx ← pyDiv W cfg.netSize
  let sy ← pyDiv H cfg.netSize
  toPixel cfg H W sx sy b

/-- No box raises an exception, and the area, the border or the limit leaves none of five. -/
def Barren (cfg : Config) (H W : ℕ) : Prop :=
  ∀ b, ∃ o, pixelOf cfg H W b = some o ∧ ∀ p ∈ o, Passes cfg H W p → cfg.maxDet ≤ -5

variable {argsort : List ℚ → List ℕ} {cfg : Config} {H W : ℕ} {mat : Array2} {tag : BoxOrder}

/-- Where one box can be converted, all can. -/
theorem exists_pixel {b : Box} {o : Option Box} (h : pixelOf cfg H W b = some o) :
    ∃ sx sy, ∃ g : Box → Option Box, pyDiv W cfg.netSize = some sx ∧
      pyDiv H cfg.netSize = some sy ∧ (∀ b, toPixel cfg H W sx sy b = some (g b)) ∧ g b = o := by
  obtain ⟨sx, hsx, h⟩ := Option.bind_eq_some_iff.mp h
  obtain ⟨sy, hsy, h⟩ := Option.bind_eq_some_iff.mp h
  obtain ⟨g, hg⟩ : ∃ g : Box → Option Box, ∀ b, toPixel cfg H W sx sy b = some (g b) := by
    cases hmode : cfg.preMode with
    | resize =>
      refine ⟨fun b => (some (b.map (· * sx) (· * sy))).filter fun d => decide d.Large, fun b => ?_⟩
      rw [toPixel, hmode]
      rfl
    | letterbox =>
      have hH : H ≠ 0 := by
        rintro rfl
        rw [toPixel, hmode, denormAndUnletterboxXyxy, pyDiv, if_pos Nat.cast_zero] at h
        cases h
      have hW : W ≠ 0 := by
        rintro rfl
        rw [toPixel, hmode, denormAndUnletterboxXyxy, pyDiv, pyDiv,
          if_neg (Nat.cast_ne_zero.mpr hH), if_pos Nat.cast_zero] at h
        cases h
      exact ⟨letterboxed cfg H W, toPixel_eq hmode (Nat.pos_of_ne_zero hH) (Nat.pos_of_ne_zero hW)
        sx sy⟩
  exact ⟨sx, sy, g, hsx, hsy, hg, Option.some.inj ((hg b).symm.trans h)⟩

theorem unletterbox_flat {b : Box} {net : ℤ} {r : ℚ} (hflat : b.x1 = b.x2) :
    unletterbox b net r H W = none := by
  rw [unletterbox]
  split
  · rfl
  · refine if_neg fun h => ?_
    have hwidth : 1 < (b.x2 - (net - W * r) / 2) / r - (b.x1 - (net - W * r) / 2) / r := h.1.1
    rw [hflat, sub_self] at hwidth
    exact absurd hwidth (by norm_num)

theorem denorm_flat {b : Box} (net : ℤ) (hflat : b.x1 = b.x2) :
    (denorm b net).x1 = (denorm b net).x2 := by
  rw [denorm]
  split
  · exact congrArg (· * (net : ℚ)) hflat
  · exact hflat

/-- A box without a width is dropped. -/
theorem toPixel_flat {sx sy : ℚ} {b : Box} {o : Option Box} (hflat : b.x1 = b.x2)
    (h : toPixel cfg H W sx sy b = some o) : o = none := by
  cases hmode : cfg.preMode with
  | resize =>
    rw [toPixel, hmode] at h
    have hsmall : ¬(b.map (· * sx) (· * sy)).Large := fun hl => by
      have hwidth : 1 < b.x2 * sx - b.x1 * sx := hl.1
      rw [hflat, sub_self] at hwidth
      exact absurd hwidth (by norm_num)
    rw [← Option.some.inj h]
    exact if_neg fun hl => hsmall (of_decide_eq_true hl)
  | letterbox =>
    rw [toPixel, hmode] at h
    obtain ⟨d, hd, h⟩ := Option.bind_eq_some_iff.mp h
    obtain ⟨rh, -, hd⟩ := Option.bind_eq_some_iff.mp hd
    obtain ⟨rw', -, hd⟩ := Option.bind_eq_some_iff.mp hd
    have hnone : d = none :=
      (Option.some.inj hd).symm.trans (unletterbox_flat (denorm_flat _ hflat))
    rw [← Option.some.inj h, hnone]
    rfl

/-! ### Exceptions -/

/-- The loop raises an exception if one of its rounds does. -/
theorem toPixelLoop_eq_none {pixel : Box → Option (Option Box)} {b : Box} {bs : List Box}
    (hmem : b ∈ bs) (h : pixel b = none) (i : ℕ) : toPixelLoop pixel i bs = none := by
  induction bs generalizing i with
  | nil => cases hmem
  | cons a bs ih =>
    rw [toPixelLoop]
    rcases List.mem_cons.mp hmem with rfl | hmem
    · rw [h]
      rfl
    · rw [ih hmem]
      cases pixel a <;> rfl

theorem toPixelBoxes_eq_none {b : Box} {bs : List Box} (hmem : b ∈ bs)
    (h : pixelOf cfg H W b = none) : toPixelBoxes cfg H W bs = none := by
  rw [pixelOf] at h
  rw [toPixelBoxes]
  cases hsx : pyDiv W cfg.netSize with
  | none => rfl
  | some sx =>
    cases hsy : pyDiv H cfg.netSize with
    | none => rfl
    | some sy =>
      rw [hsx, hsy] at h
      exact toPixelLoop_eq_none hmem h 0

/-- The first step of `_convert`: the columns with a sufficient score. -/
theorem convert_kept (cfg : Config) (H W : ℕ) (mat : Array2) (tag : BoxOrder) {kept : List ℕ}
    (hkept : ((List.range mat.cols).filter fun j => decide (cfg.scoreTh ≤ mat.score j)) = kept) :
    (kept = [] → convert cfg H W mat tag = some ([], [])) ∧
      (kept ≠ [] → toPixelBoxes cfg H W (kept.map (mat.box tag)) = none →
        convert cfg H W mat tag = none) := by
  rw [convert_masked cfg H W mat tag hkept]
  constructor
  · intro hnil
    rw [if_pos hnil]
  · intro hne hnone
    rw [if_neg hne, hnone]
    rfl

theorem extractDetections_fixed (horder : cfg.order = .fixed tag) {d : Detections}
    (hmat : d.mat = some mat) :
    extractDetections argsort cfg H W d =
      some ((convert cfg H W mat tag).bind fun (boxes, scores) =>
        finish argsort cfg H W boxes scores) := by
  rw [extractDetections, hmat, Option.map_some, orient, horder]

/-- The coordinates and the score of a detection, in the order of a column. -/
def column (tag : BoxOrder) (b : Box) (score : ℚ) (i : ℕ) : ℚ :=
  match tag with
  | .xyxy => [b.x1, b.y1, b.x2, b.y2, score].getD i 0
  | .yxyx => [b.y1, b.x1, b.y2, b.x2, score].getD i 0

theorem column_score (tag : BoxOrder) (b : Box) (score : ℚ) : column tag b score 4 = score := by
  cases tag <;> rfl

/-- If a box raises an exception, five detections can be arranged so that it does in one layout
only: in the other no score is sufficient. -/
theorem exists_raising (horder : cfg.order = .fixed tag) {b : Box}
    (h : pixelOf cfg H W b = none) :
    ∃ entry, ¬LayoutIndependent argsort cfg H W 5 entry := by
  refine ⟨fun i j => if j = 0 then column tag b cfg.scoreTh i else cfg.scoreTh - 1, fun hind => ?_⟩
  obtain ⟨entry, hentry⟩ : ∃ entry : ℕ → ℕ → ℚ, entry = fun i j =>
    if j = 0 then column tag b cfg.scoreTh i else cfg.scoreTh - 1 := ⟨_, rfl⟩
  rw [← hentry] at hind
  have hsmall : ¬cfg.scoreTh ≤ cfg.scoreTh - 1 := by linarith
  have hkept : (List.range 5).filter (fun j => decide (cfg.scoreTh ≤ entry 4 j)) = [0] := by
    simp [List.range_succ, List.filter, hentry, column_score, hsmall]
  have hkept' : (List.range 5).filter (fun j => decide (cfg.scoreTh ≤ entry j 4)) = [] := by
    simp [hentry, hsmall]
  have hbox : (⟨5, 5, entry⟩ : Array2).box tag 0 = b := by
    rw [hentry]
    cases tag <;> rfl
  have hraise : convert cfg H W ⟨5, 5, entry⟩ tag = none :=
    (convert_kept cfg H W ⟨5, 5, entry⟩ tag hkept).2 (List.cons_ne_nil _ _)
      (toPixelBoxes_eq_none (List.mem_singleton.mpr hbox.symm) h)
  have hempty : convert cfg H W ⟨5, 5, fun i j => entry j i⟩ tag = some ([], []) :=
    (convert_kept cfg H W ⟨5, 5, fun i j => entry j i⟩ tag hkept').1 rfl
  have hrows := hind.rows
  rw [extractDetections_fixed horder rfl, extractDetections_fixed horder rfl] at hrows
  change some ((convert cfg H W ⟨5, 5, fun i j => entry j i⟩ tag).bind _) =
    some ((convert cfg H W ⟨5, 5, entry⟩ tag).bind _) at hrows
  rw [hraise, hempty] at hrows
  cases hrows

/-- If a box is reported, five detections with this box are in one layout only: in the other no box
has a width. -/
theorem exists_reported (hargsort : ∀ l, Argsort l (argsort l)) (horder : cfg.order = .fixed tag)
    {b p : Box} (h : pixelOf cfg H W b = some (some p)) (hpasses : Passes cfg H W p)
    (hlimit : -5 < cfg.maxDet) :
    ∃ entry, ¬LayoutIndependent argsort cfg H W 5 entry := by
  obtain ⟨sx, sy, g, hsx, hsy, hg, hb⟩ := exists_pixel h
  refine ⟨fun i _ => column tag b cfg.scoreTh i, fun hind => ?_⟩
  obtain ⟨mat, hmat⟩ : ∃ mat : Array2, mat = ⟨5, 5, fun i _ => column tag b cfg.scoreTh i⟩ :=
    ⟨_, rfl⟩
  have hcols : mat.cols = 5 := by rw [hmat]
  have hbox : ∀ j, mat.box tag j = b := fun j => by
    rw [hmat]
    cases tag <;> rfl
  have hscore : ∀ j, mat.score j = cfg.scoreTh := fun j => by
    rw [hmat]
    exact column_score tag b cfg.scoreTh
  have htwo : (Detections.two mat).mat = some mat := by rw [hmat]; rfl
  have htwo' : (Detections.two mat.transpose).mat = some mat.transpose := by rw [hmat]; rfl
  obtain ⟨cols, hextract, hlimited⟩ := exists_limited_of_pixel hargsort horder hsx hsy hg htwo
  obtain ⟨cols', hextract', hlimited'⟩ := exists_limited_of_pixel hargsort horder hsx hsy hg htwo'
  have hall : ((validColumns cfg mat tag g).filter fun j =>
      decide (Passes cfg H W ((g (mat.box tag j)).getD default))) = List.range 5 := by
    simp [validColumns, hscore, hbox, hb, hpasses, hcols]
  have hnone : ((validColumns cfg mat.transpose tag g).filter fun j =>
      decide (Passes cfg H W ((g (mat.transpose.box tag j)).getD default))) = [] := by
    have hflat : ∀ j, g (mat.transpose.box tag j) = none := fun j =>
      toPixel_flat (by rw [hmat]; cases tag <;> rfl) (hg _)
    simp [validColumns, hflat]
  rw [hall] at hlimited
  rw [hnone] at hlimited'
  have hrows : extractDetections argsort cfg H W (.two mat.transpose) =
      extractDetections argsort cfg H W (.two mat) := by
    rw [hmat]
    exact hind.rows
  rw [hextract, hextract', Option.some.injEq, Option.some.injEq] at hrows
  have hlength : cols'.length = cols.length := congrArg Result.numDetections hrows
  rw [List.subperm_nil.mp hlimited'.subperm, eq_comm, List.length_nil,
    List.length_eq_zero_iff] at hlength
  exact hlimited.ne_nil (by decide) (by rw [List.length_range]; omega) hlength

/-- Where nothing can be reported, nothing is, in either layout. -/
theorem Barren.extractDetections_eq (h : Barren cfg H W) (hargsort : ∀ l, Argsort l (argsort l))
    (horder : cfg.order = .fixed tag) (hcols : mat.cols = 5) {d : Detections}
    (hmat : d.mat = some mat) : extractDetections argsort cfg H W d = some (some .empty) := by
  obtain ⟨o, ho, -⟩ := h default
  obtain ⟨sx, sy, g, hsx, hsy, hg, -⟩ := exists_pixel ho
  obtain ⟨cols, hextract, hlimited⟩ := exists_limited_of_pixel hargsort horder hsx hsy hg hmat
  have hnil : cols = [] := by
    generalize hkept : (validColumns cfg mat tag g).filter (fun j =>
      decide (Passes cfg H W ((g (mat.box tag j)).getD default))) = kept at hlimited
    rcases eq_or_ne kept [] with rfl | hne
    · exact List.subperm_nil.mp hlimited.subperm
    · -- a column that passes shows that the limit leaves nothing of five
      obtain ⟨j, hj⟩ := List.exists_mem_of_ne_nil kept hne
      rw [← hkept, List.mem_filter, validColumns, List.mem_filter] at hj
      obtain ⟨⟨-, hsome⟩, hpasses⟩ := hj
      obtain ⟨p, hp⟩ := Option.isSome_iff_exists.mp hsome
      rw [hp] at hpasses
      obtain ⟨o, ho, hbarren⟩ := h (mat.box tag j)
      rw [pixelOf, hsx, hsy] at ho
      have hop : o = some p := (Option.some.inj ((hg _).symm.trans ho)).symm.trans hp
      have hlimit := hbarren p hop (of_decide_eq_true hpasses)
      have hlength : kept.length ≤ mat.cols := by
        rw [← hkept]
        refine (List.length_filter_le _ _).trans ((List.length_filter_le _ _).trans
          ((List.length_filter_le _ _).trans_eq List.length_range))
      exact hlimited.eq_nil (by omega) (by omega)
  rw [hextract, hnil]
  rfl

/-- **The layout makes no difference**, except for five detections, with settings that can report
any. -/
theorem layoutIndependent_iff (argsort : List ℚ → List ℕ)
    (hargsort : ∀ l, Argsort l (argsort l)) (cfg : Config) (tag : BoxOrder)
    (horder : cfg.order = .fixed tag) (H W N : ℕ) :
    (∀ entry, LayoutIndependent argsort cfg H W N entry) ↔ N ≠ 5 ∨ Barren cfg H W := by
  constructor
  · intro h
    rcases ne_or_eq N 5 with hN | rfl
    · exact .inl hN
    refine .inr fun b => ?_
    cases hb : pixelOf cfg H W b with
    | none =>
      obtain ⟨entry, hentry⟩ : ∃ entry, ¬LayoutIndependent argsort cfg H W 5 entry :=
        exists_raising horder hb
      exact absurd (h entry) hentry
    | some o =>
      refine ⟨o, rfl, fun p hp hpasses => ?_⟩
      by_contra hlimit
      obtain ⟨entry, hentry⟩ := exists_reported hargsort horder (hb.trans (congrArg some hp))
        hpasses (not_le.mp hlimit)
      exact hentry (h entry)
  · intro h entry
    have hmat : ∀ d : Detections, d.mat = some ⟨5, N, entry⟩ → extractDetections argsort cfg H W d =
        extractDetections argsort cfg H W (.two ⟨5, N, entry⟩) := fun d hd => by
      rw [extractDetections, hd]
      rfl
    have hrows : extractDetections argsort cfg H W (.two ⟨N, 5, fun i j => entry j i⟩) =
        extractDetections argsort cfg H W (.two ⟨5, N, entry⟩) := by
      rcases ne_or_eq N 5 with hN | rfl
      · refine hmat _ ?_
        simp [Detections.mat, Array2.transpose, hN]
      · have hbarren := h.resolve_left fun h => h rfl
        have hempty : ∀ entry : ℕ → ℕ → ℚ, extractDetections argsort cfg H W (.two ⟨5, 5, entry⟩) =
            some (some .empty) := fun entry =>
          hbarren.extractDetections_eq hargsort horder rfl rfl
        rw [hempty, hempty]
    refine ⟨hrows, hmat _ rfl, ?_⟩
    rw [← hrows]
    rfl

end Shape

section Example

/-- Three detections. -/
theorem layoutIndependent_iff_witness :
    LayoutIndependent stableArgsort (configExample 320 10) 240 320 3 entryExample :=
  (layoutIndependent_iff stableArgsort argsort_stableArgsort (configExample 320 10) .xyxy rfl 240
    320 3).mpr (.inl (by decide)) entryExample

/-- Five detections with the same box: in the other layout no box has a width. -/
theorem not_layoutIndependent :
    ¬∀ (cfg : Config) (tag : BoxOrder) (H W N : ℕ) (entry : ℕ → ℕ → ℚ), cfg.order = .fixed tag →
      1 ≤ N → LayoutIndependent stableArgsort cfg H W N entry := by
  intro h
  have hrows := (h (configExample 320 10) .xyxy 320 320 5 entryExample rfl (by decide)).rows
  exact absurd hrows (by decide +kernel)

end Example

/-! ### The order of the coordinates -/

section Order

/-- The rows of the coordinates in the other order. -/
def swapped (entry : ℕ → ℕ → ℚ) : ℕ → ℕ → ℚ
  | 0 => entry 1
  | 1 => entry 0
  | 2 => entry 3
  | 3 => entry 2
  | i => entry i

def BoxOrder.swap : BoxOrder → BoxOrder
  | .xyxy => .yxyx
  | .yxyx => .xyxy

/-- The settings with an order. -/
def Config.inOrder (cfg : Config) (tag : BoxOrder) : Config :=
  { cfg with nmsOrder := some (.fixed tag) }

/-- Both orders leave as many boxes, with the same mean area. -/
def Tie (cfg : Config) (H W : ℕ) (mat : Array2) : Prop :=
  ∃ xy yx, convert cfg H W mat .xyxy = some xy ∧ convert cfg H W mat .yxyx = some yx ∧
    validScore xy.1 = validScore yx.1

/-- Boxes in the mirror of the diagonal. -/
def Box.swap (b : Box) : Box := ⟨b.y1, b.x1, b.y2, b.x2⟩

variable {cfg : Config} {H W N : ℕ} {entry : ℕ → ℕ → ℚ}

theorem convert_swapped (tag : BoxOrder) :
    convert cfg H W ⟨5, N, swapped entry⟩ tag = convert cfg H W ⟨5, N, entry⟩ tag.swap := by
  have hbox : (⟨5, N, swapped entry⟩ : Array2).box tag = (⟨5, N, entry⟩ : Array2).box tag.swap := by
    funext j
    cases tag <;> rfl
  have hscore : (⟨5, N, swapped entry⟩ : Array2).score = (⟨5, N, entry⟩ : Array2).score := rfl
  rw [convert, convert, hbox, hscore]

/-- The order is a matter of `orient` alone. -/
theorem finish_inOrder (argsort : List ℚ → List ℕ) (tag : BoxOrder) (boxes : List Box)
    (scores : List ℚ) :
    finish argsort (cfg.inOrder tag) H W boxes scores = finish argsort cfg H W boxes scores := by
  have hpasses : (fun b => decide (Passes (cfg.inOrder tag) H W b)) =
      fun b => decide (Passes cfg H W b) :=
    funext fun b => decide_eq_decide.mpr
      ⟨fun h => ⟨h.minArea, h.maxArea, h.border⟩, fun h => ⟨h.minArea, h.maxArea, h.border⟩⟩
  rw [finish, hpasses]
  rfl

theorem extractDetections_inOrder (argsort : List ℚ → List ℕ) (tag : BoxOrder) {d : Detections}
    {mat : Array2} (hmat : d.mat = some mat) :
    extractDetections argsort (cfg.inOrder tag) H W d =
      some ((convert cfg H W mat tag).bind fun (boxes, scores) =>
        finish argsort cfg H W boxes scores) := by
  have hconvert : convert (cfg.inOrder tag) H W mat tag = convert cfg H W mat tag := rfl
  rw [extractDetections_fixed rfl hmat, hconvert]
  simp only [finish_inOrder]

/-- A choice between two orders that one of them wins does not depend on their places. -/
theorem choose_comm {a b : List Box × List ℚ} (h : validScore a.1 ≠ validScore b.1) :
    (if (validScore a.1).1 < (validScore b.1).1 ∨ (validScore a.1).1 = (validScore b.1).1 ∧
        (validScore a.1).2 < (validScore b.1).2 then b else a) =
      if (validScore b.1).1 < (validScore a.1).1 ∨ (validScore b.1).1 = (validScore a.1).1 ∧
        (validScore b.1).2 < (validScore a.1).2 then a else b := by
  have hne : (validScore a.1).1 = (validScore b.1).1 → (validScore a.1).2 ≠ (validScore b.1).2 :=
    fun h1 h2 => h (Prod.ext h1 h2)
  rcases lt_trichotomy (validScore a.1).1 (validScore b.1).1 with hlt | heq | hgt
  · rw [if_pos (.inl hlt), if_neg (by omega)]
  · rcases lt_or_gt_of_ne (hne heq) with hlt | hgt
    · rw [if_pos (.inr ⟨heq, hlt⟩), if_neg (by simp [heq, hlt.le])]
    · rw [if_neg (by simp [heq, hgt.le]), if_pos (.inr ⟨heq.symm, hgt⟩)]
  · rw [if_neg (by omega), if_pos (.inl hgt)]

theorem orient_auto (hauto : cfg.order = .auto) (mat : Array2) :
    orient cfg H W mat = (convert cfg H W mat .xyxy).bind fun xy =>
      (convert cfg H W mat .yxyx).map fun yx =>
        if (validScore xy.1).1 < (validScore yx.1).1 ∨ (validScore xy.1).1 = (validScore yx.1).1 ∧
          (validScore xy.1).2 < (validScore yx.1).2 then yx else xy := by
  rw [orient, hauto]
  cases convert cfg H W mat .xyxy with
  | none => rfl
  | some xy =>
    cases convert cfg H W mat .yxyx with
    | none => rfl
    | some yx => rfl

theorem orient_of_tie (hauto : cfg.order = .auto) {mat : Array2} (h : Tie cfg H W mat) :
    orient cfg H W mat = convert cfg H W mat .xyxy := by
  obtain ⟨xy, yx, hxy, hyx, htie⟩ := h
  rw [orient_auto hauto, hxy, hyx, Option.bind_some, Option.map_some, htie, if_neg]
  simp

theorem Tie.swapped (h : Tie cfg H W ⟨5, N, entry⟩) : Tie cfg H W ⟨5, N, swapped entry⟩ := by
  obtain ⟨xy, yx, hxy, hyx, htie⟩ := h
  exact ⟨yx, xy, (convert_swapped .xyxy).trans hyx, (convert_swapped .yxyx).trans hxy, htie.symm⟩

/-- **The order is found** where one of them is better: the same detections in the other order give
the same result. Otherwise it is taken to be `xyxy`, whatever it is. -/
theorem auto_symmetric (argsort : List ℚ → List ℕ) (cfg : Config) (hauto : cfg.order = .auto)
    (H W N : ℕ) (entry : ℕ → ℕ → ℚ) :
    (¬Tie cfg H W ⟨5, N, entry⟩ → extractDetections argsort cfg H W (.two ⟨5, N, swapped entry⟩) =
      extractDetections argsort cfg H W (.two ⟨5, N, entry⟩)) ∧
    (Tie cfg H W ⟨5, N, entry⟩ → ∀ e ∈ [entry, swapped entry],
      extractDetections argsort cfg H W (.two ⟨5, N, e⟩) =
        extractDetections argsort (cfg.inOrder .xyxy) H W (.two ⟨5, N, e⟩)) := by
  constructor
  · intro htie
    have horient : orient cfg H W ⟨5, N, swapped entry⟩ = orient cfg H W ⟨5, N, entry⟩ := by
      rw [orient_auto hauto, orient_auto hauto, convert_swapped, convert_swapped, BoxOrder.swap,
        BoxOrder.swap]
      cases hxy : convert cfg H W ⟨5, N, entry⟩ .xyxy with
      | none => cases convert cfg H W ⟨5, N, entry⟩ .yxyx <;> rfl
      | some xy =>
        cases hyx : convert cfg H W ⟨5, N, entry⟩ .yxyx with
        | none => rfl
        | some yx =>
          refine congrArg some (choose_comm fun heq => htie ⟨xy, yx, hxy, hyx, heq.symm⟩)
    exact congrArg (fun o : Option (List Box × List ℚ) => some (o.bind fun (boxes, scores) =>
      finish argsort cfg H W boxes scores)) horient
  · intro htie e he
    have hconvert : orient cfg H W ⟨5, N, e⟩ = convert cfg H W ⟨5, N, e⟩ .xyxy := by
      rcases List.mem_pair.mp he with rfl | rfl
      · exact orient_of_tie hauto htie
      · exact orient_of_tie hauto htie.swapped
    rw [extractDetections_inOrder argsort .xyxy rfl]
    exact congrArg (fun o : Option (List Box × List ℚ) => some (o.bind fun (boxes, scores) =>
      finish argsort cfg H W boxes scores)) hconvert

/-! ### Square frames -/

theorem unletterbox_swap {n : ℕ} (b : Box) (net : ℤ) (r : ℚ) :
    unletterbox b.swap net r n n = (unletterbox b net r n n).map Box.swap := by
  rw [unletterbox, unletterbox]
  split
  · rfl
  · dsimp only
    split_ifs with h h' h'
    · rfl
    · exact absurd ⟨h.1.symm, h.2.symm⟩ h'
    · exact absurd ⟨h'.1.symm, h'.2.symm⟩ h
    · rfl

theorem denorm_swap (b : Box) (net : ℤ) : denorm b.swap net = (denorm b net).swap := by
  have hmax : b.swap.max = b.max :=
    congrArg₂ Max.max (max_comm b.y1 b.x1) (max_comm b.y2 b.x2)
  rw [denorm, denorm, hmax]
  split <;> rfl

theorem letterboxed_swap {n : ℕ} (b : Box) :
    letterboxed cfg n n b.swap = (letterboxed cfg n n b).map Box.swap := by
  rw [letterboxed, denorm_swap, unletterbox_swap]
  rfl

/-- Mirrored boxes are as good. -/
theorem validScore_map_swap (bs : List Box) : validScore (bs.map Box.swap) = validScore bs := by
  have harea : Box.area ∘ Box.swap = Box.area := funext fun b => mul_comm _ _
  rw [validScore, validScore, List.isEmpty_map, List.length_map, List.map_map, harea]

/-- **On a square frame no order is better**, whatever the detections are. -/
theorem tie_of_square (hmode : cfg.preMode = .letterbox) (hnet : cfg.netSize ≠ 0) {n : ℕ}
    (hn : 1 ≤ n) (mat : Array2) : Tie cfg n n mat := by
  have hnet' : (cfg.netSize : ℚ) ≠ 0 := Int.cast_ne_zero.mpr hnet
  have hconvert : ∀ tag, convert cfg n n mat tag = some _ := fun tag =>
    convert_eq (if_neg hnet') (if_neg hnet') (toPixel_eq hmode hn hn _ _)
  have hbox : ∀ j, mat.box .yxyx j = (mat.box .xyxy j).swap := fun j => rfl
  have hcolumns : validColumns cfg mat .yxyx (letterboxed cfg n n) =
      validColumns cfg mat .xyxy (letterboxed cfg n n) := by
    simp only [validColumns, hbox, letterboxed_swap, Option.isSome_map]
  refine ⟨_, _, hconvert .xyxy, hconvert .yxyx, ?_⟩
  rw [hcolumns, ← validScore_map_swap, List.map_map]
  refine congrArg validScore (List.map_congr_left fun j hj => ?_)
  obtain ⟨b, hb⟩ := Option.isSome_iff_exists.mp (List.mem_filter.mp hj).2
  rw [hbox, letterboxed_swap, Function.comp_apply, hb]
  rfl

end Order

section Example

/-- A detection in a frame that is not square. -/
def autoExample : Config := { configExample 320 10 with nmsOrder := some .auto }

/-- In a wide frame a wide box is found out in the other order. -/
theorem auto_symmetric_witness :
    extractDetections stableArgsort autoExample 240 320 (.two ⟨5, 1, swapped fun i _ =>
        ([1 / 32, 1 / 4, 31 / 32, 3 / 4, 9 / 10] : List ℚ).getD i 0⟩) =
      extractDetections stableArgsort autoExample 240 320 (.two ⟨5, 1, fun i _ =>
        ([1 / 32, 1 / 4, 31 / 32, 3 / 4, 9 / 10] : List ℚ).getD i 0⟩) := by
  refine (auto_symmetric stableArgsort autoExample rfl 240 320 1 _).1 ?_
  rintro ⟨xy, yx, hxy, hyx, htie⟩
  have hwide : convert autoExample 240 320 ⟨5, 1, fun i _ =>
      ([1 / 32, 1 / 4, 31 / 32, 3 / 4, 9 / 10] : List ℚ).getD i 0⟩ .xyxy =
        some ([⟨10, 40, 310, 200⟩], [9 / 10]) := by decide +kernel
  have htall : convert autoExample 240 320 ⟨5, 1, fun i _ =>
      ([1 / 32, 1 / 4, 31 / 32, 3 / 4, 9 / 10] : List ℚ).getD i 0⟩ .yxyx =
        some ([⟨80, 0, 240, 240⟩], [9 / 10]) := by decide +kernel
  rw [hwide, Option.some.injEq] at hxy
  rw [htall, Option.some.injEq] at hyx
  rw [← hxy, ← hyx] at htie
  exact absurd htie (by decide +kernel)

/-- In a square frame a wide box comes out tall. -/
theorem not_auto_symmetric :
    ¬∀ (cfg : Config) (H W N : ℕ) (entry : ℕ → ℕ → ℚ), 1 ≤ H → 1 ≤ W →
      cfg.preMode = .letterbox → cfg.order = .auto →
        extractDetections stableArgsort cfg H W (.two ⟨5, N, swapped entry⟩) =
          extractDetections stableArgsort cfg H W (.two ⟨5, N, entry⟩) := by
  intro h
  have heq := h autoExample 320 320 1 (fun i _ =>
    ([1 / 32, 1 / 4, 31 / 32, 3 / 4, 9 / 10] : List ℚ).getD i 0) (by decide) (by decide) rfl rfl
  exact absurd heq (by decide +kernel)

end Example

end PostProcess

end DroneTurret
