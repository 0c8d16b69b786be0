import DroneTurret.PostProcess.Decode

/-!
# Boxes and scores belong together

What `extract_detections` returns comes from a list of columns, in which each column stands once: a
box and a score at the same place are those of the same column. The columns are those that pass all
tests, as far as the limit allows.

## Main definitions

* `Accepted` — the columns that pass all tests, and their boxes in the frame
* `Limited` — what the limit leaves of them
* `Aligned` — how the result comes from the columns

## Main results

* `finish_eq` — the steps after the conversion, on the columns
* `extractDetections_aligned` — the result comes from columns that pass all tests
-/

namespace DroneTurret

namespace PostProcess

/-- What the limit leaves of the columns: those with the best scores, if there are too many. A
limit of 0 is none, and a negative one leaves out that many columns. -/
def Limited (maxDet : ℤ) (score : ℕ → ℚ) (kept cols : List ℕ) : Prop :=
  if maxDet ≠ 0 ∧ maxDet < kept.length then
    ∃ ranked : List ℕ, ranked.Perm kept ∧ ranked.Pairwise (fun i j => score j ≤ score i) ∧
      cols = pySlice ranked maxDet
  else cols = kept

theorem limited_nil (maxDet : ℤ) (score : ℕ → ℚ) : Limited maxDet score [] [] := by
  rw [Limited]
  split
  · exact ⟨[], .nil, .nil, by rw [pySlice, List.take_nil]⟩
  · rfl

section Finish

variable {argsort : List ℚ → List ℕ} {cfg : Config} {H W : ℕ}

/-- The order of the negated scores, applied to the columns. -/
theorem exists_ranked (hargsort : ∀ l, Argsort l (argsort l)) (score : ℕ → ℚ) (kept : List ℕ) :
    ∃ ranked : List ℕ, ranked.Perm kept ∧ ranked.Pairwise (fun i j => score j ≤ score i) ∧
      ∀ m, gather kept (pySlice (argsort ((kept.map score).map (-·))) m) =
        some (pySlice ranked m) := by
  have hspec := hargsort ((kept.map score).map (-·))
  generalize argsort ((kept.map score).map (-·)) = order at *
  have hlength : ((kept.map score).map (-·)).length = kept.length := by
    rw [List.length_map, List.length_map]
  have hperm : order.Perm (List.range kept.length) := hlength ▸ hspec.perm
  have hvalid : ∀ i ∈ order, i < kept.length := fun i hi => List.mem_range.mp (hperm.subset hi)
  obtain ⟨ranked, hgather, hranked⟩ := gather_perm hperm
  rw [gather_eq_some hvalid, Option.some.injEq] at hgather
  have hneg : ∀ i ∈ order, ((kept.map score).map (-·)).getD i 0 = -score (kept.getD i default) := by
    intro i hi
    rw [List.getD_eq_getElem _ _ (hlength ▸ hvalid i hi), List.getD_eq_getElem _ _ (hvalid i hi),
      List.getElem_map, List.getElem_map]
  refine ⟨ranked, hranked, ?_, fun m => ?_⟩
  · rw [← hgather, List.pairwise_map]
    refine hspec.sorted.imp_of_mem fun {i j} hi hj h => ?_
    rw [hneg i hi, hneg j hj] at h
    exact neg_le_neg_iff.mp h
  · have htake : ∀ i ∈ pySlice order m, i < kept.length :=
      fun i hi => hvalid i (mem_of_mem_pySlice hi)
    rw [gather_eq_some htake, ← hgather, pySlice_map]

/-- What is returned for a list of columns. -/
def resultOf (box : ℕ → Box) (score : ℕ → ℚ) (cols : List ℕ) : Result :=
  ⟨cols.map fun j => (box j).round, cols.map fun _ => 0, cols.map fun j => clip 0 1 (score j),
    cols.length⟩

/-- **The steps after the conversion select from columns.** -/
theorem finish_eq (hargsort : ∀ l, Argsort l (argsort l)) (box : ℕ → Box) (score : ℕ → ℚ)
    (valid : List ℕ) :
    ∃ cols, finish argsort cfg H W (valid.map box) (valid.map score) =
        some (resultOf box score cols) ∧
      Limited cfg.maxDet score (valid.filter fun j => decide (Passes cfg H W (box j))) cols := by
  generalize hkept : valid.filter (fun j => decide (Passes cfg H W (box j))) = kept
  have hgather : gather valid (nonzero ((valid.map box).map fun b =>
      decide (Passes cfg H W b))) = some kept := by
    rw [List.map_map, ← hkept]
    exact gather_nonzero _ valid
  have hclasses : List.replicate valid.length 0 = valid.map fun _ => 0 :=
    List.map_const'.symm
  rw [finish]
  simp only [List.length_map, hclasses, gather_map, hgather, Option.map_some, Option.bind_eq_bind,
    Option.bind_some]
  split
  · rename_i hempty
    rw [List.isEmpty_iff, List.map_eq_nil_iff] at hempty
    rw [← hkept, hempty]
    exact ⟨[], rfl, limited_nil _ _⟩
  split
  · rename_i hempty
    rw [List.isEmpty_iff] at hempty
    rw [hempty, gather_nil] at hgather
    rw [← Option.some.inj hgather]
    exact ⟨[], rfl, limited_nil _ _⟩
  split
  · rename_i hcut
    obtain ⟨ranked, hperm, hsorted, hslice⟩ := exists_ranked hargsort score kept
    refine ⟨pySlice ranked cfg.maxDet, ?_, ?_⟩
    · simp only [hslice, Option.map_some, Option.bind_some]
      simp only [Option.pure_def, Option.bind_some, resultOf, List.map_map, List.length_map]
      rfl
    · rw [Limited, if_pos hcut]
      exact ⟨ranked, hperm, hsorted, rfl⟩
  · rename_i hcut
    refine ⟨kept, ?_, ?_⟩
    · simp only [Option.pure_def, Option.bind_some, resultOf, List.map_map, List.length_map]
      rfl
    · rw [Limited, if_neg hcut]

end Finish

section Limit

variable {maxDet : ℤ} {score : ℕ → ℚ} {kept cols : List ℕ}

theorem Limited.subperm (h : Limited maxDet score kept cols) : cols.Subperm kept := by
  rw [Limited] at h
  split at h
  · obtain ⟨ranked, hperm, -, rfl⟩ := h
    exact (List.take_sublist _ _).subperm.trans hperm.subperm
  · rw [h]

theorem Limited.nodup (h : Limited maxDet score kept cols) (hkept : kept.Nodup) : cols.Nodup := by
  obtain ⟨l, hperm, hsub⟩ := h.subperm
  exact hperm.nodup_iff.mp (hkept.sublist hsub)

theorem Limited.length_le (h : Limited maxDet score kept cols) (hpos : 0 < maxDet) :
    cols.length ≤ maxDet := by
  rw [Limited] at h
  split at h
  · obtain ⟨ranked, -, -, rfl⟩ := h
    rw [pySlice, if_pos hpos.le, List.length_take]
    omega
  · rw [h]
    omega

/-- A negative limit leaves nothing of so few columns, -/
theorem Limited.eq_nil (h : Limited maxDet score kept cols) (hneg : maxDet < 0)
    (hlength : (kept.length : ℤ) ≤ -maxDet) : cols = [] := by
  rw [Limited, if_pos (by omega)] at h
  obtain ⟨ranked, hperm, -, rfl⟩ := h
  have hlength' := hperm.length_eq
  rw [pySlice, if_neg (by omega), List.take_eq_nil_iff]
  exact .inl (by omega)

/-- and any other leaves something. -/
theorem Limited.ne_nil (h : Limited maxDet score kept cols) (hkept : kept ≠ [])
    (hlength : -maxDet < (kept.length : ℤ)) : cols ≠ [] := by
  have hpos := List.length_pos_iff.mpr hkept
  rw [Limited] at h
  split at h
  · obtain ⟨ranked, hperm, -, rfl⟩ := h
    have hlength' := hperm.length_eq
    rw [← List.length_pos_iff, pySlice, List.length_take]
    split <;> omega
  · rwa [h]

/-- **Only the limit leaves out columns**, and only those whose scores are no better. -/
theorem Limited.complete (h : Limited maxDet score kept cols) (hnonneg : 0 ≤ maxDet) {j : ℕ}
    (hj : j ∈ kept) (homitted : j ∉ cols) :
    0 < maxDet ∧ cols.length = maxDet ∧ ∀ i ∈ cols, score j ≤ score i := by
  rw [Limited] at h
  split at h
  · rename_i hcut
    obtain ⟨ranked, hperm, hsorted, rfl⟩ := h
    rw [pySlice, if_pos hnonneg] at homitted ⊢
    have hmem := hperm.symm.subset hj
    rw [← List.take_append_drop maxDet.toNat ranked, List.mem_append] at hmem
    rw [← List.take_append_drop maxDet.toNat ranked, List.pairwise_append] at hsorted
    have hlength := hperm.length_eq
    refine ⟨by omega, ?_, fun i hi => hsorted.2.2 i hi j (hmem.resolve_left homitted)⟩
    rw [List.length_take]
    omega
  · rw [h] at homitted
    exact absurd hj homitted

end Limit

section Aligned

/-- The box lies in the frame. -/
structure Box.Inside (H W : ℕ) (b : Box) : Prop where
  left : 0 ≤ b.x1
  right : b.x2 ≤ W
  top : 0 ≤ b.y1
  bottom : b.y2 ≤ H

/-- A column that passes all tests, with its box in the frame. -/
structure Accepted (cfg : Config) (H W : ℕ) (mat : Array2) (tag : BoxOrder) (j : ℕ) (box : Box) :
    Prop where
  column : j < mat.cols
  score : cfg.scoreTh ≤ mat.score j
  pixel : denormAndUnletterboxXyxy (mat.box tag j) cfg.netSize H W = some (some box)
  passes : Passes cfg H W box

/-- The result comes from these columns, in this order. -/
structure Aligned (cfg : Config) (H W : ℕ) (mat : Array2) (tag : BoxOrder) (r : Result)
    (cols : List ℕ) : Prop where
  nodup : cols.Nodup
  boxes : List.Forall₂ (fun j b => ∃ box, Accepted cfg H W mat tag j box ∧ box.Inside H W ∧
    box.Large ∧ b = box.round) cols r.boxes
  scores : r.scores = cols.map fun j => clip 0 1 (mat.score j)
  classes : r.classes = cols.map fun _ => 0
  count : r.numDetections = cols.length
  limit : 0 < cfg.maxDet → r.numDetections ≤ cfg.maxDet

/-- A column that passes all tests is left out only if the limit is reached, by columns with scores
that are no worse. -/
def Complete (cfg : Config) (H W : ℕ) (mat : Array2) (tag : BoxOrder) (r : Result)
    (cols : List ℕ) : Prop :=
  ∀ j box, Accepted cfg H W mat tag j box → j ∉ cols →
    r.numDetections = cfg.maxDet ∧ ∀ i ∈ cols, mat.score j ≤ mat.score i

variable {cfg : Config} {H W : ℕ}

theorem clip_nonneg {hi x : ℚ} (h : 0 ≤ hi) : 0 ≤ clip 0 hi x := le_min (le_max_right _ _) h

theorem clip_le {lo hi x : ℚ} : clip lo hi x ≤ hi := min_le_right _ _

theorem unletterbox_inside {b box : Box} {netSize : ℤ} {r : ℚ}
    (h : unletterbox b netSize r H W = some box) : box.Inside H W ∧ box.Large := by
  rw [unletterbox] at h
  split at h
  · cases h
  · obtain ⟨⟨-, hlarge⟩, rfl⟩ := Option.ite_some_none_eq_some.mp h
    exact ⟨⟨clip_nonneg W.cast_nonneg, clip_le, clip_nonneg H.cast_nonneg, clip_le⟩, hlarge⟩

/-- In a frame that is not empty there is no division by zero. -/
theorem denormAndUnletterboxXyxy_eq (hH : 0 < H) (hW : 0 < W) (b : Box) (netSize : ℤ) :
    denormAndUnletterboxXyxy b netSize H W =
      some (unletterbox (denorm b netSize) netSize (min (netSize / H) (netSize / W)) H W) := by
  have hH' : (H : ℚ) ≠ 0 := Nat.cast_ne_zero.mpr hH.ne'
  have hW' : (W : ℚ) ≠ 0 := Nat.cast_ne_zero.mpr hW.ne'
  rw [denormAndUnletterboxXyxy, pyDiv, pyDiv, if_neg hH', if_neg hW']
  rfl

/-- The box of a column in the frame. -/
def letterboxed (cfg : Config) (H W : ℕ) (b : Box) : Option Box :=
  unletterbox (denorm b cfg.netSize) cfg.netSize
    (min (cfg.netSize / H) (cfg.netSize / W)) H W

theorem toPixel_eq (hmode : cfg.preMode = .letterbox) (hH : 0 < H) (hW : 0 < W) (sx sy : ℚ)
    (b : Box) : toPixel cfg H W sx sy b = some (letterboxed cfg H W b) := by
  rw [toPixel, hmode]
  change (denormAndUnletterboxXyxy b cfg.netSize H W).bind _ = _
  rw [denormAndUnletterboxXyxy_eq hH hW, Option.bind_some]
  -- the sides have been looked at already
  change some ((letterboxed cfg H W b).filter _) = _
  cases hbox : letterboxed cfg H W b with
  | none => rfl
  | some box => rw [Option.filter_some, if_pos (decide_eq_true (unletterbox_inside hbox).2)]

/-- The box of a column, where it has one. -/
def boxAt (cfg : Config) (H W : ℕ) (mat : Array2) (tag : BoxOrder) (j : ℕ) : Box :=
  (letterboxed cfg H W (mat.box tag j)).getD default

/-- The columns that pass all tests. -/
def acceptedColumns (cfg : Config) (H W : ℕ) (mat : Array2) (tag : BoxOrder) : List ℕ :=
  (validColumns cfg mat tag (letterboxed cfg H W)).filter fun j =>
    decide (Passes cfg H W (boxAt cfg H W mat tag j))

variable {mat : Array2} {tag : BoxOrder} {j : ℕ} {box : Box}

theorem nodup_acceptedColumns : (acceptedColumns cfg H W mat tag).Nodup :=
  ((List.nodup_range.filter _).filter _).filter _

theorem accepted_of_mem (hH : 0 < H) (hW : 0 < W) (h : j ∈ acceptedColumns cfg H W mat tag) :
    Accepted cfg H W mat tag j (boxAt cfg H W mat tag j) := by
  rw [acceptedColumns, List.mem_filter, validColumns, List.mem_filter, List.mem_filter,
    List.mem_range] at h
  obtain ⟨⟨⟨hcolumn, hscore⟩, hbox⟩, hpasses⟩ := h
  obtain ⟨b, hb⟩ := Option.isSome_iff_exists.mp hbox
  refine ⟨hcolumn, of_decide_eq_true hscore, ?_, of_decide_eq_true hpasses⟩
  rw [denormAndUnletterboxXyxy_eq hH hW, boxAt, hb]
  exact congrArg some hb

theorem mem_acceptedColumns (hH : 0 < H) (hW : 0 < W) (h : Accepted cfg H W mat tag j box) :
    j ∈ acceptedColumns cfg H W mat tag := by
  obtain ⟨hcolumn, hscore, hpixel, hpasses⟩ := h
  rw [denormAndUnletterboxXyxy_eq hH hW, Option.some.injEq] at hpixel
  have hbox : letterboxed cfg H W (mat.box tag j) = some box := hpixel
  rw [acceptedColumns, List.mem_filter, validColumns, List.mem_filter, List.mem_filter,
    List.mem_range, boxAt, hbox]
  exact ⟨⟨⟨hcolumn, decide_eq_true hscore⟩, rfl⟩, decide_eq_true hpasses⟩

/-- The box of a column that passes lies in the frame. -/
theorem Accepted.inside (hH : 0 < H) (hW : 0 < W) (h : Accepted cfg H W mat tag j box) :
    box.Inside H W ∧ box.Large := by
  have hpixel := h.pixel
  rw [denormAndUnletterboxXyxy_eq hH hW, Option.some.injEq] at hpixel
  exact unletterbox_inside hpixel

/-- What the first path returns, in terms of the columns, where every box can be converted. -/
theorem exists_limited_of_pixel {argsort : List ℚ → List ℕ}
    (hargsort : ∀ l, Argsort l (argsort l)) (horder : cfg.order = .fixed tag) {sx sy : ℚ}
    {g : Box → Option Box} (hsx : pyDiv W cfg.netSize = some sx)
    (hsy : pyDiv H cfg.netSize = some sy) (hg : ∀ b, toPixel cfg H W sx sy b = some (g b))
    {d : Detections} (hmat : d.mat = some mat) :
    ∃ cols, extractDetections argsort cfg H W d =
        some (some (resultOf (fun j => (g (mat.box tag j)).getD default) mat.score cols)) ∧
      Limited cfg.maxDet mat.score ((validColumns cfg mat tag g).filter fun j =>
        decide (Passes cfg H W ((g (mat.box tag j)).getD default))) cols := by
  have hconvert : convert cfg H W mat tag = _ := convert_eq hsx hsy hg
  obtain ⟨cols, hfinish, hlimited⟩ := finish_eq hargsort
    (fun j => (g (mat.box tag j)).getD default) mat.score (validColumns cfg mat tag g)
  refine ⟨cols, ?_, hlimited⟩
  rw [extractDetections, hmat, Option.map_some, orient, horder]
  exact congrArg some ((congrArg (Option.bind · _) hconvert).trans hfinish)

theorem exists_limited {argsort : List ℚ → List ℕ} (hargsort : ∀ l, Argsort l (argsort l))
    (hmode : cfg.preMode = .letterbox) (horder : cfg.order = .fixed tag) (hnet : cfg.netSize ≠ 0)
    (hH : 0 < H) (hW : 0 < W) {d : Detections} (hmat : d.mat = some mat) :
    ∃ cols, extractDetections argsort cfg H W d =
        some (some (resultOf (boxAt cfg H W mat tag) mat.score cols)) ∧
      Limited cfg.maxDet mat.score (acceptedColumns cfg H W mat tag) cols := by
  have hnet' : (cfg.netSize : ℚ) ≠ 0 := Int.cast_ne_zero.mpr hnet
  exact exists_limited_of_pixel hargsort horder (if_neg hnet') (if_neg hnet')
    (toPixel_eq hmode hH hW _ _) hmat

/-- **What is returned comes from columns that pass all tests.** -/
theorem extractDetections_aligned (argsort : List ℚ → List ℕ)
    (hargsort : ∀ l, Argsort l (argsort l)) (cfg : Config) (tag : BoxOrder)
    (hmode : cfg.preMode = .letterbox) (horder : cfg.order = .fixed tag)
    (hnet : cfg.netSize ≠ 0) (H W : ℕ) (hH : 0 < H) (hW : 0 < W) (N : ℕ) (entry : ℕ → ℕ → ℚ) :
    ∃ r cols, extractDetections argsort cfg H W (.two ⟨5, N, entry⟩) = some (some r) ∧
      Aligned cfg H W ⟨5, N, entry⟩ tag r cols ∧
      (0 ≤ cfg.maxDet → Complete cfg H W ⟨5, N, entry⟩ tag r cols) ∧
      (cfg.maxDet = 0 → ∀ j box, Accepted cfg H W ⟨5, N, entry⟩ tag j box → j ∈ cols) := by
  have hmat : (Detections.two ⟨5, N, entry⟩).mat = some ⟨5, N, entry⟩ := rfl
  obtain ⟨cols, hextract, hlimited⟩ := exists_limited hargsort hmode horder hnet hH hW hmat
  refine ⟨_, cols, hextract, ?_, ?_, ?_⟩
  · refine ⟨?_, ?_, rfl, rfl, rfl, hlimited.length_le⟩
    · exact hlimited.nodup nodup_acceptedColumns
    · rw [resultOf, List.forall₂_map_right_iff, List.forall₂_same]
      intro j hj
      have haccepted := accepted_of_mem hH hW (hlimited.subperm.subset hj)
      have hinside := haccepted.inside hH hW
      exact ⟨_, haccepted, hinside.1, hinside.2, rfl⟩
  · intro hnonneg j box hj homitted
    exact (hlimited.complete hnonneg (mem_acceptedColumns hH hW hj) homitted).2
  · intro hzero j box hj
    by_contra homitted
    have hpos := (hlimited.complete hzero.ge (mem_acceptedColumns hH hW hj) homitted).1
    omega

end Aligned

section Example

/-- Settings with defaults, but for the size of the network's image, the limit and the order. -/
def configExample (inputSize maxDetections : ℤ) : Config where
  inputSize := some inputSize
  preprocessMode := none
  minBoxAreaRatio := none
  maxBoxAreaRatio := none
  dropBorderRatio := none
  scoreThreshold := none
  scoreThres := none
  maxDetections := some maxDetections
  maxBoxesToDraw := none
  nmsOrder := some (.fixed .xyxy)
  nmsLayout := none

/-- The middle of the image, again and again, with scores that go down. -/
def entryExample (i j : ℕ) : ℚ :=
  ([1 / 4, 1 / 4, 3 / 4, 3 / 4, (9 - (j : ℚ)) / 10] : List ℚ).getD i 0

theorem extractDetections_aligned_witness : ∃ r cols,
    extractDetections stableArgsort (configExample 320 2) 240 320 (.two ⟨5, 3, entryExample⟩) =
        some (some r) ∧
      Aligned (configExample 320 2) 240 320 ⟨5, 3, entryExample⟩ .xyxy r cols ∧
      Complete (configExample 320 2) 240 320 ⟨5, 3, entryExample⟩ .xyxy r cols := by
  obtain ⟨r, cols, hextract, haligned, hcomplete, -⟩ := extractDetections_aligned stableArgsort
    argsort_stableArgsort (configExample 320 2) .xyxy rfl rfl (by decide) 240 320 (by decide)
    (by decide) 3 entryExample
  exact ⟨r, cols, hextract, haligned, hcomplete (by decide)⟩

/-- A negative limit leaves out a column although fewer than that many were returned, and an empty
frame or a network without a size raises an exception. -/
theorem not_extractDetections_aligned :
    (¬∃ r cols, extractDetections stableArgsort (configExample 320 (-1)) 320 320
        (.two ⟨5, 1, entryExample⟩) = some (some r) ∧
      Aligned (configExample 320 (-1)) 320 320 ⟨5, 1, entryExample⟩ .xyxy r cols ∧
      Complete (configExample 320 (-1)) 320 320 ⟨5, 1, entryExample⟩ .xyxy r cols) ∧
    (¬∃ r, extractDetections stableArgsort (configExample 320 10) 0 320
        (.two ⟨5, 1, entryExample⟩) = some (some r)) ∧
    ¬∃ r, extractDetections stableArgsort (configExample 0 10) 320 320
        (.two ⟨5, 1, entryExample⟩) = some (some r) := by
  refine ⟨?_, ?_, ?_⟩
  · rintro ⟨r, cols, hextract, haligned, hcomplete⟩
    have hempty : extractDetections stableArgsort (configExample 320 (-1)) 320 320
        (.two ⟨5, 1, entryExample⟩) = some (some .empty) := by decide +kernel
    rw [hempty, Option.some.injEq, Option.some.injEq] at hextract
    subst hextract
    have hcols : cols = [] := List.length_eq_zero_iff.mp haligned.count.symm
    have hbox : Accepted (configExample 320 (-1)) 320 320 ⟨5, 1, entryExample⟩ .xyxy 0
        ⟨80, 80, 240, 240⟩ :=
      ⟨by decide, by decide +kernel, by decide +kernel, by decide +kernel⟩
    have hcount := (hcomplete 0 _ hbox (by rw [hcols]; exact List.not_mem_nil)).1
    cases hcount
  · rintro ⟨r, hextract⟩
    have hraises : extractDetections stableArgsort (configExample 320 10) 0 320
        (.two ⟨5, 1, entryExample⟩) = some none := by decide +kernel
    rw [hraises] at hextract
    cases hextract
  · rintro ⟨r, hextract⟩
    have hraises : extractDetections stableArgsort (configExample 0 10) 320 320
        (.two ⟨5, 1, entryExample⟩) = some none := by decide +kernel
    rw [hraises] at hextract
    cases hextract

end Example

end PostProcess

end DroneTurret
