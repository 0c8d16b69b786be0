import DroneTurret.Lib.WeightedSum
import DroneTurret.PostProcess.Decode

/-!
# Boxes around anchors

The head that the network may have instead of the suppression on the chip gives a row for each cell
of three grids. A row says how far the sides of a box are from the centre of its cell, as
distributions over the distances from 0 to 15 strides, and how good the box is. The function that
decodes the rows turns the distributions into their means.

However the results of the operations are rounded, a box has its centre inside or on its border, and
it is never taken for one in coordinates from 0 to 1 later on. In exact arithmetic the weights of a
mean are positive and their sum is below 1, as something is added to the divisor. So there the
centre is strictly inside, no side is 15 strides away, and the test for boxes without an inside
drops nothing. In `float32` what is added is lost, and a side can be at the centre.

`exp` is a parameter. The centres are looked up in a cache that lives as long as the program.

## Main definitions

* `Settings` — all settings of `extract_detections`
* `Arithmetic` — rounded arithmetic, and `Arithmetic.exact`
* `dflCenters`, `getDflCenters` — the centres of the cells, and the function with its cache
* `decodeYolov8DflCore` — the decoder

## Main results

* `getDflCenters_eq` — the cache does not change what the function returns
* `length_dflCenters` — the grids have as many cells as the decoder expects
* `around_dflBox`, `anchored_dflBox` — where the box of a row lies
* `decodeYolov8DflCore_eq` — the rows that are kept
-/

namespace DroneTurret

namespace PostProcess

/-! ### Settings -/

/-- `head_layout`; every other word is read as `auto`. -/
inductive HeadLayout
  | objCls
  | clsObj
  | auto
  deriving DecidableEq

/-- `output_dequant`, if it is not empty. -/
structure Dequant where
  scale : Option ℚ
  zp : Option ℚ

/-- All settings that `extract_detections` reads. -/
structure Settings extends Config where
  nmsIouThresh : Option ℚ
  preNmsTopk : Option ℤ
  objThreshold : Option ℚ
  clsMin : Option ℚ
  headLayout : Option HeadLayout
  droneClassIndex : Option ℤ
  forceSingleClass : Option Bool
  outputDequant : Option Dequant
  clsTemperature : Option ℚ
  clsBias : Option ℚ

namespace Settings

variable (cfg : Settings)

def iouTh : ℚ := cfg.nmsIouThresh.getD (45 / 100)

def preTopk : ℤ := cfg.preNmsTopk.getD 0

def objTh : ℚ := cfg.objThreshold.getD (1 / 4)

def classMin : ℚ := cfg.clsMin.getD (35 / 100)

def headOpt : HeadLayout := cfg.headLayout.getD .auto

def forceSc : Bool := cfg.forceSingleClass.getD true

def temperature : ℚ := cfg.clsTemperature.getD 8

def bias : ℚ := cfg.clsBias.getD 0

end Settings

/-! ### Arithmetic -/

/-- The arithmetic of the arrays. The result of an operation is rounded, and sums are rounded on the
way, in an order that is not said. -/
structure Arithmetic where
  round : ℚ → ℚ
  /-- `np.sum`. -/
  sum : List ℚ → ℚ
  /-- The operator `@`. -/
  dot : List ℚ → List ℚ → ℚ
  round_mono : Monotone round
  round_int : ∀ n : ℤ, |n| ≤ 2 ^ 24 → round n = n
  sum_nonneg : ∀ {l : List ℚ}, (∀ a ∈ l, 0 ≤ a) → 0 ≤ sum l
  dot_nonneg : ∀ {p x : List ℚ}, (∀ a ∈ p, 0 ≤ a) → (∀ b ∈ x, 0 ≤ b) → 0 ≤ dot p x

namespace Arithmetic

/-- Nothing is rounded. -/
def exact : Arithmetic where
  round := id
  sum := List.sum
  dot := weightedSum
  round_mono := monotone_id
  round_int _ _ := rfl
  sum_nonneg := List.sum_nonneg
  dot_nonneg := weightedSum_nonneg

variable (A : Arithmetic)

theorem round_zero : A.round 0 = 0 := by
  have h := A.round_int 0 (by decide)
  rwa [Int.cast_zero] at h

theorem round_one : A.round 1 = 1 := by
  have h := A.round_int 1 (by decide)
  rwa [Int.cast_one] at h

theorem round_nonneg {q : ℚ} (h : 0 ≤ q) : 0 ≤ A.round q := A.round_zero ▸ A.round_mono h

theorem one_le_round {q : ℚ} (h : 1 ≤ q) : 1 ≤ A.round q := A.round_one ▸ A.round_mono h

theorem round_le_one {q : ℚ} (h : q ≤ 1) : A.round q ≤ 1 := A.round_one ▸ A.round_mono h

end Arithmetic

/-! ### The centres -/

/-- The centre of a cell, and the stride of its grid. -/
structure Center where
  cx : ℚ
  cy : ℚ
  stride : ℕ
  deriving DecidableEq, Inhabited

/-- The cells of one grid, row by row. -/
def levelCenters (netSize : ℤ) (s : ℕ) : List Center :=
  let n := (netSize / s).toNat
  (List.range n).flatMap fun (y : ℕ) => (List.range n).map fun (x : ℕ) =>
    ⟨(x + 1 / 2) * s, (y + 1 / 2) * s, s⟩

/-- What `_get_dfl_centers` computes. -/
def dflCenters (netSize : ℤ) : List Center := [8, 16, 32].flatMap (levelCenters netSize)

/-- `_CENTER_CACHE`. -/
abbrev CenterCache := List (ℤ × List Center)

/-- `_get_dfl_centers`. -/
def getDflCenters (cache : CenterCache) (netSize : ℤ) : List Center × CenterCache :=
  match cache.lookup netSize with
  | some c => (c, cache)
  | none => (dflCenters netSize, (netSize, dflCenters netSize) :: cache)

/-- What is in the cache has been computed. -/
def CenterCache.Valid (cache : CenterCache) : Prop := ∀ p ∈ cache, p.2 = dflCenters p.1

theorem CenterCache.valid_nil : CenterCache.Valid [] := List.forall_mem_nil _

/-- **The cache does not show.** -/
theorem getDflCenters_eq {cache : CenterCache} (h : cache.Valid) (netSize : ℤ) :
    (getDflCenters cache netSize).1 = dflCenters netSize ∧
      (getDflCenters cache netSize).2.Valid := by
  rw [getDflCenters]
  split
  · rename_i c hc
    obtain ⟨l, r, hcache, -⟩ := List.lookup_eq_some_iff.mp hc
    refine ⟨h (netSize, c) ?_, h⟩
    rw [hcache]
    exact List.mem_append_right _ List.mem_cons_self
  · exact ⟨rfl, List.forall_mem_cons.mpr ⟨rfl, h⟩⟩

/-- `N_expect`. -/
def nExpect (netSize : ℤ) : ℤ :=
  netSize / 8 * (netSize / 8) + netSize / 16 * (netSize / 16) + netSize / 32 * (netSize / 32)

theorem length_levelCenters (netSize : ℤ) (s : ℕ) :
    (levelCenters netSize s).length = (netSize / s).toNat * (netSize / s).toNat := by
  rw [levelCenters, List.length_flatMap]
  simp only [List.length_map, List.length_range]
  rw [List.map_const', List.sum_replicate, List.length_range, smul_eq_mul]

/-- **There is a centre for each row that is expected.** -/
theorem length_dflCenters {netSize : ℤ} (h : 0 ≤ netSize) :
    ((dflCenters netSize).length : ℤ) = nExpect netSize := by
  have hsquare : ∀ s : ℕ, ((levelCenters netSize s).length : ℤ) =
      netSize / s * (netSize / s) := by
    intro s
    rw [length_levelCenters, Nat.cast_mul, Int.toNat_of_nonneg (Int.ediv_nonneg h s.cast_nonneg)]
  simp only [dflCenters, List.flatMap_cons, List.flatMap_nil, List.append_nil, List.length_append,
    Nat.cast_add, hsquare]
  rw [nExpect, add_assoc]
  rfl

/-- A centre is in the middle of a cell in the image. -/
structure Center.InImage (c : Center) (netSize : ℤ) : Prop where
  stride : 8 ≤ c.stride
  cx : ∃ n : ℤ, c.cx = n
  cy : ∃ n : ℤ, c.cy = n
  left : (c.stride : ℚ) / 2 ≤ c.cx
  right : c.cx + c.stride / 2 ≤ netSize
  top : (c.stride : ℚ) / 2 ≤ c.cy
  bottom : c.cy + c.stride / 2 ≤ netSize

/-- A coordinate of a centre. -/
theorem center_bounds {netSize : ℤ} {s i : ℕ} (hs : 0 < s) (hi : i < (netSize / s).toNat) :
    (s : ℚ) / 2 ≤ (i + 1 / 2) * s ∧ ((i : ℚ) + 1 / 2) * s + s / 2 ≤ netSize := by
  have hmul : ((i : ℤ) + 1) * s ≤ netSize := by
    have hle : (i : ℤ) + 1 ≤ netSize / s := by omega
    exact (Int.le_ediv_iff_mul_le (by exact_mod_cast hs)).mp hle
  have hmul' : ((i : ℚ) + 1) * s ≤ netSize := by exact_mod_cast hmul
  have hnonneg : (0 : ℚ) ≤ i * s := mul_nonneg i.cast_nonneg s.cast_nonneg
  constructor <;> linarith

theorem exists_int_center {s : ℕ} (hs : Even s) (i : ℕ) : ∃ n : ℤ, ((i : ℚ) + 1 / 2) * s = n := by
  obtain ⟨m, rfl⟩ := hs
  exact ⟨i * (m + m) + m, by push_cast; ring⟩

theorem inImage_of_mem {netSize : ℤ} {c : Center} (h : c ∈ dflCenters netSize) :
    c.InImage netSize := by
  obtain ⟨s, hs, hc⟩ := List.mem_flatMap.mp h
  obtain ⟨y, hy, hc⟩ := List.mem_flatMap.mp hc
  obtain ⟨x, hx, rfl⟩ := List.mem_map.mp hc
  have hstrides : s = 8 ∨ s = 16 ∨ s = 32 := by
    simpa only [List.mem_cons, List.not_mem_nil, or_false] using hs
  have hstride : 8 ≤ s := by omega
  have heven : Even s := by
    rcases hstrides with rfl | rfl | rfl <;> decide
  have hx := center_bounds (by omega) (List.mem_range.mp hx)
  have hy := center_bounds (by omega) (List.mem_range.mp hy)
  exact ⟨hstride, exists_int_center heven _, exists_int_center heven _, hx.1, hx.2, hy.1, hy.2⟩

/-! ### The decoder -/

/-- `reg_max`. -/
def regMax : ℕ := 16

section Rounded

variable (A : Arithmetic) (exp : ℚ → ℚ)

/-- The softmax, here and in `_stable_softmax`. -/
def stableSoftmax (z : List ℚ) : List ℚ :=
  let e := z.map fun v => exp (clip (-50) 50 (A.round (v - z.max?.getD 0)))
  let denom := A.round (A.sum e + A.round (1 / 1000000000))
  e.map fun v => A.round (v / denom)

/-- `dist[i, k]`: how far side `k` is from the centre, in strides. -/
def sideDist (dfl : ℕ → ℕ → ℚ) (i k : ℕ) : ℚ :=
  A.dot (stableSoftmax A exp ((List.range regMax).map fun j => dfl i (k * regMax + j)))
    ((List.range regMax).map fun (x : ℕ) => (x : ℚ))

/-- The box of row `i`, before it is cut off at the border of the image. -/
def rawBox (dfl : ℕ → ℕ → ℚ) (i : ℕ) (c : Center) : Box :=
  let side := fun k => A.round (sideDist A exp dfl i k * c.stride)
  ⟨A.round (c.cx - side 0), A.round (c.cy - side 1), A.round (c.cx + side 2),
    A.round (c.cy + side 3)⟩

/-- The scores are probabilities already. -/
def Probabilities (cls : List ℚ) : Prop :=
  (∀ c ∈ cls, A.round (-(1 / 1000000)) ≤ c) ∧ ∀ c ∈ cls, c ≤ A.round (1 + 1 / 1000000)

instance (cls : List ℚ) : Decidable (Probabilities A cls) := inferInstanceAs (Decidable (_ ∧ _))

/-- `scores_all`. -/
def clsScores (cfg : Settings) (cls : List ℚ) : List ℚ :=
  if Probabilities A cls then cls.map (clip 0 1)
  else
    let cls :=
      if cfg.bias ≠ 0 then cls.map fun c => A.round (c - A.round cfg.bias) else cls
    let cls :=
      if 1 < cfg.temperature then cls.map fun c => A.round (c / A.round cfg.temperature) else cls
    cls.map fun c => A.round (1 / A.round (1 + exp (-clip (-12) 12 c)))

end Rounded

/-- The boxes of a head in the image of the network, with their scores and classes. -/
structure Decoded where
  boxes : List Box
  scores : List ℚ
  classes : List ℕ

def Decoded.empty : Decoded := ⟨[], [], []⟩

/-- `np.clip` of the boxes to the image of the network. -/
def Box.clipToNet (netSize : ℤ) (b : Box) : Box := b.map (clip 0 netSize) (clip 0 netSize)

/-- `pos`. -/
def Box.HasInside (b : Box) : Prop := b.x1 < b.x2 ∧ b.y1 < b.y2

instance (b : Box) : Decidable b.HasInside := inferInstanceAs (Decidable (_ ∧ _))

/-- The decoder, once it has the centres. -/
def decodeRows (A : Arithmetic) (exp : ℚ → ℚ) (cfg : Settings) (N : ℕ) (dfl : ℕ → ℕ → ℚ)
    (cls : ℕ → ℚ) (centers : List Center) : Option Decoded := do
  -- arrays of different lengths cannot be subtracted
  if centers.length ≠ N then none
  let boxes := (List.range N).map fun i => rawBox A exp dfl i (centers.getD i default)
  let valid := boxes.map fun b => decide b.HasInside
  if ¬valid.any id then return .empty
  let boxes ← mask valid boxes
  let scores ← mask valid (clsScores A exp cfg ((List.range N).map cls))
  let keep := scores.map fun s => decide (A.round cfg.scoreTh ≤ s)
  if ¬keep.any id then return .empty
  let boxes ← mask keep boxes
  let scores ← mask keep scores
  return ⟨boxes.map (Box.clipToNet cfg.netSize), scores, scores.map fun _ => 0⟩

/-- `_decode_yolov8_dfl_core`, for the image size and the threshold of the settings. -/
def decodeYolov8DflCore (A : Arithmetic) (exp : ℚ → ℚ) (cfg : Settings) (cache : CenterCache)
    (N : ℕ) (dfl : ℕ → ℕ → ℚ) (cls : ℕ → ℚ) : Option Decoded × CenterCache :=
  if (N : ℤ) ≠ nExpect cfg.netSize then (some .empty, cache)
  else
    let (centers, cache) := getDflCenters cache cfg.netSize
    (decodeRows A exp cfg N dfl cls centers, cache)

/-! ### Where the boxes are -/

section Boxes

variable {A : Arithmetic} {exp : ℚ → ℚ} {netSize : ℤ} {c : Center} (dfl : ℕ → ℕ → ℚ)

/-- The box lies in the image, with the centre inside or on its border. -/
structure Around (netSize : ℤ) (c : Center) (b : Box) : Prop where
  x1 : 0 ≤ b.x1 ∧ b.x1 ≤ c.cx
  y1 : 0 ≤ b.y1 ∧ b.y1 ≤ c.cy
  x2 : c.cx ≤ b.x2 ∧ b.x2 ≤ netSize
  y2 : c.cy ≤ b.y2 ∧ b.y2 ≤ netSize

/-- The box has the centre strictly inside, and its sides are near it. -/
structure Anchored (c : Center) (b : Box) : Prop where
  x1 : c.cx - 15 * c.stride < b.x1 ∧ b.x1 < c.cx
  y1 : c.cy - 15 * c.stride < b.y1 ∧ b.y1 < c.cy
  x2 : c.cx < b.x2 ∧ b.x2 < c.cx + 15 * c.stride
  y2 : c.cy < b.y2 ∧ b.y2 < c.cy + 15 * c.stride

theorem Center.InImage.stride_pos (hc : c.InImage netSize) : (0 : ℚ) < c.stride := by
  have hpos : 0 < c.stride := Nat.lt_of_lt_of_le (by decide) hc.stride
  exact_mod_cast hpos

theorem Center.InImage.inside (hc : c.InImage netSize) :
    (0 < c.cx ∧ c.cx < netSize) ∧ 0 < c.cy ∧ c.cy < netSize := by
  have hs := hc.stride_pos
  refine ⟨⟨?_, ?_⟩, ?_, ?_⟩
  · linarith [hc.left]
  · linarith [hc.right]
  · linarith [hc.top]
  · linarith [hc.bottom]

/-- A side is on its own side of the centre, or at it. -/
theorem sideDist_nonneg (hexp : ∀ x, 0 < exp x) (i k : ℕ) : 0 ≤ sideDist A exp dfl i k := by
  refine A.dot_nonneg (fun a ha => ?_) (List.forall_mem_map.mpr fun j _ => j.cast_nonneg)
  obtain ⟨v, hv, rfl⟩ := List.mem_map.mp ha
  have hexps : ∀ z : List ℚ, ∀ m, ∀ v ∈ z.map (fun v => exp (clip (-50) 50 (A.round (v - m)))),
      0 ≤ v := fun z m => List.forall_mem_map.mpr fun v _ => (hexp _).le
  refine A.round_nonneg (div_nonneg (hexps _ _ v hv) (A.round_nonneg ?_))
  exact add_nonneg (A.sum_nonneg (hexps _ _)) (A.round_nonneg (by norm_num))

/-- A whole number is not rounded, so results stay on their side of it. -/
theorem round_side {x d : ℚ} (hx : ∃ n : ℤ, x = n) (hpos : 0 < x) (hmax : x ≤ 2 ^ 24)
    (hd : 0 ≤ d) : A.round (x - d) ≤ x ∧ x ≤ A.round (x + d) := by
  obtain ⟨n, rfl⟩ := hx
  have habs : |n| ≤ 2 ^ 24 := by
    rw [abs_of_pos (by exact_mod_cast hpos)]
    exact_mod_cast hmax
  have hround := A.round_int n habs
  constructor
  · calc A.round (n - d) ≤ A.round n := A.round_mono (sub_le_self _ hd)
      _ = n := hround
  · calc (n : ℚ) = A.round n := hround.symm
      _ ≤ A.round (n + d) := A.round_mono (le_add_of_nonneg_right hd)

/-- Two sides along one axis, when they are cut off. -/
theorem clip_around {net x a b : ℚ} (hx : 0 < x ∧ x < net) (ha : a ≤ x) (hb : x ≤ b) :
    (0 ≤ clip 0 net a ∧ clip 0 net a ≤ x) ∧ (x ≤ clip 0 net b ∧ clip 0 net b ≤ net) ∧
      (clip 0 net a < clip 0 net b ↔ a < b) := by
  have hlow : clip 0 net a = max a 0 := min_eq_left (max_le (by linarith) (by linarith))
  have hhigh : clip 0 net b = min b net := by
    rw [clip, max_eq_left (by linarith)]
  rw [hlow, hhigh]
  refine ⟨⟨le_max_right _ _, max_le ha hx.1.le⟩, ⟨le_min hb hx.2.le, min_le_right _ _⟩, ?_⟩
  constructor
  · exact fun h => (le_max_left _ _).trans_lt (h.trans_le (min_le_left _ _))
  · exact fun h => max_lt (lt_min h (by linarith)) (lt_min (by linarith) (by linarith))

/-- **Where the box of a row lies**, and when it has an inside. -/
theorem around_dflBox (hexp : ∀ x, 0 < exp x) (hc : c.InImage netSize) (hnet : netSize ≤ 2 ^ 24)
    (i : ℕ) :
    Around netSize c ((rawBox A exp dfl i c).clipToNet netSize) ∧
      (((rawBox A exp dfl i c).clipToNet netSize).HasInside ↔
        (rawBox A exp dfl i c).HasInside) := by
  obtain ⟨hx, hy⟩ := hc.inside
  have hmax : (netSize : ℚ) ≤ 2 ^ 24 := by exact_mod_cast hnet
  have hside : ∀ k, 0 ≤ A.round (sideDist A exp dfl i k * c.stride) := fun k =>
    A.round_nonneg (mul_nonneg (sideDist_nonneg dfl hexp i k) hc.stride_pos.le)
  have hxs := fun k => @round_side A c.cx _ hc.cx hx.1 (hx.2.le.trans hmax) (hside k)
  have hys := fun k => @round_side A c.cy _ hc.cy hy.1 (hy.2.le.trans hmax) (hside k)
  obtain ⟨hx1, hx2, hxlt⟩ := clip_around hx (hxs 0).1 (hxs 2).2
  obtain ⟨hy1, hy2, hylt⟩ := clip_around hy (hys 1).1 (hys 3).2
  exact ⟨⟨hx1, hy1, hx2, hy2⟩, and_congr hxlt hylt⟩

/-- **A decoded box is never taken for one in coordinates from 0 to 1.** -/
theorem Around.denorm_eq {b : Box} (h : Around netSize c b) (hc : c.InImage netSize) :
    denorm b netSize = b := by
  have hstride : (8 : ℚ) ≤ c.stride := by exact_mod_cast hc.stride
  have hmax : b.x2 ≤ b.max := le_max_of_le_right (le_max_left _ _)
  have hlt : ¬b.max ≤ 1 + 1 / 1000000 := by linarith [h.x2.1, hc.left]
  rw [denorm, if_neg hlt]

/-! #### Exact arithmetic -/

/-- A side is less than 15 strides away, on its own side of the centre. -/
theorem sideDist_bounds (hexp : ∀ x, 0 < exp x) (i k : ℕ) :
    0 < sideDist .exact exp dfl i k ∧ sideDist .exact exp dfl i k < 15 := by
  have hsoftmax : ∀ z, stableSoftmax .exact exp z =
      shares (1 / 1000000000) (z.map fun v => exp (clip (-50) 50 (v - z.max?.getD 0))) :=
    fun _ => rfl
  change 0 < weightedSum _ _ ∧ weightedSum _ _ < 15
  rw [hsoftmax]
  generalize hz : (List.range regMax).map (fun j => dfl i (k * regMax + j)) = z
  generalize he : z.map (fun v => exp (clip (-50) 50 (v - z.max?.getD 0))) = e
  have hpos : ∀ a ∈ e, 0 < a := by
    rw [← he]
    exact List.forall_mem_map.mpr fun v _ => hexp _
  have hlength : e.length = regMax := by
    rw [← he, ← hz, List.length_map, List.length_map, List.length_range]
  have hshares := shares_pos (ε := 1 / 1000000000) (by norm_num) hpos
  have hsum := sum_shares_lt_one (ε := 1 / 1000000000) (by norm_num) hpos
  refine ⟨weightedSum_pos hshares (by decide) ?_ (by decide +kernel), ?_⟩
  · rw [length_shares, hlength, List.length_map, List.length_range]
  · exact weightedSum_lt (fun a ha => (hshares a ha).le) hsum (by decide) (by norm_num)

/-- The sides of a box along one axis, before and after it is cut off. -/
theorem clip_sides {net x s d d' : ℚ} (hs : 0 < s) (hx : 0 < x ∧ x < net) (hd : 0 < d ∧ d < 15)
    (hd' : 0 < d' ∧ d' < 15) :
    (x - 15 * s < clip 0 net (x - d * s) ∧ clip 0 net (x - d * s) < x) ∧
      x < clip 0 net (x + d' * s) ∧ clip 0 net (x + d' * s) < x + 15 * s := by
  have hds : 0 < d * s ∧ d * s < 15 * s :=
    ⟨mul_pos hd.1 hs, mul_lt_mul_of_pos_right hd.2 hs⟩
  have hds' : 0 < d' * s ∧ d' * s < 15 * s :=
    ⟨mul_pos hd'.1 hs, mul_lt_mul_of_pos_right hd'.2 hs⟩
  have hlow : clip 0 net (x - d * s) = max (x - d * s) 0 :=
    min_eq_left (max_le (by linarith) (by linarith))
  have hhigh : clip 0 net (x + d' * s) = min (x + d' * s) net := by
    rw [clip, max_eq_left (by linarith)]
  rw [hlow, hhigh]
  refine ⟨⟨?_, max_lt (by linarith) hx.1⟩, lt_min (by linarith) hx.2, ?_⟩
  · exact lt_max_of_lt_left (by linarith)
  · exact min_lt_of_left_lt (by linarith)

/-- **The box of a row is near its centre.** -/
theorem anchored_dflBox (hexp : ∀ x, 0 < exp x) (hc : c.InImage netSize) (i : ℕ) :
    Anchored c ((rawBox .exact exp dfl i c).clipToNet netSize) := by
  obtain ⟨hx, hy⟩ := hc.inside
  have hx' := clip_sides hc.stride_pos hx
    (sideDist_bounds dfl hexp i 0) (sideDist_bounds dfl hexp i 2)
  have hy' := clip_sides hc.stride_pos hy
    (sideDist_bounds dfl hexp i 1) (sideDist_bounds dfl hexp i 3)
  exact ⟨hx'.1, hy'.1, hx'.2, hy'.2⟩

/-- A box with an inside. -/
theorem hasInside_rawBox (hexp : ∀ x, 0 < exp x) (hc : 0 < c.stride) (i : ℕ) :
    (rawBox .exact exp dfl i c).HasInside := by
  have hs : (0 : ℚ) < c.stride := by exact_mod_cast hc
  have hpos : ∀ k, 0 < sideDist .exact exp dfl i k * c.stride := fun k =>
    mul_pos (sideDist_bounds dfl hexp i k).1 hs
  have h0 := hpos 0
  have h1 := hpos 1
  have h2 := hpos 2
  have h3 := hpos 3
  change c.cx - sideDist .exact exp dfl i 0 * c.stride < c.cx + sideDist .exact exp dfl i 2 *
    c.stride ∧ c.cy - sideDist .exact exp dfl i 1 * c.stride <
      c.cy + sideDist .exact exp dfl i 3 * c.stride
  constructor <;> linarith

end Boxes

/-! ### The rows that are kept -/

/-- Parallel arrays with an entry for each of the rows. -/
def Decoded.ofRows (rows : List ℕ) (box : ℕ → Box) (score : ℕ → ℚ) (cls : ℕ → ℕ) : Decoded :=
  ⟨rows.map box, rows.map score, rows.map cls⟩

section Rows

variable (A : Arithmetic) (exp : ℚ → ℚ) (cfg : Settings) (N : ℕ) (dfl : ℕ → ℕ → ℚ) (cls : ℕ → ℚ)

/-- `scores_all[i]`. -/
def dflScore (i : ℕ) : ℚ := (clsScores A exp cfg ((List.range N).map cls)).getD i 0

/-- The rows of a list with a sufficient score. -/
def sufficient (rows : List ℕ) : List ℕ :=
  rows.filter fun i => A.round cfg.scoreTh ≤ dflScore A exp cfg N cls i

/-- The box of row `i`, by the centre at `i`. -/
def dflBox (i : ℕ) : Box :=
  (rawBox A exp dfl i ((dflCenters cfg.netSize).getD i default)).clipToNet cfg.netSize

/-- The decoder leaves the cache valid, and does not depend on what is in it. -/
theorem decodeYolov8DflCore_cache {cache : CenterCache} (hcache : cache.Valid) :
    (decodeYolov8DflCore A exp cfg cache N dfl cls).1 =
        (decodeYolov8DflCore A exp cfg [] N dfl cls).1 ∧
      (decodeYolov8DflCore A exp cfg cache N dfl cls).2.Valid := by
  obtain ⟨hcenters, hvalid⟩ := getDflCenters_eq hcache cfg.netSize
  rw [decodeYolov8DflCore, decodeYolov8DflCore]
  split
  · exact ⟨rfl, hcache⟩
  · refine ⟨?_, hvalid⟩
    dsimp only
    rw [hcenters, (getDflCenters_eq CenterCache.valid_nil _).1]

variable {A} {exp} {cfg} {N} {dfl} {cls}

theorem length_clsScores (cls : List ℚ) : (clsScores A exp cfg cls).length = cls.length := by
  rw [clsScores]
  split
  · exact List.length_map _
  · simp only
    split <;> split <;> simp only [List.length_map]

theorem clsScores_bounds (hexp : ∀ x, 0 < exp x) (cls : List ℚ) :
    ∀ s ∈ clsScores A exp cfg cls, 0 ≤ s ∧ s ≤ 1 := by
  rw [clsScores]
  split
  · refine List.forall_mem_map.mpr fun c _ => ?_
    exact ⟨le_min (le_max_right _ _) zero_le_one, min_le_right _ _⟩
  · refine List.forall_mem_map.mpr fun c _ => ?_
    have hone : 1 ≤ A.round (1 + exp (-clip (-12) 12 c)) :=
      A.one_le_round (le_add_of_nonneg_right (hexp _).le)
    have hpos : 0 < A.round (1 + exp (-clip (-12) 12 c)) := zero_lt_one.trans_le hone
    exact ⟨A.round_nonneg (div_nonneg zero_le_one hpos.le),
      A.round_le_one ((div_le_one hpos).mpr hone)⟩

theorem dflScore_bounds (hexp : ∀ x, 0 < exp x) (i : ℕ) :
    0 ≤ dflScore A exp cfg N cls i ∧ dflScore A exp cfg N cls i ≤ 1 := by
  rw [dflScore]
  rcases lt_or_ge i (clsScores A exp cfg ((List.range N).map cls)).length with hi | hi
  · rw [List.getD_eq_getElem _ _ hi]
    exact clsScores_bounds hexp _ _ (List.getElem_mem hi)
  · rw [List.getD_eq_default _ _ hi]
    exact ⟨le_rfl, zero_le_one⟩

/-- **The decoder keeps the rows whose box has an inside and whose score suffices.** -/
theorem decodeRows_eq {centers : List Center} (hcenters : centers.length = N) :
    decodeRows A exp cfg N dfl cls centers =
      some (.ofRows (sufficient A exp cfg N cls ((List.range N).filter fun i =>
          (rawBox A exp dfl i (centers.getD i default)).HasInside))
        (fun i => (rawBox A exp dfl i (centers.getD i default)).clipToNet cfg.netSize)
        (dflScore A exp cfg N cls) fun _ => 0) := by
  have hscores : clsScores A exp cfg ((List.range N).map cls) =
      (List.range N).map (dflScore A exp cfg N cls) := by
    have hget := map_getD_range (clsScores A exp cfg ((List.range N).map cls))
    rw [length_clsScores, List.length_map, List.length_range] at hget
    exact hget.symm
  rw [decodeRows, hscores, if_neg (not_not.mpr hcenters)]
  generalize hbox : (fun i => rawBox A exp dfl i (centers.getD i default)) = box
  have hclipped : (fun i => (rawBox A exp dfl i (centers.getD i default)).clipToNet cfg.netSize) =
      fun i => (box i).clipToNet cfg.netSize := by
    rw [← hbox]
  have hinside : (fun i => decide (rawBox A exp dfl i (centers.getD i default)).HasInside) =
      fun i => decide (box i).HasInside := by
    rw [← hbox]
  rw [hclipped, hinside, sufficient]
  have hmask := fun (β : Type) (f : ℕ → β) =>
    mask_map (fun i => decide (box i).HasInside) f (List.range N)
  have hany := any_map_id_iff (fun i => decide (box i).HasInside) (List.range N)
  generalize (List.range N).filter (fun i => decide (box i).HasInside) = rows at hmask hany ⊢
  have hmask' := fun (β : Type) (f : ℕ → β) =>
    mask_map (fun i => decide (A.round cfg.scoreTh ≤ dflScore A exp cfg N cls i)) f rows
  have hany' := any_map_id_iff
    (fun i => decide (A.round cfg.scoreTh ≤ dflScore A exp cfg N cls i)) rows
  simp only [List.map_map, Function.comp_def, Option.bind_eq_bind, Option.bind_some, hmask, hmask',
    Option.pure_def]
  by_cases hnil : rows = []
  · rw [if_pos fun h => hany.mp h hnil, hnil]
    rfl
  rw [if_neg (not_not.mpr (hany.mpr hnil))]
  by_cases hnone : rows.filter (fun i =>
      decide (A.round cfg.scoreTh ≤ dflScore A exp cfg N cls i)) = []
  · rw [if_pos fun h => hany'.mp h hnone, hnone]
    rfl
  · rw [if_neg (not_not.mpr (hany'.mpr hnone))]
    rfl

/-- **The decoder**, on as many rows as it expects. -/
theorem decodeYolov8DflCore_rounded {cache : CenterCache} (hcache : cache.Valid)
    (hnet : 0 ≤ cfg.netSize) (hN : (N : ℤ) = nExpect cfg.netSize) :
    (decodeYolov8DflCore A exp cfg cache N dfl cls).1 =
      some (.ofRows (sufficient A exp cfg N cls ((List.range N).filter fun i =>
          (rawBox A exp dfl i ((dflCenters cfg.netSize).getD i default)).HasInside))
        (dflBox A exp cfg dfl) (dflScore A exp cfg N cls) fun _ => 0) := by
  have hlength : (dflCenters cfg.netSize).length = N := by
    have hcast := (length_dflCenters hnet).trans hN.symm
    exact_mod_cast hcast
  rw [decodeYolov8DflCore, if_neg (not_not.mpr hN)]
  dsimp only
  rw [(getDflCenters_eq hcache _).1]
  exact decodeRows_eq hlength

/-- **In exact arithmetic** every box has an inside. -/
theorem decodeYolov8DflCore_eq (hexp : ∀ x, 0 < exp x) {cache : CenterCache} (hcache : cache.Valid)
    (hnet : 0 ≤ cfg.netSize) :
    (decodeYolov8DflCore .exact exp cfg cache N dfl cls).1 =
      some (if (N : ℤ) = nExpect cfg.netSize then
        .ofRows (sufficient .exact exp cfg N cls (List.range N)) (dflBox .exact exp cfg dfl)
          (dflScore .exact exp cfg N cls) fun _ => 0
      else .empty) := by
  by_cases hN : (N : ℤ) = nExpect cfg.netSize
  · have hinside : (List.range N).filter (fun i => decide
        (rawBox .exact exp dfl i ((dflCenters cfg.netSize).getD i default)).HasInside) =
          List.range N := by
      refine List.filter_eq_self.mpr fun i hi => decide_eq_true ?_
      have hlt : i < (dflCenters cfg.netSize).length := by
        have hlength := (length_dflCenters hnet).trans hN.symm
        have hi := List.mem_range.mp hi
        omega
      rw [List.getD_eq_getElem _ _ hlt]
      exact hasInside_rawBox dfl hexp
        (Nat.lt_of_lt_of_le (by decide) (inImage_of_mem (List.getElem_mem hlt)).stride) i
    rw [decodeYolov8DflCore_rounded hcache hnet hN, hinside, if_pos hN]
  · rw [decodeYolov8DflCore, if_pos hN, if_neg hN]

end Rows

section Example

/-- Settings with defaults, but for the size of the network's image and the limits. -/
def settingsExample (inputSize maxDetections preTopk : ℤ) : Settings where
  inputSize := some inputSize
  preprocessMode := none
  minBoxAreaRatio := none
  maxBoxAreaRatio := none
  dropBorderRatio := none
  scoreThreshold := none
  scoreThres := none
  maxDetections := some maxDetections
  maxBoxesToDraw := none
  nmsOrder := none
  nmsLayout := none
  nmsIouThresh := none
  preNmsTopk := some preTopk
  objThreshold := none
  clsMin := none
  headLayout := none
  droneClassIndex := none
  forceSingleClass := none
  outputDequant := none
  clsTemperature := none
  clsBias := none

/-- Everything is rounded down to multiples of a thousandth. -/
def thousandths : Arithmetic where
  round q := ⌊q * 1000⌋ / 1000
  sum := List.sum
  dot := weightedSum
  round_mono q r h := by
    have hfloor : ⌊q * 1000⌋ ≤ ⌊r * 1000⌋ := Int.floor_le_floor (by linarith)
    have hcast : (⌊q * 1000⌋ : ℚ) ≤ ⌊r * 1000⌋ := by exact_mod_cast hfloor
    exact div_le_div_of_nonneg_right hcast (by norm_num)
  round_int n _ := by
    have hmul : (n : ℚ) * 1000 = ((n * 1000 : ℤ) : ℚ) := by push_cast; rfl
    rw [hmul, Int.floor_intCast]
    push_cast
    ring
  sum_nonneg := List.sum_nonneg
  dot_nonneg := weightedSum_nonneg

/-- In this arithmetic a distribution with nearly all its weight at 0 leaves a side at the
centre, and the row is dropped. -/
example : ¬(rawBox thousandths (fun x => if x < 0 then 1 / 1000000 else 1)
    (fun _ j => if j % 16 = 0 then 50 else 0) 0 ⟨4, 4, 8⟩).HasInside := by decide +kernel

end Example

end PostProcess

end DroneTurret
