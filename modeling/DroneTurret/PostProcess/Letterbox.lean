import DroneTurret.PostProcess.Alignment
import DroneTurret.Vision.Encoder

/-!
# There and back through a letterbox

`default_preprocess` shrinks an image to whole pixels and puts it into the middle of the square that
the network sees, again at a whole pixel. `denorm_and_unletterbox_xyxy` takes boxes back with the
scale and the padding before any rounding. What is lost on the way is less than a pixel of the
network's image, on either axis.

## Main definitions

* `Placement`, `placement` — where `default_preprocess` puts an image
* `Placement.forward` — where a box of the image comes to lie
* `Box.Near` — two boxes whose coordinates are closer than a distance

## Main results

* `axis_error` — the three rounding effects on one axis
* `letterbox_round_trip` — a box comes back within a pixel of the network's image
-/

namespace DroneTurret

namespace PostProcess

open Vision (pyInt)

/-- The size of the image in the letterbox, and its place. -/
structure Placement where
  nw : ℤ
  nh : ℤ
  x0 : ℤ
  y0 : ℤ
  deriving DecidableEq

/-- The numbers in `default_preprocess`. -/
def placement (w h : ℕ) (modelW modelH : ℤ) : Option Placement := do
  let scaleW ← pyDiv modelW w
  let scaleH ← pyDiv modelH h
  let scale := min scaleW scaleH
  let nw := pyInt (w * scale)
  let nh := pyInt (h * scale)
  return ⟨nw, nh, (modelW - nw) / 2, (modelH - nh) / 2⟩

/-- An image by its rows. -/
structure Image (Pixel : Type) where
  height : ℕ
  width : ℕ
  pixel : ℕ → ℕ → Pixel

/-- `default_preprocess`, with the function that resizes and the colour of the padding. -/
def defaultPreprocess {Pixel : Type} (resize : Image Pixel → ℤ → ℤ → Option (Image Pixel))
    (grey : Pixel) (image : Image Pixel) (modelW modelH : ℤ) : Option (Image Pixel) := do
  let p ← placement image.width image.height modelW modelH
  let resized ← resize image p.nw p.nh
  return {
    height := modelH.toNat
    width := modelW.toNat
    pixel := fun i j =>
      if (p.y0 ≤ i ∧ i < p.y0 + p.nh) ∧ p.x0 ≤ j ∧ j < p.x0 + p.nw then
        resized.pixel ((i : ℤ) - p.y0).toNat ((j : ℤ) - p.x0).toNat
      else grey }

/-- Where a box of an image of `w` by `h` pixels comes to lie in the letterbox. -/
def Placement.forward (p : Placement) (w h : ℕ) (b : Box) : Box :=
  b.map (fun x => x * p.nw / w + p.x0) fun y => y * p.nh / h + p.y0

namespace Box

/-- The coordinates as parts of the network's image. -/
def normalised (b : Box) (net : ℤ) : Box := b.map (· / net) (· / net)

/-- The corners are points of an image, in any order. -/
structure Within (H W : ℕ) (b : Box) : Prop where
  x1 : 0 ≤ b.x1 ∧ b.x1 ≤ W
  x2 : 0 ≤ b.x2 ∧ b.x2 ≤ W
  y1 : 0 ≤ b.y1 ∧ b.y1 ≤ H
  y2 : 0 ≤ b.y2 ∧ b.y2 ≤ H

/-- The coordinates differ by less than `δ`. -/
structure Near (δ : ℚ) (a b : Box) : Prop where
  x1 : |a.x1 - b.x1| < δ
  y1 : |a.y1 - b.y1| < δ
  x2 : |a.x2 - b.x2| < δ
  y2 : |a.y2 - b.y2| < δ

end Box

/-- The pixels of the network's image for one of the image. -/
def scale (w h : ℕ) (net : ℤ) : ℚ := min (net / w) (net / h)

theorem placement_eq {w h : ℕ} {net : ℤ} (hw : 1 ≤ w) (hh : 1 ≤ h) {p : Placement}
    (hp : placement w h net net = some p) :
    p.nw = pyInt (w * scale w h net) ∧ p.nh = pyInt (h * scale w h net) ∧
      p.x0 = (net - p.nw) / 2 ∧ p.y0 = (net - p.nh) / 2 := by
  have hw' : (w : ℚ) ≠ 0 := Nat.cast_ne_zero.mpr (Nat.pos_iff_ne_zero.mp hw)
  have hh' : (h : ℚ) ≠ 0 := Nat.cast_ne_zero.mpr (Nat.pos_iff_ne_zero.mp hh)
  rw [placement, pyDiv, pyDiv, if_neg hw', if_neg hh'] at hp
  obtain rfl := Option.some.inj hp
  exact ⟨rfl, rfl, rfl, rfl⟩

/-- The resized image stands at its place. -/
theorem pixel_defaultPreprocess {Pixel : Type}
    {resize : Image Pixel → ℤ → ℤ → Option (Image Pixel)} {grey : Pixel} {modelW modelH : ℤ}
    {image resized out : Image Pixel} {p : Placement}
    (hp : placement image.width image.height modelW modelH = some p)
    (hresize : resize image p.nw p.nh = some resized)
    (hout : defaultPreprocess resize grey image modelW modelH = some out) {i j : ℕ}
    (hi : i < p.nh) (hj : j < p.nw) {u v : ℕ} (hu : (u : ℤ) = p.y0 + i) (hv : (v : ℤ) = p.x0 + j) :
    out.pixel u v = resized.pixel i j := by
  simp only [defaultPreprocess, hp, hresize, Option.bind_eq_bind, Option.bind_some,
    Option.pure_def, Option.some.injEq] at hout
  subst hout
  have hrow : ((u : ℤ) - p.y0).toNat = i := by omega
  have hcolumn : ((v : ℤ) - p.x0).toNat = j := by omega
  have hinside : (p.y0 ≤ u ∧ (u : ℤ) < p.y0 + p.nh) ∧ p.x0 ≤ v ∧ (v : ℤ) < p.x0 + p.nw := by omega
  simp only [if_pos hinside, hrow, hcolumn]

/-- A positive number that `int` makes of something is its floor. -/
theorem pyInt_bounds {q : ℚ} (h : 1 ≤ pyInt q) : (pyInt q : ℚ) ≤ q ∧ q < pyInt q + 1 := by
  rw [pyInt] at h ⊢
  split at h
  · rename_i hq
    rw [if_pos hq]
    exact ⟨Int.floor_le q, Int.lt_floor_add_one q⟩
  · rename_i hq
    have hceil : ⌈q⌉ ≤ 0 := Int.ceil_le.mpr (by exact_mod_cast (not_le.mp hq).le)
    omega

section Axis

variable {n s x : ℚ} {net m : ℤ}

/-- **One axis.** The size is cut off to `m`, the padding is cut off to half of what is left, and
the way back knows neither. -/
theorem axis_error (hn : 0 < n) (hs : 0 < s) (hx : 0 ≤ x) (hxn : x ≤ n) (hm : m ≤ n * s)
    (hlt : n * s < m + 1) :
    |(x * m / n + ((net - m) / 2 : ℤ) - (net - n * s) / 2) / s - x| < 1 / s := by
  obtain ⟨u, hu⟩ : ∃ u, u = x / n := ⟨_, rfl⟩
  have hu0 : 0 ≤ u := hu ▸ div_nonneg hx hn.le
  have hu1 : u ≤ 1 := hu ▸ (div_le_one hn).mpr hxn
  have hxu : x = u * n := by rw [hu, div_mul_cancel₀ _ hn.ne']
  -- the cut of the size moves the point by at most as much as is cut off
  have hcut0 : 0 ≤ u * (n * s - m) := mul_nonneg hu0 (sub_nonneg.mpr hm)
  have hcut1 : u * (n * s - m) ≤ n * s - m := mul_le_of_le_one_left (sub_nonneg.mpr hm) hu1
  -- the cut of the padding is nothing or half a pixel
  have hpad : ((net : ℚ) - m - 1) / 2 ≤ ((net - m) / 2 : ℤ) ∧
      (((net - m) / 2 : ℤ) : ℚ) ≤ (net - m) / 2 := by
    have hlo : net - m - 1 ≤ 2 * ((net - m) / 2) := by omega
    have hhi : 2 * ((net - m) / 2) ≤ net - m := by omega
    have hlo' : ((net : ℚ) - m - 1) ≤ 2 * ((net - m) / 2 : ℤ) := by exact_mod_cast hlo
    have hhi' : 2 * (((net - m) / 2 : ℤ) : ℚ) ≤ net - m := by exact_mod_cast hhi
    constructor <;> linarith
  have hdiff : (x * m / n + ((net - m) / 2 : ℤ) - (net - n * s) / 2) / s - x =
      (((net - m) / 2 : ℤ) - (net - n * s) / 2 - u * (n * s - m)) / s := by
    rw [hxu]
    field_simp
    ring
  rw [hdiff, abs_div, abs_of_pos hs, div_lt_div_iff_of_pos_right hs, abs_lt]
  constructor <;> linarith

/-- The place of a point in the letterbox. -/
theorem axis_le (hn : 0 < n) (hxn : x ≤ n) (hm0 : 0 ≤ m) (hmnet : m ≤ net) :
    x * m / n + ((net - m) / 2 : ℤ) ≤ net := by
  have hpart : x * m / n ≤ m := by
    rw [div_le_iff₀ hn, mul_comm]
    exact mul_le_mul_of_nonneg_left hxn (by exact_mod_cast hm0)
  have hpad : m + (net - m) / 2 ≤ net := by omega
  have hpad' : (m : ℚ) + ((net - m) / 2 : ℤ) ≤ net := by exact_mod_cast hpad
  linarith

/-- Clipping moves nothing away from a point of the image. -/
theorem abs_clip_sub_le (hx : 0 ≤ x) (hxn : x ≤ n) (y : ℚ) : |clip 0 n y - x| ≤ |y - x| := by
  have hself : clip 0 n x = x := by rw [clip, max_eq_left hx, min_eq_left hxn]
  calc |clip 0 n y - x| = |clip 0 n y - clip 0 n x| := by rw [hself]
    _ ≤ |max y 0 - max x 0| := abs_inf_sub_inf_le_abs (max y 0) (max x 0) n
    _ ≤ |y - x| := abs_max_sub_max_le_abs y x 0

end Axis

/-- What `denorm_and_unletterbox_xyxy` does to a box in the letterbox. -/
theorem denorm_normalised {b : Box} {net : ℤ} (hnet : 0 < net)
    (h : b.x1 ≤ net ∧ b.y1 ≤ net ∧ b.x2 ≤ net ∧ b.y2 ≤ net) :
    denorm (b.normalised net) net = b := by
  have hpos : (0 : ℚ) < net := by exact_mod_cast hnet
  have hle : ∀ x : ℚ, x ≤ net → x / net ≤ 1 + 1 / 1000000 := fun x hx =>
    ((div_le_one hpos).mpr hx).trans (by norm_num)
  have hmax : (b.normalised net).max ≤ 1 + 1 / 1000000 :=
    max_le (max_le (hle _ h.1) (hle _ h.2.1)) (max_le (hle _ h.2.2.1) (hle _ h.2.2.2))
  rw [denorm, if_pos hmax]
  simp only [Box.normalised, Box.map, div_mul_cancel₀ _ hpos.ne']

/-- The way back from the letterbox of a frame that is not empty, on each axis. -/
theorem near_of_unletterbox {w h : ℕ} {net : ℤ} {a b b' : Box} {δ : ℚ} (hb : b.Within h w)
    (hnear : (a.map (fun x => (x - (net - w * scale w h net) / 2) / scale w h net) fun y =>
      (y - (net - h * scale w h net) / 2) / scale w h net).Near δ b)
    (h' : unletterbox a net (scale w h net) h w = some b') : b'.Near δ b := by
  rw [unletterbox] at h'
  split at h'
  · cases h'
  · obtain ⟨-, rfl⟩ := Option.ite_some_none_eq_some.mp h'
    exact ⟨(abs_clip_sub_le hb.x1.1 hb.x1.2 _).trans_lt hnear.x1,
      (abs_clip_sub_le hb.y1.1 hb.y1.2 _).trans_lt hnear.y1,
      (abs_clip_sub_le hb.x2.1 hb.x2.2 _).trans_lt hnear.x2,
      (abs_clip_sub_le hb.y2.1 hb.y2.2 _).trans_lt hnear.y2⟩

/-- **There and back.** A box of an image comes back within a pixel of the network's image, which is
`1 / s` pixels of the frame, or it is dropped. -/
theorem letterbox_round_trip {w h : ℕ} {net : ℤ} {p : Placement} (hw : 1 ≤ w) (hh : 1 ≤ h)
    (hp : placement w h net net = some p) (hnw : 1 ≤ p.nw) (hnh : 1 ≤ p.nh) {b : Box}
    (hb : b.Within h w) :
    ∃ o, denormAndUnletterboxXyxy ((p.forward w h b).normalised net) net h w = some o ∧
      ∀ b' ∈ o, b'.Near (1 / scale w h net) b := by
  obtain ⟨hpnw, hpnh, hx0, hy0⟩ := placement_eq hw hh hp
  have hw0 : (0 : ℚ) < w := by exact_mod_cast hw
  have hh0 : (0 : ℚ) < h := by exact_mod_cast hh
  obtain ⟨hwlo, hwhi⟩ := pyInt_bounds (hpnw ▸ hnw)
  obtain ⟨hhlo, hhhi⟩ := pyInt_bounds (hpnh ▸ hnh)
  rw [← hpnw] at hwlo hwhi
  rw [← hpnh] at hhlo hhhi
  have hs : 0 < scale w h net := by
    have hone : (1 : ℚ) ≤ p.nw := by exact_mod_cast hnw
    exact (pos_iff_pos_of_mul_pos (by linarith : 0 < (w : ℚ) * scale w h net)).mp hw0
  have hwnet : w * scale w h net ≤ net :=
    (mul_le_mul_of_nonneg_left (min_le_left _ _) hw0.le).trans_eq (mul_div_cancel₀ _ hw0.ne')
  have hhnet : h * scale w h net ≤ net :=
    (mul_le_mul_of_nonneg_left (min_le_right _ _) hh0.le).trans_eq (mul_div_cancel₀ _ hh0.ne')
  have hnwnet : p.nw ≤ net := by exact_mod_cast hwlo.trans hwnet
  have hnhnet : p.nh ≤ net := by exact_mod_cast hhlo.trans hhnet
  have hforward : p.forward w h b = b.map (fun x => x * p.nw / w + ((net - p.nw) / 2 : ℤ))
      fun y => y * p.nh / h + ((net - p.nh) / 2 : ℤ) := by
    rw [Placement.forward, hx0, hy0]
  rw [denormAndUnletterboxXyxy_eq hh hw, min_comm, denorm_normalised (by omega)]
  · refine ⟨_, rfl, fun b' hb' => near_of_unletterbox hb ?_ hb'⟩
    rw [hforward]
    exact ⟨axis_error hw0 hs hb.x1.1 hb.x1.2 hwlo hwhi, axis_error hh0 hs hb.y1.1 hb.y1.2 hhlo hhhi,
      axis_error hw0 hs hb.x2.1 hb.x2.2 hwlo hwhi, axis_error hh0 hs hb.y2.1 hb.y2.2 hhlo hhhi⟩
  · rw [hforward]
    exact ⟨axis_le hw0 hb.x1.2 (by omega) hnwnet, axis_le hh0 hb.y1.2 (by omega) hnhnet,
      axis_le hw0 hb.x2.2 (by omega) hnwnet, axis_le hh0 hb.y2.2 (by omega) hnhnet⟩

/-- An image of 640 by 427 pixels loses half a row and half a pixel of padding. -/
theorem letterbox_round_trip_witness :
    ∃ o, denormAndUnletterboxXyxy
        ((Placement.forward ⟨320, 213, 0, 53⟩ 640 427 ⟨100, 50, 300, 200⟩).normalised 320) 320 427
        640 = some o ∧
      ∀ b' ∈ o, b'.Near (1 / scale 640 427 320) ⟨100, 50, 300, 200⟩ :=
  letterbox_round_trip (by decide) (by decide) (by decide +kernel) (by decide) (by decide)
    ⟨by norm_num, by norm_num, by norm_num, by norm_num⟩

end PostProcess

end DroneTurret
