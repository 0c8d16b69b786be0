import DroneTurret.PostProcess.Letterbox

/-!
# Resize and letterbox on a square frame

A letterbox of a square frame has no padding, so both ways of `_to_pixel_boxes` scale a box by the
same factor. They differ in two points. `denorm_and_unletterbox_xyxy` takes a box whose coordinates
are at most one for parts of the image, `resize` does not. And it looks at the sides again after it
has clipped the box to the frame.

## Main definitions

* `ModesAgree` — both modes keep the same boxes and place them alike, but for the clipping
* `Alike` — the boxes for which they do

## Main results

* `modesAgree_iff` — the modes agree on these and no others
* `alike_of_within`, `alike_iff_of_unit` — boxes in either of the two conventions
-/

namespace DroneTurret

namespace PostProcess

/-- The settings with a mode. -/
def Config.inMode (cfg : Config) (mode : PreMode) : Config :=
  { cfg with preprocessMode := some mode }

namespace Box

def scaled (k : ℚ) (b : Box) : Box := b.map (· * k) (· * k)

def clipTo (H W : ℕ) (b : Box) : Box := b.map (clip 0 W) (clip 0 H)

/-- Both sides are longer than a pixel, also after clipping. -/
def Visible (n : ℕ) (b : Box) : Prop := b.Large ∧ (b.clipTo n n).Large

instance (n : ℕ) (b : Box) : Decidable (b.Visible n) := inferInstanceAs (Decidable (_ ∧ _))

end Box

/-- In a square frame of `n` pixels both modes keep the same boxes, with the same coordinates up to
clipping. -/
def ModesAgree (cfg : Config) (n : ℕ) (boxesNet : List Box) : Prop :=
  ∃ r l, toPixelBoxes (cfg.inMode .resize) n n boxesNet = some r ∧
    toPixelBoxes (cfg.inMode .letterbox) n n boxesNet = some l ∧
    r.2 = l.2 ∧ r.1.map (Box.clipTo n n) = l.1

/-- Either the letterbox reads the box in pixels as well, and what is large stays so when it is
clipped, or both modes drop it. -/
def Alike (n : ℕ) (net : ℤ) (b : Box) : Prop :=
  if b.max ≤ 1 + 1 / 1000000 ∧ net ≠ 1 then
    ¬(b.scaled (n / net)).Large ∧ ¬(b.scaled n).Visible n
  else (b.scaled (n / net)).Large → (b.scaled (n / net)).Visible n

/-- The two forms of a box: in pixels of the network's image or as parts of it. -/
def Documented (net : ℤ) (b : Box) : Prop := b.Within net.toNat net.toNat ∨ b.Within 1 1

section Square

variable {cfg : Config} {n : ℕ}

/-- The box in the frame, if it is large. -/
def resizedBox (n : ℕ) (net : ℤ) (b : Box) : Option Box :=
  if (b.scaled (n / net)).Large then some (b.scaled (n / net)) else none

/-- Without padding the letterbox is a scaling. -/
theorem letterboxed_square (hn : 1 ≤ n) (hnet : 1 ≤ cfg.netSize) (b : Box) :
    letterboxed cfg n n b =
      if ((denorm b cfg.netSize).scaled (n / cfg.netSize)).Visible n then
        some (((denorm b cfg.netSize).scaled (n / cfg.netSize)).clipTo n n)
      else none := by
  have hn0 : (n : ℚ) ≠ 0 := Nat.cast_ne_zero.mpr (Nat.pos_iff_ne_zero.mp hn)
  have hnet0 : (cfg.netSize : ℚ) ≠ 0 := Int.cast_ne_zero.mpr (by omega)
  have hscale : ∀ x : ℚ, (x - ((cfg.netSize : ℚ) - n * (cfg.netSize / n)) / 2) /
      (cfg.netSize / n) = x * (n / cfg.netSize) := by
    intro x
    field_simp
    ring
  rw [letterboxed, min_self, unletterbox, if_neg (div_ne_zero hnet0 hn0)]
  simp only [hscale]
  rfl

theorem denorm_eq_scaled {b : Box} {net : ℤ} (h : b.max ≤ 1 + 1 / 1000000) :
    denorm b net = b.scaled net := if_pos h

theorem denorm_eq_self {b : Box} {net : ℤ} (h : ¬(b.max ≤ 1 + 1 / 1000000 ∧ net ≠ 1)) :
    denorm b net = b := by
  rw [denorm]
  split
  · rename_i hmax
    have hone : net = 1 := by_contra fun hne => h ⟨hmax, hne⟩
    simp only [hone, Int.cast_one, mul_one, Box.map]
  · rfl

theorem Box.scaled_scaled (j k : ℚ) (b : Box) : (b.scaled j).scaled k = b.scaled (j * k) := by
  simp only [Box.scaled, Box.map, mul_assoc]

/-- A box read as parts of the image does not end where one read in pixels does. -/
theorem clipTo_scaled_ne {net : ℤ} {b : Box} (hnet : 2 ≤ net) (hmax : b.max ≤ 1 + 1 / 1000000)
    (hvisible : (b.scaled n).Visible n) :
    (b.scaled (n / net)).clipTo n n ≠ (b.scaled n).clipTo n n := by
  have hx2 : b.x2 ≤ 1 + 1 / 1000000 := ((le_max_left _ _).trans (le_max_right _ _)).trans hmax
  have hlarge : 1 < clip 0 n (b.x2 * n) - clip 0 n (b.x1 * n) := hvisible.2.1
  have hend : 1 < clip 0 n (b.x2 * n) := by
    have hstart : 0 ≤ clip 0 n (b.x1 * n) := clip_nonneg n.cast_nonneg
    linarith
  have hn : (1 : ℚ) < n := hend.trans_le clip_le
  have hpos : 0 < b.x2 * n := by
    rcases lt_max_iff.mp (one_pos.trans (hend.trans_le (min_le_left _ _))) with h | h
    · exact h
    · exact absurd h (lt_irrefl 0)
  have hnet' : (2 : ℚ) ≤ net := by exact_mod_cast hnet
  -- the end of the box in pixels lies before the end of both the frame and the other box
  have hhalf : b.x2 * (n / net) ≤ b.x2 * n / 2 := by
    rw [← mul_div_assoc]
    exact div_le_div_of_nonneg_left hpos.le (by norm_num) hnet'
  have hframe : b.x2 * n ≤ (1 + 1 / 1000000) * n := mul_le_mul_of_nonneg_right hx2 (by linarith)
  have hlt : clip 0 n (b.x2 * (n / net)) < clip 0 n (b.x2 * n) := by
    refine (min_le_left _ _).trans_lt (lt_min (lt_max_of_lt_left (max_lt ?_ hpos)) (max_lt ?_ ?_))
    · linarith
    · linarith
    · linarith
  intro heq
  exact absurd (congrArg Box.x2 heq) hlt.ne

/-- **One box.** -/
theorem resizedBox_eq_iff (hn : 1 ≤ n) (hnet : 1 ≤ cfg.netSize) (b : Box) :
    (resizedBox n cfg.netSize b).map (Box.clipTo n n) = letterboxed cfg n n b ↔
      Alike n cfg.netSize b := by
  have hnet0 : (cfg.netSize : ℚ) ≠ 0 := Int.cast_ne_zero.mpr (by omega)
  rw [letterboxed_square hn hnet, Alike, resizedBox]
  by_cases hread : b.max ≤ 1 + 1 / 1000000 ∧ cfg.netSize ≠ 1
  · rw [if_pos hread, denorm_eq_scaled hread.1, Box.scaled_scaled, mul_div_cancel₀ _ hnet0]
    by_cases hlarge : (b.scaled (n / cfg.netSize)).Large
    · rw [if_pos hlarge]
      refine ⟨fun h => ?_, fun h => absurd hlarge h.1⟩
      obtain ⟨hvisible, heq⟩ := Option.ite_some_none_eq_some.mp h.symm
      exact absurd heq.symm (clipTo_scaled_ne (by omega) hread.1 hvisible)
    · rw [if_neg hlarge]
      by_cases hvisible : (b.scaled n).Visible n
      · rw [if_pos hvisible]
        exact ⟨(fun h => by cases h), fun h => absurd hvisible h.2⟩
      · rw [if_neg hvisible]
        exact ⟨fun _ => ⟨hlarge, hvisible⟩, fun _ => rfl⟩
  · rw [if_neg hread, denorm_eq_self hread]
    by_cases hlarge : (b.scaled (n / cfg.netSize)).Large
    · by_cases hvisible : (b.scaled (n / cfg.netSize)).Visible n
      · rw [if_pos hlarge, if_pos hvisible]
        exact ⟨fun _ _ => hvisible, fun _ => rfl⟩
      · rw [if_pos hlarge, if_neg hvisible]
        exact ⟨(fun h => by cases h), fun h => absurd (h hlarge) hvisible⟩
    · rw [if_neg hlarge, if_neg fun h => hlarge h.1]
      exact ⟨fun _ h => absurd h hlarge, fun _ => rfl⟩

theorem toPixel_resize (sx : ℚ) (b : Box) (hsx : sx = n / cfg.netSize) :
    toPixel (cfg.inMode .resize) n n sx sx b = some (resizedBox n cfg.netSize b) := by
  change some ((some (b.scaled sx)).filter _) = _
  rw [Option.filter_some, hsx, resizedBox]
  congr 1
  exact if_congr decide_eq_true_iff rfl rfl

/-- **The modes agree on a list of boxes exactly if they do on each of them.** -/
theorem modesAgree_iff (cfg : Config) {n : ℕ} (hn : 1 ≤ n) (hnet : 1 ≤ cfg.netSize)
    (boxesNet : List Box) :
    ModesAgree cfg n boxesNet ↔ ∀ b ∈ boxesNet, Alike n cfg.netSize b := by
  have hnet0 : (cfg.netSize : ℚ) ≠ 0 := Int.cast_ne_zero.mpr (by omega)
  have hdiv : pyDiv n cfg.netSize = some ((n : ℚ) / cfg.netSize) := if_neg hnet0
  have hresize : toPixelBoxes (cfg.inMode .resize) n n boxesNet = some _ :=
    toPixelBoxes_eq_filterMap boxesNet hdiv hdiv fun b => toPixel_resize _ b rfl
  have hletterbox : toPixelBoxes (cfg.inMode .letterbox) n n boxesNet = some _ :=
    toPixelBoxes_eq_filterMap boxesNet hdiv hdiv fun b => toPixel_eq rfl hn hn _ _ b
  have hselected := selected_eq_iff (fun b => (resizedBox n cfg.netSize b).map (Box.clipTo n n))
    (letterboxed cfg n n) boxesNet 0
  simp only [Option.isSome_map, ← List.map_filterMap] at hselected
  constructor
  · rintro ⟨r, l, hr, hl, hindices, hboxes⟩
    obtain rfl := Option.some.inj (hresize.symm.trans hr)
    obtain rfl := Option.some.inj (hletterbox.symm.trans hl)
    intro b hb
    exact (resizedBox_eq_iff hn hnet b).mp (hselected.mp ⟨hindices, hboxes⟩ b hb)
  · intro h
    refine ⟨_, _, hresize, hletterbox, hselected.mpr fun b hb => ?_⟩
    exact (resizedBox_eq_iff hn hnet b).mpr (h b hb)

/-- Nothing is clipped from a box in the frame. -/
theorem visible_of_within {b : Box} (hb : b.Within n n) (hlarge : b.Large) : b.Visible n := by
  have hself : ∀ x : ℚ, 0 ≤ x ∧ x ≤ n → clip 0 n x = x := fun x hx => by
    rw [clip, max_eq_left hx.1, min_eq_left hx.2]
  refine ⟨hlarge, ?_⟩
  have heq : b.clipTo n n = b := by
    rw [Box.clipTo, Box.map, hself _ hb.x1, hself _ hb.x2, hself _ hb.y1, hself _ hb.y2]
  rwa [heq]

/-- What fills `m` units of the network's image at most fills the frame at most. -/
theorem within_scaled {m : ℕ} {b : Box} {k : ℚ} (hb : b.Within m m) (hk : 0 ≤ k) (hm : m * k ≤ n) :
    (b.scaled k).Within n n := by
  have hside : ∀ x : ℚ, 0 ≤ x ∧ x ≤ m → 0 ≤ x * k ∧ x * k ≤ n := fun x hx =>
    ⟨mul_nonneg hx.1 hk, (mul_le_mul_of_nonneg_right hx.2 hk).trans hm⟩
  exact ⟨hside _ hb.x1, hside _ hb.x2, hside _ hb.y1, hside _ hb.y2⟩

/-- **Boxes in pixels**, one of whose coordinates is above one, are treated alike. -/
theorem alike_of_within {net : ℤ} {b : Box} (hnet : 1 ≤ net) (hb : b.Within net.toNat net.toNat)
    (hmax : 1 + 1 / 1000000 < b.max) : Alike n net b := by
  have hnet0 : (0 : ℚ) < net := by exact_mod_cast hnet
  have hcast : ((net.toNat : ℕ) : ℚ) = net := by exact_mod_cast Int.toNat_of_nonneg (by omega)
  rw [Alike, if_neg fun h => absurd h.1 (not_le.mpr hmax)]
  refine visible_of_within (within_scaled hb (div_nonneg n.cast_nonneg hnet0.le) ?_)
  rw [hcast, mul_div_cancel₀ _ hnet0.ne']

/-- **Boxes as parts of the image** are treated alike only if they are so small that both modes drop
them. -/
theorem alike_iff_of_unit {net : ℤ} {b : Box} (hnet : 2 ≤ net) (hb : b.Within 1 1) :
    Alike n net b ↔ ¬(b.scaled n).Large := by
  have hmax : b.max ≤ 1 + 1 / 1000000 := by
    have hone : ((1 : ℕ) : ℚ) ≤ 1 + 1 / 1000000 := by norm_num
    exact (max_le (max_le hb.x1.2 hb.y1.2) (max_le hb.x2.2 hb.y2.2)).trans hone
  have hwithin : (b.scaled n).Within n n :=
    within_scaled hb n.cast_nonneg (by rw [Nat.cast_one, one_mul])
  have hnet' : (2 : ℚ) ≤ net := by exact_mod_cast hnet
  -- a box that is large when it is read in pixels is larger when it is read as parts
  have hlarge : (b.scaled (n / net)).Large → (b.scaled n).Large := by
    have hside : ∀ u v : ℚ, 1 < v * (n / net) - u * (n / net) → 1 < v * n - u * n := by
      intro u v h
      have heq : v * n - u * n = (v * (n / net) - u * (n / net)) * net := by
        field_simp
      rw [heq]
      nlinarith
    exact fun h => ⟨hside _ _ h.1, hside _ _ h.2⟩
  rw [Alike, if_pos ⟨hmax, by omega⟩]
  constructor
  · exact fun h hl => h.2 (visible_of_within hwithin hl)
  · exact fun h => ⟨fun hl => h (hlarge hl), fun hv => h hv.1⟩

end Square

section Example

/-- A box in pixels. -/
theorem modesAgree_iff_witness :
    ModesAgree (configExample 320 10) 640 [⟨80, 80, 240, 240⟩] ↔
      ∀ b ∈ [(⟨80, 80, 240, 240⟩ : Box)], Alike 640 320 b :=
  modesAgree_iff (configExample 320 10) (by decide) (by decide) _

/-- The same box as parts of the image is a pixel wide in one mode and is dropped. -/
theorem not_modesAgree :
    ¬∀ (cfg : Config) (n : ℕ) (boxesNet : List Box), 1 ≤ n → 1 ≤ cfg.netSize →
      (∀ b ∈ boxesNet, Documented cfg.netSize b) → ModesAgree cfg n boxesNet := by
  intro h
  have hbox : (⟨1 / 4, 1 / 4, 3 / 4, 3 / 4⟩ : Box).Within 1 1 := by
    constructor <;> norm_num
  obtain ⟨r, l, hr, hl, hindices, -⟩ := h (configExample 320 10) 640 [⟨1 / 4, 1 / 4, 3 / 4, 3 / 4⟩]
    (by decide) (by decide) fun b hb => .inr (List.mem_singleton.mp hb ▸ hbox)
  have hresize : toPixelBoxes ((configExample 320 10).inMode .resize) 640 640
      [⟨1 / 4, 1 / 4, 3 / 4, 3 / 4⟩] = some ([], []) := by decide +kernel
  have hletterbox : toPixelBoxes ((configExample 320 10).inMode .letterbox) 640 640
      [⟨1 / 4, 1 / 4, 3 / 4, 3 / 4⟩] = some ([⟨160, 160, 480, 480⟩], [0]) := by decide +kernel
  rw [hresize, Option.some.injEq] at hr
  rw [hletterbox, Option.some.injEq] at hl
  rw [← hr, ← hl] at hindices
  cases hindices

end Example

end PostProcess

end DroneTurret
