import DroneTurret.Lib.Selection
import DroneTurret.Lib.Significand
import DroneTurret.Vision.Encoder

/-!
# The formats of a box

`_to_pixel_xyxy` takes a box as a dictionary or as a list, by its corners or by a corner and the
sides, and `detections_to_dict` reports its corners. The keys of a dictionary tell what it holds. A
list of four numbers does not, and it is taken for a corner and the sides if both of the last two
numbers are less than the sides of the image, which the second corner of every box in the image is.

## Main definitions

* `toPixelXyxy`, `detectionsToDict` — the two functions
* `Rectangle`, `Encoding` — a box in the image, and the five ways to write it

## Main results

* `toPixelXyxy_mem` — whatever the box, the corners lie in the image, in order
* `formats_agree_iff` — the boxes that all five formats give the same corners for
-/

namespace DroneTurret

namespace Inference

open CString Decimal Significand
open Vision (pyInt)

/-- A value in a box. What is not a number and not `None` raises an exception when it is used. -/
inductive Scalar
  | num (q : ℚ)
  | none
  | other
  deriving DecidableEq

/-- The keys that boxes are looked up by. -/
inductive Key
  | x
  | y
  | w
  | h
  | x1
  | y1
  | x2
  | y2
  | xMin
  | yMin
  | xMax
  | yMax
  deriving DecidableEq

/-- A box as it is passed on. -/
inductive Bbox
  | dict (get : Key → Option Scalar)
  | seq (values : List Scalar)
  | other (truthy : Bool)

/-- Four values at once. -/
structure Four (α : Type) where
  a : α
  b : α
  c : α
  d : α

/-- All four keys, if they are there. -/
def Bbox.all (get : Key → Option Scalar) (ka kb kc kd : Key) : Option (Four Scalar) := do
  return ⟨← get ka, ← get kb, ← get kc, ← get kd⟩

namespace Scalar

def mul (s : Scalar) (n : ℤ) : Option Scalar :=
  match s with
  | num q => some (num (q * n))
  | _ => Option.none

def add (s t : Scalar) : Option Scalar :=
  match s, t with
  | num q, num r => some (num (q + r))
  | _, _ => Option.none

/-- A comparison. -/
def is (p : ℚ → Bool) (s : Scalar) : Option Bool :=
  match s with
  | num q => some (p q)
  | _ => Option.none

end Scalar

/-- Python's `and`, which does not look at the second test if the first one fails. -/
def pyAnd (p q : Option Bool) : Option Bool := p.bind fun b => if b then q else some false

/-- A corner and the sides, from the numbers of the box. -/
def cornerAndSides (v : Four Scalar) : Option (Four Scalar) := do
  return ⟨v.a, v.b, ← v.a.add v.c, ← v.b.add v.d⟩

/-- Numbers that are parts of the image, in pixels. -/
def scaleUp (v : Four Scalar) (W H : ℤ) : Option (Four Scalar) := do
  return ⟨← v.a.mul W, ← v.b.mul H, ← v.c.mul W, ← v.d.mul H⟩

/-- The corners, before they are checked; `None` four times for an unknown format. -/
def corners (box : Bbox) (W H : ℤ) (normalized : Option Bool) : Option (Four Scalar) :=
  match box with
  | .dict get =>
    match Bbox.all get .x .y .w .h with
    | some v => do
      let v ← if normalized = some true then scaleUp v W H else some v
      cornerAndSides v
    | none =>
      match (Bbox.all get .x1 .y1 .x2 .y2).or (Bbox.all get .xMin .yMin .xMax .yMax) with
      | some v => if normalized = some true then scaleUp v W H else some v
      | none => some ⟨.none, .none, .none, .none⟩
  | .seq [a, b, c, d] => do
    let guessNorm ← match normalized with
      | some n => some n
      | none => [a, b, c, d].mapM (Scalar.is (· ≤ 1)) |>.map (·.all id)
    if guessNorm then
      let sides ← pyAnd (c.is (· ≤ 1)) (d.is (· ≤ 1))
      let v ← scaleUp ⟨a, b, c, d⟩ W H
      if sides then cornerAndSides v else some v
    else
      let sides ← pyAnd (c.is (· < W)) (d.is (· < H))
      if sides then cornerAndSides ⟨a, b, c, d⟩ else some ⟨a, b, c, d⟩
  | _ => some ⟨.none, .none, .none, .none⟩

/-- `int(round(clamp(v, 0, hi)))`. -/
def clampRound (hi : ℤ) (s : Scalar) : Option ℤ :=
  match s with
  | .num v => some (roundHalfEven (max 0 (min hi v)))
  | _ => none

/-- `_to_pixel_xyxy`; `none` for an exception. -/
def toPixelXyxy (box : Bbox) (W H : ℤ) (normalized : Option Bool) : Option (Four ℤ) := do
  let v ← corners box W H normalized
  let v : Four Scalar :=
    if .none ∈ [v.a, v.b, v.c, v.d] then ⟨.num 0, .num 0, .num 0, .num 0⟩ else v
  let x1 ← clampRound (W - 1) v.a
  let y1 ← clampRound (H - 1) v.b
  let x2 ← clampRound (W - 1) v.c
  let y2 ← clampRound (H - 1) v.d
  return ⟨min x1 x2, min y1 y2, max x1 x2, max y1 y2⟩

/-- A detection. Of a dictionary, what is looked up in it. -/
inductive Det
  | dict (classId score : Option ℚ) (bbox box : Option Bbox) (get : Key → Option Scalar)
  | other

/-- A dictionary with these four keys. -/
def Bbox.ofKeys (ka kb kc kd : Key) (v : Four Scalar) : Bbox :=
  .dict fun k => [(ka, v.a), (kb, v.b), (kc, v.c), (kd, v.d)].lookup k

/-- The box of a detection. -/
def Det.found : Det → Option Bbox
  | .other => none
  | .dict _ _ bbox box get =>
    bbox.or <| box.or <|
      ((Bbox.all get .x .y .w .h).map (Bbox.ofKeys .x .y .w .h)).or <|
      ((Bbox.all get .x1 .y1 .x2 .y2).map (Bbox.ofKeys .x1 .y1 .x2 .y2)).or <|
      (Bbox.all get .xMin .yMin .xMax .yMax).map (Bbox.ofKeys .xMin .yMin .xMax .yMax)

def Det.classId : Det → ℚ
  | .dict (some c) _ _ _ _ => c
  | _ => -1

def Det.score : Det → ℚ
  | .dict _ (some s) _ _ _ => s
  | _ => 0

/-- `bbox or [0,0,0,0]`. An empty dictionary has no known format, which leads to the same. -/
def orZeros (bbox : Option Bbox) : Bbox :=
  let zeros := Bbox.seq [.num 0, .num 0, .num 0, .num 0]
  match bbox with
  | none => zeros
  | some (.seq []) => zeros
  | some (.other false) => zeros
  | some box => box

/-- An element of the report. -/
structure Reported where
  objectLabel : List Byte
  score : ℚ
  startX : ℤ
  startY : ℤ
  endX : ℤ
  endY : ℤ
  deriving DecidableEq

def labelOf (labels : List (List Byte)) (cid : ℤ) : List Byte :=
  if 0 ≤ cid ∧ cid < labels.length then labels.getD cid.toNat []
  else bytes "class_" ++ paddedInt 0 cid

def detectionsToDict (detections : Option (List Det)) (labels : List (List Byte)) (imgW imgH : ℤ)
    (inputIsNorm : Option Bool) : Option (List Reported) :=
  (detections.getD []).mapM fun det => do
    let v ← toPixelXyxy (orZeros det.found) imgW imgH inputIsNorm
    return ⟨labelOf labels (pyInt det.classId), roundTo 3 det.score, v.a, v.b, v.c, v.d⟩

/-! ### Every report lies in the image -/

/-- The first corner is not behind the second one, and both are points of the image. -/
structure Reported.InImage (o : Reported) (W H : ℤ) : Prop where
  x : 0 ≤ o.startX ∧ o.startX ≤ o.endX ∧ o.endX ≤ W - 1
  y : 0 ≤ o.startY ∧ o.startY ≤ o.endY ∧ o.endY ≤ H - 1

theorem clampRound_mem {hi n : ℤ} {s : Scalar} (hhi : 0 ≤ hi) (h : clampRound hi s = some n) :
    0 ≤ n ∧ n ≤ hi := by
  cases s with
  | num v =>
    obtain rfl := Option.some.inj h
    have hnonneg : (0 : ℚ) ≤ hi := by exact_mod_cast hhi
    refine ⟨roundHalfEven_nonneg (le_max_left _ _), ?_⟩
    have hround := roundHalfEven_le_roundHalfEven (max_le hnonneg (min_le_left (hi : ℚ) v))
    rwa [roundHalfEven_intCast] at hround
  | none => cases h
  | other => cases h

/-- The corners of two boxes. -/
theorem toPixelXyxy_mem {box : Bbox} {W H : ℤ} {normalized : Option Bool} {v : Four ℤ} (hW : 1 ≤ W)
    (hH : 1 ≤ H) (h : toPixelXyxy box W H normalized = some v) :
    (0 ≤ v.a ∧ v.a ≤ v.c ∧ v.c ≤ W - 1) ∧ 0 ≤ v.b ∧ v.b ≤ v.d ∧ v.d ≤ H - 1 := by
  obtain ⟨s, -, h⟩ := Option.bind_eq_some_iff.mp h
  obtain ⟨x1, hx1, h⟩ := Option.bind_eq_some_iff.mp h
  obtain ⟨y1, hy1, h⟩ := Option.bind_eq_some_iff.mp h
  obtain ⟨x2, hx2, h⟩ := Option.bind_eq_some_iff.mp h
  obtain ⟨y2, hy2, h⟩ := Option.bind_eq_some_iff.mp h
  obtain rfl := Option.some.inj h
  have hx1 := clampRound_mem (by omega) hx1
  have hy1 := clampRound_mem (by omega) hy1
  have hx2 := clampRound_mem (by omega) hx2
  have hy2 := clampRound_mem (by omega) hy2
  dsimp only
  omega

/-- **Whatever is reported lies in the image.** -/
theorem inImage_of_detectionsToDict {detections : Option (List Det)} {labels : List (List Byte)}
    {W H : ℤ} {inputIsNorm : Option Bool} {out : List Reported} (hW : 1 ≤ W) (hH : 1 ≤ H)
    (h : detectionsToDict detections labels W H inputIsNorm = some out) :
    ∀ o ∈ out, o.InImage W H := by
  intro o ho
  obtain ⟨det, -, hdet⟩ := exists_of_forall₂ (forall₂_of_mapM h) ho
  obtain ⟨v, hv, hdet⟩ := Option.bind_eq_some_iff.mp hdet
  obtain rfl := Option.some.inj hdet
  obtain ⟨hx, hy⟩ := toPixelXyxy_mem hW hH hv
  exact ⟨hx, hy⟩

/-! ### Boxes in the image -/

/-- A box whose corners are pixels of an image. -/
structure Rectangle (W H : ℤ) where
  x1 : ℤ
  y1 : ℤ
  x2 : ℤ
  y2 : ℤ
  x : 0 ≤ x1 ∧ x1 ≤ x2 ∧ x2 ≤ W - 1
  y : 0 ≤ y1 ∧ y1 ≤ y2 ∧ y2 ≤ H - 1

/-- The formats that `_to_pixel_xyxy` documents. -/
inductive Encoding
  | dictSides
  | dictCorners
  | dictMinMax
  | listSides
  | listCorners

section Encode

variable {W H : ℤ} (r : Rectangle W H)

namespace Rectangle

def sides : Four Scalar :=
  ⟨.num r.x1, .num r.y1, .num (r.x2 - r.x1 : ℤ), .num (r.y2 - r.y1 : ℤ)⟩

def corners : Four Scalar := ⟨.num r.x1, .num r.y1, .num r.x2, .num r.y2⟩

def encode : Encoding → Bbox
  | .dictSides => .ofKeys .x .y .w .h r.sides
  | .dictCorners => .ofKeys .x1 .y1 .x2 .y2 r.corners
  | .dictMinMax => .ofKeys .xMin .yMin .xMax .yMax r.corners
  | .listSides => .seq [r.sides.a, r.sides.b, r.sides.c, r.sides.d]
  | .listCorners => .seq [r.corners.a, r.corners.b, r.corners.c, r.corners.d]

/-- A detection with the box in this format is reported with the corners of the box. -/
def Decoded (labels : List (List Byte)) (e : Encoding) : Prop :=
  ∀ det : Det, det.found = some (r.encode e) →
    ∃ o, detectionsToDict (some [det]) labels W H (some false) = some [o] ∧
      (o.startX, o.startY) = (r.x1, r.y1) ∧ (o.endX, o.endY) = (r.x2, r.y2)

end Rectangle

variable {r}

/-- Clipping an integer. -/
theorem clampRound_intCast (hi n : ℤ) :
    clampRound hi (.num n) = some (max 0 (min hi n)) := by
  have hcast : max 0 (min (hi : ℚ) n) = ((max 0 (min hi n) : ℤ) : ℚ) := by push_cast; rfl
  rw [clampRound, hcast, roundHalfEven_intCast]

theorem toPixelXyxy_eq {box : Bbox} {normalized : Option Bool} {x1 y1 x2 y2 : ℤ}
    (h : Inference.corners box W H normalized = some ⟨.num x1, .num y1, .num x2, .num y2⟩) :
    toPixelXyxy box W H normalized =
      some ⟨min (max 0 (min (W - 1) x1)) (max 0 (min (W - 1) x2)),
        min (max 0 (min (H - 1) y1)) (max 0 (min (H - 1) y2)),
        max (max 0 (min (W - 1) x1)) (max 0 (min (W - 1) x2)),
        max (max 0 (min (H - 1) y1)) (max 0 (min (H - 1) y2))⟩ := by
  rw [toPixelXyxy, h]
  simp [clampRound_intCast]

/-- Corners in the image, in order, are reported as they are. -/
theorem toPixelXyxy_ofKeys {x1 y1 x2 y2 : ℤ} (hx : 0 ≤ x1 ∧ x1 ≤ x2 ∧ x2 < W)
    (hy : 0 ≤ y1 ∧ y1 ≤ y2 ∧ y2 < H) :
    toPixelXyxy (.ofKeys .x1 .y1 .x2 .y2 ⟨.num x1, .num y1, .num x2, .num y2⟩) W H (some false) =
      some ⟨x1, y1, x2, y2⟩ := by
  have hcorners : Inference.corners (.ofKeys .x1 .y1 .x2 .y2 ⟨.num x1, .num y1, .num x2, .num y2⟩)
      W H (some false) = some ⟨.num x1, .num y1, .num x2, .num y2⟩ := rfl
  rw [toPixelXyxy_eq hcorners, Option.some.injEq, Four.mk.injEq]
  omega

/-- The report of detections whose boxes are known. -/
theorem detectionsToDict_of_forall {α : Type*} {labels : List (List Byte)} {f : α → Det}
    {g : α → Four ℤ} {as : List α} {normalized : Option Bool}
    (h : ∀ a ∈ as, toPixelXyxy (orZeros (f a).found) W H normalized = some (g a)) :
    detectionsToDict (some (as.map f)) labels W H normalized = some (as.map fun a =>
      ⟨labelOf labels (pyInt (f a).classId), roundTo 3 (f a).score, (g a).a, (g a).b, (g a).c,
        (g a).d⟩) := by
  rw [detectionsToDict, Option.getD_some]
  induction as with
  | nil => rfl
  | cons a as ih =>
    obtain ⟨ha, has⟩ := List.forall_mem_cons.mp h
    rw [List.map_cons, List.mapM_cons, ih has, ha]
    rfl

/-- The report of a single detection. -/
theorem decoded_iff {labels : List (List Byte)} {e : Encoding} {v : Four ℤ}
    (h : toPixelXyxy (r.encode e) W H (some false) = some v) :
    r.Decoded labels e ↔ (v.a, v.b) = (r.x1, r.y1) ∧ (v.c, v.d) = (r.x2, r.y2) := by
  have hzeros : orZeros (some (r.encode e)) = r.encode e := by cases e <;> rfl
  have hreport : ∀ det : Det, det.found = some (r.encode e) →
      detectionsToDict (some [det]) labels W H (some false) =
        some [⟨labelOf labels (pyInt det.classId), roundTo 3 det.score, v.a, v.b, v.c, v.d⟩] := by
    intro det hdet
    rw [detectionsToDict, Option.getD_some, List.mapM_cons, hdet, hzeros, h]
    rfl
  constructor
  · intro hdecoded
    have hfound : (Det.dict none none (some (r.encode e)) none fun _ => none).found =
        some (r.encode e) := rfl
    obtain ⟨o, ho, hcorners⟩ := hdecoded _ hfound
    rw [hreport _ hfound, Option.some.injEq, List.cons.injEq] at ho
    rwa [← ho.1] at hcorners
  · exact fun hcorners det hdet => ⟨_, hreport det hdet, hcorners⟩

theorem cornerAndSides_sides : cornerAndSides r.sides = some r.corners := by
  have hadd : ∀ m n : ℤ, Scalar.add (.num m) (.num (n - m : ℤ)) = some (.num n) := fun m n => by
    rw [Scalar.add]
    push_cast
    rw [add_sub_cancel]
  rw [cornerAndSides, Rectangle.sides, hadd, hadd]
  rfl

theorem is_lt {m n : ℤ} (h : m < n) : Scalar.is (· < (n : ℚ)) (.num m) = some true := by
  have hcast : (m : ℚ) < n := by exact_mod_cast h
  rw [Scalar.is, decide_eq_true hcast]

/-- Four of the formats are told apart. -/
theorem corners_encode {e : Encoding} (he : e ≠ .listCorners) :
    Inference.corners (r.encode e) W H (some false) = some r.corners := by
  cases e with
  | dictSides => exact cornerAndSides_sides
  | dictCorners => rfl
  | dictMinMax => rfl
  | listSides =>
    obtain ⟨hx, hy⟩ := r.x, r.y
    have hw : Scalar.is (· < (W : ℚ)) r.sides.c = some true := is_lt (by omega)
    have hh : Scalar.is (· < (H : ℚ)) r.sides.d = some true := is_lt (by omega)
    have hsides : pyAnd (r.sides.c.is (· < (W : ℚ))) (r.sides.d.is (· < (H : ℚ))) = some true := by
      rw [hw, hh]
      rfl
    simp only [Rectangle.encode, Inference.corners, hsides, Option.bind_eq_bind, Option.bind_some,
      Bool.false_eq_true, if_false, if_true]
    exact cornerAndSides_sides
  | listCorners => exact absurd rfl he

/-- The fifth one is taken for a corner and the sides. -/
theorem corners_listCorners :
    Inference.corners (r.encode .listCorners) W H (some false) =
      some ⟨.num r.x1, .num r.y1, .num (r.x1 + r.x2 : ℤ), .num (r.y1 + r.y2 : ℤ)⟩ := by
  obtain ⟨hx, hy⟩ := r.x, r.y
  have hw : Scalar.is (· < (W : ℚ)) r.corners.c = some true := is_lt (by omega)
  have hh : Scalar.is (· < (H : ℚ)) r.corners.d = some true := is_lt (by omega)
  have hsides : pyAnd (r.corners.c.is (· < (W : ℚ))) (r.corners.d.is (· < (H : ℚ))) =
      some true := by
    rw [hw, hh]
    rfl
  simp only [Rectangle.encode, Inference.corners, hsides, Option.bind_eq_bind, Option.bind_some,
    Bool.false_eq_true, if_false, if_true]
  push_cast
  rfl

theorem decoded_of_ne {labels : List (List Byte)} {e : Encoding} (he : e ≠ .listCorners) :
    r.Decoded labels e := by
  obtain ⟨hx, hy⟩ := r.x, r.y
  rw [decoded_iff (toPixelXyxy_eq (corners_encode he)), Prod.mk.injEq, Prod.mk.injEq]
  dsimp only
  omega

/-- The second corner is added to the first, and clipped. -/
theorem decoded_listCorners_iff {labels : List (List Byte)} :
    r.Decoded labels .listCorners ↔
      (r.x1 = 0 ∨ r.x2 = W - 1) ∧ (r.y1 = 0 ∨ r.y2 = H - 1) := by
  obtain ⟨hx, hy⟩ := r.x, r.y
  rw [decoded_iff (toPixelXyxy_eq corners_listCorners), Prod.mk.injEq, Prod.mk.injEq]
  dsimp only
  omega

end Encode

/-- **All five formats give the corners of a box** if it touches the left or the right side of the
image, and the upper or the lower one. Every other box that is written as a list of its corners is
moved. Whatever is reported lies in the image. -/
theorem formats_agree_iff (labels : List (List Byte)) {W H : ℤ} (r : Rectangle W H) :
    ((∀ e, r.Decoded labels e) ∧ ∀ detections out,
        detectionsToDict detections labels W H (some false) = some out →
          ∀ o ∈ out, o.InImage W H) ↔
      (r.x1 = 0 ∨ r.x2 = W - 1) ∧ (r.y1 = 0 ∨ r.y2 = H - 1) := by
  obtain ⟨hx, hy⟩ := r.x, r.y
  have hlist : r.Decoded labels .listCorners ↔ _ := decoded_listCorners_iff
  rw [← hlist]
  constructor
  · exact fun h => h.1 .listCorners
  · intro h
    refine ⟨fun e => ?_, fun detections out => inImage_of_detectionsToDict (by omega) (by omega)⟩
    by_cases he : e = .listCorners
    · exact he ▸ h
    · exact decoded_of_ne he

/-- In an image of 100 by 100 pixels, the second corner (30, 40) is reported at (40, 60). -/
theorem not_formats_agree :
    ¬∀ (labels : List (List Byte)) (W H : ℤ) (r : Rectangle W H), 1 ≤ W → 1 ≤ H →
      ∀ e, r.Decoded labels e := by
  intro h
  have hdecoded := h [bytes "drone"] 100 100 ⟨10, 20, 30, 40, by decide, by decide⟩ (by decide)
    (by decide) .listCorners
  exact absurd (decoded_listCorners_iff.mp hdecoded) (by decide)

end Inference

end DroneTurret
