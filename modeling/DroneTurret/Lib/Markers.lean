import Mathlib.Data.List.Infix

/-!
# Cutting frames out of a stream

A frame begins with the first start marker there is and ends with the first stop marker behind it.
`Markers.frames` cuts a whole stream, one frame after the other. A receiver that gets the stream in
pieces has to keep what may still become part of a frame, and may drop the rest: `Clear` says that
no start marker begins in what is dropped, whatever comes.

## Main definitions

* `Markers.cut` — the first occurrence of a pattern, as what is in front of it and what behind
* `Markers.cutFrame`, `Markers.frames` — the first frame, and all of them
* `Markers.Clear` — what may be dropped
* `Markers.Envelope`, `Markers.Whole` — what is sent around an image, and an image without a stop
  marker inside

## Main results

* `Markers.cut_eq_some_iff`, `Markers.cut_eq_none_iff` — the specification of `cut`
* `Markers.frames_append` — a frame stays the first one when the stream goes on
* `Markers.frames_of_clear` — what may be dropped makes no difference
* `Markers.Envelope.frames_flatMap_part` — when the frames of a stream of images are the images
* `Markers.Envelope.frames_append_flatMap_part` — what is left of an earlier stream costs one image
-/

namespace Markers

variable {α : Type*} [DecidableEq α]

/-- What is in front of the first occurrence of a pattern, and what is behind it. -/
def cut (pat : List α) : List α → Option (List α × List α)
  | [] => if pat = [] then some ([], []) else none
  | a :: s =>
    if pat <+: a :: s then some ([], (a :: s).drop pat.length)
    else (cut pat s).map fun r => (a :: r.1, r.2)

/-- No occurrence of the pattern begins in front of `u`. -/
def First (pat s u : List α) : Prop := ∀ u' v', s = u' ++ pat ++ v' → u.length ≤ u'.length

omit [DecidableEq α] in
/-- Nothing but the empty pattern occurs in the empty list. -/
theorem eq_nil_of_occurs {pat u v : List α} (h : [] = u ++ pat ++ v) : pat = [] := by
  have hnil := h.symm
  simp only [List.append_eq_nil_iff] at hnil
  exact hnil.1.2

theorem cut_eq_none_iff {pat s : List α} :
    cut pat s = none ↔ ∀ u v, s ≠ u ++ pat ++ v := by
  induction s with
  | nil =>
    rw [cut]
    split_ifs with hpat
    · refine iff_of_false nofun fun h => h [] [] ?_
      rw [hpat]
      rfl
    · exact iff_of_true rfl fun u v h => hpat (eq_nil_of_occurs h)
  | cons a s ih =>
    rw [cut]
    split_ifs with hpre
    · obtain ⟨v, hv⟩ := hpre
      exact iff_of_false nofun fun h => h [] v (by rw [← hv]; rfl)
    · rw [Option.map_eq_none_iff, ih]
      constructor
      · intro h u v heq
        cases u with
        | nil => exact hpre ⟨v, by rw [heq]; rfl⟩
        | cons b u => exact h u v (List.cons.inj heq).2
      · intro h u v heq
        exact h (a :: u) v (by rw [heq]; rfl)

/-- **The first occurrence.** -/
theorem cut_eq_some_iff {pat s u v : List α} :
    cut pat s = some (u, v) ↔ s = u ++ pat ++ v ∧ First pat s u := by
  induction s generalizing u with
  | nil =>
    rw [cut]
    split_ifs with hpat
    · rw [Option.some.injEq, Prod.mk.injEq, hpat]
      constructor
      · rintro ⟨rfl, rfl⟩
        exact ⟨rfl, fun _ _ _ => Nat.zero_le _⟩
      · rintro ⟨h, -⟩
        simpa [eq_comm] using h
    · exact iff_of_false nofun fun h => hpat (eq_nil_of_occurs h.1)
  | cons a s ih =>
    rw [cut]
    split_ifs with hpre
    · obtain ⟨w, hw⟩ := hpre
      rw [Option.some.injEq, Prod.mk.injEq, ← hw, List.drop_left]
      constructor
      · rintro ⟨rfl, rfl⟩
        exact ⟨rfl, fun _ _ _ => Nat.zero_le _⟩
      · rintro ⟨h, hfirst⟩
        obtain rfl : u = [] :=
          List.eq_nil_of_length_eq_zero (Nat.le_zero.mp (hfirst [] w rfl))
        exact ⟨rfl, List.append_cancel_left h⟩
    · rw [Option.map_eq_some_iff]
      constructor
      · rintro ⟨⟨u', v'⟩, h, heq⟩
        obtain ⟨rfl, rfl⟩ := Prod.mk.inj heq
        obtain ⟨rfl, hfirst⟩ := ih.mp h
        refine ⟨rfl, fun w z hwz => ?_⟩
        cases w with
        | nil => exact absurd ⟨z, by rw [hwz]; rfl⟩ hpre
        | cons b w => exact Nat.succ_le_succ (hfirst w z (List.cons.inj hwz).2)
      · rintro ⟨h, hfirst⟩
        cases u with
        | nil => exact absurd ⟨v, by rw [h]; rfl⟩ hpre
        | cons b u =>
          obtain ⟨rfl, hs⟩ := List.cons.inj h
          refine ⟨(u, v), ih.mpr ⟨hs, fun w z hwz => ?_⟩, rfl⟩
          exact Nat.le_of_succ_le_succ (hfirst (a :: w) z (by rw [hwz]; rfl))

omit [DecidableEq α] in
/-- An occurrence that begins in front of another one ends in front of its end. -/
theorem First.append {pat u v : List α} (h : First pat (u ++ pat ++ v) u) (t : List α) :
    First pat (u ++ pat ++ v ++ t) u := by
  intro u' v' heq
  by_contra hlt
  -- the earlier occurrence would lie in the shorter stream
  have hpre : u' ++ pat <+: u ++ pat ++ v := by
    refine List.prefix_of_prefix_length_le ⟨v', heq.symm⟩ (List.prefix_append _ t) ?_
    simp only [List.length_append]
    omega
  obtain ⟨w, hw⟩ := hpre
  exact hlt (h u' w hw.symm)

theorem cut_append {pat s u v : List α} (h : cut pat s = some (u, v)) (t : List α) :
    cut pat (s ++ t) = some (u, v ++ t) := by
  obtain ⟨rfl, hfirst⟩ := cut_eq_some_iff.mp h
  exact cut_eq_some_iff.mpr ⟨List.append_assoc _ v t, hfirst.append t⟩

/-! ### Frames -/

/-- A start marker that is not empty, and a stop marker. -/
structure Pair (α : Type*) where
  start : List α
  stop : List α
  start_ne : start ≠ []

variable (m : Pair α)

/-- The first frame, and what is behind it. -/
def cutFrame (s : List α) : Option (List α × List α) :=
  (cut m.start s).bind fun r => (cut m.stop r.2).map fun q => (m.start ++ q.1 ++ m.stop, q.2)

variable {m}

theorem cutFrame_eq_some_iff {s f rest : List α} :
    cutFrame m s = some (f, rest) ↔ ∃ u v w, cut m.start s = some (u, v) ∧
      cut m.stop v = some (w, rest) ∧ f = m.start ++ w ++ m.stop := by
  rw [cutFrame, Option.bind_eq_some_iff]
  constructor
  · rintro ⟨⟨u, v⟩, hstart, h⟩
    obtain ⟨⟨w, z⟩, hstop, heq⟩ := Option.map_eq_some_iff.mp h
    obtain ⟨rfl, rfl⟩ := Prod.mk.inj heq
    exact ⟨u, v, w, hstart, hstop, rfl⟩
  · rintro ⟨u, v, w, hstart, hstop, rfl⟩
    exact ⟨(u, v), hstart, Option.map_eq_some_iff.mpr ⟨(w, rest), hstop, rfl⟩⟩

/-- There is a frame as soon as there is a stop marker somewhere behind a start marker. -/
theorem isSome_cutFrame {s u v w : List α} (h : s = u ++ m.start ++ (v ++ m.stop ++ w)) :
    (cutFrame m s).isSome := by
  have hstart : (cut m.start s).isSome := by
    rw [← Option.ne_none_iff_isSome]
    exact fun hnone => cut_eq_none_iff.mp hnone u _ h
  obtain ⟨⟨u', v'⟩, hcut⟩ := Option.isSome_iff_exists.mp hstart
  obtain ⟨hs, hfirst⟩ := cut_eq_some_iff.mp hcut
  -- what is behind the first start marker has all that is behind another one
  have hsuffix : v ++ m.stop ++ w <:+ v' := by
    refine List.suffix_of_suffix_length_le ⟨_, h.symm⟩ ⟨_, hs.symm⟩ ?_
    have hle := hfirst u _ h
    have hlen := congrArg List.length (hs.symm.trans h)
    simp only [List.length_append] at hlen ⊢
    omega
  obtain ⟨x, hx⟩ := hsuffix
  have hstop : (cut m.stop v').isSome := by
    rw [← Option.ne_none_iff_isSome]
    refine fun hnone => cut_eq_none_iff.mp hnone (x ++ v) w ?_
    rw [← hx]
    simp
  rw [cutFrame, hcut, Option.bind_some, Option.isSome_map]
  exact hstop

theorem length_of_cutFrame {s f rest : List α} (h : cutFrame m s = some (f, rest)) :
    rest.length < s.length := by
  obtain ⟨u, v, w, hstart, hstop, -⟩ := cutFrame_eq_some_iff.mp h
  rw [(cut_eq_some_iff.mp hstart).1, (cut_eq_some_iff.mp hstop).1]
  have := List.length_pos_iff.mpr m.start_ne
  simp only [List.length_append]
  omega

variable (m) in
/-- The frames of a stream: the first one, and those of what is behind it. -/
def frames (s : List α) : List (List α) :=
  match _h : cutFrame m s with
  | none => []
  | some (f, rest) => f :: frames rest
termination_by s.length
decreasing_by exact length_of_cutFrame _h

theorem frames_of_none {s : List α} (h : cutFrame m s = none) : frames m s = [] := by
  rw [frames]
  split
  · rfl
  · rename_i heq
    rw [h] at heq
    cases heq

theorem frames_of_some {s f rest : List α} (h : cutFrame m s = some (f, rest)) :
    frames m s = f :: frames m rest := by
  rw [frames]
  split
  · rename_i heq
    rw [h] at heq
    cases heq
  · rename_i f' rest' heq
    obtain ⟨rfl, rfl⟩ := Prod.mk.inj (Option.some.inj (h.symm.trans heq))
    rfl

variable (m) in
theorem frames_nil : frames m [] = [] := by
  refine frames_of_none (Option.not_isSome_iff_eq_none.mp fun hsome => ?_)
  obtain ⟨⟨f, rest⟩, h⟩ := Option.isSome_iff_exists.mp hsome
  exact absurd (length_of_cutFrame h) (Nat.not_lt_zero _)

/-- **The first frame** is the first one of every stream that goes on. -/
theorem frames_append {s f rest : List α} (h : cutFrame m s = some (f, rest)) (t : List α) :
    frames m (s ++ t) = f :: frames m (rest ++ t) := by
  obtain ⟨u, v, w, hstart, hstop, rfl⟩ := cutFrame_eq_some_iff.mp h
  exact frames_of_some (cutFrame_eq_some_iff.mpr
    ⟨u, v ++ t, w, cut_append hstart t, cut_append hstop t, rfl⟩)

/-! ### What may be dropped -/

/-- No start marker begins in `d`, whatever follows `r`. -/
def Clear (pat d r : List α) : Prop := ∀ t u v, d ++ r ++ t = u ++ pat ++ v → d.length ≤ u.length

omit [DecidableEq α] in
theorem Clear.nil (pat r : List α) : Clear pat [] r := fun _ _ _ _ => Nat.zero_le _

omit [DecidableEq α] in
theorem Clear.append {pat d r : List α} (h : Clear pat d r) (t : List α) :
    Clear pat d (r ++ t) := by
  intro t' u v heq
  refine h (t ++ t') u v ?_
  rw [← heq]
  simp

omit [DecidableEq α] in
/-- Part of what may be dropped has been dropped. -/
theorem Clear.drop {pat d r : List α} (h : Clear pat d r) (k : ℕ) : Clear pat (d.drop k) r := by
  intro t u v heq
  have hlen := h t (d.take k ++ u) v (by
    conv_lhs => rw [← List.take_append_drop k d, List.append_assoc, List.append_assoc,
      ← List.append_assoc (d.drop k), heq]
    simp)
  rw [List.length_append, List.length_take] at hlen
  rw [List.length_drop]
  omega

omit [DecidableEq α] in
/-- Two parts that may be dropped, one behind the other. -/
theorem Clear.trans {pat d d' r : List α} (h : Clear pat d (d' ++ r)) (h' : Clear pat d' r) :
    Clear pat (d ++ d') r := by
  intro t u v heq
  have hd := h t u v (by rw [← heq]; simp only [List.append_assoc])
  rw [List.append_assoc, List.append_assoc, ← List.take_append_drop d.length u, List.append_assoc,
    List.append_assoc] at heq
  have hinj := List.append_inj heq (by rw [List.length_take, min_eq_left hd])
  have hd' := h' t (u.drop d.length) v (by rw [List.append_assoc, hinj.2, List.append_assoc])
  rw [List.length_drop] at hd'
  rw [List.length_append]
  omega

omit [DecidableEq α] in
/-- No pattern begins where its first element does not occur. -/
theorem clear_of_notMem {pat d : List α} (hd : ∀ b ∈ pat.head?, b ∉ d) (hpat : pat ≠ [])
    (r : List α) : Clear pat d r := by
  intro t u v heq
  by_contra hlt
  obtain ⟨b, pat, rfl⟩ := List.exists_cons_of_ne_nil hpat
  refine hd b rfl ?_
  have hpre : u ++ [b] <+: d := by
    have hu : u ++ [b] <+: d ++ r ++ t := ⟨pat ++ v, by rw [heq]; simp⟩
    refine List.prefix_of_prefix_length_le hu ⟨r ++ t, by simp⟩ ?_
    rw [List.length_append, List.length_singleton]
    omega
  exact hpre.subset (by simp)

/-- What is in front of the first start marker. -/
theorem clear_of_cut {pat s u v : List α} (h : cut pat s = some (u, v)) :
    Clear pat u (pat ++ v) := by
  obtain ⟨rfl, hfirst⟩ := cut_eq_some_iff.mp h
  intro t u' v' heq
  exact hfirst.append t u' v' (by simpa using heq)

/-- Without a start marker, all but what may be the beginning of one. -/
theorem clear_of_cut_eq_none {pat d r : List α} (h : cut pat (d ++ r) = none)
    (hr : pat.length ≤ r.length + 1) : Clear pat d r := by
  intro t u v heq
  by_contra hlt
  have hpre : u ++ pat <+: d ++ r := by
    refine List.prefix_of_prefix_length_le ⟨v, heq.symm⟩ (List.prefix_append _ t) ?_
    simp only [List.length_append]
    omega
  obtain ⟨w, hw⟩ := hpre
  exact cut_eq_none_iff.mp h u w hw.symm

theorem cut_of_clear {pat d r : List α} (h : Clear pat d r) (t : List α) :
    cut pat (d ++ r ++ t) = (cut pat (r ++ t)).map fun q => (d ++ q.1, q.2) := by
  cases hcut : cut pat (r ++ t) with
  | none =>
    refine cut_eq_none_iff.mpr fun u v heq => cut_eq_none_iff.mp hcut (u.drop d.length) v ?_
    have hlen := h t u v heq
    rw [List.append_assoc, List.append_assoc] at heq
    have hdrop := congrArg (List.drop d.length) heq
    rwa [List.drop_left, List.drop_append_of_le_length hlen, ← List.append_assoc] at hdrop
  | some q =>
    obtain ⟨u, v⟩ := q
    obtain ⟨hrt, hfirst⟩ := cut_eq_some_iff.mp hcut
    refine cut_eq_some_iff.mpr ⟨?_, fun u' v' heq => ?_⟩
    · rw [List.append_assoc, hrt]
      simp
    · have hlen := h t u' v' heq
      rw [List.append_assoc, List.append_assoc] at heq
      have hdrop := congrArg (List.drop d.length) heq
      rw [List.drop_left, List.drop_append_of_le_length hlen, ← List.append_assoc] at hdrop
      have hle := hfirst (u'.drop d.length) v' hdrop
      rw [List.length_drop] at hle
      change (d ++ u).length ≤ u'.length
      rw [List.length_append]
      omega

/-- **What is dropped** is part of no frame. -/
theorem frames_of_clear {d r : List α} (h : Clear m.start d r) (t : List α) :
    frames m (d ++ r ++ t) = frames m (r ++ t) := by
  have hsame : cutFrame m (d ++ r ++ t) = cutFrame m (r ++ t) := by
    rw [cutFrame, cutFrame, cut_of_clear h t]
    cases cut m.start (r ++ t) <;> rfl
  cases hcut : cutFrame m (r ++ t) with
  | none => rw [frames_of_none hcut, frames_of_none (hsame.trans hcut)]
  | some q =>
    obtain ⟨f, rest⟩ := q
    rw [frames_of_some hcut, frames_of_some (hsame.trans hcut)]

/-! ### Images in a stream -/

/-- No stop marker begins inside of an image. -/
def Whole (m : Pair α) (w : List α) : Prop := First m.stop (w ++ m.stop) w

theorem Whole.cut {w : List α} (h : Whole m w) (t : List α) :
    cut m.stop (w ++ m.stop ++ t) = some (w, t) := by
  have hcut : Markers.cut m.stop (w ++ m.stop ++ []) = some (w, []) :=
    cut_eq_some_iff.mpr ⟨rfl, by rwa [List.append_nil]⟩
  simpa using cut_append hcut t

instance (m : Pair α) (w : List α) : Decidable (Whole m w) :=
  decidable_of_iff (Markers.cut m.stop (w ++ m.stop) = some (w, []))
    ⟨fun h => (cut_eq_some_iff.mp h).2, fun h => by simpa using h.cut []⟩

/-- The first frame of a stream that begins with an image. -/
theorem frames_start_append {w t : List α} (h : Whole m w) :
    frames m (m.start ++ w ++ m.stop ++ t) = (m.start ++ w ++ m.stop) :: frames m t := by
  refine frames_of_some (cutFrame_eq_some_iff.mpr
    ⟨[], w ++ m.stop ++ t, w, ?_, h.cut t, rfl⟩)
  exact cut_eq_some_iff.mpr ⟨by simp, fun _ _ _ => Nat.zero_le _⟩

/-- An image with a stop marker inside of it is cut there. -/
theorem head_frames_of_not_whole {w t : List α} (h : ¬Whole m w) :
    ∃ f fs, frames m (m.start ++ w ++ m.stop ++ t) = f :: fs ∧
      f.length < (m.start ++ w ++ m.stop).length := by
  rw [Whole, First] at h
  push Not at h
  obtain ⟨u', v', heq, hlt⟩ := h
  obtain ⟨⟨u, v⟩, hcut⟩ : ∃ r, cut m.stop (w ++ m.stop ++ t) = some r := by
    rw [← Option.isSome_iff_exists, ← Option.ne_none_iff_isSome]
    exact fun hnone => cut_eq_none_iff.mp hnone u' (v' ++ t) (by rw [heq]; simp)
  have hle := (cut_eq_some_iff.mp hcut).2 u' (v' ++ t) (by rw [heq]; simp)
  refine ⟨_, _, frames_of_some (cutFrame_eq_some_iff.mpr
    ⟨[], w ++ m.stop ++ t, u, cut_eq_some_iff.mpr ⟨by simp, fun _ _ _ => Nat.zero_le _⟩,
      hcut, rfl⟩), ?_⟩
  simp only [List.length_append]
  omega

/-- What is sent around an image: no marker begins in front of the image, and none that began
earlier goes on there. -/
structure Envelope (m : Pair α) where
  pre : List α
  post : List α
  start_notMem : ∀ b ∈ m.start.head?, b ∉ pre ++ post
  stop_notMem : ∀ b ∈ m.stop.head?, b ∉ pre
  stop_ne : m.stop ≠ []
  fresh : ∃ c, pre.head? = some c ∧ c ∉ m.start ∧ c ∉ m.stop
  clear : Clear m.stop m.start []

namespace Envelope

variable (e : Envelope m)

/-- An image with what is sent around it. -/
def part (w : List α) : List α := e.pre ++ (m.start ++ w ++ m.stop) ++ e.post

omit [DecidableEq α] in
theorem clear_pre (r : List α) : Clear m.start e.pre r :=
  clear_of_notMem (fun b hb h => e.start_notMem b hb (List.mem_append_left _ h)) m.start_ne r

theorem frames_post_append (t : List α) : frames m (e.post ++ t) = frames m t := by
  have hclear : Clear m.start e.post [] :=
    clear_of_notMem (fun b hb h => e.start_notMem b hb (List.mem_append_right _ h)) m.start_ne []
  simpa using frames_of_clear hclear t

theorem frames_part_append (w t : List α) :
    frames m (e.part w ++ t) = frames m (m.start ++ w ++ m.stop ++ (e.post ++ t)) := by
  have h := frames_of_clear (e.clear_pre []) (m.start ++ w ++ m.stop ++ (e.post ++ t))
  rw [part]
  simpa using h

/-- **Images in a stream** are the frames of the stream exactly if no stop marker begins inside of
one. -/
theorem frames_flatMap_part (ws : List (List α)) :
    frames m (ws.flatMap e.part) = ws.map (fun w => m.start ++ w ++ m.stop) ↔
      ∀ w ∈ ws, Whole m w := by
  induction ws with
  | nil => exact iff_of_true (frames_nil m) (List.forall_mem_nil _)
  | cons w ws ih =>
    rw [List.flatMap_cons, e.frames_part_append, List.forall_mem_cons, List.map_cons]
    by_cases hw : Whole m w
    · rw [frames_start_append hw, e.frames_post_append, List.cons_eq_cons, ih]
      exact ⟨fun h => ⟨hw, h.2⟩, fun h => ⟨rfl, h.2⟩⟩
    · obtain ⟨f, fs, hframes, hlt⟩ :=
        head_frames_of_not_whole (t := e.post ++ ws.flatMap e.part) hw
      rw [hframes]
      refine iff_of_false (fun heq => ?_) fun h => hw h.1
      obtain ⟨rfl, -⟩ := List.cons_eq_cons.mp heq
      exact hlt.false

/-- No marker goes on from what is in front of an envelope into it. -/
theorem clear_append_pre {pat d : List α} (hcut : cut pat d = none)
    (hbreak : ∀ c ∈ e.pre.head?, c ∉ pat) (r : List α) : Clear pat d (e.pre ++ r) := by
  intro t u v heq
  by_contra hlt
  obtain ⟨c, hc, -⟩ := e.fresh
  obtain ⟨tail, htail⟩ : ∃ tail, e.pre = c :: tail := List.head?_eq_some_iff.mp hc
  by_cases hin : (u ++ pat).length ≤ d.length
  · have hpre : u ++ pat <+: d := by
      have hu : u ++ pat <+: d ++ (e.pre ++ r) ++ t := ⟨v, by rw [heq]⟩
      exact List.prefix_of_prefix_length_le hu ⟨e.pre ++ r ++ t, by simp⟩ hin
    obtain ⟨w, hw⟩ := hpre
    exact cut_eq_none_iff.mp hcut u w hw.symm
  · -- the pattern would contain the first element of the envelope
    have hpre : d ++ [c] <+: u ++ pat := by
      have hd : d ++ [c] <+: d ++ (e.pre ++ r) ++ t := ⟨tail ++ r ++ t, by rw [htail]; simp⟩
      refine List.prefix_of_prefix_length_le hd ⟨v, by rw [heq]⟩ ?_
      rw [List.length_append, List.length_singleton]
      omega
    obtain ⟨w, hw⟩ := hpre
    have hdrop := congrArg (List.drop u.length) hw
    rw [List.drop_left, List.append_assoc, List.drop_append_of_le_length (by omega)] at hdrop
    refine hbreak c hc ?_
    rw [← hdrop]
    simp

/-- **Back in step.** What is left of an earlier stream costs at most the first image: it is a frame
of its own, or it becomes the end of a frame that begins with what was left. -/
theorem frames_append_part {r : List α} (hr : frames m r = []) {w : List α} (hw : Whole m w)
    (t : List α) : ∃ f, frames m (r ++ e.part w ++ t) = f :: frames m t := by
  obtain ⟨c, hc, hstart, hstop⟩ := e.fresh
  have hbreak : ∀ {pat : List α}, c ∉ pat → ∀ c' ∈ e.pre.head?, c' ∉ pat := by
    intro pat hpat c' hc'
    obtain rfl : c = c' := Option.some.inj (hc.symm.trans hc')
    exact hpat
  cases hcut : cut m.start r with
  | none =>
    refine ⟨m.start ++ w ++ m.stop, ?_⟩
    have hclear : Clear m.start r (e.part w) := by
      rw [part, List.append_assoc]
      exact e.clear_append_pre hcut (hbreak hstart) _
    rw [frames_of_clear hclear, e.frames_part_append, frames_start_append hw, e.frames_post_append]
  | some q =>
    obtain ⟨u, v⟩ := q
    have hnone : cut m.stop v = none := by
      by_contra hne
      obtain ⟨⟨x, y⟩, hxy⟩ := Option.ne_none_iff_exists'.mp hne
      rw [frames_of_some (cutFrame_eq_some_iff.mpr ⟨u, v, x, hcut, hxy, rfl⟩)] at hr
      cases hr
    have hclear : Clear m.stop (v ++ e.pre ++ m.start) [] := by
      refine Clear.trans (Clear.trans ?_ ?_) ?_
      · exact e.clear_append_pre hnone (hbreak hstop) _
      · exact clear_of_notMem e.stop_notMem e.stop_ne _
      · exact e.clear
    have hwhole := cut_of_clear hclear (w ++ m.stop ++ (e.post ++ t))
    rw [List.append_nil, List.nil_append, hw.cut, Option.map_some] at hwhole
    have hframe := cutFrame_eq_some_iff.mpr
      ⟨u, _, _, cut_append hcut (e.part w ++ t), by
        rw [part, ← hwhole]
        simp only [List.append_assoc], rfl⟩
    rw [← List.append_assoc] at hframe
    refine ⟨m.start ++ (v ++ e.pre ++ m.start ++ w) ++ m.stop, ?_⟩
    rw [frames_of_some hframe, e.frames_post_append]

/-- **The images of a stream**, behind what is left of an earlier one. -/
theorem frames_append_flatMap_part {r : List α} (hr : frames m r = []) (ws : List (List α)) :
    (cut m.start r = none → (frames m (r ++ ws.flatMap e.part) =
        ws.map (fun w => m.start ++ w ++ m.stop) ↔ ∀ w ∈ ws, Whole m w)) ∧
      ((∀ w ∈ ws, Whole m w) → (frames m (r ++ ws.flatMap e.part)).length = ws.length ∧
        (frames m (r ++ ws.flatMap e.part)).tail =
          (ws.map fun w => m.start ++ w ++ m.stop).tail) := by
  cases ws with
  | nil => simp [hr]
  | cons w ws =>
    obtain ⟨c, hc, hstart, -⟩ := e.fresh
    constructor
    · intro hcut
      have hclear : Clear m.start r (e.pre ++ []) :=
        e.clear_append_pre hcut (fun c' hc' => by
          obtain rfl : c = c' := Option.some.inj (hc.symm.trans hc')
          exact hstart) []
      have hdrop := frames_of_clear hclear (m.start ++ w ++ m.stop ++ e.post ++ ws.flatMap e.part)
      rw [← e.frames_flatMap_part, List.flatMap_cons, part]
      simp only [List.append_nil, List.append_assoc] at hdrop ⊢
      rw [hdrop]
    · intro hwhole
      obtain ⟨hw, hws⟩ := List.forall_mem_cons.mp hwhole
      obtain ⟨f, hframes⟩ := e.frames_append_part hr hw (ws.flatMap e.part)
      rw [List.flatMap_cons, ← List.append_assoc, hframes, (e.frames_flatMap_part ws).mpr hws]
      simp

end Envelope

end Markers
