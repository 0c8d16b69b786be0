import DroneTurret.Lib.Trim

/-!
# Bracketed frames

A frame is a tag between two brackets and a payload behind it. A stream of frames is cut at the
opening brackets, and each piece at its first closing bracket. Brackets in tags and payloads are
not escaped, so a stream is read back as it was written only if there are none.
-/

namespace Frames

variable {α : Type*} (opn cls : α)

/-- One frame. -/
def encode (f : List α × List α) : List α := opn :: (f.1 ++ cls :: f.2)

/-- The frames of a stream; what is in front of the first and what has no closing bracket is
dropped. -/
def decode [BEq α] (s : List α) : List (List α × List α) :=
  (s.splitOn opn).tail.filterMap fun piece =>
    if piece.contains cls then
      some (piece.takeWhile (· != cls), (piece.dropWhile (· != cls)).tail)
    else none

variable {opn cls}

/-- A tag and a payload that can be told apart. -/
structure Plain (opn cls : α) (f : List α × List α) : Prop where
  tag_opn : opn ∉ f.1
  tag_cls : cls ∉ f.1
  payload : opn ∉ f.2

variable [BEq α] [LawfulBEq α]

theorem splitOn_frames (hne : opn ≠ cls) {fs : List (List α × List α)}
    (h : ∀ f ∈ fs, Plain opn cls f) :
    ((fs.map (encode opn cls)).flatten).splitOn opn = [] :: fs.map fun f => f.1 ++ cls :: f.2 := by
  refine (Trim.splitOn_eq_iff (List.cons_ne_nil _ _)).mpr ⟨?_, ?_⟩
  · induction fs with
    | nil => rfl
    | cons f fs ih =>
      have hrest := ih fun g hg => h g (List.mem_cons_of_mem f hg)
      rw [List.map_cons, List.map_cons, List.flatten_cons, ← hrest]
      cases fs <;> simp [encode, List.intercalate]
  · intro t ht
    rcases List.mem_cons.mp ht with rfl | ht
    · exact List.not_mem_nil
    · obtain ⟨f, hf, rfl⟩ := List.mem_map.mp ht
      simp [(h f hf).tag_opn, (h f hf).payload, hne]

/-- **A stream of plain frames is read back as it was written.** -/
theorem decode_encode (hne : opn ≠ cls) {fs : List (List α × List α)}
    (h : ∀ f ∈ fs, Plain opn cls f) : decode opn cls (fs.map (encode opn cls)).flatten = fs := by
  rw [decode, splitOn_frames hne h, List.tail_cons, List.filterMap_map]
  refine (List.filterMap_congr fun f hf => ?_).trans List.filterMap_some
  have htag : ∀ a ∈ f.1, (a != cls) = true := by
    intro a ha
    simpa using fun hac : a = cls => (h f hf).tag_cls (hac ▸ ha)
  have hmem : (f.1 ++ cls :: f.2).contains cls = true := by simp
  simp only [Function.comp_apply]
  rw [if_pos hmem, List.takeWhile_append_of_pos htag, List.dropWhile_append_of_pos htag]
  simp

end Frames
