import Mathlib.Data.List.DropRight

/-!
# Trimming and splitting texts

`trim p s` is `s` without its leading and trailing elements that satisfy `p`. It is what is left
between two blank ends and starts and ends with no blank: `trim_eq` says that these two properties
determine it, and every other fact is read off from that.

## Main results

* `trim_decomp`, `trim_eq` — the specification of `trim`
* `trim_append_eq_iff` — what a text may be continued with
* `splitOn_eq_iff` — the pieces of a text, as those it is composed of
-/

namespace Trim

variable {α : Type*} (p : α → Bool)

/-- The text without the blanks at its ends. -/
def trim (s : List α) : List α := (s.dropWhile p).rdropWhile p

/-- A text that neither starts nor ends with a blank. -/
structure Tight (s : List α) : Prop where
  head : ∀ b ∈ s.head?, p b = false
  last : ∀ b ∈ s.getLast?, p b = false

variable {p}

theorem Tight.nil : Tight p [] := ⟨nofun, nofun⟩

theorem trim_eq_nil {s : List α} (h : ∀ b ∈ s, p b) : trim p s = [] := by
  rw [trim, List.dropWhile_eq_nil_iff.mpr h]
  rfl

/-- Between the blanks at its ends stands the trimmed text. -/
theorem trim_decomp (s : List α) :
    ∃ lead tail, s = lead ++ trim p s ++ tail ∧ (∀ b ∈ lead, p b) ∧ (∀ b ∈ tail, p b) ∧
      Tight p (trim p s) := by
  obtain ⟨tail, htail⟩ : ∃ tail, tail = (s.dropWhile p).rtakeWhile p := ⟨_, rfl⟩
  have hsplit : s.dropWhile p = trim p s ++ tail := by
    rw [htail]
    exact List.rdropWhile_append_rtakeWhile.symm
  refine ⟨s.takeWhile p, tail, ?_, fun b hb => List.mem_takeWhile_imp hb, ?_, ?_, ?_⟩
  · rw [List.append_assoc, ← hsplit, List.takeWhile_append_dropWhile]
  · intro b hb
    rw [htail] at hb
    exact List.mem_rtakeWhile_imp hb
  · intro b hb
    have h := List.head?_dropWhile_not p s
    obtain ⟨rest, hrest⟩ : ∃ rest, trim p s = b :: rest := by
      cases hs : trim p s with
      | nil => rw [hs] at hb; cases hb
      | cons a rest => rw [hs] at hb; exact ⟨rest, by rw [Option.some.inj hb]⟩
    rw [hsplit, hrest] at h
    simpa using h
  · intro b hb
    have hne : trim p s ≠ [] := by
      intro hnil
      rw [hnil] at hb
      cases hb
    have h := List.rdropWhile_last_not p (s.dropWhile p) hne
    rw [Option.mem_def, List.getLast?_eq_some_getLast hne] at hb
    rw [← Option.some.inj hb]
    exact Bool.not_eq_true _ ▸ h

theorem dropWhile_append {lead s : List α} (hlead : ∀ b ∈ lead, p b)
    (hs : ∀ b ∈ s.head?, p b = false) : (lead ++ s).dropWhile p = s := by
  rw [List.dropWhile_append_of_pos hlead]
  cases s with
  | nil => rfl
  | cons a s => simp [hs a rfl]

theorem rdropWhile_append {s tail : List α} (htail : ∀ b ∈ tail, p b)
    (hs : ∀ b ∈ s.getLast?, p b = false) : (s ++ tail).rdropWhile p = s := by
  rw [List.rdropWhile, List.reverse_append,
    dropWhile_append (fun b hb => htail b (List.mem_reverse.mp hb)) (by simpa using hs),
    List.reverse_reverse]

/-- What stands between blanks and has none at its ends is the trimmed text. -/
theorem trim_eq {lead s tail : List α} (hlead : ∀ b ∈ lead, p b) (htail : ∀ b ∈ tail, p b)
    (hs : Tight p s) : trim p (lead ++ s ++ tail) = s := by
  by_cases hnil : s = []
  · subst hnil
    refine trim_eq_nil fun b hb => ?_
    rw [List.append_nil] at hb
    exact (List.mem_append.mp hb).elim (hlead b) (htail b)
  · have hhead : ∀ b ∈ (s ++ tail).head?, p b = false := by
      rw [List.head?_append_of_ne_nil s hnil]
      exact hs.head
    rw [trim, List.append_assoc, dropWhile_append hlead hhead, rdropWhile_append htail hs.last]

theorem tight_trim (s : List α) : Tight p (trim p s) := by
  obtain ⟨-, -, -, -, -, h⟩ := trim_decomp (p := p) s
  exact h

theorem trim_eq_self {s : List α} (h : Tight p s) : trim p s = s := by
  simpa using trim_eq (List.forall_mem_nil _) (List.forall_mem_nil _) h

/-- The trimmed text, by its specification. -/
theorem trim_eq_iff {s t : List α} :
    trim p s = t ↔
      ∃ lead tail, s = lead ++ t ++ tail ∧ (∀ b ∈ lead, p b) ∧ (∀ b ∈ tail, p b) ∧ Tight p t := by
  constructor
  · rintro rfl
    exact trim_decomp s
  · rintro ⟨lead, tail, rfl, hlead, htail, ht⟩
    exact trim_eq hlead htail ht

/-- Blanks at the ends make no difference. -/
theorem trim_append {lead tail : List α} (s : List α) (hlead : ∀ b ∈ lead, p b)
    (htail : ∀ b ∈ tail, p b) : trim p (lead ++ s ++ tail) = trim p s := by
  obtain ⟨lead', tail', hs, hlead', htail', htight⟩ := trim_decomp (p := p) s
  have hsplit : lead ++ s ++ tail = (lead ++ lead') ++ trim p s ++ (tail' ++ tail) := by
    conv_lhs => rw [hs]
    simp
  rw [hsplit]
  refine trim_eq (fun b hb => ?_) (fun b hb => ?_) htight
  · exact (List.mem_append.mp hb).elim (hlead b) (hlead' b)
  · exact (List.mem_append.mp hb).elim (htail' b) (htail b)

theorem trim_append_right {tail : List α} (s : List α) (htail : ∀ b ∈ tail, p b) :
    trim p (s ++ tail) = trim p s := by
  simpa using trim_append s (List.forall_mem_nil _) htail

/-- Trimming takes nothing but blanks. -/
theorem filter_trim (s : List α) :
    (trim p s).filter (fun b => !p b) = s.filter fun b => !p b := by
  obtain ⟨lead, tail, hs, hlead, htail, -⟩ := trim_decomp (p := p) s
  have hnone : ∀ u : List α, (∀ b ∈ u, p b) → u.filter (fun b => !p b) = [] := fun u hu =>
    List.filter_eq_nil_iff.mpr fun b hb => by simp [hu b hb]
  conv_rhs => rw [hs]
  rw [List.filter_append, List.filter_append, hnone lead hlead, hnone tail htail,
    List.nil_append, List.append_nil]

/-- A text is the same up to blanks when it is continued with blanks, and only then. -/
theorem trim_append_eq_iff (s t : List α) : trim p (s ++ t) = trim p s ↔ ∀ b ∈ t, p b := by
  refine ⟨fun h => ?_, trim_append_right s⟩
  have hfilter := congrArg (fun u => u.filter fun b => !p b) h
  simp only [filter_trim, List.filter_append] at hfilter
  have hnil : t.filter (fun b => !p b) = [] := by simpa using hfilter
  intro b hb
  simpa using List.filter_eq_nil_iff.mp hnil b hb

/-- What a text is without blanks stays in front when the text goes on. -/
theorem trim_isPrefix {s : List α} (hne : trim p s ≠ []) (t : List α) :
    trim p s <+: trim p (s ++ t) := by
  obtain ⟨lead, tail, hs, hlead, -, htight⟩ := trim_decomp (p := p) s
  generalize trim p s = u at hne hs htight
  obtain ⟨v, hv⟩ : ∃ v, v = (tail ++ t).rdropWhile p := ⟨_, rfl⟩
  have hsplit : s ++ t = lead ++ (u ++ v) ++ (tail ++ t).rtakeWhile p := by
    rw [List.append_assoc, List.append_assoc, hv, List.rdropWhile_append_rtakeWhile, hs]
    simp
  have hwhole : Tight p (u ++ v) := by
    refine ⟨fun b hb => ?_, fun b hb => ?_⟩
    · rw [List.head?_append_of_ne_nil u hne] at hb
      exact htight.head b hb
    · by_cases hnil : v = []
      · rw [hnil, List.append_nil] at hb
        exact htight.last b hb
      · rw [List.getLast?_append_of_ne_nil _ hnil, List.getLast?_eq_some_getLast hnil] at hb
        subst hv
        rw [← Option.some.inj hb]
        exact Bool.not_eq_true _ ▸ List.rdropWhile_last_not p (tail ++ t) hnil
  rw [hsplit, trim_eq hlead (fun b hb => List.mem_rtakeWhile_imp hb) hwhole]
  exact List.prefix_append u v

/-! ### Splitting -/

/-- Two occurrences of a letter in a text: they are one, or one is in front of the other. -/
theorem append_cons_cases {c : α} {u v u' v' : List α} (h : u ++ c :: v = u' ++ c :: v') :
    u = u' ∧ v = v' ∨ (∃ w, u' = u ++ c :: w ∧ v = w ++ c :: v') ∨
      ∃ w, u = u' ++ c :: w ∧ v' = w ++ c :: v := by
  rcases List.append_eq_append_iff.mp h with ⟨w, rfl, hw⟩ | ⟨w, rfl, hw⟩
  · cases w with
    | nil => exact .inl ⟨(List.append_nil u).symm, (List.cons.inj hw).2⟩
    | cons a w =>
      obtain ⟨rfl, hv⟩ := List.cons.inj hw
      exact .inr (.inl ⟨w, rfl, hv⟩)
  · cases w with
    | nil => exact .inl ⟨List.append_nil u', (List.cons.inj hw).2.symm⟩
    | cons a w =>
      obtain ⟨rfl, hv⟩ := List.cons.inj hw
      exact .inr (.inr ⟨w, rfl, hv⟩)

/-- Two prefixes of a text that end in the same letter and have it equally often are the same. -/
theorem eq_of_count [BEq α] [LawfulBEq α] {c : α} {u u' v v' : List α}
    (h : u ++ [c] ++ v = u' ++ [c] ++ v') (hcount : u.count c = u'.count c) : u = u' := by
  rw [List.append_assoc, List.append_assoc] at h
  -- the longer one would have the letter once more
  rcases append_cons_cases h with ⟨hu, -⟩ | ⟨w, hw, -⟩ | ⟨w, hw, -⟩
  · exact hu
  · rw [hw, List.count_append, List.count_cons_self] at hcount
    omega
  · rw [hw, List.count_append, List.count_cons_self] at hcount
    omega

/-- The first occurrence of a letter tells what stands in front of it and what behind. -/
theorem eq_of_first {c : α} {u v u' v' : List α} (h : u ++ c :: v = u' ++ c :: v') (hu : c ∉ u)
    (hu' : c ∉ u') : u = u' ∧ v = v' := by
  rcases append_cons_cases h with heq | ⟨w, rfl, -⟩ | ⟨w, rfl, -⟩
  · exact heq
  · exact absurd (List.mem_append_right u List.mem_cons_self) hu'
  · exact absurd (List.mem_append_right u' List.mem_cons_self) hu

/-- A letter that a text has once tells what stands in front of it and what behind. -/
theorem eq_of_once {c : α} {u v u' v' : List α} (h : u ++ c :: v = u' ++ c :: v') (hu : c ∉ u)
    (hv : c ∉ v) : u = u' ∧ v = v' := by
  rcases append_cons_cases h with heq | ⟨w, -, rfl⟩ | ⟨w, rfl, -⟩
  · exact heq
  · exact absurd (List.mem_append_right w List.mem_cons_self) hv
  · exact absurd (List.mem_append_right u' List.mem_cons_self) hu

theorem notMem_of_mem_splitOn [BEq α] [LawfulBEq α] {x : α} {s t : List α}
    (h : t ∈ s.splitOn x) : x ∉ t := by
  induction s generalizing t with
  | nil =>
    rw [List.splitOn_nil, List.mem_singleton] at h
    rw [h]
    exact List.not_mem_nil
  | cons a s ih =>
    rw [List.splitOn_cons_eq_if_modifyHead] at h
    split at h
    · rcases List.mem_cons.mp h with rfl | h
      · exact List.not_mem_nil
      · exact ih h
    · rename_i ha
      obtain ⟨hd, tl, hsplit⟩ := List.exists_cons_of_ne_nil (List.splitOn_ne_nil x s)
      rw [hsplit, List.modifyHead_cons] at h
      rcases List.mem_cons.mp h with rfl | h
      · rw [List.mem_cons, not_or]
        exact ⟨fun hx => ha (by simp [hx]), ih (hsplit ▸ List.mem_cons_self)⟩
      · exact ih (hsplit ▸ List.mem_cons_of_mem hd h)

/-- The pieces of a text are the ones without separator that it is composed of. -/
theorem splitOn_eq_iff [BEq α] [LawfulBEq α] {x : α} {s : List α} {ts : List (List α)}
    (hne : ts ≠ []) : s.splitOn x = ts ↔ [x].intercalate ts = s ∧ ∀ t ∈ ts, x ∉ t := by
  constructor
  · rintro rfl
    exact ⟨List.intercalate_splitOn x, fun t ht => notMem_of_mem_splitOn ht⟩
  · rintro ⟨rfl, hts⟩
    exact List.splitOn_intercalate x hts hne

end Trim
