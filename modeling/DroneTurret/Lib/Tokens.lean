import Mathlib.Data.List.Basic
import Mathlib.Data.List.TakeWhile

/-!
# Splitting a list into tokens

`tokens delim s` is the list of maximal runs of non-delimiters of `s`, in order: what a scanner
that skips delimiters and cuts at delimiters returns, call by call. It is `List.splitOnP` with the
empty pieces dropped, so every fact about it comes from the corresponding fact about `splitOnP`.

`text delim s` is what is left of `s` without its delimiters. It is additive over concatenation
where `tokens` is not, which is what makes counting arguments about cut streams possible;
`flatten_tokens` ties the two together.

## Main results

* `tokens_append_cons` — a delimiter splits the tokens of a concatenation
* `tokens_cons_of_scan` — the first token, as a scanner finds it
* `flatten_tokens` — the tokens hold exactly the text
* `subset_of_getElem?_tokens` — the first tokens of a prefix are made of what it is a prefix of
* `eq_of_prefixes` — pieces that extend blocks one for one, and have no more text, are the blocks
* `split_at_text` — a prefix holding exactly the text of the first block is that block, up to
  delimiters
-/

namespace Tokens

variable {α : Type*} (delim : α → Bool)

/-- The maximal runs of non-delimiters. -/
def tokens (s : List α) : List (List α) := (s.splitOnP delim).filter fun t => !t.isEmpty

/-- The non-delimiters. -/
def text (s : List α) : List α := s.filter fun b => !delim b

variable {delim}

@[simp] theorem tokens_nil : tokens delim [] = [] := by simp [tokens]

/-- A delimiter anywhere splits the tokens in two. -/
theorem tokens_append_cons (u v : List α) {d : α} (hd : delim d) :
    tokens delim (u ++ d :: v) = tokens delim u ++ tokens delim v := by
  rw [tokens, List.splitOnP_append_cons u v hd, List.filter_append]
  rfl

theorem tokens_cons_of_delim (v : List α) {d : α} (hd : delim d) :
    tokens delim (d :: v) = tokens delim v := by
  simpa using tokens_append_cons [] v hd

/-- A non-empty word without delimiters is its own only token. -/
theorem tokens_of_word {w : List α} (hw : w ≠ []) (h : ∀ b ∈ w, delim b = false) :
    tokens delim w = [w] := by
  rw [tokens, List.splitOnP_eq_singleton h]
  simpa using hw

theorem tokens_of_delims_append {u : List α} (hu : ∀ b ∈ u, delim b) (v : List α) :
    tokens delim (u ++ v) = tokens delim v := by
  induction u with
  | nil => rfl
  | cons d u ih =>
    rw [List.cons_append, tokens_cons_of_delim _ (hu d List.mem_cons_self)]
    exact ih fun b hb => hu b (List.mem_cons_of_mem d hb)

theorem tokens_of_delims {u : List α} (hu : ∀ b ∈ u, delim b) : tokens delim u = [] := by
  simpa using tokens_of_delims_append hu []

/-- Delimiters at the end add no token. -/
theorem tokens_append_of_delims (u : List α) {v : List α} (hv : ∀ b ∈ v, delim b) :
    tokens delim (u ++ v) = tokens delim u := by
  cases v with
  | nil => rw [List.append_nil]
  | cons d v =>
    rw [tokens_append_cons u v (hv d List.mem_cons_self),
      tokens_of_delims fun b hb => hv b (List.mem_cons_of_mem d hb), List.append_nil]

/-- **The first token, as a scanner finds it.** Skip delimiters, take a word, and stop at the end
or at a delimiter. -/
theorem tokens_cons_of_scan {lead w rest : List α} (hlead : ∀ b ∈ lead, delim b) (hw : w ≠ [])
    (hword : ∀ b ∈ w, delim b = false) (hrest : ∀ b ∈ rest.head?, delim b) :
    tokens delim (lead ++ w ++ rest) = w :: tokens delim rest := by
  rw [List.append_assoc, tokens_of_delims_append hlead]
  cases rest with
  | nil => rw [List.append_nil, tokens_of_word hw hword, tokens_nil]
  | cons d rest =>
    have hd : delim d := hrest d rfl
    rw [tokens_append_cons w rest hd, tokens_of_word hw hword, tokens_cons_of_delim rest hd]
    rfl

/-- A text that begins with a word has a first token that begins with it. -/
theorem tokens_word_append {w : List α} (hw : w ≠ []) (hword : ∀ b ∈ w, delim b = false)
    (v : List α) : ∃ u more, tokens delim (w ++ v) = (w ++ u) :: more := by
  have hwhole : ∀ b ∈ w ++ v.takeWhile (fun b => !delim b), delim b = false := by
    intro b hb
    rcases List.mem_append.mp hb with hb | hb
    · exact hword b hb
    · simpa using List.mem_takeWhile_imp hb
  have hrest : ∀ b ∈ (v.dropWhile fun b => !delim b).head?, delim b := by
    intro b hb
    have h := List.head?_dropWhile_not (fun b => !delim b) v
    rw [Option.mem_def] at hb
    rw [hb] at h
    simpa using h
  have hsplit : w ++ v =
      [] ++ (w ++ v.takeWhile fun b => !delim b) ++ v.dropWhile fun b => !delim b := by
    rw [List.nil_append, List.append_assoc, List.takeWhile_append_dropWhile]
  refine ⟨v.takeWhile fun b => !delim b, tokens delim (v.dropWhile fun b => !delim b), ?_⟩
  rw [hsplit]
  exact tokens_cons_of_scan (List.forall_mem_nil _) (by simp [hw]) hwhole hrest

/-- Tokens are non-empty and hold only non-delimiters of the list. -/
theorem of_mem_tokens {s t : List α} (h : t ∈ tokens delim s) :
    t ≠ [] ∧ ∀ b ∈ t, delim b = false ∧ b ∈ s := by
  induction s generalizing t with
  | nil => simp at h
  | cons a s ih =>
    rw [tokens, List.mem_filter, List.splitOnP_cons_eq_if_modifyHead] at h
    obtain ⟨hmem, hne⟩ := h
    have hne' : t ≠ [] := by simpa using hne
    refine ⟨hne', ?_⟩
    -- membership in the pieces of the tail, the empty pieces included
    have tail : ∀ u ∈ s.splitOnP delim, ∀ b ∈ u, delim b = false ∧ b ∈ s := by
      intro u hu b hb
      have hu' : u ∈ tokens delim s :=
        List.mem_filter.mpr ⟨hu, by simpa using List.ne_nil_of_mem hb⟩
      exact (ih hu').2 b hb
    split at hmem
    · rcases List.mem_cons.mp hmem with rfl | hmem
      · exact absurd rfl hne'
      · exact fun b hb => ⟨(tail t hmem b hb).1, List.mem_cons_of_mem a (tail t hmem b hb).2⟩
    · rename_i ha
      obtain ⟨hd, tl, hsplit⟩ := List.exists_cons_of_ne_nil (List.splitOnP_ne_nil delim s)
      rw [hsplit, List.modifyHead_cons] at hmem
      intro b hb
      rcases List.mem_cons.mp hmem with rfl | hmem
      · rcases List.mem_cons.mp hb with rfl | hb
        · exact ⟨by simpa using ha, List.mem_cons_self⟩
        · obtain ⟨h1, h2⟩ := tail hd (hsplit ▸ List.mem_cons_self) b hb
          exact ⟨h1, List.mem_cons_of_mem a h2⟩
      · obtain ⟨h1, h2⟩ := tail t (hsplit ▸ List.mem_cons_of_mem hd hmem) b hb
        exact ⟨h1, List.mem_cons_of_mem a h2⟩

/-- A token is a piece of the list. The induction is on its length, and cuts it at a delimiter. -/
theorem infix_of_mem_tokens {s t : List α} (h : t ∈ tokens delim s) : t <:+: s := by
  induction hn : s.length using Nat.strong_induction_on generalizing s with
  | _ n ih =>
    by_cases hs : ∃ d ∈ s, delim d = true
    · obtain ⟨d, hmem, hd⟩ := hs
      obtain ⟨u, v, rfl⟩ := List.append_of_mem hmem
      rw [List.length_append, List.length_cons] at hn
      rw [tokens_append_cons u v hd, List.mem_append] at h
      rcases h with h | h
      · exact (ih u.length (by omega) h rfl).trans (List.prefix_append u _).isInfix
      · exact (ih v.length (by omega) h rfl).trans
          ((List.suffix_cons d v).trans (List.suffix_append u _)).isInfix
    · have hword : ∀ b ∈ s, delim b = false := fun b hb => by
        simpa using fun hd : delim b = true => hs ⟨b, hb, hd⟩
      rcases eq_or_ne s [] with rfl | hne
      · simp at h
      · rw [tokens_of_word hne hword, List.mem_singleton] at h
        exact h ▸ List.infix_rfl

/-! ### The text -/

@[simp] theorem text_nil : text delim [] = [] := rfl

@[simp] theorem text_append (u v : List α) :
    text delim (u ++ v) = text delim u ++ text delim v :=
  List.filter_append ..

theorem text_flatten (ps : List (List α)) :
    text delim ps.flatten = (ps.map (text delim)).flatten := by
  induction ps with
  | nil => rfl
  | cons p ps ih => rw [List.flatten_cons, text_append, ih, List.map_cons, List.flatten_cons]

theorem text_eq_nil_iff {s : List α} : text delim s = [] ↔ ∀ b ∈ s, delim b := by
  simp [text, List.filter_eq_nil_iff]

theorem text_eq_self {w : List α} (h : ∀ b ∈ w, delim b = false) : text delim w = w :=
  List.filter_eq_self.mpr fun b hb => by simp [h b hb]

/-- **The tokens hold exactly the text.** -/
theorem flatten_tokens (s : List α) : (tokens delim s).flatten = text delim s := by
  induction s with
  | nil => rfl
  | cons a s ih =>
    by_cases ha : delim a
    · rw [tokens_cons_of_delim s ha, ih]
      simp [text, ha]
    · have ha' : delim a = false := by simpa using ha
      obtain ⟨hd, tl, hsplit⟩ := List.exists_cons_of_ne_nil (List.splitOnP_ne_nil delim s)
      have htail : hd ++ (tl.filter fun t => !t.isEmpty).flatten = text delim s := by
        rw [← ih, tokens, hsplit]
        cases hd <;> simp
      rw [tokens, List.splitOnP_cons_eq_if_modifyHead, if_neg ha, hsplit, List.modifyHead_cons]
      simpa [text, ha'] using htail

/-! ### Cutting a stream at its text

A stream is read in pieces that know nothing of the blocks it was written in. Counting text
settles where a piece ends: holding exactly the text of the first block, and that block ending in
a non-delimiter, it can only be off by delimiters that follow. -/

/-- A prefix `p` of `lead ++ block ++ rest` with the text of `block`, where `lead` has none and
`block` ends in a non-delimiter, is `lead ++ block` and some delimiters from `rest`. -/
theorem split_at_text {p q lead block rest : List α} (hcut : p ++ q = lead ++ block ++ rest)
    (htext : text delim p = text delim block) (hlead : ∀ b ∈ lead, delim b)
    (hlast : ∀ b ∈ block.getLast?, delim b = false) (hblock : block ≠ []) :
    ∃ gap, p = lead ++ block ++ gap ∧ rest = gap ++ q ∧ ∀ b ∈ gap, delim b := by
  have hlead' : text delim lead = [] := text_eq_nil_iff.mpr hlead
  rcases List.append_eq_append_iff.mp hcut with ⟨s, hs, hq⟩ | ⟨s, hs, hrest⟩
  · -- the piece ends inside the block: what is missing of the block has no text
    have hmiss : text delim s = [] := by
      have h : text delim block = text delim block ++ text delim s := by
        calc text delim block = text delim (lead ++ block) := by
              rw [text_append, hlead', List.nil_append]
          _ = text delim block ++ text delim s := by rw [hs, text_append, htext]
      simpa using h
    have hs0 : s = [] := by
      by_contra hne
      have hlast' : (lead ++ block).getLast? = s.getLast? := by
        rw [hs, List.getLast?_append_of_ne_nil _ hne]
      rw [List.getLast?_append_of_ne_nil _ hblock] at hlast'
      have hmem := List.getLast_mem hne
      have h1 : delim (s.getLast hne) = false :=
        hlast _ (by rw [hlast', List.getLast?_eq_some_getLast hne]; rfl)
      exact absurd (text_eq_nil_iff.mp hmiss _ hmem) (by simp [h1])
    subst hs0
    exact ⟨[], by simpa using hs.symm, by simpa using hq.symm, by simp⟩
  · refine ⟨s, hs, hrest, text_eq_nil_iff.mp ?_⟩
    rw [hs, text_append, text_append, hlead', List.nil_append] at htext
    simpa using htext

/-- A token of a prefix of `x ++ d :: rest` that comes no later than the last token of `x` is made
of elements of `x`. -/
theorem subset_of_getElem?_tokens {p q x rest t : List α} {d : α} {j : ℕ}
    (hcut : p ++ q = x ++ d :: rest) (hd : delim d) (hj : j < (tokens delim x).length)
    (ht : (tokens delim p)[j]? = some t) : t ⊆ x := by
  rcases List.append_eq_append_iff.mp hcut with ⟨s, rfl, -⟩ | ⟨s, rfl, hs⟩
  · intro b hb
    exact List.mem_append_left _ ((of_mem_tokens (List.mem_of_getElem? ht)).2 b hb).2
  · have hx : (tokens delim x)[j]? = some t := by
      cases s with
      | nil => rwa [List.append_nil] at ht
      | cons e s =>
        obtain rfl : d = e := by simpa using List.head_eq_of_cons_eq hs
        rwa [tokens_append_cons x s hd, List.getElem?_append_left hj] at ht
    intro b hb
    exact ((of_mem_tokens (List.mem_of_getElem? hx)).2 b hb).2

/-! ### Counting -/

theorem length_flatten_le_of_prefixes {bs ps : List (List α)}
    (h : List.Forall₂ (fun b p => b <+: p) bs ps) : bs.flatten.length ≤ ps.flatten.length := by
  induction h with
  | nil => exact Nat.le_refl _
  | cons hbp _ ih =>
    rw [List.flatten_cons, List.flatten_cons, List.length_append, List.length_append]
    exact Nat.add_le_add hbp.length_le ih

/-- Pieces that extend the blocks one for one and are no longer altogether are the blocks. -/
theorem eq_of_prefixes {bs ps : List (List α)} (h : List.Forall₂ (fun b p => b <+: p) bs ps)
    (hlen : ps.flatten.length ≤ bs.flatten.length) : bs = ps := by
  induction h with
  | nil => rfl
  | cons hbp hrest ih =>
    have htail := length_flatten_le_of_prefixes hrest
    rw [List.flatten_cons, List.flatten_cons, List.length_append, List.length_append] at hlen
    have hhead := hbp.length_le
    rw [hbp.eq_of_length (by omega), ih (by omega)]

end Tokens
