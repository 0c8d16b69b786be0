import Mathlib.Data.List.MinMax

/-!
# The first smallest element

`List.argmin f` is the first element of a list at which `f` is smallest. The facts below let a
search that looks at a part of the list, or compares by a part of a key, be exchanged for one search
through all of it.

## Main results

* `argmin_eq_some_iff_append` — what is before it is greater, what is behind it is no smaller
* `argmin_filter` — a search among preferred elements only
* `argmin_congr` — a search by another key that orders the elements in the same way
* `argmin_filterMap_eq_some_iff` — a search among what a function gives for the elements
-/

section

variable {α β γ : Type*} [LinearOrder β] {f : α → β} {l : List α} {m : α}

/-- **The first smallest element** is less than those before it and no greater than those behind
it. -/
theorem argmin_eq_some_iff_append : l.argmin f = some m ↔
    ∃ front back, l = front ++ m :: back ∧ (∀ a ∈ front, f m < f a) ∧ ∀ a ∈ back, f m ≤ f a := by
  induction l with
  | nil => simp
  | cons x xs ih =>
    rw [List.argmin_cons]
    cases hxs : xs.argmin f with
    | none =>
      obtain rfl := List.argmin_eq_none.mp hxs
      constructor
      · rintro ⟨rfl⟩
        exact ⟨[], [], rfl, List.forall_mem_nil _, List.forall_mem_nil _⟩
      · rintro ⟨front, back, heq, -⟩
        cases front with
        | nil =>
          obtain ⟨rfl, -⟩ := List.cons_eq_cons.mp heq
          rfl
        | cons a front =>
          have hnil := (List.cons_eq_cons.mp heq).2
          exact absurd hnil.symm (List.append_ne_nil_of_right_ne_nil _ (List.cons_ne_nil _ _))
    | some c =>
      rw [hxs] at ih
      dsimp only
      constructor
      · split_ifs with hlt
        · intro hc
          obtain ⟨front, back, rfl, hfront, hback⟩ := ih.mp hc
          obtain rfl := Option.some.inj hc
          exact ⟨x :: front, back, rfl, List.forall_mem_cons.mpr ⟨hlt, hfront⟩, hback⟩
        · rintro ⟨rfl⟩
          refine ⟨[], xs, rfl, List.forall_mem_nil _, fun a ha => ?_⟩
          exact (not_lt.mp hlt).trans (List.le_of_mem_argmin ha hxs)
      · rintro ⟨front, back, heq, hfront, hback⟩
        cases front with
        | nil =>
          obtain ⟨rfl, rfl⟩ := List.cons_eq_cons.mp heq
          rw [if_neg (not_lt.mpr (hback c (List.argmin_mem hxs)))]
        | cons a front =>
          obtain ⟨rfl, rfl⟩ := List.cons_eq_cons.mp heq
          obtain ⟨ha, hfront⟩ := List.forall_mem_cons.mp hfront
          have hc := ih.mpr ⟨front, back, rfl, hfront, hback⟩
          obtain rfl := Option.some.inj hc
          rw [if_pos ha]

/-- **A search among preferred elements.** Where there is one, and each of them is smaller than
every other element, nothing is missed. -/
theorem argmin_filter {p : α → Bool} (hsome : ∃ a ∈ l, p a = true)
    (hless : ∀ a ∈ l, ∀ b ∈ l, p a = true → p b = false → f a < f b) :
    (l.filter p).argmin f = l.argmin f := by
  cases hm : l.argmin f with
  | none =>
    obtain ⟨a, ha, -⟩ := hsome
    rw [List.argmin_eq_none.mp hm] at ha
    cases ha
  | some m =>
    obtain ⟨front, back, hl, hfront, hback⟩ := argmin_eq_some_iff_append.mp hm
    have hpm : p m = true := by
      by_contra hpm
      obtain ⟨a, ha, hpa⟩ := hsome
      have hlt := hless a ha m (List.argmin_mem hm) hpa (Bool.not_eq_true _ ▸ hpm)
      exact absurd (List.le_of_mem_argmin ha hm) (not_le.mpr hlt)
    refine argmin_eq_some_iff_append.mpr ⟨front.filter p, back.filter p, ?_, ?_, ?_⟩
    · rw [hl, List.filter_append, List.filter_cons_of_pos hpm]
    · exact fun a ha => hfront a (List.mem_of_mem_filter ha)
    · exact fun a ha => hback a (List.mem_of_mem_filter ha)

/-- **A search by another key** that orders the elements of the list in the same way. -/
theorem argmin_congr [LinearOrder γ] {g : α → γ} (h : ∀ a ∈ l, ∀ b ∈ l, f a ≤ f b ↔ g a ≤ g b) :
    l.argmin f = l.argmin g := by
  cases hm : l.argmin g with
  | none =>
    rw [List.argmin_eq_none.mp hm]
    rfl
  | some m =>
    obtain ⟨front, back, rfl, hfront, hback⟩ := argmin_eq_some_iff_append.mp hm
    have hmem := List.argmin_mem hm
    refine argmin_eq_some_iff_append.mpr ⟨front, back, rfl, fun a ha => ?_, fun a ha => ?_⟩
    · have ha' := List.mem_append_left (m :: back) ha
      exact not_le.mp (fun hle => absurd ((h a ha' m hmem).mp hle) (not_le.mpr (hfront a ha)))
    · have ha' := List.mem_append_right front (List.mem_cons_of_mem m ha)
      exact (h m hmem a ha').mpr (hback a ha)

/-- The first smallest of the elements that a function gives for those of a list. -/
theorem argmin_filterMap_eq_some_iff {g : γ → Option α} {l : List γ} :
    (l.filterMap g).argmin f = some m ↔ ∃ front x back, l = front ++ x :: back ∧ g x = some m ∧
      (∀ y ∈ front, ∀ a ∈ g y, f m < f a) ∧ ∀ y ∈ back, ∀ a ∈ g y, f m ≤ f a := by
  rw [argmin_eq_some_iff_append]
  constructor
  · rintro ⟨front, back, heq, hfront, hback⟩
    obtain ⟨front, rest, rfl, rfl, hrest⟩ := List.filterMap_eq_append_iff.mp heq
    obtain ⟨skipped, x, back, rfl, hskipped, hx, rfl⟩ := List.filterMap_eq_cons_iff.mp hrest
    refine ⟨front ++ skipped, x, back, (List.append_assoc ..).symm, hx, ?_, ?_⟩
    · refine List.forall_mem_append.mpr ⟨fun y hy a ha => ?_, fun y hy a ha => ?_⟩
      · exact hfront a (List.mem_filterMap.mpr ⟨y, hy, ha⟩)
      · rw [hskipped y hy] at ha
        cases ha
    · exact fun y hy a ha => hback a (List.mem_filterMap.mpr ⟨y, hy, ha⟩)
  · rintro ⟨front, x, back, rfl, hx, hfront, hback⟩
    refine ⟨front.filterMap g, back.filterMap g, ?_, fun a ha => ?_, fun a ha => ?_⟩
    · rw [List.filterMap_append, List.filterMap_cons_some hx]
    · obtain ⟨y, hy, ha⟩ := List.mem_filterMap.mp ha
      exact hfront y hy a ha
    · obtain ⟨y, hy, ha⟩ := List.mem_filterMap.mp ha
      exact hback y hy a ha

end
