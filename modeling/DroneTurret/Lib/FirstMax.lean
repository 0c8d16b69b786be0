import Mathlib.Order.Lattice

/-!
# The first greatest value

A search through a list that keeps the best value so far and the place where it was found, and
replaces them only by something better. It ends at the first of the greatest values, if any of them
is better than the value that the search starts with.

## Main definitions

* `searchMax` — the search
* `IsFirstMax` — the first place of the greatest value

## Main results

* `searchMax_spec` — where the search ends
* `searchMax_eq_none_iff`, `isFirstMax_of_searchMax` — the same in terms of places
-/

section

variable {α β : Type*} [LinearOrder β]

/-- Go through a list, from place `i`, with the best value so far and its place. -/
def searchMax (score : α → β) (i : ℕ) (best : β × Option ℕ) : List α → β × Option ℕ
  | [] => best
  | x :: xs => searchMax score (i + 1) (if best.1 < score x then (score x, some i) else best) xs

/-- The value at the place is the greatest, and all values before it are less. -/
structure IsFirstMax (score : α → β) (xs : List α) (i : ℕ) : Prop where
  lt : i < xs.length
  max : ∀ x ∈ xs, score x ≤ score xs[i]
  first : ∀ x ∈ xs.take i, score x < score xs[i]

/-- **The search** finds nothing better, or ends at an element that is better than all before it and
no worse than those behind it. -/
theorem searchMax_spec (score : α → β) (i : ℕ) (best : β × Option ℕ) (xs : List α) :
    (searchMax score i best xs = best ∧ ∀ x ∈ xs, score x ≤ best.1) ∨
      ∃ front x back, xs = front ++ x :: back ∧ best.1 < score x ∧
        searchMax score i best xs = (score x, some (i + front.length)) ∧
        (∀ y ∈ front, score y < score x) ∧ ∀ y ∈ back, score y ≤ score x := by
  induction xs generalizing i best with
  | nil => exact .inl ⟨rfl, List.forall_mem_nil _⟩
  | cons x xs ih =>
    rw [searchMax]
    by_cases hx : best.1 < score x
    · rw [if_pos hx]
      rcases ih (i + 1) (score x, some i) with ⟨heq, hall⟩ | ⟨front, y, back, rfl, hy, heq, hfront,
        hback⟩
      · exact .inr ⟨[], x, xs, rfl, hx, heq, List.forall_mem_nil _, hall⟩
      · refine .inr ⟨x :: front, y, back, rfl, hx.trans hy, ?_,
          List.forall_mem_cons.mpr ⟨hy, hfront⟩, hback⟩
        rw [heq, List.length_cons, Nat.add_right_comm, Nat.add_assoc]
    · rw [if_neg hx]
      have hle := not_lt.mp hx
      rcases ih (i + 1) best with ⟨heq, hall⟩ | ⟨front, y, back, rfl, hy, heq, hfront, hback⟩
      · exact .inl ⟨heq, List.forall_mem_cons.mpr ⟨hle, hall⟩⟩
      · refine .inr ⟨x :: front, y, back, rfl, hy, ?_,
          List.forall_mem_cons.mpr ⟨hle.trans_lt hy, hfront⟩, hback⟩
        rw [heq, List.length_cons, Nat.add_right_comm, Nat.add_assoc]

variable {score : α → β} {b : β} {xs : List α}

/-- Nothing is found exactly if nothing is better. -/
theorem searchMax_eq_none_iff :
    (searchMax score 0 (b, none) xs).2 = none ↔ ∀ x ∈ xs, score x ≤ b := by
  rcases searchMax_spec score 0 (b, none) xs with ⟨heq, hall⟩ | ⟨front, x, back, rfl, hx, heq, -⟩
  · rw [heq]
    exact ⟨fun _ => hall, fun _ => rfl⟩
  · rw [heq]
    refine ⟨(fun h => by cases h), fun h => ?_⟩
    exact absurd hx (not_lt.mpr (h x (List.mem_append_right _ List.mem_cons_self)))

/-- What is found is the first of the greatest values. -/
theorem isFirstMax_of_searchMax {i : ℕ} (h : (searchMax score 0 (b, none) xs).2 = some i) :
    IsFirstMax score xs i := by
  rcases searchMax_spec score 0 (b, none) xs with ⟨heq, -⟩ | ⟨front, x, back, rfl, -, heq, hfront,
    hback⟩
  · rw [heq] at h
    cases h
  · rw [heq, Option.some.injEq, Nat.zero_add] at h
    subst h
    have hlt : front.length < (front ++ x :: back).length := by
      rw [List.length_append, List.length_cons]
      exact Nat.lt_add_of_pos_right (Nat.succ_pos _)
    have hat : (front ++ x :: back)[front.length] = x := by
      rw [List.getElem_append_right (Nat.le_refl _)]
      simp only [Nat.sub_self, List.getElem_cons_zero]
    refine ⟨hlt, ?_, ?_⟩
    · rw [hat]
      exact List.forall_mem_append.mpr ⟨fun y hy => (hfront y hy).le,
        List.forall_mem_cons.mpr ⟨le_rfl, hback⟩⟩
    · rw [hat, List.take_left]
      exact hfront

end
