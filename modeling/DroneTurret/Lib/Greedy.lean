import Mathlib.Data.List.Basic
import Mathlib.Data.List.Pairwise

/-!
# Greedy selection

The greedy selection from a list takes its head, removes what the head does not leave, and goes on
with the rest, until it has taken `k` elements or nothing remains.

## Main definitions

* `greedy` — the selection, with `leaves x y` for "`x` leaves `y`"

## Main results

* `greedy_sublist`, `length_greedy_le` — it is a sublist of at most `k` elements
* `greedy_pairwise` — each of its elements is left by those before it
* `greedy_maximal` — if it is shorter than `k`, what it misses comes behind one of its elements that
  does not leave it
-/

variable {α : Type*} (leaves : α → α → Bool)

/-- The greedy selection of at most `k` elements. -/
def greedy : ℕ → List α → List α
  | 0, _ => []
  | _ + 1, [] => []
  | k + 1, x :: xs => x :: greedy k (xs.filter (leaves x))

theorem greedy_sublist (k : ℕ) (l : List α) : (greedy leaves k l).Sublist l := by
  induction k generalizing l with
  | zero => exact List.nil_sublist _
  | succ k ih =>
    cases l with
    | nil => exact .slnil
    | cons x xs => exact ((ih _).trans List.filter_sublist).cons_cons x

theorem length_greedy_le (k : ℕ) (l : List α) : (greedy leaves k l).length ≤ k := by
  induction k generalizing l with
  | zero => exact Nat.le_refl _
  | succ k ih =>
    cases l with
    | nil => exact Nat.zero_le _
    | cons x xs => exact Nat.succ_le_succ (ih _)

theorem greedy_pairwise (k : ℕ) (l : List α) :
    (greedy leaves k l).Pairwise fun x y => leaves x y = true := by
  induction k generalizing l with
  | zero => exact .nil
  | succ k ih =>
    cases l with
    | nil => exact .nil
    | cons x xs =>
      refine .cons (fun y hy => ?_) (ih _)
      exact (List.mem_filter.mp ((greedy_sublist leaves k _).subset hy)).2

/-- **A selection that stops early misses nothing without a reason.** -/
theorem greedy_maximal {k : ℕ} {l : List α} (h : (greedy leaves k l).length < k) {y : α}
    (hy : y ∈ l) : y ∈ greedy leaves k l ∨
      ∃ x ∈ greedy leaves k l, leaves x y = false ∧ [x, y].Sublist l := by
  induction k generalizing l with
  | zero => exact absurd h (Nat.not_lt_zero _)
  | succ k ih =>
    cases l with
    | nil => cases hy
    | cons x xs =>
      rw [greedy]
      rcases List.mem_cons.mp hy with rfl | hy
      · exact .inl List.mem_cons_self
      · cases hleaves : leaves x y with
        | false =>
          refine .inr ⟨x, List.mem_cons_self, hleaves, ?_⟩
          exact (List.singleton_sublist.mpr hy).cons_cons x
        | true =>
          rcases ih (Nat.lt_of_succ_lt_succ h) (List.mem_filter.mpr ⟨hy, hleaves⟩) with
            hmem | ⟨z, hz, hzy, hsub⟩
          · exact .inl (List.mem_cons_of_mem x hmem)
          · refine .inr ⟨z, List.mem_cons_of_mem x hz, hzy, ?_⟩
            exact (hsub.trans List.filter_sublist).cons x
