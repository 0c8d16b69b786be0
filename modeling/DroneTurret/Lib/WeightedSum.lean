import Mathlib.Algebra.Order.BigOperators.Group.List
import Mathlib.Algebra.Order.Field.Basic
import Mathlib.Algebra.BigOperators.Ring.List

/-!
# Weighted sums

A sum of values with weights, where the weights are not negative and their sum does not exceed 1. It
lies between the least and the greatest value; for weights whose sum is less than 1, strictly below
the latter.

## Main definitions

* `weightedSum` — the values of a list, weighted by those of another one
* `shares` — the parts that positive numbers have in their sum, with something added to the sum

## Main results

* `weightedSum_pos`, `weightedSum_lt` — bounds of a weighted sum
* `shares_pos`, `sum_shares_lt_one` — shares are weights
-/

section

variable {K : Type*} [Field K] [LinearOrder K] [IsStrictOrderedRing K]

/-- The sum of `x`, weighted by `p`. -/
def weightedSum (p x : List K) : K := (List.zipWith (· * ·) p x).sum

theorem weightedSum_nonneg {p x : List K} (hp : ∀ a ∈ p, 0 ≤ a) (hx : ∀ b ∈ x, 0 ≤ b) :
    0 ≤ weightedSum p x := by
  refine List.sum_nonneg fun c hc => ?_
  obtain ⟨a, ha, b, hb, rfl⟩ : ∃ a ∈ p, ∃ b ∈ x, a * b = c := by
    rw [← List.map_uncurry_zip_eq_zipWith, List.mem_map] at hc
    obtain ⟨⟨a, b⟩, hab, rfl⟩ := hc
    exact ⟨a, (List.of_mem_zip hab).1, b, (List.of_mem_zip hab).2, rfl⟩
  exact mul_nonneg (hp a ha) (hx b hb)

/-- With positive weights, something counts if there is something to count. -/
theorem weightedSum_pos {p x : List K} (hp : ∀ a ∈ p, 0 < a) (hx : ∀ b ∈ x, 0 ≤ b)
    (hlength : x.length ≤ p.length) (hsum : 0 < x.sum) : 0 < weightedSum p x := by
  induction x generalizing p with
  | nil => exact absurd hsum (lt_irrefl 0)
  | cons b x ih =>
    cases p with
    | nil => exact absurd hlength (Nat.not_succ_le_zero _)
    | cons a p =>
      obtain ⟨ha, hp⟩ := List.forall_mem_cons.mp hp
      obtain ⟨hb, hx'⟩ := List.forall_mem_cons.mp hx
      have hrest := weightedSum_nonneg (fun a' ha' => (hp a' ha').le) hx'
      change 0 < a * b + weightedSum p x
      rcases hb.eq_or_lt with rfl | hb
      · rw [List.sum_cons, zero_add] at hsum
        rw [mul_zero, zero_add]
        exact ih hp hx' (Nat.le_of_succ_le_succ hlength) hsum
      · exact add_pos_of_pos_of_nonneg (mul_pos ha hb) hrest

theorem weightedSum_le {p x : List K} {hi : K} (hp : ∀ a ∈ p, 0 ≤ a) (hx : ∀ b ∈ x, b ≤ hi)
    (hhi : 0 ≤ hi) : weightedSum p x ≤ p.sum * hi := by
  induction x generalizing p with
  | nil =>
    rw [weightedSum, List.zipWith_nil_right]
    exact mul_nonneg (List.sum_nonneg hp) hhi
  | cons b x ih =>
    cases p with
    | nil => exact (zero_mul hi).ge
    | cons a p =>
      obtain ⟨ha, hp⟩ := List.forall_mem_cons.mp hp
      obtain ⟨hb, hx⟩ := List.forall_mem_cons.mp hx
      calc a * b + weightedSum p x ≤ a * hi + p.sum * hi :=
            add_le_add (mul_le_mul_of_nonneg_left hb ha) (ih hp hx)
        _ = (a :: p).sum * hi := by rw [List.sum_cons, add_mul]

/-- **Weights below 1 stay below the greatest value.** -/
theorem weightedSum_lt {p x : List K} {hi : K} (hp : ∀ a ∈ p, 0 ≤ a) (hsum : p.sum < 1)
    (hx : ∀ b ∈ x, b ≤ hi) (hhi : 0 < hi) : weightedSum p x < hi :=
  calc weightedSum p x ≤ p.sum * hi := weightedSum_le hp hx hhi.le
    _ < 1 * hi := mul_lt_mul_of_pos_right hsum hhi
    _ = hi := one_mul hi

/-- The parts that numbers have in their sum, with `ε` added to the sum. -/
def shares (ε : K) (e : List K) : List K := e.map (· / (e.sum + ε))

variable {ε : K} {e : List K}

omit [LinearOrder K] [IsStrictOrderedRing K] in
theorem length_shares : (shares ε e).length = e.length := List.length_map _

theorem shares_pos (hε : 0 < ε) (he : ∀ a ∈ e, 0 < a) : ∀ a ∈ shares ε e, 0 < a := by
  have hsum : 0 ≤ e.sum := List.sum_nonneg fun a ha => (he a ha).le
  refine List.forall_mem_map.mpr fun a ha => ?_
  exact div_pos (he a ha) (add_pos_of_nonneg_of_pos hsum hε)

theorem sum_shares_lt_one (hε : 0 < ε) (he : ∀ a ∈ e, 0 < a) : (shares ε e).sum < 1 := by
  have hsum : 0 ≤ e.sum := List.sum_nonneg fun a ha => (he a ha).le
  have hmul : (shares ε e).sum = e.sum / (e.sum + ε) := by
    rw [shares]
    simp only [div_eq_mul_inv]
    rw [List.sum_map_mul_right, List.map_id']
  rw [hmul, div_lt_one (add_pos_of_nonneg_of_pos hsum hε)]
  exact lt_add_of_pos_right _ hε

end
