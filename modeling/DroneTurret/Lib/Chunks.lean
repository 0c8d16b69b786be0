import Mathlib.Data.List.Basic

/-!
# A list cut into pieces of a fixed length

`chunks n l` are the pieces that a reader takes who gets at most `n` elements at a time and takes
as many as there are.

## Main results

* `chunks_eq_cons` — the first piece and the pieces of the rest
* `chunks_of_length_le` — a list that is taken at once
* `length_of_mem_chunks` — where the pieces come out even
-/

section

variable {α : Type*} {n : ℕ} {l : List α}

/-- The pieces of `n` elements, the last of which may be shorter. -/
def chunks (n : ℕ) (l : List α) : List (List α) :=
  (List.range ((l.length + n - 1) / n)).map fun i => (l.drop (i * n)).take n

theorem length_chunks (n : ℕ) (l : List α) : (chunks n l).length = (l.length + n - 1) / n := by
  rw [chunks, List.length_map, List.length_range]

theorem chunks_nil (hn : 0 < n) : chunks n ([] : List α) = [] := by
  refine List.length_eq_zero_iff.mp ?_
  rw [length_chunks, List.length_nil, Nat.zero_add]
  exact Nat.div_eq_of_lt (Nat.sub_one_lt (Nat.ne_of_gt hn))

theorem chunks_eq_cons (hn : 0 < n) (hl : l ≠ []) :
    chunks n l = l.take n :: chunks n (l.drop n) := by
  have hpos := List.length_pos_iff.mpr hl
  have hcount : (l.length + n - 1) / n = ((l.drop n).length + n - 1) / n + 1 := by
    rw [List.length_drop]
    rcases Nat.le_total n l.length with h | h
    · rw [← Nat.add_div_right _ hn]
      congr 1
      omega
    · have hnone : (n - 1) / n = 0 := Nat.div_eq_of_lt (Nat.sub_one_lt (Nat.ne_of_gt hn))
      rw [Nat.sub_eq_zero_of_le h, Nat.zero_add, hnone]
      exact Nat.div_eq_of_lt_le (by omega) (by omega)
  rw [chunks, hcount, List.range_succ_eq_map, List.map_cons, Nat.zero_mul, List.drop_zero,
    List.map_map, chunks]
  refine congrArg _ (List.map_congr_left fun i _ => ?_)
  rw [Function.comp_apply, List.drop_drop, Nat.succ_mul, Nat.add_comm]

theorem chunks_of_length_le (hn : 0 < n) (hl : l ≠ []) (h : l.length ≤ n) : chunks n l = [l] := by
  rw [chunks_eq_cons hn hl, List.take_of_length_le h, List.drop_eq_nil_iff.mpr h, chunks_nil hn]

/-- Where they come out even, all pieces have that length. -/
theorem length_of_mem_chunks (hn : 0 < n) (hdvd : n ∣ l.length) :
    ∀ c ∈ chunks n l, c.length = n := by
  obtain ⟨k, hk⟩ := hdvd
  have hcount : (l.length + n - 1) / n = k := by
    rw [hk, Nat.mul_comm]
    exact Nat.div_eq_of_lt_le (by omega) (by rw [Nat.succ_mul]; omega)
  rw [chunks, hcount, List.forall_mem_map]
  intro i hi
  have hle : (i + 1) * n ≤ l.length :=
    hk ▸ Nat.mul_comm n k ▸ Nat.mul_le_mul_right n (List.mem_range.mp hi)
  rw [Nat.succ_mul] at hle
  rw [List.length_take, List.length_drop]
  omega

end
