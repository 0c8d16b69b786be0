import Mathlib.Data.List.DropRight

/-!
# The last elements of a list

A bounded window on a list that grows at its end consists of the last elements, `List.rtake`. It can
be kept up to date from the window alone.

## Main results

* `rtake_append_rtake` — the window on a longer list
* `ite_eq_rtake` — the test before the elements in front are dropped
* `rtake_sublist_rtake` — the window on a part of a list lies in a larger window on the list
-/

section

variable {α : Type*}

theorem rtake_of_length_le {n : ℕ} {l : List α} (h : l.length ≤ n) : l.rtake n = l := by
  rw [List.rtake, Nat.sub_eq_zero_of_le h, List.drop_zero]

/-- What was dropped from a list is not among the last elements of a longer one. -/
theorem rtake_append_rtake (n : ℕ) (l m : List α) :
    (l.rtake n ++ m).rtake n = (l ++ m).rtake n := by
  rw [List.rtake, List.rtake, List.rtake, ← List.drop_append_of_le_length (by omega),
    List.drop_drop, List.length_drop, List.length_append]
  congr 1
  omega

theorem getLast?_rtake {n : ℕ} (hn : 0 < n) (l : List α) : (l.rtake n).getLast? = l.getLast? := by
  rw [List.rtake, List.getLast?_drop]
  split
  · rename_i h
    have hnil : l.length = 0 := by omega
    rw [List.length_eq_zero_iff.mp hnil]
    rfl
  · rfl

theorem rtake_eq_nil_iff {n : ℕ} (hn : 0 < n) {l : List α} : l.rtake n = [] ↔ l = [] := by
  rw [List.rtake, List.drop_eq_nil_iff]
  constructor
  · intro h
    have hnil : l.length = 0 := by omega
    exact List.length_eq_zero_iff.mp hnil
  · rintro rfl
    exact Nat.zero_le _

theorem rtake_rtake (n : ℕ) (l : List α) : (l.rtake n).rtake n = l.rtake n := by
  have h := rtake_append_rtake n l []
  rwa [List.append_nil, List.append_nil] at h

theorem ite_eq_rtake (n : ℕ) (l : List α) :
    (if n < l.length then l.drop (l.length - n) else l) = l.rtake n := by
  split
  · rfl
  · rename_i h
    exact (rtake_of_length_le (Nat.not_lt.mp h)).symm

theorem rtake_min_length (n : ℕ) (l : List α) : l.rtake (min n l.length) = l.rtake n := by
  rw [List.rtake, List.rtake]
  congr 1
  omega

theorem take_sublist_take {l l' : List α} (h : l.Sublist l') {m n : ℕ}
    (hn : m + (l'.length - l.length) ≤ n) : (l.take m).Sublist (l'.take n) := by
  induction h generalizing m n with
  | slnil =>
    rw [List.take_nil]
    exact List.nil_sublist _
  | @cons l l' a h ih =>
    -- an element of the longer list only, for which the larger window has room
    have hle := h.length_le
    rw [List.length_cons] at hn
    obtain ⟨n, rfl⟩ : ∃ k, n = k + 1 := ⟨n - 1, by omega⟩
    rw [List.take_succ_cons]
    exact (ih (by omega)).cons a
  | @cons_cons l l' a h ih =>
    cases m with
    | zero => exact List.nil_sublist _
    | succ m =>
      rw [List.length_cons, List.length_cons] at hn
      obtain ⟨n, rfl⟩ : ∃ k, n = k + 1 := ⟨n - 1, by omega⟩
      rw [List.take_succ_cons, List.take_succ_cons]
      exact (ih (by omega)).cons_cons a

/-- **A window on part of a list** lies in the window on the list that has room for the rest. -/
theorem rtake_sublist_rtake {l l' : List α} (h : l.Sublist l') {m n : ℕ}
    (hn : m + (l'.length - l.length) ≤ n) : (l.rtake m).Sublist (l'.rtake n) := by
  rw [List.rtake_eq_reverse_take_reverse, List.rtake_eq_reverse_take_reverse]
  refine (take_sublist_take h.reverse ?_).reverse
  rwa [List.length_reverse, List.length_reverse]

theorem rtake_suffix_rtake_append (n : ℕ) (l m : List α) :
    m.rtake n <:+ (l ++ m).rtake n := by
  have hplace : m.length - n = l.length + m.length - n - l.length := by omega
  rw [List.rtake, List.rtake, List.drop_append, List.length_append, ← hplace]
  exact List.suffix_append _ _

end
