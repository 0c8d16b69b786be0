import Mathlib.Order.Lattice
import Mathlib.Data.List.Chain

/-!
# Throttled calls

A call is let through unless it comes less than `d` after the last one that was. The times are those
of a clock that may go back.

## Main definitions

* `throttle` — the calls that are let through

## Main results

* `isChain_throttle` — they are that far apart
* `exists_of_not_mem_throttle` — any other comes too early after one of them
-/

namespace DroneTurret

namespace Throttle

variable {K α : Type*} [Sub K] [LinearOrder K]

/-- The test for a call at `t`, where the last call that was let through was at `last`. -/
def passes (d : K) (last : Option K) (t : K) : Bool := last.all fun s => !decide (t - s < d)

theorem passes_some {d s t : K} : passes d (some s) t = true ↔ d ≤ t - s := by
  rw [passes, Option.all_some, Bool.not_eq_true', decide_eq_false_iff_not, not_lt]

theorem passes_eq_false_iff {d t : K} {last : Option K} :
    passes d last t = false ↔ ∃ s ∈ last, t - s < d := by
  cases last with
  | none => simp [passes]
  | some s =>
    rw [← Bool.not_eq_true, passes_some, not_le]
    exact ⟨fun h => ⟨s, rfl, h⟩, fun ⟨_, rfl, h⟩ => h⟩

/-- The calls, with their times, that are let through. -/
def throttle (d : K) : Option K → List (K × α) → List (K × α)
  | _, [] => []
  | last, c :: cs =>
    if passes d last c.1 then c :: throttle d (some c.1) cs else throttle d last cs

theorem throttle_sublist (d : K) (last : Option K) (calls : List (K × α)) :
    (throttle d last calls).Sublist calls := by
  induction calls generalizing last with
  | nil => exact .refl _
  | cons c cs ih =>
    rw [throttle]
    split
    · exact (ih _).cons_cons c
    · exact (ih _).cons c

/-- The first call that is let through comes late enough. -/
theorem passes_of_head?_throttle {d : K} {last : Option K} {calls : List (K × α)} {c : K × α}
    (h : (throttle d last calls).head? = some c) : passes d last c.1 = true := by
  induction calls with
  | nil => cases h
  | cons c' cs ih =>
    rw [throttle] at h
    split at h
    · rename_i hpass
      rw [List.head?_cons, Option.some.injEq] at h
      rwa [← h]
    · exact ih h

/-- **The calls that are let through are far apart.** -/
theorem isChain_throttle (d : K) (last : Option K) (calls : List (K × α)) :
    (throttle d last calls).IsChain fun c c' => d ≤ c'.1 - c.1 := by
  induction calls generalizing last with
  | nil => exact .nil
  | cons c cs ih =>
    rw [throttle]
    split
    · refine List.isChain_cons.mpr ⟨fun c' hc' => ?_, ih _⟩
      exact passes_some.mp (passes_of_head?_throttle hc')
    · exact ih _

/-- **Any other call comes too early** after one that was let through. -/
theorem exists_of_not_mem_throttle {d : K} {last : Option K} {front back : List (K × α)} {c : K × α}
    (h : c ∉ throttle d last (front ++ c :: back)) :
    (∃ s ∈ last, c.1 - s < d) ∨
      ∃ c' ∈ front, c' ∈ throttle d last (front ++ c :: back) ∧ c.1 - c'.1 < d := by
  induction front generalizing last with
  | nil =>
    rw [List.nil_append, throttle] at h
    split at h
    · exact absurd List.mem_cons_self h
    · rename_i hpass
      exact .inl (passes_eq_false_iff.mp ((Bool.not_eq_true _).mp hpass))
  | cons b front ih =>
    rw [List.cons_append, throttle] at h ⊢
    split at h
    · rename_i hpass
      rw [if_pos hpass]
      have hrest : c ∉ throttle d (some b.1) (front ++ c :: back) :=
        fun hmem => h (List.mem_cons_of_mem _ hmem)
      rcases ih hrest with ⟨s, hs, hlt⟩ | ⟨c', hc', hmem, hlt⟩
      · cases hs
        exact .inr ⟨b, List.mem_cons_self, List.mem_cons_self, hlt⟩
      · exact .inr ⟨c', List.mem_cons_of_mem _ hc', List.mem_cons_of_mem _ hmem, hlt⟩
    · rename_i hpass
      rw [if_neg hpass]
      rcases ih h with hlast | ⟨c', hc', hmem, hlt⟩
      · exact .inl hlast
      · exact .inr ⟨c', List.mem_cons_of_mem _ hc', hmem, hlt⟩

end Throttle

end DroneTurret
