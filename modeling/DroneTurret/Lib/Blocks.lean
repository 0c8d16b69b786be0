import Mathlib.Algebra.Ring.Nat
import Mathlib.Data.Int.Basic
import Mathlib.Data.List.Basic

/-!
# Blocks of an array

An array is the list of its elements. `store` puts a block into it, whose elements have been taken
before, so it is `memcpy` as well as `memmove`. A block that does not fit makes the list longer,
which is how a store outside the array shows.

## Main definitions

* `Blocks.store` — a block put into an array
* `Blocks.Access` — a block that is read or written
* `Blocks.sizeDiff` — a difference of pointers as a size

## Main results

* `Blocks.store_set`, `Blocks.store_zero_set` — a block with a terminator behind it
* `Blocks.sizeDiff_eq` — the differences that do not wrap around
-/

namespace Blocks

variable {α : Type*}

/-- The array with `t` at `p`. -/
def store (s : List α) (p : ℕ) (t : List α) : List α := s.take p ++ t ++ s.drop (p + t.length)

theorem length_store {s t : List α} {p : ℕ} (h : p + t.length ≤ s.length) :
    (store s p t).length = s.length := by
  rw [store, List.length_append, List.length_append, List.length_take, List.length_drop]
  omega

theorem store_zero (s t : List α) : store s 0 t = t ++ s.drop t.length := by
  rw [store, List.take_zero, List.nil_append, Nat.zero_add]

/-- A block with a terminator behind it. -/
theorem store_set {s t : List α} {p : ℕ} (h : p + t.length < s.length) (b : α) :
    (store s p t).set (p + t.length) b =
      s.take p ++ t ++ b :: s.drop (p + t.length + 1) := by
  have hlen : (s.take p ++ t).length = p + t.length := by
    rw [List.length_append, List.length_take]
    omega
  rw [store, List.set_append_right _ _ (by omega), hlen, Nat.sub_self,
    List.drop_eq_getElem_cons h, List.set_cons_zero]

/-- A block at the front, with a terminator behind it. -/
theorem store_zero_set {s t : List α} (h : t.length < s.length) (b : α) :
    (store s 0 t).set t.length b = t ++ b :: s.drop (t.length + 1) := by
  have hset := store_set (s := s) (t := t) (p := 0) (by omega) b
  rwa [Nat.zero_add, List.take_zero, List.nil_append] at hset

/-- A block of an array. -/
structure Access (ι : Type*) where
  array : ι
  offset : ℕ
  count : ℕ
  deriving DecidableEq

/-- The block is a part of its array. -/
def Access.Inside {ι : Type*} (size : ι → ℕ) (a : Access ι) : Prop :=
  a.offset + a.count ≤ size a.array

instance {ι : Type*} (size : ι → ℕ) (a : Access ι) : Decidable (a.Inside size) :=
  inferInstanceAs (Decidable (_ ≤ _))

/-- `(size_t)(p - q)`. -/
def sizeDiff (p q : ℕ) : ℕ := (BitVec.ofInt 64 ((p : ℤ) - q)).toNat

/-- The difference of pointers in order. -/
theorem sizeDiff_eq {p q : ℕ} (hq : q ≤ p) (hp : p < 2 ^ 64) : sizeDiff p q = p - q := by
  have hdiff : (p : ℤ) - q = (p - q : ℕ) := (Int.ofNat_sub hq).symm
  rw [sizeDiff, hdiff, BitVec.ofInt_natCast, BitVec.toNat_ofNat]
  exact Nat.mod_eq_of_lt (Nat.lt_of_le_of_lt (Nat.sub_le p q) hp)

end Blocks
