import DroneTurret.DbClient.Receive
import DroneTurret.Lib.Accesses
import DroneTurret.Lib.Blocks

/-!
# Trimming a string in place

`ltrim_inplace` moves the string one place to the front for every blank at its beginning.
`rtrim_inplace` overwrites the blanks at the end with NULs. Both work on the array itself, and the
blocks of it that they use are recorded. What stands in the array is a string with a NUL behind it
all the time, and nothing behind the first such NUL is used.

## Main definitions

* `ltrimInplace`, `rtrimInplace` — the two functions, with the blocks they use

## Main results

* `ltrimInplace_leaves`, `rtrimInplace_leaves` — the string that is left, and how far the blocks go
-/

namespace DroneTurret

namespace DbClient

open Blocks CString Relay

/-! ### The program -/

/-- `while(*s && isspace((unsigned char)*s)) memmove(s, s+1, strlen(s))`, for at most `n` rounds. A
block is an offset and a number of bytes. -/
def ltrimLoop : (n : ℕ) → (s : List Byte) → List Byte × List (ℕ × ℕ)
  | 0, s => (s, [])
  | n + 1, s =>
    if s.getD 0 0 ≠ 0 ∧ isSpace (s.getD 0 0) then
      let len := (cString s).length
      let r := ltrimLoop n (store s 0 ((s.drop 1).take len))
      (r.1, (0, 1) :: (0, len + 1) :: (1, len) :: (0, len) :: r.2)
    else (s, [(0, 1)])

/-- Every round takes one byte off the string. -/
def ltrimInplace (s : List Byte) : List Byte × List (ℕ × ℕ) := ltrimLoop s.length s

/-- `while(n>0 && isspace((unsigned char)s[n-1])) s[--n]='\0'`. -/
def rtrimLoop : (n : ℕ) → (s : List Byte) → List Byte × List (ℕ × ℕ)
  | 0, s => (s, [])
  | n + 1, s =>
    if isSpace (s.getD n 0) then
      let r := rtrimLoop n (s.set n 0)
      (r.1, (n, 1) :: (n, 1) :: r.2)
    else (s, [(n, 1)])

/-- `size_t n=strlen(s)`, and the loop. -/
def rtrimInplace (s : List Byte) : List Byte × List (ℕ × ℕ) :=
  let n := (cString s).length
  let r := rtrimLoop n s
  (r.1, (0, n + 1) :: r.2)

/-! ### At the front -/

/-- The string is moved together with its NUL. -/
theorem store_tail {b : Byte} {u : List Byte} (hb : 0 ∉ b :: u) (rest : List Byte) :
    store (b :: u ++ 0 :: rest) 0
      (((b :: u ++ 0 :: rest).drop 1).take (cString (b :: u ++ 0 :: rest)).length) =
      u ++ 0 :: 0 :: rest := by
  have htake : ((b :: u ++ 0 :: rest).drop 1).take (b :: u).length = u ++ [0] := by
    rw [List.cons_append, List.drop_succ_cons, List.drop_zero, List.length_cons, List.take_append,
      List.take_of_length_le (Nat.le_succ _), Nat.add_sub_cancel_left]
    rfl
  rw [cString_append_zero hb, htake, store_zero, List.length_append, List.length_singleton,
    List.append_assoc, ← List.length_cons (a := b), List.drop_left]
  rfl

/-- One round takes a blank off. -/
theorem ltrimLoop_of_isSpace {b : Byte} {u : List Byte} (hu : 0 ∉ b :: u) (hb : isSpace b) (n : ℕ)
    (rest : List Byte) :
    ltrimLoop (n + 1) (b :: u ++ 0 :: rest) =
      ((ltrimLoop n (u ++ 0 :: 0 :: rest)).1,
        (0, 1) :: (0, u.length + 2) :: (1, u.length + 1) :: (0, u.length + 1) ::
          (ltrimLoop n (u ++ 0 :: 0 :: rest)).2) := by
  have hne : b ≠ 0 := fun h => hu (h ▸ List.mem_cons_self)
  have hstring : (cString (b :: u ++ 0 :: rest)).length = u.length + 1 := by
    rw [cString_append_zero hu, List.length_cons]
  rw [ltrimLoop, if_pos ⟨hne, hb⟩]
  dsimp only
  rw [store_tail hu, hstring]

/-- The last test. -/
theorem ltrimLoop_of_not_isSpace {s : List Byte} (h : ¬isSpace (s.getD 0 0)) (n : ℕ) :
    ltrimLoop (n + 1) s = (s, [(0, 1)]) := by
  rw [ltrimLoop, if_neg fun hs => h hs.2]

/-- **The loop**, by induction on the string that is left. -/
theorem ltrimLoop_eq {u : List Byte} (hu : 0 ∉ u) {n : ℕ} (hn : u.length < n) (rest : List Byte) :
    (∃ rest', (ltrimLoop n (u ++ 0 :: rest)).1 = u.dropWhile isSpace ++ 0 :: rest' ∧
      (u.dropWhile isSpace ++ rest').length = (u ++ rest).length) ∧
      ∀ x ∈ (ltrimLoop n (u ++ 0 :: rest)).2, x.1 + x.2 ≤ u.length + 1 := by
  induction u generalizing n rest with
  | nil =>
    obtain ⟨n, rfl⟩ : ∃ m, n = m + 1 := Nat.exists_eq_succ_of_ne_zero (Nat.ne_zero_of_lt hn)
    have hzero : ¬isSpace (([] ++ 0 :: rest).getD 0 0) := Bool.false_ne_true
    rw [ltrimLoop_of_not_isSpace hzero]
    exact ⟨⟨rest, rfl, rfl⟩, List.forall_mem_singleton.mpr (Nat.le_refl _)⟩
  | cons b u ih =>
    obtain ⟨n, rfl⟩ : ∃ m, n = m + 1 := Nat.exists_eq_succ_of_ne_zero (Nat.ne_zero_of_lt hn)
    by_cases hspace : isSpace b
    · rw [ltrimLoop_of_isSpace hu hspace, List.dropWhile_cons_of_pos hspace]
      obtain ⟨⟨rest', heq, hlen⟩, hbound⟩ := ih (fun h => hu (List.mem_cons_of_mem b h))
        (Nat.lt_of_succ_lt_succ hn) (0 :: rest)
      refine ⟨⟨rest', heq, ?_⟩, ?_⟩
      · rw [hlen, List.length_append, List.length_append, List.length_cons, List.length_cons]
        omega
      · simp only [List.length_cons, List.forall_mem_cons]
        refine ⟨by omega, by omega, by omega, by omega, fun x hx => ?_⟩
        have := hbound x hx
        omega
    · have hfirst : ¬isSpace ((b :: u ++ 0 :: rest).getD 0 0) := hspace
      rw [ltrimLoop_of_not_isSpace hfirst, List.dropWhile_cons_of_neg hspace]
      exact ⟨⟨rest, rfl, rfl⟩, List.forall_mem_singleton.mpr (Nat.le_add_left _ _)⟩

/-! ### At the end -/

/-- **The loop**, by induction on the string from its end. -/
theorem rtrimLoop_eq (u rest : List Byte) :
    (∃ rest', (rtrimLoop u.length (u ++ 0 :: rest)).1 = u.rdropWhile isSpace ++ 0 :: rest' ∧
      (u.rdropWhile isSpace ++ rest').length = (u ++ rest).length) ∧
      ∀ x ∈ (rtrimLoop u.length (u ++ 0 :: rest)).2, x.1 + x.2 ≤ u.length := by
  induction u using List.reverseRecOn generalizing rest with
  | nil => exact ⟨⟨rest, rfl, rfl⟩, List.forall_mem_nil _⟩
  | append_singleton u b ih =>
    have hget : (u ++ [b] ++ 0 :: rest).getD u.length 0 = b := by simp
    have hset : (u ++ [b] ++ 0 :: rest).set u.length 0 = u ++ 0 :: 0 :: rest := by simp
    rw [List.length_append, List.length_singleton, rtrimLoop, hget, hset]
    by_cases hspace : isSpace b
    · rw [if_pos hspace, List.rdropWhile_concat_pos _ _ _ hspace]
      obtain ⟨⟨rest', heq, hlen⟩, hbound⟩ := ih (0 :: rest)
      refine ⟨⟨rest', heq, ?_⟩, ?_⟩
      · rw [hlen, List.length_append, List.length_append, List.length_append, List.length_cons,
          List.length_singleton]
        omega
      · simp only [List.forall_mem_cons]
        refine ⟨Nat.le_refl _, Nat.le_refl _, fun x hx => ?_⟩
        exact Nat.le_succ_of_le (hbound x hx)
    · rw [if_neg hspace, List.rdropWhile_concat_neg _ _ _ hspace]
      exact ⟨⟨rest, rfl, rfl⟩, List.forall_mem_singleton.mpr (Nat.le_refl _)⟩

/-! ### Both -/

/-- What is known of a string in an array after it has been worked on: it is `v`, and of its old
place nothing has been used but what is in front of the first NUL, and that NUL. -/
structure Leaves (s : List Byte) (r : List Byte × List (ℕ × ℕ)) (v : List Byte) : Prop where
  string : cString r.1 = v
  length : r.1.length = s.length
  nul : 0 ∈ r.1
  blocks : ∀ x ∈ r.2, x.1 + x.2 ≤ (cString s).length + 1

/-- An array with a NUL in it. -/
theorem exists_eq_append_zero {s : List Byte} (h : 0 ∈ s) :
    ∃ u rest, s = u ++ 0 :: rest ∧ 0 ∉ u ∧ cString s = u := by
  obtain ⟨u, rest, rfl, hu⟩ := List.eq_append_cons_of_mem h
  exact ⟨u, rest, rfl, hu, cString_append_zero hu rest⟩

theorem ltrimInplace_leaves {s : List Byte} (h : 0 ∈ s) :
    Leaves s (ltrimInplace s) ((cString s).dropWhile isSpace) := by
  obtain ⟨u, rest, rfl, hu, hstring⟩ := exists_eq_append_zero h
  have hn : u.length < (u ++ 0 :: rest).length := by
    rw [List.length_append, List.length_cons]
    omega
  obtain ⟨⟨rest', heq, hlen⟩, hbound⟩ := ltrimLoop_eq hu hn rest
  have hleft : 0 ∉ u.dropWhile isSpace := fun hmem => hu ((List.dropWhile_suffix _).subset hmem)
  rw [hstring]
  refine ⟨?_, ?_, ?_, by rwa [hstring]⟩
  · rw [ltrimInplace, heq, cString_append_zero hleft]
  · rw [ltrimInplace, heq]
    simp only [List.length_append, List.length_cons] at hlen ⊢
    omega
  · rw [ltrimInplace, heq]
    exact List.mem_append_right _ List.mem_cons_self

theorem rtrimInplace_leaves {s : List Byte} (h : 0 ∈ s) :
    Leaves s (rtrimInplace s) ((cString s).rdropWhile isSpace) := by
  obtain ⟨u, rest, rfl, hu, hstring⟩ := exists_eq_append_zero h
  obtain ⟨⟨rest', heq, hlen⟩, hbound⟩ := rtrimLoop_eq u rest
  have hleft : 0 ∉ u.rdropWhile isSpace := fun hmem => hu ((List.rdropWhile_prefix _ _).subset hmem)
  rw [rtrimInplace, hstring]
  refine ⟨?_, ?_, ?_, ?_⟩
  · dsimp only
    rw [heq, cString_append_zero hleft]
  · dsimp only
    rw [heq]
    simp only [List.length_append, List.length_cons] at hlen ⊢
    omega
  · dsimp only
    rw [heq]
    exact List.mem_append_right _ List.mem_cons_self
  · rw [hstring]
    refine List.forall_mem_cons.mpr ⟨?_, fun x hx => Nat.le_succ_of_le (hbound x hx)⟩
    rw [Nat.zero_add]

end DbClient

end DroneTurret
