import DroneTurret.Lib.CString
import Mathlib.Data.Nat.Digits.Lemmas
import Mathlib.Data.Rat.Floor

/-!
# Decimal numerals as bytes

What `%d`, `%0nd` and `%.nf` print for a number, and the number that a list of digits stands for.
`value` reads from the left, as a parser does. Printing with `n` decimals rounds to the nearest
number that has them, and to the even one of two.

## Main results

* `value_digits`, `value_padded` — a numeral stands for the number it was printed for
* `value_append` — how the value of a longer numeral is composed
* `length_digits_le`, `length_padded`, `length_paddedInt_le` — the widths
* `fixed_eq` — the two numerals of a number printed with decimals, and what they stand for
-/

namespace Decimal

/-- The digit of a number below ten. -/
def digit (d : ℕ) : Byte := (48 + d).toUInt8

def isDigit (b : Byte) : Bool := 48 ≤ b && b ≤ 57

/-- The numeral of a number, without leading zeros. -/
def digits (n : ℕ) : List Byte :=
  if n = 0 then [digit 0] else ((Nat.digits 10 n).map digit).reverse

/-- The numeral filled up with zeros to a width. -/
def padded (w n : ℕ) : List Byte := List.replicate (w - (digits n).length) (digit 0) ++ digits n

/-- The numeral of an integer filled up with zeros to a width, the sign included. -/
def paddedInt (w : ℕ) (n : ℤ) : List Byte :=
  if n < 0 then CString.bytes "-" ++ padded (w - 1) n.natAbs else padded w n.natAbs

/-- The number that a list of digits stands for. -/
def value (s : List Byte) : ℕ := s.foldl (fun v b => 10 * v + (b.toNat - 48)) 0

theorem isDigit_digit {d : ℕ} (h : d < 10) : isDigit (digit d) = true := by
  interval_cases d <;> rfl

/-- Every digit is that of a number. -/
theorem exists_digit {b : Byte} (h : isDigit b = true) : ∃ d, d < 10 ∧ b = digit d := by
  simp only [isDigit, Bool.and_eq_true, decide_eq_true_eq, UInt8.le_iff_toNat_le] at h
  obtain ⟨hlo, hhi⟩ := h
  change 48 ≤ b.toNat at hlo
  change b.toNat ≤ 57 at hhi
  refine ⟨b.toNat - 48, by omega, ?_⟩
  rw [digit, show 48 + (b.toNat - 48) = b.toNat by omega]
  exact UInt8.ofNat_toNat.symm

theorem toNat_digit {d : ℕ} (h : d < 10) : (digit d).toNat - 48 = d := by
  interval_cases d <;> rfl

theorem isDigit_of_mem_digits {n : ℕ} {b : Byte} (h : b ∈ digits n) : isDigit b = true := by
  rw [digits] at h
  split at h
  · rw [List.mem_singleton.mp h]
    rfl
  · obtain ⟨d, hd, rfl⟩ := List.mem_map.mp (List.mem_reverse.mp h)
    exact isDigit_digit (Nat.digits_lt_base (by decide) hd)

theorem digits_ne_nil (n : ℕ) : digits n ≠ [] := by
  rw [digits]
  split
  · exact List.cons_ne_nil _ _
  · rename_i hn
    have hne : Nat.digits 10 n ≠ [] := Nat.digits_ne_nil_iff_ne_zero.mpr hn
    simpa using hne

theorem isDigit_of_mem_padded {w n : ℕ} {b : Byte} (h : b ∈ padded w n) : isDigit b = true := by
  rcases List.mem_append.mp h with h | h
  · rw [List.eq_of_mem_replicate h]
    rfl
  · exact isDigit_of_mem_digits h

/-! ### Values -/

theorem value_concat (s : List Byte) (b : Byte) :
    value (s ++ [b]) = 10 * value s + (b.toNat - 48) := by
  rw [value, List.foldl_append]
  rfl

/-- Digits behind a numeral shift it. -/
theorem value_append (s t : List Byte) : value (s ++ t) = value s * 10 ^ t.length + value t := by
  induction t using List.reverseRecOn with
  | nil => simp [value]
  | append_singleton t b ih =>
    rw [← List.append_assoc, value_concat, ih, value_concat, List.length_append,
      List.length_singleton, Nat.pow_succ]
    ring

/-- The value of digits given in ascending order of their weight. -/
theorem value_map_digit {l : List ℕ} (h : ∀ d ∈ l, d < 10) :
    value (l.map digit).reverse = Nat.ofDigits 10 l := by
  induction l with
  | nil => rfl
  | cons d l ih =>
    rw [List.map_cons, List.reverse_cons, value_concat, toNat_digit (h d List.mem_cons_self),
      ih fun e he => h e (List.mem_cons_of_mem d he), Nat.ofDigits_cons]
    exact Nat.add_comm _ _

@[simp] theorem value_digits (n : ℕ) : value (digits n) = n := by
  rw [digits]
  split
  · rename_i hn
    exact hn.symm
  · rw [value_map_digit fun d hd => Nat.digits_lt_base (by decide) hd, Nat.ofDigits_digits]

theorem value_replicate_zero (k : ℕ) : value (List.replicate k (digit 0)) = 0 := by
  induction k with
  | zero => rfl
  | succ k ih =>
    rw [List.replicate_succ', value_concat, ih]
    rfl

@[simp] theorem value_padded (w n : ℕ) : value (padded w n) = n := by
  rw [padded, value_append, value_replicate_zero, value_digits, Nat.zero_mul, Nat.zero_add]

/-! ### Widths -/

theorem length_digits_le {w n : ℕ} (hw : 0 < w) (h : n < 10 ^ w) : (digits n).length ≤ w := by
  rw [digits]
  split
  · exact hw
  · rw [List.length_reverse, List.length_map]
    exact (Nat.digits_length_le_iff (by decide) n).mpr h

theorem length_padded {w n : ℕ} (hw : 0 < w) (h : n < 10 ^ w) : (padded w n).length = w := by
  have hlen := length_digits_le hw h
  rw [padded, List.length_append, List.length_replicate]
  omega

/-- A numeral is no longer than the widest one of its range. -/
theorem length_padded_le {w k n : ℕ} (hk : 0 < k) (hw : w ≤ k) (h : n < 10 ^ k) :
    (padded w n).length ≤ k := by
  have hlen := length_digits_le hk h
  rw [padded, List.length_append, List.length_replicate]
  omega

theorem length_paddedInt_le {w k : ℕ} {n : ℤ} (hk : 0 < k) (hw : w ≤ k) (h : n.natAbs < 10 ^ k) :
    (paddedInt w n).length ≤ k + 1 := by
  rw [paddedInt]
  split
  · have hlen := length_padded_le hk ((Nat.sub_le w 1).trans hw) h
    rw [List.length_append]
    change 1 + _ ≤ _
    omega
  · exact (length_padded_le hk hw h).trans (Nat.le_succ k)

/-! ### Decimals -/

/-- The nearest integer, and of two the even one. -/
def roundHalfEven (q : ℚ) : ℤ :=
  if Int.fract q < 1 / 2 then ⌊q⌋
  else if 1 / 2 < Int.fract q then ⌊q⌋ + 1
  else if ⌊q⌋ % 2 = 0 then ⌊q⌋
  else ⌊q⌋ + 1

/-- The nearest number with `w` decimals. -/
def roundTo (w : ℕ) (q : ℚ) : ℚ := roundHalfEven (q * 10 ^ w) / 10 ^ w

/-- `%.wf`, for `w` at least one. -/
def fixed (w : ℕ) (q : ℚ) : List Byte :=
  let m := (roundHalfEven (|q| * 10 ^ w)).natAbs
  (if q < 0 then CString.bytes "-" else []) ++ digits (m / 10 ^ w) ++ CString.bytes "." ++
    padded w (m % 10 ^ w)

theorem floor_le_roundHalfEven (q : ℚ) : ⌊q⌋ ≤ roundHalfEven q := by
  rw [roundHalfEven]
  split_ifs <;> omega

theorem roundHalfEven_le (q : ℚ) : roundHalfEven q ≤ ⌊q⌋ + 1 := by
  rw [roundHalfEven]
  split_ifs <;> omega

theorem roundHalfEven_nonneg {q : ℚ} (h : 0 ≤ q) : 0 ≤ roundHalfEven q :=
  (Int.floor_nonneg.mpr h).trans (floor_le_roundHalfEven q)

/-- Rounding goes no further than the next integer. -/
theorem roundHalfEven_le_of_lt {q : ℚ} {n : ℤ} (h : q < n) : roundHalfEven q ≤ n := by
  have hfloor : ⌊q⌋ < n := Int.floor_lt.mpr h
  have hround := roundHalfEven_le q
  omega

/-- The numeral of a number that is not negative: its two parts, and what they stand for. -/
theorem fixed_eq (w : ℕ) {q : ℚ} (h : 0 ≤ q) :
    ∃ i f, fixed w q = digits i ++ CString.bytes "." ++ padded w f ∧ f < 10 ^ w ∧
      (i : ℚ) + f / 10 ^ w = roundTo w q ∧ ∀ n : ℕ, q < n → i ≤ n := by
  have hpow : (0 : ℚ) < 10 ^ w := pow_pos (by norm_num) w
  obtain ⟨m, hm⟩ := Int.eq_ofNat_of_zero_le
    (roundHalfEven_nonneg (mul_nonneg h hpow.le))
  refine ⟨m / 10 ^ w, m % 10 ^ w, ?_, Nat.mod_lt _ (Nat.pow_pos (by decide)), ?_, ?_⟩
  · rw [fixed, abs_of_nonneg h, if_neg (not_lt.mpr h), hm]
    rfl
  · have hdiv : ((m / 10 ^ w : ℕ) : ℚ) * 10 ^ w + ((m % 10 ^ w : ℕ) : ℚ) = m := by
      exact_mod_cast Nat.div_add_mod' m (10 ^ w)
    rw [roundTo, hm]
    field_simp
    rw [hdiv]
    norm_cast
  · intro n hn
    have hlt : q * 10 ^ w < ((n * 10 ^ w : ℕ) : ℤ) := by
      push_cast
      exact mul_lt_mul_of_pos_right hn hpow
    have hround := roundHalfEven_le_of_lt hlt
    rw [hm] at hround
    exact Nat.div_le_of_le_mul (by rw [Nat.mul_comm]; exact_mod_cast hround)

end Decimal
