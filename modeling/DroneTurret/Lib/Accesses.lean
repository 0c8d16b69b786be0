import DroneTurret.Lib.CString

/-!
# The accesses of `strlen` and `strtok`

The indices at which the string functions look at an array, and write to it. They are integers: a
program that computes an index from a length may come out in front of the array. A function that
stops at the NUL makes no access behind it, so one NUL anywhere behind the start bounds them all,
and it is still there afterwards, because `strtok` writes nothing but NULs.

## Main definitions

* `CString.strlenAccesses`, `CString.strtokAccesses`, `CString.tokenAccesses`

## Main results

* `CString.NulAt.tokenLoop` — the token loop stays in front of a NUL
-/

namespace CString

/-- The indices from `p` to `p + n`. -/
def span (p n : ℕ) : List ℤ := (List.range (n + 1)).map fun i => ((p + i : ℕ) : ℤ)

theorem mem_span {p n : ℕ} {i : ℤ} : i ∈ span p n ↔ (p : ℤ) ≤ i ∧ i ≤ p + n := by
  rw [span, List.mem_map]
  constructor
  · rintro ⟨k, hk, rfl⟩
    rw [List.mem_range] at hk
    omega
  · rintro ⟨hle, hle'⟩
    exact ⟨(i - p).toNat, List.mem_range.mpr (by omega), by omega⟩

/-- A string is read from its first byte to its terminator, by `strlen` as by `printf("%s")`. -/
def strlenAccesses (buf : List Byte) (p : ℕ) : List ℤ := span p (stringAt buf p).length

variable (delim : Byte → Bool)

/-- `strtok` resuming at offset `p` reads up to the end of the token, or to the end of the string
when there is none. A delimiter that it overwrites is the last byte it has read. -/
def strtokAccesses (buf : List Byte) (p : ℕ) : List ℤ :=
  let scan := stringAt buf p
  let start := (scan.takeWhile delim).length
  span p (start + ((scan.dropWhile delim).takeWhile fun b => !delim b).length)

/-- The calls of the token loop. -/
def tokenAccesses : (n : ℕ) → (buf : List Byte) → (p : ℕ) → List ℤ
  | 0, _, _ => []
  | n + 1, buf, p =>
    strtokAccesses delim buf p ++
      match strtok delim buf p with
      | none => []
      | some (_, buf', p') => tokenAccesses n buf' p'

variable {delim}

/-- A NUL at `q`. -/
def NulAt (buf : List Byte) (q : ℕ) : Prop := buf[q]? = some 0

/-- The string at an offset ends at the NUL, or earlier. -/
theorem NulAt.length_stringAt {buf : List Byte} {p q : ℕ} (h : NulAt buf q) (hp : p ≤ q) :
    p + (stringAt buf p).length ≤ q := by
  have hget : (buf.drop p)[q - p]? = some 0 := by
    rw [List.getElem?_drop, Nat.add_sub_cancel' hp]
    exact h
  by_contra hlt
  have hprefix : (cString (buf.drop p))[q - p]? = some 0 := by
    obtain ⟨rest, hrest, -⟩ := cString_append_drop (buf.drop p)
    rw [hrest, List.getElem?_append_left (by rw [stringAt] at hlt; omega)] at hget
    exact hget
  exact zero_notMem_cString _ (List.mem_of_getElem? hprefix)

theorem NulAt.strlen {buf : List Byte} {p q : ℕ} (h : NulAt buf q) (hp : p ≤ q) :
    ∀ i ∈ strlenAccesses buf p, 0 ≤ i ∧ i ≤ q := by
  intro i hi
  have hlen := h.length_stringAt hp
  have := mem_span.mp hi
  omega

theorem NulAt.set {buf : List Byte} {q : ℕ} (h : NulAt buf q) (p : ℕ) : NulAt (buf.set p 0) q := by
  obtain ⟨hlt, -⟩ := List.getElem?_eq_some_iff.mp h
  rw [NulAt, List.getElem?_set]
  split_ifs with heq hp
  · rfl
  · exact absurd (heq ▸ hlt) hp
  · exact h

/-- The two parts of a scan are no longer than the string. -/
theorem length_scan_le (delim : Byte → Bool) (scan : List Byte) :
    (scan.takeWhile delim).length +
      ((scan.dropWhile delim).takeWhile fun b => !delim b).length ≤ scan.length := by
  have hword : ((scan.dropWhile delim).takeWhile fun b => !delim b).length ≤
      (scan.dropWhile delim).length := (List.takeWhile_prefix _).length_le
  have hsplit := congrArg List.length (List.takeWhile_append_dropWhile (p := delim) (l := scan))
  rw [List.length_append] at hsplit
  omega

/-- **One call** stays in front of a NUL, leaves it there, and resumes in front of it. -/
theorem NulAt.strtok {buf : List Byte} {p q : ℕ} (h : NulAt buf q) (hp : p ≤ q) :
    (∀ i ∈ strtokAccesses delim buf p, 0 ≤ i ∧ i ≤ q) ∧
      ∀ t buf' p', strtok delim buf p = some (t, buf', p') → NulAt buf' q ∧ t ≤ q ∧ p' ≤ q := by
  have hlen := h.length_stringAt hp
  have hscan := length_scan_le delim (stringAt buf p)
  constructor
  · intro i hi
    have := mem_span.mp hi
    omega
  · intro t buf' p' hcall
    rw [CString.strtok] at hcall
    split_ifs at hcall
    · obtain ⟨rfl, rfl, rfl⟩ : _ ∧ _ ∧ _ := by simpa using hcall
      exact ⟨h.set _, by omega, by omega⟩
    · obtain ⟨rfl, rfl, rfl⟩ : _ ∧ _ ∧ _ := by simpa using hcall
      exact ⟨h, by omega, by omega⟩

/-- **The loop** stays in front of a NUL, leaves it there, and stores offsets in front of it. -/
theorem NulAt.tokenLoop {q : ℕ} (n i : ℕ) {arr : List (Option ℕ)} {buf : List Byte} {p : ℕ}
    (h : NulAt buf q) (hp : p ≤ q) (harr : ∀ t, some t ∈ arr → t ≤ q) :
    (∀ j ∈ tokenAccesses delim n buf p, 0 ≤ j ∧ j ≤ q) ∧
      NulAt (tokenLoop delim n i arr buf p).2.2 q ∧
      ∀ t, some t ∈ (tokenLoop delim n i arr buf p).2.1 → t ≤ q := by
  induction n generalizing i arr buf p with
  | zero => exact ⟨List.forall_mem_nil _, h, harr⟩
  | succ n ih =>
    obtain ⟨hfirst, hnext⟩ := @NulAt.strtok delim buf p q h hp
    rw [tokenAccesses, CString.tokenLoop]
    cases hcall : CString.strtok delim buf p with
    | none => exact ⟨by simpa using hfirst, h, harr⟩
    | some r =>
      obtain ⟨t, buf', p'⟩ := r
      obtain ⟨h', ht, hp'⟩ := hnext t buf' p' hcall
      have harr' : ∀ u, some u ∈ arr.set i (some t) → u ≤ q := by
        intro u hu
        rcases List.mem_or_eq_of_mem_set hu with hu | hu
        · exact harr u hu
        · rwa [Option.some.inj hu]
      obtain ⟨hrest, hkept⟩ := ih (i + 1) h' hp' harr'
      exact ⟨List.forall_mem_append.mpr ⟨hfirst, hrest⟩, hkept⟩

end CString
