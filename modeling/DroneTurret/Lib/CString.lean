import DroneTurret.Lib.Tokens
import Mathlib.Data.List.TakeWhile

/-!
# C strings and `strtok`

A `char` array is a list of bytes; the C string at an offset runs to the first NUL, and an array
without one is read to its end. `strtok` is modelled on the array itself: it returns the offset of
the token, overwrites the delimiter behind it with NUL and remembers where to resume. Offsets
therefore outlive the call that returned them and denote whatever the array holds later, which is
what a pointer kept from an earlier message does.

A store outside an array is dropped, so every function here is total.

## Main definitions

* `CString.stringAt` — the C string at an offset
* `CString.strtok` — one call
* `CString.tokenLoop` — the usual loop that stores the tokens in a pointer array
* `CString.pointee` — the string an entry of the pointer array denotes, if it is not NULL
* `CString.Scanned` — what the loop guarantees: the entries written denote the tokens in order,
  the other entries are the ones that were there, and the array gains no byte except NUL

## Main results

* `CString.scan_cases` — the three ways one call can go, as a decomposition of the array
* `CString.scanned_tokenLoop` — the loop meets its contract
-/

/-- A C `char`, as the eight bits it is. -/
abbrev Byte := UInt8

namespace CString

open Tokens

/-- The bytes of a string literal. -/
def bytes (s : String) : List Byte := s.toList.map fun c => c.toNat.toUInt8

/-- A property of every byte of a list, by evaluating it at each. -/
theorem forall_mem_of_all {p : Byte → Prop} [DecidablePred p] {l : List Byte}
    (h : (l.all fun b => decide (p b)) = true) : ∀ b ∈ l, p b := by
  simpa [List.all_eq_true] using h

/-- The bytes before the first NUL. -/
def cString (buf : List Byte) : List Byte := buf.takeWhile fun b => b != 0

/-- The C string at offset `p`. -/
def stringAt (buf : List Byte) (p : ℕ) : List Byte := cString (buf.drop p)

@[simp] theorem cString_nil : cString [] = [] := rfl

theorem cString_of_not_mem {s : List Byte} (h : 0 ∉ s) : cString s = s :=
  List.takeWhile_eq_self_iff.mpr fun b hb => by
    simpa using fun h0 : b = 0 => h (h0 ▸ hb)

/-- A NUL ends the string. -/
theorem cString_append_zero {s : List Byte} (h : 0 ∉ s) (rest : List Byte) :
    cString (s ++ 0 :: rest) = s := by
  rw [cString, List.takeWhile_append_of_pos]
  · simp
  · intro b hb
    simpa using fun h0 : b = 0 => h (h0 ▸ hb)

theorem cString_append_of_not_mem {s : List Byte} (h : 0 ∉ s) (rest : List Byte) :
    cString (s ++ rest) = s ++ cString rest := by
  rw [cString, List.takeWhile_append_of_pos, cString]
  intro b hb
  simpa using fun h0 : b = 0 => h (h0 ▸ hb)

theorem cString_append_of_mem {y : List Byte} (h0 : 0 ∈ y) (z : List Byte) :
    cString (y ++ z) = cString y := by
  obtain ⟨u, v, rfl, hu⟩ := List.eq_append_cons_of_mem h0
  rw [List.append_assoc, List.cons_append, cString_append_zero hu, cString_append_zero hu]

theorem cString_prefix (y z : List Byte) : ∃ w, cString (y ++ z) = cString y ++ w := by
  by_cases h0 : 0 ∈ y
  · exact ⟨[], by rw [cString_append_of_mem h0, List.append_nil]⟩
  · exact ⟨cString z, by rw [cString_append_of_not_mem h0, cString_of_not_mem h0]⟩

/-- A NUL at the end does not add to a string. -/
theorem cString_append_zero_cons (u rest : List Byte) :
    cString (u ++ 0 :: rest) = cString u := by
  by_cases h0 : 0 ∈ u
  · exact cString_append_of_mem h0 _
  · rw [cString_append_zero h0, cString_of_not_mem h0]

theorem zero_notMem_cString (buf : List Byte) : 0 ∉ cString buf := fun h => by
  simpa using List.mem_takeWhile_imp h

theorem mem_of_mem_cString {buf : List Byte} {b : Byte} (h : b ∈ cString buf) : b ∈ buf :=
  (List.takeWhile_prefix _).subset h

theorem length_cString_le (buf : List Byte) : (cString buf).length ≤ buf.length :=
  (List.takeWhile_prefix _).length_le

theorem mem_of_mem_stringAt {buf : List Byte} {p : ℕ} {b : Byte} (h : b ∈ stringAt buf p) :
    b ∈ buf :=
  List.mem_of_mem_drop (mem_of_mem_cString h)

@[simp] theorem stringAt_append_length (pre rest : List Byte) :
    stringAt (pre ++ rest) pre.length = cString rest := by
  rw [stringAt, List.drop_left]

/-- What follows the string, if anything, is a NUL. -/
theorem cString_append_drop (buf : List Byte) :
    ∃ rest, buf = cString buf ++ rest ∧ ∀ b ∈ rest.head?, b = 0 := by
  refine ⟨buf.dropWhile fun b => b != 0, List.takeWhile_append_dropWhile.symm, fun b hb => ?_⟩
  have h := List.head?_dropWhile_not (fun b : Byte => b != 0) buf
  rw [Option.mem_def] at hb
  rw [hb] at h
  simpa using h

theorem cString_of_delim {lead w rest : List Byte} {d : Byte} (h0 : 0 ∉ lead ++ w ++ [d]) :
    cString (lead ++ w ++ d :: rest) = lead ++ w ++ d :: cString rest := by
  rw [show lead ++ w ++ d :: rest = (lead ++ w ++ [d]) ++ rest by simp, cString,
    List.takeWhile_append_of_pos, cString]
  · simp
  · intro b hb
    simpa using fun hb0 : b = 0 => h0 (hb0 ▸ hb)

theorem cString_of_end {s rest : List Byte} (h0 : 0 ∉ s) (hrest : ∀ b ∈ rest.head?, b = 0) :
    cString (s ++ rest) = s := by
  cases rest with
  | nil => rw [List.append_nil, cString_of_not_mem h0]
  | cons b rest =>
    obtain rfl : b = 0 := hrest b rfl
    exact cString_append_zero h0 rest

/-- `memchr`: what stands in front of the first such byte, and what behind it. -/
def memchr (s : List Byte) (b : Byte) : Option (List Byte × List Byte) :=
  if b ∈ s then some (s.takeWhile (· != b), (s.dropWhile (· != b)).tail) else none

theorem memchr_eq_none_iff {s : List Byte} {b : Byte} : memchr s b = none ↔ b ∉ s := by
  rw [memchr]
  split_ifs with h <;> simp [h]

theorem memchr_eq_some_iff {s u v : List Byte} {b : Byte} :
    memchr s b = some (u, v) ↔ s = u ++ b :: v ∧ b ∉ u := by
  constructor
  · intro h
    rw [memchr] at h
    split_ifs at h with hmem
    obtain ⟨rfl, rfl⟩ := Prod.mk.inj (Option.some.inj h)
    have hne : s.dropWhile (· != b) ≠ [] := by
      intro hnil
      simpa using List.dropWhile_eq_nil_iff.mp hnil b hmem
    obtain ⟨a, t, hat⟩ := List.exists_cons_of_ne_nil hne
    have ha := List.head_dropWhile_not (· != b) hne
    simp only [hat, List.head_cons, bne_eq_false_iff_eq] at ha
    subst ha
    constructor
    · rw [hat, List.tail_cons, ← hat, List.takeWhile_append_dropWhile]
    · intro hb
      simpa using List.mem_takeWhile_imp hb
  · rintro ⟨rfl, hu⟩
    have hpos : ∀ a ∈ u, (a != b) = true := fun a ha => by
      simpa using fun hab : a = b => hu (hab ▸ ha)
    rw [memchr, if_pos (by simp), List.takeWhile_append_of_pos hpos,
      List.dropWhile_append_of_pos hpos]
    simp

/-! ### One call -/

variable (delim : Byte → Bool)

/-- `strtok` resuming at offset `p`: the offset of the token, the array with the delimiter behind
the token overwritten, and the offset where the next call resumes. `none` is the NULL return. -/
def strtok (buf : List Byte) (p : ℕ) : Option (ℕ × List Byte × ℕ) :=
  let scan := stringAt buf p
  let start := p + (scan.takeWhile delim).length
  let stop := start + ((scan.dropWhile delim).takeWhile fun b => !delim b).length
  if start = stop then none
  else if stop < p + scan.length then some (start, buf.set stop 0, stop + 1)
  else some (start, buf, stop)

/-- The usual token loop: store the token's offset in entry `i`, stop
after `n` tokens, else ask for the next token. A store outside `arr` is dropped. -/
def tokenLoop : (n i : ℕ) → (arr : List (Option ℕ)) → (buf : List Byte) → (p : ℕ) →
    ℕ × List (Option ℕ) × List Byte
  | 0, i, arr, buf, _ => (i, arr, buf)
  | n + 1, i, arr, buf, p =>
    match strtok delim buf p with
    | none => (i, arr, buf)
    | some (t, buf', p') => tokenLoop n (i + 1) (arr.set i (some t)) buf' p'

/-- What the loop does to the array of characters does not depend on the pointers it stores. -/
theorem tokenLoop_buf (delim : Byte → Bool) (n i i' : ℕ) (arr arr' : List (Option ℕ))
    (buf : List Byte) (p : ℕ) :
    (tokenLoop delim n i arr buf p).2.2 = (tokenLoop delim n i' arr' buf p).2.2 := by
  induction n generalizing i i' arr arr' buf p with
  | zero => rfl
  | succ n ih =>
    rw [tokenLoop, tokenLoop]
    cases strtok delim buf p with
    | none => rfl
    | some r => exact ih ..

/-- The string that entry `j` of a pointer array denotes; `none` when the entry is NULL. -/
def pointee (arr : List (Option ℕ)) (buf : List Byte) (j : ℕ) : Option (List Byte) :=
  arr[j]?.join.map (stringAt buf)

variable {delim}

/-- A call on an array with no token left returns NULL. -/
theorem strtok_of_delims {pre rest : List Byte} (h : ∀ b ∈ cString rest, delim b) :
    strtok delim (pre ++ rest) pre.length = none := by
  have h1 : (cString rest).takeWhile delim = cString rest := List.takeWhile_eq_self_iff.mpr h
  have h2 : (cString rest).dropWhile delim = [] := List.dropWhile_eq_nil_iff.mpr h
  simp [strtok, h1, h2]

/-- A call whose token is ended by a delimiter: the delimiter becomes NUL. -/
theorem strtok_of_delim {pre lead w rest : List Byte} {d : Byte} (hlead : ∀ b ∈ lead, delim b)
    (hw : w ≠ []) (hword : ∀ b ∈ w, delim b = false) (hd : delim d)
    (h0 : 0 ∉ lead ++ w ++ [d]) :
    strtok delim (pre ++ (lead ++ w ++ d :: rest)) pre.length =
      some ((pre ++ lead).length, (pre ++ lead ++ w ++ [0]) ++ rest,
        (pre ++ lead ++ w ++ [0]).length) := by
  obtain ⟨a, w', rfl⟩ := List.exists_cons_of_ne_nil hw
  have hscan : cString (lead ++ (a :: w') ++ d :: rest) =
      lead ++ (a :: w') ++ d :: cString rest := cString_of_delim h0
  have ha : delim a = false := hword a List.mem_cons_self
  have htake : (lead ++ (a :: w') ++ d :: cString rest).takeWhile delim = lead := by
    rw [List.append_assoc, List.takeWhile_append_of_pos hlead]
    simp [ha]
  have hdrop : (lead ++ (a :: w') ++ d :: cString rest).dropWhile delim =
      (a :: w') ++ d :: cString rest := by
    rw [List.append_assoc, List.dropWhile_append_of_pos hlead]
    simp [ha]
  have hword' : ((a :: w') ++ d :: cString rest).takeWhile (fun b => !delim b) = a :: w' := by
    rw [List.takeWhile_append_of_pos fun b hb => by simp [hword b hb]]
    simp [hd]
  have hset : (pre ++ (lead ++ (a :: w') ++ d :: rest)).set
      (pre.length + lead.length + (a :: w').length) 0 =
        (pre ++ lead ++ (a :: w') ++ [0]) ++ rest := by
    rw [show pre ++ (lead ++ (a :: w') ++ d :: rest) =
        (pre ++ lead ++ (a :: w')) ++ d :: rest by simp,
      show pre.length + lead.length + (a :: w').length = (pre ++ lead ++ (a :: w')).length by
        simp [Nat.add_assoc], List.set_append_right _ _ (Nat.le_refl _)]
    simp
  simp only [strtok, stringAt_append_length, hscan, htake, hdrop, hword', hset]
  rw [if_neg (by simp), if_pos (by simp only [List.length_append, List.length_cons]; omega)]
  simp [Nat.add_assoc]

/-- A call whose token is ended by the end of the string: nothing is written. -/
theorem strtok_of_end {pre lead w rest : List Byte} (hlead : ∀ b ∈ lead, delim b)
    (hw : w ≠ []) (hword : ∀ b ∈ w, delim b = false) (h0 : 0 ∉ lead ++ w)
    (hrest : ∀ b ∈ rest.head?, b = 0) :
    strtok delim (pre ++ (lead ++ w ++ rest)) pre.length =
      some ((pre ++ lead).length, (pre ++ lead ++ w) ++ rest, (pre ++ lead ++ w).length) := by
  obtain ⟨a, w', rfl⟩ := List.exists_cons_of_ne_nil hw
  have hscan : cString (lead ++ (a :: w') ++ rest) = lead ++ (a :: w') := cString_of_end h0 hrest
  have ha : delim a = false := hword a List.mem_cons_self
  have htake : (lead ++ (a :: w')).takeWhile delim = lead := by
    rw [List.takeWhile_append_of_pos hlead]
    simp [ha]
  have hdrop : (lead ++ (a :: w')).dropWhile delim = a :: w' := by
    rw [List.dropWhile_append_of_pos hlead]
    simp [ha]
  have hword' : (a :: w').takeWhile (fun b => !delim b) = a :: w' :=
    List.takeWhile_eq_self_iff.mpr fun b hb => by simp [hword b hb]
  simp only [strtok, stringAt_append_length, hscan, htake, hdrop, hword']
  rw [if_neg (by simp), if_neg (by simp only [List.length_append, List.length_cons]; omega)]
  simp [Nat.add_assoc]

/-- The three ways a scan can go, as a decomposition of the rest of the array. -/
theorem scan_cases (delim : Byte → Bool) (rest : List Byte) :
    (∀ b ∈ cString rest, delim b) ∨
    (∃ lead w d rest', rest = lead ++ w ++ d :: rest' ∧ (∀ b ∈ lead, delim b) ∧ w ≠ [] ∧
      (∀ b ∈ w, delim b = false) ∧ delim d ∧ 0 ∉ lead ++ w ++ [d]) ∨
    ∃ lead w rest', rest = lead ++ w ++ rest' ∧ (∀ b ∈ lead, delim b) ∧ w ≠ [] ∧
      (∀ b ∈ w, delim b = false) ∧ 0 ∉ lead ++ w ∧ ∀ b ∈ rest'.head?, b = 0 := by
  obtain ⟨tail, hrest, htail⟩ := cString_append_drop rest
  have h0 := zero_notMem_cString rest
  generalize hs : cString rest = s at hrest h0
  by_cases hall : ∀ b ∈ s, delim b
  · exact .inl hall
  refine .inr ?_
  obtain ⟨lead, hlead⟩ : ∃ lead, lead = s.takeWhile delim := ⟨_, rfl⟩
  obtain ⟨word, hword⟩ : ∃ word, word = (s.dropWhile delim).takeWhile fun b => !delim b := ⟨_, rfl⟩
  obtain ⟨last, hlast⟩ : ∃ last, last = (s.dropWhile delim).dropWhile fun b => !delim b := ⟨_, rfl⟩
  have hsplit : s = lead ++ word ++ last := by
    rw [List.append_assoc, hlead, hword, hlast, List.takeWhile_append_dropWhile,
      List.takeWhile_append_dropWhile]
  have hl : ∀ b ∈ lead, delim b := fun b hb => List.mem_takeWhile_imp (hlead ▸ hb)
  have hw : ∀ b ∈ word, delim b = false := fun b hb => by
    have h : (!delim b) = true := List.mem_takeWhile_imp (p := fun b => !delim b) (hword ▸ hb)
    simpa using h
  have hne : word ≠ [] := by
    intro hnil
    -- no word: the first byte after the delimiters would be a delimiter
    have hd : s.dropWhile delim ≠ [] := fun h => hall (List.dropWhile_eq_nil_iff.mp h)
    have h1 := List.head_dropWhile_not delim hd
    obtain ⟨a, t, hat⟩ := List.exists_cons_of_ne_nil hd
    rw [hnil, hat] at hword
    simp only [hat, List.head_cons] at h1
    simp [h1] at hword
  cases last with
  | nil =>
    refine .inr ⟨lead, word, tail, ?_, hl, hne, hw, ?_, htail⟩
    · rw [hrest, hsplit, List.append_nil]
    · rwa [hsplit, List.append_nil] at h0
  | cons d last =>
    refine .inl ⟨lead, word, d, last ++ tail, ?_, hl, hne, hw, ?_, ?_⟩
    · rw [hrest, hsplit]; simp
    · have h1 := List.head?_dropWhile_not (fun b => !delim b) (s.dropWhile delim)
      rw [← hlast] at h1
      simpa using h1
    · intro hmem
      refine h0 ?_
      rw [hsplit, show lead ++ word ++ d :: last = (lead ++ word ++ [d]) ++ last by simp]
      exact List.mem_append_left _ hmem

/-! ### The loop -/

/-- What the token loop leaves behind when it scans `rest`, which follows `pre` in the array, and
stores from entry `i` on. -/
structure Scanned (delim : Byte → Bool) (n i : ℕ) (arr : List (Option ℕ)) (pre rest : List Byte)
    (r : ℕ × List (Option ℕ) × List Byte) : Prop where
  /-- The counter has counted the tokens, up to the bound. -/
  count : r.1 = i + min n (tokens delim (cString rest)).length
  /-- The pointer array keeps its length. -/
  length : r.2.1.length = arr.length
  /-- Only the part of the array that is scanned is written, and only with NULs. -/
  frame : ∃ rest', r.2.2 = pre ++ rest' ∧ rest'.length = rest.length ∧
    ∀ b ∈ rest', b = 0 ∨ b ∈ rest
  /-- Nothing is written when there is no token. -/
  quiet : tokens delim (cString rest) = [] → r.2.2 = pre ++ rest
  /-- The entries written denote the tokens. -/
  stored : ∀ j t, j < n → (tokens delim (cString rest))[j]? = some t → i + j < arr.length →
    pointee r.2.1 r.2.2 (i + j) = some t
  /-- The other entries are kept. -/
  kept : ∀ j, j < i ∨ i + min n (tokens delim (cString rest)).length ≤ j → r.2.1[j]? = arr[j]?

/-- One more token in front: the loop runs on from an array whose written part ends in NUL or
whose rest holds no token. -/
theorem Scanned.cons {n i : ℕ} {arr : List (Option ℕ)} {pre w rest rest₀ : List Byte}
    {r : ℕ × List (Option ℕ) × List Byte} (lead gap : List Byte)
    (htok : tokens delim (cString rest₀) = w :: tokens delim (cString rest))
    (hmem : ∀ b ∈ lead ++ w ++ gap, b = 0 ∨ b ∈ rest₀) (hrest : ∀ b ∈ rest, b ∈ rest₀)
    (hlen : (lead ++ w ++ gap ++ rest).length = rest₀.length) (hw0 : 0 ∉ w)
    (hgap : gap = [0] ∨ gap = [] ∧ ∀ b ∈ rest.head?, b = 0)
    (h : Scanned delim n (i + 1) (arr.set i (some (pre ++ lead).length))
      (pre ++ lead ++ w ++ gap) rest r) :
    Scanned delim (n + 1) i arr pre rest₀ r := by
  have hcount : i + min (n + 1) (tokens delim (cString rest₀)).length =
      i + 1 + min n (tokens delim (cString rest)).length := by
    rw [htok, List.length_cons]; omega
  obtain ⟨rest', hbuf, hlen', hmem'⟩ := h.frame
  have hword : stringAt r.2.2 (pre ++ lead).length = w := by
    rcases hgap with rfl | ⟨rfl, hhead⟩
    · rw [hbuf, show pre ++ lead ++ w ++ [0] ++ rest' = (pre ++ lead) ++ (w ++ 0 :: rest') by simp,
        stringAt_append_length, cString_append_zero hw0]
    · have hnil : cString rest = [] := by simpa using cString_of_end (s := []) (by simp) hhead
      rw [h.quiet (by rw [hnil, tokens_nil]),
        show pre ++ lead ++ w ++ [] ++ rest = (pre ++ lead) ++ (w ++ rest) by simp,
        stringAt_append_length, cString_of_end hw0 hhead]
  refine ⟨by rw [h.count, hcount], by rw [h.length, List.length_set], ?_, ?_, ?_, ?_⟩
  · refine ⟨lead ++ w ++ gap ++ rest', by rw [hbuf]; simp, ?_, fun b hb => ?_⟩
    · simp only [List.length_append] at hlen ⊢
      omega
    · rcases List.mem_append.mp hb with hb | hb
      · exact hmem b hb
      · exact (hmem' b hb).imp_right (hrest b)
  · intro hnil
    rw [htok] at hnil
    cases hnil
  · intro j t hj ht hij
    rw [htok] at ht
    cases j with
    | zero =>
      obtain rfl : w = t := by simpa using ht
      have hentry : r.2.1[i]? = some (some (pre ++ lead).length) := by
        rw [h.kept i (.inl (Nat.lt_succ_self i)), List.getElem?_set_self (by simpa using hij)]
      rw [Nat.add_zero, pointee, hentry]
      exact congrArg some hword
    | succ j =>
      rw [show i + (j + 1) = i + 1 + j by omega]
      exact h.stored j t (by omega) (by simpa using ht) (by rw [List.length_set]; omega)
  · intro j hj
    rw [hcount] at hj
    rw [h.kept j (hj.imp_left Nat.lt_succ_of_lt), List.getElem?_set_ne]
    omega

/-- **What the token loop does.** Induction on the bound, one case for each way a scan can go. -/
theorem scanned_tokenLoop (n i : ℕ) (arr : List (Option ℕ)) (pre rest : List Byte) :
    Scanned delim n i arr pre rest (tokenLoop delim n i arr (pre ++ rest) pre.length) := by
  induction n generalizing i arr pre rest with
  | zero =>
    refine ⟨by simp [tokenLoop], rfl, ⟨rest, rfl, rfl, fun b hb => .inr hb⟩, fun _ => rfl, ?_,
      fun _ _ => rfl⟩
    intro j t hj
    exact absurd hj (Nat.not_lt_zero j)
  | succ n ih =>
    rcases scan_cases delim rest with hall | ⟨lead, w, d, rest', rfl, hlead, hw, hword, hd, h0⟩ |
      ⟨lead, w, rest', rfl, hlead, hw, hword, h0, hhead⟩
    · have htok : tokens delim (cString rest) = [] := tokens_of_delims hall
      rw [tokenLoop, strtok_of_delims hall]
      refine ⟨by simp [htok], rfl, ⟨rest, rfl, rfl, fun b hb => .inr hb⟩, fun _ => rfl, ?_,
        fun _ _ => rfl⟩
      intro j t _ ht
      simp [htok] at ht
    · have htok : tokens delim (cString (lead ++ w ++ d :: rest')) =
          w :: tokens delim (cString rest') := by
        rw [cString_of_delim h0, tokens_cons_of_scan hlead hw hword fun b hb => by
          obtain rfl : d = b := by simpa using hb
          exact hd, tokens_cons_of_delim _ hd]
      rw [tokenLoop, strtok_of_delim hlead hw hword hd h0]
      refine (ih (i + 1) _ (pre ++ lead ++ w ++ [0]) rest').cons lead [0] htok ?_ ?_
        (by simp) ?_ (.inl rfl)
      · intro b hb
        rw [List.mem_append, List.mem_singleton] at hb
        exact hb.symm.imp_right fun h => List.mem_append_left _ h
      · intro b hb
        exact List.mem_append_right _ (List.mem_cons_of_mem d hb)
      · intro hmem
        exact h0 (List.mem_append_left _ (List.mem_append_right _ hmem))
    · have htok : tokens delim (cString (lead ++ w ++ rest')) =
          w :: tokens delim (cString rest') := by
        rw [cString_of_end h0 hhead, show cString rest' = [] by
          simpa using cString_of_end (s := []) (by simp) hhead, tokens_nil,
          ← List.append_nil (lead ++ w), tokens_cons_of_scan hlead hw hword (by simp), tokens_nil]
      rw [tokenLoop, strtok_of_end hlead hw hword h0 hhead]
      have key := ih (i + 1) (arr.set i (some (pre ++ lead).length)) (pre ++ lead ++ w) rest'
      refine Scanned.cons lead [] htok ?_ ?_ (by simp) ?_ (.inr ⟨rfl, hhead⟩)
        (by rwa [List.append_nil])
      · intro b hb
        rw [List.append_nil] at hb
        exact .inr (List.mem_append_left _ hb)
      · intro b hb
        exact List.mem_append_right _ hb
      · intro hmem
        exact h0 (List.mem_append_right _ hmem)

/-- The same for a scan from the start of an array. -/
theorem scanned_tokenLoop_zero (delim : Byte → Bool) (n : ℕ) (arr : List (Option ℕ))
    (buf : List Byte) :
    Scanned delim n 0 arr [] buf (tokenLoop delim n 0 arr buf 0) :=
  scanned_tokenLoop n 0 arr [] buf

end CString
