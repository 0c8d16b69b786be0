import DroneTurret.Relay.Table
import Mathlib.Tactic.SplitIfs

/-!
# Reading and tokenizing a message

`main` and `clnt_connection` take a message in the same way: one `read` into a character array, a
terminator behind it, and a `strtok` loop that stores the tokens in `pArray`. They differ in what
is in the arrays before. `main` clears neither of its two; `clnt_connection` clears `msg` before
each `read` but not its `pArray`.

An entry that a message with fewer tokens does not write keeps the offset an earlier message left
there, and denotes whatever the array holds at that offset now. `Scanner.firstTwo` is therefore a
function of the arrays as well as of the message.

## Main results

* `firstTwo_of_tokens` — a message with two tokens is taken as itself
* `tokens_of_firstTwo_clear` — out of a cleared array, a byte that is in the second string and
  not in the first proves that both are tokens of the message
-/

namespace DroneTurret

namespace Relay

open CString Tokens

/-- The arrays of a token loop: the characters, `idpasswd` or `msg`, and `pArray`. -/
structure Scanner where
  buf : List Byte
  pArray : List (Option ℕ)
  five : pArray.length = arrCnt
  deriving DecidableEq

/-- `pArray` full of NULL. -/
def Scanner.null (buf : List Byte) : Scanner := ⟨buf, List.replicate arrCnt none, rfl⟩

/-- What `read` and the store of the terminator leave in an array. -/
def storeRead (buf rd : List Byte) : List Byte := (rd ++ buf.drop rd.length).set rd.length 0

/-- One message: `read`, terminator and token loop. -/
def Scanner.scan (s : Scanner) (rd : List Byte) : Scanner :=
  let r := tokenLoop isDelim (arrCnt + 1) 0 s.pArray (storeRead s.buf rd) 0
  ⟨r.2.2, r.2.1, (scanned_tokenLoop_zero isDelim _ s.pArray _).length.trans s.five⟩

/-- The strings that `pArray[0]` and `pArray[1]` denote after the token loop. -/
def Scanner.firstTwo (s : Scanner) (rd : List Byte) : Option (List Byte) × Option (List Byte) :=
  (pointee (s.scan rd).pArray (s.scan rd).buf 0, pointee (s.scan rd).pArray (s.scan rd).buf 1)

/-- The terminator makes the message the string at the front of the array. -/
theorem cString_storeRead (buf rd : List Byte) : cString (storeRead buf rd) = cString rd := by
  rw [storeRead]
  cases hdrop : buf.drop rd.length with
  | nil => rw [List.append_nil, List.set_eq_of_length_le (Nat.le_refl _)]
  | cons b rest =>
    rw [List.set_append_right _ _ (Nat.le_refl _), Nat.sub_self, List.set_cons_zero]
    obtain ⟨tail, hrd, htail⟩ := cString_append_drop rd
    have h0 := zero_notMem_cString rd
    generalize cString rd = s at hrd h0
    rw [hrd, List.append_assoc]
    refine cString_of_end h0 fun c hc => ?_
    cases tail with
    | nil => exact (Option.some.inj hc).symm
    | cons a tail => exact htail c hc

/-- The first five entries denote the tokens of the message, as far as it has them. -/
theorem pointee_scan (s : Scanner) {rd t : List Byte} {j : ℕ} (hj : j < arrCnt)
    (ht : (tokens isDelim (cString rd))[j]? = some t) :
    pointee (s.scan rd).pArray (s.scan rd).buf j = some t := by
  have hscan := scanned_tokenLoop_zero isDelim (arrCnt + 1) s.pArray (storeRead s.buf rd)
  have hstored := hscan.stored j t (by omega) (by rw [cString_storeRead]; exact ht)
    (by rw [s.five]; omega)
  rwa [Nat.zero_add] at hstored

/-- The entries behind the tokens of the message keep their offsets. -/
theorem pointee_scan_of_le (s : Scanner) {rd : List Byte} {j : ℕ}
    (hj : (tokens isDelim (cString rd)).length ≤ j) :
    pointee (s.scan rd).pArray (s.scan rd).buf j =
      s.pArray[j]?.join.map (stringAt (s.scan rd).buf) := by
  have hscan := scanned_tokenLoop_zero isDelim (arrCnt + 1) s.pArray (storeRead s.buf rd)
  have hkept : (s.scan rd).pArray[j]? = s.pArray[j]? := by
    refine hscan.kept j (.inr ?_)
    rw [cString_storeRead, Nat.zero_add]
    exact (Nat.min_le_right _ _).trans hj
  rw [pointee, hkept]

/-- **A message with two tokens is taken as itself.** -/
theorem firstTwo_of_tokens (s : Scanner) {rd id pw : List Byte} {rest : List (List Byte)}
    (h : tokens isDelim (cString rd) = id :: pw :: rest) :
    s.firstTwo rd = (some id, some pw) := by
  have h0 : pointee (s.scan rd).pArray (s.scan rd).buf 0 = some id :=
    pointee_scan s (by decide) (by rw [h]; rfl)
  have h1 : pointee (s.scan rd).pArray (s.scan rd).buf 1 = some pw :=
    pointee_scan s (by decide) (by rw [h]; rfl)
  rw [Scanner.firstTwo, h0, h1]

/-! ### Out of a cleared array -/

/-- `memset(msg,0x0,sizeof(msg))`. -/
def Scanner.clear (s : Scanner) : Scanner := { s with buf := List.replicate bufSize 0 }

/-- The arrays of a thread that has read nothing yet. -/
def Scanner.fresh : Scanner := .null []

/-- What the token loop leaves of a message in a cleared array. -/
def tokenized (rd : List Byte) : List Byte := (Scanner.fresh.clear.scan rd).buf

/-- The pointers kept from earlier messages have no part in it. -/
theorem buf_scan_clear (s : Scanner) (rd : List Byte) : (s.clear.scan rd).buf = tokenized rd :=
  tokenLoop_buf isDelim (arrCnt + 1) 0 0 s.pArray Scanner.fresh.pArray _ 0

/-- Every byte of the array after the scan is NUL or was read. -/
theorem mem_scan_clear {s : Scanner} {rd : List Byte} {b : Byte} (hb : b ≠ 0)
    (h : b ∈ (s.clear.scan rd).buf) : b ∈ rd := by
  obtain ⟨rest, hbuf, -, hmem⟩ :=
    (scanned_tokenLoop_zero isDelim (arrCnt + 1) s.clear.pArray (storeRead s.clear.buf rd)).frame
  have hrest : (s.clear.scan rd).buf = rest := hbuf
  rw [hrest] at h
  have hread := (hmem b h).resolve_left hb
  rcases List.mem_or_eq_of_mem_set hread with hread | rfl
  · rcases List.mem_append.mp hread with hread | hzero
    · exact hread
    · exact absurd (List.eq_of_mem_replicate (List.mem_of_mem_drop hzero)) hb
  · exact absurd rfl hb

/-- **Leftover offsets see only the message.** If the second string has a byte, no delimiter, that
the first one has not, the message has two tokens and the strings are its first two. -/
theorem tokens_of_firstTwo_clear {s : Scanner} {rd fst snd : List Byte} {b : Byte}
    (h : s.clear.firstTwo rd = (some fst, some snd)) (hrd : 0 ∉ rd) (hdelim : isDelim b = false)
    (hsnd : b ∈ snd) (hfst : b ∉ fst) :
    ∃ rest, tokens isDelim rd = fst :: snd :: rest := by
  obtain ⟨h0, h1⟩ := Prod.mk.inj h
  have hstr : cString rd = rd := cString_of_not_mem hrd
  have hstored : ∀ j t, j < arrCnt → (tokens isDelim rd)[j]? = some t →
      pointee (s.clear.scan rd).pArray (s.clear.scan rd).buf j = some t := by
    intro j t hj ht
    exact pointee_scan s.clear hj (by rw [hstr]; exact ht)
  -- the byte is in the array, so it was read, so it is in a token
  have hb0 : b ≠ 0 := by
    rintro rfl
    obtain ⟨p, -, hp⟩ := Option.map_eq_some_iff.mp h1
    exact zero_notMem_cString _ (hp ▸ hsnd)
  have hread : b ∈ rd := by
    obtain ⟨p, -, hp⟩ := Option.map_eq_some_iff.mp h1
    exact mem_scan_clear hb0 (mem_of_mem_stringAt (hp ▸ hsnd))
  have htext : b ∈ (tokens isDelim rd).flatten := by
    rw [flatten_tokens]
    exact List.mem_filter.mpr ⟨hread, by simp [hdelim]⟩
  match htok : tokens isDelim rd with
  | [] =>
    rw [htok] at htext
    cases htext
  | [t] =>
    have ht : some t = some fst := (hstored 0 t (by decide) (by rw [htok]; rfl)).symm.trans h0
    rw [htok, Option.some.inj ht] at htext
    exact absurd (by simpa using htext) hfst
  | t :: u :: rest =>
    have ht : some t = some fst := (hstored 0 t (by decide) (by rw [htok]; rfl)).symm.trans h0
    have hu : some u = some snd := (hstored 1 u (by decide) (by rw [htok]; rfl)).symm.trans h1
    rw [Option.some.inj ht, Option.some.inj hu]
    exact ⟨rest, rfl⟩

end Relay

end DroneTurret
