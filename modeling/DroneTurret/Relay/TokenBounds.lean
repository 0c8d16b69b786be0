import DroneTurret.Relay.Login

/-!
# The entries of `pArray`

Both token loops store a token first and test the index afterwards, and the test `i++ >= ARR_CNT` is
of the value from before the count: a sixth store gets through. Neither loop looks at how many
tokens there were, so an entry is used whether this message has set it or not. And `main` reads as
many bytes as `idpasswd` has, and puts the terminator behind them.

## Main definitions

* `tokenStores`, `searchUses`, `relayUses` — the entries stored to, and those used afterwards
* `LoginSafe`, `MessageSafe` — they are there, and have been set by this message

## Main results

* `stores_eq` — as many as there are tokens, and no more than six
* `token_bounds_iff` — the logins and messages that are safe
-/

namespace DroneTurret

namespace Relay

open CString Tokens

/-- The entries that the token loop stores to, in order. -/
def tokenStores : (n i : ℕ) → (buf : List Byte) → (p : ℕ) → List ℕ
  | 0, _, _, _ => []
  | n + 1, i, buf, p =>
    match strtok isDelim buf p with
    | none => []
    | some (_, buf', p') => i :: tokenStores n (i + 1) buf' p'

/-- Those for the bytes of a `read`. -/
def Scanner.stores (s : Scanner) (rd : List Byte) : List ℕ :=
  tokenStores (arrCnt + 1) 0 (storeRead s.buf rd) 0

/-- The entries that the search loop passes to `strcmp`, and the one that is printed at its end. -/
def searchUses (t : Table) (pArray0 pArray1 : Option (List Byte)) : List (Fin maxClnt) → List ℕ
  | [] => [0]
  | i :: slots =>
    0 ::
      match pArray0 with
      | none => []
      | some id =>
        if (t i).id.val = id then
          if (t i).fd ≠ -1 then [0]
          else
            1 ::
              match pArray1 with
              | none => []
              | some pw =>
                if (t i).pw.val = pw then [0] else searchUses t pArray0 pArray1 slots
        else searchUses t pArray0 pArray1 slots

/-- The entries that a login message leads to the use of. -/
def MainState.uses (m : MainState) (rd : List Byte) : List ℕ :=
  if rd = [] then []
  else searchUses m.table (m.buffer.firstTwo rd).1 (m.buffer.firstTwo rd).2 (List.finRange maxClnt)

/-- The entries that `clnt_connection` prints into `to_msg` and `strBuff`, and that `send_msg`
compares. -/
def relayUses : List ℕ := [1, 0, 1, 0]

/-- A login message is safe in `main`. -/
structure LoginSafe (m : MainState) (rd : List Byte) : Prop where
  terminator : rd.length < idpasswdSize
  inside : rd ≠ [] → ∀ j ∈ m.buffer.stores rd, j < arrCnt
  set : ∀ j ∈ m.uses rd, j ∈ m.buffer.stores rd

/-- A message is safe in `clnt_connection`. -/
structure MessageSafe (s : Scanner) (rd : List Byte) : Prop where
  inside : ∀ j ∈ s.clear.stores rd, j < arrCnt
  set : ∀ j ∈ relayUses, j ∈ s.clear.stores rd

/-! ### What is stored -/

/-- The stores go with the counter of the loop. -/
theorem tokenStores_eq (n i : ℕ) (arr : List (Option ℕ)) (buf : List Byte) (p : ℕ) :
    i ≤ (tokenLoop isDelim n i arr buf p).1 ∧
      tokenStores n i buf p = List.range' i ((tokenLoop isDelim n i arr buf p).1 - i) := by
  induction n generalizing i arr buf p with
  | zero => exact ⟨Nat.le_refl i, by rw [tokenLoop, Nat.sub_self]; rfl⟩
  | succ n ih =>
    rw [tokenStores, tokenLoop]
    cases strtok isDelim buf p with
    | none => exact ⟨Nat.le_refl i, by rw [Nat.sub_self]; rfl⟩
    | some r =>
      obtain ⟨t, buf', p'⟩ := r
      obtain ⟨hle, heq⟩ := ih (i + 1) (arr.set i (some t)) buf' p'
      dsimp only
      generalize (tokenLoop isDelim n (i + 1) (arr.set i (some t)) buf' p').1 = count at hle heq
      refine ⟨Nat.le_of_succ_le hle, ?_⟩
      rw [heq, show count - i = count - (i + 1) + 1 by omega, List.range'_succ]

/-- **The entries stored to** are as many as the message has tokens, up to six. -/
theorem stores_eq (s : Scanner) (rd : List Byte) :
    s.stores rd = List.range (min (arrCnt + 1) (tokens isDelim (cString rd)).length) := by
  have hcount := (scanned_tokenLoop_zero isDelim (arrCnt + 1) s.pArray (storeRead s.buf rd)).count
  rw [cString_storeRead, Nat.zero_add] at hcount
  rw [Scanner.stores, (tokenStores_eq _ _ s.pArray _ _).2, hcount, Nat.sub_zero,
    List.range_eq_range']

theorem mem_stores {s : Scanner} {rd : List Byte} {j : ℕ} (hj : j < arrCnt) :
    j ∈ s.stores rd ↔ j < (tokens isDelim (cString rd)).length := by
  rw [stores_eq, List.mem_range]
  omega

theorem stores_lt_iff (s : Scanner) (rd : List Byte) :
    (∀ j ∈ s.stores rd, j < arrCnt) ↔ (tokens isDelim (cString rd)).length ≤ arrCnt := by
  constructor
  · intro h
    by_contra hlong
    have hlast := h arrCnt (by rw [stores_eq, List.mem_range]; omega)
    exact absurd hlast (Nat.lt_irrefl _)
  · intro h j hj
    rw [stores_eq, List.mem_range] at hj
    omega

/-! ### What is used -/

/-- A slot in the search. -/
theorem searchUses_cons (t : Table) (id : List Byte) (p1 : Option (List Byte)) (i : Fin maxClnt)
    (slots : List (Fin maxClnt)) :
    searchUses t (some id) p1 (i :: slots) =
      0 :: if (t i).id.val = id then
        if (t i).fd ≠ -1 then [0]
        else 1 :: p1.elim [] fun pw =>
          if (t i).pw.val = pw then [0] else searchUses t (some id) p1 slots
      else searchUses t (some id) p1 slots := by
  cases p1 <;> rfl

theorem zero_mem_searchUses (t : Table) (p0 p1 : Option (List Byte)) (slots : List (Fin maxClnt)) :
    0 ∈ searchUses t p0 p1 slots := by
  cases slots <;> exact List.mem_cons_self

/-- The first slot that has the id. -/
def Table.firstOf (t : Table) (id : List Byte) (slots : List (Fin maxClnt)) :
    Option (Fin maxClnt) :=
  slots.find? fun i => (t i).id.val = id

/-- No other entries are used than the first two. -/
theorem lt_of_mem_searchUses {t : Table} {id : List Byte} {p1 : Option (List Byte)}
    {slots : List (Fin maxClnt)} {j : ℕ} (hj : j ∈ searchUses t (some id) p1 slots) : j < 2 := by
  induction slots with
  | nil =>
    rw [List.mem_singleton.mp hj]
    decide
  | cons i slots ih =>
    rw [searchUses_cons] at hj
    rcases List.mem_cons.mp hj with rfl | hj
    · decide
    · split_ifs at hj with hid hfd
      · rw [List.mem_singleton.mp hj]
        decide
      · rcases List.mem_cons.mp hj with rfl | hj
        · decide
        · cases p1 with
          | none => cases hj
          | some pw =>
            rw [Option.elim_some] at hj
            split_ifs at hj with hpw
            · rw [List.mem_singleton.mp hj]
              decide
            · exact ih hj
      · exact ih hj

/-- **The second entry is used** if and only if the first slot of the id is free: a login for a user
that is known and not logged in. -/
theorem one_mem_searchUses {t : Table} {id : List Byte} {p1 : Option (List Byte)}
    {slots : List (Fin maxClnt)} :
    1 ∈ searchUses t (some id) p1 slots ↔ ∃ i, t.firstOf id slots = some i ∧ (t i).fd = -1 := by
  induction slots with
  | nil => simp [searchUses, Table.firstOf]
  | cons i slots ih =>
    rw [searchUses_cons, Table.firstOf]
    by_cases hid : (t i).id.val = id
    · have hfirst : (i :: slots).find? (fun k => (t k).id.val = id) = some i :=
        List.find?_cons_of_pos (by simpa using hid)
      rw [hfirst, if_pos hid]
      by_cases hfd : (t i).fd = -1
      · rw [if_neg (not_not.mpr hfd)]
        exact iff_of_true (by simp) ⟨i, rfl, hfd⟩
      · rw [if_pos hfd]
        refine iff_of_false (by simp) ?_
        rintro ⟨k, hk, hfree⟩
        obtain rfl := Option.some.inj hk
        exact hfd hfree
    · have hfirst : (i :: slots).find? (fun k => (t k).id.val = id) =
          slots.find? fun k => (t k).id.val = id := List.find?_cons_of_neg (by simpa using hid)
      rw [hfirst, if_neg hid, List.mem_cons, ih]
      exact or_iff_right (by decide)

/-! ### The logins that are safe -/

/-- The login fits in: it is empty, or it leaves room for the terminator and has an id, no more
than five tokens, and a password if its user is known and not logged in. -/
def LoginFits (m : MainState) (rd : List Byte) : Prop :=
  rd = [] ∨
    rd.length < idpasswdSize ∧ (tokens isDelim (cString rd)).length ≤ arrCnt ∧
      ∃ id more, tokens isDelim (cString rd) = id :: more ∧
        (more = [] →
          ∀ i, m.table.firstOf id (List.finRange maxClnt) = some i → (m.table i).fd ≠ -1)

/-- What is compared for a login with an id has been set, if the password it is compared with has.
-/
theorem uses_set_iff {m : MainState} {rd id : List Byte} {more : List (List Byte)} (hrd : rd ≠ [])
    (htok : tokens isDelim (cString rd) = id :: more) :
    (∀ j ∈ m.uses rd, j ∈ m.buffer.stores rd) ↔
      (more = [] →
        ∀ i, m.table.firstOf id (List.finRange maxClnt) = some i → (m.table i).fd ≠ -1) := by
  have hid : (m.buffer.firstTwo rd).1 = some id :=
    pointee_scan m.buffer (by decide) (by rw [htok]; rfl)
  rw [MainState.uses, if_neg hrd, hid]
  constructor
  · rintro hset rfl i hi hfree
    have hone := hset 1 (one_mem_searchUses.mpr ⟨i, hi, hfree⟩)
    rw [mem_stores (by decide), htok] at hone
    exact absurd hone (Nat.lt_irrefl 1)
  · intro hlogged j hj
    have hlt := lt_of_mem_searchUses hj
    rw [mem_stores (by simp only [arrCnt]; omega), htok, List.length_cons]
    rcases Nat.lt_or_ge 0 j with hpos | hpos
    · obtain rfl : j = 1 := by omega
      obtain ⟨i, hi, hfree⟩ := one_mem_searchUses.mp hj
      have hmore : more ≠ [] := fun hnil => hlogged hnil i hi hfree
      have := List.length_pos_iff.mpr hmore
      omega
    · omega

/-- **The logins that are safe.** -/
theorem loginSafe_iff (m : MainState) (rd : List Byte) : LoginSafe m rd ↔ LoginFits m rd := by
  by_cases hrd : rd = []
  · refine iff_of_true ⟨by rw [hrd]; decide, fun h => absurd hrd h, fun j hj => ?_⟩ (.inl hrd)
    rw [MainState.uses, if_pos hrd] at hj
    cases hj
  · rw [LoginFits, or_iff_right hrd]
    constructor
    · rintro ⟨hterm, hin, hset⟩
      refine ⟨hterm, (stores_lt_iff m.buffer rd).mp (hin hrd), ?_⟩
      cases htok : tokens isDelim (cString rd) with
      | nil =>
        have hzero : 0 ∈ m.buffer.stores rd := by
          refine hset 0 ?_
          rw [MainState.uses, if_neg hrd]
          exact zero_mem_searchUses _ _ _ _
        rw [mem_stores (by decide), htok] at hzero
        exact absurd hzero (Nat.lt_irrefl 0)
      | cons id more => exact ⟨id, more, rfl, (uses_set_iff hrd htok).mp hset⟩
    · rintro ⟨hterm, hlen, id, more, htok, hpw⟩
      exact ⟨hterm, fun _ => (stores_lt_iff m.buffer rd).mpr hlen,
        (uses_set_iff hrd htok).mpr hpw⟩

/-- **The messages that are safe.** -/
theorem messageSafe_iff (s : Scanner) (rd : List Byte) :
    MessageSafe s rd ↔
      2 ≤ (tokens isDelim (cString rd)).length ∧ (tokens isDelim (cString rd)).length ≤ arrCnt := by
  constructor
  · rintro ⟨hin, hset⟩
    exact ⟨(mem_stores (by decide)).mp (hset 1 (by decide)), (stores_lt_iff _ rd).mp hin⟩
  · rintro ⟨htwo, hlen⟩
    refine ⟨(stores_lt_iff _ rd).mpr hlen, fun j hj => ?_⟩
    have hlt : j < 2 := by
      revert j
      decide
    rw [mem_stores (by simp only [arrCnt]; omega)]
    omega

/-- **The bounds of the token loops and of the login buffer.** In whatever state `main` and the
thread are, a login is handled within them if and only if it fits in, and a message if and only if
it has two to five tokens. -/
theorem token_bounds_iff (m : MainState) (s : Scanner) (rd : List Byte) :
    (LoginSafe m rd ↔ LoginFits m rd) ∧
      (MessageSafe s rd ↔
        2 ≤ (tokens isDelim (cString rd)).length ∧
          (tokens isDelim (cString rd)).length ≤ arrCnt) :=
  ⟨loginSafe_iff m rd, messageSafe_iff s rd⟩

/-- The sixth token of `a:b:c:d:e:f` is stored behind the array, whether it is a login or a message;
the NUL behind a login of 63 bytes is stored behind `idpasswd`; and a first message `ALLMSG` is sent
with an entry that is still NULL. -/
theorem not_token_bounds :
    (¬LoginSafe .startUp (bytes "a:b:c:d:e:f") ∧ ¬MessageSafe .fresh (bytes "a:b:c:d:e:f")) ∧
      ¬LoginSafe .startUp (List.replicate idpasswdSize 65) ∧
      ¬MessageSafe .fresh (bytes "ALLMSG") := by
  refine ⟨⟨fun h => ?_, fun h => ?_⟩, fun h => ?_, fun h => ?_⟩
  · exact absurd (h.inside (by decide) 5 (by decide)) (by decide)
  · exact absurd (h.inside 5 (by decide)) (by decide)
  · exact absurd h.terminator (by decide)
  · exact absurd (h.set 1 (by decide)) (by decide)

end Relay

end DroneTurret
