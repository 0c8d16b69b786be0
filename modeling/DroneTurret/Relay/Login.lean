import DroneTurret.Relay.Scanner

/-!
# The login loop

One iteration of the accept loop of `main`: a connection is accepted, one `read` is taken for its
login message, and the first two strings of the token loop are looked up in the table as id and
password.

The search loop stops at the first slot of the id that is either logged in or has the password;
`search_eq` says so without the loop. A comparison with a NULL entry is `Answer.undefined`.
-/

namespace DroneTurret

namespace Relay

open CString Tokens

/-- `sizeof(idpasswd)`. -/
abbrev idpasswdSize : ℕ := idSize * 2 + 3

/-- How an iteration of the accept loop ends. -/
inductive Answer
  | socketFull
  | acceptFailed
  /-- `read` returned 0 or −1. -/
  | hungUp
  /-- `[%s] Already logged!` -/
  | alreadyLogged (i : Fin maxClnt)
  /-- `[%s] New connected!` -/
  | connected (i : Fin maxClnt)
  /-- `[%s] Authentication Error!` -/
  | authError
  /-- A NULL entry was compared. -/
  | undefined
  deriving DecidableEq

/-- The search loop over the slots that are left. -/
def search (t : Table) (pArray0 pArray1 : Option (List Byte)) : List (Fin maxClnt) → Answer
  | [] => .authError
  | i :: slots =>
    match pArray0 with
    | none => .undefined
    | some id =>
      if (t i).id.val = id then
        if (t i).fd ≠ -1 then .alreadyLogged i
        else
          match pArray1 with
          | none => .undefined
          | some pw => if (t i).pw.val = pw then .connected i else search t pArray0 pArray1 slots
      else search t pArray0 pArray1 slots

/-- The globals and locals of `main` that outlive an iteration. -/
structure MainState where
  table : Table
  clntCnt : ℤ
  /-- `idpasswd` and `pArray`. -/
  buffer : Scanner

/-- The iteration from the `read` to the answer. A slot that is found logged in is marked free, the
branch `for MCU`. -/
def MainState.authenticate (m : MainState) (rd : Option (List Byte)) : Answer × MainState :=
  match rd with
  | none => (.hungUp, m)
  | some rd =>
    if rd = [] then
      (.hungUp, { m with buffer := { m.buffer with buf := storeRead m.buffer.buf [] } })
    else
      let m' := { m with buffer := m.buffer.scan rd }
      match search m.table (m.buffer.firstTwo rd).1 (m.buffer.firstTwo rd).2
          (List.finRange maxClnt) with
      | .alreadyLogged i => (.alreadyLogged i, { m' with table := m.table.setFd i (-1) })
      | answer => (answer, m')

/-- What `main` does between the lock and the unlock. -/
def MainState.register (m : MainState) (i : Fin maxClnt) (clntSock : ℤ) (ip : List Byte) :
    MainState :=
  { m with table := m.table.register i clntSock ip, clntCnt := m.clntCnt + 1 }

/-- Register the connection if it has been admitted. -/
def conclude (clntSock : ℤ) (ip : List Byte) : Answer × MainState → Answer × MainState
  | (.connected i, m) => (.connected i, m.register i clntSock ip)
  | r => r

/-- One iteration of the accept loop: `accept` returned `clntSock`, and `read` returned the bytes
`rd`, or −1 when there are none. -/
def MainState.iterate (m : MainState) (clntSock : ℤ) (ip : List Byte) (rd : Option (List Byte)) :
    Answer × MainState :=
  if m.clntCnt ≥ maxClnt then (.socketFull, m)
  else if clntSock < 0 then (.acceptFailed, m)
  else conclude clntSock ip (m.authenticate rd)

/-- `main` before its first connection, with the repository's table. -/
def MainState.startUp : MainState :=
  ⟨load idpasswdTxt, 0, .null (List.replicate idpasswdSize 0)⟩

/-! ### What the search finds -/

/-- The slots the loop stops at. -/
def Table.stops (t : Table) (id pw : List Byte) (i : Fin maxClnt) : Bool :=
  (t i).id.val = id && ((t i).fd ≠ -1 || (t i).pw.val = pw)

/-- The search on two strings. -/
theorem search_eq (t : Table) (id pw : List Byte) (slots : List (Fin maxClnt)) :
    search t (some id) (some pw) slots =
      match slots.find? (t.stops id pw) with
      | none => .authError
      | some i => if (t i).fd ≠ -1 then .alreadyLogged i else .connected i := by
  induction slots with
  | nil => rfl
  | cons i slots ih =>
    rw [search, ih]
    by_cases hid : (t i).id.val = id
    · by_cases hfd : (t i).fd = -1
      · by_cases hpw : (t i).pw.val = pw
        · have hstop : t.stops id pw i = true := by simp [Table.stops, hid, hpw]
          simp [hid, hfd, hpw, List.find?_cons_of_pos hstop]
        · have hstop : ¬t.stops id pw i = true := by simp [Table.stops, hid, hpw, hfd]
          simp only [hid, hfd, hpw, List.find?_cons_of_neg hstop]
          simp
      · have hstop : t.stops id pw i = true := by simp [Table.stops, hid, hfd]
        simp [hid, hfd, List.find?_cons_of_pos hstop]
    · have hstop : ¬t.stops id pw i = true := by simp [Table.stops, hid]
      rw [if_neg hid, List.find?_cons_of_neg hstop]

/-- The search with the second entry NULL. -/
theorem search_eq_none_right (t : Table) (id : List Byte) (slots : List (Fin maxClnt)) :
    search t (some id) none slots =
      match slots.find? fun i => (t i).id.val = id with
      | none => .authError
      | some i => if (t i).fd ≠ -1 then .alreadyLogged i else .undefined := by
  induction slots with
  | nil => rfl
  | cons i slots ih =>
    rw [search, ih]
    by_cases hid : (t i).id.val = id
    · simp [hid]
    · simp [hid]

theorem search_none_left (t : Table) (p1 : Option (List Byte)) (i : Fin maxClnt)
    (slots : List (Fin maxClnt)) : search t none p1 (i :: slots) = .undefined := by
  rw [search]

/-- A slot that a login is found for is free and has the two strings looked up. -/
theorem search_connected {t : Table} {p0 p1 : Option (List Byte)} {slots : List (Fin maxClnt)}
    {i : Fin maxClnt} (h : search t p0 p1 slots = .connected i) :
    p0 = some (t i).id.val ∧ p1 = some (t i).pw.val ∧ (t i).fd = -1 := by
  cases p0 with
  | none =>
    cases slots with
    | nil => cases h
    | cons j slots => rw [search_none_left] at h; cases h
  | some id =>
    cases p1 with
    | none =>
      rw [search_eq_none_right] at h
      split at h
      · cases h
      · split_ifs at h
    | some pw =>
      rw [search_eq] at h
      split at h
      · cases h
      · rename_i j hfind
        split_ifs at h with hfd
        obtain rfl : j = i := by simpa using h
        have hstop := List.find?_some hfind
        simp only [Table.stops, Bool.and_eq_true, Bool.or_eq_true, decide_eq_true_eq, hfd,
          false_or] at hstop
        exact ⟨by rw [hstop.1], by rw [hstop.2], not_not.mp hfd⟩

/-! ### What the answer does -/

/-- The answer is given before the connection is registered. -/
@[simp] theorem conclude_fst (clntSock : ℤ) (ip : List Byte) (r : Answer × MainState) :
    (conclude clntSock ip r).1 = r.1 := by
  unfold conclude
  split <;> rfl

/-- Nothing more happens to a connection that is not admitted. -/
theorem conclude_of_ne {r : Answer × MainState} (h : ∀ i, r.1 ≠ .connected i) (clntSock : ℤ)
    (ip : List Byte) : conclude clntSock ip r = r := by
  unfold conclude
  split
  · rename_i i m
    exact absurd rfl (h i)
  · rfl

theorem conclude_table_words (clntSock : ℤ) (ip : List Byte) (r : Answer × MainState)
    (j : Fin maxClnt) : ((conclude clntSock ip r).2.table j).id = (r.2.table j).id ∧
      ((conclude clntSock ip r).2.table j).pw = (r.2.table j).pw := by
  unfold conclude
  split
  · simp [MainState.register]
  · exact ⟨rfl, rfl⟩

/-- What an answer to a message does to the state. -/
theorem authenticate_cases (m : MainState) {rd : List Byte} (hrd : rd ≠ []) :
    (∃ i, m.authenticate (some rd) = (.alreadyLogged i,
        { m with buffer := m.buffer.scan rd, table := m.table.setFd i (-1) }) ∧
      search m.table (m.buffer.firstTwo rd).1 (m.buffer.firstTwo rd).2 (List.finRange maxClnt) =
        .alreadyLogged i) ∨
    ∃ answer, (∀ i, answer ≠ .alreadyLogged i) ∧
      m.authenticate (some rd) = (answer, { m with buffer := m.buffer.scan rd }) ∧
      search m.table (m.buffer.firstTwo rd).1 (m.buffer.firstTwo rd).2 (List.finRange maxClnt) =
        answer := by
  rw [MainState.authenticate, if_neg hrd]
  cases h : search m.table (m.buffer.firstTwo rd).1 (m.buffer.firstTwo rd).2
      (List.finRange maxClnt) with
  | alreadyLogged i => exact .inl ⟨i, rfl, rfl⟩
  | _ => exact .inr ⟨_, fun _ h => (by cases h), rfl, rfl⟩

/-- Without a message nothing is answered, and the table and the counter are not touched. -/
theorem authenticate_of_no_message (m : MainState) {rd : Option (List Byte)}
    (h : ∀ s ∈ rd, s = []) :
    (m.authenticate rd).1 = .hungUp ∧ (m.authenticate rd).2.table = m.table ∧
      (m.authenticate rd).2.clntCnt = m.clntCnt := by
  cases rd with
  | none => exact ⟨rfl, rfl, rfl⟩
  | some s =>
    obtain rfl : s = [] := h s rfl
    exact ⟨rfl, rfl, rfl⟩

/-- The ids and passwords of the table never change. -/
theorem authenticate_table_words (m : MainState) (rd : Option (List Byte)) (j : Fin maxClnt) :
    ((m.authenticate rd).2.table j).id = (m.table j).id ∧
      ((m.authenticate rd).2.table j).pw = (m.table j).pw := by
  by_cases hrd : ∀ s ∈ rd, s = []
  · rw [(authenticate_of_no_message m hrd).2.1]
    exact ⟨rfl, rfl⟩
  · push Not at hrd
    obtain ⟨s, rfl, hs⟩ := hrd
    rcases authenticate_cases m hs with ⟨i, h, -⟩ | ⟨answer, -, h, -⟩
    · rw [h]
      simp
    · rw [h]
      exact ⟨rfl, rfl⟩

end Relay

end DroneTurret
