import DroneTurret.Relay.Server

/-!
# Loading the table

`main` stores one record of `idpasswd.txt` after the other in the array it has allocated, and tests
behind each store whether there is room for another one. The test lets one record too many through.
The slots that no record is for keep the 0 that `calloc` put in their `fd`, which the server takes
for a client that is logged in.

## Main definitions

* `loadFile` — the loop, with the slots it stores to
* `Inert` — a slot that no login finds and no message reaches
* `Loads` — what the loop is for

## Main results

* `table_loadFile` — the table is that of the records
* `loads_iff` — the loop does what it is for with exactly as many records as there are slots
-/

namespace DroneTurret

namespace Relay

open CString Function

/-! ### The loop -/

/-- The array that `calloc` returned, and the slots that have been stored to. -/
structure Loading where
  table : Table
  stores : List ℕ

/-- The stores for a record. Outside the array there is nothing the model could change. -/
def Loading.store (l : Loading) (i : ℕ) (record : Word × Word) : Loading where
  table :=
    if h : i < maxClnt then
      update l.table ⟨i, h⟩ { l.table ⟨i, h⟩ with fd := -1, id := record.1, pw := record.2 }
    else l.table
  stores := l.stores ++ [i]

/-- The loop from slot `i` on, until `fscanf` finds no record. -/
def loadLoop (i : ℕ) (l : Loading) : List (Word × Word) → Loading
  | [] => l
  | record :: records =>
    if i + 1 > maxClnt then l.store i record else loadLoop (i + 1) (l.store i record) records

def loadFile (records : List (Word × Word)) : Loading := loadLoop 0 ⟨fun _ => .calloc, []⟩ records

/-- The server when it has loaded a table, with what is in `idpasswd`. -/
def Server.loaded (table : Table) (buf : List Byte) : Server where
  table := table
  clntCnt := 0
  buffer := .null buf
  pc := .accepting
  threads := []
  socks _ := none
  conns := 0
  auth _ := none
  holder _ := none
  writes := []

/-- A slot that no login finds, no message is written to, and no list of ids differs by. -/
structure Inert (t : Table) (k : Fin maxClnt) : Prop where
  unmatched : ∀ p0 p1, search t p0 p1 (List.finRange maxClnt) ≠ .connected k ∧
    search t p0 p1 (List.finRange maxClnt) ≠ .alreadyLogged k
  unwritten : ∀ info, slotWrite t info k = none
  unlisted : ∀ msg, idlistText (t.setFd k (-1)) msg = idlistText t msg

/-- What the loader is for: it stays inside the array, puts every record that has a slot there, and
leaves the other slots inert in every run of the server. -/
structure Loads (records : List (Word × Word)) : Prop where
  inside : ∀ i ∈ (loadFile records).stores, i < maxClnt
  filled : ∀ (k : Fin maxClnt) (record : Word × Word), records[k.val]? = some record →
    (loadFile records).table k = { ClientInfo.calloc with fd := -1, id := record.1, pw := record.2 }
  inert : ∀ k : Fin maxClnt, records.length ≤ k.val → ∀ buf as s,
    server.run (fun _ _ => True) (.loaded (loadFile records).table buf) as = some s →
      Inert s.table k

/-! ### What the loop does -/

/-- The slots are stored to in order, up to one behind the last. -/
theorem stores_loadLoop {i : ℕ} (hi : i ≤ maxClnt) (l : Loading) (records : List (Word × Word)) :
    (loadLoop i l records).stores =
      l.stores ++ List.range' i (min records.length (maxClnt + 1 - i)) := by
  induction records generalizing i l with
  | nil => rw [loadLoop, List.length_nil, Nat.zero_min, List.range'_zero, List.append_nil]
  | cons record records ih =>
    rw [loadLoop, List.length_cons]
    split_ifs with hfull
    · have hone : min (records.length + 1) (maxClnt + 1 - i) = 1 := by omega
      rw [hone]
      rfl
    · have hmore : min (records.length + 1) (maxClnt + 1 - i) =
          min records.length (maxClnt + 1 - (i + 1)) + 1 := by omega
      rw [ih (by omega), hmore, List.range'_succ, Loading.store, List.append_assoc]
      rfl

/-- A slot from `i` on gets its record, if there is one. -/
theorem table_loadLoop (i : ℕ) (l : Loading) (records : List (Word × Word)) (k : Fin maxClnt) :
    (loadLoop i l records).table k =
      if i ≤ k.val then
        (records[k.val - i]?).elim (l.table k) fun record =>
          { l.table k with fd := -1, id := record.1, pw := record.2 }
      else l.table k := by
  induction records generalizing i l with
  | nil => rw [loadLoop, List.getElem?_nil, Option.elim_none, ite_self]
  | cons record records ih =>
    have hk := k.isLt
    -- the slot itself, and those behind it
    have hself : ∀ h : i < maxClnt, (l.store i record).table ⟨i, h⟩ =
        { l.table ⟨i, h⟩ with fd := -1, id := record.1, pw := record.2 } := by
      intro h
      rw [Loading.store]
      dsimp only
      rw [dif_pos h, update_self]
    have hother : i ≠ k.val → (l.store i record).table k = l.table k := by
      intro hne
      rw [Loading.store]
      dsimp only
      split_ifs with h
      · exact update_of_ne (fun heq => hne (congrArg Fin.val heq).symm) _ _
      · rfl
    rw [loadLoop]
    split_ifs with hfull hle hle
    · omega
    · exact hother (by omega)
    · rw [ih]
      rcases Nat.eq_or_lt_of_le hle with heq | hlt
      · subst heq
        rw [if_neg (Nat.not_succ_le_self _), Nat.sub_self, List.getElem?_cons_zero]
        exact hself hk
      · rw [if_pos (by omega), hother hlt.ne, List.getElem?_cons, if_neg (by omega),
          show k.val - i - 1 = k.val - (i + 1) by omega]
    · rw [ih, if_neg (by omega), hother (by omega)]

theorem stores_loadFile (records : List (Word × Word)) :
    (loadFile records).stores = List.range (min records.length (maxClnt + 1)) := by
  rw [loadFile, stores_loadLoop (Nat.zero_le _), List.range_eq_range', Nat.sub_zero]
  rfl

/-- **The table** is that of the records, whatever is stored behind it. -/
theorem table_loadFile (records : List (Word × Word)) :
    (loadFile records).table = load records := by
  funext k
  rw [loadFile, table_loadLoop, if_pos (Nat.zero_le _), Nat.sub_zero, load]
  cases records[k.val]? <;> rfl

/-! ### The slots without a record -/

/-- A message to all is written to descriptor 0, for a slot that no record is for. -/
theorem not_inert_calloc {t : Table} {k : Fin maxClnt} (h : t k = .calloc) : ¬Inert t k := by
  intro hinert
  have hwrite : slotWrite t ⟨0, allmsg, []⟩ k = some (0, []) := by
    rw [slotWrite, h, if_pos ⟨by decide, .inl rfl⟩]
    rfl
  rw [hinert.unwritten] at hwrite
  cases hwrite

/-- **Credential loading.** The loader does what it is for exactly if there is a record for every
slot and no other: with one more it stores behind the array, with one less it leaves a slot that
messages are written to. -/
theorem loads_iff (records : List (Word × Word)) :
    Loads records ↔ records.length = maxClnt := by
  constructor
  · intro h
    have hle : records.length ≤ maxClnt := by
      by_contra hlong
      have hlast := h.inside maxClnt (by
        rw [stores_loadFile, List.mem_range]
        omega)
      exact absurd hlast (Nat.lt_irrefl _)
    by_contra hne
    have hlt : records.length < maxClnt := Nat.lt_of_le_of_ne hle hne
    have hinert := h.inert ⟨records.length, hlt⟩ (Nat.le_refl _) [] [] _ rfl
    refine not_inert_calloc ?_ hinert
    change (loadFile records).table _ = _
    rw [table_loadFile, load]
    dsimp only
    rw [List.getElem?_eq_none (Nat.le_refl _)]
  · intro hlen
    refine ⟨fun i hi => ?_, fun k record hk => ?_, fun k hk => ?_⟩
    · rw [stores_loadFile, List.mem_range] at hi
      omega
    · rw [table_loadFile, load, hk]
    · have := k.isLt
      omega

/-- A file with one record more than there are slots. -/
theorem not_loads : ¬∀ records, Loads records := by
  intro h
  have hinside := (h (List.replicate 33 (.ofString "A", .ofString "PASSWD"))).inside 32 (by
    rw [stores_loadFile, List.length_replicate]
    decide)
  exact absurd hinside (by decide)

end Relay

end DroneTurret
