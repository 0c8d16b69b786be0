import DroneTurret.DbClient.GetDb

/-!
# What is written of the answer to `GETDB`

Every line is printed with `snprintf`, which stores what fits and reports the length of all of it,
and as many bytes as it reports are written. The arrays leave room for a client's id. A tag is
whatever stands between two brackets, though, and a row is as wide as the table has it, so the line
has to be measured: it is written as it is printed when it is shorter than its array.

## Main definitions

* `writeCalls` — the calls of `write_all`
* `Fits` — the tags and tables for which every line is shorter than its array

## Main results

* `writeCalls_stored_iff` — the calls that write what has been stored
-/

namespace DroneTurret

namespace DbClient

open CString Decimal Relay

/-- A line that is printed into an array of `size` bytes and written. -/
structure WriteCall where
  size : ℕ
  text : List Byte
  deriving DecidableEq

/-- What `snprintf` reports, and `write_all` is given. -/
def WriteCall.length (w : WriteCall) : ℕ := w.text.length

/-- What `snprintf` stores of the line, in front of the NUL. -/
def WriteCall.stored (w : WriteCall) : List Byte := w.text.take (w.size - 1)

/-- The calls of `write_all` that `handle_getdb` makes. -/
def writeCalls (replyTo : List Byte) (r : Results) : List WriteCall :=
  if replyTo = [] then [] else (lines r).map fun l => ⟨l.1, frame replyTo l.2⟩

/-- The messages are what these calls write. -/
theorem handleGetdb_eq (replyTo : List Byte) (r : Results) :
    handleGetdb replyTo r = (writeCalls replyTo r).mapM fun w => printAll w.size w.text := by
  rw [handleGetdb, writeCalls]
  split_ifs
  · rfl
  · rw [List.mapM_map]
    rfl

theorem WriteCall.stored_iff {w : WriteCall} (h : 0 < w.size) :
    w.length ≤ w.stored.length ↔ w.text.length < w.size := by
  rw [length, stored, List.length_take]
  omega

/-- The widths of the columns of a row. -/
def ResultRow.width (row : ResultRow) : ℕ :=
  (column row.ts).length + (column row.lc).length + (column row.lv).length

/-- The tag leaves room for the number of rows, and, if there are any to be had, for the last line
and for each row. -/
def Fits (tag : List Byte) (r : Results) : Prop :=
  tag.length + (digits (r.count.getD 0)).length ≤ 63 ∧
    ∀ rows ∈ r.rows, tag.length ≤ 39 ∧ ∀ row ∈ rows, tag.length + row.width ≤ 78

/-! ### The lengths of the lines -/

theorem length_beginLine (n : ℕ) : (beginLine n).length = 18 + (digits n).length := by
  simp only [beginLine, bytes, List.length_append, List.length_map]
  have hbegin : "GETDB_BEGIN rows=".toList.length = 17 := rfl
  have hend : "\n".toList.length = 1 := rfl
  omega

theorem length_rowLine (row : ResultRow) : (rowLine row).length = 3 + row.width := by
  simp only [rowLine, ResultRow.width, bytes, List.length_append, List.length_map]
  have hcomma : ",".toList.length = 1 := rfl
  have hend : "\n".toList.length = 1 := rfl
  omega

/-- **The lines** are shorter than their arrays exactly for the tags and tables that fit. -/
theorem lines_lt_iff (tag : List Byte) (r : Results) :
    (∀ l ∈ lines r, (frame tag l.2).length < l.1) ↔ Fits tag r := by
  have herror : errorLine.length = 6 := rfl
  have hend : endLine.length = 10 := rfl
  have hsize : nameSize = 20 := rfl
  rw [lines, List.forall_mem_cons, Fits, length_frame, length_beginLine]
  cases r.rows with
  | none =>
    simp only [List.forall_mem_cons, length_frame, herror, hend, Option.mem_def, reduceCtorEq,
      false_implies, implies_true, and_true, List.not_mem_nil]
    omega
  | some rows =>
    have hrows : (∀ l ∈ rows.map fun row => (nameSize + 64, rowLine row),
        (frame tag l.2).length < l.1) ↔ ∀ row ∈ rows, tag.length + row.width ≤ 78 := by
      rw [List.forall_mem_map]
      refine forall₂_congr fun row _ => ?_
      rw [length_frame, length_rowLine]
      omega
    rw [List.forall_mem_append, hrows, List.forall_mem_singleton, length_frame, hend]
    simp only [Option.mem_def, Option.some.injEq, forall_eq']
    constructor
    · rintro ⟨hbegin, hall, hlast⟩
      exact ⟨by omega, by omega, hall⟩
    · rintro ⟨hbegin, hlast, hall⟩
      exact ⟨by omega, hall, by omega⟩

/-! ### The calls -/

theorem size_pos {r : Results} {l : ℕ × List Byte} (h : l ∈ lines r) : 0 < l.1 := by
  rw [lines] at h
  rcases List.mem_cons.mp h with rfl | h
  · exact Nat.succ_pos _
  · split at h
    · simp only [List.mem_cons, List.not_mem_nil, or_false] at h
      rcases h with rfl | rfl <;> decide
    · rcases List.mem_append.mp h with h | h
      · obtain ⟨row, -, rfl⟩ := List.mem_map.mp h
        exact Nat.succ_pos _
      · rw [List.mem_singleton.mp h]
        exact Nat.succ_pos _

/-- **Nothing behind the text is written.** For every tag, and so for all that a stream can bring,
each write is of no more bytes than have been stored exactly when there is nobody to answer, or the
tag and the table leave room. -/
theorem writeCalls_stored_iff (tag : List Byte) (r : Results) :
    (∀ w ∈ writeCalls tag r, w.length ≤ w.stored.length) ↔ tag = [] ∨ Fits tag r := by
  rw [writeCalls]
  split_ifs with hnil
  · exact iff_of_true nofun (.inl hnil)
  · rw [← lines_lt_iff, List.forall_mem_map, or_iff_right hnil]
    exact forall₂_congr fun l hl => WriteCall.stored_iff (size_pos hl)

/-- A tag of 64 letters, from a stream that fits one read. -/
def longTag : List Byte := List.replicate 64 'A'.toUInt8

/-- The first line has 85 bytes, and the array 84. -/
theorem not_writeCalls_stored :
    ¬∀ rds : List (List Byte), (∀ rd ∈ rds, rd.length < payloadSize) →
      ∀ c ∈ recvMsg [] rds, c.handler = .getdb → ∀ r, ∀ w ∈ writeCalls c.tag r,
        w.length ≤ w.stored.length := by
  intro h
  have hcall : (⟨.getdb, longTag, bytes "GETDB"⟩ : Call) ∈
      recvMsg [] [bytes "[" ++ longTag ++ bytes "]GETDB\n"] := by decide +kernel
  have hstored := h _ (by decide +kernel) _ hcall rfl ⟨some 0, some []⟩
    ⟨84, frame longTag (beginLine 0)⟩ (by decide +kernel)
  exact absurd hstored (by decide +kernel)

end DbClient

end DroneTurret
