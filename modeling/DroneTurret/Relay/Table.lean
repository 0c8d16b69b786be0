import DroneTurret.Lib.CString
import Mathlib.Logic.Function.Basic

/-!
# The client table of the relay server

`client_info` has one slot for every client that may log in. The slots are filled from
`idpasswd.txt` at start-up and their ids and passwords never change afterwards; only `index`, `fd`
and `ip` do. A slot is free when its `fd` is −1.

The words read by `fscanf("%s")` are short enough for the arrays they are copied to, and hold no
white space: `Word` carries both facts. Slots beyond the records of the file keep what `calloc`
left there, which is the empty id and, not −1 but, 0 for `fd`.
-/

namespace DroneTurret

namespace Relay

open CString

/-- `BUF_SIZE`. -/
abbrev bufSize : ℕ := 100

/-- `MAX_CLNT`. -/
abbrev maxClnt : ℕ := 32

/-- `ID_SIZE`. -/
abbrev idSize : ℕ := 30

/-- `ARR_CNT`. -/
abbrev arrCnt : ℕ := 5

/-- The delimiter string `"[:]"`. -/
def isDelim (b : Byte) : Bool := b == '['.toUInt8 || b == ':'.toUInt8 || b == ']'.toUInt8

/-- The white space of `fscanf`: blank, and tab to carriage return. -/
def isSpace (b : Byte) : Bool := b == 32 || 9 ≤ b && b ≤ 13

/-- A word that `fscanf("%s")` reads into an array of `ID_SIZE` bytes, or the empty string that an
unused array holds. -/
structure Word where
  val : List Byte
  fits : val.length < idSize
  plain : ∀ b ∈ val, b ≠ 0 ∧ isSpace b = false
  deriving DecidableEq

def Word.empty : Word := ⟨[], by decide, by simp⟩

/-- The word spelled by a string, when it is one. -/
def Word.ofString (s : String) : Word :=
  if h : (bytes s).length < idSize ∧ ((bytes s).all fun b => b ≠ 0 ∧ isSpace b = false) then
    ⟨bytes s, h.1, forall_mem_of_all h.2⟩
  else .empty

/-- `CLIENT_INFO`. -/
structure ClientInfo where
  index : ℕ
  fd : ℤ
  ip : List Byte
  id : Word
  pw : Word
  deriving DecidableEq

abbrev Table := Fin maxClnt → ClientInfo

/-- A slot as `calloc` returns it. -/
def ClientInfo.calloc : ClientInfo := ⟨0, 0, [], .empty, .empty⟩

/-- The table loaded from the records of `idpasswd.txt`. -/
def load (records : List (Word × Word)) : Table := fun i =>
  match records[i.val]? with
  | some (id, pw) => { ClientInfo.calloc with fd := -1, id := id, pw := pw }
  | none => .calloc

/-- The records of the repository's `idpasswd.txt`. -/
def idpasswdTxt : List (Word × Word) :=
  (["RASPBERRYPI", "QTCLIENT", "DBCLIENT", "CLIENT"] ++
    ["5", "6", "7", "8", "9", "10", "11", "12", "13", "14", "15", "16", "17", "18", "19", "20",
      "21", "22", "23", "24", "25", "26", "27", "28", "29", "30"] ++
    ["KSH_SQL", "HM_CON"]).map fun id => (.ofString id, .ofString "PASSWD")

/-- A field that an update of one slot leaves alone is the same in every slot. -/
theorem Table.update_field (t : Table) {α : Type*} (field : ClientInfo → α) {i : Fin maxClnt}
    {c : ClientInfo} (hc : field c = field (t i)) (j : Fin maxClnt) :
    field (Function.update t i c j) = field (t j) := by
  by_cases h : j = i
  · subst h
    rw [Function.update_self, hc]
  · rw [Function.update_of_ne h]

/-- Set the descriptor of one slot. -/
def Table.setFd (t : Table) (i : Fin maxClnt) (fd : ℤ) : Table :=
  Function.update t i { t i with fd := fd }

@[simp] theorem Table.setFd_fd_self (t : Table) (i : Fin maxClnt) (fd : ℤ) :
    (t.setFd i fd i).fd = fd := by
  rw [setFd, Function.update_self]

@[simp] theorem Table.setFd_of_ne (t : Table) {i j : Fin maxClnt} (h : j ≠ i) (fd : ℤ) :
    t.setFd i fd j = t j :=
  Function.update_of_ne h _ _

@[simp] theorem Table.setFd_id (t : Table) (i j : Fin maxClnt) (fd : ℤ) :
    (t.setFd i fd j).id = (t j).id :=
  t.update_field ClientInfo.id (c := { t i with fd := fd }) rfl j

@[simp] theorem Table.setFd_pw (t : Table) (i j : Fin maxClnt) (fd : ℤ) :
    (t.setFd i fd j).pw = (t j).pw :=
  t.update_field ClientInfo.pw (c := { t i with fd := fd }) rfl j

/-- Register a connection: the four fields that `main` writes. -/
def Table.register (t : Table) (i : Fin maxClnt) (fd : ℤ) (ip : List Byte) : Table :=
  Function.update t i { t i with index := i, fd := fd, ip := ip }

@[simp] theorem Table.register_self (t : Table) (i : Fin maxClnt) (fd : ℤ) (ip : List Byte) :
    t.register i fd ip i = { t i with index := i, fd := fd, ip := ip } :=
  Function.update_self ..

@[simp] theorem Table.register_of_ne (t : Table) {i j : Fin maxClnt} (h : j ≠ i) (fd : ℤ)
    (ip : List Byte) : t.register i fd ip j = t j :=
  Function.update_of_ne h _ _

@[simp] theorem Table.register_id (t : Table) (i j : Fin maxClnt) (fd : ℤ) (ip : List Byte) :
    (t.register i fd ip j).id = (t j).id :=
  t.update_field ClientInfo.id (c := { t i with index := i, fd := fd, ip := ip }) rfl j

@[simp] theorem Table.register_pw (t : Table) (i j : Fin maxClnt) (fd : ℤ) (ip : List Byte) :
    (t.register i fd ip j).pw = (t j).pw :=
  t.update_field ClientInfo.pw (c := { t i with index := i, fd := fd, ip := ip }) rfl j

end Relay

end DroneTurret
