import DroneTurret.DbClient.Receive
import DroneTurret.Keymap

/-!
# The events that the database client records

`handle_from_rpi` takes a payload apart at its first `@`: a letter of the key map in front of it and
a level behind it, with white space around either. What is behind the `@` is all of the level, so a
payload with a third field is not recorded.

## Main definitions

* `handleFromRpi` — the event that is inserted
* `recorded` — the events for one `read`

## Main results

* `Fields.handleFromRpi_eq` — a payload with a third field
-/

namespace DroneTurret

namespace DbClient

open CString Relay Trim

/-- A sector and its level, as they are inserted into the table of events. -/
structure SectorEvent where
  locate : Byte
  level : ℕ
  deriving DecidableEq

/-- The separator `@`. -/
abbrev atSign : Byte := '@'.toUInt8

/-- `toupper` of the C locale. -/
def toupper (b : Byte) : Byte := if 97 ≤ b && b ≤ 122 then b - 32 else b

/-- `trim_inplace`: the end is trimmed first. -/
def trimInplace (s : List Byte) : List Byte := (s.rdropWhile isSpace).dropWhile isSpace

def isValidLoc (c : Byte) : Bool := c ≠ 0 && toupper c ∈ bytes "QWEASDZXC"

def isValidLevelDigit (c : Byte) : Bool := '1'.toUInt8 ≤ c && c ≤ '3'.toUInt8

/-- The level behind the `@`: a digit, or a digit behind an `L`. -/
def levelOf : List Byte → Option ℕ
  | [c] => if isValidLevelDigit c then some (c.toNat - 48) else none
  | [l, c] =>
    if (l = 'L'.toUInt8 ∨ l = 'l'.toUInt8) ∧ isValidLevelDigit c then some (c.toNat - 48) else none
  | _ => none

/-- The event of the copy `tmp` of a payload. -/
def parse (tmp : List Byte) : Option SectorEvent :=
  match memchr tmp atSign with
  | none => none
  | some (loc, lvl) =>
    match trimInplace loc with
    | [c] =>
      if isValidLoc (toupper c) then (levelOf (trimInplace lvl)).map fun n => ⟨toupper c, n⟩
      else none
    | _ => none

/-- The event that is inserted for a payload. -/
def handleFromRpi (payload : List Byte) : Option SectorEvent :=
  let payload := cString payload
  if payload = [] then none else parse (trimInplace (payload.take (bufSize - 1)))

/-- The events that are inserted for what one `read` returns, with nothing left from before. -/
def recorded (rd : List Byte) : List SectorEvent :=
  (recv [] rd).1.filterMap fun c => if c.handler = .fromRpi then handleFromRpi c.payload else none

/-! ### White space around a payload -/

/-- What starts and ends with no blank is kept, whatever comes behind it. -/
theorem trim_keeps {u : List Byte} (hne : u ≠ []) (hu : Tight isSpace u) (v : List Byte) :
    trim isSpace (u ++ v) = u ++ v.rdropWhile isSpace := by
  have hsplit : u ++ v = [] ++ (u ++ v.rdropWhile isSpace) ++ v.rtakeWhile isSpace := by
    simp [List.rdropWhile_append_rtakeWhile]
  rw [hsplit]
  refine trim_eq (List.forall_mem_nil _) (fun b hb => List.mem_rtakeWhile_imp hb)
    ⟨fun b hb => ?_, fun b hb => ?_⟩
  · rw [List.head?_append_of_ne_nil u hne] at hb
    exact hu.head b hb
  · by_cases hnil : v.rdropWhile isSpace = []
    · rw [hnil, List.append_nil] at hb
      exact hu.last b hb
    · rw [List.getLast?_append_of_ne_nil _ hnil, List.getLast?_eq_some_getLast hnil] at hb
      rw [← Option.some.inj hb]
      exact Bool.not_eq_true _ ▸ List.rdropWhile_last_not isSpace v hnil

/-- The order in which the ends are trimmed makes no difference. -/
theorem trimInplace_eq (s : List Byte) : trimInplace s = trim isSpace s := by
  obtain ⟨lead, tail, hs, hlead, htail, htight⟩ := trim_decomp (p := isSpace) s
  generalize trim isSpace s = u at hs htight
  by_cases hnil : u = []
  · have hall : ∀ b ∈ s, isSpace b := by
      intro b hb
      rw [hs, hnil, List.append_nil] at hb
      exact (List.mem_append.mp hb).elim (hlead b) (htail b)
    rw [trimInplace, List.rdropWhile_eq_nil_iff.mpr hall, hnil]
    rfl
  · have hlast : ∀ b ∈ (lead ++ u).getLast?, isSpace b = false := by
      rw [List.getLast?_append_of_ne_nil _ hnil]
      exact htight.last
    rw [trimInplace, hs, rdropWhile_append htail hlast, dropWhile_append hlead htight.head]

/-! ### A third field -/

theorem levelOf_of_at {c : Byte} (hc : c ≠ 'L'.toUInt8 ∧ c ≠ 'l'.toUInt8) (rest : List Byte) :
    levelOf (c :: atSign :: rest) = none := by
  cases rest with
  | nil => exact if_neg fun h => h.1.elim hc.1 hc.2
  | cons d rest => rfl

/-- The first bytes of a payload with a third field: its sector, its level and what ends them. -/
structure Fields (key digit : Byte) : Prop where
  key_plain : isSpace key = false ∧ key ≠ 0 ∧ key ≠ atSign
  digit_plain : isSpace digit = false ∧ digit ≠ 0
  digit_level : digit ≠ 'L'.toUInt8 ∧ digit ≠ 'l'.toUInt8

section Fields

variable {key digit : Byte} (h : Fields key digit) (third : List Byte)
include h

theorem Fields.cString_eq : cString (key :: atSign :: digit :: atSign :: third) =
    key :: atSign :: digit :: atSign :: cString third := by
  have hall : ∀ b ∈ [key, atSign, digit, atSign], (b != 0) = true := by
    intro b hb
    simp only [List.mem_cons, List.not_mem_nil, or_false] at hb
    rcases hb with rfl | rfl | rfl | rfl
    · simpa using h.key_plain.2.1
    · rfl
    · simpa using h.digit_plain.2
    · rfl
  exact List.takeWhile_append_of_pos hall

theorem Fields.trim_eq : trim isSpace (key :: atSign :: digit :: atSign :: third) =
    key :: atSign :: digit :: atSign :: third.rdropWhile isSpace := by
  have htight : Tight isSpace [key, atSign, digit, atSign] := by
    refine ⟨fun b hb => ?_, fun b hb => ?_⟩
    · obtain rfl : key = b := Option.some.inj hb
      exact h.key_plain.1
    · obtain rfl : atSign = b := Option.some.inj hb
      rfl
  exact trim_keeps (List.cons_ne_nil _ _) htight third

theorem Fields.parse_eq : parse (key :: atSign :: digit :: atSign :: third) = none := by
  have hsplit : memchr (key :: atSign :: digit :: atSign :: third) atSign =
      some ([key], digit :: atSign :: third) :=
    memchr_eq_some_iff.mpr ⟨rfl, by simpa using h.key_plain.2.2.symm⟩
  have hloc : trimInplace [key] = [key] := by
    rw [trimInplace_eq]
    exact trim_eq_self ⟨fun b hb => Option.some.inj hb ▸ h.key_plain.1, fun b hb =>
      Option.some.inj hb ▸ h.key_plain.1⟩
  have htight : Tight isSpace [digit, atSign] := by
    refine ⟨fun b hb => ?_, fun b hb => ?_⟩
    · obtain rfl : digit = b := Option.some.inj hb
      exact h.digit_plain.1
    · obtain rfl : atSign = b := Option.some.inj hb
      rfl
  have hlvl : levelOf (trimInplace (digit :: atSign :: third)) = none := by
    rw [trimInplace_eq, show digit :: atSign :: third = [digit, atSign] ++ third from rfl,
      trim_keeps (List.cons_ne_nil _ _) htight]
    exact levelOf_of_at h.digit_level _
  rw [parse, hsplit]
  dsimp only
  rw [hloc]
  dsimp only
  rw [hlvl, Option.map_none, ite_self]

/-- **A payload with a third field is not recorded.** -/
theorem Fields.handleFromRpi_eq :
    handleFromRpi (key :: atSign :: digit :: atSign :: third) = none := by
  have htake : (key :: atSign :: digit :: atSign :: cString third).take (bufSize - 1) =
      key :: atSign :: digit :: atSign :: (cString third).take 95 := rfl
  rw [handleFromRpi, h.cString_eq, if_neg (List.cons_ne_nil _ _), htake, trimInplace_eq, h.trim_eq,
    h.parse_eq]

end Fields

end DbClient

end DroneTurret
