import DroneTurret.Lib.CString

/-!
# The 3×3 key map

`KEYMAP` names the nine sectors of the camera frame by the letters around `S` on a keyboard. The
vision programs send the letter of the sector a target is in, and the firmware moves the servos
by it. `dx` and `dy` read a letter back as a direction, column and row relative to the middle;
they are the purpose of the grid and not a table of either program.
-/

namespace DroneTurret

open CString

/-- `KEYMAP`, row by row from the top. -/
def keymap : List (List Byte) := [bytes "QWE", bytes "ASD", bytes "ZXC"]

/-- The letter in a row and a column, both counted from 0. -/
def keyAt (row col : ℕ) : Byte := (keymap.getD row []).getD col 0

/-- Left column −1, right column +1, anything else 0. -/
def dx (key : Byte) : ℤ :=
  if key ∈ [keyAt 0 0, keyAt 1 0, keyAt 2 0] then -1
  else if key ∈ [keyAt 0 2, keyAt 1 2, keyAt 2 2] then 1
  else 0

/-- Top row +1, bottom row −1, anything else 0. -/
def dy (key : Byte) : ℤ :=
  if key ∈ [keyAt 0 0, keyAt 0 1, keyAt 0 2] then 1
  else if key ∈ [keyAt 2 0, keyAt 2 1, keyAt 2 2] then -1
  else 0

end DroneTurret
