import DroneTurret.Lib.Decimal
import DroneTurret.Relay.Routing
import Mathlib.Algebra.Order.Monoid.WithTop

/-!
# The target report of the vision system

`send_loop` writes the adjusted target, its depth and its label as one line to the relay server.
The numbers are printed in decimal, so no field can hold a separator of the line or a delimiter of
the relay server. An infinite depth, which stands for one that could not be measured, is printed as
`inf`.

## Main results

* `field_target` — the part behind the destination is one token for the relay server
* `length_sendLoop_lt` — a report on a drone fits one `read` of the relay server
-/

namespace DroneTurret

namespace Vision

open CString Decimal Relay

/-- `WIDTH` of the frame. -/
def width : ℤ := 1280

/-- `HEIGHT` of the frame. -/
def height : ℤ := 720

/-- `depth_val`: a depth that is not positive counts as none. -/
def depthVal : Option (WithTop ℚ) → WithTop ℚ
  | none => 0
  | some z => if 0 < z then z else 0

/-- `{:.3f}` of a depth. -/
def formatDepth : WithTop ℚ → List Byte
  | ⊤ => bytes "inf"
  | (z : ℚ) => fixed 3 z

/-- `payload` of `send_loop`. -/
def targetPayload (adjX adjY : ℤ) (depth : Option (WithTop ℚ)) (label : List Byte) : List Byte :=
  paddedInt 0 adjX ++ bytes "@" ++ paddedInt 0 adjY ++ bytes "@" ++
    formatDepth (depthVal depth) ++ bytes "@" ++ label ++ bytes "\n"

/-- `send_loop`: what is sent for an adjusted target. -/
def sendLoop (adjX adjY : ℤ) (depth : Option (WithTop ℚ)) (label : List Byte) : List Byte :=
  let payload := targetPayload adjX adjY depth label
  if payload.head? = some '['.toUInt8 then payload else bytes "[QTCLIENT]" ++ payload

theorem depthVal_of_nonneg {z : WithTop ℚ} (h : 0 ≤ z) : depthVal (some z) = z := by
  rw [depthVal]
  split_ifs with hz
  · rfl
  · exact le_antisymm h (not_lt.mp hz)

/-- A depth that is a number is printed with three decimals. -/
theorem formatDepth_depthVal {z : ℚ} (h : 0 ≤ z) : formatDepth (depthVal (some z)) = fixed 3 z := by
  rw [depthVal_of_nonneg (WithTop.coe_nonneg.mpr h)]
  rfl

/-- A numeral that is not negative is printed without a sign. -/
theorem paddedInt_of_nonneg {n : ℤ} (h : 0 ≤ n) : paddedInt 0 n = digits n.natAbs := by
  rw [paddedInt, if_neg (not_lt.mpr h), padded, Nat.zero_sub]
  rfl

/-- What a digit is not. -/
theorem of_isDigit {b : Byte} (h : isDigit b = true) :
    b ≠ 0 ∧ isDelim b = false ∧ isSpace b = false ∧ b ≠ '@'.toUInt8 ∧ b ≠ '.'.toUInt8 := by
  obtain ⟨d, hd, rfl⟩ := exists_digit h
  interval_cases d <;> decide

/-- The payload of a report on a drone, field by field. -/
theorem targetPayload_eq {x y : ℤ} (hx : 0 ≤ x) (hy : 0 ≤ y) {z : ℚ} (hz : 0 ≤ z) :
    ∃ i f, targetPayload x y (some z) (bytes "drone") =
        digits x.natAbs ++ bytes "@" ++ digits y.natAbs ++ bytes "@" ++
          (digits i ++ bytes "." ++ padded 3 f) ++ bytes "@" ++ bytes "drone" ++ bytes "\n" ∧
      f < 1000 ∧ (i : ℚ) + f / 10 ^ 3 = roundTo 3 z ∧ ∀ n : ℕ, z < n → i ≤ n := by
  obtain ⟨i, f, hfixed, hf, hvalue, hi⟩ := fixed_eq 3 hz
  refine ⟨i, f, ?_, hf, hvalue, hi⟩
  rw [targetPayload, formatDepth_depthVal hz, paddedInt_of_nonneg hx, paddedInt_of_nonneg hy,
    hfixed]

/-- The bytes of a report behind its destination. -/
theorem field_target {x y : ℤ} (hx : 0 ≤ x) (hy : 0 ≤ y) {z : ℚ} (hz : 0 ≤ z) :
    Field (targetPayload x y (some z) (bytes "drone")) := by
  obtain ⟨i, f, hpayload, -⟩ := targetPayload_eq hx hy hz
  have hdigits : ∀ n, ∀ b ∈ digits n, b ≠ 0 ∧ isDelim b = false := fun n b hb =>
    ⟨(of_isDigit (isDigit_of_mem_digits hb)).1, (of_isDigit (isDigit_of_mem_digits hb)).2.1⟩
  have hpadded : ∀ b ∈ padded 3 f, b ≠ 0 ∧ isDelim b = false := fun b hb =>
    ⟨(of_isDigit (isDigit_of_mem_padded hb)).1, (of_isDigit (isDigit_of_mem_padded hb)).2.1⟩
  have hplain : ∀ s ∈ ["@", ".", "drone", "\n"], ∀ b ∈ bytes s, b ≠ 0 ∧ isDelim b = false := by
    intro s hs
    simp only [List.mem_cons, List.not_mem_nil, or_false] at hs
    rcases hs with rfl | rfl | rfl | rfl <;> exact forall_mem_of_all rfl
  rw [hpayload]
  refine ⟨by simp [bytes], fun b hb => ?_⟩
  simp only [List.mem_append] at hb
  rcases hb with ((((((hb | hb) | hb) | hb) | ((hb | hb) | hb)) | hb) | hb) | hb
  · exact hdigits _ b hb
  · exact hplain "@" (by simp) b hb
  · exact hdigits _ b hb
  · exact hplain "@" (by simp) b hb
  · exact hdigits _ b hb
  · exact hplain "." (by simp) b hb
  · exact hpadded b hb
  · exact hplain "@" (by simp) b hb
  · exact hplain "drone" (by simp) b hb
  · exact hplain "\n" (by simp) b hb

/-- A report is a message to `QTCLIENT`. -/
theorem sendLoop_eq {x y : ℤ} (hx : 0 ≤ x) (hy : 0 ≤ y) {z : ℚ} (hz : 0 ≤ z) :
    sendLoop x y (some z) (bytes "drone") =
      frame (bytes "QTCLIENT") (targetPayload x y (some z) (bytes "drone")) := by
  have hhead : (targetPayload x y (some z) (bytes "drone")).head? ≠ some '['.toUInt8 := by
    intro h
    have hmem := (field_target hx hy hz).2 _ (List.mem_of_mem_head? h)
    exact absurd hmem.2 (by decide)
  rw [sendLoop, if_neg hhead]
  rfl

/-- A report on a drone in the frame and less than a kilometre away fits one `read`. -/
theorem length_sendLoop_lt {x y : ℤ} (hx : 0 ≤ x) (hx' : x < 1280) (hy : 0 ≤ y) (hy' : y < 720)
    {z : ℚ} (hz : 0 ≤ z) (hz' : z < 1000) :
    (sendLoop x y (some z) (bytes "drone")).length < bufSize := by
  obtain ⟨i, f, hpayload, hf, -, hi⟩ := targetPayload_eq hx hy hz
  have hlx : (digits x.natAbs).length ≤ 4 := length_digits_le (by decide) (by omega)
  have hly : (digits y.natAbs).length ≤ 4 := length_digits_le (by decide) (by omega)
  have hli : (digits i).length ≤ 4 := by
    have hle := hi 1000 hz'
    exact length_digits_le (by decide) (by omega)
  have hlf : (padded 3 f).length = 3 := length_padded (by decide) hf
  rw [sendLoop_eq hx hy hz, length_frame, hpayload]
  simp only [List.length_append, hlf]
  change 8 + ((((((digits x.natAbs).length + 1 + (digits y.natAbs).length) + 1) +
    ((digits i).length + 1 + 3)) + 1) + 5 + 1) + 2 < 100
  omega

end Vision

end DroneTurret
