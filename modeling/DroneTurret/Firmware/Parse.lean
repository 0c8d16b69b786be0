import DroneTurret.Firmware.Servo

/-!
# The command parser

`parsing_command` works on the receive buffer in place: it strips one newline, tokenizes at `@`
with `strtok`, and takes the first byte of the first token and a single level digit from the
second. `decode` is the function up to the point where it knows what to do, with the error it
prints on each of the other paths; `parsingCommand` adds the effect on the servos.

`command` says what is accepted without the buffer, as a function of the line.
`parsingCommand_fst` is the bridge, and nothing above this file looks at pointers again.

## Unreachable branch

The source tests its two token pointers for NULL after counting them. `decode_ne_nullToken` shows
that the count already excludes it.
-/

namespace DroneTurret

namespace Firmware

open CString Tokens

/-- What `parsing_command` finds in a line, with the data of the message it prints on an error. -/
inductive Outcome
  | reset
  /-- `Parsing error: too few tokens (%d)` -/
  | tooFewTokens (i : ℕ)
  /-- `Parsing error: NULL token(s)` -/
  | nullToken
  /-- `Parsing error: level token invalid (%s)` -/
  | levelInvalid (token : List Byte)
  /-- The call `control_pantilt(area, move_deg)`. -/
  | control (area : Byte) (moveDeg : ℤ)
  deriving DecidableEq, Repr

def newline : Byte := '\n'.toUInt8

/-- The delimiter string `"@"`. -/
def isAt (b : Byte) : Bool := b == '@'.toUInt8

/-- `LEVEL_1_DEGREE`, `LEVEL_2_DEGREE` and `LEVEL_3_DEGREE`, and the initial 0. -/
def levelDegree (level : ℕ) : ℤ :=
  if level = 1 then 30 else if level = 2 then 20 else if level = 3 then 10 else 0

/-- The test on the level digit. -/
def isLevel (b : Byte) : Bool := '1'.toUInt8 ≤ b && b ≤ '3'.toUInt8

/-- The newline strip. On an empty string the source looks at the byte before the buffer; the
model leaves the buffer alone there. -/
def stripNewline (recvBuf : List Byte) : List Byte :=
  let len := (cString recvBuf).length
  if len = 0 then recvBuf
  else if recvBuf.getD (len - 1) 0 = newline then recvBuf.set (len - 1) 0
  else recvBuf

/-- `parsing_command` up to its effect, and the buffer it leaves. -/
def decode (recvBuf : List Byte) : Outcome × List Byte :=
  if recvBuf.getD 0 0 = 'R'.toUInt8 ∧ recvBuf.getD 1 0 = 0 then (.reset, recvBuf)
  else
    match tokenLoop isAt 2 0 [none, none] (stripNewline recvBuf) 0 with
    | (i, pArray, recvBuf) =>
      if i < 2 then (.tooFewTokens i, recvBuf)
      else
        match pointee pArray recvBuf 0, pointee pArray recvBuf 1 with
        | some first, some second =>
          if second.length = 1 ∧ isLevel (second.getD 0 0) then
            let level := (second.getD 0 0).toNat - '0'.toNat
            (.control (first.getD 0 0) (levelDegree level), recvBuf)
          else (.levelInvalid second, recvBuf)
        | _, _ => (.nullToken, recvBuf)

/-- The effect of an outcome on the servos. -/
def Outcome.effect (s : Servo) : Outcome → Servo
  | .reset => setServo2Degree (setServoDegree s 0) 90
  | .control area moveDeg => controlPantilt s area moveDeg
  | _ => s

/-- The calls of `control_pantilt` an outcome makes. -/
def Outcome.calls : Outcome → List (Byte × ℤ)
  | .control area moveDeg => [(area, moveDeg)]
  | _ => []

def parsingCommand (s : Servo) (recvBuf : List Byte) : Servo × List Byte :=
  ((decode recvBuf).1.effect s, (decode recvBuf).2)

/-! ### The language accepted -/

/-- A line without its newline. -/
def chomp (line : List Byte) : List Byte :=
  if line.getLast? = some newline then line.dropLast else line

/-- The command in a line: the first byte of its first `@`-field and the level digit that is the
whole of its second. Further fields are ignored. -/
def command (line : List Byte) : Option (Byte × ℕ) :=
  match tokens isAt (chomp line) with
  | (area :: _) :: [digit] :: _ =>
    if isLevel digit then some (area, digit.toNat - '0'.toNat) else none
  | _ => none

theorem cString_stripNewline (recvBuf : List Byte) :
    cString (stripNewline recvBuf) = chomp (cString recvBuf) := by
  obtain ⟨rest, hbuf, hrest⟩ := cString_append_drop recvBuf
  have h0 := zero_notMem_cString recvBuf
  generalize hline : cString recvBuf = line at hbuf h0
  rcases List.eq_nil_or_concat' line with rfl | ⟨front, b, rfl⟩
  · simp [stripNewline, hline, chomp]
  · have hfront : 0 ∉ front := fun h => h0 (List.mem_append_left _ h)
    have hlen : (front ++ [b]).length - 1 = front.length := by simp
    have hget : recvBuf.getD front.length 0 = b := by
      rw [hbuf, List.getD_eq_getElem?_getD]
      simp
    rw [stripNewline, hline, if_neg (by simp), hlen, hget]
    by_cases hb : b = newline
    · rw [if_pos hb, hbuf, show front ++ [b] ++ rest = front ++ b :: rest by simp,
        List.set_append_right _ _ (Nat.le_refl _)]
      simpa [chomp, hb] using cString_append_zero hfront rest
    · rw [if_neg hb, hline]
      simp [chomp, hb]

/-- The buffer the parser leaves. -/
theorem decode_snd_cases (recvBuf : List Byte) :
    (decode recvBuf).2 = recvBuf ∨
      (decode recvBuf).2 = (tokenLoop isAt 2 0 [none, none] (stripNewline recvBuf) 0).2.2 := by
  rw [decode]
  split
  · exact .inl rfl
  · right
    generalize tokenLoop isAt 2 0 [none, none] (stripNewline recvBuf) 0 = r
    obtain ⟨i, pArray, buf⟩ := r
    dsimp only
    split
    · rfl
    · split
      · split <;> rfl
      · rfl

/-- What `decode` finds, as a function of the line alone. -/
theorem decode_fst (recvBuf : List Byte) :
    (decode recvBuf).1 =
      if cString recvBuf = ['R'.toUInt8] then .reset
      else match tokens isAt (chomp (cString recvBuf)) with
        | first :: second :: _ =>
          if second.length = 1 ∧ isLevel (second.getD 0 0) then
            .control (first.getD 0 0) (levelDegree ((second.getD 0 0).toNat - '0'.toNat))
          else .levelInvalid second
        | ts => .tooFewTokens ts.length := by
  have hreset : (recvBuf.getD 0 0 = 'R'.toUInt8 ∧ recvBuf.getD 1 0 = 0) ↔
      cString recvBuf = ['R'.toUInt8] := by
    have hR : (0 : Byte) ≠ 'R'.toUInt8 := by decide
    rcases recvBuf with _ | ⟨a, _ | ⟨b, rest⟩⟩
    · decide
    · by_cases ha : a = 0
      · simp [cString, ha, hR]
      · simp [cString, ha]
    · by_cases ha : a = 0 <;> by_cases hb : b = 0 <;> simp [cString, ha, hb, hR]
  rw [decode]
  by_cases hR : cString recvBuf = ['R'.toUInt8]
  · rw [if_pos (hreset.mpr hR), if_pos hR]
  · rw [if_neg fun h => hR (hreset.mp h), if_neg hR]
    have hscan := scanned_tokenLoop_zero isAt 2 [none, none] (stripNewline recvBuf)
    generalize tokenLoop isAt 2 0 [none, none] (stripNewline recvBuf) 0 = r at hscan
    obtain ⟨i, pArray, buf⟩ := r
    have hcount : i = 0 + min 2 _ := hscan.count
    have hstored := hscan.stored
    rw [cString_stripNewline] at hcount hstored
    rcases htok : tokens isAt (chomp (cString recvBuf)) with _ | ⟨first, _ | ⟨second, ts⟩⟩
    · rw [htok] at hcount
      simp [hcount]
    · rw [htok] at hcount
      simp [hcount]
    · rw [htok] at hcount hstored
      have hi : ¬i < 2 := by rw [hcount]; simp
      have hfirst : pointee pArray buf 0 = some first := hstored 0 first (by omega) rfl (by decide)
      have hsecond : pointee pArray buf 1 = some second :=
        hstored 1 second (by omega) rfl (by decide)
      simp only [if_neg hi, hfirst, hsecond]
      split <;> rfl

theorem decode_ne_nullToken (recvBuf : List Byte) : (decode recvBuf).1 ≠ .nullToken := by
  rw [decode_fst]
  split
  · simp
  · split
    · split <;> simp
    · simp

/-- A line that holds a command is decoded to it. -/
theorem decode_of_command {recvBuf : List Byte} {area : Byte} {level : ℕ}
    (h : command (cString recvBuf) = some (area, level)) :
    (decode recvBuf).1 = .control area (levelDegree level) := by
  have hR : cString recvBuf ≠ ['R'.toUInt8] := fun hR => by
    have hnone : command ['R'.toUInt8] = none := rfl
    rw [hR, hnone] at h
    cases h
  rw [decode_fst, if_neg hR]
  rw [command] at h
  split at h
  · rename_i a first digit ts htok
    split at h
    · rename_i hd
      obtain ⟨rfl, rfl⟩ : a = area ∧ digit.toNat - '0'.toNat = level := by simpa using h
      simp [htok, hd]
    · cases h
  · cases h

/-- Any other line is an error: no effect, no call. -/
theorem decode_of_command_eq_none {recvBuf : List Byte} (hR : cString recvBuf ≠ ['R'.toUInt8])
    (h : command (cString recvBuf) = none) :
    (∀ s, (decode recvBuf).1.effect s = s) ∧ (decode recvBuf).1.calls = [] := by
  rw [decode_fst, if_neg hR]
  split
  · rename_i first second ts htok
    split
    · rename_i hd
      -- a token is not empty, so the first one has a first byte
      obtain ⟨a, first, rfl⟩ :=
        List.exists_cons_of_ne_nil (of_mem_tokens (htok ▸ List.mem_cons_self (a := first))).1
      obtain ⟨d, rfl⟩ := List.length_eq_one_iff.mp hd.1
      have hlevel : isLevel d := by simpa using hd.2
      simp [command, htok, hlevel] at h
    · exact ⟨fun _ => rfl, rfl⟩
  · exact ⟨fun _ => rfl, rfl⟩

/-- **The parser does on a buffer what `command` says of the line in it.** -/
theorem parsingCommand_fst (s : Servo) (recvBuf : List Byte) :
    (parsingCommand s recvBuf).1 =
      if cString recvBuf = ['R'.toUInt8] then setServo2Degree (setServoDegree s 0) 90
      else match command (cString recvBuf) with
        | some (area, level) => controlPantilt s area (levelDegree level)
        | none => s := by
  by_cases hR : cString recvBuf = ['R'.toUInt8]
  · rw [parsingCommand, decode_fst, if_pos hR, if_pos hR, Outcome.effect]
  · rw [if_neg hR, parsingCommand]
    cases hc : command (cString recvBuf) with
    | none => exact (decode_of_command_eq_none hR hc).1 s
    | some c => simp only [decode_of_command hc, Outcome.effect]

end Firmware

end DroneTurret
