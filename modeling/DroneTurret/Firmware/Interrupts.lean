import DroneTurret.Firmware.Bounds

/-!
# The parser under interrupts

In `system` the parser runs as one step. On the device it looks at `cmd_buf` one byte at a time, and
the callback runs whenever a byte has arrived, between any two of these accesses. Here every access
to the buffer is a step of its own. The string the parser works on is rewritten under it, so of the
buffer nothing is certain but its last byte.

The newline strip calls `strlen` once to look at a byte and once more to overwrite it, and each of
the two may find the string empty. The byte in front of the buffer is then used. It reads as
anything, and it may be any other variable.

## Main definitions

* `ParsePc` — the places of `parsing_command`, each in front of an access
* `Machine`, `interrupted` — the firmware at this granularity
* `Machine.Terminated` — what holds in spite of the interrupts

## Main results

* `Machine.Terminated.main`, `Machine.Terminated.rx` — the two actors keep it
* `interrupted_terminated` — the last byte stays NUL, and nothing runs past it
-/

namespace DroneTurret

namespace Firmware

open CString

/-! ### The program -/

/-- A place in `parsing_command`, in front of an access to the buffer. Pointers are offsets, and the
counter of the tokens is the length of `pArray`. -/
inductive ParsePc
  /-- `recvBuf[0] == 'R'`. -/
  | letter
  /-- `recvBuf[1] == '\0'`. -/
  | letterEnd
  /-- `strlen(recvBuf)` at `p`, to overwrite a byte or to look at it. -/
  | strlen (overwrite : Bool) (p : ℕ)
  /-- `recvBuf[len - 1] == '\n'`. -/
  | lastByte (len : ℕ)
  /-- `recvBuf[len - 1] = '\0'`. -/
  | strip (len : ℕ)
  /-- `strtok` at `p`, in front of a token. -/
  | skip (pArray : List ℕ) (p : ℕ)
  /-- `strtok` at `p`, in a token. -/
  | word (pArray : List ℕ) (token p : ℕ)
  /-- `strtok` about to overwrite the delimiter behind a token. -/
  | cut (pArray : List ℕ) (token p : ℕ)
  /-- `pArray[0][0]`. -/
  | firstByte (first second : ℕ)
  /-- `strlen(pArray[1])` at `p`. -/
  | levelLength (area : Byte) (second p : ℕ)
  /-- `pArray[1][0] >= '1'`. -/
  | levelLow (area : Byte) (second : ℕ)
  /-- `pArray[1][0] <= '3'`. -/
  | levelHigh (area : Byte) (second : ℕ)
  /-- `pArray[1][0] - '0'`. -/
  | level (area : Byte) (second : ℕ)
  /-- `printf` of `pArray[1]` at `p`, with what it has printed. -/
  | print (printed : List Byte) (p : ℕ)
  deriving DecidableEq

/-- A place in the main loop. -/
inductive Pc
  /-- `if (rx_flag)`. -/
  | test
  | parse (p : ParsePc)
  /-- Nothing more of the buffer is needed. -/
  | effect (o : Outcome)
  /-- `rx_flag = 0`. -/
  | clear
  deriving DecidableEq

namespace ParsePc

/-- The index of the access. -/
def index : ParsePc → ℤ
  | letter => 0
  | letterEnd => 1
  | strlen _ p => p
  | lastByte len => len - 1
  | strip len => len - 1
  | skip _ p => p
  | word _ _ p => p
  | cut _ _ p => p
  | firstByte first _ => first
  | levelLength _ _ p => p
  | levelLow _ second => second
  | levelHigh _ second => second
  | level _ second => second
  | print _ p => p

/-- The two places that write; what they write is NUL. -/
def writes : ParsePc → Bool
  | strip _ => true
  | cut _ _ _ => true
  | _ => false

/-- `pArray[i] = pToken`, the test of the counter and, if it goes on, the next call of `strtok`,
which resumes where the last one has stopped, if anywhere. -/
def stored (pArray : List ℕ) (token : ℕ) (resume : Option ℕ) : Pc :=
  match pArray with
  | first :: _ => .parse (.firstByte first token)
  | [] =>
    match resume with
    | some p => .parse (.skip [token] p)
    | none => .effect (.tooFewTokens 1)

variable (atNul : Bool)

/-- The next place, when the access has read `b`. `strtok` looks at each byte once; at the end of
the string it remembers the NUL, or that nothing is left. -/
def after : ParsePc → Byte → Pc
  | letter, b => if b = 'R'.toUInt8 then .parse .letterEnd else .parse (.strlen false 0)
  | letterEnd, b => if b = 0 then .effect .reset else .parse (.strlen false 0)
  | strlen overwrite p, b =>
    if b = 0 then .parse (if overwrite then .strip p else .lastByte p)
    else .parse (.strlen overwrite (p + 1))
  | lastByte _, b => if b = newline then .parse (.strlen true 0) else .parse (.skip [] 0)
  | strip _, _ => .parse (.skip [] 0)
  | skip pArray p, b =>
    if isAt b then .parse (.skip pArray (p + 1))
    else if b = 0 then .effect (.tooFewTokens pArray.length)
    else .parse (.word pArray p (p + 1))
  | word pArray token p, b =>
    if isAt b then .parse (.cut pArray token p)
    else if b = 0 then stored pArray token (if atNul then some p else none)
    else .parse (.word pArray token (p + 1))
  | cut pArray token p, _ => stored pArray token (some (p + 1))
  | firstByte _ second, b => .parse (.levelLength b second second)
  | levelLength area second p, b =>
    if b = 0 then
      if p - second = 1 then .parse (.levelLow area second) else .parse (.print [] second)
    else .parse (.levelLength area second (p + 1))
  | levelLow area second, b =>
    if '1'.toUInt8 ≤ b then .parse (.levelHigh area second) else .parse (.print [] second)
  | levelHigh area second, b =>
    if b ≤ '3'.toUInt8 then .parse (.level area second) else .parse (.print [] second)
  | level area _, b => .effect (.control area (levelDegree (b.toNat - '0'.toNat)))
  | print printed p, b =>
    if b = 0 then .effect (.levelInvalid printed) else .parse (.print (printed ++ [b]) (p + 1))

end ParsePc

/-- The byte in front of `cmd_buf`. -/
inductive Neighbour
  | cmdIndex
  | rxFlag
  | currentServoDegree
  | currentServo2Degree
  /-- A byte that nothing here depends on. -/
  | other
  deriving DecidableEq

structure Machine where
  uart : Uart
  servo : Servo
  pc : Pc
  deriving DecidableEq

namespace Machine

def startUp : Machine := ⟨Uart.startUp, Servo.startUp, .test⟩

/-- A byte of the buffer; one that is not in it reads as anything. -/
def load (m : Machine) (i : ℤ) (outside : Byte) : Byte :=
  if 0 ≤ i ∧ i < cmdBufLen then m.uart.cmdBuf.getD i.toNat 0 else outside

/-- A NUL is written in front of the buffer. -/
def clobber (m : Machine) : Neighbour → Machine
  | .cmdIndex => { m with uart := { m.uart with cmdIndex := 0 } }
  | .rxFlag => { m with uart := { m.uart with rxFlag := false } }
  | .currentServoDegree => { m with servo := { m.servo with currentServoDegree := 0 } }
  | .currentServo2Degree => { m with servo := { m.servo with currentServo2Degree := 0 } }
  | .other => m

/-- A NUL is written. -/
def store (front : Neighbour) (m : Machine) (i : ℤ) : Machine :=
  if 0 ≤ i then { m with uart := { m.uart with cmdBuf := m.uart.cmdBuf.set i.toNat 0 } }
  else m.clobber front

variable (front : Neighbour) (atNul : Bool)

/-- One step of the main loop. `outside` is what it reads if the access is not in the buffer. -/
def main (m : Machine) (outside : Byte) : Machine :=
  match m.pc with
  | .test => if m.uart.rxFlag then { m with pc := .parse .letter } else m
  | .parse p =>
    if p.writes then { m.store front p.index with pc := p.after atNul 0 }
    else { m with pc := p.after atNul (m.load p.index outside) }
  | .effect o => { m with servo := o.effect m.servo, pc := .clear }
  | .clear => { m with uart := { m.uart with rxFlag := false }, pc := .test }

/-- The callback, with `b` received. -/
def rx (m : Machine) (b : Byte) : Machine := { m with uart := rxCpltCallback m.uart b }

end Machine

/-- One invocation of the callback, or one step of the main loop. -/
inductive Step
  | rx (b : Byte)
  | main (outside : Byte)

/-- Every interleaving, from start-up. -/
def interrupted (front : Neighbour) (atNul : Bool) : Transition Machine Step where
  init m := m = Machine.startUp
  step m
    | .rx b => some (m.rx b)
    | .main outside => some (m.main front atNul outside)

/-! ### What survives the interrupts -/

/-- The offsets that are kept between two accesses are in the buffer. -/
def ParsePc.Within : ParsePc → Prop
  | letter => True
  | letterEnd => True
  | strlen _ p => p ≤ lastIndex
  | lastByte len => len ≤ lastIndex
  | strip len => len ≤ lastIndex
  | skip pArray p => (∀ t ∈ pArray, t ≤ lastIndex) ∧ p ≤ lastIndex
  | word pArray token p => (∀ t ∈ pArray, t ≤ lastIndex) ∧ token ≤ lastIndex ∧ p ≤ lastIndex
  | cut pArray token p => (∀ t ∈ pArray, t ≤ lastIndex) ∧ token ≤ lastIndex ∧ p < lastIndex
  | firstByte first second => first ≤ lastIndex ∧ second ≤ lastIndex
  | levelLength _ second p => second ≤ lastIndex ∧ p ≤ lastIndex
  | levelLow _ second => second ≤ lastIndex
  | levelHigh _ second => second ≤ lastIndex
  | level _ second => second ≤ lastIndex
  | print _ p => p ≤ lastIndex

def Pc.Within : Pc → Prop
  | parse p => p.Within
  | _ => True

theorem ParsePc.Within.index_le {p : ParsePc} (h : p.Within) : p.index ≤ lastIndex := by
  have hlast : lastIndex = 7 := rfl
  cases p <;> simp only [Within] at h <;> simp only [index] <;> omega

theorem ParsePc.within_stored {pArray : List ℕ} {token : ℕ} {resume : Option ℕ}
    (harray : ∀ t ∈ pArray, t ≤ lastIndex) (htoken : token ≤ lastIndex)
    (hresume : ∀ p ∈ resume, p ≤ lastIndex) : (stored pArray token resume).Within := by
  cases pArray with
  | cons first rest => exact ⟨harray first List.mem_cons_self, htoken⟩
  | nil =>
    cases resume with
    | none => exact trivial
    | some p => exact ⟨List.forall_mem_singleton.mpr htoken, hresume p rfl⟩

/-- **The next place.** A byte that is not NUL is not the last one, so there is one behind it. -/
theorem ParsePc.Within.after {p : ParsePc} (h : p.Within) (atNul : Bool) {b : Byte}
    (hb : p.index = lastIndex → b = 0) : (p.after atNul b).Within := by
  have hnext : ∀ q : ℕ, p.index = q → q ≤ lastIndex → b ≠ 0 → q + 1 ≤ lastIndex := by
    intro q hq hle hne
    refine Nat.lt_of_le_of_ne hle fun heq => hne (hb ?_)
    rw [hq, heq]
  have hisAt : isAt b = true → b ≠ 0 := by
    rintro hat rfl
    cases hat
  cases p with
  | letter =>
    rw [ParsePc.after]
    split_ifs
    · exact trivial
    · exact Nat.zero_le _
  | letterEnd =>
    rw [ParsePc.after]
    split_ifs
    · exact trivial
    · exact Nat.zero_le _
  | strlen overwrite p =>
    rw [ParsePc.after]
    split_ifs with hzero hover
    · exact h
    · exact h
    · exact hnext p rfl h hzero
  | lastByte len =>
    rw [ParsePc.after]
    split_ifs
    · exact Nat.zero_le _
    · exact ⟨List.forall_mem_nil _, Nat.zero_le _⟩
  | strip len => exact ⟨List.forall_mem_nil _, Nat.zero_le _⟩
  | skip pArray p =>
    obtain ⟨harray, hp⟩ := h
    rw [ParsePc.after]
    split_ifs with hat hzero
    · exact ⟨harray, hnext p rfl hp (hisAt hat)⟩
    · exact trivial
    · exact ⟨harray, hp, hnext p rfl hp hzero⟩
  | word pArray token p =>
    obtain ⟨harray, htoken, hp⟩ := h
    rw [ParsePc.after]
    split_ifs with hat hzero hnul
    · exact ⟨harray, htoken, hnext p rfl hp (hisAt hat)⟩
    · refine within_stored harray htoken ?_
      rintro _ ⟨⟩
      exact hp
    · exact within_stored harray htoken fun _ hp => by cases hp
    · exact ⟨harray, htoken, hnext p rfl hp hzero⟩
  | cut pArray token p =>
    obtain ⟨harray, htoken, hp⟩ := h
    change (stored pArray token (some (p + 1))).Within
    refine within_stored harray htoken ?_
    rintro _ ⟨⟩
    exact hp
  | firstByte first second => exact ⟨h.2, h.2⟩
  | levelLength area second p =>
    rw [ParsePc.after]
    split_ifs with hzero hone
    · exact h.1
    · exact h.1
    · exact ⟨h.1, hnext p rfl h.2 hzero⟩
  | levelLow area second =>
    rw [ParsePc.after]
    split_ifs <;> exact h
  | levelHigh area second =>
    rw [ParsePc.after]
    split_ifs <;> exact h
  | level area second => exact trivial
  | print printed p =>
    rw [ParsePc.after]
    split_ifs with hzero
    · exact trivial
    · exact hnext p rfl h hzero

namespace Machine

/-- The last byte is NUL, and every index that is kept is in the buffer. -/
structure Terminated (m : Machine) : Prop where
  nul : NulAt m.uart.cmdBuf lastIndex
  index : m.uart.cmdIndex ≤ lastIndex
  within : m.pc.Within

theorem terminated_startUp : startUp.Terminated := ⟨rfl, Nat.zero_le _, trivial⟩

variable {m : Machine}

/-- The last byte reads as NUL. -/
theorem Terminated.load (h : m.Terminated) {i : ℤ} (outside : Byte) (hi : i = lastIndex) :
    m.load i outside = 0 := by
  subst hi
  rw [Machine.load, if_pos (by decide), List.getD_eq_getElem?_getD]
  change m.uart.cmdBuf[lastIndex]?.getD 0 = 0
  rw [show m.uart.cmdBuf[lastIndex]? = some 0 from h.nul]
  rfl

/-- A NUL is written, wherever it may be. -/
theorem Terminated.store (h : m.Terminated) (front : Neighbour) (i : ℤ) :
    (m.store front i).Terminated := by
  rw [Machine.store]
  split_ifs
  · exact ⟨h.nul.set _, h.index, h.within⟩
  · cases front with
    | cmdIndex => exact ⟨h.nul, Nat.zero_le _, h.within⟩
    | rxFlag => exact ⟨h.nul, h.index, h.within⟩
    | currentServoDegree => exact ⟨h.nul, h.index, h.within⟩
    | currentServo2Degree => exact ⟨h.nul, h.index, h.within⟩
    | other => exact h

/-- **A step of the main loop.** -/
theorem Terminated.main (h : m.Terminated) (front : Neighbour) (atNul : Bool) (outside : Byte) :
    (m.main front atNul outside).Terminated := by
  rw [Machine.main]
  have hwithin := h.within
  cases hpc : m.pc with
  | test =>
    dsimp only
    split_ifs
    · exact ⟨h.nul, h.index, trivial⟩
    · exact h
  | parse p =>
    rw [hpc] at hwithin
    dsimp only
    split_ifs
    · have hstore := h.store front p.index
      exact ⟨hstore.nul, hstore.index, ParsePc.Within.after hwithin atNul fun _ => rfl⟩
    · exact ⟨h.nul, h.index, ParsePc.Within.after hwithin atNul (h.load outside)⟩
  | effect o => exact ⟨h.nul, h.index, trivial⟩
  | clear => exact ⟨h.nul, h.index, trivial⟩

/-- **The callback** stores a byte in front of the last one, or a NUL. -/
theorem Terminated.rx (h : m.Terminated) (b : Byte) : (m.rx b).Terminated := by
  obtain ⟨hnul, hindex⟩ := terminated_rxCpltCallback h.nul b
  exact ⟨hnul, hindex, h.within⟩

end Machine

/-- **The terminator.** Over every stream of bytes and every interleaving of the callback with the
accesses of the parser, the last byte of the buffer is NUL, the next byte to be received is not
stored behind it, and no access goes past it. -/
theorem interrupted_terminated {front : Neighbour} {atNul : Bool} {m : Machine}
    (h : (interrupted front atNul).Reachable m) :
    m.uart.cmdIndex ≤ cmdBufLen - 1 ∧ m.uart.cmdBuf[cmdBufLen - 1]? = some 0 ∧
      ∀ p, m.pc = .parse p → p.index ≤ (cmdBufLen - 1 : ℕ) := by
  have hm : m.Terminated := by
    refine h.invariant Machine.Terminated ?_ ?_
    · rintro _ rfl
      exact Machine.terminated_startUp
    · rintro s (b | outside) t hs - ht
      · obtain rfl := Option.some.inj ht
        exact hs.rx b
      · obtain rfl := Option.some.inj ht
        exact hs.main front atNul outside
  refine ⟨hm.index, hm.nul, fun p hp => ?_⟩
  have hwithin := hm.within
  rw [hp] at hwithin
  exact ParsePc.Within.index_le hwithin

/-- `A` is being measured, and while it is, two bytes arrive and one of them overwrites its NUL. -/
theorem interrupted_terminated_witness :
    ∃ m, (interrupted .other false).Reachable m ∧ m.pc = .parse (.strlen false 2) ∧
      m.uart.cmdBuf[cmdBufLen - 1]? = some 0 := by
  obtain ⟨m, hm, hp⟩ := Transition.exists_reach_of_run (interrupted .other false)
    (fun _ _ => True) rfl
    [.rx 65, .rx newline, .main 0, .main 0, .main 0, .rx 66, .rx 67, .main 0]
    (fun m => m.pc == .parse (.strlen false 2)) rfl
  exact ⟨m, hm, by simpa using hp, (interrupted_terminated hm).2.1⟩

end Firmware

end DroneTurret
