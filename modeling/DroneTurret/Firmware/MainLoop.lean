import DroneTurret.Firmware.Parse
import DroneTurret.Lib.Transition

/-!
# The receive interrupt and the main loop

Two activities share `cmd_buf` and `rx_flag`. The interrupt callback stores one byte, or ends the
frame when it sees a newline or the buffer is full. The main loop tests the flag and parses, and
clears the flag in a second step. `next` is one step of either, and `system` is every interleaving.

The fields of `State` below `pc` are history: what the callback completed, what the parser was
given, which servo calls were made, and whether a frame has been completed since the parser last
ran. No step reads them.

The callback tests the UART instance first. Only USART2 is ever started with a receive interrupt,
so that test is always true.
-/

namespace DroneTurret

namespace Firmware

open CString

/-- `CMD_BUF_LEN`. -/
def cmdBufLen : ℕ := 8

/-- What the callback and the main loop share. -/
structure Uart where
  cmdBuf : List Byte
  cmdIndex : ℕ
  rxFlag : Bool
  deriving DecidableEq, Repr

/-- The globals as they are before the first byte. -/
def Uart.startUp : Uart := ⟨List.replicate cmdBufLen 0, 0, false⟩

/-- The condition under which the callback ends the frame. The byte itself is not stored. -/
def Uart.ends (u : Uart) (rxCh : Byte) : Prop := rxCh = newline ∨ u.cmdIndex ≥ cmdBufLen - 1

instance (u : Uart) (rxCh : Byte) : Decidable (u.ends rxCh) := inferInstanceAs (Decidable (_ ∨ _))

/-- `HAL_UART_RxCpltCallback` with `rx_ch` received. -/
def rxCpltCallback (u : Uart) (rxCh : Byte) : Uart :=
  if u.ends rxCh then { cmdBuf := u.cmdBuf.set u.cmdIndex 0, rxFlag := true, cmdIndex := 0 }
  else { u with cmdBuf := u.cmdBuf.set u.cmdIndex rxCh, cmdIndex := u.cmdIndex + 1 }

/-- Where the main loop is. -/
inductive MainPc
  /-- About to execute `if (rx_flag) parsing_command(cmd_buf)`. -/
  | test
  /-- About to execute `rx_flag = 0`. -/
  | clear
  deriving DecidableEq, Repr

/-- The state of the firmware, and its history. -/
structure State where
  uart : Uart
  servo : Servo
  pc : MainPc
  /-- The bytes stored since the last frame ended. -/
  frame : List Byte
  /-- The frames completed. -/
  completed : List (List Byte)
  /-- The strings given to `parsing_command`. -/
  handed : List (List Byte)
  /-- The calls of `control_pantilt`. -/
  calls : List (Byte × ℤ)
  /-- Has a frame been completed since `parsing_command` last ran? -/
  fresh : Bool
  deriving DecidableEq, Repr

def State.startUp : State := ⟨Uart.startUp, Servo.startUp, .test, [], [], [], [], false⟩

/-- One invocation of the callback, or one step of the main loop. -/
inductive Action
  | rx (b : Byte)
  | main
  deriving DecidableEq, Repr

/-- The callback, with its history. -/
def State.rx (f : State) (b : Byte) : State :=
  if f.uart.ends b then
    { f with uart := rxCpltCallback f.uart b, frame := [], completed := f.completed ++ [f.frame],
             fresh := true }
  else { f with uart := rxCpltCallback f.uart b, frame := f.frame ++ [b] }

/-- `parsing_command(cmd_buf)`, with its history. -/
def State.parse (f : State) : State :=
  let r := parsingCommand f.servo f.uart.cmdBuf
  { f with uart := { f.uart with cmdBuf := r.2 }, servo := r.1, pc := .clear,
           handed := f.handed ++ [cString f.uart.cmdBuf],
           calls := f.calls ++ (decode f.uart.cmdBuf).1.calls, fresh := false }

/-- One step of the main loop: test and parse, or clear the flag. -/
def State.loop (f : State) : State :=
  match f.pc with
  | .test => if f.uart.rxFlag then f.parse else f
  | .clear => { f with uart := { f.uart with rxFlag := false }, pc := .test }

def next (f : State) : Action → State
  | .rx b => f.rx b
  | .main => f.loop

/-- Every interleaving of the callback with the main loop, from start-up. -/
def system : Transition State Action where
  init f := f = State.startUp
  step f a := some (next f a)

/-- The invariant rule, at the functions of the firmware. -/
theorem invariant_of_reach {ok : State → Action → Prop} (Inv : State → Prop)
    (hinit : Inv State.startUp) (hstep : ∀ f a, Inv f → ok f a → Inv (next f a)) {f : State}
    (h : system.Reach ok f) : Inv f := by
  refine h.invariant Inv (fun s hs => ?_) fun s a t hs ha ht => ?_
  · obtain rfl : s = State.startUp := hs
    exact hinit
  · obtain rfl : next s a = t := Option.some.inj ht
    exact hstep s a hs ha

/-! ### What each step can do -/

theorem rx_of_ends {f : State} {b : Byte} (h : f.uart.ends b) :
    f.rx b = { f with uart := ⟨f.uart.cmdBuf.set f.uart.cmdIndex 0, 0, true⟩, frame := [],
                      completed := f.completed ++ [f.frame], fresh := true } := by
  rw [State.rx, if_pos h, rxCpltCallback, if_pos h]

theorem rx_of_not_ends {f : State} {b : Byte} (h : ¬f.uart.ends b) :
    f.rx b = { f with uart := ⟨f.uart.cmdBuf.set f.uart.cmdIndex b, f.uart.cmdIndex + 1,
                               f.uart.rxFlag⟩, frame := f.frame ++ [b] } := by
  rw [State.rx, if_neg h, rxCpltCallback, if_neg h]

/-- The three things the main loop can do. -/
theorem loop_cases (f : State) :
    (f.pc = .test ∧ f.uart.rxFlag = false ∧ f.loop = f) ∨
    (f.pc = .test ∧ f.uart.rxFlag = true ∧ f.loop = f.parse) ∨
    (f.pc = .clear ∧
      f.loop = { f with uart := { f.uart with rxFlag := false }, pc := .test }) := by
  rw [State.loop]
  cases hpc : f.pc with
  | test => cases hflag : f.uart.rxFlag <;> simp
  | clear => simp

@[simp] theorem length_stripNewline (recvBuf : List Byte) :
    (stripNewline recvBuf).length = recvBuf.length := by
  rw [stripNewline]
  split_ifs <;> simp

/-- The parser writes into the buffer but does not resize it. -/
@[simp] theorem length_decode_snd (recvBuf : List Byte) :
    (decode recvBuf).2.length = recvBuf.length := by
  rcases decode_snd_cases recvBuf with heq | heq
  · rw [heq]
  · obtain ⟨rest, hbuf, hlen, -⟩ :=
      (scanned_tokenLoop_zero isAt 2 [none, none] (stripNewline recvBuf)).frame
    rw [heq, hbuf, List.nil_append, hlen, length_stripNewline]

/-! ### Runs that keep frames intact -/

/-- The condition that keeps frames intact: no NUL is received, and the parser is only started
while no byte of the next frame has been stored. -/
def Untorn (f : State) : Action → Prop
  | .rx b => b ≠ 0
  | .main => f.pc = .test → f.uart.rxFlag = true → f.uart.cmdIndex = 0

instance (f : State) (a : Action) : Decidable (Untorn f a) :=
  match a with
  | .rx _ => inferInstanceAs (Decidable (_ ≠ _))
  | .main => inferInstanceAs (Decidable (_ → _ → _))

/-- What relates the buffer to the history in such runs. -/
structure Intact (f : State) : Prop where
  length : f.uart.cmdBuf.length = cmdBufLen
  index : f.uart.cmdIndex = f.frame.length
  /-- There is room for the terminator. -/
  room : f.frame.length < cmdBufLen
  nonzero : 0 ∉ f.frame
  /-- The bytes of the frame being received are at the front of the buffer. -/
  front : f.uart.cmdBuf.take f.uart.cmdIndex = f.frame
  /-- A frame that waits for the parser is the string in the buffer. -/
  waiting : f.pc = .test → f.uart.rxFlag = true → f.uart.cmdIndex = 0 →
    f.completed.getLast? = some (cString f.uart.cmdBuf)
  handed : ∀ h ∈ f.handed, h ∈ f.completed

theorem intact_startUp : Intact State.startUp where
  length := rfl
  index := rfl
  room := by decide
  nonzero := by simp [State.startUp]
  front := rfl
  waiting _ h := by simp [State.startUp, Uart.startUp] at h
  handed := by simp [State.startUp]

/-- Terminating the frame in the buffer leaves it there as a string. -/
theorem Intact.cString_set {f : State} (h : Intact f) :
    cString (f.uart.cmdBuf.set f.uart.cmdIndex 0) = f.frame := by
  have hlt : f.uart.cmdIndex < f.uart.cmdBuf.length := by
    rw [h.length, h.index]
    exact h.room
  rw [List.set_eq_take_append_cons_drop, if_pos hlt, h.front]
  exact cString_append_zero h.nonzero _

theorem Intact.rx {f : State} (h : Intact f) {b : Byte} (hb : b ≠ 0) : Intact (f.rx b) := by
  by_cases hends : f.uart.ends b
  · rw [rx_of_ends hends]
    refine ⟨by simpa using h.length, rfl, Nat.zero_lt_succ 7, by simp, rfl, fun _ _ _ => ?_,
      fun t ht => ?_⟩
    · simpa using h.cString_set.symm
    · exact List.mem_append_left _ (h.handed t ht)
  · rw [rx_of_not_ends hends]
    have hroom : f.frame.length + 1 < cmdBufLen := by
      have hlt : ¬cmdBufLen - 1 ≤ f.uart.cmdIndex := fun hge => hends (.inr hge)
      rw [h.index] at hlt
      omega
    have hlt : f.uart.cmdIndex < f.uart.cmdBuf.length := by
      rw [h.length, h.index]
      exact h.room
    refine ⟨by simpa using h.length, by simp [h.index], by simpa using hroom, ?_, ?_,
      fun _ _ h0 => absurd h0 (Nat.succ_ne_zero _), h.handed⟩
    · simpa [h.nonzero] using hb.symm
    · dsimp only
      rw [List.take_add_one, List.getElem?_set_self hlt, List.take_set_of_le (Nat.le_refl _),
        h.front]
      rfl

theorem Intact.loop {f : State} (h : Intact f)
    (hidle : f.pc = .test → f.uart.rxFlag = true → f.uart.cmdIndex = 0) : Intact f.loop := by
  rcases loop_cases f with ⟨-, -, hloop⟩ | ⟨hpc, hflag, hloop⟩ | ⟨-, hloop⟩
  · rw [hloop]
    exact h
  · have h0 := hidle hpc hflag
    have hframe : f.frame = [] := List.eq_nil_of_length_eq_zero (h.index ▸ h0)
    rw [hloop]
    refine ⟨?_, h.index, h.room, h.nonzero, ?_, nofun, fun t ht => ?_⟩
    · exact (length_decode_snd _).trans h.length
    · simp [State.parse, h0, hframe]
    · rcases List.mem_append.mp ht with ht | ht
      · exact h.handed t ht
      · rw [List.mem_singleton.mp ht]
        exact List.mem_of_getLast? (h.waiting hpc hflag h0)
  · rw [hloop]
    exact ⟨h.length, h.index, h.room, h.nonzero, h.front, nofun, h.handed⟩

theorem Intact.next {f : State} (h : Intact f) {a : Action} (ha : Untorn f a) :
    Intact (next f a) := by
  cases a with
  | rx b => exact h.rx ha
  | main => exact h.loop ha

theorem intact_of_reach {ok : State → Action → Prop} (hok : ∀ f a, ok f a → Untorn f a) {f : State}
    (h : system.Reach ok f) : Intact f :=
  invariant_of_reach Intact intact_startUp (fun f a hf ha => hf.next (hok f a ha)) h

end Firmware

end DroneTurret
