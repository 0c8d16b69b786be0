import DroneTurret.Firmware.Races
import DroneTurret.Lib.Accesses

/-!
# The indices into the command buffer

`cmd_buf` has `CMD_BUF_LEN` bytes, and the last of them is NUL from start-up on: the callback writes
nothing else there, and the parser writes nothing but NULs anywhere. That bounds everything that
stops at a NUL. What is left is the newline strip, which looks at the byte in front of the
terminator: of an empty string that is the byte in front of the buffer.

The accesses of a step are listed next to the functions of the model, in the order of the source.

## Main definitions

* `callbackAccesses`, `parseAccesses` — the accesses of the two functions
* `trace` — those of a run

## Main results

* `trace_inBuffer_iff` — the runs that stay inside the buffer
-/

namespace DroneTurret

namespace Firmware

open CString

/-! ### Accesses -/

/-- The newline strip: `strlen`, and the byte at `strlen(recvBuf) - 1`, which it reads and may
overwrite. -/
def stripAccesses (recvBuf : List Byte) : List ℤ :=
  strlenAccesses recvBuf 0 ++ [((cString recvBuf).length : ℤ) - 1]

/-- What is read of the two tokens: the first byte of one, and the other up to its end. -/
def fieldAccesses (r : ℕ × List (Option ℕ) × List Byte) : List ℤ :=
  match r.2.1 with
  | [some first, some second] => (first : ℤ) :: strlenAccesses r.2.2 second
  | _ => []

/-- `parsing_command`. The test for `R` reads a second byte only if the first one is that letter. -/
def parseAccesses (recvBuf : List Byte) : List ℤ :=
  (if recvBuf.getD 0 0 = 'R'.toUInt8 then [0, 1] else [0]) ++
    if recvBuf.getD 0 0 = 'R'.toUInt8 ∧ recvBuf.getD 1 0 = 0 then []
    else
      stripAccesses recvBuf ++ tokenAccesses isAt 2 (stripNewline recvBuf) 0 ++
        fieldAccesses (tokenLoop isAt 2 0 [none, none] (stripNewline recvBuf) 0)

/-- `HAL_UART_RxCpltCallback` writes one byte. -/
def callbackAccesses (u : Uart) : List ℤ := [(u.cmdIndex : ℤ)]

/-- The accesses of a step to `cmd_buf`. -/
def accesses (f : State) : Action → List ℤ
  | .rx _ => callbackAccesses f.uart
  | .main => if f.pc = .test ∧ f.uart.rxFlag = true then parseAccesses f.uart.cmdBuf else []

/-- The accesses of a run. -/
def trace (f : State) : List Action → List ℤ
  | [] => []
  | a :: as => accesses f a ++ trace (next f a) as

/-! ### What keeps them in the buffer -/

/-- The index of the last byte. -/
abbrev lastIndex : ℕ := cmdBufLen - 1

/-- The last byte is NUL, and the next byte to be received is not stored behind it. -/
structure Terminated (f : State) : Prop where
  nul : NulAt f.uart.cmdBuf lastIndex
  index : f.uart.cmdIndex ≤ lastIndex

theorem terminated_startUp : Terminated State.startUp := ⟨rfl, Nat.zero_le _⟩

theorem nulAt_stripNewline {recvBuf : List Byte} {q : ℕ} (h : NulAt recvBuf q) :
    NulAt (stripNewline recvBuf) q := by
  rw [stripNewline]
  split_ifs
  · exact h
  · exact h.set _
  · exact h

/-- The parser leaves the last byte NUL. -/
theorem nulAt_decode {recvBuf : List Byte} {q : ℕ} (h : NulAt recvBuf q) :
    NulAt (decode recvBuf).2 q := by
  rcases decode_snd_cases recvBuf with heq | heq
  · rwa [heq]
  · rw [heq]
    exact (@NulAt.tokenLoop isAt q 2 0 [none, none] _ _ (nulAt_stripNewline h) (Nat.zero_le q)
      (by simp)).2.1

/-- The callback stores a byte in front of the last one, or a NUL. -/
theorem terminated_rxCpltCallback {u : Uart} (hnul : NulAt u.cmdBuf lastIndex)
    (b : Byte) :
    NulAt (rxCpltCallback u b).cmdBuf lastIndex ∧ (rxCpltCallback u b).cmdIndex ≤ lastIndex := by
  rw [rxCpltCallback]
  split_ifs with hends
  · exact ⟨hnul.set _, Nat.zero_le _⟩
  · have hlt : u.cmdIndex < lastIndex := Nat.not_le.mp fun hge => hends (.inr hge)
    refine ⟨?_, hlt⟩
    rw [NulAt, List.getElem?_set_ne hlt.ne]
    exact hnul

theorem Terminated.rx {f : State} (h : Terminated f) (b : Byte) : Terminated (f.rx b) := by
  obtain ⟨hnul, hindex⟩ := terminated_rxCpltCallback h.nul b
  rw [State.rx]
  split_ifs <;> exact ⟨hnul, hindex⟩

theorem Terminated.loop {f : State} (h : Terminated f) : Terminated f.loop := by
  rcases loop_cases f with ⟨-, -, hloop⟩ | ⟨-, -, hloop⟩ | ⟨-, hloop⟩
  · rw [hloop]
    exact h
  · rw [hloop]
    exact ⟨nulAt_decode h.nul, h.index⟩
  · rw [hloop]
    exact ⟨h.nul, h.index⟩

theorem Terminated.next {f : State} (h : Terminated f) (a : Action) : Terminated (next f a) := by
  cases a with
  | rx b => exact h.rx b
  | main => exact h.loop

/-! ### One step -/

/-- An index of the buffer. -/
def InBuffer (i : ℤ) : Prop := 0 ≤ i ∧ i < cmdBufLen

instance (i : ℤ) : Decidable (InBuffer i) := inferInstanceAs (Decidable (_ ∧ _))

theorem inBuffer_of_le {i : ℤ} (h : 0 ≤ i ∧ i ≤ lastIndex) : InBuffer i :=
  ⟨h.1, h.2.trans_lt (by decide)⟩

/-- **The parser** stays inside a terminated buffer exactly when the string in it is not empty. -/
theorem parseAccesses_inBuffer_iff {recvBuf : List Byte} (h : NulAt recvBuf lastIndex) :
    (∀ i ∈ parseAccesses recvBuf, InBuffer i) ↔ cString recvBuf ≠ [] := by
  constructor
  · rintro hin hnil
    have hfirst : recvBuf.getD 0 0 = 0 := by
      cases recvBuf with
      | nil => rfl
      | cons b rest =>
        by_contra hb
        have hne : (b != 0) = true := by simpa using hb
        rw [cString, List.takeWhile_cons, if_pos hne] at hnil
        cases hnil
    have hmem : (-1 : ℤ) ∈ parseAccesses recvBuf := by
      rw [parseAccesses, hfirst, if_neg (by decide : ¬((0 : Byte) = 'R'.toUInt8)),
        if_neg fun hR => absurd hR.1 (by decide), stripAccesses, hnil]
      simp
    exact absurd (hin (-1) hmem) (by decide)
  · intro hne
    have hlen : 0 < (cString recvBuf).length := List.length_pos_iff.mpr hne
    have hlen' : (cString recvBuf).length ≤ lastIndex := by
      have := h.length_stringAt (Nat.zero_le lastIndex)
      rwa [Nat.zero_add] at this
    obtain ⟨htokens, hkept, hfields⟩ := @NulAt.tokenLoop isAt _ 2 0 [none, none] _ _
      (nulAt_stripNewline h) (Nat.zero_le lastIndex) (by simp)
    rw [parseAccesses]
    refine List.forall_mem_append.mpr ⟨?_, ?_⟩
    · split_ifs
      · decide
      · decide
    · split_ifs
      · exact List.forall_mem_nil _
      refine List.forall_mem_append.mpr ⟨List.forall_mem_append.mpr ⟨?_, ?_⟩, ?_⟩
      · refine List.forall_mem_append.mpr ⟨fun i hi => ?_, fun i hi => ?_⟩
        · exact inBuffer_of_le (h.strlen (Nat.zero_le _) i hi)
        · rw [List.mem_singleton.mp hi]
          exact inBuffer_of_le (by omega)
      · exact fun i hi => inBuffer_of_le (htokens i hi)
      · rw [fieldAccesses]
        split
        · rename_i first second hpair
          rw [hpair] at hfields
          refine List.forall_mem_cons.mpr ⟨?_, fun i hi => ?_⟩
          · have := hfields first (by simp)
            exact inBuffer_of_le (by omega)
          · exact inBuffer_of_le (hkept.strlen (hfields second (by simp)) i hi)
        · exact List.forall_mem_nil _

/-- What a step gives to the parser. -/
def given (f : State) : Action → List (List Byte)
  | .rx _ => []
  | .main => if f.pc = .test ∧ f.uart.rxFlag = true then [cString f.uart.cmdBuf] else []

theorem handed_next (f : State) (a : Action) : (next f a).handed = f.handed ++ given f a := by
  cases a with
  | rx b =>
    rw [next, State.rx, given, List.append_nil]
    split_ifs <;> rfl
  | main =>
    rw [next, given]
    rcases loop_cases f with ⟨hpc, hflag, hloop⟩ | ⟨hpc, hflag, hloop⟩ | ⟨hpc, hloop⟩
    · rw [hloop, if_neg (by simp [hflag]), List.append_nil]
    · rw [hloop, if_pos ⟨hpc, hflag⟩]
      rfl
    · rw [hloop, if_neg (by simp [hpc]), List.append_nil]

/-- A step stays inside the buffer exactly when it does not give the parser an empty string. -/
theorem accesses_inBuffer_iff {f : State} (h : Terminated f) (a : Action) :
    (∀ i ∈ accesses f a, InBuffer i) ↔ ∀ str ∈ given f a, str ≠ [] := by
  cases a with
  | rx b =>
    refine iff_of_true (fun i hi => ?_) (List.forall_mem_nil _)
    rw [List.mem_singleton.mp hi]
    have := h.index
    exact inBuffer_of_le (by omega)
  | main =>
    rw [accesses, given]
    by_cases hparse : f.pc = .test ∧ f.uart.rxFlag = true
    · rw [if_pos hparse, if_pos hparse, List.forall_mem_singleton]
      exact parseAccesses_inBuffer_iff h.nul
    · rw [if_neg hparse, if_neg hparse]
      exact iff_of_true (List.forall_mem_nil _) (List.forall_mem_nil _)

/-! ### Runs -/

theorem exists_handed (f : State) (as : List Action) :
    ∃ new, (as.foldl next f).handed = f.handed ++ new ∧
      (Terminated f → ((∀ i ∈ trace f as, InBuffer i) ↔ ∀ str ∈ new, str ≠ [])) := by
  induction as generalizing f with
  | nil => exact ⟨[], (List.append_nil _).symm, fun _ => iff_of_true nofun nofun⟩
  | cons a as ih =>
    obtain ⟨new, hnew, hiff⟩ := ih (next f a)
    refine ⟨given f a ++ new, ?_, fun h => ?_⟩
    · rw [List.foldl_cons, hnew, handed_next, List.append_assoc]
    · rw [trace, List.forall_mem_append, List.forall_mem_append, hiff (h.next a),
        accesses_inBuffer_iff h a]

/-- **Bounds of the command buffer.** Over every interleaving and every stream of bytes, all
accesses to `cmd_buf` are inside it exactly when no string that the parser is given is empty. -/
theorem trace_inBuffer_iff (as : List Action) :
    (∀ i ∈ trace State.startUp as, InBuffer i) ↔
      ∀ str ∈ (as.foldl next State.startUp).handed, str ≠ [] := by
  obtain ⟨new, hnew, hiff⟩ := exists_handed State.startUp as
  rw [hiff terminated_startUp, hnew]
  rfl

/-- An empty line: the parser reads the byte in front of the buffer. -/
theorem not_trace_inBuffer :
    ¬∀ as, ∀ i ∈ trace State.startUp as, InBuffer i := by
  intro h
  have hall := h [.rx newline, .main]
  revert hall
  decide

end Firmware

end DroneTurret
