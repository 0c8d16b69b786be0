import DroneTurret.Firmware.MainLoop
import DroneTurret.Vision.Encoder
import Mathlib.Tactic.NormNum

/-!
# The two ends of the UART line

What the firmware does with the four bytes a vision program sends for one detection. The letter and
the digit arrive as they were sent; whether anything moves depends on the digit alone, and of those
that `app_cuda` sends for a target the firmware does not know 4 and 5. A depth that could not be
measured is stored as `inf` and sent as 5.

## Main results

* `loop_foldl_rx_line` — a line of one letter and one digit, received at rest, is decoded to a call
  exactly when the digit is a level
* `uartThread_moves_iff` — which program and which depths make the turret move
-/

namespace DroneTurret

namespace Vision

open CString Firmware

/-- The firmware has nothing to do and nothing half received. -/
structure AtRest (f : State) : Prop where
  pc : f.pc = .test
  flag : f.uart.rxFlag = false
  index : f.uart.cmdIndex = 0
  length : f.uart.cmdBuf.length = cmdBufLen

theorem atRest_startUp : AtRest State.startUp := ⟨rfl, rfl, rfl, rfl⟩

/-- The bytes arrive one by one, and the main loop then comes to its test. -/
def receive (f : State) (payload : List Byte) : State := (payload.foldl State.rx f).loop

/-! ### One line -/

/-- Receiving does not run the main loop. -/
theorem foldl_rx_frame (f : State) (s : List Byte) :
    (s.foldl State.rx f).pc = f.pc ∧ (s.foldl State.rx f).calls = f.calls := by
  induction s generalizing f with
  | nil => exact ⟨rfl, rfl⟩
  | cons b s ih =>
    have hb : (f.rx b).pc = f.pc ∧ (f.rx b).calls = f.calls := by
      rw [State.rx]
      split_ifs <;> exact ⟨rfl, rfl⟩
    rw [List.foldl_cons]
    exact ⟨(ih _).1.trans hb.1, (ih _).2.trans hb.2⟩

/-- Storing a byte that does not end the frame. -/
theorem uart_rx_store {f : State} {b : Byte} (hb : b ≠ newline) (hroom : f.uart.cmdIndex < 7) :
    (f.rx b).uart =
      ⟨f.uart.cmdBuf.set f.uart.cmdIndex b, f.uart.cmdIndex + 1, f.uart.rxFlag⟩ := by
  rw [rx_of_not_ends fun h => ?_]
  rcases h with h | h
  · exact hb h
  · exact absurd h (Nat.not_le.mpr hroom)

theorem uart_rx_newline (f : State) :
    (f.rx newline).uart = ⟨f.uart.cmdBuf.set f.uart.cmdIndex 0, 0, true⟩ := by
  rw [rx_of_ends (.inl rfl)]

/-- After the line `key@digit` the buffer holds it as a string, and the flag is up. -/
theorem uart_foldl_rx_line {f : State} (h : AtRest f) {key digit : Byte} (hkey : key ≠ newline)
    (hdigit : digit ≠ newline) :
    ∃ rest, ([key, '@'.toUInt8, digit, newline].foldl State.rx f).uart =
      ⟨key :: '@'.toUInt8 :: digit :: 0 :: rest, 0, true⟩ := by
  obtain ⟨b0, b1, b2, b3, rest, hbuf⟩ : ∃ b0 b1 b2 b3 rest,
      f.uart.cmdBuf = b0 :: b1 :: b2 :: b3 :: rest := by
    match hlist : f.uart.cmdBuf with
    | b0 :: b1 :: b2 :: b3 :: rest => exact ⟨b0, b1, b2, b3, rest, rfl⟩
    | [] | [_] | [_, _] | [_, _, _] =>
      have hlen := h.length
      rw [hlist] at hlen
      cases hlen
  refine ⟨rest, ?_⟩
  have h1 := uart_rx_store hkey (f := f) (by rw [h.index]; omega)
  rw [h.index, hbuf] at h1
  have h2 := uart_rx_store (f := f.rx key) (b := '@'.toUInt8) (by decide) (by rw [h1]; simp)
  rw [h1] at h2
  have h3 := uart_rx_store hdigit (f := (f.rx key).rx '@'.toUInt8) (by rw [h2]; simp)
  rw [h2] at h3
  have h4 := uart_rx_newline (((f.rx key).rx '@'.toUInt8).rx digit)
  rw [h3] at h4
  exact h4

/-- The command in such a line. -/
theorem command_line {key digit : Byte} (hkey : isAt key = false) (hdigit : isAt digit = false)
    (hnl : digit ≠ newline) :
    command [key, '@'.toUInt8, digit] =
      if isLevel digit then some (key, digit.toNat - '0'.toNat) else none := by
  have hchomp : chomp [key, '@'.toUInt8, digit] = [key] ++ '@'.toUInt8 :: [digit] := by
    rw [chomp, if_neg (by simpa using hnl)]
    rfl
  have htok : Tokens.tokens isAt (chomp [key, '@'.toUInt8, digit]) = [[key], [digit]] := by
    rw [hchomp, Tokens.tokens_append_cons _ _ rfl,
      Tokens.tokens_of_word (by simp) (by simpa using hkey),
      Tokens.tokens_of_word (by simp) (by simpa using hdigit)]
    rfl
  rw [command, htok]

/-- **One line, received at rest.** The firmware makes the one call if the digit is a level, and
no call otherwise. -/
theorem loop_foldl_rx_line {f : State} (h : AtRest f) {key digit : Byte}
    (hkey : key ∉ [0, newline, '@'.toUInt8]) (hdigit : digit ∉ [0, newline, '@'.toUInt8]) :
    (receive f [key, '@'.toUInt8, digit, newline]).calls =
      if isLevel digit then f.calls ++ [(key, levelDegree (digit.toNat - '0'.toNat))]
      else f.calls := by
  obtain ⟨hk0, hknl, hkat⟩ : key ≠ 0 ∧ key ≠ newline ∧ key ≠ '@'.toUInt8 := by simpa using hkey
  obtain ⟨hd0, hdnl, hdat⟩ : digit ≠ 0 ∧ digit ≠ newline ∧ digit ≠ '@'.toUInt8 := by
    simpa using hdigit
  obtain ⟨rest, huart⟩ := uart_foldl_rx_line h hknl hdnl
  obtain ⟨hpc, hcalls⟩ := foldl_rx_frame f [key, '@'.toUInt8, digit, newline]
  rw [receive]
  generalize [key, '@'.toUInt8, digit, newline].foldl State.rx f = g at huart hpc hcalls
  have hloop : g.loop = g.parse := by simp [State.loop, hpc, h.pc, huart]
  have hline : cString g.uart.cmdBuf = [key, '@'.toUInt8, digit] := by
    rw [huart]
    have h0 : 0 ∉ [key, '@'.toUInt8, digit] := by
      have hat : (0 : Byte) ≠ '@'.toUInt8 := by decide
      simp [hk0.symm, hat, hd0.symm]
    exact cString_append_zero h0 rest
  have hcommand : command (cString g.uart.cmdBuf) =
      if isLevel digit then some (key, digit.toNat - '0'.toNat) else none := by
    rw [hline]
    exact command_line (by simpa [isAt] using hkat) (by simpa [isAt] using hdat) hdnl
  rw [hloop]
  change g.calls ++ (decode g.uart.cmdBuf).1.calls = _
  by_cases hlevel : isLevel digit
  · rw [if_pos hlevel] at hcommand
    rw [if_pos hlevel, decode_of_command hcommand, hcalls]
    rfl
  · rw [if_neg hlevel] at hcommand
    rw [if_neg hlevel, (decode_of_command_eq_none (by rw [hline]; simp) hcommand).2, hcalls,
      List.append_nil]

/-! ### One detection -/

/-- The levels among the digits of `app_cuda` are those for depths below 1.1 m. -/
theorem isLevel_cuda_digit {z : WithTop ℚ} (hz : 0 < z) :
    isLevel (App.cuda.digit (some z)) ↔ z < ((11 / 10 : ℚ) : WithTop ℚ) := by
  have hle : ((1 / 2 : ℚ) : WithTop ℚ) ≤ ((11 / 10 : ℚ) : WithTop ℚ) :=
    WithTop.coe_le_coe.mpr (by norm_num)
  have hle' : ((4 / 5 : ℚ) : WithTop ℚ) ≤ ((11 / 10 : ℚ) : WithTop ℚ) :=
    WithTop.coe_le_coe.mpr (by norm_num)
  rw [cuda_digit_of_pos hz]
  split_ifs with h1 h2 h3 h4
  · exact iff_of_true rfl (h1.trans_le hle)
  · exact iff_of_true rfl (h2.trans_le hle')
  · exact iff_of_true rfl h3
  · exact iff_of_false (by decide) h3
  · exact iff_of_false (by decide) h3

/-- The digits `app_cuda` and `app_hailo` send, and which of them the firmware knows. -/
theorem App.isLevel_digit (app : App) (z : Option ℚ) :
    isLevel (app.digit (app.latestDepth z)) ↔ app = .hailo ∨ ∃ d ∈ z, 0 < d ∧ d < 11 / 10 := by
  cases app with
  | hailo =>
    have hlevel : ∀ d ∈ bytes "12", isLevel d = true := forall_mem_of_all rfl
    exact iff_of_true (hlevel _ (hailo_digit_mem _).1) (.inl rfl)
  | cuda =>
    rw [or_iff_right (nofun : App.cuda ≠ .hailo)]
    by_cases hpos : ∃ d ∈ z, 0 < d
    · obtain ⟨d, rfl, hd⟩ := hpos
      rw [App.latestDepth_cuda_of_pos hd, isLevel_cuda_digit (WithTop.coe_pos.mpr hd),
        WithTop.coe_lt_coe]
      simp [hd]
    · -- the depth that is stored is infinite
      rw [App.latestDepth_cuda_of_not_pos fun d hd h => hpos ⟨d, hd, h⟩,
        isLevel_cuda_digit WithTop.top_pos]
      exact iff_of_false not_top_lt fun ⟨d, hd, h, _⟩ => hpos ⟨d, hd, h⟩

/-- The bytes for a detection: a letter of the grid and one digit. -/
theorem App.uartThread_eq {app : App} {x1 y1 x2 y2 w h : ℤ} {z : Option ℚ} {key digit : Byte}
    (hkey : latestResult x1 y1 x2 y2 w h = [key]) (hdigit : app.tag (app.latestDepth z) = [digit]) :
    app.uartThread x1 y1 x2 y2 w h z = [key, '@'.toUInt8, digit, newline] := by
  rw [App.uartThread, App.payload, hkey, hdigit]
  rfl

/-- **When a detection moves the turret.** For a box inside the frame and any reading of the depth,
the firmware at rest makes exactly the one call for the sector and the level sent if `app_hailo`
sent it, or if `app_cuda` did and the depth is a number in `(0, 1.1)`. -/
theorem uartThread_moves_iff (app : App) {x1 y1 x2 y2 w h : ℤ} {z : Option ℚ} {f : State}
    (hx1 : 0 ≤ x1) (hx : x1 < x2) (hx2 : x2 ≤ w - 1) (hy1 : 0 ≤ y1) (hy : y1 < y2)
    (hy2 : y2 ≤ h - 1) (hf : AtRest f) :
    (∃ digit, app.tag (app.latestDepth z) = [digit] ∧
      (receive f (app.uartThread x1 y1 x2 y2 w h z)).calls = f.calls ++
        [(keyAt ⌊(3 * ((y1 + y2) / 2 : ℤ) / h : ℚ)⌋.toNat ⌊(3 * ((x1 + x2) / 2 : ℤ) / w : ℚ)⌋.toNat,
          levelDegree (digit.toNat - '0'.toNat))]) ↔
      app = .hailo ∨ ∃ d ∈ z, 0 < d ∧ d < 11 / 10 := by
  have hletter := latestResult_eq hx1 hx hx2 hy1 hy hy2
  have hrow : ⌊(3 * ((y1 + y2) / 2 : ℤ) / h : ℚ)⌋.toNat < 3 := by
    have := (pyInt_third (x := (y1 + y2) / 2) (w := h) (by omega) (by omega)).2
    omega
  have hcol : ⌊(3 * ((x1 + x2) / 2 : ℤ) / w : ℚ)⌋.toNat < 3 := by
    have := (pyInt_third (x := (x1 + x2) / 2) (w := w) (by omega) (by omega)).2
    omega
  have hkey := keyAt_of_lt hrow hcol
  generalize keyAt _ _ = key at hletter hkey ⊢
  have hmem := app.digit_mem (app.latestDepth z)
  have hlevel := app.isLevel_digit z
  have htag : app.tag (app.latestDepth z) = [app.digit (app.latestDepth z)] := rfl
  generalize app.digit (app.latestDepth z) = digit at hmem hlevel htag
  -- no letter and no digit is a byte that means something else on the line
  have hplain : ∀ b ∈ bytes "QWEASDZXC" ++ bytes "012345", b ∉ [0, newline, '@'.toUInt8] :=
    forall_mem_of_all rfl
  rw [App.uartThread_eq hletter htag,
    loop_foldl_rx_line hf (hplain key (List.mem_append_left _ hkey))
      (hplain digit (List.mem_append_right _ hmem)), htag, ← hlevel]
  constructor
  · rintro ⟨d, -, hcalls⟩
    by_contra hn
    rw [if_neg hn] at hcalls
    simp at hcalls
  · intro hl
    exact ⟨digit, rfl, if_pos hl⟩

theorem uartThread_moves_iff_witness :
    (∃ digit, App.cuda.tag (App.cuda.latestDepth (some (9 / 10))) = [digit] ∧
      (receive State.startUp (App.cuda.uartThread 400 0 639 100 640 480 (some (9 / 10)))).calls =
        State.startUp.calls ++
          [(keyAt ⌊(3 * ((0 + 100) / 2 : ℤ) / (480 : ℤ) : ℚ)⌋.toNat
              ⌊(3 * ((400 + 639) / 2 : ℤ) / (640 : ℤ) : ℚ)⌋.toNat,
            levelDegree (digit.toNat - '0'.toNat))]) ∧
      ∃ d ∈ some (9 / 10 : ℚ), 0 < d ∧ d < 11 / 10 := by
  have hdepth : ∃ d ∈ some (9 / 10 : ℚ), 0 < d ∧ d < 11 / 10 := ⟨9 / 10, rfl, by norm_num⟩
  exact ⟨(uartThread_moves_iff .cuda (by norm_num) (by norm_num) (by norm_num) (by norm_num)
    (by norm_num) (by norm_num) atRest_startUp).mpr (.inr hdepth), hdepth⟩

/-- A drone at 1.2 m in the upper right sector: `app_cuda` sends level 4, and the firmware, which
knows the levels 1 to 3, makes no call. -/
theorem not_uartThread_moves_far :
    App.cuda.uartThread 400 0 639 100 640 480 (some (6 / 5)) = bytes "E@4\n" ∧
      (receive State.startUp (App.cuda.uartThread 400 0 639 100 640 480 (some (6 / 5)))).calls =
        [] := by
  have hletter : latestResult 400 0 639 100 640 480 = bytes "E" := by decide +kernel
  have htag : App.cuda.tag (App.cuda.latestDepth (some (6 / 5))) = bytes "4" := by decide +kernel
  have hline : App.cuda.uartThread 400 0 639 100 640 480 (some (6 / 5)) = bytes "E@4\n" := by
    rw [App.uartThread, App.payload, hletter, htag]
    rfl
  refine ⟨hline, ?_⟩
  rw [hline]
  decide

end Vision

end DroneTurret
