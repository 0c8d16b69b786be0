import DroneTurret.Firmware.MainLoop

/-!
# Framing of the byte stream

The schedule in which the main loop serves each frame before the next byte arrives. `frames` is
what the callback then makes of a stream: it ends a frame at a newline and, dropping the byte, at
the eighth byte since the last frame ended. `handed_foldl_serve` says that the parser is given
exactly these.

## Lines

The lines of the stream are its newline-separated segments, the last of which is not complete.
Every newline ends a frame, and a segment longer than the buffer ends at least one more, so the
numbers alone decide: the parser is given the lines that fit and nothing else exactly when every
segment fits.
-/

namespace DroneTurret

namespace Firmware

open CString

/-- A byte arrives, and the main loop comes around before the next one does. -/
def serve (f : State) (b : Byte) : State := next (next (next f (.rx b)) .main) .main

/-- The frames of a stream when the bytes in `acc` have been stored. -/
def frames (acc : List Byte) : List Byte → List (List Byte)
  | [] => []
  | b :: s =>
    if b = newline ∨ acc.length ≥ cmdBufLen - 1 then acc :: frames [] s else frames (acc ++ [b]) s

/-- The segments of a stream between newlines, the first one continuing `acc`. -/
def segments (acc : List Byte) : List Byte → List (List Byte)
  | [] => [acc]
  | b :: s => if b = newline then acc :: segments [] s else segments (acc ++ [b]) s

/-- The complete, newline-terminated lines of a stream. -/
def completeLines (s : List Byte) : List (List Byte) := (s.splitOn newline).dropLast

/-! ### The schedule -/

/-- The firmware between two bytes of this schedule. -/
structure Idle (f : State) : Prop extends Intact f where
  pc : f.pc = .test
  flag : f.uart.rxFlag = false

theorem idle_startUp : Idle State.startUp := ⟨intact_startUp, rfl, rfl⟩

/-- One byte served: the frame it ends, if any, is the string the parser is given. -/
theorem Idle.serve {f : State} (h : Idle f) {b : Byte} (hb : b ≠ 0) :
    Idle (serve f b) ∧
      (f.uart.ends b → (serve f b).frame = [] ∧ (serve f b).handed = f.handed ++ [f.frame]) ∧
      (¬f.uart.ends b → (serve f b).frame = f.frame ++ [b] ∧ (serve f b).handed = f.handed) := by
  have hrx := h.toIntact.rx hb
  by_cases hends : f.uart.ends b
  · have hidx : (f.rx b).uart.cmdIndex = 0 := by rw [rx_of_ends hends]
    have hloop := hrx.loop fun _ _ => hidx
    have hpc : (f.rx b).pc = .test := by rw [rx_of_ends hends]; exact h.pc
    have hflag : (f.rx b).uart.rxFlag = true := by rw [rx_of_ends hends]
    have hparse : (f.rx b).loop = (f.rx b).parse := by simp [State.loop, hpc, hflag]
    have hserve : Firmware.serve f b =
        { (f.rx b).parse with uart := { (f.rx b).parse.uart with rxFlag := false }, pc := .test } := by
      change ((f.rx b).loop).loop = _
      rw [hparse]
      rfl
    have hstr : cString (f.rx b).uart.cmdBuf = f.frame := by
      rw [rx_of_ends hends]
      exact h.cString_set
    refine ⟨⟨hloop.loop fun hp => ?_, ?_, ?_⟩, fun _ => ?_, fun hn => absurd hends hn⟩
    · rw [hparse] at hp
      cases hp
    · rw [hserve]
    · rw [hserve]
    · rw [hserve]
      refine ⟨?_, ?_⟩
      · change (f.rx b).frame = []
        rw [rx_of_ends hends]
      · change (f.rx b).handed ++ [cString (f.rx b).uart.cmdBuf] = f.handed ++ [f.frame]
        rw [hstr, rx_of_ends hends]
  · have hflag : (f.rx b).uart.rxFlag = false := by rw [rx_of_not_ends hends]; exact h.flag
    have hpc : (f.rx b).pc = .test := by rw [rx_of_not_ends hends]; exact h.pc
    have hloop : (f.rx b).loop = f.rx b := by simp [State.loop, hpc, hflag]
    have hserve : Firmware.serve f b = f.rx b := by
      change ((f.rx b).loop).loop = _
      rw [hloop, hloop]
    rw [hserve]
    refine ⟨⟨hrx, hpc, hflag⟩, fun hn => absurd hn hends, fun _ => ?_⟩
    rw [rx_of_not_ends hends]
    exact ⟨rfl, rfl⟩

/-- **The parser is given the frames of the stream**, in order and nothing else. -/
theorem handed_foldl_serve {f : State} (h : Idle f) {s : List Byte} (hs : 0 ∉ s) :
    (s.foldl serve f).handed = f.handed ++ frames f.frame s := by
  induction s generalizing f with
  | nil => simp [frames]
  | cons b s ih =>
    obtain ⟨hb, hs'⟩ : 0 ≠ b ∧ 0 ∉ s := by simpa using hs
    obtain ⟨hidle, hends, hstore⟩ := h.serve hb.symm
    have hcond : (b = newline ∨ f.frame.length ≥ cmdBufLen - 1) ↔ f.uart.ends b := by
      rw [Uart.ends, h.index]
    rw [List.foldl_cons, ih hidle hs', frames]
    by_cases hb' : f.uart.ends b
    · rw [if_pos (hcond.mpr hb'), (hends hb').1, (hends hb').2, List.append_assoc]
      rfl
    · rw [if_neg fun hn => hb' (hcond.mp hn), (hstore hb').1, (hstore hb').2]

/-! ### Frames and lines -/

theorem segments_eq (acc s : List Byte) :
    segments acc s = (s.splitOn newline).modifyHead (acc ++ ·) := by
  induction s generalizing acc with
  | nil => simp [segments, List.splitOn]
  | cons b s ih =>
    rw [segments, List.splitOn_cons_eq_if_modifyHead, ih, ih]
    obtain ⟨hd, tl, hsplit⟩ := List.exists_cons_of_ne_nil (List.splitOn_ne_nil newline s)
    by_cases hb : b = newline
    · simp [hb, hsplit]
    · simp [hb, hsplit]

theorem segments_nil (s : List Byte) : segments [] s = s.splitOn newline := by
  rw [segments_eq]
  obtain ⟨hd, tl, hsplit⟩ := List.exists_cons_of_ne_nil (List.splitOn_ne_nil newline s)
  simp [hsplit]

theorem segments_ne_nil (acc s : List Byte) : segments acc s ≠ [] := by
  induction s generalizing acc with
  | nil => simp [segments]
  | cons b s ih =>
    rw [segments]
    split
    · simp
    · exact ih _

theorem length_segments (acc acc' s : List Byte) :
    (segments acc s).length = (segments acc' s).length := by
  rw [segments_eq, segments_eq, List.length_modifyHead, List.length_modifyHead]

/-- While every segment fits, the frames are the complete lines. -/
theorem frames_of_fits {acc s : List Byte}
    (h : ∀ seg ∈ segments acc s, seg.length ≤ cmdBufLen - 1) :
    frames acc s = (segments acc s).dropLast := by
  induction s generalizing acc with
  | nil => rfl
  | cons b s ih =>
    rw [segments] at h ⊢
    rw [frames]
    by_cases hb : b = newline
    · rw [if_pos hb] at h ⊢
      rw [if_pos (.inl hb), ih fun seg hseg => h seg (List.mem_cons_of_mem acc hseg),
        List.dropLast_cons_of_ne_nil (segments_ne_nil [] s)]
    · rw [if_neg hb] at h ⊢
      -- the first segment holds `acc` and `b`, so `acc` alone leaves room for `b`
      have hroom : ¬(b = newline ∨ acc.length ≥ cmdBufLen - 1) := by
        rintro (hn | hlong)
        · exact hb hn
        · obtain ⟨hd, tl, hsplit⟩ := List.exists_cons_of_ne_nil (List.splitOn_ne_nil newline s)
          have hfirst := h (acc ++ [b] ++ hd) (by rw [segments_eq, hsplit]; simp)
          simp only [List.length_append, List.length_singleton] at hfirst
          omega
      rw [if_neg hroom]
      exact ih h

/-- Every newline ends a frame, and a segment that does not fit ends one more. -/
theorem length_segments_le (acc s : List Byte) :
    (segments acc s).length ≤ (frames acc s).length + 1 ∧
      (acc.length ≤ cmdBufLen - 1 → (∃ seg ∈ segments acc s, cmdBufLen - 1 < seg.length) →
        (segments acc s).length ≤ (frames acc s).length) := by
  induction s generalizing acc with
  | nil =>
    refine ⟨by simp [segments], fun hacc hlong => ?_⟩
    obtain ⟨seg, hseg, hlong⟩ := hlong
    obtain rfl : seg = acc := List.mem_singleton.mp hseg
    omega
  | cons b s ih =>
    rw [segments, frames]
    by_cases hb : b = newline
    · rw [if_pos hb, if_pos (.inl hb), List.length_cons, List.length_cons]
      refine ⟨by have := (ih []).1; omega, fun hacc hlong => ?_⟩
      obtain ⟨seg, hseg, hlong⟩ := hlong
      rcases List.mem_cons.mp hseg with rfl | hseg
      · omega
      · have := (ih []).2 (Nat.zero_le _) ⟨seg, hseg, hlong⟩
        omega
    · rw [if_neg hb]
      by_cases hfull : acc.length ≥ cmdBufLen - 1
      · -- the cut: one frame more than there are newlines
        rw [if_pos (.inr hfull), length_segments (acc ++ [b]) [] s, List.length_cons]
        have := (ih []).1
        omega
      · rw [if_neg (by tauto)]
        refine ⟨(ih _).1, fun hacc => (ih _).2 ?_⟩
        rw [List.length_append, List.length_singleton]
        omega

/-- **Framing.** The parser is given exactly the complete lines that fit the buffer if and only if
no segment of the stream, the unfinished last one included, is longer than the buffer. -/
theorem handed_eq_completeLines_iff {s : List Byte} (hs : 0 ∉ s) :
    (s.foldl serve State.startUp).handed =
        (completeLines s).filter (fun line => line.length ≤ cmdBufLen - 1) ↔
      ∀ seg ∈ s.splitOn newline, seg.length ≤ cmdBufLen - 1 := by
  rw [handed_foldl_serve idle_startUp hs, completeLines, ← segments_nil]
  change [] ++ frames [] s = _ ↔ _
  rw [List.nil_append]
  constructor
  · intro heq seg hseg
    by_contra hlong
    have hcount := (length_segments_le [] s).2 (Nat.zero_le _) ⟨seg, hseg, Nat.not_le.mp hlong⟩
    have hfilter := List.length_filter_le
      (fun line : List Byte => decide (line.length ≤ cmdBufLen - 1)) (segments [] s).dropLast
    have hpos := List.length_pos_iff.mpr (segments_ne_nil [] s)
    rw [← heq, List.length_dropLast] at hfilter
    omega
  · intro hfits
    rw [frames_of_fits hfits, List.filter_eq_self.mpr]
    intro line hline
    simpa using hfits line ((List.dropLast_sublist _).subset hline)

theorem handed_eq_completeLines_iff_witness :
    ((bytes "Q@1\nE@3\n").foldl serve State.startUp).handed =
        (completeLines (bytes "Q@1\nE@3\n")).filter
          (fun line => line.length ≤ cmdBufLen - 1) ↔
      ∀ seg ∈ (bytes "Q@1\nE@3\n").splitOn newline, seg.length ≤ cmdBufLen - 1 :=
  handed_eq_completeLines_iff (by decide)

/-- A line of eight bytes: its first seven are handed over, and then an empty string. -/
theorem handed_ne_completeLines_overlong :
    ¬∀ s : List Byte, 0 ∉ s → (s.foldl serve State.startUp).handed =
      (completeLines s).filter (fun line => line.length ≤ cmdBufLen - 1) := by
  intro h
  have := h (bytes "Q@123456\n") (by decide)
  revert this
  decide

end Firmware

end DroneTurret
