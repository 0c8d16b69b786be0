import DroneTurret.Gui.Ingest
import DroneTurret.Vision.SendLoop

/-!
# A target on its way to the GUI

The report that `send_loop` prints is relayed by the server under the tag of the vision system and
read back by the GUI: printing, tokenizing, stamping, trimming, splitting and reading numbers, in
three programs. Of Qt's `toDouble` it is assumed that a numeral of at most fifteen digits is read
as the double nearest to the number it stands for, and that white space around it is ignored.

## Main results

* `target_relayed` — the text the GUI gets
* `target_round_trip` — what the GUI makes of it
-/

namespace DroneTurret

namespace Gui

open CString Trim Decimal Relay Vision

/-- A numeral without sign and point. -/
structure Numeral (s : List Byte) : Prop where
  ne_nil : s ≠ []
  digit : ∀ b ∈ s, isDigit b = true

/-- Doubles of type `D`, and Qt's `toDouble` as it is documented. -/
structure Doubles (D : Type*) where
  /-- The double nearest to a number. -/
  ofRat : ℚ → D
  toDouble : List Byte → Option D
  trims : ∀ s, toDouble (trim isSpace s) = toDouble s
  integer : ∀ s, Numeral s → s.length ≤ 15 → toDouble s = some (ofRat (value s))
  fraction : ∀ s f, Numeral s → Numeral f → s.length + f.length ≤ 15 →
    toDouble (s ++ bytes "." ++ f) = some (ofRat (value s + value f / 10 ^ f.length))

theorem numeral_digits (n : ℕ) : Numeral (digits n) :=
  ⟨digits_ne_nil n, fun _ => isDigit_of_mem_digits⟩

theorem numeral_padded (w n : ℕ) : Numeral (padded w n) :=
  ⟨fun h => digits_ne_nil n (List.append_eq_nil_iff.mp h).2, fun _ => isDigit_of_mem_padded⟩

theorem Numeral.sep_notMem {s : List Byte} (h : Numeral s) : sep ∉ s := fun hmem =>
  (of_isDigit (h.digit sep hmem)).2.2.2.1 rfl

/-- The fields of a report are not split. -/
theorem sep_notMem_fields (x y i f : ℕ) :
    ∀ s ∈ [digits x, digits y, digits i ++ bytes "." ++ padded 3 f], sep ∉ s := by
  have hpoint : sep ∉ bytes "." := by decide
  intro s hs
  simp only [List.mem_cons, List.not_mem_nil, or_false] at hs
  rcases hs with rfl | rfl | rfl
  · exact (numeral_digits _).sep_notMem
  · exact (numeral_digits _).sep_notMem
  · simp only [List.mem_append, not_or]
    exact ⟨⟨(numeral_digits i).sep_notMem, hpoint⟩, (numeral_padded 3 f).sep_notMem⟩

/-- The report of a drone is relayed to `QTCLIENT` as one text, under the tag of its sender. -/
theorem target_relayed (t : Table) {i : Fin maxClnt} (hi : (t i).id.val = bytes "RASPBERRYPI")
    (s : Scanner) (now : Tm) {x y : ℤ} (hx : 0 ≤ x) (hy : 0 ≤ y) {z : ℚ} (hz : 0 ≤ z) :
    relayRead t (t i) s (sendLoop x y (some z) (bytes "drone")) now =
      some ((t.live fun j => (t j).id.val = bytes "QTCLIENT").map fun j =>
        ((t j).fd, raspberrypi ++ targetPayload x y (some z) (bytes "drone"))) := by
  have hfield : Field (bytes "QTCLIENT") := by decide
  have hall : bytes "QTCLIENT" ≠ allmsg := by decide
  have hrequest : ¬(bytes "QTCLIENT" = idlist ∨ bytes "QTCLIENT" = gettime) := by decide
  rw [sendLoop_eq hx hy hz, relayRead, msgInfo_frame (t i) s hfield (field_target hx hy hz),
    Option.bind_some, hi]
  exact sendMsg_of_id t ⟨_, bytes "QTCLIENT", _⟩ hall hrequest now

/-- The text the GUI gets is a drone line and its terminator. -/
theorem onRecvLine_target {D : Type*} (qt : Doubles D) {x y : ℤ} {z : ℚ} (hx : 0 ≤ x ∧ x < 1280)
    (hy : 0 ≤ y ∧ y < 720) (hz : 0 ≤ z ∧ z < 1000) :
    onRecvLine qt.toDouble (raspberrypi ++ targetPayload x y (some z) (bytes "drone")) =
      some ⟨qt.ofRat x, qt.ofRat y, qt.ofRat (roundTo 3 z)⟩ := by
  obtain ⟨i, f, hpayload, hf, hvalue, hi⟩ := targetPayload_eq hx.1 hy.1 hz.1
  have hlf : (padded 3 f).length = 3 := length_padded (by decide) hf
  have hinteger : ∀ n : ℕ, n ≤ 1280 → qt.toDouble (digits n) = some (qt.ofRat n) := by
    intro n hn
    have hlen : (digits n).length ≤ 4 := length_digits_le (by decide) (by omega)
    rw [qt.integer _ (numeral_digits n) (by omega), value_digits]
  have hfraction : qt.toDouble (digits i ++ bytes "." ++ padded 3 f) =
      some (qt.ofRat (roundTo 3 z)) := by
    have hle := hi 1000 (by exact_mod_cast hz.2)
    have hlen : (digits i).length ≤ 4 := length_digits_le (by decide) (by omega)
    rw [qt.fraction _ _ (numeral_digits i) (numeral_padded 3 f) (by omega), value_digits,
      value_padded, hlf, hvalue]
  have hline : droneLine qt.toDouble (raspberrypi ++ payload (digits x.natAbs) (digits y.natAbs)
      (digits i ++ bytes "." ++ padded 3 f) (bytes "drone")) =
        some ⟨qt.ofRat x, qt.ofRat y, qt.ofRat (roundTo 3 z)⟩ := by
    refine droneLine_eq_some_iff.mpr
      ⟨_, _, _, rfl, sep_notMem_fields _ _ i f, ?_, ?_, hfraction⟩
    · rw [hinteger x.natAbs (by omega), Nat.cast_natAbs, abs_of_nonneg hx.1]
    · rw [hinteger y.natAbs (by omega), Nat.cast_natAbs, abs_of_nonneg hy.1]
  have htext : raspberrypi ++ targetPayload x y (some z) (bytes "drone") =
      [] ++ (raspberrypi ++ payload (digits x.natAbs) (digits y.natAbs)
        (digits i ++ bytes "." ++ padded 3 f) (bytes "drone")) ++ bytes "\n" := by
    rw [hpayload]
    simp [payload, bytes, sep]
    rfl
  rw [htext]
  exact onRecvLine_of_line qt.trims hline (List.forall_mem_nil _) (forall_mem_of_all rfl)

/-- **The GUI reads the target that was reported.** The report fits one `read` of the relay server;
whoever is logged in as `QTCLIENT` gets one text for it; and a GUI that reads this text at once
emits one detection, of the target's coordinates and its depth to three decimals. -/
theorem target_round_trip {D : Type*} (qt : Doubles D) (t : Table) {i : Fin maxClnt}
    (hi : (t i).id.val = bytes "RASPBERRYPI") (s : Scanner) (now : Tm) {x y : ℤ} {z : ℚ}
    (hx : 0 ≤ x ∧ x < 1280) (hy : 0 ≤ y ∧ y < 720) (hz : 0 ≤ z ∧ z < 1000) :
    (sendLoop x y (some z) (bytes "drone")).length < bufSize ∧
      ∃ text, relayRead t (t i) s (sendLoop x y (some z) (bytes "drone")) now =
          some ((t.live fun j => (t j).id.val = bytes "QTCLIENT").map fun j => ((t j).fd, text)) ∧
        ∀ g : SockClient (List Byte), g.pending = [] →
          ((g.arrive text).socketReadDataSlot id).emitted = g.emitted ++ [text] ∧
          onRecvLine qt.toDouble text =
            some ⟨qt.ofRat x, qt.ofRat y, qt.ofRat (roundTo 3 z)⟩ := by
  have hshort := length_sendLoop_lt hx.1 hx.2 hy.1 hy.2 hz.1 hz.2
  refine ⟨hshort, _, target_relayed t hi s now hx.1 hy.1 hz.1, fun g hg =>
    ⟨?_, onRecvLine_target qt hx hy hz⟩⟩
  generalize htext : raspberrypi ++ targetPayload x y (some z) (bytes "drone") = text
  have hfits : text.length ≤ blockSize := by
    rw [sendLoop_eq hx.1 hy.1 hz.1, length_frame] at hshort
    change 8 + _ + 2 < 100 at hshort
    rw [← htext, List.length_append]
    change 13 + _ ≤ 1024
    omega
  rw [SockClient.socketReadDataSlot, SockClient.arrive, hg, List.nil_append,
    if_neg (Nat.not_lt.mpr hfits), List.take_of_length_le hfits]
  rfl

/-! ### Exact numbers as doubles -/

theorem Numeral.not_space {s : List Byte} (h : Numeral s) {b : Byte} (hb : b ∈ s) :
    isSpace b = false :=
  (of_isDigit (h.digit b hb)).2.2.1

theorem Numeral.point_notMem {s : List Byte} (h : Numeral s) : '.'.toUInt8 ∉ s := fun hmem =>
  (of_isDigit (h.digit _ hmem)).2.2.2.2 rfl

theorem Numeral.all {s : List Byte} (h : Numeral s) : s ≠ [] ∧ s.all isDigit = true :=
  ⟨h.ne_nil, List.all_eq_true.mpr h.digit⟩

theorem decimalNumber_integer {s : List Byte} (h : Numeral s) :
    decimalNumber s = some (value s : ℚ) := by
  have htrim : trim isSpace s = s := trim_eq_self
    ⟨fun b hb => h.not_space (List.mem_of_mem_head? hb), fun b hb =>
      h.not_space (List.mem_of_getLast? hb)⟩
  have hsplit : s.splitOn '.'.toUInt8 = [s] := List.splitOn_eq_singleton h.point_notMem
  rw [decimalNumber, htrim, hsplit]
  exact if_pos h.all

theorem decimalNumber_fraction {s f : List Byte} (hs : Numeral s) (hf : Numeral f) :
    decimalNumber (s ++ bytes "." ++ f) = some (value s + value f / 10 ^ f.length : ℚ) := by
  have htrim : trim isSpace (s ++ bytes "." ++ f) = s ++ bytes "." ++ f := by
    refine trim_eq_self ⟨fun b hb => ?_, fun b hb => ?_⟩
    · rw [List.append_assoc, List.head?_append_of_ne_nil s hs.ne_nil] at hb
      exact hs.not_space (List.mem_of_mem_head? hb)
    · rw [List.getLast?_append_of_ne_nil _ hf.ne_nil] at hb
      exact hf.not_space (List.mem_of_getLast? hb)
  have hsplit : (s ++ bytes "." ++ f).splitOn '.'.toUInt8 = [s, f] := by
    refine (splitOn_eq_iff (List.cons_ne_nil _ _)).mpr ⟨by simp [List.intercalate, bytes]; rfl, ?_⟩
    intro t ht
    rcases List.mem_cons.mp ht with rfl | ht
    · exact hs.point_notMem
    · rw [List.mem_singleton.mp ht]
      exact hf.point_notMem
  rw [decimalNumber, htrim, hsplit]
  exact if_pos ⟨hs.all, hf.all⟩

/-- Doubles without rounding. -/
def exactDoubles : Doubles ℚ where
  ofRat := id
  toDouble := decimalNumber
  trims := decimalNumber_trim
  integer _ h _ := decimalNumber_integer h
  fraction _ _ hs hf _ := decimalNumber_fraction hs hf

/-- A drone in the middle of the frame, half a metre away. -/
theorem target_round_trip_witness :
    ∃ text, onRecvLine exactDoubles.toDouble text =
      some ⟨(640 : ℤ), (360 : ℤ), roundTo 3 (1 / 2)⟩ := by
  obtain ⟨-, text, -, hgui⟩ := target_round_trip exactDoubles (load idpasswdTxt) (i := 0) (by decide)
    .fresh noon (x := 640) (y := 360) (z := 1 / 2) (by decide) (by decide) (by norm_num)
  exact ⟨text, (hgui ⟨[], [], [], []⟩ rfl).2⟩

end Gui

end DroneTurret
