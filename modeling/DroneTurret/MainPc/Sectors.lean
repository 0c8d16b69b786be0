import DroneTurret.DbClient.Record
import DroneTurret.Gui.Ingest
import DroneTurret.Vision.Encoder

/-!
# Sector reports and the clients that record them

`send_loop` of `app_hailo` reports the sector of a target, whether its depth is known, and its
label. Two clients record sectors, the Qt client and the database client of the main PC, and each
has its own test of the format. Both were written for a report without label.

## Main definitions

* `sectorPayload` — the report
* `tryIngestFromLine`, `DbClient.recorded` — what the clients insert for it
* `Agreed` — both clients insert the sector and the tag

## Main results

* `sector_relayed` — the text that the clients get
* `never_agreed` — a report is not recorded
-/

namespace DroneTurret

namespace MainPc

open CString Trim Relay Gui DbClient

/-! ### The report -/

/-- `tag` of `send_loop`: 1 without a depth, 2 with one. -/
def depthTag (depth : Option ℚ) : List Byte :=
  if depth = none ∨ depth = some 0 then bytes "1" else bytes "2"

def sectorPayload (cur : List Byte) (depth : Option ℚ) (label : List Byte) : List Byte :=
  cur ++ bytes "@" ++ depthTag depth ++ bytes "@" ++ label ++ bytes "\n"

/-- `send_loop`: what is sent when there is a result. -/
def sendLoop (cur : List Byte) (depth : Option ℚ) (label : List Byte) : List Byte :=
  let payload := sectorPayload cur depth label
  if payload.head? = some '['.toUInt8 then payload else bytes "[QTCLIENT]" ++ payload

/-- The text that the clients get. -/
def relayed (cur : List Byte) (depth : Option ℚ) (label : List Byte) : List Byte :=
  raspberrypi ++ sectorPayload cur depth label

/-! ### The Qt client -/

/-- The regular expression `^([QWEASDZXC])@([1-3])$`. -/
def sectorMatch : List Byte → Option SectorEvent
  | [l, a, d] =>
    if l ∈ bytes "QWEASDZXC" ∧ a = atSign ∧ isValidLevelDigit d then some ⟨l, d.toNat - 48⟩
    else none
  | _ => none

def tryIngestFromLine (line : List Byte) : Option SectorEvent :=
  if raspberrypi.isPrefixOf line then sectorMatch (trim isSpace (line.drop 13)) else none

def onRecvLine (line : List Byte) : Option SectorEvent :=
  tryIngestFromLine (if line.getLast? = some 13 then line.dropLast else line)

/-! ### Agreement -/

/-- The level that a tag stands for. -/
def levelOfTag (tag : List Byte) : ℕ := Decimal.value tag

/-- Both clients record the sector and the tag of a report, and nothing else. -/
structure Agreed (key : Byte) (depth : Option ℚ) (label : List Byte) : Prop where
  qt : onRecvLine (relayed [key] depth label) = some ⟨key, levelOfTag (depthTag depth)⟩
  db : recorded (relayed [key] depth label) = [⟨key, levelOfTag (depthTag depth)⟩]

/-- A label without delimiters of the relay server and without separator. -/
def Plain (label : List Byte) : Prop := ∀ b ∈ label, isDelim b = false ∧ b ≠ atSign

/-- What the letters of the key map are not. -/
theorem of_key {key : Byte} (h : key ∈ keymap.flatten) :
    isSpace key = false ∧ key ≠ 0 ∧ key ≠ atSign ∧ key ≠ lb ∧ isDelim key = false :=
  forall_mem_of_all (p := fun key =>
    isSpace key = false ∧ key ≠ 0 ∧ key ≠ atSign ∧ key ≠ lb ∧ isDelim key = false) rfl key h

/-- The tag is one of two digits. -/
theorem exists_digit (depth : Option ℚ) :
    ∃ digit ∈ bytes "12", depthTag depth = [digit] := by
  rw [depthTag]
  split
  · exact ⟨'1'.toUInt8, by decide, rfl⟩
  · exact ⟨'2'.toUInt8, by decide, rfl⟩

theorem of_digit {digit : Byte} (h : digit ∈ bytes "12") :
    isSpace digit = false ∧ digit ≠ 0 ∧ digit ≠ lb ∧ isDelim digit = false ∧
      digit ≠ 'L'.toUInt8 ∧ digit ≠ 'l'.toUInt8 :=
  forall_mem_of_all (p := fun digit => isSpace digit = false ∧ digit ≠ 0 ∧ digit ≠ lb ∧
    isDelim digit = false ∧ digit ≠ 'L'.toUInt8 ∧ digit ≠ 'l'.toUInt8) rfl digit h

theorem fields {key digit : Byte} (hkey : key ∈ keymap.flatten) (hdigit : digit ∈ bytes "12") :
    Fields key digit :=
  ⟨⟨(of_key hkey).1, (of_key hkey).2.1, (of_key hkey).2.2.1⟩,
    ⟨(of_digit hdigit).1, (of_digit hdigit).2.1⟩, (of_digit hdigit).2.2.2.2⟩

/-- A report begins with two fields, and the label is a third. -/
theorem sectorPayload_eq (key : Byte) {depth : Option ℚ} {digit : Byte}
    (h : depthTag depth = [digit]) (label : List Byte) :
    sectorPayload [key] depth label =
      key :: atSign :: digit :: atSign :: (label ++ bytes "\n") := by
  rw [sectorPayload, h]
  simp [bytes]
  rfl

/-- A report is one token for the relay server. -/
theorem field_sector {key : Byte} (hkey : key ∈ keymap.flatten) (depth : Option ℚ)
    {label : List Byte} (hlabel : Plain label) (hzero : 0 ∉ label) :
    Relay.Field (sectorPayload [key] depth label) := by
  obtain ⟨digit, hmem, hdigit⟩ := exists_digit depth
  rw [sectorPayload_eq key hdigit]
  refine ⟨List.cons_ne_nil _ _, fun b hb => ?_⟩
  simp only [List.mem_cons, List.mem_append] at hb
  rcases hb with rfl | rfl | rfl | rfl | hb | hb
  · exact ⟨(of_key hkey).2.1, (of_key hkey).2.2.2.2⟩
  · decide
  · exact ⟨(of_digit hmem).2.1, (of_digit hmem).2.2.2.1⟩
  · decide
  · exact ⟨fun h => hzero (h ▸ hb), (hlabel b hb).1⟩
  · rw [List.mem_singleton.mp hb]
    decide

/-- The relay server passes a report on under the tag of its sender. -/
theorem sector_relayed (t : Table) {i : Fin maxClnt} (hi : (t i).id.val = bytes "RASPBERRYPI")
    (s : Scanner) (now : Tm) {key : Byte} (hkey : key ∈ keymap.flatten) (depth : Option ℚ)
    {label : List Byte} (hlabel : Plain label) (hzero : 0 ∉ label) :
    relayRead t (t i) s (sendLoop [key] depth label) now =
      some ((t.live fun j => (t j).id.val = bytes "QTCLIENT").map fun j =>
        ((t j).fd, relayed [key] depth label)) := by
  have hsend : sendLoop [key] depth label =
      frame (bytes "QTCLIENT") (sectorPayload [key] depth label) := by
    have hhead : (sectorPayload [key] depth label).head? = some key := by
      simp [sectorPayload]
    have hne : (sectorPayload [key] depth label).head? ≠ some lb := by
      rw [hhead]
      exact fun h => (of_key hkey).2.2.2.1 (Option.some.inj h)
    rw [sendLoop, if_neg hne]
    rfl
  have hfield : Relay.Field (bytes "QTCLIENT") := by decide
  have hall : bytes "QTCLIENT" ≠ allmsg := by decide
  have hrequest : ¬(bytes "QTCLIENT" = idlist ∨ bytes "QTCLIENT" = gettime) := by decide
  rw [hsend, relayRead, msgInfo_frame (t i) s hfield (field_sector hkey depth hlabel hzero),
    Option.bind_some, hi]
  exact sendMsg_of_id t ⟨_, bytes "QTCLIENT", _⟩ hall hrequest now

/-! ### Nothing is recorded -/

theorem sectorMatch_of_long {s : List Byte} (h : 3 < s.length) : sectorMatch s = none := by
  match s, h with
  | _ :: _ :: _ :: _ :: _, _ => rfl

/-- The Qt client takes no report. -/
theorem onRecvLine_relayed {key : Byte} (hkey : key ∈ keymap.flatten) (depth : Option ℚ)
    (label : List Byte) : onRecvLine (relayed [key] depth label) = none := by
  obtain ⟨digit, hmem, hdigit⟩ := exists_digit depth
  have hlast : (relayed [key] depth label).getLast? ≠ some 13 := by
    rw [relayed, sectorPayload, ← List.append_assoc, List.getLast?_append_of_ne_nil _ (by decide)]
    decide
  rw [onRecvLine, if_neg hlast, tryIngestFromLine, relayed, sectorPayload_eq key hdigit,
    if_pos (List.isPrefixOf_iff_prefix.mpr (List.prefix_append _ _)),
    show 13 = raspberrypi.length from rfl, List.drop_left, (fields hkey hmem).trim_eq]
  exact sectorMatch_of_long (by simp)

/-- The database client takes no report. -/
theorem recorded_relayed {key : Byte} (hkey : key ∈ keymap.flatten) (depth : Option ℚ)
    {label : List Byte} (hlabel : Plain label) : recorded (relayed [key] depth label) = [] := by
  obtain ⟨digit, hmem, hdigit⟩ := exists_digit depth
  -- the whole text is taken off as one frame
  have hplain : lb ∉ sectorPayload [key] depth label := by
    rw [sectorPayload_eq key hdigit]
    simp only [List.mem_cons, List.mem_append, not_or]
    refine ⟨(of_key hkey).2.2.2.1.symm, by decide, (of_digit hmem).2.2.1.symm, by decide,
      fun h => ?_, by decide⟩
    exact absurd (hlabel lb h).1 (by decide)
  have htext : relayed [key] depth label = [] ++ lb :: (bytes "RASPBERRYPI" ++ rb ::
      (sectorPayload [key] depth label ++ [])) := by
    rw [List.append_nil]
    rfl
  have hsplit : ∀ n, split (n + 1) (relayed [key] depth label) =
      ([(bytes "RASPBERRYPI", (sectorPayload [key] depth label).take (payloadSize - 1))], []) := by
    intro n
    rw [htext, split_of_header n List.not_mem_nil (by decide) hplain (by simp),
      split_of_incomplete n fun _ _ h => by simp at h]
  have hrecv : (recv [] (relayed [key] depth label)).1 =
      calls [(bytes "RASPBERRYPI", (sectorPayload [key] depth label).take (payloadSize - 1))] := by
    have haccum : (if ([] : List Byte).length + (relayed [key] depth label).length ≥ accumSize
        then ([] : List Byte) else []) ++ relayed [key] depth label =
          relayed [key] depth label := by
      rw [ite_self, List.nil_append]
    have hlength : (relayed [key] depth label).length =
        (relayed [key] depth label).tail.length + 1 := by
      rw [htext]
      rfl
    rw [recv]
    simp only [haccum]
    rw [hlength, hsplit]
  have hdispatch : dispatch (bytes "RASPBERRYPI")
      ((sectorPayload [key] depth label).take (payloadSize - 1)) = some ⟨.fromRpi,
        bytes "RASPBERRYPI", key :: atSign :: digit :: atSign ::
          (cString ((label ++ bytes "\n").take 251)).rdropWhile isSpace⟩ := by
    have htake : (key :: atSign :: digit :: atSign :: (label ++ bytes "\n")).take (payloadSize - 1) =
        key :: atSign :: digit :: atSign :: (label ++ bytes "\n").take 251 := rfl
    rw [dispatch_eq, sectorPayload_eq key hdigit, htake, (fields hkey hmem).cString_eq,
      (fields hkey hmem).trim_eq]
    rfl
  have hcall : ∀ f : List Byte × List Byte, ∀ c, dispatch f.1 f.2 = some c → calls [f] = [c] := by
    intro f c hf
    simp [calls, hf]
  rw [recorded, hrecv, hcall _ _ hdispatch]
  refine List.filterMap_cons_none ?_
  exact (if_pos rfl).trans ((fields hkey hmem).handleFromRpi_eq _)

/-- **No report is recorded.** Neither client takes a report for an event, whatever its sector, its
depth and its label. -/
theorem never_agreed {key : Byte} (hkey : key ∈ keymap.flatten) (depth : Option ℚ)
    {label : List Byte} (hlabel : Plain label) :
    ¬Agreed key depth label ∧ onRecvLine (relayed [key] depth label) = none ∧
      recorded (relayed [key] depth label) = [] := by
  have hqt := onRecvLine_relayed hkey depth label
  refine ⟨fun h => ?_, hqt, recorded_relayed hkey depth hlabel⟩
  have hsome := h.qt
  rw [hqt] at hsome
  cases hsome

/-- A drone in the upper left sector, at a known depth. -/
theorem never_agreed_witness :
    ¬Agreed 'Q'.toUInt8 (some (1 / 2)) (bytes "drone") ∧
      onRecvLine (relayed ['Q'.toUInt8] (some (1 / 2)) (bytes "drone")) = none ∧
        recorded (relayed ['Q'.toUInt8] (some (1 / 2)) (bytes "drone")) = [] :=
  never_agreed (by decide : 'Q'.toUInt8 ∈ keymap.flatten) (some (1 / 2)) (forall_mem_of_all rfl)

theorem not_agreed :
    ¬∀ key ∈ keymap.flatten, ∀ depth label, Plain label → Agreed key depth label := by
  intro h
  have hqt := (h 'Q'.toUInt8 (by decide) none (bytes "drone") (forall_mem_of_all rfl)).qt
  rw [onRecvLine_relayed (by decide)] at hqt
  cases hqt

end MainPc

end DroneTurret
