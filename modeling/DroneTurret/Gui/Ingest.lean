import DroneTurret.Gui.SockClient
import DroneTurret.Lib.Decimal
import DroneTurret.Lib.Events
import DroneTurret.Lib.Trim
import DroneTurret.Relay.Table
import Mathlib.Algebra.Order.Field.Rat

/-!
# What the GUI takes for a detection

Each string that `SockClient` emits is one read, whatever it holds, and `onRecvLine` treats it as
one line. `tryIngestFromLine` accepts a payload with or without the tag of the sender.

A text is modelled by its bytes and white space by that of ASCII. `toDouble` is Qt's; it ignores
white space around the number.

## Main definitions

* `onRecvLine` — the detection a string leads to
* `droneLine` — the detection a line reports
* `Undisturbed` — when the reads do the lines justice

## Main results

* `onRecvLine_of_line` — a read that is one line up to white space
* `eq_line_of_accepted` — an accepted read that begins with a line is that line
* `ingest_iff` — when the detections of the reads are those of the lines
-/

namespace DroneTurret

namespace Gui

open CString Trim Events Relay Transition

/-- The arguments of `droneDetected`. -/
structure Detection (D : Type*) where
  x : D
  y : D
  z : D
  deriving DecidableEq

/-- The tag of the vision system. -/
def raspberrypi : List Byte := bytes "[RASPBERRYPI]"

/-- The separator `@`. -/
def sep : Byte := '@'.toUInt8

section Ingest

variable {D : Type*} (toDouble : List Byte → Option D)

/-- The numbers of `x@y@z@label`, when the label is `drone` after `clean`. -/
def readFields (clean : List Byte → List Byte) (s : List Byte) : Option (Detection D) :=
  match s.splitOn sep with
  | [x, y, z, label] =>
    if clean label = bytes "drone" then
      (toDouble x).bind fun dx => (toDouble y).bind fun dy => (toDouble z).map fun dz => ⟨dx, dy, dz⟩
    else none
  | _ => none

/-- The text without the tag of the vision system, if it starts with it. -/
def stripSender (s : List Byte) : List Byte :=
  if raspberrypi.isPrefixOf s then s.drop raspberrypi.length else s

def tryIngestFromLine (line : List Byte) : Option (Detection D) :=
  readFields toDouble (trim isSpace) (trim isSpace (stripSender (trim isSpace line)))

def onRecvLine (line : List Byte) : Option (Detection D) :=
  tryIngestFromLine toDouble (if line.getLast? = some 13 then line.dropLast else line)

/-- The detection reported by a line `[RASPBERRYPI]x@y@z@drone` with numeric fields. -/
def droneLine (line : List Byte) : Option (Detection D) :=
  if raspberrypi.isPrefixOf line then readFields toDouble id (line.drop raspberrypi.length) else none

end Ingest

/-- The lines as a stream. -/
def stream (lines : List (List Byte)) : List Byte := (lines.map fun l => l ++ bytes "\n").flatten

section Ingest

variable {D : Type*} {toDouble : List Byte → Option D}

/-- `x@y@z@label`. -/
def payload (x y z label : List Byte) : List Byte := x ++ sep :: (y ++ sep :: (z ++ sep :: label))

theorem readFields_eq_some_iff {clean : List Byte → List Byte} {s : List Byte} {d : Detection D} :
    readFields toDouble clean s = some d ↔
      ∃ x y z label, s = payload x y z label ∧ (∀ t ∈ [x, y, z, label], sep ∉ t) ∧
        clean label = bytes "drone" ∧ toDouble x = some d.x ∧ toDouble y = some d.y ∧
        toDouble z = some d.z := by
  have hpieces : ∀ x y z label : List Byte, s.splitOn sep = [x, y, z, label] ↔
      s = payload x y z label ∧ ∀ t ∈ [x, y, z, label], sep ∉ t := by
    intro x y z label
    rw [splitOn_eq_iff (List.cons_ne_nil _ _), eq_comm (b := s)]
    simp [List.intercalate, payload]
  rw [readFields]
  constructor
  · intro h
    split at h
    · rename_i x y z label hsplit
      split_ifs at h with hlabel
      obtain ⟨dx, hx, h⟩ := Option.bind_eq_some_iff.mp h
      obtain ⟨dy, hy, h⟩ := Option.bind_eq_some_iff.mp h
      obtain ⟨dz, hz, rfl⟩ := Option.map_eq_some_iff.mp h
      obtain ⟨hs, hsep⟩ := (hpieces x y z label).mp hsplit
      exact ⟨x, y, z, label, hs, hsep, hlabel, hx, hy, hz⟩
    · cases h
  · rintro ⟨x, y, z, label, hs, hsep, hlabel, hx, hy, hz⟩
    rw [(hpieces x y z label).mpr ⟨hs, hsep⟩]
    simp only [hlabel, if_true, hx, hy, hz]
    rfl

/-! ### One string -/

/-- A carriage return at the end is white space anyway. -/
theorem onRecvLine_eq (line : List Byte) :
    onRecvLine toDouble line = tryIngestFromLine toDouble line := by
  rw [onRecvLine]
  split
  · rename_i hlast
    obtain ⟨init, rfl⟩ := List.getLast?_eq_some_iff.mp hlast
    rw [List.dropLast_concat, tryIngestFromLine, tryIngestFromLine,
      trim_append_right init (forall_mem_of_all rfl)]
  · rfl

theorem stripSender_append (s : List Byte) : stripSender (raspberrypi ++ s) = s := by
  rw [stripSender, if_pos (List.isPrefixOf_iff_prefix.mpr (List.prefix_append _ _)), List.drop_left]

/-- What is stripped has no separator. -/
theorem exists_stripSender (s : List Byte) : ∃ tag, s = tag ++ stripSender s ∧ sep ∉ tag := by
  rw [stripSender]
  split
  · rename_i h
    exact ⟨raspberrypi, (List.prefix_iff_eq_append.mp (List.isPrefixOf_iff_prefix.mp h)).symm,
      by decide⟩
  · exact ⟨[], rfl, List.not_mem_nil⟩

theorem droneLine_eq_some_iff {line : List Byte} {d : Detection D} :
    droneLine toDouble line = some d ↔
      ∃ x y z, line = raspberrypi ++ payload x y z (bytes "drone") ∧ (∀ t ∈ [x, y, z], sep ∉ t) ∧
        toDouble x = some d.x ∧ toDouble y = some d.y ∧ toDouble z = some d.z := by
  rw [droneLine]
  constructor
  · intro h
    split_ifs at h with htag
    obtain ⟨x, y, z, label, hrest, hsep, hlabel, hx, hy, hz⟩ := readFields_eq_some_iff.mp h
    obtain rfl : label = bytes "drone" := hlabel
    refine ⟨x, y, z, ?_, fun t ht => hsep t ?_, hx, hy, hz⟩
    · rw [← hrest]
      exact (List.prefix_iff_eq_append.mp (List.isPrefixOf_iff_prefix.mp htag)).symm
    · exact List.mem_append_left [_] ht
  · rintro ⟨x, y, z, rfl, hsep, hx, hy, hz⟩
    rw [if_pos (List.isPrefixOf_iff_prefix.mpr (List.prefix_append _ _)), List.drop_left]
    refine readFields_eq_some_iff.mpr ⟨x, y, z, _, rfl, fun t ht => ?_, rfl, hx, hy, hz⟩
    rcases List.mem_append.mp (show t ∈ [x, y, z] ++ [bytes "drone"] from ht) with ht | ht
    · exact hsep t ht
    · rw [List.mem_singleton.mp ht]
      decide

/-- `x@y@z@drone` ends in a letter. -/
theorem getLast?_payload (x y z : List Byte) :
    (payload x y z (bytes "drone")).getLast? = some 'e'.toUInt8 := by
  rw [payload, show x ++ sep :: (y ++ sep :: (z ++ sep :: bytes "drone")) =
    (x ++ sep :: (y ++ sep :: (z ++ sep :: bytes "dron"))) ++ ['e'.toUInt8] by simp [bytes]; rfl,
    List.getLast?_concat]

/-- A drone line starts and ends with no white space. -/
theorem tight_line (x y z : List Byte) :
    Tight isSpace (raspberrypi ++ payload x y z (bytes "drone")) := by
  constructor
  · intro b hb
    obtain rfl : '['.toUInt8 = b := Option.some.inj hb
    rfl
  · intro b hb
    rw [List.getLast?_append, getLast?_payload] at hb
    obtain rfl : 'e'.toUInt8 = b := Option.some.inj hb
    rfl

/-- **A read that is one line up to white space** leads to the detection of that line. -/
theorem onRecvLine_of_line (htrim : ∀ s, toDouble (trim isSpace s) = toDouble s)
    {lead line tail : List Byte} {d : Detection D} (hline : droneLine toDouble line = some d)
    (hlead : ∀ b ∈ lead, isSpace b) (htail : ∀ b ∈ tail, isSpace b) :
    onRecvLine toDouble (lead ++ line ++ tail) = some d := by
  obtain ⟨x, y, z, rfl, hsep, hx, hy, hz⟩ := droneLine_eq_some_iff.mp hline
  rw [onRecvLine_eq, tryIngestFromLine, trim_eq hlead htail (tight_line x y z), stripSender_append]
  -- white space between the tag and the first number
  have hsplit : x.takeWhile isSpace ++ x.dropWhile isSpace = x := List.takeWhile_append_dropWhile
  have hblank : ∀ b ∈ x.takeWhile isSpace, isSpace b := fun b hb => List.mem_takeWhile_imp hb
  have hnumber : toDouble (x.dropWhile isSpace) = toDouble x := by
    have h := trim_append (x.dropWhile isSpace) hblank (List.forall_mem_nil _)
    rw [List.append_nil, hsplit] at h
    rw [← htrim, ← h, htrim]
  have htight : Tight isSpace (payload (x.dropWhile isSpace) y z (bytes "drone")) := by
    refine ⟨fun b hb => ?_, fun b hb => ?_⟩
    · have hhead := List.head?_dropWhile_not isSpace x
      cases hdrop : x.dropWhile isSpace with
      | nil =>
        rw [hdrop] at hb
        obtain rfl : sep = b := Option.some.inj hb
        rfl
      | cons c rest =>
        rw [hdrop] at hb hhead
        obtain rfl : c = b := Option.some.inj hb
        simpa using hhead
    · rw [getLast?_payload] at hb
      obtain rfl : 'e'.toUInt8 = b := Option.some.inj hb
      rfl
  have hpayload : payload x y z (bytes "drone") =
      x.takeWhile isSpace ++ payload (x.dropWhile isSpace) y z (bytes "drone") ++ [] := by
    rw [List.append_nil, payload, payload, ← List.append_assoc, hsplit]
  rw [hpayload, trim_eq hblank (List.forall_mem_nil _) htight]
  refine readFields_eq_some_iff.mpr
    ⟨x.dropWhile isSpace, y, z, bytes "drone", rfl, ?_, rfl, hnumber.trans hx, hy, hz⟩
  intro t ht
  rcases List.mem_cons.mp ht with rfl | ht
  · exact fun h => hsep x List.mem_cons_self ((List.dropWhile_suffix _).subset h)
  · rcases List.mem_append.mp (show t ∈ [y, z] ++ [bytes "drone"] from ht) with ht | ht
    · exact hsep t (List.mem_cons_of_mem x ht)
    · rw [List.mem_singleton.mp ht]
      decide

/-- The fields of a text, when no field but the last has a separator. -/
theorem payload_inj {x y z label x' y' z' label' : List Byte} (h : ∀ t ∈ [x, y, z], sep ∉ t)
    (h' : ∀ t ∈ [x', y', z', label'], sep ∉ t)
    (heq : payload x y z label = payload x' y' z' label') :
    x = x' ∧ y = y' ∧ z = z' ∧ label = label' := by
  obtain ⟨hx, hy, hz⟩ : sep ∉ x ∧ sep ∉ y ∧ sep ∉ z :=
    ⟨h x (by simp), h y (by simp), h z (by simp)⟩
  obtain ⟨hx', hy', hz', -⟩ : sep ∉ x' ∧ sep ∉ y' ∧ sep ∉ z' ∧ sep ∉ label' :=
    ⟨h' x' (by simp), h' y' (by simp), h' z' (by simp), h' label' (by simp)⟩
  obtain ⟨hxx, hrest⟩ := eq_of_first heq hx hx'
  obtain ⟨hyy, hrest'⟩ := eq_of_first hrest hy hy'
  obtain ⟨hzz, hll⟩ := eq_of_first hrest' hz hz'
  exact ⟨hxx, hyy, hzz, hll⟩

/-- **What a text from the vision system leads to**, whatever its label. -/
theorem onRecvLine_payload {x y z label : List Byte} {d : Detection D}
    (hsep : ∀ t ∈ [x, y, z], sep ∉ t) (hne : x ≠ []) (hx : ∀ b ∈ x.head?, isSpace b = false) :
    onRecvLine toDouble (raspberrypi ++ payload x y z label) = some d ↔
      trim isSpace label = bytes "drone" ∧ toDouble x = some d.x ∧ toDouble y = some d.y ∧
        toDouble z = some d.z := by
  -- the white space at the end of the label is all that is cut off
  obtain ⟨cut, tail, hcut, htail, hlast⟩ : ∃ cut tail, label = cut ++ tail ∧
      (∀ b ∈ tail, isSpace b) ∧ ∀ b ∈ cut.getLast?, isSpace b = false := by
    refine ⟨label.rdropWhile isSpace, label.rtakeWhile isSpace,
      List.rdropWhile_append_rtakeWhile.symm, fun b hb => List.mem_rtakeWhile_imp hb, ?_⟩
    intro b hb
    obtain ⟨hnil, rfl⟩ := List.mem_getLast?_eq_getLast hb
    exact Bool.not_eq_true _ ▸ List.rdropWhile_last_not isSpace label hnil
  have htight : Tight isSpace (payload x y z cut) := by
    refine ⟨fun b hb => hx b ?_, fun b hb => ?_⟩
    · rwa [payload, List.head?_append_of_ne_nil x hne] at hb
    · rw [show payload x y z cut = (x ++ sep :: (y ++ sep :: z)) ++ [sep] ++ cut by simp [payload],
        List.getLast?_append] at hb
      cases hc : cut.getLast? with
      | none =>
        rw [hc, Option.none_or, List.getLast?_concat] at hb
        obtain rfl : sep = b := Option.some.inj hb
        rfl
      | some c =>
        rw [hc, Option.some_or] at hb
        exact hlast b (hc ▸ hb)
  have htight' : Tight isSpace (raspberrypi ++ payload x y z cut) := by
    refine ⟨fun b hb => ?_, fun b hb => htight.last b ?_⟩
    · obtain rfl : '['.toUInt8 = b := Option.some.inj hb
      rfl
    · have hpayload : payload x y z cut ≠ [] := by simp [payload]
      rwa [List.getLast?_append_of_ne_nil _ hpayload] at hb
  have hwhole : raspberrypi ++ payload x y z label =
      [] ++ (raspberrypi ++ payload x y z cut) ++ tail := by
    rw [hcut]
    simp [payload]
  rw [onRecvLine_eq, tryIngestFromLine, hwhole, trim_eq (List.forall_mem_nil _) htail htight',
    stripSender_append, trim_eq_self htight, hcut, trim_append_right cut htail]
  constructor
  · intro h
    obtain ⟨x', y', z', label', heq, hsep', hlabel, hx', hy', hz'⟩ := readFields_eq_some_iff.mp h
    obtain ⟨rfl, rfl, rfl, rfl⟩ := payload_inj hsep hsep' heq
    exact ⟨hlabel, hx', hy', hz'⟩
  · rintro ⟨hlabel, hx', hy', hz'⟩
    refine readFields_eq_some_iff.mpr ⟨x, y, z, cut, rfl, ?_, hlabel, hx', hy', hz'⟩
    have hcutsep : sep ∉ cut := by
      obtain ⟨lead, tail', hsplit, hlead, htail', -⟩ := trim_decomp (p := isSpace) cut
      rw [hlabel] at hsplit
      rw [hsplit]
      simp only [List.mem_append, not_or]
      exact ⟨⟨fun hmem => absurd (hlead sep hmem) (by decide), by decide⟩,
        fun hmem => absurd (htail' sep hmem) (by decide)⟩
    intro t ht
    rcases List.mem_append.mp (show t ∈ [x, y, z] ++ [cut] from ht) with ht | ht
    · exact hsep t ht
    · rwa [List.mem_singleton.mp ht]

/-! ### Where an accepted string begins -/

theorem count_payload {x y z : List Byte} (h : ∀ t ∈ [x, y, z], sep ∉ t) :
    (x ++ sep :: (y ++ sep :: z)).count sep = 2 := by
  have hx : x.count sep = 0 := List.count_eq_zero.mpr (h x (by simp))
  have hy : y.count sep = 0 := List.count_eq_zero.mpr (h y (by simp))
  have hz : z.count sep = 0 := List.count_eq_zero.mpr (h z (by simp))
  simp [List.count_append, hx, hy, hz]

/-- A line up to its last separator. -/
theorem shape_of_line {line : List Byte} {d : Detection D} (h : droneLine toDouble line = some d) :
    ∃ u, line = u ++ [sep] ++ bytes "drone" ∧ u.count sep = 2 := by
  obtain ⟨x, y, z, rfl, hsep, -⟩ := droneLine_eq_some_iff.mp h
  refine ⟨raspberrypi ++ (x ++ sep :: (y ++ sep :: z)), by simp [payload], ?_⟩
  rw [List.count_append, count_payload hsep]
  rfl

/-- What is left of a text that ends in no white space, when white space is cut off at its end. -/
theorem eq_nil_of_tight {u tail : List Byte} (h : Tight isSpace (u ++ tail))
    (htail : ∀ b ∈ tail, isSpace b) : tail = [] := by
  by_contra hne
  have hlast := h.last (tail.getLast hne) (by
    rw [List.getLast?_append_of_ne_nil _ hne, List.getLast?_eq_some_getLast hne]
    rfl)
  rw [htail _ (List.getLast_mem hne)] at hlast
  cases hlast

/-- An accepted string, trimmed, up to its last separator. -/
theorem shape_of_accepted {r : List Byte} {d : Detection D} (h : onRecvLine toDouble r = some d) :
    ∃ u gap, trim isSpace r = u ++ [sep] ++ (gap ++ bytes "drone") ∧ u.count sep = 2 ∧
      ∀ b ∈ gap, isSpace b := by
  rw [onRecvLine_eq, tryIngestFromLine] at h
  obtain ⟨x, y, z, label, hfields, hsep, hlabel, -⟩ := readFields_eq_some_iff.mp h
  obtain ⟨tag, htag, htagsep⟩ := exists_stripSender (trim isSpace r)
  obtain ⟨lead, tail, hstrip, hlead, htail, -⟩ :=
    trim_decomp (p := isSpace) (stripSender (trim isSpace r))
  obtain ⟨gap, tail', hgap, hgapspace, htail', -⟩ := trim_decomp (p := isSpace) label
  have hwhole : trim isSpace r = (tag ++ lead ++ (x ++ sep :: (y ++ sep :: z)) ++ [sep] ++
      (gap ++ bytes "drone")) ++ (tail' ++ tail) := by
    rw [hfields] at hstrip
    rw [hlabel] at hgap
    conv_lhs => rw [htag, hstrip, hgap]
    simp [payload]
  -- the text is trimmed, so nothing follows the label
  have hnil : tail' ++ tail = [] := by
    refine eq_nil_of_tight (hwhole ▸ tight_trim r) fun b hb => ?_
    exact (List.mem_append.mp hb).elim (htail' b) (htail b)
  rw [hnil, List.append_nil] at hwhole
  refine ⟨_, gap, hwhole, ?_, hgapspace⟩
  have hleadsep : sep ∉ lead := fun hmem => absurd (hlead sep hmem) (by decide)
  rw [List.count_append, List.count_append, List.count_eq_zero.mpr htagsep,
    List.count_eq_zero.mpr hleadsep, count_payload fun t ht => hsep t (List.mem_append_left [_] ht)]

/-- **An accepted string that begins with a line is that line**, up to white space. -/
theorem eq_line_of_accepted {r line a b : List Byte} {d d' : Detection D}
    (h : onRecvLine toDouble r = some d) (hline : droneLine toDouble line = some d')
    (hcut : trim isSpace r ++ a = line ++ b) : trim isSpace r = line := by
  obtain ⟨u, gap, hr, hu, hgap⟩ := shape_of_accepted h
  obtain ⟨u', rfl, hu'⟩ := shape_of_line hline
  rw [hr, List.append_assoc, List.append_assoc (u' ++ [sep])] at hcut
  obtain rfl : u = u' := eq_of_count hcut (hu.trans hu'.symm)
  have hlabel : gap ++ bytes "drone" ++ a = bytes "drone" ++ b := List.append_cancel_left hcut
  cases gap with
  | nil => exact hr
  | cons c gap =>
    -- white space where the line has the first letter of its label
    obtain rfl : c = 100 := by simpa [bytes] using congrArg List.head? hlabel
    exact absurd (hgap 100 List.mem_cons_self) (by decide)

/-! ### A stream of lines -/

/-- The number of blanks a text begins with. -/
def leadSpace (s : List Byte) : ℕ := (s.takeWhile isSpace).length

variable (toDouble)

/-- The detection of a read, and where its text begins in the read. -/
def readEvent (r : List Byte) : Option (ℕ × Detection D) :=
  (onRecvLine toDouble r).map fun d => (leadSpace r, d)

/-- The detection of a terminated line. -/
def lineEvent (l : List Byte) : Option (ℕ × Detection D) :=
  (droneLine toDouble l.dropLast).map fun d => (0, d)

/-- The calls of `droneDetected` for the emitted strings, with the places in the stream at which
the texts that led to them begin. -/
def detections (reads : List (List Byte)) : List (ℕ × Detection D) :=
  stamped (readEvent toDouble) 0 reads

/-- The detections that the lines report, with the places at which the lines begin. -/
def reported (lines : List (List Byte)) : List (ℕ × Detection D) :=
  stamped (lineEvent toDouble) 0 (lines.map fun l => l ++ bytes "\n")

/-- The read `r` behind `before` is the line `l` behind `above`, up to white space around it. -/
def IsLine (before : List (List Byte)) (r : List Byte) (above : List (List Byte))
    (l : List Byte) : Prop :=
  ∃ lead tail, r = lead ++ l ++ tail ∧ (∀ b ∈ lead, isSpace b) ∧ (∀ b ∈ tail, isSpace b) ∧
    before.flatten.length + lead.length = (stream above).length

/-- Every read that is accepted is a drone line, and every drone line is a read. -/
structure Undisturbed (lines reads : List (List Byte)) : Prop where
  accepted : ∀ before r after, reads = before ++ r :: after → (onRecvLine toDouble r).isSome →
    ∃ above l below, lines = above ++ l :: below ∧ (droneLine toDouble l).isSome ∧
      IsLine before r above l
  received : ∀ above l below, lines = above ++ l :: below → (droneLine toDouble l).isSome →
    ∃ before r after, reads = before ++ r :: after ∧ IsLine before r above l

variable {toDouble}

theorem mem_detections {reads : List (List Byte)} {n : ℕ} {d : Detection D} :
    (n, d) ∈ detections toDouble reads ↔ ∃ before r after, reads = before ++ r :: after ∧
      onRecvLine toDouble r = some d ∧ n = before.flatten.length + leadSpace r := by
  rw [detections, mem_stamped]
  constructor
  · rintro ⟨before, r, after, k, hreads, he, rfl⟩
    obtain ⟨d', hd, he⟩ := Option.map_eq_some_iff.mp he
    obtain ⟨rfl, rfl⟩ := Prod.mk.inj he
    exact ⟨before, r, after, hreads, hd, by rw [Nat.zero_add]⟩
  · rintro ⟨before, r, after, hreads, hd, rfl⟩
    exact ⟨before, r, after, leadSpace r, hreads, by rw [readEvent, hd]; rfl,
      by rw [Nat.zero_add]⟩

theorem mem_reported {lines : List (List Byte)} {n : ℕ} {d : Detection D} :
    (n, d) ∈ reported toDouble lines ↔ ∃ above l below, lines = above ++ l :: below ∧
      droneLine toDouble l = some d ∧ n = (stream above).length := by
  rw [reported, mem_stamped]
  constructor
  · rintro ⟨before, r, after, k, hlines, he, rfl⟩
    obtain ⟨above, rest, rfl, rfl, hrest⟩ := List.map_eq_append_iff.mp hlines
    obtain ⟨l, below, rfl, rfl, -⟩ := List.map_eq_cons_iff.mp hrest
    obtain ⟨d', hd, he⟩ := Option.map_eq_some_iff.mp he
    obtain ⟨rfl, rfl⟩ := Prod.mk.inj he
    have hdrop : (l ++ bytes "\n").dropLast = l := List.dropLast_concat
    rw [hdrop] at hd
    exact ⟨above, l, below, rfl, hd, by rw [Nat.zero_add, Nat.add_zero, stream]⟩
  · rintro ⟨above, l, below, rfl, hd, rfl⟩
    have hdrop : (l ++ bytes "\n").dropLast = l := List.dropLast_concat
    refine ⟨_, l ++ bytes "\n", _, 0, by rw [List.map_append, List.map_cons], ?_,
      by rw [Nat.zero_add, Nat.add_zero, stream]⟩
    rw [lineEvent, hdrop, hd]
    rfl

theorem leadSpace_append {lead s : List Byte} (hlead : ∀ b ∈ lead, isSpace b)
    (hs : ∀ b ∈ s.head?, isSpace b = false) : leadSpace (lead ++ s) = lead.length := by
  rw [leadSpace, List.takeWhile_append_of_pos hlead]
  cases s with
  | nil => simp
  | cons b s => simp [hs b rfl]

/-- An accepted read, cut at the blanks around its text. -/
theorem decomp_of_accepted {r : List Byte} {d : Detection D} (h : onRecvLine toDouble r = some d) :
    ∃ lead tail, r = lead ++ trim isSpace r ++ tail ∧ (∀ b ∈ lead, isSpace b) ∧
      (∀ b ∈ tail, isSpace b) ∧ leadSpace r = lead.length ∧ trim isSpace r ≠ [] := by
  obtain ⟨lead, tail, hr, hlead, htail, htight⟩ := trim_decomp (p := isSpace) r
  obtain ⟨u, gap, hshape, -⟩ := shape_of_accepted h
  have hne : trim isSpace r ≠ [] := by simp [hshape]
  refine ⟨lead, tail, hr, hlead, htail, ?_, hne⟩
  conv_lhs => rw [hr, List.append_assoc]
  refine leadSpace_append hlead ?_
  rw [List.head?_append_of_ne_nil _ hne]
  exact htight.head

theorem readEvent_lt {r : List Byte} {k : ℕ} {d : Detection D}
    (h : readEvent toDouble r = some (k, d)) : k < r.length := by
  obtain ⟨d', hd, he⟩ := Option.map_eq_some_iff.mp h
  obtain ⟨rfl, rfl⟩ := Prod.mk.inj he
  obtain ⟨lead, tail, hr, -, -, hspace, hne⟩ := decomp_of_accepted hd
  have hlen := congrArg List.length hr
  have hpos := List.length_pos_iff.mpr hne
  rw [List.length_append, List.length_append] at hlen
  omega

theorem lineEvent_lt {l : List Byte} {k : ℕ} {d : Detection D}
    (h : lineEvent toDouble l = some (k, d)) : k < l.length := by
  obtain ⟨d', hd, he⟩ := Option.map_eq_some_iff.mp h
  obtain ⟨rfl, rfl⟩ := Prod.mk.inj he
  refine List.length_pos_iff.mpr ?_
  rintro rfl
  cases hd

/-- The stream behind the beginning of a line. -/
theorem stream_append_cons (above : List (List Byte)) (l : List Byte) (below : List (List Byte)) :
    stream (above ++ l :: below) = stream above ++ (l ++ (bytes "\n" ++ stream below)) := by
  simp [stream]

/-- A read whose text begins in the stream where a line does is the line. -/
theorem isLine_of_place {before above : List (List Byte)} {r l rest rest' : List Byte}
    {d d' : Detection D} (hd : onRecvLine toDouble r = some d) (hl : droneLine toDouble l = some d')
    (hcut : before.flatten ++ (r ++ rest) = stream above ++ (l ++ rest'))
    (hplace : before.flatten.length + leadSpace r = (stream above).length) :
    IsLine before r above l := by
  obtain ⟨lead, tail, hr, hlead, htail, hspace, -⟩ := decomp_of_accepted hd
  rw [hspace] at hplace
  have hsplit : (before.flatten ++ lead) ++ (trim isSpace r ++ (tail ++ rest)) =
      stream above ++ (l ++ rest') := by
    rw [← hcut]
    conv_rhs => rw [hr]
    simp
  have htext : trim isSpace r ++ (tail ++ rest) = l ++ rest' :=
    (List.append_inj hsplit (by rw [List.length_append, hplace])).2
  rw [eq_line_of_accepted hd hl htext] at hr
  exact ⟨lead, tail, hr, hlead, htail, hplace⟩

/-- A read that is a drone line leads to its detection, at its place. -/
theorem onRecvLine_of_isLine (htrim : ∀ s, toDouble (trim isSpace s) = toDouble s)
    {before above : List (List Byte)} {r l : List Byte} {d : Detection D}
    (h : IsLine before r above l) (hl : droneLine toDouble l = some d) :
    onRecvLine toDouble r = some d ∧
      before.flatten.length + leadSpace r = (stream above).length := by
  obtain ⟨lead, tail, rfl, hlead, htail, hplace⟩ := h
  refine ⟨onRecvLine_of_line htrim hl hlead htail, ?_⟩
  obtain ⟨x, y, z, rfl, -⟩ := droneLine_eq_some_iff.mp hl
  rw [List.append_assoc, leadSpace_append hlead, hplace]
  exact (tight_line x y z).head

/-- **The GUI's ingestion.** Whatever the order of arrivals and invocations of the slot, once
everything has been read, the detections emitted are those that the lines report, each once, in
order and at its place, if and only if every accepted read is a drone line up to white space and
every drone line is a read up to white space. -/
theorem ingest_iff (htrim : ∀ s, toDouble (trim isSpace s) = toDouble s)
    {s : SockClient (List Byte)} (hs : (sockClient id).Reachable s) (hdone : s.pending = [])
    {lines : List (List Byte)} (hlines : s.arrived = stream lines) :
    detections toDouble s.emitted = reported toDouble lines ↔
      Undisturbed toDouble lines s.emitted := by
  obtain ⟨hbytes, htexts⟩ := conserved_of_reach hs
  have hcut : s.emitted.flatten = stream lines := by
    rw [htexts, List.map_id, ← hlines, hbytes, hdone, List.append_nil]
  generalize s.emitted = reads at hcut
  -- the stream around a read and around a line
  have haround : ∀ before r after above l below, reads = before ++ r :: after →
      lines = above ++ l :: below → before.flatten ++ (r ++ after.flatten) =
        stream above ++ (l ++ (bytes "\n" ++ stream below)) := by
    rintro before r after above l below rfl rfl
    rw [← stream_append_cons, ← hcut, List.flatten_append, List.flatten_cons]
  constructor
  · intro hsame
    constructor
    · intro before r after hreads haccepted
      obtain ⟨d, hd⟩ := Option.isSome_iff_exists.mp haccepted
      have hmem := mem_detections.mpr ⟨before, r, after, hreads, hd, rfl⟩
      rw [hsame] at hmem
      obtain ⟨above, l, below, habove, hl, hplace⟩ := mem_reported.mp hmem
      exact ⟨above, l, below, habove, by rw [hl]; rfl,
        isLine_of_place hd hl (haround _ _ _ _ _ _ hreads habove) hplace⟩
    · intro above l below habove hdrone
      obtain ⟨d, hl⟩ := Option.isSome_iff_exists.mp hdrone
      have hmem := mem_reported.mpr ⟨above, l, below, habove, hl, rfl⟩
      rw [← hsame] at hmem
      obtain ⟨before, r, after, hreads, hd, hplace⟩ := mem_detections.mp hmem
      exact ⟨before, r, after, hreads,
        isLine_of_place hd hl (haround _ _ _ _ _ _ hreads habove) hplace.symm⟩
  · intro h
    refine (stamped_eq_iff (fun _ _ _ => readEvent_lt) fun _ _ _ => lineEvent_lt).mpr fun n d => ?_
    constructor
    · intro hmem
      obtain ⟨before, r, after, hreads, hd, rfl⟩ := mem_detections.mp hmem
      obtain ⟨above, l, below, habove, hdrone, hisline⟩ :=
        h.accepted before r after hreads (by rw [hd]; rfl)
      obtain ⟨d', hl⟩ := Option.isSome_iff_exists.mp hdrone
      obtain ⟨hd', hplace⟩ := onRecvLine_of_isLine htrim hisline hl
      obtain rfl : d' = d := Option.some.inj (hd'.symm.trans hd)
      exact mem_reported.mpr ⟨above, l, below, habove, hl, hplace⟩
    · intro hmem
      obtain ⟨above, l, below, habove, hl, rfl⟩ := mem_reported.mp hmem
      obtain ⟨before, r, after, hreads, hisline⟩ :=
        h.received above l below habove (by rw [hl]; rfl)
      obtain ⟨hd, hplace⟩ := onRecvLine_of_isLine htrim hisline hl
      exact mem_detections.mpr ⟨before, r, after, hreads, hd, hplace.symm⟩

end Ingest

/-- What `toDouble` makes of a plain numeral, as an exact number. -/
def decimalNumber (s : List Byte) : Option ℚ :=
  match (trim isSpace s).splitOn '.'.toUInt8 with
  | [i] => if i ≠ [] ∧ i.all Decimal.isDigit then some (Decimal.value i) else none
  | [i, f] =>
    if (i ≠ [] ∧ i.all Decimal.isDigit) ∧ f ≠ [] ∧ f.all Decimal.isDigit then
      some (Decimal.value i + Decimal.value f / 10 ^ f.length)
    else none
  | _ => none

theorem decimalNumber_trim (s : List Byte) : decimalNumber (trim isSpace s) = decimalNumber s := by
  rw [decimalNumber, decimalNumber, trim_eq_self (tight_trim s)]

/-- The client after the stream of some lines has arrived and been read in one piece. -/
def readAtOnce (lines : List (List Byte)) : SockClient (List Byte) :=
  (SockClient.arrive ⟨[], [], [], []⟩ (stream lines)).socketReadDataSlot id

theorem reachable_readAtOnce (lines : List (List Byte)) :
    (sockClient id).Reachable (readAtOnce lines) :=
  .step .readyRead (.step (.arrive (stream lines)) (.init rfl) trivial rfl) trivial rfl

/-- One line, read as a whole. -/
theorem ingest_iff_witness :
    Undisturbed decimalNumber [bytes "[RASPBERRYPI]1@2@3.5@drone"]
      (readAtOnce [bytes "[RASPBERRYPI]1@2@3.5@drone"]).emitted :=
  (ingest_iff decimalNumber_trim (reachable_readAtOnce [bytes "[RASPBERRYPI]1@2@3.5@drone"]) rfl
    rfl).mp rfl

/-- Two lines in one read are lost. -/
theorem not_ingest :
    ¬∀ (s : SockClient (List Byte)) (lines : List (List Byte)), (sockClient id).Reachable s →
      s.pending = [] → s.arrived = stream lines →
        detections decimalNumber s.emitted = reported decimalNumber lines := by
  intro h
  have hlost := h _ [bytes "[RASPBERRYPI]1@2@3@drone", bytes "[RASPBERRYPI]4@5@6@drone"]
    (reachable_readAtOnce [bytes "[RASPBERRYPI]1@2@3@drone", bytes "[RASPBERRYPI]4@5@6@drone"])
    rfl rfl
  exact absurd (congrArg List.length hlost) (by decide)

end Gui

end DroneTurret
