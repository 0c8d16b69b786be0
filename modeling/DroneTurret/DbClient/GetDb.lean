import DroneTurret.DbClient.Receive
import DroneTurret.Lib.Selection

/-!
# The answer to `GETDB`, through the relay

`handle_getdb` answers with a first line, one line for each row of the events table and a last line,
each of them a message `[F]LINE` to the client that asked. The server cuts a message at its colons
as well as at its brackets and forwards the second token, so of a row no more than the date and the
hour gets through.

What the two queries return is a parameter. A line is printed into an array; `snprintf` reports the
length it would have had, and that many bytes are written.

## Main definitions

* `handleGetdb` — the messages written for what the queries return
* `relayAll`, `getdb` — the server's reads of them, and what the client that asked receives
* `Delivered` — the lines arrive, with every row

## Main results

* `forwarded_of_relayAll` — one text arrives for each message, with its second token
* `not_infix_stamp` — the second token of a row does not hold the row
* `getdb_iff` — when the lines arrive
-/

namespace DroneTurret

namespace DbClient

open CString Tokens Decimal Relay

/-! ### `handle_getdb` -/

/-- `NAME_SIZE`. -/
abbrev nameSize : ℕ := 20

/-- A row that `mysql_fetch_row` returns. `none` is NULL. -/
structure ResultRow where
  ts : Option (List Byte)
  lc : Option (List Byte)
  lv : Option (List Byte)

/-- What the two queries return. `none` is a failure. -/
structure Results where
  count : Option ℕ
  rows : Option (List ResultRow)

/-- A column as `%s` prints it. -/
def column (c : Option (List Byte)) : List Byte := cString (c.getD [])

def beginLine (n : ℕ) : List Byte := bytes "GETDB_BEGIN rows=" ++ digits n ++ bytes "\n"

def rowLine (r : ResultRow) : List Byte :=
  column r.ts ++ bytes "," ++ column r.lc ++ bytes "," ++ column r.lv ++ bytes "\n"

def errorLine : List Byte := bytes "ERROR\n"

def endLine : List Byte := bytes "GETDB_END\n"

/-- The lines, with the sizes of the arrays they are printed into. -/
def lines (r : Results) : List (ℕ × List Byte) :=
  (nameSize + 64, beginLine (r.count.getD 0)) ::
    match r.rows with
    | none => [(128, errorLine), (128, endLine)]
    | some rows => rows.map (fun row => (nameSize + 64, rowLine row)) ++ [(nameSize + 32, endLine)]

/-- `snprintf` and `write_all`. A text that fills the array is cut by its NUL, which is written; for
a longer one what lies behind the array is read. -/
def printAll (size : ℕ) (text : List Byte) : Option (List Byte) :=
  if text.length < size then some text
  else if text.length = size then some (text.take (size - 1) ++ [0])
  else none

def handleGetdb (replyTo : List Byte) (r : Results) : Option (List (List Byte)) :=
  if replyTo = [] then some []
  else (lines r).mapM fun l => printAll l.1 (frame replyTo l.2)

/-! ### The events table -/

/-- A time that `DATE_FORMAT` prints as `YYYY-MM-DD HH:MM:SS`. -/
structure Timestamp where
  year : Fin 10000
  month : Fin 13
  day : Fin 32
  hour : Fin 24
  minute : Fin 60
  second : Fin 60

/-- `YYYY-MM-DD`. -/
def Timestamp.date (t : Timestamp) : List Byte :=
  padded 4 t.year ++ bytes "-" ++ padded 2 t.month ++ bytes "-" ++ padded 2 t.day

/-- `YYYY-MM-DD HH`. -/
def Timestamp.stamp (t : Timestamp) : List Byte := t.date ++ bytes " " ++ padded 2 t.hour

def Timestamp.text (t : Timestamp) : List Byte :=
  t.stamp ++ bytes ":" ++ padded 2 t.minute ++ bytes ":" ++ padded 2 t.second

structure Event where
  time : Timestamp
  locate : List Byte
  distanceLevel : ℤ

def Event.row (e : Event) : ResultRow := ⟨e.time.text, e.locate, paddedInt 1 e.distanceLevel⟩

/-- `time,locate,level`. -/
def Event.text (e : Event) : List Byte :=
  e.time.text ++ bytes "," ++ e.locate ++ bytes "," ++ paddedInt 1 e.distanceLevel

/-- What the queries return for a table, its rows in the order of the second query. -/
def query (events : List Event) : Results := ⟨some events.length, some (events.map Event.row)⟩

/-! ### Through the server -/

/-- The writes of the server for messages each of which is a read of its own. -/
def relayAll (t : Table) (client : ClientInfo) (clock : ℕ → Tm) (s : Scanner) :
    List (List Byte) → Option (List (ℤ × List Byte))
  | [] => some []
  | rd :: rds =>
    (relayRead t client s rd (clock rds.length)).bind fun writes =>
      (relayAll t client clock (s.clear.scan rd) rds).map fun rest => writes ++ rest

/-- The texts written to a descriptor. -/
def inbox (fd : ℤ) (writes : List (ℤ × List Byte)) : List (List Byte) :=
  (writes.filter fun w => w.1 = fd).map Prod.snd

/-- What the client of slot `i` receives when the database client of slot `j` answers it. -/
def getdb (t : Table) (i j : Fin maxClnt) (s : Scanner) (clock : ℕ → Tm) (events : List Event) :
    Option (List (List Byte)) :=
  (handleGetdb (t i).id.val (query events)).bind fun msgs =>
    (relayAll t (t j) clock s msgs).map (inbox (t i).fd)

/-- The first line, a text with each row in full, and the last line, in this order. -/
def Delivered (events : List Event) (texts : List (List Byte)) : Prop :=
  ∃ first rows last, texts = first :: (rows ++ [last]) ∧ beginLine events.length <:+: first ∧
    List.Forall₂ (fun e text => e.text <:+: text) events rows ∧ endLine <:+: last

/-! ### The tokens of the messages -/

theorem printAll_cases {size : ℕ} {text rd : List Byte} (h : printAll size text = some rd) :
    text.length < size ∧ rd = text ∨
      text.length = size ∧ rd = text.take (size - 1) ++ [0] := by
  rw [printAll] at h
  split_ifs at h with hlt heq
  · exact .inl ⟨hlt, (Option.some.inj h).symm⟩
  · exact .inr ⟨heq, (Option.some.inj h).symm⟩

/-- What is printed begins as the text does. -/
theorem exists_of_printAll {size : ℕ} {pre rest rd : List Byte}
    (h : printAll size (pre ++ rest) = some rd) (hpre : pre.length < size) :
    ∃ rest', rd = pre ++ rest' := by
  rcases printAll_cases h with ⟨-, rfl⟩ | ⟨-, rfl⟩
  · exact ⟨rest, rfl⟩
  · rw [List.take_append, List.take_of_length_le (by omega), List.append_assoc]
    exact ⟨_, rfl⟩

theorem length_head (dest body : List Byte) :
    frame dest body = (bytes "[" ++ dest ++ bytes "]") ++ body ∧
      (bytes "[" ++ dest ++ bytes "]").length = dest.length + 2 := by
  refine ⟨rfl, ?_⟩
  simp [bytes]

/-- A line without delimiters goes through up to where it is cut. -/
theorem tokens_of_plain {size : ℕ} {dest line rd : List Byte} (hdest : Relay.Field dest)
    (hline : Relay.Field line) (hroom : dest.length + 3 < size)
    (h : printAll size (frame dest line) = some rd) :
    ∃ body, tokens isDelim (cString rd) = [dest, body] ∧ body <+: line := by
  rcases printAll_cases h with ⟨-, rfl⟩ | ⟨-, rfl⟩
  · exact ⟨line, tokens_frame hdest hline, List.prefix_rfl⟩
  · obtain ⟨hframe, hhead⟩ := length_head dest line
    obtain ⟨k, hk⟩ : ∃ k, size - 1 - (dest.length + 2) = k + 1 :=
      ⟨size - 1 - (dest.length + 2) - 1, by omega⟩
    have hcut : Relay.Field (line.take (k + 1)) := by
      refine ⟨fun hnil => ?_, fun b hb => hline.2 b (List.mem_of_mem_take hb)⟩
      rcases List.take_eq_nil_iff.mp hnil with hzero | hnil
      · omega
      · exact hline.1 hnil
    have hrd : (frame dest line).take (size - 1) = frame dest (line.take (k + 1)) := by
      rw [hframe, List.take_append, List.take_of_length_le (by omega), hhead, hk]
      rfl
    have h0 := zero_notMem_frame hdest.zero_notMem hcut.zero_notMem
    refine ⟨line.take (k + 1), ?_, List.take_prefix _ _⟩
    rw [hrd, cString_append_zero h0, ← cString_of_not_mem h0, tokens_frame hdest hcut]

/-- Digits are part of a field, and no white space. -/
theorem of_mem_padded {w n : ℕ} {b : Byte} (h : b ∈ padded w n) :
    b ≠ 0 ∧ isDelim b = false ∧ isSpace b = false := by
  obtain ⟨d, hd, rfl⟩ := exists_digit (isDigit_of_mem_padded h)
  interval_cases d <;> exact ⟨by decide, by decide, by decide⟩

theorem Timestamp.of_mem_date {t : Timestamp} {b : Byte} (h : b ∈ t.date) :
    b ≠ 0 ∧ isDelim b = false ∧ isSpace b = false := by
  have hdash : ∀ b ∈ bytes "-", b ≠ 0 ∧ isDelim b = false ∧ isSpace b = false :=
    forall_mem_of_all rfl
  simp only [date, List.mem_append] at h
  rcases h with (((h | h) | h) | h) | h
  · exact of_mem_padded h
  · exact hdash b h
  · exact of_mem_padded h
  · exact hdash b h
  · exact of_mem_padded h

theorem Timestamp.field_stamp (t : Timestamp) : Relay.Field t.stamp := by
  have hblank : ∀ b ∈ bytes " ", b ≠ 0 ∧ isDelim b = false := forall_mem_of_all rfl
  refine ⟨by simp [stamp, bytes], fun b hb => ?_⟩
  simp only [stamp, List.mem_append] at hb
  rcases hb with (hb | hb) | hb
  · exact ⟨(of_mem_date hb).1, (of_mem_date hb).2.1⟩
  · exact hblank b hb
  · exact ⟨(of_mem_padded hb).1, (of_mem_padded hb).2.1⟩

theorem Timestamp.length_stamp (t : Timestamp) : t.stamp.length = 13 := by
  have h2 : ∀ n, n < 100 → (padded 2 n).length = 2 := fun n hn => length_padded (by decide) hn
  have h4 : (padded 4 t.year).length = 4 := length_padded (by decide) t.year.isLt
  simp only [stamp, date, List.length_append, h4, h2 t.month (by omega), h2 t.day (by omega),
    h2 t.hour (by omega)]
  rfl

/-- A row begins with the date and the hour, and a colon. -/
theorem exists_rowLine (e : Event) :
    ∃ rest, rowLine e.row = e.time.stamp ++ ':'.toUInt8 :: rest := by
  have h0 : 0 ∉ e.time.stamp ++ [':'.toUInt8] := by
    intro h
    rcases List.mem_append.mp h with h | h
    · exact e.time.field_stamp.zero_notMem h
    · exact absurd h (by decide)
  obtain ⟨r, hr⟩ : ∃ r, e.time.text = e.time.stamp ++ [':'.toUInt8] ++ r := by
    rw [Timestamp.text, List.append_assoc (e.time.stamp ++ bytes ":"),
      List.append_assoc (e.time.stamp ++ bytes ":")]
    exact ⟨_, rfl⟩
  have hcol : column e.row.ts = e.time.stamp ++ [':'.toUInt8] ++ cString r := by
    change cString e.time.text = _
    rw [hr, cString_append_of_not_mem h0]
  refine ⟨cString r ++ bytes "," ++ column e.row.lc ++ bytes "," ++ column e.row.lv ++ bytes "\n",
    ?_⟩
  rw [rowLine, hcol]
  simp

/-- **The second token of a row** is the date and the hour. -/
theorem tokens_of_row {dest rd : List Byte} {e : Event} (hdest : Relay.Field dest)
    (hshort : dest.length < idSize)
    (h : printAll (nameSize + 64) (frame dest (rowLine e.row)) = some rd) :
    ∃ more, tokens isDelim (cString rd) = dest :: e.time.stamp :: more := by
  obtain ⟨rest, hrest⟩ := exists_rowLine e
  obtain ⟨hframe, hhead⟩ := length_head dest e.time.stamp
  have hsplit : frame dest (rowLine e.row) =
      (frame dest e.time.stamp ++ [':'.toUInt8]) ++ rest := by
    rw [hrest, hframe]
    simp [frame]
  rw [hsplit] at h
  have hsize : idSize + 16 < nameSize + 64 := by decide
  obtain ⟨rest', rfl⟩ := exists_of_printAll h (by
    rw [List.length_append, length_frame, e.time.length_stamp, List.length_singleton]
    omega)
  have h0 : 0 ∉ frame dest e.time.stamp ++ [':'.toUInt8] := by
    intro hmem
    rcases List.mem_append.mp hmem with hmem | hmem
    · exact zero_notMem_frame hdest.zero_notMem e.time.field_stamp.zero_notMem hmem
    · exact absurd hmem (by decide)
  refine ⟨tokens isDelim (cString rest'), ?_⟩
  have hmsg : frame dest e.time.stamp ++ [':'.toUInt8] ++ cString rest' =
      frame dest (e.time.stamp ++ ':'.toUInt8 :: cString rest') := by
    simp [frame]
  rw [cString_append_of_not_mem h0, hmsg, tokens_dest hdest, tokens_append_cons _ _ rfl,
    tokens_of_word e.time.field_stamp.1 e.time.field_stamp.delim]
  rfl

/-! ### What the client that asked receives -/

/-- A selection that takes one element of a list without repetitions. -/
theorem filterMap_eq_singleton {α β : Type*} {l : List α} {f : α → Option β} {a : α} {b : β}
    (hnodup : l.Nodup) (ha : a ∈ l) (hb : f a = some b) (hother : ∀ x ∈ l, x ≠ a → f x = none) :
    l.filterMap f = [b] := by
  obtain ⟨u, v, rfl⟩ := List.append_of_mem ha
  have hmid := (List.nodup_middle.mp hnodup)
  have hnotin := (List.nodup_cons.mp hmid).1
  have hu : u.filterMap f = [] := List.filterMap_eq_nil_iff.mpr fun x hx =>
    hother x (List.mem_append_left _ hx) fun hxa => hnotin (hxa ▸ List.mem_append_left v hx)
  have hv : v.filterMap f = [] := List.filterMap_eq_nil_iff.mpr fun x hx =>
    hother x (List.mem_append_right _ (List.mem_cons_of_mem a hx)) fun hxa =>
      hnotin (hxa ▸ List.mem_append_right u hx)
  rw [List.filterMap_append, hu, List.filterMap_cons_some hb, hv]
  rfl

section Forwarded

variable {t : Table} {i : Fin maxClnt}

/-- **A message to the client that asked** arrives there once, with its second token. -/
theorem inbox_of_tokens (client : ClientInfo) (s : Scanner) (now : Tm) {rd body : List Byte}
    {more : List (List Byte)} (hlive : (t i).fd ≠ -1) (hown : ∀ k, (t k).fd = (t i).fd → k = i)
    (hid : (t i).id.val ≠ idlist ∧ (t i).id.val ≠ gettime)
    (h : tokens isDelim (cString rd) = (t i).id.val :: body :: more) :
    ∃ writes, relayRead t client s rd now = some writes ∧
      inbox (t i).fd writes = [toMsg client.id.val (some body)] := by
  obtain ⟨info, hinfo⟩ : ∃ info, info = (⟨toChar client.fd, (t i).id.val,
      toMsg client.id.val (some body)⟩ : MsgInfo) := ⟨_, rfl⟩
  have hreq : ¬info.isRequest := by
    rw [hinfo]
    exact not_or.mpr hid
  refine ⟨(List.finRange maxClnt).filterMap (slotWrite t info), ?_, ?_⟩
  · rw [relayRead, msgInfo_of_tokens client s h, Option.bind_some, ← hinfo,
      sendMsg_of_not_request t hreq]
  · rw [inbox, List.filter_filterMap, List.map_filterMap]
    refine filterMap_eq_singleton (List.nodup_finRange maxClnt) (List.mem_finRange i) ?_ ?_
    · have hslot : slotWrite t info i = some ((t i).fd, info.msg) :=
        if_pos ⟨hlive, .inr (by rw [hinfo])⟩
      rw [hslot, hinfo]
      simp
    · intro k _ hk
      have hfd : (t k).fd ≠ (t i).fd := fun h => hk (hown k h)
      rw [slotWrite]
      split_ifs <;> simp [hfd]

/-- The text that arrives for a message. -/
def Forwarded (dest sender rd text : List Byte) : Prop :=
  ∃ body more, tokens isDelim (cString rd) = dest :: body :: more ∧
    text = toMsg sender (some body)

theorem inbox_append (fd : ℤ) (u v : List (ℤ × List Byte)) :
    inbox fd (u ++ v) = inbox fd u ++ inbox fd v := by
  rw [inbox, List.filter_append, List.map_append]
  rfl

/-- **All messages to the client that asked** arrive there, in order. -/
theorem forwarded_of_relayAll (client : ClientInfo) (clock : ℕ → Tm) (s : Scanner)
    (hlive : (t i).fd ≠ -1) (hown : ∀ k, (t k).fd = (t i).fd → k = i)
    (hid : (t i).id.val ≠ idlist ∧ (t i).id.val ≠ gettime) {rds : List (List Byte)}
    (h : ∀ rd ∈ rds, ∃ body more, tokens isDelim (cString rd) = (t i).id.val :: body :: more) :
    ∃ writes, relayAll t client clock s rds = some writes ∧
      List.Forall₂ (Forwarded (t i).id.val client.id.val) rds (inbox (t i).fd writes) := by
  induction rds generalizing s with
  | nil => exact ⟨[], rfl, .nil⟩
  | cons rd rds ih =>
    obtain ⟨body, more, htok⟩ := h rd List.mem_cons_self
    obtain ⟨first, hfirst, hinbox⟩ :=
      inbox_of_tokens client s (clock rds.length) hlive hown hid htok
    obtain ⟨rest, hrest, hforwarded⟩ :=
      ih (s.clear.scan rd) fun rd' hrd' => h rd' (List.mem_cons_of_mem rd hrd')
    refine ⟨first ++ rest, ?_, ?_⟩
    · rw [relayAll, hfirst, Option.bind_some, hrest]
      rfl
    · rw [inbox_append, hinbox]
      exact .cons ⟨body, more, htok, rfl⟩ hforwarded

/-- What a request is answered is in none of the lines. -/
theorem answered_of_relayAll (client : ClientInfo) (clock : ℕ → Tm) (s : Scanner)
    (hid : (t i).id.val = idlist ∨ (t i).id.val = gettime) {rds : List (List Byte)}
    (h : ∀ rd ∈ rds, ∃ body more, tokens isDelim (cString rd) = (t i).id.val :: body :: more ∧
      newline ∉ body.dropLast) {writes : List (ℤ × List Byte)}
    (hwrites : relayAll t client clock s rds = some writes) :
    ∀ w ∈ writes, (∃ body, newline ∉ body.dropLast ∧
      w.2 = idlistText t (toMsg client.id.val (some body))) ∨ ∃ now, w.2 = getlocaltime now := by
  induction rds generalizing s writes with
  | nil =>
    obtain rfl := Option.some.inj hwrites
    exact List.forall_mem_nil _
  | cons rd rds ih =>
    obtain ⟨body, more, htok, hbody⟩ := h rd List.mem_cons_self
    rw [relayAll] at hwrites
    obtain ⟨first, hfirst, hwrites⟩ := Option.bind_eq_some_iff.mp hwrites
    obtain ⟨rest, hrest, rfl⟩ := Option.map_eq_some_iff.mp hwrites
    intro w hw
    rcases List.mem_append.mp hw with hw | hw
    · rw [relayRead, msgInfo_of_tokens client s htok, Option.bind_some, sendMsg] at hfirst
      have hall : (t i).id.val ≠ allmsg := by
        rcases hid with hid | hid <;> rw [hid] <;> decide
      rw [if_neg hall] at hfirst
      split_ifs at hfirst
      · obtain rfl := Option.some.inj hfirst
        rw [List.mem_singleton.mp hw]
        exact .inl ⟨body, hbody, rfl⟩
      · obtain rfl := Option.some.inj hfirst
        rw [List.mem_singleton.mp hw]
        exact .inr ⟨_, rfl⟩
      · rename_i hne hne'
        exact absurd hid (not_or.mpr ⟨hne, hne'⟩)
    · exact ih _ (fun rd' hrd' => h rd' (List.mem_cons_of_mem rd hrd')) hrest w hw

end Forwarded

/-! ### What the texts do not hold -/

/-- A text that ends in its only newline holds no line that ends otherwise. -/
theorem not_infix_of_newline {line text l u : List Byte} {c d : Byte} (hcd : c ≠ d)
    (hline : line = l ++ [c] ++ [newline]) (htext : text = u ++ [d] ++ [newline])
    (hu : newline ∉ u ++ [d]) : ¬line <:+: text := by
  rintro ⟨a, b, h⟩
  have heq : (u ++ [d]) ++ newline :: [] = (a ++ l ++ [c]) ++ newline :: b := by
    rw [hline, htext] at h
    simpa using h.symm
  obtain ⟨hends, -⟩ := Trim.eq_of_once heq hu List.not_mem_nil
  exact hcd (List.singleton_inj.mp (List.append_inj' hends rfl).2).symm

theorem flatten_ends {α : Type*} {b : α} {ls : List (List α)}
    (h : ∀ l ∈ ls, l = [] ∨ ∃ v, l = v ++ [b]) : ls.flatten = [] ∨ ∃ v, ls.flatten = v ++ [b] := by
  induction ls with
  | nil => exact .inl rfl
  | cons l ls ih =>
    rw [List.flatten_cons]
    rcases ih fun l' hl' => h l' (List.mem_cons_of_mem l hl') with hnil | ⟨v, hv⟩
    · rw [hnil, List.append_nil]
      exact h l List.mem_cons_self
    · exact .inr ⟨l ++ v, by rw [hv, List.append_assoc]⟩

/-- The list of ids ends in a blank and the newline, if anybody is logged in. -/
theorem idlistText_eq {t : Table} {i : Fin maxClnt} (hlive : (t i).fd ≠ -1) {msg : List Byte}
    (hmsg : newline ∉ msg.dropLast) :
    ∃ u, idlistText t msg = u ++ [32] ++ [newline] ∧ newline ∉ u ++ [32] := by
  obtain ⟨ids, hids⟩ : ∃ ids, ids = (List.finRange maxClnt).map fun i =>
      if (t i).fd ≠ -1 then (t i).id.val ++ bytes " " else [] := ⟨_, rfl⟩
  have hof : ∀ l ∈ ids, l = [] ∨ ∃ k, (t k).fd ≠ -1 ∧ l = (t k).id.val ++ [32] := by
    intro l hl
    rw [hids] at hl
    obtain ⟨k, -, rfl⟩ := List.mem_map.mp hl
    split_ifs with hk
    · exact .inr ⟨k, hk, rfl⟩
    · exact .inl rfl
  have hnewline : newline ∉ ids.flatten := by
    intro hmem
    obtain ⟨l, hl, hmem⟩ := List.mem_flatten.mp hmem
    rcases hof l hl with rfl | ⟨k, -, rfl⟩
    · cases hmem
    · rcases List.mem_append.mp hmem with hmem | hmem
      · exact (t k).id.ne_newline hmem rfl
      · exact absurd hmem (by decide)
  have hends : ∀ l ∈ ids, l = [] ∨ ∃ v, l = v ++ [32] := by
    intro l hl
    rcases hof l hl with hnil | ⟨k, -, hk⟩
    · exact .inl hnil
    · exact .inr ⟨_, hk⟩
  rcases flatten_ends hends with hnil | ⟨v, hv⟩
  · -- the slot that is logged in is listed
    have hmem : (t i).id.val ++ bytes " " ∈ ids := by
      rw [hids]
      exact List.mem_map.mpr ⟨i, List.mem_finRange i, if_pos hlive⟩
    have := List.flatten_eq_nil_iff.mp hnil _ hmem
    simp [bytes] at this
  · refine ⟨msg.dropLast ++ v, ?_, ?_⟩
    · rw [idlistText, ← hids, hv, ← List.append_assoc]
      rfl
    · rw [List.append_assoc, ← hv]
      exact fun hmem => (List.mem_append.mp hmem).elim hmsg hnewline

/-- The first line is not in a list of ids. -/
theorem not_infix_idlistText {t : Table} {i : Fin maxClnt} (sender : Word) (n : ℕ)
    {body : List Byte} (hlive : (t i).fd ≠ -1) (hbody : newline ∉ body.dropLast) :
    ¬beginLine n <:+: idlistText t (toMsg sender.val (some body)) := by
  have hmsg : newline ∉ (toMsg sender.val (some body)).dropLast := by
    have hhead : newline ∉ bytes "[" ++ sender.val ++ bytes "]" := by
      intro h
      simp only [List.mem_append] at h
      rcases h with (h | h) | h
      · exact absurd h (by decide)
      · exact sender.ne_newline h rfl
      · exact absurd h (by decide)
    rw [toMsg, Option.getD_some]
    by_cases hnil : body = []
    · rw [hnil, List.append_nil]
      exact fun h => hhead (List.mem_of_mem_dropLast h)
    · rw [List.dropLast_append_of_ne_nil hnil]
      exact fun h => (List.mem_append.mp h).elim hhead hbody
  obtain ⟨u, htext, hu⟩ := idlistText_eq hlive hmsg
  have hlast : isDigit ((digits n).getLast (digits_ne_nil n)) = true :=
    isDigit_of_mem_digits (List.getLast_mem _)
  have hline : beginLine n = bytes "GETDB_BEGIN rows=" ++ (digits n).dropLast ++
      [(digits n).getLast (digits_ne_nil n)] ++ [newline] := by
    rw [List.append_assoc (bytes "GETDB_BEGIN rows=") (digits n).dropLast,
      List.dropLast_concat_getLast]
    rfl
  refine not_infix_of_newline ?_ hline htext hu
  intro h
  rw [h] at hlast
  exact absurd hlast (by decide)

theorem newline_notMem_padded (w n : ℕ) : newline ∉ padded w n := fun h =>
  absurd (of_mem_padded h).2.2 (by decide)

/-- The bytes of a printed time that are not digits. -/
def clockBytes : List Byte := bytes "-. :SunMonTueWedThuFriSat"

/-- What `getlocaltime` prints behind its tag. -/
theorem getlocaltime_eq (now : Tm) : ∃ body, getlocaltime now = bytes "[GETTIME]" ++ body ∧
    ∀ c ∈ body, isDigit c ∨ c ∈ clockBytes := by
  have hplain : ∀ s : List Byte, (s.all fun c => c ∈ clockBytes) = true →
      ∀ c ∈ s, isDigit c ∨ c ∈ clockBytes := fun s hs c hc =>
    .inr (of_decide_eq_true (List.all_eq_true.mp hs c hc))
  have hday : ∀ d, ((wday d).all fun c => c ∈ clockBytes) = true := by decide
  have hpadded : ∀ w n, ∀ c ∈ padded w n, isDigit c ∨ c ∈ clockBytes := fun w n c hc =>
    .inl (isDigit_of_mem_padded hc)
  have hyear : ∀ c ∈ paddedInt 2 (now.year + 1900 - 2000), isDigit c ∨ c ∈ clockBytes := by
    intro c hc
    rw [paddedInt] at hc
    split_ifs at hc
    · exact (List.mem_append.mp hc).elim (hplain (bytes "-") rfl c) (hpadded _ _ c)
    · exact hpadded _ _ c hc
  simp only [getlocaltime, List.append_assoc]
  refine ⟨_, rfl, ?_⟩
  simp only [List.forall_mem_append]
  have hdot := hplain (bytes ".") rfl
  have hcolon := hplain (bytes ":") rfl
  have hblank := hplain (bytes " ") rfl
  exact ⟨hyear, hdot, hpadded _ _, hdot, hpadded _ _, hblank, hpadded _ _, hcolon, hpadded _ _,
    hcolon, hpadded _ _, hblank, hplain _ (hday now.wday)⟩

theorem newline_notMem_getlocaltime (now : Tm) : newline ∉ getlocaltime now := by
  obtain ⟨body, htext, hbody⟩ := getlocaltime_eq now
  rw [htext]
  intro h
  rcases List.mem_append.mp h with h | h
  · exact absurd h (by decide)
  · exact absurd (hbody newline h) (by decide)

/-- **The second token of a row does not hold the row**: behind its only blank there is no colon. -/
theorem not_infix_stamp (sender : Word) (e : Event) :
    ¬e.text <:+: toMsg sender.val (some e.time.stamp) := by
  have hblank : (32 : Byte) ∉ bytes "[" ++ sender.val ++ bytes "]" ++ e.time.date := by
    intro h
    simp only [List.mem_append] at h
    rcases h with ((h | h) | h) | h
    · exact absurd h (by decide)
    · exact absurd (sender.plain 32 h).2 (by decide)
    · exact absurd h (by decide)
    · exact absurd (Timestamp.of_mem_date h).2.2 (by decide)
  have hhour : (32 : Byte) ∉ padded 2 e.time.hour := fun h =>
    absurd (of_mem_padded h).2.2 (by decide)
  have htext : toMsg sender.val (some e.time.stamp) =
      (bytes "[" ++ sender.val ++ bytes "]" ++ e.time.date) ++ 32 :: padded 2 e.time.hour := by
    simp [toMsg, Timestamp.stamp, bytes]
  obtain ⟨r, hr⟩ :
      ∃ r, e.text = e.time.date ++ 32 :: (padded 2 e.time.hour ++ ':'.toUInt8 :: r) := by
    simp only [Event.text, Timestamp.text, Timestamp.stamp, List.append_assoc]
    exact ⟨_, rfl⟩
  rintro ⟨a, b, h⟩
  have heq : (bytes "[" ++ sender.val ++ bytes "]" ++ e.time.date) ++ 32 :: padded 2 e.time.hour =
      (a ++ e.time.date) ++ 32 :: (padded 2 e.time.hour ++ ':'.toUInt8 :: (r ++ b)) := by
    rw [← htext, ← h, hr]
    simp
  have hrest := (Trim.eq_of_once heq hblank hhour).2
  simpa using congrArg List.length hrest

/-! ### The round trip -/

theorem beginLine_eq (n : ℕ) : beginLine n = bytes "GETDB_BEGIN rows=" ++ digits n ++ [newline] :=
  rfl

theorem field_beginLine (n : ℕ) : Relay.Field (beginLine n) := by
  have htext : ∀ b ∈ bytes "GETDB_BEGIN rows=\n", b ≠ 0 ∧ isDelim b = false := forall_mem_of_all rfl
  refine ⟨by simp [beginLine, bytes], fun b hb => ?_⟩
  simp only [beginLine, List.mem_append] at hb
  rcases hb with (hb | hb) | hb
  · exact htext b (List.mem_of_mem_take (i := 17) hb)
  · obtain ⟨d, hd, rfl⟩ := exists_digit (isDigit_of_mem_digits hb)
    interval_cases d <;> exact ⟨by decide, by decide⟩
  · exact htext b (List.mem_of_mem_drop (i := 17) hb)

theorem field_endLine : Relay.Field endLine := by decide

theorem newline_notMem_begin (n : ℕ) : newline ∉ bytes "GETDB_BEGIN rows=" ++ digits n := by
  intro h
  rcases List.mem_append.mp h with h | h
  · exact absurd h (by decide)
  · exact absurd (isDigit_of_mem_digits h) (by decide)

theorem notMem_dropLast_of_prefix {body seg : List Byte} (h : body <+: seg ++ [newline])
    (hseg : newline ∉ seg) : newline ∉ body.dropLast := by
  obtain ⟨rest, hrest⟩ := h
  cases body using List.reverseRecOn with
  | nil => exact List.not_mem_nil
  | append_singleton u b =>
    rw [List.dropLast_concat]
    intro hmem
    have hpre : u <+: seg := by
      refine List.prefix_of_prefix_length_le (List.prefix_append u ([b] ++ rest)) ?_ ?_
      · rw [← List.append_assoc, hrest]
        exact List.prefix_append _ _
      · have := congrArg List.length hrest
        simp only [List.length_append, List.length_singleton] at this
        omega
    exact hseg (hpre.subset hmem)

/-- Every message has two tokens. -/
theorem tokens_of_message {dest rd : List Byte} {events : List Event} {l : ℕ × List Byte}
    (hdest : Relay.Field dest) (hshort : dest.length < idSize) (hl : l ∈ lines (query events))
    (h : printAll l.1 (frame dest l.2) = some rd) :
    ∃ body more, tokens isDelim (cString rd) = dest :: body :: more ∧ newline ∉ body.dropLast := by
  have hsize : idSize + 3 < nameSize + 32 := by decide
  rcases List.mem_cons.mp hl with rfl | hl
  · obtain ⟨body, htok, hbody⟩ := tokens_of_plain hdest (field_beginLine _) (by omega) h
    exact ⟨body, [], htok, notMem_dropLast_of_prefix hbody (newline_notMem_begin _)⟩
  · rcases List.mem_append.mp hl with hl | hl
    · obtain ⟨row, hrow, rfl⟩ := List.mem_map.mp hl
      obtain ⟨e, -, rfl⟩ := List.mem_map.mp hrow
      obtain ⟨more, htok⟩ := tokens_of_row hdest hshort h
      refine ⟨_, more, htok, fun hmem => ?_⟩
      have hstamp := List.mem_of_mem_dropLast hmem
      simp only [Timestamp.stamp, List.mem_append] at hstamp
      rcases hstamp with (hstamp | hstamp) | hstamp
      · exact absurd (Timestamp.of_mem_date hstamp).2.2 (by decide)
      · exact absurd hstamp (by decide)
      · exact newline_notMem_padded _ _ hstamp
    · obtain rfl := List.mem_singleton.mp hl
      obtain ⟨body, htok, hbody⟩ := tokens_of_plain hdest field_endLine (by omega) h
      have hend : body <+: bytes "GETDB_END" ++ [newline] := hbody
      exact ⟨body, [], htok, notMem_dropLast_of_prefix hend (by decide)⟩

/-- A line without delimiters arrives. -/
theorem infix_of_forwarded {dest sender line text : List Byte} (hdest : Relay.Field dest)
    (hline : Relay.Field line) (h : Forwarded dest sender (frame dest line) text) :
    line <:+: text := by
  obtain ⟨body, more, htok, rfl⟩ := h
  rw [tokens_frame hdest hline] at htok
  obtain ⟨rfl, -⟩ := List.cons.inj (List.cons.inj htok).2
  exact (List.suffix_append _ _).isInfix

theorem tokens_of_handleGetdb {dest : List Byte} {events : List Event} {msgs : List (List Byte)}
    (hdest : Relay.Field dest) (hshort : dest.length < idSize)
    (h : handleGetdb dest (query events) = some msgs) :
    ∀ rd ∈ msgs, ∃ body more, tokens isDelim (cString rd) = dest :: body :: more ∧
      newline ∉ body.dropLast := by
  rw [handleGetdb, if_neg hdest.1] at h
  intro rd hrd
  obtain ⟨l, hl, hrd⟩ := exists_of_forall₂ (forall₂_of_mapM h) hrd
  exact tokens_of_message hdest hshort hl hrd

section Delivery

variable {t : Table} {i : Fin maxClnt} (client : ClientInfo) (clock : ℕ → Tm) (s : Scanner)

/-- A request is answered, with texts that do not hold the first line. -/
theorem not_infix_of_request (hlive : (t i).fd ≠ -1)
    (hreq : (t i).id.val = idlist ∨ (t i).id.val = gettime) {rds : List (List Byte)}
    (htok : ∀ rd ∈ rds, ∃ body more, tokens isDelim (cString rd) = (t i).id.val :: body :: more ∧
      newline ∉ body.dropLast) {writes : List (ℤ × List Byte)}
    (hwrites : relayAll t client clock s rds = some writes) (n : ℕ) :
    ∀ text ∈ inbox (t i).fd writes, ¬beginLine n <:+: text := by
  intro text htext
  obtain ⟨w, hw, rfl⟩ := List.mem_map.mp htext
  rcases answered_of_relayAll client clock s hreq htok hwrites w (List.mem_filter.mp hw).1 with
    ⟨body, hbody, hlist⟩ | ⟨now, htime⟩
  · rw [hlist]
    exact not_infix_idlistText client.id n hlive hbody
  · have hnewline : newline ∈ beginLine n := by
      rw [beginLine_eq]
      exact List.mem_append_right _ (List.mem_singleton_self newline)
    rw [htime]
    exact fun hfirst => newline_notMem_getlocaltime now (hfirst.subset hnewline)

/-- The text for the first row does not hold the row. -/
theorem not_delivered_of_row (hid : Relay.Field (t i).id.val) {e : Event} {events : List Event}
    {msgs texts : List (List Byte)}
    (hmsgs : handleGetdb (t i).id.val (query (e :: events)) = some msgs)
    (h : List.Forall₂ (Forwarded (t i).id.val client.id.val) msgs texts) :
    ¬Delivered (e :: events) texts := by
  rintro ⟨first, rows, last, rfl, -, hrows, -⟩
  rw [handleGetdb, if_neg hid.1] at hmsgs
  obtain ⟨m₀, msgs', -, hrest, rfl⟩ := List.forall₂_cons_left_iff.mp (forall₂_of_mapM hmsgs)
  obtain ⟨m₁, msgs', hm₁, -, rfl⟩ := List.forall₂_cons_left_iff.mp hrest
  obtain ⟨r, rows, hr, -, rfl⟩ := List.forall₂_cons_left_iff.mp hrows
  obtain ⟨-, hforwarded⟩ := List.forall₂_cons.mp h
  obtain ⟨⟨body, more, htokens, rfl⟩, -⟩ := List.forall₂_cons.mp hforwarded
  obtain ⟨more', htokens'⟩ := tokens_of_row hid (t i).id.fits hm₁
  rw [htokens'] at htokens
  obtain ⟨rfl, -⟩ := List.cons.inj (List.cons.inj htokens).2
  exact not_infix_stamp _ e hr

/-- The two lines of an answer without rows arrive. -/
theorem delivered_of_empty (hid : Relay.Field (t i).id.val) (hlive : (t i).fd ≠ -1)
    (hown : ∀ k, (t k).fd = (t i).fd → k = i)
    (hreq : (t i).id.val ≠ idlist ∧ (t i).id.val ≠ gettime) :
    ∃ msgs writes, handleGetdb (t i).id.val (query []) = some msgs ∧
      relayAll t client clock s msgs = some writes ∧ Delivered [] (inbox (t i).fd writes) := by
  have hshort := (t i).id.fits
  have hfits : ∀ size line, idSize + line.length + 2 < size →
      printAll size (frame (t i).id.val line) = some (frame (t i).id.val line) := by
    intro size line hsize
    exact if_pos (by rw [length_frame]; omega)
  have hmsgs : handleGetdb (t i).id.val (query []) =
      some [frame (t i).id.val (beginLine 0), frame (t i).id.val endLine] := by
    rw [handleGetdb, if_neg hid.1]
    change [(nameSize + 64, beginLine 0), (nameSize + 32, endLine)].mapM _ = _
    rw [List.mapM_cons, List.mapM_cons, hfits _ (beginLine 0) (by decide),
      hfits _ endLine (by decide)]
    rfl
  obtain ⟨writes, hwrites, hforwarded⟩ :=
    forwarded_of_relayAll client clock s hlive hown hreq fun rd hrd => by
      obtain ⟨body, more, htok, -⟩ := tokens_of_handleGetdb hid hshort hmsgs rd hrd
      exact ⟨body, more, htok⟩
  refine ⟨_, writes, hmsgs, hwrites, ?_⟩
  obtain ⟨first, texts, hfirst, hrest, htexts⟩ := List.forall₂_cons_left_iff.mp hforwarded
  obtain ⟨last, texts, hlast, hnil, rfl⟩ := List.forall₂_cons_left_iff.mp hrest
  obtain rfl := List.forall₂_nil_left_iff.mp hnil
  refine ⟨first, [], last, htexts, ?_, .nil, ?_⟩
  · exact infix_of_forwarded hid (field_beginLine 0) hfirst
  · exact infix_of_forwarded hid field_endLine hlast

end Delivery

/-- **The round trip of `GETDB`.** The client that asked receives the first line, every row and the
last line if and only if the table is empty and its id is not that of a request. -/
theorem getdb_iff (t : Table) (i j : Fin maxClnt) (s : Scanner) (clock : ℕ → Tm)
    (events : List Event) (hid : Relay.Field (t i).id.val) (hlive : (t i).fd ≠ -1)
    (hown : ∀ k, (t k).fd = (t i).fd → k = i) :
    (∃ texts, getdb t i j s clock events = some texts ∧ Delivered events texts) ↔
      events = [] ∧ (t i).id.val ≠ idlist ∧ (t i).id.val ≠ gettime := by
  constructor
  · rintro ⟨texts, htexts, hdelivered⟩
    obtain ⟨msgs, hmsgs, htexts⟩ := Option.bind_eq_some_iff.mp htexts
    obtain ⟨writes, hwrites, rfl⟩ := Option.map_eq_some_iff.mp htexts
    have htok := tokens_of_handleGetdb hid (t i).id.fits hmsgs
    by_cases hreq : (t i).id.val = idlist ∨ (t i).id.val = gettime
    · obtain ⟨first, rows, last, htexts, hfirst, -, -⟩ := hdelivered
      have hmem : first ∈ inbox (t i).fd writes := htexts ▸ List.mem_cons_self
      exact absurd hfirst (not_infix_of_request (t j) clock s hlive hreq htok hwrites _ first hmem)
    · refine ⟨?_, not_or.mp hreq⟩
      obtain ⟨writes', hwrites', hforwarded⟩ := forwarded_of_relayAll (t j) clock s hlive hown
        (not_or.mp hreq) fun rd hrd => by
          obtain ⟨body, more, htokens, -⟩ := htok rd hrd
          exact ⟨body, more, htokens⟩
      obtain rfl := Option.some.inj (hwrites.symm.trans hwrites')
      cases events with
      | nil => rfl
      | cons e events => exact absurd hdelivered (not_delivered_of_row (t j) hid hmsgs hforwarded)
  · rintro ⟨rfl, hreq⟩
    obtain ⟨msgs, writes, hmsgs, hwrites, hdelivered⟩ :=
      delivered_of_empty (t j) clock s hid hlive hown hreq
    refine ⟨_, ?_, hdelivered⟩
    rw [getdb, hmsgs, Option.bind_some, hwrites]
    rfl

/-- Client 5 asks client 6, whose table is empty. -/
theorem getdb_iff_witness :
    ∃ texts, getdb (twoClients 4 5) 4 5 .fresh (fun _ => noon) [] = some texts ∧
      Delivered [] texts :=
  (getdb_iff (twoClients 4 5) 4 5 .fresh (fun _ => noon) [] (by decide) (by decide)
    (by decide)).mpr ⟨rfl, by decide, by decide⟩

/-- A detection in front, near, at noon. -/
def detectionAtNoon : Event where
  time := ⟨⟨2025, by decide⟩, ⟨1, by decide⟩, ⟨1, by decide⟩, ⟨12, by decide⟩, ⟨30, by decide⟩,
    ⟨45, by decide⟩⟩
  locate := bytes "W"
  distanceLevel := 1

/-- The row `2025-01-01 12:30:45,W,1` arrives as `2025-01-01 12`. -/
theorem not_getdb :
    ¬∀ t i j s clock events, Relay.Field (t i).id.val → (t i).fd ≠ -1 →
      (∀ k, (t k).fd = (t i).fd → k = i) →
        ∃ texts, getdb t i j s clock events = some texts ∧ Delivered events texts := by
  intro h
  obtain ⟨texts, htexts, first, rows, last, rfl, -, hrows, -⟩ :=
    h (twoClients 4 5) 4 5 .fresh (fun _ => noon) [detectionAtNoon] (by decide) (by decide)
      (by decide)
  have hrun : getdb (twoClients 4 5) 4 5 .fresh (fun _ => noon) [detectionAtNoon] =
      some [bytes "[6]GETDB_BEGIN rows=1\n", bytes "[6]2025-01-01 12", bytes "[6]GETDB_END\n"] := by
    decide
  obtain ⟨row, rows, hrow, -, rfl⟩ := List.forall₂_cons_left_iff.mp hrows
  have heq := (List.cons.inj (Option.some.inj (htexts.symm.trans hrun))).2
  obtain ⟨rfl, -⟩ := List.cons.inj heq
  revert hrow
  decide

end DbClient

end DroneTurret
