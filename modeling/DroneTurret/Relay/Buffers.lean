import DroneTurret.Relay.Routing

/-!
# The formatting buffers

A thread prints into arrays of a fixed size: the text it hands on into `to_msg`, a line of its log
into `strBuff`, and `send_msg` the list of ids into an array from `malloc` and the time into
`to_msg` again. Nothing tests that they are large enough.

`to_msg` is. `strBuff` is for the two tokens of a message, which do not overlap; but a message with
fewer tokens is printed with texts that start at the offsets of an older one, and then the same
bytes can be printed twice. The list of ids has room for all of them, but not for what stands in
front of them.

## Main results

* `log_fits_iff` — the messages that fit the log
* `fits_iff` — the messages that fit
* `buffers_fit_iff` — the connections all of whose messages fit
-/

namespace DroneTurret

namespace Relay

open CString Tokens Decimal

/-- `sprintf(strBuff, "msg : [%s->%s] %s", msg_info.from, msg_info.to, pArray[1])`. -/
def logText (sender : List Byte) (dest body : Option (List Byte)) : List Byte :=
  bytes "msg : [" ++ sender ++ bytes "->" ++ dest.getD (bytes "(null)") ++ bytes "] " ++
    body.getD (bytes "(null)")

/-- The line of the log at the end of a connection. -/
def disconnectText (client : ClientInfo) (clntCnt : ℤ) : List Byte :=
  bytes "Disconnect ID:" ++ client.id.val ++ bytes " (ip:" ++ client.ip ++ bytes ",fd:" ++
    paddedInt 1 client.fd ++ bytes ",sockcnt:" ++ paddedInt 1 (clntCnt - 1) ++ bytes ")\n"

/-- The range of an `int`. -/
def IsInt (n : ℤ) : Prop := -2 ^ 31 ≤ n ∧ n < 2 ^ 31

/-- The fields of a `struct tm` are numbers of type `int`, and so is what is printed of them. -/
structure Tm.Ints (t : Tm) : Prop where
  sec : t.sec < 2 ^ 31
  min : t.min < 2 ^ 31
  hour : t.hour < 2 ^ 31
  mday : t.mday < 2 ^ 31
  mon : t.mon + 1 < 2 ^ 31
  year : IsInt (t.year + 1900 - 2000)

/-- One message of a connection: the table and the time at which it is read, and its bytes. -/
structure Round where
  table : Table
  now : Tm
  rd : List Byte

/-- What the source promises of a message: `read` is given `sizeof(msg)-1`. -/
structure Round.Read (r : Round) : Prop where
  short : r.rd.length < bufSize
  ints : r.now.Ints

/-- What is printed for a message fits the array it is printed into, with the terminator. -/
structure Round.Fits (i : Fin maxClnt) (s : Scanner) (r : Round) : Prop where
  text : (toMsg (r.table i).id.val (s.clear.firstTwo r.rd).2).length < maxClnt * idSize + 1
  log : (logText (r.table i).id.val (s.clear.firstTwo r.rd).1 (s.clear.firstTwo r.rd).2).length <
    bufSize * 2
  ids : ∀ info ∈ msgInfo (r.table i) s r.rd, info.dest = idlist →
    (idlistText r.table info.msg).length < idSize * maxClnt
  time : ∀ info ∈ msgInfo (r.table i) s r.rd, info.dest = gettime →
    (getlocaltime r.now).length < maxClnt * idSize + 1

/-- A property of every message of a connection, and of the arrays at the time it is read. -/
def Along (P : Scanner → Round → Prop) : Scanner → List Round → Prop
  | _, [] => True
  | s, r :: rounds => P s r ∧ Along P (s.clear.scan r.rd) rounds

/-! ### The texts of a message -/

/-- What a message is printed with: a token of its own, or what it has at an offset that an older
one has left. -/
def shown (s : Scanner) (rd : List Byte) (j : ℕ) : Option (List Byte) :=
  (tokens isDelim (cString rd))[j]?.or (s.pArray[j]?.join.map (exposed rd))

theorem firstTwo_eq_shown (s : Scanner) (rd : List Byte) :
    s.clear.firstTwo rd = (shown s rd 0, shown s rd 1) := by
  have hone : ∀ j < 2, pointee (s.clear.scan rd).pArray (s.clear.scan rd).buf j = shown s rd j := by
    intro j hj
    rw [shown]
    cases htok : (tokens isDelim (cString rd))[j]? with
    | some t => exact pointee_scan s.clear (by simp only [arrCnt]; omega) htok
    | none =>
      have hle := List.getElem?_eq_none_iff.mp htok
      rw [pointee_scan_of_le s.clear hle, buf_scan_clear, Option.none_or]
      refine Option.map_congr fun p _ => stringAt_tokenized (by omega) p
  rw [Scanner.firstTwo, hone 0 (by decide), hone 1 (by decide)]

/-- The message up to the end of its last token. -/
def head (rd : List Byte) : List Byte := (cString rd).rdropWhile isDelim

/-- There is room in the log for a message. A message with two tokens always has it. -/
def LogRoom (sender : List Byte) (s : Scanner) (rd : List Byte) : Prop :=
  match tokens isDelim (cString rd) with
  | [] => ∀ p ∈ s.pArray[0]?.join, ∀ q ∈ s.pArray[1]?.join,
      sender.length + (cString (rd.drop p)).length + (cString (rd.drop q)).length + 11 < bufSize * 2
  | [dest] => ∀ q ∈ s.pArray[1]?.join, q ≤ (head rd).length →
      sender.length + dest.length + ((head rd).length - q) + 11 < bufSize * 2
  | _ => True

/-- There is room for the list of ids, if it is asked for. -/
def ListRoom (t : Table) (i : Fin maxClnt) (s : Scanner) (rd : List Byte) : Prop :=
  shown s rd 0 = some idlist →
    (t i).id.val.length + ((shown s rd 1).getD (bytes "(null)")).length + 2 + t.idsLength <
      idSize * maxClnt

/-- There is room for what a message is printed with. -/
def Round.Room (i : Fin maxClnt) (s : Scanner) (r : Round) : Prop :=
  LogRoom (r.table i).id.val s r.rd ∧ ListRoom r.table i s r.rd

/-! ### How long the texts are -/

theorem length_toMsg (sender : List Byte) (body : Option (List Byte)) :
    (toMsg sender body).length = sender.length + (body.getD (bytes "(null)")).length + 2 := by
  simp only [toMsg, List.length_append]
  change 1 + sender.length + 1 + _ = _
  omega

theorem length_logText (sender : List Byte) (dest body : Option (List Byte)) :
    (logText sender dest body).length =
      sender.length + (dest.getD (bytes "(null)")).length + (body.getD (bytes "(null)")).length +
        11 := by
  simp only [logText, List.length_append]
  change 7 + sender.length + 2 + _ + 2 + _ = _
  omega

/-- The tokens of a message are not longer than the message. -/
theorem length_flatten_tokens_le (rd : List Byte) :
    (tokens isDelim (cString rd)).flatten.length ≤ rd.length := by
  rw [flatten_tokens]
  exact (List.length_filter_le _ _).trans (length_cString_le rd)

theorem length_exposed_le (rd : List Byte) (p : ℕ) : (exposed rd p).length ≤ rd.length := by
  rw [exposed]
  split_ifs
  · rw [List.length_drop]
    have hhead : ((cString rd).rdropWhile isDelim).length ≤ (cString rd).length :=
      (List.rdropWhile_prefix _ _).length_le
    have hstr := length_cString_le rd
    omega
  · exact (length_cString_le _).trans (by simp)

/-- Nothing that is shown of a message is longer than the message, or than `(null)`. -/
theorem length_shown_le (s : Scanner) (rd : List Byte) (j : ℕ) :
    ((shown s rd j).getD (bytes "(null)")).length ≤ max rd.length 6 := by
  rw [shown]
  cases htok : (tokens isDelim (cString rd))[j]? with
  | some t =>
    have hmem : t ∈ tokens isDelim (cString rd) := List.mem_of_getElem? htok
    have hle := (List.sublist_flatten_of_mem hmem).length_le.trans (length_flatten_tokens_le rd)
    exact hle.trans (Nat.le_max_left _ _)
  | none =>
    rw [Option.none_or]
    cases s.pArray[j]?.join with
    | none => exact Nat.le_max_right _ _
    | some p => exact (length_exposed_le rd p).trans (Nat.le_max_left _ _)

/-- The only token of a message is in front of the offset where its text ends. -/
theorem length_token_le_head {rd dest : List Byte} (h : tokens isDelim (cString rd) = [dest]) :
    dest.length ≤ (head rd).length := by
  have htext : dest = text isDelim (cString rd) := by
    rw [← flatten_tokens, h]
    simp
  have htail : text isDelim ((cString rd).rtakeWhile isDelim) = [] :=
    text_eq_nil_iff.mpr fun b hb => List.mem_rtakeWhile_imp hb
  rw [← List.rdropWhile_append_rtakeWhile (p := isDelim) (l := cString rd), text_append, htail,
    List.append_nil] at htext
  rw [htext]
  exact List.length_filter_le _ _

/-! ### The log -/

/-- A message with one token fits unless the offset of an older body is in front of its end. -/
theorem logRoom_of_token {s : Scanner} {rd dest : List Byte} (sender : Word)
    (hrd : rd.length < bufSize) (h : tokens isDelim (cString rd) = [dest]) :
    (logText sender.val (shown s rd 0) (shown s rd 1)).length < bufSize * 2 ↔
      LogRoom sender.val s rd := by
  have hdest : shown s rd 0 = some dest := by rw [shown, h]; rfl
  have hbody : shown s rd 1 = s.pArray[1]?.join.map (exposed rd) := by rw [shown, h]; rfl
  have hle := length_token_le_head h
  have hhead : (head rd).length ≤ rd.length :=
    (List.rdropWhile_prefix _ _).length_le.trans (length_cString_le rd)
  have hsender := sender.fits
  rw [length_logText, LogRoom, h, hdest, hbody, Option.getD_some]
  simp only [bufSize, idSize] at *
  cases s.pArray[1]?.join with
  | none =>
    have hnull : (bytes "(null)").length = 6 := rfl
    refine iff_of_true ?_ nofun
    rw [Option.map_none, Option.getD_none, hnull]
    omega
  | some q =>
    simp only [Option.map_some, Option.getD_some, Option.mem_some_iff, forall_eq']
    by_cases hq : q ≤ (head rd).length
    · have hne : head rd ≠ [] := by
        intro hnil
        have hmem : dest ∈ tokens isDelim (cString rd) := by rw [h]; exact List.mem_singleton_self _
        rw [hnil, List.length_nil, Nat.le_zero] at hle
        exact (of_mem_tokens hmem).1 (List.length_eq_zero_iff.mp hle)
      have hexposed : exposed rd q = (head rd).drop q := if_pos ⟨hne, hq⟩
      rw [hexposed, List.length_drop]
      exact ⟨fun hlt _ => hlt, fun hlt => hlt hq⟩
    · have hexposed : exposed rd q = cString (rd.drop q) := if_neg fun hboth => hq hboth.2
      have hlen := length_cString_le (rd.drop q)
      rw [List.length_drop] at hlen
      rw [hexposed]
      exact iff_of_true (by omega) fun hq' => absurd hq' hq

/-- A message with no token is printed with two texts of an older one. -/
theorem logRoom_of_no_token {s : Scanner} {rd : List Byte} (sender : Word)
    (hrd : rd.length < bufSize) (h : tokens isDelim (cString rd) = []) :
    (logText sender.val (shown s rd 0) (shown s rd 1)).length < bufSize * 2 ↔
      LogRoom sender.val s rd := by
  have hexposed : exposed rd = fun p => cString (rd.drop p) := by
    funext p
    have hnil : (cString rd).rdropWhile isDelim = [] :=
      List.rdropWhile_eq_nil_iff.mpr (delims_of_tokens_eq_nil h)
    exact if_neg fun hboth => hboth.1 hnil
  have hshown : ∀ j, shown s rd j = s.pArray[j]?.join.map fun p => cString (rd.drop p) := by
    intro j
    rw [shown, h, ← hexposed]
    rfl
  have hnull : (bytes "(null)").length = 6 := rfl
  have hsender := sender.fits
  have hlen : ∀ p, (cString (rd.drop p)).length ≤ rd.length := fun p =>
    (length_cString_le _).trans (by simp)
  rw [length_logText, LogRoom, h, hshown, hshown]
  simp only [bufSize, idSize] at *
  cases s.pArray[0]?.join with
  | none =>
    refine iff_of_true ?_ nofun
    cases s.pArray[1]?.join with
    | none =>
      simp only [Option.map_none, Option.getD_none]
      omega
    | some q =>
      have hq := hlen q
      simp only [Option.map_none, Option.getD_none, Option.map_some, Option.getD_some]
      omega
  | some p =>
    have hp := hlen p
    cases s.pArray[1]?.join with
    | none =>
      refine iff_of_true ?_ fun _ _ => nofun
      simp only [Option.map_none, Option.getD_none, Option.map_some, Option.getD_some]
      omega
    | some q => simp

/-- **The log.** -/
theorem log_fits_iff (s : Scanner) {rd : List Byte} (sender : Word) (hrd : rd.length < bufSize) :
    (logText sender.val (shown s rd 0) (shown s rd 1)).length < bufSize * 2 ↔
      LogRoom sender.val s rd := by
  match h : tokens isDelim (cString rd) with
  | [] => exact logRoom_of_no_token sender hrd h
  | [dest] => exact logRoom_of_token sender hrd h
  | dest :: body :: rest =>
    have hroom : LogRoom sender.val s rd := by
      rw [LogRoom, h]
      trivial
    have hdest : shown s rd 0 = some dest := by rw [shown, h]; rfl
    have hbody : shown s rd 1 = some body := by rw [shown, h]; rfl
    -- two tokens do not overlap
    have htok := length_flatten_tokens_le rd
    rw [h, List.flatten_cons, List.flatten_cons, List.length_append, List.length_append] at htok
    have hsender := sender.fits
    refine iff_of_true ?_ hroom
    rw [length_logText, hdest, hbody, Option.getD_some, Option.getD_some]
    simp only [bufSize, idSize] at *
    omega

/-! ### The answers -/

theorem ids_fit_iff (t : Table) (i : Fin maxClnt) (s : Scanner) (rd : List Byte) :
    (∀ info ∈ msgInfo (t i) s rd, info.dest = idlist →
        (idlistText t info.msg).length < idSize * maxClnt) ↔ ListRoom t i s rd := by
  have hne : toMsg (t i).id.val (shown s rd 1) ≠ [] := by simp [toMsg, bytes]
  rw [msgInfo, firstTwo_eq_shown, ListRoom]
  dsimp only
  cases shown s rd 0 with
  | none => simp
  | some dest =>
    simp only [Option.map_some, Option.mem_some_iff, forall_eq', Option.some_inj,
      length_idlistText t hne, length_toMsg]

/-- An `int` has eleven characters at most. -/
theorem length_paddedInt_int {w : ℕ} {n : ℤ} (hw : w ≤ 10) (h : IsInt n) :
    (paddedInt w n).length ≤ 11 := by
  obtain ⟨hlo, hhi⟩ := h
  exact length_paddedInt_le (by decide) hw (by omega)

/-- The time fits wherever the ids do. -/
theorem length_getlocaltime_le {t : Tm} (h : t.Ints) : (getlocaltime t).length ≤ 79 := by
  have hnum : ∀ n < 2 ^ 31, (padded 2 n).length ≤ 10 := fun n hn =>
    length_padded_le (by decide) (by decide) (by omega)
  have hyear := length_paddedInt_int (w := 2) (by decide) h.year
  have hday : (wday t.wday).length = 3 := by
    generalize t.wday = d
    revert d
    decide
  have hmon := hnum _ h.mon
  have hmday := hnum _ h.mday
  have hhour := hnum _ h.hour
  have hmin := hnum _ h.min
  have hsec := hnum _ h.sec
  simp only [getlocaltime, List.length_append, hday]
  change 9 + _ + 1 + _ + 1 + _ + 1 + _ + 1 + _ + 1 + _ + 1 + 3 ≤ _
  omega

/-- The line at the end of a connection fits. -/
theorem length_disconnectText_le {client : ClientInfo} {clntCnt : ℤ} (hip : client.ip.length < 20)
    (hfd : IsInt client.fd) (hcnt : IsInt (clntCnt - 1)) :
    (disconnectText client clntCnt).length ≤ 104 := by
  have hfd := length_paddedInt_int (w := 1) (by decide) hfd
  have hcnt := length_paddedInt_int (w := 1) (by decide) hcnt
  have hid := client.id.fits
  simp only [disconnectText, List.length_append]
  change 14 + _ + 5 + _ + 4 + _ + 9 + _ + 2 ≤ _
  simp only [idSize] at hid
  omega

/-! ### Connections -/

/-- **What is printed for a message** fits if and only if there is room in the log and in the list
of ids. The text that is handed on always fits, and so does the time. -/
theorem fits_iff (i : Fin maxClnt) (s : Scanner) {r : Round} (h : r.Read) :
    r.Fits i s ↔ r.Room i s := by
  have hlog := log_fits_iff s (r.table i).id h.short
  have hids := ids_fit_iff r.table i s r.rd
  have hbody := length_shown_le s r.rd 1
  have hsender := (r.table i).id.fits
  have hshort := h.short
  rw [Round.Room, ← hlog, ← hids]
  constructor
  · intro hfits
    have hprinted := hfits.log
    rw [firstTwo_eq_shown] at hprinted
    exact ⟨hprinted, hfits.ids⟩
  · rintro ⟨hprinted, hlist⟩
    refine ⟨?_, by rwa [firstTwo_eq_shown], hlist, fun _ _ _ => ?_⟩
    · rw [length_toMsg, firstTwo_eq_shown]
      simp only [bufSize, idSize, maxClnt] at *
      omega
    · exact (length_getlocaltime_le h.ints).trans_lt (by decide)

/-- Two properties that agree on every message agree on connections. -/
theorem along_congr {P Q : Scanner → Round → Prop} {rounds : List Round}
    (h : ∀ s, ∀ r ∈ rounds, P s r ↔ Q s r) (s : Scanner) : Along P s rounds ↔ Along Q s rounds := by
  induction rounds generalizing s with
  | nil => exact Iff.rfl
  | cons r rounds ih =>
    rw [Along, Along, h s r List.mem_cons_self,
      ih fun s r hr => h s r (List.mem_cons_of_mem _ hr)]

/-- **The formatting buffers.** Everything that is printed for the messages of a connection fits its
array if and only if there is room for each of them; and the line at the end of it fits. -/
theorem buffers_fit_iff (i : Fin maxClnt) {rounds : List Round} (hread : ∀ r ∈ rounds, r.Read)
    {client : ClientInfo} {clntCnt : ℤ} (hip : client.ip.length < 20) (hfd : IsInt client.fd)
    (hcnt : IsInt (clntCnt - 1)) :
    (Along (fun s r => r.Fits i s) .fresh rounds ↔
        Along (fun s r => r.Room i s) .fresh rounds) ∧
      (disconnectText client clntCnt).length < bufSize * 2 :=
  ⟨along_congr (fun s r hr => fits_iff i s (hread r hr)) .fresh,
    (length_disconnectText_le hip hfd hcnt).trans_lt (by decide)⟩

/-- Messages of a client of the repository's table, while two are logged in. -/
def readNoon (rd : List Byte) : Round := ⟨twoClients 4 5, noon, rd⟩

theorem noon_ints : noon.Ints :=
  ⟨by decide, by decide, by decide, by decide, by decide, by decide, by decide⟩

theorem readNoon_read {rd : List Byte} (h : rd.length < bufSize) : (readNoon rd).Read :=
  ⟨h, noon_ints⟩

theorem buffers_fit_witness :
    Along (fun s r => r.Fits 4 s) .fresh
        [readNoon (bytes "[6]LEDON"), readNoon (bytes "[IDLIST]")] ∧
      (disconnectText (twoClients 4 5 4) 2).length < bufSize * 2 := by
  have hread : ∀ r ∈ [readNoon (bytes "[6]LEDON"), readNoon (bytes "[IDLIST]")], r.Read := by
    intro r hr
    simp only [List.mem_cons, List.not_mem_nil, or_false] at hr
    rcases hr with rfl | rfl <;> exact readNoon_read (by decide)
  obtain ⟨hiff, hend⟩ := @buffers_fit_iff 4 _ hread (twoClients 4 5 4) 2 (by decide)
    ⟨by decide, by decide⟩ ⟨by decide, by decide⟩
  refine ⟨hiff.mpr ⟨⟨trivial, ?_⟩, ⟨?_, ?_⟩, trivial⟩, hend⟩
  · intro h
    exact absurd h (by decide)
  · intro q _ hq
    change q ≤ 7 at hq
    change 1 + 6 + (7 - q) + 11 < 200
    omega
  · intro _
    decide

/-- Client 5 sends `a:b`, and then one token of 99 bytes. It is printed into the log twice, the
second time from its third byte on: 208 bytes. -/
theorem not_buffers_fit :
    ¬∀ i rounds, (∀ r ∈ rounds, Round.Read r) → Along (fun s r => r.Fits i s) .fresh rounds := by
  intro h
  have hfits := h 4 [readNoon (bytes "a:b"), readNoon (List.replicate 99 'x'.toUInt8)] (by
    intro r hr
    simp only [List.mem_cons, List.not_mem_nil, or_false] at hr
    rcases hr with rfl | rfl <;> exact readNoon_read (by decide))
  exact absurd hfits.2.1.log (by decide +kernel)

end Relay

end DroneTurret
