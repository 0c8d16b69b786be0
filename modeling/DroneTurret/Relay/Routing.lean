import DroneTurret.Lib.Decimal
import DroneTurret.Relay.History
import DroneTurret.Relay.Server

/-!
# Routing one message

`sendMsg` is `send_msg` on a table that nobody changes while it runs: the writes it makes, in
order. `relayRead` is one round of `clnt_connection`, from the bytes read to the writes.

For a message `[TO]BODY` the writes are those of `Routed`, unless the answer to a request goes
wrong: `msg_info.fd` is a `char`, and the list of ids is put together in an array of
`ID_SIZE * MAX_CLNT` bytes.

## Main results

* `sendMsg_of_not_request` — relaying is a test and a write for each slot
* `run_sendSlot` — the steps of a thread in `send_msg`, taken without interruption, are `sendMsg`
* `routed_iff` — when a message `[TO]BODY` is routed as it should be
-/

namespace DroneTurret

namespace Relay

open CString Tokens Decimal

/-- `struct tm`, as far as it is printed. -/
structure Tm where
  sec : ℕ
  min : ℕ
  hour : ℕ
  mday : ℕ
  mon : ℕ
  /-- Years since 1900. -/
  year : ℤ
  wday : Fin 7

/-- The names of the days. -/
def wday (d : Fin 7) : List Byte :=
  bytes (["Sun", "Mon", "Tue", "Wed", "Thu", "Fri", "Sat"].get d)

/-- `getlocaltime`. -/
def getlocaltime (t : Tm) : List Byte :=
  bytes "[GETTIME]" ++ paddedInt 2 (t.year + 1900 - 2000) ++ bytes "." ++ padded 2 (t.mon + 1) ++
    bytes "." ++ padded 2 t.mday ++ bytes " " ++ padded 2 t.hour ++ bytes ":" ++ padded 2 t.min ++
    bytes ":" ++ padded 2 t.sec ++ bytes " " ++ wday t.wday

/-- `send_msg`: the descriptors and texts of its writes. `none` when the list of ids does not fit
the array allocated for it. -/
def sendMsg (t : Table) (info : MsgInfo) (now : Tm) : Option (List (ℤ × List Byte)) :=
  if info.dest = allmsg then
    some ((List.finRange maxClnt).filterMap fun i =>
      if (t i).fd ≠ -1 then some ((t i).fd, info.msg) else none)
  else if info.dest = idlist then
    if (idlistText t info.msg).length < idSize * maxClnt then
      some [(info.fd, idlistText t info.msg)]
    else none
  else if info.dest = gettime then some [(info.fd, getlocaltime now)]
  else
    some ((List.finRange maxClnt).filterMap fun i =>
      if (t i).fd ≠ -1 then
        if info.dest = (t i).id.val then some ((t i).fd, info.msg) else none
      else none)

/-- One round of `clnt_connection`: the writes for the bytes that `read` has returned. `none` where
the round is undefined. -/
def relayRead (t : Table) (client : ClientInfo) (s : Scanner) (rd : List Byte) (now : Tm) :
    Option (List (ℤ × List Byte)) :=
  (msgInfo client s rd).bind fun info => sendMsg t info now

/-! ### Relaying slot by slot -/

/-- What is not a request is relayed by a test and a write for each slot. -/
theorem sendMsg_of_not_request (t : Table) {info : MsgInfo} (h : ¬info.isRequest) (now : Tm) :
    sendMsg t info now = some ((List.finRange maxClnt).filterMap (slotWrite t info)) := by
  obtain ⟨hid, htime⟩ := not_or.mp h
  by_cases hall : info.dest = allmsg
  · rw [sendMsg, if_pos hall]
    refine congrArg some (List.filterMap_congr fun i _ => ?_)
    by_cases hfd : (t i).fd = -1 <;> simp [slotWrite, hfd, hall]
  · rw [sendMsg, if_neg hall, if_neg hid, if_neg htime]
    refine congrArg some (List.filterMap_congr fun i _ => ?_)
    by_cases hfd : (t i).fd = -1 <;> simp [slotWrite, hfd, hall]

/-- A write of `sendMsg`, as it is recorded in a run. -/
def Server.record (s : Server) (info : MsgInfo) (w : ℤ × List Byte) : Write :=
  ⟨info.dest, w.1, w.2, s.socks w.1⟩

/-- One slot. -/
theorem stepThread_sendSlot {s : Server} {k n : ℕ} {th : Thread} {info : MsgInfo}
    (hphase : th.phase = .routing info n) (hinfo : ¬info.isRequest) (hn : n < maxClnt) :
    s.stepThread k th .sendSlot = some { s with
      threads := s.threads.set k { th with phase := .routing info (n + 1) }
      writes := s.writes ++ (slotWrite s.table info ⟨n, hn⟩).toList.map (s.record info) } := by
  rw [Server.stepThread, hphase]
  dsimp only
  rw [if_neg hinfo, dif_pos hn]
  cases slotWrite s.table info ⟨n, hn⟩ with
  | none =>
    rw [Option.toList_none, List.map_nil, List.append_nil]
    rfl
  | some w => rfl

/-- The slots from slot `n` on. -/
theorem run_sendSlots {s : Server} {k n m : ℕ} {th : Thread} {info : MsgInfo}
    (hth : s.threads[k]? = some th) (hphase : th.phase = .routing info n)
    (hinfo : ¬info.isRequest) (hn : n + m = maxClnt) :
    server.run (fun _ _ => True) s (List.replicate m (.thread k .sendSlot)) = some { s with
      threads := s.threads.set k { th with phase := .routing info maxClnt }
      writes := s.writes ++ (((List.finRange maxClnt).drop n).filterMap
        (slotWrite s.table info)).map (s.record info) } := by
  induction m generalizing s n th with
  | zero =>
    obtain rfl : n = maxClnt := hn
    have hset : s.threads.set k { th with phase := .routing info maxClnt } = s.threads := by
      obtain ⟨hk, rfl⟩ := List.getElem?_eq_some_iff.mp hth
      rw [← hphase]
      exact List.set_getElem_self hk
    have hdrop : (List.finRange maxClnt).drop maxClnt = [] := by
      rw [List.drop_eq_nil_iff, List.length_finRange]
    rw [hset, hdrop, List.filterMap_nil, List.map_nil, List.append_nil]
    rfl
  | succ m ih =>
    have hlt : n < maxClnt := by omega
    have hk : k < s.threads.length := (List.getElem?_eq_some_iff.mp hth).1
    have hstep : server.step s (.thread k .sendSlot) = s.stepThread k th .sendSlot := by
      change s.threads[k]?.bind _ = _
      rw [hth]
      rfl
    -- the slot tested, and those to come
    have hdrop : (List.finRange maxClnt).drop n =
        ⟨n, hlt⟩ :: (List.finRange maxClnt).drop (n + 1) := by
      rw [List.drop_eq_getElem_cons (by simpa using hlt), List.getElem_finRange]
      rfl
    rw [List.replicate_succ, Transition.run, if_pos trivial, hstep,
      stepThread_sendSlot hphase hinfo hlt, Option.bind_some,
      ih (List.getElem?_set_self hk) rfl (by omega), hdrop]
    dsimp only
    rw [List.set_set, List.filterMap_cons, List.append_assoc]
    cases slotWrite s.table info ⟨n, hlt⟩ <;> rfl

/-- **The steps of a thread in `send_msg`** for a message that is not a request, taken without
interruption, make the writes of `sendMsg`. -/
theorem run_sendSlot {s : Server} {k : ℕ} {th : Thread} {info : MsgInfo}
    (hth : s.threads[k]? = some th) (hphase : th.phase = .routing info 0)
    (hinfo : ¬info.isRequest) (now : Tm) :
    ∃ writes t, sendMsg s.table info now = some writes ∧
      server.run (fun _ _ => True) s (List.replicate maxClnt (.thread k .sendSlot)) = some t ∧
      t.writes = s.writes ++ writes.map (s.record info) :=
  ⟨_, _, sendMsg_of_not_request s.table hinfo now,
    run_sendSlots hth hphase hinfo (Nat.zero_add maxClnt), rfl⟩

/-! ### A message with a destination and a body -/

/-- `[TO]BODY`. -/
def frame (dest body : List Byte) : List Byte := bytes "[" ++ dest ++ bytes "]" ++ body

/-- A field of a message: not empty, and without delimiters and NUL. -/
def Field (s : List Byte) : Prop := s ≠ [] ∧ ∀ b ∈ s, b ≠ 0 ∧ isDelim b = false

instance (s : List Byte) : Decidable (Field s) :=
  decidable_of_iff (s ≠ [] ∧ (s.all fun b => decide (b ≠ 0 ∧ isDelim b = false)) = true) (by
    rw [Field, List.all_eq_true]
    simp)

/-- The slots of a table that are logged in and meet a condition. -/
def Table.live (t : Table) (p : Fin maxClnt → Bool) : List (Fin maxClnt) :=
  (List.finRange maxClnt).filter fun j => (t j).fd ≠ -1 && p j

/-- The writes that a message from slot `i` is to lead to: to all slots, back to the sender, or to
the slots of the id. -/
def Routed (t : Table) (i : Fin maxClnt) (dest body : List Byte)
    (writes : List (ℤ × List Byte)) : Prop :=
  if dest = allmsg then
    writes = (t.live fun _ => true).map fun j => ((t j).fd, frame (t i).id.val body)
  else if dest = idlist ∨ dest = gettime then ∃ reply, writes = [((t i).fd, reply)]
  else writes = (t.live fun j => (t j).id.val = dest).map fun j =>
    ((t j).fd, frame (t i).id.val body)

/-- The number of bytes in the list of ids. -/
def Table.idsLength (t : Table) : ℕ :=
  ((t.live fun _ => true).map fun j => (t j).id.val.length + 1).sum

theorem Field.zero_notMem {s : List Byte} (h : Field s) : 0 ∉ s := fun h0 => (h.2 0 h0).1 rfl

theorem Field.delim {s : List Byte} (h : Field s) : ∀ b ∈ s, isDelim b = false := fun b hb =>
  (h.2 b hb).2

theorem zero_notMem_frame {dest body : List Byte} (hdest : 0 ∉ dest) (hbody : 0 ∉ body) :
    0 ∉ frame dest body := by
  intro h
  simp only [frame, List.mem_append] at h
  rcases h with ((h | h) | h) | h
  · exact absurd h (by decide)
  · exact hdest h
  · exact absurd h (by decide)
  · exact hbody h

/-- A message with a destination that is one token. -/
theorem tokens_dest {dest : List Byte} (hdest : Field dest) (rest : List Byte) :
    tokens isDelim (frame dest rest) = dest :: tokens isDelim rest := by
  calc tokens isDelim (frame dest rest)
      = tokens isDelim (bytes "[" ++ dest ++ ']'.toUInt8 :: rest) := by simp [frame, bytes]; rfl
    _ = dest :: tokens isDelim (']'.toUInt8 :: rest) :=
        tokens_cons_of_scan (forall_mem_of_all rfl) hdest.1 hdest.delim (by simp; rfl)
    _ = dest :: tokens isDelim rest := by rw [tokens_cons_of_delim _ rfl]

/-- The two tokens of a message `[TO]BODY`. -/
theorem tokens_frame {dest body : List Byte} (hdest : Field dest) (hbody : Field body) :
    tokens isDelim (cString (frame dest body)) = [dest, body] := by
  rw [cString_of_not_mem (zero_notMem_frame hdest.zero_notMem hbody.zero_notMem),
    tokens_dest hdest, tokens_of_word hbody.1 hbody.delim]

/-- What is handed to `send_msg` for a message `[TO]BODY`. -/
theorem msgInfo_frame (client : ClientInfo) (s : Scanner) {dest body : List Byte}
    (hdest : Field dest) (hbody : Field body) :
    msgInfo client s (frame dest body) =
      some ⟨toChar client.fd, dest, frame client.id.val body⟩ :=
  msgInfo_of_tokens client s (tokens_frame hdest hbody)

theorem length_frame (dest body : List Byte) :
    (frame dest body).length = dest.length + body.length + 2 := by
  simp only [frame, List.length_append]
  change 1 + dest.length + 1 + body.length = _
  omega

/-- The tests of `send_msg` as a selection of slots. -/
theorem filterMap_live (t : Table) (p : Fin maxClnt → Bool) (text : List Byte) :
    ((List.finRange maxClnt).filterMap fun i =>
        if (t i).fd ≠ -1 then if p i = true then some ((t i).fd, text) else none else none) =
      (t.live p).map fun i => ((t i).fd, text) := by
  rw [Table.live, ← List.filterMap_eq_map, List.filterMap_filter]
  refine List.filterMap_congr fun i _ => ?_
  by_cases hfd : (t i).fd = -1 <;> by_cases hp : p i = true <;> simp [hfd, hp]

/-- What is addressed to an id goes to the slots of the id. -/
theorem sendMsg_of_id (t : Table) (info : MsgInfo) (hall : info.dest ≠ allmsg)
    (hrequest : ¬info.isRequest) (now : Tm) :
    sendMsg t info now = some ((t.live fun j => (t j).id.val = info.dest).map fun j =>
      ((t j).fd, info.msg)) := by
  obtain ⟨hid, htime⟩ := not_or.mp hrequest
  rw [sendMsg, if_neg hall, if_neg hid, if_neg htime]
  simpa [eq_comm] using filterMap_live t (fun j => (t j).id.val = info.dest) info.msg

/-- The length of the answer to `IDLIST`. -/
theorem length_idlistText (t : Table) {msg : List Byte} (h : msg ≠ []) :
    (idlistText t msg).length = msg.length + t.idsLength := by
  have hids : (((List.finRange maxClnt).map fun i =>
      if (t i).fd ≠ -1 then (t i).id.val ++ bytes " " else []).flatten).length = t.idsLength := by
    rw [List.length_flatten, List.map_map, Table.idsLength, Table.live]
    generalize List.finRange maxClnt = slots
    induction slots with
    | nil => rfl
    | cons i slots ih =>
      rw [List.map_cons, List.sum_cons, ih, List.filter_cons]
      by_cases hfd : (t i).fd = -1
      · simp [hfd]
      · simp [hfd, bytes]
  have hmsg := List.length_pos_iff.mpr h
  rw [idlistText, List.length_append, List.length_append, hids, List.length_dropLast]
  change msg.length - 1 + t.idsLength + 1 = _
  omega

/-- A descriptor survives the conversion to `char` up to 127. -/
theorem toChar_eq_self_iff {fd : ℤ} (h : 0 ≤ fd) : toChar fd = fd ↔ fd ≤ 127 := by
  rw [toChar, Int.bmod_eq_iff (by decide)]
  omega

theorem routed_iff_of_request {t : Table} {i : Fin maxClnt} {dest body : List Byte}
    (h : dest = idlist ∨ dest = gettime) (writes : List (ℤ × List Byte)) :
    Routed t i dest body writes ↔ ∃ reply, writes = [((t i).fd, reply)] := by
  have hall : dest ≠ allmsg := by
    rintro rfl
    exact absurd h (by decide)
  rw [Routed, if_neg hall, if_pos h]

theorem routed_iff_of_id {t : Table} {i : Fin maxClnt} {dest body : List Byte}
    (hall : dest ≠ allmsg) (h : ¬(dest = idlist ∨ dest = gettime)) (writes : List (ℤ × List Byte)) :
    Routed t i dest body writes ↔ writes = (t.live fun j => (t j).id.val = dest).map fun j =>
      ((t j).fd, frame (t i).id.val body) := by
  rw [Routed, if_neg hall, if_neg h]

/-- **Relay routing.** A message `[TO]BODY` from a slot that is logged in leads to the writes it is
to lead to if and only if, for one of the two requests, the sender's descriptor is at most 127, and,
for the list of ids, that list fits the array allocated for it. -/
theorem routed_iff (t : Table) (i : Fin maxClnt) (s : Scanner) (now : Tm) {dest body : List Byte}
    (hlive : 0 ≤ (t i).fd) (hdest : Field dest) (hbody : Field body) :
    (∃ writes, relayRead t (t i) s (frame dest body) now = some writes ∧
        Routed t i dest body writes) ↔
      (dest = idlist ∨ dest = gettime → (t i).fd ≤ 127) ∧
      (dest = idlist →
        (frame (t i).id.val body).length + t.idsLength < idSize * maxClnt) := by
  have hinfo := msgInfo_frame (t i) s hdest hbody
  rw [relayRead, hinfo, Option.bind_some, ← toChar_eq_self_iff hlive]
  have hne : frame (t i).id.val body ≠ [] := by simp [frame, bytes]
  by_cases hall : dest = allmsg
  · subst hall
    rw [sendMsg, if_pos rfl]
    have hnot : allmsg ≠ idlist ∧ allmsg ≠ gettime := by decide
    simp only [Routed, if_true, hnot.1, hnot.2, false_or, false_implies, and_true, iff_true]
    refine ⟨_, rfl, ?_⟩
    simpa using filterMap_live t (fun _ => true) (frame (t i).id.val body)
  by_cases hid : dest = idlist
  · subst hid
    have hsend : sendMsg t ⟨toChar (t i).fd, idlist, frame (t i).id.val body⟩ now =
        if (frame (t i).id.val body).length + t.idsLength < idSize * maxClnt then
          some [(toChar (t i).fd, idlistText t (frame (t i).id.val body))]
        else none := by
      rw [sendMsg, if_neg hall, if_pos rfl, length_idlistText t hne]
    rw [hsend]
    constructor
    · rintro ⟨writes, hwrites, hrouted⟩
      obtain ⟨reply, rfl⟩ := (routed_iff_of_request (.inl rfl) writes).mp hrouted
      split_ifs at hwrites with hfits
      have hfd : toChar (t i).fd = (t i).fd :=
        congrArg Prod.fst (List.singleton_inj.mp (Option.some.inj hwrites))
      exact ⟨fun _ => hfd, fun _ => hfits⟩
    · rintro ⟨hfd, hfits⟩
      rw [if_pos (hfits rfl), hfd (.inl rfl)]
      exact ⟨_, rfl, (routed_iff_of_request (.inl rfl) _).mpr ⟨_, rfl⟩⟩
  by_cases htime : dest = gettime
  · subst htime
    have hsend : sendMsg t ⟨toChar (t i).fd, gettime, frame (t i).id.val body⟩ now =
        some [(toChar (t i).fd, getlocaltime now)] := by
      rw [sendMsg, if_neg hall, if_neg hid, if_pos rfl]
    rw [hsend]
    constructor
    · rintro ⟨writes, hwrites, hrouted⟩
      obtain ⟨reply, rfl⟩ := (routed_iff_of_request (.inr rfl) writes).mp hrouted
      have hfd : toChar (t i).fd = (t i).fd :=
        congrArg Prod.fst (List.singleton_inj.mp (Option.some.inj hwrites))
      exact ⟨fun _ => hfd, fun h => absurd h hid⟩
    · rintro ⟨hfd, -⟩
      rw [hfd (.inr rfl)]
      exact ⟨_, rfl, (routed_iff_of_request (.inr rfl) _).mpr ⟨_, rfl⟩⟩
  · have hrequest : ¬(dest = idlist ∨ dest = gettime) := not_or.mpr ⟨hid, htime⟩
    refine ⟨fun _ => ⟨fun h => absurd h hrequest, fun h => absurd h hid⟩, fun _ => ?_⟩
    have hsend := sendMsg_of_id t ⟨toChar (t i).fd, dest, frame (t i).id.val body⟩ hall hrequest now
    exact ⟨_, hsend, (routed_iff_of_id hall hrequest _).mpr rfl⟩

/-- The repository's table with two clients logged in. -/
def twoClients (fd fd' : ℤ) : Table :=
  ((load idpasswdTxt).setFd 4 fd).setFd 5 fd'

/-- Noon of a first of January. -/
def noon : Tm := ⟨0, 0, 12, 1, 0, 125, 3⟩

/-- Client 5 sends a message to client 6. -/
theorem routed_iff_witness :
    ∃ writes, relayRead (twoClients 4 5) (twoClients 4 5 4) .fresh
        (frame (bytes "6") (bytes "LEDON\n")) noon = some writes ∧
      Routed (twoClients 4 5) 4 (bytes "6") (bytes "LEDON\n") writes :=
  (routed_iff (twoClients 4 5) 4 .fresh noon (by decide) (by decide) (by decide)).mpr
    ⟨by decide, by decide⟩

/-- Client 5 is logged in on descriptor 260, client 6 on descriptor 4, and 5 asks for the list of
ids: 6 gets it. -/
theorem not_routed :
    ¬∀ t i s now dest body, 0 ≤ (t i).fd → Field dest → Field body →
      (frame dest body).length < bufSize →
        ∃ writes, relayRead t (t i) s (frame dest body) now = some writes ∧
          Routed t i dest body writes := by
  intro h
  obtain ⟨writes, hwrites, hrouted⟩ := h (twoClients 260 4) 4 .fresh noon idlist (bytes "x")
    (by decide) (by decide) (by decide) (by decide)
  have hsix : relayRead (twoClients 260 4) (twoClients 260 4 4) .fresh (frame idlist (bytes "x"))
      noon = some [(4, bytes "[5]5 6 \n")] := by decide
  obtain rfl := Option.some.inj (hsix.symm.trans hwrites)
  obtain ⟨reply, hreply⟩ := (routed_iff_of_request (.inl rfl) _).mp hrouted
  have hfd : (4 : ℤ) = 260 := congrArg Prod.fst (List.singleton_inj.mp hreply)
  exact absurd hfd (by decide)

end Relay

end DroneTurret
