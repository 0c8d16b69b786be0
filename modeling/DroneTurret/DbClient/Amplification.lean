import DroneTurret.DbClient.GetDb
import Mathlib.Algebra.BigOperators.Group.Finset.Basic

/-!
# Answers that are taken for requests

The relay server together with any number of database clients. A client sends a message, the server
relays it, a database client handles what has been relayed to it. The first line and the last line
of an answer begin with `GETDB`, which is all that a request is recognised by, so a line that gets
to a database client makes it answer again.

A step relays a whole message or handles a whole text; the table does not change, and every
connection is either one of a database client or sends what it likes. Messages and texts carry
whether they come from a user or are an answer.

## Main definitions

* `getdbFrames` — the requests in a text
* `Net`, `net` — the system
* `Apart`, `Quiet` — the tags whose answers get to no database client

## Main results

* `getdbCalls_recv_le` — what is left in `accum` adds no request
* `dest_of_printed` — where a line of an answer goes
* `Attributed.step` — every text that is handled as a request is one of a user
* `no_amplification` — the runs in which there are no more answers than requests
-/

namespace DroneTurret

namespace DbClient

open CString Tokens Decimal Relay Transition Trim

/-! ### The requests in a text -/

/-- Is a frame a request, by its payload? -/
def isRequestFrame (f : List Byte × List Byte) : Bool := isGetdb (trim isSpace (cString f.2))

/-- The number of requests in a text. -/
def getdbFrames (text : List Byte) : ℕ := (split text.length text).1.countP isRequestFrame

/-- The number of executions of `handle_getdb`. -/
def getdbCalls (cs : List Call) : ℕ := cs.countP fun c => c.handler = .getdb

/-- A request leads to at most one execution. -/
theorem getdbCalls_calls_le (fs : List (List Byte × List Byte)) :
    getdbCalls (calls fs) ≤ fs.countP isRequestFrame := by
  rw [getdbCalls, calls, List.countP_filterMap]
  refine List.countP_mono_left fun f _ hf => ?_
  rw [dispatch_eq, handler] at hf
  by_cases htag : cString f.1 = bytes "RASPBERRYPI"
  · simp [htag] at hf
  · by_cases hget : isGetdb (trim isSpace (cString f.2))
    · exact hget
    · simp [htag, hget] at hf

/-! ### What is left in `accum` -/

theorem incomplete_of_notMem {s : List Byte} (h : lb ∉ s) : Incomplete s := by
  rintro junk r rfl -
  simp at h

theorem incomplete_append {junk r : List Byte} (hjunk : lb ∉ junk) (hr : rb ∉ r) :
    Incomplete (junk ++ lb :: r) := by
  intro junk' r' h hjunk'
  have hsame := memchr_eq_some_iff.mpr ⟨h, hjunk'⟩
  rw [memchr_eq_some_iff.mpr ⟨rfl, hjunk⟩] at hsame
  rwa [← (Prod.mk.inj (Option.some.inj hsame)).2]

/-- A text has a complete tag, or none. -/
theorem tag_cases (s : List Byte) :
    Incomplete s ∨
      ∃ junk tag rest, s = junk ++ lb :: (tag ++ rb :: rest) ∧ lb ∉ junk ∧ rb ∉ tag := by
  by_cases hlb : lb ∈ s
  · obtain ⟨junk, r, rfl, hjunk⟩ := List.eq_append_cons_of_mem hlb
    by_cases hrb : rb ∈ r
    · obtain ⟨tag, rest, rfl, htag⟩ := List.eq_append_cons_of_mem hrb
      exact .inr ⟨junk, tag, rest, rfl, hjunk, htag⟩
    · exact .inl (incomplete_append hjunk hrb)
  · exact .inl (incomplete_of_notMem hlb)

theorem length_dropWhile_lt (junk tag s : List Byte) :
    (s.dropWhile (· != lb)).length + 2 ≤ (junk ++ lb :: (tag ++ rb :: s)).length := by
  have := List.length_dropWhile_le (· != lb) s
  simp only [List.length_append, List.length_cons]
  omega

/-- The loop has come to its end when it has as many rounds as there are bytes. -/
theorem split_eq (n : ℕ) {s : List Byte} (hn : s.length ≤ n) :
    split n s = split s.length s ∧ Incomplete (split n s).2 := by
  induction n using Nat.strong_induction_on generalizing s with
  | _ n ih =>
    rcases tag_cases s with hs | ⟨junk, tag, rest, rfl, hjunk, htag⟩
    · rw [split_of_incomplete n hs, split_of_incomplete _ hs]
      exact ⟨rfl, hs⟩
    · have hlen := length_dropWhile_lt junk tag rest
      obtain ⟨k, hk⟩ : ∃ k, (junk ++ lb :: (tag ++ rb :: rest)).length = k + 1 :=
        ⟨_, (Nat.succ_pred_eq_of_pos (by omega)).symm⟩
      obtain ⟨m, rfl⟩ : ∃ m, n = m + 1 := ⟨n - 1, by omega⟩
      obtain ⟨hsame, hrest⟩ := ih m (by omega) (s := rest.dropWhile (· != lb)) (by omega)
      obtain ⟨hsame', -⟩ := ih k (by omega) (s := rest.dropWhile (· != lb)) (by omega)
      rw [hk, split_of_tag m hjunk htag, split_of_tag k hjunk htag, hsame, hsame']
      exact ⟨rfl, hsame ▸ hrest⟩

/-- The payloads behind the first tag, whatever the tag is and stands behind. -/
theorem payloads_of_tag {junk tag : List Byte} (hjunk : lb ∉ junk) (htag : rb ∉ tag)
    (rest : List Byte) :
    (split (junk ++ lb :: (tag ++ rb :: rest)).length
        (junk ++ lb :: (tag ++ rb :: rest))).1.map Prod.snd =
      (rest.takeWhile (· != lb)).take (payloadSize - 1) ::
        (split (rest.dropWhile (· != lb)).length
          (rest.dropWhile (· != lb))).1.map Prod.snd := by
  have hlen := length_dropWhile_lt junk tag rest
  obtain ⟨k, hk⟩ : ∃ k, (junk ++ lb :: (tag ++ rb :: rest)).length = k + 1 :=
    ⟨_, (Nat.succ_pred_eq_of_pos (by omega)).symm⟩
  rw [hk, split_of_tag k hjunk htag, (split_eq k (by omega)).1]
  rfl

/-- An unfinished tag takes the next opening bracket for a byte of its own. -/
theorem notMem_append_cons {x t : List Byte} (hx : rb ∉ x) (ht : rb ∉ t) : rb ∉ x ++ lb :: t := by
  intro hmem
  rcases List.mem_append.mp hmem with hmem | hmem
  · exact hx hmem
  · rcases List.mem_cons.mp hmem with hmem | hmem
    · exact absurd hmem (by decide)
    · exact ht hmem

/-- What an unfinished tag stands in front of keeps its payloads. -/
theorem payloads_append {r t : List Byte} (hr : Incomplete r) :
    (split (r ++ lb :: t).length (r ++ lb :: t)).1.map Prod.snd =
      (split (lb :: t).length (lb :: t)).1.map Prod.snd := by
  by_cases hrb : rb ∈ t
  · obtain ⟨tag, rest, rfl, htag⟩ := List.eq_append_cons_of_mem hrb
    obtain ⟨junk, tag', hsplit, hjunk, htag'⟩ : ∃ junk tag', r ++ lb :: (tag ++ rb :: rest) =
        junk ++ lb :: (tag' ++ rb :: rest) ∧ lb ∉ junk ∧ rb ∉ tag' := by
      by_cases hlb : lb ∈ r
      · obtain ⟨junk, x, rfl, hjunk⟩ := List.eq_append_cons_of_mem hlb
        exact ⟨junk, x ++ lb :: tag, by simp, hjunk,
          notMem_append_cons (hr junk x rfl hjunk) htag⟩
      · exact ⟨r, tag, rfl, hlb, htag⟩
    have halone := payloads_of_tag List.not_mem_nil htag rest
    rw [List.nil_append] at halone
    rw [hsplit, payloads_of_tag hjunk htag' rest, halone]
  · have hnone : Incomplete (r ++ lb :: t) := by
      by_cases hlb : lb ∈ r
      · obtain ⟨junk, x, rfl, hjunk⟩ := List.eq_append_cons_of_mem hlb
        rw [List.append_assoc, List.cons_append]
        exact incomplete_append hjunk (notMem_append_cons (hr junk x rfl hjunk) hrb)
      · exact incomplete_append hlb hrb
    have hself : Incomplete (lb :: t) := @incomplete_append [] t List.not_mem_nil hrb
    rw [split_of_incomplete _ hnone, split_of_incomplete _ hself]

theorem countP_isRequestFrame (fs : List (List Byte × List Byte)) :
    fs.countP isRequestFrame =
      (fs.map Prod.snd).countP fun p => isGetdb (trim isSpace (cString p)) := by
  rw [List.countP_map]
  rfl

/-- **What is left in `accum` adds no request** to those of the next text, and leaves no complete
tag behind. -/
theorem getdbCalls_recv_le {r t : List Byte} (hr : Incomplete r) :
    getdbCalls (recv r (lb :: t)).1 ≤ getdbFrames (lb :: t) ∧ Incomplete (recv r (lb :: t)).2 := by
  have hkept : Incomplete (if r.length + (lb :: t).length ≥ accumSize then [] else r) := by
    split_ifs
    · exact incomplete_of_notMem List.not_mem_nil
    · exact hr
  rw [recv]
  generalize (if r.length + (lb :: t).length ≥ accumSize then [] else r) = r' at hkept
  refine ⟨(getdbCalls_calls_le _).trans (Nat.le_of_eq ?_), (split_eq _ (Nat.le_refl _)).2⟩
  rw [getdbFrames, countP_isRequestFrame, countP_isRequestFrame, payloads_append hkept]

/-! ### The system -/

/-- Where a message comes from. -/
inductive Origin
  | user
  | answer
  deriving DecidableEq

structure Net where
  /-- The messages of a client that the server has not read. -/
  sent : Fin maxClnt → List (Origin × List Byte)
  /-- The arrays of the server's threads. -/
  scanner : Fin maxClnt → Scanner
  /-- The texts that a client has not read. -/
  delivered : Fin maxClnt → List (Origin × List Byte)
  /-- The `accum` of a database client. -/
  accum : Fin maxClnt → List Byte
  /-- The requests of users, counted for each database client that gets them. -/
  requests : ℕ
  /-- The executions of `handle_getdb`. -/
  transactions : ℕ

/-- What the queries of one execution return: the number of rows and the rows, or a failure. -/
structure Outcome where
  count : Option ℕ
  events : Option (List Event)

def Outcome.results (o : Outcome) : Results := ⟨o.count, o.events.map fun es => es.map Event.row⟩

inductive NetAction
  /-- A user has a message sent. -/
  | send (k : Fin maxClnt) (msg : List Byte)
  /-- The server relays the next message of a client. -/
  | relay (k : Fin maxClnt) (now : Tm)
  /-- A database client handles the next text. -/
  | handle (k : Fin maxClnt) (outcomes : ℕ → Outcome)

/-- The messages written for the calls of one text. -/
def answers (outcomes : ℕ → Outcome) : List Call → Option (List (List Byte))
  | [] => some []
  | c :: cs =>
    match c.handler with
    | .fromRpi => answers outcomes cs
    | .getdb =>
      (handleGetdb c.tag (outcomes cs.length).results).bind fun msgs =>
        (answers outcomes cs).map fun rest => msgs ++ rest

section Net

variable (t : Table) (db : Fin maxClnt → Bool)

def Net.step (s : Net) : NetAction → Option Net
  | .send k msg =>
    if msg ≠ [] ∧ msg.length < bufSize then
      some { s with sent := Function.update s.sent k (s.sent k ++ [(.user, msg)]) }
    else none
  | .relay k now =>
    match s.sent k with
    | [] => none
    | (origin, msg) :: rest =>
      (relayRead t (t k) (s.scanner k) msg now).map fun writes =>
        { s with
          sent := Function.update s.sent k rest
          scanner := Function.update s.scanner k ((s.scanner k).clear.scan msg)
          delivered := fun j =>
            s.delivered j ++ (inbox (t j).fd writes).map fun text => (origin, text)
          requests := s.requests +
            if origin = .user then
              ∑ j with db j, ((inbox (t j).fd writes).map getdbFrames).sum
            else 0 }
  | .handle k outcomes =>
    match s.delivered k with
    | [] => none
    | (_, text) :: rest =>
      if db k then
        (answers outcomes (recv (s.accum k) text).1).map fun msgs =>
          { s with
            sent := Function.update s.sent k (s.sent k ++ msgs.map fun msg => (.answer, msg))
            delivered := Function.update s.delivered k rest
            accum := Function.update s.accum k (recv (s.accum k) text).2
            transactions := s.transactions + getdbCalls (recv (s.accum k) text).1 }
      else none

/-- The system, with nothing sent and nothing left over. -/
def net : Transition Net NetAction where
  init s := (∀ k, s.sent k = [] ∧ s.delivered k = [] ∧ s.accum k = []) ∧
    s.requests = 0 ∧ s.transactions = 0
  step := Net.step t db

/-- A message with this destination gets to no database client, other than by the answer to
`GETTIME`. -/
def Missing (d : List Byte) : Prop :=
  d ≠ allmsg ∧ d ≠ idlist ∧ ∀ j, db j → ∀ i, (t i).fd ≠ -1 → (t i).id.val = d → (t i).fd ≠ (t j).fd

/-- No answer to the tag gets to a database client. A message goes to the first token of its tag. If
the tag has none, it goes to what the line begins with, which is nobody's id unless the line is
cut. -/
structure Apart (tag : List Byte) : Prop where
  dest : ∀ d ∈ (tokens isDelim tag).head?, Missing t db d
  short : tokens isDelim tag = [] → tag.length < 2 * nameSize

/-- The condition that the requests a database client handles are under such tags. -/
def Quiet (s : Net) : NetAction → Prop
  | .handle k _ => ∀ x ∈ (s.delivered k).head?, ∀ c ∈ (recv (s.accum k) x.2).1,
      c.handler = .getdb → Apart t db c.tag
  | _ => True

instance (d : List Byte) : Decidable (Missing t db d) :=
  inferInstanceAs (Decidable (_ ∧ _ ∧ _))

instance (tag : List Byte) : Decidable (Apart t db tag) :=
  decidable_of_iff ((∀ d ∈ (tokens isDelim tag).head?, Missing t db d) ∧
    (tokens isDelim tag = [] → tag.length < 2 * nameSize))
    ⟨fun h => ⟨h.1, h.2⟩, fun h => ⟨h.dest, h.short⟩⟩

instance (s : Net) (a : NetAction) : Decidable (Quiet t db s a) :=
  match a with
  | .send .. => .isTrue trivial
  | .relay .. => .isTrue trivial
  | .handle k _ => inferInstanceAs (Decidable (∀ x ∈ (s.delivered k).head?,
      ∀ c ∈ (recv (s.accum k) x.2).1, c.handler = .getdb → Apart t db c.tag))

end Net

/-! ### Where an answer goes -/

/-- What a line of an answer begins with: no delimiter, and white space in it. -/
theorem exists_blank_of_line {o : Outcome} {l : ℕ × List Byte} (hl : l ∈ lines o.results) :
    ∃ p rest, l.2 = p ++ rest ∧ Relay.Field p ∧ (∃ b ∈ p, isSpace b) ∧
      2 * nameSize + 2 + p.length ≤ l.1 := by
  rcases List.mem_cons.mp hl with rfl | hl
  · have hroom : 2 * nameSize + 2 + (bytes "GETDB_BEGIN ").length ≤ nameSize + 64 := by decide
    refine ⟨bytes "GETDB_BEGIN ", bytes "rows=" ++ digits (o.results.count.getD 0) ++ bytes "\n",
      ?_, by decide, ⟨32, by decide, rfl⟩, hroom⟩
    simp [beginLine, bytes]
  · have herror : ∃ p rest, errorLine = p ++ rest ∧ Relay.Field p ∧ (∃ b ∈ p, isSpace b) ∧
        2 * nameSize + 2 + p.length ≤ 128 :=
      ⟨errorLine, [], rfl, by decide, ⟨newline, by decide, rfl⟩, by decide⟩
    have hend : ∃ p rest, endLine = p ++ rest ∧ Relay.Field p ∧ (∃ b ∈ p, isSpace b) ∧
        2 * nameSize + 2 + p.length ≤ nameSize + 32 :=
      ⟨endLine, [], rfl, by decide, ⟨newline, by decide, rfl⟩, by decide⟩
    rw [Outcome.results] at hl
    cases hevents : o.events with
    | none =>
      rw [hevents] at hl
      rcases List.mem_cons.mp hl with rfl | hl
      · exact herror
      · rw [List.mem_singleton.mp hl]
        obtain ⟨p, rest, hp, hfield, hblank, hlen⟩ := hend
        exact ⟨p, rest, hp, hfield, hblank, hlen.trans (by decide)⟩
    | some events =>
      rw [hevents] at hl
      rcases List.mem_append.mp hl with hl | hl
      · obtain ⟨row, hrow, rfl⟩ := List.mem_map.mp hl
        obtain ⟨e, -, rfl⟩ := List.mem_map.mp hrow
        obtain ⟨rest, hrest⟩ := exists_rowLine e
        have hroom : 2 * nameSize + 2 + 13 ≤ nameSize + 64 := by decide
        refine ⟨e.time.stamp, _, hrest, e.time.field_stamp, ⟨32, ?_, rfl⟩, ?_⟩
        · rw [Timestamp.stamp]
          exact List.mem_append_left _ (List.mem_append_right _ (List.mem_singleton_self 32))
        · rw [e.time.length_stamp]
          exact hroom
      · rw [List.mem_singleton.mp hl]
        exact hend

/-- The tokens of a message to a tag are those of the tag and those of the line. -/
theorem tokens_of_printed {size : ℕ} {tag p rest rd : List Byte} (htag : 0 ∉ tag) (hp : 0 ∉ p)
    (h : printAll size (frame tag (p ++ rest)) = some rd)
    (hroom : tag.length + 2 + p.length < size) :
    ∃ rest', tokens isDelim (cString rd) = tokens isDelim tag ++ tokens isDelim (p ++ rest') := by
  have hsplit : frame tag (p ++ rest) = frame tag p ++ rest := by simp [frame]
  rw [hsplit] at h
  obtain ⟨rest', rfl⟩ := exists_of_printAll h (by rw [length_frame]; omega)
  refine ⟨cString rest', ?_⟩
  have hmsg : frame tag p ++ cString rest' =
      ([] ++ '['.toUInt8 :: tag) ++ ']'.toUInt8 :: (p ++ cString rest') := by
    simp [frame, bytes]
    exact ⟨rfl, rfl⟩
  rw [cString_append_of_not_mem (zero_notMem_frame htag hp), hmsg, tokens_append_cons _ _ rfl,
    tokens_append_cons _ _ rfl, tokens_nil, List.nil_append]

/-- **Where a line of an answer goes**: to the first token of the tag, or to a text with white space
in it. -/
theorem dest_of_printed {tag rd : List Byte} {o : Outcome} {l : ℕ × List Byte} (htag : 0 ∉ tag)
    (hshort : tokens isDelim tag = [] → tag.length < 2 * nameSize) (hl : l ∈ lines o.results)
    (h : printAll l.1 (frame tag l.2) = some rd) :
    ∃ d more, tokens isDelim (cString rd) = d :: more ∧
      (d ∈ (tokens isDelim tag).head? ∨ ∃ b ∈ d, isSpace b) := by
  obtain ⟨p, rest, hline, hfield, ⟨b, hb, hblank⟩, hlen⟩ := exists_blank_of_line hl
  rw [hline] at h
  cases htok : tokens isDelim tag with
  | nil =>
    have := hshort htok
    obtain ⟨rest', hrest'⟩ := tokens_of_printed htag hfield.zero_notMem h (by omega)
    obtain ⟨u, more, hword⟩ := tokens_word_append hfield.1 hfield.delim rest'
    rw [htok, hword, List.nil_append] at hrest'
    exact ⟨p ++ u, more, hrest', .inr ⟨b, List.mem_append_left u hb, hblank⟩⟩
  | cons d more =>
    have hfits : tag.length + 2 < l.1 := by
      have hpos := List.length_pos_iff.mpr hfield.1
      have hle : (frame tag (p ++ rest)).length ≤ l.1 := by
        rcases printAll_cases h with ⟨hlt, -⟩ | ⟨heq, -⟩
        · exact hlt.le
        · exact heq.le
      rw [length_frame, List.length_append] at hle
      omega
    have h' : printAll l.1 (frame tag ([] ++ (p ++ rest))) = some rd := h
    obtain ⟨rest', hrest'⟩ := tokens_of_printed htag List.not_mem_nil h' hfits
    rw [htok] at hrest'
    exact ⟨d, _, hrest', .inl rfl⟩

theorem exists_of_isGetdb {s : List Byte} (h : isGetdb s) : ∃ c ∈ s, tolower c = 'g'.toUInt8 := by
  have hmap := of_decide_eq_true h
  cases s with
  | nil => cases hmap
  | cons c s => exact ⟨c, List.mem_cons_self, (List.cons.inj hmap).1⟩

/-- The time is no request. -/
theorem getdbFrames_getlocaltime (now : Tm) : getdbFrames (getlocaltime now) = 0 := by
  obtain ⟨body, htext, hbody⟩ := getlocaltime_eq now
  have hlb : lb ∉ body := fun hmem => absurd (hbody lb hmem) (by decide)
  have hclock : ∀ c ∈ clockBytes, tolower c ≠ 'g'.toUInt8 := forall_mem_of_all rfl
  have hne : ∀ c ∈ body, tolower c ≠ 'g'.toUInt8 := by
    intro c hc
    rcases hbody c hc with hdigit | hmem
    · obtain ⟨d, hd, rfl⟩ := exists_digit hdigit
      interval_cases d <;> decide
    · exact hclock c hmem
  have hsplit : getlocaltime now = [] ++ lb :: (bytes "GETTIME" ++ rb :: (body ++ [])) := by
    rw [htext, List.append_nil]
    rfl
  obtain ⟨k, hk⟩ : ∃ k, (getlocaltime now).length = k + 1 := by
    rw [hsplit]
    exact ⟨_, rfl⟩
  have hnil : split k [] = ([], []) := split_of_incomplete k (incomplete_of_notMem List.not_mem_nil)
  rw [getdbFrames, hk, hsplit, split_of_header k List.not_mem_nil (by decide) hlb
    (head?_of_stream (show [] ++ [] = stream [] from rfl)), hnil]
  refine List.countP_eq_zero.mpr fun f hf hreq => ?_
  obtain rfl := List.mem_singleton.mp hf
  obtain ⟨c, hc, hg⟩ := exists_of_isGetdb hreq
  obtain ⟨lead, tail, htrim, -⟩ :=
    trim_decomp (p := isSpace) (cString (body.take (payloadSize - 1)))
  refine hne c (List.mem_of_mem_take (i := payloadSize - 1) (mem_of_mem_cString ?_)) hg
  rw [htrim]
  exact List.mem_append_left _ (List.mem_append_right _ hc)

section Net

variable {t : Table} {db : Fin maxClnt → Bool}

/-- A text with white space in it is nobody's id. -/
theorem missing_of_blank {d : List Byte} (h : ∃ b ∈ d, isSpace b) : Missing t db d := by
  obtain ⟨b, hb, hblank⟩ := h
  have hall : ∀ c ∈ allmsg, isSpace c = false := forall_mem_of_all rfl
  have hid : ∀ c ∈ idlist, isSpace c = false := forall_mem_of_all rfl
  refine ⟨?_, ?_, ?_⟩
  · rintro rfl
    exact absurd hblank (Bool.eq_false_iff.mp (hall b hb))
  · rintro rfl
    exact absurd hblank (Bool.eq_false_iff.mp (hid b hb))
  · rintro j - i - rfl
    exact absurd hblank (Bool.eq_false_iff.mp ((t i).id.plain b hb).2)

/-- No text of such a message is a request of a database client. -/
theorem getdbFrames_of_missing {client : ClientInfo} {s : Scanner} {now : Tm} {rd d : List Byte}
    {more : List (List Byte)} {writes : List (ℤ × List Byte)} (hd : Missing t db d)
    (htok : tokens isDelim (cString rd) = d :: more)
    (h : relayRead t client s rd now = some writes) {j : Fin maxClnt} (hj : db j) :
    ∀ text ∈ inbox (t j).fd writes, getdbFrames text = 0 := by
  obtain ⟨info, hinfo, hsend⟩ := Option.bind_eq_some_iff.mp h
  have hdest : info.dest = d := by
    rw [msgInfo, firstTwo_fst s htok] at hinfo
    rw [← Option.some.inj hinfo]
  obtain ⟨hall, hid, hmissing⟩ := hd
  intro text htext
  obtain ⟨w, hw, rfl⟩ := List.mem_map.mp htext
  obtain ⟨hw, hfd⟩ := List.mem_filter.mp hw
  rw [decide_eq_true_eq] at hfd
  by_cases htime : info.dest = gettime
  · rw [sendMsg, if_neg (by rw [hdest]; exact hall), if_neg (by rw [hdest]; exact hid),
      if_pos htime] at hsend
    obtain rfl := Option.some.inj hsend
    rw [List.mem_singleton.mp hw]
    exact getdbFrames_getlocaltime now
  · -- a live slot of the id would have the descriptor of the database client
    have hreq : ¬info.isRequest := not_or.mpr ⟨by rw [hdest]; exact hid, htime⟩
    rw [sendMsg_of_id t info (by rw [hdest]; exact hall) hreq] at hsend
    obtain rfl := Option.some.inj hsend
    obtain ⟨i, hi, rfl⟩ := List.mem_map.mp hw
    have hlive := (List.mem_filter.mp hi).2
    rw [Bool.and_eq_true, decide_eq_true_eq, hdest] at hlive
    exact absurd hfd (hmissing j hj i hlive.1 (of_decide_eq_true hlive.2))

/-- A message that makes no database client answer, whatever is left over when it is read. -/
def Harmless (t : Table) (db : Fin maxClnt → Bool) (client : ClientInfo) (msg : List Byte) : Prop :=
  ∀ s now writes, relayRead t client s msg now = some writes →
    ∀ j, db j → ∀ text ∈ inbox (t j).fd writes, getdbFrames text = 0

/-- **The lines of an answer** to such a tag are harmless. -/
theorem harmless_of_handleGetdb {tag : List Byte} (htag : 0 ∉ tag) (hapart : Apart t db tag)
    {o : Outcome} {msgs : List (List Byte)} (h : handleGetdb tag o.results = some msgs)
    (client : ClientInfo) : ∀ msg ∈ msgs, Harmless t db client msg := by
  intro msg hmsg s now writes hwrites j hj
  rw [handleGetdb] at h
  split_ifs at h
  · obtain rfl := Option.some.inj h
    cases hmsg
  · obtain ⟨l, hl, hprint⟩ := exists_of_forall₂ (forall₂_of_mapM h) hmsg
    obtain ⟨d, more, htok, hd⟩ := dest_of_printed htag hapart.short hl hprint
    have hmissing : Missing t db d := hd.elim (hapart.dest d) missing_of_blank
    exact getdbFrames_of_missing hmissing htok hwrites hj

theorem zero_notMem_tag {fs : List (List Byte × List Byte)} {c : Call} (hc : c ∈ calls fs) :
    0 ∉ c.tag := by
  obtain ⟨f, -, hf⟩ := List.mem_filterMap.mp hc
  rw [dispatch_eq] at hf
  obtain ⟨h, -, rfl⟩ := Option.map_eq_some_iff.mp hf
  exact zero_notMem_cString f.1

theorem harmless_of_answers {fs : List (List Byte × List Byte)} {outcomes : ℕ → Outcome}
    {msgs : List (List Byte)} {cs : List Call} (hcs : cs ⊆ calls fs)
    (hquiet : ∀ c ∈ cs, c.handler = .getdb → Apart t db c.tag)
    (h : answers outcomes cs = some msgs) (client : ClientInfo) :
    ∀ msg ∈ msgs, Harmless t db client msg := by
  induction cs generalizing msgs with
  | nil =>
    obtain rfl := Option.some.inj h
    exact List.forall_mem_nil _
  | cons c cs ih =>
    obtain ⟨hc, hrest⟩ := List.cons_subset.mp hcs
    have hquiet' := fun c' (hc' : c' ∈ cs) => hquiet c' (List.mem_cons_of_mem c hc')
    rw [answers] at h
    cases hhandler : c.handler with
    | fromRpi =>
      rw [hhandler] at h
      exact ih hrest hquiet' h
    | getdb =>
      rw [hhandler] at h
      obtain ⟨first, hfirst, h⟩ := Option.bind_eq_some_iff.mp h
      obtain ⟨rest, hrest', rfl⟩ := Option.map_eq_some_iff.mp h
      have hapart := hquiet c List.mem_cons_self hhandler
      exact List.forall_mem_append.mpr
        ⟨harmless_of_handleGetdb (zero_notMem_tag hc) hapart hfirst client, ih hrest hquiet' hrest'⟩

/-- Every text of the server begins with a bracket. -/
theorem exists_of_relayRead {client : ClientInfo} {s : Scanner} {now : Tm} {rd : List Byte}
    {writes : List (ℤ × List Byte)} (h : relayRead t client s rd now = some writes) {fd : ℤ} :
    ∀ text ∈ inbox fd writes, ∃ u, text = lb :: u := by
  obtain ⟨info, hinfo, hsend⟩ := Option.bind_eq_some_iff.mp h
  obtain ⟨u, hu, hne⟩ : ∃ u, info.msg = lb :: u ∧ u ≠ [] := by
    obtain ⟨dest, -, rfl⟩ := Option.map_eq_some_iff.mp hinfo
    refine ⟨client.id.val ++ (bytes "]" ++ (s.clear.firstTwo rd).2.getD (bytes "(null)")), ?_,
      by simp [bytes]⟩
    rw [toMsg, List.append_assoc, List.append_assoc]
    rfl
  intro text htext
  obtain ⟨w, hw, rfl⟩ := List.mem_map.mp htext
  have hw := (List.mem_filter.mp hw).1
  by_cases hreq : info.isRequest
  · have hall : info.dest ≠ allmsg := by
      rcases hreq with hreq | hreq <;> rw [hreq] <;> decide
    rw [sendMsg, if_neg hall] at hsend
    split_ifs at hsend with hid hfits htime
    · obtain rfl := Option.some.inj hsend
      rw [List.mem_singleton.mp hw]
      dsimp only
      rw [idlistText, hu, List.dropLast_cons_of_ne_nil hne]
      exact ⟨_, rfl⟩
    · obtain rfl := Option.some.inj hsend
      rw [List.mem_singleton.mp hw]
      obtain ⟨body, hbody, -⟩ := getlocaltime_eq now
      exact ⟨_, hbody⟩
    · exact absurd hreq (not_or.mpr ⟨hid, htime⟩)
  · rw [sendMsg_of_not_request t hreq] at hsend
    obtain rfl := Option.some.inj hsend
    obtain ⟨i, -, hi⟩ := List.mem_filterMap.mp hw
    rw [slotWrite] at hi
    split_ifs at hi
    obtain rfl := Option.some.inj hi
    exact ⟨u, hu⟩

/-! ### The invariant -/

/-- The requests in a text, if it is one of a user. -/
def weight (x : Origin × List Byte) : ℕ := if x.1 = .user then getdbFrames x.2 else 0

/-- The requests of users that database clients have still to handle. -/
def pending (db : Fin maxClnt → Bool) (q : Fin maxClnt → List (Origin × List Byte)) : ℕ :=
  ∑ j with db j, ((q j).map weight).sum

theorem pending_append (q new : Fin maxClnt → List (Origin × List Byte)) :
    pending db (fun j => q j ++ new j) = pending db q + pending db new := by
  rw [pending, pending, pending, ← Finset.sum_add_distrib]
  refine Finset.sum_congr rfl fun j _ => ?_
  rw [List.map_append, List.sum_append]

theorem pending_of_origin (origin : Origin) (texts : Fin maxClnt → List (List Byte)) :
    pending db (fun j => (texts j).map fun text => (origin, text)) =
      if origin = .user then ∑ j with db j, ((texts j).map getdbFrames).sum else 0 := by
  cases origin with
  | user =>
    rw [pending, if_pos rfl]
    refine Finset.sum_congr rfl fun j _ => ?_
    rw [List.map_map]
    rfl
  | answer =>
    rw [pending, if_neg nofun]
    refine Finset.sum_eq_zero fun j _ => ?_
    rw [List.map_map]
    exact List.sum_eq_zero fun n hn => by
      obtain ⟨text, -, rfl⟩ := List.mem_map.mp hn
      rfl

/-- The next text is handled. -/
theorem pending_update {q : Fin maxClnt → List (Origin × List Byte)} {k : Fin maxClnt}
    {x : Origin × List Byte} {rest : List (Origin × List Byte)} (hk : db k) (hq : q k = x :: rest) :
    pending db q = weight x + pending db (Function.update q k rest) := by
  have hmem : k ∈ Finset.univ.filter fun j => db j = true :=
    Finset.mem_filter.mpr ⟨Finset.mem_univ k, hk⟩
  rw [pending, pending, ← Finset.add_sum_erase _ _ hmem, ← Finset.add_sum_erase _ _ hmem, hq,
    Function.update_self, List.map_cons, List.sum_cons, Nat.add_assoc]
  refine congrArg _ (congrArg _ (Finset.sum_congr rfl fun j hj => ?_))
  rw [Function.update_of_ne (Finset.ne_of_mem_erase hj)]

/-- Every text that is handled as a request is one of a user. -/
structure Attributed (t : Table) (db : Fin maxClnt → Bool) (s : Net) : Prop where
  count : s.transactions + pending db s.delivered ≤ s.requests
  sent : ∀ k, ∀ msg, (.answer, msg) ∈ s.sent k → Harmless t db (t k) msg
  delivered : ∀ k, db k → ∀ text, (.answer, text) ∈ s.delivered k → getdbFrames text = 0
  text : ∀ k, ∀ x ∈ s.delivered k, ∃ u, x.2 = lb :: u
  accum : ∀ k, Incomplete (s.accum k)

theorem attributed_init {s : Net} (h : (net t db).init s) : Attributed t db s := by
  obtain ⟨hempty, hrequests, htransactions⟩ := h
  refine ⟨?_, fun k msg hmsg => ?_, fun k _ text htext => ?_, fun k x hx => ?_, fun k => ?_⟩
  · have hpending : pending db s.delivered = 0 :=
      Finset.sum_eq_zero fun j _ => by rw [(hempty j).2.1]; rfl
    rw [htransactions, hpending]
    exact Nat.zero_le _
  · rw [(hempty k).1] at hmsg
    cases hmsg
  · rw [(hempty k).2.1] at htext
    cases htext
  · rw [(hempty k).2.1] at hx
    cases hx
  · rw [(hempty k).2.2]
    exact incomplete_of_notMem List.not_mem_nil

/-- What a queue holds after an update of one of them. -/
theorem mem_update {α : Type*} {q : Fin maxClnt → List α} {k j : Fin maxClnt} {l : List α} {x : α}
    (hx : x ∈ Function.update q k l j) : j = k ∧ x ∈ l ∨ x ∈ q j := by
  rcases update_cases (f := q) (rfl : Function.update q k l j = _) with ⟨rfl, hl⟩ | ⟨-, hl⟩
  · exact .inl ⟨rfl, hl ▸ hx⟩
  · exact .inr (hl ▸ hx)

/-- **What a step does to the texts and the counts**, one case for each kind of step. -/
theorem Attributed.step {s s' : Net} (h : Attributed t db s) {a : NetAction}
    (ha : Quiet t db s a) (hs : (net t db).step s a = some s') : Attributed t db s' := by
  cases a with
  | send k msg =>
    change (if _ then some _ else none) = some s' at hs
    split_ifs at hs
    obtain rfl := Option.some.inj hs
    refine ⟨h.count, fun j m hm => ?_, h.delivered, h.text, h.accum⟩
    rcases mem_update hm with ⟨rfl, hm⟩ | hm
    · rcases List.mem_append.mp hm with hm | hm
      · exact h.sent j m hm
      · cases List.mem_singleton.mp hm
    · exact h.sent j m hm
  | relay k now =>
    change (match s.sent k with | [] => none | (origin, msg) :: rest => _) = some s' at hs
    split at hs
    · cases hs
    · rename_i origin msg rest hsent
      obtain ⟨writes, hwrites, rfl⟩ := Option.map_eq_some_iff.mp hs
      have horigin : (origin, msg) ∈ s.sent k := by
        rw [hsent]
        exact List.mem_cons_self
      refine ⟨?_, fun j m hm => ?_, fun j hj text htext => ?_, fun j x hx => ?_, h.accum⟩
      · have hcount := h.count
        change s.transactions + pending db _ ≤ s.requests + _
        rw [pending_append, pending_of_origin]
        omega
      · rcases mem_update hm with ⟨rfl, hrest⟩ | hold
        · exact h.sent j m (by rw [hsent]; exact List.mem_cons_of_mem _ hrest)
        · exact h.sent j m hold
      · rcases List.mem_append.mp htext with htext | htext
        · exact h.delivered j hj text htext
        · obtain ⟨text', hmem, heq⟩ := List.mem_map.mp htext
          obtain ⟨rfl, rfl⟩ := Prod.mk.inj heq
          exact h.sent k msg horigin _ now writes hwrites j hj _ hmem
      · rcases List.mem_append.mp hx with hx | hx
        · exact h.text j x hx
        · obtain ⟨text, hmem, rfl⟩ := List.mem_map.mp hx
          exact exists_of_relayRead hwrites text hmem
  | handle k outcomes =>
    change (match s.delivered k with | [] => none | (_, text) :: rest => _) = some s' at hs
    split at hs
    · cases hs
    · rename_i origin text rest hdelivered
      split_ifs at hs with hk
      obtain ⟨msgs, hmsgs, rfl⟩ := Option.map_eq_some_iff.mp hs
      have hnext : (origin, text) ∈ s.delivered k := by
        rw [hdelivered]
        exact List.mem_cons_self
      obtain ⟨u, rfl⟩ := h.text k (origin, text) hnext
      obtain ⟨hcalls, hkept⟩ := getdbCalls_recv_le (t := u) (h.accum k)
      have hquiet := ha (origin, lb :: u) (by rw [hdelivered]; rfl)
      have hweight : getdbFrames (lb :: u) ≤ weight (origin, lb :: u) := by
        cases origin with
        | user => exact Nat.le_refl _
        | answer => rw [h.delivered k hk (lb :: u) hnext]; exact Nat.zero_le _
      refine ⟨?_, fun j m hm => ?_, fun j hj text htext => ?_, fun j x hx => ?_, fun j => ?_⟩
      · have hcount := h.count
        rw [pending_update hk hdelivered] at hcount
        change s.transactions + getdbCalls (recv (s.accum k) (lb :: u)).1 +
          pending db (Function.update s.delivered k rest) ≤ s.requests
        omega
      · rcases mem_update hm with ⟨rfl, hnew⟩ | hold
        · rcases List.mem_append.mp hnew with hold | hnew
          · exact h.sent j m hold
          · obtain ⟨m', hm', heq⟩ := List.mem_map.mp hnew
            obtain ⟨-, rfl⟩ := Prod.mk.inj heq
            exact harmless_of_answers (List.Subset.refl _) hquiet hmsgs (t j) _ hm'
        · exact h.sent j m hold
      · rcases mem_update htext with ⟨rfl, hrest⟩ | hold
        · exact h.delivered j hj text (by rw [hdelivered]; exact List.mem_cons_of_mem _ hrest)
        · exact h.delivered j hj text hold
      · rcases mem_update hx with ⟨rfl, hrest⟩ | hold
        · exact h.text j x (by rw [hdelivered]; exact List.mem_cons_of_mem _ hrest)
        · exact h.text j x hold
      · change Incomplete (Function.update s.accum k _ j)
        by_cases hj : j = k
        · rw [hj, Function.update_self]
          exact hkept
        · rw [Function.update_of_ne hj]
          exact h.accum j

/-- Handling a line of an answer executes nothing. -/
theorem Attributed.calls {s : Net} (h : Attributed t db s) {k : Fin maxClnt} (hk : db k)
    {text : List Byte} (htext : (.answer, text) ∈ s.delivered k) :
    getdbCalls (recv (s.accum k) text).1 = 0 := by
  obtain ⟨u, hu⟩ := h.text k (.answer, text) htext
  obtain rfl : text = lb :: u := hu
  have hle := (getdbCalls_recv_le (t := u) (h.accum k)).1
  rw [h.delivered k hk (lb :: u) htext] at hle
  exact Nat.le_zero.mp hle

end Net

/-- **No amplification.** In every run in which the requests that database clients handle are under
tags whose answers get to no database client, there are no more answers than requests of users, and
no line of an answer is taken for a request. -/
theorem no_amplification (t : Table) (db : Fin maxClnt → Bool) (s : Net)
    (h : (net t db).Reach (Quiet t db) s) :
    s.transactions ≤ s.requests ∧
      ∀ k, db k → ∀ text, (.answer, text) ∈ s.delivered k →
        getdbCalls (recv (s.accum k) text).1 = 0 := by
  have hinv : Attributed t db s :=
    h.invariant (Attributed t db) (fun _ => attributed_init) fun _ _ _ hs ha => hs.step ha
  exact ⟨(Nat.le_add_right _ _).trans hinv.count, fun _ hk _ => hinv.calls hk⟩

/-- Nothing sent. -/
def Net.start : Net := ⟨fun _ => [], fun _ => .fresh, fun _ => [], fun _ => [], 0, 0⟩

theorem init_start (t : Table) (db : Fin maxClnt → Bool) : (net t db).init .start :=
  ⟨fun _ => ⟨rfl, rfl, rfl⟩, rfl, rfl⟩

/-- Queries of an empty table. -/
def noRows : ℕ → Outcome := fun _ => ⟨some 0, some []⟩

/-- Client 5 asks the database client 6, and has its answer. -/
theorem no_amplification_witness :
    ∃ s, (net (twoClients 4 5) (· == 5)).Reach (Quiet (twoClients 4 5) (· == 5)) s ∧
      s.transactions = 1 ∧ (s.delivered 4).length = 2 ∧ s.transactions ≤ s.requests := by
  obtain ⟨s, hs, hp⟩ := exists_reach_of_run (net (twoClients 4 5) (· == 5))
    (Quiet (twoClients 4 5) (· == 5)) (init_start _ _)
    [.send 4 (bytes "[6]GETDB\n"), .relay 4 noon, .handle 5 noRows, .relay 5 noon, .relay 5 noon]
    (fun s => s.transactions = 1 && (s.delivered 4).length = 2) rfl
  simp only [Bool.and_eq_true, decide_eq_true_eq] at hp
  exact ⟨s, hs, hp.1, hp.2, (no_amplification _ _ s hs).1⟩

/-- At the console of the database client 6, `[ALLMSG]GETDB` is typed. It gets the request itself,
and its answers too, the first of which it answers again. -/
theorem not_no_amplification :
    ¬∀ t db s, (net t db).Reachable s → s.transactions ≤ s.requests := by
  intro h
  obtain ⟨s, hs, hp⟩ := exists_reach_of_run (net (twoClients 4 5) (· == 5)) (fun _ _ => True)
    (init_start _ _)
    [.send 5 (bytes "[ALLMSG]GETDB\n"), .relay 5 noon, .handle 5 noRows, .relay 5 noon,
      .handle 5 noRows]
    (fun s => s.transactions = 2 && s.requests = 1) rfl
  simp only [Bool.and_eq_true, decide_eq_true_eq] at hp
  have hle := h (twoClients 4 5) (· == 5) s hs
  omega

end DbClient

end DroneTurret
