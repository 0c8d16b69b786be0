import DroneTurret.Relay.Authentication
import Mathlib.Data.List.Forall2

/-!
# How the reads cut a client's stream

A client writes one login frame and then messages. The server takes the first `read` for the login
and every later `read` for one message, whatever TCP put in it.

The delimiters are skipped wherever they stand, so a cut may move past them; every other byte
counts. `relay_eq_iff` says that the deliveries are the messages exactly when the reads hold, one
for one, the text of the frames. What decides it is a count: a read that delivers the right pair
holds at least the text of its message, there is one read for each frame, and there is no text to
spare.

## Main results

* `deliveries_of_aligned` — reads that hold the text of the messages deliver them
* `tokens_of_deliveries` — reads that deliver the messages hold their text
* `text_login_prefix` — so does the login read, or the first message is not delivered
* `relay_eq_iff` — the two directions put together
-/

namespace DroneTurret

namespace Relay

open CString Tokens

/-! ### The client's side -/

def newline : Byte := '\n'.toUInt8

/-- Credentials that a login frame can carry. -/
structure Credentials where
  id : Word
  pw : Word
  id_ne : id.val ≠ []
  pw_ne : pw.val ≠ []
  id_plain : ∀ b ∈ id.val, isDelim b = false
  pw_plain : ∀ b ∈ pw.val, isDelim b = false

/-- `[ID:PW]`. -/
def Credentials.frame (c : Credentials) : List Byte :=
  bytes "[" ++ (c.id.val ++ bytes ":" ++ c.pw.val) ++ bytes "]"

/-- A message to be relayed. Its newline is the one behind it. -/
structure Message where
  dest : List Byte
  body : List Byte
  dest_ne : dest ≠ []
  body_ne : body ≠ []
  dest_plain : ∀ b ∈ dest, isDelim b = false ∧ b ≠ 0 ∧ b ≠ newline
  body_plain : ∀ b ∈ body, isDelim b = false ∧ b ≠ 0

/-- `[TO]BODY`, newline-terminated. -/
def Message.frame (m : Message) : List Byte :=
  bytes "[" ++ (m.dest ++ bytes "]" ++ (m.body ++ [newline]))

/-- What `send_msg` is to be called with. -/
def Message.delivery (m : Message) : Option (List Byte) × Option (List Byte) :=
  (some m.dest, some (m.body ++ [newline]))

/-- Everything a client sends, frame by frame. -/
def frames (c : Credentials) (ms : List Message) : List (List Byte) :=
  c.frame :: ms.map Message.frame

/-! ### The server's side -/

/-- The calls of `send_msg` that the reads of `clnt_connection` lead to: what `pArray[0]` and
`pArray[1]` denote after each. -/
def deliveries (s : Scanner) : List (List Byte) → List (Option (List Byte) × Option (List Byte))
  | [] => []
  | rd :: rds => s.clear.firstTwo rd :: deliveries (s.clear.scan rd) rds

/-- The login read of `main`, and the calls of `send_msg` of the thread it starts. -/
def relay (m : MainState) (clntSock : ℤ) (ip : List Byte) :
    List (List Byte) → List (Option (List Byte) × Option (List Byte))
  | [] => []
  | first :: rds =>
    match (m.iterate clntSock ip (some first)).1 with
    | .connected _ => deliveries (.null []) rds
    | _ => []

/-! ### Frames -/

theorem isDelim_newline : isDelim newline = false := rfl

theorem text_open : text isDelim (bytes "[") = [] := rfl

theorem text_colon : text isDelim (bytes ":") = [] := rfl

theorem text_close : text isDelim (bytes "]") = [] := rfl

/-- The words of `idpasswd.txt` hold no newline. -/
theorem Word.ne_newline (w : Word) {b : Byte} (hb : b ∈ w.val) : b ≠ newline := by
  rintro rfl
  exact absurd (w.plain newline hb).2 (by decide)

/-- What a login frame is made of. -/
theorem Credentials.mem_frame {c : Credentials} {b : Byte} (h : b ∈ c.frame) :
    b ≠ 0 ∧ b ≠ newline := by
  have hpunct : ∀ b ∈ bytes "[:]", b ≠ 0 ∧ b ≠ newline := forall_mem_of_all rfl
  simp only [frame, List.mem_append] at h
  rcases h with (h | (h | h) | h) | h
  · exact hpunct b (List.mem_of_mem_take (i := 1) h)
  · exact ⟨(c.id.plain b h).1, c.id.ne_newline h⟩
  · exact hpunct b (List.mem_of_mem_drop (i := 1) (List.mem_of_mem_take (i := 1) h))
  · exact ⟨(c.pw.plain b h).1, c.pw.ne_newline h⟩
  · exact hpunct b (List.mem_of_mem_drop (i := 2) h)

theorem Credentials.text_frame (c : Credentials) :
    text isDelim c.frame = c.id.val ++ c.pw.val := by
  simp only [frame, text_append, text_open, text_colon, text_close, text_eq_self c.id_plain,
    text_eq_self c.pw_plain, List.nil_append, List.append_nil]

theorem Message.body_newline_plain (m : Message) :
    ∀ b ∈ m.body ++ [newline], isDelim b = false := by
  intro b hb
  rcases List.mem_append.mp hb with hb | hb
  · exact (m.body_plain b hb).1
  · rw [List.mem_singleton.mp hb]
    rfl

theorem Message.text_frame (m : Message) :
    text isDelim m.frame = m.dest ++ (m.body ++ [newline]) := by
  have hdest : text isDelim m.dest = m.dest := text_eq_self fun b hb => (m.dest_plain b hb).1
  rw [frame, text_append, text_append, text_append, text_open, text_close, hdest,
    text_eq_self m.body_newline_plain, List.nil_append, List.append_nil]

theorem Message.zero_notMem_frame (m : Message) : 0 ∉ m.frame := by
  intro h
  simp only [frame, List.mem_append, List.mem_singleton] at h
  rcases h with h | (h | h) | h | h
  · revert h
    decide
  · exact (m.dest_plain 0 h).2.1 rfl
  · revert h
    decide
  · exact (m.body_plain 0 h).2 rfl
  · revert h
    decide

/-- The tokens of a message, with delimiters around it. -/
theorem Message.tokens_eq (m : Message) {lead gap : List Byte} (hlead : ∀ b ∈ lead, isDelim b)
    (hgap : ∀ b ∈ gap, isDelim b) :
    tokens isDelim (lead ++ (m.dest ++ bytes "]" ++ (m.body ++ [newline])) ++ gap) =
      [m.dest, m.body ++ [newline]] := by
  have hdest : tokens isDelim m.dest = [m.dest] :=
    tokens_of_word m.dest_ne fun b hb => (m.dest_plain b hb).1
  have hbody : tokens isDelim (m.body ++ [newline]) = [m.body ++ [newline]] :=
    tokens_of_word (by simp) m.body_newline_plain
  rw [tokens_append_of_delims _ hgap, tokens_of_delims_append hlead, List.append_assoc,
    show bytes "]" ++ (m.body ++ [newline]) = ']'.toUInt8 :: (m.body ++ [newline]) from rfl,
    tokens_append_cons _ _ rfl, hdest, hbody]
  rfl

/-- A read that holds the two tokens of a message delivers it. -/
theorem firstTwo_eq_delivery (s : Scanner) {rd : List Byte} {m : Message} (h0 : 0 ∉ rd)
    (htok : tokens isDelim rd = [m.dest, m.body ++ [newline]]) :
    s.firstTwo rd = m.delivery :=
  firstTwo_of_tokens s (by rw [cString_of_not_mem h0]; exact htok)

/-! ### Reads that hold the text of the messages -/

/-- The induction runs along the reads. `gap` is what an earlier read has taken of the delimiters
of this one's message, `lead` what it has left of its own. -/
theorem deliveries_of_aligned (s : Scanner) {ms : List Message} {rds : List (List Byte)}
    {gap lead : List Byte} (hgap : ∀ b ∈ gap, isDelim b) (hlead : ∀ b ∈ lead, isDelim b)
    (hcut : gap ++ rds.flatten = lead ++ (ms.map Message.frame).flatten)
    (hzero : ∀ rd ∈ rds, 0 ∉ rd)
    (htext : rds.map (text isDelim) = (ms.map Message.frame).map (text isDelim)) :
    deliveries s rds = ms.map Message.delivery := by
  induction ms generalizing s rds gap lead with
  | nil =>
    obtain rfl : rds = [] := by simpa using htext
    rfl
  | cons m ms ih =>
    cases rds with
    | nil => simp at htext
    | cons rd rds =>
      obtain ⟨hrd, hrds⟩ := List.cons.inj htext
      have hcut' : (gap ++ rd) ++ rds.flatten = (lead ++ bytes "[") ++
          (m.dest ++ bytes "]" ++ (m.body ++ [newline])) ++ (ms.map Message.frame).flatten := by
        simpa [Message.frame] using hcut
      have hlead' : ∀ b ∈ lead ++ bytes "[", isDelim b := by
        intro b hb
        rcases List.mem_append.mp hb with hb | hb
        · exact hlead b hb
        · rw [List.mem_singleton.mp hb]
          rfl
      have hgap0 : text isDelim gap = [] := text_eq_nil_iff.mpr hgap
      obtain ⟨gap', hread, hrest, hgap'⟩ := split_at_text hcut'
        (by rw [text_append, hgap0, List.nil_append]
            exact hrd.trans (by rw [Message.frame, text_append, text_open, List.nil_append]))
        hlead' (by simp [isDelim_newline]) (by simp)
      have htok : tokens isDelim rd = [m.dest, m.body ++ [newline]] := by
        rw [← tokens_of_delims_append hgap, hread, m.tokens_eq hlead' hgap']
      have hfirst := firstTwo_eq_delivery s.clear (hzero rd List.mem_cons_self) htok
      rw [deliveries, hfirst, List.map_cons]
      have hnil : ∀ b ∈ ([] : List Byte), isDelim b := by simp
      refine congrArg _ (ih (s.clear.scan rd) hgap' hnil hrest.symm ?_ hrds)
      exact fun rd' h => hzero rd' (List.mem_cons_of_mem rd h)

/-! ### Reads that deliver the messages -/

/-- Each read that delivers its message has it as its first two tokens. -/
theorem tokens_of_deliveries {s : Scanner} {rds : List (List Byte)} {ms : List Message}
    (h : deliveries s rds = ms.map Message.delivery) (hzero : ∀ rd ∈ rds, 0 ∉ rd) :
    List.Forall₂ (fun m rd => ∃ rest, tokens isDelim rd = m.dest :: (m.body ++ [newline]) :: rest)
      ms rds := by
  induction ms generalizing s rds with
  | nil =>
    cases rds with
    | nil => exact .nil
    | cons rd rds => cases h
  | cons m ms ih =>
    cases rds with
    | nil => cases h
    | cons rd rds =>
      obtain ⟨hrd, hrds⟩ := List.cons.inj h
      refine .cons ?_ (ih hrds fun rd' h' => hzero rd' (List.mem_cons_of_mem rd h'))
      exact tokens_of_firstTwo_clear hrd (hzero rd List.mem_cons_self) isDelim_newline
        (List.mem_append_right _ (List.mem_singleton_self newline))
        fun hmem => (m.dest_plain newline hmem).2.2 rfl

theorem Message.text_prefix {m : Message} {rd : List Byte} {rest : List (List Byte)}
    (h : tokens isDelim rd = m.dest :: (m.body ++ [newline]) :: rest) :
    text isDelim m.frame <+: text isDelim rd := by
  rw [m.text_frame, ← flatten_tokens rd, h]
  exact ⟨rest.flatten, by simp⟩

/-- If the first message is delivered, the login read holds the text of the login frame. A rest of
the id or the password would come first in the next read, and the second token there would be one
without a newline. -/
theorem text_login_prefix {c : Credentials} {m : Message} {first rd q rest : List Byte}
    (hcut : first ++ (rd ++ q) = c.frame ++ (m.frame ++ rest))
    (htok : ∃ more, tokens isDelim rd = m.dest :: (m.body ++ [newline]) :: more) :
    text isDelim c.frame <+: text isDelim first := by
  rcases List.append_eq_append_iff.mp hcut with ⟨s, hs, hnext⟩ | ⟨s, hs, -⟩
  · -- `s` is what the login read leaves of the frame
    have hs0 : text isDelim s = [] := by
      by_contra hne
      have hs1 : tokens isDelim s ≠ [] := fun h => hne (by rw [← flatten_tokens, h]; rfl)
      have hcut' : rd ++ q = (s ++ '['.toUInt8 :: m.dest) ++
          ']'.toUInt8 :: (m.body ++ [newline] ++ rest) := by
        rw [hnext, Message.frame, show bytes "[" = ['['.toUInt8] from rfl,
          show bytes "]" = [']'.toUInt8] from rfl]
        simp
      have hdest : tokens isDelim m.dest = [m.dest] :=
        tokens_of_word m.dest_ne fun b hb => (m.dest_plain b hb).1
      have htwo : 1 < (tokens isDelim (s ++ '['.toUInt8 :: m.dest)).length := by
        rw [tokens_append_cons _ _ rfl, hdest, List.length_append, List.length_singleton]
        have := List.length_pos_iff.mpr hs1
        omega
      obtain ⟨more, hmore⟩ := htok
      have hsub := subset_of_getElem?_tokens hcut' rfl htwo
        (show (tokens isDelim rd)[1]? = some (m.body ++ [newline]) by rw [hmore]; rfl)
      have hnl := hsub (List.mem_append_right _ (List.mem_singleton_self newline))
      rcases List.mem_append.mp hnl with hnl | hnl
      · have hmem : newline ∈ c.frame := by
          rw [hs]
          exact List.mem_append_right _ hnl
        exact (Credentials.mem_frame hmem).2 rfl
      · rcases List.mem_cons.mp hnl with hnl | hnl
        · exact absurd hnl (by decide)
        · exact (m.dest_plain newline hnl).2.2 rfl
    have htext : text isDelim c.frame = text isDelim first := by
      rw [hs, text_append, hs0, List.append_nil]
    exact htext ▸ List.prefix_rfl
  · rw [hs, text_append]
    exact List.prefix_append ..

/-! ### The two directions -/

/-- The reads hold, one for one, the text of the frames. -/
def Aligned (c : Credentials) (ms : List Message) (pieces : List (List Byte)) : Prop :=
  pieces.map (text isDelim) = (frames c ms).map (text isDelim)

instance (c : Credentials) (ms : List Message) (pieces : List (List Byte)) :
    Decidable (Aligned c ms pieces) :=
  inferInstanceAs (Decidable (_ = _))

/-- A read whose first two strings admit nobody leads to no delivery. -/
def TurnedAway (m : MainState) (first : List Byte) : Prop :=
  ∀ id pw i, m.buffer.firstTwo first = (some id, some pw) → ¬m.table.admits id pw i

section Relay

variable {m : MainState} {clntSock : ℤ} {first : List Byte} (hserves : m.Serves clntSock first)
  (ip : List Byte) (rds : List (List Byte))
include hserves

theorem relay_of_admits {id pw : List Byte} {i : Fin maxClnt}
    (hfirst : m.buffer.firstTwo first = (some id, some pw)) (hadm : m.table.admits id pw i) :
    relay m clntSock ip (first :: rds) = deliveries (.null []) rds := by
  have h : (m.iterate clntSock ip (some first)).1 = .connected i := by
    rw [iterate_of_serves hserves, conclude_fst]
    exact (authenticate_connected_iff hserves.2.2).mpr ⟨id, pw, hfirst, hadm⟩
  rw [relay, h]

theorem relay_of_turnedAway (h : TurnedAway m first) :
    relay m clntSock ip (first :: rds) = [] := by
  rw [relay]
  split
  · rename_i i hi
    rw [iterate_of_serves hserves, conclude_fst] at hi
    obtain ⟨id, pw, hfirst, hadm⟩ := (authenticate_connected_iff hserves.2.2).mp hi
    exact absurd hadm (h id pw i hfirst)
  · rfl

end Relay

/-- An aligned login read is looked up as the credentials, and takes with it some of the delimiters
that follow. -/
theorem firstTwo_of_aligned (s : Scanner) {c : Credentials} {first q rest : List Byte}
    (h0 : 0 ∉ first) (hcut : first ++ q = c.frame ++ rest)
    (htext : text isDelim first = text isDelim c.frame) :
    s.firstTwo first = (some c.id.val, some c.pw.val) ∧
      ∃ gap, (∀ b ∈ gap, isDelim b) ∧ gap ++ q = bytes "]" ++ rest := by
  have hopen : ∀ b ∈ bytes "[", isDelim b := forall_mem_of_all rfl
  have hcut' : first ++ q =
      bytes "[" ++ (c.id.val ++ bytes ":" ++ c.pw.val) ++ (bytes "]" ++ rest) := by
    rw [hcut, Credentials.frame]
    simp
  have htext' : text isDelim first = text isDelim (c.id.val ++ bytes ":" ++ c.pw.val) := by
    rw [htext, Credentials.frame, text_append, text_append, text_open, text_close,
      List.nil_append, List.append_nil]
  have hlast : ∀ b ∈ (c.id.val ++ bytes ":" ++ c.pw.val).getLast?, isDelim b = false := by
    intro b hb
    rw [List.getLast?_append_of_ne_nil _ c.pw_ne] at hb
    exact c.pw_plain b (List.mem_of_getLast? hb)
  obtain ⟨gap, hfirst, hrest, hgap⟩ := split_at_text hcut' htext' hopen hlast (by simp [c.pw_ne])
  have htok : tokens isDelim (cString first) = [c.id.val, c.pw.val] := by
    rw [cString_of_not_mem h0, hfirst, tokens_append_of_delims _ hgap,
      tokens_of_delims_append hopen, List.append_assoc,
      show bytes ":" ++ c.pw.val = ':'.toUInt8 :: c.pw.val from rfl,
      tokens_append_cons _ _ rfl, tokens_of_word c.id_ne c.id_plain,
      tokens_of_word c.pw_ne c.pw_plain]
    rfl
  exact ⟨firstTwo_of_tokens s htok, gap, hgap, hrest.symm⟩

/-- If the messages are delivered, the reads hold the text of the frames. -/
theorem aligned_of_deliveries {s : Scanner} {c : Credentials} {ms : List Message}
    {first : List Byte} {rds : List (List Byte)}
    (hcut : (first :: rds).flatten = (frames c ms).flatten) (hzero : ∀ rd ∈ rds, 0 ∉ rd)
    (h : deliveries s rds = ms.map Message.delivery) : Aligned c ms (first :: rds) := by
  have htok := tokens_of_deliveries h hzero
  have hlogin : text isDelim c.frame <+: text isDelim first := by
    cases htok with
    | nil =>
      have hfirst : first = c.frame := by simpa [frames] using hcut
      exact hfirst ▸ List.prefix_rfl
    | @cons m rd ms rds hrd _ =>
      have hcut' : first ++ (rd ++ rds.flatten) =
          c.frame ++ (m.frame ++ (ms.map Message.frame).flatten) := by simpa [frames] using hcut
      exact text_login_prefix hcut' hrd
  have hprefix : List.Forall₂ (fun b p => b <+: p) ((frames c ms).map (text isDelim))
      ((first :: rds).map (text isDelim)) := by
    rw [frames, List.map_cons, List.map_cons, List.map_map]
    refine .cons hlogin ?_
    rw [List.forall₂_map_left_iff, List.forall₂_map_right_iff]
    exact htok.imp fun m rd ⟨rest, hrest⟩ => Message.text_prefix hrest
  refine (eq_of_prefixes hprefix ?_).symm
  rw [← text_flatten, ← text_flatten, hcut]

/-- **What the server delivers for a stream cut by `read`.** It delivers exactly the messages if
and only if the reads hold, one for one, the text of the frames, or there is no message and the
login read is turned away. -/
theorem relay_eq_iff (m : MainState) (clntSock : ℤ) (ip : List Byte) (c : Credentials)
    (ms : List Message) (pieces : List (List Byte)) {i : Fin maxClnt}
    (hcut : pieces.flatten = (frames c ms).flatten) (hpieces : ∀ p ∈ pieces, p ≠ [])
    (hcnt : m.clntCnt < maxClnt) (hsock : 0 ≤ clntSock)
    (hvalid : m.table.admits c.id.val c.pw.val i) :
    relay m clntSock ip pieces = ms.map Message.delivery ↔
      Aligned c ms pieces ∨ ms = [] ∧ ∀ first ∈ pieces.head?, TurnedAway m first := by
  obtain ⟨first, rds, rfl⟩ : ∃ first rds, pieces = first :: rds := by
    cases pieces with
    | nil => simp [frames, Credentials.frame, bytes] at hcut
    | cons first rds => exact ⟨first, rds, rfl⟩
  have hserves : m.Serves clntSock first := ⟨hcnt, hsock, hpieces first List.mem_cons_self⟩
  have hzero : ∀ p ∈ first :: rds, 0 ∉ p := by
    intro p hp h0
    have hmem : 0 ∈ (frames c ms).flatten := by
      rw [← hcut]
      exact List.mem_flatten.mpr ⟨p, hp, h0⟩
    obtain ⟨f, hf, h0f⟩ := List.mem_flatten.mp hmem
    rcases List.mem_cons.mp hf with rfl | hf
    · exact (Credentials.mem_frame h0f).1 rfl
    · obtain ⟨msg, -, rfl⟩ := List.mem_map.mp hf
      exact msg.zero_notMem_frame h0f
  have hzero' : ∀ p ∈ rds, 0 ∉ p := fun p hp => hzero p (List.mem_cons_of_mem first hp)
  constructor
  · intro h
    by_cases haway : TurnedAway m first
    · rw [relay_of_turnedAway hserves ip rds haway] at h
      refine .inr ⟨by simpa using h.symm, ?_⟩
      intro first' hfirst'
      exact Option.some.inj hfirst' ▸ haway
    · simp only [TurnedAway, not_forall, not_not] at haway
      obtain ⟨id, pw, j, hfirst, hadm⟩ := haway
      rw [relay_of_admits hserves ip rds hfirst hadm] at h
      exact .inl (aligned_of_deliveries hcut hzero' h)
  · rintro (hal | ⟨rfl, haway⟩)
    · obtain ⟨hhead, htail⟩ := List.cons.inj hal
      obtain ⟨hfirst, gap, hgap, hrest⟩ := firstTwo_of_aligned m.buffer
        (hzero first List.mem_cons_self) hcut hhead
      rw [relay_of_admits hserves ip rds hfirst hvalid]
      exact deliveries_of_aligned _ hgap (forall_mem_of_all rfl) hrest hzero' htail
    · exact relay_of_turnedAway hserves ip rds (haway first rfl)

/-- The credentials of `DBCLIENT`. -/
def dbclient : Credentials :=
  ⟨.ofString "DBCLIENT", .ofString "PASSWD", List.cons_ne_nil _ _, List.cons_ne_nil _ _,
    forall_mem_of_all rfl, forall_mem_of_all rfl⟩

/-- A message to `QTCLIENT`. -/
def toQtclient (body : List Byte) (hne : body ≠ [])
    (hplain : ∀ b ∈ body, isDelim b = false ∧ b ≠ 0) : Message :=
  ⟨bytes "QTCLIENT", body, List.cons_ne_nil _ _, hne, forall_mem_of_all rfl, hplain⟩

/-- Two detections in a row. -/
def detections : List Message :=
  [toQtclient (bytes "Q@1") (List.cons_ne_nil _ _) (forall_mem_of_all rfl),
    toQtclient (bytes "W@2") (List.cons_ne_nil _ _) (forall_mem_of_all rfl)]

theorem relay_eq_iff_witness :
    relay .startUp 4 (bytes "10.10.141.9")
      [bytes "[DBCLIENT:PASSWD", bytes "][QTCLIENT]Q@1\n[", bytes "QTCLIENT]W@2\n"] =
        detections.map Message.delivery := by
  have hvalid : MainState.startUp.table.admits dbclient.id.val dbclient.pw.val 2 := ⟨rfl, rfl⟩
  exact (relay_eq_iff .startUp 4 (bytes "10.10.141.9") dbclient detections _ (by decide) (by decide)
    (by decide) (by decide) hvalid).mpr (.inl rfl)

/-- Both messages arrive in one read: the second is lost. -/
theorem relay_ne_coalesced :
    [bytes "[DBCLIENT:PASSWD]", bytes "[QTCLIENT]Q@1\n[QTCLIENT]W@2\n"].flatten =
        (frames dbclient detections).flatten ∧
      relay .startUp 4 (bytes "10.10.141.9")
        [bytes "[DBCLIENT:PASSWD]", bytes "[QTCLIENT]Q@1\n[QTCLIENT]W@2\n"] =
          [(some (bytes "QTCLIENT"), some (bytes "Q@1\n"))] ∧
      detections.map Message.delivery =
        [(some (bytes "QTCLIENT"), some (bytes "Q@1\n")),
          (some (bytes "QTCLIENT"), some (bytes "W@2\n"))] :=
  ⟨rfl, rfl, rfl⟩

end Relay

end DroneTurret
