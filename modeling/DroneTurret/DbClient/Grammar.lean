import DroneTurret.DbClient.Record

/-!
# The payloads that are recorded

The grammar of an event, stated without the parser: a letter of the key map in either case, `@`, and
a level of one digit or of one digit behind an `L`, with white space anywhere between the three and
around the whole. The parser is exact on the copy it works on. The copy is made in an array of
`BUF_SIZE` bytes, though, where a payload has room for more than twice as many, so the cut can take
the level away from an event and can take the rest away from what is none.

## Main definitions

* `Denotes` — the grammar, with the event
* `Passed` — the payloads that `recv_msg` passes on

## Main results

* `handleFromRpi_eq_some_iff` — the parser is exact on the first 99 bytes
* `denotes_exactly_iff` — the payloads for which that is enough
-/

namespace DroneTurret

namespace DbClient

open CString Relay Trim

/-- White space, or nothing. -/
def Blank (s : List Byte) : Prop := ∀ b ∈ s, isSpace b

/-- The ways to write a level. -/
def levelSpellings (level : ℕ) : List (List Byte) :=
  [Decimal.digits level, bytes "L" ++ Decimal.digits level, bytes "l" ++ Decimal.digits level]

/-- A payload of the grammar: its letter and its level, and the white space around them. -/
structure Spelling (payload : List Byte) (e : SectorEvent) where
  front : List Byte
  key : Byte
  left : List Byte
  right : List Byte
  level : List Byte
  back : List Byte
  eq : payload = front ++ (key :: (left ++ atSign :: (right ++ level))) ++ back
  blanks : (Blank front ∧ Blank left) ∧ Blank right ∧ Blank back
  /-- The letter in upper case, or in lower case. -/
  locate : e.locate ∈ bytes "QWEASDZXC" ∧ (key = e.locate ∨ key = e.locate + 32)
  digit : e.level ∈ [1, 2, 3]
  spelled : level ∈ levelSpellings e.level

/-- The payload is of the grammar and denotes the event. -/
def Denotes (payload : List Byte) (e : SectorEvent) : Prop := Nonempty (Spelling payload e)

/-- A payload that `recv_msg` passes to `handle_from_rpi` for some reads. -/
def Passed (payload : List Byte) : Prop :=
  ∃ rds tag, (∀ rd ∈ rds, rd.length < payloadSize) ∧ ⟨.fromRpi, tag, payload⟩ ∈ recvMsg [] rds

/-! ### Letters and levels -/

/-- The test on the letter, by the letter that is inserted. -/
theorem isValidLoc_toupper_iff {c k : Byte} :
    isValidLoc (toupper c) ∧ k = toupper c ↔
      k ∈ bytes "QWEASDZXC" ∧ (c = k ∨ c = k + 32) := by
  constructor
  · rintro ⟨hc, rfl⟩
    have hall : ∀ n : Fin 256, isValidLoc (toupper ⟨⟨n⟩⟩) →
        toupper ⟨⟨n⟩⟩ ∈ bytes "QWEASDZXC" ∧
          ((⟨⟨n⟩⟩ : Byte) = toupper ⟨⟨n⟩⟩ ∨ (⟨⟨n⟩⟩ : Byte) = toupper ⟨⟨n⟩⟩ + 32) := by
      decide +kernel
    exact hall c.toFin hc
  · rintro ⟨hk, hc⟩
    have hall : ∀ k ∈ bytes "QWEASDZXC", (isValidLoc (toupper k) ∧ k = toupper k) ∧
        (isValidLoc (toupper (k + 32)) ∧ k = toupper (k + 32)) := forall_mem_of_all rfl
    rcases hc with rfl | rfl
    · exact (hall _ hk).1
    · exact (hall _ hk).2

/-- A letter of the grammar is neither white space nor the separator. -/
theorem key_plain {c k : Byte} (hk : k ∈ bytes "QWEASDZXC") (hc : c = k ∨ c = k + 32) :
    isSpace c = false ∧ c ≠ atSign := by
  have hall : ∀ k ∈ bytes "QWEASDZXC", (isSpace k = false ∧ k ≠ atSign) ∧
      (isSpace (k + 32) = false ∧ k + 32 ≠ atSign) := forall_mem_of_all rfl
  rcases hc with rfl | rfl
  · exact (hall _ hk).1
  · exact (hall _ hk).2

theorem levelOf_eq_some_iff {s : List Byte} {n : ℕ} :
    levelOf s = some n ↔ n ∈ [1, 2, 3] ∧ s ∈ levelSpellings n := by
  have hdigit : ∀ c, isValidLevelDigit c → c.toNat - 48 ∈ [1, 2, 3] ∧
      Decimal.digits (c.toNat - 48) = [c] := by
    intro c hc
    have hall : ∀ n : Fin 256, isValidLevelDigit ⟨⟨n⟩⟩ →
        (⟨⟨n⟩⟩ : Byte).toNat - 48 ∈ [1, 2, 3] ∧
          Decimal.digits ((⟨⟨n⟩⟩ : Byte).toNat - 48) = [⟨⟨n⟩⟩] := by decide +kernel
    exact hall c.toFin hc
  constructor
  · intro h
    match s with
    | [] => cases h
    | [c] =>
      rw [levelOf] at h
      split_ifs at h with hc
      obtain rfl := Option.some.inj h
      rw [levelSpellings, (hdigit c hc).2]
      exact ⟨(hdigit c hc).1, List.mem_cons_self⟩
    | [l, c] =>
      rw [levelOf] at h
      split_ifs at h with hc
      obtain rfl := Option.some.inj h
      rw [levelSpellings, (hdigit c hc.2).2]
      refine ⟨(hdigit c hc.2).1, List.mem_cons_of_mem _ ?_⟩
      rcases hc.1 with rfl | rfl
      · exact List.mem_cons_self
      · exact List.mem_cons_of_mem _ List.mem_cons_self
    | _ :: _ :: _ :: _ => cases h
  · rintro ⟨hn, hs⟩
    have hall : ∀ n ∈ [1, 2, 3], ∀ s ∈ levelSpellings n, levelOf s = some n := by decide
    exact hall n hn s hs

/-- A level starts and ends with no white space, and no level is the beginning of another. -/
theorem level_plain {n : ℕ} (hn : n ∈ [1, 2, 3]) {s : List Byte} (hs : s ∈ levelSpellings n) :
    s ≠ [] ∧ Tight isSpace s := by
  have hall : ∀ n ∈ [1, 2, 3], ∀ s ∈ levelSpellings n, s ≠ [] ∧
      (∀ b ∈ s.head?, isSpace b = false) ∧ ∀ b ∈ s.getLast?, isSpace b = false := by
    decide +kernel
  obtain ⟨hne, hhead, hlast⟩ := hall n hn s hs
  exact ⟨hne, hhead, hlast⟩

theorem level_eq_of_prefix {m n : ℕ} (hm : m ∈ [1, 2, 3]) (hn : n ∈ [1, 2, 3]) {s t : List Byte}
    (hs : s ∈ levelSpellings m) (ht : t ∈ levelSpellings n) (h : s <+: t) : s = t := by
  have hall : ∀ m ∈ [1, 2, 3], ∀ n ∈ [1, 2, 3], ∀ s ∈ levelSpellings m, ∀ t ∈ levelSpellings n,
      s <+: t → s = t := by decide
  exact hall m hm n hn s hs t ht h

/-! ### The parser -/

/-- What the grammar asks of a text without white space around it. -/
theorem Spelling.tight {t : List Byte} {e : SectorEvent} (s : Spelling t e) :
    Tight isSpace (s.key :: (s.left ++ atSign :: (s.right ++ s.level))) := by
  obtain ⟨hne, hlevel⟩ := level_plain s.digit s.spelled
  refine ⟨fun b hb => ?_, fun b hb => ?_⟩
  · rw [← Option.some.inj hb]
    exact (key_plain s.locate.1 s.locate.2).1
  · have hsplit : s.key :: (s.left ++ atSign :: (s.right ++ s.level)) =
        (s.key :: (s.left ++ atSign :: s.right)) ++ s.level := by simp
    rw [hsplit, List.getLast?_append_of_ne_nil _ hne] at hb
    exact hlevel.last b hb

/-- No separator stands in front of the one behind the letter. -/
theorem Spelling.first {t : List Byte} {e : SectorEvent} (s : Spelling t e) :
    atSign ∉ s.front ++ s.key :: s.left := by
  have hblank : ∀ {u}, Blank u → atSign ∉ u := fun hu h => absurd (hu _ h) (by decide)
  intro h
  rcases List.mem_append.mp h with h | h
  · exact hblank s.blanks.1.1 h
  · rcases List.mem_cons.mp h with h | h
    · exact (key_plain s.locate.1 s.locate.2).2 h.symm
    · exact hblank s.blanks.1.2 h

/-- **The parser is exact.** -/
theorem parse_eq_some_iff {t : List Byte} {e : SectorEvent} : parse t = some e ↔ Denotes t e := by
  constructor
  · intro h
    rw [parse] at h
    split at h
    · cases h
    · rename_i loc lvl hsplit
      split at h
      · rename_i c hloc
        split_ifs at h with hc
        obtain ⟨n, hn, rfl⟩ := Option.map_eq_some_iff.mp h
        obtain ⟨rfl, -⟩ := memchr_eq_some_iff.mp hsplit
        rw [trimInplace_eq] at hloc
        obtain ⟨front, left, rfl, hfront, hleft, -⟩ := trim_eq_iff.mp hloc
        obtain ⟨right, back, hlvl, hright, hback, -⟩ :=
          trim_eq_iff.mp (trimInplace_eq lvl).symm
        obtain ⟨hdigit, hspelled⟩ := levelOf_eq_some_iff.mp hn
        exact ⟨{
          front, key := c, left, right, level := trimInplace lvl, back
          eq := by conv_lhs => rw [hlvl]
                   simp
          blanks := ⟨⟨hfront, hleft⟩, hright, hback⟩
          locate := isValidLoc_toupper_iff.mp ⟨hc, rfl⟩
          digit := hdigit
          spelled := hspelled }⟩
      · cases h
  · rintro ⟨s⟩
    have hsplit : memchr t atSign =
        some (s.front ++ [s.key] ++ s.left, s.right ++ s.level ++ s.back) := by
      refine memchr_eq_some_iff.mpr ⟨s.eq.trans ?_, ?_⟩
      · simp
      · simpa using s.first
    have hkey : Tight isSpace [s.key] := by
      have hplain := (key_plain s.locate.1 s.locate.2).1
      exact ⟨fun b hb => Option.some.inj hb ▸ hplain, fun b hb => Option.some.inj hb ▸ hplain⟩
    have hloc : trimInplace (s.front ++ [s.key] ++ s.left) = [s.key] := by
      rw [trimInplace_eq]
      exact trim_eq s.blanks.1.1 s.blanks.1.2 hkey
    have hlvl : trimInplace (s.right ++ s.level ++ s.back) = s.level := by
      rw [trimInplace_eq]
      exact trim_eq s.blanks.2.1 s.blanks.2.2 (level_plain s.digit s.spelled).2
    obtain ⟨hvalid, hupper⟩ := isValidLoc_toupper_iff.mpr s.locate
    rw [parse, hsplit]
    dsimp only
    rw [hloc]
    dsimp only
    rw [hlvl, if_pos hvalid, levelOf_eq_some_iff.mpr ⟨s.digit, s.spelled⟩, ← hupper]
    rfl

/-- White space around a text makes no difference to the grammar. -/
theorem denotes_trim_iff {t : List Byte} {e : SectorEvent} :
    Denotes (trim isSpace t) e ↔ Denotes t e := by
  constructor
  · rintro ⟨s⟩
    obtain ⟨lead, tail, ht, hlead, htail, -⟩ := trim_decomp (p := isSpace) t
    exact ⟨{ s with
      front := lead ++ s.front
      back := s.back ++ tail
      eq := by conv_lhs => rw [ht, s.eq]
               simp
      blanks := ⟨⟨List.forall_mem_append.mpr ⟨hlead, s.blanks.1.1⟩, s.blanks.1.2⟩,
        s.blanks.2.1, List.forall_mem_append.mpr ⟨s.blanks.2.2, htail⟩⟩ }⟩
  · rintro ⟨s⟩
    exact ⟨{ s with
      front := []
      back := []
      eq := by conv_lhs => rw [s.eq, trim_eq s.blanks.1.1 s.blanks.2.2 s.tight]
               simp
      blanks := ⟨⟨List.forall_mem_nil _, s.blanks.1.2⟩, s.blanks.2.1, List.forall_mem_nil _⟩ }⟩

theorem not_denotes_nil (e : SectorEvent) : ¬Denotes [] e := by
  rintro ⟨s⟩
  exact absurd s.eq (by simp)

/-- **What is recorded for a payload** is what its first 99 bytes denote. -/
theorem handleFromRpi_eq_some_iff {payload : List Byte} (h0 : 0 ∉ payload) {e : SectorEvent} :
    handleFromRpi payload = some e ↔ Denotes (payload.take (bufSize - 1)) e := by
  rw [handleFromRpi, cString_of_not_mem h0]
  by_cases hnil : payload = []
  · rw [if_pos hnil, hnil]
    exact iff_of_false (Option.some_ne_none e).symm (not_denotes_nil e)
  · rw [if_neg hnil, parse_eq_some_iff, trimInplace_eq, denotes_trim_iff]

/-! ### What the cut changes -/

/-- An event whose level is cut off is none any more. -/
theorem not_denotes_take {payload : List Byte} (htight : Tight isSpace payload) {n : ℕ}
    (hn : n < payload.length) {e e' : SectorEvent} (h : Denotes payload e) :
    ¬Denotes (payload.take n) e' := by
  obtain ⟨s⟩ := h
  rintro ⟨s'⟩
  obtain ⟨rest, hrest⟩ : ∃ rest, rest = payload.drop n := ⟨_, rfl⟩
  -- the separator is the same, so what follows it is the level, with what has been cut off
  have hcut : (s'.front ++ s'.key :: s'.left) ++ atSign ::
      (s'.right ++ s'.level ++ s'.back ++ rest) =
      (s.front ++ s.key :: s.left) ++ atSign :: (s.right ++ s.level ++ s.back) := by
    have hwhole := List.take_append_drop n payload
    rw [← hrest, s'.eq] at hwhole
    simpa using hwhole.trans s.eq
  obtain ⟨-, hlevel⟩ := eq_of_first hcut s'.first s.first
  obtain ⟨hne, htight'⟩ := level_plain s'.digit s'.spelled
  have hshort : trim isSpace (s'.right ++ s'.level ++ s'.back) = s'.level :=
    trim_eq s'.blanks.2.1 s'.blanks.2.2 htight'
  have hlong : trim isSpace (s'.right ++ s'.level ++ s'.back ++ rest) = s.level := by
    rw [hlevel]
    exact trim_eq s.blanks.2.1 s.blanks.2.2 (level_plain s.digit s.spelled).2
  have hprefix : s'.level <+: s.level := by
    rw [← hshort, ← hlong]
    exact trim_isPrefix (by rwa [hshort]) rest
  -- so nothing but white space has been cut off, and the payload does not end in any
  have hsame := level_eq_of_prefix s'.digit s.digit s'.spelled s.spelled hprefix
  have hblank : ∀ b ∈ rest, isSpace b := by
    refine (trim_append_eq_iff (s'.right ++ s'.level ++ s'.back) rest).mp ?_
    rw [hlong, hshort, hsame]
  have hrest' : rest ≠ [] := by
    rw [hrest]
    exact List.ne_nil_of_length_pos (by rw [List.length_drop]; omega)
  have hlast : payload.getLast? = some (rest.getLast hrest') := by
    conv_lhs => rw [← List.take_append_drop n payload, ← hrest]
    rw [List.getLast?_append_of_ne_nil _ hrest', List.getLast?_eq_some_getLast hrest']
  have hend := htight.last _ hlast
  rw [hblank _ (List.getLast_mem hrest')] at hend
  cases hend

/-- The calls of a stream of reads are calls for a tag and a payload that fits its array. -/
theorem exists_of_mem_recvMsg {accum : List Byte} {rds : List (List Byte)} {c : Call}
    (h : c ∈ recvMsg accum rds) :
    ∃ tag payload, payload.length < payloadSize ∧ dispatch tag payload = some c := by
  -- what is copied of a payload fits
  have hsplit : ∀ n s, ∀ f ∈ (split n s).1, f.2.length < payloadSize := by
    intro n
    induction n with
    | zero => exact fun s f hf => absurd hf List.not_mem_nil
    | succ n ih =>
      intro s f hf
      rw [split] at hf
      split at hf
      · exact absurd hf List.not_mem_nil
      · split at hf
        · exact absurd hf List.not_mem_nil
        · rcases List.mem_cons.mp hf with rfl | hf
          · exact (List.length_take_le _ _).trans_lt (by decide)
          · exact ih _ f hf
  induction rds generalizing accum with
  | nil => cases h
  | cons rd rds ih =>
    rw [recvMsg] at h
    split_ifs at h
    · cases h
    · rcases List.mem_append.mp h with h | h
      · obtain ⟨f, hf, hc⟩ := List.mem_filterMap.mp h
        exact ⟨f.1, f.2, hsplit _ _ f hf, hc⟩
      · exact ih h

/-- A payload that is passed on is a trimmed string that fits its array. -/
theorem Passed.plain {payload : List Byte} (h : Passed payload) :
    0 ∉ payload ∧ payload.length < payloadSize ∧ Tight isSpace payload := by
  obtain ⟨rds, tag, -, hcall⟩ := h
  obtain ⟨tag', text, hlen, hdispatch⟩ := exists_of_mem_recvMsg hcall
  rw [dispatch_eq] at hdispatch
  obtain ⟨_, -, heq⟩ := Option.map_eq_some_iff.mp hdispatch
  obtain rfl : trim isSpace (cString text) = payload := congrArg Call.payload heq
  have hsub : (trim isSpace (cString text)).Sublist (cString text) :=
    (List.rdropWhile_prefix _ _).sublist.trans (List.dropWhile_suffix _).sublist
  refine ⟨fun h0 => zero_notMem_cString text (hsub.subset h0), ?_, tight_trim _⟩
  exact (hsub.length_le.trans (length_cString_le text)).trans_lt hlen

/-- **Exactness.** A payload is recorded as the event it denotes, and not at all if it denotes none,
exactly when it fits the copy, or when neither it nor its first 99 bytes are of the grammar. -/
theorem denotes_exactly_iff {payload : List Byte} (h : Passed payload) :
    (∀ e, handleFromRpi payload = some e ↔ Denotes payload e) ↔
      payload.length ≤ bufSize - 1 ∨
        ∀ e, ¬Denotes payload e ∧ ¬Denotes (payload.take (bufSize - 1)) e := by
  obtain ⟨h0, -, htight⟩ := h.plain
  simp only [handleFromRpi_eq_some_iff h0]
  constructor
  · intro hexact
    rw [or_iff_not_imp_left, not_le]
    intro hlong e
    have hnone : ¬Denotes payload e := fun he =>
      not_denotes_take htight hlong he ((hexact e).mpr he)
    exact ⟨hnone, fun he => hnone ((hexact e).mp he)⟩
  · rintro (hshort | hnone) e
    · rw [List.take_of_length_le hshort]
    · exact iff_of_false (hnone e).2 (hnone e).1

/-- An event, white space up to the 99th byte, and one byte more. -/
def overlong : List Byte := bytes "Q@1" ++ List.replicate 96 32 ++ bytes "x"

theorem passed_overlong : Passed overlong := by
  refine ⟨[bytes "[RASPBERRYPI]" ++ overlong], bytes "RASPBERRYPI", ?_, ?_⟩
  · decide +kernel
  · decide +kernel

theorem passed_short : Passed (bytes "Q@1") :=
  ⟨[bytes "[RASPBERRYPI]Q@1\n"], bytes "RASPBERRYPI", by decide, by decide⟩

theorem denotes_exactly_witness :
    handleFromRpi (bytes "Q@1") = some ⟨'Q'.toUInt8, 1⟩ ↔ Denotes (bytes "Q@1") ⟨'Q'.toUInt8, 1⟩ :=
  (denotes_exactly_iff passed_short).mpr (.inl (by decide)) _

/-- What is behind the 99th byte is not looked at. -/
theorem not_denotes_exactly :
    ¬∀ payload, Passed payload → ∀ e, handleFromRpi payload = some e ↔ Denotes payload e := by
  intro h
  have hrecorded : handleFromRpi overlong = some ⟨'Q'.toUInt8, 1⟩ := by decide +kernel
  obtain ⟨s⟩ := (h overlong passed_overlong _).mp hrecorded
  have hnone : parse overlong = none := by decide +kernel
  have hsome := parse_eq_some_iff.mpr ⟨s⟩
  rw [hnone] at hsome
  cases hsome

end DbClient

end DroneTurret
