import DroneTurret.Lib.Trim
import DroneTurret.Relay.Connection

/-!
# What an earlier message leaves behind

`clnt_connection` clears `msg` before each `read` but keeps `pArray` from message to message. A
message with two tokens writes both entries that are used and is relayed as if it were the first.
One with fewer is relayed with the offsets of an older message, and which message that was makes a
difference for every such text.

`exposed` is what such an offset makes of a message. It can be more than a token: delimiters in
front of the first token are not overwritten, and neither is anything behind a NUL.

## Main results

* `msgInfo_of_tokens` — what is handed on for a message with two tokens
* `stringAt_tokenized` — what a leftover offset denotes in a message with fewer
* `history_independent_iff` — the messages that no history changes are those with two tokens
-/

namespace DroneTurret

namespace Relay

open CString Tokens

/-- The arrays of `clnt_connection` after the messages of a history. -/
def Scanner.after (s : Scanner) : List (List Byte) → Scanner
  | [] => s
  | rd :: history => (s.clear.scan rd).after history

/-- Each message of a history is what one `read` can return, and has a destination to compare. -/
def Heard (s : Scanner) : List (List Byte) → Prop
  | [] => True
  | rd :: history =>
    (rd ≠ [] ∧ rd.length < bufSize ∧ (s.clear.firstTwo rd).1.isSome) ∧
      Heard (s.clear.scan rd) history

/-- What is handed on for a message with two tokens. -/
theorem msgInfo_of_tokens (client : ClientInfo) (s : Scanner) {rd dest body : List Byte}
    {rest : List (List Byte)} (h : tokens isDelim (cString rd) = dest :: body :: rest) :
    msgInfo client s rd = some ⟨toChar client.fd, dest, toMsg client.id.val (some body)⟩ := by
  rw [msgInfo, firstTwo_of_tokens s.clear h]
  rfl

/-- The second string of a message with fewer than two tokens is where an older message put it. -/
theorem firstTwo_snd_of_few (s : Scanner) {rd : List Byte}
    (h : (tokens isDelim (cString rd)).length < 2) :
    (s.clear.firstTwo rd).2 = s.pArray[1]?.join.map (stringAt (tokenized rd)) := by
  rw [← buf_scan_clear s]
  exact pointee_scan_of_le s.clear (Nat.le_of_lt_succ h)

/-- The first string of a message with a token. -/
theorem firstTwo_fst (s : Scanner) {rd dest : List Byte} {more : List (List Byte)}
    (h : tokens isDelim (cString rd) = dest :: more) : (s.clear.firstTwo rd).1 = some dest :=
  pointee_scan s.clear (by decide) (by rw [h]; rfl)

/-- What is handed on for a message with one token. -/
theorem msgInfo_of_token (client : ClientInfo) (s : Scanner) {rd dest : List Byte}
    (h : tokens isDelim (cString rd) = [dest]) :
    msgInfo client s rd = some ⟨toChar client.fd, dest, toMsg client.id.val
      (s.pArray[1]?.join.map (stringAt (tokenized rd)))⟩ := by
  rw [msgInfo, firstTwo_fst s h, firstTwo_snd_of_few s (by rw [h]; exact Nat.one_lt_two)]
  rfl

/-- The string at a leftover offset in a message with fewer than two tokens. -/
def exposed (rd : List Byte) (p : ℕ) : List Byte :=
  let head := (cString rd).rdropWhile isDelim
  if head ≠ [] ∧ p ≤ head.length then head.drop p else cString (rd.drop p)

/-- A cleared array holds the message and NULs. -/
theorem storeRead_clear (n : ℕ) (rd : List Byte) :
    storeRead (List.replicate n 0) rd = rd ++ List.replicate (n - rd.length) 0 := by
  rw [storeRead, List.drop_replicate, List.set_append_right _ _ (Nat.le_refl _), Nat.sub_self]
  cases n - rd.length <;> rfl

theorem cString_drop_append_zeros (s : List Byte) (n p : ℕ) :
    cString ((s ++ List.replicate n 0).drop p) = cString (s.drop p) := by
  rw [List.drop_append]
  obtain ⟨rest, hs, hrest⟩ := cString_append_drop (s.drop p)
  have h0 := zero_notMem_cString (s.drop p)
  generalize cString (s.drop p) = c at hs h0 ⊢
  rw [hs, List.append_assoc]
  refine cString_of_end h0 fun b hb => ?_
  cases rest with
  | nil =>
    rw [List.nil_append, List.drop_replicate] at hb
    exact List.eq_of_mem_replicate (List.mem_of_mem_head? hb)
  | cons a rest => exact hrest b hb

/-- A text with no token is made of delimiters. -/
theorem delims_of_tokens_eq_nil {s : List Byte} (h : tokens isDelim s = []) :
    ∀ b ∈ s, isDelim b := by
  refine text_eq_nil_iff.mp ?_
  rw [← flatten_tokens, h]
  rfl

/-- The delimiter behind the only token is overwritten. -/
theorem tokenLoop_of_delim {lead w rest : List Byte} {d : Byte} (hlead : ∀ b ∈ lead, isDelim b)
    (hw : w ≠ []) (hword : ∀ b ∈ w, isDelim b = false) (hd : isDelim d) (h0 : 0 ∉ lead ++ w ++ [d])
    (hnil : tokens isDelim (cString rest) = []) (arr : List (Option ℕ)) :
    (tokenLoop isDelim (arrCnt + 1) 0 arr (lead ++ w ++ d :: rest) 0).2.2 =
      lead ++ w ++ 0 :: rest := by
  have hstrtok : strtok isDelim ([] ++ (lead ++ w ++ d :: rest)) ([] : List Byte).length = _ :=
    strtok_of_delim hlead hw hword hd h0
  simp only [List.nil_append, List.length_nil] at hstrtok
  rw [tokenLoop, hstrtok]
  dsimp only
  rw [(scanned_tokenLoop arrCnt 1 _ (lead ++ w ++ [0]) rest).quiet hnil, List.append_assoc]
  rfl

/-- Nothing is written for a token at the end of the string. -/
theorem tokenLoop_of_end {lead w rest : List Byte} (hlead : ∀ b ∈ lead, isDelim b) (hw : w ≠ [])
    (hword : ∀ b ∈ w, isDelim b = false) (h0 : 0 ∉ lead ++ w) (hhead : ∀ b ∈ rest.head?, b = 0)
    (arr : List (Option ℕ)) :
    (tokenLoop isDelim (arrCnt + 1) 0 arr (lead ++ w ++ rest) 0).2.2 = lead ++ w ++ rest := by
  have hnil : cString rest = [] := by simpa using cString_of_end (s := []) (by simp) hhead
  have hstrtok : strtok isDelim ([] ++ (lead ++ w ++ rest)) ([] : List Byte).length = _ :=
    strtok_of_end hlead hw hword h0 hhead
  simp only [List.nil_append, List.length_nil] at hstrtok
  rw [tokenLoop, hstrtok]
  dsimp only
  rw [(scanned_tokenLoop arrCnt 1 _ (lead ++ w) rest).quiet (by rw [hnil, tokens_nil])]

/-- What is behind the end of the string is as it was. -/
theorem cString_drop_of_lt {head rest : List Byte} {d : Byte} {p : ℕ} (hp : head.length < p) :
    cString ((head ++ 0 :: rest).drop p) = cString ((head ++ d :: rest).drop p) := by
  obtain ⟨k, rfl⟩ : ∃ k, p = head.length + (k + 1) := ⟨p - head.length - 1, by omega⟩
  rw [List.drop_length_add_append, List.drop_length_add_append]
  rfl

/-- **What a leftover offset denotes** after a message with fewer than two tokens. -/
theorem stringAt_tokenized {rd : List Byte} (h : (tokens isDelim (cString rd)).length < 2) (p : ℕ) :
    stringAt (tokenized rd) p = exposed rd p := by
  have hstored := cString_storeRead (List.replicate bufSize 0) rd
  have hbuf : ∀ q, cString ((storeRead (List.replicate bufSize 0) rd).drop q) =
      cString (rd.drop q) := by
    intro q
    rw [storeRead_clear, cString_drop_append_zeros]
  have htok : tokenized rd = (tokenLoop isDelim (arrCnt + 1) 0 (List.replicate arrCnt none)
      (storeRead (List.replicate bufSize 0) rd) 0).2.2 := rfl
  rw [htok, stringAt, exposed]
  generalize storeRead (List.replicate bufSize 0) rd = buf at hstored hbuf
  rw [← hstored] at h ⊢
  rcases scan_cases isDelim buf with hall | ⟨lead, w, d, rest, rfl, hlead, hw, hword, hd, h0⟩ |
    ⟨lead, w, rest, rfl, hlead, hw, hword, h0, hhead⟩
  · -- no token: nothing is written
    have hquiet := (scanned_tokenLoop_zero isDelim (arrCnt + 1) (List.replicate arrCnt none)
      buf).quiet (tokens_of_delims hall)
    rw [hquiet, List.nil_append, hbuf, List.rdropWhile_eq_nil_iff.mpr hall]
    simp
  · -- one token and its delimiter
    have htokens : tokens isDelim (cString (lead ++ w ++ d :: rest)) =
        w :: tokens isDelim (cString rest) := by
      rw [cString_of_delim h0, tokens_cons_of_scan hlead hw hword fun b hb => by
        rw [← Option.some.inj hb]; exact hd, tokens_cons_of_delim _ hd]
    have hnil : tokens isDelim (cString rest) = [] := by
      rw [htokens, List.length_cons] at h
      exact List.length_eq_zero_iff.mp (by omega)
    have hhead : (cString (lead ++ w ++ d :: rest)).rdropWhile isDelim = lead ++ w := by
      rw [cString_of_delim h0]
      refine Trim.rdropWhile_append ?_ ?_
      · exact List.forall_mem_cons.mpr ⟨hd, delims_of_tokens_eq_nil hnil⟩
      · intro b hb
        rw [List.getLast?_append_of_ne_nil _ hw] at hb
        exact hword b (List.mem_of_getLast? hb)
    have hzero : 0 ∉ lead ++ w := fun hmem => h0 (List.mem_append_left _ hmem)
    have hne : lead ++ w ≠ [] := List.append_ne_nil_of_right_ne_nil lead hw
    rw [tokenLoop_of_delim hlead hw hword hd h0 hnil, hhead]
    by_cases hp : p ≤ (lead ++ w).length
    · rw [if_pos ⟨hne, hp⟩, List.drop_append_of_le_length hp]
      exact cString_append_zero (fun hmem => hzero (List.mem_of_mem_drop hmem)) rest
    · rw [if_neg (fun hboth => hp hboth.2), ← hbuf]
      exact cString_drop_of_lt (Nat.not_le.mp hp)
  · -- one token at the end of the string
    have hhead' : (cString (lead ++ w ++ rest)).rdropWhile isDelim = lead ++ w := by
      rw [cString_of_end h0 hhead]
      refine List.rdropWhile_eq_self_iff.mpr fun hne => ?_
      rw [List.getLast_append_of_ne_nil hne hw, hword _ (List.getLast_mem hw)]
      exact Bool.false_ne_true
    have hne : lead ++ w ≠ [] := List.append_ne_nil_of_right_ne_nil lead hw
    rw [tokenLoop_of_end hlead hw hword h0 hhead, hhead']
    by_cases hp : p ≤ (lead ++ w).length
    · rw [if_pos ⟨hne, hp⟩, List.drop_append_of_le_length hp]
      exact cString_of_end (fun hmem => h0 (List.mem_of_mem_drop hmem)) hhead
    · rw [if_neg (fun hboth => hp hboth.2), hbuf]

/-- What is handed on for a message with no token. -/
theorem msgInfo_isSome_of_delims (client : ClientInfo) (s : Scanner) {rd : List Byte}
    (h : tokens isDelim (cString rd) = []) :
    (msgInfo client s rd).isSome = s.pArray[0]?.join.isSome := by
  have h0 : (s.clear.firstTwo rd).1 = s.pArray[0]?.join.map (stringAt (s.clear.scan rd).buf) :=
    pointee_scan_of_le s.clear (by rw [h]; exact Nat.le_refl 0)
  rw [msgInfo, h0, Option.isSome_map, Option.isSome_map]

/-- A string that is the same one byte further on is empty. -/
theorem stringAt_eq_succ {buf : List Byte} {p : ℕ} (h : stringAt buf p = stringAt buf (p + 1)) :
    stringAt buf p = [] := by
  rw [stringAt, stringAt, ← List.drop_drop] at *
  cases hdrop : buf.drop p with
  | nil => rfl
  | cons b rest =>
    rw [hdrop] at h
    by_cases hb : b = 0
    · subst hb
      rfl
    · have hcons : cString (b :: rest) = b :: cString rest := by
        simp [cString, hb]
      rw [hcons, List.drop_one, List.tail_cons] at h
      exact absurd (congrArg List.length h) (by simp)

/-- A history of one short message, which leaves `pArray[1]` at the offset of its second token. -/
theorem heard_ab : Heard .fresh [bytes "a:b"] := ⟨⟨nofun, by decide, rfl⟩, trivial⟩

theorem heard_aab : Heard .fresh [bytes "aa:b"] := ⟨⟨nofun, by decide, rfl⟩, trivial⟩

/-- **History independence.** Whatever messages came before, a message is handed to `send_msg` with
the same destination and the same text: this holds of the messages that have two tokens, and of no
other. -/
theorem history_independent_iff (client : ClientInfo) (rd : List Byte) :
    (∀ h₁ h₂, Heard .fresh h₁ → Heard .fresh h₂ →
        msgInfo client (Scanner.fresh.after h₁) rd = msgInfo client (Scanner.fresh.after h₂) rd) ↔
      2 ≤ (tokens isDelim (cString rd)).length := by
  constructor
  · intro hsame
    by_contra hfew
    rcases htok : tokens isDelim (cString rd) with - | ⟨dest, - | ⟨body, rest⟩⟩
    · -- no token: a first message has no destination, a later one has an older one's
      have h := congrArg Option.isSome (hsame [] [bytes "a:b"] trivial heard_ab)
      rw [msgInfo_isSome_of_delims client _ htok, msgInfo_isSome_of_delims client _ htok] at h
      exact absurd h (by decide)
    · -- one token: the body is `(null)`, or what stands at offset 2, or what stands at offset 3
      have h2 := hsame [] [bytes "a:b"] trivial heard_ab
      have h3 := hsame [] [bytes "aa:b"] trivial heard_aab
      rw [msgInfo_of_token client _ htok, msgInfo_of_token client _ htok] at h2 h3
      have htext2 := congrArg MsgInfo.msg (Option.some.inj h2)
      have htext3 := congrArg MsgInfo.msg (Option.some.inj h3)
      have hnull2 : bytes "(null)" = stringAt (tokenized rd) 2 := List.append_cancel_left htext2
      have hnull3 : bytes "(null)" = stringAt (tokenized rd) 3 := List.append_cancel_left htext3
      have hempty := stringAt_eq_succ (hnull2.symm.trans hnull3)
      rw [hempty] at hnull2
      cases hnull2
    · rw [htok] at hfew
      exact hfew (Nat.le_add_left 2 _)
  · intro htwo h₁ h₂ _ _
    rcases htok : tokens isDelim (cString rd) with - | ⟨dest, - | ⟨body, rest⟩⟩
    · rw [htok, List.length_nil] at htwo
      exact absurd htwo (by decide)
    · rw [htok, List.length_singleton] at htwo
      exact absurd htwo (by decide)
    · rw [msgInfo_of_tokens client _ htok, msgInfo_of_tokens client _ htok]

/-- The message `[6]` of client 5, as a first one and after `[6]LEDON`: the text `[5](null)`, and
the text `[5]` and nothing. -/
theorem not_history_independent :
    ¬∀ client h₁ h₂ rd, Heard .fresh h₁ → Heard .fresh h₂ → rd.length < bufSize →
      msgInfo client (Scanner.fresh.after h₁) rd = msgInfo client (Scanner.fresh.after h₂) rd := by
  intro h
  have hsame := h ⟨4, 4, [], .ofString "5", .empty⟩ [] [bytes "[6]LEDON\n"] (bytes "[6]") trivial
    ⟨⟨nofun, by decide, rfl⟩, trivial⟩ (by decide)
  exact absurd hsame (by decide)

end Relay

end DroneTurret
