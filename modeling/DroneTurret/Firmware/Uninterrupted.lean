import DroneTurret.Firmware.Interrupts
import Mathlib.Logic.Relation

/-!
# The parser without interrupts

As long as no byte arrives, the accesses of `parsing_command` add up to `parsingCommand`: the buffer
it leaves and the servos it moves are the same. So the machine of single accesses refines the main
loop of `system`. What the byte in front of the buffer reads as matters for an empty string only: if
it reads as a newline, it is overwritten.

## Main definitions

* `Leads` — any number of steps of the main loop

## Main results

* `leads_over` — a loop that passes over a part of the buffer
* `leads_strtok` — a call of `strtok`
* `uninterrupted_refines_parsingCommand` — the parser
-/

namespace DroneTurret

namespace Firmware

open CString

/-- The main loop gets from one state to the other. `outside` is what is read in front of the
buffer. -/
def Leads (front : Neighbour) (atNul : Bool) (outside : Byte) : Machine → Machine → Prop :=
  Relation.ReflTransGen fun m m' => m' = m.main front atNul outside

/-- The machine at a place, with a buffer. -/
def Machine.place (m : Machine) (buf : List Byte) (pc : Pc) : Machine :=
  { m with uart := { m.uart with cmdBuf := buf }, pc }

variable {front : Neighbour} {atNul : Bool} {outside : Byte} {m : Machine} {buf : List Byte}

theorem leads_read {p : ParsePc} {q : ℕ} (hwrites : p.writes = false) (hindex : p.index = q)
    (hq : q ≤ lastIndex) :
    Leads front atNul outside (m.place buf (.parse p))
      (m.place buf (p.after atNul (buf.getD q 0))) := by
  have hload : (m.place buf (.parse p)).load p.index outside = buf.getD q 0 := by
    have hlast : lastIndex < cmdBufLen := by decide
    rw [Machine.load, hindex, if_pos (by omega)]
    rfl
  refine .single ?_
  rw [← hload]
  change _ = if p.writes then _ else _
  rw [hwrites]
  rfl

theorem leads_write {p : ParsePc} {q : ℕ} (hwrites : p.writes = true) (hindex : p.index = q) :
    Leads front atNul outside (m.place buf (.parse p))
      (m.place (buf.set q 0) (p.after atNul 0)) := by
  refine .single ?_
  change _ = if p.writes then _ else _
  rw [hwrites, hindex]
  rfl

/-- The byte behind a part of the buffer. -/
theorem getD_length {pre rest : List Byte} {b : Byte} (h : buf = pre ++ b :: rest) :
    buf.getD pre.length 0 = b := by
  subst h
  rw [List.getD_eq_getElem?_getD, List.getElem?_append_right (Nat.le_refl _), Nat.sub_self]
  rfl

/-- **A loop** that passes over `l`. -/
theorem leads_over {f : ℕ → Pc} {cont : Byte → Prop} {pre l rest : List Byte}
    (hstep : ∀ q, pre.length ≤ q → q ≤ lastIndex → cont (buf.getD q 0) →
      Leads front atNul outside (m.place buf (f q)) (m.place buf (f (q + 1))))
    (hbuf : buf = pre ++ (l ++ rest)) (hl : ∀ b ∈ l, cont b)
    (hlen : (pre ++ l).length ≤ lastIndex) :
    Leads front atNul outside (m.place buf (f pre.length)) (m.place buf (f (pre ++ l).length)) := by
  induction l generalizing pre with
  | nil =>
    rw [List.append_nil]
    exact .refl
  | cons b l ih =>
    have hget : buf.getD pre.length 0 = b := getD_length hbuf
    have hcons : pre ++ b :: l = pre ++ [b] ++ l := List.append_cons pre b l
    have hpre : (pre ++ [b]).length = pre.length + 1 := by
      rw [List.length_append, List.length_singleton]
    rw [List.length_append, List.length_cons] at hlen
    have hfirst := hstep pre.length (Nat.le_refl _) (by omega) (hget ▸ hl b List.mem_cons_self)
    rw [hcons]
    rw [← hpre] at hfirst
    refine hfirst.trans (ih (fun q hq => hstep q ?_) ?_ (fun b' hb' => hl b' ?_) ?_)
    · rw [hpre] at hq
      omega
    · rw [hbuf, List.cons_append, List.append_cons]
    · exact List.mem_cons_of_mem b hb'
    · rw [List.length_append, hpre]
      omega

/-- The string at an offset, between what is in front of it and its NUL. -/
theorem exists_string {p : ℕ} (h : NulAt buf lastIndex) (hp : p ≤ lastIndex) :
    ∃ pre rest, buf = pre ++ (stringAt buf p ++ 0 :: rest) ∧ pre.length = p ∧
      (pre ++ stringAt buf p).length ≤ lastIndex := by
  have hlen := h.length_stringAt hp
  obtain ⟨hlt, -⟩ := List.getElem?_eq_some_iff.mp h
  have hpre : (buf.take p).length = p := by
    rw [List.length_take]
    omega
  obtain ⟨rest, hrest, hhead⟩ := cString_append_drop (buf.drop p)
  cases rest with
  | nil =>
    have hall := congrArg List.length hrest
    rw [List.append_nil, List.length_drop] at hall
    rw [stringAt] at hlen
    omega
  | cons b rest =>
    obtain rfl : b = 0 := hhead b rfl
    refine ⟨buf.take p, rest, ?_, hpre, ?_⟩
    · rw [stringAt, ← hrest, List.take_append_drop]
    · rw [List.length_append, hpre]
      exact hlen

/-- **A loop to the end of a string**: `strlen`, and `printf`. -/
theorem leads_string {f : ℕ → ParsePc} {p : ℕ} (h : NulAt buf lastIndex) (hp : p ≤ lastIndex)
    (hwrites : ∀ q, (f q).writes = false) (hindex : ∀ q, (f q).index = q)
    (hstep : ∀ q, p ≤ q → buf.getD q 0 ≠ 0 →
      (f q).after atNul (buf.getD q 0) = .parse (f (q + 1))) :
    Leads front atNul outside (m.place buf (.parse (f p)))
      (m.place buf ((f (p + (stringAt buf p).length)).after atNul 0)) := by
  obtain ⟨pre, rest, hbuf, hpre, hlen⟩ := exists_string h hp
  have hover : Leads front atNul outside (m.place buf (.parse (f pre.length)))
      (m.place buf (.parse (f (pre ++ stringAt buf p).length))) := by
    refine @leads_over front atNul outside m buf (fun q => .parse (f q)) (· ≠ 0) _ _ _ ?_ hbuf ?_
      hlen
    · intro q hle hq hb
      rw [hpre] at hle
      have hread := @leads_read front atNul outside m buf _ _ (hwrites q) (hindex q) hq
      rwa [hstep q hle hb] at hread
    · rintro b hb rfl
      exact zero_notMem_cString _ hb
  have hend := @leads_read front atNul outside m buf _ _ (hwrites _) (hindex _) hlen
  have hget : buf.getD (pre ++ stringAt buf p).length 0 = 0 :=
    getD_length (hbuf.trans (List.append_assoc _ _ _).symm)
  rw [hget] at hend
  rw [List.length_append, hpre] at hover hend
  exact hover.trans hend

/-! ### `strtok` -/

theorem isAt_ne_zero {b : Byte} (h : isAt b) : b ≠ 0 := by
  rintro rfl
  cases h

/-- The delimiters in front of a token. -/
theorem leads_skip (pArray : List ℕ) {pre lead rest : List Byte}
    (hbuf : buf = pre ++ (lead ++ rest))
    (hlead : ∀ b ∈ lead, isAt b) (hlen : (pre ++ lead).length ≤ lastIndex) :
    Leads front atNul outside (m.place buf (.parse (.skip pArray pre.length)))
      (m.place buf (.parse (.skip pArray (pre ++ lead).length))) := by
  refine @leads_over front atNul outside m buf (fun q => .parse (.skip pArray q))
    (fun b => isAt b) _ _ _ ?_ hbuf hlead hlen
  intro q _ hq hb
  have hread := @leads_read front atNul outside m buf (.skip pArray q) q rfl rfl hq
  rwa [ParsePc.after, if_pos hb] at hread

/-- A token, up to the byte behind it. -/
theorem leads_word (pArray : List ℕ) {pre w rest : List Byte} (hbuf : buf = pre ++ (w ++ rest))
    (hw : w ≠ []) (hword : ∀ b ∈ w, isAt b = false ∧ b ≠ 0) (hlen : (pre ++ w).length ≤ lastIndex) :
    Leads front atNul outside (m.place buf (.parse (.skip pArray pre.length)))
      (m.place buf (.parse (.word pArray pre.length (pre ++ w).length))) := by
  obtain ⟨b, w, rfl⟩ := List.exists_cons_of_ne_nil hw
  have hcons : pre ++ b :: w = pre ++ [b] ++ w := List.append_cons pre b w
  have hpre : (pre ++ [b]).length = pre.length + 1 := by
    rw [List.length_append, List.length_singleton]
  obtain ⟨⟨hb, hb0⟩, hrest⟩ := List.forall_mem_cons.mp hword
  rw [hcons, List.length_append, hpre] at hlen
  have hfirst := @leads_read front atNul outside m buf (.skip pArray pre.length) pre.length rfl rfl
    (by omega)
  rw [getD_length hbuf, ParsePc.after, if_neg (Bool.eq_false_iff.mp hb), if_neg hb0, ← hpre]
    at hfirst
  rw [hcons]
  refine hfirst.trans (@leads_over front atNul outside m buf
    (fun q => .parse (.word pArray pre.length q)) (fun b => isAt b = false ∧ b ≠ 0) _ _ rest ?_ ?_
    hrest ?_)
  · rintro q - hq ⟨hat, hne⟩
    have hread := @leads_read front atNul outside m buf (.word pArray pre.length q) q rfl rfl hq
    rwa [ParsePc.after, if_neg (Bool.eq_false_iff.mp hat), if_neg hne] at hread
  · rw [hbuf, List.cons_append, List.append_cons]
  · rw [List.length_append, hpre]
    exact hlen

/-- A token with the delimiters in front of it, and the byte behind it. -/
theorem leads_token (pArray : List ℕ) {pre lead w rest : List Byte} {b : Byte}
    (hbuf : buf = pre ++ lead ++ w ++ b :: rest) (hlead : ∀ b ∈ lead, isAt b) (hw : w ≠ [])
    (hword : ∀ b ∈ w, isAt b = false ∧ b ≠ 0) (hlen : (pre ++ lead ++ w).length ≤ lastIndex) :
    Leads front atNul outside (m.place buf (.parse (.skip pArray pre.length)))
      (m.place buf
        ((ParsePc.word pArray (pre ++ lead).length (pre ++ lead ++ w).length).after atNul b)) := by
  have hmiddle : buf = pre ++ lead ++ (w ++ b :: rest) := by rw [hbuf, List.append_assoc (_ ++ _)]
  have hfront : buf = pre ++ (lead ++ (w ++ b :: rest)) := by rw [hmiddle, List.append_assoc pre]
  have hskip := @leads_skip front atNul outside m buf pArray _ _ _ hfront hlead
    (by rw [List.length_append] at hlen; omega)
  have hover := @leads_word front atNul outside m buf pArray _ _ _ hmiddle hw hword hlen
  have hend := @leads_read front atNul outside m buf
    (.word pArray (pre ++ lead).length (pre ++ lead ++ w).length) _ rfl rfl hlen
  rw [getD_length hbuf] at hend
  exact (hskip.trans hover).trans hend

/-- What a call of `strtok` leads to. -/
def Called (front : Neighbour) (atNul : Bool) (outside : Byte) (m : Machine) (buf : List Byte)
    (pArray : List ℕ) (p : ℕ) : Option (ℕ × List Byte × ℕ) → Prop
  | none => Leads front atNul outside (m.place buf (.parse (.skip pArray p)))
      (m.place buf (.effect (.tooFewTokens pArray.length)))
  | some (token, buf', p') => ∃ resume,
      Leads front atNul outside (m.place buf (.parse (.skip pArray p)))
        (m.place buf' (ParsePc.stored pArray token resume)) ∧
        (resume = some p' ∨ resume = none ∧ strtok isAt buf' p' = none)

/-- **A call.** -/
theorem leads_strtok (pArray : List ℕ) {p : ℕ} (h : NulAt buf lastIndex) (hp : p ≤ lastIndex) :
    Called front atNul outside m buf pArray p (strtok isAt buf p) := by
  obtain ⟨pre, rest, hbuf, rfl, hlen⟩ := exists_string h hp
  have h0 := zero_notMem_cString (buf.drop pre.length)
  rw [← stringAt] at h0
  generalize stringAt buf pre.length = str at hbuf hlen h0
  obtain ⟨tail, htail⟩ : ∃ tail, tail = str ++ 0 :: rest := ⟨_, rfl⟩
  have hstring : cString tail = str := htail ▸ cString_append_zero h0 rest
  have hbuf' : buf = pre ++ tail := htail ▸ hbuf
  rcases scan_cases isAt tail with hall | ⟨lead, w, d, rest', rfl, hlead, hw, hword, hd, hw0⟩ |
    ⟨lead, w, rest', rfl, hlead, hw, hword, hw0, hhead⟩
  · -- there is no token
    have hcall : strtok isAt buf pre.length = none := hbuf' ▸ strtok_of_delims hall
    rw [hcall]
    have hend := @leads_read front atNul outside m buf (.skip pArray (pre ++ str).length) _ rfl rfl
      hlen
    rw [getD_length (hbuf.trans (List.append_assoc _ _ _).symm), ParsePc.after,
      if_neg (fun hat => isAt_ne_zero hat rfl), if_pos rfl] at hend
    exact (leads_skip pArray hbuf (hstring ▸ hall) hlen).trans hend
  · -- a delimiter ends the token
    have hstr : lead ++ w ++ d :: cString rest' = str := (cString_of_delim hw0).symm.trans hstring
    rw [← hstr] at hlen
    simp only [List.length_append, List.length_cons] at hlen
    have hword' : ∀ b ∈ w, isAt b = false ∧ b ≠ 0 := by
      refine fun b hb => ⟨hword b hb, ?_⟩
      rintro rfl
      exact hw0 (List.mem_append_left _ (List.mem_append_right _ hb))
    have hcall : strtok isAt buf pre.length = some ((pre ++ lead).length,
        (pre ++ lead ++ w ++ [0]) ++ rest', (pre ++ lead ++ w ++ [0]).length) :=
      hbuf' ▸ strtok_of_delim hlead hw hword hd hw0
    have hback : buf = pre ++ lead ++ w ++ d :: rest' := by
      rw [hbuf', List.append_assoc lead, List.append_assoc (pre ++ lead), List.append_assoc pre]
    have hset : buf.set (pre ++ lead ++ w).length 0 = pre ++ lead ++ w ++ [0] ++ rest' := by
      rw [hback, List.set_append_right _ _ (Nat.le_refl _), Nat.sub_self, List.set_cons_zero,
        List.append_cons]
    have htoken := @leads_token front atNul outside m buf pArray _ _ _ _ _ hback hlead hw hword'
      (by simp only [List.length_append]; omega)
    rw [ParsePc.after, if_pos hd] at htoken
    have hcut := @leads_write front atNul outside m buf
      (.cut pArray (pre ++ lead).length (pre ++ lead ++ w).length) _ rfl rfl
    rw [hset] at hcut
    rw [hcall]
    refine ⟨some ((pre ++ lead ++ w).length + 1), htoken.trans hcut, .inl ?_⟩
    rw [@List.length_append _ _ [0], List.length_singleton]
  · -- the end of the string does
    have hstr : lead ++ w = str := (cString_of_end hw0 hhead).symm.trans hstring
    rw [← hstr] at hlen
    obtain ⟨rest', rfl⟩ : ∃ r, rest' = 0 :: r := by
      cases rest' with
      | nil =>
        rw [List.append_nil, hstr] at htail
        have := congrArg List.length htail
        rw [List.length_append, List.length_cons] at this
        omega
      | cons b r => exact ⟨r, by rw [hhead b rfl]⟩
    have hword' : ∀ b ∈ w, isAt b = false ∧ b ≠ 0 := by
      refine fun b hb => ⟨hword b hb, ?_⟩
      rintro rfl
      exact hw0 (List.mem_append_right _ hb)
    have hcall : strtok isAt buf pre.length = some ((pre ++ lead).length,
        (pre ++ lead ++ w) ++ 0 :: rest', (pre ++ lead ++ w).length) :=
      hbuf' ▸ strtok_of_end hlead hw hword hw0 hhead
    have hback : buf = pre ++ lead ++ w ++ 0 :: rest' := by
      rw [hbuf', List.append_assoc lead, List.append_assoc (pre ++ lead), List.append_assoc pre]
    rw [← List.append_assoc] at hlen
    have htoken := @leads_token front atNul outside m buf pArray _ _ _ _ _ hback hlead hw hword'
      hlen
    rw [ParsePc.after, if_neg (fun hat => isAt_ne_zero hat rfl), if_pos rfl] at htoken
    rw [hcall, ← hback]
    refine ⟨_, htoken, ?_⟩
    cases atNul with
    | true => exact .inl rfl
    | false =>
      refine .inr ⟨rfl, ?_⟩
      conv_lhs => rw [hback]
      exact strtok_of_delims (List.forall_mem_nil _)

/-! ### The parser -/

/-- The newline strip. -/
theorem leads_strip (h : NulAt buf lastIndex) (hfront : outside = newline → cString buf ≠ []) :
    Leads front atNul outside (m.place buf (.parse (.strlen false 0)))
      (m.place (stripNewline buf) (.parse (.skip [] 0))) := by
  have hlen := h.length_stringAt (Nat.zero_le lastIndex)
  have hstrlen : ∀ overwrite, Leads front atNul outside (m.place buf (.parse (.strlen overwrite 0)))
      (m.place buf (.parse (if overwrite then .strip (cString buf).length
        else .lastByte (cString buf).length))) := by
    intro overwrite
    have hscan := @leads_string front atNul outside m buf (.strlen overwrite) 0 h (Nat.zero_le _)
      (fun _ => rfl) (fun _ => rfl) fun q _ hq => by rw [ParsePc.after, if_neg hq]
    rw [ParsePc.after, if_pos rfl, stringAt, List.drop_zero, Nat.zero_add] at hscan
    exact hscan
  rw [Nat.zero_add, stringAt, List.drop_zero] at hlen
  refine (hstrlen false).trans ?_
  rw [stripNewline, if_neg Bool.false_ne_true]
  split_ifs with hzero hnewline
  · -- the byte in front of the buffer
    have hnot : outside ≠ newline := fun heq => hfront heq (List.length_eq_zero_iff.mp hzero)
    have hafter : (ParsePc.lastByte (cString buf).length).after atNul outside =
        .parse (.skip [] 0) := by
      rw [ParsePc.after, if_neg hnot]
    rw [← hafter, hzero]
    exact .single rfl
  · have hindex : (((cString buf).length : ℕ) : ℤ) - 1 = ((cString buf).length - 1 : ℕ) := by omega
    have hread := @leads_read front atNul outside m buf (.lastByte (cString buf).length) _ rfl
      hindex (by omega)
    rw [ParsePc.after, if_pos hnewline] at hread
    exact (hread.trans (hstrlen true)).trans (leads_write rfl hindex)
  · have hindex : (((cString buf).length : ℕ) : ℤ) - 1 = ((cString buf).length - 1 : ℕ) := by omega
    have hread := @leads_read front atNul outside m buf (.lastByte (cString buf).length) _ rfl
      hindex (by omega)
    rwa [ParsePc.after, if_neg hnewline] at hread

/-- The first byte of a string, if there is one. -/
theorem getD_stringAt (buf : List Byte) (p : ℕ) : (stringAt buf p).getD 0 0 = buf.getD p 0 := by
  have hget : buf.getD p 0 = (buf.drop p).getD 0 0 := by
    rw [List.getD_eq_getElem?_getD, List.getD_eq_getElem?_getD, List.getElem?_drop, Nat.add_zero]
  rw [hget, stringAt]
  cases buf.drop p with
  | nil => rfl
  | cons b rest =>
    by_cases hb : b = 0
    · subst hb
      rfl
    · have hne : (b != 0) = true := by simpa using hb
      rw [cString, List.takeWhile_cons, if_pos hne]
      rfl

/-- What is found in two tokens. -/
def fields (first second : List Byte) : Outcome :=
  if second.length = 1 ∧ isLevel (second.getD 0 0) then
    .control (first.getD 0 0) (levelDegree ((second.getD 0 0).toNat - '0'.toNat))
  else .levelInvalid second

/-- The message about the second token. -/
theorem leads_print {second : ℕ} (h : NulAt buf lastIndex) (hsecond : second ≤ lastIndex) :
    Leads front atNul outside (m.place buf (.parse (.print [] second)))
      (m.place buf (.effect (.levelInvalid (stringAt buf second)))) := by
  have hscan := @leads_string front atNul outside m buf
    (fun q => .print ((buf.drop second).take (q - second)) q) second h hsecond (fun _ => rfl)
    (fun _ => rfl) fun q hle hq => by
      have hget : buf[q]? = some (buf.getD q 0) := by
        rw [List.getD_eq_getElem?_getD] at hq ⊢
        cases hb : buf[q]? with
        | none =>
          rw [hb] at hq
          exact absurd rfl hq
        | some b => rfl
      have hdrop : (buf.drop second)[q - second]? = some (buf.getD q 0) := by
        rw [List.getElem?_drop, Nat.add_sub_cancel' hle, hget]
      rw [ParsePc.after, if_neg hq, Nat.sub_add_comm hle, List.take_add_one, hdrop]
      rfl
  have hprinted : stringAt buf second = (buf.drop second).take (stringAt buf second).length :=
    List.prefix_iff_eq_take.mp (List.takeWhile_prefix _)
  rw [Nat.sub_self, Nat.add_sub_cancel_left, ← hprinted] at hscan
  exact hscan

/-- **The fields.** -/
theorem leads_fields {first second : ℕ} (h : NulAt buf lastIndex) (hfirst : first ≤ lastIndex)
    (hsecond : second ≤ lastIndex) :
    Leads front atNul outside (m.place buf (.parse (.firstByte first second)))
      (m.place buf (.effect (fields (stringAt buf first) (stringAt buf second)))) := by
  have hprint := @leads_print front atNul outside m buf second h hsecond
  have harea := @leads_read front atNul outside m buf (.firstByte first second) _ rfl rfl hfirst
  rw [ParsePc.after] at harea
  generalize harea' : buf.getD first 0 = area at harea
  have hlength := @leads_string front atNul outside m buf (.levelLength area second) second h
    hsecond (fun _ => rfl) (fun _ => rfl) fun q _ hq => by rw [ParsePc.after, if_neg hq]
  rw [ParsePc.after, if_pos rfl, Nat.add_sub_cancel_left] at hlength
  have hlow := @leads_read front atNul outside m buf (.levelLow area second) _ rfl rfl hsecond
  have hhigh := @leads_read front atNul outside m buf (.levelHigh area second) _ rfl rfl hsecond
  have hlevel := @leads_read front atNul outside m buf (.level area second) _ rfl rfl hsecond
  rw [ParsePc.after] at hlow
  rw [ParsePc.after] at hhigh
  rw [ParsePc.after] at hlevel
  refine (harea.trans hlength).trans ?_
  rw [fields, getD_stringAt, getD_stringAt, harea', isLevel]
  by_cases hone : (stringAt buf second).length = 1
  swap
  · rw [if_neg hone, if_neg fun hboth => hone hboth.1]
    exact hprint
  rw [if_pos hone]
  refine hlow.trans ?_
  by_cases hge : '1'.toUInt8 ≤ buf.getD second 0
  swap
  · rw [if_neg hge, if_neg (by simp only [hge, decide_false]; simp)]
    exact hprint
  rw [if_pos hge]
  refine hhigh.trans ?_
  by_cases hle : buf.getD second 0 ≤ '3'.toUInt8
  swap
  · rw [if_neg hle, if_neg (by simp only [hle, decide_false]; simp)]
    exact hprint
  rw [if_pos hle, if_pos ⟨hone, by simp only [hge, hle, decide_true]; rfl⟩]
  exact hlevel

/-- The parser as two calls of `strtok`. -/
theorem decode_eq (hreset : ¬(buf.getD 0 0 = 'R'.toUInt8 ∧ buf.getD 1 0 = 0)) :
    decode buf =
      match strtok isAt (stripNewline buf) 0 with
      | none => (.tooFewTokens 0, stripNewline buf)
      | some (first, buf₁, p) =>
        match strtok isAt buf₁ p with
        | none => (.tooFewTokens 1, buf₁)
        | some (second, buf₂, _) =>
          (fields (stringAt buf₂ first) (stringAt buf₂ second), buf₂) := by
  rw [decode, if_neg hreset, tokenLoop]
  cases strtok isAt (stripNewline buf) 0 with
  | none => rfl
  | some r =>
    obtain ⟨first, buf₁, p⟩ := r
    dsimp only
    rw [tokenLoop]
    cases strtok isAt buf₁ p with
    | none => rfl
    | some r =>
      obtain ⟨second, buf₂, p'⟩ := r
      have hfields : (if (stringAt buf₂ second).length = 1 ∧
            isLevel ((stringAt buf₂ second).getD 0 0) then
          (Outcome.control ((stringAt buf₂ first).getD 0 0)
            (levelDegree (((stringAt buf₂ second).getD 0 0).toNat - '0'.toNat)), buf₂)
          else (.levelInvalid (stringAt buf₂ second), buf₂)) =
          (fields (stringAt buf₂ first) (stringAt buf₂ second), buf₂) := by
        rw [fields]
        split_ifs <;> rfl
      exact hfields

/-- **The parser**, up to its effect. -/
theorem leads_decode (h : NulAt buf lastIndex) (hfront : outside = newline → cString buf ≠ []) :
    Leads front atNul outside (m.place buf (.parse .letter))
      (m.place (decode buf).2 (.effect (decode buf).1)) := by
  have hletter := @leads_read front atNul outside m buf .letter 0 rfl rfl (Nat.zero_le _)
  have hend := @leads_read front atNul outside m buf .letterEnd 1 rfl rfl (by decide)
  rw [ParsePc.after] at hletter
  rw [ParsePc.after] at hend
  by_cases hreset : buf.getD 0 0 = 'R'.toUInt8 ∧ buf.getD 1 0 = 0
  · rw [if_pos hreset.1] at hletter
    rw [if_pos hreset.2] at hend
    rw [decode, if_pos hreset]
    exact hletter.trans hend
  have hstrlen : Leads front atNul outside (m.place buf (.parse .letter))
      (m.place buf (.parse (.strlen false 0))) := by
    by_cases hR : buf.getD 0 0 = 'R'.toUInt8
    · rw [if_pos hR] at hletter
      rw [if_neg fun h0 => hreset ⟨hR, h0⟩] at hend
      exact hletter.trans hend
    · rwa [if_neg hR] at hletter
  have hstrip := nulAt_stripNewline h
  refine (hstrlen.trans (leads_strip h hfront)).trans ?_
  rw [decode_eq hreset]
  have hfirst := @leads_strtok front atNul outside m _ [] 0 hstrip (Nat.zero_le _)
  cases hcall : strtok isAt (stripNewline buf) 0 with
  | none =>
    rw [hcall] at hfirst
    exact hfirst
  | some r =>
    obtain ⟨first, buf₁, p⟩ := r
    rw [hcall] at hfirst
    obtain ⟨hnul, ht, hp⟩ := (hstrip.strtok (Nat.zero_le _)).2 first buf₁ p hcall
    obtain ⟨resume, hfirst, hresume⟩ := hfirst
    refine hfirst.trans ?_
    dsimp only
    rcases hresume with rfl | ⟨rfl, hnone⟩
    swap
    · rw [hnone]
      exact .refl
    have hsecond := @leads_strtok front atNul outside m _ [first] p hnul hp
    cases hcall' : strtok isAt buf₁ p with
    | none =>
      rw [hcall'] at hsecond
      exact hsecond
    | some r =>
      obtain ⟨second, buf₂, p'⟩ := r
      rw [hcall'] at hsecond
      obtain ⟨hnul', ht', -⟩ := (hnul.strtok hp).2 second buf₂ p' hcall'
      obtain ⟨resume, hsecond, -⟩ := hsecond
      exact hsecond.trans (leads_fields hnul' ht ht')

/-- **The parser.** A step of the main loop of `system` is what the accesses of the machine add up
to when no byte arrives, unless the string is empty and in front of it a newline is read. -/
theorem uninterrupted_refines_parsingCommand (hm : m.Terminated) (htest : m.pc = .test)
    (hflag : m.uart.rxFlag = true) (hfront : outside = newline → cString m.uart.cmdBuf ≠ []) :
    Leads front atNul outside m
      { uart := { m.uart with cmdBuf := (parsingCommand m.servo m.uart.cmdBuf).2 }
        servo := (parsingCommand m.servo m.uart.cmdBuf).1
        pc := .clear } := by
  have hstart : Leads front atNul outside m (m.place m.uart.cmdBuf (.parse .letter)) := by
    refine .single ?_
    rw [Machine.main.eq_def, htest]
    dsimp only
    rw [if_pos hflag]
    rfl
  refine (hstart.trans (leads_decode hm.nul hfront)).trans (.single ?_)
  rfl

/-- The machine when a line has been received. -/
def lineReceived : Machine := (bytes "1@2\n").foldl Machine.rx .startUp

theorem uninterrupted_refines_parsingCommand_witness :
    ∃ m, Leads .other false newline lineReceived m ∧ m.pc = .clear ∧
      m.servo = (parsingCommand Servo.startUp lineReceived.uart.cmdBuf).1 := by
  have hm : lineReceived.Terminated :=
    (((Machine.terminated_startUp.rx 49).rx 64).rx 50).rx newline
  exact ⟨_, uninterrupted_refines_parsingCommand hm rfl rfl fun _ => by decide, rfl, rfl⟩

end Firmware

end DroneTurret
