import DroneTurret.Lib.Trim
import DroneTurret.Relay.Authenticity
import DroneTurret.Relay.Routing
import DroneTurret.Relay.Segmentation

/-!
# How the database client splits what it receives

`recv_msg` gathers what `read` returns in `accum`, takes off every frame `[TAG]payload` whose
closing bracket is there, and keeps the rest for the next round. The end of a payload is not marked:
it is taken to end at the next opening bracket or at the end of what has arrived. So a frame is
handled with the part of its payload that came with the bracket, and what comes later is dropped.

A call of a handler is recorded with the tag and the trimmed payload of its frame.

## Main definitions

* `split`, `recv`, `recvMsg` — the loop on `accum`, one round, and a stream of reads
* `Frame`, `stream` — relayed frames
* `Intact` — the read that completes the tag of a frame brings its payload as well

## Main results

* `split_of_pending` — what one round takes off, with the rest as it is found by the next
* `recvMsg_of_pending` — what all rounds take off
* `segmentation_independent_iff` — when the calls are those for the whole stream at once
-/

namespace DroneTurret

namespace DbClient

open CString Relay Trim

/-! ### The program -/

/-- `sizeof(accum)`. -/
abbrev accumSize : ℕ := 4096

/-- `sizeof(payload)`, and that of the array `read` fills. -/
abbrev payloadSize : ℕ := 256

abbrev lb : Byte := '['.toUInt8

abbrev rb : Byte := ']'.toUInt8

inductive Handler
  | fromRpi
  | getdb
  deriving DecidableEq

/-- A call of a handler, with the tag and the payload of the frame it is for. -/
structure Call where
  handler : Handler
  tag : List Byte
  payload : List Byte
  deriving DecidableEq

/-- `tolower` of the C locale. -/
def tolower (b : Byte) : Byte := if 65 ≤ b && b ≤ 90 then b + 32 else b

/-- `!strncasecmp(payload, "GETDB", 5)`. -/
def isGetdb (payload : List Byte) : Bool := (payload.take 5).map tolower = bytes "getdb"

/-- The handler of a frame, if there is one. -/
def handler (tag payload : List Byte) : Option Handler :=
  if tag = bytes "RASPBERRYPI" then some .fromRpi
  else if isGetdb payload then some .getdb
  else none

/-- The call for a frame. The payload is trimmed at its front first. -/
def dispatch (tag payload : List Byte) : Option Call :=
  let payload := ((cString payload).dropWhile isSpace).rdropWhile isSpace
  (handler (cString tag) payload).map fun h => ⟨h, cString tag, payload⟩

/-- The loop on `accum`: the frames it takes off, with what is copied of their payloads, and what is
left. -/
def split : ℕ → List Byte → List (List Byte × List Byte) × List Byte
  | 0, s => ([], s)
  | n + 1, s =>
    match memchr s lb with
    | none => ([], s)
    | some (_, s₁) =>
      match memchr s₁ rb with
      | none => ([], s)
      | some (tag, s₂) =>
        let payload := s₂.takeWhile (· != lb)
        let r := split n (s₂.dropWhile (· != lb))
        ((tag, payload.take (payloadSize - 1)) :: r.1, r.2)

/-- The calls for the frames taken off. -/
def calls (fs : List (List Byte × List Byte)) : List Call := fs.filterMap fun f => dispatch f.1 f.2

/-- One round of `recv_msg`. What does not fit together with the bytes read is thrown away. -/
def recv (accum rd : List Byte) : List Call × List Byte :=
  let accum := (if accum.length + rd.length ≥ accumSize then [] else accum) ++ rd
  (calls (split accum.length accum).1, (split accum.length accum).2)

/-- The calls that `recv_msg` makes for what its reads return; with no bytes, it returns. -/
def recvMsg (accum : List Byte) : List (List Byte) → List Call
  | [] => []
  | rd :: rds => if rd = [] then [] else (recv accum rd).1 ++ recvMsg (recv accum rd).2 rds

/-! ### Frames -/

/-- A relayed frame with a newline-terminated payload. -/
structure Frame where
  tag : List Byte
  payload : List Byte
  tag_plain : Bracketless tag
  payload_plain : Bracketless payload
  terminated : payload.getLast? = some newline
  fits : (frame tag payload).length < payloadSize - 1

/-- `[TAG]`. -/
def Frame.header (f : Frame) : List Byte := bytes "[" ++ f.tag ++ bytes "]"

def Frame.text (f : Frame) : List Byte := frame f.tag f.payload

def stream (fs : List Frame) : List Byte := (fs.map Frame.text).flatten

theorem Frame.text_eq (f : Frame) : f.text = f.header ++ f.payload := rfl

theorem Frame.header_append (f : Frame) (s : List Byte) :
    f.header ++ s = lb :: (f.tag ++ rb :: s) := by
  rw [header, List.append_assoc, List.append_assoc]
  rfl

theorem Frame.text_eq_cons (f : Frame) : f.text = lb :: (f.tag ++ rb :: f.payload) :=
  f.header_append f.payload

theorem Frame.length_header (f : Frame) : f.header.length = f.tag.length + 2 := by
  simp [header, bytes]

theorem Frame.length_payload_lt (f : Frame) : f.payload.length < payloadSize - 1 := by
  have h := f.fits
  rw [length_frame] at h
  omega

theorem stream_singleton (f : Frame) : stream [f] = f.text := by simp [stream]

theorem stream_cons (f : Frame) (fs : List Frame) : stream (f :: fs) = f.text ++ stream fs := rfl

/-- The frames of a stream, with the places at which their payloads begin. -/
def placed (place : ℕ) : List Frame → List (ℕ × Frame)
  | [] => []
  | f :: fs => (place + f.header.length, f) :: placed (place + f.text.length) fs

theorem placed_append (place : ℕ) (fs gs : List Frame) :
    placed place (fs ++ gs) = placed place fs ++ placed (place + (stream fs).length) gs := by
  induction fs generalizing place with
  | nil => rfl
  | cons f fs ih =>
    rw [List.cons_append, placed, ih, placed, stream_cons, List.length_append, Nat.add_assoc]
    rfl

theorem lt_of_mem_placed {place : ℕ} {fs : List Frame} {x : ℕ × Frame} (h : x ∈ placed place fs) :
    place < x.1 := by
  induction fs generalizing place with
  | nil => cases h
  | cons f fs ih =>
    rcases List.mem_cons.mp h with rfl | h
    · rw [f.length_header]
      omega
    · have := ih h
      omega

/-- The payloads of later frames begin later. -/
theorem lt_of_mem_placed_cons {place m : ℕ} {f : Frame} {fs : List Frame} {x : ℕ × Frame}
    (h : x ∈ placed place (f :: fs)) (hm : m < place + f.header.length) : m < x.1 := by
  rcases List.mem_cons.mp h with rfl | h
  · exact hm
  · have := lt_of_mem_placed h
    rw [f.text_eq, List.length_append] at this
    omega

/-- The call for a frame when `m` bytes of the stream have arrived. -/
def callAt (m : ℕ) (x : ℕ × Frame) : Option Call := dispatch x.2.tag (x.2.payload.take (m - x.1))

/-! ### One round -/

/-- Behind the first opening bracket there is no closing one. -/
def Incomplete (s : List Byte) : Prop := ∀ junk r, s = junk ++ lb :: r → lb ∉ junk → rb ∉ r

/-- A text without a complete tag is kept. -/
theorem split_of_incomplete (n : ℕ) {s : List Byte} (h : Incomplete s) : split n s = ([], s) := by
  cases n with
  | zero => rfl
  | succ n =>
    rw [split]
    cases hlb : memchr s lb with
    | none => rfl
    | some r =>
      obtain ⟨junk, s₁⟩ := r
      obtain ⟨hs, hjunk⟩ := memchr_eq_some_iff.mp hlb
      dsimp only
      rw [memchr_eq_none_iff.mpr (h junk s₁ hs hjunk)]

/-- The first frame. -/
theorem split_of_tag (n : ℕ) {junk tag : List Byte} (hjunk : lb ∉ junk) (htag : rb ∉ tag)
    (s : List Byte) :
    split (n + 1) (junk ++ lb :: (tag ++ rb :: s)) =
      ((tag, (s.takeWhile (· != lb)).take (payloadSize - 1)) ::
        (split n (s.dropWhile (· != lb))).1, (split n (s.dropWhile (· != lb))).2) := by
  rw [split, memchr_eq_some_iff.mpr ⟨rfl, hjunk⟩]
  dsimp only
  rw [memchr_eq_some_iff.mpr ⟨rfl, htag⟩]

/-- The first frame, up to the next one or to the end. -/
theorem split_of_header (n : ℕ) {junk tag payload rest : List Byte} (hjunk : lb ∉ junk)
    (htag : rb ∉ tag) (hpayload : lb ∉ payload) (hrest : ∀ b ∈ rest.head?, b = lb) :
    split (n + 1) (junk ++ lb :: (tag ++ rb :: (payload ++ rest))) =
      ((tag, payload.take (payloadSize - 1)) :: (split n rest).1, (split n rest).2) := by
  have hne : ∀ b ∈ payload, (b != lb) = true := by
    intro b hb
    simpa using fun h : b = lb => hpayload (h ▸ hb)
  have hhead : rest.takeWhile (· != lb) = [] ∧ rest.dropWhile (· != lb) = rest := by
    cases rest with
    | nil => exact ⟨rfl, rfl⟩
    | cons b rest =>
      obtain rfl := hrest b rfl
      simp
  rw [split_of_tag n hjunk htag, List.takeWhile_append_of_pos hne,
    List.dropWhile_append_of_pos hne, hhead.1, hhead.2, List.append_nil]

/-- What is in `accum` and what is still to come, when `m` bytes have arrived: the end of a payload
that has been handled, and frames, the first of them at `place`. -/
structure Pending (m : ℕ) (s rest junk : List Byte) (place : ℕ) (fs : List Frame) : Prop where
  eq : s ++ rest = junk ++ stream fs
  plain : lb ∉ junk
  small : junk.length < payloadSize - 1
  place : place + s.length = m + junk.length

theorem Pending.of_nil {m place : ℕ} {s rest junk : List Byte}
    (h : Pending m s rest junk place []) (n : ℕ) : split n s = ([], s) := by
  refine split_of_incomplete n fun junk' r hs _ => absurd ?_ h.plain
  have heq := h.eq
  rw [stream, List.map_nil, List.flatten_nil, List.append_nil] at heq
  rw [← heq, hs]
  simp

/-- A tag that is not complete yet. -/
theorem Pending.of_lt {m place : ℕ} {s rest junk : List Byte} {f : Frame} {fs : List Frame}
    (h : Pending m s rest junk place (f :: fs)) (n : ℕ)
    (hlt : s.length < junk.length + f.header.length) : split n s = ([], s) := by
  refine split_of_incomplete n fun junk' r hs hjunk' => ?_
  have heq := h.eq
  rw [stream_cons, f.text_eq_cons, hs] at heq
  -- the first opening bracket is that of the frame
  have hfirst : memchr (junk' ++ lb :: (r ++ rest)) lb =
      some (junk, f.tag ++ rb :: f.payload ++ stream fs) :=
    memchr_eq_some_iff.mpr ⟨by simpa using heq, h.plain⟩
  rw [memchr_eq_some_iff.mpr ⟨rfl, hjunk'⟩] at hfirst
  obtain ⟨rfl, hr⟩ := Prod.mk.inj (Option.some.inj hfirst)
  rw [f.length_header, hs, List.length_append, List.length_cons] at hlt
  have hpre : r <+: f.tag := by
    have htag : f.tag <+: r ++ rest := by
      rw [hr, List.append_assoc]
      exact List.prefix_append _ _
    exact List.prefix_of_prefix_length_le (List.prefix_append r rest) htag (by omega)
  exact fun hmem => f.tag_plain.2 (hpre.subset hmem)

theorem head?_of_stream {t rest : List Byte} {fs : List Frame} (h : t ++ rest = stream fs) :
    ∀ b ∈ t.head?, b = lb := by
  intro b hb
  cases t with
  | nil => cases hb
  | cons a t =>
    obtain rfl := Option.some.inj hb
    cases fs with
    | nil => cases h
    | cons f fs =>
      rw [stream_cons, f.text_eq_cons] at h
      exact (List.cons.inj h).1

/-- The tag is complete. -/
theorem Pending.exists_of_le {m place : ℕ} {s rest junk : List Byte} {f : Frame} {fs : List Frame}
    (h : Pending m s rest junk place (f :: fs)) (hle : junk.length + f.header.length ≤ s.length) :
    ∃ s', s = junk ++ lb :: (f.tag ++ rb :: s') ∧ s' ++ rest = f.payload ++ stream fs ∧
      m = place + f.header.length + s'.length := by
  have hpre : junk ++ f.header <+: s := by
    have hwhole : junk ++ f.header <+: s ++ rest := by
      rw [h.eq, stream_cons, f.text_eq, List.append_assoc, ← List.append_assoc junk]
      exact List.prefix_append _ _
    refine List.prefix_of_prefix_length_le hwhole (List.prefix_append s rest) ?_
    rw [List.length_append]
    exact hle
  obtain ⟨s', rfl⟩ := hpre
  refine ⟨s', by rw [List.append_assoc, f.header_append], ?_, ?_⟩
  · have heq : junk ++ f.header ++ (s' ++ rest) = junk ++ f.header ++ (f.payload ++ stream fs) := by
      rw [← List.append_assoc, h.eq, stream_cons, f.text_eq]
      simp
    exact List.append_cancel_left heq
  · have hplace := h.place
    simp only [List.length_append] at hplace
    omega

/-- The call for a frame of whose payload a part has arrived. -/
theorem callAt_of_part {m place : ℕ} {f : Frame} {s z : List Byte} (hpayload : f.payload = s ++ z)
    (hm : m = place + f.header.length + s.length) :
    callAt m (place + f.header.length, f) = dispatch f.tag (s.take (payloadSize - 1)) := by
  have hsmall := f.length_payload_lt
  rw [hpayload, List.length_append] at hsmall
  rw [callAt, hpayload, hm, Nat.add_sub_cancel_left, List.take_left,
    List.take_of_length_le (by omega)]

/-- The call for a frame that has arrived. -/
theorem callAt_of_whole {m place : ℕ} {f : Frame} (hm : place + f.text.length ≤ m) :
    callAt m (place + f.header.length, f) =
      dispatch f.tag (f.payload.take (payloadSize - 1)) := by
  have hsmall := f.length_payload_lt
  rw [f.text_eq, List.length_append] at hm
  rw [callAt, List.take_of_length_le (by dsimp only; omega), List.take_of_length_le (by omega)]

/-- **What one round takes off**: the frames whose tags are complete, each with what has arrived of
its payload. The induction is on the frames. -/
theorem split_of_pending {m place n : ℕ} {s rest junk : List Byte} {fs : List Frame}
    (h : Pending m s rest junk place fs) (hn : s.length ≤ n) :
    ∃ done todo junk', fs = done ++ todo ∧
      calls (split n s).1 = (placed place done).filterMap (callAt m) ∧
      Pending m (split n s).2 rest junk' (place + (stream done).length) todo ∧
      (∀ x ∈ placed place done, x.1 ≤ m) ∧
      ∀ x ∈ placed (place + (stream done).length) todo, m < x.1 := by
  induction fs generalizing s junk place n with
  | nil =>
    rw [h.of_nil n]
    exact ⟨[], [], junk, rfl, rfl, h, nofun, nofun⟩
  | cons f fs ih =>
    have hplace := h.place
    by_cases hlt : s.length < junk.length + f.header.length
    · rw [h.of_lt n hlt]
      refine ⟨[], f :: fs, junk, rfl, rfl, h, nofun, fun x hx => ?_⟩
      exact lt_of_mem_placed_cons hx (by omega)
    obtain ⟨s', rfl, hs', hm⟩ := h.exists_of_le (Nat.not_lt.mp hlt)
    have htext : f.text.length = f.header.length + f.payload.length := by
      rw [f.text_eq, List.length_append]
    have hhandled : place + f.header.length ≤ m := by omega
    obtain ⟨k, rfl⟩ : ∃ k, n = k + 1 := by
      refine ⟨n - 1, ?_⟩
      simp only [List.length_append, List.length_cons] at hn
      omega
    simp only [List.length_append, List.length_cons] at hn
    rcases List.append_eq_append_iff.mp hs' with ⟨z, hpayload, hrest⟩ | ⟨t, rfl, ht⟩
    · -- the read ends in the payload
      have hplain : lb ∉ s' ++ z := hpayload ▸ f.payload_plain.1
      have hsmall := f.length_payload_lt
      rw [hpayload, List.length_append] at htext hsmall
      have hsplit := split_of_header k h.plain f.tag_plain.2
        (fun hmem => hplain (List.mem_append_left z hmem))
        (head?_of_stream (show [] ++ [] = stream [] from rfl))
      have hnil : split k [] = ([], []) := by cases k <;> rfl
      rw [List.append_nil] at hsplit
      rw [hsplit, hnil]
      refine ⟨[f], fs, z, rfl, ?_, ⟨hrest, fun hmem => hplain (List.mem_append_right s' hmem),
        by omega, ?_⟩, ?_, ?_⟩
      · rw [placed, placed, List.filterMap_cons, callAt_of_part hpayload hm, calls]
        rfl
      · rw [stream_singleton, List.length_nil]
        omega
      · intro x hx
        obtain rfl := List.mem_singleton.mp hx
        exact hhandled
      · intro x hx
        have hlater := lt_of_mem_placed hx
        rw [stream_singleton] at hlater
        omega
    · -- the whole payload is there
      rw [List.length_append] at hm hn
      rw [split_of_header k h.plain f.tag_plain.2 f.payload_plain.1 (head?_of_stream ht.symm)]
      have hrest : Pending m t rest [] (place + f.text.length) fs :=
        ⟨ht.symm, List.not_mem_nil, by decide, by rw [List.length_nil]; omega⟩
      obtain ⟨done, todo, junk', rfl, hcalls, hpending, hdone, htodo⟩ :=
        ih hrest (show t.length ≤ k by omega)
      have hcall : callAt m (place + f.header.length, f) = _ :=
        callAt_of_whole (show place + f.text.length ≤ m by omega)
      have hnext : place + f.text.length + (stream done).length =
          place + (stream (f :: done)).length := by
        rw [stream_cons, List.length_append, Nat.add_assoc]
      rw [hnext] at hpending htodo
      refine ⟨f :: done, todo, junk', rfl, ?_, hpending, ?_, htodo⟩
      · rw [placed, List.filterMap_cons, hcall, ← hcalls]
        rfl
      · intro x hx
        rcases List.mem_cons.mp hx with rfl | hx
        · exact hhandled
        · exact hdone x hx

/-! ### All rounds -/

/-- The number of bytes that have arrived when at least `h` have, `m` having arrived before. -/
def received (m : ℕ) : List (List Byte) → ℕ → ℕ
  | [], _ => m
  | rd :: rds, h => if h ≤ m then m else received (m + rd.length) rds h

theorem received_of_le {m h : ℕ} (rds : List (List Byte)) (hle : h ≤ m) : received m rds h = m := by
  cases rds with
  | nil => rfl
  | cons rd rds => exact if_pos hle

theorem received_of_lt {m h : ℕ} (rd : List Byte) (rds : List (List Byte)) (hlt : m < h) :
    received m (rd :: rds) h = received (m + rd.length) rds h :=
  if_neg (Nat.not_le.mpr hlt)

/-- What is kept between two reads is short. -/
theorem Pending.length_lt {m place : ℕ} {s rest junk : List Byte} {fs : List Frame}
    (h : Pending m s rest junk place fs) (hahead : ∀ x ∈ placed place fs, m < x.1) :
    s.length < 2 * payloadSize := by
  have hsmall := h.small
  have hplace := h.place
  cases fs with
  | nil =>
    have hlen := congrArg List.length h.eq
    rw [stream, List.map_nil, List.flatten_nil, List.append_nil, List.length_append] at hlen
    omega
  | cons f fs =>
    have hfirst := hahead _ List.mem_cons_self
    have hfits := f.fits
    rw [length_frame] at hfits
    dsimp only at hfirst
    rw [f.length_header] at hfirst
    omega

theorem Pending.read {m place : ℕ} {s rd rest junk : List Byte} {fs : List Frame}
    (h : Pending m s (rd ++ rest) junk place fs) :
    Pending (m + rd.length) (s ++ rd) rest junk place fs := by
  refine ⟨by rw [List.append_assoc, h.eq], h.plain, h.small, ?_⟩
  have hplace := h.place
  rw [List.length_append]
  omega

/-- When everything has arrived, every tag is complete. -/
theorem Pending.eq_nil {m place : ℕ} {s junk : List Byte} {fs : List Frame}
    (h : Pending m s [] junk place fs) (hahead : ∀ x ∈ placed place fs, m < x.1) : fs = [] := by
  cases fs with
  | nil => rfl
  | cons f fs =>
    have hlen := congrArg List.length h.eq
    have hfirst := hahead _ List.mem_cons_self
    have hplace := h.place
    rw [List.append_nil, stream_cons, f.text_eq] at hlen
    simp only [List.length_append] at hlen hfirst
    omega

/-- **What all rounds take off**: every frame once, with what has arrived of its payload when its
tag is complete. The induction is on the reads. -/
theorem recvMsg_of_pending {m place : ℕ} {accum junk : List Byte} {fs : List Frame}
    {rds : List (List Byte)} (h : Pending m accum rds.flatten junk place fs)
    (hahead : ∀ x ∈ placed place fs, m < x.1)
    (hrds : ∀ rd ∈ rds, rd ≠ [] ∧ rd.length < payloadSize) :
    recvMsg accum rds = (placed place fs).filterMap fun x => callAt (received m rds x.1) x := by
  induction rds generalizing m accum junk place fs with
  | nil =>
    rw [h.eq_nil hahead]
    rfl
  | cons rd rds ih =>
    have hshort := h.length_lt hahead
    obtain ⟨hne, hrd⟩ := hrds rd List.mem_cons_self
    have hroom : 3 * payloadSize ≤ accumSize := by decide
    have hrecv : recv accum rd = (calls (split (accum ++ rd).length (accum ++ rd)).1,
        (split (accum ++ rd).length (accum ++ rd)).2) := by
      rw [recv, if_neg (by omega)]
    obtain ⟨done, todo, junk', rfl, hcalls, hpending, hdone, htodo⟩ :=
      split_of_pending h.read (Nat.le_refl _)
    rw [recvMsg, if_neg hne, hrecv, hcalls, placed_append, List.filterMap_append,
      ih hpending htodo fun rd' hrd' => hrds rd' (List.mem_cons_of_mem rd hrd')]
    rw [placed_append] at hahead
    refine congrArg₂ _ (List.filterMap_congr fun x hx => ?_) (List.filterMap_congr fun x hx => ?_)
    · rw [received_of_lt rd rds (hahead x (List.mem_append_left _ hx)),
        received_of_le rds (hdone x hx)]
    · rw [received_of_lt rd rds (hahead x (List.mem_append_right _ hx))]

/-! ### What has arrived of a payload -/

/-- A text is continued with white space only, or not at all. -/
def Arrived (y z : List Byte) : Prop := (∀ b ∈ cString z, isSpace b) ∨ 0 ∈ y

theorem trim_cString_append_iff {y z : List Byte} :
    trim isSpace (cString (y ++ z)) = trim isSpace (cString y) ↔ Arrived y z := by
  by_cases h0 : 0 ∈ y
  · exact iff_of_true (congrArg _ (cString_append_of_mem h0 z)) (.inr h0)
  · rw [Arrived, or_iff_left h0, cString_of_not_mem h0, cString_append_of_not_mem h0,
      trim_append_eq_iff]

theorem isGetdb_of_isPrefix {p q : List Byte} (h : p <+: q) (hp : isGetdb p) : isGetdb q := by
  obtain ⟨t, rfl⟩ := h
  have hlen : 5 ≤ p.length := by
    have := congrArg List.length (of_decide_eq_true hp)
    rw [List.length_map, List.length_take] at this
    change min 5 p.length = 5 at this
    omega
  rw [isGetdb, List.take_append_of_le_length hlen]
  exact hp

theorem dispatch_eq (tag payload : List Byte) :
    dispatch tag payload = (handler (cString tag) (trim isSpace (cString payload))).map fun h =>
      ⟨h, cString tag, trim isSpace (cString payload)⟩ := rfl

/-- A frame that is handled for the beginning of its payload is handled for all of it. -/
theorem isSome_dispatch_append {tag y : List Byte} (h : (dispatch tag y).isSome) (z : List Byte) :
    (dispatch tag (y ++ z)).isSome := by
  rw [dispatch_eq, Option.isSome_map, handler] at h ⊢
  by_cases htag : cString tag = bytes "RASPBERRYPI"
  · rw [if_pos htag]
    rfl
  · rw [if_neg htag] at h ⊢
    by_cases hget : isGetdb (trim isSpace (cString y))
    · obtain ⟨w, hw⟩ := cString_prefix y z
      have hne : trim isSpace (cString y) ≠ [] := by
        intro hnil
        rw [hnil] at hget
        cases hget
      rw [hw, if_pos (isGetdb_of_isPrefix (trim_isPrefix hne w) hget)]
      rfl
    · rw [if_neg hget] at h
      cases h

/-- The beginning of a payload leads to the call for all of it when only white space is missing, and
only then. -/
theorem dispatch_eq_iff (tag y z : List Byte) :
    dispatch tag y = dispatch tag (y ++ z) ↔
      ((dispatch tag (y ++ z)).isSome → Arrived y z) := by
  cases hwhole : dispatch tag (y ++ z) with
  | none =>
    refine iff_of_true ?_ nofun
    cases hpart : dispatch tag y with
    | none => rfl
    | some c =>
      have := isSome_dispatch_append (by rw [hpart]; rfl : (dispatch tag y).isSome) z
      rw [hwhole] at this
      cases this
  | some c =>
    rw [Option.isSome_some, ← trim_cString_append_iff, eq_self, true_implies]
    rw [dispatch_eq] at hwhole ⊢
    constructor
    · intro hpart
      obtain ⟨_, -, rfl⟩ := Option.map_eq_some_iff.mp hwhole
      obtain ⟨_, -, hcall⟩ := Option.map_eq_some_iff.mp hpart
      exact (congrArg Call.payload hcall).symm
    · intro heq
      rw [← heq, hwhole]

/-! ### Two ways to cut a stream -/

/-- The read that completes the tag of a frame brings its payload as well, up to white space. -/
def Intact (rds : List (List Byte)) (x : ℕ × Frame) : Prop :=
  Arrived (x.2.payload.take (received 0 rds x.1 - x.1)) (x.2.payload.drop (received 0 rds x.1 - x.1))

/-- The calls for a stream of frames that is there at once. -/
def callsAtOnce (fs : List Frame) : List Call := calls (split (stream fs).length (stream fs)).1

theorem le_of_mem_placed {place : ℕ} {fs : List Frame} {x : ℕ × Frame} (h : x ∈ placed place fs) :
    x.1 + x.2.payload.length ≤ place + (stream fs).length := by
  induction fs generalizing place with
  | nil => cases h
  | cons f fs ih =>
    rw [stream_cons, List.length_append]
    rcases List.mem_cons.mp h with rfl | h
    · rw [f.text_eq, List.length_append]
      dsimp only
      omega
    · have := ih h
      omega

theorem snd_placed (place : ℕ) (fs : List Frame) : (placed place fs).map Prod.snd = fs := by
  induction fs generalizing place with
  | nil => rfl
  | cons f fs ih => rw [placed, List.map_cons, ih]

/-- At once, every frame that has a handler leads to one call, in order. -/
theorem callsAtOnce_eq (fs : List Frame) :
    callsAtOnce fs = (placed 0 fs).filterMap fun x => dispatch x.2.tag x.2.payload := by
  have hstart : Pending (stream fs).length (stream fs) [] [] 0 fs :=
    ⟨List.append_nil _, List.not_mem_nil, by decide, Nat.add_comm _ _⟩
  obtain ⟨done, todo, junk, rfl, hcalls, hpending, hdone, htodo⟩ :=
    split_of_pending hstart (Nat.le_refl _)
  obtain rfl := hpending.eq_nil htodo
  rw [callsAtOnce, hcalls, List.append_nil]
  refine List.filterMap_congr fun x hx => ?_
  have hle := le_of_mem_placed hx
  rw [callAt, List.take_of_length_le (by omega)]

/-- A selection that takes no element more than another one is the same if it takes the same from
each element. -/
theorem filterMap_eq_iff {α β : Type*} {g h : α → Option β} {l : List α}
    (hsome : ∀ x ∈ l, (g x).isSome → (h x).isSome) :
    l.filterMap g = l.filterMap h ↔ ∀ x ∈ l, g x = h x := by
  have hlen : ∀ l : List α, (∀ x ∈ l, (g x).isSome → (h x).isSome) →
      (l.filterMap g).length ≤ (l.filterMap h).length := by
    intro l hl
    rw [List.length_filterMap_eq_countP, List.length_filterMap_eq_countP]
    exact List.countP_mono_left hl
  refine ⟨fun heq => ?_, List.filterMap_congr⟩
  induction l with
  | nil => exact List.forall_mem_nil _
  | cons x l ih =>
    have hrest := fun y hy => hsome y (List.mem_cons_of_mem x hy)
    cases hg : g x with
    | none =>
      rw [List.filterMap_cons_none hg] at heq
      cases hh : h x with
      | none =>
        rw [List.filterMap_cons_none hh] at heq
        exact List.forall_mem_cons.mpr ⟨hg.trans hh.symm, ih hrest heq⟩
      | some b =>
        -- the other selection would be longer
        rw [List.filterMap_cons_some hh] at heq
        have hlonger := congrArg List.length heq
        rw [List.length_cons] at hlonger
        have := hlen l hrest
        omega
    | some b =>
      obtain ⟨b', hh⟩ := Option.isSome_iff_exists.mp (hsome x List.mem_cons_self (by rw [hg]; rfl))
      rw [List.filterMap_cons_some hg, List.filterMap_cons_some hh] at heq
      obtain ⟨rfl, htail⟩ := List.cons.inj heq
      exact List.forall_mem_cons.mpr ⟨hg.trans hh.symm, ih hrest htail⟩

/-- **Segmentation.** Split at once, every frame with a handler leads to one call. Read in pieces,
the same calls are made if and only if, for every such frame, the read that completes its tag brings
its payload up to white space. -/
theorem segmentation_independent_iff {fs : List Frame} {rds : List (List Byte)}
    (hcut : rds.flatten = stream fs) (hrds : ∀ rd ∈ rds, rd ≠ [] ∧ rd.length < payloadSize) :
    callsAtOnce fs = fs.filterMap (fun f => dispatch f.tag f.payload) ∧
      (recvMsg [] rds = callsAtOnce fs ↔
        ∀ x ∈ placed 0 fs, (dispatch x.2.tag x.2.payload).isSome → Intact rds x) := by
  constructor
  · rw [callsAtOnce_eq]
    conv_rhs => rw [← snd_placed 0 fs, List.filterMap_map]
    rfl
  have hstart : Pending 0 [] rds.flatten [] 0 fs := ⟨hcut, List.not_mem_nil, by decide, rfl⟩
  rw [callsAtOnce_eq, recvMsg_of_pending hstart (fun x hx => lt_of_mem_placed hx) hrds,
    filterMap_eq_iff]
  · refine forall₂_congr fun x _ => ?_
    have hiff := dispatch_eq_iff x.2.tag (x.2.payload.take (received 0 rds x.1 - x.1))
      (x.2.payload.drop (received 0 rds x.1 - x.1))
    rw [List.take_append_drop] at hiff
    exact hiff
  · intro x _ hsome
    rw [callAt] at hsome
    rw [← List.take_append_drop (received 0 rds x.1 - x.1) x.2.payload]
    exact isSome_dispatch_append hsome _

/-- A detection as it is relayed. -/
def relayedQ1 : Frame :=
  ⟨bytes "RASPBERRYPI", bytes "Q@1\n", by decide, by decide, rfl, by decide⟩

/-- The newline comes with the next read. -/
theorem segmentation_independent_witness :
    recvMsg [] [bytes "[RASPBERRYPI]Q@1", bytes "\n"] = callsAtOnce [relayedQ1] := by
  refine (@segmentation_independent_iff [relayedQ1] [bytes "[RASPBERRYPI]Q@1", bytes "\n"]
    (by decide) (by decide)).2.mpr fun x hx _ => ?_
  obtain rfl := List.mem_singleton.mp hx
  exact .inl (forall_mem_of_all rfl)

/-- The payload is cut behind `Q@`: the handler is called without the level. -/
theorem not_segmentation_independent :
    ¬∀ (fs : List Frame) (rds : List (List Byte)), rds.flatten = stream fs →
      (∀ rd ∈ rds, rd ≠ [] ∧ rd.length < payloadSize) → recvMsg [] rds = callsAtOnce fs := by
  intro h
  have hsame := h [relayedQ1] [bytes "[RASPBERRYPI]Q@", bytes "1\n"] rfl (by decide)
  have hcut : recvMsg [] [bytes "[RASPBERRYPI]Q@", bytes "1\n"] =
      [⟨.fromRpi, bytes "RASPBERRYPI", bytes "Q@"⟩] := by decide
  have hwhole : callsAtOnce [relayedQ1] = [⟨.fromRpi, bytes "RASPBERRYPI", bytes "Q@1"⟩] := by
    decide
  rw [hcut, hwhole] at hsame
  exact absurd hsame (by decide)

end DbClient

end DroneTurret
