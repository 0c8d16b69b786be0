import DroneTurret.DbClient.InPlace
import DroneTurret.Lib.Transition

/-!
# The arrays of `recv_msg`

`split` and `recv` treat what has been gathered as a text. Here it is what it is in the program, the
first `acc_len` bytes of an array, and a frame is found by pointers into it. Lengths are differences
of pointers, converted to `size_t`, so that one that comes out negative is a very large one. The
blocks of the arrays that are read or written are recorded.

The system takes a step from each statement of the outer loop to the next, and one for each
iteration of the inner loop. Its input is what `read` stores.

## Main definitions

* `RecvMsg` — the variables of `recv_msg`, and the place it is at
* `RecvMsg.turn` — one step, with the blocks it uses
* `recvLoop` — the system
* `RecvMsg.Valid` — what holds at every place

## Main results

* `RecvMsg.Valid.turn` — one step keeps to the arrays
* `recvLoop_safe` — so does every run, and the inner loop ends
-/

namespace DroneTurret

namespace DbClient

open Blocks CString Relay

/-! ### The program -/

/-- The arrays of `recv_msg`. -/
inductive Buffer
  | rx
  | accum
  | payload
  deriving DecidableEq

/-- `sizeof`. -/
def Buffer.size : Buffer → ℕ
  | .accum => accumSize
  | _ => payloadSize

/-- A place in `recv_msg`, with what the local variables hold. -/
inductive Place
  /-- At `read`. -/
  | read
  /-- At the test whether `n` bytes fit. -/
  | fit (n : ℕ)
  /-- At `memcpy`. -/
  | append (n : ℕ)
  /-- At `while(i < acc_len)`. -/
  | scan (i : ℕ)
  /-- Behind the inner loop. -/
  | keep (i : ℕ)
  | returned
  deriving DecidableEq

structure RecvMsg where
  rx : List Byte
  accum : List Byte
  accLen : ℕ
  payload : List Byte
  place : Place
  /-- The calls of handlers so far. -/
  calls : List Call
  deriving DecidableEq

/-- What makes the next step happen. -/
inductive Input
  /-- `read` stores these bytes; if there are none, it is at the end or has failed. -/
  | read (rd : List Byte)
  | next
  deriving DecidableEq

/-- `memchr(accum + i, c, n)`, as an offset. -/
def memchrAt (s : List Byte) (i n : ℕ) (c : Byte) : Option ℕ :=
  (memchr ((s.drop i).take n) c).map fun r => i + r.1.length

namespace RecvMsg

/-- `read`, the terminator and `fputs`. -/
def read (s : RecvMsg) (rd : List Byte) : RecvMsg × List (Access Buffer) :=
  if rd = [] then ({ s with place := .returned }, [])
  else
    let rx := (store s.rx 0 rd).set rd.length 0
    ({ s with rx, place := .fit rd.length },
      [⟨.rx, 0, rd.length⟩, ⟨.rx, rd.length, 1⟩, ⟨.rx, 0, (cString rx).length + 1⟩])

/-- `if(acc_len + n >= sizeof(accum)) { acc_len = 0; }`. -/
def fit (s : RecvMsg) (n : ℕ) : RecvMsg × List (Access Buffer) :=
  ({ s with accLen := if s.accLen + n ≥ accumSize then 0 else s.accLen, place := .append n }, [])

/-- `memcpy`, the new length and the terminator. -/
def append (s : RecvMsg) (n : ℕ) : RecvMsg × List (Access Buffer) :=
  ({ s with
      accum := (store s.accum s.accLen (s.rx.take n)).set (s.accLen + n) 0
      accLen := s.accLen + n
      place := .scan 0 },
    [⟨.rx, 0, n⟩, ⟨.accum, s.accLen, n⟩, ⟨.accum, s.accLen + n, 1⟩])

/-- `next_lb ? next_lb : (accum + acc_len)`, as an offset. -/
def stop (s : RecvMsg) (r : ℕ) : ℕ :=
  (memchrAt s.accum (r + 1) (sizeDiff s.accLen (r + 1)) lb).getD s.accLen

def copyLen (s : RecvMsg) (r : ℕ) : ℕ :=
  let payloadLen := sizeDiff (s.stop r) (r + 1)
  if payloadLen < payloadSize - 1 then payloadLen else payloadSize - 1

/-- The payload in front of the terminator. -/
def block (s : RecvMsg) (r : ℕ) : List Byte := ((s.accum.set r 0).drop (r + 1)).take (s.copyLen r)

/-- `payload` with its terminator. -/
def copied (s : RecvMsg) (r : ℕ) : List Byte :=
  (store s.payload 0 (s.block r)).set (s.copyLen r) 0

/-- The rest of an iteration when the brackets have been found at `l` and `r`. -/
def frame (s : RecvMsg) (l r : ℕ) : RecvMsg × List (Access Buffer) :=
  let accum := s.accum.set r 0
  let ltrimmed := ltrimInplace (s.copied r)
  let rtrimmed := rtrimInplace ltrimmed.1
  let tag := stringAt accum (l + 1)
  let text := cString rtrimmed.1
  ({ s with
      accum
      payload := rtrimmed.1
      place := .scan (s.stop r)
      calls := s.calls ++ ((handler tag text).map fun h => ⟨h, tag, text⟩).toList },
    [⟨.accum, r + 1, sizeDiff s.accLen (r + 1)⟩, ⟨.accum, r, 1⟩, ⟨.accum, r + 1, s.copyLen r⟩,
      ⟨.payload, 0, s.copyLen r⟩, ⟨.payload, s.copyLen r, 1⟩] ++
      (ltrimmed.2 ++ rtrimmed.2).map (fun x => ⟨.payload, x.1, x.2⟩) ++
      [⟨.accum, l + 1, tag.length + 1⟩, ⟨.payload, 0, text.length + 1⟩])

/-- The test of the inner loop and its body. -/
def scan (s : RecvMsg) (i : ℕ) : RecvMsg × List (Access Buffer) :=
  if i < s.accLen then
    let rest := sizeDiff s.accLen i
    match memchrAt s.accum i rest lb with
    | none => ({ s with place := .keep i }, [⟨.accum, i, rest⟩])
    | some l =>
      let inner := sizeDiff s.accLen (l + 1)
      match memchrAt s.accum (l + 1) inner rb with
      | none => ({ s with place := .keep i }, [⟨.accum, i, rest⟩, ⟨.accum, l + 1, inner⟩])
      | some r => ((s.frame l r).1, ⟨.accum, i, rest⟩ :: ⟨.accum, l + 1, inner⟩ :: (s.frame l r).2)
  else ({ s with place := .keep i }, [])

/-- What is left is moved to the front. -/
def keep (s : RecvMsg) (i : ℕ) : RecvMsg × List (Access Buffer) :=
  if i < s.accLen then
    let rest := sizeDiff s.accLen i
    ({ s with
        accum := store s.accum 0 ((s.accum.drop i).take rest)
        accLen := rest
        place := .read },
      [⟨.accum, i, rest⟩, ⟨.accum, 0, rest⟩])
  else ({ s with accLen := 0, place := .read }, [])

/-- One step. `read` stores no more than `sizeof(rx) - 1` bytes. -/
def turn (s : RecvMsg) : Input → Option (RecvMsg × List (Access Buffer))
  | .read rd =>
    match s.place with
    | .read => if rd.length ≤ payloadSize - 1 then some (s.read rd) else none
    | _ => none
  | .next =>
    match s.place with
    | .fit n => some (s.fit n)
    | .append n => some (s.append n)
    | .scan i => some (s.scan i)
    | .keep i => some (s.keep i)
    | _ => none

/-- Nothing has been gathered; the other two arrays hold anything. -/
structure Initial (s : RecvMsg) : Prop where
  rx : s.rx.length = payloadSize
  accum : s.accum = List.replicate accumSize 0
  accLen : s.accLen = 0
  payload : s.payload.length = payloadSize
  place : s.place = .read
  calls : s.calls = []

end RecvMsg

/-- `recv_msg`. -/
def recvLoop : Transition RecvMsg Input where
  init := RecvMsg.Initial
  step s a := (s.turn a).map Prod.fst

/-! ### Where `memchr` finds a byte -/

theorem memchrAt_bounds {s : List Byte} {i n p : ℕ} {c : Byte} (h : memchrAt s i n c = some p) :
    i ≤ p ∧ p < i + n ∧ p < s.length := by
  rw [memchrAt] at h
  obtain ⟨⟨u, v⟩, huv, rfl⟩ := Option.map_eq_some_iff.mp h
  have hlen := congrArg List.length (memchr_eq_some_iff.mp huv).1
  rw [List.length_take, List.length_drop, List.length_append, List.length_cons] at hlen
  dsimp only
  omega

/-! ### What keeps the blocks in the arrays -/

theorem sizes : payloadSize = 256 ∧ accumSize = 4096 := ⟨rfl, rfl⟩

/-- What is known of the local variables. -/
def Place.Holds (accLen : ℕ) : Place → Prop
  | .fit n => n < payloadSize
  | .append n => n < payloadSize ∧ accLen + n < accumSize
  | .scan i => i ≤ accLen
  | .keep i => i ≤ accLen
  | _ => True

namespace RecvMsg

/-- The arrays have their sizes, and there is room for a terminator. -/
structure Valid (s : RecvMsg) : Prop where
  rx : s.rx.length = payloadSize
  accum : s.accum.length = accumSize
  payload : s.payload.length = payloadSize
  accLen : s.accLen < accumSize
  place : s.place.Holds s.accLen

/-- The result of a step. -/
structure Safe (r : RecvMsg × List (Access Buffer)) : Prop where
  valid : r.1.Valid
  inside : ∀ x ∈ r.2, x.Inside Buffer.size

theorem Initial.valid {s : RecvMsg} (h : s.Initial) : s.Valid := by
  refine ⟨h.rx, ?_, h.payload, ?_, ?_⟩
  · rw [h.accum, List.length_replicate]
  · rw [h.accLen]
    exact Nat.succ_pos _
  · rw [h.place]
    exact trivial

variable {s : RecvMsg}

/-- A difference of offsets into what has been gathered. -/
theorem Valid.sizeDiff_eq (h : s.Valid) {p q : ℕ} (hq : q ≤ p) (hp : p ≤ s.accLen) :
    sizeDiff p q = p - q := by
  have hlen := h.accLen
  have haccum : accumSize < 2 ^ 64 := by decide
  exact Blocks.sizeDiff_eq hq (by omega)

theorem Valid.read (h : s.Valid) {rd : List Byte} (hrd : rd.length ≤ payloadSize - 1) :
    Safe (s.read rd) := by
  have hrx := h.rx
  obtain ⟨hpayload, -⟩ := sizes
  have hn : rd.length < payloadSize := by omega
  rw [RecvMsg.read]
  split_ifs with hnil
  · exact ⟨⟨hrx, h.accum, h.payload, h.accLen, trivial⟩, List.forall_mem_nil _⟩
  have hset := store_zero_set (s := s.rx) (t := rd) (by omega) 0
  have hlen : (rd ++ 0 :: s.rx.drop (rd.length + 1)).length = payloadSize := by
    rw [List.length_append, List.length_cons, List.length_drop]
    omega
  have hnul : NulAt (rd ++ 0 :: s.rx.drop (rd.length + 1)) rd.length := by
    rw [NulAt, List.getElem?_append_right (Nat.le_refl _), Nat.sub_self]
    rfl
  have hstring := hnul.length_stringAt (Nat.zero_le _)
  rw [stringAt, List.drop_zero] at hstring
  dsimp only
  rw [hset]
  refine ⟨⟨hlen, h.accum, h.payload, h.accLen, hn⟩, ?_⟩
  simp only [List.forall_mem_cons, Access.Inside, Buffer.size]
  exact ⟨by omega, by omega, by omega, List.forall_mem_nil _⟩

theorem Valid.fit (h : s.Valid) {n : ℕ} (hn : n < payloadSize) : Safe (s.fit n) := by
  have hlen := h.accLen
  obtain ⟨hpayload, haccum⟩ := sizes
  have hfit : (if s.accLen + n ≥ accumSize then 0 else s.accLen) + n < accumSize := by
    split_ifs <;> omega
  refine ⟨⟨h.rx, h.accum, h.payload, ?_, hn, hfit⟩, List.forall_mem_nil _⟩
  exact Nat.lt_of_le_of_lt (Nat.le_add_right _ n) hfit

theorem Valid.append (h : s.Valid) {n : ℕ} (hn : n < payloadSize)
    (hfit : s.accLen + n < accumSize) :
    Safe (s.append n) := by
  have haccum := h.accum
  have hrx := h.rx
  obtain ⟨hpayload, -⟩ := sizes
  have hblock : (s.rx.take n).length = n := by
    rw [List.length_take]
    omega
  refine ⟨⟨hrx, ?_, h.payload, hfit, Nat.zero_le _⟩, ?_⟩
  · change (List.set _ _ _).length = accumSize
    rw [List.length_set, length_store (by omega), haccum]
  · simp only [RecvMsg.append, List.forall_mem_cons, Access.Inside, Buffer.size]
    exact ⟨by omega, by omega, by omega, List.forall_mem_nil _⟩

/-- A payload ends behind its bracket, and not behind what has been gathered. -/
theorem Valid.stop (h : s.Valid) {r : ℕ} (hr : r < s.accLen) :
    r + 1 ≤ s.stop r ∧ s.stop r ≤ s.accLen := by
  rw [RecvMsg.stop, h.sizeDiff_eq hr (Nat.le_refl _)]
  cases hnext : memchrAt s.accum (r + 1) (s.accLen - (r + 1)) lb with
  | none => exact ⟨hr, Nat.le_refl _⟩
  | some p =>
    obtain ⟨hle, hlt, -⟩ := memchrAt_bounds hnext
    rw [Option.getD_some]
    omega

theorem Valid.copyLen_eq (h : s.Valid) {r : ℕ} (hr : r < s.accLen) :
    s.copyLen r = min (s.stop r - (r + 1)) (payloadSize - 1) := by
  obtain ⟨hle, hstop⟩ := h.stop hr
  rw [copyLen, h.sizeDiff_eq hle hstop]
  split_ifs <;> omega

theorem Valid.length_block (h : s.Valid) {r : ℕ} (hr : r < s.accLen) :
    (s.block r).length = s.copyLen r := by
  obtain ⟨hle, hstop⟩ := h.stop hr
  have hcopy := h.copyLen_eq hr
  have haccum := h.accum
  have hlen := h.accLen
  rw [block, List.length_take, List.length_drop, List.length_set]
  omega

/-- The payload is cut to the size of the array, and terminated. -/
theorem Valid.copied_eq (h : s.Valid) {r : ℕ} (hr : r < s.accLen) :
    s.copied r = s.block r ++ 0 :: s.payload.drop (s.copyLen r + 1) := by
  have hblock := h.length_block hr
  have hcopy := h.copyLen_eq hr
  have hpayload := h.payload
  obtain ⟨hsize, -⟩ := sizes
  have hset := store_zero_set (s := s.payload) (t := s.block r) (by omega) 0
  rwa [hblock] at hset

theorem Valid.frame (h : s.Valid) {l r : ℕ} (hl : l < r) (hr : r < s.accLen) :
    Safe (s.frame l r) := by
  obtain ⟨hle, hstop⟩ := h.stop hr
  have hblock := h.length_block hr
  have hcopy := h.copyLen_eq hr
  have hcopied := h.copied_eq hr
  have haccum := h.accum
  have hpayload := h.payload
  have hlen := h.accLen
  obtain ⟨hsize, -⟩ := sizes
  have hlength : (s.copied r).length = payloadSize := by
    rw [hcopied, List.length_append, List.length_cons, List.length_drop]
    omega
  have hzero : 0 ∈ s.copied r := hcopied ▸ List.mem_append_right _ List.mem_cons_self
  have hleft := ltrimInplace_leaves hzero
  have hright := rtrimInplace_leaves hleft.nul
  -- the strings end where the arrays do, or earlier
  have hnul : NulAt (s.accum.set r 0) r := List.getElem?_set_self (by omega)
  have htag := hnul.length_stringAt (show l + 1 ≤ r from hl)
  have hstring : ∀ t : List Byte, 0 ∈ t → t.length = payloadSize →
      (cString t).length + 1 ≤ payloadSize := by
    intro t ht hsize
    obtain ⟨u, rest, rfl, -, hu⟩ := exists_eq_append_zero ht
    rw [hu, ← hsize, List.length_append, List.length_cons]
    omega
  have hleftSize : (ltrimInplace (s.copied r)).1.length = payloadSize := by
    rw [hleft.length, hlength]
  have hrightSize : (rtrimInplace (ltrimInplace (s.copied r)).1).1.length = payloadSize := by
    rw [hright.length, hleftSize]
  have hset : (s.accum.set r 0).length = accumSize := by rw [List.length_set, haccum]
  have hvalid : ∀ payload calls, payload.length = payloadSize → Valid
      { s with accum := s.accum.set r 0, payload, place := .scan (s.stop r), calls } :=
    fun _ _ hpayload => ⟨h.rx, hset, hpayload, hlen, hstop⟩
  refine ⟨hvalid _ _ hrightSize, ?_⟩
  · simp only [RecvMsg.frame, List.forall_mem_append, List.forall_mem_cons, List.forall_mem_map,
      Access.Inside, Buffer.size, h.sizeDiff_eq hr (Nat.le_refl _)]
    refine ⟨⟨⟨by omega, by omega, by omega, by omega, by omega, List.forall_mem_nil _⟩, ?_, ?_⟩,
      by omega, ?_, List.forall_mem_nil _⟩
    · intro x hx
      exact Nat.le_trans (hleft.blocks x hx) (hstring _ hzero hlength)
    · intro x hx
      exact Nat.le_trans (hright.blocks x hx) (hstring _ hleft.nul hleftSize)
    · rw [Nat.zero_add]
      exact hstring _ hright.nul hrightSize

/-- Where the brackets of the next frame are. -/
theorem Valid.brackets (h : s.Valid) {i l r : ℕ} (hi : i < s.accLen)
    (hl : memchrAt s.accum i (sizeDiff s.accLen i) lb = some l)
    (hr : memchrAt s.accum (l + 1) (sizeDiff s.accLen (l + 1)) rb = some r) :
    i ≤ l ∧ l < r ∧ r < s.accLen := by
  rw [h.sizeDiff_eq (Nat.le_of_lt hi) (Nat.le_refl _)] at hl
  obtain ⟨hle, hlt, -⟩ := memchrAt_bounds hl
  have hlen : l + 1 ≤ s.accLen := by omega
  rw [h.sizeDiff_eq hlen (Nat.le_refl _)] at hr
  obtain ⟨hle', hlt', -⟩ := memchrAt_bounds hr
  omega

/-- An iteration of the inner loop. -/
theorem Valid.scan (h : s.Valid) {i : ℕ} (hi : i ≤ s.accLen) : Safe (s.scan i) := by
  have haccum := h.accum
  have hlen := h.accLen
  have hkeep : Valid { s with place := .keep i } := ⟨h.rx, haccum, h.payload, hlen, hi⟩
  rw [RecvMsg.scan]
  split_ifs with hlt
  swap
  · exact ⟨hkeep, List.forall_mem_nil _⟩
  have hrest := h.sizeDiff_eq (Nat.le_of_lt hlt) (Nat.le_refl _)
  have hfirst : (Access.mk Buffer.accum i (sizeDiff s.accLen i)).Inside Buffer.size := by
    rw [Access.Inside, hrest]
    change i + (s.accLen - i) ≤ accumSize
    omega
  dsimp only
  cases hl : memchrAt s.accum i (sizeDiff s.accLen i) lb with
  | none => exact ⟨hkeep, List.forall_mem_singleton.mpr hfirst⟩
  | some l =>
    rw [hrest] at hl
    obtain ⟨hle, hlt', -⟩ := memchrAt_bounds hl
    have hinner : sizeDiff s.accLen (l + 1) = s.accLen - (l + 1) :=
      h.sizeDiff_eq (by omega) (Nat.le_refl _)
    have hsecond : (Access.mk Buffer.accum (l + 1) (sizeDiff s.accLen (l + 1))).Inside
        Buffer.size := by
      rw [Access.Inside, hinner]
      change l + 1 + (s.accLen - (l + 1)) ≤ accumSize
      omega
    dsimp only
    cases hr : memchrAt s.accum (l + 1) (sizeDiff s.accLen (l + 1)) rb with
    | none =>
      exact ⟨hkeep, List.forall_mem_cons.mpr ⟨hfirst, List.forall_mem_singleton.mpr hsecond⟩⟩
    | some r =>
      rw [← hrest] at hl
      obtain ⟨-, hlr, hr'⟩ := h.brackets hlt hl hr
      obtain ⟨hvalid, hinside⟩ := h.frame hlr hr'
      exact ⟨hvalid, List.forall_mem_cons.mpr ⟨hfirst, List.forall_mem_cons.mpr ⟨hsecond, hinside⟩⟩⟩

theorem Valid.keep (h : s.Valid) {i : ℕ} (hi : i ≤ s.accLen) : Safe (s.keep i) := by
  have haccum := h.accum
  have hlen := h.accLen
  rw [RecvMsg.keep]
  split_ifs with hlt
  swap
  · exact ⟨⟨h.rx, haccum, h.payload, Nat.succ_pos _, trivial⟩, List.forall_mem_nil _⟩
  have hrest := h.sizeDiff_eq hi (Nat.le_refl _)
  dsimp only
  rw [hrest]
  refine ⟨⟨h.rx, ?_, h.payload, Nat.lt_of_le_of_lt (Nat.sub_le _ _) hlen, trivial⟩, ?_⟩
  · dsimp only
    rw [length_store, haccum]
    rw [List.length_take, List.length_drop]
    omega
  · simp only [List.forall_mem_cons, Access.Inside, Buffer.size]
    exact ⟨by omega, by omega, List.forall_mem_nil _⟩

/-- **One step** keeps to the arrays. -/
theorem Valid.turn (h : s.Valid) {a : Input} {r : RecvMsg × List (Access Buffer)}
    (hr : s.turn a = some r) : Safe r := by
  have hplace := h.place
  cases a with
  | read rd =>
    rw [RecvMsg.turn] at hr
    split at hr
    · split_ifs at hr with hrd
      obtain rfl := Option.some.inj hr
      exact h.read hrd
    · cases hr
  | next =>
    rw [RecvMsg.turn] at hr
    split at hr
    case h_5 => cases hr
    all_goals
      rename_i n heq
      rw [heq] at hplace
      obtain rfl := Option.some.inj hr
    · exact h.fit hplace
    · exact h.append hplace.1 hplace.2
    · exact h.scan hplace
    · exact h.keep hplace

theorem Valid.of_reachable (h : recvLoop.Reachable s) : s.Valid := by
  refine h.invariant Valid (fun _ hs => Initial.valid hs) ?_
  intro s a t hs _ ht
  obtain ⟨r, hr, rfl⟩ := Option.map_eq_some_iff.mp ht
  exact (hs.turn hr).valid

/-! ### The inner loop -/

/-- **One iteration** leaves the loop or goes on behind where it began. -/
theorem Valid.scan_place (h : s.Valid) (i : ℕ) :
    (s.scan i).1.place = .keep i ∨ ∃ j, (s.scan i).1.place = .scan j ∧ i < j := by
  rw [RecvMsg.scan]
  split_ifs with hlt
  swap
  · exact .inl rfl
  dsimp only
  cases hl : memchrAt s.accum i (sizeDiff s.accLen i) lb with
  | none => exact .inl rfl
  | some l =>
    dsimp only
    cases hr : memchrAt s.accum (l + 1) (sizeDiff s.accLen (l + 1)) rb with
    | none => exact .inl rfl
    | some r =>
      obtain ⟨hle, hlr, hr'⟩ := h.brackets hlt hl hr
      obtain ⟨hstop, -⟩ := h.stop hr'
      exact .inr ⟨s.stop r, rfl, by omega⟩

/-- What has been gathered stays as long as it is. -/
theorem accLen_scan (s : RecvMsg) (i : ℕ) : (s.scan i).1.accLen = s.accLen := by
  rw [RecvMsg.scan]
  split_ifs
  · dsimp only
    split
    · rfl
    · split <;> rfl
  · rfl

theorem step_of_turn {a : Input} {r : RecvMsg × List (Access Buffer)} (h : s.turn a = some r) :
    recvLoop.step s a = some r.1 :=
  congrArg (Option.map Prod.fst) h

theorem step_scan {i : ℕ} (hplace : s.place = .scan i) :
    recvLoop.step s .next = some (s.scan i).1 := by
  refine step_of_turn ?_
  rw [turn, hplace]

/-- **The loop** ends; the induction is on the bytes that are left. -/
theorem Valid.scan_ends {n : ℕ} (h : s.Valid) {i : ℕ} (hplace : s.place = .scan i)
    (hn : s.accLen - i ≤ n) :
    ∃ k ≤ n + 1, ∃ t, recvLoop.run (fun _ _ => True) s (List.replicate k .next) = some t ∧
      ∃ j, t.place = .keep j := by
  have hi : i ≤ s.accLen := by
    have := h.place
    rwa [hplace] at this
  have hstep := step_scan hplace
  induction n generalizing s i with
  | zero =>
    refine ⟨1, Nat.le_refl _, (s.scan i).1, ?_, ?_⟩
    · exact Transition.run_cons_eq_some.mpr ⟨trivial, _, hstep, rfl⟩
    · rw [RecvMsg.scan, if_neg (by omega)]
      exact ⟨i, rfl⟩
  | succ n ih =>
    rcases h.scan_place i with hkeep | ⟨j, hscan, hlt⟩
    · refine ⟨1, Nat.succ_le_succ (Nat.zero_le _), (s.scan i).1, ?_, i, hkeep⟩
      exact Transition.run_cons_eq_some.mpr ⟨trivial, _, hstep, rfl⟩
    · have hlen := accLen_scan s i
      have hvalid := (h.scan hi).valid
      have hj : j ≤ (s.scan i).1.accLen := by
        have := hvalid.place
        rwa [hscan] at this
      obtain ⟨k, hk, t, hrun, hend⟩ := ih hvalid hscan (by omega) hj (step_scan hscan)
      refine ⟨k + 1, Nat.succ_le_succ hk, t, ?_, hend⟩
      exact Transition.run_cons_eq_some.mpr ⟨trivial, _, hstep, hrun⟩

end RecvMsg

/-- **The arrays of `recv_msg`.** Whatever the reads return, at every place of the loop there is
room for a terminator, the offset of the inner loop is not behind what has been gathered, and the
next step uses no byte that is not in its array. An iteration of the inner loop that is not the last
one makes the offset larger, so the loop ends. -/
theorem recvLoop_safe {s : RecvMsg} (h : recvLoop.Reachable s) :
    s.accLen ≤ accumSize - 1 ∧
      (∀ i, s.place = .scan i ∨ s.place = .keep i → i ≤ s.accLen) ∧
      (∀ a t blocks, s.turn a = some (t, blocks) → ∀ x ∈ blocks, x.Inside Buffer.size) ∧
      (∀ i j t, s.place = .scan i → recvLoop.step s .next = some t → t.place = .scan j → i < j) ∧
      ∀ i, s.place = .scan i → ∃ k ≤ s.accLen - i + 1, ∃ t,
        recvLoop.run (fun _ _ => True) s (List.replicate k .next) = some t ∧
          ∃ j, t.place = .keep j := by
  have hs := RecvMsg.Valid.of_reachable h
  refine ⟨Nat.le_pred_of_lt hs.accLen, ?_, ?_, ?_, ?_⟩
  · have hplace := hs.place
    rintro i (heq | heq)
    · rwa [heq] at hplace
    · rwa [heq] at hplace
  · intro a t blocks ht
    exact (hs.turn ht).inside
  · intro i j t hi ht hj
    rw [RecvMsg.step_scan hi] at ht
    obtain rfl := Option.some.inj ht
    rcases hs.scan_place i with hkeep | ⟨j', hscan, hlt⟩
    · rw [hkeep] at hj
      cases hj
    · rw [hscan] at hj
      cases hj
      exact hlt
  · intro i hi
    exact hs.scan_ends hi (Nat.le_refl _)

/-- At start-up, with arrays that hold nothing yet. -/
def RecvMsg.start : RecvMsg :=
  ⟨List.replicate payloadSize 0, List.replicate accumSize 0, 0, List.replicate payloadSize 0,
    .read, []⟩

theorem RecvMsg.initial_start : start.Initial :=
  ⟨List.length_replicate, rfl, rfl, List.length_replicate, rfl, rfl⟩

/-- A request has been read and gathered. -/
def RecvMsg.gathered : RecvMsg := (((start.read (bytes "[A]GETDB")).1.fit 8).1.append 8).1

/-- At the inner loop, with the request. -/
theorem recvLoop_safe_witness :
    RecvMsg.gathered.accLen ≤ accumSize - 1 ∧
      ∃ k ≤ RecvMsg.gathered.accLen - 0 + 1, ∃ t,
        recvLoop.run (fun _ _ => True) RecvMsg.gathered (List.replicate k .next) = some t ∧
          ∃ j, t.place = .keep j := by
  have hread : recvLoop.Reachable (RecvMsg.start.read (bytes "[A]GETDB")).1 :=
    .step (.read (bytes "[A]GETDB")) (.init RecvMsg.initial_start) trivial rfl
  have hfit := hread.step .next trivial rfl
  obtain ⟨hlen, -, -, -, hend⟩ := recvLoop_safe (hfit.step .next trivial rfl)
  exact ⟨hlen, hend 0 rfl⟩

end DbClient

end DroneTurret
