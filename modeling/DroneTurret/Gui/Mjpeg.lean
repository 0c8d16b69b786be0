import DroneTurret.Lib.CString
import DroneTurret.Lib.Markers
import DroneTurret.Lib.Rtake
import DroneTurret.Lib.Transition

/-!
# The MJPEG client

`MjpegClient` appends what arrives to `buffer_`, passes every picture it finds there to the decoder,
from a start marker `FF D8` to the next end marker `FF D9`, and keeps the rest. It looks for both
markers from the front of the buffer every time, and trims the buffer when it has grown.

`buffer_` is a member of its own. `start` and `stop` replace the reply and leave the buffer alone,
so what it holds of a picture is completed with the bytes of the next connection. To say so, a byte
is an element of any type with a value in it, and the second half of this file takes a byte together
with the number of its connection. The functions of the client look at the value only.

`QByteArray` is that of Qt 5: its sizes and indices are of one type.

## Main definitions

* `MjpegClient.onReadyRead`, `MjpegClient.passed` — one slot invocation, and a connection
* `mjpeg` — the client with its three events
* `Isolated` — a picture is made of bytes of the connection that is open

## Main results

* `MjpegClient.scan_cases` — what one round of the loop does
* `MjpegClient.passed_eq_frames` — the pictures do not depend on how the stream is cut
* `restart_isolation` — the restarts after which pictures are not mixed
-/

namespace DroneTurret

namespace Gui

open Markers

/-- `"\xFF\xD8"`. -/
def soiMarker : List Byte := [0xFF, 0xD8]

/-- `"\xFF\xD9"`. -/
def eoiMarker : List Byte := [0xFF, 0xD9]

/-- The markers of a picture. -/
def jpeg : Markers.Pair Byte := ⟨soiMarker, eoiMarker, List.cons_ne_nil _ _⟩

/-- `indexOf`: the first occurrence of a pattern at an index or behind it. -/
def indexOf (s pat : List Byte) (fromIndex : ℕ) : Option ℕ :=
  (cut pat (s.drop fromIndex)).map fun r => fromIndex + r.1.length

theorem indexOf_eq_some_iff {s pat : List Byte} {k i : ℕ} :
    indexOf s pat k = some i ↔ ∃ u v, cut pat (s.drop k) = some (u, v) ∧ i = k + u.length := by
  rw [indexOf, Option.map_eq_some_iff]
  constructor
  · rintro ⟨⟨u, v⟩, h, rfl⟩
    exact ⟨u, v, h, rfl⟩
  · rintro ⟨u, v, h, rfl⟩
    exact ⟨(u, v), h, rfl⟩

namespace MjpegClient

variable {α : Type*} (byte : α → Byte)

/-- The loop of `onReadyRead`: the pictures, and the buffer that is left. A round takes a picture
from the buffer, so there are no more rounds than bytes. -/
def scan : ℕ → List α → List (List α) × List α
  | 0, buffer => ([], buffer)
  | n + 1, buffer =>
    match indexOf (buffer.map byte) soiMarker 0 with
    | none => ([], if buffer.length > 1024 * 1024 then buffer.rtake (1024 * 512) else buffer)
    | some soi =>
      match indexOf (buffer.map byte) eoiMarker (soi + 2) with
      | none => ([], if soi > 0 ∧ soi > 1024 * 512 then buffer.drop soi else buffer)
      | some eoi =>
        let r := scan n (buffer.drop (eoi + 2))
        ((buffer.drop soi).take (eoi - soi + 2) :: r.1, r.2)

/-- The slot, with `data` available in the reply. -/
def onReadyRead (buffer data : List α) : List (List α) × List α :=
  scan byte (buffer ++ data).length (buffer ++ data)

/-- What is passed to the decoder for the chunks of a connection. -/
def passed (buffer : List α) : List (List α) → List (List α)
  | [] => []
  | data :: chunks =>
    (onReadyRead byte buffer data).1 ++ passed (onReadyRead byte buffer data).2 chunks

variable {byte}

/-! ### One round -/

/-- Without a picture, what is trimmed off is in front of all that may become one. -/
theorem scan_none {n : ℕ} {buffer : List α} (hn : buffer.length ≤ n)
    (h : cutFrame jpeg (buffer.map byte) = none) :
    ∃ k, scan byte n buffer = ([], buffer.drop k) ∧
      Clear soiMarker ((buffer.take k).map byte) ((buffer.drop k).map byte) := by
  have hall : ∃ k, ([], buffer) = (([] : List (List α)), buffer.drop k) ∧
      Clear soiMarker ((buffer.take k).map byte) ((buffer.drop k).map byte) :=
    ⟨0, rfl, Clear.nil _ _⟩
  cases n with
  | zero => exact hall
  | succ n =>
    rw [scan]
    cases hsoi : indexOf (buffer.map byte) soiMarker 0 with
    | none =>
      dsimp only
      split_ifs with hlong
      · refine ⟨buffer.length - 1024 * 512, by rw [List.rtake], ?_⟩
        refine clear_of_cut_eq_none ?_ ?_
        · rw [← List.map_append, List.take_append_drop]
          exact Option.map_eq_none_iff.mp hsoi
        · simp only [soiMarker, List.length_map, List.length_drop, List.length_cons,
            List.length_nil]
          omega
      · exact hall
    | some soi =>
      obtain ⟨u, v, hcut, rfl⟩ := indexOf_eq_some_iff.mp hsoi
      rw [List.drop_zero] at hcut
      have hmap := (cut_eq_some_iff.mp hcut).1
      dsimp only
      have heoi : indexOf (buffer.map byte) eoiMarker (0 + u.length + 2) = none := by
        have hdrop : (buffer.map byte).drop (0 + u.length + 2) = v := by
          rw [hmap, Nat.zero_add, List.append_assoc, List.drop_length_add_append]
          rfl
        rw [indexOf, hdrop, Option.map_eq_none_iff]
        have hbind := h
        rw [cutFrame, show jpeg.start = soiMarker from rfl, hcut, Option.bind_some,
          Option.map_eq_none_iff] at hbind
        exact hbind
      rw [heoi]
      dsimp only
      split_ifs
      · refine ⟨0 + u.length, rfl, ?_⟩
        have htake : (buffer.take (0 + u.length)).map byte = u := by
          rw [List.map_take, hmap, Nat.zero_add, List.append_assoc, List.take_left]
        have hdrop : (buffer.drop (0 + u.length)).map byte = soiMarker ++ v := by
          rw [List.map_drop, hmap, Nat.zero_add, List.append_assoc, List.drop_left]
        rw [htake, hdrop]
        exact clear_of_cut hcut
      · exact hall

/-- What a round that finds a picture does: it takes `k` bytes at index `i`, from the first start
marker on, and leaves what is behind them to the next round. -/
structure Found (byte : α → Byte) (n : ℕ) (buffer : List α) (f rest : List Byte) (m i k : ℕ) :
    Prop where
  fuel : n = m + 1 ∧ (buffer.drop (i + k)).length ≤ m
  eq : scan byte n buffer = ((buffer.drop i).take k :: (scan byte m (buffer.drop (i + k))).1,
    (scan byte m (buffer.drop (i + k))).2)
  picture : ((buffer.drop i).take k).map byte = f
  rest : (buffer.drop (i + k)).map byte = rest
  start : ∃ v, cut soiMarker (buffer.map byte) = some ((buffer.take i).map byte, v)
  /-- It takes at least the byte at that index. -/
  pos : 0 < k ∧ i < buffer.length

theorem exists_found {n : ℕ} {buffer : List α} (hn : buffer.length ≤ n) {f rest : List Byte}
    (h : cutFrame jpeg (buffer.map byte) = some (f, rest)) :
    ∃ m i k, Found byte n buffer f rest m i k := by
  obtain ⟨u, v, w, hstart, hstop, rfl⟩ := cutFrame_eq_some_iff.mp h
  have hmap := (cut_eq_some_iff.mp hstart).1
  have hv := (cut_eq_some_iff.mp hstop).1
  have hlen := congrArg List.length hmap
  rw [hv] at hlen
  simp only [List.length_map, List.length_append, jpeg, soiMarker, eoiMarker, List.length_cons,
    List.length_nil] at hlen
  obtain ⟨m, rfl⟩ : ∃ m, n = m + 1 := ⟨n - 1, by omega⟩
  have hdrop2 : (buffer.map byte).drop (u.length + 2) = v := by
    rw [hmap, List.append_assoc, List.drop_length_add_append]
    rfl
  have hsoi : indexOf (buffer.map byte) soiMarker 0 = some u.length :=
    indexOf_eq_some_iff.mpr ⟨u, v, by rwa [List.drop_zero], by omega⟩
  have heoi : indexOf (buffer.map byte) eoiMarker (u.length + 2) = some (u.length + 2 + w.length) :=
    indexOf_eq_some_iff.mpr ⟨w, rest, by rwa [hdrop2], rfl⟩
  have hkept : (buffer.drop u.length).map byte = soiMarker ++ w ++ eoiMarker ++ rest := by
    rw [List.map_drop, hmap, List.append_assoc, List.drop_left, hv]
    simp [jpeg]
  have hk : (soiMarker ++ w ++ eoiMarker).length = w.length + 4 := by
    simp [soiMarker, eoiMarker]
  have htake : (buffer.take u.length).map byte = u := by
    rw [List.map_take, hmap, List.append_assoc, List.take_left]
  refine ⟨m, u.length, w.length + 4, ⟨rfl, ?_⟩, ?_, ?_, ?_, ?_, Nat.succ_pos _, ?_⟩
  · rw [List.length_drop]
    omega
  · rw [scan, hsoi]
    dsimp only
    rw [heoi]
    dsimp only
    rw [show u.length + 2 + w.length + 2 = u.length + (w.length + 4) by omega,
      show u.length + 2 + w.length - u.length + 2 = w.length + 4 by omega]
  · rw [List.map_take, hkept, ← hk, List.take_left]
    rfl
  · rw [← List.drop_drop, List.map_drop, hkept, ← hk, List.drop_left]
  · rw [htake]
    exact ⟨v, hstart⟩
  · omega

/-! ### A stream in chunks -/

/-- **The loop** passes on the first pictures of every stream that begins with the buffer, and what
it keeps has the others. -/
theorem frames_of_scan {n : ℕ} {buffer : List α} (hn : buffer.length ≤ n) :
    frames jpeg ((scan byte n buffer).2.map byte) = [] ∧ ∀ t, frames jpeg (buffer.map byte ++ t) =
      (scan byte n buffer).1.map (List.map byte) ++
        frames jpeg ((scan byte n buffer).2.map byte ++ t) := by
  induction n using Nat.strong_induction_on generalizing buffer with
  | _ n ih =>
    cases hcut : cutFrame jpeg (buffer.map byte) with
    | none =>
      obtain ⟨k, hscan, hclear⟩ := scan_none hn hcut
      have hsplit : buffer.map byte = (buffer.take k).map byte ++ (buffer.drop k).map byte := by
        rw [← List.map_append, List.take_append_drop]
      have hdropped : ∀ t, frames jpeg (buffer.map byte ++ t) =
          frames jpeg ((buffer.drop k).map byte ++ t) := by
        intro t
        rw [hsplit]
        exact frames_of_clear hclear t
      rw [hscan]
      refine ⟨?_, hdropped⟩
      have hnil := hdropped []
      rwa [List.append_nil, List.append_nil, frames_of_none hcut, eq_comm] at hnil
    | some r =>
      obtain ⟨f, rest⟩ := r
      obtain ⟨m, i, k, hfound⟩ := exists_found hn hcut
      obtain ⟨rfl, hm⟩ := hfound.fuel
      obtain ⟨hnone, hrun⟩ := ih m (Nat.lt_succ_self m) hm
      rw [hfound.eq]
      refine ⟨hnone, fun t => ?_⟩
      rw [frames_append hcut t, ← hfound.rest, hrun t, List.map_cons, hfound.picture]
      rfl

theorem map_passed {buffer : List α} (h : frames jpeg (buffer.map byte) = [])
    (chunks : List (List α)) : (passed byte buffer chunks).map (List.map byte) =
      frames jpeg ((buffer ++ chunks.flatten).map byte) := by
  induction chunks generalizing buffer with
  | nil => rw [List.flatten_nil, List.append_nil, h, passed, List.map_nil]
  | cons data chunks ih =>
    obtain ⟨hnone, hrun⟩ := @frames_of_scan α byte _ (buffer ++ data) (Nat.le_refl _)
    have hsplit : (buffer ++ data ++ chunks.flatten).map byte =
        (buffer ++ data).map byte ++ chunks.flatten.map byte := List.map_append
    rw [passed, onReadyRead, List.map_append, ih hnone, List.flatten_cons, ← List.append_assoc,
      hsplit, hrun, List.map_append]

/-- **Chunk independence.** The pictures that a connection leads to are those of its whole stream,
however it is cut into chunks and however the buffer is trimmed. -/
theorem passed_eq_frames (chunks : List (List Byte)) :
    passed id [] chunks = frames jpeg chunks.flatten := by
  have hmap : (passed id [] chunks).map (List.map id) =
      frames jpeg (([] ++ chunks.flatten).map id) := map_passed (frames_of_none rfl) chunks
  simpa using hmap

/-! ### Bytes that belong to no picture -/

/-- What is kept is the end of the buffer. -/
theorem scan_suffix {n : ℕ} {buffer : List α} (hn : buffer.length ≤ n) :
    (scan byte n buffer).2 <:+ buffer := by
  induction n using Nat.strong_induction_on generalizing buffer with
  | _ n ih =>
    cases hcut : cutFrame jpeg (buffer.map byte) with
    | none =>
      obtain ⟨k, hscan, -⟩ := scan_none hn hcut
      rw [hscan]
      exact List.drop_suffix k buffer
    | some r =>
      obtain ⟨m, i, k, hfound⟩ := exists_found hn hcut
      obtain ⟨rfl, hm⟩ := hfound.fuel
      rw [hfound.eq]
      exact (ih m (Nat.lt_succ_self m) hm).trans (List.drop_suffix _ _)

/-- **What comes from where.** While no start marker can begin in the front part of the buffer, the
pictures are made of the rest of it, and so is all that can become part of a later one. -/
theorem scan_of_clear {n : ℕ} {old cur : List α} (hn : (old ++ cur).length ≤ n)
    (h : Clear soiMarker (old.map byte) (cur.map byte)) :
    (∀ f ∈ (scan byte n (old ++ cur)).1, f ⊆ cur) ∧
      ∃ old' cur', (scan byte n (old ++ cur)).2 = old' ++ cur' ∧ cur' ⊆ cur ∧
        Clear soiMarker (old'.map byte) (cur'.map byte) := by
  induction n using Nat.strong_induction_on generalizing old cur with
  | _ n ih =>
    cases hcut : cutFrame jpeg ((old ++ cur).map byte) with
    | none =>
      obtain ⟨k, hscan, -⟩ := scan_none hn hcut
      rw [hscan]
      refine ⟨List.forall_mem_nil _, ?_⟩
      by_cases hk : k ≤ old.length
      · refine ⟨old.drop k, cur, List.drop_append_of_le_length hk, List.Subset.refl cur, ?_⟩
        rw [List.map_drop]
        exact h.drop k
      · refine ⟨[], cur.drop (k - old.length), ?_, List.drop_subset _ _, Clear.nil _ _⟩
        rw [List.drop_append, List.drop_eq_nil_of_le (Nat.le_of_not_le hk)]
    | some r =>
      obtain ⟨f, rest⟩ := r
      obtain ⟨m, i, k, hfound⟩ := exists_found hn hcut
      obtain ⟨rfl, hm⟩ := hfound.fuel
      -- the start marker is behind the front part
      have hi : old.length ≤ i := by
        obtain ⟨v, hcut⟩ := hfound.start
        have hlen := h [] _ v (by
          rw [List.append_nil, ← List.map_append]
          exact (cut_eq_some_iff.mp hcut).1)
        rw [List.length_map, List.length_map, List.length_take] at hlen
        omega
      have hdrop : ∀ j, old.length ≤ j → (old ++ cur).drop j = cur.drop (j - old.length) := by
        intro j hj
        rw [List.drop_append, List.drop_eq_nil_of_le hj, List.nil_append]
      rw [hdrop (i + k) (by omega)] at hm
      obtain ⟨hpictures, old', cur', hkept, hcur', hclear⟩ :=
        @ih m (Nat.lt_succ_self m) [] _ hm (Clear.nil _ _)
      rw [List.nil_append] at hpictures hkept
      rw [hfound.eq, hdrop (i + k) (by omega), hdrop i hi]
      refine ⟨List.forall_mem_cons.mpr ⟨?_, fun f hf => ?_⟩, old', cur', hkept, ?_, hclear⟩
      · exact List.Subset.trans (List.take_subset _ _) (List.drop_subset _ _)
      · exact List.Subset.trans (hpictures f hf) (List.drop_subset _ _)
      · exact List.Subset.trans hcur' (List.drop_subset _ _)

/-- **What is completed.** A start marker becomes part of a picture once an end marker is behind it,
or an earlier byte does. -/
theorem exists_picture {n : ℕ} {buffer : List α} (hn : buffer.length ≤ n) {u v w : List Byte}
    (h : buffer.map byte = u ++ soiMarker ++ (v ++ eoiMarker ++ w)) :
    ∃ f ∈ (scan byte n buffer).1, ∃ b ∈ f, b ∈ buffer.take (u.length + 1) := by
  obtain ⟨⟨f, rest⟩, hcut⟩ := Option.isSome_iff_exists.mp (isSome_cutFrame (m := jpeg) h)
  obtain ⟨m, i, k, hfound⟩ := exists_found hn hcut
  obtain ⟨hk, hi⟩ := hfound.pos
  have hle : i ≤ u.length := by
    obtain ⟨v', hstart⟩ := hfound.start
    have hlen := (cut_eq_some_iff.mp hstart).2 u _ h
    rw [List.length_map, List.length_take] at hlen
    omega
  rw [hfound.eq]
  refine ⟨_, List.mem_cons_self, buffer[i], ?_, ?_⟩
  · rw [List.drop_eq_getElem_cons hi]
    obtain ⟨k, rfl⟩ : ∃ k', k = k' + 1 := ⟨k - 1, by omega⟩
    exact List.mem_cons_self
  · exact List.mem_take_iff_getElem.mpr ⟨i, by omega, rfl⟩

end MjpegClient

/-! ### Restarts -/

/-- The client, with the number of the connection that every byte has come from. -/
structure MjpegClient where
  /-- `buffer_`. -/
  buffer : List (ℕ × Byte)
  /-- The connection of `reply_`, if it is not null. -/
  reply : Option ℕ
  /-- The number of connections opened. They are numbered in order. -/
  conns : ℕ
  /-- What has been passed to the decoder, and the connection that was open. -/
  decoded : List (ℕ × List (ℕ × Byte))

inductive MjpegStep
  | start
  | stop
  /-- The reply has `data` to read. -/
  | readyRead (data : List Byte)

namespace MjpegClient

/-- The client as it is constructed. -/
def fresh : MjpegClient := ⟨[], none, 0, []⟩

/-- `start` aborts the reply there is, and opens a connection. -/
def start (s : MjpegClient) : MjpegClient := { s with reply := some s.conns, conns := s.conns + 1 }

/-- `stop` disconnects the reply and aborts it. -/
def stop (s : MjpegClient) : MjpegClient := { s with reply := none }

/-- `onReadyRead`, on a connection. -/
def receive (s : MjpegClient) (conn : ℕ) (data : List Byte) : MjpegClient :=
  let r := onReadyRead Prod.snd s.buffer (data.map fun b => (conn, b))
  { s with buffer := r.2, decoded := s.decoded ++ r.1.map fun picture => (conn, picture) }

/-- Without a reply nothing arrives. -/
def step (s : MjpegClient) : MjpegStep → Option MjpegClient
  | .start => some s.start
  | .stop => some s.stop
  | .readyRead data => s.reply.map fun conn => s.receive conn data

end MjpegClient

/-- The client with its three events, in any order. -/
def mjpeg : Transition MjpegClient MjpegStep where
  init s := s = .fresh
  step := MjpegClient.step

/-- Every picture is made of bytes of the connection that was open. -/
def Isolated (s : MjpegClient) : Prop := ∀ p ∈ s.decoded, ∀ b ∈ p.2, b.1 = p.1

/-- A buffer that holds no beginning of a picture: no start marker, and not the first half of one at
its end. -/
def Unbegun (buffer : List Byte) : Prop := ¬soiMarker <:+: buffer ∧ buffer.getLast? ≠ some 0xFF

instance (buffer : List Byte) : Decidable (Unbegun buffer) := inferInstanceAs (Decidable (_ ∧ _))

/-- A connection is opened only while the buffer holds no beginning of a picture. -/
def CleanStart (s : MjpegClient) : MjpegStep → Prop
  | .start => Unbegun (s.buffer.map Prod.snd)
  | _ => True

instance (s : MjpegClient) (a : MjpegStep) : Decidable (CleanStart s a) :=
  match a with
  | .start => inferInstanceAs (Decidable (Unbegun _))
  | .stop => .isTrue trivial
  | .readyRead _ => .isTrue trivial

theorem clear_of_unbegun {buffer : List Byte} (h : Unbegun buffer) : Clear soiMarker buffer [] := by
  intro t u v heq
  by_contra hlt
  rw [List.append_nil] at heq
  by_cases hin : (u ++ soiMarker).length ≤ buffer.length
  · obtain ⟨w, hw⟩ := List.prefix_of_prefix_length_le (⟨v, heq.symm⟩ : _ <+: buffer ++ t)
      (List.prefix_append buffer t) hin
    exact h.1 ⟨u, w, hw⟩
  · -- the start marker would be half in the buffer
    have hbuffer : buffer = u ++ [0xFF] := by
      have hpre : u ++ [0xFF] <+: buffer ++ t := ⟨0xD8 :: v, by rw [heq]; simp [soiMarker]⟩
      have hlen : (u ++ [(0xFF : Byte)]).length = buffer.length := by
        simp only [soiMarker, List.length_append, List.length_cons, List.length_nil] at hin ⊢
        omega
      have hsub := List.prefix_of_prefix_length_le hpre (List.prefix_append buffer t) hlen.le
      exact (hsub.eq_of_length hlen).symm
    exact h.2 (by rw [hbuffer, List.getLast?_concat])

/-- What the runs with clean starts keep: the buffer begins with what no picture is made of any
more, and all the rest of it has come from the connection that is open. -/
structure Sorted (s : MjpegClient) : Prop where
  isolated : Isolated s
  buffer : ∀ conn ∈ s.reply, ∃ old cur, s.buffer = old ++ cur ∧ (∀ b ∈ cur, b.1 = conn) ∧
    Clear soiMarker (old.map Prod.snd) (cur.map Prod.snd)

theorem Sorted.step {s t : MjpegClient} (h : Sorted s) {a : MjpegStep} (ha : CleanStart s a)
    (ht : s.step a = some t) : Sorted t := by
  cases a with
  | start =>
    obtain rfl := Option.some.inj ht
    refine ⟨h.isolated, fun conn _ => ⟨s.buffer, [], (List.append_nil _).symm, nofun, ?_⟩⟩
    exact clear_of_unbegun ha
  | stop =>
    obtain rfl := Option.some.inj ht
    exact ⟨h.isolated, nofun⟩
  | readyRead data =>
    obtain ⟨conn, hconn, rfl⟩ := Option.map_eq_some_iff.mp ht
    obtain ⟨old, cur, hbuffer, hcur, hclear⟩ := h.buffer conn hconn
    obtain ⟨new, hnew⟩ : ∃ new, new = data.map fun b => (conn, b) := ⟨_, rfl⟩
    have htagged : ∀ b ∈ cur ++ new, b.1 = conn := by
      refine List.forall_mem_append.mpr ⟨hcur, fun b hb => ?_⟩
      rw [hnew] at hb
      obtain ⟨c, -, rfl⟩ := List.mem_map.mp hb
      rfl
    have hwhole : s.buffer ++ new = old ++ (cur ++ new) := by rw [hbuffer, List.append_assoc]
    obtain ⟨hpictures, old', cur', hkept, hcur', hclear'⟩ := MjpegClient.scan_of_clear
      (Nat.le_refl (old ++ (cur ++ new)).length)
      (by rw [List.map_append]; exact hclear.append _)
    rw [← hwhole] at hpictures hkept
    refine ⟨fun p hp b hb => ?_, fun conn' hconn' => ?_⟩
    · rcases List.mem_append.mp hp with hp | hp
      · exact h.isolated p hp b hb
      · obtain ⟨f, hf, rfl⟩ := List.mem_map.mp hp
        rw [MjpegClient.onReadyRead, ← hnew] at hf
        exact htagged b (hpictures f hf hb)
    · obtain rfl : conn = conn' := Option.some.inj (hconn.symm.trans hconn')
      refine ⟨old', cur', ?_, fun b hb => htagged b (hcur' hb), hclear'⟩
      rw [← hkept, hnew]
      rfl

/-- Every byte in the buffer has come from a connection that was opened. -/
theorem lt_conns_of_reach {s : MjpegClient} (h : mjpeg.Reachable s) :
    (∀ conn ∈ s.reply, conn < s.conns) ∧ ∀ b ∈ s.buffer, b.1 < s.conns := by
  refine h.invariant (fun s => (∀ conn ∈ s.reply, conn < s.conns) ∧ ∀ b ∈ s.buffer, b.1 < s.conns)
    (fun s hs => ?_) fun s a t hs _ ht => ?_
  · obtain rfl : s = .fresh := hs
    exact ⟨nofun, nofun⟩
  · cases a with
    | start =>
      obtain rfl := Option.some.inj ht
      refine ⟨fun conn hconn => ?_, fun b hb => Nat.lt_succ_of_lt (hs.2 b hb)⟩
      obtain rfl := Option.some.inj hconn
      exact Nat.lt_succ_self _
    | stop =>
      obtain rfl := Option.some.inj ht
      exact ⟨nofun, hs.2⟩
    | readyRead data =>
      obtain ⟨conn, hconn, rfl⟩ := Option.map_eq_some_iff.mp ht
      refine ⟨hs.1, fun b hb => ?_⟩
      have hmem := (MjpegClient.scan_suffix (Nat.le_refl _)).subset hb
      rcases List.mem_append.mp hmem with hmem | hmem
      · exact hs.2 b hmem
      · obtain ⟨c, -, rfl⟩ := List.mem_map.mp hmem
        exact hs.1 conn hconn

/-- A beginning of a picture in the buffer is completed by what arrives next. -/
theorem exists_data_of_begun {buffer : List Byte} (h : ¬Unbegun buffer) :
    ∃ data u v, buffer ++ data = u ++ soiMarker ++ (v ++ eoiMarker ++ []) ∧
      u.length < buffer.length := by
  by_cases hin : soiMarker <:+: buffer
  · obtain ⟨u, v, rfl⟩ := hin
    refine ⟨eoiMarker, u, v, by simp, ?_⟩
    simp only [soiMarker, List.length_append, List.length_cons, List.length_nil]
    omega
  · have hlast : buffer.getLast? = some 0xFF := by
      by_contra hne
      exact h ⟨hin, hne⟩
    obtain ⟨u, rfl⟩ := List.getLast?_eq_some_iff.mp hlast
    refine ⟨0xD8 :: eoiMarker, u, [], by simp [soiMarker], ?_⟩
    rw [List.length_append]
    exact Nat.lt_succ_self _

/-- **Restart isolation.** Pictures are not mixed in the runs in which a connection is opened only
while the buffer holds no beginning of a picture; and wherever it holds one, a connection that is
opened can complete it. -/
theorem restart_isolation (s : MjpegClient) :
    (mjpeg.Reach CleanStart s → Isolated s) ∧
      (mjpeg.Reachable s → ¬Unbegun (s.buffer.map Prod.snd) →
        ∃ data t, mjpeg.run (fun _ _ => True) s [.start, .readyRead data] = some t ∧
          ¬Isolated t) := by
  constructor
  · intro h
    refine (h.invariant Sorted (fun s hs => ?_) fun s a t hs ha ht => hs.step ha ht).isolated
    obtain rfl : s = .fresh := hs
    exact ⟨nofun, nofun⟩
  · intro h hbegun
    obtain ⟨data, u, v, hdata, hlen⟩ := exists_data_of_begun hbegun
    rw [List.length_map] at hlen
    refine ⟨data, s.start.receive s.conns data, rfl, fun hisolated => ?_⟩
    have hmap : (s.buffer ++ data.map fun b => (s.conns, b)).map Prod.snd =
        u ++ soiMarker ++ (v ++ eoiMarker ++ []) := by
      rw [← hdata, List.map_append, List.map_map]
      simp [Function.comp_def]
    obtain ⟨f, hf, b, hb, hmem⟩ := MjpegClient.exists_picture (Nat.le_refl _) hmap
    rw [List.take_append_of_le_length hlen] at hmem
    -- the byte has come from an earlier connection
    have hold := (lt_conns_of_reach h).2 b (List.mem_of_mem_take hmem)
    have hpicture : (s.conns, f) ∈ (s.start.receive s.conns data).decoded :=
      List.mem_append_right _ (List.mem_map.mpr ⟨f, hf, rfl⟩)
    exact absurd (hisolated _ hpicture b hb) hold.ne

/-- Two connections, each with a picture. -/
theorem restart_isolation_witness :
    ∃ s, mjpeg.Reach CleanStart s ∧ s.decoded.map Prod.fst = [0, 1] ∧ Isolated s := by
  obtain ⟨s, hs, hp⟩ := Transition.exists_reach_of_run mjpeg CleanStart rfl
    [.start, .readyRead (soiMarker ++ [1] ++ eoiMarker), .stop, .start,
      .readyRead (soiMarker ++ [2] ++ eoiMarker)]
    (fun s => decide (s.decoded.map Prod.fst = [0, 1])) (by decide)
  exact ⟨s, hs, of_decide_eq_true hp, (restart_isolation s).1 hs⟩

/-- A restart in the middle of a picture. -/
theorem not_isolated : ¬∀ s, mjpeg.Reachable s → Isolated s := by
  intro h
  obtain ⟨s, hs, hp⟩ := Transition.exists_reach_of_run mjpeg (fun _ _ => True) rfl
    [.start, .readyRead (soiMarker ++ [1]), .stop, .start, .readyRead (2 :: eoiMarker)]
    (fun s => decide
      (s.decoded = [(1, [(0, 0xFF), (0, 0xD8), (0, 1), (1, 2), (1, 0xFF), (1, 0xD9)])]))
    (by decide)
  have hdecoded := of_decide_eq_true hp
  have hisolated := h s hs _ (by rw [hdecoded]; exact List.mem_cons_self) _ List.mem_cons_self
  exact absurd hisolated (by decide)

end Gui

end DroneTurret
