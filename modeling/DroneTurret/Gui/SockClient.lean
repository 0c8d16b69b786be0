import DroneTurret.Lib.CString
import DroneTurret.Lib.Transition

/-!
# The Qt socket client

`SockClient` turns each invocation of `socketReadDataSlot` into one emitted string. Qt appends what
arrives to the receive buffer of the socket and invokes the slot at times of its own choosing, so a
step is an arrival or an invocation, in any order. `fromLocal8Bit` is Qt's.

The slot returns without reading when more than `BLOCK_SIZE` bytes are pending. Nothing but the
slot takes bytes out, so from there on it never reads again.

## Main results

* `conserved_of_reach` — no byte is lost, duplicated or moved, in any run
* `flows_iff` — a state from which the receiver goes on is one with at most `BLOCK_SIZE` bytes
  pending
* `receiver_never_wedges` — the runs in which the receiver never wedges
-/

namespace DroneTurret

namespace Gui

open Transition

/-- `BLOCK_SIZE`. -/
abbrev blockSize : ℕ := 1024

/-- The socket and what the client has emitted. `arrived` and `reads` are history. -/
structure SockClient (T : Type*) where
  /-- The bytes available. -/
  pending : List Byte
  emitted : List T
  /-- All bytes that have arrived. -/
  arrived : List Byte
  /-- The bytes each emitted string was made of. -/
  reads : List (List Byte)

inductive SockStep
  /-- The network delivers bytes. -/
  | arrive (data : List Byte)
  /-- `readyRead` invokes the slot. -/
  | readyRead

variable {T : Type*} (fromLocal8Bit : List Byte → T)

namespace SockClient

def arrive (s : SockClient T) (data : List Byte) : SockClient T :=
  { s with pending := s.pending ++ data, arrived := s.arrived ++ data }

def socketReadDataSlot (s : SockClient T) : SockClient T :=
  if s.pending.length > blockSize then s
  else
    { s with
      pending := s.pending.drop blockSize
      emitted := s.emitted ++ [fromLocal8Bit (s.pending.take blockSize)]
      reads := s.reads ++ [s.pending.take blockSize] }

def step (s : SockClient T) : SockStep → SockClient T
  | .arrive data => s.arrive data
  | .readyRead => s.socketReadDataSlot fromLocal8Bit

end SockClient

/-- The client from its connection on. -/
def sockClient : Transition (SockClient T) SockStep where
  init s := s = ⟨[], [], [], []⟩
  step s a := some (s.step fromLocal8Bit a)

/-! ### No byte is lost -/

/-- The bytes of the emitted strings and the pending bytes are what has arrived, in order. -/
structure Conserved (s : SockClient T) : Prop where
  bytes : s.arrived = s.reads.flatten ++ s.pending
  texts : s.emitted = s.reads.map fromLocal8Bit

variable {fromLocal8Bit}

theorem Conserved.step {s : SockClient T} (h : Conserved fromLocal8Bit s) (a : SockStep) :
    Conserved fromLocal8Bit (s.step fromLocal8Bit a) := by
  cases a with
  | arrive data =>
    refine ⟨?_, h.texts⟩
    change s.arrived ++ data = s.reads.flatten ++ (s.pending ++ data)
    rw [h.bytes, List.append_assoc]
  | readyRead =>
    rw [SockClient.step, SockClient.socketReadDataSlot]
    split
    · exact h
    · constructor
      · change s.arrived = (s.reads ++ [s.pending.take blockSize]).flatten ++
          s.pending.drop blockSize
        rw [List.flatten_append, List.flatten_singleton, List.append_assoc,
          List.take_append_drop, h.bytes]
      · change s.emitted ++ [_] = (s.reads ++ [_]).map fromLocal8Bit
        rw [h.texts, List.map_append, List.map_singleton]

theorem conserved_of_reach {s : SockClient T} (h : (sockClient fromLocal8Bit).Reachable s) :
    Conserved fromLocal8Bit s := by
  refine h.invariant (Conserved fromLocal8Bit) ?_ ?_
  · rintro s rfl
    exact ⟨rfl, rfl⟩
  · rintro s a t hs - ht
    obtain rfl := Option.some.inj ht
    exact hs.step a

/-! ### Going on -/

variable (fromLocal8Bit)

/-- An invocation of the slot removes and emits at least one of the pending bytes. -/
def Progress (s : SockClient T) : Prop :=
  ∃ read rest, read ≠ [] ∧ s.pending = read ++ rest ∧
    s.socketReadDataSlot fromLocal8Bit = { s with
      pending := rest, emitted := s.emitted ++ [fromLocal8Bit read], reads := s.reads ++ [read] }

/-- Bytes are pending, and whatever arrives and however often the slot is invoked, nothing is
emitted any more. -/
def Absorbing (s : SockClient T) : Prop :=
  s.pending ≠ [] ∧ ∀ as t, (sockClient fromLocal8Bit).run (fun _ _ => True) s as = some t →
    t.emitted = s.emitted

/-- The receiver goes on from this state. -/
def Flows (s : SockClient T) : Prop :=
  (s.pending ≠ [] → Progress fromLocal8Bit s) ∧ ¬Absorbing fromLocal8Bit s

variable {fromLocal8Bit}

theorem progress_of_le {s : SockClient T} (hne : s.pending ≠ [])
    (hle : s.pending.length ≤ blockSize) : Progress fromLocal8Bit s := by
  refine ⟨s.pending, [], hne, (List.append_nil _).symm, ?_⟩
  rw [SockClient.socketReadDataSlot, if_neg (Nat.not_lt.mpr hle), List.take_of_length_le hle,
    List.drop_eq_nil_of_le hle]

/-- An over-full buffer stays over-full, and nothing is emitted. -/
theorem run_of_overfull {s t : SockClient T} {as : List SockStep}
    (h : blockSize < s.pending.length)
    (ht : (sockClient fromLocal8Bit).run (fun _ _ => True) s as = some t) :
    t.emitted = s.emitted := by
  induction as generalizing s with
  | nil =>
    obtain rfl := Option.some.inj ht
    rfl
  | cons a as ih =>
    rw [run, if_pos trivial] at ht
    cases a with
    | arrive data =>
      refine ih (s := s.arrive data) ?_ ht
      rw [SockClient.arrive, List.length_append]
      exact Nat.lt_of_lt_of_le h (Nat.le_add_right _ _)
    | readyRead =>
      have hslot : s.socketReadDataSlot fromLocal8Bit = s := by
        rw [SockClient.socketReadDataSlot, if_pos h]
      change ((sockClient fromLocal8Bit).run _ (s.socketReadDataSlot fromLocal8Bit) as) = _ at ht
      rw [hslot] at ht
      exact ih h ht

theorem absorbing_iff {s : SockClient T} :
    Absorbing fromLocal8Bit s ↔ blockSize < s.pending.length := by
  constructor
  · rintro ⟨hne, hstuck⟩
    by_contra hle
    have hprogress : Progress fromLocal8Bit s := progress_of_le hne (Nat.not_lt.mp hle)
    obtain ⟨read, rest, -, -, hslot⟩ := hprogress
    have hemitted := hstuck [.readyRead] _ rfl
    change (s.socketReadDataSlot fromLocal8Bit).emitted = s.emitted at hemitted
    rw [hslot] at hemitted
    simp at hemitted
  · intro h
    refine ⟨?_, fun as t ht => run_of_overfull h ht⟩
    intro hnil
    rw [hnil] at h
    exact absurd h (Nat.not_lt_zero _)

/-- The receiver goes on from the states with at most `BLOCK_SIZE` bytes pending. -/
theorem flows_iff {s : SockClient T} :
    Flows fromLocal8Bit s ↔ s.pending.length ≤ blockSize := by
  rw [Flows, absorbing_iff, Nat.not_lt]
  exact ⟨And.right, fun h => ⟨fun hne => progress_of_le hne h, h⟩⟩

/-- The condition that an arrival leaves at most `BLOCK_SIZE` bytes pending. -/
def Room (s : SockClient T) : SockStep → Prop
  | .arrive data => s.pending.length + data.length ≤ blockSize
  | .readyRead => True

/-- **The receiver never wedges** in a run in which no arrival leaves more than `BLOCK_SIZE` bytes
pending, and the first arrival that does wedges it for good. Bytes are kept and emitted in order in
every run. -/
theorem receiver_never_wedges (fromLocal8Bit : List Byte → T) :
    (∀ s, (sockClient fromLocal8Bit).Reachable s → Conserved fromLocal8Bit s) ∧
      (∀ s, (sockClient fromLocal8Bit).Reach Room s → Flows fromLocal8Bit s) ∧
      ∀ s a t, (sockClient fromLocal8Bit).step s a = some t → ¬Room s a →
        ¬Flows fromLocal8Bit t := by
  refine ⟨fun s => conserved_of_reach, fun s hs => flows_iff.mpr ?_, ?_⟩
  · refine hs.invariant (fun s => s.pending.length ≤ blockSize) ?_ ?_
    · rintro s rfl
      exact Nat.zero_le _
    · rintro s a t hle hroom ht
      obtain rfl := Option.some.inj ht
      cases a with
      | arrive data =>
        change (s.pending ++ data).length ≤ blockSize
        rw [List.length_append]
        exact hroom
      | readyRead =>
        rw [SockClient.step, SockClient.socketReadDataSlot, if_neg (Nat.not_lt.mpr hle)]
        change (s.pending.drop blockSize).length ≤ blockSize
        rw [List.length_drop]
        omega
  · intro s a t ht hroom
    obtain rfl := Option.some.inj ht
    cases a with
    | arrive data =>
      rw [flows_iff]
      change ¬(s.pending ++ data).length ≤ blockSize
      rw [List.length_append]
      exact hroom
    | readyRead => exact absurd trivial hroom

/-- 1025 bytes arrive before the slot is invoked. -/
theorem not_receiver_never_wedges :
    ¬∀ s, (sockClient (T := List Byte) id).Reachable s → Flows id s := by
  intro h
  have hinit : (sockClient (T := List Byte) id).Reachable ⟨[], [], [], []⟩ := .init rfl
  have hflows := h _ (.step (.arrive (List.replicate 1025 65)) hinit trivial rfl)
  rw [flows_iff] at hflows
  change ([] ++ List.replicate 1025 (65 : Byte)).length ≤ blockSize at hflows
  rw [List.nil_append, List.length_replicate] at hflows
  exact absurd hflows (by decide)

end Gui

end DroneTurret
