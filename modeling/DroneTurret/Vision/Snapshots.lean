import DroneTurret.Lib.Transition
import DroneTurret.Vision.Encoder

/-!
# What the readers see of an iteration

The inference loop of `app_cuda` writes the result, the flag and the label one by one and the
coordinates with the depth under `frame_lock`. `send_loop` reads coordinates, depth and label under
the lock, `uart_thread` reads the result and then the depth without it. Every variable carries the
number of the iteration that wrote it.

Each reader has a window in which it mixes two iterations:

* `send_loop`, from the assignment of the label to the locked update;
* `uart_thread`, when the number of locked updates between its two reads is not the one it takes to
  complete the iteration its key is from.

## Main definitions

* `snapshots` — the three threads, step by step
* `Consistent` — what a message or a command was made from is of one iteration
* `Outside` — a step outside the window of its thread

## Main results

* `consistent_iff` — steps outside the windows are all that keep messages and commands consistent
-/

namespace DroneTurret

namespace Vision

open CString Transition

/-- A value, with the number of the iteration that wrote it. -/
structure Stamped (α : Type*) where
  val : α
  iter : ℕ
  deriving DecidableEq

/-- The box that an iteration selects, with its label and the depth at its centre. -/
structure Best where
  x1 : ℤ
  y1 : ℤ
  x2 : ℤ
  y2 : ℤ
  label : List Byte
  z : Option ℚ
  deriving DecidableEq

/-- The last assignment of the inference loop. -/
inductive Stage
  | idle
  | result
  | drone
  | label
  deriving DecidableEq

/-- What `send_loop` reads for a message. -/
structure Message where
  cx : Stamped ℤ
  cy : Stamped ℤ
  depth : Stamped (Option (WithTop ℚ))
  label : Stamped (List Byte)
  deriving DecidableEq

/-- What `uart_thread` reads for a command. -/
structure Command where
  key : Stamped (List Byte)
  depth : Stamped (Option (WithTop ℚ))
  deriving DecidableEq

/-- The shared variables, the threads, and what has been sent. -/
structure Shared where
  latestResult : Stamped (Option (List Byte))
  latestIsDrone : Stamped Bool
  latestLabel : Stamped (Option (List Byte))
  latestCx : Stamped (Option ℤ)
  latestCy : Stamped (Option ℤ)
  latestDepth : Stamped (Option (WithTop ℚ))
  /-- The number of the iteration that the inference loop is in or has completed. -/
  iter : ℕ
  best : Option Best
  stage : Stage
  /-- `cur` of `uart_thread`, between its two reads. -/
  cur : Option (Stamped (Option (List Byte)))
  /-- Whether `cur` was read in the middle of an iteration. -/
  midway : Bool
  /-- The locked updates since `cur` was read. -/
  updates : ℕ
  messages : List Message
  commands : List Command

/-- Before the first iteration. -/
def Shared.start : Shared where
  latestResult := ⟨none, 0⟩
  latestIsDrone := ⟨false, 0⟩
  latestLabel := ⟨none, 0⟩
  latestCx := ⟨none, 0⟩
  latestCy := ⟨none, 0⟩
  latestDepth := ⟨none, 0⟩
  iter := 0
  best := none
  stage := .idle
  cur := none
  midway := false
  updates := 0
  messages := []
  commands := []

inductive SharedStep
  | assignResult (best : Option Best)
  | assignIsDrone
  | assignLabel
  | update
  | send
  | readResult
  | readDepth

/-- `lower` for letters of ASCII. -/
def lower (s : List Byte) : List Byte := s.map fun b => if 65 ≤ b && b ≤ 90 then b + 32 else b

/-- The message for what `send_loop` reads, if it sends one. -/
def Shared.message (s : Shared) : Option Message :=
  match s.latestCx.val, s.latestCy.val, s.latestLabel.val with
  | some cx, some cy, some label =>
    if label = [] then none
    else some ⟨⟨cx, s.latestCx.iter⟩, ⟨cy, s.latestCy.iter⟩, s.latestDepth,
      ⟨label, s.latestLabel.iter⟩⟩
  | _, _, _ => none

/-- The command for what `uart_thread` reads, if it writes one. -/
def Shared.command (s : Shared) (cur : Stamped (Option (List Byte))) : Option Command :=
  cur.val.map fun key => ⟨⟨key, cur.iter⟩, s.latestDepth⟩

/-- One step of a thread, for frames of `w` by `h` pixels. -/
def Shared.step (w h : ℤ) (s : Shared) : SharedStep → Option Shared
  | .assignResult best =>
    if s.stage = .idle then
      some { s with
        iter := s.iter + 1
        best := best
        stage := .result
        latestResult :=
          ⟨best.map fun b => Vision.latestResult b.x1 b.y1 b.x2 b.y2 w h, s.iter + 1⟩ }
    else none
  | .assignIsDrone =>
    if s.stage = .result then
      some { s with
        stage := .drone
        latestIsDrone := ⟨s.best.any fun b => lower b.label = bytes "drone", s.iter⟩ }
    else none
  | .assignLabel =>
    if s.stage = .drone then
      some { s with stage := .label, latestLabel := ⟨s.best.map Best.label, s.iter⟩ }
    else none
  | .update =>
    if s.stage = .label then
      some { s with
        stage := .idle
        latestCx := ⟨s.best.map fun b => (b.x1 + b.x2) / 2, s.iter⟩
        latestCy := ⟨s.best.map fun b => (b.y1 + b.y2) / 2, s.iter⟩
        latestDepth := ⟨s.best.bind fun b => App.latestDepth .cuda b.z, s.iter⟩
        updates := s.updates + 1 }
    else none
  | .send => some { s with messages := s.messages ++ s.message.toList }
  | .readResult =>
    match s.cur with
    | none => some { s with
        cur := some s.latestResult
        midway := s.stage ≠ .idle
        updates := 0 }
    | some _ => none
  | .readDepth =>
    match s.cur with
    | none => none
    | some cur => some { s with cur := none, commands := s.commands ++ (s.command cur).toList }

def snapshots (w h : ℤ) : Transition Shared SharedStep := ⟨(· = .start), Shared.step w h⟩

/-- What was read for a message is of one iteration. -/
def Message.Consistent (m : Message) : Prop :=
  m.cx.iter = m.depth.iter ∧ m.cy.iter = m.depth.iter ∧ m.label.iter = m.depth.iter

/-- What was read for a command is of one iteration. -/
def Command.Consistent (c : Command) : Prop := c.key.iter = c.depth.iter

/-- Every message and every command is made from one iteration. -/
structure Shared.Consistent (s : Shared) : Prop where
  messages : ∀ m ∈ s.messages, m.Consistent
  commands : ∀ c ∈ s.commands, c.Consistent

/-- The locked updates it takes to complete the iteration that `cur` is from. -/
def Shared.due (s : Shared) : ℕ := if s.midway then 1 else 0

/-- A step outside the window of its thread: no message is made between the assignment of the label
and the locked update, and no command unless the updates since its first read are those due. -/
def Outside (s : Shared) : SharedStep → Prop
  | .send => s.stage = .label → s.message = none
  | .readDepth => ∀ cur ∈ s.cur, cur.val.isSome → s.updates = s.due
  | _ => True

instance (s : Shared) (a : SharedStep) : Decidable (Outside s a) := by
  cases a <;> unfold Outside <;> infer_instance

/-! ### Stamps -/

/-- The iterations that the variables are from, in any state. -/
structure Dated (s : Shared) : Prop where
  result : s.latestResult.iter = s.iter
  label : s.latestLabel.iter + (if s.stage = .result ∨ s.stage = .drone then 1 else 0) = s.iter
  cx : s.latestCx.iter = s.latestDepth.iter
  cy : s.latestCy.iter = s.latestDepth.iter
  depth : s.latestDepth.iter + (if s.stage = .idle then 0 else 1) = s.iter
  cur : ∀ cur ∈ s.cur, cur.iter + s.updates = s.latestDepth.iter + s.due

theorem dated_start : Dated .start := ⟨rfl, rfl, rfl, rfl, rfl, by rintro _ ⟨⟩⟩

theorem Dated.step {w h : ℤ} {s t : Shared} (hs : Dated s) {a : SharedStep}
    (ht : s.step w h a = some t) : Dated t := by
  obtain ⟨hresult, hlabel, hcx, hcy, hdepth, hcur⟩ := hs
  cases a with
  | assignResult best =>
    obtain ⟨hstage, rfl⟩ := Option.ite_some_none_eq_some.mp ht
    rw [hstage] at hlabel hdepth
    refine ⟨rfl, ?_, hcx, hcy, ?_, hcur⟩
    · simpa using hlabel
    · simpa using hdepth
  | assignIsDrone =>
    obtain ⟨hstage, rfl⟩ := Option.ite_some_none_eq_some.mp ht
    rw [hstage] at hlabel hdepth
    exact ⟨hresult, hlabel, hcx, hcy, hdepth, hcur⟩
  | assignLabel =>
    obtain ⟨hstage, rfl⟩ := Option.ite_some_none_eq_some.mp ht
    rw [hstage] at hdepth
    exact ⟨hresult, rfl, hcx, hcy, hdepth, hcur⟩
  | update =>
    obtain ⟨hstage, rfl⟩ := Option.ite_some_none_eq_some.mp ht
    rw [hstage] at hlabel hdepth
    refine ⟨hresult, hlabel, rfl, rfl, rfl, fun cur hmem => ?_⟩
    have hread := hcur cur hmem
    change cur.iter + (s.updates + 1) = s.iter + s.due
    simp at hdepth
    omega
  | send =>
    obtain rfl := Option.some.inj ht
    exact ⟨hresult, hlabel, hcx, hcy, hdepth, hcur⟩
  | readResult =>
    rw [Shared.step] at ht
    split at ht
    · obtain rfl := Option.some.inj ht
      refine ⟨hresult, hlabel, hcx, hcy, hdepth, fun cur hmem => ?_⟩
      obtain rfl := Option.some.inj hmem
      change s.latestResult.iter + 0 = s.latestDepth.iter +
        if decide (s.stage ≠ .idle) = true then 1 else 0
      rw [hresult, ← hdepth]
      by_cases hstage : s.stage = .idle <;> simp [hstage]
    · cases ht
  | readDepth =>
    rw [Shared.step] at ht
    split at ht
    · cases ht
    · obtain rfl := Option.some.inj ht
      exact ⟨hresult, hlabel, hcx, hcy, hdepth, by rintro _ ⟨⟩⟩

theorem dated_of_reachable {w h : ℤ} {s : Shared} (hs : (snapshots w h).Reachable s) : Dated s := by
  refine hs.invariant Dated ?_ fun s a t hdated _ ht => hdated.step ht
  rintro s rfl
  exact dated_start

/-! ### The two readers -/

/-- What a message is made from. -/
theorem Shared.message_eq_some {s : Shared} {m : Message} (h : s.message = some m) :
    m.cx.iter = s.latestCx.iter ∧ m.cy.iter = s.latestCy.iter ∧ m.depth = s.latestDepth ∧
      m.label.iter = s.latestLabel.iter := by
  rw [message] at h
  split at h
  · split_ifs at h
    obtain rfl := Option.some.inj h
    exact ⟨rfl, rfl, rfl, rfl⟩
  · cases h

/-- A message is consistent unless it is made between the label and the locked update. -/
theorem Dated.message_iff {s : Shared} (hs : Dated s) {m : Message} (h : s.message = some m) :
    m.Consistent ↔ s.stage ≠ .label := by
  obtain ⟨hcx, hcy, hdepth, hlabel⟩ := Shared.message_eq_some h
  have hd := hs.depth
  have hl := hs.label
  rw [Message.Consistent, hcx, hcy, hdepth, hlabel, hs.cx, hs.cy]
  cases hstage : s.stage <;> simp [hstage] at hd hl ⊢ <;> omega

/-- A command is consistent if the updates since its first read are those due. -/
theorem Dated.command_iff {s : Shared} (hs : Dated s) {cur : Stamped (Option (List Byte))}
    (hcur : s.cur = some cur) {c : Command} (h : s.command cur = some c) :
    c.Consistent ↔ s.updates = s.due := by
  obtain ⟨key, -, rfl⟩ := Option.map_eq_some_iff.mp h
  have hread := hs.cur cur hcur
  change cur.iter = s.latestDepth.iter ↔ _
  omega

theorem consistent_start : Shared.Consistent .start :=
  ⟨List.forall_mem_nil _, List.forall_mem_nil _⟩

/-- What a step sends, in front of what has been sent before. -/
def SentBy (s : Shared) (a : SharedStep) (t : Shared) : Prop :=
  (a = .send ∧ t.messages = s.messages ++ s.message.toList ∧ t.commands = s.commands) ∨
    (∃ cur, a = .readDepth ∧ s.cur = some cur ∧ t.messages = s.messages ∧
      t.commands = s.commands ++ (s.command cur).toList) ∨
    (t.messages = s.messages ∧ t.commands = s.commands ∧ Outside s a)

theorem sentBy_step {w h : ℤ} {s t : Shared} {a : SharedStep} (ht : s.step w h a = some t) :
    SentBy s a t := by
  cases a with
  | send =>
    obtain rfl := Option.some.inj ht
    exact .inl ⟨rfl, rfl, rfl⟩
  | readDepth =>
    rw [Shared.step] at ht
    split at ht
    · cases ht
    · rename_i cur hcur
      obtain rfl := Option.some.inj ht
      exact .inr (.inl ⟨cur, rfl, hcur, rfl, rfl⟩)
  | readResult =>
    rw [Shared.step] at ht
    split at ht
    · obtain rfl := Option.some.inj ht
      exact .inr (.inr ⟨rfl, rfl, trivial⟩)
    · cases ht
  | assignResult best =>
    obtain ⟨-, rfl⟩ := Option.ite_some_none_eq_some.mp ht
    exact .inr (.inr ⟨rfl, rfl, trivial⟩)
  | assignIsDrone =>
    obtain ⟨-, rfl⟩ := Option.ite_some_none_eq_some.mp ht
    exact .inr (.inr ⟨rfl, rfl, trivial⟩)
  | assignLabel =>
    obtain ⟨-, rfl⟩ := Option.ite_some_none_eq_some.mp ht
    exact .inr (.inr ⟨rfl, rfl, trivial⟩)
  | update =>
    obtain ⟨-, rfl⟩ := Option.ite_some_none_eq_some.mp ht
    exact .inr (.inr ⟨rfl, rfl, trivial⟩)

/-- **One step.** What has been sent is consistent after a step if it was before and the step is
outside its window, and only then. -/
theorem Dated.consistent_step_iff {w h : ℤ} {s t : Shared} (hs : Dated s) {a : SharedStep}
    (ht : s.step w h a = some t) : t.Consistent ↔ s.Consistent ∧ Outside s a := by
  have hsplit : ∀ t : Shared, t.Consistent ↔ (∀ m ∈ t.messages, m.Consistent) ∧
      ∀ c ∈ t.commands, c.Consistent := fun t => ⟨fun h => ⟨h.1, h.2⟩, fun h => ⟨h.1, h.2⟩⟩
  rcases sentBy_step ht with ⟨rfl, hm, hc⟩ | ⟨cur, rfl, hcur, hm, hc⟩ | ⟨hm, hc, hout⟩
  · have hnew : (∀ m ∈ s.message.toList, m.Consistent) ↔ Outside s .send := by
      cases hmessage : s.message with
      | none => simp [Outside, hmessage]
      | some m => simp [Outside, hmessage, hs.message_iff hmessage]
    rw [hsplit t, hsplit s, hm, hc, List.forall_mem_append, hnew]
    tauto
  · have hnew : (∀ c ∈ (s.command cur).toList, c.Consistent) ↔ Outside s .readDepth := by
      have houtside : Outside s .readDepth ↔ (cur.val.isSome → s.updates = s.due) := by
        simp [Outside, hcur]
      rw [houtside]
      cases hcommand : s.command cur with
      | none => simp_all [Shared.command]
      | some c =>
        have hsome : cur.val.isSome := by
          obtain ⟨key, hkey, -⟩ := Option.map_eq_some_iff.mp hcommand
          rw [hkey]
          rfl
        simp [hs.command_iff hcur hcommand, hsome]
    rw [hsplit t, hsplit s, hm, hc, List.forall_mem_append, hnew]
    tauto
  · rw [hsplit t, hsplit s, hm, hc]
    simp [hout]

/-- **Messages and commands are each made from one iteration** in every run whose steps are outside
the windows of their threads, and the first step inside one makes a message or a command from
two. -/
theorem consistent_iff (w h : ℤ) :
    (∀ s, (snapshots w h).Reach Outside s → s.Consistent) ∧
      ∀ s a t, (snapshots w h).Reachable s → (snapshots w h).step s a = some t → ¬Outside s a →
        ¬t.Consistent := by
  constructor
  · intro s hs
    refine (hs.invariant (fun s => Dated s ∧ s.Consistent) ?_ ?_).2
    · rintro s rfl
      exact ⟨dated_start, consistent_start⟩
    · intro s a t hs hout ht
      exact ⟨hs.1.step ht, (hs.1.consistent_step_iff ht).mpr ⟨hs.2, hout⟩⟩
  · intro s a t hs ht hin hcons
    exact hin (((dated_of_reachable hs).consistent_step_iff ht).mp hcons).2

/-! ### Two targets -/

/-- A drone in the upper left of the frame, half a metre away. -/
def leftDrone : Best := ⟨100, 80, 140, 120, bytes "drone", some (1 / 2)⟩

/-- Its depth, as it is stored. -/
def halfMetre : WithTop ℚ := ((1 / 2 : ℚ) : WithTop ℚ)

/-- A bird in the lower right, two metres away. -/
def rightBird : Best := ⟨1100, 600, 1140, 640, bytes "bird", some 2⟩

/-- One iteration. -/
def iteration (best : Option Best) : List SharedStep :=
  [.assignResult best, .assignIsDrone, .assignLabel, .update]

/-- A message and a command for each of the two targets. -/
theorem consistent_iff_witness : ∃ s, (snapshots 1280 720).Reach Outside s ∧
    s.messages.length = 2 ∧ s.commands.length = 2 ∧ s.Consistent := by
  obtain ⟨s, hs, hp⟩ := exists_reach_of_run (snapshots 1280 720) Outside rfl
    (iteration (some leftDrone) ++ [.send, .readResult, .readDepth] ++
      iteration (some rightBird) ++ [.send, .readResult, .readDepth])
    (fun s => s.messages.length == 2 && s.commands.length == 2) (by decide +kernel)
  obtain ⟨hm, hc⟩ : s.messages.length = 2 ∧ s.commands.length = 2 := by simpa using hp
  exact ⟨s, hs, hm, hc, (consistent_iff 1280 720).1 s hs⟩

/-- The position of the drone is sent as that of the bird. -/
theorem not_consistent :
    ¬∀ s, (snapshots 1280 720).Reachable s → s.Consistent := by
  intro h
  obtain ⟨s, hs, hp⟩ := exists_reach_of_run (snapshots 1280 720) (fun _ _ => True) rfl
    (iteration (some leftDrone) ++ [.assignResult (some rightBird), .assignIsDrone, .assignLabel,
      .send])
    (fun s => s.messages == [⟨⟨120, 1⟩, ⟨100, 1⟩, ⟨some halfMetre, 1⟩, ⟨bytes "bird", 2⟩⟩])
    (by decide +kernel)
  have hmessages : s.messages = [⟨⟨120, 1⟩, ⟨100, 1⟩, ⟨some halfMetre, 1⟩, ⟨bytes "bird", 2⟩⟩] := by
    simpa using hp
  have hmixed := (h s hs).messages _ (hmessages ▸ List.mem_singleton_self _)
  exact absurd hmixed.2.2 (by decide)

end Vision

end DroneTurret
