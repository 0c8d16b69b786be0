import DroneTurret.Lib.Transition
import DroneTurret.Vision.Encoder
import Mathlib.Data.List.DropRight
import Mathlib.Data.List.Infix

/-!
# Commands for a detection

`uart_thread` reads the shared result at a fixed rate and writes a command whenever there is one. It
does not wait for `result_cv` and leaves no mark that a result has been used, and `inference_thread`
leaves the last result behind when it ends. So a detection leads to as many commands as there are
polls until the next one.

An iteration of either thread is one step. One of `uart_thread` without an open port, or whose
`ser.write` raises, writes nothing.

What decides how many commands a detection leads to is how the iterations follow each other, and
nothing that they compute: `Paced` and `Stopped` are conditions on the actions alone.

## Main definitions

* `polling` — the two threads
* `Paced` — between iterations of `inference_thread`, `uart_thread` writes once at most
* `Stopped` — `uart_thread` does not write after the end of `inference_thread`

## Main results

* `Recounts.concat` — what the actions say of the state they lead to
* `once_per_detection` — when each detection leads to one command at most, and none comes late
-/

namespace DroneTurret

namespace Vision

open CString Transition

/-- A written command, with the number of the detection it is for. -/
structure Written where
  detection : ℕ
  text : List Byte
  /-- Whether `inference_thread` had ended. -/
  late : Bool
  deriving DecidableEq

structure Polled where
  latestResult : Option (List Byte)
  latestDepth : Option (WithTop ℚ)
  /-- Whether `inference_thread` is running. -/
  running : Bool
  /-- The detections published. -/
  published : ℕ
  written : List Written

def Polled.start : Polled := ⟨none, none, true, 0, []⟩

/-- An iteration of `inference_thread` that publishes a box and the depth at its centre or clears
the result, its end, and an iteration of `uart_thread`, with whether it has a port that it can write
to. -/
inductive Poll
  | publish (x1 y1 x2 y2 : ℤ) (z : Option ℚ)
  | clear
  | exit
  | poll (port : Bool)
  deriving DecidableEq

/-- The command of a poll. -/
def Polled.write (app : App) (s : Polled) (cur : List Byte) : Written :=
  ⟨s.published, app.payload cur s.latestDepth, !s.running⟩

/-- One iteration, for frames of `w` by `h` pixels. -/
def Polled.step (app : App) (w h : ℤ) (s : Polled) : Poll → Option Polled
  | .publish x1 y1 x2 y2 z =>
    if s.running then
      some { s with
        latestResult := some (Vision.latestResult x1 y1 x2 y2 w h)
        latestDepth := app.latestDepth z
        published := s.published + 1 }
    else none
  | .clear => if s.running then some { s with latestResult := none, latestDepth := none } else none
  | .exit => if s.running then some { s with running := false } else none
  | .poll port =>
    match s.latestResult with
    | none => some s
    | some cur =>
      some (if port then { s with written := s.written ++ [s.write app cur] } else s)

def polling (app : App) (w h : ℤ) : Transition Polled Poll := ⟨(· = .start), Polled.step app w h⟩

/-- No detection has led to two commands. -/
def Polled.Once (s : Polled) : Prop := (s.written.map Written.detection).Nodup

instance (s : Polled) : Decidable s.Once := inferInstanceAs (Decidable (List.Nodup _))

/-- No command has been written after `inference_thread` had ended. -/
def Polled.Silent (s : Polled) : Prop := ∀ c ∈ s.written, c.late = false

/-! ### How the iterations follow each other -/

namespace Poll

/-- An iteration of `inference_thread`. -/
def iterates : Poll → Bool
  | publish _ _ _ _ _ => true
  | clear => true
  | _ => false

def publishes : Poll → Bool
  | publish _ _ _ _ _ => true
  | _ => false

end Poll

/-- Whether the last iteration of `inference_thread` published. -/
def lastPublishes (acts : List Poll) : Bool :=
  (acts.filter Poll.iterates).getLast?.any Poll.publishes

/-- The actions since that iteration. -/
def sinceIteration (acts : List Poll) : List Poll := acts.rtakeWhile fun a => !a.iterates

/-- The actions since the end of `inference_thread`. -/
def sinceExit (acts : List Poll) : List Poll := acts.rtakeWhile (· != .exit)

/-- The iterations of `uart_thread` that can write. -/
def polls (acts : List Poll) : ℕ := acts.count (.poll true)

/-- After an iteration that publishes, and before the next one, `uart_thread` comes round to write
once at most. -/
def Paced (acts : List Poll) : Prop :=
  ∀ before ∈ acts.inits, lastPublishes before = true → polls (sinceIteration before) ≤ 1

/-- `uart_thread` does not come round to write after the end of `inference_thread`, if the last
iteration published. -/
def Stopped (acts : List Poll) : Prop :=
  ∀ before ∈ acts.inits, lastPublishes before = true → .exit ∈ before →
    polls (sinceExit before) = 0

instance (acts : List Poll) : Decidable (Paced acts) := List.decidableBAll _ _

instance (acts : List Poll) : Decidable (Stopped acts) := List.decidableBAll _ _

section Schedule

variable {acts : List Poll} {a : Poll}

theorem forall_mem_inits_concat {P : List Poll → Prop} :
    (∀ before ∈ (acts ++ [a]).inits, P before) ↔
      (∀ before ∈ acts.inits, P before) ∧ P (acts ++ [a]) := by
  simp only [List.mem_inits, List.prefix_concat_iff]
  constructor
  · exact fun h => ⟨fun before hb => h before (.inr hb), h _ (.inl rfl)⟩
  · rintro ⟨h, h'⟩ before (rfl | hb)
    · exact h'
    · exact h before hb

theorem lastPublishes_concat :
    lastPublishes (acts ++ [a]) = if a.iterates then a.publishes else lastPublishes acts := by
  rw [lastPublishes, List.filter_append, List.filter_singleton]
  cases ha : a.iterates with
  | true =>
    rw [cond_true, List.getLast?_concat, if_pos rfl]
    rfl
  | false =>
    rw [cond_false, List.append_nil, if_neg Bool.false_ne_true]
    rfl

theorem polls_sinceIteration_concat : polls (sinceIteration (acts ++ [a])) =
    if a.iterates then 0 else polls (sinceIteration acts) + if a = .poll true then 1 else 0 := by
  cases ha : a.iterates with
  | true =>
    rw [sinceIteration, List.rtakeWhile_concat_neg _ _ _ (by rw [ha]; exact Bool.false_ne_true)]
    rfl
  | false =>
    rw [sinceIteration, List.rtakeWhile_concat_pos _ _ _ (by rw [ha]; rfl), polls,
      List.count_append, List.count_singleton, if_neg Bool.false_ne_true]
    simp only [beq_iff_eq]
    rfl

theorem polls_sinceExit_concat : polls (sinceExit (acts ++ [a])) =
    if a = .exit then 0 else polls (sinceExit acts) + if a = .poll true then 1 else 0 := by
  by_cases ha : a = .exit
  · rw [sinceExit, List.rtakeWhile_concat_neg _ _ _ (by simp [ha]), if_pos ha]
    rfl
  · rw [sinceExit, List.rtakeWhile_concat_pos _ _ _ (by simpa using ha), polls, List.count_append,
      List.count_singleton, if_neg ha]
    simp only [beq_iff_eq]
    rfl

/-- Where nothing is published last, or no more than before, only a poll matters. -/
theorem paced_concat_iff : Paced (acts ++ [a]) ↔ Paced acts ∧
    (a = .poll true → lastPublishes acts = true → polls (sinceIteration acts) = 0) := by
  rw [Paced, forall_mem_inits_concat, lastPublishes_concat, polls_sinceIteration_concat]
  refine and_congr_right fun hacts => ?_
  have hself := hacts acts ((List.mem_inits _ _).mpr (List.prefix_refl acts))
  cases ha : a.iterates with
  | true =>
    refine iff_of_true (fun _ => Nat.zero_le 1) fun h => ?_
    rw [h] at ha
    cases ha
  | false =>
    rw [if_neg Bool.false_ne_true, if_neg Bool.false_ne_true]
    by_cases hpoll : a = .poll true
    · rw [if_pos hpoll]
      exact ⟨fun h _ hlast => by have := h hlast; omega, fun h hlast => by rw [h hpoll hlast]⟩
    · rw [if_neg hpoll]
      exact iff_of_true hself fun h => absurd h hpoll

theorem stopped_concat_iff (hexit : a.iterates = true → .exit ∉ acts) :
    Stopped (acts ++ [a]) ↔ Stopped acts ∧
      (a = .poll true → lastPublishes acts = true → .exit ∉ acts) := by
  rw [Stopped, forall_mem_inits_concat, lastPublishes_concat, polls_sinceExit_concat]
  refine and_congr_right fun hacts => ?_
  have hself := hacts acts ((List.mem_inits _ _).mpr (List.prefix_refl acts))
  rw [List.mem_append, List.mem_singleton]
  cases ha : a.iterates with
  | true =>
    refine iff_of_true (fun _ h => ?_) fun h => ?_
    · rcases h with h | h
      · exact absurd h (hexit ha)
      · rw [← h] at ha
        cases ha
    · rw [h] at ha
      cases ha
  | false =>
    rw [if_neg Bool.false_ne_true]
    by_cases hpoll : a = .poll true
    · subst hpoll
      rw [if_neg Poll.noConfusion, if_pos rfl]
      constructor
      · exact fun h _ hlast hmem => by have := h hlast (.inl hmem); omega
      · rintro h hlast (hmem | hmem)
        · exact absurd hmem (h rfl hlast)
        · cases hmem
    · rw [if_neg hpoll]
      refine iff_of_true (fun hlast h => ?_) fun h => absurd h hpoll
      split_ifs with hend
      · rfl
      · exact hself hlast (h.resolve_right fun h => hend h.symm)

end Schedule

/-! ### What the actions say of the state -/

/-- The state after some actions. -/
structure Recounts (acts : List Poll) (s : Polled) : Prop where
  result : s.latestResult.isSome = lastPublishes acts
  running : s.running = true ↔ .exit ∉ acts
  le : ∀ c ∈ s.written, c.detection ≤ s.published
  used : lastPublishes acts = true →
    (s.published ∈ s.written.map Written.detection ↔ polls (sinceIteration acts) ≠ 0)
  once : s.Once ↔ Paced acts
  silent : s.Silent ↔ Stopped acts

theorem recounts_start : Recounts [] .start := by
  refine ⟨rfl, iff_of_true rfl (List.not_mem_nil), List.forall_mem_nil _, nofun, ?_, ?_⟩
  · exact iff_of_true List.nodup_nil (by decide)
  · exact iff_of_true (List.forall_mem_nil _) (by decide)

section Steps

variable {app : App} {w h : ℤ} {acts : List Poll} {s t : Polled} {a : Poll}

/-- An iteration of `inference_thread`, or its end, writes nothing. -/
theorem Recounts.of_written (hs : Recounts acts s) (hwritten : t.written = s.written)
    (hpoll : a ≠ .poll true) (hexit : a.iterates = true → .exit ∉ acts) :
    (t.Once ↔ Paced (acts ++ [a])) ∧ (t.Silent ↔ Stopped (acts ++ [a])) := by
  rw [Polled.Once, Polled.Silent, hwritten, paced_concat_iff, stopped_concat_iff hexit]
  exact ⟨hs.once.trans (and_iff_left fun h => absurd h hpoll).symm,
    hs.silent.trans (and_iff_left fun h => absurd h hpoll).symm⟩

theorem Recounts.publish (hs : Recounts acts s) (hrun : s.running = true) {x1 y1 x2 y2 : ℤ}
    {z : Option ℚ} : Recounts (acts ++ [.publish x1 y1 x2 y2 z]) { s with
      latestResult := some (Vision.latestResult x1 y1 x2 y2 w h)
      latestDepth := app.latestDepth z
      published := s.published + 1 } := by
  obtain ⟨honce, hsilent⟩ := hs.of_written (a := .publish x1 y1 x2 y2 z) rfl Poll.noConfusion
    fun _ => hs.running.mp hrun
  refine ⟨?_, ?_, fun c hc => (hs.le c hc).trans (Nat.le_succ _), fun _ => ?_, honce, hsilent⟩
  · rw [lastPublishes_concat]
    rfl
  · simpa using hs.running
  · rw [polls_sinceIteration_concat]
    refine iff_of_false (fun hmem => ?_) (not_not.mpr rfl)
    obtain ⟨c, hc, heq⟩ := List.mem_map.mp hmem
    exact absurd (heq ▸ hs.le c hc) (Nat.not_succ_le_self _)

theorem Recounts.clear (hs : Recounts acts s) (hrun : s.running = true) :
    Recounts (acts ++ [.clear]) { s with latestResult := none, latestDepth := none } := by
  obtain ⟨honce, hsilent⟩ := hs.of_written (a := .clear) rfl Poll.noConfusion
    fun _ => hs.running.mp hrun
  refine ⟨?_, ?_, hs.le, fun hlast => ?_, honce, hsilent⟩
  · rw [lastPublishes_concat]
    rfl
  · simpa using hs.running
  · rw [lastPublishes_concat] at hlast
    cases hlast

theorem Recounts.exit (hs : Recounts acts s) :
    Recounts (acts ++ [.exit]) { s with running := false } := by
  obtain ⟨honce, hsilent⟩ := hs.of_written (a := .exit) rfl Poll.noConfusion nofun
  refine ⟨?_, ?_, hs.le, fun hlast => ?_, honce, hsilent⟩
  · rw [lastPublishes_concat]
    exact hs.result
  · simp
  · rw [lastPublishes_concat] at hlast
    rw [polls_sinceIteration_concat]
    exact hs.used hlast

/-- A poll that writes nothing. -/
theorem Recounts.idle (hs : Recounts acts s) {port : Bool}
    (hidle : port = true → s.latestResult = none) : Recounts (acts ++ [.poll port]) s := by
  have hnone : port = true → lastPublishes acts ≠ true := fun hport hlast => by
    rw [← hs.result, hidle hport] at hlast
    cases hlast
  have hport : ∀ {b : Bool}, Poll.poll b = .poll true → b = true := fun h => Poll.poll.inj h
  refine ⟨?_, ?_, hs.le, fun hlast => ?_, ?_, ?_⟩
  · rw [lastPublishes_concat]
    exact hs.result
  · simpa using hs.running
  · rw [lastPublishes_concat] at hlast
    have hnot : Poll.poll port ≠ .poll true := fun h => hnone (hport h) hlast
    rw [polls_sinceIteration_concat, if_neg (by exact Bool.false_ne_true), if_neg hnot]
    exact hs.used hlast
  · rw [paced_concat_iff]
    exact hs.once.trans (and_iff_left fun h hlast => absurd hlast (hnone (hport h))).symm
  · rw [stopped_concat_iff fun h => Bool.noConfusion h]
    exact hs.silent.trans (and_iff_left fun h hlast => absurd hlast (hnone (hport h))).symm

/-- **A poll that writes** is the second one for its detection, or comes late, exactly if the
actions say so. -/
theorem Recounts.write (hs : Recounts acts s) {cur : List Byte} (hcur : s.latestResult = some cur) :
    Recounts (acts ++ [.poll true]) { s with written := s.written ++ [s.write app cur] } := by
  have hlast : lastPublishes acts = true := by
    rw [← hs.result, hcur]
    rfl
  have hdetections : (s.written ++ [s.write app cur]).map Written.detection =
      s.written.map Written.detection ++ [s.published] := List.map_append
  refine ⟨?_, ?_, fun c hc => ?_, fun _ => ?_, ?_, ?_⟩
  · rw [lastPublishes_concat]
    exact hs.result
  · simpa using hs.running
  · rcases List.mem_append.mp hc with hc | hc
    · exact hs.le c hc
    · rw [List.mem_singleton.mp hc]
      exact le_refl s.published
  · rw [polls_sinceIteration_concat, hdetections]
    exact iff_of_true (List.mem_append_right _ (List.mem_singleton_self _)) (Nat.succ_ne_zero _)
  · rw [paced_concat_iff, Polled.Once, hdetections, List.nodup_append, ← hs.once, Polled.Once]
    refine and_congr_right fun _ => ?_
    have hnot : polls (sinceIteration acts) = 0 ↔
        s.published ∉ s.written.map Written.detection := by
      rw [hs.used hlast, not_not]
    constructor
    · exact fun h _ _ => hnot.mpr fun hmem => h.2 _ hmem _ (List.mem_singleton_self _) rfl
    · refine fun h => ⟨List.nodup_singleton _, fun d hd e he heq => ?_⟩
      rw [heq, List.mem_singleton.mp he] at hd
      exact hnot.mp (h rfl hlast) hd
  · rw [stopped_concat_iff fun h => Bool.noConfusion h, Polled.Silent, List.forall_mem_append,
      ← hs.silent, Polled.Silent]
    refine and_congr_right fun _ => ?_
    have hlate : (s.write app cur).late = false ↔ .exit ∉ acts := by
      rw [← hs.running]
      exact (Bool.not_eq_false' s.running).to_iff
    rw [List.forall_mem_singleton, hlate]
    exact ⟨fun h _ _ => h, fun h => h rfl hlast⟩

/-- One step. -/
theorem Recounts.concat (hs : Recounts acts s) (ht : s.step app w h a = some t) :
    Recounts (acts ++ [a]) t := by
  cases a with
  | publish x1 y1 x2 y2 z =>
    obtain ⟨hrun, rfl⟩ := Option.ite_some_none_eq_some.mp ht
    exact hs.publish hrun
  | clear =>
    obtain ⟨hrun, rfl⟩ := Option.ite_some_none_eq_some.mp ht
    exact hs.clear hrun
  | exit =>
    obtain ⟨-, rfl⟩ := Option.ite_some_none_eq_some.mp ht
    exact hs.exit
  | poll port =>
    rw [Polled.step] at ht
    split at ht
    · rename_i hnone
      obtain rfl := Option.some.inj ht
      exact hs.idle fun _ => hnone
    · rename_i cur hcur
      obtain rfl := Option.some.inj ht
      cases port with
      | true => exact hs.write hcur
      | false => exact hs.idle nofun

/-- A run. -/
theorem Recounts.run (hs : Recounts acts s) {later : List Poll}
    (ht : (polling app w h).run (fun _ _ => True) s later = some t) :
    Recounts (acts ++ later) t := by
  induction later generalizing acts s with
  | nil =>
    obtain rfl := Option.some.inj ht
    rwa [List.append_nil]
  | cons a later ih =>
    obtain ⟨-, u, hu, ht⟩ := run_cons_eq_some.mp ht
    rw [List.append_cons]
    exact ih (hs.concat hu) ht

end Steps

/-- **Commands for a detection.** In every run, no detection has led to two commands exactly if
`uart_thread` came round to write at most once between an iteration that published and the next one
of `inference_thread`, and no command came after the end of `inference_thread` exactly if
`uart_thread` did not come round to write then, or the last iteration had cleared the result. -/
theorem once_per_detection (app : App) (w h : ℤ) {acts : List Poll} {s : Polled}
    (hs : (polling app w h).run (fun _ _ => True) .start acts = some s) :
    (s.Once ↔ Paced acts) ∧ (s.Silent ↔ Stopped acts) :=
  have hrecounts := recounts_start.run hs
  ⟨hrecounts.once, hrecounts.silent⟩

/-! ### A target that stays -/

/-- A drone in the upper left of the frame. -/
def detection : Poll := .publish 100 80 140 120 (some (1 / 2))

/-- Two detections, each polled once, the second after a write that failed. -/
theorem once_per_detection_witness : ∃ s,
    (polling .cuda 1280 720).run (fun _ _ => True) .start [detection, .poll true, .clear,
      .poll true, detection, .poll false, .poll true, .clear, .exit, .poll true] = some s ∧
    s.written.length = 2 ∧ s.Once ∧ s.Silent := by
  obtain ⟨s, hs, hlength⟩ : ∃ s, (polling .cuda 1280 720).run (fun _ _ => True) .start
      [detection, .poll true, .clear, .poll true, detection, .poll false, .poll true, .clear,
        .exit, .poll true] = some s ∧ s.written.length = 2 := ⟨_, rfl, rfl⟩
  obtain ⟨honce, hsilent⟩ := once_per_detection .cuda 1280 720 hs
  exact ⟨s, hs, hlength, honce.mpr (by decide), hsilent.mpr (by decide)⟩

/-- One detection, polled before and after the end of `inference_thread`. -/
theorem exists_twice (app : App) : ∃ s, (polling app 1280 720).Reachable s ∧ ¬s.Once := by
  have hrun : ((polling app 1280 720).run (fun _ _ => True) .start [detection, .poll true, .exit,
      .poll true]).map (fun s => decide ¬s.Once) = some true := by
    cases app <;> decide +kernel
  obtain ⟨s, hs, hp⟩ := exists_reach_of_run (polling app 1280 720) (fun _ _ => True) rfl _ _ hrun
  exact ⟨s, hs, of_decide_eq_true hp⟩

/-- Both programs write two commands for it. -/
theorem not_once_per_detection :
    (¬∀ s, (polling .hailo 1280 720).Reachable s → s.Once ∧ s.Silent) ∧
      ¬∀ s, (polling .cuda 1280 720).Reachable s → s.Once ∧ s.Silent := by
  have hnot : ∀ app, ¬∀ s, (polling app 1280 720).Reachable s → s.Once ∧ s.Silent := by
    intro app h
    obtain ⟨s, hs, htwice⟩ := exists_twice app
    exact htwice (h s hs).1
  exact ⟨hnot .hailo, hnot .cuda⟩

end Vision

end DroneTurret
