import DroneTurret.Firmware.ServoLaw
import DroneTurret.Vision.Selection
import DroneTurret.Vision.Turret

/-!
# From the camera to the servos

The inference loop stores the letter of its target first and the depth after it, and `uart_thread`
reads the two in the same order, without a lock. `tracking` has every interleaving of the two
threads, with the target of each iteration selected from what the camera gives for it. A line is
made of the letter of one iteration and the depth of another one, which need not be the same.

The other half is what the firmware makes of the lines when each of them is received and served
before the next one: `follow` says how a target moves the angles.

## Main definitions

* `Target` — a selected box with the depth that is stored for it
* `tracking` — the inference loop and `uart_thread`, step by step
* `serve`, `track` — the firmware, and a run of iterations each of which is written and served
* `follow` — how a target moves the turret

## Main results

* `lines_spec` — what a line says, in every run of either program
* `track_startUp` — a run of iterations moves the servos as its targets do
-/

namespace DroneTurret

namespace Vision

open CString Transition Firmware

/-- A selected box, with `latest_depth` as the iteration stores it. -/
structure Target (w h : ℤ) where
  box : Box w h
  depth : Option (WithTop ℚ)

def Cuda.target (w h : ℤ) (names : Cuda.Names) (frame : Cuda.Frame) : Option (Target w h) :=
  (Cuda.best (Cuda.candidates w h names frame)).map fun b =>
    ⟨b.box, (Cuda.publish w h (some b)).latestDepth⟩

def Hailo.target (w h : ℤ) (frame : Hailo.Frame) : Option (Target w h) :=
  (Hailo.best (Hailo.candidates w h frame)).map fun b =>
    ⟨b.box, App.hailo.latestDepth (Hailo.latestDepth frame b)⟩

variable {w h : ℤ}

/-- `latest_result` for a target. -/
def Target.result (t : Target w h) : List Byte :=
  latestResult t.box.x1 t.box.y1 t.box.x2 t.box.y2 w h

/-- A line of `uart_thread`, with the numbers of the iterations that its letter and its depth are
from. -/
structure Line where
  text : List Byte
  key : ℕ
  depth : ℕ
  deriving DecidableEq

structure Tracked (w h : ℤ) where
  latestResult : Stamped (Option (List Byte))
  latestDepth : Stamped (Option (WithTop ℚ))
  /-- The targets of the iterations, from the state before the first one. -/
  targets : List (Option (Target w h))
  /-- Whether the last iteration has still to store its depth. -/
  busy : Bool
  /-- `cur` of `uart_thread`, between its two reads. -/
  cur : Option (Stamped (Option (List Byte)))
  written : List Line

def Tracked.start (w h : ℤ) : Tracked w h := ⟨⟨none, 0⟩, ⟨none, 0⟩, [none], false, none, []⟩

/-- The assignments of the inference loop that `uart_thread` reads, and its two reads. -/
inductive TrackStep (ι : Type*)
  | assignResult (frame : ι)
  | assignDepth
  | readResult
  | readDepth

section System

variable {ι : Type*} (app : App) (select : ι → Option (Target w h))

def Tracked.step (s : Tracked w h) : TrackStep ι → Option (Tracked w h)
  | .assignResult frame =>
    if s.busy then none
    else some { s with
      latestResult := ⟨(select frame).map Target.result, s.targets.length⟩
      targets := s.targets ++ [select frame]
      busy := true }
  | .assignDepth =>
    if s.busy then some { s with
      latestDepth := ⟨(s.targets.getLast?.join).bind Target.depth, s.targets.length - 1⟩
      busy := false }
    else none
  | .readResult =>
    match s.cur with
    | none => some { s with cur := some s.latestResult }
    | some _ => none
  | .readDepth =>
    match s.cur with
    | none => none
    | some cur => some { s with
        cur := none
        written := s.written ++ (cur.val.map fun key =>
          ⟨key ++ bytes "@" ++ [app.digit s.latestDepth.val] ++ bytes "\n", cur.iter,
            s.latestDepth.iter⟩).toList }

def tracking : Transition (Tracked w h) (TrackStep ι) :=
  ⟨(· = .start w h), Tracked.step app select⟩

end System

/-! ### What a line says -/

/-- The text of a line. -/
def App.text (app : App) (t : Target w h) (depth : Option (WithTop ℚ)) : List Byte :=
  [t.box.letter, '@'.toUInt8, app.digit depth, newline]

theorem Target.text_eq (app : App) (t : Target w h) (depth : Option (WithTop ℚ)) :
    t.result ++ bytes "@" ++ [app.digit depth] ++ bytes "\n" = app.text t depth := by
  rw [Target.result, t.box.latestResult_eq_letter]
  rfl

/-- A value is what a function gives for the target of its iteration. -/
def IsFrom {α : Type*} (targets : List (Option (Target w h))) (f : Option (Target w h) → α)
    (v : Stamped α) : Prop :=
  ∃ t, targets[v.iter]? = some t ∧ v.val = f t

theorem getElem?_concat_of_some {α : Type*} {l : List α} {i : ℕ} {a x : α} (h : l[i]? = some a) :
    (l ++ [x])[i]? = some a := by
  obtain ⟨hi, -⟩ := List.getElem?_eq_some_iff.mp h
  rw [List.getElem?_append_left hi, h]

theorem IsFrom.concat {α : Type*} {targets : List (Option (Target w h))}
    {f : Option (Target w h) → α} {v : Stamped α} (hv : IsFrom targets f v)
    (t : Option (Target w h)) : IsFrom (targets ++ [t]) f v := by
  obtain ⟨u, hu, hval⟩ := hv
  exact ⟨u, getElem?_concat_of_some hu, hval⟩

/-- A line is made of the letter of a target and the depth of an iteration. -/
def Line.Says (app : App) (targets : List (Option (Target w h))) (c : Line) : Prop :=
  ∃ t u, targets[c.key]? = some (some t) ∧ targets[c.depth]? = some u ∧
    c.text = app.text t (u.bind Target.depth)

/-- Where the values of a state are from. -/
structure Tracked.Sound (app : App) (s : Tracked w h) : Prop where
  result : IsFrom s.targets (Option.map Target.result) s.latestResult
  depth : IsFrom s.targets (Option.bind · Target.depth) s.latestDepth
  cur : ∀ cur ∈ s.cur, IsFrom s.targets (Option.map Target.result) cur
  written : ∀ c ∈ s.written, c.Says app s.targets

section Run

variable {ι : Type*} {app : App} {select : ι → Option (Target w h)} {s t : Tracked w h}
  {a : TrackStep ι}

theorem Tracked.sound_start : (Tracked.start w h).Sound app :=
  ⟨⟨none, rfl, rfl⟩, ⟨none, rfl, rfl⟩, (by rintro _ ⟨⟩), List.forall_mem_nil _⟩

/-- The four things a step can do. -/
theorem tracked_step_cases (ht : s.step app select a = some t) :
    (∃ frame, t = { s with
      latestResult := ⟨(select frame).map Target.result, s.targets.length⟩
      targets := s.targets ++ [select frame]
      busy := true }) ∨
    t = { s with
      latestDepth := ⟨(s.targets.getLast?.join).bind Target.depth, s.targets.length - 1⟩
      busy := false } ∨
    t = { s with cur := some s.latestResult } ∨
    ∃ cur, s.cur = some cur ∧ t = { s with
      cur := none
      written := s.written ++ (cur.val.map fun key =>
        ⟨key ++ bytes "@" ++ [app.digit s.latestDepth.val] ++ bytes "\n", cur.iter,
          s.latestDepth.iter⟩).toList } := by
  cases a with
  | assignResult frame =>
    rw [Tracked.step, Option.ite_none_left_eq_some] at ht
    exact .inl ⟨frame, (Option.some.inj ht.2).symm⟩
  | assignDepth =>
    obtain ⟨-, rfl⟩ := Option.ite_some_none_eq_some.mp ht
    exact .inr (.inl rfl)
  | readResult =>
    rw [Tracked.step] at ht
    split at ht
    · exact .inr (.inr (.inl (Option.some.inj ht).symm))
    · cases ht
  | readDepth =>
    rw [Tracked.step] at ht
    split at ht
    · cases ht
    · rename_i cur hcur
      exact .inr (.inr (.inr ⟨cur, hcur, (Option.some.inj ht).symm⟩))

theorem Tracked.Sound.step (hs : s.Sound app) (ht : s.step app select a = some t) :
    t.Sound app := by
  rcases tracked_step_cases ht with ⟨frame, rfl⟩ | rfl | rfl | ⟨cur, hcur, rfl⟩
  · refine ⟨⟨select frame, List.getElem?_concat_length, rfl⟩, hs.depth.concat _,
      fun cur hcur => (hs.cur cur hcur).concat _, fun c hc => ?_⟩
    obtain ⟨t, u, hkey, hdepth, htext⟩ := hs.written c hc
    exact ⟨t, u, getElem?_concat_of_some hkey, getElem?_concat_of_some hdepth, htext⟩
  · refine ⟨hs.result, ?_, hs.cur, hs.written⟩
    -- the history is never empty, so the last iteration is in it
    obtain ⟨u, hu⟩ : ∃ u, s.targets[s.targets.length - 1]? = some u := by
      obtain ⟨v, hv, -⟩ := hs.result
      obtain ⟨hlt, -⟩ := List.getElem?_eq_some_iff.mp hv
      exact ⟨_, List.getElem?_eq_getElem (by omega)⟩
    refine ⟨u, hu, ?_⟩
    dsimp only
    rw [List.getLast?_eq_getElem?, hu]
    rfl
  · refine ⟨hs.result, hs.depth, fun cur h => ?_, hs.written⟩
    obtain rfl := Option.some.inj h
    exact hs.result
  · refine ⟨hs.result, hs.depth, (by rintro _ ⟨⟩), ?_⟩
    refine List.forall_mem_append.mpr ⟨hs.written, fun c hc => ?_⟩
    obtain ⟨t, hkey, hval⟩ := hs.cur cur hcur
    obtain ⟨u, hu, hdepth⟩ := hs.depth
    rw [Option.mem_toList, hval, Option.map_map, Option.map_eq_some_iff] at hc
    obtain ⟨t, rfl, rfl⟩ := hc
    refine ⟨t, u, hkey, hu, ?_⟩
    dsimp only at hdepth
    rw [← t.text_eq, ← hdepth]
    rfl

theorem Tracked.sound_of_reachable (hs : (tracking app select).Reachable s) : s.Sound app := by
  refine hs.invariant (Tracked.Sound app) ?_ fun s a t hsound _ ht => hsound.step ht
  rintro s rfl
  exact Tracked.sound_start

/-- Every target in the history has been selected from what the camera gave. -/
theorem exists_frame_of_reachable (hs : (tracking app select).Reachable s) :
    ∀ t, some t ∈ s.targets → ∃ frame, select frame = some t := by
  refine hs.invariant (fun s => ∀ t, some t ∈ s.targets → ∃ frame, select frame = some t) ?_ ?_
  · rintro s rfl t ht
    cases List.mem_singleton.mp ht
  · intro s a u hs _ hu
    rcases tracked_step_cases hu with ⟨frame, rfl⟩ | rfl | rfl | ⟨cur, -, rfl⟩
    · intro t ht
      rcases List.mem_append.mp ht with ht | ht
      · exact hs t ht
      · exact ⟨frame, (List.mem_singleton.mp ht).symm⟩
    · exact hs
    · exact hs
    · exact hs

end Run

/-- Every target of `app_cuda` has a depth greater than zero. -/
theorem Cuda.target_depth {names : Cuda.Names} {frame : Cuda.Frame} {t : Target w h}
    (ht : Cuda.target w h names frame = some t) : ∃ z, t.depth = some z ∧ 0 < z := by
  obtain ⟨b, -, rfl⟩ := Option.map_eq_some_iff.mp ht
  refine ⟨b.z, ?_, b.pos⟩
  rw [Cuda.publish_eq]

/-- **What `uart_thread` writes**, in every interleaving: a letter of the grid, `@`, one digit and a
newline. The letter is that of the target selected in an iteration, and the digit is for the depth
stored in an iteration. In `app_cuda` the digit is `0` exactly if that one had no target, so a line
whose letter and depth are of one iteration never has it; in `app_hailo` it is `1` or `2`. -/
theorem lines_spec (w h : ℤ) (names : Cuda.Names) :
    (∀ s, (tracking .cuda (Cuda.target w h names)).Reachable s → ∀ c ∈ s.written,
      ∃ t u, s.targets[c.key]? = some (some t) ∧ s.targets[c.depth]? = some u ∧
        t.box.letter ∈ bytes "QWEASDZXC" ∧ ∃ d ∈ bytes "012345",
          c.text = [t.box.letter, '@'.toUInt8, d, newline] ∧
          d = App.cuda.digit (u.bind Target.depth) ∧ (d = '0'.toUInt8 ↔ u = none) ∧
          (c.depth = c.key → d ≠ '0'.toUInt8)) ∧
    ∀ s, (tracking .hailo (Hailo.target w h)).Reachable s → ∀ c ∈ s.written,
      ∃ t u, s.targets[c.key]? = some (some t) ∧ s.targets[c.depth]? = some u ∧
        t.box.letter ∈ bytes "QWEASDZXC" ∧ ∃ d ∈ bytes "12",
          c.text = [t.box.letter, '@'.toUInt8, d, newline] ∧
          (d = '1'.toUInt8 ↔ u.bind Target.depth = none ∨ u.bind Target.depth = some 0) := by
  refine ⟨fun s hs c hc => ?_, fun s hs c hc => ?_⟩
  · obtain ⟨t, u, hkey, hdepth, htext⟩ := (Tracked.sound_of_reachable hs).written c hc
    have hdigit : App.cuda.digit (u.bind Target.depth) ∈ bytes "012345" ∧
        (App.cuda.digit (u.bind Target.depth) = '0'.toUInt8 ↔ u = none) := by
      cases u with
      | none => exact ⟨show '0'.toUInt8 ∈ bytes "012345" by decide, iff_of_true rfl rfl⟩
      | some t' =>
        obtain ⟨frame, hframe⟩ := exists_frame_of_reachable hs t' (List.mem_of_getElem? hdepth)
        obtain ⟨z, hz, hpos⟩ := Cuda.target_depth hframe
        have hmem := cuda_digit_mem hpos
        have hne : ∀ d ∈ bytes "12345", d ∈ bytes "012345" ∧ d ≠ '0'.toUInt8 :=
          forall_mem_of_all rfl
        rw [Option.bind_some, hz]
        exact ⟨(hne _ hmem).1, iff_of_false (hne _ hmem).2 nofun⟩
    refine ⟨t, u, hkey, hdepth, t.box.letter_mem, _, hdigit.1, htext, rfl, hdigit.2, ?_⟩
    intro heq hzero
    rw [heq, hkey, hdigit.2.mp hzero] at hdepth
    cases hdepth
  · obtain ⟨t, u, hkey, hdepth, htext⟩ := (Tracked.sound_of_reachable hs).written c hc
    obtain ⟨hmem, hiff⟩ := hailo_digit_mem (u.bind Target.depth)
    exact ⟨t, u, hkey, hdepth, t.box.letter_mem, _, hmem, htext, hiff⟩

/-- A drone in the upper left sector, without a depth frame. -/
def upperLeft : Cuda.Frame := ⟨[⟨100, 80, 140, 120, 9 / 10, 0⟩], none⟩

/-- The target is lost between the two reads, so the digit is for no target. -/
theorem lines_spec_witness : ∃ s,
    (tracking .cuda (Cuda.target 1280 720 (.list [bytes "drone"]))).Reachable s ∧
      s.written = [⟨bytes "Q@0\n", 1, 2⟩] ∧ s.targets[2]? = some none := by
  obtain ⟨s, hs, hp⟩ := exists_reach_of_run
    (tracking .cuda (Cuda.target 1280 720 (.list [bytes "drone"]))) (fun _ _ => True) rfl
    [.assignResult upperLeft, .assignDepth, .readResult, .assignResult ⟨[], none⟩, .assignDepth,
      .readDepth] (fun s => s.written = [⟨bytes "Q@0\n", 1, 2⟩]) (by decide +kernel)
  have hwritten : s.written = [⟨bytes "Q@0\n", 1, 2⟩] := of_decide_eq_true hp
  refine ⟨s, hs, hwritten, ?_⟩
  obtain ⟨t, u, -, hu, -, d, -, htext, -, hzero, -⟩ :=
    (lines_spec 1280 720 (.list [bytes "drone"])).1 s hs ⟨bytes "Q@0\n", 1, 2⟩
      (hwritten ▸ List.mem_cons_self)
  have hd : d = '0'.toUInt8 := by
    have hthird := congrArg (fun l => l[2]?) htext
    exact (Option.some.inj hthird).symm
  rw [hu, hzero.mp hd]

/-! ### The servos -/

/-- A line is received and served, and the main loop clears the flag. -/
def serve (f : State) (payload : List Byte) : State := (receive f payload).loop

/-- The line of an iteration, when both reads find its values. -/
def Target.line (app : App) (t : Target w h) : List Byte :=
  t.result ++ bytes "@" ++ [app.digit t.depth] ++ bytes "\n"

/-- Iterations each of which is written and served before the next one. -/
def track {ι : Type*} (app : App) (select : ι → Option (Target w h)) (f : State)
    (frames : List ι) : State :=
  frames.foldl (fun f frame => (select frame).elim f fun t => serve f (t.line app)) f

/-- How a target moves the turret: towards its sector, by the step of its digit if the firmware
knows it. -/
def follow (app : App) (a : ℤ × ℤ) (t : Target w h) : ℤ × ℤ :=
  if isLevel (app.digit t.depth) then
    move t.box.letter (levelDegree ((app.digit t.depth).toNat - '0'.toNat)) a
  else a

/-- Receiving leaves the servos and the size of the buffer. -/
theorem foldl_rx_servo (f : State) (s : List Byte) : (s.foldl State.rx f).servo = f.servo ∧
    (s.foldl State.rx f).uart.cmdBuf.length = f.uart.cmdBuf.length := by
  induction s generalizing f with
  | nil => exact ⟨rfl, rfl⟩
  | cons b s ih =>
    have hb : (f.rx b).servo = f.servo ∧
        (f.rx b).uart.cmdBuf.length = f.uart.cmdBuf.length := by
      by_cases hends : f.uart.ends b
      · rw [rx_of_ends hends]
        exact ⟨rfl, List.length_set⟩
      · rw [rx_of_not_ends hends]
        exact ⟨rfl, List.length_set⟩
    rw [List.foldl_cons]
    exact ⟨(ih _).1.trans hb.1, (ih _).2.trans hb.2⟩

/-- The law for a line of one letter and one digit. -/
theorem servoLaw_line (a : ℤ × ℤ) {key digit : Byte} (hkey : isAt key = false)
    (hdigit : isAt digit = false) (hnl : digit ≠ newline) :
    servoLaw a [key, '@'.toUInt8, digit] =
      if isLevel digit then move key (levelDegree (digit.toNat - '0'.toNat)) a else a := by
  have hR : [key, '@'.toUInt8, digit] ≠ bytes "R" := fun h => by
    have hlength := congrArg List.length h
    cases hlength
  rw [servoLaw, if_neg hR, command_line hkey hdigit hnl]
  by_cases hlevel : isLevel digit
  · rw [if_pos hlevel, if_pos hlevel]
  · rw [if_neg hlevel, if_neg hlevel]

/-- **One line, served at rest**, moves the servos by the law and leaves the firmware at rest. -/
theorem serve_line {f : State} (hf : AtRest f) (hs : f.servo.Synced) {key digit : Byte}
    (hkey : key ∉ [0, newline, '@'.toUInt8]) (hdigit : digit ∉ [0, newline, '@'.toUInt8]) :
    AtRest (serve f [key, '@'.toUInt8, digit, newline]) ∧
      (serve f [key, '@'.toUInt8, digit, newline]).servo.Synced ∧
      (serve f [key, '@'.toUInt8, digit, newline]).servo.angles =
        if isLevel digit then move key (levelDegree (digit.toNat - '0'.toNat)) f.servo.angles
        else f.servo.angles := by
  obtain ⟨hk0, hknl, hkat⟩ : key ≠ 0 ∧ key ≠ newline ∧ key ≠ '@'.toUInt8 := by simpa using hkey
  obtain ⟨hd0, hdnl, hdat⟩ : digit ≠ 0 ∧ digit ≠ newline ∧ digit ≠ '@'.toUInt8 := by
    simpa using hdigit
  obtain ⟨rest, huart⟩ := uart_foldl_rx_line hf hknl hdnl
  obtain ⟨hpc, -⟩ := foldl_rx_frame f [key, '@'.toUInt8, digit, newline]
  obtain ⟨hservo, hlength⟩ := foldl_rx_servo f [key, '@'.toUInt8, digit, newline]
  rw [serve, receive]
  generalize [key, '@'.toUInt8, digit, newline].foldl State.rx f = g at huart hpc hservo hlength
  have hline : cString g.uart.cmdBuf = [key, '@'.toUInt8, digit] := by
    rw [huart]
    have h0 : 0 ∉ [key, '@'.toUInt8, digit] := by
      have hat : (0 : Byte) ≠ '@'.toUInt8 := by decide
      simp [hk0.symm, hat, hd0.symm]
    exact cString_append_zero h0 rest
  have hparse : g.loop = g.parse := by simp [State.loop, hpc, hf.pc, huart]
  have hclear : g.parse.loop = { g.parse with
      uart := { g.parse.uart with rxFlag := false }, pc := .test } := rfl
  rw [hparse, hclear]
  refine ⟨⟨rfl, rfl, ?_, ?_⟩, ?_, ?_⟩
  · change g.uart.cmdIndex = 0
    rw [huart]
  · change (decode g.uart.cmdBuf).2.length = cmdBufLen
    rw [length_decode_snd, hlength, hf.length]
  · change (parsingCommand g.servo g.uart.cmdBuf).1.Synced
    rw [hservo]
    exact parsingCommand_synced hs _
  · change (parsingCommand g.servo g.uart.cmdBuf).1.angles = _
    rw [hservo, parsingCommand_angles hs, hline,
      servoLaw_line _ (by simpa [isAt] using hkat) (by simpa [isAt] using hdat) hdnl]

/-- **A run of iterations.** When each line is received and served before the next one is written,
the turret follows the targets: the angles are those of `follow` for one target after the other, the
registers hold the pulses of these angles, and the firmware is at rest again. -/
theorem track_spec {ι : Type*} (app : App) (select : ι → Option (Target w h)) {f : State}
    (hf : AtRest f) (hs : f.servo.Synced) (frames : List ι) :
    AtRest (track app select f frames) ∧ (track app select f frames).servo.Synced ∧
      (track app select f frames).servo.angles =
        (frames.filterMap select).foldl (follow app) f.servo.angles := by
  induction frames generalizing f with
  | nil => exact ⟨hf, hs, rfl⟩
  | cons frame frames ih =>
    rw [track, List.foldl_cons]
    cases hframe : select frame with
    | none =>
      rw [List.filterMap_cons_none hframe]
      exact ih hf hs
    | some t =>
      have hplain : ∀ b ∈ bytes "QWEASDZXC" ++ bytes "012345", b ∉ [0, newline, '@'.toUInt8] :=
        forall_mem_of_all rfl
      obtain ⟨hrest, hsync, hangles⟩ := serve_line hf hs
        (hplain _ (List.mem_append_left _ t.box.letter_mem))
        (hplain _ (List.mem_append_right _ (app.digit_mem t.depth)))
      have htext : t.line app = [t.box.letter, '@'.toUInt8, app.digit t.depth, newline] :=
        t.text_eq app t.depth
      rw [← htext] at hrest hsync hangles
      obtain ⟨hrest', hsync', hangles'⟩ := ih hrest hsync
      refine ⟨hrest', hsync', ?_⟩
      rw [List.filterMap_cons_some hframe, List.foldl_cons]
      refine hangles'.trans ?_
      rw [hangles]
      rfl

/-- The step for a depth of `app_cuda`, if it is below 1.1 m. -/
def depthStep (z : WithTop ℚ) : Option ℤ :=
  if z < ((1 / 2 : ℚ) : WithTop ℚ) then some 30
  else if z < ((4 / 5 : ℚ) : WithTop ℚ) then some 20
  else if z < ((11 / 10 : ℚ) : WithTop ℚ) then some 10
  else none

theorem follow_cuda {t : Target w h} {z : WithTop ℚ} (hz : t.depth = some z) (hpos : 0 < z)
    (a : ℤ × ℤ) :
    follow .cuda a t = (t.depth.bind depthStep).elim a fun deg => move t.box.letter deg a := by
  rw [follow, hz, Option.bind_some, depthStep, cuda_digit_of_pos hpos]
  by_cases h1 : z < ((1 / 2 : ℚ) : WithTop ℚ)
  · rw [if_pos h1, if_pos h1]
    rfl
  by_cases h2 : z < ((4 / 5 : ℚ) : WithTop ℚ)
  · rw [if_neg h1, if_neg h1, if_pos h2, if_pos h2]
    rfl
  by_cases h3 : z < ((11 / 10 : ℚ) : WithTop ℚ)
  · rw [if_neg h1, if_neg h1, if_neg h2, if_neg h2, if_pos h3, if_pos h3]
    rfl
  · rw [if_neg h1, if_neg h1, if_neg h2, if_neg h2, if_neg h3, if_neg h3]
    by_cases h4 : z < ((7 / 5 : ℚ) : WithTop ℚ)
    · rw [if_pos h4]
      rfl
    · rw [if_neg h4]
      rfl

theorem follow_hailo (t : Target w h) (a : ℤ × ℤ) : follow .hailo a t =
    move t.box.letter (if t.depth = none ∨ t.depth = some 0 then 30 else 20) a := by
  rw [follow, App.digit]
  by_cases hdepth : t.depth = none ∨ t.depth = some 0
  · rw [if_pos hdepth, if_pos hdepth]
    rfl
  · rw [if_neg hdepth, if_neg hdepth]
    rfl

/-- **From the camera to the servos.** From start-up, with every line served before the next one is
written, each target moves both angles towards its sector and clamps them: in `app_cuda` by 30, 20
or 10 degrees for a depth below 0.5, 0.8 or 1.1 m and not at all for any other depth, in `app_hailo`
by 30 degrees without a depth and by 20 degrees with one. -/
theorem track_startUp (w h : ℤ) (names : Cuda.Names) :
    (∀ frames : List Cuda.Frame,
      (track .cuda (Cuda.target w h names) State.startUp frames).servo.Synced ∧
      (track .cuda (Cuda.target w h names) State.startUp frames).servo.angles =
        (frames.filterMap (Cuda.target w h names)).foldl (fun a t =>
          (t.depth.bind depthStep).elim a fun deg => move t.box.letter deg a) (0, 90)) ∧
    ∀ frames : List Hailo.Frame,
      (track .hailo (Hailo.target w h) State.startUp frames).servo.Synced ∧
      (track .hailo (Hailo.target w h) State.startUp frames).servo.angles =
        (frames.filterMap (Hailo.target w h)).foldl (fun a t =>
          move t.box.letter (if t.depth = none ∨ t.depth = some 0 then 30 else 20) a) (0, 90) := by
  refine ⟨fun frames => ?_, fun frames => ?_⟩
  · obtain ⟨-, hsync, hangles⟩ := track_spec .cuda (Cuda.target w h names) atRest_startUp
      Servo.startUp_synced frames
    refine ⟨hsync, hangles.trans (List.foldl_ext _ _ _ fun a t ht => ?_)⟩
    obtain ⟨frame, -, hframe⟩ := List.mem_filterMap.mp ht
    obtain ⟨z, hz, hpos⟩ := Cuda.target_depth hframe
    exact follow_cuda hz hpos a
  · obtain ⟨-, hsync, hangles⟩ := track_spec .hailo (Hailo.target w h) atRest_startUp
      Servo.startUp_synced frames
    exact ⟨hsync, hangles.trans (List.foldl_ext _ _ _ fun a t _ => follow_hailo t a)⟩

end Vision

end DroneTurret
