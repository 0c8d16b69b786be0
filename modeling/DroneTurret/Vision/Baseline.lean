import DroneTurret.Lib.CString
import DroneTurret.Lib.Transition
import DroneTurret.Vision.Imu

/-!
# The posture that targets are corrected from

`uart_thread` of `app_cuda` keeps the angles of the orientation filter as they are when it has
written a command that moves the turret. `apply_adjustment` takes the difference between the present
angles and the kept ones. The first command is always kept, whatever its key. After it a command is
kept if its key moves the turret and differs from the kept one, or if the kept one is more than a
quarter of a second old.

So a key that is written again and again is kept now and then only, and the turn that the correction
is for began with some command of this key and not with the last one. `Based` says how far the two
are apart: the last command that moves the turret has the key that is kept, and came no more than a
quarter of a second after it.

A write that fails changes nothing here, and neither does a command that is not kept.

## Main definitions

* `posture` — the orientation filter, the clock and `uart_thread`, step by step
* `Based` — what is kept, in terms of what has been written

## Main results

* `based_of_reachable` — in every run
* `corrected_since` — what a target is corrected by, in every run
-/

namespace DroneTurret

namespace Vision

open CString Transition

/-- `upper` for letters of ASCII. -/
def upper (s : List Byte) : List Byte := s.map fun b => if 97 ≤ b && b ≤ 122 then b - 32 else b

/-- `MOVING_KEYS`. -/
def movingKeys : List (List Byte) := (bytes "QWEADZXC").map fun b => [b]

section Field

variable {F : Type*} [Field F] [LinearOrder F] [IsStrictOrderedRing F] [FloorRing F]

/-- `MIN_SNAPSHOT_INTERVAL`. -/
def minSnapshotInterval : F := 1 / 4

/-- A command with the time at which it was written. -/
structure Timed (F : Type*) where
  cmd : List Byte
  time : F

/-- The variables of the orientation filter and of `uart_thread`, and their history. -/
structure Posture (P : F) where
  imu : Imu F
  lastUartCmd : Option (List Byte)
  lastUartYaw : F
  lastUartPitch : F
  lastUartTs : F
  prevMoveCmd : Option (List Byte)
  /-- `time.monotonic()`. -/
  clock : F
  /-- The calls of the filter before the last command that was kept, and those since then. -/
  before : List (Call P)
  since : List (Call P)
  /-- The commands that were written, and those that were kept. -/
  written : List (Timed F)
  kept : List (Timed F)

def Posture.start {P : F} (clock : F) : Posture P :=
  ⟨⟨0, 0, 0⟩, none, 0, 0, 0, none, clock, [], [], [], []⟩

inductive PostureStep (P : F)
  /-- A call of `complementary_update`. -/
  | update (c : Call P)
  /-- Time passes. -/
  | pass (dt : F)
  /-- A command is written for the result `cur`. -/
  | write (cur : List Byte)

namespace Posture

variable {P : F} (s : Posture P)

/-- Whether a written command is kept. -/
def Keeps (cmd : List Byte) : Prop :=
  s.lastUartTs = 0 ∨
    cmd ∈ movingKeys ∧ (s.prevMoveCmd ≠ some cmd ∨ s.clock - s.lastUartTs > minSnapshotInterval)

instance (cmd : List Byte) : Decidable (s.Keeps cmd) := inferInstanceAs (Decidable (_ ∨ _))

/-- The assignments under `imu_lock`, and the one after it. -/
def keep (cmd : List Byte) : Posture P :=
  { s with
    lastUartCmd := some cmd
    lastUartYaw := s.imu.yaw
    lastUartPitch := s.imu.pitch
    lastUartTs := s.clock
    prevMoveCmd := some cmd
    before := s.before ++ s.since
    since := []
    kept := s.kept ++ [⟨cmd, s.clock⟩] }

/-- `uart_thread` after a write. -/
def wrote (cmd : List Byte) : Posture P :=
  let t := if s.Keeps cmd then s.keep cmd else s
  { t with written := s.written ++ [⟨cmd, s.clock⟩] }

def step : PostureStep P → Option (Posture P)
  | .update c => some { s with imu := complementaryUpdate s.imu c, since := s.since ++ [c] }
  | .pass dt => if 0 ≤ dt then some { s with clock := s.clock + dt } else none
  | .write cur => some (s.wrote ((upper cur).take 1))

end Posture

/-- The three activities, from a clock that has run for some time. -/
def posture (P : F) : Transition (Posture P) (PostureStep P) where
  init s := ∃ clock, 0 < clock ∧ s = .start clock
  step := Posture.step

/-! ### What is kept -/

variable {P : F}

/-- One command is kept after another: its key moves the turret and is another one, or enough time
has passed. -/
def Follows (c d : Timed F) : Prop :=
  d.cmd ∈ movingKeys ∧ (c.cmd ≠ d.cmd ∨ d.time - c.time > minSnapshotInterval)

/-- The last command that moves the turret. -/
def Posture.lastMove (s : Posture P) : Option (Timed F) :=
  (s.written.filter fun c => c.cmd ∈ movingKeys).getLast?

/-- What is kept, in terms of what has been written. -/
structure Based (s : Posture P) : Prop where
  clock : 0 < s.clock
  imu : s.imu = Vision.imu (s.before ++ s.since)
  /-- Nothing is kept before the first command. -/
  none : s.kept = [] → s.lastUartTs = 0 ∧ s.written = []
  /-- The variables are those of the last command kept, at the time when it was. -/
  last : ∀ c ∈ s.kept.getLast?, s.lastUartCmd = some c.cmd ∧ s.prevMoveCmd = some c.cmd ∧
    s.lastUartTs = c.time ∧ 0 < c.time ∧ c.time ≤ s.clock ∧
    s.lastUartYaw = (Vision.imu s.before).yaw ∧ s.lastUartPitch = (Vision.imu s.before).pitch
  /-- The first command is the first one kept. -/
  first : s.kept.head? = s.written.head?
  kept : s.kept.Sublist s.written
  spaced : s.kept.IsChain Follows
  /-- The last command that moves the turret has the key that is kept, and was written within a
  quarter of a second after it. -/
  fresh : ∀ m ∈ s.lastMove, ∃ c ∈ s.kept.getLast?, c.cmd = m.cmd ∧ c.time ≤ m.time ∧
    m.time - c.time ≤ minSnapshotInterval

omit [IsStrictOrderedRing F] in
theorem based_start {clock : F} (h : 0 < clock) : Based (Posture.start clock : Posture P) where
  clock := h
  imu := rfl
  none _ := ⟨rfl, rfl⟩
  last _ hc := by cases hc
  first := rfl
  kept := .slnil
  spaced := .nil
  fresh _ hm := by cases hm

omit [Field F] [LinearOrder F] [IsStrictOrderedRing F] [FloorRing F] in
theorem lastMove_concat (written : List (Timed F)) (c : Timed F) :
    ((written ++ [c]).filter fun c => c.cmd ∈ movingKeys).getLast? =
      if c.cmd ∈ movingKeys then some c
      else (written.filter fun c => c.cmd ∈ movingKeys).getLast? := by
  rw [List.filter_append]
  by_cases hc : c.cmd ∈ movingKeys
  · simp [hc]
  · simp [hc]

omit [IsStrictOrderedRing F] in
/-- Without a time nothing has been written. -/
theorem Based.written_eq_nil {s : Posture P} (hs : Based s) (hzero : s.lastUartTs = 0) :
    s.written = [] := by
  cases hlast : s.kept.getLast? with
  | none => exact (hs.none (List.getLast?_eq_none_iff.mp hlast)).2
  | some c =>
    obtain ⟨-, -, hts, hpos, -⟩ := hs.last c hlast
    exact absurd (hts.symm.trans hzero) hpos.ne'

/-- A command that is kept. -/
theorem Based.keep {s : Posture P} (hs : Based s) {cmd : List Byte} (hkeeps : s.Keeps cmd) :
    Based { s.keep cmd with written := s.written ++ [⟨cmd, s.clock⟩] } where
  clock := hs.clock
  imu := hs.imu.trans (by rw [Posture.keep, List.append_nil])
  none h := absurd h (List.append_ne_nil_of_right_ne_nil _ (List.cons_ne_nil _ _))
  last c hc := by
    obtain rfl : ⟨cmd, s.clock⟩ = c := by simpa [Posture.keep] using hc
    refine ⟨rfl, rfl, rfl, hs.clock, le_refl _, ?_, ?_⟩
    · exact congrArg Imu.yaw hs.imu
    · exact congrArg Imu.pitch hs.imu
  first := by
    cases hkept : s.kept with
    | nil =>
      have hwritten := (hs.none hkept).2
      simp only [Posture.keep, hkept, hwritten]
    | cons c rest =>
      have hfirst := hs.first
      rw [hkept] at hfirst
      obtain ⟨rest', hwritten⟩ : ∃ rest', s.written = c :: rest' :=
        ⟨_, (List.head?_eq_some_iff.mp hfirst.symm).choose_spec⟩
      simp only [Posture.keep, hkept, hwritten]
      rfl
  kept := hs.kept.append (List.Sublist.refl _)
  spaced := by
    refine List.isChain_append.mpr ⟨hs.spaced, .singleton _, fun c hc d hd => ?_⟩
    obtain rfl : ⟨cmd, s.clock⟩ = d := by simpa using hd
    obtain ⟨-, hprev, hts, hpos, -⟩ := hs.last c hc
    rcases hkeeps with hzero | ⟨hmoving, hother⟩
    · rw [hts] at hzero
      exact absurd hzero hpos.ne'
    · refine ⟨hmoving, ?_⟩
      rw [hprev, hts] at hother
      exact hother.imp_left fun hne heq => hne (congrArg some heq)
  fresh m hm := by
    refine ⟨⟨cmd, s.clock⟩, by simp [Posture.keep], ?_⟩
    rw [Posture.lastMove, lastMove_concat] at hm
    split_ifs at hm with hmoving
    · obtain rfl := Option.some.inj hm
      refine ⟨rfl, le_refl _, ?_⟩
      rw [sub_self, minSnapshotInterval]
      positivity
    · -- only the first command is kept without moving the turret
      have hzero := hkeeps.resolve_right fun h => hmoving h.1
      rw [hs.written_eq_nil hzero] at hm
      cases hm

omit [IsStrictOrderedRing F] in
/-- A command that is not kept. -/
theorem Based.skip {s : Posture P} (hs : Based s) {cmd : List Byte} (hkeeps : ¬s.Keeps cmd) :
    Based { s with written := s.written ++ [⟨cmd, s.clock⟩] } where
  clock := hs.clock
  imu := hs.imu
  none h := absurd (.inl (hs.none h).1) hkeeps
  last := hs.last
  first := by
    cases hwritten : s.written with
    | nil =>
      have hkept : s.kept = [] := by
        rw [← List.sublist_nil, ← hwritten]
        exact hs.kept
      exact absurd (.inl (hs.none hkept).1) hkeeps
    | cons c rest =>
      have hfirst := hs.first
      rw [hwritten] at hfirst
      exact hfirst
  kept := hs.kept.trans (List.sublist_append_left _ _)
  spaced := hs.spaced
  fresh m hm := by
    rw [Posture.lastMove, lastMove_concat] at hm
    split_ifs at hm with hmoving
    · obtain rfl := Option.some.inj hm
      obtain ⟨hzero, hnot⟩ := not_or.mp hkeeps
      obtain ⟨hprev, hgap⟩ := not_or.mp fun h => hnot ⟨hmoving, h⟩
      cases hlast : s.kept.getLast? with
      | none => exact absurd (hs.none (List.getLast?_eq_none_iff.mp hlast)).1 hzero
      | some c =>
        obtain ⟨-, hprev', hts, -, hle, -⟩ := hs.last c hlast
        refine ⟨c, rfl, ?_, hle, ?_⟩
        · exact Option.some.inj (hprev'.symm.trans (not_not.mp hprev))
        · rw [← hts]
          exact not_lt.mp hgap
    · exact hs.fresh m hm

theorem Based.step {s t : Posture P} (hs : Based s) {a : PostureStep P} (ht : s.step a = some t) :
    Based t := by
  cases a with
  | update c =>
    obtain rfl := Option.some.inj ht
    refine ⟨hs.clock, ?_, hs.none, hs.last, hs.first, hs.kept, hs.spaced, hs.fresh⟩
    change complementaryUpdate s.imu c = Vision.imu (s.before ++ (s.since ++ [c]))
    rw [← List.append_assoc, imu_concat, hs.imu]
  | pass dt =>
    obtain ⟨hdt, rfl⟩ := Option.ite_some_none_eq_some.mp ht
    refine ⟨add_pos_of_pos_of_nonneg hs.clock hdt, hs.imu, hs.none, fun c hc => ?_, hs.first,
      hs.kept, hs.spaced, hs.fresh⟩
    obtain ⟨hcmd, hprev, hts, hpos, hle, hangles⟩ := hs.last c hc
    exact ⟨hcmd, hprev, hts, hpos, hle.trans (le_add_of_nonneg_right hdt), hangles⟩
  | write cur =>
    obtain rfl := Option.some.inj ht
    rw [Posture.wrote]
    by_cases hkeeps : s.Keeps ((upper cur).take 1)
    · rw [if_pos hkeeps]
      exact hs.keep hkeeps
    · rw [if_neg hkeeps]
      exact hs.skip hkeeps

theorem based_of_reachable {s : Posture P} (hs : (posture P).Reachable s) : Based s := by
  refine hs.invariant Based ?_ fun s a t hbased _ ht => hbased.step ht
  rintro _ ⟨clock, hclock, rfl⟩
  exact based_start hclock

/-! ### What a target is corrected by -/

/-- `apply_adjustment` for the variables of a state. -/
def Posture.adjust (s : Posture P) (A : Angles F) (round : F → ℤ) (imuAvailable : Bool)
    (fovX fovY : F) (cx cy w h : ℤ) (depth : Option F) : Option (ℤ × ℤ) :=
  Vision.adjust A round imuAvailable (s.lastUartTs ≠ 0) P fovX fovY
    ⟨s.lastUartYaw, s.lastUartPitch, 0⟩ s.imu cx cy w h depth

/-- **What a target is corrected by**, in every run. Without a command it is not corrected. After
one it is corrected by the turn of the gyroscope since the last command that was kept, wherever the
yaw has been wrapped meanwhile. The commands that are kept begin with the first one written; each
other one moves the turret and has another key than the one before it, or comes more than a quarter
of a second after it; and the last command that moves the turret has the key of the one that is kept
and came no more than a quarter of a second after it. -/
theorem corrected_since (hP : 0 < P) {s : Posture P} (hs : (posture P).Reachable s) (A : Angles F)
    (round : F → ℤ) (imuAvailable : Bool) (fovX fovY : F) (cx cy w h : ℤ) (depth : Option F) :
    s.adjust A round imuAvailable fovX fovY cx cy w h depth =
        applyAdjustment A round imuAvailable (s.written ≠ []) fovX fovY
          (wrapPi P (s.since.map fun c => c.gz * c.dt).sum)
          (wrapPi P (s.imu.pitch - (Vision.imu s.before).pitch)) cx cy w h depth ∧
      s.kept.head? = s.written.head? ∧ s.kept.Sublist s.written ∧ s.kept.IsChain Follows ∧
      ∀ m ∈ s.lastMove, ∃ c ∈ s.kept.getLast?, c.cmd = m.cmd ∧ c.time ≤ m.time ∧
        m.time - c.time ≤ minSnapshotInterval := by
  have hbased := based_of_reachable hs
  refine ⟨?_, hbased.first, hbased.kept, hbased.spaced, hbased.fresh⟩
  cases hlast : s.kept.getLast? with
  | none =>
    -- without a command the angles are not looked at
    obtain ⟨hts, hwritten⟩ := hbased.none (List.getLast?_eq_none_iff.mp hlast)
    rw [Posture.adjust, Vision.adjust, applyAdjustment, applyAdjustment, hts, hwritten]
    simp
  | some c =>
    obtain ⟨-, -, hts, hpos, -, hyaw, hpitch⟩ := hbased.last c hlast
    have hne : s.lastUartTs ≠ 0 := hts.trans_ne hpos.ne'
    have hwritten : s.written ≠ [] := by
      have hmem := hbased.kept.subset (List.mem_of_getLast? hlast)
      exact List.ne_nil_of_mem hmem
    have hturn : dyaw P ⟨s.lastUartYaw, s.lastUartPitch, 0⟩ s.imu =
        wrapPi P (s.since.map fun c => c.gz * c.dt).sum := by
      have hsum := (yaw_foldl_modEq s.since (Vision.imu s.before)).sub_right
        (Vision.imu s.before).yaw
      rw [add_sub_cancel_left, ← hyaw] at hsum
      rw [dyaw, signYawImu, one_mul, hbased.imu, Vision.imu, List.foldl_append]
      exact wrapPi_congr hP hsum
    rw [Posture.adjust, Vision.adjust, hturn, dpitch, signPitchImu, one_mul, hpitch,
      decide_eq_true hne, decide_eq_true hwritten]

end Field

/-- A turn of one radian. -/
noncomputable def turning : Call Real.pi := { standing 0 (-1) with gz := 1 }

/-- A command upwards and a turn after it. -/
noncomputable def turned : Posture Real.pi :=
  { (Posture.start 1 : Posture Real.pi).keep (bytes "W") with
    imu := complementaryUpdate ⟨0, 0, 0⟩ turning
    since := [turning]
    written := [⟨bytes "W", 1⟩] }

theorem turned_reachable : (posture Real.pi).Reachable turned := by
  have hstart : (posture Real.pi).Reachable (Posture.start 1) := .init ⟨1, one_pos, rfl⟩
  have hwrite : (posture Real.pi).Reachable ((Posture.start 1).wrote (bytes "W")) :=
    .step (.write (bytes "W")) hstart trivial rfl
  rw [Posture.wrote, if_pos (.inl rfl)] at hwrite
  exact .step (.update turning) hwrite trivial rfl

theorem corrected_since_witness :
    0 < Real.pi ∧ turned.adjust radians round true 1 1 640 360 1280 720 none =
      applyAdjustment radians round true true 1 1 (wrapPi Real.pi 1)
        (wrapPi Real.pi (turned.imu.pitch - 0)) 640 360 1280 720 none := by
  have h := (corrected_since Real.pi_pos turned_reachable radians round true 1 1 640 360 1280 720
    none).1
  have hwritten : turned.written ≠ [] := List.cons_ne_nil _ _
  have hsince : (turned.since.map fun c => c.gz * c.dt).sum = 1 := by
    simp [turned, turning, standing]
  rw [hsince, decide_eq_true hwritten] at h
  exact ⟨Real.pi_pos, h⟩

end Vision

end DroneTurret
