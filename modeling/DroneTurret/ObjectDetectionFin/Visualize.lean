import Mathlib.Algebra.Order.Field.Rat
import Mathlib.Data.Rat.Cast.Order
import Mathlib.Tactic.Ring

/-!
# The visualizer of the detection script

`visualize` takes results from a queue until it finds `None`, has the callback draw each of them,
and shows the frame or saves it. A `FrameRateTracker` counts the frames. The loop counts a frame
before it reads the rate, and again before it shows the frame.

What the callback returns for a frame, the time and the keys are parameters.

## Main definitions

* `Viewer`, `Viewer.visualize` — the loop
* `State` — the tracker's count and what was shown, written and saved
* `State.frames` — the number of frames shown or saved

## Main results

* `Viewer.loop_eq` — what the loop ends with
* `accounted_iff` — when the tracker's count is the number of frames
-/

namespace DroneTurret

namespace ObjectDetectionFin

/-- A result on the queue: a list of objects, or another object. -/
inductive Infer (α : Type)
  | list (xs : List α)
  | other (a : α)

/-- A list with a single object is unwrapped. -/
def Infer.unwrap {α : Type} : Infer α → Infer α
  | .list [a] => .other a
  | infer => infer

/-- `(original, infer, *rest)`. -/
structure Item (Original α Extra : Type) where
  original : Original
  infer : Infer α
  rest : List Extra

/-- The arguments of `visualize`. The callback returns `none` for an exception. -/
structure Viewer (Original α Extra Image : Type) where
  callback : Original → Infer α → Option Extra → Option Image
  putText : Image → ℚ → Image
  cap : Bool
  saveStreamOutput : Bool
  tracker : Bool

/-- What a pass reads: the tracker's `elapsed`, and `cv2.waitKey(1)`. -/
structure Reading where
  elapsed : ℚ
  key : ℤ

/-- `key & 0xFF == ord('q')`. -/
def Reading.Quit (r : Reading) : Prop := r.key % 256 = 113

instance (r : Reading) : Decidable r.Quit := inferInstanceAs (Decidable (_ = _))

/-- The tracker's count, and the frames in the window, in the video and in files. -/
structure State (Image : Type) where
  count : ℕ
  imageId : ℕ
  shown : List Image
  written : List Image
  saved : List (ℕ × Image)

def State.start {Image : Type} : State Image := ⟨0, 0, [], [], []⟩

/-- How the loop ends, or that it waits at an empty queue. -/
inductive Outcome (Image : Type)
  | returned (s : State Image)
  | raised
  | waiting (s : State Image)

/-- `FrameRateTracker.fps`. -/
def fps (count : ℕ) (elapsed : ℚ) : ℚ := if 0 < elapsed then count / elapsed else 0

namespace Viewer

variable {Original α Extra Image : Type} (v : Viewer Original α Extra Image)

/-- The callback's frame for an item. -/
def frameWithDetections (item : Item Original α Extra) : Option Image :=
  v.callback item.original item.infer.unwrap item.rest.head?

/-- The frame is shown, and written if there is a video, or it is saved. -/
def output (s : State Image) (frame : Image) : State Image :=
  if v.cap then
    { s with
      shown := s.shown ++ [frame]
      written := if v.saveStreamOutput then s.written ++ [frame] else s.written }
  else { s with saved := s.saved ++ [(s.imageId, frame)] }

/-- The tracker and the frame, from the first count on. -/
def present (r : Reading) (s : State Image) (frame : Image) : State Image :=
  let s := { s with count := s.count + 1 }
  let fpsVal := fps s.count r.elapsed
  let frame := if fpsVal = 0 then frame else v.putText frame fpsVal
  let s := { s with count := s.count + 1 }
  let s := v.output s frame
  { s with imageId := s.imageId + 1 }

/-- One pass of the loop, and whether there is another one. -/
def pass (r : Reading) (s : State Image) (item : Item Original α Extra) :
    Option (State Image × Bool) := do
  let frame ← v.frameWithDetections item
  -- without a tracker, `internal_fps.value()`: `SimpleFPS` has no such method
  if v.tracker = false then none
  let s := v.present r s frame
  -- `cap.release()` needs a `cap`
  if r.Quit then (if v.cap then pure (s, false) else none) else pure (s, true)

def loop (reading : ℕ → Reading) (s : State Image) :
    List (Option (Item Original α Extra)) → Outcome Image
  | [] => .waiting s
  | none :: _ => .returned s
  | some item :: queue =>
    match v.pass (reading s.imageId) s item with
    | none => .raised
    | some (s', true) => loop reading s' queue
    | some (s', false) => .returned s'

def visualize (reading : ℕ → Reading) (queue : List (Option (Item Original α Extra))) :
    Outcome Image :=
  v.loop reading .start queue

end Viewer

/-- The number of frames that were shown or saved. -/
def State.frames {Image : Type} (s : State Image) : ℕ := s.shown.length + s.saved.length

/-! ### One pass -/

section Loop

variable {Original α Extra Image : Type} {v : Viewer Original α Extra Image}

/-- A frame goes to exactly one place. -/
theorem Viewer.frames_output (s : State Image) (frame : Image) :
    (v.output s frame).frames = s.frames + 1 := by
  rw [Viewer.output]
  split <;> simp only [State.frames, List.length_append, List.length_singleton] <;> ring

theorem Viewer.count_output (s : State Image) (frame : Image) :
    (v.output s frame).count = s.count := by
  rw [Viewer.output]
  split <;> rfl

/-- A pass counts twice. -/
theorem Viewer.count_present (r : Reading) (s : State Image) (frame : Image) :
    (v.present r s frame).count = s.count + 2 :=
  v.count_output _ _

/-- A pass puts out one frame. -/
theorem Viewer.frames_present (r : Reading) (s : State Image) (frame : Image) :
    (v.present r s frame).frames = s.frames + 1 :=
  v.frames_output _ _

theorem Viewer.imageId_present (r : Reading) (s : State Image) (frame : Image) :
    (v.present r s frame).imageId = s.imageId + 1 := by
  rw [Viewer.present, Viewer.output]
  split <;> rfl

theorem Viewer.pass_eq (htracker : v.tracker = true) {r : Reading} (hr : ¬r.Quit)
    {item : Item Original α Extra} {frame : Image}
    (hframe : v.frameWithDetections item = some frame) (s : State Image) :
    v.pass r s item = some (v.present r s frame, true) := by
  rw [Viewer.pass, hframe, htracker]
  exact if_neg hr

/-! ### The whole run -/

/-- The items that are taken from the queue: those before the first `None`. -/
def taken : List (Option (Item Original α Extra)) → List (Item Original α Extra)
  | some item :: queue => item :: taken queue
  | _ => []

/-- **Every item that is taken is counted twice and put out once.** -/
theorem Viewer.loop_eq (htracker : v.tracker = true) {reading : ℕ → Reading}
    {queue : List (Option (Item Original α Extra))} (hend : none ∈ queue) {s : State Image}
    (hquit : ∀ n < (taken queue).length, ¬(reading (s.imageId + n)).Quit)
    (hframe : ∀ item ∈ taken queue, v.frameWithDetections item ≠ none) :
    ∃ s', v.loop reading s queue = .returned s' ∧
      s'.count = s.count + 2 * (taken queue).length ∧
      s'.frames = s.frames + (taken queue).length := by
  induction queue generalizing s with
  | nil => cases hend
  | cons item queue ih =>
    cases item with
    | none => exact ⟨s, rfl, rfl, rfl⟩
    | some item =>
      rw [taken, List.forall_mem_cons] at hframe
      rw [taken, List.length_cons] at hquit ⊢
      obtain ⟨frame, hitem⟩ := Option.ne_none_iff_exists'.mp hframe.1
      have hpass := v.pass_eq htracker (r := reading s.imageId) (hquit 0 (Nat.succ_pos _)) hitem s
      have hnext : ∀ n < (taken queue).length,
          ¬(reading ((v.present (reading s.imageId) s frame).imageId + n)).Quit := fun n hn => by
        rw [v.imageId_present, Nat.add_assoc, Nat.add_comm 1]
        exact hquit (n + 1) (Nat.succ_lt_succ hn)
      obtain ⟨s', hloop, hcount, hframes⟩ :=
        ih ((List.mem_cons.mp hend).resolve_left (Option.some_ne_none item).symm) hnext hframe.2
      rw [v.count_present] at hcount
      rw [v.frames_present] at hframes
      refine ⟨s', ?_, by omega, by omega⟩
      rw [Viewer.loop, hpass]
      exact hloop

/-- The tracker's count is the number of frames that were taken and put out. -/
def Accounted (v : Viewer Original α Extra Image) (reading : ℕ → Reading)
    (queue : List (Option (Item Original α Extra))) : Prop :=
  ∃ s, v.visualize reading queue = .returned s ∧ s.count = s.frames

end Loop

/-- **The tracker counts the frames** exactly if there are none. -/
theorem accounted_iff {Original α Extra Image : Type} (v : Viewer Original α Extra Image)
    (htracker : v.tracker = true) (reading : ℕ → Reading)
    (queue : List (Option (Item Original α Extra))) (hend : queue.getLast? = some none)
    (hquit : ∀ n < (taken queue).length, ¬(reading n).Quit)
    (hframe : ∀ item ∈ taken queue, v.frameWithDetections item ≠ none) :
    Accounted v reading queue ↔ queue.head? = some none := by
  have hquit' : ∀ n < (taken queue).length,
      ¬(reading ((State.start : State Image).imageId + n)).Quit := fun n hn => by
    rw [State.start, Nat.zero_add]
    exact hquit n hn
  obtain ⟨s, hs, hcount, hframes⟩ :=
    v.loop_eq htracker (List.mem_of_getLast? hend) hquit' hframe
  have hstart : (State.start : State Image).count = 0 ∧ (State.start : State Image).frames = 0 :=
    ⟨rfl, rfl⟩
  have htaken : Accounted v reading queue ↔ taken queue = [] := by
    rw [← List.length_eq_zero_iff]
    constructor
    · rintro ⟨s', hs', heq⟩
      obtain rfl := Outcome.returned.inj (hs.symm.trans hs')
      omega
    · exact fun h => ⟨s, hs, by omega⟩
  rw [htaken]
  match queue, hend with
  | none :: _, _ => exact ⟨fun _ => rfl, fun _ => rfl⟩
  | some item :: queue, _ =>
    refine ⟨fun h => absurd h (List.cons_ne_nil _ _), fun h => ?_⟩
    exact absurd (Option.some.inj h) (Option.some_ne_none item)

/-- A viewer that saves what it gets. -/
def saving : Viewer Unit Unit Unit Unit := ⟨fun _ _ _ => some (), fun _ _ => (), false, false, true⟩

/-- One image and the end. -/
def oneImage : List (Option (Item Unit Unit Unit)) := [some ⟨(), .list [()], []⟩, none]

theorem accounted_iff_witness :
    Accounted saving (fun _ => ⟨1, -1⟩) oneImage ↔ oneImage.head? = some none :=
  accounted_iff saving rfl (fun _ => ⟨1, -1⟩) oneImage rfl (fun _ _ => by decide)
    (fun _ _ => Option.some_ne_none ())

/-- One image that is counted as two. -/
theorem not_accounted :
    ¬∀ (v : Viewer Unit Unit Unit Unit) (reading : ℕ → Reading)
      (queue : List (Option (Item Unit Unit Unit))), v.tracker = true →
        queue.getLast? = some none → (∀ n, ¬(reading n).Quit) →
        (∀ item ∈ taken queue, v.frameWithDetections item ≠ none) → Accounted v reading queue := by
  intro h
  obtain ⟨s, hs, hcount⟩ := h saving (fun _ => ⟨1, -1⟩) oneImage rfl rfl (fun _ => by decide)
    fun _ _ => Option.some_ne_none ()
  obtain rfl := Outcome.returned.inj hs
  exact absurd hcount (by decide)

end ObjectDetectionFin

end DroneTurret
