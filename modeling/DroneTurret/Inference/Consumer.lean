import DroneTurret.Inference.BoxFormats
import DroneTurret.Inference.Example
import DroneTurret.Lib.Throttle

/-!
# What is recorded of the frames

`inference_callback` numbers the frames, turns the handler's list into dictionaries and hands them
to `on_frame_dict`, which keeps the last payload, prints the best detections of some of the frames
and writes a line to the log for every frame. The payload is not its own, so every detection is
normalized before it is used, and one that cannot be is left out.

Frames are printed by time or by number, and the time goes first. The comment says that 0 switches
printing by number off; in the code every frame is printed then.

## Main definitions

* `normalizeDet`, `Consumer.onFrameDict` — the consumer
* `inferenceCallback` — a frame, from the network's output on

## Main results

* `callback_spec` — what is logged and what is printed, after any run
-/

namespace DroneTurret

namespace Inference

open CString PostProcess ObjectDetectionFin Decimal Throttle
open Vision (pyInt)

/-! ### The consumer -/

/-- A value of a dictionary. What is not a number raises an exception when it is converted. -/
inductive Value
  | num (q : ℚ)
  | other

/-- `int(d.get(k, 0))`. -/
def intOf : Option Value → Option ℤ
  | none => some 0
  | some (.num q) => some (pyInt q)
  | some .other => none

/-- `start` or `end` of a detection. -/
structure Point where
  x : Option Value
  y : Option Value

/-- What is looked up in a detection. -/
structure PayloadDet where
  objectLabel : Option (List Byte)
  label : Option (List Byte)
  className : Option (List Byte)
  classId : Option Value
  accuracy : Option Value
  score : Option Value
  start : Option Point
  stop : Option Point

/-- A normalized detection. -/
structure Canonical where
  objectLabel : List Byte
  accuracy : ℚ
  startX : ℤ
  startY : ℤ
  endX : ℤ
  endY : ℤ
  deriving DecidableEq

/-- `_score_of`. -/
def PayloadDet.scoreOf (d : PayloadDet) : ℚ :=
  match d.accuracy.or d.score with
  | some (.num q) => q
  | _ => 0

/-- A string, if there is one that is not empty. -/
def truthy (s : Option (List Byte)) : Option (List Byte) := s.filter (· ≠ [])

/-- `_normalize_det`. -/
def normalizeDet (d : PayloadDet) : Option Canonical := do
  let label ← match d.objectLabel.or ((truthy d.label).or (truthy d.className)) with
    | some l => some l
    | none => (intOf d.classId).map fun cid => bytes "class_" ++ paddedInt 0 cid
  let st := d.start.getD ⟨none, none⟩
  let ed := d.stop.getD ⟨none, none⟩
  return ⟨label, d.scoreOf, ← intOf st.x, ← intOf st.y, ← intOf ed.x, ← intOf ed.y⟩

structure Payload where
  frameId : ℕ
  w : ℕ
  h : ℕ
  detections : List PayloadDet

/-- The settings of the environment. -/
structure Knobs where
  printEvery : ℤ
  printEverySecs : ℚ
  maxPrintDets : ℤ
  quiet : Bool
  printEmpty : Bool
  /-- There is a path for the log. -/
  logJsonl : Bool

/-- A line on the console. -/
inductive Line
  /-- `{}`. -/
  | empty
  | det (d : Canonical)
  deriving DecidableEq

/-- The lines for a frame. -/
structure Shown where
  frameId : ℕ
  time : ℚ
  lines : List Line
  deriving DecidableEq

/-- A line of the log. -/
structure Logged where
  t : ℚ
  frameId : ℕ
  w : ℕ
  h : ℕ
  detections : List Canonical
  deriving DecidableEq

structure Consumer where
  lastPayload : Option Payload
  lastPrintTs : Option ℚ
  console : List Shown
  log : List Logged

def Consumer.start : Consumer := ⟨none, none, [], []⟩

/-- The best detections, if their number is limited. -/
def topk (k : Knobs) (dets : List Canonical) : List Canonical :=
  if 0 < k.maxPrintDets then
    (dets.mergeSort fun a b => b.accuracy ≤ a.accuracy).take k.maxPrintDets.toNat
  else dets

/-- What is printed for a frame. -/
def linesOf (k : Knobs) (dets : List Canonical) : List Line :=
  if dets = [] then if k.printEmpty then [.empty] else []
  else (topk k dets).map fun d => .det { d with accuracy := roundTo 3 d.accuracy }

/-- `_maybe_print`. -/
def Consumer.maybePrint (k : Knobs) (s : Consumer) (now : ℚ) (frameId : ℕ)
    (dets : List Canonical) : Consumer :=
  let shown : Shown := ⟨frameId, now, linesOf k dets⟩
  if k.quiet then s
  else if 0 < k.printEverySecs then
    if passes k.printEverySecs s.lastPrintTs now then
      { s with lastPrintTs := some now, console := s.console ++ [shown] }
    else s
  else if 1 < k.printEvery ∧ (frameId : ℤ) % k.printEvery ≠ 0 then s
  else { s with console := s.console ++ [shown] }

/-- `on_frame_dict`, with the times at which it looks at the clock. -/
def Consumer.onFrameDict (k : Knobs) (s : Consumer) (now now' : ℚ) (payload : Payload) :
    Consumer :=
  let norm := payload.detections.filterMap normalizeDet
  let s := Consumer.maybePrint k { s with lastPayload := some payload } now payload.frameId norm
  if k.logJsonl then
    { s with log := s.log ++ [⟨roundTo 3 now', payload.frameId, payload.w, payload.h, norm⟩] }
  else s

/-! ### The callback -/

/-- An entry of the handler's list as `detections_to_dict` sees it. -/
def detOf (d : Detection) : Det :=
  .dict (some d.classId) (some d.score)
    (some (.ofKeys .x1 .y1 .x2 .y2 ⟨.num d.x1, .num d.y1, .num d.x2, .num d.y2⟩)) none fun _ => none

/-- The entry of a payload. -/
def Reported.toPayload (o : Reported) : PayloadDet where
  objectLabel := some o.objectLabel
  label := none
  className := none
  classId := none
  accuracy := none
  score := some (.num o.score)
  start := some ⟨some (.num o.startX), some (.num o.startY)⟩
  stop := some ⟨some (.num o.endX), some (.num o.endY)⟩

/-- A frame with what the network gives for it, and the times at which the consumer looks at the
clock. -/
structure Shot extends Frame where
  outputs : List (List Byte × Raw)
  now : ℚ
  now' : ℚ

/-- What the callback keeps from one frame to the next. -/
structure Recorder where
  cache : CenterCache
  idx : ℕ
  consumer : Consumer

def Recorder.start : Recorder := ⟨[], 0, .start⟩

section Callback

variable (exp : ℚ → ℚ) (std : List ℚ → ℚ) (argsort : List ℚ → List ℕ) (cfg : Settings)
  (labels : List (List Byte)) (k : Knobs)

/-- `inference_callback` on one frame. Without a list of its own the handler counts as having found
nothing; an exception of `detections_to_dict` leaves the callback. -/
def inferenceCallback (s : Recorder) (shot : Shot) : Recorder :=
  let r := cfg.extractDetections exp std argsort shot.height shot.width s.cache
    (resultForPp shot.outputs)
  let detections := (r.1.map fun r => listDetections shot.height shot.width r.toResult).getD []
  match detectionsToDict (some (detections.map detOf)) labels shot.width shot.height
    (some false) with
  | none => ⟨r.2, s.idx + 1, s.consumer⟩
  | some detDicts =>
    ⟨r.2, s.idx + 1, s.consumer.onFrameDict k shot.now shot.now'
      ⟨s.idx, shot.width, shot.height, detDicts.map Reported.toPayload⟩⟩

def record (shots : List Shot) : Recorder :=
  shots.foldl (inferenceCallback exp std argsort cfg labels k) .start

end Callback

/-! ### One frame -/

/-- What is recorded of a detection. -/
def canonicalOf (labels : List (List Byte)) (d : Detection) : Canonical :=
  ⟨labelOf labels d.classId, roundTo 3 d.score, d.x1, d.y1, d.x2, d.y2⟩

section Frame

variable {labels : List (List Byte)} {H W : ℕ}

/-- Boxes in the frame are reported as they are. -/
theorem detectionsToDict_map {dets : List Detection} (hdets : ∀ d ∈ dets, Sized H W d) :
    detectionsToDict (some (dets.map detOf)) labels W H (some false) =
      some (dets.map fun d =>
        ⟨labelOf labels d.classId, roundTo 3 d.score, d.x1, d.y1, d.x2, d.y2⟩) := by
  have hbox : ∀ d ∈ dets, toPixelXyxy (orZeros (detOf d).found) W H (some false) =
      some ⟨d.x1, d.y1, d.x2, d.y2⟩ := by
    intro d hd
    have hx := (hdets d hd).x
    have hy := (hdets d hd).y
    exact toPixelXyxy_ofKeys (by omega) (by omega)
  have hclass : ∀ d : Detection, pyInt (detOf d).classId = d.classId := by
    intro d
    change pyInt (d.classId : ℚ) = d.classId
    exact_mod_cast Vision.pyInt_intCast d.classId
  rw [detectionsToDict_of_forall hbox]
  exact congrArg some (List.map_congr_left fun d _ => by rw [hclass]; rfl)

theorem normalizeDet_toPayload (o : Reported) :
    normalizeDet o.toPayload =
      some ⟨o.objectLabel, o.score, o.startX, o.startY, o.endX, o.endY⟩ := by
  have hint : ∀ n : ℤ, intOf (some (.num n)) = some n :=
    fun n => congrArg some (Vision.pyInt_intCast n)
  rw [normalizeDet]
  simp only [Reported.toPayload, Option.getD_some, hint, Option.some_or]
  rfl

end Frame

/-! ### A run -/

/-- A call of the consumer: the time, the number of the frame and its detections. -/
abbrev Call := ℚ × ℕ × List Canonical

def shownOf (k : Knobs) (c : Call) : Shown := ⟨c.2.1, c.1, linesOf k c.2.2⟩

/-- The calls that print, where the last one that did was at `last`. -/
def printing (k : Knobs) (last : Option ℚ) (calls : List Call) : List Call :=
  if k.quiet then []
  else if 0 < k.printEverySecs then throttle k.printEverySecs last calls
  else calls.filter fun c => !decide (1 < k.printEvery ∧ (c.2.1 : ℤ) % k.printEvery ≠ 0)

/-- What one call prints. -/
theorem console_maybePrint (k : Knobs) (s : Consumer) (c : Call) (calls : List Call) :
    s.console ++ (printing k s.lastPrintTs (c :: calls)).map (shownOf k) =
      (s.maybePrint k c.1 c.2.1 c.2.2).console ++
        (printing k (s.maybePrint k c.1 c.2.1 c.2.2).lastPrintTs calls).map (shownOf k) := by
  rw [printing, printing, Consumer.maybePrint]
  split_ifs with hquiet hsecs hpass hskip
  · rfl
  · rw [throttle, if_pos hpass, List.map_cons, List.append_cons]
    rfl
  · rw [throttle, if_neg hpass]
  · rw [List.filter_cons_of_neg]
    rw [decide_eq_true hskip]
    exact Bool.false_ne_true
  · rw [List.filter_cons_of_pos, List.map_cons, List.append_cons]
    · rfl
    · rw [decide_eq_false hskip]
      rfl

theorem log_maybePrint (k : Knobs) (s : Consumer) (c : Call) :
    (s.maybePrint k c.1 c.2.1 c.2.2).log = s.log := by
  rw [Consumer.maybePrint]
  split_ifs <;> rfl

section Run

variable {exp : ℚ → ℚ} {std : List ℚ → ℚ} {argsort : List ℚ → List ℕ} {cfg : Settings}

/-- What the handler finds in a frame. -/
def found (exp : ℚ → ℚ) (std : List ℚ → ℚ) (argsort : List ℚ → List ℕ) (cfg : Settings)
    (shot : Shot) : List Detection :=
  (handler exp std argsort cfg shot.height shot.width [] (resultForPp shot.outputs)).getD []

def callOf (exp : ℚ → ℚ) (std : List ℚ → ℚ) (argsort : List ℚ → List ℕ) (cfg : Settings)
    (labels : List (List Byte)) (p : Shot × ℕ) : Call :=
  (p.1.now, p.2, (found exp std argsort cfg p.1).map (canonicalOf labels))

def loggedOf (exp : ℚ → ℚ) (std : List ℚ → ℚ) (argsort : List ℚ → List ℕ) (cfg : Settings)
    (labels : List (List Byte)) (p : Shot × ℕ) : Logged :=
  ⟨roundTo 3 p.1.now', p.2, p.1.width, p.1.height,
    (found exp std argsort cfg p.1).map (canonicalOf labels)⟩

theorem sized_of_mem_found (hargsort : ∀ l, Argsort l (argsort l)) (hexp : ∀ x, 0 < exp x)
    (hnet : 0 < cfg.netSize) (shot : Shot) :
    ∀ d ∈ found exp std argsort cfg shot, Sized shot.height shot.width d :=
  fun d hd => (sound_handler hargsort hexp shot.height_pos shot.width_pos hnet
    CenterCache.valid_nil d hd).1

variable {labels : List (List Byte)} {k : Knobs} {s : Recorder}

/-- The dictionaries of a frame, normalized. -/
theorem exists_dicts {H W : ℕ} {dets : List Detection} (hdets : ∀ d ∈ dets, Sized H W d) :
    ∃ detDicts, detectionsToDict (some (dets.map detOf)) labels W H (some false) = some detDicts ∧
      (detDicts.map Reported.toPayload).filterMap normalizeDet = dets.map (canonicalOf labels) := by
  refine ⟨_, detectionsToDict_map hdets, ?_⟩
  rw [List.map_map, List.filterMap_map, ← List.filterMap_eq_map]
  exact List.filterMap_congr fun d _ => normalizeDet_toPayload _

/-- One frame of the callback. -/
theorem inferenceCallback_spec (hargsort : ∀ l, Argsort l (argsort l)) (hexp : ∀ x, 0 < exp x)
    (hnet : 0 < cfg.netSize) (hcache : s.cache.Valid) (shot : Shot) :
    let t := inferenceCallback exp std argsort cfg labels k s shot
    let c := callOf exp std argsort cfg labels (shot, s.idx)
    t.cache.Valid ∧ t.idx = s.idx + 1 ∧
      t.consumer.log = s.consumer.log ++
        (if k.logJsonl then [loggedOf exp std argsort cfg labels (shot, s.idx)] else []) ∧
      ∀ calls, s.consumer.console ++
          (printing k s.consumer.lastPrintTs (c :: calls)).map (shownOf k) =
        t.consumer.console ++ (printing k t.consumer.lastPrintTs calls).map (shownOf k) := by
  intro t c
  obtain ⟨hsame, hvalid⟩ := @Settings.extractDetections_cache exp std argsort s.cache cfg
    shot.height shot.width hcache (resultForPp shot.outputs)
  obtain ⟨detDicts, hdicts, hnorm⟩ : ∃ detDicts, detectionsToDict
        (some ((found exp std argsort cfg shot).map detOf)) labels shot.width shot.height
        (some false) = some detDicts ∧ (detDicts.map Reported.toPayload).filterMap normalizeDet =
      (found exp std argsort cfg shot).map (canonicalOf labels) :=
    exists_dicts (sized_of_mem_found hargsort hexp hnet shot)
  obtain ⟨cache, hcache', ht⟩ : ∃ cache : CenterCache, cache.Valid ∧ t = ⟨cache, s.idx + 1,
      s.consumer.onFrameDict k shot.now shot.now'
        ⟨s.idx, shot.width, shot.height, detDicts.map Reported.toPayload⟩⟩ := by
    refine ⟨_, hvalid, ?_⟩
    change inferenceCallback exp std argsort cfg labels k s shot = _
    rw [found, handler, ← hsame] at hdicts
    rw [inferenceCallback, hdicts]
  have hprint := console_maybePrint k
    { s.consumer with lastPayload := some ⟨s.idx, shot.width, shot.height,
        detDicts.map Reported.toPayload⟩ } c
  have hlog := log_maybePrint k
    { s.consumer with lastPayload := some ⟨s.idx, shot.width, shot.height,
        detDicts.map Reported.toPayload⟩ } c
  rw [ht]
  refine ⟨hcache', rfl, ?_, fun calls => (hprint calls).trans ?_⟩
  · rw [Consumer.onFrameDict]
    dsimp only
    rw [hnorm]
    split
    · exact congrArg (· ++ _) hlog
    · rw [List.append_nil]
      exact hlog
  · rw [Consumer.onFrameDict]
    dsimp only
    rw [hnorm]
    split <;> rfl

/-- A run of the callback. -/
theorem foldl_inferenceCallback (hargsort : ∀ l, Argsort l (argsort l)) (hexp : ∀ x, 0 < exp x)
    (hnet : 0 < cfg.netSize) (hcache : s.cache.Valid) (shots : List Shot) :
    let t := shots.foldl (inferenceCallback exp std argsort cfg labels k) s
    t.idx = s.idx + shots.length ∧
      t.consumer.log = s.consumer.log ++
        (if k.logJsonl then (shots.zipIdx s.idx).map (loggedOf exp std argsort cfg labels)
          else []) ∧
      t.consumer.console = s.consumer.console ++ (printing k s.consumer.lastPrintTs
        ((shots.zipIdx s.idx).map (callOf exp std argsort cfg labels))).map (shownOf k) := by
  induction shots generalizing s with
  | nil =>
    refine ⟨rfl, ?_, ?_⟩
    · rw [List.zipIdx_nil, List.map_nil, ite_self, List.append_nil]
      rfl
    · have hnone : printing k s.consumer.lastPrintTs [] = [] := by
        rw [printing]
        split_ifs <;> rfl
      rw [List.zipIdx_nil, List.map_nil, hnone, List.map_nil, List.append_nil]
      rfl
  | cons shot shots ih =>
    obtain ⟨hvalid, hidx, hlog, hconsole⟩ :=
      @inferenceCallback_spec exp std argsort cfg labels k s hargsort hexp hnet hcache shot
    obtain ⟨hidx', hlog', hconsole'⟩ := ih hvalid
    rw [List.foldl_cons]
    refine ⟨?_, ?_, ?_⟩
    · rw [hidx', hidx, List.length_cons]
      omega
    · rw [hlog', hlog, hidx, List.zipIdx_cons, List.map_cons, List.append_assoc]
      split <;> rfl
    · rw [hconsole', hidx, List.zipIdx_cons, List.map_cons]
      exact (hconsole _).symm

end Run

/-! ### What is printed -/

/-- The best detections, if their number is limited. -/
def Best (k : Knobs) (dets top : List Canonical) : Prop :=
  if 0 < k.maxPrintDets then
    ∃ rest, (top ++ rest).Perm dets ∧
      (top ++ rest).Pairwise (fun d e => e.accuracy ≤ d.accuracy) ∧
      (top.length : ℤ) = min k.maxPrintDets dets.length
  else top = dets

theorem best_topk (k : Knobs) (dets : List Canonical) : Best k dets (topk k dets) := by
  rw [Best, topk]
  split_ifs with hpos
  · generalize hranked : (dets.mergeSort fun a b => decide (b.accuracy ≤ a.accuracy)) = ranked
    have hperm : ranked.Perm dets := hranked ▸ List.mergeSort_perm _ _
    have hsorted : ranked.Pairwise fun d e => e.accuracy ≤ d.accuracy := by
      rw [← hranked]
      refine (List.pairwise_mergeSort (fun a b c hab hbc => ?_) (fun a b => ?_) dets).imp
        of_decide_eq_true
      · exact decide_eq_true ((of_decide_eq_true hbc).trans (of_decide_eq_true hab))
      · rw [Bool.or_eq_true, decide_eq_true_iff, decide_eq_true_iff]
        exact le_total _ _
    refine ⟨ranked.drop k.maxPrintDets.toNat, ?_, ?_, ?_⟩
    · rwa [List.take_append_drop]
    · rwa [List.take_append_drop]
    · rw [List.length_take, hperm.length_eq]
      omega
  · rfl

/-- What the console shows of the frames, each with its time and its detections. -/
structure Printed (k : Knobs) (frames : List (ℚ × List Canonical)) (console : List Shown) :
    Prop where
  lines : ∀ p ∈ console, ∃ dets top, frames[p.frameId]? = some (p.time, dets) ∧ Best k dets top ∧
    p.lines = if dets = [] then if k.printEmpty then [.empty] else []
      else top.map fun d => .det { d with accuracy := roundTo 3 d.accuracy }
  once : (console.map Shown.frameId).Pairwise (· < ·)
  quiet : k.quiet = true → console = []
  /-- Frames that are printed are far apart, and any other comes too early after one of them. -/
  timed : k.quiet = false → 0 < k.printEverySecs →
    console.IsChain (fun p q => k.printEverySecs ≤ q.time - p.time) ∧
      ∀ i t dets, frames[i]? = some (t, dets) → i ∉ console.map Shown.frameId →
        ∃ p ∈ console, p.frameId < i ∧ t - p.time < k.printEverySecs
  counted : k.quiet = false → k.printEverySecs ≤ 0 → ∀ i < frames.length,
    (i ∈ console.map Shown.frameId ↔ (1 < k.printEvery → (i : ℤ) % k.printEvery = 0))

theorem printing_sublist (k : Knobs) (last : Option ℚ) (calls : List Call) :
    (printing k last calls).Sublist calls := by
  rw [printing]
  split_ifs
  · exact List.nil_sublist _
  · exact throttle_sublist _ _ _
  · exact List.filter_sublist

/-- The calls have the numbers of their frames. -/
theorem map_callOf (exp : ℚ → ℚ) (std : List ℚ → ℚ) (argsort : List ℚ → List ℕ)
    (cfg : Settings) (labels : List (List Byte)) (shots : List Shot) :
    shots.zipIdx.map (callOf exp std argsort cfg labels) =
      (shots.map fun shot =>
          (shot.now, (found exp std argsort cfg shot).map (canonicalOf labels))).zipIdx.map
        fun p => (p.1.1, p.2, p.1.2) := by
  rw [List.zipIdx_map, List.map_map]
  rfl

/-- The calls for some frames, each with its time and its detections. -/
theorem mem_calls_iff {frames : List (ℚ × List Canonical)} {c : Call} :
    c ∈ frames.zipIdx.map (fun p => (p.1.1, p.2, p.1.2)) ↔
      frames[c.2.1]? = some (c.1, c.2.2) := by
  constructor
  · intro hc
    obtain ⟨p, hp, rfl⟩ := List.mem_map.mp hc
    exact List.mem_zipIdx_iff_getElem?.mp hp
  · intro hc
    exact List.mem_map.mpr ⟨((c.1, c.2.2), c.2.1), List.mem_zipIdx_iff_getElem?.mpr hc, rfl⟩

/-- A call that is not printed by time comes too early after one that is. -/
theorem exists_printed_before {d : ℚ} {calls : List Call}
    (hnumbers : (calls.map fun c => c.2.1).Pairwise (· < ·)) {c : Call} (hc : c ∈ calls)
    (hskipped : c.2.1 ∉ (throttle d none calls).map fun c => c.2.1) :
    ∃ c' ∈ throttle d none calls, c'.2.1 < c.2.1 ∧ c.1 - c'.1 < d := by
  obtain ⟨front, back, rfl⟩ := List.append_of_mem hc
  have hnot : c ∉ throttle d none (front ++ c :: back) :=
    fun h => hskipped (List.mem_map_of_mem h)
  rcases exists_of_not_mem_throttle hnot with ⟨s, hs, -⟩ | ⟨c', hc', hthrough, hearly⟩
  · cases hs
  · rw [List.map_append, List.pairwise_append] at hnumbers
    exact ⟨c', hthrough, hnumbers.2.2 _ (List.mem_map_of_mem hc') _
      (List.mem_map_of_mem List.mem_cons_self), hearly⟩

theorem printed_printing (k : Knobs) (frames : List (ℚ × List Canonical)) :
    Printed k frames
      ((printing k none (frames.zipIdx.map fun p => (p.1.1, p.2, p.1.2))).map (shownOf k)) := by
  have hframe : ∀ {c : Call}, c ∈ frames.zipIdx.map (fun p => (p.1.1, p.2, p.1.2)) ↔
      frames[c.2.1]? = some (c.1, c.2.2) := mem_calls_iff
  generalize hcalls : (frames.zipIdx.map fun p => ((p.1.1, p.2, p.1.2) : Call)) = calls at hframe ⊢
  have hsub := printing_sublist k none calls
  have hnumbers : calls.map (fun c => c.2.1) = List.range frames.length := by
    rw [← hcalls, List.map_map]
    exact List.zipIdx_map_snd 0 frames ▸ List.range_eq_range' ▸ rfl
  have hids : ((printing k none calls).map (shownOf k)).map Shown.frameId =
      (printing k none calls).map fun c => c.2.1 := by
    rw [List.map_map]
    rfl
  refine ⟨?_, ?_, ?_, ?_, ?_⟩
  · intro p hp
    obtain ⟨c, hc, rfl⟩ := List.mem_map.mp hp
    exact ⟨c.2.2, topk k c.2.2, hframe.mp (hsub.subset hc), best_topk k c.2.2, rfl⟩
  · rw [hids]
    exact List.pairwise_lt_range.sublist (hnumbers ▸ hsub.map _)
  · intro hquiet
    rw [printing, if_pos hquiet]
    rfl
  · intro hquiet hsecs
    have hprinting : printing k none calls = throttle k.printEverySecs none calls := by
      rw [printing, hquiet, if_neg Bool.false_ne_true, if_pos hsecs]
    rw [hids, hprinting]
    refine ⟨(List.isChain_map _).mpr (isChain_throttle _ _ _), fun i t dets hi hskipped => ?_⟩
    obtain ⟨c, hc, hlt, hearly⟩ := exists_printed_before (hnumbers ▸ List.pairwise_lt_range)
      (hframe.mpr hi : (t, i, dets) ∈ calls) hskipped
    exact ⟨shownOf k c, List.mem_map_of_mem hc, hlt, hearly⟩
  · intro hquiet hsecs i hi
    have hprinting : printing k none calls = calls.filter fun c =>
        !decide (1 < k.printEvery ∧ (c.2.1 : ℤ) % k.printEvery ≠ 0) := by
      rw [printing, hquiet, if_neg Bool.false_ne_true, if_neg (not_lt.mpr hsecs)]
    rw [hids, hprinting, List.mem_map]
    constructor
    · rintro ⟨c, hc, rfl⟩ hevery
      by_contra hmod
      have hpass := (List.mem_filter.mp hc).2
      rw [decide_eq_true ⟨hevery, hmod⟩] at hpass
      exact Bool.false_ne_true hpass
    · intro hpass
      obtain ⟨c, hc, rfl⟩ := List.mem_map.mp (hnumbers ▸ List.mem_range.mpr hi)
      refine ⟨c, List.mem_filter.mpr ⟨hc, ?_⟩, rfl⟩
      rw [decide_eq_false fun h => h.2 (hpass h.1)]
      rfl

/-- **What is recorded of the frames**, after any run. Every frame is logged once, in order and with
all detections that the handler finds in it, and these lie in the frame. -/
theorem callback_spec {exp : ℚ → ℚ} {std : List ℚ → ℚ} {argsort : List ℚ → List ℕ} {cfg : Settings}
    (hargsort : ∀ l, Argsort l (argsort l)) (hexp : ∀ x, 0 < exp x) (hnet : 0 < cfg.netSize)
    (labels : List (List Byte)) (k : Knobs) (shots : List Shot) :
    let s := (record exp std argsort cfg labels k shots).consumer
    let dets := fun shot => (found exp std argsort cfg shot).map (canonicalOf labels)
    (s.log = if k.logJsonl then shots.zipIdx.map fun (shot, i) =>
        ⟨roundTo 3 shot.now', i, shot.width, shot.height, dets shot⟩ else []) ∧
      (∀ shot ∈ shots, ∀ d ∈ found exp std argsort cfg shot, Sized shot.height shot.width d) ∧
      Printed k (shots.map fun shot => (shot.now, dets shot)) s.console := by
  obtain ⟨-, hlog, hconsole⟩ := @foldl_inferenceCallback exp std argsort cfg labels k .start
    hargsort hexp hnet CenterCache.valid_nil shots
  refine ⟨hlog, fun shot _ => sized_of_mem_found hargsort hexp hnet shot, ?_⟩
  have hprinted := printed_printing k (shots.map fun shot =>
    (shot.now, (found exp std argsort cfg shot).map (canonicalOf labels)))
  rw [← map_callOf] at hprinted
  exact hconsole ▸ hprinted

section Example

/-- The best detection of a frame is printed every five seconds, and all frames are logged. -/
def knobsExample : Knobs := ⟨30, 5, 1, false, false, true⟩

def shotExample (now : ℚ) : Shot :=
  ⟨⟨320, 320, by decide, by decide⟩, [(bytes "nms", listExample)], now, now⟩

/-- Three frames, of which the second one comes too early to be printed. -/
theorem callback_spec_witness :
    let shots := [shotExample 0, shotExample 1, shotExample 5]
    let s := (record (fun _ => 1) (fun _ => 0) stableArgsort (settingsExample 320 10 0) []
      knobsExample shots).consumer
    s.log.map Logged.frameId = [0, 1, 2] ∧
      s.console.IsChain fun p q => 5 ≤ q.time - p.time := by
  intro shots s
  obtain ⟨hlog, -, hprinted⟩ := @callback_spec (fun _ => 1) (fun _ => 0) stableArgsort
    (settingsExample 320 10 0) argsort_stableArgsort (fun _ => zero_lt_one) (by decide) []
    knobsExample shots
  exact ⟨congrArg (List.map Logged.frameId) hlog, (hprinted.timed rfl (by decide +kernel)).1⟩

end Example

end Inference

end DroneTurret
