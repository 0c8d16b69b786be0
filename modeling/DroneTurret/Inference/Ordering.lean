import DroneTurret.Inference.Pipeline
import Mathlib.Data.List.Range

/-!
# Order and pairing in the pipeline

The frames on their way, from the viewer back to the producer, are in the order of their capture in
every state: a thread only ever passes on what it has got first, and a drop takes a frame out of its
place. A frame travels with what was computed from it.

## Main definitions

* `Pipeline.trail` — the frames that were shown and those on their way
* `Aligned`, `Faithful` — what travels with a frame is computed from it
* `Sound` — what the viewer and the main thread can rely on

## Main results

* `accounts_trail` — what a step does to the trail
* `pipeline_sound` — the pipeline is sound in every interleaving
-/

namespace DroneTurret

namespace Inference

open DropOldest Transition

section Trail

variable {Image Tensor Output Memory Det : Type*}

/-- The frames that the producer is putting. -/
def Producer.framesOf : Producer Tensor → List ℕ
  | .putting p => Batch.framesOf p.item
  | .signalling p => Batch.framesOf p.item
  | _ => []

/-- The frames of the worker's batch that it has not passed on. -/
def Worker.framesOf : Worker Tensor Det → List ℕ
  | .running b => b.frames
  | .calling b i => b.frames.drop i
  | .offering b i p => itemFrames p.item ++ b.frames.drop (i + 1)
  | _ => []

/-- The frames that have not reached the worker. -/
def Pipeline.pending (s : Pipeline Tensor Det) : List ℕ :=
  s.inputQueue.flatMap Batch.framesOf ++ (s.producer.framesOf ++ s.frames)

/-- The frames from the first one shown to the last one captured. -/
def Pipeline.trail (s : Pipeline Tensor Det) : List ℕ :=
  s.shown.map Prod.fst ++ (s.outputQueue.flatMap itemFrames ++ (s.worker.framesOf ++ s.pending))

/-- The number of frames dropped. -/
def Pipeline.dropped (s : Pipeline Tensor Det) : ℕ :=
  s.droppedInput.length + s.droppedOutput.length

/-- The frames that were captured between two states. -/
def newFrames (s t : Pipeline Tensor Det) : List ℕ :=
  List.range' s.captured (t.captured - s.captured)

/-- A failure of the network or of its callback. -/
def Fails : Action Memory → Prop
  | .runFails => True
  | .callbackRaises => True
  | _ => False

/-- `after` is `before` with the block `lost` taken out. -/
def Cut (before after lost : List ℕ) : Prop :=
  ∃ front back, before = front ++ (lost ++ back) ∧ after = front ++ back

theorem Cut.sublist {before after lost : List ℕ} (h : Cut before after lost) :
    after.Sublist before := by
  obtain ⟨front, back, rfl, rfl⟩ := h
  exact (List.sublist_append_right lost back).append_left front

theorem Cut.length {before after lost : List ℕ} (h : Cut before after lost) :
    after.length + lost.length = before.length := by
  obtain ⟨front, back, rfl, rfl⟩ := h
  rw [List.length_append, List.length_append, List.length_append]
  omega

theorem cut_refl (l : List ℕ) : Cut l l [] := ⟨[], l, rfl, rfl⟩

theorem Cut.append_left {before after lost : List ℕ} (h : Cut before after lost) (l : List ℕ) :
    Cut (l ++ before) (l ++ after) lost := by
  obtain ⟨front, back, rfl, rfl⟩ := h
  exact ⟨l ++ front, back, (List.append_assoc _ _ _).symm, (List.append_assoc _ _ _).symm⟩

/-- The frames on their way after a step are those before it and the new ones, in order; what is
missing was dropped or has failed. -/
structure Accounts (way : Pipeline Tensor Det → List ℕ) (dropped : Pipeline Tensor Det → ℕ)
    (s : Pipeline Tensor Det) (a : Action Memory) (t : Pipeline Tensor Det) : Prop where
  captured : s.captured ≤ t.captured
  cut : ∃ lost, Cut (way s ++ newFrames s t) (way t) lost ∧
    (¬Fails a → dropped t = dropped s + lost.length)

/-- A step of the producer. -/
def Action.ofProducer : Action Memory → Prop
  | .capture => True
  | .nextBatch => True
  | .endOfStream => True
  | .put => True
  | _ => False

/-- What a step of the producer does to the frames that have not reached the worker. -/
structure Reads (s t : Pipeline Tensor Det) : Prop where
  captured : s.captured ≤ t.captured
  cut : ∃ lost, Cut (s.pending ++ newFrames s t) t.pending lost ∧
    t.droppedInput.length = s.droppedInput.length + lost.length
  worker : t.worker = s.worker
  inferred : t.inferred = s.inferred
  outputQueue : t.outputQueue = s.outputQueue
  droppedOutput : t.droppedOutput = s.droppedOutput
  shown : t.shown = s.shown

end Trail

namespace Program

section Faithful

variable {Image Tensor Output Memory Det : Type*} (P : Program Image Tensor Output Memory Det)

/-- The tensors of a batch are those of its frames. -/
def Aligned (b : Batch Tensor) : Prop := b.tensors = P.tensorsOf b.frames

/-- The detections were computed from the frame they come with. -/
def Computed (x : ℕ × Det) : Prop :=
  ∃ m, x.2 = P.detect (P.frame x.1) (P.network (P.preprocess (P.frame x.1))) m

/-- What travels with a frame is computed from it, wherever it is. -/
structure Faithful (s : Pipeline Tensor Det) : Prop where
  shown : ∀ x ∈ s.shown, P.Computed x
  output : ∀ x, some x ∈ s.outputQueue → P.Computed x
  input : ∀ b, some b ∈ s.inputQueue → P.Aligned b
  partly : s.tensors = P.tensorsOf s.frames
  list : P.source ≠ .camera → s.frames = []
  putting : ∀ p b, s.producer = .putting p → p.item = some b → P.Aligned b
  signalling : ∀ p, s.producer = .signalling p → p.item = none
  running : ∀ b, s.worker = .running b → P.Aligned b
  calling : ∀ b i, s.worker = .calling b i → P.Aligned b
  offering : ∀ b i p, s.worker = .offering b i p →
    P.Aligned b ∧ ∀ x, p.item = some x → P.Computed x
  final : ∀ p, s.main = .offering p → p.item = none

variable {P}

theorem faithful_start : P.Faithful (.start : Pipeline Tensor Det) where
  shown _ h := by cases h
  output _ h := by cases h
  input _ h := by cases h
  partly := rfl
  list _ := rfl
  putting _ _ h := by cases h
  signalling _ h := by cases h
  running _ h := by cases h
  calling _ _ h := by cases h
  offering _ _ _ h := by cases h
  final _ h := by cases h

theorem Computed.of_batch {b : Batch Tensor} (hb : P.Aligned b) {i f : ℕ} {t : Tensor}
    (hframe : b.frames[i]? = some f) (htensor : b.tensors[i]? = some t) (m : Memory) :
    P.Computed (f, P.detect (P.frame f) (P.network t) m) := by
  rw [hb, tensorsOf, List.getElem?_map, hframe, Option.map_some] at htensor
  obtain rfl := Option.some.inj htensor
  exact ⟨m, rfl⟩

/-- What a step of an offer puts into the output queue is computed from its frame. -/
theorem computed_of_mem_step {q : List (Item Det)} {p : Put (Item Det)}
    (hq : ∀ x, some x ∈ q → P.Computed x) (hp : ∀ x, p.item = some x → P.Computed x) :
    ∀ x, some x ∈ (p.step maxsize q).1 → P.Computed x := by
  intro x hx
  rcases Put.mem_of_mem_step hx with hx | hx
  · exact hq x hx
  · exact hp x hx.symm

theorem aligned_of_mem_step {q : List (Input Tensor)} {p : Put (Input Tensor)}
    (hq : ∀ b, some b ∈ q → P.Aligned b) (hp : ∀ b, p.item = some b → P.Aligned b) :
    ∀ b, some b ∈ (p.step maxsize q).1 → P.Aligned b := by
  intro b hb
  rcases Put.mem_of_mem_step hb with hb | hb
  · exact hq b hb
  · exact hp b hb.symm

/-- A frame that does not fill the batch. -/
theorem Faithful.capture {s : Pipeline Tensor Det} (hs : P.Faithful s)
    (hsource : P.source = .camera) :
    P.Faithful { s with
      captured := s.captured + 1
      frames := s.frames ++ [s.captured]
      tensors := s.tensors ++ [P.preprocess (P.frame s.captured)] } := by
  refine { hs with partly := ?_, list := fun h => absurd hsource h }
  dsimp only
  rw [hs.partly, tensorsOf, tensorsOf, List.map_append, List.map_singleton]

/-- The frame that fills the batch. -/
theorem Faithful.captureLast {s : Pipeline Tensor Det} (hs : P.Faithful s) :
    P.Faithful { s with
      captured := s.captured + 1
      frames := []
      tensors := []
      producer := .putting (.attempt (some
        ⟨s.frames ++ [s.captured], s.tensors ++ [P.preprocess (P.frame s.captured)]⟩)) } := by
  refine { hs with partly := rfl, list := fun _ => rfl, putting := ?_, signalling := ?_ }
  · rintro _ b ⟨⟩ hitem
    obtain rfl := Option.some.inj hitem
    rw [Aligned, hs.partly, tensorsOf, tensorsOf, List.map_append, List.map_singleton]
  · rintro _ ⟨⟩

theorem Faithful.nextBatch {s : Pipeline Tensor Det} (hs : P.Faithful s) {k : ℕ} :
    P.Faithful { s with
      captured := s.captured + k
      producer := .putting (.attempt (some
        ⟨List.range' s.captured k, P.tensorsOf (List.range' s.captured k)⟩)) } := by
  refine { hs with putting := ?_, signalling := ?_ }
  · rintro _ b ⟨⟩ hitem
    obtain rfl := Option.some.inj hitem
    rfl
  · rintro _ ⟨⟩

theorem Faithful.endOfStream {s : Pipeline Tensor Det} (hs : P.Faithful s) :
    P.Faithful { s with producer := .signalling (.attempt none) } := by
  refine { hs with putting := ?_, signalling := ?_ }
  · rintro _ b ⟨⟩
  · rintro _ ⟨⟩
    rfl

/-- What is put is the batch that was read. -/
theorem Faithful.put {s : Pipeline Tensor Det} (hq : Queued s) (hs : P.Faithful s)
    {p : Put (Input Tensor)} (hproducer : s.producer = .putting p) :
    P.Faithful (s.putInput p .putting .reading) := by
  obtain ⟨producer, hnext, ht⟩ := putInput_cases (hq.putting p hproducer) .putting .reading
  rw [ht]
  refine { hs with
    input := aligned_of_mem_step hs.input fun b => hs.putting p b hproducer
    putting := ?_
    signalling := ?_ }
  · rintro p' b rfl hitem
    rcases hnext with ⟨_, hmore, heq, -⟩ | ⟨-, heq⟩ <;> cases heq
    exact hs.putting p b hproducer ((Put.item_of_more hmore).symm.trans hitem)
  · rintro p' rfl
    rcases hnext with ⟨_, -, heq, -⟩ | ⟨-, heq⟩ <;> cases heq

/-- What is put is the end signal. -/
theorem Faithful.signal {s : Pipeline Tensor Det} (hq : Queued s) (hs : P.Faithful s)
    {p : Put (Input Tensor)} (hproducer : s.producer = .signalling p) :
    P.Faithful (s.putInput p .signalling .ended) := by
  obtain ⟨producer, hnext, ht⟩ := putInput_cases (hq.signalling p hproducer) .signalling .ended
  rw [ht]
  refine { hs with
    input := aligned_of_mem_step hs.input fun b hb => ?_
    putting := ?_
    signalling := ?_ }
  · rw [hs.signalling p hproducer] at hb
    cases hb
  · rintro p' b rfl
    rcases hnext with ⟨_, -, heq, -⟩ | ⟨-, heq⟩ <;> cases heq
  · rintro p' rfl
    rcases hnext with ⟨_, hmore, heq, -⟩ | ⟨-, heq⟩ <;> cases heq
    exact (Put.item_of_more hmore).trans (hs.signalling p hproducer)

theorem Faithful.getSignal {s : Pipeline Tensor Det} (hs : P.Faithful s)
    {rest : List (Input Tensor)} (hqueue : s.inputQueue = none :: rest) :
    P.Faithful { s with inputQueue := rest, worker := .closing } :=
  { hs with
    input := fun b hb => hs.input b (hqueue ▸ List.mem_cons_of_mem _ hb)
    running := fun _ h => by cases h
    calling := fun _ _ h => by cases h
    offering := fun _ _ _ h => by cases h }

theorem Faithful.getBatch {s : Pipeline Tensor Det} (hs : P.Faithful s) {batch : Batch Tensor}
    {rest : List (Input Tensor)} (hqueue : s.inputQueue = some batch :: rest) :
    P.Faithful { s with inputQueue := rest, worker := .running batch } := by
  refine { hs with
    input := fun b hb => hs.input b (hqueue ▸ List.mem_cons_of_mem _ hb)
    running := ?_
    calling := fun _ _ h => by cases h
    offering := fun _ _ _ h => by cases h }
  rintro _ ⟨⟩
  exact hs.input _ (hqueue ▸ List.mem_cons_self)

/-- The worker waits for a batch. -/
theorem Faithful.idle {s : Pipeline Tensor Det} (hs : P.Faithful s) :
    P.Faithful { s with worker := .getting } :=
  { hs with
    running := fun _ h => by cases h
    calling := fun _ _ h => by cases h
    offering := fun _ _ _ h => by cases h }

theorem Faithful.runs {s : Pipeline Tensor Det} (hs : P.Faithful s) {batch : Batch Tensor}
    (hworker : s.worker = .running batch) :
    P.Faithful { s with
      worker := .calling batch 0
      inferred := s.inferred ++ batch.frames } := by
  refine { hs with
    running := fun _ h => by cases h
    calling := ?_
    offering := fun _ _ _ h => by cases h }
  rintro _ _ ⟨⟩
  exact hs.running batch hworker

/-- The callback has the detections of a frame. -/
theorem Faithful.detect {s : Pipeline Tensor Det} (hs : P.Faithful s) {batch : Batch Tensor}
    {i f : ℕ} {t : Tensor} {m : Memory} (hworker : s.worker = .calling batch i)
    (hframe : batch.frames[i]? = some f) (htensor : batch.tensors[i]? = some t) :
    P.Faithful { s with
      worker := .offering batch i
        (.attempt (some (f, P.detect (P.frame f) (P.network t) m))) } := by
  refine { hs with
    running := fun _ h => by cases h
    calling := fun _ _ h => by cases h
    offering := ?_ }
  rintro _ _ _ ⟨⟩
  have haligned := hs.calling batch i hworker
  refine ⟨haligned, fun x hx => ?_⟩
  obtain rfl := Option.some.inj hx
  exact .of_batch haligned hframe htensor m

theorem Faithful.offer {s : Pipeline Tensor Det} (hq : Queued s) (hs : P.Faithful s)
    {batch : Batch Tensor} {i : ℕ} {p : Put (Item Det)} (hworker : s.worker = .offering batch i p) :
    P.Faithful { s.putOutput p with
      worker := .offered batch i (p.step maxsize s.outputQueue).2 } := by
  have hready := hq.offering batch i p hworker
  have hoffer := hs.offering batch i p hworker
  have houtput := computed_of_mem_step hs.output hoffer.2
  rw [putOutput_eq hready]
  rcases hready.cases (by decide) with ⟨p', hmore, -⟩ | hfinished
  · rw [hmore]
    refine { hs with
      output := houtput
      running := fun _ h => by cases h
      calling := fun _ _ h => by cases h
      offering := ?_ }
    rintro _ _ _ ⟨⟩
    rw [Put.item_of_more hmore]
    exact hoffer
  · rw [hfinished]
    refine { hs with
      output := houtput
      running := fun _ h => by cases h
      calling := ?_
      offering := fun _ _ _ h => by cases h }
    rintro _ _ ⟨⟩
    exact hoffer.1

/-- The end signal of the worker. -/
theorem Faithful.close {s : Pipeline Tensor Det} (hs : P.Faithful s) :
    P.Faithful { s with
      worker := .ended
      outputQueue := if s.outputQueue.length < maxsize then s.outputQueue ++ [none]
        else s.outputQueue } := by
  refine { hs with
    output := ?_
    running := fun _ h => by cases h
    calling := fun _ _ h => by cases h
    offering := fun _ _ _ h => by cases h }
  intro x hx
  dsimp only at hx
  split at hx
  · exact hs.output x (by simpa using hx)
  · exact hs.output x hx

theorem Faithful.join {s : Pipeline Tensor Det} (hs : P.Faithful s) :
    P.Faithful { s with main := .offering (.attempt none) } := by
  refine { hs with final := ?_ }
  rintro _ ⟨⟩
  rfl

theorem Faithful.finalOffer {s : Pipeline Tensor Det} (hq : Queued s) (hs : P.Faithful s)
    {p : Put (Item Det)} (hmain : s.main = .offering p) :
    P.Faithful { s.putOutput p with
      main := .offered (p.step maxsize s.outputQueue).2 } := by
  have hitem := hs.final p hmain
  rw [putOutput_eq (hq.finalOffer p hmain)]
  refine { hs with
    output := computed_of_mem_step hs.output fun x hx => ?_
    final := ?_ }
  · rw [hitem] at hx
    cases hx
  · rcases (hq.finalOffer p hmain).cases (by decide) with ⟨p', hmore, -⟩ | hfinished
    · rw [hmore]
      rintro _ ⟨⟩
      exact (Put.item_of_more hmore).trans hitem
    · rw [hfinished]
      rintro _ ⟨⟩

theorem Faithful.viewSignal {s : Pipeline Tensor Det} (hs : P.Faithful s)
    {rest : List (Item Det)} (hqueue : s.outputQueue = none :: rest) :
    P.Faithful { s with outputQueue := rest, viewer := .signalled } :=
  { hs with output := fun x hx => hs.output x (hqueue ▸ List.mem_cons_of_mem _ hx) }

theorem Faithful.view {s : Pipeline Tensor Det} (hs : P.Faithful s) {x : ℕ × Det}
    {rest : List (Item Det)} (hqueue : s.outputQueue = some x :: rest) :
    P.Faithful { s with outputQueue := rest, shown := s.shown ++ [x] } := by
  refine { hs with
    shown := ?_
    output := fun x hx => hs.output x (hqueue ▸ List.mem_cons_of_mem _ hx) }
  intro x hx
  rcases List.mem_append.mp hx with hx | hx
  · exact hs.shown x hx
  · rw [List.mem_singleton.mp hx]
    exact hs.output _ (hqueue ▸ List.mem_cons_self)

/-- **What travels with a frame stays computed from it.** -/
theorem Faithful.moves {s t : Pipeline Tensor Det} {a : Action Memory} (hq : Queued s)
    (hs : P.Faithful s) (h : P.Moves s a t) : P.Faithful t := by
  cases h with
  | capture hsource hproducer => exact hs.capture hsource
  | captureLast hsource hproducer => exact hs.captureLast
  | nextBatch hsource hproducer hlt hk => exact hs.nextBatch
  | endOfStream hproducer hexhausted => exact hs.endOfStream
  | put hproducer => exact .put hq hs hproducer
  | signal hproducer => exact .signal hq hs hproducer
  | getSignal hworker hqueue => exact hs.getSignal hqueue
  | getBatch hworker hqueue => exact hs.getBatch hqueue
  | runFails hworker | callbackRaises hworker | callbackReturns hworker hend => exact hs.idle
  | runs hworker => exact hs.runs hworker
  | detect hworker hframe htensor => exact hs.detect hworker hframe htensor
  | offer hworker => exact .offer hq hs hworker
  | close hworker => exact hs.close
  | join hmain hproducer hworker => exact hs.join
  | finalOffer hmain => exact .finalOffer hq hs hmain
  | viewSignal hviewer hqueue => exact hs.viewSignal hqueue
  | view hviewer hqueue => exact hs.view hqueue
  | quit hsource hviewer => exact { hs with }

theorem faithful_of_reachable {s : Pipeline Tensor Det} (hs : P.pipeline.Reachable s) :
    P.Faithful s := by
  refine (hs.invariant (fun s => Queued s ∧ P.Faithful s) ?_ fun s a t hinv _ ht =>
    ⟨hinv.1.moves (moves_of_step ht), hinv.2.moves hinv.1 (moves_of_step ht)⟩).2
  rintro s rfl
  exact ⟨queued_start, faithful_start⟩

end Faithful

end Program

section Accounts

open Program

variable {Image Tensor Output Memory Det : Type*} {P : Program Image Tensor Output Memory Det}
variable {s t : Pipeline Tensor Det}

theorem newFrames_eq_nil (h : t.captured = s.captured) : newFrames s t = [] := by
  rw [newFrames, h, Nat.sub_self]
  rfl

section Way

variable {way : Pipeline Tensor Det → List ℕ} {dropped : Pipeline Tensor Det → ℕ}
  {a : Action Memory}

/-- A step that captures nothing. -/
theorem Accounts.of_cut (lost : List ℕ) (hcaptured : t.captured = s.captured)
    (hcut : Cut (way s) (way t) lost)
    (hdropped : ¬Fails a → dropped t = dropped s + lost.length) : Accounts way dropped s a t := by
  refine ⟨hcaptured.ge, lost, ?_, hdropped⟩
  rw [newFrames_eq_nil hcaptured, List.append_nil]
  exact hcut

/-- A step that passes all frames on. -/
theorem Accounts.of_eq (hcaptured : t.captured = s.captured) (hway : way t = way s)
    (hdropped : dropped t = dropped s) : Accounts way dropped s a t := by
  refine .of_cut [] hcaptured ?_ fun _ => hdropped
  rw [hway]
  exact cut_refl _

/-- A step of the producer. -/
theorem Accounts.of_reads (h : Reads s t) (front : List ℕ) (hs : way s = front ++ s.pending)
    (ht : way t = front ++ t.pending)
    (hdropped : dropped t + s.droppedInput.length = dropped s + t.droppedInput.length) :
    Accounts way dropped s a t := by
  obtain ⟨lost, hcut, hlength⟩ := h.cut
  refine ⟨h.captured, lost, ?_, fun _ => by omega⟩
  rw [hs, ht, List.append_assoc]
  exact hcut.append_left front

end Way

/-- What a put and its queue hold, as frames. -/
theorem flatMap_conserve {α : Type*} {cap : ℕ} {q : List α} {p : Put α} (h : p.Ready cap q)
    (f : α → List ℕ) :
    q.flatMap f ++ f p.item = (p.dropped q).flatMap f ++
      ((p.step cap q).1.flatMap f ++ (p.step cap q).2.items.flatMap f) := by
  have hconserve := congrArg (List.flatMap f) h.conserve
  rwa [List.flatMap_append, List.flatMap_append, List.flatMap_append, List.flatMap_singleton]
    at hconserve

theorem framesOf_offered (b : Batch Tensor) (i : ℕ) (r : Rest (Item Det)) :
    (Worker.offered b i r).framesOf = r.items.flatMap itemFrames ++ b.frames.drop (i + 1) := by
  cases r with
  | more p =>
    rw [Rest.items, List.flatMap_singleton]
    rfl
  | finished => rfl
  | full => rfl

theorem Reads.of_putInput {p : Put (Input Tensor)} (hp : p.Ready maxsize s.inputQueue)
    (hproducer : s.producer.framesOf = Batch.framesOf p.item)
    {again : Put (Input Tensor) → Producer Tensor} {next : Producer Tensor}
    (hagain : ∀ p', (again p').framesOf = Batch.framesOf p'.item) (hnext : next.framesOf = []) :
    Reads s (s.putInput p again next) := by
  obtain ⟨producer, hcases, ht⟩ := putInput_cases hp again next
  have hframes : producer.framesOf = (p.step maxsize s.inputQueue).2.items.flatMap
      Batch.framesOf := by
    rcases hcases with ⟨p', hmore, rfl, -⟩ | ⟨hfinished, rfl⟩
    · rw [hmore, Rest.items, List.flatMap_singleton, hagain]
    · rw [hfinished, hnext]
      rfl
  have hconserve := flatMap_conserve hp Batch.framesOf
  rw [ht]
  refine ⟨Nat.le_refl _, ⟨(p.dropped s.inputQueue).flatMap Batch.framesOf, ⟨[],
    (p.step maxsize s.inputQueue).1.flatMap Batch.framesOf ++ (producer.framesOf ++ s.frames),
    ?_, rfl⟩, List.length_append⟩, rfl, rfl, rfl, rfl, rfl⟩
  rw [newFrames, Nat.sub_self, List.range'_zero, Pipeline.pending, hproducer, hframes,
    List.append_nil]
  rw [← List.append_assoc, hconserve, List.nil_append]
  simp only [List.append_assoc]

theorem Reads.of_moves {a : Action Memory} (hq : Queued s) (hs : P.Faithful s)
    (h : P.Moves s a t) (ha : a.ofProducer) : Reads s t := by
  cases h with
  | capture hsource hproducer =>
    refine ⟨Nat.le_succ _, ⟨[], ?_, rfl⟩, rfl, rfl, rfl, rfl, rfl⟩
    rw [newFrames, Nat.add_sub_cancel_left]
    simp only [Pipeline.pending, List.append_assoc]
    exact cut_refl _
  | captureLast hsource hproducer =>
    refine ⟨Nat.le_succ _, ⟨[], ?_, rfl⟩, rfl, rfl, rfl, rfl, rfl⟩
    rw [newFrames, Nat.add_sub_cancel_left]
    simp only [Pipeline.pending, hproducer, Producer.framesOf, Put.item, Batch.framesOf,
      List.append_assoc, List.nil_append, List.append_nil]
    exact cut_refl _
  | nextBatch hsource hproducer hlt hk =>
    refine ⟨Nat.le_add_right _ _, ⟨[], ?_, rfl⟩, rfl, rfl, rfl, rfl, rfl⟩
    rw [newFrames, Nat.add_sub_cancel_left]
    have hframes := hs.list (by rw [hsource]; intro h; cases h)
    simp only [Pipeline.pending, hproducer, hframes, Producer.framesOf, Put.item, Batch.framesOf,
      List.append_nil]
    exact cut_refl _
  | endOfStream hproducer hexhausted =>
    refine ⟨Nat.le_refl _, ⟨[], ?_, rfl⟩, rfl, rfl, rfl, rfl, rfl⟩
    rw [newFrames, Nat.sub_self, List.range'_zero, List.append_nil]
    simp only [Pipeline.pending, hproducer, Producer.framesOf, Put.item, Batch.framesOf]
    exact cut_refl _
  | @put p hproducer =>
    exact .of_putInput (hq.putting p hproducer) (by rw [hproducer]; rfl) (fun _ => rfl) rfl
  | @signal p hproducer =>
    exact .of_putInput (hq.signalling p hproducer) (by rw [hproducer]; rfl) (fun _ => rfl) rfl
  | _ => exact absurd ha id

/-- Where the worker fails, what it has is lost. -/
theorem Accounts.of_failure {a : Action Memory} (ha : Fails a) :
    Accounts Pipeline.trail Pipeline.dropped s a { s with worker := .getting } := by
  refine .of_cut s.worker.framesOf rfl
    ⟨s.shown.map Prod.fst ++ s.outputQueue.flatMap itemFrames, s.pending, ?_, ?_⟩
    fun hfails => absurd ha hfails
  · simp only [Pipeline.trail, List.append_assoc]
  · simp only [Pipeline.trail, Worker.framesOf, List.append_assoc, List.nil_append]
    rfl

/-- A put by the worker: the frame it drops is at the head of the queue. -/
theorem Accounts.of_offer (hq : Queued s) {batch : Batch Tensor} {i : ℕ} {p : Put (Item Det)}
    (hworker : s.worker = .offering batch i p) :
    Accounts Pipeline.trail Pipeline.dropped s (.offer : Action Memory) { s.putOutput p with
      worker := .offered batch i (p.step maxsize s.outputQueue).2 } := by
  have hready := hq.offering batch i p hworker
  have hconserve := flatMap_conserve hready itemFrames
  rw [putOutput_eq hready]
  refine .of_cut ((p.dropped s.outputQueue).flatMap itemFrames) rfl
    ⟨s.shown.map Prod.fst, (p.step maxsize s.outputQueue).1.flatMap itemFrames ++
      ((Worker.offered batch i (p.step maxsize s.outputQueue).2).framesOf ++ s.pending), ?_, rfl⟩
    fun _ => ?_
  · rw [Pipeline.trail, hworker, framesOf_offered, Worker.framesOf]
    simp only [List.append_assoc]
    rw [← List.append_assoc (s.outputQueue.flatMap _), hconserve]
    simp only [List.append_assoc]
  · rw [Pipeline.dropped, Pipeline.dropped, List.length_append, Nat.add_assoc]

/-- A put by the main thread, which is of no frame. -/
theorem Accounts.of_finalOffer (hq : Queued s) (hs : P.Faithful s) {p : Put (Item Det)}
    (hmain : s.main = .offering p) :
    Accounts Pipeline.trail Pipeline.dropped s (.finalOffer : Action Memory) { s.putOutput p with
      main := .offered (p.step maxsize s.outputQueue).2 } := by
  have hready := hq.finalOffer p hmain
  have hconserve := flatMap_conserve hready itemFrames
  have hitem := hs.final p hmain
  have hitems : (p.step maxsize s.outputQueue).2.items.flatMap itemFrames = [] := by
    rcases hready.cases (by decide) with ⟨p', hmore, -⟩ | hfinished
    · rw [hmore, Rest.items, List.flatMap_singleton, Put.item_of_more hmore, hitem, itemFrames]
    · rw [hfinished]
      rfl
  rw [hitem, hitems, itemFrames, List.append_nil, List.append_nil] at hconserve
  rw [putOutput_eq hready]
  refine .of_cut ((p.dropped s.outputQueue).flatMap itemFrames) rfl
    ⟨s.shown.map Prod.fst, (p.step maxsize s.outputQueue).1.flatMap itemFrames ++
      (s.worker.framesOf ++ s.pending), ?_, rfl⟩ fun _ => ?_
  · rw [Pipeline.trail, hconserve, List.append_assoc]
  · rw [Pipeline.dropped, Pipeline.dropped, List.length_append, Nat.add_assoc]

/-- **Every step passes the frames on in order.** -/
theorem accounts_trail {a : Action Memory} (hq : Queued s) (hs : P.Faithful s)
    (h : P.Moves s a t) : Accounts Pipeline.trail Pipeline.dropped s a t := by
  by_cases ha : a.ofProducer
  · have hreads := Reads.of_moves hq hs h ha
    refine .of_reads hreads
      (s.shown.map Prod.fst ++ (s.outputQueue.flatMap itemFrames ++ s.worker.framesOf)) ?_ ?_ ?_
    · simp only [Pipeline.trail, List.append_assoc]
    · simp only [Pipeline.trail, List.append_assoc, hreads.shown, hreads.outputQueue,
        hreads.worker]
    · rw [Pipeline.dropped, Pipeline.dropped, hreads.droppedOutput]
      omega
  cases h with
  | capture | captureLast | nextBatch | endOfStream | put | signal => exact absurd trivial ha
  | getSignal hworker hqueue =>
    refine .of_eq rfl ?_ rfl
    simp only [Pipeline.trail, Pipeline.pending, hworker, hqueue, Worker.framesOf,
      List.flatMap_cons, Batch.framesOf, List.nil_append]
  | getBatch hworker hqueue =>
    refine .of_eq rfl ?_ rfl
    simp only [Pipeline.trail, Pipeline.pending, hworker, hqueue, Worker.framesOf,
      List.flatMap_cons, Batch.framesOf, List.nil_append, List.append_assoc]
  | runFails hworker | callbackRaises hworker => exact .of_failure trivial
  | runs hworker =>
    refine .of_eq rfl ?_ rfl
    simp only [Pipeline.trail, hworker, Worker.framesOf, List.drop_zero]
    rfl
  | @detect batch i f t m hworker hframe htensor =>
    refine .of_eq rfl ?_ rfl
    obtain ⟨hi, rfl⟩ := List.getElem?_eq_some_iff.mp hframe
    simp only [Pipeline.trail, hworker, Worker.framesOf, Put.item, itemFrames]
    rw [List.drop_eq_getElem_cons hi]
    rfl
  | offer hworker => exact .of_offer hq hworker
  | @callbackReturns batch i hworker hend =>
    have hlength : batch.frames.length ≤ i := by
      rwa [hs.calling batch i hworker, tensorsOf, List.length_map] at hend
    refine .of_eq rfl ?_ rfl
    simp only [Pipeline.trail, hworker, Worker.framesOf, List.drop_eq_nil_of_le hlength]
    rfl
  | close hworker =>
    refine .of_eq rfl ?_ rfl
    simp only [Pipeline.trail, hworker, Worker.framesOf]
    split
    · rw [List.flatMap_append, List.flatMap_singleton, itemFrames, List.append_nil]
      rfl
    · rfl
  | join hmain hproducer hworker => exact .of_eq rfl rfl rfl
  | finalOffer hmain => exact .of_finalOffer hq hs hmain
  | viewSignal hviewer hqueue =>
    refine .of_eq rfl ?_ rfl
    simp only [Pipeline.trail, hqueue, List.flatMap_cons, itemFrames, List.nil_append]
    rfl
  | view hviewer hqueue =>
    refine .of_eq rfl ?_ rfl
    simp only [Pipeline.trail, hqueue, List.flatMap_cons, itemFrames, List.map_append,
      List.map_cons, List.map_nil, List.append_assoc]
    rfl
  | quit hsource hviewer => exact .of_eq rfl rfl rfl

end Accounts

namespace Program

section Sound

variable {Image Tensor Output Memory Det : Type*} (P : Program Image Tensor Output Memory Det)

/-- Once the main thread is done, the end signal is in the output queue or has been taken. -/
def Signalled (s : Pipeline Tensor Det) : Prop :=
  s.main = .ended → none ∈ s.outputQueue ∨ s.viewer = .signalled

/-- What the viewer and the main thread can rely on. -/
structure Sound (s : Pipeline Tensor Det) : Prop where
  /-- The frames are shown in the order of their capture, none of them twice. -/
  order : (s.shown.map Prod.fst).Sublist (List.range s.captured)
  /-- Each is shown with its own detections. -/
  pairing : ∀ x ∈ s.shown, P.Computed x
  /-- The second try of a put has not raised `queue.Full`. -/
  full : s.full = false
  signal : Signalled s

variable {P}

theorem range_append_newFrames {s t : Pipeline Tensor Det} (h : s.captured ≤ t.captured) :
    List.range s.captured ++ newFrames s t = List.range t.captured := by
  have happend := List.range'_append_1 (s := 0) (m := s.captured) (n := t.captured - s.captured)
  rw [Nat.zero_add, Nat.add_sub_cancel' h] at happend
  rw [List.range_eq_range', List.range_eq_range', newFrames, happend]

/-- What every step keeps, with what is known of every state. -/
theorem invariant_of_moves {ok : Pipeline Tensor Det → Action Memory → Prop}
    (Inv : Pipeline Tensor Det → Prop) (hstart : Inv .start)
    (hmoves : ∀ s a t, Queued s → P.Faithful s → ok s a → Inv s → P.Moves s a t → Inv t)
    {s : Pipeline Tensor Det} (hs : P.pipeline.Reach ok s) : Inv s := by
  refine (hs.invariant (fun s => (Queued s ∧ P.Faithful s) ∧ Inv s) ?_ ?_).2
  · rintro s rfl
    exact ⟨⟨queued_start, faithful_start⟩, hstart⟩
  · rintro s a t ⟨⟨hqueued, hfaithful⟩, hinv⟩ hok ht
    have h := moves_of_step ht
    exact ⟨⟨hqueued.moves h, hfaithful.moves hqueued h⟩,
      hmoves s a t hqueued hfaithful hok hinv h⟩

/-- The frames on their way are in the order of their capture. -/
theorem sublist_of_accounts {way : Pipeline Tensor Det → List ℕ}
    {dropped : Pipeline Tensor Det → ℕ} (hstart : way .start = [])
    (hway : ∀ s a t, Queued s → P.Faithful s → P.Moves s a t → Accounts way dropped s a t)
    {s : Pipeline Tensor Det} (hs : P.pipeline.Reachable s) :
    (way s).Sublist (List.range s.captured) := by
  refine invariant_of_moves (fun s => (way s).Sublist (List.range s.captured)) ?_ ?_ hs
  · rw [hstart]
    exact .slnil
  · intro s a t hqueued hfaithful _ hsublist h
    have haccounts := hway s a t hqueued hfaithful h
    obtain ⟨lost, hcut, -⟩ := haccounts.cut
    rw [← range_append_newFrames haccounts.captured]
    exact hcut.sublist.trans (hsublist.append_right _)

/-- Without a failure, what is not on its way was dropped. -/
theorem length_of_accounts {way : Pipeline Tensor Det → List ℕ}
    {dropped : Pipeline Tensor Det → ℕ} (hstart : way .start = []) (hdropped : dropped .start = 0)
    (hway : ∀ s a t, Queued s → P.Faithful s → P.Moves s a t → Accounts way dropped s a t)
    {s : Pipeline Tensor Det} (hs : P.pipeline.Reach (fun _ a => ¬Fails a) s) :
    (way s).length + dropped s = s.captured := by
  refine invariant_of_moves (fun s => (way s).length + dropped s = s.captured) ?_ ?_ hs
  · rw [hstart, hdropped]
    rfl
  · intro s a t hqueued hfaithful hfails hlength h
    obtain ⟨hcaptured, lost, hcut, hlost⟩ := hway s a t hqueued hfaithful h
    have hcutLength := hcut.length
    rw [List.length_append, newFrames, List.length_range'] at hcutLength
    have hlost := hlost hfails
    omega

theorem Signalled.moves {s t : Pipeline Tensor Det} {a : Action Memory} (hq : Queued s)
    (hf : P.Faithful s) (hs : Signalled s) (h : P.Moves s a t) : Signalled t := by
  have hended := fun h : s.main = .ended => hq.joined (by rw [h]; intro h; cases h)
  cases h with
  | capture | captureLast | nextBatch | endOfStream | getSignal | getBatch | runFails | runs
  | detect | callbackRaises | callbackReturns => exact hs
  | put hproducer | signal hproducer => exact hs
  | offer hworker =>
    intro hmain
    rw [hended hmain] at hworker
    cases hworker
  | close hworker =>
    intro hmain
    rw [hended hmain] at hworker
    cases hworker
  | join => intro hmain; cases hmain
  | @finalOffer p hmain =>
    intro hdone
    rcases (hq.finalOffer p hmain).cases (by decide) with ⟨p', hmore, -⟩ | hfinished
    · rw [hmore] at hdone
      cases hdone
    · refine .inl ?_
      have hmem := Put.item_mem_of_finished hfinished
      rwa [hf.final p hmain] at hmem
  | viewSignal => exact fun _ => .inr rfl
  | view hviewer hqueue =>
    intro hmain
    rcases hs hmain with hmem | hsignalled
    · rw [hqueue] at hmem
      exact .inl (List.mem_of_ne_of_mem (fun h => by cases h) hmem)
    · rw [hviewer] at hsignalled
      cases hsignalled
  | quit hsource hviewer =>
    intro hmain
    rcases hs hmain with hmem | hsignalled
    · exact .inl hmem
    · rw [hviewer] at hsignalled
      cases hsignalled

theorem signalled_of_reachable {s : Pipeline Tensor Det} (hs : P.pipeline.Reachable s) :
    Signalled s :=
  invariant_of_moves Signalled (fun h => by cases h)
    (fun _ _ _ hqueued hfaithful _ hsignalled h => hsignalled.moves hqueued hfaithful h) hs

/-- **The pipeline is sound in every interleaving.** -/
theorem pipeline_sound {s : Pipeline Tensor Det} (hs : P.pipeline.Reachable s) : P.Sound s where
  order := (List.sublist_append_left _ _).trans
    (sublist_of_accounts rfl (fun _ _ _ => accounts_trail) hs)
  pairing := (faithful_of_reachable hs).shown
  full := (queued_of_reachable hs).full
  signal := signalled_of_reachable hs

end Sound

section Example

/-- A camera and batches of one frame. -/
def cameraExample : Program ℕ ℕ ℕ Unit ℕ where
  source := .camera
  batchSize := 1
  batchSize_pos := Nat.one_pos
  frame i := 10 * i
  preprocess x := x + 1
  network x := 2 * x
  detect x y _ := x + y

/-- Four frames, of which one is dropped from the input queue and one from the output queue. -/
theorem pipeline_sound_witness : ∃ s, cameraExample.pipeline.Reachable s ∧
    s.shown = [(0, 2), (3, 92)] ∧ s.dropped = 2 ∧ cameraExample.Sound s := by
  obtain ⟨s, hs, hp⟩ := exists_reach_of_run cameraExample.pipeline (fun _ _ => True) rfl
    [.capture, .put, .getBatch, .capture, .put, .capture, .put, .capture, .put, .put, .put,
      .runs, .detect (), .offer, .callbackReturns,
      .getBatch, .runs, .detect (), .offer, .callbackReturns,
      .getBatch, .runs, .detect (), .offer, .view, .offer, .offer, .callbackReturns,
      .endOfStream, .put, .getBatch, .close, .join, .view, .finalOffer, .view]
    (fun s => s.shown == [(0, 2), (3, 92)] && s.dropped == 2) (by decide +kernel)
  rw [Bool.and_eq_true, beq_iff_eq, beq_iff_eq] at hp
  exact ⟨s, hs, hp.1, hp.2, pipeline_sound hs⟩

end Example

end Program

end Inference

end DroneTurret
