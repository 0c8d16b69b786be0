import DroneTurret.Lib.DropOldest
import DroneTurret.Lib.Transition

/-!
# The inference pipeline

`run_inference_pipeline` starts three threads: the producer reads frames, prepares them for the
network and puts them in batches into the input queue; the worker has the network run on one batch
after the other, and its callback offers each frame with its detections to the output queue; the
viewer shows what it gets from there. The main thread waits for the first two and offers the end
signal once more. Puts drop the oldest element of a full queue, in three steps that the other
threads can come between.

A frame is known by its place in the capture. The network calls back once for a successful run,
with the results in the order of the batch, and not for one that fails. A run that reports an
exception to its callback fails as well.

## Main definitions

* `Program` — the functions the pipeline is made of
* `Pipeline`, `Program.step`, `Program.pipeline` — the threads and their queues
* `Moves` — what a step does

## Main results

* `Program.moves_of_step` — every step is one of these
* `Program.queued_of_reachable` — nobody else puts between the steps of a put, so no put fails
-/

namespace DroneTurret

namespace Inference

open DropOldest Transition

/-- Where the frames come from: a camera, until it fails, or a list of images. -/
inductive Source
  | camera
  | images (n : ℕ)
  deriving DecidableEq

/-- What the pipeline is run with. The detections of a frame depend on the frame, the output of the
network and what the callback remembers, such as tracks. -/
structure Program (Image Tensor Output Memory Det : Type*) where
  source : Source
  batchSize : ℕ
  batchSize_pos : 0 < batchSize
  frame : ℕ → Image
  preprocess : Image → Tensor
  network : Tensor → Output
  detect : Image → Output → Memory → Det

/-- `maxsize` of both queues. -/
abbrev maxsize : ℕ := 2

/-- A batch: the frames, and what the network gets for them. -/
structure Batch (Tensor : Type*) where
  frames : List ℕ
  tensors : List Tensor

/-- An element of the input queue; `none` is the end signal. -/
abbrev Input (Tensor : Type*) : Type _ := Option (Batch Tensor)

/-- An element of the output queue, a frame with its detections; `none` is the end signal. -/
abbrev Item (Det : Type*) : Type _ := Option (ℕ × Det)

inductive Producer (Tensor : Type*)
  | reading
  | putting (p : Put (Input Tensor))
  | signalling (p : Put (Input Tensor))
  | ended
  /-- A put has raised `queue.Full`. -/
  | failed

/-- `infer`, with the callback it waits for. -/
inductive Worker (Tensor Det : Type*)
  | getting
  | running (batch : Batch Tensor)
  | calling (batch : Batch Tensor) (i : ℕ)
  | offering (batch : Batch Tensor) (i : ℕ) (p : Put (Item Det))
  | closing
  | ended

inductive Main (Det : Type*)
  | joining
  | offering (p : Put (Item Det))
  | ended

/-- `visualize`. -/
inductive Viewer
  | viewing
  /-- It has got the end signal. -/
  | signalled
  /-- The user has pressed `q`. -/
  | quit
  deriving DecidableEq

structure Pipeline (Tensor Det : Type*) where
  inputQueue : List (Input Tensor)
  outputQueue : List (Item Det)
  /-- The frames read. -/
  captured : ℕ
  /-- `frames_bgr` and `frames_rgb_pre`. -/
  frames : List ℕ
  tensors : List Tensor
  producer : Producer Tensor
  worker : Worker Tensor Det
  main : Main Det
  viewer : Viewer
  /-- The frames of the batches the network was run on. -/
  inferred : List ℕ
  shown : List (ℕ × Det)
  /-- Whether the second try of a put has raised `queue.Full`. -/
  full : Bool
  /-- The frames dropped from the input queue. -/
  droppedInput : List ℕ
  /-- The frames dropped from the output queue. -/
  droppedOutput : List ℕ

def Pipeline.start {Tensor Det : Type*} : Pipeline Tensor Det where
  inputQueue := []
  outputQueue := []
  captured := 0
  frames := []
  tensors := []
  producer := .reading
  worker := .getting
  main := .joining
  viewer := .viewing
  inferred := []
  shown := []
  full := false
  droppedInput := []
  droppedOutput := []

inductive Action (Memory : Type*)
  | capture
  | nextBatch
  | endOfStream
  | put
  | getBatch
  | runFails
  | runs
  | detect (m : Memory)
  | offer
  | callbackRaises
  | callbackReturns
  | close
  | join
  | finalOffer
  | view
  | quit

/-- The frames of an element of the input queue. -/
def Batch.framesOf {Tensor : Type*} : Input Tensor → List ℕ
  | some b => b.frames
  | none => []

/-- The frame of an element of the output queue. -/
def itemFrames {Det : Type*} : Item Det → List ℕ
  | some x => [x.1]
  | none => []

section Step

variable {Image Tensor Output Memory Det : Type*}

/-- One step of a put into the input queue, by a producer that goes on with `next`. -/
def Pipeline.putInput (s : Pipeline Tensor Det) (p : Put (Input Tensor))
    (again : Put (Input Tensor) → Producer Tensor) (next : Producer Tensor) :
    Pipeline Tensor Det :=
  let r := p.step maxsize s.inputQueue
  { s with
    inputQueue := r.1
    droppedInput := s.droppedInput ++ (p.dropped s.inputQueue).flatMap Batch.framesOf
    full := s.full || match r.2 with
      | .full => true
      | _ => false
    producer := match r.2 with
      | .more p' => again p'
      | .finished => next
      | .full => .failed }

/-- One step of a put into the output queue. -/
def Pipeline.putOutput (s : Pipeline Tensor Det) (p : Put (Item Det)) : Pipeline Tensor Det :=
  let r := p.step maxsize s.outputQueue
  { s with
    outputQueue := r.1
    droppedOutput := s.droppedOutput ++ (p.dropped s.outputQueue).flatMap itemFrames
    full := s.full || match r.2 with
      | .full => true
      | _ => false }

/-- The worker after a step of an offer. -/
def Worker.offered (batch : Batch Tensor) (i : ℕ) : Rest (Item Det) → Worker Tensor Det
  | .more p => .offering batch i p
  | _ => .calling batch (i + 1)

def Main.offered : Rest (Item Det) → Main Det
  | .more p => .offering p
  | _ => .ended

namespace Program

variable (P : Program Image Tensor Output Memory Det)

/-- What the network gets for frames. -/
def tensorsOf (frames : List ℕ) : List Tensor := frames.map fun i => P.preprocess (P.frame i)

/-- Whether there is nothing more to read. A camera may fail at any time. -/
def exhausted (captured : ℕ) : Prop :=
  match P.source with
  | .camera => True
  | .images n => n ≤ captured

instance (captured : ℕ) : Decidable (P.exhausted captured) := by
  unfold exhausted
  split <;> infer_instance

/-- One step of a thread. -/
def step (s : Pipeline Tensor Det) : Action Memory → Option (Pipeline Tensor Det)
  | .capture =>
    match P.source, s.producer with
    | .camera, .reading =>
      let frames := s.frames ++ [s.captured]
      let tensors := s.tensors ++ [P.preprocess (P.frame s.captured)]
      if frames.length = P.batchSize then
        some { s with
          captured := s.captured + 1
          frames := []
          tensors := []
          producer := .putting (.attempt (some ⟨frames, tensors⟩)) }
      else some { s with captured := s.captured + 1, frames := frames, tensors := tensors }
    | _, _ => none
  | .nextBatch =>
    match P.source, s.producer with
    | .images n, .reading =>
      if s.captured < n then
        let frames := List.range' s.captured (min P.batchSize (n - s.captured))
        some { s with
          captured := s.captured + min P.batchSize (n - s.captured)
          producer := .putting (.attempt (some ⟨frames, P.tensorsOf frames⟩)) }
      else none
    | _, _ => none
  | .endOfStream =>
    match s.producer with
    | .reading =>
      if P.exhausted s.captured then some { s with producer := .signalling (.attempt none) }
      else none
    | _ => none
  | .put =>
    match s.producer with
    | .putting p => some (s.putInput p .putting .reading)
    | .signalling p => some (s.putInput p .signalling .ended)
    | _ => none
  | .getBatch =>
    match s.worker, s.inputQueue with
    | .getting, none :: rest => some { s with inputQueue := rest, worker := .closing }
    | .getting, some batch :: rest =>
      some { s with inputQueue := rest, worker := .running batch }
    | _, _ => none
  | .runFails =>
    match s.worker with
    | .running _ => some { s with worker := .getting }
    | _ => none
  | .runs =>
    match s.worker with
    | .running batch =>
      some { s with worker := .calling batch 0, inferred := s.inferred ++ batch.frames }
    | _ => none
  | .detect m =>
    match s.worker with
    | .calling batch i =>
      match batch.frames[i]?, batch.tensors[i]? with
      | some f, some t =>
        let dets := P.detect (P.frame f) (P.network t) m
        some { s with worker := .offering batch i (.attempt (some (f, dets))) }
      | _, _ => none
    | _ => none
  | .offer =>
    match s.worker with
    | .offering batch i p =>
      some { s.putOutput p with
        worker := .offered batch i (p.step maxsize s.outputQueue).2 }
    | _ => none
  | .callbackRaises =>
    match s.worker with
    | .calling _ _ => some { s with worker := .getting }
    | _ => none
  | .callbackReturns =>
    match s.worker with
    | .calling batch i =>
      if batch.tensors.length ≤ i then some { s with worker := .getting } else none
    | _ => none
  | .close =>
    match s.worker with
    | .closing =>
      some { s with
        worker := .ended
        outputQueue := if s.outputQueue.length < maxsize then s.outputQueue ++ [none]
          else s.outputQueue }
    | _ => none
  | .join =>
    match s.main, s.producer, s.worker with
    | .joining, .ended, .ended => some { s with main := .offering (.attempt none) }
    | .joining, .failed, .ended => some { s with main := .offering (.attempt none) }
    | _, _, _ => none
  | .finalOffer =>
    match s.main with
    | .offering p =>
      some { s.putOutput p with main := .offered (p.step maxsize s.outputQueue).2 }
    | _ => none
  | .view =>
    match s.viewer, s.outputQueue with
    | .viewing, none :: rest => some { s with outputQueue := rest, viewer := .signalled }
    | .viewing, some x :: rest => some { s with outputQueue := rest, shown := s.shown ++ [x] }
    | _, _ => none
  | .quit =>
    -- without a camera there is no window to press a key in
    if P.source = .camera ∧ s.viewer = .viewing then some { s with viewer := .quit } else none

def pipeline : Transition (Pipeline Tensor Det) (Action Memory) := ⟨(· = .start), P.step⟩

/-- What a step does. -/
inductive Moves (s : Pipeline Tensor Det) : Action Memory → Pipeline Tensor Det → Prop
  | capture (hsource : P.source = .camera) (hproducer : s.producer = .reading) :
      Moves s .capture { s with
        captured := s.captured + 1
        frames := s.frames ++ [s.captured]
        tensors := s.tensors ++ [P.preprocess (P.frame s.captured)] }
  | captureLast (hsource : P.source = .camera) (hproducer : s.producer = .reading) :
      Moves s .capture { s with
        captured := s.captured + 1
        frames := []
        tensors := []
        producer := .putting (.attempt (some
          ⟨s.frames ++ [s.captured], s.tensors ++ [P.preprocess (P.frame s.captured)]⟩)) }
  | nextBatch {n k : ℕ} (hsource : P.source = .images n) (hproducer : s.producer = .reading)
      (hlt : s.captured < n) (hk : k = min P.batchSize (n - s.captured)) :
      Moves s .nextBatch { s with
        captured := s.captured + k
        producer := .putting (.attempt (some
          ⟨List.range' s.captured k, P.tensorsOf (List.range' s.captured k)⟩)) }
  | endOfStream (hproducer : s.producer = .reading) (hexhausted : P.exhausted s.captured) :
      Moves s .endOfStream { s with producer := .signalling (.attempt none) }
  | put {p : Put (Input Tensor)} (hproducer : s.producer = .putting p) :
      Moves s .put (s.putInput p .putting .reading)
  | signal {p : Put (Input Tensor)} (hproducer : s.producer = .signalling p) :
      Moves s .put (s.putInput p .signalling .ended)
  | getSignal {rest : List (Input Tensor)} (hworker : s.worker = .getting)
      (hqueue : s.inputQueue = none :: rest) :
      Moves s .getBatch { s with inputQueue := rest, worker := .closing }
  | getBatch {batch : Batch Tensor} {rest : List (Input Tensor)} (hworker : s.worker = .getting)
      (hqueue : s.inputQueue = some batch :: rest) :
      Moves s .getBatch { s with inputQueue := rest, worker := .running batch }
  | runFails {batch : Batch Tensor} (hworker : s.worker = .running batch) :
      Moves s .runFails { s with worker := .getting }
  | runs {batch : Batch Tensor} (hworker : s.worker = .running batch) :
      Moves s .runs { s with
        worker := .calling batch 0
        inferred := s.inferred ++ batch.frames }
  | detect {batch : Batch Tensor} {i f : ℕ} {t : Tensor} {m : Memory}
      (hworker : s.worker = .calling batch i) (hframe : batch.frames[i]? = some f)
      (htensor : batch.tensors[i]? = some t) :
      Moves s (.detect m) { s with
        worker := .offering batch i (.attempt (some (f, P.detect (P.frame f) (P.network t) m))) }
  | offer {batch : Batch Tensor} {i : ℕ} {p : Put (Item Det)}
      (hworker : s.worker = .offering batch i p) :
      Moves s .offer { s.putOutput p with
        worker := .offered batch i (p.step maxsize s.outputQueue).2 }
  | callbackRaises {batch : Batch Tensor} {i : ℕ} (hworker : s.worker = .calling batch i) :
      Moves s .callbackRaises { s with worker := .getting }
  | callbackReturns {batch : Batch Tensor} {i : ℕ} (hworker : s.worker = .calling batch i)
      (hend : batch.tensors.length ≤ i) :
      Moves s .callbackReturns { s with worker := .getting }
  | close (hworker : s.worker = .closing) :
      Moves s .close { s with
        worker := .ended
        outputQueue := if s.outputQueue.length < maxsize then s.outputQueue ++ [none]
          else s.outputQueue }
  | join (hmain : s.main = .joining) (hproducer : s.producer = .ended ∨ s.producer = .failed)
      (hworker : s.worker = .ended) :
      Moves s .join { s with main := .offering (.attempt none) }
  | finalOffer {p : Put (Item Det)} (hmain : s.main = .offering p) :
      Moves s .finalOffer { s.putOutput p with
        main := .offered (p.step maxsize s.outputQueue).2 }
  | viewSignal {rest : List (Item Det)} (hviewer : s.viewer = .viewing)
      (hqueue : s.outputQueue = none :: rest) :
      Moves s .view { s with outputQueue := rest, viewer := .signalled }
  | view {x : ℕ × Det} {rest : List (Item Det)} (hviewer : s.viewer = .viewing)
      (hqueue : s.outputQueue = some x :: rest) :
      Moves s .view { s with outputQueue := rest, shown := s.shown ++ [x] }
  | quit (hsource : P.source = .camera) (hviewer : s.viewer = .viewing) :
      Moves s .quit { s with viewer := .quit }

variable {P}

section Inversion

variable {s t : Pipeline Tensor Det}

theorem Moves.of_capture (h : P.step s .capture = some t) : P.Moves s .capture t := by
  rw [step] at h
  split at h
  · rename_i hsource hproducer
    dsimp only at h
    split at h <;> obtain rfl := Option.some.inj h
    · exact .captureLast hsource hproducer
    · exact .capture hsource hproducer
  · cases h

theorem Moves.of_nextBatch (h : P.step s .nextBatch = some t) : P.Moves s .nextBatch t := by
  rw [step] at h
  split at h
  · rename_i n hsource hproducer
    obtain ⟨hlt, rfl⟩ := Option.ite_some_none_eq_some.mp h
    exact .nextBatch hsource hproducer hlt rfl
  · cases h

theorem Moves.of_endOfStream (h : P.step s .endOfStream = some t) : P.Moves s .endOfStream t := by
  rw [step] at h
  split at h
  · rename_i hproducer
    obtain ⟨hexhausted, rfl⟩ := Option.ite_some_none_eq_some.mp h
    exact .endOfStream hproducer hexhausted
  · cases h

theorem Moves.of_put (h : P.step s .put = some t) : P.Moves s .put t := by
  rw [step] at h
  split at h
  · rename_i p hproducer
    obtain rfl := Option.some.inj h
    exact .put hproducer
  · rename_i p hproducer
    obtain rfl := Option.some.inj h
    exact .signal hproducer
  · cases h

theorem Moves.of_getBatch (h : P.step s .getBatch = some t) : P.Moves s .getBatch t := by
  rw [step] at h
  split at h
  · rename_i rest hworker hqueue
    obtain rfl := Option.some.inj h
    exact .getSignal hworker hqueue
  · rename_i batch rest hworker hqueue
    obtain rfl := Option.some.inj h
    exact .getBatch hworker hqueue
  · cases h

theorem Moves.of_runFails (h : P.step s .runFails = some t) : P.Moves s .runFails t := by
  rw [step] at h
  split at h
  · rename_i batch hworker
    obtain rfl := Option.some.inj h
    exact .runFails hworker
  · cases h

theorem Moves.of_runs (h : P.step s .runs = some t) : P.Moves s .runs t := by
  rw [step] at h
  split at h
  · rename_i batch hworker
    obtain rfl := Option.some.inj h
    exact .runs hworker
  · cases h

theorem Moves.of_detect {m : Memory} (h : P.step s (.detect m) = some t) :
    P.Moves s (.detect m) t := by
  rw [step] at h
  split at h
  · rename_i batch i hworker
    split at h
    · rename_i f t hframe htensor
      obtain rfl := Option.some.inj h
      exact .detect hworker hframe htensor
    · cases h
  · cases h

theorem Moves.of_offer (h : P.step s .offer = some t) : P.Moves s .offer t := by
  rw [step] at h
  split at h
  · rename_i batch i p hworker
    obtain rfl := Option.some.inj h
    exact .offer hworker
  · cases h

theorem Moves.of_callbackRaises (h : P.step s .callbackRaises = some t) :
    P.Moves s .callbackRaises t := by
  rw [step] at h
  split at h
  · rename_i batch i hworker
    obtain rfl := Option.some.inj h
    exact .callbackRaises hworker
  · cases h

theorem Moves.of_callbackReturns (h : P.step s .callbackReturns = some t) :
    P.Moves s .callbackReturns t := by
  rw [step] at h
  split at h
  · rename_i batch i hworker
    obtain ⟨hend, rfl⟩ := Option.ite_some_none_eq_some.mp h
    exact .callbackReturns hworker hend
  · cases h

theorem Moves.of_close (h : P.step s .close = some t) : P.Moves s .close t := by
  rw [step] at h
  split at h
  · rename_i hworker
    obtain rfl := Option.some.inj h
    exact .close hworker
  · cases h

theorem Moves.of_join (h : P.step s .join = some t) : P.Moves s .join t := by
  rw [step] at h
  split at h
  · rename_i hmain hproducer hworker
    obtain rfl := Option.some.inj h
    exact .join hmain (.inl hproducer) hworker
  · rename_i hmain hproducer hworker
    obtain rfl := Option.some.inj h
    exact .join hmain (.inr hproducer) hworker
  · cases h

theorem Moves.of_finalOffer (h : P.step s .finalOffer = some t) : P.Moves s .finalOffer t := by
  rw [step] at h
  split at h
  · rename_i p hmain
    obtain rfl := Option.some.inj h
    exact .finalOffer hmain
  · cases h

theorem Moves.of_view (h : P.step s .view = some t) : P.Moves s .view t := by
  rw [step] at h
  split at h
  · rename_i rest hviewer hqueue
    obtain rfl := Option.some.inj h
    exact .viewSignal hviewer hqueue
  · rename_i x rest hviewer hqueue
    obtain rfl := Option.some.inj h
    exact .view hviewer hqueue
  · cases h

theorem Moves.of_quit (h : P.step s .quit = some t) : P.Moves s .quit t := by
  obtain ⟨⟨hsource, hviewer⟩, rfl⟩ := Option.ite_some_none_eq_some.mp h
  exact .quit hsource hviewer

/-- **What a step can do.** -/
theorem moves_of_step {a : Action Memory} (h : P.step s a = some t) : P.Moves s a t := by
  cases a with
  | capture => exact .of_capture h
  | nextBatch => exact .of_nextBatch h
  | endOfStream => exact .of_endOfStream h
  | put => exact .of_put h
  | getBatch => exact .of_getBatch h
  | runFails => exact .of_runFails h
  | runs => exact .of_runs h
  | detect m => exact .of_detect h
  | offer => exact .of_offer h
  | callbackRaises => exact .of_callbackRaises h
  | callbackReturns => exact .of_callbackReturns h
  | close => exact .of_close h
  | join => exact .of_join h
  | finalOffer => exact .of_finalOffer h
  | view => exact .of_view h
  | quit => exact .of_quit h

end Inversion

/-! ### Nobody else puts -/

/-- The queues are as long as allowed, and each put in progress is alone at its queue. -/
structure Queued (s : Pipeline Tensor Det) : Prop where
  input : s.inputQueue.length ≤ maxsize
  output : s.outputQueue.length ≤ maxsize
  putting : ∀ p, s.producer = .putting p → p.Ready maxsize s.inputQueue
  signalling : ∀ p, s.producer = .signalling p → p.Ready maxsize s.inputQueue
  offering : ∀ b i p, s.worker = .offering b i p → p.Ready maxsize s.outputQueue
  finalOffer : ∀ p, s.main = .offering p → p.Ready maxsize s.outputQueue
  joined : s.main ≠ .joining → s.worker = .ended
  full : s.full = false

theorem queued_start : Queued (.start : Pipeline Tensor Det) where
  input := Nat.zero_le _
  output := Nat.zero_le _
  putting _ h := by cases h
  signalling _ h := by cases h
  offering _ _ _ h := by cases h
  finalOffer _ h := by cases h
  joined h := absurd rfl h
  full := rfl

section Put

variable {s : Pipeline Tensor Det}

/-- A step of a put into the input queue, by a producer that is alone. -/
theorem putInput_cases {p : Put (Input Tensor)} (hp : p.Ready maxsize s.inputQueue)
    (again : Put (Input Tensor) → Producer Tensor) (next : Producer Tensor) :
    ∃ producer, ((∃ p', (p.step maxsize s.inputQueue).2 = .more p' ∧ producer = again p' ∧
          p'.Ready maxsize (p.step maxsize s.inputQueue).1) ∨
        (p.step maxsize s.inputQueue).2 = .finished ∧ producer = next) ∧
      s.putInput p again next = { s with
        inputQueue := (p.step maxsize s.inputQueue).1
        droppedInput := s.droppedInput ++ (p.dropped s.inputQueue).flatMap Batch.framesOf
        producer := producer } := by
  rcases hp.cases (by decide) with ⟨p', hmore, hready⟩ | hfinished
  · refine ⟨again p', .inl ⟨p', hmore, rfl, hready⟩, ?_⟩
    rw [Pipeline.putInput, hmore, Bool.or_false]
  · refine ⟨next, .inr ⟨hfinished, rfl⟩, ?_⟩
    rw [Pipeline.putInput, hfinished, Bool.or_false]

theorem putOutput_eq {p : Put (Item Det)} (hp : p.Ready maxsize s.outputQueue) :
    s.putOutput p = { s with
      outputQueue := (p.step maxsize s.outputQueue).1
      droppedOutput := s.droppedOutput ++ (p.dropped s.outputQueue).flatMap itemFrames } := by
  rcases hp.cases (by decide) with ⟨p', hmore, -⟩ | hfinished
  · rw [Pipeline.putOutput, hmore, Bool.or_false]
  · rw [Pipeline.putOutput, hfinished, Bool.or_false]

end Put

/-- Who goes on offering an item has not finished with it. -/
theorem Worker.eq_more_of_offered {batch b : Batch Tensor} {i j : ℕ} {rest : Rest (Item Det)}
    {p : Put (Item Det)} (h : Worker.offered batch i rest = .offering b j p) : rest = .more p := by
  cases rest with
  | more p' =>
    cases h
    rfl
  | _ => cases h

theorem Main.eq_more_of_offered {rest : Rest (Item Det)} {p : Put (Item Det)}
    (h : Main.offered rest = .offering p) : rest = .more p := by
  cases rest with
  | more p' =>
    cases h
    rfl
  | _ => cases h

/-- The main thread waits until the worker has ended. -/
theorem Queued.main_eq {s : Pipeline Tensor Det} (hs : Queued s) (h : s.worker ≠ .ended) :
    s.main = .joining := by
  by_contra hmain
  exact h (hs.joined hmain)

section Steps

variable {s t : Pipeline Tensor Det}

/-- The main thread is not offering while the worker is running. -/
theorem Queued.main_ne_offering (hs : Queued s) (h : s.worker ≠ .ended) (p : Put (Item Det)) :
    s.main ≠ .offering p := by
  rw [hs.main_eq h]
  nofun

theorem Queued.put (hs : Queued s) {p : Put (Input Tensor)} (hproducer : s.producer = .putting p) :
    Queued (s.putInput p .putting .reading) := by
  have hready := hs.putting p hproducer
  obtain ⟨producer, hnext, ht⟩ := putInput_cases hready .putting .reading
  rw [ht]
  refine ⟨hready.length_step, hs.output, ?_, ?_, hs.offering, hs.finalOffer, hs.joined, hs.full⟩
  · rintro p' rfl
    rcases hnext with ⟨_, -, heq, hready'⟩ | ⟨-, heq⟩ <;> cases heq
    exact hready'
  · rintro p' rfl
    rcases hnext with ⟨_, -, heq, -⟩ | ⟨-, heq⟩ <;> cases heq

theorem Queued.signal (hs : Queued s) {p : Put (Input Tensor)}
    (hproducer : s.producer = .signalling p) : Queued (s.putInput p .signalling .ended) := by
  have hready := hs.signalling p hproducer
  obtain ⟨producer, hnext, ht⟩ := putInput_cases hready .signalling .ended
  rw [ht]
  refine ⟨hready.length_step, hs.output, ?_, ?_, hs.offering, hs.finalOffer, hs.joined, hs.full⟩
  · rintro p' rfl
    rcases hnext with ⟨_, -, heq, -⟩ | ⟨-, heq⟩ <;> cases heq
  · rintro p' rfl
    rcases hnext with ⟨_, -, heq, hready'⟩ | ⟨-, heq⟩ <;> cases heq
    exact hready'

/-- The worker takes an element, which leaves more room to the producer. -/
theorem Queued.get (hs : Queued s) (hworker : s.worker = .getting) {x : Input Tensor}
    {rest : List (Input Tensor)} (hqueue : s.inputQueue = x :: rest) {w : Worker Tensor Det}
    (hw : ∀ b i p, w ≠ .offering b i p) : Queued { s with inputQueue := rest, worker := w } := by
  have hputting := fun p hp => (hs.putting p hp).tail
  have hsignalling := fun p hp => (hs.signalling p hp).tail
  have hinput := hs.input
  rw [hqueue] at hinput hputting hsignalling
  exact ⟨Nat.le_of_succ_le hinput, hs.output, hputting, hsignalling,
    fun b i p h => absurd h (hw b i p), hs.finalOffer,
    fun h => absurd (hs.main_eq (by simp [hworker])) h, hs.full⟩

/-- The worker goes on, without an item to put. -/
theorem Queued.work (hs : Queued s) (hworker : s.worker ≠ .ended) {w : Worker Tensor Det}
    (hw : ∀ b i p, w ≠ .offering b i p) (inferred : List ℕ) :
    Queued { s with worker := w, inferred := inferred } :=
  ⟨hs.input, hs.output, hs.putting, hs.signalling, fun b i p h => absurd h (hw b i p),
    hs.finalOffer, fun h => absurd (hs.main_eq hworker) h, hs.full⟩

theorem Queued.offer (hs : Queued s) {batch : Batch Tensor} {i : ℕ} {p : Put (Item Det)}
    (hworker : s.worker = .offering batch i p) : Queued { s.putOutput p with
      worker := .offered batch i (p.step maxsize s.outputQueue).2 } := by
  have hready := hs.offering batch i p hworker
  have hrunning : s.worker ≠ .ended := by simp [hworker]
  rw [putOutput_eq hready]
  refine ⟨hs.input, hready.length_step, hs.putting, hs.signalling, ?_, ?_,
    fun h => absurd (hs.main_eq hrunning) h, hs.full⟩
  · intro b j p' hp'
    exact hready.step (by decide) (Worker.eq_more_of_offered hp')
  · exact fun p' hp' => absurd hp' (hs.main_ne_offering hrunning p')

/-- The worker's last step, with the sentinel if there is room for it. -/
theorem Queued.close (hs : Queued s) (hworker : s.worker = .closing) : Queued { s with
    worker := .ended
    outputQueue := if s.outputQueue.length < maxsize then s.outputQueue ++ [none]
      else s.outputQueue } := by
  have hrunning : s.worker ≠ .ended := by simp [hworker]
  refine ⟨hs.input, ?_, hs.putting, hs.signalling, (fun _ _ _ h => by cases h),
    fun p' hp' => absurd hp' (hs.main_ne_offering hrunning p'),
    fun h => absurd (hs.main_eq hrunning) h, hs.full⟩
  dsimp only
  split
  · rename_i hroom
    rw [List.length_append]
    exact hroom
  · exact hs.output

/-- The main thread puts after the worker has ended. -/
theorem Queued.final (hs : Queued s) {p : Put (Item Det)} (hmain : s.main = .offering p) :
    Queued { s.putOutput p with main := .offered (p.step maxsize s.outputQueue).2 } := by
  have hready := hs.finalOffer p hmain
  have hended := hs.joined (by simp [hmain])
  rw [putOutput_eq hready]
  refine ⟨hs.input, hready.length_step, hs.putting, hs.signalling, ?_, ?_, fun _ => hended,
    hs.full⟩
  · intro b i p' hp'
    rw [show s.worker = .offering b i p' from hp'] at hended
    cases hended
  · exact fun p' hp' => hready.step (by decide) (Main.eq_more_of_offered hp')

/-- The viewer takes an element, which leaves more room to who puts. -/
theorem Queued.view (hs : Queued s) {x : Item Det} {rest : List (Item Det)}
    (hqueue : s.outputQueue = x :: rest) (viewer : Viewer) (shown : List (ℕ × Det)) :
    Queued { s with outputQueue := rest, viewer := viewer, shown := shown } := by
  have hoffering := fun b i p hp => (hs.offering b i p hp).tail
  have hfinal := fun p hp => (hs.finalOffer p hp).tail
  have houtput := hs.output
  rw [hqueue] at houtput hoffering hfinal
  exact ⟨hs.input, Nat.le_of_succ_le houtput, hs.putting, hs.signalling, hoffering, hfinal,
    hs.joined, hs.full⟩

/-- **The queues stay as long as allowed**, and each put stays alone at its queue. -/
theorem Queued.moves {a : Action Memory} (hs : Queued s) (h : P.Moves s a t) : Queued t := by
  cases h with
  | capture hsource hproducer =>
    exact ⟨hs.input, hs.output, hs.putting, hs.signalling, hs.offering, hs.finalOffer, hs.joined,
      hs.full⟩
  | captureLast hsource hproducer | nextBatch hsource hproducer hlt hk =>
    refine ⟨hs.input, hs.output, ?_, (fun p hp => by cases hp), hs.offering, hs.finalOffer,
      hs.joined, hs.full⟩
    rintro _ ⟨⟩
    exact Put.ready_attempt hs.input _
  | endOfStream hproducer hexhausted =>
    refine ⟨hs.input, hs.output, (fun p hp => by cases hp), ?_, hs.offering, hs.finalOffer,
      hs.joined, hs.full⟩
    rintro _ ⟨⟩
    exact Put.ready_attempt hs.input _
  | put hproducer => exact hs.put hproducer
  | signal hproducer => exact hs.signal hproducer
  | getSignal hworker hqueue | getBatch hworker hqueue =>
    exact hs.get hworker hqueue fun _ _ _ h => by cases h
  | runFails hworker | runs hworker | callbackRaises hworker | callbackReturns hworker hend =>
    exact hs.work (by simp [hworker]) (fun _ _ _ h => by cases h) _
  | detect hworker hframe htensor =>
    refine ⟨hs.input, hs.output, hs.putting, hs.signalling, ?_, hs.finalOffer,
      fun h => absurd (hs.main_eq (by simp [hworker])) h, hs.full⟩
    rintro _ _ _ ⟨⟩
    exact Put.ready_attempt hs.output _
  | offer hworker => exact hs.offer hworker
  | close hworker => exact hs.close hworker
  | join hmain hproducer hworker =>
    refine ⟨hs.input, hs.output, hs.putting, hs.signalling, hs.offering, ?_, fun _ => hworker,
      hs.full⟩
    rintro _ ⟨⟩
    exact Put.ready_attempt hs.output _
  | finalOffer hmain => exact hs.final hmain
  | viewSignal hviewer hqueue | view hviewer hqueue => exact hs.view hqueue _ _
  | quit hsource hviewer =>
    exact ⟨hs.input, hs.output, hs.putting, hs.signalling, hs.offering, hs.finalOffer, hs.joined,
      hs.full⟩

end Steps

theorem queued_of_reachable {s : Pipeline Tensor Det} (hs : P.pipeline.Reachable s) : Queued s := by
  refine hs.invariant Queued ?_ fun s a t hqueued _ ht => hqueued.moves (moves_of_step ht)
  rintro s rfl
  exact queued_start

end Program

end Step

end Inference

end DroneTurret
