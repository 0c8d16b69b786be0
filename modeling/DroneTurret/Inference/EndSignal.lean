import DroneTurret.Inference.Ordering

/-!
# The end of a run over images

The end signals are the last elements of their queues, and nothing is left in the input queue once
the worker has got one. With images to read, a run has only so many steps, and as long as a thread
has not ended some thread can go on.

## Main definitions

* `InputEnd`, `OutputEnd` — what is known of the end signals in the two queues
* `Pipeline.work` — what is still to be done
* `Final` — all threads have ended

## Main results

* `Moves.work_lt` — each step leaves less to be done
* `Program.final_of_stuck` — a run ends only in a final state
-/

namespace DroneTurret

namespace Inference

open DropOldest Transition

section EndSignal

variable {Image Tensor Output Memory Det : Type*}

/-- The worker has got the end signal. -/
def Worker.Closed : Worker Tensor Det → Prop
  | .closing => True
  | .ended => True
  | _ => False

/-- The end signal in the input queue. -/
structure InputEnd (s : Pipeline Tensor Det) : Prop where
  failed : s.producer ≠ .failed
  batch : ∀ p, s.producer = .putting p → p.item ≠ none
  waiting : s.producer = .ended → none ∈ s.inputQueue ∨ s.worker.Closed
  ended : none ∈ s.inputQueue → s.producer = .ended
  last : s.inputQueue.Pairwise fun x _ => x ≠ none
  closed : s.worker.Closed → s.inputQueue = [] ∧ s.producer = .ended

/-- The end signals in the output queue. -/
structure OutputEnd (s : Pipeline Tensor Det) : Prop where
  frame : ∀ b i p, s.worker = .offering b i p → p.item ≠ none
  ended : none ∈ s.outputQueue → s.worker = .ended
  viewer : s.viewer = .signalled → s.worker = .ended ∧ ∀ x ∈ s.outputQueue, x = none
  last : s.outputQueue.Pairwise fun x y => x = none → y = none

open Program

variable {P : Program Image Tensor Output Memory Det} {s t : Pipeline Tensor Det}
  {a : Action Memory}

theorem inputEnd_start : InputEnd (.start : Pipeline Tensor Det) where
  failed h := by cases h
  batch _ h := by cases h
  waiting h := by cases h
  ended h := by cases h
  last := .nil
  closed h := by cases h

/-- Before the producer has ended there is no end signal. -/
theorem InputEnd.open (hs : InputEnd s) (hproducer : s.producer ≠ .ended) :
    none ∉ s.inputQueue ∧ ¬s.worker.Closed :=
  ⟨fun hmem => hproducer (hs.ended hmem), fun hclosed => hproducer (hs.closed hclosed).2⟩

/-- A step on the other side of the worker. -/
theorem InputEnd.congr (hs : InputEnd s) (hqueue : t.inputQueue = s.inputQueue)
    (hproducer : t.producer = s.producer) (hworker : t.worker.Closed ↔ s.worker.Closed) :
    InputEnd t := by
  obtain ⟨hfailed, hbatch, hwaiting, hended, hlast, hclosed⟩ := hs
  rw [← hqueue, ← hproducer, ← hworker] at hwaiting hclosed
  rw [← hqueue, ← hproducer] at hended
  rw [← hqueue] at hlast
  rw [← hproducer] at hfailed hbatch
  exact ⟨hfailed, hbatch, hwaiting, hended, hlast, hclosed⟩

/-- A step of a producer that has not ended and does not end. -/
theorem InputEnd.of_producer (hs : InputEnd s) (hproducer : s.producer ≠ .ended)
    (hqueue : none ∉ t.inputQueue) (hworker : t.worker = s.worker) (hfailed : t.producer ≠ .failed)
    (hbatch : ∀ p, t.producer = .putting p → p.item ≠ none) (hended : t.producer ≠ .ended) :
    InputEnd t where
  failed := hfailed
  batch := hbatch
  waiting h := absurd h hended
  ended h := absurd h hqueue
  last := List.pairwise_of_forall_mem_list fun _ hx _ _ h => hqueue (h ▸ hx)
  closed h := absurd (hworker ▸ h) (hs.open hproducer).2

/-- A put of a batch is not one of the signal. -/
theorem InputEnd.put (hq : Queued s) (hs : InputEnd s) {p : Put (Input Tensor)}
    (hproducer : s.producer = .putting p) : InputEnd (s.putInput p .putting .reading) := by
  have hne : s.producer ≠ .ended := by simp [hproducer]
  have hitem := hs.batch p hproducer
  obtain ⟨producer, hnext, ht⟩ := putInput_cases (hq.putting p hproducer) .putting .reading
  rw [ht]
  refine hs.of_producer hne ?_ rfl ?_ ?_ ?_
  · intro hmem
    rcases Put.mem_of_mem_step hmem with hmem | hmem
    · exact (hs.open hne).1 hmem
    · exact hitem hmem.symm
  · rcases hnext with ⟨p', -, rfl, -⟩ | ⟨-, rfl⟩ <;> exact fun h => by cases h
  · rintro p' rfl
    rcases hnext with ⟨_, hmore, heq, -⟩ | ⟨-, heq⟩ <;> cases heq
    rw [Put.item_of_more hmore]
    exact hitem
  · rcases hnext with ⟨p', -, rfl, -⟩ | ⟨-, rfl⟩ <;> exact fun h => by cases h

theorem InputEnd.signal (hq : Queued s) (hf : P.Faithful s) (hs : InputEnd s)
    {p : Put (Input Tensor)} (hproducer : s.producer = .signalling p) :
    InputEnd (s.putInput p .signalling .ended) := by
  have hne : s.producer ≠ .ended := by simp [hproducer]
  obtain ⟨hnone, hworker⟩ := hs.open hne
  have hready := hq.signalling p hproducer
  obtain ⟨producer, hnext, ht⟩ := putInput_cases hready .signalling .ended
  rw [ht]
  rcases hnext with ⟨p', hmore, rfl, -⟩ | ⟨hfinished, rfl⟩
  · refine hs.of_producer hne ?_ rfl (fun h => by cases h) ?_ fun h => by cases h
    · rcases Put.step_of_more hmore with hqueue | hqueue
      · rw [hqueue]
        exact hnone
      · rw [hqueue]
        exact fun hmem => hnone (List.mem_of_mem_tail hmem)
    · rintro _ ⟨⟩
  · -- the queue holds batches and then the signal
    have hqueue := Put.step_of_finished hfinished
    rw [hf.signalling p hproducer] at hqueue
    rw [hqueue]
    refine ⟨(fun h => by cases h), (fun _ h => by cases h), fun _ => .inl ?_, fun _ => rfl, ?_,
      fun h => absurd h hworker⟩
    · exact List.mem_append_right _ (List.mem_singleton_self _)
    · refine List.pairwise_append.mpr ⟨hs.last, List.pairwise_singleton _ _, ?_⟩
      exact fun x hx _ _ h => hnone (h ▸ hx)

/-- The signal is the last element that the worker takes. -/
theorem InputEnd.getSignal (hs : InputEnd s) {rest : List (Input Tensor)}
    (hqueue : s.inputQueue = none :: rest) :
    InputEnd { s with inputQueue := rest, worker := .closing } := by
  have hended := hs.ended (hqueue ▸ List.mem_cons_self)
  have hlast := hs.last
  rw [hqueue, List.pairwise_cons] at hlast
  have hrest : rest = [] := List.eq_nil_iff_forall_not_mem.mpr fun x hx => hlast.1 x hx rfl
  exact { hs with
    waiting := fun _ => .inr trivial
    ended := fun _ => hended
    last := hlast.2
    closed := fun _ => ⟨hrest, hended⟩ }

theorem InputEnd.getBatch (hs : InputEnd s) {batch : Batch Tensor} {rest : List (Input Tensor)}
    (hworker : s.worker = .getting) (hqueue : s.inputQueue = some batch :: rest) :
    InputEnd { s with inputQueue := rest, worker := .running batch } := by
  have hlast := hs.last
  rw [hqueue, List.pairwise_cons] at hlast
  refine { hs with
    waiting := fun hended => .inl ?_
    ended := fun hmem => hs.ended (hqueue ▸ List.mem_cons_of_mem _ hmem)
    last := hlast.2
    closed := fun h => absurd h id }
  rcases hs.waiting hended with hmem | hclosed
  · rw [hqueue] at hmem
    exact List.mem_of_ne_of_mem (fun h => by cases h) hmem
  · rw [hworker] at hclosed
    exact absurd hclosed id

theorem InputEnd.moves (hq : Queued s) (hf : P.Faithful s) (hs : InputEnd s)
    (h : P.Moves s a t) : InputEnd t := by
  cases h with
  | capture hsource hproducer => exact hs.congr rfl rfl Iff.rfl
  | captureLast hsource hproducer | nextBatch hsource hproducer hlt hk =>
    have hne : s.producer ≠ .ended := by simp [hproducer]
    refine hs.of_producer hne (hs.open hne).1 rfl (fun h => by cases h) ?_ fun h => by cases h
    rintro _ ⟨⟩
    exact Option.some_ne_none _
  | endOfStream hproducer hexhausted =>
    have hne : s.producer ≠ .ended := by simp [hproducer]
    refine hs.of_producer hne (hs.open hne).1 rfl (fun h => by cases h) ?_ fun h => by cases h
    rintro _ ⟨⟩
  | put hproducer => exact hs.put hq hproducer
  | signal hproducer => exact hs.signal hq hf hproducer
  | getSignal hworker hqueue => exact hs.getSignal hqueue
  | getBatch hworker hqueue => exact hs.getBatch hworker hqueue
  | runFails hworker | runs hworker | detect hworker hframe htensor | callbackRaises hworker
  | callbackReturns hworker hend | close hworker =>
    exact hs.congr rfl rfl (by rw [hworker]; rfl)
  | @offer batch i p hworker =>
    rw [putOutput_eq (hq.offering batch i p hworker)]
    refine hs.congr rfl rfl ?_
    rw [hworker]
    cases (p.step maxsize s.outputQueue).2 <;> rfl
  | join | finalOffer | viewSignal | view | quit => exact hs.congr rfl rfl Iff.rfl

theorem outputEnd_start : OutputEnd (.start : Pipeline Tensor Det) where
  frame _ _ _ h := by cases h
  ended h := by cases h
  viewer h := by cases h
  last := .nil

/-- Before the worker has ended there is no end signal. -/
theorem OutputEnd.open (hs : OutputEnd s) (hworker : s.worker ≠ .ended) :
    none ∉ s.outputQueue ∧ s.viewer ≠ .signalled :=
  ⟨fun hmem => hworker (hs.ended hmem), fun hviewer => hworker (hs.viewer hviewer).1⟩

/-- A step of a worker that has not ended and does not end. -/
theorem OutputEnd.of_worker (hs : OutputEnd s) (hworker : s.worker ≠ .ended)
    (hqueue : none ∉ t.outputQueue) (hviewer : t.viewer = s.viewer)
    (hframe : ∀ b i p, t.worker = .offering b i p → p.item ≠ none) : OutputEnd t where
  frame := hframe
  ended h := absurd h hqueue
  viewer h := absurd (hviewer ▸ h) (hs.open hworker).2
  last := List.pairwise_of_forall_mem_list fun _ hx _ _ h => absurd (h ▸ hx) hqueue

theorem OutputEnd.moves (hq : Queued s) (hf : P.Faithful s) (hs : OutputEnd s)
    (h : P.Moves s a t) : OutputEnd t := by
  cases h with
  | capture | captureLast | nextBatch | endOfStream | put | signal | join => exact { hs with }
  | getSignal hworker hqueue | getBatch hworker hqueue | runFails hworker | runs hworker
  | callbackRaises hworker | callbackReturns hworker hend =>
    have hne : s.worker ≠ .ended := by simp [hworker]
    exact hs.of_worker hne (hs.open hne).1 rfl fun _ _ _ h => by cases h
  | detect hworker hframe htensor =>
    have hne : s.worker ≠ .ended := by simp [hworker]
    refine hs.of_worker hne (hs.open hne).1 rfl ?_
    rintro _ _ _ ⟨⟩
    exact Option.some_ne_none _
  | @offer batch i p hworker =>
    have hne : s.worker ≠ .ended := by simp [hworker]
    have hitem := hs.frame batch i p hworker
    rw [putOutput_eq (hq.offering batch i p hworker)]
    refine hs.of_worker hne ?_ rfl ?_
    · intro hmem
      rcases Put.mem_of_mem_step hmem with hmem | hmem
      · exact (hs.open hne).1 hmem
      · exact hitem hmem.symm
    · intro b j p' hp'
      rcases (hq.offering batch i p hworker).cases (by decide) with ⟨q, hmore, -⟩ | hfinished
      · rw [hmore] at hp'
        cases hp'
        rw [Put.item_of_more hmore]
        exact hitem
      · rw [hfinished] at hp'
        cases hp'
  | close hworker =>
    have hne : s.worker ≠ .ended := by simp [hworker]
    obtain ⟨hnone, hviewer⟩ := hs.open hne
    refine ⟨(fun _ _ _ h => by cases h), fun _ => rfl, fun h => absurd h hviewer, ?_⟩
    dsimp only
    split
    · refine List.pairwise_append.mpr ⟨hs.last, List.pairwise_singleton _ _, ?_⟩
      exact fun _ _ y hy _ => List.mem_singleton.mp hy
    · exact hs.last
  | @finalOffer p hmain =>
    have hready := hq.finalOffer p hmain
    have hended := hq.joined (by simp [hmain])
    rw [putOutput_eq hready]
    have hmem : ∀ x ∈ (p.step maxsize s.outputQueue).1, x ∈ s.outputQueue ∨ x = none :=
      fun x hx => (Put.mem_of_mem_step hx).imp_right (·.trans (hf.final p hmain))
    refine { hs with
      ended := fun _ => hended
      viewer := fun h => ⟨hended, fun x hx => (hmem x hx).elim ((hs.viewer h).2 x) id⟩
      last := ?_ }
    dsimp only
    rcases hready.cases (by decide) with ⟨p', hmore, -⟩ | hfinished
    · rcases Put.step_of_more hmore with hqueue | hqueue
      · rw [hqueue]
        exact hs.last
      · rw [hqueue]
        exact hs.last.tail
    · rw [Put.step_of_finished hfinished, hf.final p hmain]
      refine List.pairwise_append.mpr ⟨hs.last, List.pairwise_singleton _ _, ?_⟩
      exact fun _ _ y hy _ => List.mem_singleton.mp hy
  | viewSignal hviewer hqueue =>
    have hlast := hs.last
    rw [hqueue, List.pairwise_cons] at hlast
    have hended := hs.ended (hqueue ▸ List.mem_cons_self)
    exact { hs with
      ended := fun _ => hended
      viewer := fun _ => ⟨hended, fun x hx => hlast.1 x hx rfl⟩
      last := hlast.2 }
  | view hviewer hqueue =>
    have hlast := hs.last
    rw [hqueue, List.pairwise_cons] at hlast
    exact { hs with
      ended := fun hmem => hs.ended (hqueue ▸ List.mem_cons_of_mem _ hmem)
      viewer := fun h => by rw [hviewer] at h; cases h
      last := hlast.2 }
  | quit hsource hviewer => exact { hs with viewer := fun h => by cases h }

end EndSignal

section Work

variable {Image Tensor Output Memory Det : Type*}

/-- The steps that an element of the input queue takes at most, until all its frames are shown. -/
def inputWork : Input Tensor → ℕ
  | some b => 5 * b.frames.length + 3
  | none => 3

def Producer.work : Producer Tensor → ℕ
  | .reading => 7
  | .putting p => 7 + p.steps + inputWork p.item
  | .signalling p => p.steps + inputWork p.item
  | _ => 0

def Worker.work : Worker Tensor Det → ℕ
  | .running b => 5 * b.frames.length + 2
  | .calling b i => 5 * (b.frames.length - i) + 1
  | .offering b i p => p.steps + 5 * (b.frames.length - (i + 1)) + 2
  | .closing => 2
  | _ => 0

def Main.work : Main Det → ℕ
  | .joining => 5
  | .offering p => p.steps + 1
  | .ended => 0

/-- The steps that a run over `n` images takes at most. -/
def Pipeline.work (n : ℕ) (s : Pipeline Tensor Det) : ℕ :=
  12 * (n - s.captured) + s.producer.work + (s.inputQueue.map inputWork).sum + s.worker.work +
    s.outputQueue.length + s.main.work

open Program

variable {P : Program Image Tensor Output Memory Det} {s t : Pipeline Tensor Det}
  {a : Action Memory}

/-- A step of a put into the input queue. -/
theorem work_putInput_lt {n c : ℕ} {p : Put (Input Tensor)}
    {again : Put (Input Tensor) → Producer Tensor} {next : Producer Tensor}
    (hready : p.Ready maxsize s.inputQueue)
    (hproducer : s.producer.work = c + p.steps + inputWork p.item)
    (hagain : ∀ p', (again p').work = c + p'.steps + inputWork p'.item) (hnext : next.work = c) :
    (s.putInput p again next).work n < s.work n := by
  obtain ⟨producer, hcases, ht⟩ := putInput_cases hready again next
  rw [ht]
  simp only [Pipeline.work, hproducer]
  rcases hready.progress (by decide) inputWork with ⟨p', hmore, hlt⟩ | ⟨hfinished, hlt⟩
  · obtain rfl : producer = again p' := by
      rcases hcases with ⟨q, hmore', rfl, -⟩ | ⟨hfinished, -⟩
      · rw [Rest.more.inj (hmore.symm.trans hmore')]
      · cases hmore.symm.trans hfinished
    rw [hagain]
    omega
  · obtain rfl : producer = next := by
      rcases hcases with ⟨q, hmore, -⟩ | ⟨-, rfl⟩
      · cases hmore.symm.trans hfinished
      · rfl
    rw [hnext]
    omega

/-- A step of a put into the output queue. -/
theorem output_progress {p : Put (Item Det)} (hready : p.Ready maxsize s.outputQueue) :
    (∃ p', (p.step maxsize s.outputQueue).2 = .more p' ∧
        (p.step maxsize s.outputQueue).1.length + p'.steps < s.outputQueue.length + p.steps) ∨
      (p.step maxsize s.outputQueue).2 = .finished ∧
        (p.step maxsize s.outputQueue).1.length < s.outputQueue.length + p.steps + 1 := by
  have hprogress := hready.progress (by decide) fun _ => 1
  simp only [List.map_const', List.sum_replicate_nat, Nat.mul_one] at hprogress
  rcases hprogress with ⟨p', hmore, hlt⟩ | hfinished
  · exact .inl ⟨p', hmore, by omega⟩
  · exact .inr hfinished

/-- **Each step leaves less to be done.** -/
theorem Moves.work_lt {n : ℕ} (hsource : P.source = .images n) (hq : Queued s)
    (h : P.Moves s a t) : t.work n < s.work n := by
  cases h with
  | capture hcamera | captureLast hcamera | quit hcamera =>
    rw [hsource] at hcamera
    cases hcamera
  | @nextBatch m k himages hproducer hlt hk =>
    rw [hsource] at himages
    obtain rfl := Source.images.inj himages
    have hpos := P.batchSize_pos
    simp only [Pipeline.work, hproducer, Producer.work, Put.steps, Put.item, inputWork,
      List.length_range']
    omega
  | endOfStream hproducer hexhausted =>
    simp only [Pipeline.work, hproducer, Producer.work, Put.steps, Put.item, inputWork]
    omega
  | @put p hproducer =>
    refine work_putInput_lt (hq.putting p hproducer) ?_ (fun _ => rfl) rfl
    rw [hproducer]
    rfl
  | @signal p hproducer =>
    refine work_putInput_lt (c := 0) (hq.signalling p hproducer) ?_ (fun p' => ?_) rfl
    · rw [hproducer, Producer.work, Nat.zero_add]
    · rw [Producer.work, Nat.zero_add]
  | getSignal hworker hqueue | getBatch hworker hqueue =>
    simp only [Pipeline.work, hworker, hqueue, Worker.work, List.map_cons, List.sum_cons,
      inputWork]
    omega
  | runFails hworker | runs hworker | callbackRaises hworker | callbackReturns hworker =>
    simp only [Pipeline.work, hworker, Worker.work]
    omega
  | @detect batch i f t m hworker hframe htensor =>
    obtain ⟨hi, -⟩ := List.getElem?_eq_some_iff.mp hframe
    simp only [Pipeline.work, hworker, Worker.work, Put.steps]
    omega
  | @offer batch i p hworker =>
    have hready := hq.offering batch i p hworker
    rw [putOutput_eq hready]
    rcases output_progress hready with ⟨p', hmore, hlt⟩ | ⟨hfinished, hlt⟩
    · simp only [Pipeline.work, hworker, hmore, Worker.offered, Worker.work]
      omega
    · simp only [Pipeline.work, hworker, hfinished, Worker.offered, Worker.work]
      omega
  | close hworker =>
    simp only [Pipeline.work, hworker, Worker.work]
    split
    · rw [List.length_append, List.length_singleton]
      omega
    · omega
  | join hmain hproducer hworker =>
    simp only [Pipeline.work, hmain, Main.work, Put.steps]
    omega
  | @finalOffer p hmain =>
    have hready := hq.finalOffer p hmain
    rw [putOutput_eq hready]
    rcases output_progress hready with ⟨p', hmore, hlt⟩ | ⟨hfinished, hlt⟩
    · simp only [Pipeline.work, hmain, hmore, Main.offered, Main.work]
      omega
    · simp only [Pipeline.work, hmain, hfinished, Main.offered, Main.work]
      omega
  | viewSignal hviewer hqueue | view hviewer hqueue =>
    simp only [Pipeline.work, hqueue, List.length_cons]
    omega

end Work

/-- All threads have ended. -/
structure Final {Tensor Det : Type*} (s : Pipeline Tensor Det) : Prop where
  producer : s.producer = .ended
  worker : s.worker = .ended
  main : s.main = .ended
  viewer : s.viewer = .signalled

namespace Program

section Progress

variable {Image Tensor Output Memory Det : Type*} (P : Program Image Tensor Output Memory Det)

/-- No thread can go on, but for failures. -/
def Stuck (s : Pipeline Tensor Det) : Prop := ∀ a : Action Memory, ¬Fails a → P.step s a = none

variable {P} {s : Pipeline Tensor Det} {n : ℕ}

theorem inputEnd_of_reachable (hs : P.pipeline.Reachable s) : InputEnd s :=
  invariant_of_moves InputEnd inputEnd_start
    (fun _ _ _ hqueued hfaithful _ hend h => hend.moves hqueued hfaithful h) hs

theorem outputEnd_of_reachable (hs : P.pipeline.Reachable s) : OutputEnd s :=
  invariant_of_moves OutputEnd outputEnd_start
    (fun _ _ _ hqueued hfaithful _ hend h => hend.moves hqueued hfaithful h) hs

/-- Without a window there is no key to press. -/
theorem viewer_ne_quit (hsource : P.source = .images n) (hs : P.pipeline.Reachable s) :
    s.viewer ≠ .quit := by
  refine invariant_of_moves (fun s => s.viewer ≠ .quit) Viewer.noConfusion ?_ hs
  intro s a t _ _ _ hviewer h
  cases h with
  | viewSignal => exact Viewer.noConfusion
  | quit hcamera =>
    rw [hsource] at hcamera
    cases hcamera
  | _ => exact hviewer

theorem producer_of_stuck (hsource : P.source = .images n) (hs : InputEnd s)
    (hstuck : P.Stuck s) : s.producer = .ended := by
  cases hproducer : s.producer with
  | reading =>
    by_cases hlt : s.captured < n
    · have h := hstuck .nextBatch id
      simp [step, hsource, hproducer, hlt] at h
    · have h := hstuck .endOfStream id
      simp [step, exhausted, hsource, hproducer, hlt] at h
  | putting p =>
    have h := hstuck .put id
    simp [step, hproducer] at h
  | signalling p =>
    have h := hstuck .put id
    simp [step, hproducer] at h
  | ended => rfl
  | failed => exact absurd hproducer hs.failed

theorem worker_of_stuck [Inhabited Memory] (hs : InputEnd s) (hf : P.Faithful s)
    (hstuck : P.Stuck s) (hproducer : s.producer = .ended) : s.worker = .ended := by
  cases hworker : s.worker with
  | getting =>
    have h := hstuck .getBatch id
    rcases hs.waiting hproducer with hmem | hclosed
    · cases hqueue : s.inputQueue with
      | nil =>
        rw [hqueue] at hmem
        cases hmem
      | cons x rest => cases x <;> simp [step, hworker, hqueue] at h
    · rw [hworker] at hclosed
      exact absurd hclosed id
  | running batch =>
    have h := hstuck .runs id
    simp [step, hworker] at h
  | calling batch i =>
    have hlength : batch.tensors.length = batch.frames.length := by
      rw [hf.calling batch i hworker, tensorsOf, List.length_map]
    by_cases hi : i < batch.frames.length
    · have h := hstuck (.detect default) id
      simp [step, hworker, hi, hlength] at h
    · have h : i < batch.frames.length := by
        simpa [step, hworker, hlength] using hstuck .callbackReturns id
      exact absurd h hi
  | offering batch i p =>
    have h := hstuck .offer id
    simp [step, hworker] at h
  | closing =>
    have h := hstuck .close id
    simp [step, hworker] at h
  | ended => rfl

/-- **A run ends only when all threads have.** -/
theorem final_of_stuck [Inhabited Memory] (hsource : P.source = .images n)
    (hs : P.pipeline.Reachable s) (hstuck : P.Stuck s) : Final s := by
  have hinput := inputEnd_of_reachable hs
  have hproducer := producer_of_stuck hsource hinput hstuck
  have hworker := worker_of_stuck hinput (faithful_of_reachable hs) hstuck hproducer
  have hmain : s.main = .ended := by
    cases hmain : s.main with
    | joining =>
      have h := hstuck .join id
      simp [step, hmain, hproducer, hworker] at h
    | offering p =>
      have h := hstuck .finalOffer id
      simp [step, hmain] at h
    | ended => rfl
  refine ⟨hproducer, hworker, hmain, ?_⟩
  rcases signalled_of_reachable hs hmain with hmem | hsignalled
  · cases hviewer : s.viewer with
    | viewing =>
      have h := hstuck .view id
      cases hqueue : s.outputQueue with
      | nil =>
        rw [hqueue] at hmem
        cases hmem
      | cons x rest => cases x <;> simp [step, hviewer, hqueue] at h
    | signalled => rfl
    | quit => exact absurd hviewer (viewer_ne_quit hsource hs)
  · exact hsignalled

theorem stuck_of_final (hsource : P.source = .images n) (hs : Final s) : P.Stuck s := by
  intro a _
  cases a <;> simp [step, hsource, hs.producer, hs.worker, hs.main, hs.viewer]

/-- A run over images is no longer than this. -/
theorem length_run_le_work (hsource : P.source = .images n) {as : List (Action Memory)}
    (hrun : P.pipeline.run (fun _ _ => True) .start as = some s) :
    as.length ≤ (.start : Pipeline Tensor Det).work n := by
  refine Nat.le_of_add_right_le (length_run_le (fun s => P.pipeline.Reachable s)
    (fun s a t hs _ ht => .step a hs trivial ht) (Pipeline.work n) ?_ (.init rfl) hrun)
  intro s a t hs _ ht
  exact Moves.work_lt hsource (queued_of_reachable hs) (moves_of_step ht)

end Progress

end Program

end Inference

end DroneTurret
