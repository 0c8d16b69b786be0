import DroneTurret.Inference.EndSignal
import Mathlib.Data.List.Nodup
import Mathlib.Data.List.Perm.Subperm

/-!
# The pipeline over a folder of images

A run over a list of images is to infer every image and to write one output file for it. Its puts
drop batches and frames, though, as those of a run over a camera do, and the run is complete
exactly if no put has.

## Main definitions

* `Loses` — the steps that drop a batch or a frame
* `Complete` — every image is inferred and written once

## Main results

* `Program.complete_iff_kept` — a run that has ended is complete exactly if no step has lost
  anything
* `Program.run_ends` — every run over images can be continued to its end, and is bounded
* `not_complete` — a run that skips an image
-/

namespace DroneTurret

namespace Inference

open DropOldest Transition

section Loses

variable {Tensor Det Memory : Type*}

/-- The step is the `get_nowait` of a put that has found the queue full, and takes something other
than an end signal. -/
def Takes {α : Type*} (q : List (Option α)) (p : Put (Option α)) : Prop :=
  ∃ x ∈ p.dropped q, x.isSome = true

instance {α : Type*} (q : List (Option α)) (p : Put (Option α)) : Decidable (Takes q p) :=
  inferInstanceAs (Decidable (∃ x ∈ p.dropped q, x.isSome = true))

/-- The step drops a batch from the input queue or a frame from the output queue. -/
def Loses (s : Pipeline Tensor Det) : Action Memory → Prop
  | .put =>
    match s.producer with
    | .putting p => Takes s.inputQueue p
    | .signalling p => Takes s.inputQueue p
    | _ => False
  | .offer =>
    match s.worker with
    | .offering _ _ p => Takes s.outputQueue p
    | _ => False
  | .finalOffer =>
    match s.main with
    | .offering p => Takes s.outputQueue p
    | _ => False
  | _ => False

instance (s : Pipeline Tensor Det) (a : Action Memory) : Decidable (Loses s a) := by
  unfold Loses
  repeat' split
  all_goals infer_instance

instance (a : Action Memory) : Decidable (Fails a) := by
  unfold Fails
  split <;> infer_instance

/-- Every image is inferred once, and one file is written for it. -/
def Complete (n : ℕ) (s : Pipeline Tensor Det) : Prop :=
  ∀ i < n, s.inferred.count i = 1 ∧ (s.shown.map Prod.fst).count i = 1

/-- The frames of a batch that the network has not been run on. -/
def Worker.waiting : Worker Tensor Det → List ℕ
  | .running b => b.frames
  | _ => []

/-- The frames inferred and those that have still to be. -/
def Pipeline.arrivals (s : Pipeline Tensor Det) : List ℕ :=
  s.inferred ++ (s.worker.waiting ++ s.pending)

end Loses

section Filled

open Program

variable {Image Tensor Output Memory Det : Type*} {P : Program Image Tensor Output Memory Det}
variable {s t : Pipeline Tensor Det}

/-- There is no empty batch. -/
structure Filled (s : Pipeline Tensor Det) : Prop where
  queue : ∀ b, some b ∈ s.inputQueue → b.frames ≠ []
  putting : ∀ p b, s.producer = .putting p → p.item = some b → b.frames ≠ []

theorem filled_start : Filled (.start : Pipeline Tensor Det) where
  queue _ h := by cases h
  putting _ _ h := by cases h

theorem Filled.moves {a : Action Memory} (hq : Queued s) (hf : P.Faithful s) (hs : Filled s)
    (h : P.Moves s a t) : Filled t := by
  cases h with
  | captureLast hsource hproducer =>
    refine ⟨hs.queue, ?_⟩
    rintro _ b ⟨⟩ hitem
    obtain rfl := Option.some.inj hitem
    simp
  | @nextBatch n k hsource hproducer hlt hk =>
    refine ⟨hs.queue, ?_⟩
    rintro _ b ⟨⟩ hitem
    obtain rfl := Option.some.inj hitem
    have hpos := P.batchSize_pos
    simp only [ne_eq, List.range'_eq_nil_iff]
    omega
  | endOfStream => exact ⟨hs.queue, fun _ _ h => by cases h⟩
  | @put p hproducer =>
    have hitem := fun b => hs.putting p b hproducer
    obtain ⟨producer, hnext, ht⟩ := putInput_cases (hq.putting p hproducer) .putting .reading
    rw [ht]
    refine ⟨fun b hb => ?_, ?_⟩
    · rcases Put.mem_of_mem_step hb with hb | hb
      · exact hs.queue b hb
      · exact hitem b hb.symm
    · rintro p' b rfl hb
      rcases hnext with ⟨_, hmore, heq, -⟩ | ⟨-, heq⟩ <;> cases heq
      exact hitem b ((Put.item_of_more hmore).symm.trans hb)
  | @signal p hproducer =>
    obtain ⟨producer, hnext, ht⟩ := putInput_cases (hq.signalling p hproducer) .signalling .ended
    rw [ht]
    refine ⟨fun b hb => ?_, ?_⟩
    · rcases Put.mem_of_mem_step hb with hb | hb
      · exact hs.queue b hb
      · rw [hf.signalling p hproducer] at hb
        cases hb
    · rintro p' b rfl
      rcases hnext with ⟨_, -, heq, -⟩ | ⟨-, heq⟩ <;> cases heq
  | getSignal hworker hqueue | getBatch hworker hqueue =>
    exact ⟨fun b hb => hs.queue b (hqueue ▸ List.mem_cons_of_mem _ hb), hs.putting⟩
  | _ => exact ⟨hs.queue, hs.putting⟩

theorem filled_of_reachable (hs : P.pipeline.Reachable s) : Filled s :=
  invariant_of_moves Filled filled_start
    (fun _ _ _ hqueued hfaithful _ hfilled h => hfilled.moves hqueued hfaithful h) hs

theorem accounts_arrivals {a : Action Memory} (hq : Queued s) (hf : P.Faithful s)
    (h : P.Moves s a t) :
    Accounts Pipeline.arrivals (fun s => s.droppedInput.length) s a t := by
  by_cases ha : a.ofProducer
  · have hreads := Reads.of_moves hq hf h ha
    refine .of_reads hreads (s.inferred ++ s.worker.waiting) ?_ ?_ (Nat.add_comm _ _)
    · rw [Pipeline.arrivals, List.append_assoc]
    · rw [Pipeline.arrivals, hreads.inferred, hreads.worker, List.append_assoc]
  cases h with
  | capture | captureLast | nextBatch | endOfStream | put | signal => exact absurd trivial ha
  | getSignal hworker hqueue =>
    refine .of_eq rfl ?_ rfl
    simp only [Pipeline.arrivals, Pipeline.pending, hworker, hqueue, Worker.waiting,
      List.flatMap_cons, Batch.framesOf, List.nil_append]
  | getBatch hworker hqueue =>
    refine .of_eq rfl ?_ rfl
    simp only [Pipeline.arrivals, Pipeline.pending, hworker, hqueue, Worker.waiting,
      List.flatMap_cons, Batch.framesOf, List.nil_append, List.append_assoc]
  | @runFails batch hworker =>
    refine .of_cut batch.frames rfl ⟨s.inferred, s.pending, ?_, rfl⟩
      fun hfails => absurd trivial hfails
    rw [Pipeline.arrivals, hworker]
    rfl
  | runs hworker =>
    refine .of_eq rfl ?_ rfl
    simp only [Pipeline.arrivals, hworker, Worker.waiting, List.append_assoc, List.nil_append]
    rfl
  | @offer batch i p hworker =>
    refine .of_eq rfl ?_ rfl
    have hwaiting : (Worker.offered batch i (p.step maxsize s.outputQueue).2).waiting = [] := by
      cases (p.step maxsize s.outputQueue).2 <;> rfl
    rw [Pipeline.arrivals, Pipeline.arrivals, hworker, hwaiting]
    rfl
  | detect hworker | callbackRaises hworker | callbackReturns hworker | close hworker =>
    refine .of_eq rfl ?_ rfl
    rw [Pipeline.arrivals, Pipeline.arrivals, hworker]
    rfl
  | join | finalOffer | viewSignal | view | quit => exact .of_eq rfl rfl rfl

/-- A step of a put drops something exactly if it takes something other than an end signal. -/
theorem takes_iff {α : Type*} {q : List (Option α)} {p : Put (Option α)} {f : Option α → List ℕ}
    (hnone : f none = []) (hsome : ∀ x, some x ∈ q → f (some x) ≠ []) :
    Takes q p ↔ 0 < ((p.dropped q).flatMap f).length := by
  rw [List.length_pos_iff, ne_eq, List.flatMap_eq_nil_iff, not_forall]
  constructor
  · rintro ⟨x, hx, hisSome⟩
    obtain ⟨y, rfl⟩ := Option.isSome_iff_exists.mp hisSome
    exact ⟨some y, fun h => hsome y (Put.mem_of_mem_dropped hx) (h hx)⟩
  · rintro ⟨x, hx⟩
    rw [Classical.not_imp] at hx
    cases x with
    | none => exact absurd hnone hx.2
    | some y => exact ⟨some y, hx.1, rfl⟩

/-- The steps that lose something are those that drop a frame. -/
theorem loses_iff {a : Action Memory} (hq : Queued s) (hs : Filled s) (h : P.Moves s a t) :
    s.dropped ≤ t.dropped ∧ (Loses s a ↔ s.dropped < t.dropped) := by
  have hinput : ∀ b, some b ∈ s.inputQueue → Batch.framesOf (some b) ≠ [] := hs.queue
  have houtput : ∀ x : ℕ × Det, some x ∈ s.outputQueue → itemFrames (some x) ≠ [] :=
    fun _ _ => List.cons_ne_nil _ _
  cases h with
  | @put p hproducer =>
    obtain ⟨producer, -, ht⟩ := putInput_cases (hq.putting p hproducer) .putting .reading
    rw [ht]
    simp only [Loses, hproducer, takes_iff rfl hinput, Pipeline.dropped, List.length_append]
    omega
  | @signal p hproducer =>
    obtain ⟨producer, -, ht⟩ := putInput_cases (hq.signalling p hproducer) .signalling .ended
    rw [ht]
    simp only [Loses, hproducer, takes_iff rfl hinput, Pipeline.dropped, List.length_append]
    omega
  | @offer batch i p hworker =>
    rw [putOutput_eq (hq.offering batch i p hworker)]
    simp only [Loses, hworker, takes_iff rfl houtput, Pipeline.dropped, List.length_append]
    omega
  | @finalOffer p hmain =>
    rw [putOutput_eq (hq.finalOffer p hmain)]
    simp only [Loses, hmain, takes_iff rfl houtput, Pipeline.dropped, List.length_append]
    omega
  | _ => exact ⟨Nat.le_refl _, fun h => absurd h id, fun h => absurd h (Nat.lt_irrefl _)⟩

end Filled

section Extent

open Program

variable {Image Tensor Output Memory Det : Type*} {P : Program Image Tensor Output Memory Det}
variable {s t : Pipeline Tensor Det} {n : ℕ}

/-- The producer reads the images and signals after the last. -/
structure Extent (n : ℕ) (s : Pipeline Tensor Det) : Prop where
  captured : s.captured ≤ n
  signalling : ∀ p, s.producer = .signalling p → s.captured = n
  ended : s.producer = .ended → s.captured = n

theorem Extent.moves {a : Action Memory} (hsource : P.source = .images n) (hq : Queued s)
    (hs : Extent n s) (h : P.Moves s a t) : Extent n t := by
  cases h with
  | capture hcamera | captureLast hcamera =>
    rw [hsource] at hcamera
    cases hcamera
  | @nextBatch m k himages hproducer hlt hk =>
    rw [hsource] at himages
    obtain rfl := Source.images.inj himages
    refine ⟨?_, (fun _ h => by cases h), fun h => by cases h⟩
    dsimp only
    omega
  | endOfStream hproducer hexhausted =>
    rw [exhausted, hsource] at hexhausted
    exact ⟨hs.captured, fun _ _ => Nat.le_antisymm hs.captured hexhausted, fun h => by cases h⟩
  | @put p hproducer =>
    obtain ⟨producer, hnext, ht⟩ := putInput_cases (hq.putting p hproducer) .putting .reading
    rw [ht]
    refine ⟨hs.captured, ?_, ?_⟩
    · rintro p' rfl
      rcases hnext with ⟨_, -, heq, -⟩ | ⟨-, heq⟩ <;> cases heq
    · rintro rfl
      rcases hnext with ⟨_, -, heq, -⟩ | ⟨-, heq⟩ <;> cases heq
  | @signal p hproducer =>
    obtain ⟨producer, hnext, ht⟩ := putInput_cases (hq.signalling p hproducer) .signalling .ended
    rw [ht]
    have hcaptured := hs.signalling p hproducer
    exact ⟨hs.captured, fun _ _ => hcaptured, fun _ => hcaptured⟩
  | _ => exact ⟨hs.captured, hs.signalling, hs.ended⟩

theorem extent_of_reachable (hsource : P.source = .images n) (hs : P.pipeline.Reachable s) :
    Extent n s :=
  invariant_of_moves (Extent n) ⟨Nat.zero_le _, (fun _ h => by cases h), fun h => by cases h⟩
    (fun _ _ _ hqueued _ _ hextent h => hextent.moves hsource hqueued h) hs

/-- At the end there is nothing on its way. -/
theorem way_of_final (hsource : P.source = .images n) (hs : P.pipeline.Reachable s)
    (hfinal : Final s) :
    s.captured = n ∧ s.trail = s.shown.map Prod.fst ∧ s.arrivals = s.inferred := by
  obtain ⟨hproducer, hworker, -, hviewer⟩ := hfinal
  have hinput := (inputEnd_of_reachable hs).closed (by rw [hworker]; trivial)
  have houtput : s.outputQueue.flatMap itemFrames = [] := by
    refine List.flatMap_eq_nil_iff.mpr fun x hx => ?_
    rw [((outputEnd_of_reachable hs).viewer hviewer).2 x hx]
    rfl
  have hframes : s.frames = [] := (faithful_of_reachable hs).list (by simp [hsource])
  have hpending : s.pending = [] := by
    rw [Pipeline.pending, hinput.1, hproducer, hframes]
    rfl
  refine ⟨(extent_of_reachable hsource hs).ended hproducer, ?_, ?_⟩
  · rw [Pipeline.trail, houtput, hworker, hpending]
    exact List.append_nil _
  · rw [Pipeline.arrivals, hworker, hpending]
    exact List.append_nil _

end Extent

/-- A list that goes up to `n` with gaps has each number once exactly if it has no gap. -/
theorem count_eq_one_iff_length {n : ℕ} {l : List ℕ} (h : l.Sublist (List.range n)) :
    (∀ i < n, l.count i = 1) ↔ l.length = n := by
  constructor
  · intro hcount
    have hsubset : List.range n ⊆ l := fun i hi =>
      List.count_pos_iff.mp (by rw [hcount i (List.mem_range.mp hi)]; exact Nat.one_pos)
    have hle := (List.subperm_of_subset List.nodup_range hsubset).length_le
    have hge := h.length_le
    rw [List.length_range] at hle hge
    exact Nat.le_antisymm hge hle
  · intro hlength i hi
    rw [h.eq_of_length (hlength.trans List.length_range.symm)]
    exact List.count_eq_one_of_mem List.nodup_range (List.mem_range.mpr hi)

namespace Program

section Kept

variable {Image Tensor Output Memory Det : Type*}

/-- **A run over images is complete exactly if no put has dropped a batch or a frame.** -/
theorem complete_iff_kept [Inhabited Memory] (P : Program Image Tensor Output Memory Det) (n : ℕ)
    (hsource : P.source = .images n) (as : List (Action Memory)) (u : Pipeline Tensor Det)
    (hrun : P.pipeline.run (fun _ a => ¬Fails a) .start as = some u) (hstuck : P.Stuck u) :
    Complete n u ↔
      P.pipeline.run (fun s a => ¬Fails a ∧ ¬Loses s a) .start as = some u := by
  have hreach : P.pipeline.Reach (fun _ a => ¬Fails a) u := .of_run rfl hrun
  have hs : P.pipeline.Reachable u := hreach.mono fun _ _ _ => trivial
  obtain ⟨hcaptured, htrail, harrivals⟩ :=
    way_of_final hsource hs (final_of_stuck hsource hs hstuck)
  -- both lists have each image once exactly if they are long enough
  have hshown := sublist_of_accounts rfl (fun _ _ _ => accounts_trail) hs
  have hinferred := sublist_of_accounts rfl (fun _ _ _ => accounts_arrivals) hs
  have hshownLength := length_of_accounts rfl rfl (fun _ _ _ => accounts_trail) hreach
  have hinferredLength := length_of_accounts rfl rfl (fun _ _ _ => accounts_arrivals) hreach
  rw [htrail, hcaptured] at hshown hshownLength
  rw [harrivals, hcaptured] at hinferred hinferredLength
  have hcomplete : Complete n u ↔ 0 = u.dropped := by
    have hboth : Complete n u ↔
        u.inferred.length = n ∧ (u.shown.map Prod.fst).length = n := by
      rw [← count_eq_one_iff_length hinferred, ← count_eq_one_iff_length hshown]
      exact ⟨fun h => ⟨fun i hi => (h i hi).1, fun i hi => (h i hi).2⟩,
        fun h i hi => ⟨h.1 i hi, h.2 i hi⟩⟩
    rw [hboth]
    unfold Pipeline.dropped at hshownLength ⊢
    omega
  rw [hcomplete]
  refine (run_and_iff (fun s => P.pipeline.Reachable s)
    (fun s a t hs _ ht => .step a hs trivial ht) Pipeline.dropped ?_ (.init rfl) hrun).2.symm
  intro s a t hs _ ht
  exact loses_iff (queued_of_reachable hs) (filled_of_reachable hs) (moves_of_step ht)

end Kept

section Ending

variable {Image Tensor Output Memory Det : Type*}

/-- **A run over images ends.** Whatever fails and whatever is dropped, a run over `n` images has no
more than `12 * n + 12` steps, it can always be continued to where all threads have ended, and
nowhere else is it stuck. -/
theorem run_ends [Inhabited Memory] (P : Program Image Tensor Output Memory Det) (n : ℕ)
    (hsource : P.source = .images n) (as : List (Action Memory)) (s : Pipeline Tensor Det)
    (hrun : P.pipeline.run (fun _ _ => True) .start as = some s) :
    as.length ≤ 12 * n + 12 ∧ (P.Stuck s ↔ Final s) ∧
      ∃ bs t, P.pipeline.run (fun _ a => ¬Fails a) s bs = some t ∧ Final t := by
  have hs : P.pipeline.Reachable s := .of_run rfl hrun
  refine ⟨length_run_le_work hsource hrun, ⟨final_of_stuck hsource hs, stuck_of_final hsource⟩, ?_⟩
  refine exists_run_of_progress (fun s => P.pipeline.Reachable s) Final
    (fun s a t hs _ ht => .step a hs trivial ht) (Pipeline.work n) ?_ ?_ hs
  · intro s a t hs _ ht
    exact Moves.work_lt hsource (queued_of_reachable hs) (moves_of_step ht)
  · intro s hs hfinal
    by_contra hnone
    refine hfinal (final_of_stuck hsource hs fun a ha => ?_)
    by_contra hsome
    obtain ⟨t, ht⟩ := Option.ne_none_iff_exists'.mp hsome
    exact hnone ⟨a, t, ha, ht⟩

end Ending

section Example

/-- A folder of images and batches of one frame. -/
def folderExample (n : ℕ) : Program ℕ ℕ ℕ Unit ℕ where
  source := .images n
  batchSize := 1
  batchSize_pos := Nat.one_pos
  frame i := 10 * i
  preprocess x := x + 1
  network x := 2 * x
  detect x y _ := x + y

/-- The end of a run. -/
def folderEnd (n : ℕ) (inferred : List ℕ) (droppedInput : List ℕ) : Pipeline ℕ ℕ :=
  { (.start : Pipeline ℕ ℕ) with
    captured := n
    outputQueue := [none]
    producer := .ended
    worker := .ended
    main := .ended
    viewer := .signalled
    inferred := inferred
    shown := inferred.map fun i => (i, 30 * i + 2)
    droppedInput := droppedInput }

theorem stuck_folderEnd (n : ℕ) (inferred : List ℕ) (droppedInput : List ℕ) :
    (folderExample n).Stuck (folderEnd n inferred droppedInput) :=
  stuck_of_final rfl ⟨rfl, rfl, rfl, rfl⟩

/-- A run over two images, which fit into the queues. -/
def twoImages : List (Action Unit) :=
  [.nextBatch, .put, .nextBatch, .put, .getBatch, .runs, .detect (), .offer, .callbackReturns,
    .getBatch, .runs, .detect (), .offer, .callbackReturns, .view, .view,
    .endOfStream, .put, .getBatch, .close, .join, .view, .finalOffer]

theorem complete_iff_kept_witness : ∃ u,
    (folderExample 2).pipeline.run (fun _ a => ¬Fails a) .start twoImages = some u ∧
      (folderExample 2).Stuck u ∧ Complete 2 u :=
  ⟨folderEnd 2 [0, 1] [], rfl, stuck_folderEnd 2 _ _,
    (complete_iff_kept (folderExample 2) 2 rfl twoImages _ rfl (stuck_folderEnd 2 _ _)).mpr rfl⟩

theorem run_ends_witness : ∃ s,
    (folderExample 2).pipeline.run (fun _ _ => True) .start twoImages = some s ∧ Final s :=
  ⟨folderEnd 2 [0, 1] [], rfl,
    (run_ends (folderExample 2) 2 rfl twoImages _ rfl).2.1.mp (stuck_folderEnd 2 _ _)⟩

/-- Of three images that are read before the worker gets the first, that one is dropped. -/
theorem not_complete : ¬∀ as u,
    (folderExample 3).pipeline.run (fun _ a => ¬Fails a) .start as = some u →
      (folderExample 3).Stuck u → Complete 3 u := by
  intro hcomplete
  have hfirst := (hcomplete [.nextBatch, .put, .nextBatch, .put, .nextBatch, .put, .put, .put,
    .getBatch, .runs, .detect (), .offer, .callbackReturns, .view,
    .getBatch, .runs, .detect (), .offer, .callbackReturns, .view,
    .endOfStream, .put, .getBatch, .close, .join, .view, .finalOffer]
    (folderEnd 3 [1, 2] [0]) rfl (stuck_folderEnd 3 _ _) 0 (by decide)).1
  exact absurd hfirst (by decide)

end Example

end Program

end Inference

end DroneTurret
