import Mathlib.Algebra.Ring.Nat
import Mathlib.Data.List.Basic

/-!
# Putting into a full queue

A put into a bounded queue that makes room by dropping the oldest element, in the three steps it
consists of: try, drop, try again. Between the steps others may take elements out of the queue. The
second try fails only if somebody else puts an element in meanwhile, so a queue with one producer at
a time never rejects it.

## Main definitions

* `Put`, `Put.step` — a put in progress, and its next step
* `Put.Ready` — what a producer that is alone relies on

## Main results

* `Put.step_cases` — what a step can do
* `Put.Ready.step` — the steps keep it
* `Put.Ready.ne_full` — the second try succeeds
* `Put.Ready.conserve` — nothing is lost but what is dropped, and nothing is reordered
* `Put.Ready.progress` — each step leaves less to be done
-/

namespace DropOldest

variable {α : Type*}

/-- A put in progress, by its next step. -/
inductive Put (α : Type*)
  | attempt (x : α)
  | drop (x : α)
  | retry (x : α)

/-- The element to be put. -/
def Put.item : Put α → α
  | .attempt x => x
  | .drop x => x
  | .retry x => x

/-- What is left of a put after a step. -/
inductive Rest (α : Type*)
  | more (p : Put α)
  | finished
  | full

/-- The elements that are still to be put. -/
def Rest.items : Rest α → List α
  | .more p => [p.item]
  | _ => []

namespace Put

/-- The number of steps it takes at most. -/
def steps : Put α → ℕ
  | .attempt _ => 3
  | .drop _ => 2
  | .retry _ => 1

/-- One step on a queue of at most `cap` elements. -/
def step (cap : ℕ) (q : List α) : Put α → List α × Rest α
  | .attempt x => if q.length < cap then (q ++ [x], .finished) else (q, .more (.drop x))
  | .drop x => (q.tail, .more (.retry x))
  | .retry x => if q.length < cap then (q ++ [x], .finished) else (q, .full)

/-- The elements that the next step drops. -/
def dropped (q : List α) : Put α → List α
  | .drop _ => q.head?.toList
  | _ => []

/-- The queue holds at most `cap` elements, and less once one has been dropped. -/
structure Ready (cap : ℕ) (q : List α) (p : Put α) : Prop where
  length : q.length ≤ cap
  room : ∀ x, p = .retry x → q.length < cap

variable {cap : ℕ} {q : List α} {p : Put α}

theorem ready_attempt (h : q.length ≤ cap) (x : α) : Ready cap q (.attempt x) :=
  ⟨h, fun _ hx => by cases hx⟩

/-- **One step.** The element goes in, or the step is on the way to that, or there is no room. -/
theorem step_cases (cap : ℕ) (q : List α) (p : Put α) :
    q.length < cap ∧ p.dropped q = [] ∧ p.step cap q = (q ++ [p.item], .finished) ∨
      (∃ x, p = .attempt x ∧ p.step cap q = (q, .more (.drop x))) ∨
      (∃ x, p = .drop x ∧ p.step cap q = (q.tail, .more (.retry x))) ∨
      ∃ x, p = .retry x ∧ ¬q.length < cap ∧ p.step cap q = (q, .full) := by
  cases p with
  | attempt x =>
    by_cases hroom : q.length < cap
    · exact .inl ⟨hroom, rfl, if_pos hroom⟩
    · exact .inr (.inl ⟨x, rfl, if_neg hroom⟩)
  | drop x => exact .inr (.inr (.inl ⟨x, rfl, rfl⟩))
  | retry x =>
    by_cases hroom : q.length < cap
    · exact .inl ⟨hroom, rfl, if_pos hroom⟩
    · exact .inr (.inr (.inr ⟨x, rfl, hroom, if_neg hroom⟩))

/-- Others may take elements. -/
theorem Ready.tail (h : Ready cap q p) : Ready cap q.tail p := by
  have hlen : q.tail.length ≤ q.length := by
    rw [List.length_tail]
    exact Nat.sub_le _ _
  exact ⟨Nat.le_trans hlen h.length, fun x hx => Nat.lt_of_le_of_lt hlen (h.room x hx)⟩

theorem Ready.length_step (h : Ready cap q p) : (p.step cap q).1.length ≤ cap := by
  rcases step_cases cap q p with ⟨hroom, -, heq⟩ | ⟨x, -, heq⟩ | ⟨x, -, heq⟩ | ⟨x, rfl, hfull, -⟩
  · rw [heq, List.length_append]
    exact hroom
  · rw [heq]
    exact h.length
  · rw [heq]
    exact h.tail.length
  · exact absurd (h.room x rfl) hfull

/-- The next step finds the queue as it needs it. -/
theorem Ready.step (hcap : 0 < cap) (h : Ready cap q p) {p' : Put α}
    (hp : (p.step cap q).2 = .more p') : Ready cap (p.step cap q).1 p' := by
  refine ⟨h.length_step, ?_⟩
  rintro x rfl
  rcases step_cases cap q p with ⟨-, -, heq⟩ | ⟨y, -, heq⟩ | ⟨y, -, heq⟩ | ⟨y, -, -, heq⟩ <;>
    rw [heq] at hp ⊢ <;> cases hp
  have hlen := h.length
  rw [List.length_tail]
  omega

/-- **The second try never fails.** -/
theorem Ready.ne_full (h : Ready cap q p) : (p.step cap q).2 ≠ .full := by
  intro hfull
  rcases step_cases cap q p with ⟨-, -, heq⟩ | ⟨x, -, heq⟩ | ⟨x, -, heq⟩ | ⟨x, rfl, hroom, -⟩
  · rw [heq] at hfull
    cases hfull
  · rw [heq] at hfull
    cases hfull
  · rw [heq] at hfull
    cases hfull
  · exact hroom (h.room x rfl)

/-- A producer that is alone goes on or is finished. -/
theorem Ready.cases (hcap : 0 < cap) (h : Ready cap q p) :
    (∃ p', (p.step cap q).2 = .more p' ∧ Ready cap (p.step cap q).1 p') ∨
      (p.step cap q).2 = .finished := by
  cases hrest : (p.step cap q).2 with
  | more p' => exact .inl ⟨p', rfl, h.step hcap hrest⟩
  | finished => exact .inr rfl
  | full => exact absurd hrest h.ne_full

/-- **What goes in comes out in order**, but for what is dropped. -/
theorem Ready.conserve (h : Ready cap q p) :
    q ++ [p.item] = p.dropped q ++ ((p.step cap q).1 ++ (p.step cap q).2.items) := by
  rcases step_cases cap q p with ⟨-, hdropped, heq⟩ | ⟨x, rfl, heq⟩ | ⟨x, rfl, heq⟩ |
    ⟨x, rfl, hroom, -⟩
  · rw [hdropped, heq, List.nil_append]
    exact (List.append_nil _).symm
  · rw [heq]
    rfl
  · rw [heq]
    cases q <;> rfl
  · exact absurd (h.room x rfl) hroom

theorem Ready.sum_map_le (h : Ready cap q p) (w : α → ℕ) :
    ((p.step cap q).1.map w).sum + ((p.step cap q).2.items.map w).sum ≤
      (q.map w).sum + w p.item := by
  have hconserve := congrArg (fun l => (l.map w).sum) h.conserve
  simp only [List.map_append, List.sum_append, List.map_singleton, List.sum_singleton] at hconserve
  omega

/-- A put that goes on has the same element and fewer steps to take, and it has added nothing. -/
theorem of_more {p' : Put α} (h : (p.step cap q).2 = .more p') :
    p'.item = p.item ∧ p'.steps < p.steps ∧
      ((p.step cap q).1 = q ∨ (p.step cap q).1 = q.tail) := by
  rcases step_cases cap q p with ⟨-, -, heq⟩ | ⟨x, rfl, heq⟩ | ⟨x, rfl, heq⟩ | ⟨x, rfl, -, heq⟩ <;>
    rw [heq] at h ⊢ <;> cases h
  · exact ⟨rfl, Nat.lt_succ_self 2, .inl rfl⟩
  · exact ⟨rfl, Nat.lt_succ_self 1, .inr rfl⟩

theorem item_of_more {p' : Put α} (h : (p.step cap q).2 = .more p') : p'.item = p.item :=
  (of_more h).1

theorem steps_of_more {p' : Put α} (h : (p.step cap q).2 = .more p') : p'.steps < p.steps :=
  (of_more h).2.1

theorem step_of_more {p' : Put α} (h : (p.step cap q).2 = .more p') :
    (p.step cap q).1 = q ∨ (p.step cap q).1 = q.tail :=
  (of_more h).2.2

/-- A finished put has put its element last. -/
theorem step_of_finished (h : (p.step cap q).2 = .finished) :
    (p.step cap q).1 = q ++ [p.item] := by
  rcases step_cases cap q p with ⟨-, -, heq⟩ | ⟨x, -, heq⟩ | ⟨x, -, heq⟩ | ⟨x, -, -, heq⟩
  · rw [heq]
  all_goals
    rw [heq] at h
    cases h

theorem item_mem_of_finished (h : (p.step cap q).2 = .finished) : p.item ∈ (p.step cap q).1 := by
  rw [step_of_finished h]
  exact List.mem_append_right _ (List.mem_singleton_self _)

/-- What is in the queue after a step was there before or is the element to be put. -/
theorem mem_of_mem_step {y : α} (h : y ∈ (p.step cap q).1) : y ∈ q ∨ y = p.item := by
  rcases step_cases cap q p with ⟨-, -, heq⟩ | ⟨x, -, heq⟩ | ⟨x, -, heq⟩ | ⟨x, -, -, heq⟩ <;>
    rw [heq] at h
  · exact (List.mem_append.mp h).imp_right List.mem_singleton.mp
  · exact .inl h
  · exact .inl (List.mem_of_mem_tail h)
  · exact .inl h

theorem mem_of_mem_dropped {x : α} (h : x ∈ p.dropped q) : x ∈ q := by
  cases p with
  | drop y => exact List.mem_of_mem_head? (Option.mem_toList.mp h)
  | attempt y => cases h
  | retry y => cases h

theorem steps_pos (p : Put α) : 0 < p.steps := by
  cases p <;> exact Nat.succ_pos _

/-- **A put makes progress**, where the elements have weights: a step takes something off the queue
and the put together, and the last one puts no more into the queue than the put has weighed. -/
theorem Ready.progress (hcap : 0 < cap) (h : Ready cap q p) (w : α → ℕ) :
    (∃ p', (p.step cap q).2 = .more p' ∧
        ((p.step cap q).1.map w).sum + p'.steps + w p'.item <
          (q.map w).sum + p.steps + w p.item) ∨
      (p.step cap q).2 = .finished ∧
        ((p.step cap q).1.map w).sum < (q.map w).sum + p.steps + w p.item := by
  have hsum := h.sum_map_le w
  have hpos := p.steps_pos
  rcases h.cases hcap with ⟨p', hmore, -⟩ | hfinished
  · have hsteps := steps_of_more hmore
    rw [hmore, Rest.items, List.map_singleton, List.sum_singleton] at hsum
    exact .inl ⟨p', hmore, by omega⟩
  · exact .inr ⟨hfinished, by omega⟩

end Put

end DropOldest
