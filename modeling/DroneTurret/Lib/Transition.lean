import Mathlib.Data.Option.Basic
import Mathlib.Order.Basic

/-!
# Labelled partial transition systems

A system is a set of initial states and a partial step function `σ → α → Option σ`: an action
that is not enabled in a state has no successor there. Nothing else is assumed of either type.

## Conditional reachability

`Reach ok s` says that `s` is the end of a run every step of which was taken from a state that
`ok` allows it in. Two uses matter. With `ok := fun _ _ => True` it is plain reachability, over
every interleaving of the actions. With a proper condition it is how a property that fails in
general is still proved of every run that stays clear of the failing steps.

## Main results

* `Reach.invariant` — what holds initially and is kept by every allowed step holds wherever an
  allowed run leads
* `Reach.of_run` — a run written out as a list of actions, for exhibiting one reachable state
-/

/-- A labelled partial transition system. -/
structure Transition (σ α : Type*) where
  /-- The states a run may start in. -/
  init : σ → Prop
  /-- The successor under an action, when the action is enabled. -/
  step : σ → α → Option σ

namespace Transition

variable {σ α : Type*} (T : Transition σ α)

/-- The states at the end of a run whose steps are all allowed by `ok`. -/
inductive Reach (ok : σ → α → Prop) : σ → Prop
  | init {s : σ} (h : T.init s) : Reach ok s
  | step {s t : σ} (a : α) (hs : Reach ok s) (ha : ok s a) (ht : T.step s a = some t) : Reach ok t

/-- The states at the end of any run at all. -/
abbrev Reachable : σ → Prop := T.Reach fun _ _ => True

/-- Execute a list of actions; `none` as soon as one of them is not allowed or not enabled. -/
def run (ok : σ → α → Prop) [∀ s a, Decidable (ok s a)] (s : σ) : List α → Option σ
  | [] => some s
  | a :: as => if ok s a then (T.step s a).bind fun t => run ok t as else none

variable {T}

/-- **The invariant rule.** The step obligation may use the condition the run is under. -/
theorem Reach.invariant {ok : σ → α → Prop} (Inv : σ → Prop) (hinit : ∀ s, T.init s → Inv s)
    (hstep : ∀ s a t, Inv s → ok s a → T.step s a = some t → Inv t) {s : σ}
    (h : T.Reach ok s) : Inv s := by
  induction h with
  | init h => exact hinit _ h
  | step a _ ha ht ih => exact hstep _ a _ ih ha ht

/-- Relaxing the condition keeps every run. -/
theorem Reach.mono {ok ok' : σ → α → Prop} (hok : ∀ s a, ok s a → ok' s a) {s : σ}
    (h : T.Reach ok s) : T.Reach ok' s := by
  induction h with
  | init h => exact .init h
  | step a _ ha ht ih => exact .step a ih (hok _ _ ha) ht

section Run

variable {ok : σ → α → Prop} [∀ s a, Decidable (ok s a)]

/-- A run that begins with an action. -/
theorem run_cons_eq_some {s t : σ} {a : α} {as : List α} :
    T.run ok s (a :: as) = some t ↔ ok s a ∧ ∃ u, T.step s a = some u ∧ T.run ok u as = some t := by
  rw [run]
  split_ifs with ha
  · rw [Option.bind_eq_some_iff]
    exact (and_iff_right ha).symm
  · exact iff_of_false not_false fun h => ha h.1

/-- A run that goes on where another one ends. -/
theorem run_append {s t u : σ} {as bs : List α} (h : T.run ok s as = some t)
    (h' : T.run ok t bs = some u) : T.run ok s (as ++ bs) = some u := by
  induction as generalizing s with
  | nil =>
    rw [run, Option.some.injEq] at h
    exact h ▸ h'
  | cons a as ih =>
    obtain ⟨ha, v, hv, hrun⟩ := run_cons_eq_some.mp h
    exact run_cons_eq_some.mpr ⟨ha, v, hv, ih hrun⟩

theorem Reach.append_run {s t : σ} (hs : T.Reach ok s) {as : List α}
    (h : T.run ok s as = some t) : T.Reach ok t := by
  induction as generalizing s with
  | nil => rw [run, Option.some.injEq] at h; exact h ▸ hs
  | cons a as ih =>
    obtain ⟨ha, u, hu, hrun⟩ := run_cons_eq_some.mp h
    exact ih (.step a hs ha hu) hrun

/-- The end of a run written out as a list of actions is reachable. -/
theorem Reach.of_run {s t : σ} (hs : T.init s) {as : List α} (h : T.run ok s as = some t) :
    T.Reach ok t :=
  (Reach.init hs).append_run h

/-- The invariant rule for a run that is written out. -/
theorem run_invariant (Inv : σ → Prop)
    (hstep : ∀ s a t, Inv s → ok s a → T.step s a = some t → Inv t) {s t : σ} (hs : Inv s)
    {as : List α} (h : T.run ok s as = some t) : Inv t := by
  induction as generalizing s with
  | nil => rw [run, Option.some.injEq] at h; exact h ▸ hs
  | cons a as ih =>
    obtain ⟨ha, u, hu, hrun⟩ := run_cons_eq_some.mp h
    exact ih (hstep s a u hs ha hu) hrun

/-- **A loss that is counted.** Where the steps that lose something are those that make `d` larger,
and no step makes it smaller, a run is free of them exactly if `d` is the same at its end. -/
theorem run_and_iff {bad : σ → α → Prop} [∀ s a, Decidable (bad s a)] (Inv : σ → Prop)
    (hstep : ∀ s a t, Inv s → ok s a → T.step s a = some t → Inv t) (d : σ → ℕ)
    (hd : ∀ s a t, Inv s → ok s a → T.step s a = some t → d s ≤ d t ∧ (bad s a ↔ d s < d t))
    {s t : σ} (hs : Inv s) {as : List α} (h : T.run ok s as = some t) :
    d s ≤ d t ∧ (T.run (fun s a => ok s a ∧ ¬bad s a) s as = some t ↔ d s = d t) := by
  induction as generalizing s with
  | nil =>
    rw [run, Option.some.injEq] at h
    subst h
    exact ⟨Nat.le_refl _, fun _ => rfl, fun _ => rfl⟩
  | cons a as ih =>
    obtain ⟨ha, u, hu, hrun⟩ := run_cons_eq_some.mp h
    obtain ⟨hle, hiff⟩ := ih (hstep s a u hs ha hu) hrun
    obtain ⟨hsu, hbad⟩ := hd s a u hs ha hu
    refine ⟨Nat.le_trans hsu hle, ?_⟩
    rw [run]
    by_cases hlost : bad s a
    · rw [if_neg fun hok => hok.2 hlost]
      refine ⟨(fun hnone => by cases hnone), fun heq => ?_⟩
      exact absurd heq (Nat.ne_of_lt (Nat.lt_of_lt_of_le (hbad.mp hlost) hle))
    · rw [if_pos ⟨ha, hlost⟩, hu, Option.bind_some, hiff]
      have heq : d s = d u := Nat.le_antisymm hsu
        (Nat.le_of_not_lt fun hlt => hlost (hbad.mpr hlt))
      rw [heq]

/-- A run is no longer than what each of its steps takes something from. -/
theorem length_run_le (Inv : σ → Prop)
    (hstep : ∀ s a t, Inv s → ok s a → T.step s a = some t → Inv t) (work : σ → ℕ)
    (hwork : ∀ s a t, Inv s → ok s a → T.step s a = some t → work t < work s)
    {s t : σ} (hs : Inv s) {as : List α} (h : T.run ok s as = some t) :
    as.length + work t ≤ work s := by
  induction as generalizing s with
  | nil =>
    rw [run, Option.some.injEq] at h
    subst h
    exact Nat.le_of_eq (Nat.zero_add _)
  | cons a as ih =>
    obtain ⟨ha, u, hu, hrun⟩ := run_cons_eq_some.mp h
    have hlength := ih (hstep s a u hs ha hu) hrun
    have hlt := hwork s a u hs ha hu
    rw [List.length_cons]
    omega

/-- Where each step takes something, and some step is possible short of the goal, the goal is
reached. -/
theorem exists_run_of_progress (Inv goal : σ → Prop)
    (hstep : ∀ s a t, Inv s → ok s a → T.step s a = some t → Inv t) (work : σ → ℕ)
    (hwork : ∀ s a t, Inv s → ok s a → T.step s a = some t → work t < work s)
    (hprogress : ∀ s, Inv s → ¬goal s → ∃ a t, ok s a ∧ T.step s a = some t) {s : σ} (hs : Inv s) :
    ∃ as t, T.run ok s as = some t ∧ goal t := by
  by_cases hgoal : goal s
  · exact ⟨[], s, rfl, hgoal⟩
  · obtain ⟨a, u, ha, hu⟩ := hprogress s hs hgoal
    have hlt := hwork s a u hs ha hu
    obtain ⟨as, t, hrun, ht⟩ :=
      exists_run_of_progress Inv goal hstep work hwork hprogress (hstep s a u hs ha hu)
    exact ⟨a :: as, t, run_cons_eq_some.mpr ⟨ha, u, hu, hrun⟩, ht⟩
termination_by work s

/-- Evaluating a property at the end of a run written out, for closed runs. -/
theorem exists_reach_of_run (T : Transition σ α) (ok : σ → α → Prop) [∀ s a, Decidable (ok s a)]
    {s : σ} (hs : T.init s) (as : List α) (p : σ → Bool) (h : (T.run ok s as).map p = some true) :
    ∃ t, T.Reach ok t ∧ p t = true := by
  obtain ⟨t, ht, hp⟩ := Option.map_eq_some_iff.mp h
  exact ⟨t, .of_run hs ht, hp⟩

end Run

end Transition
