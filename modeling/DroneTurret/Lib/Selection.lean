import Mathlib.Data.List.Basic
import Mathlib.Data.List.GetD

/-!
# Selecting from arrays

The elements of an array that a list of indices or a Boolean mask selects, where an index out of
range or a mask of another length is an error. A selection is natural: what it does to an array that
comes from another one, element by element, is what it does to that one. Parallel arrays stay
parallel, therefore, if each selection is applied to all of them.

## Main definitions

* `gather`, `mask`, `nonzero` — selection by indices and by a mask, and the indices of a mask

## Main results

* `gather_map`, `mask_map` — naturality
* `gather_nonzero` — the indices of a mask select what the mask does
* `selected_eq_iff` — what is selected, and where, tells what each element was turned into
* `gather_perm` — a permutation of the indices selects a permutation of the elements
-/

variable {α β : Type*}

/-- The elements at the given indices. -/
def gather (xs : List α) (indices : List ℕ) : Option (List α) := indices.mapM (xs[·]?)

/-- The elements where the mask is true. -/
def mask (m : List Bool) (xs : List α) : Option (List α) :=
  if m.length = xs.length then some (((xs.zip m).filter Prod.snd).map Prod.fst) else none

/-- The indices where a mask is true, counted from `i`. -/
def nonzeroFrom (i : ℕ) : List Bool → List ℕ
  | [] => []
  | true :: m => i :: nonzeroFrom (i + 1) m
  | false :: m => nonzeroFrom (i + 1) m

/-- The indices where a mask is true. -/
def nonzero (m : List Bool) : List ℕ := nonzeroFrom 0 m

theorem gather_nil (xs : List α) : gather xs [] = some [] := rfl

theorem gather_cons (xs : List α) (i : ℕ) (indices : List ℕ) :
    gather xs (i :: indices) =
      xs[i]?.bind fun x => (gather xs indices).map fun ys => x :: ys := by
  rw [gather, List.mapM_cons]
  cases xs[i]? with
  | none => rfl
  | some x =>
    rw [gather]
    cases List.mapM (fun j => xs[j]?) indices <;> rfl

/-- **Naturality.** -/
theorem gather_map (f : α → β) (xs : List α) (indices : List ℕ) :
    gather (xs.map f) indices = (gather xs indices).map (List.map f) := by
  induction indices with
  | nil => rfl
  | cons i indices ih =>
    rw [gather_cons, gather_cons, ih, List.getElem?_map]
    cases xs[i]? with
    | none => rfl
    | some x => cases gather xs indices <;> rfl

/-- Valid indices select something. -/
theorem gather_eq_some [Inhabited α] {xs : List α} {indices : List ℕ}
    (h : ∀ i ∈ indices, i < xs.length) :
    gather xs indices = some (indices.map fun i => xs.getD i default) := by
  induction indices with
  | nil => rfl
  | cons i indices ih =>
    obtain ⟨hi, h⟩ := List.forall_mem_cons.mp h
    rw [gather_cons, ih h, List.getElem?_eq_getElem hi, List.map_cons,
      List.getD_eq_getElem _ _ hi]
    rfl

/-- What a function makes of a list, element by element. -/
theorem forall₂_of_mapM {f : α → Option β} {l : List α} {r : List β}
    (h : l.mapM f = some r) : List.Forall₂ (fun a b => f a = some b) l r := by
  induction l generalizing r with
  | nil =>
    obtain rfl := Option.some.inj h
    exact .nil
  | cons a l ih =>
    rw [List.mapM_cons] at h
    obtain ⟨b, hb, h⟩ := Option.bind_eq_some_iff.mp h
    obtain ⟨r', hr', h⟩ := Option.bind_eq_some_iff.mp h
    obtain rfl := Option.some.inj h
    exact .cons hb (ih hr')

theorem mapM_eq_some_map {f : α → Option β} {g : α → β} {l : List α}
    (h : ∀ a ∈ l, f a = some (g a)) : l.mapM f = some (l.map g) := by
  induction l with
  | nil => rfl
  | cons a l ih =>
    rw [List.forall_mem_cons] at h
    rw [List.mapM_cons, h.1, ih h.2]
    rfl

/-- A list is read like a part of it only if the part is all of it. -/
theorem map_eq_map_filter_iff {f g : α → β} {p : α → Bool} {l : List α} :
    l.map f = (l.filter p).map g ↔ ∀ a ∈ l, p a = true ∧ f a = g a := by
  constructor
  · intro h
    have hlen : (l.filter p).length = l.length := by
      rw [← List.length_map g, ← h, List.length_map]
    have hall := List.length_filter_eq_length_iff.mp hlen
    rw [List.filter_eq_self.mpr hall, List.map_inj_left] at h
    exact fun a ha => ⟨hall a ha, h a ha⟩
  · intro h
    rw [List.filter_eq_self.mpr fun a ha => (h a ha).1]
    exact List.map_congr_left fun a ha => (h a ha).2

theorem exists_of_forall₂ {R : α → β → Prop} {l : List α} {r : List β}
    (h : List.Forall₂ R l r) {b : β} (hb : b ∈ r) : ∃ a ∈ l, R a b := by
  induction h with
  | nil => cases hb
  | cons hab _ ih =>
    rcases List.mem_cons.mp hb with rfl | hb
    · exact ⟨_, List.mem_cons_self, hab⟩
    · obtain ⟨a, ha, hab⟩ := ih hb
      exact ⟨a, List.mem_cons_of_mem _ ha, hab⟩

theorem length_mask_le {m : List Bool} {xs ys : List α} (h : mask m xs = some ys) :
    ys.length ≤ xs.length := by
  obtain ⟨-, rfl⟩ := Option.ite_some_none_eq_some.mp h
  rw [List.length_map]
  refine Nat.le_trans (List.length_filter_le _ _) ?_
  rw [List.length_zip]
  exact Nat.min_le_left _ _

/-- **Naturality.** -/
theorem mask_map (p : α → Bool) (f : α → β) (xs : List α) :
    mask (xs.map p) (xs.map f) = some ((xs.filter p).map f) := by
  rw [mask, if_pos (by rw [List.length_map, List.length_map]), List.zip_map', List.filter_map,
    List.map_map]
  rfl

theorem any_map_id_iff (p : α → Bool) (xs : List α) :
    (xs.map p).any id = true ↔ xs.filter p ≠ [] := by
  rw [Ne, List.filter_eq_nil_iff]
  simp

theorem gather_nonzeroFrom (p : α → Bool) (xs front : List α) :
    gather (front ++ xs) (nonzeroFrom front.length (xs.map p)) = some (xs.filter p) := by
  induction xs generalizing front with
  | nil => rfl
  | cons x xs ih =>
    have hrest := ih (front ++ [x])
    rw [List.append_assoc, List.length_append, List.length_singleton, List.singleton_append]
      at hrest
    rw [List.map_cons, List.filter_cons]
    cases p x with
    | false => exact hrest
    | true =>
      rw [nonzeroFrom, gather_cons, hrest, List.getElem?_append_right (Nat.le_refl _), Nat.sub_self]
      rfl

/-- **The indices of a mask select what the mask does.** -/
theorem gather_nonzero (p : α → Bool) (xs : List α) :
    gather xs (nonzero (xs.map p)) = some (xs.filter p) :=
  gather_nonzeroFrom p xs []

theorem le_of_mem_nonzeroFrom {i j : ℕ} {m : List Bool} (h : j ∈ nonzeroFrom i m) : i ≤ j := by
  induction m generalizing i with
  | nil => cases h
  | cons b m ih =>
    cases b with
    | false => exact Nat.le_of_succ_le (ih h)
    | true =>
      rcases List.mem_cons.mp h with rfl | h
      · exact Nat.le_refl _
      · exact Nat.le_of_succ_le (ih h)

theorem nonzeroFrom_succ_ne {i : ℕ} {m l : List ℕ} {m' : List Bool} (h : m = i :: l) :
    m ≠ nonzeroFrom (i + 1) m' := by
  rintro rfl
  have hmem : i ∈ nonzeroFrom (i + 1) m' := h ▸ List.mem_cons_self
  exact Nat.not_succ_le_self i (le_of_mem_nonzeroFrom hmem)

/-- **What is selected, and where,** tells what each element was turned into. -/
theorem selected_eq_iff (f g : α → Option β) (xs : List α) (i : ℕ) :
    (nonzeroFrom i (xs.map fun x => (f x).isSome) = nonzeroFrom i (xs.map fun x => (g x).isSome) ∧
      xs.filterMap f = xs.filterMap g) ↔ ∀ x ∈ xs, f x = g x := by
  induction xs generalizing i with
  | nil => exact ⟨fun _ => List.forall_mem_nil _, fun _ => ⟨rfl, rfl⟩⟩
  | cons x xs ih =>
    rw [List.forall_mem_cons, ← ih (i + 1), List.map_cons, List.map_cons, List.filterMap_cons,
      List.filterMap_cons]
    cases hf : f x with
    | none =>
      cases hg : g x with
      | none => exact (and_iff_right rfl).symm
      | some z =>
        refine ⟨fun h => absurd h.1.symm (nonzeroFrom_succ_ne rfl), fun h => ?_⟩
        cases h.1
    | some y =>
      cases hg : g x with
      | none =>
        refine ⟨fun h => absurd h.1 (nonzeroFrom_succ_ne rfl), fun h => ?_⟩
        cases h.1
      | some z =>
        simp only [Option.isSome_some, nonzeroFrom, List.cons.injEq, true_and, Option.some.injEq]
        exact and_left_comm

theorem map_getD_range [Inhabited α] (xs : List α) :
    (List.range xs.length).map (fun i => xs.getD i default) = xs := by
  refine List.ext_getElem (by rw [List.length_map, List.length_range]) fun i hi hxs => ?_
  rw [List.getElem_map, List.getElem_range, List.getD_eq_getElem _ _ hxs]

/-- **A permutation of the indices selects a permutation of the elements.** -/
theorem gather_perm [Inhabited α] {xs : List α} {order : List ℕ}
    (h : order.Perm (List.range xs.length)) :
    ∃ ys, gather xs order = some ys ∧ ys.Perm xs := by
  refine ⟨_, gather_eq_some fun i hi => List.mem_range.mp (h.subset hi), ?_⟩
  have hperm := h.map fun i => xs.getD i default
  rwa [map_getD_range] at hperm
