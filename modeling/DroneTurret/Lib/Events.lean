import Mathlib.Data.List.Pairwise
import Mathlib.Data.List.Nodup
import Mathlib.Order.Defs.PartialOrder

/-!
# Events of a stream, with their places

A stream is cut into pieces, and some pieces make an event. `stamped f` lists the events of the
pieces together with the place in the stream at which each of them begins. Two ways to cut the same
stream make the same events if and only if the lists are equal: every event once, in the same order
and at the same place.

Places increase along the list, so `stamped_eq_iff` reduces this equality to a comparison of single
events.
-/

namespace Events

variable {α V : Type*}

/-- The events of the pieces, the first of which begins at `place`. An event begins `k` elements
into its piece. -/
def stamped (f : List α → Option (ℕ × V)) (place : ℕ) : List (List α) → List (ℕ × V)
  | [] => []
  | p :: ps =>
    ((f p).map fun e => (place + e.1, e.2)).toList ++ stamped f (place + p.length) ps

variable {f g : List α → Option (ℕ × V)}

theorem mem_stamped {place n : ℕ} {v : V} {ps : List (List α)} :
    (n, v) ∈ stamped f place ps ↔
      ∃ pre p post k, ps = pre ++ p :: post ∧ f p = some (k, v) ∧
        n = place + pre.flatten.length + k := by
  induction ps generalizing place with
  | nil => simp [stamped]
  | cons p ps ih =>
    rw [stamped, List.mem_append, ih]
    constructor
    · rintro (h | ⟨pre, q, post, k, rfl, hq, rfl⟩)
      · obtain ⟨e, he, hv⟩ := Option.map_eq_some_iff.mp (Option.mem_toList.mp h)
        obtain ⟨rfl, rfl⟩ := Prod.mk.inj hv
        exact ⟨[], p, ps, e.1, rfl, he, rfl⟩
      · refine ⟨p :: pre, q, post, k, rfl, hq, ?_⟩
        rw [List.flatten_cons, List.length_append]
        omega
    · rintro ⟨pre, q, post, k, hps, hq, rfl⟩
      cases pre with
      | nil =>
        obtain ⟨rfl, rfl⟩ := List.cons.inj hps
        exact .inl (Option.mem_toList.mpr (by rw [hq]; rfl))
      | cons p' pre =>
        obtain ⟨rfl, rfl⟩ := List.cons.inj hps
        refine .inr ⟨pre, q, post, k, rfl, hq, ?_⟩
        rw [List.flatten_cons, List.length_append]
        omega

/-- Events that begin inside their pieces are in the order of their places. -/
theorem pairwise_stamped (hf : ∀ p k v, f p = some (k, v) → k < p.length) (place : ℕ)
    (ps : List (List α)) : (stamped f place ps).Pairwise fun a b => a.1 < b.1 := by
  induction ps generalizing place with
  | nil => exact .nil
  | cons p ps ih =>
    rw [stamped, List.pairwise_append]
    refine ⟨?_, ih _, ?_⟩
    · cases f p <;> simp
    · rintro ⟨n, v⟩ hn ⟨m, w⟩ hm
      obtain ⟨⟨k, v'⟩, he, hv⟩ := Option.map_eq_some_iff.mp (Option.mem_toList.mp hn)
      obtain ⟨rfl, rfl⟩ := Prod.mk.inj hv
      obtain ⟨pre, q, post, j, -, -, rfl⟩ := mem_stamped.mp hm
      have hk := hf p k v' he
      change place + k < place + p.length + pre.flatten.length + j
      omega

/-- **Two ways to cut a stream make the same events** if each event of the one is an event of the
other at the same place. -/
theorem stamped_eq_iff (hf : ∀ p k v, f p = some (k, v) → k < p.length)
    (hg : ∀ p k v, g p = some (k, v) → k < p.length) {ps qs : List (List α)} :
    stamped f 0 ps = stamped g 0 qs ↔
      ∀ n v, (n, v) ∈ stamped f 0 ps ↔ (n, v) ∈ stamped g 0 qs := by
  refine ⟨fun h n v => by rw [h], fun h => ?_⟩
  have hps := pairwise_stamped hf 0 ps
  have hqs := pairwise_stamped hg 0 qs
  have hirrefl : ∀ a b : ℕ × V, a.1 < b.1 → a ≠ b := by
    rintro a b hab rfl
    exact Nat.lt_irrefl _ hab
  have hperm : (stamped f 0 ps).Perm (stamped g 0 qs) :=
    (List.perm_ext_iff_of_nodup (hps.imp (hirrefl _ _)) (hqs.imp (hirrefl _ _))).mpr fun e => h e.1 e.2
  refine hperm.eq_of_pairwise (fun a b _ _ hab hba => ?_) hps hqs
  exact absurd (Nat.lt_trans hab hba) (Nat.lt_irrefl _)

end Events
