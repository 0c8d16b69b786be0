import DroneTurret.DbClient.Accumulator

/-!
# The frames in the array

What `recv_msg` finds in its array with `memchr` and copies from there is what `split` says of the
text that has been gathered. So a round of the loop does what `recv` does, and the handlers are
called as in `recvMsg`.

## Main definitions

* `RecvMsg.held` — what has been gathered
* `RecvMsg.FrameAt` — a frame, by the pointers to its brackets
* `reads`, `left` — the reads of a run, and what `recv` leaves after them

## Main results

* `RecvMsg.Valid.scan_refines` — the inner loop
* `RecvMsg.Valid.round` — a round
* `recvLoop_refines_recvMsg` — what is gathered and called, in every run
-/

namespace DroneTurret

namespace DbClient

open Blocks CString Relay

namespace RecvMsg

/-- What has been gathered. -/
def held (s : RecvMsg) : List Byte := s.accum.take s.accLen

variable {s : RecvMsg}

theorem Valid.length_held (h : s.Valid) : s.held.length = s.accLen := by
  have haccum := h.accum
  have hlen := h.accLen
  rw [held, List.length_take]
  omega

/-- What `memchr` looks at from an offset on. -/
theorem Valid.memchrAt_eq (h : s.Valid) {i : ℕ} (hi : i ≤ s.accLen) (c : Byte) :
    memchrAt s.accum i (sizeDiff s.accLen i) c =
      (memchr (s.held.drop i) c).map fun r => i + r.1.length := by
  rw [memchrAt, h.sizeDiff_eq hi (Nat.le_refl _), held, List.drop_take]

/-- A frame at the pointers, with the text behind its brackets. -/
structure FrameAt (s : RecvMsg) (l r : ℕ) (tag z : List Byte) : Prop where
  opened : s.held.drop (l + 1) = tag ++ rb :: z
  closed : r = l + 1 + tag.length

theorem FrameAt.held_drop {l r : ℕ} {tag z : List Byte} (h : FrameAt s l r tag z) :
    s.held.drop (r + 1) = z := by
  have hlen : r + 1 = l + 1 + (tag ++ [rb]).length := by
    rw [h.closed, List.length_append, List.length_singleton, Nat.add_assoc]
  have hsplit : tag ++ rb :: z = tag ++ [rb] ++ z := List.append_cons tag rb z
  rw [hlen, ← List.drop_drop, h.opened, hsplit, List.drop_left]

theorem FrameAt.lt {l r : ℕ} {tag z : List Byte} (h : FrameAt s l r tag z) (hs : s.Valid) :
    l < r ∧ r < s.accLen := by
  have hlen := congrArg List.length h.opened
  have hclosed := h.closed
  rw [List.length_drop, hs.length_held, List.length_append, List.length_cons] at hlen
  omega

/-- The payload ends at the next opening bracket. -/
theorem FrameAt.stop_eq {l r : ℕ} {tag z : List Byte} (h : FrameAt s l r tag z) (hs : s.Valid) :
    s.stop r = r + 1 + (z.takeWhile (· != lb)).length := by
  obtain ⟨-, hr⟩ := h.lt hs
  have hlen := congrArg List.length h.held_drop
  rw [List.length_drop, hs.length_held] at hlen
  rw [stop, hs.memchrAt_eq hr, h.held_drop, memchr]
  split_ifs with hmem
  · rfl
  · have hall : z.takeWhile (· != lb) = z :=
      List.takeWhile_eq_self_iff.mpr fun b hb => by simpa using fun heq : b = lb => hmem (heq ▸ hb)
    rw [Option.map_none, Option.getD_none, hall]
    omega

/-- The part of the payload that is copied. -/
theorem FrameAt.block_eq {l r : ℕ} {tag z : List Byte} (h : FrameAt s l r tag z) (hs : s.Valid) :
    s.block r = (z.takeWhile (· != lb)).take (payloadSize - 1) := by
  obtain ⟨-, hr⟩ := h.lt hs
  have hstop := h.stop_eq hs
  have hcopy := hs.copyLen_eq hr
  have hheld := h.held_drop
  have htakeWhile : z.take (z.takeWhile (· != lb)).length = z.takeWhile (· != lb) :=
    List.prefix_iff_eq_take.mp (List.takeWhile_prefix _) |>.symm
  have hle := (List.takeWhile_prefix (l := z) (· != lb)).length_le
  have hlen := congrArg List.length hheld
  rw [List.length_drop, hs.length_held] at hlen
  rw [held, List.drop_take] at hheld
  rw [block, List.drop_set_of_lt (Nat.lt_succ_self r)]
  calc
    (s.accum.drop (r + 1)).take (s.copyLen r)
      = ((s.accum.drop (r + 1)).take (s.accLen - (r + 1))).take (s.copyLen r) := by
        rw [List.take_take, Nat.min_eq_left (by omega)]
    _ = (z.take (z.takeWhile (· != lb)).length).take (payloadSize - 1) := by
        rw [hheld, List.take_take, hcopy, hstop, Nat.add_sub_cancel_left, Nat.min_comm]
    _ = _ := by rw [htakeWhile]

/-- What has been gathered is kept from the next frame on. -/
theorem FrameAt.drop_stop {l r : ℕ} {tag z : List Byte} (h : FrameAt s l r tag z) (hs : s.Valid) :
    (s.frame l r).1.held.drop (s.stop r) = z.dropWhile (· != lb) := by
  have hlt : r < s.stop r := by
    rw [h.stop_eq hs]
    omega
  change ((s.accum.set r 0).take s.accLen).drop (s.stop r) = _
  rw [List.take_set, List.drop_set_of_lt hlt, ← held, h.stop_eq hs, ← List.drop_drop, h.held_drop]
  calc
    z.drop (z.takeWhile (· != lb)).length
      = (z.takeWhile (· != lb) ++ z.dropWhile (· != lb)).drop (z.takeWhile (· != lb)).length := by
        rw [List.takeWhile_append_dropWhile]
    _ = z.dropWhile (· != lb) := List.drop_left

/-- The tag as the handlers get it. -/
theorem FrameAt.tag_eq {l r : ℕ} {tag z : List Byte} (h : FrameAt s l r tag z) (hs : s.Valid) :
    stringAt (s.accum.set r 0) (l + 1) = cString tag := by
  obtain ⟨hl, hr⟩ := h.lt hs
  have haccum : s.accum.drop (l + 1) = tag ++ rb :: (z ++ s.accum.drop s.accLen) := by
    have hopened := h.opened
    have hsplit : s.accum = s.held ++ s.accum.drop s.accLen := (List.take_append_drop _ _).symm
    conv_lhs => rw [hsplit]
    rw [List.drop_append_of_le_length (by rw [hs.length_held]; omega), hopened,
      List.append_assoc, List.cons_append]
  have hset : (s.accum.set r 0).drop (l + 1) = (s.accum.drop (l + 1)).set tag.length 0 := by
    rw [List.drop_set, if_neg (by omega), h.closed, Nat.add_sub_cancel_left]
  rw [stringAt, hset, haccum, List.set_append_right _ _ (Nat.le_refl _), Nat.sub_self,
    List.set_cons_zero, cString_append_zero_cons]

/-- **The handlers** get the tag and the trimmed payload. -/
theorem FrameAt.calls_eq {l r : ℕ} {tag z : List Byte} (h : FrameAt s l r tag z) (hs : s.Valid) :
    (s.frame l r).1.calls = s.calls ++
      (dispatch tag ((z.takeWhile (· != lb)).take (payloadSize - 1))).toList := by
  obtain ⟨-, hr⟩ := h.lt hs
  have hcopied := hs.copied_eq hr
  have hzero : 0 ∈ s.copied r := hcopied ▸ List.mem_append_right _ List.mem_cons_self
  have hleft := ltrimInplace_leaves hzero
  have hright := rtrimInplace_leaves hleft.nul
  have htext : cString (rtrimInplace (ltrimInplace (s.copied r)).1).1 =
      ((cString (s.block r)).dropWhile isSpace).rdropWhile isSpace := by
    rw [hright.string, hleft.string, hcopied, cString_append_zero_cons]
  rw [dispatch, ← h.block_eq hs, ← h.tag_eq hs, ← htext]
  rfl

/-- **One iteration**, as `split` describes it. -/
theorem Valid.scan_cases (h : s.Valid) {i : ℕ} (hi : i ≤ s.accLen) :
    ((s.scan i).1 = { s with place := .keep i } ∧
        ∀ m, split m (s.held.drop i) = ([], s.held.drop i)) ∨
      ∃ l r tag z, FrameAt s l r tag z ∧ (s.scan i).1 = (s.frame l r).1 ∧
        ∀ m, split (m + 1) (s.held.drop i) =
          ((tag, (z.takeWhile (· != lb)).take (payloadSize - 1)) ::
            (split m (z.dropWhile (· != lb))).1, (split m (z.dropWhile (· != lb))).2) := by
  by_cases hlt : i < s.accLen
  swap
  · have hnil : s.held.drop i = [] := by
      rw [List.drop_eq_nil_iff, h.length_held]
      omega
    refine .inl ⟨by rw [RecvMsg.scan, if_neg hlt], fun m => split_of_incomplete m ?_⟩
    intro junk r heq
    rw [hnil] at heq
    cases junk <;> cases heq
  rw [RecvMsg.scan, if_pos hlt]
  dsimp only
  rw [h.memchrAt_eq hi]
  cases hl : memchr (s.held.drop i) lb with
  | none =>
    refine .inl ⟨rfl, fun m => split_of_incomplete m fun junk r heq _ => ?_⟩
    exact absurd (heq ▸ List.mem_append_right _ List.mem_cons_self) (memchr_eq_none_iff.mp hl)
  | some uv =>
    obtain ⟨u, v⟩ := uv
    obtain ⟨hw, hu⟩ := memchr_eq_some_iff.mp hl
    have hopened : s.held.drop (i + u.length + 1) = v := by
      have hsplit : s.held.drop i = u ++ [lb] ++ v := hw.trans (List.append_cons u lb v)
      have hlen : i + u.length + 1 = i + (u ++ [lb]).length := by
        rw [List.length_append, List.length_singleton, Nat.add_assoc]
      rw [hlen, ← List.drop_drop, hsplit, List.drop_left]
    have hinner : i + u.length + 1 ≤ s.accLen := by
      have hlen := congrArg List.length hw
      rw [List.length_drop, h.length_held, List.length_append, List.length_cons] at hlen
      omega
    dsimp only [Option.map_some]
    rw [h.memchrAt_eq hinner, hopened]
    cases hr : memchr v rb with
    | none =>
      refine .inl ⟨rfl, fun m => split_of_incomplete m fun junk r heq hjunk => ?_⟩
      have hfirst := memchr_eq_some_iff.mpr ⟨heq, hjunk⟩
      rw [hl, Option.some.injEq, Prod.mk.injEq] at hfirst
      exact hfirst.2 ▸ memchr_eq_none_iff.mp hr
    | some tz =>
      obtain ⟨tag, z⟩ := tz
      obtain ⟨hv, htag⟩ := memchr_eq_some_iff.mp hr
      refine .inr ⟨i + u.length, _, tag, z, ⟨hopened.trans hv, rfl⟩, rfl, fun m => ?_⟩
      rw [hw, hv, split_of_tag m hu htag]

/-- **The loop**, as `split` describes it. -/
theorem Valid.scan_refines {m : ℕ} (h : s.Valid) {i : ℕ} (hplace : s.place = .scan i)
    (hm : s.accLen - i ≤ m) :
    ∃ k t j, recvLoop.run (fun _ _ => True) s (List.replicate k .next) = some t ∧ t.Valid ∧
      t.place = .keep j ∧ t.held.drop j = (split m (s.held.drop i)).2 ∧
      t.calls = s.calls ++ DbClient.calls (split m (s.held.drop i)).1 := by
  have hi : i ≤ s.accLen := by
    have := h.place
    rwa [hplace] at this
  have hstep := step_scan hplace
  have hvalid := (h.scan hi).valid
  induction m generalizing s i with
  | zero =>
    have hkeep : (s.scan i).1 = { s with place := .keep i } := by
      rw [RecvMsg.scan, if_neg (by omega)]
    refine ⟨1, (s.scan i).1, i, ?_, hvalid, ?_⟩
    · exact Transition.run_cons_eq_some.mpr ⟨trivial, _, hstep, rfl⟩
    · rw [hkeep]
      exact ⟨rfl, rfl, (List.append_nil _).symm⟩
  | succ m ih =>
    rcases h.scan_cases hi with ⟨hkeep, hsplit⟩ | ⟨l, r, tag, z, hframe, hscan, hsplit⟩
    · refine ⟨1, (s.scan i).1, i, ?_, hvalid, ?_⟩
      · exact Transition.run_cons_eq_some.mpr ⟨trivial, _, hstep, rfl⟩
      · rw [hkeep, hsplit]
        exact ⟨rfl, rfl, (List.append_nil _).symm⟩
    · obtain ⟨-, hr⟩ := hframe.lt h
      obtain ⟨hle, hstop⟩ := h.stop hr
      have hnext : (s.frame l r).1.place = .scan (s.stop r) := rfl
      have hil : i < s.stop r := by
        rcases h.scan_place i with hkeep | ⟨j, hj, hlt⟩
        · rw [hscan] at hkeep
          cases hkeep
        · rw [hscan] at hj
          cases hj
          exact hlt
      rw [hscan] at hvalid hstep
      obtain ⟨k, t, j, hrun, ht, hplace', hheld, hcalls⟩ :=
        ih hvalid hnext (show s.accLen - s.stop r ≤ m by omega) hstop (step_scan hnext)
          (hvalid.scan hstop).valid
      rw [hframe.drop_stop h] at hheld hcalls
      refine ⟨k + 1, t, j, ?_, ht, hplace', ?_, ?_⟩
      · exact Transition.run_cons_eq_some.mpr ⟨trivial, _, hstep, hrun⟩
      · rw [hheld, hsplit]
      · rw [hcalls, hframe.calls_eq h, hsplit, List.append_assoc]
        congr 1
        rw [DbClient.calls, DbClient.calls, List.filterMap_cons]
        cases dispatch tag ((z.takeWhile (· != lb)).take (payloadSize - 1)) <;> rfl

theorem run_one {s t : RecvMsg} {a : Input} (h : recvLoop.step s a = some t) :
    recvLoop.run (fun _ _ => True) s [a] = some t :=
  Transition.run_cons_eq_some.mpr ⟨trivial, t, h, rfl⟩

/-- What has been gathered at the inner loop. -/
theorem Valid.held_append (h : s.Valid) {rd : List Byte} (hrd : s.rx.take rd.length = rd)
    (hfit : s.accLen + rd.length < accumSize) :
    (s.append rd.length).1.held = s.held ++ rd := by
  have haccum := h.accum
  have hset := store_set (s := s.accum) (t := rd) (p := s.accLen) (by omega) 0
  have hlen : (s.accum.take s.accLen ++ rd).length = s.accLen + rd.length := by
    rw [List.length_append, ← held, h.length_held]
  change ((store s.accum s.accLen (s.rx.take rd.length)).set _ 0).take (s.accLen + rd.length) = _
  rw [hrd, hset, ← hlen, List.take_left, held]

/-- What is left of it afterwards. -/
theorem Valid.held_keep (h : s.Valid) {i : ℕ} (hi : i ≤ s.accLen) :
    (s.keep i).1.held = s.held.drop i := by
  have hlen := h.length_held
  rw [RecvMsg.keep]
  split_ifs with hlt
  · have hrest := h.sizeDiff_eq hi (Nat.le_refl _)
    have hblock : ((s.accum.drop i).take (s.accLen - i)).length = s.accLen - i := by
      rw [← List.drop_take, ← held, List.length_drop, hlen]
    dsimp only [held]
    rw [hrest, store_zero, List.take_left' hblock, List.drop_take]
  · have hnil : s.held.drop i = [] := by
      rw [List.drop_eq_nil_iff, hlen]
      omega
    rw [hnil]
    exact List.take_zero

/-- What `read` has stored. -/
theorem Valid.rx_read (h : s.Valid) {rd : List Byte} (hne : rd ≠ [])
    (hrd : rd.length ≤ payloadSize - 1) : (s.read rd).1.rx.take rd.length = rd := by
  have hrx := h.rx
  obtain ⟨hpayload, -⟩ := sizes
  rw [RecvMsg.read, if_neg hne]
  dsimp only
  rw [store_zero_set (by omega), List.take_left]

/-- What does not fit is thrown away. -/
theorem held_fit (s : RecvMsg) (n : ℕ) :
    (s.fit n).1.held = if s.accLen + n ≥ accumSize then [] else s.held := by
  rw [RecvMsg.fit]
  dsimp only [held]
  split_ifs
  · exact List.take_zero
  · rfl

/-- What has been gathered when the inner loop begins. -/
theorem Valid.gather (h : s.Valid) (hplace : s.place = .read) {rd : List Byte} (hne : rd ≠ [])
    (hrd : rd.length ≤ payloadSize - 1) :
    ∃ t, recvLoop.run (fun _ _ => True) s [.read rd, .next, .next] = some t ∧ t.Valid ∧
      t.place = .scan 0 ∧ t.calls = s.calls ∧
      t.held = (if s.held.length + rd.length ≥ accumSize then [] else s.held) ++ rd := by
  obtain ⟨hpayload, -⟩ := sizes
  have hn : rd.length < payloadSize := by omega
  have hread : recvLoop.step s (.read rd) = some (s.read rd).1 := by
    refine step_of_turn ?_
    rw [RecvMsg.turn, hplace]
    dsimp only
    rw [if_pos hrd]
  have hstate : (s.read rd).1.place = .fit rd.length ∧ (s.read rd).1.held = s.held ∧
      (s.read rd).1.accLen = s.accLen ∧ (s.read rd).1.calls = s.calls := by
    rw [RecvMsg.read, if_neg hne]
    exact ⟨rfl, rfl, rfl, rfl⟩
  have hrx := h.rx_read hne hrd
  have hvalid := (h.read hrd).valid
  generalize (s.read rd).1 = s₁ at hread hstate hrx hvalid
  obtain ⟨hplace₁, hheld₁, hlen₁, hcalls₁⟩ := hstate
  have hfit : recvLoop.step s₁ .next = some (s₁.fit rd.length).1 := by
    refine step_of_turn ?_
    rw [RecvMsg.turn, hplace₁]
  have hvalid₂ := (hvalid.fit hn).valid
  have hroom : (s₁.fit rd.length).1.accLen + rd.length < accumSize := hvalid₂.place.2
  have happend : recvLoop.step (s₁.fit rd.length).1 .next =
      some ((s₁.fit rd.length).1.append rd.length).1 := step_of_turn rfl
  refine ⟨_, ?_, (hvalid₂.append hn hroom).valid, rfl, hcalls₁, ?_⟩
  · refine Transition.run_cons_eq_some.mpr ⟨trivial, _, hread, ?_⟩
    exact Transition.run_cons_eq_some.mpr ⟨trivial, _, hfit, run_one happend⟩
  · rw [hvalid₂.held_append hrx hroom, held_fit, hlen₁, hheld₁, h.length_held]

/-- **A round** does what `recv` does, and waits for nothing but its read. -/
theorem Valid.round (h : s.Valid) (hplace : s.place = .read) {rd : List Byte} (hne : rd ≠ [])
    (hrd : rd.length ≤ payloadSize - 1) :
    ∃ k t, recvLoop.run (fun _ _ => True) s (.read rd :: List.replicate k .next) = some t ∧
      t.Valid ∧ t.place = .read ∧ t.held = (recv s.held rd).2 ∧
      t.calls = s.calls ++ (recv s.held rd).1 := by
  obtain ⟨u, hgather, hu, huplace, hucalls, huheld⟩ := h.gather hplace hne hrd
  obtain ⟨k, t, j, hscan, ht, htplace, hrest, htcalls⟩ :=
    hu.scan_refines huplace (Nat.le_refl (u.accLen - 0))
  rw [Nat.sub_zero, ← hu.length_held, List.drop_zero, huheld] at hrest htcalls
  have hj : j ≤ t.accLen := by
    have := ht.place
    rwa [htplace] at this
  have hkeep : recvLoop.step t .next = some (t.keep j).1 := by
    refine step_of_turn ?_
    rw [RecvMsg.turn, htplace]
  have hkept : (t.keep j).1.place = .read ∧ (t.keep j).1.calls = t.calls := by
    rw [RecvMsg.keep]
    split_ifs <;> exact ⟨rfl, rfl⟩
  refine ⟨k + 3, (t.keep j).1, ?_, (ht.keep hj).valid, hkept.1, ?_, ?_⟩
  · have hinputs : Input.read rd :: List.replicate (k + 3) Input.next =
        [.read rd, .next, .next] ++ (List.replicate k .next ++ [.next]) := by
      rw [← List.replicate_succ']
      rfl
    rw [hinputs]
    exact Transition.run_append hgather (Transition.run_append hscan (run_one hkeep))
  · rw [ht.held_keep hj, hrest]
    rfl
  · rw [hkept.2, htcalls, hucalls]
    rfl

/-! ### Runs -/

/-- The loop waits for `read` at one place only. -/
theorem step_read_place {t : RecvMsg} {rd : List Byte} (h : recvLoop.step s (.read rd) = some t) :
    s.place = .read ∧ rd.length ≤ payloadSize - 1 ∧ t = (s.read rd).1 := by
  obtain ⟨r, hturn, rfl⟩ := Option.map_eq_some_iff.mp h
  rw [turn] at hturn
  split at hturn
  · rename_i hplace
    split_ifs at hturn with hrd
    exact ⟨hplace, hrd, congrArg Prod.fst (Option.some.inj hturn).symm⟩
  · cases hturn

theorem step_next_place {t : RecvMsg} (h : recvLoop.step s .next = some t) :
    s.place ≠ .read ∧ s.place ≠ .returned := by
  obtain ⟨r, hturn, -⟩ := Option.map_eq_some_iff.mp h
  constructor <;> intro hplace <;> rw [turn, hplace] at hturn <;> cases hturn

/-- Behind the loop nothing happens. -/
theorem run_of_returned {t : RecvMsg} {as : List Input} (hplace : s.place = .returned)
    (h : recvLoop.run (fun _ _ => True) s as = some t) : t = s := by
  cases as with
  | nil => exact (Option.some.inj h).symm
  | cons a as =>
    obtain ⟨-, u, hu, -⟩ := Transition.run_cons_eq_some.mp h
    cases a with
    | next => exact absurd hplace (step_next_place hu).2
    | read rd => exact absurd (hplace.symm.trans (step_read_place hu).1) Place.noConfusion

/-- Steps that wait for nothing are taken by every run that comes back to `read`. -/
theorem run_of_replicate_next {k : ℕ} {t u : RecvMsg} {as : List Input}
    (hu : recvLoop.run (fun _ _ => True) s (List.replicate k .next) = some u)
    (ht : recvLoop.run (fun _ _ => True) s as = some t) (hplace : t.place = .read) :
    ∃ later, as = List.replicate k .next ++ later ∧
      recvLoop.run (fun _ _ => True) u later = some t := by
  induction k generalizing s as with
  | zero =>
    obtain rfl := Option.some.inj hu
    exact ⟨as, rfl, ht⟩
  | succ k ih =>
    obtain ⟨-, v, hv, hu⟩ := Transition.run_cons_eq_some.mp hu
    obtain ⟨hread, -⟩ := step_next_place hv
    cases as with
    | nil =>
      obtain rfl := Option.some.inj ht
      exact absurd hplace hread
    | cons a as =>
      obtain ⟨-, w, hw, ht⟩ := Transition.run_cons_eq_some.mp ht
      cases a with
      | read rd => exact absurd (step_read_place hw).1 hread
      | next =>
        obtain rfl := Option.some.inj (hv.symm.trans hw)
        obtain ⟨later, rfl, hlater⟩ := ih hu ht
        exact ⟨later, rfl, hlater⟩

end RecvMsg

/-- The reads of a run. -/
def reads (as : List Input) : List (List Byte) :=
  as.filterMap fun a =>
    match a with
    | .read rd => some rd
    | .next => none

/-- What `recv` leaves after some reads. -/
def left (accum : List Byte) (rds : List (List Byte)) : List Byte :=
  rds.foldl (fun accum rd => (recv accum rd).2) accum

theorem reads_append (as bs : List Input) : reads (as ++ bs) = reads as ++ reads bs :=
  List.filterMap_append

theorem reads_replicate_next (k : ℕ) : reads (List.replicate k .next) = [] :=
  List.filterMap_eq_nil_iff.mpr fun a ha => by rw [List.eq_of_mem_replicate ha]

/-- The reads of a round. -/
theorem reads_round (rd : List Byte) (k : ℕ) (later : List Input) :
    reads (.read rd :: (List.replicate k .next ++ later)) = rd :: reads later := by
  have hround : reads (List.replicate k .next ++ later) = reads later := by
    rw [reads_append, reads_replicate_next, List.nil_append]
  exact congrArg (List.cons rd) hround

open RecvMsg in
/-- A run from `read` to `read` is made of rounds; the induction is on its length. -/
theorem RecvMsg.Valid.rounds {n : ℕ} {s t : RecvMsg} (h : s.Valid) (hplace : s.place = .read)
    {as : List Input} (hn : as.length ≤ n)
    (hrun : recvLoop.run (fun _ _ => True) s as = some t) (ht : t.place = .read) :
    t.held = left s.held (reads as) ∧ t.calls = s.calls ++ recvMsg s.held (reads as) := by
  induction n generalizing s as with
  | zero =>
    obtain rfl := List.eq_nil_of_length_eq_zero (Nat.le_zero.mp hn)
    obtain rfl := Option.some.inj hrun
    exact ⟨rfl, (List.append_nil _).symm⟩
  | succ n ih =>
    cases as with
    | nil =>
      obtain rfl := Option.some.inj hrun
      exact ⟨rfl, (List.append_nil _).symm⟩
    | cons a as =>
      obtain ⟨-, v, hv, hlater⟩ := Transition.run_cons_eq_some.mp hrun
      cases a with
      | next => exact absurd hplace (step_next_place hv).1
      | read rd =>
        obtain ⟨-, hrd, hvread⟩ := step_read_place hv
        -- after a read without bytes `recv_msg` has returned, and never reads again
        have hne : rd ≠ [] := by
          rintro rfl
          have hreturned : v.place = .returned := by rw [hvread, RecvMsg.read, if_pos rfl]
          rw [run_of_returned hreturned hlater, hreturned] at ht
          cases ht
        obtain ⟨k, u, hround, hu, huplace, hheld, hcalls⟩ := h.round hplace hne hrd
        obtain ⟨-, v', hv', hnext⟩ := Transition.run_cons_eq_some.mp hround
        obtain rfl := Option.some.inj (hv.symm.trans hv')
        obtain ⟨later, rfl, hrest⟩ := run_of_replicate_next hnext hlater ht
        have hlen : later.length ≤ n := by
          rw [List.length_cons, List.length_append] at hn
          omega
        obtain ⟨hleft, hmade⟩ := ih hu huplace hlen hrest
        rw [reads_round]
        refine ⟨?_, ?_⟩
        · rw [hleft, hheld]
          rfl
        · rw [hmade, hcalls, hheld, recvMsg, if_neg hne, List.append_assoc]

open RecvMsg in
/-- There is a run for any reads. -/
theorem RecvMsg.Valid.exists_run {s : RecvMsg} (h : s.Valid) (hplace : s.place = .read)
    {rds : List (List Byte)} (hrds : ∀ rd ∈ rds, rd ≠ [] ∧ rd.length ≤ payloadSize - 1) :
    ∃ as t, recvLoop.run (fun _ _ => True) s as = some t ∧ reads as = rds ∧ t.place = .read := by
  induction rds generalizing s with
  | nil => exact ⟨[], s, rfl, rfl, hplace⟩
  | cons rd rds ih =>
    obtain ⟨⟨hne, hrd⟩, hrest⟩ := List.forall_mem_cons.mp hrds
    obtain ⟨k, t, hround, ht, htplace, -, -⟩ := h.round hplace hne hrd
    obtain ⟨as, u, hlater, hreads, huplace⟩ := ih ht htplace hrest
    refine ⟨.read rd :: (List.replicate k .next ++ as), u, ?_, ?_, huplace⟩
    · exact Transition.run_append hround hlater
    · rw [reads_round, hreads]

/-- **The receiver.** Every run of the program keeps to its arrays, and whenever it is back at
`read`, it has gathered and called what `recvMsg` says for what its reads have stored. Any reads
have such a run. -/
theorem recvLoop_refines_recvMsg {s : RecvMsg} (h : s.Valid) (hplace : s.place = .read) :
    (∀ as t, recvLoop.run (fun _ _ => True) s as = some t →
      t.Valid ∧ (∀ a r, t.turn a = some r → ∀ x ∈ r.2, x.Inside Buffer.size) ∧
        (t.place = .read → t.held = left s.held (reads as) ∧
          t.calls = s.calls ++ recvMsg s.held (reads as))) ∧
      ∀ rds : List (List Byte), (∀ rd ∈ rds, rd ≠ [] ∧ rd.length ≤ payloadSize - 1) →
        ∃ as t, recvLoop.run (fun _ _ => True) s as = some t ∧ reads as = rds ∧
          t.place = .read := by
  refine ⟨fun as t hrun => ?_, fun rds hrds => h.exists_run hplace hrds⟩
  have ht : t.Valid := by
    refine Transition.run_invariant RecvMsg.Valid (fun u a v hu _ hv => ?_) h hrun
    obtain ⟨r, hturn, rfl⟩ := Option.map_eq_some_iff.mp hv
    exact (hu.turn hturn).valid
  exact ⟨ht, fun a r hr => (ht.turn hr).inside,
    fun htplace => h.rounds hplace (Nat.le_refl as.length) hrun htplace⟩

/-- A request in two reads, with the start of another one. -/
theorem recvLoop_refines_recvMsg_witness :
    ∃ as t, recvLoop.run (fun _ _ => True) RecvMsg.start as = some t ∧
      t.held = bytes "[B" ∧
      t.calls = [⟨.getdb, bytes "A", bytes "GETDB"⟩] := by
  obtain ⟨hruns, hexists⟩ := recvLoop_refines_recvMsg RecvMsg.initial_start.valid rfl
  obtain ⟨as, t, hrun, hreads, htplace⟩ :=
    hexists [bytes "[A", bytes "]GETDB\n[B"] (by decide)
  obtain ⟨hheld, hcalls⟩ := (hruns as t hrun).2.2 htplace
  rw [hreads] at hheld hcalls
  exact ⟨as, t, hrun, hheld.trans (by decide), hcalls.trans (by decide)⟩

end DbClient

end DroneTurret
