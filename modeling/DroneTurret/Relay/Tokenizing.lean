import DroneTurret.Relay.Handling

/-!
# Cutting messages

`strtok` keeps its position in one variable for the whole process, and `main` and every thread call
it without a lock. In `Server` a message is read and cut into its tokens in one step. Here a call of
`strtok` is a step of its own, with the arrays that it works in and the position it resumes from:
whoever asks for the next token gets it from the array that was last cut, whose ever it is.

As long as nobody begins to cut a message while another one is being cut, every message is cut as in
`Server`, whatever else happens between two calls.

## Main definitions

* `Cutting`, `cutting` — the server with its calls of `strtok`
* `Exclusive` — no message is read while another one is being cut
* `Cutting.Alone` — what the arrays hold in the runs that meet the condition

## Main results

* `Cutting.Alone.step` — the invariant, one lemma for each kind of step
* `relayed_once` — every message once, in these runs
-/

namespace DroneTurret

namespace Relay

open CString Function Transition

/-- Who cuts messages: `main`, or a thread. -/
inductive Cutter
  | main
  | thread (k : ℕ)
  deriving DecidableEq

/-- A pointer into the characters of one of them. -/
structure Pointer where
  owner : Cutter
  offset : ℕ
  deriving DecidableEq

/-- Where a token loop is. -/
structure Loop where
  /-- What has been read. -/
  rd : List Byte
  /-- Whether the next call is the one with the array. -/
  first : Bool
  /-- How many tokens may still be asked for. -/
  calls : ℕ
  /-- The entry for the next one. -/
  index : ℕ

/-- Where the next call begins. -/
def Loop.resume (l : Loop) (o : Cutter) (saved : Pointer) : Pointer :=
  if l.first then ⟨o, 0⟩ else saved

structure Cutting extends Watched where
  /-- `idpasswd`, and `msg` of each thread. -/
  chars : Cutter → List Byte
  pArray : Cutter → List (Option Pointer)
  /-- Where `strtok(NULL, ...)` resumes. -/
  saved : Pointer
  /-- Who is in a token loop. -/
  busy : List Cutter
  loops : Cutter → Loop

/-! ### Steps -/

/-- Who takes a step. -/
def Action.cutter : Action → Cutter
  | .thread k _ => .thread k
  | .accept _ | .authenticate _ | .register _ => .main

/-- The step in which `Server` reads a message and cuts it. -/
def Cutter.receive (rd : List Byte) : Cutter → Action
  | .main => .authenticate (some rd)
  | .thread k => .thread k (.returnRead rd)

/-- A message is read. -/
def Action.cuts : Action → Bool
  | .authenticate (some rd) => !rd.isEmpty
  | .thread _ (.returnRead rd) => !rd.isEmpty
  | _ => false

namespace Server

variable (s : Server)

/-- The arrays that the next message of `main` is read into, or of a thread that waits for one. -/
def reader : Cutter → Option Scanner
  | .main => some s.buffer
  | .thread k => s.threads[k]?.bind fun th =>
    match th.phase with
    | .reading (some _) => some th.scanner.clear
    | _ => none

/-- Whether a message can be read. -/
def reads : Cutter → Bool
  | .main =>
    match s.pc with
    | .accepted _ _ => true
    | _ => false
  | .thread k => (s.reader (.thread k)).isSome

/-- The iteration of `main` from the answer on. -/
def answer (clntSock : ℤ) (conn : ℕ) : Answer × MainState → Option Server
  | (.undefined, _) => none
  | (.alreadyLogged i, m) =>
    some { s with toMainState := m, pc := .accepting, holder := update s.holder i none }
  | (.connected i, m) =>
    some { s with
      toMainState := m
      pc := .registering clntSock conn i
      auth := update s.auth conn (some (m.table i).id.val) }
  | (_, m) => some { s with toMainState := m, pc := .accepting }

/-- What is done with a message, by its first two strings. -/
def received (rd : List Byte) (first second : Option (List Byte)) : Cutter → Option Server
  | .main =>
    match s.pc with
    | .accepted clntSock conn =>
      let m := { s.toMainState with buffer := s.buffer.scan rd }
      s.answer clntSock conn <|
        match search s.table first second (List.finRange maxClnt) with
        | .alreadyLogged i => (.alreadyLogged i, { m with table := s.table.setFd i (-1) })
        | answer => (answer, m)
    | _ => none
  | .thread k => s.threads[k]?.bind fun th =>
    match th.phase with
    | .reading (some _) => first.map fun dest => s.setThread k { th with
        scanner := th.scanner.clear.scan rd
        phase := .routing
          ⟨toChar (s.table th.slot).fd, dest, toMsg (s.table th.slot).id.val second⟩ 0 }
    | _ => none

end Server

namespace Cutting

variable (s : Cutting)

/-- `msg` is cleared in front of `read`, and `idpasswd` is terminated also when nothing was read. -/
def cleared : Action → Cutter → List Byte
  | .thread k .callRead => update s.chars (.thread k) (List.replicate bufSize 0)
  | .authenticate (some _) => update s.chars .main (storeRead (s.chars .main) [])
  | _ => s.chars

/-- A thread begins with NULL in its `pArray`. -/
def started : Action → Cutter → List (Option Pointer)
  | .register _ => update s.pArray (.thread s.threads.length) (List.replicate arrCnt none)
  | _ => s.pArray

/-- A step without a message. -/
def plain (a : Action) : Option Cutting :=
  if a.cuts ∨ a.cutter ∈ s.busy then none
  else
    (s.toWatched.step a).map fun w =>
      { s with toWatched := w, chars := s.cleared a, pArray := s.started a }

/-- A message is read. -/
def read (o : Cutter) (rd : List Byte) : Option Cutting :=
  if rd ≠ [] ∧ s.reads o ∧ o ∉ s.busy then
    some { s with
      chars := update s.chars o (storeRead (s.chars o) rd)
      busy := o :: s.busy
      loops := update s.loops o ⟨rd, true, arrCnt + 1, 0⟩ }
  else none

/-- A call of `strtok`. After the last token it returns NULL, and remembers the end of the array it
was in. -/
def strtok (o : Cutter) : Option Cutting :=
  let l := s.loops o
  let p := l.resume o s.saved
  if o ∈ s.busy ∧ l.calls ≠ 0 then
    match CString.strtok isDelim (s.chars p.owner) p.offset with
    | none =>
      some { s with
        saved := ⟨p.owner, p.offset + (stringAt (s.chars p.owner) p.offset).length⟩
        loops := update s.loops o { l with first := false, calls := 0 } }
    | some (token, buf, next) =>
      some { s with
        chars := update s.chars p.owner buf
        pArray := update s.pArray o ((s.pArray o).set l.index (some ⟨p.owner, token⟩))
        saved := ⟨p.owner, next⟩
        loops := update s.loops o ⟨l.rd, false, l.calls - 1, l.index + 1⟩ }
  else none

/-- The string that an entry of `pArray` denotes. -/
def text (o : Cutter) (j : ℕ) : Option (List Byte) :=
  (s.pArray o)[j]?.join.map fun p => stringAt (s.chars p.owner) p.offset

/-- The end of a token loop, with what is done with the message next. -/
def finish (o : Cutter) : Option Cutting :=
  let rd := (s.loops o).rd
  if o ∈ s.busy ∧ (s.loops o).calls = 0 then
    (s.received rd (s.text o 0) (s.text o 1) o).map fun t => { s with
      toWatched := (s.record t (o.receive rd)).watch
      busy := s.busy.erase o }
  else none

end Cutting

inductive CutAction
  | plain (a : Action)
  | read (o : Cutter) (rd : List Byte)
  | strtok (o : Cutter)
  | finish (o : Cutter)

def Cutting.step (s : Cutting) : CutAction → Option Cutting
  | .plain a => s.plain a
  | .read o rd => s.read o rd
  | .strtok o => s.strtok o
  | .finish o => s.finish o

def cutting : Transition Cutting CutAction where
  init s := watched.init s.toWatched ∧ s.chars .main = s.buffer.buf ∧
    s.pArray .main = List.replicate arrCnt none ∧ s.busy = []
  step := Cutting.step

/-- The condition that no message is read while another one is being cut. -/
def Exclusive (s : Cutting) : CutAction → Prop
  | .read _ _ => s.busy = []
  | _ => True

instance (s : Cutting) (a : CutAction) : Decidable (Exclusive s a) :=
  match a with
  | .read _ _ => inferInstanceAs (Decidable (_ = _))
  | .plain _ | .strtok _ | .finish _ => .isTrue trivial

/-! ### Steps of the server -/

/-- The arrays of the last token loop. -/
def Server.scanner (s : Server) : Cutter → Option Scanner
  | .main => some s.buffer
  | .thread k => s.threads[k]?.map Thread.scanner

section Server

variable {s t : Server} {a : Action} {o : Cutter} {rd : List Byte}

theorem authenticate_eq_answer {clntSock : ℤ} {conn : ℕ} (hpc : s.pc = .accepted clntSock conn)
    (rd : Option (List Byte)) :
    s.authenticate rd = s.answer clntSock conn (s.toMainState.authenticate rd) := by
  rw [Server.authenticate, hpc]
  dsimp only
  generalize s.toMainState.authenticate rd = r
  obtain ⟨answer, m⟩ := r
  cases answer <;> rfl

/-- **A message that is cut as a whole** leads to what it leads to in `Server`. -/
theorem received_firstTwo {sc : Scanner} (hrd : rd ≠ []) (hsc : s.reader o = some sc) :
    s.received rd (sc.firstTwo rd).1 (sc.firstTwo rd).2 o = s.step (o.receive rd) := by
  cases o with
  | main =>
    obtain rfl := Option.some.inj hsc
    rw [Server.received, Cutter.receive, Server.step]
    split
    · rename_i clntSock conn hpc
      rw [authenticate_eq_answer hpc, MainState.authenticate]
      exact congrArg (s.answer clntSock conn) (if_neg hrd).symm
    · rename_i hpc
      rw [Server.authenticate]
      split
      · rename_i clntSock conn hpc'
        exact absurd hpc' (hpc clntSock conn)
      · rfl
  | thread k =>
    obtain ⟨th, hth, hsc⟩ := Option.bind_eq_some_iff.mp hsc
    rw [Server.received, Cutter.receive, Server.step, hth, Option.bind_some, Option.bind_some]
    split at hsc
    · rename_i c hphase
      obtain rfl := Option.some.inj hsc
      rw [Server.stepThread, hphase]
      dsimp only
      rw [if_neg hrd, if_neg (Option.some_ne_none c), msgInfo, Option.map_map]
      rfl
    · cases hsc

/-- The other threads, and the one that is started. -/
theorem thread_of_step (h : s.step a = some t) {j : ℕ} (hne : a.cutter ≠ .thread j) :
    t.threads[j]? = s.threads[j]? ∨ (∃ ip, a = .register ip) ∧ j = s.threads.length ∧
      ∃ th, t.threads[j]? = some th ∧ th.scanner = .null [] ∧ th.phase = .ready := by
  cases effect_of_step h with
  | accept | turnedAway | alreadyLogged | connected => exact .inl rfl
  | @register clntSock conn i ip hpc =>
    dsimp only
    rcases Nat.lt_trichotomy j s.threads.length with hj | rfl | hj
    · exact .inl (List.getElem?_append_left hj)
    · exact .inr ⟨⟨ip, rfl⟩, rfl, _, List.getElem?_concat_length, rfl, rfl⟩
    · left
      rw [List.getElem?_eq_none (by rw [List.length_append, List.length_singleton]; omega),
        List.getElem?_eq_none (Nat.le_of_lt hj)]
  | serve | close | clear =>
    exact .inl (List.getElem?_set_ne fun heq => hne (congrArg Cutter.thread heq))

/-- The array of `main`. -/
theorem buffer_of_step (h : s.step a = some t) (hne : a.cutter ≠ .main) : t.buffer = s.buffer := by
  cases effect_of_step h with
  | serve | close | clear => rfl
  | accept | turnedAway | alreadyLogged | connected | register => exact absurd rfl hne

theorem Server.ne_of_scanner {sc : Scanner} (h : s.scanner o = some sc) :
    o ≠ .thread s.threads.length := by
  rintro rfl
  rw [Server.scanner, List.getElem?_eq_none (Nat.le_refl _)] at h
  cases h

/-- Who takes no step keeps the arrays. -/
theorem scanner_of_step (h : s.step a = some t) (hne : a.cutter ≠ o) :
    t.scanner o = s.scanner o ∧ t.reader o = s.reader o ∨
      (∃ ip, a = .register ip) ∧ o = .thread s.threads.length ∧ s.reader o = none ∧
        t.scanner o = some (.null []) ∧ t.reader o = none := by
  cases o with
  | main =>
    have hbuffer := congrArg some (buffer_of_step h hne)
    exact .inl ⟨hbuffer, hbuffer⟩
  | thread j =>
    rcases thread_of_step h hne with heq | ⟨hregister, rfl, th, hth, hscanner, hphase⟩
    · left
      rw [Server.scanner, Server.reader, heq]
      exact ⟨rfl, rfl⟩
    · refine .inr ⟨hregister, rfl, ?_, ?_, ?_⟩
      · rw [Server.reader, List.getElem?_eq_none (Nat.le_refl _)]
        rfl
      · rw [Server.scanner, hth, Option.map_some, hscanner]
      · rw [Server.reader, hth, Option.bind_some, hphase]

/-- A thread that does not cut a message. -/
theorem thread_of_plain {k : ℕ} {b : ThreadAction} (h : s.step (.thread k b) = some t)
    (hcuts : (Action.thread k b).cuts = false) {th' : Thread} (hth' : t.threads[k]? = some th') :
    ∃ th, s.threads[k]? = some th ∧ th'.scanner = th.scanner ∧
      ∀ c, th'.phase = .reading (some c) → b = .callRead := by
  obtain ⟨th, hth, h⟩ := Option.bind_eq_some_iff.mp h
  refine ⟨th, hth, ?_⟩
  -- the thread after the step
  have hset : ∀ u : Thread, t.threads = s.threads.set k u → th' = u := by
    intro u hu
    rw [hu] at hth'
    rcases getElem?_set_cases hth' with ⟨-, heq⟩ | ⟨hne, -⟩
    · exact heq
    · exact absurd rfl hne
  by_cases hread : ∃ rd, b = .returnRead rd
  · obtain ⟨rd, rfl⟩ := hread
    obtain rfl : rd = [] := by simpa [Action.cuts] using hcuts
    rw [Server.stepThread] at h
    split at h
    · rw [if_pos rfl] at h
      obtain rfl := Option.some.inj h
      obtain rfl := hset _ rfl
      exact ⟨rfl, fun _ hc => by cases hc⟩
    · cases h
  · cases threadMoves_of_stepThread h with
    | callRead hphase =>
      obtain rfl := hset _ rfl
      exact ⟨rfl, fun _ _ => rfl⟩
    | hangUp | receive => exact absurd ⟨_, rfl⟩ hread
    | pass | write | sent | reply | close | clear =>
      obtain rfl := hset _ rfl
      exact ⟨rfl, fun _ hc => by cases hc⟩

end Server

/-! ### A message that is cut alone -/

/-- Offsets in the characters of one of them. -/
def own (o : Cutter) (arr : List (Option ℕ)) : List (Option Pointer) :=
  arr.map (Option.map (Pointer.mk o))

theorem own_set (o : Cutter) (arr : List (Option ℕ)) (i p : ℕ) :
    own o (arr.set i (some p)) = (own o arr).set i (some ⟨o, p⟩) := List.map_set

/-- The loop of `o` is at a place of the loop that goes through what was read as a whole. -/
def Cutting.Inside (s : Cutting) (o : Cutter) (sc : Scanner) : Prop :=
  ∃ arr p, s.pArray o = own o arr ∧ (s.loops o).resume o s.saved = ⟨o, p⟩ ∧
    tokenLoop isDelim (s.loops o).calls (s.loops o).index arr (s.chars o) p =
      tokenLoop isDelim (arrCnt + 1) 0 sc.pArray (storeRead sc.buf (s.loops o).rd) 0

/-- What the arrays hold, where messages are cut one after another. -/
structure Cutting.Alone (s : Cutting) : Prop where
  reachable : watched.Reachable s.toWatched
  alone : ∀ o ∈ s.busy, s.busy = [o]
  /-- The pointers of the last message, -/
  kept : ∀ o ∉ s.busy, ∀ sc, s.scanner o = some sc → s.pArray o = own o sc.pArray
  /-- and the characters that the next one is read into. -/
  waiting : ∀ o ∉ s.busy, ∀ sc, s.reader o = some sc → s.chars o = sc.buf
  inside : ∀ o ∈ s.busy, (s.loops o).rd ≠ [] ∧
    ∃ sc, s.reader o = some sc ∧ s.Inside o sc

/-- The scanner that a message is read into has the pointers of the last one. -/
theorem Server.scanner_of_reader {s : Server} {o : Cutter} {sc : Scanner}
    (h : s.reader o = some sc) : ∃ sc', s.scanner o = some sc' ∧ sc.pArray = sc'.pArray := by
  cases o with
  | main => exact ⟨_, rfl, congrArg Scanner.pArray (Option.some.inj h).symm⟩
  | thread k =>
    obtain ⟨th, hth, h⟩ := Option.bind_eq_some_iff.mp h
    refine ⟨th.scanner, by rw [Server.scanner, hth]; rfl, ?_⟩
    split at h
    · obtain rfl := Option.some.inj h
      rfl
    · cases h

section Steps

variable {s t : Cutting} {o : Cutter} {rd : List Byte}

theorem Cutting.Alone.read (h : s.Alone) (hbusy : s.busy = []) (ht : s.read o rd = some t) :
    t.Alone := by
  obtain ⟨⟨hrd, hreads, -⟩, rfl⟩ := Option.ite_some_none_eq_some.mp ht
  have hidle : ∀ o, o ∉ s.busy := fun o => hbusy ▸ List.not_mem_nil
  obtain ⟨sc, hsc⟩ : ∃ sc, s.reader o = some sc := by
    cases o with
    | main => exact ⟨_, rfl⟩
    | thread k => exact Option.isSome_iff_exists.mp hreads
  obtain ⟨sc', hsc', harr⟩ := Server.scanner_of_reader hsc
  refine ⟨h.reachable, ?_, fun o' ho' => h.kept o' (hidle o'), fun o' ho' sc hsc => ?_, ?_⟩
  · intro o' ho'
    rw [hbusy] at ho' ⊢
    rw [List.mem_singleton.mp ho']
  · have hne : o' ≠ o := fun heq => ho' (heq ▸ List.mem_cons_self)
    exact (update_of_ne hne _ _).trans (h.waiting o' (hidle o') sc hsc)
  · intro o' ho'
    dsimp only at ho'
    rw [hbusy] at ho'
    obtain rfl := List.mem_singleton.mp ho'
    have hloop : update s.loops o' ⟨rd, true, arrCnt + 1, 0⟩ o' = ⟨rd, true, arrCnt + 1, 0⟩ :=
      update_self ..
    refine ⟨?_, sc, hsc, ?_⟩
    · dsimp only
      rw [hloop]
      exact hrd
    · rw [Cutting.Inside]
      dsimp only
      rw [hloop, update_self]
      exact ⟨sc.pArray, 0, harr ▸ h.kept o' (hidle o') sc' hsc', rfl,
        by rw [h.waiting o' (hidle o') sc hsc]⟩

/-- A call of `strtok` in a loop that is alone. -/
theorem Cutting.Inside.strtok {sc : Scanner} (h : s.Inside o sc) (ht : s.strtok o = some t) :
    t.Inside o sc ∧ (t.loops o).rd = (s.loops o).rd ∧
      t = { s with
        chars := update s.chars o (t.chars o), pArray := update s.pArray o (t.pArray o)
        saved := t.saved, loops := update s.loops o (t.loops o) } := by
  obtain ⟨arr, p, harr, hresume, hloop⟩ := h
  rw [Cutting.strtok, hresume] at ht
  split_ifs at ht with hguard
  obtain ⟨calls, hcalls⟩ := Nat.exists_eq_succ_of_ne_zero hguard.2
  rw [hcalls, tokenLoop] at hloop
  dsimp only at ht
  split at ht
  · rename_i hnone
    rw [hnone] at hloop
    obtain rfl := Option.some.inj ht
    refine ⟨?_, ?_, ?_⟩
    · rw [Cutting.Inside]
      dsimp only
      rw [update_self]
      exact ⟨arr, _, harr, rfl, hloop⟩
    · dsimp only
      rw [update_self]
    · dsimp only
      rw [update_eq_self, update_eq_self, update_self]
  · rename_i token buf next hsome
    rw [hsome] at hloop
    obtain rfl := Option.some.inj ht
    refine ⟨?_, ?_, ?_⟩
    · rw [Cutting.Inside]
      dsimp only
      rw [update_self, update_self, update_self, harr, ← own_set, hcalls]
      exact ⟨_, next, rfl, rfl, hloop⟩
    · dsimp only
      rw [update_self]
    · dsimp only
      rw [update_self, update_self, update_self]

theorem Cutting.Alone.strtok (h : s.Alone) (ht : s.strtok o = some t) : t.Alone := by
  have ho : o ∈ s.busy := by
    rw [Cutting.strtok] at ht
    split_ifs at ht with hguard
    exact hguard.1
  obtain ⟨hrd, sc, hsc, hinside⟩ := h.inside o ho
  obtain ⟨hinside', hrd', hframe⟩ := hinside.strtok ht
  rw [hframe]
  have hne : ∀ o' ∉ s.busy, o' ≠ o := fun o' ho' heq => ho' (heq ▸ ho)
  refine ⟨h.reachable, h.alone, fun o' ho' sc' hsc' => ?_, fun o' ho' sc' hsc' => ?_,
    fun o' ho' => ?_⟩
  · exact (update_of_ne (hne o' ho') _ _).trans (h.kept o' ho' sc' hsc')
  · exact (update_of_ne (hne o' ho') _ _).trans (h.waiting o' ho' sc' hsc')
  · have hall := h.alone o ho
    dsimp only at ho'
    rw [hall] at ho'
    obtain rfl := List.mem_singleton.mp ho'
    rw [← hframe]
    refine ⟨hrd' ▸ hrd, sc, ?_, hinside'⟩
    rw [hframe]
    exact hsc

theorem own_getElem?_join (o : Cutter) (arr : List (Option ℕ)) (j : ℕ) :
    (own o arr)[j]?.join = arr[j]?.join.map (Pointer.mk o) := by
  rw [own, List.getElem?_map]
  cases arr[j]? <;> rfl

/-- **The end of a loop** that was alone: the message has been cut as a whole. -/
theorem Cutting.Inside.finish {sc : Scanner} (h : s.Inside o sc) (hcalls : (s.loops o).calls = 0) :
    s.pArray o = own o (sc.scan (s.loops o).rd).pArray ∧
      s.chars o = (sc.scan (s.loops o).rd).buf ∧
      (s.text o 0, s.text o 1) = sc.firstTwo (s.loops o).rd := by
  obtain ⟨arr, p, harr, -, hloop⟩ := h
  rw [hcalls, tokenLoop] at hloop
  have hpArray : (sc.scan (s.loops o).rd).pArray = arr :=
    congrArg (fun r => r.2.1) hloop.symm
  have hbuf : (sc.scan (s.loops o).rd).buf = s.chars o := congrArg (fun r => r.2.2) hloop.symm
  refine ⟨hpArray ▸ harr, hbuf.symm, ?_⟩
  have htext : ∀ j, s.text o j = pointee arr (s.chars o) j := fun j => by
    rw [Cutting.text, harr, own_getElem?_join, Option.map_map]
    rfl
  rw [htext, htext, Scanner.firstTwo, hpArray, hbuf]

/-- The scanner after a message. -/
theorem Server.scanner_of_received {s t : Server} {sc : Scanner} (hrd : rd ≠ [])
    (hsc : s.reader o = some sc) (h : s.step (o.receive rd) = some t) :
    t.scanner o = some (sc.scan rd) ∧
      ∀ sc', t.reader o = some sc' → sc' = sc.scan rd := by
  cases o with
  | main =>
    obtain rfl := Option.some.inj hsc
    have hbuffer : t.buffer = s.buffer.scan rd := by
      have hanswer : (s.toMainState.authenticate (some rd)).2.buffer = s.buffer.scan rd := by
        rw [MainState.authenticate]
        dsimp only
        rw [if_neg hrd]
        split <;> rfl
      rw [Cutter.receive, Server.step, Server.authenticate] at h
      generalize s.toMainState.authenticate (some rd) = r at h hanswer
      obtain ⟨answer, m⟩ := r
      split at h
      · cases answer with
        | undefined => cases h
        | _ =>
          obtain rfl := Option.some.inj h
          exact hanswer
      · cases h
    exact ⟨congrArg some hbuffer, fun sc' hsc' => (Option.some.inj hsc').symm.trans hbuffer⟩
  | thread k =>
    obtain ⟨th, hth, hsc⟩ := Option.bind_eq_some_iff.mp hsc
    obtain ⟨hk, -⟩ := List.getElem?_eq_some_iff.mp hth
    rw [Cutter.receive, Server.step, hth, Option.bind_some] at h
    split at hsc
    · rename_i c hphase
      obtain rfl := Option.some.inj hsc
      rw [Server.stepThread, hphase] at h
      dsimp only at h
      rw [if_neg hrd, if_neg (Option.some_ne_none c)] at h
      obtain ⟨info, -, rfl⟩ := Option.map_eq_some_iff.mp h
      rw [Server.scanner, Server.reader, Server.setThread, List.getElem?_set_self hk]
      exact ⟨rfl, fun _ hsc' => by cases hsc'⟩
    · cases hsc

theorem Cutting.Alone.finish (h : s.Alone) (ht : s.finish o = some t) : t.Alone := by
  rw [Cutting.finish] at ht
  split_ifs at ht with hguard
  obtain ⟨ho, hcalls⟩ := hguard
  obtain ⟨u, hu, rfl⟩ := Option.map_eq_some_iff.mp ht
  obtain ⟨hrd, sc, hsc, hinside⟩ := h.inside o ho
  obtain ⟨hpArray, hchars, htext⟩ := hinside.finish hcalls
  generalize (s.loops o).rd = rd at *
  -- the step that `Server` takes
  have hstep : s.toServer.step (o.receive rd) = some u := by
    rw [← received_firstTwo hrd hsc, ← htext]
    exact hu
  have hwatched : watched.step s.toWatched (o.receive rd) =
      some (s.record u (o.receive rd)).watch := by
    change Option.map _ _ = _
    rw [hstep]
    rfl
  have hserver : (s.record u (o.receive rd)).watch.toServer = u := Watched.toServer_record ..
  have hbusy : s.busy.erase o = [] := by
    rw [h.alone o ho, List.erase_cons_head]
  obtain ⟨hscanner, hreader⟩ := Server.scanner_of_received hrd hsc hstep
  have hother : ∀ o', o' ≠ o → o' ∉ s.busy ∧ u.scanner o' = s.scanner o' ∧
      u.reader o' = s.reader o' := by
    intro o' hne
    have hcutter : (o.receive rd).cutter = o := by cases o <;> rfl
    refine ⟨fun ho' => hne (List.mem_singleton.mp (h.alone o ho ▸ ho')), ?_⟩
    rcases scanner_of_step hstep (hcutter.trans_ne hne.symm) with heq | ⟨⟨ip, hip⟩, -⟩
    · exact heq
    · cases o <;> cases hip
  refine ⟨.step _ h.reachable trivial hwatched, ?_, fun o' _ sc' hsc' => ?_,
    fun o' _ sc' hsc' => ?_, ?_⟩
  · dsimp only
    rw [hbusy]
    exact List.forall_mem_nil _
  · change (s.record u (o.receive rd)).watch.toServer.scanner o' = _ at hsc'
    rw [hserver] at hsc'
    by_cases heq : o' = o
    · subst heq
      obtain rfl := Option.some.inj (hscanner.symm.trans hsc')
      exact hpArray
    · obtain ⟨hidle, hsame, -⟩ := hother o' heq
      exact h.kept o' hidle sc' (hsame ▸ hsc')
  · change (s.record u (o.receive rd)).watch.toServer.reader o' = _ at hsc'
    rw [hserver] at hsc'
    by_cases heq : o' = o
    · subst heq
      rw [hreader sc' hsc']
      exact hchars
    · obtain ⟨hidle, -, hsame⟩ := hother o' heq
      exact h.waiting o' hidle sc' (hsame ▸ hsc')
  · dsimp only
    rw [hbusy]
    exact List.forall_mem_nil _

theorem Cutting.cleared_of_ne {a : Action} (h : o ≠ a.cutter) : s.cleared a o = s.chars o := by
  cases a with
  | thread k b =>
    cases b with
    | callRead => exact update_of_ne h _ _
    | _ => rfl
  | authenticate rd =>
    cases rd with
    | some rd => exact update_of_ne h _ _
    | none => rfl
  | _ => rfl

theorem Cutting.started_of_ne {a : Action} (h : o ≠ .thread s.threads.length) :
    s.started a o = s.pArray o := by
  cases a with
  | register ip => exact update_of_ne h _ _
  | _ => rfl

/-- A thread that has taken a step without a message is ready for one. -/
theorem Cutting.Alone.ready_thread {k : ℕ} {b : ThreadAction} {u : Server} (h : s.Alone)
    (hbusy : .thread k ∉ s.busy) (hcuts : (Action.thread k b).cuts = false)
    (hu : s.toServer.step (.thread k b) = some u) :
    (∀ sc, u.scanner (.thread k) = some sc → s.pArray (.thread k) = own (.thread k) sc.pArray) ∧
      ∀ sc, u.reader (.thread k) = some sc → s.cleared (.thread k b) (.thread k) = sc.buf := by
  refine ⟨fun sc hsc => ?_, fun sc hsc => ?_⟩
  · obtain ⟨th', hth', rfl⟩ := Option.map_eq_some_iff.mp hsc
    obtain ⟨th, hth, hscanner, -⟩ := thread_of_plain hu hcuts hth'
    refine h.kept _ hbusy _ ?_
    rw [hscanner, Server.scanner, hth]
    rfl
  · obtain ⟨th', hth', hsc⟩ := Option.bind_eq_some_iff.mp hsc
    obtain ⟨th, hth, -, hphase⟩ := thread_of_plain hu hcuts hth'
    split at hsc
    · rename_i c hreading
      obtain rfl := hphase c hreading
      obtain rfl := Option.some.inj hsc
      exact update_self ..
    · cases hsc

/-- The array of `main` after a step without a message. -/
theorem Cutting.Alone.ready_main {a : Action} {u : Server} (h : s.Alone) (hmain : a.cutter = .main)
    (hbusy : .main ∉ s.busy) (hcuts : a.cuts = false) (hu : s.toServer.step a = some u) :
    u.buffer.pArray = s.buffer.pArray ∧ s.cleared a .main = u.buffer.buf := by
  have hchars := h.waiting .main hbusy _ rfl
  cases a with
  | thread k b => cases hmain
  | accept clntSock =>
    obtain ⟨-, rfl⟩ := Option.ite_some_none_eq_some.mp hu
    exact ⟨rfl, hchars⟩
  | register ip =>
    rw [Server.step, Server.register] at hu
    split at hu
    · obtain rfl := Option.some.inj hu
      exact ⟨rfl, hchars⟩
    · cases hu
  | authenticate rd =>
    rw [Server.step, Server.authenticate] at hu
    split at hu
    · cases rd with
      | none =>
        obtain rfl := Option.some.inj hu
        exact ⟨rfl, hchars⟩
      | some rd =>
        obtain rfl : rd = [] := by simpa [Action.cuts] using hcuts
        obtain rfl := Option.some.inj hu
        refine ⟨rfl, ?_⟩
        rw [Cutting.cleared, update_self, hchars]
    · cases hu

/-- Who has taken a step without a message is ready for one. -/
theorem Cutting.Alone.ready {a : Action} {u : Server} (h : s.Alone) (hbusy : a.cutter ∉ s.busy)
    (hcuts : a.cuts = false) (hu : s.toServer.step a = some u) :
    (∀ o, o = a.cutter → ∀ sc, u.scanner o = some sc → s.started a o = own o sc.pArray) ∧
      ∀ o, o = a.cutter → ∀ sc, u.reader o = some sc → s.cleared a o = sc.buf := by
  cases hcutter : a.cutter with
  | thread k =>
    obtain ⟨b, rfl⟩ : ∃ b, a = .thread k b := by
      cases a with
      | thread j b =>
        cases hcutter
        exact ⟨b, rfl⟩
      | _ => cases hcutter
    obtain ⟨hscanner, hreader⟩ := h.ready_thread hbusy hcuts hu
    exact ⟨fun o ho => ho ▸ hscanner, fun o ho => ho ▸ hreader⟩
  | main =>
    rw [hcutter] at hbusy
    obtain ⟨hpArray, hbuf⟩ := h.ready_main hcutter hbusy hcuts hu
    refine ⟨fun o ho sc hsc => ?_, fun o ho sc hsc => ?_⟩
    · subst ho
      obtain rfl := Option.some.inj hsc
      rw [Cutting.started_of_ne Cutter.noConfusion, hpArray]
      exact h.kept .main hbusy _ rfl
    · subst ho
      obtain rfl := Option.some.inj hsc
      exact hbuf

theorem Cutting.Alone.plain {a : Action} (h : s.Alone) (ht : s.plain a = some t) : t.Alone := by
  rw [Cutting.plain] at ht
  split_ifs at ht with hguard
  obtain ⟨hcuts, hbusy⟩ := not_or.mp hguard
  obtain ⟨w, hw, rfl⟩ := Option.map_eq_some_iff.mp ht
  obtain ⟨u, hu, rfl⟩ := Option.map_eq_some_iff.mp (show Option.map _ _ = some w from hw)
  have hserver : (s.record u a).watch.toServer = u := Watched.toServer_record ..
  have hcuts := Bool.eq_false_iff.mpr hcuts
  refine ⟨.step a h.reachable trivial hw, h.alone, fun o ho sc hsc => ?_, fun o ho sc hsc => ?_,
    fun o ho => ?_⟩
  · change (s.record u a).watch.toServer.scanner o = _ at hsc
    rw [hserver] at hsc
    by_cases heq : o = a.cutter
    · exact (h.ready hbusy hcuts hu).1 o heq sc hsc
    · rcases scanner_of_step hu (Ne.symm heq) with ⟨hsame, -⟩ | ⟨⟨ip, rfl⟩, rfl, -, hnull, -⟩
      · rw [hsame] at hsc
        exact (Cutting.started_of_ne (Server.ne_of_scanner hsc)).trans (h.kept o ho sc hsc)
      · obtain rfl := Option.some.inj (hnull.symm.trans hsc)
        exact update_self ..
  · change (s.record u a).watch.toServer.reader o = _ at hsc
    rw [hserver] at hsc
    by_cases heq : o = a.cutter
    · exact (h.ready hbusy hcuts hu).2 o heq sc hsc
    · rcases scanner_of_step hu (Ne.symm heq) with ⟨-, hsame⟩ | ⟨-, -, -, -, hnone⟩
      · exact (Cutting.cleared_of_ne heq).trans (h.waiting o ho sc (hsame ▸ hsc))
      · exact absurd (hnone.symm.trans hsc) nofun
  · -- nothing that a loop in progress works with is touched
    have hne : o ≠ a.cutter := fun heq => hbusy (heq ▸ ho)
    obtain ⟨hrd, sc, hsc, hinside⟩ := h.inside o ho
    refine ⟨hrd, sc, ?_, ?_⟩
    · change (s.record u a).watch.toServer.reader o = _
      rw [hserver]
      rcases scanner_of_step hu hne.symm with ⟨-, hsame⟩ | ⟨-, -, hnone, -⟩
      · exact hsame.trans hsc
      · exact absurd (hnone.symm.trans hsc) nofun
    · obtain ⟨sc', hsc', -⟩ := Server.scanner_of_reader hsc
      rw [Cutting.Inside]
      dsimp only
      rw [Cutting.started_of_ne (Server.ne_of_scanner hsc'), Cutting.cleared_of_ne hne]
      exact hinside

end Steps

/-- **Messages that are cut one after another.** -/
theorem Cutting.Alone.step {s t : Cutting} {a : CutAction} (h : s.Alone) (ha : Exclusive s a)
    (ht : s.step a = some t) : t.Alone := by
  cases a with
  | plain a => exact h.plain ht
  | read o rd => exact h.read ha ht
  | strtok o => exact h.strtok ht
  | finish o => exact h.finish ht

theorem alone_of_reach {s : Cutting} (h : cutting.Reach Exclusive s) : s.Alone := by
  refine h.invariant Cutting.Alone (fun s hs => ?_) fun _ _ _ hs ha ht => hs.step ha ht
  obtain ⟨hwatched, hchars, hpArray, hbusy⟩ := hs
  obtain ⟨records, buf, hserver⟩ := hwatched.1
  have hidle : ∀ o ∈ s.busy, False := fun o ho => by
    rw [hbusy] at ho
    cases ho
  refine ⟨.init hwatched, fun o ho => (hidle o ho).elim, fun o _ sc hsc => ?_,
    fun o _ sc hsc => ?_, fun o ho => (hidle o ho).elim⟩
  · rw [hserver] at hsc
    cases o with
    | main =>
      obtain rfl := Option.some.inj hsc
      exact hpArray
    | thread k => cases hsc
  · cases o with
    | main =>
      obtain rfl := Option.some.inj hsc
      exact hchars
    | thread k =>
      rw [hserver] at hsc
      cases hsc

/-- The server before its first connection. -/
def Cutting.startUp : Cutting where
  toWatched := .startUp
  chars _ := List.replicate idpasswdSize 0
  pArray _ := List.replicate arrCnt none
  saved := ⟨.main, 0⟩
  busy := []
  loops _ := ⟨[], false, 0, 0⟩

theorem init_cutting_startUp : cutting.init .startUp :=
  ⟨⟨init_server_startUp, rfl, rfl, rfl, rfl⟩, rfl, rfl, rfl⟩

/-- A client connects on a descriptor and logs in with two words. -/
def cutLogIn (fd : ℤ) (rd : List Byte) : List CutAction :=
  [.plain (.accept fd), .read .main rd] ++ List.replicate 3 (.strtok .main) ++
    [.finish .main, .plain (.register (bytes "10.10.141.5"))]

/-- Where 5 and 6 cut their messages at the same time, 6 gets its own text back, as one from 5. -/
example : (cutting.run (fun _ _ => True) .startUp
    (cutLogIn 4 (bytes "[5:PASSWD]") ++ cutLogIn 5 (bytes "[6:PASSWD]") ++
      [.plain (.thread 0 .callRead), .plain (.thread 1 .callRead),
        .read (.thread 0) (bytes "[6]one\n"), .strtok (.thread 0),
        .read (.thread 1) (bytes "[5]two\n"), .strtok (.thread 1),
        .strtok (.thread 0), .strtok (.thread 0), .finish (.thread 0)] ++
      List.replicate 33 (.plain (.thread 0 .sendSlot)))).map (fun s => s.writes) =
    some [⟨bytes "6", 5, bytes "[5]two\n", some 1⟩] := rfl

end Relay

end DroneTurret
