import DroneTurret.Relay.Authenticity

/-!
# Every message once

A thread relays a message slot by slot, while `main` and the other threads go on. Nothing keeps the
table as it was when the message was read: clients come and go between one slot and the next. What
can be relied on is said for each slot by itself. A client whose slot and connection stay as they
are while its turn comes gets the message exactly once, and nobody gets it twice.

A run is recorded with the messages that each thread has read, the number of each of them, and the
message and the slot that each write was made for. No step reads any of it.

## Main definitions

* `Posting` — a message, with the table as it was when it was read
* `Watched`, `watched` — the server with its history
* `Posting.Handled` — what has been written for a message

## Main results

* `watches_of_step` — what a step adds to the history
* `handled_once` — in every run: no message is skipped, none is relayed twice, and those that a
  thread relays stay in order
-/

namespace DroneTurret

namespace Relay

open CString Function Transition

/-- A message that a thread has read, with the table and the sockets as they were then. -/
structure Posting where
  thread : ℕ
  /-- How many messages the thread had read before. -/
  number : ℕ
  info : MsgInfo
  table : Table
  socks : ℤ → Option ℕ
  /-- The slots whose descriptor and connection have stayed the same. -/
  steady : Fin maxClnt → Bool

/-- A write with the message it was made for. An answer is for no slot. -/
structure Entry where
  thread : ℕ
  number : ℕ
  slot : Option (Fin maxClnt)
  write : Write

/-- The server with its history. -/
structure Watched extends Server where
  /-- How many messages each thread has read. -/
  begun : ℕ → ℕ
  current : ℕ → Option Posting
  finished : List Posting
  entries : List Entry

/-- The message that a thread is relaying, with the next slot. -/
def Thread.routing (th : Thread) : Option (MsgInfo × ℕ) :=
  match th.phase with
  | .routing info next => some (info, next)
  | _ => none

def Server.routing (s : Server) (k : ℕ) : Option (MsgInfo × ℕ) := s.threads[k]?.bind Thread.routing

namespace Watched

variable (s : Watched) (k : ℕ)

/-- Thread `k` has read a message. -/
def start (t : Server) (info : MsgInfo) : Watched :=
  { s with
    toServer := t
    begun := update s.begun k (s.begun k + 1)
    current := update s.current k (some ⟨k, s.begun k, info, t.table, t.socks, fun _ => true⟩) }

/-- Thread `k` has been at a slot, or has answered. -/
def note (t : Server) (slot : Option (Fin maxClnt)) : Watched :=
  { s with
    toServer := t
    entries := s.entries ++
      (t.writes.drop s.writes.length).map fun w => ⟨k, s.begun k - 1, slot, w⟩ }

/-- Thread `k` is done with its message. -/
def finish : Watched :=
  { s with
    current := update s.current k none
    finished := s.finished ++ (s.current k).toList }

def recordThread (t : Server) : ThreadAction → Watched
  | .returnRead _ =>
    match t.routing k with
    | none => { s with toServer := t }
    | some (info, _) => s.start k t info
  | .sendSlot =>
    match s.routing k with
    | none => { s with toServer := t }
    | some (_, next) =>
      if h : next < maxClnt then s.note k t (some ⟨next, h⟩)
      else Watched.finish { s with toServer := t } k
  | .reply _ => (s.note k t none).finish k
  | .callRead | .close | .clear => { s with toServer := t }

def record (t : Server) : Action → Watched
  | .thread k a => s.recordThread k t a
  | .accept _ | .authenticate _ | .register _ => { s with toServer := t }

/-- Which slots have changed. -/
def watch : Watched :=
  { s with
    current := fun k => (s.current k).map fun r =>
      { r with
        steady := fun i => r.steady i && decide ((s.table i).fd = (r.table i).fd ∧
          s.socks (s.table i).fd = r.socks (r.table i).fd) } }

def step (a : Action) : Option Watched := (s.toServer.step a).map fun t => (s.record t a).watch

theorem toServer_record (t : Server) (a : Action) : (s.record t a).toServer = t := by
  cases a with
  | thread k b =>
    cases b with
    | returnRead rd =>
      rw [record, recordThread]
      split <;> rfl
    | sendSlot =>
      rw [record, recordThread]
      split
      · rfl
      · split_ifs <;> rfl
    | _ => rfl
  | _ => rfl

end Watched

def watched : Transition Watched Action where
  init s := server.init s.toServer ∧ s.begun = (fun _ => 0) ∧ s.current = (fun _ => none) ∧
    s.finished = [] ∧ s.entries = []
  step := Watched.step

/-! ### What a step adds to the history -/

/-- What the visit of a slot writes. -/
def slotWrites (table : Table) (socks : ℤ → Option ℕ) (info : MsgInfo) (i : Fin maxClnt) :
    List Write :=
  (slotWrite table info i).toList.map fun w => ⟨info.dest, w.1, w.2, socks w.1⟩

theorem routing_setThread {s : Server} {k : ℕ} {th : Thread} (th' : Thread)
    (hth : s.threads[k]? = some th) :
    (s.setThread k th').routing = update s.routing k th'.routing := by
  funext j
  obtain ⟨hk, -⟩ := List.getElem?_eq_some_iff.mp hth
  rw [Server.routing, Server.setThread, List.getElem?_set]
  by_cases hj : k = j
  · subst hj
    rw [if_pos rfl, if_pos hk, update_self]
    rfl
  · rw [if_neg hj, update_of_ne (Ne.symm hj)]
    rfl

/-- A thread that was not relaying and is not relaying after its step. -/
theorem routing_of_idle {s : Server} {k : ℕ} {th th' : Thread} (hth : s.threads[k]? = some th)
    (hold : th.routing = none) (hnew : th'.routing = none) :
    (s.setThread k th').routing = s.routing := by
  rw [routing_setThread th' hth, hnew]
  refine update_eq_self_iff.mpr ?_
  rw [Server.routing, hth, Option.bind_some, hold]

theorem routing_concat {s t : Server} {new : Thread} (ht : t.threads = s.threads ++ [new])
    (hnew : new.routing = none) : t.routing = s.routing := by
  funext j
  rw [Server.routing, Server.routing, ht]
  rcases Nat.lt_trichotomy j s.threads.length with hj | rfl | hj
  · rw [List.getElem?_append_left hj]
  · rw [List.getElem?_concat_length, Option.bind_some, hnew, List.getElem?_eq_none (Nat.le_refl _)]
    rfl
  · rw [List.getElem?_eq_none (by rw [List.length_append, List.length_singleton]; omega),
      List.getElem?_eq_none (Nat.le_of_lt hj)]

/-- A visit of a slot, or the end of the visits. -/
theorem sendSlot_cases {s t : Server} {k : ℕ} {th : Thread}
    (h : s.stepThread k th .sendSlot = some t) :
    ∃ info next, th.phase = .routing info next ∧ ¬info.isRequest ∧
      ((∃ i : Fin maxClnt, i.val = next ∧
          t = { s.setThread k { th with phase := .routing info (next + 1) } with
            writes := s.writes ++ slotWrites s.table s.socks info i }) ∨
        maxClnt ≤ next ∧ t = s.setThread k { th with phase := .ready }) := by
  rw [Server.stepThread] at h
  split at h
  · rename_i info next hphase
    split_ifs at h with hreq hnext
    · refine ⟨info, next, hphase, hreq, .inl ⟨⟨next, hnext⟩, rfl, ?_⟩⟩
      dsimp only at h
      rw [slotWrites]
      split at h
      · rename_i hnone
        rw [hnone, Option.toList_none, List.map_nil, List.append_nil]
        exact (Option.some.inj h).symm
      · rename_i fd text hsome
        rw [hsome]
        exact (Option.some.inj h).symm
    · exact ⟨info, next, hphase, hreq, .inr ⟨Nat.not_lt.mp hnext, (Option.some.inj h).symm⟩⟩
  · cases h

/-- A step, but for what `watch` sees in it. -/
inductive Watches (s : Watched) : Watched → Prop
  | quiet {t : Server} (hrouting : t.routing = s.routing) (hwrites : t.writes = s.writes) :
      Watches s { s with toServer := t }
  | start {k : ℕ} {t : Server} {info : MsgInfo} (hidle : s.routing k = none)
      (hrouting : t.routing = update s.routing k (some (info, 0))) (hwrites : t.writes = s.writes) :
      Watches s (s.start k t info)
  | visit {k : ℕ} {t : Server} {info : MsgInfo} {i : Fin maxClnt}
      (hbusy : s.routing k = some (info, i.val)) (hreq : ¬info.isRequest)
      (hrouting : t.routing = update s.routing k (some (info, i.val + 1)))
      (hwrites : t.writes = s.writes ++ slotWrites s.table s.socks info i) :
      Watches s (s.note k t (some i))
  | finish {k : ℕ} {t : Server} {info : MsgInfo} {next : ℕ}
      (hbusy : s.routing k = some (info, next)) (hreq : ¬info.isRequest) (hnext : maxClnt ≤ next)
      (hrouting : t.routing = update s.routing k none) (hwrites : t.writes = s.writes) :
      Watches s (Watched.finish { s with toServer := t } k)
  | answer {k : ℕ} {t : Server} {info : MsgInfo} {next : ℕ} {text : List Byte}
      (hbusy : s.routing k = some (info, next)) (hreq : info.isRequest)
      (hrouting : t.routing = update s.routing k none)
      (hwrites : t.writes = s.writes ++ [⟨info.dest, info.fd, text, s.socks info.fd⟩]) :
      Watches s ((s.note k t none).finish k)

theorem watches_of_stepThread {s : Watched} {t : Server} {k : ℕ} {th : Thread} {a : ThreadAction}
    (hth : s.threads[k]? = some th) (h : s.stepThread k th a = some t) :
    Watches s (s.recordThread k t a) := by
  have hrouting : s.routing k = th.routing := by
    rw [Server.routing, hth, Option.bind_some]
  by_cases hslot : a = .sendSlot
  · subst hslot
    obtain ⟨info, next, hphase, hreq, ⟨i, rfl, rfl⟩ | ⟨hnext, rfl⟩⟩ := sendSlot_cases h
    all_goals rw [Thread.routing, hphase] at hrouting
    · rw [Watched.recordThread, hrouting]
      dsimp only
      rw [dif_pos i.isLt]
      exact .visit hrouting hreq (routing_setThread _ hth) rfl
    · rw [Watched.recordThread, hrouting]
      dsimp only
      rw [dif_neg (Nat.not_lt.mpr hnext)]
      exact .finish hrouting hreq hnext (routing_setThread _ hth) rfl
  · cases threadMoves_of_stepThread h with
    | callRead hphase =>
      exact .quiet (routing_of_idle hth (by rw [Thread.routing, hphase]) rfl) rfl
    | hangUp hphase =>
      have hquiet := @routing_of_idle s.toServer k th { th with phase := .leaving } hth
        (by rw [Thread.routing, hphase]) rfl
      rw [Watched.recordThread, congrFun hquiet k, hrouting, Thread.routing, hphase]
      exact .quiet hquiet rfl
    | @receive rd c info hphase hinfo =>
      have hset := @routing_setThread s.toServer k th
        { th with scanner := th.scanner.clear.scan rd, phase := .routing info 0 } hth
      rw [Watched.recordThread, hset, update_self]
      exact .start (by rw [hrouting, Thread.routing, hphase]) hset rfl
    | reply hphase hreq =>
      rw [Thread.routing, hphase] at hrouting
      exact .answer hrouting hreq (routing_setThread _ hth) rfl
    | close hphase =>
      exact .quiet (routing_of_idle hth (by rw [Thread.routing, hphase]) rfl) rfl
    | clear hphase =>
      exact .quiet (routing_of_idle hth (by rw [Thread.routing, hphase]) rfl) rfl
    | pass | write | sent => exact absurd rfl hslot

/-- **What a step adds to the history.** -/
theorem watches_of_step {s t : Watched} {a : Action} (h : watched.step s a = some t) :
    ∃ u, Watches s u ∧ t = u.watch ∧ ∀ i, (t.table i).id = (s.table i).id := by
  obtain ⟨u, hu, rfl⟩ := Option.map_eq_some_iff.mp (show Option.map _ _ = some t from h)
  have heffect := effect_of_step hu
  refine ⟨_, ?_, rfl, fun i => ?_⟩
  · cases a with
    | thread k b =>
      obtain ⟨th, hth, hstep⟩ := Option.bind_eq_some_iff.mp hu
      exact watches_of_stepThread hth hstep
    | accept clntSock =>
      cases heffect
      exact .quiet rfl rfl
    | authenticate rd => cases heffect <;> exact .quiet rfl rfl
    | register ip =>
      cases heffect
      exact .quiet (routing_concat rfl rfl) rfl
  · change ((s.record u a).table i).id = _
    rw [Watched.toServer_record]
    exact heffect.id i

/-! ### What is written for a message -/

/-- The writes for a message, at one slot or as an answer. -/
def entriesFor (entries : List Entry) (r : Posting) (slot : Option (Fin maxClnt)) : List Write :=
  (entries.filter fun e => e.thread = r.thread ∧ e.number = r.number ∧ e.slot = slot).map
    Entry.write

/-- What the table called for when the message was read. -/
def Posting.due (r : Posting) (i : Fin maxClnt) : List Write := slotWrites r.table r.socks r.info i

/-- A slot is written to at most once, and a steady one as the table called for. -/
def Posting.Once (entries : List Entry) (r : Posting) (i : Fin maxClnt) : Prop :=
  (entriesFor entries r (some i)).length ≤ 1 ∧
    (r.steady i → entriesFor entries r (some i) = r.due i)

/-- What has been written for a message that a thread is done with: one answer to a request, and
every other message to each slot once. -/
def Posting.Handled (entries : List Entry) (r : Posting) : Prop :=
  if r.info.isRequest then
    (∃ w, entriesFor entries r none = [w] ∧ w.dest = r.info.dest ∧ w.fd = r.info.fd) ∧
      ∀ i, entriesFor entries r (some i) = []
  else entriesFor entries r none = [] ∧ ∀ i, r.Once entries i

/-- What has been written for a message that is being relayed, with `next` the next slot. -/
structure Posting.Visited (entries : List Entry) (r : Posting) (next : ℕ) : Prop where
  before : ∀ i : Fin maxClnt, i.val < next → r.Once entries i
  after : ∀ i : Fin maxClnt, next ≤ i.val → entriesFor entries r (some i) = []
  answer : entriesFor entries r none = []
  request : r.info.isRequest → next = 0

/-- The order of the writes of a thread. -/
def Entry.Before (e e' : Entry) : Prop :=
  e.thread = e'.thread → e.number < e'.number ∨
    e.number = e'.number ∧ ∃ i j, e.slot = some i ∧ e'.slot = some j ∧ i < j

theorem entriesFor_append (entries : List Entry) (k n : ℕ) (slot slot' : Option (Fin maxClnt))
    (ws : List Write) (r : Posting) :
    entriesFor (entries ++ ws.map fun w => ⟨k, n, slot', w⟩) r slot =
      entriesFor entries r slot ++
        if k = r.thread ∧ n = r.number ∧ slot' = slot then ws else [] := by
  rw [entriesFor, List.filter_append, List.map_append, entriesFor, List.filter_map, List.map_map]
  congr 1
  split_ifs with htag
  · rw [List.filter_eq_self.mpr fun w _ => by simpa using htag]
    simp [Function.comp_def]
  · rw [List.filter_eq_nil_iff.mpr fun w _ => by simpa using htag]
    rfl

theorem entriesFor_append_of_ne {entries : List Entry} {k n : ℕ} {slot : Option (Fin maxClnt)}
    {ws : List Write} {r : Posting} (h : r.thread = k → r.number ≠ n) :
    entriesFor (entries ++ ws.map fun w => ⟨k, n, slot, w⟩) r = entriesFor entries r := by
  funext slot'
  rw [entriesFor_append, if_neg fun htag => h htag.1.symm htag.2.1.symm, List.append_nil]

theorem entriesFor_of_unbegun {entries : List Entry} {r : Posting} (h : ∀ e ∈ entries,
    e.thread = r.thread → e.number ≠ r.number) (slot : Option (Fin maxClnt)) :
    entriesFor entries r slot = [] := by
  rw [entriesFor, List.filter_eq_nil_iff.mpr, List.map_nil]
  intro e he
  simpa using fun hthread hnumber => absurd hnumber (h e he hthread)

/-- A message that is neither new nor the one that is being relayed. -/
theorem Posting.Handled.congr {entries entries' : List Entry} {r : Posting}
    (heq : entriesFor entries' r = entriesFor entries r) (h : r.Handled entries) :
    r.Handled entries' := by
  simp only [Handled, Once, heq]
  exact h

theorem Posting.Visited.congr {entries entries' : List Entry} {r : Posting} {next : ℕ}
    (heq : entriesFor entries' r = entriesFor entries r) (h : r.Visited entries next) :
    r.Visited entries' next := by
  refine ⟨fun i hi => ?_, fun i hi => ?_, ?_, h.request⟩
  · rw [Once, heq]
    exact h.before i hi
  · rw [heq]
    exact h.after i hi
  · rw [heq]
    exact h.answer

/-! ### The history -/

/-- What is known of the history, but for the steady slots. -/
structure Core (s : Watched) : Prop where
  entries : s.entries.map Entry.write = s.writes
  routing : ∀ k, (s.current k).map Posting.info = (s.routing k).map Prod.fst
  current : ∀ k r, s.current k = some r → r.thread = k ∧ ∀ i, (s.table i).id = (r.table i).id
  visited : ∀ k r next, s.current k = some r → s.routing k = some (r.info, next) →
    r.Visited s.entries next
  numbered : ∀ k, ((s.finished.filter fun r => r.thread = k).map Posting.number) ++
    (s.current k).toList.map Posting.number = List.range (s.begun k)
  bounded : ∀ e ∈ s.entries, e.number < s.begun e.thread
  ordered : s.entries.Pairwise Entry.Before
  handled : ∀ r ∈ s.finished, r.Handled s.entries

/-- A slot is steady only if it is as it was. -/
def Unchanged (s : Watched) : Prop := ∀ k r, s.current k = some r → ∀ i, r.steady i →
  (s.table i).fd = (r.table i).fd ∧ s.socks (s.table i).fd = r.socks (r.table i).fd

theorem unchanged_watch (s : Watched) : Unchanged s.watch := by
  intro k r hr i hi
  obtain ⟨r', -, rfl⟩ := Option.map_eq_some_iff.mp hr
  exact of_decide_eq_true (Bool.and_eq_true_iff.mp hi).2

theorem Core.watch {s : Watched} (h : Core s) : Core s.watch := by
  refine ⟨h.entries, fun k => ?_, fun k r hr => ?_, fun k r next hr hrouting => ?_, fun k => ?_,
    h.bounded, h.ordered, h.handled⟩
  · refine Eq.trans ?_ (h.routing k)
    exact Option.map_map ..
  · obtain ⟨r', hr', rfl⟩ := Option.map_eq_some_iff.mp hr
    exact h.current k r' hr'
  · obtain ⟨r', hr', rfl⟩ := Option.map_eq_some_iff.mp hr
    have hvisited := h.visited k r' next hr' hrouting
    refine ⟨fun i hi => ?_, hvisited.after, hvisited.answer, hvisited.request⟩
    obtain ⟨hle, hdue⟩ := hvisited.before i hi
    exact ⟨hle, fun hsteady => hdue (Bool.and_eq_true_iff.mp hsteady).1⟩
  · refine Eq.trans ?_ (h.numbered k)
    change _ ++ ((s.current k).map _).toList.map _ = _
    cases s.current k <;> rfl

/-- The message that is being relayed is the last one that the thread has read. -/
theorem Core.number {s : Watched} (h : Core s) {k : ℕ} {r : Posting} (hr : s.current k = some r) :
    r.number + 1 = s.begun k ∧ ∀ r' ∈ s.finished, r'.thread = k → r'.number < r.number := by
  have hnumbered := h.numbered k
  rw [hr] at hnumbered
  have hlength := congrArg List.length hnumbered
  simp only [Option.toList_some, List.map_singleton, List.length_append, List.length_singleton,
    List.length_range] at hlength
  rw [← hlength, List.range_succ] at hnumbered
  obtain ⟨hfinished, hlast⟩ := List.append_inj' hnumbered rfl
  have hnumber := List.singleton_inj.mp hlast
  refine ⟨by omega, fun r' hr' hthread => ?_⟩
  have hmem : r'.number ∈ ((s.finished.filter fun r => r.thread = k).map Posting.number) :=
    List.mem_map_of_mem (List.mem_filter.mpr ⟨hr', by simpa using hthread⟩)
  rw [hfinished, List.mem_range] at hmem
  omega

/-- A thread that relays has a message. -/
theorem Core.exists_current {s : Watched} (h : Core s) {k next : ℕ} {info : MsgInfo}
    (hbusy : s.routing k = some (info, next)) :
    ∃ r, s.current k = some r ∧ r.info = info ∧ r.Visited s.entries next := by
  have hinfo := h.routing k
  rw [hbusy, Option.map_some, Option.map_eq_some_iff] at hinfo
  obtain ⟨r, hr, rfl⟩ := hinfo
  exact ⟨r, hr, rfl, h.visited k r next hr hbusy⟩

/-- The table calls for the same at a slot that is as it was. -/
theorem slotWrites_of_steady {s : Watched} {r : Posting} {i : Fin maxClnt}
    (hid : (s.table i).id = (r.table i).id) (hfd : (s.table i).fd = (r.table i).fd)
    (hsock : s.socks (s.table i).fd = r.socks (r.table i).fd) :
    slotWrites s.table s.socks r.info i = r.due i := by
  rw [Posting.due, slotWrites, slotWrites, slotWrite, slotWrite, hid, hfd]
  split_ifs with hslot
  · rw [hfd] at hsock
    simp [hsock]
  · rfl

theorem length_slotWrites_le (table : Table) (socks : ℤ → Option ℕ) (info : MsgInfo)
    (i : Fin maxClnt) : (slotWrites table socks info i).length ≤ 1 := by
  rw [slotWrites, List.length_map]
  exact Option.length_toList_le

/-- Writes for the message that thread `k` relays, at a slot that has had none. -/
theorem Core.note {s : Watched} (h : Core s) {k : ℕ} {r : Posting} {t : Server}
    {ws : List Write} (slot : Option (Fin maxClnt)) (hr : s.current k = some r)
    (hwrites : t.writes = s.writes ++ ws) (hws : ws.length ≤ 1)
    (hslot : ∀ e ∈ s.entries, e.thread = k → e.number = r.number →
      ∃ i j, e.slot = some i ∧ slot = some j ∧ i < j) :
    (s.note k t slot).entries = s.entries ++ ws.map (fun w => ⟨k, r.number, slot, w⟩) ∧
      (s.note k t slot).entries.map Entry.write = t.writes ∧
      (∀ e ∈ (s.note k t slot).entries, e.number < s.begun e.thread) ∧
      (s.note k t slot).entries.Pairwise Entry.Before ∧
      ∀ r' ∈ s.finished, r'.Handled (s.note k t slot).entries := by
  obtain ⟨hnumber, hfinished⟩ := h.number hr
  have heq : (s.note k t slot).entries =
      s.entries ++ ws.map (fun w => ⟨k, r.number, slot, w⟩) := by
    rw [Watched.note, hwrites, List.drop_left, ← hnumber, Nat.add_sub_cancel]
  rw [heq]
  refine ⟨rfl, ?_, ?_, ?_, ?_⟩
  · rw [List.map_append, h.entries, hwrites, List.map_map]
    simp [Function.comp_def]
  · refine List.forall_mem_append.mpr ⟨h.bounded, List.forall_mem_map.mpr fun w _ => ?_⟩
    change r.number < s.begun k
    omega
  · refine List.pairwise_append.mpr ⟨h.ordered, ?_, ?_⟩
    · match ws, hws with
      | [], _ => exact List.Pairwise.nil
      | [w], _ => exact List.pairwise_singleton _ _
    · intro e he e' he'
      obtain ⟨w, -, rfl⟩ := List.mem_map.mp he'
      intro hthread
      have hlt := h.bounded e he
      rw [show e.thread = k from hthread] at hlt
      by_cases heq : e.number = r.number
      · exact .inr ⟨heq, hslot e he hthread heq⟩
      · have hle : e.number ≤ r.number := by omega
        exact .inl (Nat.lt_of_le_of_ne hle heq)
  · intro r' hr'
    refine (h.handled r' hr').congr (entriesFor_append_of_ne fun hthread => ?_)
    exact Nat.ne_of_lt (hfinished r' hr' hthread)

/-- The slots that a message has been to. -/
theorem Posting.Visited.slot_lt {entries : List Entry} {r : Posting} {next : ℕ}
    (h : r.Visited entries next) {e : Entry} (he : e ∈ entries) (hthread : e.thread = r.thread)
    (hnumber : e.number = r.number) : ∃ i : Fin maxClnt, e.slot = some i ∧ i.val < next := by
  have hmem : e.write ∈ entriesFor entries r e.slot :=
    List.mem_map_of_mem (List.mem_filter.mpr ⟨he, by simp [hthread, hnumber]⟩)
  cases hslot : e.slot with
  | none =>
    rw [hslot, h.answer] at hmem
    cases hmem
  | some i =>
    refine ⟨i, rfl, ?_⟩
    by_contra hle
    rw [hslot, h.after i (Nat.not_lt.mp hle)] at hmem
    cases hmem

/-- A message that a thread is done with is the last of those it is done with. -/
theorem Core.numbered_finish {s : Watched} (h : Core s) {k : ℕ} {r : Posting}
    (hr : s.current k = some r) (j : ℕ) :
    (((s.finished ++ [r]).filter fun r => r.thread = j).map Posting.number) ++
      (update s.current k none j).toList.map Posting.number = List.range (s.begun j) := by
  have hthread := (h.current k r hr).1
  rw [List.filter_append, List.map_append]
  by_cases hj : j = k
  · subst hj
    have hnumbered := h.numbered j
    rw [hr] at hnumbered
    rw [update_self, List.filter_cons_of_pos (by simpa using hthread)]
    simpa using hnumbered
  · rw [update_of_ne hj, List.filter_cons_of_neg (by rw [hthread]; simpa using Ne.symm hj)]
    simpa using h.numbered j

/-- Only one thread has gone on. -/
theorem Core.routing_update {s : Watched} (h : Core s) {k : ℕ} {current : Option Posting}
    {routing : Option (MsgInfo × ℕ)} (heq : current.map Posting.info = routing.map Prod.fst)
    (j : ℕ) : (update s.current k current j).map Posting.info =
      (update s.routing k routing j).map Prod.fst := by
  by_cases hj : j = k
  · subst hj
    rw [update_self, update_self, heq]
  · rw [update_of_ne hj, update_of_ne hj, h.routing j]

theorem Core.start {s : Watched} (h : Core s) {k : ℕ} {t : Server} {info : MsgInfo}
    (hidle : s.routing k = none) (hrouting : t.routing = update s.routing k (some (info, 0)))
    (hwrites : t.writes = s.writes) (hid : ∀ i, (t.table i).id = (s.table i).id) :
    Core (s.start k t info) := by
  have hnone : s.current k = none := by
    have hinfo := h.routing k
    rwa [hidle, Option.map_none, Option.map_eq_none_iff] at hinfo
  refine ⟨h.entries.trans hwrites.symm, fun j => ?_, fun j r hr => ?_, fun j r next hr hbusy => ?_,
    fun j => ?_, fun e he => ?_, h.ordered, h.handled⟩
  · change Option.map Posting.info (update s.current k _ j) = Option.map Prod.fst (t.routing j)
    rw [hrouting]
    exact h.routing_update rfl j
  · rcases update_cases hr with ⟨rfl, hnew⟩ | ⟨-, hold⟩
    · obtain rfl := Option.some.inj hnew
      exact ⟨rfl, fun _ => rfl⟩
    · exact ⟨(h.current j r hold).1, fun i => (hid i).trans ((h.current j r hold).2 i)⟩
  · change t.routing j = _ at hbusy
    rw [hrouting] at hbusy
    rcases update_cases hr with ⟨rfl, hnew⟩ | ⟨hj, hold⟩
    · obtain rfl := Option.some.inj hnew
      rw [update_self] at hbusy
      obtain rfl : 0 = next := congrArg Prod.snd (Option.some.inj hbusy)
      have hempty := @entriesFor_of_unbegun s.entries ⟨j, s.begun j, info, t.table, t.socks,
        fun _ => true⟩ fun e he (hthread : e.thread = j) =>
          Nat.ne_of_lt (hthread ▸ h.bounded e he)
      exact ⟨fun i hi => absurd hi (Nat.not_lt_zero _), fun i _ => hempty (some i), hempty none,
        fun _ => rfl⟩
    · rw [update_of_ne hj] at hbusy
      exact h.visited j r next hold hbusy
  · change _ ++ (update s.current k _ j).toList.map _ = List.range (update s.begun k _ j)
    have hnumbered := h.numbered j
    by_cases hj : j = k
    · subst hj
      rw [hnone, Option.toList_none, List.map_nil, List.append_nil] at hnumbered
      rw [update_self, update_self, List.range_succ, ← hnumbered]
      rfl
    · rwa [update_of_ne hj, update_of_ne hj]
  · change e.number < update s.begun k _ e.thread
    by_cases hthread : e.thread = k
    · rw [hthread, update_self]
      exact Nat.lt_succ_of_lt (hthread ▸ h.bounded e he)
    · rw [update_of_ne hthread]
      exact h.bounded e he

/-- A message after the visit of a slot. -/
theorem Posting.Visited.visit {s : Watched} {r : Posting} {i : Fin maxClnt}
    (h : r.Visited s.entries i.val) (hreq : ¬r.info.isRequest)
    (hid : (s.table i).id = (r.table i).id)
    (hsteady : r.steady i → (s.table i).fd = (r.table i).fd ∧
      s.socks (s.table i).fd = r.socks (r.table i).fd) :
    r.Visited (s.entries ++ (slotWrites s.table s.socks r.info i).map fun w =>
      ⟨r.thread, r.number, some i, w⟩) (i.val + 1) := by
  have hother : ∀ slot, slot ≠ some i → entriesFor (s.entries ++
      (slotWrites s.table s.socks r.info i).map fun w => ⟨r.thread, r.number, some i, w⟩) r slot =
        entriesFor s.entries r slot := by
    intro slot hslot
    rw [entriesFor_append, if_neg fun htag => hslot htag.2.2.symm, List.append_nil]
  refine ⟨fun j hj => ?_, fun j hj => ?_, ?_, fun hr => absurd hr hreq⟩
  · by_cases hji : j = i
    · subst hji
      rw [Posting.Once, entriesFor_append, if_pos ⟨rfl, rfl, rfl⟩, h.after j (Nat.le_refl _),
        List.nil_append]
      refine ⟨length_slotWrites_le _ _ _ _, fun hj => ?_⟩
      exact slotWrites_of_steady hid (hsteady hj).1 (hsteady hj).2
    · have hlt : j.val < i.val := by
        have hne : j.val ≠ i.val := fun heq => hji (Fin.ext heq)
        omega
      rw [Posting.Once, hother (some j) fun heq => hji (Option.some.inj heq)]
      exact h.before j hlt
  · rw [hother (some j) fun heq => by rw [Option.some.inj heq] at hj; omega]
    exact h.after j (by omega)
  · rw [hother none nofun]
    exact h.answer

theorem Core.visit {s : Watched} (h : Core s) (hsteady : Unchanged s) {k : ℕ} {t : Server}
    {info : MsgInfo} {i : Fin maxClnt} (hbusy : s.routing k = some (info, i.val))
    (hreq : ¬info.isRequest) (hrouting : t.routing = update s.routing k (some (info, i.val + 1)))
    (hwrites : t.writes = s.writes ++ slotWrites s.table s.socks info i)
    (hid : ∀ i, (t.table i).id = (s.table i).id) : Core (s.note k t (some i)) := by
  obtain ⟨r, hr, rfl, hvisited⟩ := h.exists_current hbusy
  obtain ⟨hthread, hids⟩ := h.current k r hr
  obtain ⟨hentries, hmap, hbounded, hordered, hhandled⟩ := h.note (some i) hr hwrites
    (length_slotWrites_le _ _ _ _) fun e he hk hnumber => by
      obtain ⟨j, hj, hlt⟩ := hvisited.slot_lt he (hk.trans hthread.symm) hnumber
      exact ⟨j, i, hj, rfl, hlt⟩
  refine ⟨hmap, fun j => ?_, fun j r' hr' => ?_, fun j r' next hr' hbusy' => ?_, h.numbered,
    hbounded, hordered, hhandled⟩
  · change Option.map _ (s.current j) = Option.map _ (t.routing j)
    rw [hrouting, ← @Core.routing_update s h k (some r) _ rfl j, ← hr, update_eq_self]
  · exact ⟨(h.current j r' hr').1, fun i => (hid i).trans ((h.current j r' hr').2 i)⟩
  · change t.routing j = _ at hbusy'
    rw [hrouting] at hbusy'
    rw [hentries]
    by_cases hj : j = k
    · subst hj
      obtain rfl := Option.some.inj (hr.symm.trans hr')
      rw [update_self] at hbusy'
      obtain rfl : i.val + 1 = next := congrArg Prod.snd (Option.some.inj hbusy')
      have hvisit := hvisited.visit hreq (hids i) fun hi => hsteady j r hr i hi
      rwa [hthread] at hvisit
    · rw [update_of_ne hj] at hbusy'
      have hold := h.visited j r' next hr' hbusy'
      have heq := @entriesFor_append_of_ne s.entries k r.number (some i)
        (slotWrites s.table s.socks r.info i) r'
        fun hk => absurd ((h.current j r' hr').1.symm.trans hk) hj
      exact hold.congr heq

/-- A message that has been to all slots. -/
theorem Posting.Visited.handled {entries : List Entry} {r : Posting} {next : ℕ}
    (h : r.Visited entries next) (hreq : ¬r.info.isRequest) (hnext : maxClnt ≤ next) :
    r.Handled entries := by
  rw [Handled, if_neg hreq]
  exact ⟨h.answer, fun i => h.before i (Nat.lt_of_lt_of_le i.isLt hnext)⟩

theorem Core.finish {s : Watched} (h : Core s) {k next : ℕ} {t : Server} {info : MsgInfo}
    (hbusy : s.routing k = some (info, next)) (hreq : ¬info.isRequest) (hnext : maxClnt ≤ next)
    (hrouting : t.routing = update s.routing k none) (hwrites : t.writes = s.writes)
    (hid : ∀ i, (t.table i).id = (s.table i).id) :
    Core (Watched.finish { s with toServer := t } k) := by
  obtain ⟨r, hr, rfl, hvisited⟩ := h.exists_current hbusy
  have hfinished : s.finished ++ (s.current k).toList = s.finished ++ [r] := by
    rw [hr, Option.toList_some]
  refine ⟨h.entries.trans hwrites.symm, fun j => ?_, fun j r' hr' => ?_,
    fun j r' next' hr' hbusy' => ?_, fun j => ?_, h.bounded, h.ordered, ?_⟩
  · change Option.map Posting.info (update s.current k none j) = Option.map Prod.fst (t.routing j)
    rw [hrouting]
    exact h.routing_update rfl j
  · rcases update_cases hr' with ⟨-, hnew⟩ | ⟨-, hold⟩
    · cases hnew
    · exact ⟨(h.current j r' hold).1, fun i => (hid i).trans ((h.current j r' hold).2 i)⟩
  · change t.routing j = _ at hbusy'
    rw [hrouting] at hbusy'
    rcases update_cases hr' with ⟨-, hnew⟩ | ⟨hj, hold⟩
    · cases hnew
    · rw [update_of_ne hj] at hbusy'
      exact h.visited j r' next' hold hbusy'
  · change (((s.finished ++ (s.current k).toList).filter _).map _) ++ _ = _
    rw [hfinished]
    exact h.numbered_finish hr j
  · change ∀ r' ∈ s.finished ++ (s.current k).toList, _
    rw [hfinished]
    refine List.forall_mem_append.mpr ⟨h.handled, List.forall_mem_singleton.mpr ?_⟩
    exact hvisited.handled hreq hnext

theorem Core.answer {s : Watched} (h : Core s) {k next : ℕ} {t : Server} {info : MsgInfo}
    {text : List Byte} (hbusy : s.routing k = some (info, next)) (hreq : info.isRequest)
    (hrouting : t.routing = update s.routing k none)
    (hwrites : t.writes = s.writes ++ [⟨info.dest, info.fd, text, s.socks info.fd⟩])
    (hid : ∀ i, (t.table i).id = (s.table i).id) : Core ((s.note k t none).finish k) := by
  obtain ⟨r, hr, rfl, hvisited⟩ := h.exists_current hbusy
  have hthread := (h.current k r hr).1
  obtain rfl := hvisited.request hreq
  have hnone : ∀ e ∈ s.entries, e.thread = k → e.number ≠ r.number := by
    intro e he hk hnumber
    obtain ⟨i, -, hlt⟩ := hvisited.slot_lt he (hk.trans hthread.symm) hnumber
    exact absurd hlt (Nat.not_lt_zero _)
  obtain ⟨hentries, hmap, hbounded, hordered, hhandled⟩ := h.note none hr hwrites
    (Nat.le_refl 1) fun e he hk hnumber => absurd hnumber (hnone e he hk)
  have hfinished : s.finished ++ (s.current k).toList = s.finished ++ [r] := by
    rw [hr, Option.toList_some]
  refine ⟨hmap, fun j => ?_, fun j r' hr' => ?_, fun j r' next' hr' hbusy' => ?_, fun j => ?_,
    hbounded, hordered, ?_⟩
  · change Option.map Posting.info (update s.current k none j) = Option.map Prod.fst (t.routing j)
    rw [hrouting]
    exact h.routing_update rfl j
  · rcases update_cases hr' with ⟨-, hnew⟩ | ⟨-, hold⟩
    · cases hnew
    · exact ⟨(h.current j r' hold).1, fun i => (hid i).trans ((h.current j r' hold).2 i)⟩
  · change t.routing j = _ at hbusy'
    rw [hrouting] at hbusy'
    rcases update_cases hr' with ⟨-, hnew⟩ | ⟨hj, hold⟩
    · cases hnew
    · rw [update_of_ne hj] at hbusy'
      refine (h.visited j r' next' hold hbusy').congr ?_
      rw [Watched.finish, hentries]
      exact entriesFor_append_of_ne fun hk => absurd ((h.current j r' hold).1.symm.trans hk) hj
  · change (((s.finished ++ (s.current k).toList).filter _).map _) ++ _ = _
    rw [hfinished]
    exact h.numbered_finish hr j
  · change ∀ r' ∈ s.finished ++ (s.current k).toList, _
    rw [hfinished]
    refine List.forall_mem_append.mpr ⟨hhandled, List.forall_mem_singleton.mpr ?_⟩
    rw [Watched.finish, hentries, Posting.Handled, if_pos hreq]
    refine ⟨⟨⟨r.info.dest, r.info.fd, text, s.socks r.info.fd⟩, ?_, rfl, rfl⟩, fun i => ?_⟩
    · rw [entriesFor_append, if_pos ⟨hthread.symm, rfl, rfl⟩, hvisited.answer, List.nil_append]
    · rw [entriesFor_append, if_neg fun htag => nomatch htag.2.2]
      exact (List.append_nil _).trans (hvisited.after i (Nat.zero_le _))

theorem Watches.core {s u : Watched} (h : Core s) (hsteady : Unchanged s) (hu : Watches s u)
    (hid : ∀ i, (u.table i).id = (s.table i).id) : Core u := by
  cases hu with
  | quiet hrouting hwrites =>
    refine ⟨h.entries.trans hwrites.symm, fun k => ?_, fun k r hr => ?_,
      fun k r next hr hbusy => ?_, h.numbered, h.bounded, h.ordered, h.handled⟩
    · rw [hrouting]
      exact h.routing k
    · exact ⟨(h.current k r hr).1, fun i => (hid i).trans ((h.current k r hr).2 i)⟩
    · rw [hrouting] at hbusy
      exact h.visited k r next hr hbusy
  | start hidle hrouting hwrites => exact h.start hidle hrouting hwrites hid
  | visit hbusy hreq hrouting hwrites => exact h.visit hsteady hbusy hreq hrouting hwrites hid
  | finish hbusy hreq hnext hrouting hwrites =>
    exact h.finish hbusy hreq hnext hrouting hwrites hid
  | answer hbusy hreq hrouting hwrites => exact h.answer hbusy hreq hrouting hwrites hid

theorem core_of_reachable {s : Watched} (h : watched.Reachable s) : Core s ∧ Unchanged s := by
  refine h.invariant (fun s => Core s ∧ Unchanged s) (fun s hs => ?_) fun s a t hs _ ht => ?_
  · obtain ⟨⟨records, buf, hserver⟩, hbegun, hcurrent, hfinished, hentries⟩ := hs
    have hnone : ∀ k r, s.current k ≠ some r := fun k r hr => by
      rw [hcurrent] at hr
      cases hr
    refine ⟨⟨?_, fun k => ?_, fun k r hr => absurd hr (hnone k r),
      fun k r next hr => absurd hr (hnone k r), fun k => ?_, ?_, ?_, ?_⟩,
      fun k r hr => absurd hr (hnone k r)⟩
    · rw [hentries, hserver]
      rfl
    · rw [hcurrent, hserver]
      rfl
    · rw [hcurrent, hfinished, hbegun]
      rfl
    · rw [hentries]
      exact List.forall_mem_nil _
    · rw [hentries]
      exact List.Pairwise.nil
    · rw [hfinished]
      exact List.forall_mem_nil _
  · obtain ⟨u, hu, rfl, hid⟩ := watches_of_step ht
    exact ⟨(hu.core hs.1 hs.2 hid).watch, unchanged_watch u⟩

/-- **What is handled.** In every run the messages that a thread is done with, and then the one it
is relaying, are all that it has read, in order. Its writes are those of one message after the
other and for each of them of one slot after the other. Of the messages it is done with, a request
has had one answer; any other has been written at most once to each slot, and to a slot whose
descriptor and connection have stayed the same it has been written if and only if it is for that
slot, to this connection. -/
theorem handled_once {s : Watched} (h : watched.Reachable s) :
    (∀ k, ((s.finished.filter fun r => r.thread = k).map Posting.number) ++
        (s.current k).toList.map Posting.number = List.range (s.begun k)) ∧
      s.entries.map Entry.write = s.writes ∧ s.entries.Pairwise Entry.Before ∧
      ∀ r ∈ s.finished, r.Handled s.entries := by
  obtain ⟨hcore, -⟩ := core_of_reachable h
  exact ⟨hcore.numbered, hcore.entries, hcore.ordered, hcore.handled⟩

/-- The server before its first connection. -/
def Watched.startUp : Watched := ⟨.startUp, fun _ => 0, fun _ => none, [], []⟩

end Relay

end DroneTurret
