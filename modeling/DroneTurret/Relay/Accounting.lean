import DroneTurret.Relay.Sessions
import Mathlib.Data.Fintype.Card

/-!
# Counting sessions

`clnt_cnt` goes up when a connection is registered and down when a thread clears its slot, so in
every run it is the number of threads that have not ended; the test of the accept loop keeps it
from exceeding `MAX_CLNT`. It is the number of slots that are logged in as long as each of these
threads has its slot. A login under an id that is logged in takes the slot away from its thread and
leaves the counter as it is.

## Main results

* `tally_of_reach` — the counter and the threads, in every run
* `Seated.step` — the counter and the slots, in a step that takes no slot away
* `session_accounting` — both, with the steps after which the second fails
-/

namespace DroneTurret

namespace Relay

open CString Function Transition

/-! ### The branch for an id that is logged in -/

/-- The search stops at slot `i`, which is logged in. -/
def Table.seizes (t : Table) (id : List Byte) (pArray1 : Option (List Byte)) (i : Fin maxClnt) :
    Prop :=
  ((List.finRange maxClnt).find? fun j => (t j).id.val = id &&
    ((t j).fd ≠ -1 || pArray1.all fun pw => (t j).pw.val = pw)) = some i ∧ (t i).fd ≠ -1

/-- The answer at the slot that the search stops at. -/
theorem answer_alreadyLogged_iff {t : Table} {i j : Fin maxClnt} {other : Fin maxClnt → Answer}
    (hother : ∀ j, other j ≠ .alreadyLogged i) :
    (if (t j).fd ≠ -1 then Answer.alreadyLogged j else other j) = .alreadyLogged i ↔
      some j = some i ∧ (t i).fd ≠ -1 := by
  by_cases hfd : (t j).fd = -1
  · rw [if_neg (not_not.mpr hfd)]
    refine ⟨fun h => absurd h (hother j), ?_⟩
    rintro ⟨hj, hlive⟩
    obtain rfl := Option.some.inj hj
    exact absurd hfd hlive
  · rw [if_pos hfd]
    constructor
    · intro h
      obtain rfl := Answer.alreadyLogged.inj h
      exact ⟨rfl, hfd⟩
    · rintro ⟨hj, -⟩
      rw [Option.some.inj hj]

theorem search_alreadyLogged_iff {t : Table} {p0 p1 : Option (List Byte)} {i : Fin maxClnt} :
    search t p0 p1 (List.finRange maxClnt) = .alreadyLogged i ↔
      ∃ id, p0 = some id ∧ t.seizes id p1 i := by
  cases p0 with
  | none =>
    have hslots : List.finRange maxClnt = 0 :: (List.finRange maxClnt).tail := rfl
    rw [hslots, search_none_left]
    simp
  | some id =>
    have hstep : search t (some id) p1 (List.finRange maxClnt) = .alreadyLogged i ↔
        t.seizes id p1 i := by
      cases p1 with
      | none =>
        have hstop : (fun j => decide ((t j).id.val = id) && (decide ((t j).fd ≠ -1) ||
            (none : Option (List Byte)).all fun pw => (t j).pw.val = pw)) =
              fun j => decide ((t j).id.val = id) := by
          funext j
          simp
        rw [search_eq_none_right, Table.seizes, hstop]
        cases (List.finRange maxClnt).find? fun j => decide ((t j).id.val = id) with
        | none => simp
        | some j =>
          exact @answer_alreadyLogged_iff t i j (fun _ => .undefined) fun _ h => by cases h
      | some pw =>
        have hstop : (fun j => decide ((t j).id.val = id) && (decide ((t j).fd ≠ -1) ||
            (some pw).all fun pw => (t j).pw.val = pw)) = t.stops id pw := rfl
        rw [search_eq, Table.seizes, hstop]
        cases (List.finRange maxClnt).find? (t.stops id pw) with
        | none => simp
        | some j => exact @answer_alreadyLogged_iff t i j .connected fun _ h => by cases h
    rw [hstep]
    simp

/-- The condition that a login does not take a slot away from the session that is in it. -/
def Steady (s : Server) : Action → Prop
  | .authenticate (some msg) => msg ≠ [] → ∀ id i, (s.buffer.firstTwo msg).1 = some id →
      ¬s.table.seizes id (s.buffer.firstTwo msg).2 i
  | _ => True

/-- **What an answer to a login message does**: nothing, or the connection is to be registered in
a free slot, or a slot is taken away. -/
theorem authenticate_step {s t : Server} {rd : Option (List Byte)}
    (h : s.authenticate rd = some t) :
    ∃ fd conn, s.pc = .accepted fd conn ∧ t.threads = s.threads ∧ t.clntCnt = s.clntCnt ∧
      ((t.pc = .accepting ∧ t.table = s.table) ∨
        (∃ i, t.pc = .registering fd conn i ∧ t.table = s.table ∧ (s.table i).fd = -1) ∨
        ∃ msg id i, rd = some msg ∧ msg ≠ [] ∧ (s.buffer.firstTwo msg).1 = some id ∧
          s.table.seizes id (s.buffer.firstTwo msg).2 i ∧ t.pc = .accepting ∧
          t.table = s.table.setFd i (-1)) := by
  rw [Server.authenticate] at h
  split at h
  · rename_i fd conn hpc
    refine ⟨fd, conn, hpc, ?_⟩
    by_cases hmsg : ∀ msg ∈ rd, msg = []
    · obtain ⟨hanswer, htable, hcnt⟩ := authenticate_of_no_message s.toMainState hmsg
      generalize s.toMainState.authenticate rd = r at h hanswer htable hcnt
      obtain ⟨answer, m⟩ := r
      obtain rfl : answer = .hungUp := hanswer
      obtain rfl := Option.some.inj h
      exact ⟨rfl, hcnt, .inl ⟨rfl, htable⟩⟩
    · push Not at hmsg
      obtain ⟨msg, rfl, hne⟩ := hmsg
      rcases authenticate_cases s.toMainState hne with
        ⟨i, hm, hsearch⟩ | ⟨answer, hlogged, hm, hsearch⟩
      · rw [hm] at h
        obtain rfl := Option.some.inj h
        obtain ⟨id, hid, hseizes⟩ := search_alreadyLogged_iff.mp hsearch
        exact ⟨rfl, rfl, .inr (.inr ⟨msg, id, i, rfl, hne, hid, hseizes, rfl, rfl⟩)⟩
      · rw [hm] at h
        cases answer with
        | undefined => cases h
        | alreadyLogged i => exact absurd rfl (hlogged i)
        | connected i =>
          obtain rfl := Option.some.inj h
          exact ⟨rfl, rfl, .inr (.inl ⟨i, rfl, rfl, (search_connected hsearch).2.2⟩)⟩
        | _ =>
          obtain rfl := Option.some.inj h
          exact ⟨rfl, rfl, .inl ⟨rfl, rfl⟩⟩
  · cases h

/-! ### The counter and the threads -/

/-- A thread that has not ended. -/
def Thread.running (th : Thread) : Bool := th.phase ≠ .ended

/-- The counter counts the running threads, and there is room for the connection `main` has in its
hands. -/
structure Tally (s : Server) : Prop where
  threads : s.clntCnt = s.threads.countP Thread.running
  bound : s.clntCnt ≤ maxClnt
  room : s.pc ≠ .accepting → s.clntCnt < maxClnt

/-- Replacing a running thread. -/
theorem countP_set_thread {threads : List Thread} {k : ℕ} {th : Thread} (th' : Thread)
    (hth : threads[k]? = some th) (hrunning : th.running = true) :
    (threads.set k th').countP Thread.running + 1 =
      threads.countP Thread.running + if th'.running then 1 else 0 := by
  obtain ⟨hk, rfl⟩ := List.getElem?_eq_some_iff.mp hth
  have hpos : 0 < threads.countP Thread.running :=
    List.countP_pos_iff.mpr ⟨_, List.getElem_mem hk, hrunning⟩
  rw [List.countP_set hk, if_pos hrunning]
  omega

/-- A thread that goes on. -/
theorem countP_set_of_running {threads : List Thread} {k : ℕ} {th th' : Thread}
    (hth : threads[k]? = some th) (hrunning : th.running = true) (h : th'.running = true) :
    (threads.set k th').countP Thread.running = threads.countP Thread.running := by
  have hcount := countP_set_thread th' hth hrunning
  rw [if_pos h] at hcount
  omega

/-- A thread that ends. -/
theorem countP_set_of_ended {threads : List Thread} {k : ℕ} {th : Thread} (th' : Thread)
    (hth : threads[k]? = some th) (hrunning : th.running = true) (h : th'.phase = .ended) :
    (threads.set k th').countP Thread.running + 1 = threads.countP Thread.running := by
  have hcount := countP_set_thread th' hth hrunning
  rw [if_neg (by simp [Thread.running, h])] at hcount
  omega

theorem Phase.serving.running {th : Thread} (h : th.phase.serving) : th.running = true := by
  simpa [Thread.running] using h.ne_ended

theorem Tally.step {s t : Server} (h : Tally s) {a : Action} (ht : s.step a = some t) :
    Tally t := by
  cases a with
  | accept clntSock =>
    change s.accept clntSock = some t at ht
    rw [Server.accept] at ht
    split at ht
    · obtain rfl := Option.some.inj ht
      refine ⟨h.threads, h.bound, ?_⟩
      rintro (hpc : (if s.clntCnt ≥ maxClnt then MainPc.accepting else _) ≠ .accepting)
      by_contra hfull
      exact hpc (if_pos (Int.not_lt.mp hfull))
    · cases ht
  | authenticate rd =>
    obtain ⟨fd, conn, hpc, hthreads, hcnt, -⟩ := authenticate_step ht
    refine ⟨by rw [hcnt, hthreads]; exact h.threads, by rw [hcnt]; exact h.bound, fun _ => ?_⟩
    rw [hcnt]
    exact h.room (by rw [hpc]; exact MainPc.noConfusion)
  | register ip =>
    have heffect : Effect s (.register ip) t := effect_of_step ht
    cases heffect with
    | @register clntSock conn i _ hpc =>
      have hroom := h.room (by rw [hpc]; exact MainPc.noConfusion)
      refine ⟨?_, hroom, fun hne => absurd rfl hne⟩
      change s.clntCnt + 1 = ((s.threads ++ [_]).countP Thread.running : ℕ)
      rw [List.countP_append, h.threads]
      rfl
  | thread k a =>
    have heffect : Effect s (.thread k a) t := effect_of_step ht
    cases heffect with
    | @serve _ _ th th' writes hserve hth hslot hconn hphase hphase' hwrites =>
      refine ⟨?_, h.bound, h.room⟩
      change s.clntCnt = ((s.threads.set k th').countP Thread.running : ℕ)
      rw [h.threads, countP_set_of_running hth hphase.running hphase'.running]
    | @close _ th hth hphase =>
      have hserving : th.phase.serving := by rw [hphase]; trivial
      refine ⟨?_, h.bound, h.room⟩
      change s.clntCnt = ((s.threads.set k { th with phase := .closed }).countP Thread.running : ℕ)
      rw [h.threads, countP_set_of_running hth hserving.running rfl]
    | @clear _ th hth hphase =>
      have hrunning : th.running = true := by simp [Thread.running, hphase]
      have hcount := countP_set_of_ended { th with phase := .ended } hth hrunning rfl
      have hthreads := h.threads
      have hbound := h.bound
      refine ⟨?_, ?_, fun hne => ?_⟩
      · change s.clntCnt - 1 = ((s.threads.set k _).countP Thread.running : ℕ)
        omega
      · change s.clntCnt - 1 ≤ maxClnt
        omega
      · change s.clntCnt - 1 < maxClnt
        omega

/-- **The counter counts the running threads**, of which there are never more than `MAX_CLNT`. -/
theorem tally_of_reach {s : Server} (h : server.Reachable s) : Tally s := by
  refine h.invariant Tally ?_ fun _ _ _ hs _ ht => hs.step ht
  rintro s ⟨records, buf, rfl⟩
  exact ⟨rfl, Int.natCast_nonneg maxClnt, fun hne => absurd rfl hne⟩

/-! ### The counter and the slots -/

/-- The slots that are logged in. -/
def Table.loggedIn (t : Table) : Finset (Fin maxClnt) := Finset.univ.filter fun i => (t i).fd ≠ -1

theorem Table.mem_loggedIn {t : Table} {i : Fin maxClnt} : i ∈ t.loggedIn ↔ (t i).fd ≠ -1 := by
  simp [loggedIn]

theorem Table.loggedIn_setFd (t : Table) (i : Fin maxClnt) :
    (t.setFd i (-1)).loggedIn = t.loggedIn.erase i := by
  ext j
  rw [Finset.mem_erase, mem_loggedIn, mem_loggedIn]
  by_cases hj : j = i
  · subst hj
    simp
  · simp [hj]

theorem Table.loggedIn_register (t : Table) (i : Fin maxClnt) {fd : ℤ} (hfd : fd ≠ -1)
    (ip : List Byte) : (t.register i fd ip).loggedIn = insert i t.loggedIn := by
  ext j
  rw [Finset.mem_insert, mem_loggedIn, mem_loggedIn]
  by_cases hj : j = i
  · subst hj
    simp [hfd]
  · simp [hj]

/-- Every running thread has its slot, and the counter counts the slots. -/
structure Seated (s : Server) : Prop extends Isolated s where
  occupied : ∀ (k : ℕ) (th : Thread), s.threads[k]? = some th → th.phase ≠ .ended →
    (s.table th.slot).fd ≠ -1
  vacant : ∀ i, s.pc.slot = some i → (s.table i).fd = -1
  count : s.clntCnt = s.table.loggedIn.card

/-- No thread runs in the slot that is given away. -/
theorem Seated.vacant_step {s : Server} (h : Seated s) (a : Action) : Vacant s a := by
  cases a with
  | register ip =>
    intro th hth hslot
    by_contra hrunning
    obtain ⟨k, hk⟩ := List.mem_iff_getElem?.mp hth
    exact h.occupied k th hk hrunning (h.vacant th.slot hslot)
  | _ => trivial

section Steps

variable {s t : Server}

theorem Seated.isolated_step (h : Seated s) {a : Action} (ht : s.step a = some t) : Isolated t :=
  h.toIsolated.step (h.vacant_step a) (effect_of_step ht)

theorem Seated.accept (h : Seated s) {clntSock : ℤ} (ht : s.step (.accept clntSock) = some t) :
    Seated t := by
  have hisolated := h.isolated_step ht
  have heffect : Effect s (.accept clntSock) t := effect_of_step ht
  cases heffect with
  | @accept _ pc hpc hfd hfree hnext =>
    refine ⟨hisolated, h.occupied, ?_, h.count⟩
    rintro i (hslot : pc.slot = some i)
    rcases hnext with rfl | rfl <;> cases hslot

/-- A login that takes no slot away leaves the table as it is. -/
theorem Seated.authenticate (h : Seated s) {rd : Option (List Byte)}
    (ha : Steady s (.authenticate rd)) (ht : s.step (.authenticate rd) = some t) : Seated t := by
  obtain ⟨fd, conn, hpc, hthreads, hcnt, hcases⟩ := authenticate_step ht
  have htable : t.table = s.table ∧ ∀ i, t.pc.slot = some i → (s.table i).fd = -1 := by
    rcases hcases with ⟨hpc', htable⟩ | ⟨i, hpc', htable, hfree⟩ |
      ⟨msg, id, i, rfl, hne, hid, hseizes, -, -⟩
    · exact ⟨htable, by rw [hpc']; nofun⟩
    · refine ⟨htable, fun j hj => ?_⟩
      rw [hpc'] at hj
      rw [← Option.some.inj hj]
      exact hfree
    · exact absurd hseizes (ha hne id i hid)
  refine ⟨h.isolated_step ht, ?_, ?_, ?_⟩
  · intro k th hth
    rw [hthreads] at hth
    rw [htable.1]
    exact h.occupied k th hth
  · intro i hi
    rw [htable.1]
    exact htable.2 i hi
  · rw [hcnt, htable.1]
    exact h.count

/-- A slot that is given away was free, so the counter and the slots in use both go up by one. -/
theorem Seated.register (h : Seated s) {ip : List Byte} (ht : s.step (.register ip) = some t) :
    Seated t := by
  have hisolated := h.isolated_step ht
  have heffect : Effect s (.register ip) t := effect_of_step ht
  cases heffect with
  | @register clntSock conn i _ hpc =>
    have hsock := (h.pending clntSock conn (by rw [hpc]; rfl)).1
    have hfd : clntSock ≠ -1 := h.toWired.ne_neg_one hsock
    have hvacant : (s.table i).fd = -1 := h.vacant i (by rw [hpc]; rfl)
    refine ⟨hisolated, ?_, nofun, ?_⟩
    · intro k th hth hrunning
      change (s.table.register i clntSock ip th.slot).fd ≠ -1
      by_cases hslot : th.slot = i
      · rw [hslot, Table.register_self]
        exact hfd
      · rw [Table.register_of_ne _ hslot]
        rcases getElem?_concat_cases hth with hold | ⟨-, rfl⟩
        · exact h.occupied k th hold hrunning
        · exact absurd rfl hslot
    · change s.clntCnt + 1 = ((s.table.register i clntSock ip).loggedIn.card : ℕ)
      rw [Table.loggedIn_register _ _ hfd, Finset.card_insert_of_notMem, h.count]
      · push_cast
        rfl
      · rw [Table.mem_loggedIn]
        exact not_not.mpr hvacant

/-- A thread that keeps its slot and was running runs in an occupied slot. -/
theorem Seated.occupied_set (h : Seated s) {k : ℕ} {th th' : Thread}
    (hth : s.threads[k]? = some th) (hslot : th'.slot = th.slot) (hphase : th.phase ≠ .ended)
    {j : ℕ} {u : Thread} (hu : (s.threads.set k th')[j]? = some u) (hrunning : u.phase ≠ .ended) :
    (s.table u.slot).fd ≠ -1 := by
  rcases getElem?_set_cases hu with ⟨-, rfl⟩ | ⟨-, hold⟩
  · rw [hslot]
    exact h.occupied k th hth hphase
  · exact h.occupied j u hold hrunning

/-- The table after a running thread has cleared its slot: no other one runs there. -/
theorem Seated.occupied_clear (h : Seated s) {k : ℕ} {th th' : Thread}
    (hth : s.threads[k]? = some th) (hphase : th.phase ≠ .ended) (hended : th'.phase = .ended)
    {j : ℕ} {u : Thread} (hu : (s.threads.set k th')[j]? = some u) (hrunning : u.phase ≠ .ended) :
    (s.table.setFd th.slot (-1) u.slot).fd ≠ -1 := by
  rcases getElem?_set_cases hu with ⟨-, rfl⟩ | ⟨hj, hold⟩
  · exact absurd hended hrunning
  · have hslot : u.slot ≠ th.slot := fun hslot =>
      hj (h.distinct.slot_inj j k u th hold hth hrunning hphase hslot)
    rw [Table.setFd_of_ne _ hslot]
    exact h.occupied j u hold hrunning

/-- A slot that is cleared was in use, so the counter and the slots in use both go down by one. -/
theorem Seated.count_clear (h : Seated s) {i : Fin maxClnt} (hfd : (s.table i).fd ≠ -1) :
    s.clntCnt - 1 = ((s.table.setFd i (-1)).loggedIn.card : ℕ) := by
  have hmem : i ∈ s.table.loggedIn := Table.mem_loggedIn.mpr hfd
  have hpos := Finset.card_pos.mpr ⟨_, hmem⟩
  rw [Table.loggedIn_setFd, Finset.card_erase_of_mem hmem, h.count]
  omega

theorem Seated.thread (h : Seated s) {k : ℕ} {a : ThreadAction}
    (ht : s.step (.thread k a) = some t) : Seated t := by
  have hisolated := h.isolated_step ht
  have heffect : Effect s (.thread k a) t := effect_of_step ht
  cases heffect with
  | serve hserve hth hslot hconn hphase hphase' hwrites =>
    exact ⟨hisolated, fun _ _ => h.occupied_set hth hslot hphase.ne_ended, h.vacant, h.count⟩
  | @close _ th hth hphase =>
    have hrunning : th.phase ≠ .ended := by rw [hphase]; nofun
    refine ⟨hisolated, fun j u hu => h.occupied_set hth ?_ hrunning hu, h.vacant, h.count⟩
    rfl
  | @clear _ th hth hphase =>
    have hrunning : th.phase ≠ .ended := by rw [hphase]; nofun
    refine ⟨hisolated, fun _ _ => h.occupied_clear hth hrunning rfl, ?_,
      h.count_clear (h.occupied k th hth hrunning)⟩
    intro i hi
    change (s.table.setFd th.slot (-1) i).fd = -1
    by_cases hslot : i = th.slot
    · rw [hslot, Table.setFd_fd_self]
    · rw [Table.setFd_of_ne _ hslot]
      exact h.vacant i hi

/-- **The counter keeps to the slots** in a step that takes no slot away. -/
theorem Seated.step (h : Seated s) {a : Action} (ha : Steady s a) (ht : s.step a = some t) :
    Seated t := by
  cases a with
  | accept clntSock => exact h.accept ht
  | authenticate rd => exact h.authenticate ha ht
  | register ip => exact h.register ht
  | thread k a => exact h.thread ht

end Steps

/-- The server with a table that `idpasswd.txt` fills, so that every slot is free at first. -/
def fullServer : Transition Server Action where
  init s := server.init s ∧ ∀ i, (s.table i).fd = -1
  step := Server.step

theorem load_fd_of_full {records : List (Word × Word)} (h : maxClnt ≤ records.length)
    (i : Fin maxClnt) : (load records i).fd = -1 := by
  have hi : i.val < records.length := by omega
  rw [load, List.getElem?_eq_getElem hi]

theorem seated_of_reach {s : Server} (h : fullServer.Reach Steady s) : Seated s := by
  refine h.invariant Seated ?_ fun _ _ _ hs ha ht => hs.step ha ht
  rintro s ⟨hinit, hfree⟩
  have hnone : s.table.loggedIn = ∅ := by
    ext i
    simp [Table.mem_loggedIn, hfree i]
  have hisolated := isolated_init hinit
  obtain ⟨records, buf, rfl⟩ := hinit
  refine ⟨hisolated, nofun, nofun, ?_⟩
  rw [hnone]
  rfl

theorem authenticate_of_seizes (m : MainState) {msg id : List Byte} {i : Fin maxClnt}
    (hne : msg ≠ []) (hid : (m.buffer.firstTwo msg).1 = some id)
    (hseizes : m.table.seizes id (m.buffer.firstTwo msg).2 i) :
    m.authenticate (some msg) = (.alreadyLogged i,
      { m with buffer := m.buffer.scan msg, table := m.table.setFd i (-1) }) := by
  have hsearch := search_alreadyLogged_iff.mpr ⟨id, hid, hseizes⟩
  rcases authenticate_cases m hne with ⟨j, h, hj⟩ | ⟨answer, hlogged, -, hanswer⟩
  · rw [h]
    obtain rfl : j = i := Answer.alreadyLogged.inj (hj.symm.trans hsearch)
    rfl
  · exact absurd (hanswer.symm.trans hsearch) (hlogged i)

/-- A step that takes a slot away takes it away from the slots and not from the counter. -/
theorem count_ne_of_seizure {s t : Server} {a : Action} (hcount : s.clntCnt = s.table.loggedIn.card)
    (ht : server.step s a = some t) (ha : ¬Steady s a) : t.clntCnt ≠ t.table.loggedIn.card := by
  cases a with
  | authenticate rd =>
    cases rd with
    | none => exact absurd trivial ha
    | some msg =>
      simp only [Steady, not_forall, not_not] at ha
      obtain ⟨hne, id, i, hid, hseizes⟩ := ha
      have hstep : s.authenticate (some msg) = some t := ht
      rw [Server.authenticate] at hstep
      split at hstep
      · rw [authenticate_of_seizes s.toMainState hne hid hseizes] at hstep
        obtain rfl := Option.some.inj hstep
        have hmem : i ∈ s.table.loggedIn := Table.mem_loggedIn.mpr hseizes.2
        have hpos := Finset.card_pos.mpr ⟨_, hmem⟩
        change s.clntCnt ≠ ((s.table.setFd i (-1)).loggedIn.card : ℕ)
        rw [Table.loggedIn_setFd, Finset.card_erase_of_mem hmem, hcount]
        omega
      · cases hstep
  | _ => exact absurd trivial ha

theorem count_init_iff {s : Server} (h : server.init s) :
    s.clntCnt = s.table.loggedIn.card ↔ ∀ i, (s.table i).fd = -1 := by
  have hzero : s.clntCnt = 0 := by
    obtain ⟨records, buf, rfl⟩ := h
    rfl
  rw [hzero, eq_comm, Int.natCast_eq_zero, Finset.card_eq_zero, Finset.eq_empty_iff_forall_notMem]
  simp [Table.mem_loggedIn]

/-- **Session accounting.** In every run the counter lies between 0 and `MAX_CLNT`. It is the number
of slots that are logged in, in every run in which all slots are free at first and no login takes a
slot away from its session; at first it is that number only if all slots are free, and a step that
takes a slot away makes it differ. -/
theorem session_accounting (s : Server) :
    (server.Reachable s → 0 ≤ s.clntCnt ∧ s.clntCnt ≤ maxClnt) ∧
      (fullServer.Reach Steady s → s.clntCnt = s.table.loggedIn.card) ∧
      (server.init s → (s.clntCnt = s.table.loggedIn.card ↔ ∀ i, (s.table i).fd = -1)) ∧
      ∀ a t, s.clntCnt = s.table.loggedIn.card → server.step s a = some t → ¬Steady s a →
        t.clntCnt ≠ t.table.loggedIn.card := by
  refine ⟨fun h => ?_, fun h => (seated_of_reach h).count, count_init_iff, fun a t =>
    count_ne_of_seizure⟩
  have htally := tally_of_reach h
  refine ⟨?_, htally.bound⟩
  rw [htally.threads]
  exact Int.natCast_nonneg _

theorem full_startUp : fullServer.init .startUp :=
  ⟨init_server_startUp, load_fd_of_full (by decide)⟩

/-- Client 5 logs in. -/
theorem session_accounting_witness :
    ∃ s : Server, s.clntCnt = 1 ∧ s.table.loggedIn.card = 1 := by
  obtain ⟨s, hs, hcnt⟩ : ∃ s, fullServer.Reach Steady s ∧ s.clntCnt = 1 := by
    have haccept : fullServer.Reach Steady _ :=
      .step (.accept 4) (.init full_startUp) trivial rfl
    have hauth : fullServer.Reach Steady _ :=
      .step (.authenticate (some (bytes "[5:PASSWD]"))) haccept
        (fun _ _ i _ hseizes => hseizes.2 (load_fd_of_full (by decide) i)) rfl
    exact ⟨_, .step (.register (bytes "10.10.141.5")) hauth trivial rfl, rfl⟩
  have hcount := (session_accounting s).2.1 hs
  exact ⟨s, hcnt, by omega⟩

/-- Client 5 is logged in, and a second login of 5 is turned away. -/
theorem not_session_accounting :
    ¬∀ s, fullServer.Reachable s → s.clntCnt = s.table.loggedIn.card := by
  intro h
  obtain ⟨s, hs, hp⟩ := exists_reach_of_run fullServer (fun _ _ => True) full_startUp
    (logIn 4 (bytes "[5:PASSWD]") ++ [.accept 5, .authenticate (some (bytes "[5:PASSWD]"))])
    (fun s => s.clntCnt = 1 && s.table.loggedIn.card = 0) rfl
  simp only [Bool.and_eq_true, decide_eq_true_eq] at hp
  have hcount := h s hs
  rw [hp.1, hp.2] at hcount
  cases hcount

end Relay

end DroneTurret
