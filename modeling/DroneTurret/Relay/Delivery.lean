import DroneTurret.Relay.Server

/-!
# Where a message goes

`send_msg` writes to the descriptor it finds in a slot, so a message reaches the right client as
long as the descriptors in the table are those of the clients. They are not always: a thread closes
its descriptor before it clears its slot, and in between the kernel may give the number to a
connection that has authenticated as nobody yet.

`Owned` is the invariant of the runs in which `accept` returns no number that a slot still carries.
Nothing else needs to be assumed of the schedule.

## Main results

* `Owned.step` — the invariant, one case for each effect
* `writes_authenticated` — no misdelivery, over every run that meets the condition
-/

namespace DroneTurret

namespace Relay

open CString Function Transition

/-- The condition that `accept` returns no number that a slot still carries. -/
def Unused (s : Server) : Action → Prop
  | .accept clntSock => ∀ i, (s.table i).fd ≠ clntSock
  | _ => True

instance (s : Server) (a : Action) : Decidable (Unused s a) :=
  match a with
  | .accept clntSock => Nat.decidableForallFin fun i => (s.table i).fd ≠ clntSock
  | .authenticate _ | .register _ | .thread _ _ => .isTrue trivial

/-- Whom the descriptors in the table and in the hands of `main` belong to. -/
structure Owned (s : Server) : Prop extends Wired s where
  /-- A slot's descriptor, if it is a client's, is that of a client of the slot's id. -/
  slots : ∀ i c, s.socks (s.table i).fd = some c → s.auth c = some (s.table i).id.val
  /-- The connection `main` has accepted is in no slot yet and is nobody's. -/
  accepted : ∀ fd c, s.pc = .accepted fd c →
    s.socks fd = some c ∧ s.auth c = none ∧ ∀ i, (s.table i).fd ≠ fd
  /-- The connection `main` is about to register is in no slot yet and is the slot's client's. -/
  registering : ∀ fd c i, s.pc = .registering fd c i →
    s.socks fd = some c ∧ s.auth c = some (s.table i).id.val ∧ ∀ j, (s.table j).fd ≠ fd
  /-- Connections to come are nobody's. -/
  fresh : ∀ c, s.conns ≤ c → s.auth c = none
  writes : ∀ w ∈ s.writes, w.addressed → ∀ c, w.conn = some c → s.auth c = some w.dest

theorem owned_init {s : Server} (h : server.init s) : Owned s := by
  have hwired := wired_init h
  obtain ⟨records, buf, rfl⟩ := h
  exact ⟨hwired, nofun, nofun, nofun, fun _ _ => rfl, nofun⟩

/-- Marking a slot free keeps what is said of the descriptors in the table. -/
theorem Owned.slots_setFd {s : Server} (h : Owned s) (i j : Fin maxClnt) {c : ℕ}
    (hc : s.socks (s.table.setFd i (-1) j).fd = some c) :
    s.auth c = some (s.table.setFd i (-1) j).id.val := by
  rw [Table.setFd_id]
  by_cases hj : j = i
  · subst hj
    rw [Table.setFd_fd_self] at hc
    exact absurd rfl (h.toWired.ne_neg_one hc)
  · rw [Table.setFd_of_ne _ hj] at hc
    exact h.slots j c hc

theorem Table.setFd_fd_ne {t : Table} {fd : ℤ} (h : ∀ j, (t j).fd ≠ fd) (hfd : fd ≠ -1)
    (i j : Fin maxClnt) : (t.setFd i (-1) j).fd ≠ fd := by
  by_cases hj : j = i
  · subst hj
    rw [setFd_fd_self]
    exact hfd.symm
  · rw [setFd_of_ne _ hj]
    exact h j

/-- A new connection, on a number that no slot carries. -/
theorem Owned.accept {s : Server} (h : Owned s) {clntSock : ℤ} {pc : MainPc}
    (hpc : s.pc = .accepting) (hfd : 3 < clntSock) (hfree : s.socks clntSock = none)
    (hnext : pc = .accepting ∨ pc = .accepted clntSock s.conns)
    (hunused : ∀ i, (s.table i).fd ≠ clntSock) :
    Owned { s with
      pc := pc, socks := update s.socks clntSock (some s.conns), conns := s.conns + 1 } := by
  have hwired := h.toWired.step (.accept hpc hfd hfree hnext)
  refine ⟨hwired, ?_, ?_, ?_, ?_, h.writes⟩
  · rintro i c (hc : update s.socks clntSock (some s.conns) (s.table i).fd = some c)
    rw [update_of_ne (hunused i)] at hc
    exact h.slots i c hc
  · rintro fd c (hpc' : pc = .accepted fd c)
    rcases hnext with rfl | rfl
    · cases hpc'
    · cases hpc'
      exact ⟨update_self .., h.fresh _ (Nat.le_refl _), hunused⟩
  · rintro fd c i (hpc' : pc = .registering fd c i)
    rcases hnext with rfl | rfl <;> cases hpc'
  · intro c hc
    exact h.fresh c (Nat.le_of_succ_le hc)

theorem Owned.turnedAway {s : Server} (h : Owned s) {clntSock : ℤ} {conn : ℕ}
    {m : MainState} (hpc : s.pc = .accepted clntSock conn) (htable : m.table = s.table) :
    Owned { s with toMainState := m, pc := .accepting } := by
  have hwired := h.toWired.step (@Effect.turnedAway s none clntSock conn m hpc htable)
  refine ⟨hwired, ?_, nofun, nofun, h.fresh, h.writes⟩
  rintro i c (hc : s.socks (m.table i).fd = some c)
  change s.auth c = some (m.table i).id.val
  rw [htable] at hc ⊢
  exact h.slots i c hc

/-- The slot of a client that logs in again is marked free. -/
theorem Owned.alreadyLogged {s : Server} (h : Owned s) {clntSock : ℤ} {conn : ℕ}
    {m : MainState} {i : Fin maxClnt} (hpc : s.pc = .accepted clntSock conn)
    (htable : m.table = s.table.setFd i (-1)) :
    Owned { s with toMainState := m, pc := .accepting, holder := update s.holder i none } := by
  have hwired := h.toWired.step (@Effect.alreadyLogged s none clntSock conn m i hpc htable)
  refine ⟨hwired, ?_, nofun, nofun, h.fresh, h.writes⟩
  rintro j c (hc : s.socks (m.table j).fd = some c)
  change s.auth c = some (m.table j).id.val
  rw [htable] at hc ⊢
  exact h.slots_setFd i j hc

/-- A connection authenticates as the id of a slot. -/
theorem Owned.connected {s : Server} (h : Owned s) {clntSock : ℤ} {conn : ℕ}
    {m : MainState} {i : Fin maxClnt} (hpc : s.pc = .accepted clntSock conn)
    (htable : m.table = s.table) (hfree : (s.table i).fd = -1) :
    Owned { s with
      toMainState := m, pc := .registering clntSock conn i
      auth := update s.auth conn (some (s.table i).id.val) } := by
  have hwired := h.toWired.step (@Effect.connected s none clntSock conn m i hpc htable hfree)
  obtain ⟨hsock, hnobody, hnoslot⟩ := h.accepted clntSock conn hpc
  -- what is known of other connections is not touched
  have hother : ∀ c id, s.auth c = some id →
      update s.auth conn (some (s.table i).id.val) c = some id := by
    intro c id hc
    rw [update_of_ne (by rintro rfl; rw [hnobody] at hc; cases hc)]
    exact hc
  refine ⟨hwired, ?_, nofun, ?_, ?_, ?_⟩
  · rintro j c (hc : s.socks (m.table j).fd = some c)
    change update s.auth conn (some (s.table i).id.val) c = some (m.table j).id.val
    rw [htable] at hc ⊢
    exact hother c _ (h.slots j c hc)
  · rintro fd c j (hpc' : MainPc.registering clntSock conn i = .registering fd c j)
    cases hpc'
    change s.socks clntSock = some conn ∧
      update s.auth conn (some (s.table i).id.val) conn = some (m.table i).id.val ∧
      ∀ j, (m.table j).fd ≠ clntSock
    rw [htable]
    exact ⟨hsock, update_self .., hnoslot⟩
  · rintro c (hc : s.conns ≤ c)
    have hconn : conn < s.conns := (h.client clntSock conn hsock).2
    change update s.auth conn (some (s.table i).id.val) c = none
    rw [update_of_ne (by omega)]
    exact h.fresh c hc
  · intro w hw haddr c hc
    exact hother c _ (h.writes w hw haddr c hc)

theorem Owned.register {s : Server} (h : Owned s) {clntSock : ℤ} {conn : ℕ}
    {i : Fin maxClnt} {ip : List Byte} (hpc : s.pc = .registering clntSock conn i) :
    Owned { s with
      toMainState := s.toMainState.register i clntSock ip, pc := .accepting
      threads := s.threads ++ [⟨i, conn, .null [], .ready⟩]
      holder := update s.holder i (some conn) } := by
  have hwired := h.toWired.step (@Effect.register s clntSock conn i ip hpc)
  obtain ⟨hsock, hauth, hnoslot⟩ := h.registering clntSock conn i hpc
  refine ⟨hwired, ?_, nofun, nofun, h.fresh, h.writes⟩
  rintro j c (hc : s.socks (s.table.register i clntSock ip j).fd = some c)
  change s.auth c = some (s.table.register i clntSock ip j).id.val
  rw [Table.register_id]
  by_cases hj : j = i
  · subst hj
    rw [Table.register_self] at hc
    obtain rfl : conn = c := Option.some.inj (hsock.symm.trans hc)
    exact hauth
  · rw [Table.register_of_ne _ hj] at hc
    exact h.slots j c hc

/-- A thread goes on, and what it has written went to the slot of an id. -/
theorem Owned.serve {s : Server} (h : Owned s) {k : ℕ} {a : ThreadAction} {th th' : Thread}
    {writes : List Write} (hserve : a ≠ .close ∧ a ≠ .clear) (hth : s.threads[k]? = some th)
    (hslot : th'.slot = th.slot) (hconn : th'.conn = th.conn) (hphase : th.phase.serving)
    (hphase' : th'.phase.serving)
    (hwrites : ∀ w ∈ writes, w ∈ s.writes ∨ (w.addressed → w.toSlot s)) :
    Owned { s.setThread k th' with writes := writes } := by
  have hwired := h.toWired.step (Effect.serve hserve hth hslot hconn hphase hphase' hwrites)
  refine ⟨hwired, h.slots, h.accepted, h.registering, h.fresh, ?_⟩
  rintro w (hw : w ∈ writes) haddr c hc
  rcases hwrites w hw with hold | hnew
  · exact h.writes w hold haddr c hc
  · -- the slot the write was made for is of the id it is for
    obtain ⟨i, hfd, hid, hsock⟩ := hnew haddr
    rw [← hid]
    exact h.slots i c (by rw [hfd, ← hsock, hc])

theorem Owned.close {s : Server} (h : Owned s) {k : ℕ} {th : Thread}
    (hth : s.threads[k]? = some th) (hphase : th.phase = .leaving) :
    Owned { s.setThread k { th with phase := .closed } with
      socks := update s.socks (s.table th.slot).fd none } := by
  have hwired := h.toWired.step (.close hth hphase)
  have hkeep : ∀ fd c, s.socks fd = some c → (∀ i, (s.table i).fd ≠ fd) →
      update s.socks (s.table th.slot).fd none fd = some c := by
    intro fd c hfd hne
    rw [update_of_ne (hne th.slot).symm]
    exact hfd
  refine ⟨hwired, ?_, ?_, ?_, h.fresh, h.writes⟩
  · rintro i c (hc : update s.socks (s.table th.slot).fd none (s.table i).fd = some c)
    rcases update_cases hc with ⟨-, hv⟩ | ⟨-, hv⟩
    · cases hv
    · exact h.slots i c hv
  · intro fd c hpc
    obtain ⟨hsock, hnobody, hnoslot⟩ := h.accepted fd c hpc
    exact ⟨hkeep fd c hsock hnoslot, hnobody, hnoslot⟩
  · intro fd c i hpc
    obtain ⟨hsock, hauth, hnoslot⟩ := h.registering fd c i hpc
    exact ⟨hkeep fd c hsock hnoslot, hauth, hnoslot⟩

theorem Owned.clear {s : Server} (h : Owned s) {k : ℕ} {th : Thread}
    (hth : s.threads[k]? = some th) (hphase : th.phase = .closed) :
    Owned { s.setThread k { th with phase := .ended } with
      table := s.table.setFd th.slot (-1), clntCnt := s.clntCnt - 1
      holder := update s.holder th.slot none } := by
  have hwired := h.toWired.step (.clear hth hphase)
  refine ⟨hwired, ?_, ?_, ?_, h.fresh, h.writes⟩
  · intro i c hc
    exact h.slots_setFd th.slot i hc
  · intro fd c hpc
    obtain ⟨hsock, hnobody, hnoslot⟩ := h.accepted fd c hpc
    exact ⟨hsock, hnobody, Table.setFd_fd_ne hnoslot (h.toWired.ne_neg_one hsock) th.slot⟩
  · intro fd c i hpc
    obtain ⟨hsock, hauth, hnoslot⟩ := h.registering fd c i hpc
    refine ⟨hsock, ?_, Table.setFd_fd_ne hnoslot (h.toWired.ne_neg_one hsock) th.slot⟩
    change s.auth c = some (s.table.setFd th.slot (-1) i).id.val
    rw [Table.setFd_id]
    exact hauth

/-- **The descriptors stay their owners'** in a step that meets the condition. -/
theorem Owned.step {s t : Server} (h : Owned s) {a : Action} (ha : Unused s a)
    (ht : Effect s a t) : Owned t := by
  cases ht with
  | accept hpc hfd hfree hnext => exact h.accept hpc hfd hfree hnext ha
  | turnedAway hpc htable => exact h.turnedAway hpc htable
  | alreadyLogged hpc htable => exact h.alreadyLogged hpc htable
  | connected hpc htable hfree => exact h.connected hpc htable hfree
  | register hpc => exact h.register hpc
  | serve hserve hth hslot hconn hphase hphase' hwrites =>
    exact h.serve hserve hth hslot hconn hphase hphase' hwrites
  | close hth hphase => exact h.close hth hphase
  | clear hth hphase => exact h.clear hth hphase

theorem owned_of_reach {s : Server} (h : server.Reach Unused s) : Owned s :=
  h.invariant Owned (fun _ => owned_init) fun _ _ _ hs ha ht => hs.step ha (effect_of_step ht)

/-- **No misdelivery.** In every run in which `accept` returns no descriptor number that a slot
still carries, every write that `send_msg` has made for a message addressed to an id, and that went
to a client's socket at all, went to that of a client that had authenticated as that id. -/
theorem writes_authenticated {s : Server} (h : server.Reach Unused s) :
    ∀ w ∈ s.writes, w.addressed → ∀ c, w.conn = some c → s.auth c = some w.dest :=
  (owned_of_reach h).writes

/-- Clients 5 and 6 log in on descriptors 4 and 5, and 6 sends a message to 5. -/
def messageToFive : List Action :=
  logIn 4 (bytes "[5:PASSWD]") ++ logIn 5 (bytes "[6:PASSWD]") ++
    [.thread 1 .callRead, .thread 1 (.returnRead (bytes "[5]LEDON\n"))] ++
    List.replicate 5 (.thread 1 .sendSlot)

theorem writes_authenticated_witness :
    ∃ s : Server, s.writes = [⟨bytes "5", 4, bytes "[6]LEDON\n", some 0⟩] ∧
      s.auth 0 = some (bytes "5") := by
  obtain ⟨s, hs, hp⟩ := exists_reach_of_run server Unused init_server_startUp messageToFive
    (fun s => s.writes = [⟨bytes "5", 4, bytes "[6]LEDON\n", some 0⟩]) rfl
  have hwrites : s.writes = [⟨bytes "5", 4, bytes "[6]LEDON\n", some 0⟩] := by simpa using hp
  refine ⟨s, hwrites, writes_authenticated hs
    ⟨bytes "5", 4, bytes "[6]LEDON\n", some 0⟩ ?_ ?_ 0 rfl⟩
  · rw [hwrites]
    exact List.mem_singleton_self _
  · change bytes "5" ∉ [allmsg, idlist, gettime]
    decide

/-- Client 5's thread has closed descriptor 4 and not cleared its slot when `accept` returns 4 for
a new connection: the message from 6 to 5 goes to a peer that has not logged in. -/
theorem not_writes_authenticated :
    ¬∀ s, server.Reachable s →
      ∀ w ∈ s.writes, w.addressed → ∀ c, w.conn = some c → s.auth c = some w.dest := by
  intro h
  obtain ⟨s, hs, hp⟩ := exists_reach_of_run server (fun _ _ => True) init_server_startUp
    (logIn 4 (bytes "[5:PASSWD]") ++ logIn 5 (bytes "[6:PASSWD]") ++
      [.thread 0 .callRead, .thread 0 (.returnRead []), .thread 0 .close, .accept 4,
        .thread 1 .callRead, .thread 1 (.returnRead (bytes "[5]LEDON\n"))] ++
      List.replicate 5 (.thread 1 .sendSlot))
    (fun s => s.writes = [⟨bytes "5", 4, bytes "[6]LEDON\n", some 2⟩] && s.auth 2 = none) rfl
  obtain ⟨hwrites, hauth⟩ :
      s.writes = [⟨bytes "5", 4, bytes "[6]LEDON\n", some 2⟩] ∧ s.auth 2 = none := by simpa using hp
  have haddr : bytes "5" ∉ [allmsg, idlist, gettime] := by decide
  have hfive := h s hs ⟨bytes "5", 4, bytes "[6]LEDON\n", some 2⟩
    (by rw [hwrites]; exact List.mem_singleton_self _) haddr 2 rfl
  rw [hauth] at hfive
  cases hfive

end Relay

end DroneTurret
