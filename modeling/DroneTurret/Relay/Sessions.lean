import DroneTurret.Relay.Server

/-!
# Which session a thread ends

A thread closes the descriptor that its slot holds at that moment and clears its slot, whoever is
registered there by then. Both are its own connection's as long as a slot is not given to a new
connection while the thread of the last one still runs. A login under an id that is logged in makes
just that possible, for it marks the slot free and stops no thread.

`Isolated` is the invariant of the runs in which no slot is given away so. Takeovers, reused
descriptors and any order of reads, writes and disconnects are allowed.

## Main results

* `Isolated.step` — the invariant, one case for each effect
* `session_isolation` — what a thread that ends does to its own session and to the others
-/

namespace DroneTurret

namespace Relay

open CString Function Transition

/-- The slot `main` is about to give away. -/
def MainPc.slot : MainPc → Option (Fin maxClnt)
  | .registering _ _ i => some i
  | .accepting | .accepted _ _ => none

/-- The condition that a slot is given to a connection only when no thread of it is running. -/
def Vacant (s : Server) : Action → Prop
  | .register _ => ∀ th ∈ s.threads, s.pc.slot = some th.slot → th.phase = .ended
  | _ => True

instance (s : Server) (a : Action) : Decidable (Vacant s a) :=
  match a with
  | .register _ => inferInstanceAs (Decidable (∀ _ ∈ _, _))
  | .accept _ | .authenticate _ | .thread _ _ => .isTrue trivial

/-- The connection `main` has in its hands. -/
def MainPc.pending : MainPc → Option (ℤ × ℕ)
  | .accepting => none
  | .accepted clntSock conn | .registering clntSock conn _ => some (clntSock, conn)

/-! ### The threads -/

/-- A list after one entry has been replaced. -/
theorem getElem?_set_cases {α : Type*} {l : List α} {k j : ℕ} {a b : α}
    (h : (l.set k a)[j]? = some b) : j = k ∧ b = a ∨ j ≠ k ∧ l[j]? = some b := by
  rw [List.getElem?_set] at h
  split_ifs at h with hj hk
  · exact .inl ⟨hj.symm, (Option.some.inj h).symm⟩
  · exact .inr ⟨fun hjk => hj hjk.symm, h⟩

/-- A list after one entry has been added. -/
theorem getElem?_concat_cases {α : Type*} {l : List α} {j : ℕ} {a b : α}
    (h : (l ++ [a])[j]? = some b) : l[j]? = some b ∨ j = l.length ∧ b = a := by
  by_cases hj : j < l.length
  · rw [List.getElem?_append_left hj] at h
    exact .inl h
  · rw [List.getElem?_append_right (Nat.not_lt.mp hj), List.getElem?_singleton] at h
    split_ifs at h with hzero
    exact .inr ⟨by omega, (Option.some.inj h).symm⟩

/-- Threads that are told apart by their connections, and the running ones by their slots. -/
structure Distinct (threads : List Thread) (conns : ℕ) : Prop where
  /-- The connection of a thread has been accepted. -/
  accepted : ∀ (k : ℕ) (th : Thread), threads[k]? = some th → th.conn < conns
  conn_inj : ∀ (k k' : ℕ) (th th' : Thread), threads[k]? = some th → threads[k']? = some th' →
    th.conn = th'.conn → k = k'
  slot_inj : ∀ (k k' : ℕ) (th th' : Thread), threads[k]? = some th → threads[k']? = some th' →
    th.phase ≠ .ended → th'.phase ≠ .ended → th.slot = th'.slot → k = k'

theorem Distinct.mono {threads : List Thread} {n n' : ℕ} (h : Distinct threads n) (hn : n ≤ n') :
    Distinct threads n' :=
  ⟨fun k th hth => Nat.lt_of_lt_of_le (h.accepted k th hth) hn, h.conn_inj, h.slot_inj⟩

/-- A thread that goes on, or ends. -/
theorem Distinct.set {threads : List Thread} {n k : ℕ} {th th' : Thread} (h : Distinct threads n)
    (hth : threads[k]? = some th) (hslot : th'.slot = th.slot) (hconn : th'.conn = th.conn)
    (hphase : th.phase ≠ .ended) : Distinct (threads.set k th') n := by
  -- each thread is an old one with its slot and connection
  have hold : ∀ (j : ℕ) (u : Thread), (threads.set k th')[j]? = some u →
      ∃ v : Thread, threads[j]? = some v ∧
      v.slot = u.slot ∧ v.conn = u.conn ∧ (u.phase ≠ .ended → v.phase ≠ .ended) := by
    intro j u hu
    rcases getElem?_set_cases hu with ⟨rfl, rfl⟩ | ⟨-, hu⟩
    · exact ⟨th, hth, hslot.symm, hconn.symm, fun _ => hphase⟩
    · exact ⟨u, hu, rfl, rfl, id⟩
  constructor
  · intro j u hu
    obtain ⟨v, hv, -, hc, -⟩ := hold j u hu
    exact hc ▸ h.accepted j v hv
  · intro j j' u u' hu hu' heq
    obtain ⟨v, hv, -, hc, -⟩ := hold j u hu
    obtain ⟨v', hv', -, hc', -⟩ := hold j' u' hu'
    exact h.conn_inj j j' v v' hv hv' (by rw [hc, hc', heq])
  · intro j j' u u' hu hu' hrun hrun' heq
    obtain ⟨v, hv, hs, -, hp⟩ := hold j u hu
    obtain ⟨v', hv', hs', -, hp'⟩ := hold j' u' hu'
    exact h.slot_inj j j' v v' hv hv' (hp hrun) (hp' hrun') (by rw [hs, hs', heq])

/-- A thread that is started, for a new connection and in a slot no thread of which is running. -/
theorem Distinct.concat {threads : List Thread} {n : ℕ} {new : Thread} (h : Distinct threads n)
    (hlt : new.conn < n)
    (hnew : ∀ (k : ℕ) (th : Thread), threads[k]? = some th → th.conn ≠ new.conn)
    (hvacant : ∀ (k : ℕ) (th : Thread), threads[k]? = some th → th.phase ≠ .ended →
      th.slot ≠ new.slot) : Distinct (threads ++ [new]) n := by
  constructor
  · intro k th hth
    rcases getElem?_concat_cases hth with hold | ⟨-, rfl⟩
    · exact h.accepted k th hold
    · exact hlt
  · intro k k' th th' hth hth' heq
    rcases getElem?_concat_cases hth with hold | ⟨rfl, rfl⟩ <;>
      rcases getElem?_concat_cases hth' with hold' | ⟨rfl, rfl⟩
    · exact h.conn_inj k k' th th' hold hold' heq
    · exact absurd heq (hnew k th hold)
    · exact absurd heq.symm (hnew k' th' hold')
    · rfl
  · intro k k' th th' hth hth' hrun hrun' heq
    rcases getElem?_concat_cases hth with hold | ⟨rfl, rfl⟩ <;>
      rcases getElem?_concat_cases hth' with hold' | ⟨rfl, rfl⟩
    · exact h.slot_inj k k' th th' hold hold' hrun hrun' heq
    · exact absurd heq (hvacant k th hold hrun)
    · exact absurd heq.symm (hvacant k' th' hold' hrun')
    · rfl

/-! ### The invariant -/

/-- What ties a thread to the connection it was started for. -/
structure Isolated (s : Server) : Prop extends Wired s where
  distinct : Distinct s.threads s.conns
  /-- `main`'s connection is open and has no thread yet. -/
  pending : ∀ fd c, s.pc.pending = some (fd, c) →
    s.socks fd = some c ∧ ∀ (k : ℕ) (th : Thread), s.threads[k]? = some th → th.conn ≠ c
  /-- The slot of a serving thread holds its connection's open descriptor, or has been taken. -/
  serving : ∀ (k : ℕ) (th : Thread), s.threads[k]? = some th → th.phase.serving →
    (s.table th.slot).fd = -1 ∧ s.holder th.slot = none ∨
      s.socks (s.table th.slot).fd = some th.conn ∧ s.holder th.slot = some th.conn
  /-- The slot a thread is about to clear is still registered for its connection, if at all. -/
  closed : ∀ (k : ℕ) (th : Thread), s.threads[k]? = some th → th.phase = .closed →
    ∀ c, s.holder th.slot = some c → c = th.conn

theorem Phase.serving.ne_ended {p : Phase} (h : p.serving) : p ≠ .ended := by
  rintro rfl
  exact h

theorem isolated_init {s : Server} (h : server.init s) : Isolated s := by
  have hwired := wired_init h
  obtain ⟨records, buf, rfl⟩ := h
  exact ⟨hwired, ⟨nofun, nofun, nofun⟩, nofun, nofun, nofun⟩

/-- The connection of `main` is not that of a thread, after a step of one as before. -/
theorem Isolated.pending_set {s : Server} (h : Isolated s) {k : ℕ} {th : Thread} (th' : Thread)
    (hth : s.threads[k]? = some th) (hconn : th'.conn = th.conn) {fd : ℤ} {c : ℕ}
    (hpend : s.pc.pending = some (fd, c)) :
    s.socks fd = some c ∧
      ∀ (j : ℕ) (u : Thread), (s.threads.set k th')[j]? = some u → u.conn ≠ c := by
  obtain ⟨hsock, hnew⟩ := h.pending fd c hpend
  refine ⟨hsock, fun j u hu => ?_⟩
  rcases getElem?_set_cases hu with ⟨-, rfl⟩ | ⟨-, hold⟩
  · rw [hconn]
    exact hnew k th hth
  · exact hnew j u hold

/-- Closing the descriptor of one connection, or none, keeps the sockets of the others. -/
theorem Wired.update_close {s : Server} (h : Wired s) {fd : ℤ} {c : ℕ}
    (hown : fd = -1 ∨ s.socks fd = some c) {fd' : ℤ} {c' : ℕ} (hfd : s.socks fd' = some c')
    (hne : c' ≠ c) : update s.socks fd none fd' = some c' := by
  rw [update_of_ne]
  · exact hfd
  · rintro rfl
    rcases hown with hfree | hsock
    · exact h.ne_neg_one hfd hfree
    · exact hne (Option.some.inj (hfd.symm.trans hsock))

/-- A new connection. -/
theorem Isolated.accept {s : Server} (h : Isolated s) {clntSock : ℤ} {pc : MainPc}
    (hpc : s.pc = .accepting) (hfd : 3 < clntSock) (hfree : s.socks clntSock = none)
    (hnext : pc = .accepting ∨ pc = .accepted clntSock s.conns) :
    Isolated { s with
      pc := pc, socks := update s.socks clntSock (some s.conns), conns := s.conns + 1 } := by
  have hwired := h.toWired.step (.accept hpc hfd hfree hnext)
  refine ⟨hwired, h.distinct.mono (Nat.le_succ _), ?_, ?_, h.closed⟩
  · rintro fd c (hpend : pc.pending = some (fd, c))
    rcases hnext with rfl | rfl
    · cases hpend
    · cases hpend
      exact ⟨update_self .., fun k th hth => Nat.ne_of_lt (h.distinct.accepted k th hth)⟩
  · intro k th hth hserving
    refine (h.serving k th hth hserving).imp_right ?_
    rintro ⟨hsock, hholder⟩
    refine ⟨?_, hholder⟩
    change update s.socks clntSock (some s.conns) (s.table th.slot).fd = some th.conn
    rw [update_of_ne (by rintro hfd; rw [hfd, hfree] at hsock; cases hsock)]
    exact hsock

theorem Isolated.turnedAway {s : Server} (h : Isolated s) {clntSock : ℤ} {conn : ℕ}
    {m : MainState} (hpc : s.pc = .accepted clntSock conn) (htable : m.table = s.table) :
    Isolated { s with toMainState := m, pc := .accepting } := by
  have hwired := h.toWired.step (@Effect.turnedAway s none clntSock conn m hpc htable)
  refine ⟨hwired, h.distinct, nofun, ?_, h.closed⟩
  intro k th hth hserving
  change (m.table th.slot).fd = -1 ∧ _ ∨ s.socks (m.table th.slot).fd = _ ∧ _
  rw [htable]
  exact h.serving k th hth hserving

/-- The slot of a client that logs in again is marked free. -/
theorem Isolated.alreadyLogged {s : Server} (h : Isolated s) {clntSock : ℤ} {conn : ℕ}
    {m : MainState} {i : Fin maxClnt} (hpc : s.pc = .accepted clntSock conn)
    (htable : m.table = s.table.setFd i (-1)) :
    Isolated { s with toMainState := m, pc := .accepting, holder := update s.holder i none } := by
  have hwired := h.toWired.step (@Effect.alreadyLogged s none clntSock conn m i hpc htable)
  refine ⟨hwired, h.distinct, nofun, ?_, ?_⟩
  · intro k th hth hserving
    change (m.table th.slot).fd = -1 ∧ update s.holder i none th.slot = none ∨
      s.socks (m.table th.slot).fd = some th.conn ∧
        update s.holder i none th.slot = some th.conn
    rw [htable]
    by_cases hslot : th.slot = i
    · rw [hslot]
      exact .inl ⟨Table.setFd_fd_self .., update_self ..⟩
    · rw [Table.setFd_of_ne _ hslot, update_of_ne hslot]
      exact h.serving k th hth hserving
  · rintro k th hth hclosed c (hholder : update s.holder i none th.slot = some c)
    rcases update_cases hholder with ⟨-, hv⟩ | ⟨-, hv⟩
    · cases hv
    · exact h.closed k th hth hclosed c hv

theorem Isolated.connected {s : Server} (h : Isolated s) {clntSock : ℤ} {conn : ℕ}
    {m : MainState} {i : Fin maxClnt} (hpc : s.pc = .accepted clntSock conn)
    (htable : m.table = s.table) (hfree : (s.table i).fd = -1) :
    Isolated { s with
      toMainState := m, pc := .registering clntSock conn i
      auth := update s.auth conn (some (s.table i).id.val) } := by
  have hwired := h.toWired.step (@Effect.connected s none clntSock conn m i hpc htable hfree)
  refine ⟨hwired, h.distinct, ?_, ?_, h.closed⟩
  · intro fd c hpend
    exact h.pending fd c (by rw [hpc]; exact hpend)
  · intro k th hth hserving
    change (m.table th.slot).fd = -1 ∧ _ ∨ s.socks (m.table th.slot).fd = _ ∧ _
    rw [htable]
    exact h.serving k th hth hserving

/-- A new thread, in a slot that has no running one. -/
theorem Isolated.register {s : Server} (h : Isolated s) {clntSock : ℤ} {conn : ℕ}
    {i : Fin maxClnt} {ip : List Byte} (hpc : s.pc = .registering clntSock conn i)
    (hvacant : ∀ (k : ℕ) (th : Thread), s.threads[k]? = some th → th.phase ≠ .ended → th.slot ≠ i) :
    Isolated { s with
      toMainState := s.toMainState.register i clntSock ip, pc := .accepting
      threads := s.threads ++ [⟨i, conn, .null [], .ready⟩]
      holder := update s.holder i (some conn) } := by
  have hwired := h.toWired.step (@Effect.register s clntSock conn i ip hpc)
  obtain ⟨hsock, hnew⟩ := h.pending clntSock conn (by rw [hpc]; rfl)
  refine ⟨hwired, h.distinct.concat (h.client clntSock conn hsock).2 hnew hvacant, nofun, ?_, ?_⟩
  · intro k th hth hserving
    change (s.table.register i clntSock ip th.slot).fd = -1 ∧
        update s.holder i (some conn) th.slot = none ∨
      s.socks (s.table.register i clntSock ip th.slot).fd = some th.conn ∧
        update s.holder i (some conn) th.slot = some th.conn
    rcases getElem?_concat_cases hth with hold | ⟨-, rfl⟩
    · have hslot := hvacant k th hold hserving.ne_ended
      rw [Table.register_of_ne _ hslot, update_of_ne hslot]
      exact h.serving k th hold hserving
    · rw [Table.register_self, update_self]
      exact .inr ⟨hsock, rfl⟩
  · rintro k th hth hclosed c (hholder : update s.holder i (some conn) th.slot = some c)
    rcases getElem?_concat_cases hth with hold | ⟨-, rfl⟩
    · have hslot := hvacant k th hold (by rw [hclosed]; nofun)
      rw [update_of_ne hslot] at hholder
      exact h.closed k th hold hclosed c hholder
    · cases hclosed

/-- A thread goes on. -/
theorem Isolated.serve {s : Server} (h : Isolated s) {k : ℕ} {a : ThreadAction} {th th' : Thread}
    {writes : List Write} (hserve : a ≠ .close ∧ a ≠ .clear) (hth : s.threads[k]? = some th)
    (hslot : th'.slot = th.slot) (hconn : th'.conn = th.conn) (hphase : th.phase.serving)
    (hphase' : th'.phase.serving)
    (hwrites : ∀ w ∈ writes, w ∈ s.writes ∨ (w.addressed → w.toSlot s)) :
    Isolated { s.setThread k th' with writes := writes } := by
  have hwired := h.toWired.step (Effect.serve hserve hth hslot hconn hphase hphase' hwrites)
  refine ⟨hwired, h.distinct.set hth hslot hconn hphase.ne_ended, ?_, ?_, ?_⟩
  · intro fd c hpend
    exact h.pending_set th' hth hconn hpend
  · rintro j u hu hserving
    rcases getElem?_set_cases hu with ⟨-, rfl⟩ | ⟨-, hold⟩
    · rw [hslot, hconn]
      exact h.serving k th hth hphase
    · exact h.serving j u hold hserving
  · rintro j u hu hclosed c hholder
    rcases getElem?_set_cases hu with ⟨-, rfl⟩ | ⟨-, hold⟩
    · rw [hclosed] at hphase'
      cases hphase'
    · exact h.closed j u hold hclosed c hholder

/-- The descriptor that is closed is the thread's own, or none. -/
theorem Isolated.close {s : Server} (h : Isolated s) {k : ℕ} {th : Thread}
    (hth : s.threads[k]? = some th) (hphase : th.phase = .leaving) :
    Isolated { s.setThread k { th with phase := .closed } with
      socks := update s.socks (s.table th.slot).fd none } := by
  have hwired := h.toWired.step (.close hth hphase)
  have hserving : th.phase.serving := by rw [hphase]; trivial
  have hown := h.serving k th hth hserving
  have hkeep : ∀ fd c, s.socks fd = some c → c ≠ th.conn →
      update s.socks (s.table th.slot).fd none fd = some c := fun fd c hfd hne =>
    h.toWired.update_close (hown.imp And.left And.left) hfd hne
  refine ⟨hwired, h.distinct.set hth rfl rfl hserving.ne_ended, ?_, ?_, ?_⟩
  · intro fd c hpend
    obtain ⟨hsock, hnew⟩ := h.pending_set { th with phase := .closed } hth rfl hpend
    exact ⟨hkeep fd c hsock ((h.pending fd c hpend).2 k th hth).symm, hnew⟩
  · rintro j u hu hserving'
    rcases getElem?_set_cases hu with ⟨-, rfl⟩ | ⟨hj, hold⟩
    · cases hserving'
    · refine (h.serving j u hold hserving').imp_right ?_
      rintro ⟨hsock, hholder⟩
      exact ⟨hkeep _ _ hsock fun hc => hj (h.distinct.conn_inj j k u th hold hth hc), hholder⟩
  · rintro j u hu hclosed c hholder
    rcases getElem?_set_cases hu with ⟨-, rfl⟩ | ⟨-, hold⟩
    · rcases hown with ⟨-, hnone⟩ | ⟨-, hsome⟩
      · exact absurd (hholder.symm.trans hnone) nofun
      · exact Option.some.inj (hholder.symm.trans hsome)
    · exact h.closed j u hold hclosed c hholder

/-- No other running thread has the slot that is cleared. -/
theorem Isolated.clear {s : Server} (h : Isolated s) {k : ℕ} {th : Thread}
    (hth : s.threads[k]? = some th) (hphase : th.phase = .closed) :
    Isolated { s.setThread k { th with phase := .ended } with
      table := s.table.setFd th.slot (-1), clntCnt := s.clntCnt - 1
      holder := update s.holder th.slot none } := by
  have hwired := h.toWired.step (.clear hth hphase)
  have hrunning : th.phase ≠ .ended := by rw [hphase]; nofun
  have hother : ∀ (j : ℕ) (u : Thread), j ≠ k → s.threads[j]? = some u → u.phase ≠ .ended →
      u.slot ≠ th.slot := fun j u hj hu hrun hslot =>
    hj (h.distinct.slot_inj j k u th hu hth hrun hrunning hslot)
  refine ⟨hwired, h.distinct.set hth rfl rfl hrunning, ?_, ?_, ?_⟩
  · intro fd c hpend
    exact h.pending_set { th with phase := .ended } hth rfl hpend
  · rintro j u hu hserving
    change (s.table.setFd th.slot (-1) u.slot).fd = -1 ∧
        update s.holder th.slot none u.slot = none ∨
      s.socks (s.table.setFd th.slot (-1) u.slot).fd = some u.conn ∧
        update s.holder th.slot none u.slot = some u.conn
    rcases getElem?_set_cases hu with ⟨-, rfl⟩ | ⟨hj, hold⟩
    · cases hserving
    · have hslot := hother j u hj hold hserving.ne_ended
      rw [Table.setFd_of_ne _ hslot, update_of_ne hslot]
      exact h.serving j u hold hserving
  · rintro j u hu hclosed c (hholder : update s.holder th.slot none u.slot = some c)
    rcases getElem?_set_cases hu with ⟨-, rfl⟩ | ⟨hj, hold⟩
    · cases hclosed
    · rw [update_of_ne (hother j u hj hold (by rw [hclosed]; nofun))] at hholder
      exact h.closed j u hold hclosed c hholder

/-- **A thread stays tied to its connection** in a step that meets the condition. -/
theorem Isolated.step {s t : Server} (h : Isolated s) {a : Action} (ha : Vacant s a)
    (ht : Effect s a t) : Isolated t := by
  cases ht with
  | accept hpc hfd hfree hnext => exact h.accept hpc hfd hfree hnext
  | turnedAway hpc htable => exact h.turnedAway hpc htable
  | alreadyLogged hpc htable => exact h.alreadyLogged hpc htable
  | connected hpc htable hfree => exact h.connected hpc htable hfree
  | register hpc =>
    refine h.register hpc ?_
    rintro k th hth hrunning rfl
    exact hrunning (ha th (List.mem_of_getElem? hth) (by rw [hpc]; rfl))
  | serve hserve hth hslot hconn hphase hphase' hwrites =>
    exact h.serve hserve hth hslot hconn hphase hphase' hwrites
  | close hth hphase => exact h.close hth hphase
  | clear hth hphase => exact h.clear hth hphase

theorem isolated_of_reach {s : Server} (h : server.Reach Vacant s) : Isolated s :=
  h.invariant Isolated (fun _ => isolated_init) fun _ _ _ hs ha ht => hs.step ha (effect_of_step ht)

/-! ### The end of a session -/

/-- **Session isolation.** In every run in which a slot is given to a connection only when no thread
of it is running: when a thread closes a descriptor, that is its own connection's or none; when it
clears a slot, that is registered for its own connection or for none; and neither step touches
another connection's socket, registration or slot. -/
theorem session_isolation {s t : Server} (h : server.Reach Vacant s) {k : ℕ} {th : Thread}
    {a : ThreadAction} (hth : s.threads[k]? = some th) (ha : a = .close ∨ a = .clear)
    (ht : server.step s (.thread k a) = some t) :
    (a = .close → (s.table th.slot).fd = -1 ∨ s.socks (s.table th.slot).fd = some th.conn) ∧
      (a = .clear → ∀ c, s.holder th.slot = some c → c = th.conn) ∧
      (∀ fd c, s.socks fd = some c → c ≠ th.conn → t.socks fd = some c) ∧
      ∀ j c, s.holder j = some c → c ≠ th.conn → t.holder j = some c ∧ t.table j = s.table j := by
  have hisolated := isolated_of_reach h
  have heffect : Effect s (.thread k a) t := effect_of_step ht
  cases heffect with
  | serve hserve => exact absurd ha (not_or.mpr hserve)
  | @close _ th' hth' hphase =>
    obtain rfl : th' = th := Option.some.inj (hth'.symm.trans hth)
    have hown : (s.table th'.slot).fd = -1 ∨ s.socks (s.table th'.slot).fd = some th'.conn :=
      (hisolated.serving k th' hth (by rw [hphase]; trivial)).imp And.left And.left
    refine ⟨fun _ => hown, nofun, ?_, fun j c hc _ => ⟨hc, rfl⟩⟩
    intro fd c hfd hne
    exact hisolated.toWired.update_close hown hfd hne
  | @clear _ th' hth' hphase =>
    obtain rfl : th' = th := Option.some.inj (hth'.symm.trans hth)
    have hown := hisolated.closed k th' hth hphase
    refine ⟨nofun, fun _ => hown, fun _ _ hfd _ => hfd, ?_⟩
    intro j c hc hne
    have hj : j ≠ th'.slot := by
      rintro rfl
      exact hne (hown c hc)
    change update s.holder th'.slot none j = some c ∧ s.table.setFd th'.slot (-1) j = s.table j
    rw [update_of_ne hj, Table.setFd_of_ne _ hj]
    exact ⟨hc, rfl⟩

/-- Client 5, logged in on descriptor 4, leaves; client 6, on descriptor 5, stays. -/
theorem session_isolation_witness :
    ∃ s t : Server, server.step s (.thread 0 .close) = some t ∧ s.socks 5 = some 1 ∧
      t.socks 5 = some 1 := by
  obtain ⟨s, hs, hp⟩ := exists_reach_of_run server Vacant init_server_startUp
    (logIn 4 (bytes "[5:PASSWD]") ++ logIn 5 (bytes "[6:PASSWD]") ++
      [.thread 0 .callRead, .thread 0 (.returnRead [])])
    (fun s => s.socks 5 = some 1 && s.threads[0]?.map Thread.conn = some 0 &&
      (server.step s (.thread 0 .close)).isSome) rfl
  simp only [Bool.and_eq_true, decide_eq_true_eq] at hp
  obtain ⟨⟨hsock, hthread⟩, hstep⟩ := hp
  obtain ⟨th, hth, hconn⟩ := Option.map_eq_some_iff.mp hthread
  obtain ⟨t, ht⟩ := Option.isSome_iff_exists.mp hstep
  have hkeep := (session_isolation hs hth (.inl rfl) ht).2.2.1
  exact ⟨s, t, ht, hsock, hkeep 5 1 hsock (by rw [hconn]; exact Nat.one_ne_zero)⟩

/-- Client 5 is logged in on descriptor 4. A second login of 5 marks the slot free, a third one gets
it with descriptor 6, and when the first connection ends its thread closes descriptor 6. -/
theorem not_session_isolation :
    ¬∀ s t k th, server.Reachable s → s.threads[k]? = some th →
      server.step s (.thread k .close) = some t →
      ∀ fd c, s.socks fd = some c → c ≠ th.conn → t.socks fd = some c := by
  intro h
  obtain ⟨s, hs, hp⟩ := exists_reach_of_run server (fun _ _ => True) init_server_startUp
    (logIn 4 (bytes "[5:PASSWD]") ++ [.thread 0 .callRead] ++
      [.accept 5, .authenticate (some (bytes "[5:PASSWD]"))] ++ logIn 6 (bytes "[5:PASSWD]") ++
      [.thread 0 (.returnRead [])])
    (fun s => s.socks 6 = some 2 && s.threads[0]?.map Thread.conn = some 0 &&
      (server.step s (.thread 0 .close)).map (fun t => t.socks 6) = some none) rfl
  simp only [Bool.and_eq_true, decide_eq_true_eq] at hp
  obtain ⟨⟨hsock, hthread⟩, hstep⟩ := hp
  obtain ⟨th, hth, hconn⟩ := Option.map_eq_some_iff.mp hthread
  obtain ⟨t, ht, hclosed⟩ := Option.map_eq_some_iff.mp hstep
  have hopen := h s t 0 th hs hth ht 6 2 hsock (by rw [hconn]; exact Nat.succ_ne_zero 1)
  rw [hclosed] at hopen
  cases hopen

end Relay

end DroneTurret
