import DroneTurret.Relay.Accounting
import DroneTurret.Relay.Authentication

/-!
# Which descriptors the server holds

A client socket is held from `accept` on. The one place where it is closed is the end of the thread
of the slot it is registered in: a connection that `main` turns away is shut down for writing and
never closed. So each login that is not admitted costs a descriptor, while the runs of logins that
are, of messages and of disconnects hold just the descriptors of the slots that are logged in.

An `Event` is a connection, a message or a disconnect from its first step to its last one, with no
step of another party in between.

## Main results

* `login_cases`, `disconnect_cases` — what they do to the descriptors held and to the slots
* `Ledger.complete` — an event that is not a failed login keeps them the same
* `descriptor_accounting` — the runs in which they are the same, and the events they differ after
-/

namespace DroneTurret

namespace Relay

open CString Function Transition

/-! ### Events -/

/-- What the server handles from beginning to end. -/
inductive Event
  /-- `accept` returns a connection, and `read` its login message, or none. -/
  | login (clntSock : ℤ) (ip : List Byte) (rd : Option (List Byte))
  /-- A thread reads a message; `localtime` is what it answers a request for the time with. -/
  | message (k : ℕ) (rd localtime : List Byte)
  /-- `read` returns 0 or −1 to a thread. -/
  | disconnect (k : ℕ)

namespace Server

/-- An iteration of the accept loop. The thread of a connection that is admitted calls `read`. -/
def login (s : Server) (clntSock : ℤ) (ip : List Byte) (rd : Option (List Byte)) :
    Option Server :=
  (s.accept clntSock).bind fun t =>
    if t.pc = .accepting then some t
    else
      (t.authenticate rd).bind fun u =>
        if u.pc = .accepting then some u
        else (u.register ip).bind fun v => v.step (.thread s.threads.length .callRead)

/-- All of `send_msg`: the answer to a request, or a test for each slot and the return. -/
def relay (s : Server) (k : ℕ) (localtime : List Byte) : Option Server :=
  (s.step (.thread k (.reply localtime))).or
    (server.run (fun _ _ => True) s (List.replicate (maxClnt + 1) (.thread k .sendSlot)))

/-- A round of the loop of `clnt_connection`, up to the next `read`. -/
def message (s : Server) (k : ℕ) (rd localtime : List Byte) : Option Server :=
  if rd = [] then none
  else
    (s.step (.thread k (.returnRead rd))).bind fun t =>
      (t.relay k localtime).bind fun u => u.step (.thread k .callRead)

/-- The end of `clnt_connection`. -/
def disconnect (s : Server) (k : ℕ) : Option Server :=
  (s.step (.thread k (.returnRead []))).bind fun t =>
    (t.step (.thread k .close)).bind fun u => u.step (.thread k .clear)

def complete (s : Server) : Event → Option Server
  | .login clntSock ip rd => s.login clntSock ip rd
  | .message k rd localtime => s.message k rd localtime
  | .disconnect k => s.disconnect k

/-- The client descriptors that are open. -/
def held (s : Server) : Set ℤ := {fd | s.socks fd ≠ none}

end Server

/-- The `fd` values of the slots that are logged in. -/
def Table.fds (t : Table) : Set ℤ := {fd | fd ≠ -1 ∧ ∃ i, (t i).fd = fd}

/-- The descriptors held are those of the slots. -/
def Server.Balanced (s : Server) : Prop := s.held = s.table.fds

/-- The event closes no descriptor but one that is held. -/
def ClosesHeld (s : Server) : Event → Prop
  | .disconnect k => ∀ th ∈ s.threads[k]?, (s.table th.slot).fd ∈ s.held
  | _ => True

/-- The message has the id and the password of a slot to be registered in. -/
def MainState.Admits (m : MainState) (rd : Option (List Byte)) : Prop :=
  ∃ msg ∈ rd, msg ≠ [] ∧
    ∃ id pw i, m.buffer.firstTwo msg = (some id, some pw) ∧ m.table.admits id pw i

/-- A login is admitted: the server is not full, and the message is of a slot that is free. -/
def Admitted (s : Server) : Event → Prop
  | .login _ _ rd => s.clntCnt < maxClnt ∧ s.toMainState.Admits rd
  | _ => True

/-- The events from start-up, every slot being free. -/
def events : Transition Server Event where
  init := fullServer.init
  step := Server.complete

/-! ### The descriptors of the slots -/

theorem Table.fds_register {t : Table} {i : Fin maxClnt} (hfree : (t i).fd = -1) {fd : ℤ}
    (hfd : fd ≠ -1) (ip : List Byte) : (t.register i fd ip).fds = insert fd t.fds := by
  ext fd'
  constructor
  · rintro ⟨hne, j, hj⟩
    by_cases hji : j = i
    · subst hji
      rw [register_self] at hj
      exact .inl hj.symm
    · rw [register_of_ne _ hji] at hj
      exact .inr ⟨hne, j, hj⟩
  · rintro (rfl | ⟨hne, j, hj⟩)
    · exact ⟨hfd, i, by rw [register_self]⟩
    · have hji : j ≠ i := by
        rintro rfl
        exact hne (hj.symm.trans hfree)
      exact ⟨hne, j, by rw [register_of_ne _ hji]; exact hj⟩

theorem Table.fds_setFd_subset (t : Table) (i : Fin maxClnt) : (t.setFd i (-1)).fds ⊆ t.fds := by
  rintro fd ⟨hne, j, hj⟩
  have hji : j ≠ i := by
    rintro rfl
    rw [setFd_fd_self] at hj
    exact hne hj.symm
  exact ⟨hne, j, by rwa [setFd_of_ne _ hji] at hj⟩

/-- No two slots that are logged in have the same descriptor. -/
def Table.Single (t : Table) : Prop := ∀ i j, (t i).fd ≠ -1 → (t i).fd = (t j).fd → i = j

theorem Table.Single.fds_setFd {t : Table} (h : t.Single) (i : Fin maxClnt) :
    (t.setFd i (-1)).fds = t.fds \ {(t i).fd} := by
  ext fd
  constructor
  · intro hfd
    refine ⟨t.fds_setFd_subset i hfd, ?_⟩
    rintro rfl
    obtain ⟨hne, j, hj⟩ := hfd
    obtain rfl | hji := eq_or_ne j i
    · rw [setFd_fd_self] at hj
      exact hne hj.symm
    · rw [setFd_of_ne _ hji] at hj
      exact hji (h i j hne hj.symm).symm
  · rintro ⟨⟨hne, j, rfl⟩, hother⟩
    have hji : j ≠ i := by
      rintro rfl
      exact hother rfl
    exact ⟨hne, j, by rw [setFd_of_ne _ hji]⟩

theorem Table.Single.setFd {t : Table} (h : t.Single) (i : Fin maxClnt) :
    (t.setFd i (-1)).Single := by
  intro j k hj heq
  have hji : j ≠ i := by
    rintro rfl
    exact hj (setFd_fd_self ..)
  rw [setFd_of_ne _ hji] at hj heq
  have hki : k ≠ i := by
    rintro rfl
    exact hj (heq.trans (setFd_fd_self ..))
  rw [setFd_of_ne _ hki] at heq
  exact h j k hj heq

/-- A descriptor that no slot has is registered in one. -/
theorem Table.Single.register {t : Table} (h : t.Single) (i : Fin maxClnt) {fd : ℤ}
    (hnew : fd ∉ t.fds) (ip : List Byte) : (t.register i fd ip).Single := by
  have hother : ∀ j, j ≠ i → (t j).fd ≠ -1 → (t j).fd ≠ fd := by
    rintro j - hne rfl
    exact hnew ⟨hne, j, rfl⟩
  intro j k hj heq
  obtain rfl | hji := eq_or_ne j i
  · by_contra hkj
    rw [register_self] at hj heq
    rw [register_of_ne _ (Ne.symm hkj)] at heq
    exact hother k (Ne.symm hkj) (by rw [← heq]; exact hj) heq.symm
  · rw [register_of_ne _ hji] at hj heq
    obtain rfl | hki := eq_or_ne k i
    · rw [register_self] at heq
      exact absurd heq (hother j hji hj)
    · rw [register_of_ne _ hki] at heq
      exact h j k hj heq

/-- A descriptor that has been opened. -/
theorem held_of_open {s t : Server} {fd : ℤ} {c : ℕ} (h : t.socks = update s.socks fd (some c)) :
    t.held = insert fd s.held := by
  ext fd'
  change t.socks fd' ≠ none ↔ fd' = fd ∨ s.socks fd' ≠ none
  rw [h]
  obtain rfl | hne := eq_or_ne fd' fd
  · simp
  · rw [update_of_ne hne]
    simp [hne]

/-- A descriptor that has been closed. -/
theorem held_of_close {s t : Server} {fd : ℤ} (h : t.socks = update s.socks fd none) :
    t.held = s.held \ {fd} := by
  ext fd'
  change t.socks fd' ≠ none ↔ s.socks fd' ≠ none ∧ fd' ≠ fd
  rw [h]
  obtain rfl | hne := eq_or_ne fd' fd
  · simp
  · rw [update_of_ne hne]
    simp [hne]

/-! ### Logins -/

/-- A message has the id and the password of a slot when it is answered with that slot. -/
theorem admits_iff {m : MainState} {rd : Option (List Byte)} :
    m.Admits rd ↔ ∃ i, (m.authenticate rd).1 = .connected i := by
  by_cases hmsg : ∀ msg ∈ rd, msg = []
  · refine iff_of_false ?_ ?_
    · rintro ⟨msg, hrd, hne, -⟩
      exact hne (hmsg msg hrd)
    · rintro ⟨i, hi⟩
      rw [(authenticate_of_no_message m hmsg).1] at hi
      cases hi
  · push Not at hmsg
    obtain ⟨msg, rfl, hne⟩ := hmsg
    constructor
    · rintro ⟨msg', hmsg', -, id, pw, i, htwo, hadm⟩
      obtain rfl := Option.some.inj hmsg'
      exact ⟨i, (authenticate_connected_iff hne).mpr ⟨id, pw, htwo, hadm⟩⟩
    · rintro ⟨i, hi⟩
      obtain ⟨id, pw, htwo, hadm⟩ := (authenticate_connected_iff hne).mp hi
      exact ⟨msg, rfl, hne, id, pw, i, htwo, hadm⟩

/-- `main` goes on to register a connection that is admitted, and no other. -/
theorem authenticate_pc {s t : Server} {rd : Option (List Byte)} (h : s.authenticate rd = some t) :
    t.pc ≠ .accepting ↔ s.toMainState.Admits rd := by
  rw [admits_iff]
  rw [Server.authenticate] at h
  split at h
  · generalize s.toMainState.authenticate rd = r at h
    obtain ⟨answer, m⟩ := r
    cases answer with
    | undefined => cases h
    | connected i =>
      obtain rfl := Option.some.inj h
      exact iff_of_true MainPc.noConfusion ⟨i, rfl⟩
    | _ =>
      obtain rfl := Option.some.inj h
      exact iff_of_false (fun hne => hne rfl) (by rintro ⟨i, hi⟩; cases hi)
  · cases h

/-- A message that is admitted takes no slot away. -/
theorem steady_of_admits {s : Server} {rd : Option (List Byte)} (h : s.toMainState.Admits rd) :
    Steady s (.authenticate rd) := by
  obtain ⟨msg, rfl, hne, id, pw, i, htwo, hadm⟩ := h
  intro _ id' j hid hseizes
  have hlogged := search_alreadyLogged_iff.mpr ⟨id', hid, hseizes⟩
  rw [htwo, search_connected_of_admits hadm] at hlogged
  cases hlogged

/-- What `accept` does. -/
theorem accept_step {s t : Server} {clntSock : ℤ} (h : s.accept clntSock = some t) :
    3 < clntSock ∧ s.socks clntSock = none ∧
      t.socks = update s.socks clntSock (some s.conns) ∧ t.toMainState = s.toMainState ∧
      (¬s.clntCnt < maxClnt ∧ t.pc = .accepting ∨
        s.clntCnt < maxClnt ∧ t.pc = .accepted clntSock s.conns) := by
  rw [Server.accept] at h
  split at h
  · rename_i hguard
    obtain rfl := Option.some.inj h
    refine ⟨hguard.2.1, hguard.2.2, rfl, rfl, ?_⟩
    by_cases hfull : s.clntCnt ≥ maxClnt
    · exact .inl ⟨Int.not_lt.mpr hfull, if_pos hfull⟩
    · exact .inr ⟨Int.not_le.mp hfull, if_neg hfull⟩
  · cases h

/-- Answering a login message opens and closes nothing. -/
theorem authenticate_socks {s t : Server} {rd : Option (List Byte)}
    (h : s.authenticate rd = some t) : t.socks = s.socks := by
  have heffect : Effect s (.authenticate rd) t := effect_of_step h
  cases heffect <;> rfl

/-- A thread that is in its loop changes neither the table nor the descriptors. -/
theorem serve_step {s t : Server} {k : ℕ} {a : ThreadAction} (ha : a ≠ .close ∧ a ≠ .clear)
    (h : s.step (.thread k a) = some t) : t.table = s.table ∧ t.socks = s.socks := by
  have heffect : Effect s (.thread k a) t := effect_of_step h
  cases heffect with
  | serve => exact ⟨rfl, rfl⟩
  | close => exact absurd rfl ha.1
  | clear => exact absurd rfl ha.2

/-- **What a login does.** The descriptor is open. The connection is registered if it is admitted;
else no slot is given a descriptor. -/
theorem login_cases {s t : Server} {clntSock : ℤ} {ip : List Byte} {rd : Option (List Byte)}
    (h : s.login clntSock ip rd = some t) :
    3 < clntSock ∧ s.socks clntSock = none ∧
      t.socks = update s.socks clntSock (some s.conns) ∧
      (Admitted s (.login clntSock ip rd) ∧ (Seated s → Seated t) ∧
          (∃ i, (s.table i).fd = -1 ∧ t.table = s.table.register i clntSock ip) ∨
        ¬Admitted s (.login clntSock ip rd) ∧ t.table.fds ⊆ s.table.fds) := by
  obtain ⟨u, hu, h⟩ := Option.bind_eq_some_iff.mp h
  obtain ⟨hfd, hfree, hsocks, hmain, ⟨hfull, hpc⟩ | ⟨hroom, hpc⟩⟩ := accept_step hu
  · -- a full server
    rw [if_pos hpc] at h
    obtain rfl := Option.some.inj h
    refine ⟨hfd, hfree, hsocks, .inr ⟨fun hadm => hfull hadm.1, ?_⟩⟩
    rw [hmain]
  · rw [if_neg (by rw [hpc]; nofun)] at h
    obtain ⟨v, hv, h⟩ := Option.bind_eq_some_iff.mp h
    have hvsocks := (authenticate_socks hv).trans hsocks
    have hadmits := authenticate_pc hv
    rw [hmain] at hadmits
    have htable : u.table = s.table := by rw [hmain]
    obtain ⟨fd, conn, hupc, -, -, hcases⟩ := authenticate_step hv
    obtain ⟨rfl, rfl⟩ := MainPc.accepted.inj (hpc.symm.trans hupc)
    rcases hcases with ⟨hvpc, hvtable⟩ | ⟨i, hvpc, hvtable, hvacant⟩ |
      ⟨_, _, i, -, -, -, -, hvpc, hvtable⟩
    · rw [if_pos hvpc] at h
      obtain rfl := Option.some.inj h
      refine ⟨hfd, hfree, hvsocks, .inr ⟨fun hadm => hadmits.mpr hadm.2 hvpc, ?_⟩⟩
      rw [hvtable, htable]
    · have hreg : v.pc ≠ .accepting := by rw [hvpc]; nofun
      rw [if_neg hreg] at h
      obtain ⟨w, hw, h⟩ := Option.bind_eq_some_iff.mp h
      obtain ⟨htsame, hsame⟩ := serve_step (a := .callRead) ⟨nofun, nofun⟩ h
      have hadm := hadmits.mp hreg
      have hwhat : w.table = v.table.register i clntSock ip ∧ w.socks = v.socks := by
        rw [Server.register, hvpc] at hw
        obtain rfl := Option.some.inj hw
        exact ⟨rfl, rfl⟩
      refine ⟨hfd, hfree, ?_, .inl ⟨⟨hroom, hadm⟩, fun hs => ?_, i, ?_, ?_⟩⟩
      · rw [hsame, hwhat.2, hvsocks]
      · have hus : Seated u := hs.step (a := .accept clntSock) trivial hu
        have hvs : Seated v := hus.step (a := .authenticate rd)
          (steady_of_admits (by rw [hmain]; exact hadm)) hv
        have hws : Seated w := hvs.step (a := .register ip) trivial hw
        exact hws.step (a := .thread s.threads.length .callRead) trivial h
      · rw [← htable]
        exact hvacant
      · rw [htsame, hwhat.1, hvtable, htable]
    · rw [if_pos hvpc] at h
      obtain rfl := Option.some.inj h
      refine ⟨hfd, hfree, hvsocks, .inr ⟨fun hadm => hadmits.mpr hadm.2 hvpc, ?_⟩⟩
      rw [hvtable, htable]
      exact s.table.fds_setFd_subset i

/-! ### Messages and disconnects -/

/-- **What a disconnect does.** It closes the descriptor that the thread's slot has, and marks the
slot free. -/
theorem disconnect_cases {s t : Server} {k : ℕ} (h : s.disconnect k = some t) :
    (Seated s → Seated t) ∧ ∃ th : Thread, s.threads[k]? = some th ∧ th.phase.serving ∧
      t.socks = update s.socks (s.table th.slot).fd none ∧
      t.table = s.table.setFd th.slot (-1) := by
  obtain ⟨u, hu, h⟩ := Option.bind_eq_some_iff.mp h
  obtain ⟨v, hv, h⟩ := Option.bind_eq_some_iff.mp h
  refine ⟨fun hs => ?_, ?_⟩
  · have hus : Seated u := hs.step (a := .thread k (.returnRead [])) trivial hu
    have hvs : Seated v := hus.step (a := .thread k .close) trivial hv
    exact hvs.step (a := .thread k .clear) trivial h
  · have hread : Effect s (.thread k (.returnRead [])) u := effect_of_step hu
    have hclose : Effect u (.thread k .close) v := effect_of_step hv
    have hclear : Effect v (.thread k .clear) t := effect_of_step h
    cases hread with
    | @serve _ _ th th' writes _ hth hslot hconn hphase hphase' hwrites =>
      have hk : k < s.threads.length := (List.getElem?_eq_some_iff.mp hth).1
      refine ⟨th, hth, hphase, ?_⟩
      cases hclose with
      | serve ha => exact absurd rfl ha.1
      | @close _ thc hthc hphasec =>
        obtain rfl : th' = thc := by
          change (s.threads.set k th')[k]? = some thc at hthc
          rw [List.getElem?_set_self hk] at hthc
          exact Option.some.inj hthc
        cases hclear with
        | serve ha => exact absurd rfl ha.2
        | @clear _ the hthe hphasee =>
          have hslote : the.slot = th.slot := by
            change ((s.threads.set k th').set k _)[k]? = some the at hthe
            rw [List.getElem?_set_self (by rwa [List.length_set])] at hthe
            rw [← Option.some.inj hthe]
            exact hslot
          refine ⟨?_, ?_⟩
          · change update s.socks (s.table th'.slot).fd none = _
            rw [hslot]
          · change s.table.setFd the.slot (-1) = _
            rw [hslote]

/-- What holds from one event to the next. -/
structure Ledger (s : Server) : Prop extends Seated s where
  balanced : s.Balanced
  single : s.table.Single

/-- A thread in its loop. -/
theorem Ledger.serve {s t : Server} (h : Ledger s) {k : ℕ} {a : ThreadAction}
    (ha : a ≠ .close ∧ a ≠ .clear) (ht : s.step (.thread k a) = some t) : Ledger t := by
  obtain ⟨htable, hsocks⟩ := serve_step ha ht
  refine ⟨h.toSeated.step (a := .thread k a) trivial ht, ?_, by rw [htable]; exact h.single⟩
  rw [Server.Balanced, htable, ← h.balanced, Server.held, hsocks]
  rfl

theorem Ledger.sendSlots {s t : Server} (h : Ledger s) {k n : ℕ}
    (ht : server.run (fun _ _ => True) s (List.replicate n (.thread k .sendSlot)) = some t) :
    Ledger t := by
  induction n generalizing s with
  | zero =>
    obtain rfl := Option.some.inj ht
    exact h
  | succ n ih =>
    rw [List.replicate_succ] at ht
    obtain ⟨-, u, hu, ht⟩ := run_cons_eq_some.mp ht
    exact ih (h.serve (a := .sendSlot) ⟨ThreadAction.noConfusion, ThreadAction.noConfusion⟩ hu) ht

theorem Ledger.relay {s t : Server} (h : Ledger s) {k : ℕ} {localtime : List Byte}
    (ht : s.relay k localtime = some t) : Ledger t := by
  rcases Option.or_eq_some_iff.mp ht with ht | ⟨-, ht⟩
  · exact h.serve (a := .reply localtime) ⟨nofun, nofun⟩ ht
  · exact h.sendSlots ht

theorem Ledger.message {s t : Server} (h : Ledger s) {k : ℕ} {rd localtime : List Byte}
    (ht : s.message k rd localtime = some t) : Ledger t := by
  rw [Server.message] at ht
  split_ifs at ht
  obtain ⟨u, hu, ht⟩ := Option.bind_eq_some_iff.mp ht
  obtain ⟨v, hv, ht⟩ := Option.bind_eq_some_iff.mp ht
  have hus : Ledger u := h.serve (a := .returnRead rd) ⟨nofun, nofun⟩ hu
  exact (hus.relay hv).serve (a := .callRead) ⟨nofun, nofun⟩ ht

/-- The descriptor that a thread closes is held. -/
theorem Ledger.closesHeld {s : Server} (h : Ledger s) {k : ℕ} {th : Thread}
    (hth : s.threads[k]? = some th) (hphase : th.phase.serving) :
    (s.table th.slot).fd ∈ s.held := by
  rw [h.balanced]
  exact ⟨h.occupied k th hth hphase.ne_ended, th.slot, rfl⟩

theorem Ledger.disconnect {s t : Server} (h : Ledger s) {k : ℕ} (ht : s.disconnect k = some t) :
    Ledger t := by
  obtain ⟨hseated, th, -, -, hsocks, htable⟩ := disconnect_cases ht
  refine ⟨hseated h.toSeated, ?_, by rw [htable]; exact h.single.setFd th.slot⟩
  rw [Server.Balanced, held_of_close hsocks, htable, h.single.fds_setFd, h.balanced]

/-- A login that is admitted. -/
theorem Ledger.login {s t : Server} (h : Ledger s) {clntSock : ℤ} {ip : List Byte}
    {rd : Option (List Byte)} (hadm : Admitted s (.login clntSock ip rd))
    (ht : s.login clntSock ip rd = some t) : Ledger t := by
  obtain ⟨hfd, hfree, hsocks, ⟨-, hseated, i, hvacant, htable⟩ | ⟨hnot, -⟩⟩ := login_cases ht
  · have hnew : clntSock ∉ s.table.fds := by
      rw [← h.balanced]
      exact not_not.mpr hfree
    refine ⟨hseated h.toSeated, ?_, by rw [htable]; exact h.single.register i hnew ip⟩
    rw [Server.Balanced, held_of_open hsocks, htable,
      Table.fds_register hvacant (by omega), h.balanced]
  · exact absurd hadm hnot

/-- **An event keeps the account** unless it is a login that is not admitted. -/
theorem Ledger.complete {s t : Server} (h : Ledger s) {e : Event} (he : Admitted s e)
    (ht : s.complete e = some t) : Ledger t := by
  cases e with
  | login clntSock ip rd => exact h.login he ht
  | message k rd localtime => exact h.message ht
  | disconnect k => exact h.disconnect ht

/-- **A login that is not admitted costs a descriptor.** -/
theorem not_balanced_of_not_admitted {s t : Server} {e : Event} (h : s.Balanced)
    (ht : s.complete e = some t) (he : ¬Admitted s e) : ¬t.Balanced := by
  cases e with
  | login clntSock ip rd =>
    obtain ⟨-, hfree, hsocks, ⟨hadm, -⟩ | ⟨-, hsub⟩⟩ := login_cases ht
    · exact absurd hadm he
    · intro hbalanced
      have hopen : clntSock ∈ t.held := by
        rw [held_of_open hsocks]
        exact Set.mem_insert _ _
      rw [hbalanced] at hopen
      have hold := hsub hopen
      rw [← h] at hold
      exact hold hfree
  | _ => exact absurd trivial he

/-! ### Runs -/

theorem ledger_of_reach {s : Server} (h : events.Reach Admitted s) : Ledger s := by
  refine h.invariant Ledger ?_ fun _ _ _ hs ha ht => hs.complete ha ht
  rintro s hinit
  refine ⟨seated_of_reach (.init hinit), ?_, fun i j hi => absurd (hinit.2 i) hi⟩
  have hnone : s.table.fds = ∅ := Set.eq_empty_iff_forall_notMem.mpr fun fd hfd => by
    obtain ⟨hne, i, rfl⟩ := hfd
    exact hne (hinit.2 i)
  rw [Server.Balanced, hnone]
  obtain ⟨records, buf, rfl⟩ := hinit.1
  exact Set.eq_empty_iff_forall_notMem.mpr fun fd hfd => hfd rfl

theorem balanced_init_iff {s : Server} (h : server.init s) :
    s.Balanced ↔ ∀ i, (s.table i).fd = -1 := by
  constructor
  · intro hbalanced i
    by_contra hne
    have hmem : (s.table i).fd ∈ s.held := by
      rw [hbalanced]
      exact ⟨hne, i, rfl⟩
    obtain ⟨records, buf, rfl⟩ := h
    exact hmem rfl
  · intro hfree
    exact (ledger_of_reach (.init ⟨h, hfree⟩)).balanced

/-- **Descriptor accounting.** In every run in which all slots are free at first and every login is
admitted, the descriptors held are those of the slots, and no other is closed; at first they are
only if all slots are free, and after a login that is not admitted they are not. -/
theorem descriptor_accounting (s : Server) :
    (events.Reach Admitted s →
        s.Balanced ∧ ∀ e t, s.complete e = some t → ClosesHeld s e) ∧
      (server.init s → (s.Balanced ↔ ∀ i, (s.table i).fd = -1)) ∧
      ∀ e t, s.Balanced → s.complete e = some t → ¬Admitted s e → ¬t.Balanced := by
  refine ⟨fun h => ?_, balanced_init_iff, fun e t => not_balanced_of_not_admitted⟩
  have hledger := ledger_of_reach h
  refine ⟨hledger.balanced, fun e t ht => ?_⟩
  cases e with
  | disconnect k =>
    obtain ⟨-, th, hth, hphase, -⟩ := disconnect_cases ht
    intro th' hth'
    obtain rfl := Option.some.inj (hth.symm.trans hth')
    exact hledger.closesHeld hth hphase
  | _ => trivial

/-- Client 5 logs in. -/
theorem descriptor_accounting_witness : ∃ s : Server, (4 : ℤ) ∈ s.held ∧ s.Balanced := by
  have hadm : Admitted .startUp (.login 4 (bytes "10.10.141.5") (some (bytes "[5:PASSWD]"))) :=
    ⟨by decide, bytes "[5:PASSWD]", rfl, nofun, bytes "5", bytes "PASSWD", 4, rfl, rfl, rfl⟩
  have hreach : events.Reach Admitted _ := .step _ (.init full_startUp) hadm rfl
  exact ⟨_, Option.isSome_iff_ne_none.mp rfl, ((descriptor_accounting _).1 hreach).1⟩

/-- A connection sends a wrong password. It is told so, and its descriptor stays open. -/
theorem not_descriptor_accounting : ¬∀ s, events.Reachable s → s.Balanced := by
  intro h
  obtain ⟨s, hs, hp⟩ := exists_reach_of_run events (fun _ _ => True) full_startUp
    [.login 4 (bytes "10.10.141.5") (some (bytes "[5:WRONG]"))]
    (fun s => (s.socks 4).isSome && decide (∀ i, (s.table i).fd = -1)) rfl
  simp only [Bool.and_eq_true, decide_eq_true_eq] at hp
  have hopen : (4 : ℤ) ∈ s.held := Option.isSome_iff_ne_none.mp hp.1
  rw [h s hs] at hopen
  obtain ⟨hne, i, hi⟩ := hopen
  exact hne (hi.symm.trans (hp.2 i))

end Relay

end DroneTurret
