import DroneTurret.Lib.Transition
import DroneTurret.Relay.Connection
import DroneTurret.Relay.Login

/-!
# The relay server

`main` and one `clnt_connection` thread for every registered client, all working on one table. A
step is what one of them does between two points at which another may interfere:

* `main` accepts a connection, reads and answers its login message, registers it under the mutex;
* a thread fetches `client_info->fd` for its `read`, gets the bytes or the end of the stream, tests
  and writes one slot after another in `send_msg`, and at the end closes `client_info->fd` and then
  clears its slot under the mutex.

Reading a message and cutting it into its tokens is one step here; `Tokenizing` has every call of
`strtok` as a step, with the one position that `strtok` keeps for the process.

A thread does not know which connection it was started for: it goes by its slot, at every step.
`Thread.conn` and the fields of `Server` below `socks` are history and no step reads them. `socks`
is the kernel's table of open client sockets. `accept` returns any descriptor that is not in use;
the first four belong to the standard streams and to the listening socket.

## Main definitions

* `Server`, `Action`, `Server.step` — the state and its steps
* `server` — every interleaving, from start-up
* `iterate_of_steps` — the steps of `main`, taken without interruption, are an iteration
* `ThreadMoves` — what a step of a thread does
* `Effect` — what a step can do, as the inversion of `Server.step`; every invariant goes by it
-/

namespace DroneTurret

namespace Relay

open CString Function

/-- Where the accept loop is. -/
inductive MainPc
  | accepting
  /-- `accept` has returned a connection. -/
  | accepted (clntSock : ℤ) (conn : ℕ)
  /-- Its login message was that of slot `i`. -/
  | registering (clntSock : ℤ) (conn : ℕ) (i : Fin maxClnt)
  deriving DecidableEq

/-- Where a `clnt_connection` thread is. -/
inductive Phase
  /-- About to fetch `client_info->fd` for the next `read`. -/
  | ready
  /-- In `read`, from the connection that the descriptor belonged to when it was called. -/
  | reading (source : Option ℕ)
  /-- In `send_msg`, with the slots from `next` on still to be tested. -/
  | routing (info : MsgInfo) (next : ℕ)
  /-- About to `close(client_info->fd)`. -/
  | leaving
  /-- About to clear the slot. -/
  | closed
  | ended
  deriving DecidableEq

structure Thread where
  slot : Fin maxClnt
  /-- The connection the thread was started for. -/
  conn : ℕ
  /-- Its `msg` and `pArray`. -/
  scanner : Scanner
  phase : Phase
  deriving DecidableEq

/-- A write of `send_msg`, and the connection that the descriptor belonged to. -/
structure Write where
  dest : List Byte
  fd : ℤ
  text : List Byte
  conn : Option ℕ
  deriving DecidableEq

structure Server extends MainState where
  pc : MainPc
  threads : List Thread
  /-- The connection that an open descriptor belongs to. -/
  socks : ℤ → Option ℕ
  /-- The number of connections accepted. They are numbered in order. -/
  conns : ℕ
  /-- The id that a connection has authenticated as. -/
  auth : ℕ → Option (List Byte)
  /-- The connection that is registered in a slot. -/
  holder : Fin maxClnt → Option ℕ
  writes : List Write

/-- The steps of a thread. -/
inductive ThreadAction
  /-- It calls `read`. -/
  | callRead
  /-- `read` returns; with no bytes, it has returned 0 or −1. -/
  | returnRead (rd : List Byte)
  /-- It tests the next slot in `send_msg`, and writes. -/
  | sendSlot
  /-- It answers a request in `send_msg`. -/
  | reply (localtime : List Byte)
  /-- It executes `close(client_info->fd)`. -/
  | close
  /-- It clears its slot and ends. -/
  | clear

inductive Action
  /-- `accept` returns a descriptor. -/
  | accept (clntSock : ℤ)
  /-- `main` has its login message, or none, and answers it. -/
  | authenticate (rd : Option (List Byte))
  /-- `main` registers the connection and starts its thread. -/
  | register (ip : List Byte)
  | thread (k : ℕ) (a : ThreadAction)

/-! ### Steps -/

namespace Server

/-- A full server leaves the connection open and takes no message from it. -/
def accept (s : Server) (clntSock : ℤ) : Option Server :=
  if s.pc = .accepting ∧ 3 < clntSock ∧ s.socks clntSock = none then
    some { s with
      pc := if s.clntCnt ≥ maxClnt then .accepting else .accepted clntSock s.conns
      socks := update s.socks clntSock (some s.conns)
      conns := s.conns + 1 }
  else none

/-- A connection that is not admitted stays open as well. -/
def authenticate (s : Server) (rd : Option (List Byte)) : Option Server :=
  match s.pc with
  | .accepted clntSock conn =>
    match s.toMainState.authenticate rd with
    | (.undefined, _) => none
    | (.alreadyLogged i, m) =>
      some { s with toMainState := m, pc := .accepting, holder := update s.holder i none }
    | (.connected i, m) =>
      some { s with
        toMainState := m
        pc := .registering clntSock conn i
        auth := update s.auth conn (some (m.table i).id.val) }
    | (_, m) => some { s with toMainState := m, pc := .accepting }
  | _ => none

def register (s : Server) (ip : List Byte) : Option Server :=
  match s.pc with
  | .registering clntSock conn i =>
    some { s with
      toMainState := s.toMainState.register i clntSock ip
      pc := .accepting
      threads := s.threads ++ [⟨i, conn, .null [], .ready⟩]
      holder := update s.holder i (some conn) }
  | _ => none

/-- Replace thread `k`. -/
def setThread (s : Server) (k : ℕ) (th : Thread) : Server :=
  { s with threads := s.threads.set k th }

/-- A write of thread `k` in `send_msg`. -/
def write (s : Server) (dest : List Byte) (fd : ℤ) (text : List Byte) : Server :=
  { s with writes := s.writes ++ [⟨dest, fd, text, s.socks fd⟩] }

/-- A step of thread `k`. -/
def stepThread (s : Server) (k : ℕ) (th : Thread) : ThreadAction → Option Server
  | .callRead =>
    if th.phase = .ready then
      some (s.setThread k { th with phase := .reading (s.socks (s.table th.slot).fd) })
    else none
  | .returnRead rd =>
    match th.phase with
    | .reading source =>
      if rd = [] then some (s.setThread k { th with phase := .leaving })
      else if source = none then none
      else
        (msgInfo (s.table th.slot) th.scanner rd).map fun info =>
          s.setThread k { th with scanner := th.scanner.clear.scan rd, phase := .routing info 0 }
    | _ => none
  | .sendSlot =>
    match th.phase with
    | .routing info next =>
      if info.isRequest then none
      else if h : next < maxClnt then
        let s' := s.setThread k { th with phase := .routing info (next + 1) }
        match slotWrite s.table info ⟨next, h⟩ with
        | none => some s'
        | some (fd, text) => some (s'.write info.dest fd text)
      else some (s.setThread k { th with phase := .ready })
    | _ => none
  | .reply localtime =>
    match th.phase with
    | .routing info _ =>
      if info.isRequest then
        some ((s.setThread k { th with phase := .ready }).write info.dest info.fd
          (replyText s.table info localtime))
      else none
    | _ => none
  | .close =>
    if th.phase = .leaving then
      some { s.setThread k { th with phase := .closed } with
        socks := update s.socks (s.table th.slot).fd none }
    else none
  | .clear =>
    if th.phase = .closed then
      some { s.setThread k { th with phase := .ended } with
        table := s.table.setFd th.slot (-1)
        clntCnt := s.clntCnt - 1
        holder := update s.holder th.slot none }
    else none

def step (s : Server) : Action → Option Server
  | .accept clntSock => s.accept clntSock
  | .authenticate rd => s.authenticate rd
  | .register ip => s.register ip
  | .thread k a => s.threads[k]?.bind fun th => s.stepThread k th a

end Server

/-- The server from start-up: the table is loaded, no client is connected, and `idpasswd` is not
initialized. -/
def server : Transition Server Action where
  init s := ∃ records buf, s = {
    table := load records, clntCnt := 0, buffer := .null buf, pc := .accepting, threads := []
    socks := fun _ => none, conns := 0, auth := fun _ => none, holder := fun _ => none, writes := [] }
  step := Server.step

/-- The server before its first connection, with the repository's table. -/
def Server.startUp : Server where
  toMainState := .startUp
  pc := .accepting
  threads := []
  socks _ := none
  conns := 0
  auth _ := none
  holder _ := none
  writes := []

theorem init_server_startUp : server.init .startUp :=
  ⟨idpasswdTxt, List.replicate idpasswdSize 0, rfl⟩

/-- A client connects on a descriptor and logs in. -/
def logIn (fd : ℤ) (rd : List Byte) : List Action :=
  [.accept fd, .authenticate (some rd), .register (bytes "10.10.141.5")]

/-! ### The accept loop -/

/-- The steps of `main` for one connection, with nothing in between, are one iteration of the accept
loop: what a message is answered, and what a registration changes. -/
theorem iterate_of_steps {s t u : Server} {clntSock : ℤ} {rd : Option (List Byte)} (ip : List Byte)
    (ht : s.accept clntSock = some t) (hu : t.authenticate rd = some u) :
    (u.pc = .accepting → (s.toMainState.iterate clntSock ip rd).2 = u.toMainState) ∧
      ∀ v, u.register ip = some v →
        (s.toMainState.iterate clntSock ip rd).2 = v.toMainState := by
  rw [Server.accept] at ht
  split at ht
  · rename_i hguard
    obtain ⟨-, hfd, -⟩ := hguard
    obtain rfl := Option.some.inj ht
    rw [Server.authenticate] at hu
    by_cases hfull : s.clntCnt ≥ maxClnt
    · simp only [if_pos hfull] at hu
      cases hu
    · simp only [if_neg hfull] at hu
      have hiter : s.toMainState.iterate clntSock ip rd =
          conclude clntSock ip (s.toMainState.authenticate rd) :=
        (if_neg hfull).trans (if_neg (by omega))
      rw [hiter]
      generalize s.toMainState.authenticate rd = r at hu ⊢
      obtain ⟨answer, m⟩ := r
      cases answer with
      | undefined => cases hu
      | connected i =>
        obtain rfl := Option.some.inj hu
        refine ⟨nofun, fun v hv => ?_⟩
        obtain rfl := Option.some.inj hv
        rfl
      | _ =>
        obtain rfl := Option.some.inj hu
        exact ⟨fun _ => rfl, nofun⟩
  · cases ht

/-! ### What a step can do -/

/-- The thread has its descriptor still open, as far as it knows. -/
def Phase.serving : Phase → Prop
  | .closed | .ended => False
  | _ => True

/-- A write for a message by id, and not for one of the three other destinations. -/
def Write.addressed (w : Write) : Prop := w.dest ∉ [allmsg, idlist, gettime]

/-- The write went to the descriptor of a slot of the id it was for. -/
def Write.toSlot (s : Server) (w : Write) : Prop :=
  ∃ i, (s.table i).fd = w.fd ∧ (s.table i).id.val = w.dest ∧ w.conn = s.socks w.fd

/-- The effects of a step, with the guard it was taken under. -/
inductive Effect (s : Server) : Action → Server → Prop
  | accept {clntSock : ℤ} {pc : MainPc} (hpc : s.pc = .accepting) (hfd : 3 < clntSock)
      (hfree : s.socks clntSock = none) (hnext : pc = .accepting ∨ pc = .accepted clntSock s.conns) :
      Effect s (.accept clntSock) { s with
        pc := pc, socks := update s.socks clntSock (some s.conns), conns := s.conns + 1 }
  | turnedAway {rd : Option (List Byte)} {clntSock : ℤ} {conn : ℕ} {m : MainState}
      (hpc : s.pc = .accepted clntSock conn) (htable : m.table = s.table) :
      Effect s (.authenticate rd) { s with toMainState := m, pc := .accepting }
  | alreadyLogged {rd : Option (List Byte)} {clntSock : ℤ} {conn : ℕ} {m : MainState}
      {i : Fin maxClnt} (hpc : s.pc = .accepted clntSock conn)
      (htable : m.table = s.table.setFd i (-1)) :
      Effect s (.authenticate rd) { s with
        toMainState := m, pc := .accepting, holder := update s.holder i none }
  | connected {rd : Option (List Byte)} {clntSock : ℤ} {conn : ℕ} {m : MainState}
      {i : Fin maxClnt} (hpc : s.pc = .accepted clntSock conn) (htable : m.table = s.table)
      (hfree : (s.table i).fd = -1) :
      Effect s (.authenticate rd) { s with
        toMainState := m, pc := .registering clntSock conn i
        auth := update s.auth conn (some (s.table i).id.val) }
  | register {clntSock : ℤ} {conn : ℕ} {i : Fin maxClnt} {ip : List Byte}
      (hpc : s.pc = .registering clntSock conn i) :
      Effect s (.register ip) { s with
        toMainState := s.toMainState.register i clntSock ip, pc := .accepting
        threads := s.threads ++ [⟨i, conn, .null [], .ready⟩]
        holder := update s.holder i (some conn) }
  | serve {k : ℕ} {a : ThreadAction} {th th' : Thread} {writes : List Write}
      (ha : a ≠ .close ∧ a ≠ .clear) (hth : s.threads[k]? = some th)
      (hslot : th'.slot = th.slot) (hconn : th'.conn = th.conn) (hphase : th.phase.serving)
      (hphase' : th'.phase.serving)
      (hwrites : ∀ w ∈ writes, w ∈ s.writes ∨ (w.addressed → w.toSlot s)) :
      Effect s (.thread k a) { s.setThread k th' with writes := writes }
  | close {k : ℕ} {th : Thread} (hth : s.threads[k]? = some th) (hphase : th.phase = .leaving) :
      Effect s (.thread k .close) { s.setThread k { th with phase := .closed } with
        socks := update s.socks (s.table th.slot).fd none }
  | clear {k : ℕ} {th : Thread} (hth : s.threads[k]? = some th) (hphase : th.phase = .closed) :
      Effect s (.thread k .clear) { s.setThread k { th with phase := .ended } with
        table := s.table.setFd th.slot (-1), clntCnt := s.clntCnt - 1
        holder := update s.holder th.slot none }

theorem Effect.of_accept {s t : Server} {clntSock : ℤ} (h : s.accept clntSock = some t) :
    Effect s (.accept clntSock) t := by
  rw [Server.accept] at h
  split at h
  · rename_i hguard
    obtain ⟨hpc, hfd, hfree⟩ := hguard
    obtain rfl := Option.some.inj h
    refine .accept hpc hfd hfree ?_
    by_cases hfull : s.clntCnt ≥ maxClnt
    · exact .inl (if_pos hfull)
    · exact .inr (if_neg hfull)
  · cases h

theorem Effect.of_authenticate {s t : Server} {rd : Option (List Byte)}
    (h : s.authenticate rd = some t) : Effect s (.authenticate rd) t := by
  rw [Server.authenticate] at h
  split at h
  · rename_i clntSock conn hpc
    by_cases hmsg : ∀ msg ∈ rd, msg = []
    · obtain ⟨hanswer, htable, -⟩ := authenticate_of_no_message s.toMainState hmsg
      generalize s.toMainState.authenticate rd = r at h hanswer htable
      obtain ⟨answer, m⟩ := r
      obtain rfl : answer = .hungUp := hanswer
      obtain rfl := Option.some.inj h
      exact .turnedAway hpc htable
    · push Not at hmsg
      obtain ⟨msg, rfl, hne⟩ := hmsg
      rcases authenticate_cases s.toMainState hne with ⟨i, hm, -⟩ | ⟨answer, hlogged, hm, hsearch⟩
      · rw [hm] at h
        obtain rfl := Option.some.inj h
        exact .alreadyLogged hpc rfl
      · rw [hm] at h
        cases answer with
        | undefined => cases h
        | alreadyLogged i => exact absurd rfl (hlogged i)
        | connected i =>
          obtain rfl := Option.some.inj h
          exact .connected hpc rfl (search_connected hsearch).2.2
        | _ =>
          obtain rfl := Option.some.inj h
          exact .turnedAway hpc rfl
  · cases h

theorem Effect.of_register {s t : Server} {ip : List Byte} (h : s.register ip = some t) :
    Effect s (.register ip) t := by
  rw [Server.register] at h
  split at h
  · rename_i clntSock conn i hpc
    obtain rfl := Option.some.inj h
    exact .register hpc
  · cases h

/-- The steps of a thread, one for each way through `stepThread`. -/
inductive ThreadMoves (s : Server) (k : ℕ) (th : Thread) : ThreadAction → Server → Prop
  | callRead (hphase : th.phase = .ready) :
      ThreadMoves s k th .callRead
        (s.setThread k { th with phase := .reading (s.socks (s.table th.slot).fd) })
  | hangUp {source : Option ℕ} (hphase : th.phase = .reading source) :
      ThreadMoves s k th (.returnRead []) (s.setThread k { th with phase := .leaving })
  | receive {rd : List Byte} {c : ℕ} {info : MsgInfo} (hphase : th.phase = .reading (some c))
      (hinfo : msgInfo (s.table th.slot) th.scanner rd = some info) :
      ThreadMoves s k th (.returnRead rd) (s.setThread k
        { th with scanner := th.scanner.clear.scan rd, phase := .routing info 0 })
  | pass {info : MsgInfo} {next : ℕ} (hphase : th.phase = .routing info next)
      (hreq : ¬info.isRequest) :
      ThreadMoves s k th .sendSlot (s.setThread k { th with phase := .routing info (next + 1) })
  | write {info : MsgInfo} {next : Fin maxClnt} {fd : ℤ} {text : List Byte}
      (hphase : th.phase = .routing info next) (hreq : ¬info.isRequest)
      (hwrite : slotWrite s.table info next = some (fd, text)) :
      ThreadMoves s k th .sendSlot
        ((s.setThread k { th with phase := .routing info (next + 1) }).write info.dest fd text)
  | sent {info : MsgInfo} {next : ℕ} (hphase : th.phase = .routing info next)
      (hreq : ¬info.isRequest) :
      ThreadMoves s k th .sendSlot (s.setThread k { th with phase := .ready })
  | reply {info : MsgInfo} {next : ℕ} {localtime : List Byte}
      (hphase : th.phase = .routing info next) (hreq : info.isRequest) :
      ThreadMoves s k th (.reply localtime) ((s.setThread k { th with phase := .ready }).write
        info.dest info.fd (replyText s.table info localtime))
  | close (hphase : th.phase = .leaving) :
      ThreadMoves s k th .close { s.setThread k { th with phase := .closed } with
        socks := update s.socks (s.table th.slot).fd none }
  | clear (hphase : th.phase = .closed) :
      ThreadMoves s k th .clear { s.setThread k { th with phase := .ended } with
        table := s.table.setFd th.slot (-1), clntCnt := s.clntCnt - 1
        holder := update s.holder th.slot none }

theorem threadMoves_of_stepThread {s t : Server} {k : ℕ} {th : Thread} {a : ThreadAction}
    (h : s.stepThread k th a = some t) : ThreadMoves s k th a t := by
  cases a with
  | callRead =>
    obtain ⟨hphase, rfl⟩ := Option.ite_some_none_eq_some.mp h
    exact .callRead hphase
  | returnRead rd =>
    rw [Server.stepThread] at h
    split at h
    · rename_i source hphase
      split_ifs at h with hnil hsource
      · obtain rfl := Option.some.inj h
        exact hnil ▸ .hangUp hphase
      · obtain ⟨info, hinfo, rfl⟩ := Option.map_eq_some_iff.mp h
        obtain ⟨c, rfl⟩ := Option.ne_none_iff_exists'.mp hsource
        exact .receive hphase hinfo
    · cases h
  | sendSlot =>
    rw [Server.stepThread] at h
    split at h
    · rename_i info next hphase
      split_ifs at h with hreq hnext
      · dsimp only at h
        split at h
        · obtain rfl := Option.some.inj h
          exact .pass hphase hreq
        · rename_i fd text hwrite
          obtain rfl := Option.some.inj h
          exact @ThreadMoves.write s k th info ⟨next, hnext⟩ fd text hphase hreq hwrite
      · obtain rfl := Option.some.inj h
        exact .sent hphase hreq
    · cases h
  | reply localtime =>
    rw [Server.stepThread] at h
    split at h
    · rename_i info next hphase
      split_ifs at h with hreq
      obtain rfl := Option.some.inj h
      exact .reply hphase hreq
    · cases h
  | close =>
    obtain ⟨hphase, rfl⟩ := Option.ite_some_none_eq_some.mp h
    exact .close hphase
  | clear =>
    obtain ⟨hphase, rfl⟩ := Option.ite_some_none_eq_some.mp h
    exact .clear hphase

theorem Effect.of_stepThread {s t : Server} {k : ℕ} {th : Thread} {a : ThreadAction}
    (hth : s.threads[k]? = some th) (h : s.stepThread k th a = some t) :
    Effect s (.thread k a) t := by
  -- a step that writes nothing
  have quiet : ∀ th' : Thread, a ≠ .close ∧ a ≠ .clear → th'.slot = th.slot →
      th'.conn = th.conn → th.phase.serving → th'.phase.serving →
      Effect s (.thread k a) (s.setThread k th') := fun th' ha hs hc hp hp' =>
    .serve ha hth hs hc hp hp' fun w hw => .inl hw
  cases threadMoves_of_stepThread h with
  | callRead hphase | hangUp hphase | receive hphase | pass hphase | sent hphase =>
    exact quiet _ ⟨nofun, nofun⟩ rfl rfl (by rw [hphase]; trivial) trivial
  | @write info next fd text hphase hreq hwrite =>
    refine .serve ⟨nofun, nofun⟩ hth rfl rfl (by rw [hphase]; trivial) trivial fun w hw => ?_
    rcases List.mem_append.mp hw with hw | hw
    · exact .inl hw
    · obtain rfl := List.mem_singleton.mp hw
      refine .inr fun haddr => ?_
      have hne : info.dest ≠ allmsg := fun hd => haddr (by simp [hd])
      obtain ⟨hfd, hid⟩ := slotWrite_of_ne_allmsg hwrite hne
      exact ⟨_, hfd, hid.symm, rfl⟩
  | reply hphase hreq =>
    refine .serve ⟨nofun, nofun⟩ hth rfl rfl (by rw [hphase]; trivial) trivial fun w hw => ?_
    rcases List.mem_append.mp hw with hw | hw
    · exact .inl hw
    · obtain rfl := List.mem_singleton.mp hw
      refine .inr fun haddr => absurd ?_ haddr
      rcases hreq with hd | hd <;> simp [hd]
  | close hphase => exact .close hth hphase
  | clear hphase => exact .clear hth hphase

/-- **What a step can do.** -/
theorem effect_of_step {s t : Server} {a : Action} (h : s.step a = some t) : Effect s a t := by
  cases a with
  | accept clntSock => exact .of_accept h
  | authenticate rd => exact .of_authenticate h
  | register ip => exact .of_register h
  | thread k a =>
    obtain ⟨th, hth, hstep⟩ := Option.bind_eq_some_iff.mp h
    exact .of_stepThread hth hstep

/-! ### Sockets -/

/-- What the kernel's table of client sockets satisfies in every run. -/
structure Wired (s : Server) : Prop where
  /-- A client socket has none of the first four numbers, and its connection has been accepted. -/
  client : ∀ fd c, s.socks fd = some c → 3 < fd ∧ c < s.conns
  /-- A connection has one descriptor. -/
  inj : ∀ fd fd' c, s.socks fd = some c → s.socks fd' = some c → fd = fd'

theorem Wired.ne_neg_one {s : Server} (h : Wired s) {fd : ℤ} {c : ℕ} (hfd : s.socks fd = some c) :
    fd ≠ -1 := by
  rintro rfl
  exact absurd (h.client (-1) c hfd).1 (by decide)

/-- A value of an updated function. -/
theorem update_cases {α β : Type*} [DecidableEq α] {f : α → β} {a b : α} {v w : β}
    (h : update f a v b = w) : b = a ∧ v = w ∨ b ≠ a ∧ f b = w := by
  by_cases hb : b = a
  · subst hb
    exact .inl ⟨rfl, by rwa [update_self] at h⟩
  · exact .inr ⟨hb, by rwa [update_of_ne hb] at h⟩

theorem Wired.step {s t : Server} (h : Wired s) {a : Action} (ht : Effect s a t) : Wired t := by
  cases ht with
  | @accept clntSock pc hpc hfd hfree hnext =>
    -- the new connection is on no other descriptor
    have hnew : ∀ fd, s.socks fd ≠ some s.conns := fun fd hfd =>
      absurd (h.client fd _ hfd).2 (Nat.lt_irrefl _)
    constructor
    · rintro fd c (hc : update s.socks clntSock (some s.conns) fd = some c)
      rcases update_cases hc with ⟨rfl, hv⟩ | ⟨-, hv⟩
      · exact ⟨hfd, Option.some.inj hv ▸ Nat.lt_succ_self _⟩
      · exact ⟨(h.client fd c hv).1, Nat.lt_succ_of_lt (h.client fd c hv).2⟩
    · rintro fd fd' c (hc : update s.socks clntSock (some s.conns) fd = some c)
        (hc' : update s.socks clntSock (some s.conns) fd' = some c)
      rcases update_cases hc with ⟨rfl, hv⟩ | ⟨-, hv⟩ <;>
        rcases update_cases hc' with ⟨rfl, hv'⟩ | ⟨-, hv'⟩
      · rfl
      · exact absurd (hv'.trans hv.symm) (hnew fd')
      · exact absurd (hv.trans hv'.symm) (hnew fd)
      · exact h.inj fd fd' c hv hv'
  | @close k th hth hphase =>
    have hsub : ∀ fd c, update s.socks (s.table th.slot).fd none fd = some c →
        s.socks fd = some c := by
      intro fd c hc
      rcases update_cases hc with ⟨-, hv⟩ | ⟨-, hv⟩
      · cases hv
      · exact hv
    constructor
    · intro fd c hc
      exact h.client fd c (hsub fd c hc)
    · intro fd fd' c hc hc'
      exact h.inj fd fd' c (hsub fd c hc) (hsub fd' c hc')
  | turnedAway hpc htable => exact ⟨h.client, h.inj⟩
  | alreadyLogged hpc htable => exact ⟨h.client, h.inj⟩
  | connected hpc htable hfree => exact ⟨h.client, h.inj⟩
  | register hpc => exact ⟨h.client, h.inj⟩
  | serve ha hth hslot hconn hphase hphase' hwrites => exact ⟨h.client, h.inj⟩
  | clear hth hphase => exact ⟨h.client, h.inj⟩

theorem wired_init {s : Server} (h : server.init s) : Wired s := by
  obtain ⟨records, buf, rfl⟩ := h
  exact ⟨nofun, nofun⟩

end Relay

end DroneTurret
