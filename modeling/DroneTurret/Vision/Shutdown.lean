import DroneTurret.Lib.Transition
import Mathlib.Data.List.Basic
import Mathlib.Logic.Function.Basic

/-!
# How the vision process stops

Every thread of the process tests `stop_event` once in each round of its loop. It is set by the
main thread, when the server that it runs is interrupted, and by the two threads of the connection
to the relay, when that breaks. Nothing clears it, and nothing connects again.

The main thread itself does not look at it: it serves pictures until it is interrupted.

What the threads do in a round is told elsewhere. Here a round of a worker is one step, which
writes a line or not, and a message is one as well. `recv` takes its step when there is data or the
connection has come to an end; the other calls return. Without a motion sensor its thread ends at
once, as in `app_hailo`, which has none.

## Main definitions

* `Process`, `process` — the threads with their shared event and connection
* `Process.Quiet` — all threads but the main one are through

## Main results

* `shutdown_spec` — what precedes the event, and what may follow it
* `shutdown_ends` — once the event is set, the process becomes quiet
-/

namespace DroneTurret

namespace Vision

open Transition

/-- The threads with a plain loop. -/
inductive Worker
  | uart
  | inference
  | imu
  deriving DecidableEq

inductive WorkerPc
  /-- `while not stop_event.is_set()`. -/
  | test
  | body
  | ended
  deriving DecidableEq

/-- `socket_client_thread`. -/
inductive SocketPc
  | create
  | connect
  | login
  | startRecv
  | startSend
  | joinSend
  | joinRecv
  | ended
  deriving DecidableEq

/-- `send_loop`. -/
inductive SendPc
  | unborn
  | test
  | send
  /-- `stop_event.wait(sleep_for)`. -/
  | wait
  | shutdown
  | close
  | ended
  deriving DecidableEq

/-- `recv_loop`. -/
inductive RecvPc
  | unborn
  | test
  | recv
  /-- `stop_event.set()` of the `finally` clause. -/
  | set
  | shutdown
  | close
  | ended
  deriving DecidableEq

/-- The main thread. -/
inductive MainPc
  /-- `app.run`. -/
  | serving
  | set
  | join
  | ended
  deriving DecidableEq

/-- What is sent to the relay. -/
inductive Text
  | login
  | message
  deriving DecidableEq

structure Process where
  stop : Bool
  /-- The peer has closed the connection, or it has failed. -/
  broken : Bool
  /-- `shutdown` was called on the socket. -/
  closed : Bool
  worker : Worker → WorkerPc
  socket : SocketPc
  send : SendPc
  recv : RecvPc
  main : MainPc
  sent : List Text
  /-- The lines to the turret and the messages that were written after the event was set. -/
  lateLines : ℕ
  lateMessages : ℕ

inductive ProcessStep
  /-- A step of a worker; whether the round writes a line, and whether it fails. -/
  | worker (w : Worker) (writes fails : Bool)
  /-- A step of `socket_client_thread`; whether the call succeeds. -/
  | socket (ok : Bool)
  /-- A step of `send_loop`; whether there is a target, and whether the message is sent. -/
  | send (target ok : Bool)
  /-- A step of `recv_loop`; whether `recv` returns data. -/
  | recv (data : Bool)
  | main
  /-- `app.run` ends, by Ctrl-C or because it cannot have the port. -/
  | interrupt
  /-- The connection breaks. -/
  | breaks

/-- The steps of the threads. -/
def ProcessStep.ofThread : ProcessStep → Bool
  | .interrupt => false
  | .breaks => false
  | _ => true

/-- The steps that need nothing from outside. -/
def ProcessStep.unaided : ProcessStep → Bool
  | .recv data => !data
  | a => a.ofThread

namespace Process

variable (s : Process)

/-- All threads are started, but those of the connection. -/
def start : Process where
  stop := false
  broken := false
  closed := false
  worker := fun _ => .test
  socket := .create
  send := .unborn
  recv := .unborn
  main := .serving
  sent := []
  lateLines := 0
  lateMessages := 0

/-- A round of the camera's thread or of the motion sensor's may fail, also before the first one. -/
def stepWorker (w : Worker) (writes fails : Bool) : Option Process :=
  match s.worker w with
  | .ended => none
  | .test =>
    some { s with
      worker := Function.update s.worker w (if s.stop ∨ w ≠ .uart ∧ fails then .ended else .body) }
  | .body =>
    some { s with
      worker := Function.update s.worker w (if w ≠ .uart ∧ fails then .ended else .test)
      lateLines := if w = .uart ∧ writes ∧ s.stop then s.lateLines + 1 else s.lateLines }

/-- An exception of `socket`, `connect` or `sendall` ends the thread without closing the socket. -/
def stepSocket (ok : Bool) : Option Process :=
  match s.socket with
  | .create => some { s with socket := if ok then .connect else .ended }
  | .connect => some { s with socket := if ok then .login else .ended }
  | .login =>
    if ok then some { s with socket := .startRecv, sent := s.sent ++ [.login] }
    else some { s with socket := .ended }
  | .startRecv => some { s with socket := .startSend, recv := .test }
  | .startSend => some { s with socket := .joinSend, send := .test }
  | .joinSend => if s.send = .ended then some { s with socket := .joinRecv } else none
  -- `t_recv.join(timeout=1.0)`
  | .joinRecv => some { s with socket := .ended }
  | .ended => none

/-- `sendall` fails only on a connection that is broken or shut down, and on the latter always. -/
def stepSend (target ok : Bool) : Option Process :=
  match s.send with
  | .unborn => none
  | .test => some { s with send := if s.stop then .shutdown else .send }
  | .send =>
    if target then
      if ok then
        if s.closed then none
        else
          some { s with
            send := .wait
            sent := s.sent ++ [.message]
            lateMessages := if s.stop then s.lateMessages + 1 else s.lateMessages }
      else if s.broken || s.closed then some { s with send := .shutdown, stop := true }
      else none
    else some { s with send := .wait }
  | .wait => some { s with send := if s.stop then .shutdown else .test }
  | .shutdown => some { s with send := .close, closed := true }
  | .close => some { s with send := .ended }
  | .ended => none

/-- `recv` waits while the connection is neither broken nor shut down and there is no data. -/
def stepRecv (data : Bool) : Option Process :=
  match s.recv with
  | .unborn => none
  | .test => some { s with recv := if s.stop then .set else .recv }
  | .recv =>
    if data then some { s with recv := .test }
    else if s.broken || s.closed then some { s with recv := .set, stop := true }
    else none
  | .set => some { s with recv := .shutdown, stop := true }
  | .shutdown => some { s with recv := .close, closed := true }
  | .close => some { s with recv := .ended }
  | .ended => none

/-- The joins have timeouts. -/
def stepMain : Option Process :=
  match s.main with
  | .serving => none
  | .set => some { s with main := .join, stop := true }
  | .join => some { s with main := .ended }
  | .ended => none

/-- The other threads are daemons: they end with the main one. -/
def step (a : ProcessStep) : Option Process :=
  if s.main = .ended then none
  else
    match a with
    | .worker w writes fails => s.stepWorker w writes fails
    | .socket ok => s.stepSocket ok
    | .send target ok => s.stepSend target ok
    | .recv data => s.stepRecv data
    | .main => s.stepMain
    | .interrupt => if s.main = .serving then some { s with main := .set } else none
    | .breaks => some { s with broken := true }

/-- All threads but the main one are through, and the socket is shut down if it was used. -/
structure Quiet : Prop where
  worker : ∀ w, s.worker w = .ended
  socket : s.socket = .ended
  connection : s.send = .unborn ∧ s.recv = .unborn ∨
    s.send = .ended ∧ s.recv = .ended ∧ s.closed = true
  main : s.main = .serving

end Process

def process : Transition Process ProcessStep := ⟨(· = .start), Process.step⟩

/-! ### What precedes the event -/

namespace Process

/-- The threads of the connection, as far as `socket_client_thread` has come. -/
def Born (s : Process) : Prop :=
  match s.socket with
  | .create | .connect | .login => s.send = .unborn ∧ s.recv = .unborn ∧ s.sent = []
  | .startRecv => s.send = .unborn ∧ s.recv = .unborn ∧ s.sent ≠ []
  | .startSend => s.send = .unborn ∧ s.recv ≠ .unborn ∧ s.sent ≠ []
  | .joinSend | .joinRecv => s.send ≠ .unborn ∧ s.recv ≠ .unborn ∧ s.sent ≠ []
  | .ended => s.send = .unborn ∧ s.recv = .unborn ∧ s.sent = [] ∨
      s.send ≠ .unborn ∧ s.recv ≠ .unborn ∧ s.sent ≠ []

/-- The login is the first that is sent, and the only one. -/
def LoginFirst (sent : List Text) : Prop :=
  sent = [] ∨ ∃ n, sent = .login :: List.replicate n .message

structure Sound (s : Process) : Prop where
  born : s.Born
  login : LoginFirst s.sent
  reason : s.stop = true → s.main ≠ .serving ∨ s.broken = true ∧ s.sent ≠ []
  send_stop : s.send = .shutdown ∨ s.send = .close ∨ s.send = .ended → s.stop = true
  send_closed : s.send = .close ∨ s.send = .ended → s.closed = true
  recv_stop : s.recv = .set ∨ s.recv = .shutdown ∨ s.recv = .close ∨ s.recv = .ended →
    s.stop = true
  closed_stop : s.closed = true → s.stop = true
  lines_none : s.stop = false → s.lateLines = 0
  lines_one : s.lateLines = 0 ∨ s.lateLines = 1 ∧ s.worker .uart ≠ .body
  messages_none : s.stop = false → s.lateMessages = 0
  messages_one : s.lateMessages = 0 ∨ s.lateMessages = 1 ∧ s.send ≠ .send

theorem LoginFirst.concat {sent : List Text} (h : LoginFirst sent) (hne : sent ≠ []) :
    LoginFirst (sent ++ [.message]) := by
  rcases h with h | ⟨n, rfl⟩
  · exact absurd h hne
  · exact .inr ⟨n + 1, by rw [List.cons_append, ← List.replicate_succ']⟩

theorem sound_start : start.Sound where
  born := ⟨rfl, rfl, rfl⟩
  login := .inl rfl
  reason := nofun
  send_stop := by rintro (h | h | h) <;> cases h
  send_closed := by rintro (h | h) <;> cases h
  recv_stop := by rintro (h | h | h | h) <;> cases h
  closed_stop := nofun
  lines_none _ := rfl
  lines_one := .inl rfl
  messages_none _ := rfl
  messages_one := .inl rfl

variable {s t : Process}

theorem Sound.stepWorker (hs : s.Sound) {w : Worker} {writes fails : Bool}
    (ht : s.stepWorker w writes fails = some t) : t.Sound := by
  unfold Process.stepWorker at ht
  split at ht
  · cases ht
  · obtain rfl := Option.some.inj ht
    refine { hs with lines_one := ?_ }
    by_cases hw : Worker.uart = w
    · subst hw
      cases hstop : s.stop with
      | false => exact .inl (hs.lines_none hstop)
      | true =>
        refine hs.lines_one.imp_right fun h => ⟨h.1, ?_⟩
        simp
    · dsimp only
      rw [Function.update_of_ne hw]
      exact hs.lines_one
  · rename_i hpc
    obtain rfl := Option.some.inj ht
    refine { hs with lines_none := fun hstop => ?_, lines_one := ?_ }
    · dsimp only at hstop ⊢
      rw [hstop, if_neg fun h => Bool.false_ne_true h.2.2]
      exact hs.lines_none hstop
    · by_cases hw : Worker.uart = w
      · subst hw
        have hzero := hs.lines_one.resolve_right fun h => h.2 hpc
        simp only [hzero, Function.update_self]
        split
        · exact .inr ⟨rfl, by simp⟩
        · exact .inl rfl
      · have hlate : (if w = .uart ∧ writes ∧ s.stop then s.lateLines + 1 else s.lateLines) =
            s.lateLines := if_neg fun h => hw h.1.symm
        dsimp only
        rw [hlate, Function.update_of_ne hw]
        exact hs.lines_one

theorem Sound.stepSocket (hs : s.Sound) {ok : Bool} (ht : s.stepSocket ok = some t) : t.Sound := by
  have hborn := hs.born
  unfold Process.stepSocket at ht
  unfold Born at hborn
  split at ht <;> rename_i hpc <;> rw [hpc] at hborn <;> dsimp only at hborn
  · obtain rfl := Option.some.inj ht
    refine { hs with born := ?_ }
    cases ok
    · exact .inl hborn
    · exact hborn
  · obtain rfl := Option.some.inj ht
    refine { hs with born := ?_ }
    cases ok
    · exact .inl hborn
    · exact hborn
  · cases ok with
    | false =>
      obtain rfl := Option.some.inj ht
      exact { hs with born := .inl hborn }
    | true =>
      obtain rfl := Option.some.inj ht
      have hne : s.sent ++ [.login] ≠ [] :=
        List.append_ne_nil_of_right_ne_nil _ (List.cons_ne_nil _ _)
      refine { hs with born := ⟨hborn.1, hborn.2.1, hne⟩, login := .inr ⟨0, ?_⟩, reason := ?_ }
      · rw [hborn.2.2]
        rfl
      · exact fun hstop => (hs.reason hstop).imp_right fun h => ⟨h.1, hne⟩
  · obtain rfl := Option.some.inj ht
    exact { hs with
      born := ⟨hborn.1, nofun, hborn.2.2⟩
      recv_stop := by rintro (h | h | h | h) <;> cases h }
  · obtain rfl := Option.some.inj ht
    exact { hs with
      born := ⟨nofun, hborn.2⟩
      send_stop := by rintro (h | h | h) <;> cases h
      send_closed := by rintro (h | h) <;> cases h
      messages_one := hs.messages_one.imp_right fun h => ⟨h.1, nofun⟩ }
  · split at ht
    · obtain rfl := Option.some.inj ht
      exact { hs with born := hborn }
    · cases ht
  · obtain rfl := Option.some.inj ht
    exact { hs with born := .inr hborn }
  · cases ht

/-- A thread of the connection that was started stays so. -/
theorem Born.congr (hs : s.Born) (hsocket : t.socket = s.socket)
    (hsend : t.send = .unborn ↔ s.send = .unborn) (hrecv : t.recv = .unborn ↔ s.recv = .unborn)
    (hsent : t.sent = [] ↔ s.sent = []) : t.Born := by
  unfold Born at hs ⊢
  rw [hsocket]
  cases h : s.socket <;> rw [h] at hs <;> simpa only [Ne, hsend, hrecv, hsent] using hs

theorem Born.sent_ne_nil (hs : s.Born) (h : s.send ≠ .unborn ∨ s.recv ≠ .unborn) :
    s.sent ≠ [] := by
  unfold Born at hs
  cases hpc : s.socket <;> rw [hpc] at hs
  case ended => exact hs.elim (fun hno => absurd h (by simp [hno.1, hno.2.1])) fun hyes => hyes.2.2
  case startRecv | startSend | joinSend | joinRecv => exact hs.2.2
  all_goals exact absurd h (by simp [hs.1, hs.2.1])

theorem Sound.moveSend (hs : s.Sound) {pc : SendPc} (hne : s.send ≠ .unborn) (hpc : pc ≠ .unborn)
    (hstop : pc = .shutdown ∨ pc = .close ∨ pc = .ended → s.stop = true)
    (hclosed : pc = .close ∨ pc = .ended → s.closed = true)
    (hlate : s.lateMessages = 0 ∨ s.lateMessages = 1 ∧ pc ≠ .send) :
    Sound { s with send := pc } :=
  { hs with
    born := hs.born.congr rfl (iff_of_false hpc hne) Iff.rfl Iff.rfl
    send_stop := hstop
    send_closed := hclosed
    messages_one := hlate }

/-- The rounds of `send_loop` between two tests of the event. -/
theorem Sound.againSend (hs : s.Sound) {pc : SendPc} (hne : s.send ≠ .unborn)
    (hpc : pc = .test ∨ pc = .wait ∨ pc = .send ∧ s.stop = false) :
    Sound { s with send := pc } := by
  refine hs.moveSend hne ?_ ?_ ?_ ?_
  · rcases hpc with rfl | rfl | ⟨rfl, -⟩ <;> nofun
  · rcases hpc with rfl | rfl | ⟨rfl, -⟩ <;> rintro (h | h | h) <;> cases h
  · rcases hpc with rfl | rfl | ⟨rfl, -⟩ <;> rintro (h | h) <;> cases h
  · rcases hpc with rfl | rfl | ⟨rfl, hstop⟩
    · exact hs.messages_one.imp_right fun h => ⟨h.1, nofun⟩
    · exact hs.messages_one.imp_right fun h => ⟨h.1, nofun⟩
    · exact .inl (hs.messages_none hstop)

/-- Behind the loop the event is set. -/
theorem Sound.leaveSend (hs : s.Sound) (hne : s.send ≠ .unborn) (hstop : s.stop = true) :
    Sound { s with send := .shutdown } :=
  hs.moveSend hne nofun (fun _ => hstop) (by rintro (h | h) <;> cases h)
    (hs.messages_one.imp_right fun h => ⟨h.1, nofun⟩)

/-- A thread of the connection finds that it is broken. -/
theorem Sound.failed (hs : s.Sound) (hborn : s.send ≠ .unborn ∨ s.recv ≠ .unborn)
    (h : (s.broken || s.closed) = true) : Sound { s with stop := true } := by
  have hreason : s.main ≠ .serving ∨ s.broken = true ∧ s.sent ≠ [] := by
    cases hbroken : s.broken with
    | true => exact .inr ⟨rfl, hs.born.sent_ne_nil hborn⟩
    | false =>
      rw [hbroken, Bool.false_or] at h
      have hreason := hs.reason (hs.closed_stop h)
      rwa [hbroken] at hreason
  exact { hs with
    reason := fun _ => hreason
    send_stop := fun _ => rfl
    recv_stop := fun _ => rfl
    closed_stop := fun _ => rfl
    lines_none := nofun
    messages_none := nofun }

theorem Sound.stepSend (hs : s.Sound) {target ok : Bool} (ht : s.stepSend target ok = some t) :
    t.Sound := by
  unfold Process.stepSend at ht
  split at ht <;> rename_i hpc
  · cases ht
  · obtain rfl := Option.some.inj ht
    split
    · rename_i hstop
      exact hs.leaveSend (hpc ▸ nofun) hstop
    · rename_i hstop
      exact hs.againSend (hpc ▸ nofun) (.inr (.inr ⟨rfl, (Bool.not_eq_true _).mp hstop⟩))
  · have hne : s.send ≠ .unborn := hpc ▸ nofun
    have hsent := hs.born.sent_ne_nil (.inl hne)
    split at ht
    · split at ht
      · split at ht
        · cases ht
        · -- the message is sent, at most once after the event was set
          obtain rfl := Option.some.inj ht
          have hzero := hs.messages_one.resolve_right fun h => h.2 hpc
          have hlong : s.sent ++ [.message] ≠ [] := List.append_ne_nil_of_left_ne_nil hsent _
          refine { hs with
            born := hs.born.congr rfl (iff_of_false nofun hne) Iff.rfl (iff_of_false hlong hsent)
            login := hs.login.concat hsent
            reason := fun hstop => (hs.reason hstop).imp_right fun h => ⟨h.1, hlong⟩
            send_stop := by rintro (h | h | h) <;> cases h
            send_closed := by rintro (h | h) <;> cases h
            messages_none := fun hstop => ?_
            messages_one := ?_ }
          · dsimp only at hstop ⊢
            rw [hstop, if_neg Bool.false_ne_true]
            exact hzero
          · dsimp only
            rw [hzero]
            split
            · exact .inr ⟨rfl, nofun⟩
            · exact .inl rfl
      · split at ht
        · rename_i hbroken
          obtain rfl := Option.some.inj ht
          exact (hs.failed (.inl hne) hbroken).leaveSend hne rfl
        · cases ht
    · obtain rfl := Option.some.inj ht
      exact hs.againSend hne (.inr (.inl rfl))
  · obtain rfl := Option.some.inj ht
    split
    · rename_i hstop
      exact hs.leaveSend (hpc ▸ nofun) hstop
    · exact hs.againSend (hpc ▸ nofun) (.inl rfl)
  · have hstop := hs.send_stop (.inl hpc)
    obtain rfl := Option.some.inj ht
    have hclosed : Sound { s with closed := true } :=
      { hs with send_closed := fun _ => rfl, closed_stop := fun _ => hstop }
    exact hclosed.moveSend (hpc ▸ nofun) nofun (fun _ => hstop) (fun _ => rfl)
      (hs.messages_one.imp_right fun h => ⟨h.1, nofun⟩)
  · obtain rfl := Option.some.inj ht
    exact hs.moveSend (hpc ▸ nofun) nofun (fun _ => hs.send_stop (.inr (.inl hpc)))
      (fun _ => hs.send_closed (.inl hpc)) (hs.messages_one.imp_right fun h => ⟨h.1, nofun⟩)
  · cases ht

theorem Sound.moveRecv (hs : s.Sound) {pc : RecvPc} (hne : s.recv ≠ .unborn) (hpc : pc ≠ .unborn)
    (hstop : pc = .test ∨ pc = .recv ∨ s.stop = true) : Sound { s with recv := pc } := by
  refine { hs with
    born := hs.born.congr rfl Iff.rfl (iff_of_false hpc hne) Iff.rfl
    recv_stop := fun h => ?_ }
  rcases hstop with rfl | rfl | hstop
  · rcases h with h | h | h | h <;> cases h
  · rcases h with h | h | h | h <;> cases h
  · exact hstop

theorem Sound.stepRecv (hs : s.Sound) {data : Bool} (ht : s.stepRecv data = some t) :
    t.Sound := by
  unfold Process.stepRecv at ht
  split at ht <;> rename_i hpc
  · cases ht
  · obtain rfl := Option.some.inj ht
    split
    · rename_i hstop
      exact hs.moveRecv (hpc ▸ nofun) nofun (.inr (.inr hstop))
    · exact hs.moveRecv (hpc ▸ nofun) nofun (.inr (.inl rfl))
  · have hne : s.recv ≠ .unborn := hpc ▸ nofun
    split at ht
    · obtain rfl := Option.some.inj ht
      exact hs.moveRecv hne nofun (.inl rfl)
    · split at ht
      · rename_i hbroken
        obtain rfl := Option.some.inj ht
        exact (hs.failed (.inr hne) hbroken).moveRecv hne nofun (.inr (.inr rfl))
      · cases ht
  · have hstop := hs.recv_stop (.inl hpc)
    obtain rfl := Option.some.inj ht
    rw [← hstop]
    exact hs.moveRecv (hpc ▸ nofun) nofun (.inr (.inr hstop))
  · have hstop := hs.recv_stop (.inr (.inl hpc))
    obtain rfl := Option.some.inj ht
    have hclosed : Sound { s with closed := true } :=
      { hs with send_closed := fun _ => rfl, closed_stop := fun _ => hstop }
    exact hclosed.moveRecv (hpc ▸ nofun) nofun (.inr (.inr hstop))
  · have hstop := hs.recv_stop (.inr (.inr (.inl hpc)))
    obtain rfl := Option.some.inj ht
    exact hs.moveRecv (hpc ▸ nofun) nofun (.inr (.inr hstop))
  · cases ht

theorem Sound.stepMain (hs : s.Sound) (ht : s.stepMain = some t) : t.Sound := by
  unfold Process.stepMain at ht
  split at ht
  · cases ht
  · obtain rfl := Option.some.inj ht
    exact { hs with
      reason := fun _ => .inl nofun
      send_stop := fun _ => rfl
      recv_stop := fun _ => rfl
      closed_stop := fun _ => rfl
      lines_none := nofun
      messages_none := nofun }
  · obtain rfl := Option.some.inj ht
    exact { hs with reason := fun _ => .inl nofun }
  · cases ht

theorem Sound.step (hs : s.Sound) {a : ProcessStep} (ht : s.step a = some t) : t.Sound := by
  unfold Process.step at ht
  split at ht
  · cases ht
  · cases a with
    | worker w writes fails => exact hs.stepWorker ht
    | socket ok => exact hs.stepSocket ht
    | send target ok => exact hs.stepSend ht
    | recv data => exact hs.stepRecv ht
    | main => exact hs.stepMain ht
    | interrupt =>
      dsimp only at ht
      split at ht
      · obtain rfl := Option.some.inj ht
        exact { hs with reason := fun _ => .inl nofun }
      · cases ht
    | breaks =>
      obtain rfl := Option.some.inj ht
      exact { hs with reason := fun h => (hs.reason h).imp_right fun h' => ⟨rfl, h'.2⟩ }

theorem sound_of_reachable (hs : process.Reachable s) : s.Sound := by
  refine hs.invariant Sound ?_ fun _ _ _ hs _ ht => hs.step ht
  rintro _ rfl
  exact sound_start

/-- **What the event is about.** The login is the first that is sent. The event is set after the
main thread has stopped to serve or after a connection with a login has broken, and by nothing
else, and the socket is shut down only then. At most one line and one message follow. -/
theorem shutdown_spec (hs : process.Reachable s) :
    LoginFirst s.sent ∧ (s.stop = true → s.main ≠ .serving ∨ s.broken = true ∧ s.sent ≠ []) ∧
      (s.closed = true → s.stop = true) ∧ s.lateLines ≤ 1 ∧ s.lateMessages ≤ 1 := by
  have hsound := sound_of_reachable hs
  refine ⟨hsound.login, hsound.reason, hsound.closed_stop, ?_, ?_⟩
  · rcases hsound.lines_one with h | h
    · exact h ▸ Nat.zero_le 1
    · exact Nat.le_of_eq h.1
  · rcases hsound.messages_one with h | h
    · exact h ▸ Nat.zero_le 1
    · exact Nat.le_of_eq h.1

/-- The relay goes away while the login is all that was sent. -/
theorem exists_broken : ∃ s, process.Reachable s ∧ s.stop = true ∧ s.main = .serving := by
  obtain ⟨s, hs, h⟩ := exists_reach_of_run process (fun _ _ => True) (s := .start) rfl
    [.socket true, .socket true, .socket true, .socket true, .recv true, .socket true, .breaks,
      .recv false] (fun s => s.stop && decide (s.main = .serving)) rfl
  obtain ⟨hstop, hmain⟩ := Bool.and_eq_true_iff.mp h
  exact ⟨s, hs, hstop, of_decide_eq_true hmain⟩

theorem shutdown_spec_witness :
    ∃ s, process.Reachable s ∧ s.main = .serving ∧ s.broken = true ∧ s.sent ≠ [] := by
  obtain ⟨s, hs, hstop, hmain⟩ := exists_broken
  exact ⟨s, hs, hmain, ((shutdown_spec hs).2.1 hstop).resolve_left fun h => h hmain⟩

/-! ### What follows the event -/

end Process

/-- The steps that a worker still takes. -/
def WorkerPc.left : WorkerPc → ℕ
  | .ended => 0
  | .test => 1
  | .body => 2

/-- Those of the threads that are still to be started are counted. -/
def SocketPc.left : SocketPc → ℕ
  | .ended => 0
  | .joinRecv => 1
  | .joinSend => 2
  | .startSend => 6
  | .startRecv => 11
  | .login => 12
  | .connect => 13
  | .create => 14

def SendPc.left : SendPc → ℕ
  | .unborn => 0
  | .ended => 0
  | .close => 1
  | .shutdown => 2
  | .test => 3
  | .wait => 3
  | .send => 4

def RecvPc.left : RecvPc → ℕ
  | .unborn => 0
  | .ended => 0
  | .close => 1
  | .shutdown => 2
  | .set => 3
  | .test => 4
  | .recv => 5

def MainPc.left : MainPc → ℕ
  | .serving => 0
  | .ended => 0
  | .join => 1
  | .set => 2

namespace Process

/-- The steps that are left when the event is set. -/
def left (s : Process) : ℕ :=
  (s.worker .uart).left + (s.worker .inference).left + (s.worker .imu).left + s.socket.left +
    s.send.left + s.recv.left + s.main.left

variable {s t : Process}

theorem left_stepWorker (hstop : s.stop = true) {w : Worker} {writes fails : Bool}
    (ht : s.stepWorker w writes fails = some t) : t.left < s.left ∧ t.stop = true := by
  have hless : ∀ {pc : WorkerPc} {n : ℕ}, pc.left < (s.worker w).left →
      left { s with worker := Function.update s.worker w pc, lateLines := n } < s.left := by
    intro pc n h
    unfold left
    cases w <;> simp only [Function.update_self, ne_eq, reduceCtorEq, not_false_eq_true,
      Function.update_of_ne] <;> omega
  unfold Process.stepWorker at ht
  split at ht <;> rename_i hpc
  · cases ht
  · obtain rfl := Option.some.inj ht
    refine ⟨hless ?_, hstop⟩
    rw [hpc, if_pos (.inl hstop)]
    exact Nat.zero_lt_one
  · obtain rfl := Option.some.inj ht
    refine ⟨hless ?_, hstop⟩
    rw [hpc]
    split
    · exact Nat.zero_lt_two
    · exact Nat.one_lt_two

theorem left_stepSocket (hstop : s.stop = true) {ok : Bool} (ht : s.stepSocket ok = some t) :
    t.left < s.left ∧ t.stop = true := by
  unfold Process.stepSocket at ht
  split at ht <;> rename_i hpc
  case h_8 => cases ht
  case h_3 | h_6 =>
    split at ht <;> cases ht
    all_goals
      refine ⟨?_, hstop⟩
      simp only [left, hpc, SocketPc.left]
      omega
  case h_1 | h_2 =>
    obtain rfl := Option.some.inj ht
    refine ⟨?_, hstop⟩
    simp only [left, hpc]
    split <;> simp only [SocketPc.left] <;> omega
  all_goals
    obtain rfl := Option.some.inj ht
    refine ⟨?_, hstop⟩
    simp only [left, hpc, SocketPc.left, SendPc.left, RecvPc.left]
    omega

theorem left_stepSend (hstop : s.stop = true) {target ok : Bool}
    (ht : s.stepSend target ok = some t) : t.left < s.left ∧ t.stop = true := by
  have hless : ∀ {pc : SendPc} {sent : List Text} {n : ℕ} {closed stop : Bool},
      pc.left < s.send.left → left { s with
        send := pc, sent := sent, lateMessages := n, closed := closed, stop := stop } < s.left := by
    intro pc sent n closed stop h
    simp only [left]
    omega
  unfold Process.stepSend at ht
  split at ht <;> rename_i hpc
  · cases ht
  · obtain rfl := Option.some.inj ht
    rw [if_pos hstop]
    exact ⟨hless (hpc ▸ by decide), hstop⟩
  · split at ht
    · split at ht
      · split at ht
        · cases ht
        · obtain rfl := Option.some.inj ht
          exact ⟨hless (hpc ▸ by decide), hstop⟩
      · split at ht
        · obtain rfl := Option.some.inj ht
          exact ⟨hless (hpc ▸ by decide), rfl⟩
        · cases ht
    · obtain rfl := Option.some.inj ht
      exact ⟨hless (hpc ▸ by decide), hstop⟩
  · obtain rfl := Option.some.inj ht
    rw [if_pos hstop]
    exact ⟨hless (hpc ▸ by decide), hstop⟩
  · obtain rfl := Option.some.inj ht
    exact ⟨hless (hpc ▸ by decide), hstop⟩
  · obtain rfl := Option.some.inj ht
    exact ⟨hless (hpc ▸ by decide), hstop⟩
  · cases ht

theorem left_stepRecv (hstop : s.stop = true) {data : Bool} (ht : s.stepRecv data = some t) :
    t.left < s.left ∧ t.stop = true := by
  have hless : ∀ {pc : RecvPc} {closed stop : Bool}, pc.left < s.recv.left →
      left { s with recv := pc, closed := closed, stop := stop } < s.left := by
    intro pc closed stop h
    simp only [left]
    omega
  unfold Process.stepRecv at ht
  split at ht <;> rename_i hpc
  · cases ht
  · obtain rfl := Option.some.inj ht
    rw [if_pos hstop]
    exact ⟨hless (hpc ▸ by decide), hstop⟩
  · split at ht
    · obtain rfl := Option.some.inj ht
      exact ⟨hless (hpc ▸ by decide), hstop⟩
    · split at ht
      · obtain rfl := Option.some.inj ht
        exact ⟨hless (hpc ▸ by decide), rfl⟩
      · cases ht
  · obtain rfl := Option.some.inj ht
    exact ⟨hless (hpc ▸ by decide), rfl⟩
  · obtain rfl := Option.some.inj ht
    exact ⟨hless (hpc ▸ by decide), hstop⟩
  · obtain rfl := Option.some.inj ht
    exact ⟨hless (hpc ▸ by decide), hstop⟩
  · cases ht

theorem left_stepMain (hstop : s.stop = true) (ht : s.stepMain = some t) :
    t.left < s.left ∧ t.stop = true := by
  unfold Process.stepMain at ht
  split at ht <;> rename_i hpc
  · cases ht
  · obtain rfl := Option.some.inj ht
    refine ⟨?_, rfl⟩
    simp only [left, hpc, MainPc.left]
    omega
  · obtain rfl := Option.some.inj ht
    refine ⟨?_, hstop⟩
    simp only [left, hpc, MainPc.left]
    omega
  · cases ht

/-- Once the event is set, it stays so, and every step of a thread is one less to take. -/
theorem left_step (hstop : s.stop = true) {a : ProcessStep} (ha : a.ofThread = true)
    (ht : s.step a = some t) : t.left < s.left ∧ t.stop = true := by
  unfold Process.step at ht
  split at ht
  · cases ht
  · cases a with
    | worker w writes fails => exact left_stepWorker hstop ht
    | socket ok => exact left_stepSocket hstop ht
    | send target ok => exact left_stepSend hstop ht
    | recv data => exact left_stepRecv hstop ht
    | main => exact left_stepMain hstop ht
    | interrupt => cases ha
    | breaks => cases ha

theorem Sound.left_le (hs : s.Sound) : s.left ≤ 22 := by
  have hworker : ∀ w, (s.worker w).left ≤ 2 := fun w => by cases s.worker w <;> decide
  have hsend : s.send.left ≤ 4 := by cases s.send <;> decide
  have hrecv : s.recv.left ≤ 5 := by cases s.recv <;> decide
  have hmain : s.main.left ≤ 2 := by cases s.main <;> decide
  have hconnection : s.socket.left + s.send.left + s.recv.left ≤ 14 := by
    have hborn := hs.born
    unfold Born at hborn
    cases hpc : s.socket <;> rw [hpc] at hborn
    case create | connect | login | startRecv =>
      rw [hborn.1, hborn.2.1]
      decide
    case startSend =>
      rw [hborn.1]
      simp only [SocketPc.left, SendPc.left]
      omega
    all_goals
      simp only [SocketPc.left]
      omega
  have huart := hworker .uart
  have hinference := hworker .inference
  have himu := hworker .imu
  unfold left
  omega

/-- Only an interrupt ends the serving. -/
theorem serving_step {a : ProcessStep} (ha : a.ofThread = true) (hmain : s.main = .serving)
    (ht : s.step a = some t) : t.main = .serving := by
  unfold Process.step at ht
  rw [hmain, if_neg nofun] at ht
  cases a with
  | worker w writes fails =>
    dsimp only at ht
    unfold Process.stepWorker at ht
    split at ht <;> cases ht <;> exact hmain
  | socket ok =>
    dsimp only at ht
    unfold Process.stepSocket at ht
    repeat' split at ht
    all_goals cases ht <;> exact hmain
  | send target ok =>
    dsimp only at ht
    unfold Process.stepSend at ht
    repeat' split at ht
    all_goals cases ht <;> exact hmain
  | recv data =>
    dsimp only at ht
    unfold Process.stepRecv at ht
    repeat' split at ht
    all_goals cases ht <;> exact hmain
  | main =>
    dsimp only at ht
    rw [Process.stepMain, hmain] at ht
    cases ht
  | interrupt => cases ha
  | breaks => cases ha

/-- A worker, or the main thread, that can go no further is through. -/
theorem ended_of_stepWorker {w : Worker} (h : s.stepWorker w false false = none) :
    s.worker w = .ended := by
  unfold Process.stepWorker at h
  split at h
  · assumption
  · cases h
  · cases h

theorem serving_of_stepMain (hmain : s.main ≠ .ended) (h : s.stepMain = none) :
    s.main = .serving := by
  unfold Process.stepMain at h
  split at h
  · assumption
  · cases h
  · cases h
  · rename_i hended
    exact absurd hended hmain

theorem ended_of_stepSocket (h : s.stepSocket true = none) :
    s.socket = .ended ∨ s.socket = .joinSend ∧ s.send ≠ .ended := by
  unfold Process.stepSocket at h
  split at h
  case h_8 => exact .inl ‹_›
  case h_6 hpc =>
    split at h
    · cases h
    · exact .inr ⟨hpc, ‹_›⟩
  all_goals cases h

theorem ended_of_stepSend (h : s.stepSend false false = none) :
    s.send = .unborn ∨ s.send = .ended := by
  unfold Process.stepSend at h
  split at h
  · exact .inl ‹_›
  · cases h
  · cases h
  · cases h
  · cases h
  · cases h
  · exact .inr ‹_›

/-- `recv` waits for a connection that is neither broken nor shut down. -/
theorem ended_of_stepRecv (h : s.stepRecv false = none) :
    s.recv = .unborn ∨ s.recv = .ended ∨ s.closed = false := by
  unfold Process.stepRecv at h
  split at h
  · exact .inl ‹_›
  · cases h
  · rw [if_neg Bool.false_ne_true] at h
    split at h
    · cases h
    · rename_i hopen
      exact .inr (.inr (Bool.or_eq_false_iff.mp ((Bool.not_eq_true _).mp hopen)).2)
  · cases h
  · cases h
  · cases h
  · exact .inr (.inl ‹_›)

/-- Where no thread can go on by itself, the process is quiet. -/
theorem Sound.quiet (hs : s.Sound) (hmain : s.main ≠ .ended)
    (hstuck : ∀ a : ProcessStep, a.unaided = true → s.step a = none) : s.Quiet := by
  simp only [Process.step, if_neg hmain] at hstuck
  have hborn := hs.born
  unfold Born at hborn
  have hsocket : s.socket = .ended := by
    refine (ended_of_stepSocket (hstuck (.socket true) rfl)).resolve_right fun h => ?_
    rw [h.1] at hborn
    exact (ended_of_stepSend (hstuck (.send false false) rfl)).elim hborn.1 h.2
  rw [hsocket] at hborn
  refine ⟨fun w => ended_of_stepWorker (hstuck (.worker w false false) rfl), hsocket, ?_,
    serving_of_stepMain hmain (hstuck .main rfl)⟩
  rcases hborn with ⟨hsend, hrecv, -⟩ | ⟨hsend, hrecv, -⟩
  · exact .inl ⟨hsend, hrecv⟩
  · have hended := (ended_of_stepSend (hstuck (.send false false) rfl)).resolve_left hsend
    have hclosed := hs.send_closed (.inr hended)
    refine .inr ⟨hended, ?_, hclosed⟩
    rcases ended_of_stepRecv (hstuck (.recv false) rfl) with h | h | h
    · exact absurd h hrecv
    · exact h
    · exact absurd (h.symm.trans hclosed) Bool.false_ne_true

theorem ofThread_of_unaided {a : ProcessStep} (h : a.unaided = true) : a.ofThread = true := by
  cases a with
  | recv data => rfl
  | interrupt | breaks => cases h
  | worker _ _ _ | socket _ | send _ _ | main => rfl

/-- **The process becomes quiet.** Once the event is set, no run of the threads takes more than
twenty-two steps, one that can go on only with help from outside has come to its end, and there is
such a run. The main thread goes on serving unless it was interrupted. -/
theorem shutdown_ends (hs : process.Reachable s) (hstop : s.stop = true) :
    (∀ as t, process.run (fun _ a => a.ofThread = true) s as = some t →
      as.length ≤ 22 ∧ (s.main = .serving → t.main = .serving) ∧
        ((∀ a : ProcessStep, a.unaided = true → t.step a = none) → t.main = .ended ∨ t.Quiet)) ∧
      ∃ as t, process.run (fun _ a => a.ofThread = true) s as = some t ∧
        (t.main = .ended ∨ t.Quiet) := by
  have hsound := sound_of_reachable hs
  have hstep : ∀ (s : Process) (a : ProcessStep) (t : Process), s.Sound ∧ s.stop = true →
      a.ofThread = true → process.step s a = some t → t.Sound ∧ t.stop = true :=
    fun _ _ _ hs ha ht => ⟨hs.1.step ht, (left_step hs.2 ha ht).2⟩
  have hless : ∀ (s : Process) (a : ProcessStep) (t : Process), s.Sound ∧ s.stop = true →
      a.ofThread = true → process.step s a = some t → t.left < s.left :=
    fun _ _ _ hs ha ht => (left_step hs.2 ha ht).1
  have hquiet : ∀ t : Process, t.Sound →
      (∀ a : ProcessStep, a.unaided = true → t.step a = none) → t.main = .ended ∨ t.Quiet :=
    fun t ht hstuck => or_iff_not_imp_left.mpr fun hmain => ht.quiet hmain hstuck
  refine ⟨fun as t hrun => ?_, ?_⟩
  · have hlength := length_run_le (fun s : Process => s.Sound ∧ s.stop = true) hstep left hless
      ⟨hsound, hstop⟩ hrun
    have ht := run_invariant (fun s : Process => s.Sound ∧ s.stop = true) hstep ⟨hsound, hstop⟩ hrun
    have hserving : s.main = .serving → t.main = .serving := fun hmain =>
      run_invariant (fun s : Process => s.main = .serving)
        (fun _ _ _ hmain ha ht => serving_step ha hmain ht) hmain hrun
    exact ⟨Nat.le_trans (Nat.le_of_add_right_le hlength) hsound.left_le, hserving, hquiet t ht.1⟩
  · refine exists_run_of_progress (fun s : Process => s.Sound ∧ s.stop = true) _ hstep left hless
      (fun s hs hgoal => ?_) ⟨hsound, hstop⟩
    by_contra hnone
    refine hgoal (hquiet s hs.1 fun a ha => Option.eq_none_iff_forall_ne_some.mpr fun t ht => ?_)
    exact hnone ⟨a, t, ofThread_of_unaided ha, ht⟩

theorem shutdown_ends_witness : ∃ s, process.Reachable s ∧ s.stop = true ∧
    ∃ as t, process.run (fun _ a => a.ofThread = true) s as = some t ∧ t.Quiet := by
  obtain ⟨s, hs, hstop, hmain⟩ := exists_broken
  obtain ⟨hruns, as, t, hrun, hend⟩ := shutdown_ends hs hstop
  have hserving := (hruns as t hrun).2.1 hmain
  refine ⟨s, hs, hstop, as, t, hrun, hend.resolve_left fun hended => ?_⟩
  exact absurd (hserving.symm.trans hended) nofun

end Process

end Vision

end DroneTurret
