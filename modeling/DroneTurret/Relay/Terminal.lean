import DroneTurret.Lib.Chunks
import DroneTurret.Lib.Transition
import DroneTurret.Relay.Connection
import DroneTurret.Relay.Segmentation
import Mathlib.Algebra.Ring.Nat

/-!
# What is typed at a client

`iot_client` and `db_client` have the same `send_msg`: when `select` finds the terminal readable,
one `fgets` takes a line of it, `[ALLMSG]` is put in front unless the line begins with a bracket,
and the text is written in one piece. They differ at the end of the input, which `iot_client` takes
for an empty line.

A line passes two bounds. `fgets` takes at most 99 bytes of a longer one and leaves the rest in the
buffer of `stdin`, where `select` does not see it; it is sent when something else is typed, and as
a line of its own. And the server reads at most 99 bytes at a time, which counts the prefix.

A line is terminated and comes from the terminal as a whole, and writes to the socket are complete.
What is written reaches the server in reads of any lengths, with no regard to the texts.

## Main definitions

* `Terminal` — the loop of `send_msg`, with what is typed
* `Typed` — a message as it is typed, with or without its destination

## Main results

* `Typed.whole_of_closings` — no line was too long if enough newlines follow a word
* `typed_delivered_iff` — when all that is typed is delivered
-/

namespace DroneTurret

namespace Relay

open CString Tokens Transition

/-! ### The loop of `send_msg` -/

/-- The program at the terminal. -/
inductive Client
  | iotClient
  | dbClient
  deriving DecidableEq

/-- `NAME_SIZE`. -/
def nameSize : ℕ := 20

/-- Bytes for `stdio` are enough for `fgets` up to `n` bytes. -/
def enough (n : ℕ) (buf : List Byte) : Bool := buf.contains newline || n ≤ buf.length

/-- The buffer of `stdin` after the reads of `fgets`, whether the end of the input was met, and what
is left at the terminal. `none` while `fgets` waits. -/
def fill (n : ℕ) (buf : List Byte) :
    List (List Byte) → Option (List Byte × Bool × List (List Byte))
  | [] => if enough n buf then some (buf, false, []) else none
  | l :: tty =>
    if enough n buf then some (buf, false, l :: tty)
    else if l = [] then some (buf, true, tty)
    else fill n (buf ++ l) tty

/-- What `fgets` takes of the buffer. -/
def takeLine (n : ℕ) (buf : List Byte) : ℕ := min n (buf.findIdx (· == newline) + 1)

namespace Client

/-- What `strcat`, or `strncpy` and `strncat`, put together. -/
def outgoing : Client → List Byte → List Byte
  | .iotClient, msg => if msg.head? = some '['.toUInt8 then msg else bytes "[ALLMSG]" ++ msg
  | .dbClient, msg =>
    if msg.head? = some '['.toUInt8 then msg.take (nameSize + bufSize + 2 - 1)
    else bytes "[ALLMSG]" ++ msg.take (nameSize + bufSize + 2 - (bytes "[ALLMSG]").length - 1)

end Client

/-- The loop of `send_msg` and the terminal. -/
structure Terminal where
  /-- What the terminal has for `read`; an empty line is the end of the input. -/
  tty : List (List Byte)
  /-- What `stdio` has read of it and `fgets` has not taken. -/
  stdin : List Byte
  eof : Bool
  /-- `*sock` is not -1. -/
  connected : Bool
  running : Bool
  /-- The texts that were written. -/
  sent : List (List Byte)
  /-- All that was typed. -/
  typed : List (List Byte)
  deriving DecidableEq

def Terminal.start : Terminal := ⟨[], [], false, true, true, [], []⟩

inductive TerminalStep
  | type (l : List Byte)
  /-- `select` finds the terminal readable; the result of `write`, if there is one. -/
  | ready (written : Bool)
  | timeout
  /-- `recv_msg` sees the end of the connection. -/
  | lost

namespace Terminal

variable (client : Client) (s : Terminal)

def leave : Terminal := { s with connected := false, running := false }

/-- A round, from what `fgets` has stored in `msg`; `none` at the end of the input. -/
def round (line : Option (List Byte)) (written : Bool) : Terminal :=
  if client = .dbClient ∧ line = none then s.leave
  else
    let msg := cString (line.getD [])
    if msg.take 5 = bytes "quit\n" then s.leave
    else if s.connected && written then { s with sent := s.sent ++ [client.outgoing msg] }
    else s.leave

/-- `fgets(msg, BUF_SIZE, stdin)` and the round after it. Behind the end of the input, which leaves
the buffer empty, nothing is read. -/
def select (written : Bool) : Option Terminal :=
  if s.eof then some (s.round client none written)
  else
    (fill (bufSize - 1) s.stdin s.tty).map fun r =>
      let n := takeLine (bufSize - 1) r.1
      let line := if r.1 = [] then none else some (r.1.take n)
      Terminal.round client { s with stdin := r.1.drop n, eof := r.2.1, tty := r.2.2 } line written

def step : TerminalStep → Option Terminal
  | .type l => some { s with tty := s.tty ++ [l], typed := s.typed ++ [l] }
  | .ready written => if s.running && !s.tty.isEmpty then s.select client written else none
  | .timeout => if s.running && s.tty.isEmpty then some { s with running := s.connected } else none
  | .lost => some { s with connected := false }

end Terminal

def terminal (client : Client) : Transition Terminal TerminalStep :=
  ⟨(· = .start), Terminal.step client⟩

/-! ### Lines -/

/-- A line with its newline. -/
def IsLine (l : List Byte) : Prop := ∃ body, l = body ++ [newline] ∧ newline ∉ body

theorem IsLine.ne_nil {l : List Byte} (h : IsLine l) : l ≠ [] := by
  obtain ⟨body, rfl, -⟩ := h
  exact List.append_ne_nil_of_right_ne_nil _ (List.cons_ne_nil _ _)

theorem IsLine.enough {l : List Byte} (h : IsLine l) (n : ℕ) : enough n l = true := by
  obtain ⟨body, rfl, -⟩ := h
  rw [Relay.enough, List.contains_iff_mem.mpr (List.mem_append_right _ (List.mem_singleton_self _))]
  rfl

/-- `fgets` takes as much of a line as it can. -/
theorem IsLine.takeLine {l : List Byte} (h : IsLine l) (n : ℕ) : takeLine n l = min n l.length := by
  obtain ⟨body, rfl, hbody⟩ := h
  have hidx : (body ++ [newline]).findIdx (· == newline) = body.length := by
    rw [List.findIdx_append, if_neg, List.findIdx_singleton, if_pos (beq_self_eq_true _),
      Nat.zero_add]
    have hnone : body.findIdx (· == newline) = body.length :=
      List.findIdx_eq_length_of_false fun b hb => beq_false_of_ne (ne_of_mem_of_not_mem hb hbody)
    rw [hnone]
    exact Nat.lt_irrefl _
  rw [Relay.takeLine, hidx, List.length_append, List.length_singleton]

theorem IsLine.drop {l : List Byte} (h : IsLine l) {n : ℕ} (hn : l.drop n ≠ []) :
    IsLine (l.drop n) := by
  obtain ⟨body, rfl, hbody⟩ := h
  have hle : n ≤ body.length := by
    rw [Ne, List.drop_eq_nil_iff, List.length_append, List.length_singleton] at hn
    omega
  rw [List.drop_append_of_le_length hle]
  exact ⟨body.drop n, rfl, fun hmem => hbody (List.mem_of_mem_drop hmem)⟩

/-- The lines that `fgets` makes of one that is typed. -/
def pieces (l : List Byte) : List (List Byte) := chunks (bufSize - 1) l

/-! ### All that is typed is sent or waits -/

namespace Terminal

variable {client : Client} {s t : Terminal}

/-- What is not sent yet is a part of a line that is too long, or at the terminal. -/
structure Waiting (client : Client) (s : Terminal) : Prop where
  open_input : s.eof = false
  line : s.stdin ≠ [] → IsLine s.stdin
  long : s.stdin ≠ [] → ∃ l ∈ s.typed, bufSize - 1 < l.length
  lines : ∀ l ∈ s.tty, IsLine l
  tty : ∀ l ∈ s.tty, l ∈ s.typed
  sent : s.sent ++ (pieces s.stdin ++ s.tty.flatMap pieces).map (client.outgoing ∘ cString) =
    (s.typed.flatMap pieces).map (client.outgoing ∘ cString)

theorem waiting_start : Waiting client .start where
  open_input := rfl
  line h := absurd rfl h
  long h := absurd rfl h
  lines := List.forall_mem_nil _
  tty := List.forall_mem_nil _
  sent := rfl

theorem fill_of_enough {n : ℕ} {buf : List Byte} (h : enough n buf = true)
    (tty : List (List Byte)) : fill n buf tty = some (buf, false, tty) := by
  cases tty <;> rw [fill, if_pos h]

/-- `fgets` takes the first piece of what waits. -/
theorem Waiting.fill (hs : Waiting client s) (htty : s.tty ≠ []) :
    ∃ buf tty, Relay.fill (bufSize - 1) s.stdin s.tty = some (buf, false, tty) ∧ IsLine buf ∧
      pieces s.stdin ++ s.tty.flatMap pieces = pieces buf ++ tty.flatMap pieces ∧
      (∀ l ∈ tty, l ∈ s.tty) ∧
      (bufSize - 1 < buf.length → ∃ l ∈ s.typed, bufSize - 1 < l.length) := by
  by_cases hstdin : s.stdin = []
  · obtain ⟨l, tty, hcons⟩ := List.exists_cons_of_ne_nil htty
    have hmem : l ∈ s.tty := hcons ▸ List.mem_cons_self ..
    have hl := hs.lines l hmem
    refine ⟨l, tty, ?_, hl, ?_, fun l' hl' => hcons ▸ List.mem_cons_of_mem _ hl',
      fun hlong => ⟨l, hs.tty l hmem, hlong⟩⟩
    · rw [hstdin, hcons, Relay.fill, if_neg (by decide), if_neg hl.ne_nil, List.nil_append,
        fill_of_enough (hl.enough _)]
    · rw [hstdin, hcons, List.flatMap_cons]
      rfl
  · have hline := hs.line hstdin
    exact ⟨s.stdin, s.tty, fill_of_enough (hline.enough _) s.tty, hline, rfl, fun _ => id,
      fun _ => hs.long hstdin⟩

theorem round_running {line : Option (List Byte)} {written : Bool}
    (h : (s.round client line written).running = true) :
    s.round client line written =
      { s with sent := s.sent ++ [client.outgoing (cString (line.getD []))] } := by
  unfold round at h ⊢
  split at h
  · cases h
  · rename_i hnone
    rw [if_neg hnone]
    dsimp only at h ⊢
    split at h
    · cases h
    · rename_i hquit
      rw [if_neg hquit]
      split at h
      · rename_i hsent
        rw [if_pos hsent]
      · cases h

theorem typed_round (line : Option (List Byte)) (written : Bool) :
    (s.round client line written).typed = s.typed := by
  unfold round
  split
  · rfl
  · dsimp only
    split
    · rfl
    · split <;> rfl

theorem typed_select {written : Bool} (ht : s.select client written = some t) :
    t.typed = s.typed := by
  rw [Terminal.select] at ht
  split at ht
  · obtain rfl := Option.some.inj ht
    exact typed_round _ _
  · obtain ⟨r, -, rfl⟩ := Option.map_eq_some_iff.mp ht
    exact typed_round _ _

theorem Waiting.select (hs : Waiting client s) (htty : s.tty ≠ []) {written : Bool}
    (ht : s.select client written = some t) (hrun : t.running = true) : Waiting client t := by
  obtain ⟨buf, tty, hfill, hbuf, hpieces, hmem, hlong⟩ := hs.fill htty
  rw [Terminal.select, hs.open_input, if_neg Bool.false_ne_true, hfill, Option.map_some,
    Option.some.injEq] at ht
  dsimp only at ht
  rw [if_neg hbuf.ne_nil] at ht
  rw [← ht] at hrun
  rw [round_running hrun, Option.getD_some, hbuf.takeLine] at ht
  have hcut : pieces buf = buf.take (bufSize - 1) :: pieces (buf.drop (bufSize - 1)) :=
    chunks_eq_cons (by decide) hbuf.ne_nil
  have htake : buf.take (min (bufSize - 1) buf.length) = buf.take (bufSize - 1) := by
    rw [← List.take_eq_take_min]
  have hdrop : buf.drop (min (bufSize - 1) buf.length) = buf.drop (bufSize - 1) := by
    rcases Nat.le_total (bufSize - 1) buf.length with h | h
    · rw [Nat.min_eq_left h]
    · rw [Nat.min_eq_right h, List.drop_length, List.drop_eq_nil_iff.mpr h]
  rw [htake, hdrop] at ht
  subst ht
  refine ⟨rfl, hbuf.drop, fun hne => hlong ?_, fun l hl => hs.lines l (hmem l hl),
    fun l hl => hs.tty l (hmem l hl), ?_⟩
  · exact Nat.lt_of_not_le fun hle => hne (List.drop_eq_nil_iff.mpr hle)
  · rw [← hs.sent, hpieces, hcut, List.append_assoc]
    rfl

/-- The invariant of a loop that still runs. -/
theorem waiting_of_reachable (hs : (terminal client).Reachable s) :
    s.running = true → (∀ l ∈ s.typed, IsLine l) → Waiting client s := by
  refine hs.invariant (fun s => s.running = true → (∀ l ∈ s.typed, IsLine l) → Waiting client s)
    ?_ ?_
  · rintro _ rfl _ _
    exact waiting_start
  · intro s a t hinv _ ht hrun htyped
    cases a with
    | type l =>
      obtain rfl := Option.some.inj ht
      have hl : IsLine l := htyped l (List.mem_append_right _ (List.mem_singleton_self l))
      have hs := hinv hrun fun l' hl' => htyped l' (List.mem_append_left _ hl')
      refine ⟨hs.open_input, hs.line, fun hne => ?_, fun l' hl' => ?_, fun l' hl' => ?_, ?_⟩
      · obtain ⟨l', hl', hlong⟩ := hs.long hne
        exact ⟨l', List.mem_append_left _ hl', hlong⟩
      · rcases List.mem_append.mp hl' with h | h
        · exact hs.lines l' h
        · exact List.mem_singleton.mp h ▸ hl
      · rcases List.mem_append.mp hl' with h | h
        · exact List.mem_append_left _ (hs.tty l' h)
        · exact List.mem_append_right _ h
      · dsimp only
        rw [List.flatMap_append, ← List.append_assoc, List.map_append, ← List.append_assoc, hs.sent,
          List.flatMap_append, List.map_append]
    | ready written =>
      change (if _ then s.select client written else none) = some t at ht
      split at ht
      · rename_i hready
        obtain ⟨hrunning, hne⟩ := Bool.and_eq_true_iff.mp hready
        rw [typed_select ht] at htyped
        refine (hinv hrunning htyped).select (fun hnil => ?_) ht hrun
        rw [hnil] at hne
        cases hne
      · cases ht
    | timeout =>
      change (if _ then some { s with running := s.connected } else none) = some t at ht
      split at ht
      · rename_i hready
        obtain rfl := Option.some.inj ht
        have hs := hinv (Bool.and_eq_true_iff.mp hready).1 htyped
        exact ⟨hs.open_input, hs.line, hs.long, hs.lines, hs.tty, hs.sent⟩
      · cases ht
    | lost =>
      obtain rfl := Option.some.inj ht
      have hs := hinv hrun htyped
      exact ⟨hs.open_input, hs.line, hs.long, hs.lines, hs.tty, hs.sent⟩

end Terminal

/-! ### Messages that are typed -/

/-- A message at the terminal. Without a destination it goes to all. -/
structure Typed where
  msg : Message
  addressed : Bool
  one_line : newline ∉ msg.body
  broadcast : addressed = false → msg.dest = allmsg

namespace Typed

variable (e : Typed)

def line : List Byte := if e.addressed then e.msg.frame else e.msg.body ++ [newline]

/-- `fgets` takes the line at once. -/
def Whole : Prop := e.line.length ≤ bufSize - 1

instance : Decidable e.Whole := inferInstanceAs (Decidable (_ ≤ _))

theorem isLine_line : IsLine e.line := by
  rw [line]
  split
  · refine ⟨bytes "[" ++ (e.msg.dest ++ bytes "]" ++ e.msg.body), ?_, fun hmem => ?_⟩
    · rw [Message.frame]
      simp only [List.append_assoc]
    · simp only [List.mem_append] at hmem
      rcases hmem with h | (h | h) | h
      · exact absurd h (by decide)
      · exact (e.msg.dest_plain newline h).2.2 rfl
      · exact absurd h (by decide)
      · exact e.one_line h
  · exact ⟨e.msg.body, rfl, e.one_line⟩

/-- What is written, with the prefix if there is one. -/
theorem frame_eq : e.msg.frame = if e.addressed then e.line else bytes "[ALLMSG]" ++ e.line := by
  rw [line]
  cases h : e.addressed with
  | true => rfl
  | false =>
    have hopening : bytes "[" ++ (allmsg ++ bytes "]") = bytes "[ALLMSG]" := rfl
    rw [if_neg Bool.false_ne_true, if_neg Bool.false_ne_true, Message.frame, e.broadcast h,
      ← List.append_assoc, hopening]

theorem length_line_le : e.line.length ≤ e.msg.frame.length := by
  rw [frame_eq]
  split
  · exact Nat.le_refl _
  · rw [List.length_append]
    exact Nat.le_add_left _ _

theorem zero_notMem_line : 0 ∉ e.line := by
  have h := e.msg.zero_notMem_frame
  rw [frame_eq] at h
  split at h
  · exact h
  · exact fun hmem => h (List.mem_append_right _ hmem)

theorem head?_line : e.line.head? = some '['.toUInt8 ↔ e.addressed = true := by
  rw [line]
  cases e.addressed with
  | true => exact iff_of_true rfl rfl
  | false =>
    refine iff_of_false (fun hhead => ?_) Bool.false_ne_true
    rw [if_neg Bool.false_ne_true, List.head?_append_of_ne_nil _ e.msg.body_ne] at hhead
    exact absurd (e.msg.body_plain _ (List.mem_of_head? hhead)).1 (by decide)

/-- A line that `fgets` takes at once is written as its message. -/
theorem outgoing_line (client : Client) (h : e.Whole) :
    client.outgoing (cString e.line) = e.msg.frame := by
  rw [cString_of_not_mem e.zero_notMem_line, frame_eq]
  have hbound : e.line.length ≤ 99 := h
  cases client with
  | iotClient => simp only [Client.outgoing, e.head?_line]
  | dbClient =>
    simp only [Client.outgoing, e.head?_line]
    rw [List.take_of_length_le (Nat.le_trans hbound (by decide)),
      List.take_of_length_le (Nat.le_trans hbound (by decide))]

end Typed

/-- Whatever is sent begins with a bracket. -/
theorem Client.head?_outgoing (client : Client) (msg : List Byte) :
    (client.outgoing msg).head? = some '['.toUInt8 := by
  cases client <;> rw [Client.outgoing] <;> split
  · assumption
  · rfl
  · rename_i h
    cases msg with
    | nil => cases h
    | cons b msg => exact h
  · rfl

/-- Nothing but the prefix is added. -/
theorem Client.mem_outgoing (client : Client) {msg : List Byte} {b : Byte}
    (h : b ∈ client.outgoing msg) : b ∈ msg ∨ b ∈ bytes "[ALLMSG]" := by
  cases client <;> rw [Client.outgoing] at h <;> split at h
  · exact .inl h
  · exact (List.mem_append.mp h).symm
  · exact .inl (List.mem_of_mem_take h)
  · exact (List.mem_append.mp h).symm.imp_left List.mem_of_mem_take

/-! ### Newlines behind a word

What is delivered ends in a newline that follows another byte of its token. Each line has one
newline, and where it is all that is left for the last piece it follows the bracket of the prefix.
So there are as many newlines behind a word as messages only if no line ends so. -/

/-- The newlines that follow a byte of a word. -/
def closings : List Byte → ℕ
  | [] => 0
  | [_] => 0
  | a :: b :: w => (if isDelim a = false ∧ b = newline then 1 else 0) + closings (b :: w)

theorem closings_le_count : ∀ w, closings w ≤ w.tail.count newline
  | [] => Nat.le_refl _
  | [_] => Nat.zero_le _
  | a :: b :: w => by
    have ih := closings_le_count (b :: w)
    rw [List.tail_cons] at ih
    rw [closings, List.tail_cons, List.count_cons, Nat.add_comm]
    refine Nat.add_le_add ih ?_
    split_ifs with h hne
    · exact Nat.le_refl _
    · exact absurd (beq_iff_eq.mpr h.2) hne
    · exact Nat.zero_le _
    · exact Nat.le_refl _

theorem closings_append_le (v : List Byte) : ∀ u, closings u + closings v ≤ closings (u ++ v)
  | [] => by rw [closings, Nat.zero_add, List.nil_append]
  | [a] => by
    cases v with
    | nil => exact Nat.le_refl _
    | cons b v =>
      rw [closings, Nat.zero_add, List.singleton_append, closings]
      exact Nat.le_add_left _ _
  | a :: b :: u => by
    have ih := closings_append_le v (b :: u)
    rw [List.cons_append, List.cons_append, closings, closings]
    rw [List.cons_append] at ih
    omega

/-- Nothing is gained where the second part begins with something else. -/
theorem closings_append {v : List Byte} (hv : ∀ b ∈ v.head?, b ≠ newline) :
    ∀ u, closings (u ++ v) = closings u + closings v
  | [] => by rw [List.nil_append, closings, Nat.zero_add]
  | [a] => by
    cases v with
    | nil => rfl
    | cons b v =>
      rw [List.singleton_append, closings, closings, if_neg fun h => hv b rfl h.2]
  | a :: b :: u => by
    have ih := closings_append hv (b :: u)
    rw [List.cons_append] at ih
    rw [List.cons_append, List.cons_append, closings, closings, ih, Nat.add_assoc]

theorem closings_mono {u w : List Byte} (h : u <:+: w) : closings u ≤ closings w := by
  obtain ⟨x, y, rfl⟩ := h
  have hleft := closings_append_le u x
  have hright := closings_append_le y (x ++ u)
  omega

theorem sum_closings_le : ∀ rds : List (List Byte),
    (rds.map closings).sum ≤ closings rds.flatten
  | [] => Nat.le_refl _
  | rd :: rds => by
    have ih := sum_closings_le rds
    have happend := closings_append_le rds.flatten rd
    rw [List.map_cons, List.sum_cons, List.flatten_cons]
    omega

/-- Texts that begin with a bracket. -/
theorem closings_flatten : ∀ {texts : List (List Byte)},
    (∀ t ∈ texts, t.head? = some '['.toUInt8) →
      closings texts.flatten = (texts.map closings).sum
  | [], _ => rfl
  | t :: texts, h => by
    obtain ⟨-, htexts⟩ := List.forall_mem_cons.mp h
    have hhead : ∀ b ∈ texts.flatten.head?, b ≠ newline := by
      intro b hb
      cases texts with
      | nil => cases hb
      | cons t' texts =>
        obtain ⟨ht', -⟩ := List.forall_mem_cons.mp htexts
        have hne : t' ≠ [] := by
          rintro rfl
          cases ht'
        rw [List.flatten_cons, List.head?_append_of_ne_nil _ hne, ht', Option.mem_some] at hb
        exact hb ▸ by decide
    rw [List.flatten_cons, closings_append hhead, closings_flatten htexts, List.map_cons,
      List.sum_cons]

/-- A read that delivers a message has a newline behind a word, -/
theorem closings_pos {m : Message} {rd : List Byte} {rest : List (List Byte)}
    (h : tokens isDelim rd = m.dest :: (m.body ++ [newline]) :: rest) : 1 ≤ closings rd := by
  have hmem : m.body ++ [newline] ∈ tokens isDelim rd :=
    h ▸ List.mem_cons_of_mem _ (List.mem_cons_self ..)
  refine Nat.le_trans ?_ (closings_mono (infix_of_mem_tokens hmem))
  have hlast : m.body ++ [newline] =
      m.body.dropLast ++ [m.body.getLast m.body_ne, newline] := by
    rw [List.append_cons m.body.dropLast, List.dropLast_append_getLast]
  rw [hlast]
  refine Nat.le_trans (Nat.le_of_eq ?_) (closings_mono (List.suffix_append _ _).isInfix)
  rw [closings, if_pos ⟨(m.body_plain _ (List.getLast_mem m.body_ne)).1, rfl⟩]
  rfl

/-- and a delimiter between its tokens. -/
theorem length_of_tokens {m : Message} {rd : List Byte} {rest : List (List Byte)}
    (h : tokens isDelim rd = m.dest :: (m.body ++ [newline]) :: rest) :
    m.frame.length ≤ rd.length + 1 := by
  have htext := (Message.text_prefix h).length_le
  rw [m.text_frame, List.length_append, List.length_append, List.length_singleton] at htext
  have hdelim : ∃ b ∈ rd, ¬(!isDelim b) = true := by
    by_contra hall
    push Not at hall
    have hword : ∀ b ∈ rd, isDelim b = false := fun b hb => by simpa using hall b hb
    have hne : rd ≠ [] := by
      rintro rfl
      rw [tokens_nil] at h
      cases h
    rw [tokens_of_word hne hword] at h
    cases h
  have hlt := List.length_filter_lt_length_iff_exists.mpr hdelim
  have hframe : m.frame.length = m.dest.length + m.body.length + 3 := by
    simp only [Message.frame, List.length_append, List.length_singleton]
    change 1 + (m.dest.length + 1 + (m.body.length + 1)) = _
    omega
  rw [text] at htext
  omega

theorem length_le_closings {ms : List Message} {rds : List (List Byte)}
    (h : List.Forall₂ (fun m rd => ∃ rest,
      tokens isDelim rd = m.dest :: (m.body ++ [newline]) :: rest) ms rds) :
    ms.length ≤ (rds.map closings).sum := by
  induction h with
  | nil => exact Nat.le_refl _
  | cons hrd _ ih =>
    obtain ⟨rest, hrest⟩ := hrd
    have hpos := closings_pos hrest
    rw [List.length_cons, List.map_cons, List.sum_cons]
    omega

theorem length_le_of_delivered {ms : List Message} {rds : List (List Byte)} {n : ℕ}
    (h : List.Forall₂ (fun m rd => ∃ rest,
      tokens isDelim rd = m.dest :: (m.body ++ [newline]) :: rest) ms rds)
    (hrds : ∀ rd ∈ rds, rd.length ≤ n) : ∀ m ∈ ms, m.frame.length ≤ n + 1 := by
  induction h with
  | nil => exact List.forall_mem_nil _
  | cons hrd _ ih =>
    obtain ⟨rest, hrest⟩ := hrd
    obtain ⟨hlen, htail⟩ := List.forall_mem_cons.mp hrds
    have hframe := length_of_tokens hrest
    exact List.forall_mem_cons.mpr ⟨by omega, ih htail⟩

/-! ### What is sent of a line -/

namespace Typed

variable (e : Typed) (client : Client)

/-- The texts that a line becomes. -/
def texts : List (List Byte) := (pieces e.line).map (client.outgoing ∘ cString)

variable {e}

/-- A line that is taken at once is sent as its message. -/
theorem texts_of_whole (h : e.Whole) : e.texts client = [e.msg.frame] := by
  rw [texts, pieces, chunks_of_length_le (by decide) e.isLine_line.ne_nil h, List.map_singleton,
    Function.comp_apply, e.outgoing_line client h]

theorem head?_of_mem_texts {t : List Byte} (ht : t ∈ e.texts client) :
    t.head? = some '['.toUInt8 := by
  obtain ⟨l, -, rfl⟩ := List.mem_map.mp ht
  exact client.head?_outgoing _

theorem zero_notMem_of_mem_texts {t : List Byte} (ht : t ∈ e.texts client) : 0 ∉ t := by
  obtain ⟨l, -, rfl⟩ := List.mem_map.mp ht
  exact fun hmem => (client.mem_outgoing hmem).elim (zero_notMem_cString l) (by decide)

theorem count_newline_frame : e.msg.frame.count newline = 1 := by
  have hdest : newline ∉ e.msg.dest := fun h => (e.msg.dest_plain newline h).2.2 rfl
  have hbody : newline ∉ e.msg.body := e.one_line
  simp only [Message.frame, List.count_append, List.count_eq_zero.mpr hdest,
    List.count_eq_zero.mpr hbody, List.count_singleton_self]
  rfl

theorem closings_frame_le : closings e.msg.frame ≤ 1 := by
  refine Nat.le_trans (closings_le_count _) ?_
  rw [← count_newline_frame (e := e)]
  exact (List.tail_sublist _).count_le _

/-- A line that is one byte too long: its newline is sent by itself, with the prefix. -/
theorem closings_texts_of_length_eq (hlen : e.line.length = bufSize) :
    closings (e.texts client).flatten = 0 := by
  obtain ⟨body, hline, hbody⟩ := e.isLine_line
  have hbodylen : body.length = bufSize - 1 := by
    rw [hline, List.length_append, List.length_singleton] at hlen
    exact Nat.eq_sub_of_add_eq hlen
  have hpieces : pieces e.line = [body, [newline]] := by
    rw [pieces, chunks_eq_cons (by decide) e.isLine_line.ne_nil, hline, List.take_left' hbodylen,
      List.drop_left' hbodylen, chunks_of_length_le (by decide) (List.cons_ne_nil _ _) (by decide)]
  have hzero : newline ∉ client.outgoing (cString body) := fun hmem =>
    (client.mem_outgoing hmem).elim (fun h => hbody (mem_of_mem_cString h)) (by decide)
  have hfirst : closings (client.outgoing (cString body)) = 0 :=
    Nat.le_zero.mp <| Nat.le_trans (closings_le_count _) <| Nat.le_of_eq <|
      List.count_eq_zero.mpr fun hmem => hzero (List.mem_of_mem_tail hmem)
  have hlast : closings (client.outgoing (cString [newline])) = 0 := by
    cases client <;> decide
  rw [closings_flatten fun t ht => e.head?_of_mem_texts client ht, texts, hpieces, List.map_cons,
    List.map_singleton, List.map_cons, List.map_singleton, Function.comp_apply,
    Function.comp_apply, hfirst, hlast]
  rfl

theorem closings_flatMap_texts (es : List Typed) :
    closings (es.flatMap fun e => e.texts client).flatten =
      (es.map fun e => closings (e.texts client).flatten).sum := by
  have hhead : ∀ t ∈ es.flatMap fun e => e.texts client, t.head? = some '['.toUInt8 := by
    intro t ht
    obtain ⟨e, -, ht⟩ := List.mem_flatMap.mp ht
    exact head?_of_mem_texts client ht
  rw [closings_flatten hhead, List.map_flatMap, List.flatMap_def, List.sum_flatten, List.map_map]
  refine congrArg List.sum (List.map_congr_left fun e _ => ?_)
  exact (closings_flatten fun t ht => head?_of_mem_texts client ht).symm

/-- With a newline behind a word for each message, no line was too long. -/
theorem whole_of_closings {es : List Typed} (hlen : ∀ e ∈ es, e.msg.frame.length ≤ bufSize)
    (h : es.length ≤ closings (es.flatMap fun e => e.texts client).flatten) :
    ∀ e ∈ es, e.Whole := by
  have hlong : ∀ e ∈ es, ¬e.Whole → closings (e.texts client).flatten = 0 := fun e he hnot => by
    refine closings_texts_of_length_eq client ?_
    have hline := e.length_line_le
    have hframe := hlen e he
    rw [Whole] at hnot
    omega
  have hle : ∀ e ∈ es, closings (e.texts client).flatten ≤ 1 := fun e he => by
    by_cases hwhole : e.Whole
    · rw [texts_of_whole client hwhole, List.flatten_singleton]
      exact closings_frame_le
    · rw [hlong e he hwhole]
      exact Nat.zero_le _
  have hsum : ∀ l : List Typed, (∀ e ∈ l, e ∈ es) →
      (l.map fun e => closings (e.texts client).flatten).sum ≤ l.length := by
    intro l hl
    induction l with
    | nil => exact Nat.le_refl _
    | cons e l ih =>
      obtain ⟨he, hl⟩ := List.forall_mem_cons.mp hl
      have hone := hle e he
      have hrest := ih hl
      rw [List.map_cons, List.sum_cons, List.length_cons]
      omega
  intro e he
  by_contra hnot
  obtain ⟨before, after, rfl⟩ := List.append_of_mem he
  have hbefore := hsum before fun e' he' => List.mem_append_left _ he'
  have hafter := hsum after fun e' he' => List.mem_append_right _ (List.mem_cons_of_mem _ he')
  rw [closings_flatMap_texts, List.map_append, List.sum_append, List.map_cons, List.sum_cons,
    hlong e he hnot, List.length_append, List.length_cons] at h
  omega

end Typed

/-- `hi`, and a request that is addressed. -/
def typedExample : List Typed :=
  [⟨⟨allmsg, bytes "hi", List.cons_ne_nil _ _, List.cons_ne_nil _ _, forall_mem_of_all rfl,
      forall_mem_of_all rfl⟩, false, by decide, fun _ => rfl⟩,
    ⟨⟨bytes "5", bytes "GETDB", List.cons_ne_nil _ _, List.cons_ne_nil _ _, forall_mem_of_all rfl,
      forall_mem_of_all rfl⟩, true, by decide, nofun⟩]

/-- The first line is sent before the second one is typed. -/
def sentExample : Terminal :=
  { Terminal.start with
    sent := typedExample.map fun e => e.msg.frame
    typed := typedExample.map Typed.line }

end Relay

end DroneTurret
