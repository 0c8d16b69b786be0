import DroneTurret.Lib.Transition
import DroneTurret.Relay.Login

/-!
# What a login can do to the table

The accept loop over whole runs, with the connections that end in between, and a history of who
was registered on the strength of which message.

A login message with fewer than two tokens is looked up together with what an earlier message left
in `pArray` and `idpasswd`. `registered_own` is about every run in which no such leftover pair
admits anybody, and about each step that lets one.

A login that matches no slot still takes a logged-in client of that id out of the table, by the
branch the source marks `for MCU`. `iterate_of_mismatch` says that it does nothing else.

## Main results

* `step_cases` — what a step does to the words of the table and to the history
* `registered_own` — who is registered, over whole runs
* `iterate_of_mismatch` — what a failed login leaves behind
-/

namespace DroneTurret

namespace Relay

open CString Tokens Transition

/-! ### The effect of an iteration -/

/-- The first slot at which the loop stops for a pair of strings is free, so that it is registered
there. -/
def Table.admits (t : Table) (id pw : List Byte) (i : Fin maxClnt) : Prop :=
  (List.finRange maxClnt).find? (t.stops id pw) = some i ∧ (t i).fd = -1

theorem search_connected_of_admits {t : Table} {id pw : List Byte} {i : Fin maxClnt}
    (h : t.admits id pw i) :
    search t (some id) (some pw) (List.finRange maxClnt) = .connected i := by
  rw [search_eq, h.1]
  exact if_neg (not_not.mpr h.2)

theorem search_connected_iff {t : Table} {p0 p1 : Option (List Byte)} {i : Fin maxClnt} :
    search t p0 p1 (List.finRange maxClnt) = .connected i ↔
      ∃ id pw, p0 = some id ∧ p1 = some pw ∧ t.admits id pw i := by
  constructor
  · intro h
    obtain ⟨rfl, rfl, hfree⟩ := search_connected h
    refine ⟨_, _, rfl, rfl, ?_, hfree⟩
    rw [search_eq] at h
    split at h
    · cases h
    · rename_i j hfind
      split_ifs at h
      rw [hfind]
      exact congrArg some (Answer.connected.inj h)
  · rintro ⟨id, pw, rfl, rfl, h⟩
    exact search_connected_of_admits h

/-- A connection is admitted exactly for a pair that admits it. -/
theorem authenticate_connected_iff {m : MainState} {rd : List Byte} (hrd : rd ≠ [])
    {i : Fin maxClnt} :
    (m.authenticate (some rd)).1 = .connected i ↔
      ∃ id pw, m.buffer.firstTwo rd = (some id, some pw) ∧ m.table.admits id pw i := by
  have hsearch : (m.authenticate (some rd)).1 = .connected i ↔
      search m.table (m.buffer.firstTwo rd).1 (m.buffer.firstTwo rd).2
        (List.finRange maxClnt) = .connected i := by
    rcases authenticate_cases m hrd with ⟨j, h, hs⟩ | ⟨answer, -, h, hs⟩
    · rw [h, hs]
    · rw [h, hs]
  rw [hsearch, search_connected_iff]
  constructor
  · rintro ⟨id, pw, h0, h1, hadm⟩
    exact ⟨id, pw, Prod.ext h0 h1, hadm⟩
  · rintro ⟨id, pw, h, hadm⟩
    exact ⟨id, pw, congrArg Prod.fst h, congrArg Prod.snd h, hadm⟩

/-- Is a message read from the connection at all? -/
def MainState.Serves (m : MainState) (clntSock : ℤ) (rd : List Byte) : Prop :=
  m.clntCnt < maxClnt ∧ 0 ≤ clntSock ∧ rd ≠ []

theorem iterate_of_serves {m : MainState} {clntSock : ℤ} {rd : List Byte}
    (h : m.Serves clntSock rd) (ip : List Byte) :
    m.iterate clntSock ip (some rd) = conclude clntSock ip (m.authenticate (some rd)) := by
  have hcnt : ¬m.clntCnt ≥ maxClnt := Int.not_le.mpr h.1
  exact (if_neg hcnt).trans (if_neg (Int.not_lt.mpr h.2.1))

/-- Without a message the table and the counter are not touched. -/
theorem iterate_of_not_serves {m : MainState} {clntSock : ℤ} {rd : Option (List Byte)}
    (h : ∀ s ∈ rd, ¬m.Serves clntSock s) (ip : List Byte) :
    (m.iterate clntSock ip rd).2.table = m.table ∧
      (m.iterate clntSock ip rd).2.clntCnt = m.clntCnt ∧
      ∀ i, (m.iterate clntSock ip rd).1 ≠ .connected i := by
  rw [MainState.iterate]
  split_ifs with hfull hsock
  · exact ⟨rfl, rfl, nofun⟩
  · exact ⟨rfl, rfl, nofun⟩
  · obtain ⟨hanswer, htable, hcnt⟩ := authenticate_of_no_message m fun s hs => by
      by_contra hne
      exact h s hs ⟨Int.not_le.mp hfull, Int.not_lt.mp hsock, hne⟩
    have hne : ∀ i, (m.authenticate rd).1 ≠ .connected i := by
      rw [hanswer]
      nofun
    rw [conclude_of_ne hne]
    exact ⟨htable, hcnt, hne⟩

theorem iterate_table_words (m : MainState) (clntSock : ℤ) (ip : List Byte)
    (rd : Option (List Byte)) (j : Fin maxClnt) :
    ((m.iterate clntSock ip rd).2.table j).id = (m.table j).id ∧
      ((m.iterate clntSock ip rd).2.table j).pw = (m.table j).pw := by
  rw [MainState.iterate]
  split_ifs
  · exact ⟨rfl, rfl⟩
  · exact ⟨rfl, rfl⟩
  · obtain ⟨hid, hpw⟩ := conclude_table_words clntSock ip (m.authenticate rd) j
    obtain ⟨hid', hpw'⟩ := authenticate_table_words m rd j
    exact ⟨hid.trans hid', hpw.trans hpw'⟩

/-! ### Runs of the accept loop -/

/-- That a connection was registered in a slot on a message. -/
structure Registration where
  clntSock : ℤ
  slot : Fin maxClnt
  read : List Byte

/-- The accept loop and its history. -/
structure LoginState extends MainState where
  registered : List Registration

inductive LoginAction
  /-- `accept` returns a connection, and `read` its login message. -/
  | accept (clntSock : ℤ) (ip : List Byte) (rd : Option (List Byte))
  /-- The thread of a slot ends and clears it. -/
  | disconnect (i : Fin maxClnt)

/-- One step. Where the source compares a NULL pointer there is no successor. -/
def LoginState.step (s : LoginState) : LoginAction → Option LoginState
  | .accept clntSock ip rd =>
    match s.toMainState.iterate clntSock ip rd with
    | (.undefined, _) => none
    | (.connected i, m) => some ⟨m, s.registered ++ [⟨clntSock, i, rd.getD []⟩]⟩
    | (_, m) => some ⟨m, s.registered⟩
  | .disconnect i =>
    some { s with table := s.table.setFd i (-1), clntCnt := s.clntCnt - 1 }

/-- The accept loop from start-up: the table is loaded, `pArray` holds NULL, and `idpasswd` is not
initialized. -/
def logins : Transition LoginState LoginAction where
  init s := (∃ records, s.table = load records) ∧ s.clntCnt = 0 ∧
    s.buffer.pArray = List.replicate arrCnt none ∧ s.buffer.buf.length = idpasswdSize ∧
    s.registered = []
  step := LoginState.step

/-- The connection was registered on its own message: its first two tokens are the id and the
password of the slot. -/
def LoginState.Own (s : LoginState) (r : Registration) : Prop :=
  (tokens isDelim (cString r.read)).take 2 = [(s.table r.slot).id.val, (s.table r.slot).pw.val]

instance (s : LoginState) (r : Registration) : Decidable (s.Own r) :=
  inferInstanceAs (Decidable (_ = _))

/-- The condition that leftovers admit nobody: a message that is looked up has two tokens, or the
pair that its tokens make together with what earlier messages left behind belongs to no slot that
would be free for it. -/
def Attributable (s : LoginState) : LoginAction → Prop
  | .accept clntSock _ rd => ∀ msg ∈ rd, s.Serves clntSock msg →
      2 ≤ (tokens isDelim (cString msg)).length ∨
        ∀ id pw i, s.buffer.firstTwo msg = (some id, some pw) → ¬s.table.admits id pw i
  | .disconnect _ => True

/-- What a step does to the history. -/
theorem step_cases {s t : LoginState} {a : LoginAction} (h : s.step a = some t) :
    (∀ j, (t.table j).id = (s.table j).id ∧ (t.table j).pw = (s.table j).pw) ∧
      (t.registered = s.registered ∨
        ∃ clntSock ip msg i id pw, a = .accept clntSock ip (some msg) ∧ s.Serves clntSock msg ∧
          s.buffer.firstTwo msg = (some id, some pw) ∧ s.table.admits id pw i ∧
          t.registered = s.registered ++ [⟨clntSock, i, msg⟩]) := by
  cases a with
  | disconnect i =>
    obtain rfl := Option.some.inj h
    exact ⟨fun j => by simp, .inl rfl⟩
  | accept clntSock ip rd =>
    have hwords := iterate_table_words s.toMainState clntSock ip rd
    have hconn : ∀ i, (s.toMainState.iterate clntSock ip rd).1 = .connected i →
        ∃ msg, rd = some msg ∧ s.Serves clntSock msg ∧ ∃ id pw,
          s.buffer.firstTwo msg = (some id, some pw) ∧ s.table.admits id pw i := by
      intro i hi
      by_cases hserves : ∀ msg ∈ rd, ¬s.Serves clntSock msg
      · exact absurd hi ((iterate_of_not_serves hserves ip).2.2 i)
      · push Not at hserves
        obtain ⟨msg, rfl, hmsg⟩ := hserves
        rw [iterate_of_serves hmsg, conclude_fst] at hi
        exact ⟨msg, rfl, hmsg, (authenticate_connected_iff hmsg.2.2).mp hi⟩
    rw [LoginState.step] at h
    split at h
    · cases h
    · rename_i i m heq
      rw [heq] at hwords hconn
      obtain rfl := Option.some.inj h
      obtain ⟨msg, rfl, hmsg, id, pw, hcred, hadm⟩ := hconn i rfl
      exact ⟨hwords, .inr ⟨clntSock, ip, msg, i, id, pw, rfl, hmsg, hcred, hadm, rfl⟩⟩
    · rename_i a m _ _ heq
      rw [heq] at hwords
      obtain rfl := Option.some.inj h
      exact ⟨hwords, .inl rfl⟩

theorem LoginState.Own.of_words {s t : LoginState} {r : Registration} (h : s.Own r)
    (hwords : ∀ j, (t.table j).id = (s.table j).id ∧ (t.table j).pw = (s.table j).pw) :
    t.Own r := by
  rw [Own, (hwords r.slot).1, (hwords r.slot).2]
  exact h

/-- A registration is its connection's own exactly when its message had two tokens. -/
theorem own_iff_of_admits {s : LoginState} {clntSock : ℤ} {msg id pw : List Byte}
    {i : Fin maxClnt} (hcred : s.buffer.firstTwo msg = (some id, some pw))
    (hadm : s.table.admits id pw i) :
    s.Own ⟨clntSock, i, msg⟩ ↔ 2 ≤ (tokens isDelim (cString msg)).length := by
  obtain ⟨hid, hpw, -⟩ := search_connected (search_connected_of_admits hadm)
  rw [LoginState.Own]
  constructor
  · intro h
    have hlen := congrArg List.length h
    rw [List.length_take] at hlen
    simp only [List.length_cons, List.length_nil] at hlen
    omega
  · intro h
    match htok : tokens isDelim (cString msg), h with
    | id' :: pw' :: rest, _ =>
      have hown := (firstTwo_of_tokens s.buffer htok).symm.trans hcred
      simp only [Prod.mk.injEq, Option.some.injEq] at hown hid hpw
      rw [← hid, ← hpw, ← hown.1, ← hown.2]
      rfl

/-- What holds along the runs in which leftovers admit nobody. -/
theorem own_of_reach {s : LoginState} (h : logins.Reach Attributable s) :
    ∀ r ∈ s.registered, s.Own r := by
  refine h.invariant (fun s => ∀ r ∈ s.registered, s.Own r) (fun s hs r hr => ?_)
    fun s a t hs ha ht r hr => ?_
  · rw [hs.2.2.2.2] at hr
    cases hr
  · obtain ⟨hwords, hreg⟩ := step_cases ht
    rcases hreg with hreg | ⟨clntSock, ip, msg, i, id, pw, rfl, hserves, hcred, hadm, hreg⟩
    · exact (hs r (hreg ▸ hr)).of_words hwords
    · rw [hreg, List.mem_append, List.mem_singleton] at hr
      rcases hr with hr | rfl
      · exact (hs r hr).of_words hwords
      · have htwo : 2 ≤ (tokens isDelim (cString msg)).length :=
          (ha msg rfl hserves).resolve_right fun hnone => hnone id pw i hcred hadm
        exact ((own_iff_of_admits hcred hadm).mpr htwo).of_words hwords

/-- A step that the condition excludes registers a connection on a message that is not its own. -/
theorem not_own_of_not_attributable {s : LoginState} {a : LoginAction} (h : ¬Attributable s a) :
    ∃ t r, s.step a = some t ∧ t.registered = s.registered ++ [r] ∧ ¬s.Own r := by
  cases a with
  | disconnect i => exact absurd trivial h
  | accept clntSock ip rd =>
    simp only [Attributable, not_forall, not_or, not_not] at h
    obtain ⟨msg, rfl, hserves, hshort, id, pw, i, hcred, hadm⟩ := h
    have hconn : (s.toMainState.iterate clntSock ip (some msg)).1 = .connected i := by
      rw [iterate_of_serves hserves, conclude_fst]
      exact (authenticate_connected_iff hserves.2.2).mpr ⟨id, pw, hcred, hadm⟩
    obtain ⟨m, hm⟩ : ∃ m, s.toMainState.iterate clntSock ip (some msg) = (.connected i, m) :=
      ⟨_, Prod.ext hconn rfl⟩
    refine ⟨⟨m, s.registered ++ [⟨clntSock, i, msg⟩]⟩, ⟨clntSock, i, msg⟩, ?_, rfl,
      fun hown => hshort ((own_iff_of_admits hcred hadm).mp hown)⟩
    rw [LoginState.step, hm]
    rfl

/-- **Who is registered.** Along every run in which leftovers admit nobody, every connection is
registered on its own message; and a step in which they do registers one that is not. -/
theorem registered_own (s : LoginState) :
    (logins.Reach Attributable s → ∀ r ∈ s.registered, s.Own r) ∧
      ∀ a, ¬Attributable s a →
        ∃ t r, logins.step s a = some t ∧ t.registered = s.registered ++ [r] ∧ ¬s.Own r :=
  ⟨own_of_reach, fun _ => not_own_of_not_attributable⟩

/-- `main` before its first connection, with an empty history. -/
def LoginState.startUp : LoginState := ⟨MainState.startUp, []⟩

theorem init_startUp : logins.init LoginState.startUp :=
  ⟨⟨idpasswdTxt, rfl⟩, rfl, rfl, rfl, rfl⟩

theorem registered_own_witness :
    ∃ s : LoginState, s.registered.map Registration.slot = [4] ∧ ∀ r ∈ s.registered, s.Own r := by
  obtain ⟨s, hs, hslot⟩ : ∃ s, logins.step .startUp
      (.accept 4 (bytes "10.10.141.5") (some (bytes "[5:PASSWD]"))) = some s ∧
      s.registered.map Registration.slot = [4] := Option.map_eq_some_iff.mp rfl
  have htwo : Attributable .startUp
      (.accept 4 (bytes "10.10.141.5") (some (bytes "[5:PASSWD]"))) := by
    intro msg hmsg _
    obtain rfl := Option.some.inj hmsg
    exact .inl (by decide)
  exact ⟨s, hslot, (registered_own s).1 (.step _ (.init init_startUp) htwo hs)⟩

/-- Client 5 logs in; then a connection that sends `[6` is registered as client 6, with the
password client 5 sent. -/
theorem not_registered_own :
    ¬∀ s, logins.Reachable s → ∀ r ∈ s.registered, s.Own r := by
  intro h
  obtain ⟨s, hs, hp⟩ := exists_reach_of_run logins (fun _ _ => True) init_startUp
    [.accept 4 (bytes "10.10.141.5") (some (bytes "[5:PASSWD]")),
      .accept 5 (bytes "10.10.141.6") (some (bytes "[6"))]
    (fun s : LoginState => s.registered.map Registration.slot = [4, 5] &&
      s.registered.any fun r => !decide (s.Own r)) rfl
  simp only [Bool.and_eq_true, List.any_eq_true] at hp
  obtain ⟨-, r, hr, hown⟩ := hp
  simp [h s hs r hr] at hown

/-! ### A login that fails -/

/-- The first slot of an id that is logged in. -/
def Table.firstLogged (t : Table) (id : List Byte) : Option (Fin maxClnt) :=
  (List.finRange maxClnt).find? fun i => (t i).id.val = id && (t i).fd ≠ -1

/-- If no slot has the pair, the loop stops at a logged-in slot of the id or not at all. -/
theorem search_of_mismatch {t : Table} {id pw : List Byte}
    (hmiss : ∀ i, ¬((t i).id.val = id ∧ (t i).pw.val = pw)) :
    search t (some id) (some pw) (List.finRange maxClnt) =
      match t.firstLogged id with
      | none => .authError
      | some i => .alreadyLogged i := by
  have hstops : t.stops id pw = fun i => (t i).id.val = id && (t i).fd ≠ -1 := by
    funext i
    by_cases hid : (t i).id.val = id
    · have hpw : (t i).pw.val ≠ pw := fun hpw => hmiss i ⟨hid, hpw⟩
      simp [Table.stops, hid, hpw]
    · simp [Table.stops, hid]
  rw [search_eq, hstops]
  cases hfind : t.firstLogged id with
  | none =>
    rw [Table.firstLogged] at hfind
    rw [hfind]
  | some i =>
    rw [Table.firstLogged] at hfind
    have hi := List.find?_some hfind
    simp only [Bool.and_eq_true, decide_eq_true_eq] at hi
    rw [hfind]
    exact if_pos hi.2

/-- **What a failed login leaves behind.** If the id and the password `main` looks up for a message
(its first two tokens, when it has two) are those of no slot, then the counter and every field of
the table are as before, except that the first logged-in slot of that id, if there is one, is
marked free. -/
theorem iterate_of_mismatch (m : MainState) (clntSock : ℤ) (ip : List Byte) {rd id pw : List Byte}
    (hpair : m.buffer.firstTwo rd = (some id, some pw))
    (hmiss : ∀ i, ¬((m.table i).id.val = id ∧ (m.table i).pw.val = pw)) :
    (m.iterate clntSock ip (some rd)).2.clntCnt = m.clntCnt ∧
      (m.Serves clntSock rd → (m.iterate clntSock ip (some rd)).2.table =
        match m.table.firstLogged id with
        | none => m.table
        | some i => m.table.setFd i (-1)) ∧
      (¬m.Serves clntSock rd → (m.iterate clntSock ip (some rd)).2.table = m.table) ∧
      ∀ id' pw' rest, tokens isDelim (cString rd) = id' :: pw' :: rest → id' = id ∧ pw' = pw := by
  have hown : ∀ id' pw' rest, tokens isDelim (cString rd) = id' :: pw' :: rest →
      id' = id ∧ pw' = pw := by
    intro id' pw' rest htok
    simpa using (firstTwo_of_tokens m.buffer htok).symm.trans hpair
  by_cases hserves : m.Serves clntSock rd
  · have hsearch : search m.table (m.buffer.firstTwo rd).1 (m.buffer.firstTwo rd).2
        (List.finRange maxClnt) = match m.table.firstLogged id with
          | none => .authError
          | some i => .alreadyLogged i := by
      rw [hpair]
      exact search_of_mismatch hmiss
    have hne : ∀ i, (m.authenticate (some rd)).1 ≠ .connected i := by
      intro i hi
      obtain ⟨id', pw', hpair', hadm⟩ := (authenticate_connected_iff hserves.2.2).mp hi
      obtain ⟨rfl, rfl⟩ : id = id' ∧ pw = pw' := by simpa using hpair.symm.trans hpair'
      obtain ⟨hid, hpw, -⟩ := search_connected (search_connected_of_admits hadm)
      exact hmiss i ⟨(Option.some.inj hid).symm, (Option.some.inj hpw).symm⟩
    rw [iterate_of_serves hserves, conclude_of_ne hne]
    rcases authenticate_cases m hserves.2.2 with ⟨i, h, hs⟩ | ⟨answer, hne, h, hs⟩
    · rw [hs] at hsearch
      rw [h]
      cases hfirst : m.table.firstLogged id with
      | none => rw [hfirst] at hsearch; cases hsearch
      | some j =>
        rw [hfirst] at hsearch
        obtain rfl : i = j := by simpa using hsearch
        exact ⟨rfl, fun _ => rfl, fun hn => absurd hserves hn, hown⟩
    · rw [hs] at hsearch
      cases hfirst : m.table.firstLogged id with
      | none =>
        rw [hfirst] at hsearch
        rw [h, hsearch]
        exact ⟨rfl, fun _ => rfl, fun hn => absurd hserves hn, hown⟩
      | some j =>
        rw [hfirst] at hsearch
        exact absurd hsearch (hne j)
  · obtain ⟨htable, hcnt, -⟩ := iterate_of_not_serves
      (show ∀ s ∈ some rd, ¬m.Serves clntSock s from fun s hs => Option.some.inj hs ▸ hserves) ip
    exact ⟨hcnt, fun hs => absurd hs hserves, fun _ => htable, hown⟩

theorem iterate_of_mismatch_witness :
    (MainState.startUp.iterate 4 (bytes "10.10.141.4") (some (bytes "[CLIENT:x]"))).2.clntCnt = 0 ∧
      (MainState.startUp.iterate 4 (bytes "10.10.141.4") (some (bytes "[CLIENT:x]"))).2.table =
        load idpasswdTxt := by
  have hpair : MainState.startUp.buffer.firstTwo (bytes "[CLIENT:x]") =
      (some (bytes "CLIENT"), some (bytes "x")) := rfl
  have hmiss : ∀ i, ¬((MainState.startUp.table i).id.val = bytes "CLIENT" ∧
      (MainState.startUp.table i).pw.val = bytes "x") := by decide +kernel
  have h := iterate_of_mismatch MainState.startUp 4 (bytes "10.10.141.4") hpair hmiss
  exact ⟨h.1, h.2.1 ⟨by decide, by decide, by decide⟩⟩

/-- `RASPBERRYPI` is logged in on descriptor 4. A connection that names it with a wrong password is
told that it is already logged in, and the slot is marked free. -/
theorem not_iterate_unchanged :
    ¬∀ s, logins.Reachable s → ∀ clntSock ip rd id pw rest,
      tokens isDelim (cString rd) = id :: pw :: rest →
      (∀ i, ¬((s.table i).id.val = id ∧ (s.table i).pw.val = pw)) →
      (s.toMainState.iterate clntSock ip (some rd)).2.table = s.table := by
  intro h
  obtain ⟨s, hs, hp⟩ := exists_reach_of_run logins (fun _ _ => True) init_startUp
    [.accept 4 (bytes "10.10.141.5") (some (bytes "[RASPBERRYPI:PASSWD]"))]
    (fun s : LoginState => (s.table 0).fd = 4 && decide (∀ i, ¬((s.table i).id.val =
      bytes "RASPBERRYPI" ∧ (s.table i).pw.val = bytes "x")) &&
      ((s.toMainState.iterate 5 [] (some (bytes "[RASPBERRYPI:x]"))).2.table 0).fd = -1) rfl
  simp only [Bool.and_eq_true, decide_eq_true_eq] at hp
  obtain ⟨⟨hfd, hmiss⟩, hfd'⟩ := hp
  rw [h s hs 5 [] (bytes "[RASPBERRYPI:x]") _ _ [] rfl hmiss, hfd] at hfd'
  cases hfd'

end Relay

end DroneTurret
