import DroneTurret.Lib.Frames
import DroneTurret.Relay.History
import DroneTurret.Relay.Sessions

/-!
# Who a relayed text comes from

A receiver takes a relayed text for one frame `[id]body` and trusts its tag. The server writes the
tag itself, so the text says who sent it as long as the body holds no bracket. A body that is a
token holds none. One that a leftover offset points at can hold any, up to whole frames under
another tag.

A run is recorded with the slot whose thread made each write of `send_msg` and the connection that
the bytes were read from. The slot's id is that of the connection as long as the thread reads from
its own, which is a matter of when slots are given away.

## Main results

* `authentic_iff` — when the text made for a message is one frame
* `carried_of_stepThread` — what a thread hands on and writes in one step
* `Sound.step`, `Sourced.step` — the texts and the connections they come from, over whole runs
* `sender_authentic` — the runs in which every text names its sender
-/

namespace DroneTurret

namespace Relay

open CString Tokens Transition

/-- No bracket occurs. -/
def Bracketless (s : List Byte) : Prop := '['.toUInt8 ∉ s ∧ ']'.toUInt8 ∉ s

instance (s : List Byte) : Decidable (Bracketless s) := inferInstanceAs (Decidable (_ ∧ _))

/-- The text is a body without brackets under the tag of the id. -/
def Authentic (id text : List Byte) : Prop :=
  ∃ body, text = bytes "[" ++ id ++ bytes "]" ++ body ∧ Bracketless body

theorem authentic_toMsg_iff {id : List Byte} {body : Option (List Byte)} :
    Authentic id (toMsg id body) ↔ Bracketless (body.getD (bytes "(null)")) := by
  constructor
  · rintro ⟨body', htext, hbody'⟩
    rw [List.append_cancel_left htext]
    exact hbody'
  · intro h
    exact ⟨_, rfl, h⟩

theorem bracketless_of_mem_tokens {s w : List Byte} (h : w ∈ tokens isDelim s) : Bracketless w := by
  constructor <;> intro hmem <;> exact absurd ((of_mem_tokens h).2 _ hmem).1 (by decide)

/-- **When the text made for a message is one frame**: the message has two tokens, or what the
leftover offset exposes of it holds no bracket. -/
theorem authentic_iff {client : ClientInfo} {s : Scanner} {rd : List Byte} {info : MsgInfo}
    (h : msgInfo client s rd = some info) :
    Authentic client.id.val info.msg ↔ 2 ≤ (tokens isDelim (cString rd)).length ∨
      ∀ p, s.pArray[1]?.join = some p → Bracketless (exposed rd p) := by
  obtain ⟨dest, -, rfl⟩ := Option.map_eq_some_iff.mp h
  rw [authentic_toMsg_iff]
  by_cases hfew : (tokens isDelim (cString rd)).length < 2
  · rw [firstTwo_snd_of_few s hfew]
    cases s.pArray[1]?.join with
    | none =>
      have hnull : Bracketless (bytes "(null)") := ⟨by decide, by decide⟩
      exact iff_of_true hnull (.inr nofun)
    | some p =>
      rw [Option.map_some, Option.getD_some, stringAt_tokenized hfew]
      constructor
      · rintro hbody
        refine .inr fun q hq => ?_
        rw [← Option.some.inj hq]
        exact hbody
      · rintro (htwo | hbody)
        · omega
        · exact hbody p rfl
  · refine iff_of_true ?_ (.inl (Nat.not_lt.mp hfew))
    rcases htok : tokens isDelim (cString rd) with - | ⟨fst, - | ⟨snd, rest⟩⟩
    · exact absurd Nat.two_pos (by rw [htok] at hfew; exact hfew)
    · exact absurd Nat.one_lt_two (by rw [htok] at hfew; exact hfew)
    · rw [firstTwo_of_tokens s.clear htok]
      exact bracketless_of_mem_tokens (s := cString rd) (by rw [htok]; simp)

/-! ### Recorded runs -/

/-- A write of `send_msg` in the branches that relay, with the slot whose thread made it and the
connection that the bytes were read from. -/
structure Sent where
  slot : Fin maxClnt
  source : Option ℕ
  write : Write

/-- The server with a record of what has been relayed. -/
structure Traced extends Server where
  /-- The connection that a thread's last message was read from. -/
  heard : ℕ → Option ℕ
  sent : List Sent

namespace Traced

/-- The connection that thread `k` is reading from. -/
def source (s : Traced) (k : ℕ) : Option ℕ :=
  s.threads[k]?.bind fun th =>
    match th.phase with
    | .reading source => source
    | _ => none

/-- What a step of a thread adds to the record. -/
def recordThread (s : Traced) (k : ℕ) (a : ThreadAction) (t : Server) : Traced :=
  match a with
  | .returnRead _ => ⟨t, Function.update s.heard k (s.source k), s.sent⟩
  | .sendSlot => ⟨t, s.heard, s.sent ++ s.threads[k]?.toList.flatMap fun th =>
      (t.writes.drop s.writes.length).map fun w => ⟨th.slot, s.heard k, w⟩⟩
  | _ => ⟨t, s.heard, s.sent⟩

def step (s : Traced) : Action → Option Traced
  | .thread k a => (s.toServer.step (.thread k a)).map (s.recordThread k a)
  | a => (s.toServer.step a).map fun t => ⟨t, s.heard, s.sent⟩

end Traced

/-- The recorded server from start-up. -/
def traced : Transition Traced Action where
  init s := server.init s.toServer ∧ s.sent = []
  step := Traced.step

/-- The condition that a message is answered rather than relayed, or has two tokens, or that what
the leftover offset exposes of it holds no bracket. -/
def Guarded (s : Server) : Action → Prop
  | .thread k (.returnRead rd) => ∀ th ∈ s.threads[k]?,
      (∀ dest ∈ (th.scanner.clear.firstTwo rd).1, dest = idlist ∨ dest = gettime) ∨
      2 ≤ (tokens isDelim (cString rd)).length ∨
      ∀ p, th.scanner.pArray[1]?.join = some p → Bracketless (exposed rd p)
  | _ => True

instance (s : Server) (a : Action) : Decidable (Guarded s a) :=
  match a with
  | .thread _ (.returnRead _) => inferInstanceAs (Decidable (∀ _ ∈ _, _ ∨ _ ∨ ∀ _, _ → _))
  | .thread _ .callRead | .thread _ .sendSlot | .thread _ (.reply _) | .thread _ .close
  | .thread _ .clear | .accept _ | .authenticate _ | .register _ => .isTrue trivial

/-! ### Steps -/

/-- The ids of the table never change. -/
theorem Effect.id {s t : Server} {a : Action} (h : Effect s a t) (j : Fin maxClnt) :
    (t.table j).id = (s.table j).id := by
  cases h with
  | accept => rfl
  | @turnedAway rd clntSock conn m hpc htable =>
    change (m.table j).id = _
    rw [htable]
  | @alreadyLogged rd clntSock conn m i hpc htable =>
    change (m.table j).id = _
    rw [htable, Table.setFd_id]
  | @connected rd clntSock conn m i hpc htable =>
    change (m.table j).id = _
    rw [htable]
  | register => exact Table.register_id ..
  | serve => rfl
  | close => rfl
  | clear => exact Table.setFd_id ..

/-- The thread is on its way through `read` or `send_msg`. -/
def Phase.busy : Phase → Prop
  | .reading _ | .routing _ _ => True
  | _ => False

/-- A step of `main` leaves the threads as they are, or starts one. -/
theorem threads_of_main {s t : Server} {a : Action} (h : Effect s a t)
    (ha : ∀ k b, a ≠ .thread k b) {k : ℕ} {th : Thread} (hth : t.threads[k]? = some th) :
    s.threads[k]? = some th ∨
      ¬th.phase.busy ∧ t.auth = s.auth ∧ ∃ fd, s.pc = .registering fd th.conn th.slot := by
  cases h with
  | register hpc =>
    rcases getElem?_concat_cases hth with hold | ⟨-, rfl⟩
    · exact .inl hold
    · exact .inr ⟨id, rfl, _, hpc⟩
  | serve => exact absurd rfl (ha _ _)
  | close => exact absurd rfl (ha _ _)
  | clear => exact absurd rfl (ha _ _)
  | _ => exact .inl hth

/-- What a step of a thread does to the message it is relaying, and what it writes. -/
structure Carried (s : Server) (k : ℕ) (th : Thread) (a : ThreadAction) (t : Server)
    (th' : Thread) : Prop where
  threads : t.threads = s.threads.set k th'
  slot : th'.slot = th.slot
  conn : th'.conn = th.conn
  main : t.pc = s.pc ∧ t.auth = s.auth
  /-- A `read` is from the connection that the slot holds. -/
  reading : ∀ source, th'.phase = .reading source →
    th.phase = .ready ∧ source = s.socks (s.table th.slot).fd
  /-- A message that is relayed has been before, or has just been read. -/
  routing : ∀ info n, th'.phase = .routing info n →
    (a = .sendSlot ∧ ∃ n', th.phase = .routing info n') ∨
    ∃ rd c, a = .returnRead rd ∧ th.phase = .reading (some c) ∧
      msgInfo (s.table th.slot) th.scanner rd = some info
  /-- What is written is the text of the message that is relayed. -/
  texts : a = .sendSlot → ∃ info n, th.phase = .routing info n ∧ ¬info.isRequest ∧
    ∀ w ∈ t.writes.drop s.writes.length, w.text = info.msg

/-- **What a thread hands on and writes**, one case for each of its steps. -/
theorem carried_of_stepThread {s t : Server} {k : ℕ} {th : Thread} {a : ThreadAction}
    (h : s.stepThread k th a = some t) : ∃ th', Carried s k th a t th' := by
  -- from one slot to the next the message is the same
  have routing : ∀ {info : MsgInfo} {next : ℕ}, th.phase = .routing info next →
      ∀ info' n, Phase.routing info (next + 1) = .routing info' n →
        (ThreadAction.sendSlot = .sendSlot ∧ ∃ n', th.phase = .routing info' n') ∨
          ∃ rd c, ThreadAction.sendSlot = .returnRead rd ∧ th.phase = .reading (some c) ∧
            msgInfo (s.table th.slot) th.scanner rd = some info' := by
    intro info next hphase info' n heq
    obtain rfl := (Phase.routing.inj heq).1
    exact .inl ⟨rfl, next, hphase⟩
  have unwritten : ∀ info : MsgInfo, ∀ w ∈ s.writes.drop s.writes.length, w.text = info.msg := by
    intro info
    rw [List.drop_length]
    exact List.forall_mem_nil _
  cases threadMoves_of_stepThread h with
  | callRead hphase =>
    refine ⟨_, rfl, rfl, rfl, ⟨rfl, rfl⟩, fun source hsource => ⟨hphase, ?_⟩,
      (fun _ _ hp => by cases hp), fun ha => by cases ha⟩
    exact (Phase.reading.inj hsource).symm
  | @receive rd c info hphase hinfo =>
    refine ⟨_, rfl, rfl, rfl, ⟨rfl, rfl⟩, (fun _ hp => by cases hp), ?_, fun ha => by cases ha⟩
    intro info' n hrouting
    obtain rfl := (Phase.routing.inj hrouting).1
    exact .inr ⟨rd, c, rfl, hphase, hinfo⟩
  | pass hphase hreq =>
    exact ⟨_, rfl, rfl, rfl, ⟨rfl, rfl⟩, (fun _ hp => by cases hp), routing hphase,
      fun _ => ⟨_, _, hphase, hreq, unwritten _⟩⟩
  | @write info next fd text hphase hreq hwrite =>
    refine ⟨_, rfl, rfl, rfl, ⟨rfl, rfl⟩, (fun _ hp => by cases hp), routing hphase,
      fun _ => ⟨info, next, hphase, hreq, ?_⟩⟩
    change ∀ w ∈ (s.writes ++ _).drop s.writes.length, _
    rw [List.drop_left, List.forall_mem_singleton]
    rw [slotWrite] at hwrite
    split_ifs at hwrite
    exact (congrArg Prod.snd (Option.some.inj hwrite)).symm
  | sent hphase hreq =>
    exact ⟨_, rfl, rfl, rfl, ⟨rfl, rfl⟩, (fun _ hp => by cases hp), (fun _ _ hp => by cases hp),
      fun _ => ⟨_, _, hphase, hreq, unwritten _⟩⟩
  | hangUp hphase | reply hphase hreq | close hphase | clear hphase =>
    exact ⟨_, rfl, rfl, rfl, ⟨rfl, rfl⟩, (fun _ hp => by cases hp), (fun _ _ hp => by cases hp),
      fun ha => by cases ha⟩

/-- A recorded step: of `main`, or of a thread. -/
inductive Recorded (s : Traced) (a : Action) (t : Traced) : Prop
  | main (ha : ∀ k b, a ≠ .thread k b) (hheard : t.heard = s.heard) (hsent : t.sent = s.sent)
  | thread {k : ℕ} {b : ThreadAction} {th th' : Thread} (ha : a = .thread k b)
      (hth : s.threads[k]? = some th) (hcarried : Carried s.toServer k th b t.toServer th')
      (ht : t = s.recordThread k b t.toServer)

theorem recorded_of_step {s t : Traced} {a : Action} (h : traced.step s a = some t) :
    Effect s.toServer a t.toServer ∧ Recorded s a t := by
  cases a with
  | thread k b =>
    obtain ⟨u, hu, rfl⟩ := Option.map_eq_some_iff.mp (show Option.map _ _ = some t from h)
    have hto : (s.recordThread k b u).toServer = u := by cases b <;> rfl
    obtain ⟨th, hth, hstep⟩ := Option.bind_eq_some_iff.mp hu
    obtain ⟨th', hcarried⟩ := carried_of_stepThread hstep
    rw [hto]
    exact ⟨effect_of_step hu, .thread rfl hth (by rwa [hto]) (by rw [hto])⟩
  | _ =>
    obtain ⟨u, hu, rfl⟩ := Option.map_eq_some_iff.mp (show Option.map _ _ = some t from h)
    exact ⟨effect_of_step hu, .main nofun rfl rfl⟩

/-- What has been relayed after a step of a thread. -/
theorem mem_sent_of_record {s : Traced} {k : ℕ} {b : ThreadAction} {th : Thread} {u : Server}
    (hth : s.threads[k]? = some th) {x : Sent} (hx : x ∈ (s.recordThread k b u).sent) :
    x ∈ s.sent ∨ b = .sendSlot ∧ x.slot = th.slot ∧ x.source = s.heard k ∧
      x.write ∈ u.writes.drop s.writes.length := by
  cases b with
  | sendSlot =>
    refine (List.mem_append.mp hx).imp_right fun hx => ⟨rfl, ?_⟩
    rw [hth, Option.toList_some, List.flatMap_singleton, List.mem_map] at hx
    obtain ⟨w, hw, rfl⟩ := hx
    exact ⟨rfl, rfl, hw⟩
  | _ => exact .inl hx

/-- Only what a thread has read changes where its last message was read from. -/
theorem heard_of_record (s : Traced) {k j : ℕ} {b : ThreadAction} (u : Server)
    (h : j ≠ k ∨ ∀ rd, b ≠ .returnRead rd) : (s.recordThread k b u).heard j = s.heard j := by
  cases b with
  | returnRead rd => exact Function.update_of_ne (h.resolve_right fun hrd => hrd rd rfl) ..
  | _ => rfl

theorem heard_of_returnRead {s : Traced} {k c : ℕ} {th : Thread} (hth : s.threads[k]? = some th)
    (hphase : th.phase = .reading (some c)) (rd : List Byte) (u : Server) :
    (s.recordThread k (.returnRead rd) u).heard k = some c := by
  change Function.update s.heard k (s.source k) k = some c
  rw [Function.update_self, Traced.source, hth, Option.bind_some, hphase]

/-! ### The texts -/

/-- What is relayed and what is about to be relayed names its sender. -/
structure Sound (s : Traced) : Prop where
  sent : ∀ x ∈ s.sent, Authentic (s.table x.slot).id.val x.write.text
  routing : ∀ (k : ℕ) (th : Thread) (info : MsgInfo) (n : ℕ), s.threads[k]? = some th →
    th.phase = .routing info n → ¬info.isRequest → Authentic (s.table th.slot).id.val info.msg

theorem sound_init {s : Traced} (h : traced.init s) : Sound s := by
  obtain ⟨⟨records, buf, hs⟩, hsent⟩ := h
  refine ⟨?_, ?_⟩
  · rw [hsent]
    exact List.forall_mem_nil _
  · rw [hs]
    nofun

/-- **What a step hands on and writes** names its sender, if the step meets the condition. -/
theorem Sound.step {s t : Traced} (h : Sound s) {a : Action} (ha : Guarded s.toServer a)
    (ht : traced.step s a = some t) : Sound t := by
  obtain ⟨heffect, hrecorded⟩ := recorded_of_step ht
  have hid := heffect.id
  cases hrecorded with
  | main hmain hheard hsent =>
    constructor
    · intro x hx
      rw [hid]
      exact h.sent x (hsent ▸ hx)
    · intro k th info n hth hphase hreq
      rw [hid]
      rcases threads_of_main heffect hmain hth with hold | ⟨hbusy, -⟩
      · exact h.routing k th info n hold hphase hreq
      · exact absurd trivial (by rwa [hphase] at hbusy)
  | @thread k b th th' hab hth hcarried hrecord =>
    subst hab
    constructor
    · intro x hx
      rw [hid]
      rw [hrecord] at hx
      rcases mem_sent_of_record hth hx with hold | ⟨hb, hslot, -, hwrite⟩
      · exact h.sent x hold
      · obtain ⟨info, n, hphase, hreq, htexts⟩ := hcarried.texts hb
        rw [hslot, htexts x.write hwrite]
        exact h.routing k th info n hth hphase hreq
    · intro j u info n hu hphase hreq
      rw [hid]
      rw [hcarried.threads] at hu
      rcases getElem?_set_cases hu with ⟨-, rfl⟩ | ⟨-, hold⟩
      · rw [hcarried.slot]
        rcases hcarried.routing info n hphase with ⟨-, n', hphase'⟩ | ⟨rd, c, rfl, -, hinfo⟩
        · exact h.routing k th info n' hth hphase' hreq
        · refine (authentic_iff hinfo).mpr ((ha th hth).resolve_left fun hdest => hreq ?_)
          obtain ⟨dest, hfst, rfl⟩ := Option.map_eq_some_iff.mp hinfo
          exact hdest dest hfst
      · exact h.routing j u info n hold hphase hreq

theorem sound_of_reach {ok : Traced → Action → Prop} (hok : ∀ s a, ok s a → Guarded s.toServer a)
    {s : Traced} (h : traced.Reach ok s) : Sound s :=
  h.invariant Sound (fun _ => sound_init) fun s a _ hs ha ht => hs.step (hok s a ha) ht

/-- A step that does not meet the condition hands on a text that does not name its sender. -/
theorem not_authentic_of_not_guarded {s t : Traced} {a : Action} (ht : traced.step s a = some t)
    (ha : ¬Guarded s.toServer a) : ∃ (k : ℕ) (th : Thread) (info : MsgInfo),
      t.threads[k]? = some th ∧ th.phase = .routing info 0 ∧ ¬info.isRequest ∧
      ¬Authentic (t.table th.slot).id.val info.msg := by
  obtain ⟨heffect, -⟩ := recorded_of_step ht
  have hid := heffect.id
  match a, ha with
  | .thread k (.returnRead rd), ha =>
    obtain ⟨u, hu, rfl⟩ := Option.map_eq_some_iff.mp (show Option.map _ _ = some t from ht)
    obtain ⟨th, hth, hstep⟩ := Option.bind_eq_some_iff.mp hu
    simp only [Guarded, not_forall, not_or] at ha
    obtain ⟨th₀, hth₀, ⟨dest, hdest, hreq⟩, hguard⟩ := ha
    obtain rfl : th₀ = th := Option.some.inj (hth₀.symm.trans hth)
    rw [Server.stepThread] at hstep
    split at hstep
    · split_ifs at hstep with hnil
      · -- the end of the stream exposes nothing
        obtain ⟨-, p, -, hp⟩ := hguard
        have hnone : Bracketless (exposed [] p) := by simp [exposed, Bracketless]
        exact absurd (hnil ▸ hnone) hp
      · obtain ⟨info, hinfo, rfl⟩ := Option.map_eq_some_iff.mp hstep
        have hk := (List.getElem?_eq_some_iff.mp hth).1
        refine ⟨k, _, info, List.getElem?_set_self hk, rfl, ?_, ?_⟩
        · obtain ⟨dest', hdest', rfl⟩ := Option.map_eq_some_iff.mp hinfo
          obtain rfl : dest = dest' := Option.some.inj (hdest.symm.trans hdest')
          exact not_or.mpr hreq
        · intro hauth
          obtain ⟨htwo, p, hp, hexposed⟩ := hguard
          rcases (authentic_iff hinfo).mp hauth with htwo' | hall
          · exact htwo htwo'
          · exact hexposed (hall p hp)
    · cases hstep
  | .thread _ .callRead, ha | .thread _ .sendSlot, ha | .thread _ (.reply _), ha
  | .thread _ .close, ha | .thread _ .clear, ha | .accept _, ha | .authenticate _, ha
  | .register _, ha => exact absurd trivial ha

/-! ### The connections -/

/-- Every thread reads from the connection it was started for, and that connection has logged in
under the id of the slot. -/
structure Sourced (s : Traced) : Prop where
  isolated : Isolated s.toServer
  registering : ∀ fd c i, s.pc = .registering fd c i → s.auth c = some (s.table i).id.val
  auth : ∀ (k : ℕ) (th : Thread), s.threads[k]? = some th →
    s.auth th.conn = some (s.table th.slot).id.val
  reading : ∀ (k : ℕ) (th : Thread) (c : ℕ), s.threads[k]? = some th →
    th.phase = .reading (some c) → c = th.conn
  routing : ∀ (k : ℕ) (th : Thread) (info : MsgInfo) (n : ℕ), s.threads[k]? = some th →
    th.phase = .routing info n → s.heard k = some th.conn
  sent : ∀ x ∈ s.sent, ∃ (k : ℕ) (th : Thread), s.threads[k]? = some th ∧ x.slot = th.slot ∧
    x.source = some th.conn

theorem sourced_init {s : Traced} (h : traced.init s) : Sourced s := by
  obtain ⟨hinit, hsent⟩ := h
  have hisolated := isolated_init hinit
  obtain ⟨records, buf, hs⟩ := hinit
  refine ⟨hisolated, ?_, ?_, ?_, ?_, ?_⟩
  · rw [hs]
    nofun
  · rw [hs]
    nofun
  · rw [hs]
    nofun
  · rw [hs]
    nofun
  · rw [hsent]
    exact List.forall_mem_nil _

/-- A login under an id is that of a connection without a thread. -/
theorem Isolated.auth_of_effect {s t : Server} (h : Isolated s) {a : Action} (ht : Effect s a t)
    {k : ℕ} {th : Thread} (hth : s.threads[k]? = some th) : t.auth th.conn = s.auth th.conn := by
  cases ht with
  | @connected rd clntSock conn m i hpc htable hfree =>
    have hnew := (h.pending clntSock conn (by rw [hpc]; rfl)).2
    exact Function.update_of_ne (hnew k th hth) ..
  | _ => rfl

/-- The connection that is being registered has logged in under the id of the slot. -/
theorem auth_of_registering {s t : Server} {a : Action} (ht : Effect s a t)
    (ha : ∀ k b, a ≠ .thread k b) {fd : ℤ} {c : ℕ} {i : Fin maxClnt}
    (hpc : t.pc = .registering fd c i) : t.auth c = some (t.table i).id.val := by
  cases ht with
  | accept hpc' hfd hfree hnext =>
    rcases hnext with rfl | rfl <;> cases hpc
  | @connected rd clntSock conn m j hpc' htable hfree =>
    obtain ⟨-, rfl, rfl⟩ := MainPc.registering.inj hpc
    change Function.update s.auth conn _ conn = some (m.table j).id.val
    rw [Function.update_self, htable]
  | turnedAway => cases hpc
  | alreadyLogged => cases hpc
  | register => cases hpc
  | serve => exact absurd rfl (ha _ _)
  | close => exact absurd rfl (ha _ _)
  | clear => exact absurd rfl (ha _ _)

/-- A thread keeps its slot and its connection. -/
theorem Effect.kept {s t : Server} {a : Action} (h : Effect s a t) {k : ℕ} {th : Thread}
    (hth : s.threads[k]? = some th) :
    ∃ th' : Thread, t.threads[k]? = some th' ∧ th'.slot = th.slot ∧ th'.conn = th.conn := by
  have hset : ∀ {j : ℕ} {u u' : Thread}, s.threads[j]? = some u → u'.slot = u.slot →
      u'.conn = u.conn → ∃ th' : Thread, (s.threads.set j u')[k]? = some th' ∧
        th'.slot = th.slot ∧ th'.conn = th.conn := by
    intro j u u' hu hslot hconn
    by_cases hj : j = k
    · subst hj
      obtain rfl : u = th := Option.some.inj (hu.symm.trans hth)
      exact ⟨u', List.getElem?_set_self (List.getElem?_eq_some_iff.mp hu).1, hslot, hconn⟩
    · exact ⟨th, (List.getElem?_set_ne hj).trans hth, rfl, rfl⟩
  cases h with
  | register =>
    have hk := (List.getElem?_eq_some_iff.mp hth).1
    exact ⟨th, (List.getElem?_append_left hk).trans hth, rfl, rfl⟩
  | serve ha hu hslot hconn => exact hset hu hslot hconn
  | close hu => exact hset hu rfl rfl
  | clear hu => exact hset hu rfl rfl
  | _ => exact ⟨th, hth, rfl, rfl⟩

/-- **What a step hands on and writes** comes from the connection of the thread, if a slot is given
away only when no thread of it is running. -/
theorem Sourced.step {s t : Traced} (h : Sourced s) {a : Action} (ha : Vacant s.toServer a)
    (ht : traced.step s a = some t) : Sourced t := by
  obtain ⟨heffect, hrecorded⟩ := recorded_of_step ht
  have hisolated := h.isolated.step ha heffect
  have hid := heffect.id
  have hauth : ∀ (k : ℕ) (th : Thread), s.threads[k]? = some th →
      t.auth th.conn = some (t.table th.slot).id.val := by
    intro k th hth
    rw [h.isolated.auth_of_effect heffect hth, hid]
    exact h.auth k th hth
  have hkept : ∀ x ∈ s.sent, ∃ (k : ℕ) (th : Thread), t.threads[k]? = some th ∧
      x.slot = th.slot ∧ x.source = some th.conn := by
    intro x hx
    obtain ⟨k, th, hth, hslot, hsource⟩ := h.sent x hx
    obtain ⟨th', hth', hslot', hconn'⟩ := heffect.kept hth
    exact ⟨k, th', hth', hslot.trans hslot'.symm, hsource.trans (congrArg some hconn'.symm)⟩
  cases hrecorded with
  | main hmain hheard hsent =>
    have hold := fun {k : ℕ} {th : Thread} => @threads_of_main _ _ _ heffect hmain k th
    refine ⟨hisolated, fun _ _ _ => auth_of_registering heffect hmain, ?_, ?_, ?_, ?_⟩
    · intro k th hth
      rcases hold hth with hth | ⟨-, hsame, fd, hpc⟩
      · exact hauth k th hth
      · rw [hsame, hid]
        exact h.registering fd th.conn th.slot hpc
    · intro k th c hth hphase
      rcases hold hth with hth | ⟨hbusy, -⟩
      · exact h.reading k th c hth hphase
      · exact absurd trivial (by rwa [hphase] at hbusy)
    · intro k th info n hth hphase
      rw [hheard]
      rcases hold hth with hth | ⟨hbusy, -⟩
      · exact h.routing k th info n hth hphase
      · exact absurd trivial (by rwa [hphase] at hbusy)
    · rw [hsent]
      exact hkept
  | @thread k b th th' hab hth hcarried hrecord =>
    subst hab
    have hk : t.threads[k]? = some th' := by
      rw [hcarried.threads]
      exact List.getElem?_set_self (List.getElem?_eq_some_iff.mp hth).1
    refine ⟨hisolated, ?_, ?_, ?_, ?_, ?_⟩
    · intro fd c i hpc
      rw [hcarried.main.1] at hpc
      rw [hcarried.main.2, hid]
      exact h.registering fd c i hpc
    · intro j u hu
      rw [hcarried.threads] at hu
      rcases getElem?_set_cases hu with ⟨-, rfl⟩ | ⟨-, hold⟩
      · rw [hcarried.conn, hcarried.slot]
        exact hauth k th hth
      · exact hauth j u hold
    · intro j u c hu hphase
      rw [hcarried.threads] at hu
      rcases getElem?_set_cases hu with ⟨-, rfl⟩ | ⟨-, hold⟩
      · obtain ⟨hready, hsource⟩ := hcarried.reading _ hphase
        rw [hcarried.conn]
        -- the slot holds the thread's connection, or the descriptor −1
        rcases h.isolated.serving k th hth (by rw [hready]; trivial) with ⟨hfree, -⟩ | ⟨hsock, -⟩
        · exact absurd hfree (h.isolated.toWired.ne_neg_one hsource.symm)
        · exact Option.some.inj (hsource.trans hsock)
      · exact h.reading j u c hold hphase
    · intro j u info n hu hphase
      rw [hcarried.threads] at hu
      rw [hrecord]
      rcases getElem?_set_cases hu with ⟨rfl, rfl⟩ | ⟨hj, hold⟩
      · rw [hcarried.conn]
        rcases hcarried.routing info n hphase with ⟨rfl, n', hphase'⟩ | ⟨rd, c, rfl, hread, -⟩
        · rw [heard_of_record (b := .sendSlot) s t.toServer (.inr nofun)]
          exact h.routing j th info n' hth hphase'
        · rw [heard_of_returnRead hth hread, h.reading j th c hth hread]
      · rw [heard_of_record s t.toServer (.inl hj)]
        exact h.routing j u info n hold hphase
    · intro x hx
      rw [hrecord] at hx
      rcases mem_sent_of_record hth hx with hold | ⟨hb, hslot, hsource, -⟩
      · exact hkept x hold
      · obtain ⟨info, n, hphase, -⟩ := hcarried.texts hb
        refine ⟨k, th', hk, hslot.trans hcarried.slot.symm, ?_⟩
        rw [hsource, h.routing k th info n hth hphase, hcarried.conn]

theorem sourced_of_reach {ok : Traced → Action → Prop} (hok : ∀ s a, ok s a → Vacant s.toServer a)
    {s : Traced} (h : traced.Reach ok s) : Sourced s :=
  h.invariant Sourced (fun _ => sourced_init) fun s a _ hs ha ht => hs.step (hok s a ha) ht

/-! ### What a receiver makes of the texts -/

theorem Authentic.plain {id text : List Byte} (h : Authentic id text) (hid : Bracketless id) :
    ∃ body, text = Frames.encode '['.toUInt8 ']'.toUInt8 (id, body) ∧
      body = text.drop (id.length + 2) ∧
      Frames.Plain '['.toUInt8 ']'.toUInt8 (id, body) := by
  obtain ⟨body, rfl, hbody⟩ := h
  refine ⟨body, ?_, ?_, hid.1, hid.2, hbody.1⟩
  · rw [Frames.encode, List.append_assoc, List.append_assoc]
    rfl
  · have hlen : (bytes "[" ++ id ++ bytes "]").length = id.length + 2 := by simp [bytes]
    rw [← hlen, List.drop_left]

/-- The frames that a receiver finds in the texts it is sent are those that were relayed, under the
ids of their senders. -/
theorem decode_sent {s : Traced} (h : Sound s) (hid : ∀ i, Bracketless (s.table i).id.val)
    {l : List Sent} (hl : ∀ x ∈ l, x ∈ s.sent) :
    Frames.decode '['.toUInt8 ']'.toUInt8 (l.map fun x => x.write.text).flatten =
      l.map fun x => ((s.table x.slot).id.val,
        x.write.text.drop ((s.table x.slot).id.val.length + 2)) := by
  have hplain := fun x (hx : x ∈ l) => (h.sent x (hl x hx)).plain (hid x.slot)
  have htexts : (l.map fun x => x.write.text) = (l.map fun x => ((s.table x.slot).id.val,
      x.write.text.drop ((s.table x.slot).id.val.length + 2))).map
        (Frames.encode '['.toUInt8 ']'.toUInt8) := by
    rw [List.map_map]
    refine List.map_congr_left fun x hx => ?_
    obtain ⟨body, htext, rfl, -⟩ := hplain x hx
    exact htext
  rw [htexts, Frames.decode_encode (by decide)]
  intro f hf
  obtain ⟨x, hx, rfl⟩ := List.mem_map.mp hf
  obtain ⟨body, -, rfl, hbody⟩ := hplain x hx
  exact hbody

/-- **Sender authenticity.** In every run in which a relayed message has two tokens, or exposes no
bracket, every text is the tag of the id of the slot whose thread wrote it and a body without
brackets, so that a receiver reads the texts it is sent back as frames under the right tags; and a
step that hands on any other message hands on a text that is not of this form. If also no slot is
given away while a thread of it is running, the bytes came from a connection that had logged in
under the id. -/
theorem sender_authentic (s : Traced) :
    (traced.Reach (fun s a => Guarded s.toServer a) s →
      (∀ x ∈ s.sent, Authentic (s.table x.slot).id.val x.write.text) ∧
      ((∀ i, Bracketless (s.table i).id.val) → ∀ l : List Sent, l.Sublist s.sent →
        Frames.decode '['.toUInt8 ']'.toUInt8 (l.map fun x => x.write.text).flatten =
          l.map fun x => ((s.table x.slot).id.val,
            x.write.text.drop ((s.table x.slot).id.val.length + 2)))) ∧
    (traced.Reach (fun s a => Guarded s.toServer a ∧ Vacant s.toServer a) s →
      ∀ x ∈ s.sent, ∃ c, x.source = some c ∧ s.auth c = some (s.table x.slot).id.val) ∧
    ∀ a t, traced.step s a = some t → ¬Guarded s.toServer a →
      ∃ (k : ℕ) (th : Thread) (info : MsgInfo), t.threads[k]? = some th ∧
        th.phase = .routing info 0 ∧ ¬info.isRequest ∧
        ¬Authentic (t.table th.slot).id.val info.msg := by
  refine ⟨fun h => ?_, fun h x hx => ?_, fun a t => not_authentic_of_not_guarded⟩
  · have hsound := sound_of_reach (fun _ _ => id) h
    exact ⟨hsound.sent, fun hid l hl => decode_sent hsound hid fun x hx => hl.subset hx⟩
  · have hsourced := sourced_of_reach (fun _ _ => And.right) h
    obtain ⟨k, th, hth, hslot, hsource⟩ := hsourced.sent x hx
    exact ⟨th.conn, hsource, by rw [hslot]; exact hsourced.auth k th hth⟩

/-- The recorded server before its first connection. -/
def Traced.startUp : Traced := ⟨.startUp, fun _ => none, []⟩

theorem init_traced_startUp : traced.init .startUp := ⟨init_server_startUp, rfl⟩

/-- Client 5 logs in and greets everybody. -/
theorem sender_authentic_witness :
    ∃ s : Traced, s.sent.map Sent.slot = [4] ∧
      (∀ x ∈ s.sent, Authentic (s.table x.slot).id.val x.write.text) ∧
      ∀ x ∈ s.sent, ∃ c, x.source = some c ∧ s.auth c = some (s.table x.slot).id.val := by
  obtain ⟨s, hs, hslot⟩ := exists_reach_of_run traced
    (fun s a => Guarded s.toServer a ∧ Vacant s.toServer a) init_traced_startUp
    (logIn 4 (bytes "[5:PASSWD]") ++
      [.thread 0 .callRead, .thread 0 (.returnRead (bytes "[ALLMSG]hi\n"))] ++
      List.replicate 5 (.thread 0 .sendSlot))
    (fun s => s.sent.map Sent.slot = [4]) rfl
  have hauth := (sender_authentic s).1 (hs.mono fun _ _ => And.left)
  exact ⟨s, of_decide_eq_true hslot, hauth.1, (sender_authentic s).2.1 hs⟩

/-- Client 5 has sent `[QTCLIENT]x`. It sends a NUL, `QTCLIENT`, a NUL and a frame of `RASPBERRYPI`,
at the offsets of that message: `QTCLIENT` gets the frame. -/
theorem not_sender_authentic :
    ¬∀ s : Traced, traced.Reachable s →
      (∀ i, (s.table i).id.val.all fun b => !isDelim b) →
      ∀ x ∈ s.sent, Authentic (s.table x.slot).id.val x.write.text := by
  intro h
  obtain ⟨s, hs, hp⟩ := exists_reach_of_run traced (fun _ _ => True) init_traced_startUp
    (logIn 4 (bytes "[5:PASSWD]") ++ logIn 5 (bytes "[QTCLIENT:PASSWD]") ++
      [.thread 0 .callRead, .thread 0 (.returnRead (bytes "[QTCLIENT]x"))] ++
      List.replicate (maxClnt + 1) (.thread 0 .sendSlot) ++
      [.thread 0 .callRead, .thread 0 (.returnRead
        (0 :: bytes "QTCLIENT" ++ 0 :: bytes "[RASPBERRYPI]1@2@3@drone\n"))] ++
      List.replicate 2 (.thread 0 .sendSlot))
    (fun s => decide (∀ i, ((s.table i).id.val.all fun b => !isDelim b) = true) &&
      s.sent[1]?.map (fun x => ((s.table x.slot).id.val, x.write.text)) =
        some (bytes "5", bytes "[5][RASPBERRYPI]1@2@3@drone\n")) rfl
  simp only [Bool.and_eq_true, decide_eq_true_eq] at hp
  obtain ⟨hids, hsent⟩ := hp
  obtain ⟨x, hx, htext⟩ := Option.map_eq_some_iff.mp hsent
  have hauth := h s hs hids x (List.mem_of_getElem? hx)
  obtain ⟨hid, htext⟩ := Prod.ext_iff.mp htext
  dsimp only at hid htext
  rw [hid, htext, show bytes "[5][RASPBERRYPI]1@2@3@drone\n" =
    toMsg (bytes "5") (some (bytes "[RASPBERRYPI]1@2@3@drone\n")) from rfl,
    authentic_toMsg_iff] at hauth
  exact absurd hauth (by decide)

end Relay

end DroneTurret
