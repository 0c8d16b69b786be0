import DroneTurret.Firmware.MainLoop

/-!
# What the interrupt can do to the main loop

The callback starts the next frame at the front of the buffer at once, and the main loop clears
the flag after the parse and not before it. Two things go wrong for it, and each has its own
window:

* between the end of a frame and its parse, a stored byte tears the frame;
* between the parse and `rx_flag = 0`, a completed frame loses its flag.

Each theorem below is about every run that stays out of the window, over every interleaving
otherwise, and each comes with the shortest run that does not.

## Main results

* `handed_mem_completed` — without the first window, the parser is given completed frames only
* `parsed_of_reach` — without the second, the flag is never clear while a frame waits
-/

namespace DroneTurret

namespace Firmware

open CString Transition

/-! ### Torn frames -/

/-- **No torn command.** In every run in which no NUL arrives and the parser is only started while
nothing of the next frame has been stored, every string it is given is a frame the callback
completed. -/
theorem handed_mem_completed {f : State} (h : system.Reach Untorn f) :
    ∀ str ∈ f.handed, str ∈ f.completed :=
  (intact_of_reach (fun _ _ => id) h).handed

/-- The bytes of a string arriving one after the other. -/
def rxAll (s : String) : List Action := (bytes s).map .rx

theorem handed_mem_completed_witness :
    ∃ f, system.Reach Untorn f ∧ f.handed = [bytes "Q@1"] ∧ ∀ str ∈ f.handed, str ∈ f.completed := by
  obtain ⟨f, hf, hp⟩ := exists_reach_of_run system Untorn rfl (rxAll "Q@1\n" ++ [.main])
    (fun f => f.handed == [bytes "Q@1"]) rfl
  exact ⟨f, hf, by simpa using hp, handed_mem_completed hf⟩

/-- `A@1` is complete and waits, the first byte of the next command arrives, and the parser is
given `D@1`. -/
theorem not_handed_mem_completed :
    ¬∀ f, system.Reachable f → ∀ str ∈ f.handed, str ∈ f.completed := by
  intro h
  obtain ⟨f, hf, hp⟩ := exists_reach_of_run system (fun _ _ => True) rfl (rxAll "A@1\nD" ++ [.main])
    (fun f => f.handed == [bytes "D@1"] && f.completed == [bytes "A@1"]) rfl
  obtain ⟨hhanded, hcompleted⟩ : f.handed = [bytes "D@1"] ∧ f.completed = [bytes "A@1"] := by
    simpa using hp
  have hmem := h f hf (bytes "D@1") (by rw [hhanded]; exact List.mem_singleton_self _)
  rw [hcompleted] at hmem
  revert hmem
  decide

/-! ### Lost wake-ups -/

/-- The condition that no frame is completed between the parse and `rx_flag = 0`. -/
def Unhurried (f : State) : Action → Prop
  | .rx b => f.pc = .clear → ¬f.uart.ends b
  | .main => True

instance (f : State) (a : Action) : Decidable (Unhurried f a) :=
  match a with
  | .rx _ => inferInstanceAs (Decidable (_ → _))
  | .main => .isTrue trivial

/-- The frame completed last has been parsed, unless the flag says otherwise and the main loop is
about to look. -/
def Parsed (f : State) : Prop := f.fresh = true → f.pc = .test ∧ f.uart.rxFlag = true

theorem Parsed.next {f : State} (h : Parsed f) {a : Action} (ha : Unhurried f a) :
    Parsed (next f a) := by
  cases a with
  | rx b =>
    by_cases hends : f.uart.ends b
    · have hpc : f.pc = .test := by
        cases hpc : f.pc with
        | test => rfl
        | clear => exact absurd hends (ha hpc)
      change Parsed (f.rx b)
      rw [rx_of_ends hends]
      exact fun _ => ⟨hpc, rfl⟩
    · change Parsed (f.rx b)
      rw [rx_of_not_ends hends]
      exact h
  | main =>
    change Parsed f.loop
    rcases loop_cases f with ⟨-, -, hloop⟩ | ⟨-, -, hloop⟩ | ⟨hpc, hloop⟩
    · rw [hloop]
      exact h
    · rw [hloop]
      exact nofun
    · -- `rx_flag = 0`: nothing may have been completed since the parse
      rw [hloop]
      intro hfresh
      rw [(h hfresh).1] at hpc
      cases hpc

theorem parsed_of_reach {ok : State → Action → Prop} (hok : ∀ f a, ok f a → Unhurried f a)
    {f : State} (h : system.Reach ok f) : Parsed f :=
  invariant_of_reach Parsed nofun (fun f a hf ha => hf.next (hok f a ha)) h

/-- In a run that also keeps frames intact, the last string given to the parser is the frame
completed last, unless one has been completed since. -/
def Latest (f : State) : Prop := f.fresh = false → f.handed.getLast? = f.completed.getLast?

theorem Latest.next {f : State} (h : Latest f) (hint : Intact f) {a : Action} (ha : Untorn f a) :
    Latest (next f a) := by
  cases a with
  | rx b =>
    change Latest (f.rx b)
    by_cases hends : f.uart.ends b
    · rw [rx_of_ends hends]
      exact nofun
    · rw [rx_of_not_ends hends]
      exact h
  | main =>
    change Latest f.loop
    rcases loop_cases f with ⟨-, -, hloop⟩ | ⟨hpc, hflag, hloop⟩ | ⟨-, hloop⟩
    · rw [hloop]
      exact h
    · rw [hloop]
      intro _
      change (f.handed ++ [cString f.uart.cmdBuf]).getLast? = f.completed.getLast?
      rw [hint.waiting hpc hflag (ha hpc hflag), List.getLast?_concat]
    · rw [hloop]
      exact h

theorem latest_of_reach {ok : State → Action → Prop} (hok : ∀ f a, ok f a → Untorn f a)
    {f : State} (h : system.Reach ok f) : Latest f := by
  refine (invariant_of_reach (fun f => Intact f ∧ Latest f) ⟨intact_startUp, fun _ => rfl⟩ ?_ h).2
  rintro f a ⟨hint, hlatest⟩ ha
  exact ⟨hint.next (hok f a ha), hlatest.next hint (hok f a ha)⟩

/-- **No lost wake-up.** In every run in which no frame is completed between the parse and
`rx_flag = 0`, the parser has run since the last frame was completed whenever the main loop is
about to clear the flag and whenever the flag is clear. If frames are kept intact as well, it was
given that frame. -/
theorem parsed_before_clear (f : State) :
    (system.Reach Unhurried f → f.pc = .clear ∨ f.uart.rxFlag = false → f.fresh = false) ∧
      (system.Reach (fun f a => Unhurried f a ∧ Untorn f a) f →
        f.pc = .clear ∨ f.uart.rxFlag = false → f.handed.getLast? = f.completed.getLast?) := by
  have key : ∀ {ok : State → Action → Prop}, (∀ f a, ok f a → Unhurried f a) →
      system.Reach ok f → f.pc = .clear ∨ f.uart.rxFlag = false → f.fresh = false := by
    intro ok hok hf hclear
    by_contra hfresh
    obtain ⟨hpc, hflag⟩ := parsed_of_reach hok hf (by simpa using hfresh)
    rcases hclear with hc | hc
    · rw [hc] at hpc
      cases hpc
    · rw [hc] at hflag
      cases hflag
  refine ⟨key fun _ _ => id, fun hf hclear => ?_⟩
  exact latest_of_reach (fun _ _ h => h.2) hf (key (fun _ _ h => h.1) hf hclear)

theorem parsed_before_clear_witness :
    ∃ f : State, f.pc = .clear ∧ f.fresh = false ∧ f.handed.getLast? = f.completed.getLast? := by
  obtain ⟨f, hf, hp⟩ := exists_reach_of_run system
    (fun f a => Unhurried f a ∧ Untorn f a) rfl (rxAll "Q@1\n" ++ [.main])
    (fun f => f.pc == .clear) rfl
  have hpc : f.pc = .clear := by simpa using hp
  exact ⟨f, hpc, (parsed_before_clear f).1 (hf.mono fun _ _ h => h.1) (.inl hpc),
    (parsed_before_clear f).2 hf (.inl hpc)⟩

/-- `E@3` is completed after `Q@1` has been parsed and before the flag is cleared: the main loop
goes back to waiting, and `E@3` is never parsed. -/
theorem not_parsed_before_clear :
    ¬∀ f, system.Reachable f → f.uart.rxFlag = false → f.fresh = false := by
  intro h
  obtain ⟨f, hf, hp⟩ := exists_reach_of_run system (fun _ _ => True) rfl
    (rxAll "Q@1\n" ++ [.main] ++ rxAll "E@3\n" ++ [.main])
    (fun f => !f.uart.rxFlag && f.fresh) rfl
  obtain ⟨hflag, hfresh⟩ : f.uart.rxFlag = false ∧ f.fresh = true := by simpa using hp
  rw [h f hf hflag] at hfresh
  cases hfresh

end Firmware

end DroneTurret
