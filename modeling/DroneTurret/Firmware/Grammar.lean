import DroneTurret.Firmware.ServoLaw

/-!
# The lines that are commands

A command is a sector letter, `@` and a level digit. The parser finds these three at the places
where `strtok` puts them, and looks at no more of the first field than its first byte, at no field
behind the second, and at none of the separators it skips. So it takes more lines for commands than
there are, and every one of them moves the turret.

## Main definitions

* `commanded` — what a line is to do

## Main results

* `parsingCommand_eq_commanded_iff` — the lines that the parser takes as they are meant
-/

namespace DroneTurret

namespace Firmware

open CString Tokens

/-- The sectors that the servos move to. -/
def moving : List Byte := bytes "QWEADZXC"

/-- What a line is to do to the servos. -/
def commanded (s : Servo) : List Byte → Servo
  | [b] => if b = 'R'.toUInt8 then setServo2Degree (setServoDegree s 0) 90 else s
  | [area, sep, level] =>
    if area ∈ moving ∧ isAt sep ∧ isLevel level then
      controlPantilt s area (levelDegree (level.toNat - '0'.toNat))
    else s
  | _ => s

/-- The three ways a line can be meant. -/
theorem commanded_cases (s : Servo) (line : List Byte) :
    (line = ['R'.toUInt8] ∧ commanded s line = setServo2Degree (setServoDegree s 0) 90) ∨
    (∃ area level, line = [area, '@'.toUInt8, level] ∧ area ∈ moving ∧ isLevel level ∧
      commanded s line = controlPantilt s area (levelDegree (level.toNat - '0'.toNat))) ∨
    (line ≠ ['R'.toUInt8] ∧ commanded s line = s ∧ ∀ area level, area ∈ moving → isLevel level →
      line ≠ [area, '@'.toUInt8, level]) := by
  match line with
  | [] => exact .inr (.inr ⟨nofun, rfl, nofun⟩)
  | [b] =>
    by_cases hb : b = 'R'.toUInt8
    · exact .inl ⟨by rw [hb], if_pos hb⟩
    · exact .inr (.inr ⟨fun h => hb (List.singleton_inj.mp h), if_neg hb, nofun⟩)
  | [_, _] => exact .inr (.inr ⟨nofun, rfl, nofun⟩)
  | [area, sep, level] =>
    by_cases h : area ∈ moving ∧ isAt sep ∧ isLevel level
    · obtain rfl : sep = '@'.toUInt8 := by simpa [isAt] using h.2.1
      exact .inr (.inl ⟨area, level, rfl, h.1, h.2.2, if_pos h⟩)
    · refine .inr (.inr ⟨nofun, if_neg h, fun area' level' harea hlevel heq => h ?_⟩)
      simp only [List.cons.injEq, and_true] at heq
      obtain ⟨rfl, rfl, rfl⟩ := heq
      exact ⟨harea, rfl, hlevel⟩
  | _ :: _ :: _ :: _ :: _ => exact .inr (.inr ⟨nofun, rfl, nofun⟩)

/-! ### What the parser makes of a line -/

/-- The two fields of a command. -/
theorem tokens_of_command {area level : Byte} (harea : area ∈ moving) (hlevel : isLevel level) :
    tokens isAt [area, '@'.toUInt8, level] = [[area], [level]] := by
  have hplain : ∀ b ∈ moving, isAt b = false := forall_mem_of_all rfl
  have hdigit : isAt level = false := by
    have hne : level ≠ '@'.toUInt8 := by
      rintro rfl
      exact absurd hlevel (by decide)
    simpa [isAt] using hne
  have hword : ∀ {b}, isAt b = false → tokens isAt [b] = [[b]] := fun hb =>
    tokens_of_word (List.cons_ne_nil _ _) fun c hc => by rw [List.mem_singleton.mp hc, hb]
  have hsplit : tokens isAt ([area] ++ '@'.toUInt8 :: [level]) =
      tokens isAt [area] ++ tokens isAt [level] := tokens_append_cons [area] [level] rfl
  rw [hword (hplain area harea), hword hdigit] at hsplit
  exact hsplit

theorem command_eq_some_iff {line : List Byte} (hnl : newline ∉ line) {area : Byte} {n : ℕ} :
    command line = some (area, n) ↔ ∃ rest level more,
      tokens isAt line = (area :: rest) :: [level] :: more ∧ isLevel level ∧
        n = level.toNat - '0'.toNat := by
  have hchomp : chomp line = line := by
    rw [chomp, if_neg]
    exact fun h => hnl (List.mem_of_getLast? h)
  rw [command, hchomp]
  constructor
  · intro h
    split at h
    · rename_i a rest level more htok
      split_ifs at h with hlevel
      obtain ⟨rfl, rfl⟩ := Prod.mk.inj (Option.some.inj h)
      exact ⟨rest, level, more, htok, hlevel, rfl⟩
    · cases h
  · rintro ⟨rest, level, more, htok, hlevel, rfl⟩
    rw [htok]
    exact if_pos hlevel

/-- `S` and the letters outside the grid move nothing. -/
theorem controlPantilt_of_notMem (s : Servo) {area : Byte} (h : area ∉ moving) (moveDeg : ℤ) :
    controlPantilt s area moveDeg = s := by
  have hne : ∀ b ∈ moving, area ≠ b := fun b hb heq => h (heq ▸ hb)
  rw [controlPantilt, if_neg (hne 'Q'.toUInt8 (by decide)), if_neg (hne 'W'.toUInt8 (by decide)),
    if_neg (hne 'E'.toUInt8 (by decide)), if_neg (hne 'A'.toUInt8 (by decide))]
  by_cases hS : area = 'S'.toUInt8
  · rw [if_pos hS]
  · rw [if_neg hS, if_neg (hne 'D'.toUInt8 (by decide)), if_neg (hne 'Z'.toUInt8 (by decide)),
      if_neg (hne 'X'.toUInt8 (by decide)), if_neg (hne 'C'.toUInt8 (by decide))]

/-- A state that every command changes: 30° up from the rest position. -/
def raised : Servo := serveCommands Servo.startUp [bytes "W@1"]

theorem controlPantilt_raised_ne {area level : Byte} (harea : area ∈ moving)
    (hlevel : isLevel level) :
    controlPantilt raised area (levelDegree (level.toNat - '0'.toNat)) ≠ raised := by
  have hlevels : ∀ b, isLevel b → b ∈ bytes "123" := by
    intro b hb
    have hall : ∀ n : Fin 256, isLevel ⟨⟨n⟩⟩ → (⟨⟨n⟩⟩ : Byte) ∈ bytes "123" := by decide +kernel
    exact hall b.toFin hb
  have hall : ∀ area ∈ moving, ∀ level ∈ bytes "123",
      controlPantilt raised area (levelDegree (level.toNat - '0'.toNat)) ≠ raised := by
    decide +kernel
  exact hall area harea level (hlevels level hlevel)

/-- **The accepted lines.** In every state that commands lead to, a line does what it is meant to do
exactly when it is not a command with something more: its first field begins with a sector and its
second is a level only if there is nothing else in it. -/
theorem parsingCommand_eq_commanded_iff {line : List Byte} (hne : line ≠ []) (h0 : 0 ∉ line)
    (hnl : newline ∉ line) :
    (∀ cmds rest, (parsingCommand (serveCommands Servo.startUp cmds) (line ++ 0 :: rest)).1 =
        commanded (serveCommands Servo.startUp cmds) line) ↔
      ∀ area rest level more, tokens isAt line = (area :: rest) :: [level] :: more →
        area ∈ moving → isLevel level → line = [area, '@'.toUInt8, level] := by
  simp only [parsingCommand_fst, cString_append_zero h0]
  constructor
  · intro hmeant area rest level more htok harea hlevel
    have hcommand := (command_eq_some_iff hnl).mpr ⟨rest, level, more, htok, hlevel, rfl⟩
    have hR : line ≠ ['R'.toUInt8] := by
      rintro rfl
      have htok' : tokens isAt ['R'.toUInt8] = [['R'.toUInt8]] := by decide
      rw [htok'] at htok
      cases htok
    have hmoved := hmeant [bytes "W@1"] []
    rw [if_neg hR, hcommand] at hmoved
    rcases commanded_cases raised line with ⟨hR', -⟩ | ⟨area', level', heq, harea', hlevel', -⟩ |
      ⟨-, hstays, -⟩
    · exact absurd hR' hR
    · rw [heq, tokens_of_command harea' hlevel'] at htok
      simp only [List.cons.injEq] at htok
      obtain ⟨⟨rfl, -⟩, ⟨rfl, -⟩, -⟩ := htok
      exact heq
    · exact absurd (hmoved.trans hstays) (controlPantilt_raised_ne harea hlevel)
  · intro hexact cmds rest
    generalize serveCommands Servo.startUp cmds = s
    rcases commanded_cases s line with ⟨hR, hdo⟩ | ⟨area, level, heq, harea, hlevel, hdo⟩ |
      ⟨hR, hdo, hnone⟩
    · rw [if_pos hR, hdo]
    · have hcommand := (command_eq_some_iff hnl).mpr
        ⟨[], level, [], by rw [heq, tokens_of_command harea hlevel], hlevel, rfl⟩
      have hR : line ≠ ['R'.toUInt8] := by
        rw [heq]
        exact nofun
      rw [if_neg hR, hcommand, hdo]
    · rw [if_neg hR, hdo]
      cases hcommand : command line with
      | none => rfl
      | some c =>
        obtain ⟨area, n⟩ := c
        obtain ⟨rest, level, more, htok, hlevel, rfl⟩ := (command_eq_some_iff hnl).mp hcommand
        refine controlPantilt_of_notMem s (fun harea => ?_) _
        exact hnone area level harea hlevel (hexact area rest level more htok harea hlevel)

theorem parsingCommand_eq_commanded_witness :
    (parsingCommand Servo.startUp (bytes "Q@1" ++ [0])).1 =
      commanded Servo.startUp (bytes "Q@1") := by
  refine (parsingCommand_eq_commanded_iff (by decide) (by decide) (by decide)).mpr ?_ [] []
  intro area rest level more htok _ _
  have htok' : tokens isAt (bytes "Q@1") = [bytes "Q", bytes "1"] := by decide
  rw [htok'] at htok
  cases htok
  rfl

/-- Noise behind the sector letter: the line is no command and moves the turret. -/
theorem parsingCommand_ne_commanded :
    ¬∀ line, line ≠ [] → 0 ∉ line → newline ∉ line → ∀ cmds rest,
      (parsingCommand (serveCommands Servo.startUp cmds) (line ++ 0 :: rest)).1 =
        commanded (serveCommands Servo.startUp cmds) line := by
  intro h
  have hmoved := h (bytes "QX@1") (by decide) (by decide) (by decide) [] []
  exact absurd hmoved (by decide)

end Firmware

end DroneTurret
