import VhomeBridge.Mqtt.Dispatch

/-! The serial line to the Zigbee chip, from a boot until the gateway restarts or the chip is put
into its boot loader.  Three tasks write commands to it, and the chip takes what it reads up to a
newline for one command. -/

namespace VhomeBridge.Mqtt

open Lib Link JsonUser Zigbee

/-- The tasks that write to the line. -/
inductive Writer
  | appMain
  | mqttHandle
  | sendCommandZigbee
  deriving DecidableEq

def startNetwork : Text := "custom action-start-network\n".toList

/-- Whether `app_main` has written its line, the effects that `mqtt_handle` has still to do, the
characters on the line, and each string written with the task that wrote it. -/
structure Serial where
  started : Bool
  todo : List Effect
  uart : Text
  sent : List (Writer × Text)

namespace Serial

def start : Serial := ⟨false, [], [], []⟩

/-- `uart_write_bytes`, which other tasks do not interrupt. -/
def write (s : Serial) (w : Writer) (line : Text) : Serial :=
  { s with uart := s.uart ++ line, sent := s.sent ++ [(w, line)] }

inductive Event
  | startNetwork
  | message (item : Text)
  | effect
  | command (item : LinkButton)

/-- `app_main` writes once, `mqtt_handle` takes a message after the effects of the last one, and a
link command comes at any time.  With `esp_restart` or `zigbee_boot` the run is over. -/
def step (lib : CJsonLib) (linkButton : Bool) (s : Serial) : Event → Option Serial
  | .startNetwork =>
    if s.started then none else some { s.write .appMain Mqtt.startNetwork with started := true }
  | .message item =>
    if s.todo.isEmpty then
      (mqttHandle lib linkButton item).map fun effects => { s with todo := effects }
    else none
  | .effect =>
    match s.todo with
    | [] => none
    | .espRestart :: _ => none
    | .zigbeeBoot :: _ => none
    | .uart line :: todo => some ({ s with todo := todo }.write .mqttHandle line)
    | _ :: todo => some { s with todo := todo }
  | .command item => (Link.sendCommandZigbee item).map (s.write .sendCommandZigbee)

/-- What a task has written. -/
def sentBy (s : Serial) (w : Writer) : List Text := (s.sent.filter (·.1 = w)).map Prod.snd

/-- What it has in hand. -/
def pending (s : Serial) : Writer → List Text
  | .mqttHandle => linesOf s.todo
  | _ => []

end Serial

/-! ### What an event is to write -/

namespace Serial.Event

/-- The lines that a task is to write for an event. -/
def lines (lib : CJsonLib) (linkButton : Bool) : Writer → Event → List Text
  | .appMain, startNetwork => [Mqtt.startNetwork]
  | .mqttHandle, message item => ((mqttHandle lib linkButton item).map linesOf).getD []
  | .sendCommandZigbee, command item => (Link.sendCommandZigbee item).toList
  | _, _ => []

/-- The fields of a message that become part of a line. -/
def written (c : Cmd) : Text :=
  if c.action = "on-off".toList ∧ c.protocol ≠ "ble".toList then c.value ++ c.nodeID
  else if c.action = "lock".toList ∨ c.action = "unlock".toList then c.nodeID
  else []

/-- The fields that become part of a line have no newline. -/
def Clean (lib : CJsonLib) : Event → Prop
  | message item => ∀ c ∈ analyzeSubMqtt lib item Cmd.zero, '\n' ∉ written c
  | command item =>
    '\n' ∉ item.stateButton ∧ '\n' ∉ item.idButton.take 6 ∧ item.idButton.getLast? ≠ some '\n'
  | _ => True

instance (lib : CJsonLib) : DecidablePred (Clean lib)
  | startNetwork => .isTrue trivial
  | message item =>
    inferInstanceAs (Decidable (∀ c ∈ analyzeSubMqtt lib item Cmd.zero, '\n' ∉ written c))
  | effect => .isTrue trivial
  | command item => inferInstanceAs (Decidable ('\n' ∉ item.stateButton ∧
      '\n' ∉ item.idButton.take 6 ∧ item.idButton.getLast? ≠ some '\n'))

/-- The commands that lock or unlock a door: what the chip is to send, then to whom. -/
def lockPair (lib : CJsonLib) : Event → List Text
  | message item =>
    match analyzeSubMqtt lib item Cmd.zero with
    | some c =>
      if c.action = "lock".toList then
        ["zcl lock lock \"000000\"".toList, "send ".toList ++ c.nodeID ++ " 0x01 0x01".toList]
      else if c.action = "unlock".toList then
        ["zcl lock unlock \"000000\"".toList, "send ".toList ++ c.nodeID ++ " 0x01 0x01".toList]
      else []
    | none => []
  | _ => []

end Serial.Event

/-- Whether a command prepares or sends a frame. -/
def isLock (command : Text) : Bool :=
  "zcl lock ".toList.isPrefixOf command || "send ".toList.isPrefixOf command

/-! ### Lines -/

/-- A line: one newline, at its end. -/
def IsLine (line : Text) : Prop := ∃ command, '\n' ∉ command ∧ line = command ++ ['\n']

section

variable {lib : CJsonLib} {linkButton : Bool} {item : Text} {c : Cmd} {effects : List Effect}

theorem newline_not_mem_decimal (n : Nat) : '\n' ∉ Text.decimal n := fun hmem =>
  absurd (Nat.isDigit_of_mem_toDigits (by decide) (by decide) hmem) (by decide)

theorem isLine_linesOf (h : Fits c) (hclean : '\n' ∉ Serial.Event.written c)
    (hd : dispatch linkButton item c = some effects) : ∀ line ∈ linesOf effects, IsLine line := by
  obtain hlines | hlines | hlines | ⟨honOff, hlines⟩ | ⟨command, hcommand, haction, hlines⟩ :=
    dispatch_cases h hd
  · simp [hlines]
  · rw [hlines, List.forall_mem_singleton]
    exact ⟨"custom action-open".toList, by decide, by decide⟩
  · rw [hlines, List.forall_mem_singleton]
    exact ⟨"custom action-close".toList, by decide, by decide⟩
  · rw [Serial.Event.written, if_pos honOff, List.mem_append, not_or] at hclean
    obtain ⟨hvalue, hnode⟩ := hclean
    rw [hlines, List.forall_mem_singleton]
    refine ⟨"custom action-onoff ".toList ++ c.value ++ " ".toList ++ c.nodeID ++ " ".toList ++
      Text.decimal c.endpoint.toNat, ?_, rfl⟩
    have hdecimal := newline_not_mem_decimal c.endpoint.toNat
    simp only [List.mem_append, not_or]
    exact ⟨⟨⟨⟨⟨by decide, hvalue⟩, by decide⟩, hnode⟩, by decide⟩, hdecimal⟩
  · have hlock : c.action = "lock".toList ∨ c.action = "unlock".toList := by
      obtain rfl | rfl := hcommand
      · exact .inl haction
      · exact .inr haction
    have hother : ¬(c.action = "on-off".toList ∧ c.protocol ≠ "ble".toList) := by
      rintro ⟨honOff, -⟩
      rw [honOff] at hlock
      exact absurd hlock (by decide)
    rw [Serial.Event.written, if_neg hother, if_pos hlock] at hclean
    have hnode := hclean
    have hend : " 0x01 0x01\n".toList = " 0x01 0x01".toList ++ ['\n'] := by decide
    rw [hlines, lockLines, List.forall_mem_cons, List.forall_mem_singleton]
    refine ⟨⟨"zcl lock ".toList ++ command.toList ++ " \"000000\"".toList, ?_, ?_⟩,
      "send ".toList ++ c.nodeID ++ " 0x01 0x01".toList, ?_, ?_⟩
    · obtain rfl | rfl := hcommand <;> decide
    · obtain rfl | rfl := hcommand <;> decide
    · simp only [List.mem_append, not_or]
      exact ⟨⟨by decide, hnode⟩, by decide⟩
    · rw [hend, ← List.append_assoc]

theorem isLine_sendCommandZigbee {item : LinkButton} {line : Text}
    (hline : Link.sendCommandZigbee item = some line) (hstate : '\n' ∉ item.stateButton)
    (htake : '\n' ∉ item.idButton.take 6) (hend : item.idButton.getLast? ≠ some '\n') :
    IsLine line := by
  obtain ⟨endpoint, hendpoint, hbuffer⟩ := Option.bind_eq_some_iff.mp hline
  rw [intoBuffer, Option.ite_none_right_eq_some] at hbuffer
  obtain rfl := Option.some.inj hbuffer.2
  have hlast : '\n' ≠ endpoint := fun heq => hend (heq ▸ hendpoint)
  refine ⟨"custom action-onoff ".toList ++ item.stateButton ++ " ".toList ++
    item.idButton.take 6 ++ " ".toList ++ [endpoint], ?_, rfl⟩
  simp only [List.mem_append, not_or, List.mem_singleton]
  exact ⟨⟨⟨⟨⟨by decide, hstate⟩, by decide⟩, htake⟩, by decide⟩, hlast⟩

/-- The lock commands among lines. -/
def lockCommands (lines : List Text) : List Text := (lines.map List.dropLast).filter isLock

theorem lockCommands_append (ls ls' : List Text) :
    lockCommands (ls ++ ls') = lockCommands ls ++ lockCommands ls' := by
  simp [lockCommands]

theorem lockCommands_dispatch (hanalyze : analyzeSubMqtt lib item Cmd.zero = some c)
    (hd : dispatch linkButton item c = some effects) :
    lockCommands (linesOf effects) = Serial.Event.lockPair lib (.message item) := by
  have hfits := fits_of_analyzeSubMqtt hanalyze
  have hlines : ∀ command : String, lockCommands (lockLines command c) =
      ["zcl lock ".toList ++ command.toList ++ " \"000000\"".toList,
        "send ".toList ++ c.nodeID ++ " 0x01 0x01".toList] := by
    intro command
    have hend : " 0x01 0x01\n".toList = " 0x01 0x01".toList ++ ['\n'] := by decide
    have hzcl : " \"000000\"\n".toList = " \"000000\"".toList ++ ['\n'] := by decide
    simp only [lockCommands, lockLines, hend, hzcl, ← List.append_assoc, List.map_cons,
      List.map_nil, List.dropLast_concat]
    rfl
  rw [Serial.Event.lockPair, hanalyze]
  dsimp only
  by_cases hlock : c.action = "lock".toList
  · rw [if_pos hlock, dispatch_lock hfits (.inl rfl) hlock hd, hlines]
    rfl
  by_cases hunlock : c.action = "unlock".toList
  · rw [if_neg hlock, if_pos hunlock, dispatch_lock hfits (.inr rfl) hunlock hd, hlines]
    rfl
  · rw [if_neg hlock, if_neg hunlock]
    obtain heq | heq | heq | ⟨-, heq⟩ | ⟨command, rfl | rfl, haction, -⟩ :=
      dispatch_cases hfits hd
    · rw [heq]
      rfl
    · rw [heq]
      decide
    · rw [heq]
      decide
    · rw [heq]
      rfl
    · exact absurd haction hlock
    · exact absurd haction hunlock

theorem lockCommands_sendCommandZigbee {item : LinkButton} {line : Text}
    (hline : Link.sendCommandZigbee item = some line) : lockCommands [line] = [] := by
  obtain ⟨endpoint, -, hbuffer⟩ := Option.bind_eq_some_iff.mp hline
  rw [intoBuffer, Option.ite_none_right_eq_some] at hbuffer
  obtain rfl := Option.some.inj hbuffer.2
  rfl

end

/-! ### Runs -/

namespace Serial

section

variable {lib : CJsonLib} {linkButton : Bool} {s s' : Serial} {e : Event} {es : List Event}

/-- What a step of the line can be. -/
theorem step_cases (h : s.step lib linkButton e = some s') :
    (e = .startNetwork ∧
      s' = { s.write .appMain Mqtt.startNetwork with started := true }) ∨
    (∃ item c effects, e = .message item ∧ s.todo = [] ∧
      analyzeSubMqtt lib item Cmd.zero = some c ∧ dispatch linkButton item c = some effects ∧
        s' = { s with todo := effects }) ∨
    (∃ effect todo, e = .effect ∧ s.todo = effect :: todo ∧ effect.line? = none ∧
      s' = { s with todo := todo }) ∨
    (∃ line todo, e = .effect ∧ s.todo = .uart line :: todo ∧
      s' = { s with todo := todo }.write .mqttHandle line) ∨
    (∃ item line, e = .command item ∧ Link.sendCommandZigbee item = some line ∧
      s' = s.write .sendCommandZigbee line) := by
  cases e with
  | startNetwork =>
    simp only [step, Option.ite_none_left_eq_some] at h
    exact .inl ⟨rfl, (Option.some.inj h.2).symm⟩
  | message item =>
    simp only [step, Option.ite_none_right_eq_some, List.isEmpty_iff] at h
    obtain ⟨htodo, hmap⟩ := h
    obtain ⟨effects, heffects, rfl⟩ := Option.map_eq_some_iff.mp hmap
    obtain ⟨c, hanalyze, hd⟩ := Option.bind_eq_some_iff.mp heffects
    exact .inr (.inl ⟨item, c, effects, rfl, htodo, hanalyze, hd, rfl⟩)
  | effect =>
    cases htodo : s.todo with
    | nil => simp [step, htodo] at h
    | cons effect todo =>
      cases effect with
      | espRestart => simp [step, htodo] at h
      | zigbeeBoot => simp [step, htodo] at h
      | uart line =>
        simp only [step, htodo] at h
        exact .inr (.inr (.inr (.inl ⟨line, todo, rfl, rfl, (Option.some.inj h).symm⟩)))
      | _ =>
        simp only [step, htodo] at h
        exact .inr (.inr (.inl ⟨_, todo, rfl, rfl, rfl, (Option.some.inj h).symm⟩))
  | command item =>
    obtain ⟨line, hline, rfl⟩ := Option.map_eq_some_iff.mp h
    exact .inr (.inr (.inr (.inr ⟨item, line, rfl, hline, rfl⟩)))

@[simp] theorem sentBy_write (s : Serial) (w : Writer) (line : Text) (w' : Writer) :
    (s.write w line).sentBy w' = s.sentBy w' ++ if w = w' then [line] else [] := by
  by_cases h : w = w' <;> simp [sentBy, write, List.filter_append, h]

/-- Each task has written what it was to write, in order, but for what it has in hand. -/
theorem accounted (run : Run (Steps (step lib linkButton)) start es s) (w : Writer) :
    s.sentBy w ++ s.pending w = es.flatMap (Event.lines lib linkButton w) := by
  apply run.history (I := fun es s => s.sentBy w ++ s.pending w =
    es.flatMap (Event.lines lib linkButton w))
  · cases w <;> rfl
  intro ds a e b hI hstep
  rw [List.flatMap_append, List.flatMap_singleton, ← hI]
  obtain ⟨rfl, rfl⟩ | ⟨item, c, effects, rfl, htodo, hanalyze, hd, rfl⟩ |
    ⟨effect, todo, rfl, htodo, hline, rfl⟩ | ⟨line, todo, rfl, htodo, rfl⟩ |
    ⟨item, line, rfl, hline, rfl⟩ := step_cases hstep
  · cases w <;> simp [sentBy, write, pending, Event.lines]
  · cases w with
    | mqttHandle =>
      simp [sentBy, pending, Event.lines, htodo, mqttHandle, hanalyze, hd, linesOf]
    | _ => simp [sentBy, pending, Event.lines]
  · cases w with
    | mqttHandle => simp [sentBy, pending, Event.lines, htodo, linesOf, hline]
    | _ => simp [sentBy, pending, Event.lines]
  · cases w with
    | mqttHandle => simp [sentBy, write, pending, Event.lines, htodo, linesOf, Effect.line?]
    | _ => simp [sentBy, write, pending, Event.lines]
  · cases w <;> simp [sentBy, write, pending, Event.lines, hline]

/-- The chip has read what was written, line by line, and what is to be written are lines. -/
structure Whole (s : Serial) : Prop where
  finished : finished '\n' s.uart = s.sent.map fun p => p.2.dropLast
  unfinished : unfinished '\n' s.uart = []
  todo : ∀ line ∈ linesOf s.todo, IsLine line

theorem Whole.write (h : s.Whole) (w : Writer) {line : Text} (hline : IsLine line) :
    (s.write w line).Whole := by
  obtain ⟨command, hnewline, rfl⟩ := hline
  obtain ⟨hfinished, hunfinished⟩ := split_line hnewline s.uart
  refine ⟨?_, hunfinished, h.todo⟩
  show Lib.finished '\n' (s.uart ++ (command ++ ['\n'])) = _
  rw [hfinished, h.finished, h.unfinished]
  simp [Serial.write]

theorem Whole.step (h : s.Whole) (hstep : s.step lib linkButton e = some s')
    (hclean : e.Clean lib) : s'.Whole := by
  obtain ⟨rfl, rfl⟩ | ⟨item, c, effects, rfl, htodo, hanalyze, hd, rfl⟩ |
    ⟨effect, todo, rfl, htodo, hline, rfl⟩ | ⟨line, todo, rfl, htodo, rfl⟩ |
    ⟨item, line, rfl, hline, rfl⟩ := step_cases hstep
  · have hline : IsLine Mqtt.startNetwork :=
      ⟨"custom action-start-network".toList, by decide, by decide⟩
    obtain ⟨hfinished, hunfinished, htodo⟩ := h.write .appMain hline
    exact ⟨hfinished, hunfinished, htodo⟩
  · exact ⟨h.finished, h.unfinished,
      isLine_linesOf (fits_of_analyzeSubMqtt hanalyze) (hclean c hanalyze) hd⟩
  · refine ⟨h.finished, h.unfinished, fun line hmem => h.todo line ?_⟩
    rwa [htodo, linesOf, List.filterMap_cons, hline]
  · have hlines : linesOf s.todo = line :: linesOf todo := by
      rw [htodo]
      rfl
    have hpopped : Whole { s with todo := todo } :=
      ⟨h.finished, h.unfinished, fun line' hmem => h.todo line' (by simp [hlines, hmem])⟩
    exact hpopped.write .mqttHandle (h.todo line (by simp [hlines]))
  · exact h.write .sendCommandZigbee (isLine_sendCommandZigbee hline hclean.1 hclean.2.1
      hclean.2.2)

/-- The lock commands written and to be written are those of the messages. -/
theorem lockCommands_run (run : Run (Steps (step lib linkButton)) start es s) :
    lockCommands (s.sent.map Prod.snd) ++ lockCommands (linesOf s.todo) =
      es.flatMap (Event.lockPair lib) := by
  apply run.history (I := fun es s => lockCommands (s.sent.map Prod.snd) ++
    lockCommands (linesOf s.todo) = es.flatMap (Event.lockPair lib)) rfl
  intro ds a e b hI hstep
  rw [List.flatMap_append, List.flatMap_singleton, ← hI]
  have hwrite : ∀ w line, lockCommands ((a.write w line).sent.map Prod.snd) =
      lockCommands (a.sent.map Prod.snd) ++ lockCommands [line] := by
    intro w line
    rw [← lockCommands_append]
    simp [write]
  obtain ⟨rfl, rfl⟩ | ⟨item, c, effects, rfl, htodo, hanalyze, hd, rfl⟩ |
    ⟨effect, todo, rfl, htodo, hline, rfl⟩ | ⟨line, todo, rfl, htodo, rfl⟩ |
    ⟨item, line, rfl, hline, rfl⟩ := step_cases hstep
  · have hnetwork : lockCommands [Mqtt.startNetwork] = [] := by decide
    show lockCommands ((a.write _ _).sent.map Prod.snd) ++ lockCommands (linesOf a.todo) = _
    rw [hwrite, hnetwork]
    simp [Event.lockPair]
  · rw [← lockCommands_dispatch hanalyze hd, htodo]
    simp [linesOf, lockCommands]
  · have hlines : linesOf a.todo = linesOf todo := by
      rw [htodo, linesOf, List.filterMap_cons, hline]
      rfl
    rw [hlines]
    simp [Event.lockPair]
  · have hlines : linesOf a.todo = [line] ++ linesOf todo := by
      rw [htodo]
      rfl
    have hsent : lockCommands (({ a with todo := todo }.write .mqttHandle line).sent.map Prod.snd) =
        lockCommands (a.sent.map Prod.snd) ++ lockCommands [line] := hwrite .mqttHandle line
    rw [hsent, hlines, lockCommands_append, List.append_assoc]
    simp [write, Event.lockPair]
  · rw [hwrite, lockCommands_sendCommandZigbee hline]
    simp [write, Event.lockPair]

/-- While no field has a newline the chip reads each command as it was written, whoever wrote before
or in between, and the commands of each task are those of its events, in order. -/
theorem commands_whole
    (run : Run (Guarded (Steps (step lib linkButton)) fun _ e => e.Clean lib) start es s) :
    finished '\n' s.uart = (s.sent.map fun p => p.2.dropLast) ∧ unfinished '\n' s.uart = [] ∧
      ∀ w, s.sentBy w ++ s.pending w = es.flatMap (Event.lines lib linkButton w) := by
  have hwhole : s.Whole := by
    refine run.invariant ⟨rfl, rfl, fun line hmem => ?_⟩ fun a e b h hstep =>
      h.step hstep.1 hstep.2
    simp [start, linesOf] at hmem
  exact ⟨hwhole.finished, hwhole.unfinished, accounted (run.mono fun a e b hstep => hstep.1)⟩

/-- The message that locks a door. -/
def lockDoor : Text := "\x7b\"action\":\"lock\",\"nodeId\":\"0x1A2B\"\x7d".toList

/-- The library on the message. -/
def doorLib : CJsonLib where
  parse := fun text =>
    if text = lockDoor then
      some (.mk none none 0 [stringItem "action" "lock", stringItem "nodeId" "0x1A2B"])
    else none
  getObjectItem := fun _ _ => none
  getArrayItem := fun _ _ => none

/-- A link switches a lamp on between the two commands of the lock. -/
def between : List Event :=
  [.startNetwork, .message lockDoor, .effect, .command ⟨"on".toList, "0x0005zigbee1".toList⟩,
    .effect]

/-- The line after these events. -/
def betweenRun : Option Serial :=
  exec (restrict (step doorLib true) fun _ e => decide (e.Clean doorLib)) start between

theorem commands_whole_between :
    ∃ s : Serial, betweenRun = some s ∧ finished '\n' s.uart = ["custom action-start-network".toList,
        "zcl lock lock \"000000\"".toList, "custom action-onoff on 0x0005 1".toList,
        "send 0x1A2B 0x01 0x01".toList] ∧ unfinished '\n' s.uart = [] ∧
      ∀ w, s.sentBy w ++ s.pending w = between.flatMap (Event.lines doorLib true w) := by
  have hsome : betweenRun.isSome := by decide +kernel
  obtain ⟨s, hs⟩ := Option.isSome_iff_exists.mp hsome
  have hsent : betweenRun.map (fun s => s.sent.map fun p => p.2.dropLast) =
      some ["custom action-start-network".toList, "zcl lock lock \"000000\"".toList,
        "custom action-onoff on 0x0005 1".toList, "send 0x1A2B 0x01 0x01".toList] := by
    decide +kernel
  rw [hs] at hsent
  obtain ⟨hfinished, hunfinished, hlines⟩ :=
    commands_whole (Run.of_exec_restrict (fun _ _ => of_decide_eq_true) hs)
  exact ⟨s, hs, hfinished.trans (Option.some.inj hsent), hunfinished, hlines⟩

/-- The lock commands that the chip reads, with those in hand, are one pair for each message that
locks or unlocks, each pair before the next: no other message comes between its two commands. -/
theorem locks_paired
    (run : Run (Guarded (Steps (step lib linkButton)) fun _ e => e.Clean lib) start es s) :
    (finished '\n' s.uart).filter isLock ++ lockCommands (linesOf s.todo) =
      es.flatMap (Event.lockPair lib) := by
  have hlock := lockCommands_run (run.mono fun a e b hstep => hstep.1)
  rw [lockCommands, List.map_map] at hlock
  rw [(commands_whole run).1]
  exact hlock

theorem locks_paired_between :
    ∃ s : Serial, betweenRun = some s ∧
      (finished '\n' s.uart).filter isLock ++ lockCommands (linesOf s.todo) =
        ["zcl lock lock \"000000\"".toList, "send 0x1A2B 0x01 0x01".toList] := by
  have hsome : betweenRun.isSome := by decide +kernel
  obtain ⟨s, hs⟩ := Option.isSome_iff_exists.mp hsome
  have hpair : between.flatMap (Event.lockPair doorLib) =
      ["zcl lock lock \"000000\"".toList, "send 0x1A2B 0x01 0x01".toList] := by decide +kernel
  have hrun := Run.of_exec_restrict (fun _ _ => of_decide_eq_true) hs
  exact ⟨s, hs, (locks_paired hrun).trans hpair⟩

end

end Serial

end VhomeBridge.Mqtt
