import VhomeBridge.Link.Commands

/-! Linked Zigbee buttons whose devices report each change of their state.  `uart_rx_task` makes an
event of every report, whoever caused the change, so a command leads to a report, an event and new
commands.  Reports and commands under way are taken in any order.  As long as all that is under way
carries one value it comes to an end, since a device changes to this value only once; with both
values under way it can go round for ever. -/

namespace VhomeBridge.Link.Echo

open Lib

/-- The state of a device, as it is and as it reports it. -/
structure Device where
  nodeId : Text
  endpoint : Nat
  on : Bool
  deriving DecidableEq

/-- The id that `uart_rx_task` makes of a report. -/
def Device.key (d : Device) : Text := d.nodeId ++ "zigbee".toList ++ Text.decimal d.endpoint

def value (on : Bool) : Text := if on then "on".toList else "off".toList

/-- The line that puts the device into a state. -/
def Device.line (d : Device) (on : Bool) : Text :=
  "custom action-onoff ".toList ++ value on ++ " ".toList ++ d.nodeId ++ " ".toList ++
    Text.decimal d.endpoint ++ "\n".toList

def Device.take (line : Text) (d : Device) : Device :=
  if line = d.line true then { d with on := true }
  else if line = d.line false then { d with on := false }
  else d

def Device.switch (nodeId : Text) (endpoint : Nat) (on : Bool) (d : Device) : Device :=
  if d.nodeId = nodeId ∧ d.endpoint = endpoint then { d with on := on } else d

/-- The devices, their reports under way and the tasks; `uart` of the tasks has the lines under
way. -/
structure Home where
  devices : List Device
  reports : List Device
  tasks : Tasks
  deriving DecidableEq

namespace Home

def start (devices : List Device) : Home := ⟨devices, [], Tasks.start⟩

inductive Event
  | press (nodeId : Text) (endpoint : Nat) (on : Bool)
  | report (i : Nat)
  | sendIdButton
  | sendCommandZigbee
  | command (i : Nat)
  deriving DecidableEq

/-- Devices that change report their new state. -/
def change (s : Home) (f : Device → Device) : Home :=
  { s with
    devices := s.devices.map f
    reports := s.reports ++ (s.devices.filter fun d => f d ≠ d).map f }

def step (map : MapStr) (s : Home) : Event → Option Home
  | .press nodeId endpoint on => some (s.change (Device.switch nodeId endpoint on))
  | .report i => do
    let report ← s.reports[i]?
    let tasks ← s.tasks.step map (.put report.key report.on)
    return { s with reports := s.reports.eraseIdx i, tasks := tasks }
  | .sendIdButton => (s.tasks.step map .sendIdButton).map fun tasks => { s with tasks := tasks }
  | .sendCommandZigbee =>
    (s.tasks.step map .sendCommandZigbee).map fun tasks => { s with tasks := tasks }
  | .command i => do
    let line ← s.tasks.uart[i]?
    let s := { s with tasks := { s.tasks with uart := s.tasks.uart.eraseIdx i } }
    return s.change (Device.take line)

/-- The queue that the next step puts something on has room for it. -/
def HasRoom (s : Home) : Event → Prop
  | .report _ => s.tasks.queueIdButton.length < 100
  | .sendIdButton => s.tasks.HasRoom .sendIdButton
  | _ => True

instance (s : Home) (e : Event) : Decidable (s.HasRoom e) :=
  match e with
  | .press .. => .isTrue trivial
  | .report _ => inferInstanceAs (Decidable (_ < _))
  | .sendIdButton => inferInstanceAs (Decidable (s.tasks.HasRoom .sendIdButton))
  | .sendCommandZigbee => .isTrue trivial
  | .command _ => .isTrue trivial

/-- There is room and nobody presses a button. -/
def Calm (s : Home) : Event → Prop
  | .press .. => False
  | e => s.HasRoom e

instance (s : Home) (e : Event) : Decidable (s.Calm e) :=
  match e with
  | .press .. => .isFalse id
  | .report i => inferInstanceAs (Decidable (s.HasRoom (.report i)))
  | .sendIdButton => inferInstanceAs (Decidable (s.HasRoom .sendIdButton))
  | .sendCommandZigbee => inferInstanceAs (Decidable (s.HasRoom .sendCommandZigbee))
  | .command i => inferInstanceAs (Decidable (s.HasRoom (.command i)))

/-- The same devices, the same queues, and the same reports and lines under way in some order. -/
structure Same (s t : Home) : Prop where
  devices : s.devices = t.devices
  reports : s.reports.Perm t.reports
  queues : s.tasks = { t.tasks with uart := s.tasks.uart }
  uart : s.tasks.uart.Perm t.tasks.uart

theorem Same.refl (s : Home) : Same s s := ⟨rfl, .refl _, rfl, .refl _⟩

/-- With no press after `s`, the home never comes back to where it has been. -/
def NeverEchoes (map : MapStr) (s : Home) : Prop :=
  ∀ (ds : List Event) (t : Home) (es : List Event) (u : Home),
    Run (Guarded (Steps (step map)) Calm) s ds t → es ≠ [] →
      Run (Guarded (Steps (step map)) Calm) t es u → ¬Same t u

end Home

/-! ### One value under way -/

/-- The number of steps of the tasks that an event can still lead to. -/
def cost (map : MapStr) (id : Text) : Nat :=
  3 * (((mapGet map id).map (strtok [])).getD []).length + 2

/-- All events, items and lines under way have the value `v`. -/
structure TasksCarry (v : Bool) (s : Tasks) : Prop where
  queueIdButton : ∀ i ∈ s.queueIdButton, i.stateButton = value v
  sending : ∀ p ∈ s.sending, p.1.stateButton = value v
  queueCmdZigbee : ∀ i ∈ s.queueCmdZigbee, i.stateButton = value v
  uart : ∀ line ∈ s.uart, "custom action-onoff ".toList ++ value v ++ " ".toList <+: line

/-- The steps that what is under way can still lead to, reports aside. -/
def tasksWeight (map : MapStr) (s : Tasks) : Nat :=
  (s.queueIdButton.map fun i => cost map i.idButton).sum +
    (s.sending.map fun p => 3 * p.2.length + 1).getD 0 + 2 * s.queueCmdZigbee.length +
    s.uart.length

section Tasks

variable {map : MapStr} {v : Bool} {s s' : Tasks} {id : Text}

theorem mem_send {room : Nat} {queue : List LinkButton} {i j : LinkButton}
    (h : j ∈ Tasks.send room queue i) : j ∈ queue ∨ j = i := by
  unfold Tasks.send at h
  split at h
  · simpa using h
  · exact .inl h

theorem length_send (room : Nat) (queue : List LinkButton) (i : LinkButton) :
    (Tasks.send room queue i).length ≤ queue.length + 1 := by
  unfold Tasks.send
  split
  · simp
  · omega

theorem TasksCarry.put (h : TasksCarry v s)
    (hstep : s.step map (.put id v) = some s') :
    TasksCarry v s' ∧ tasksWeight map s' ≤ tasksWeight map s + cost map id := by
  obtain rfl := Option.some.inj hstep
  constructor
  · refine { h with queueIdButton := fun i hi => ?_ }
    rcases mem_send hi with hi | rfl
    · exact h.queueIdButton i hi
    · rfl
  · simp only [tasksWeight, Tasks.send]
    split
    · simp [Tasks.item]
      omega
    · omega

theorem TasksCarry.sendIdButton (h : TasksCarry v s)
    (hstep : s.step map .sendIdButton = some s') :
    TasksCarry v s' ∧ tasksWeight map s' < tasksWeight map s := by
  obtain ⟨i, token, tokens, hsending, -, rfl⟩ | ⟨i, token, tokens, hsending, -, rfl⟩ |
    ⟨i, hsending, rfl⟩ | ⟨i, queue, hsending, hqueue, rfl⟩ := Tasks.step_sendIdButton hstep
  · have hi : i.stateButton = value v := h.sending _ hsending
    constructor
    · refine { h with sending := ?_ }
      rintro p ⟨⟩
      exact hi
    · simp only [tasksWeight, hsending, Option.map_some, Option.getD_some, List.length_cons]
      omega
  · have hi : i.stateButton = value v := h.sending _ hsending
    constructor
    · refine { h with sending := ?_, queueCmdZigbee := ?_ }
      · rintro p ⟨⟩
        exact hi
      · intro j hj
        rcases mem_send hj with hj | rfl
        · exact h.queueCmdZigbee j hj
        · exact hi
    · have := length_send 50 s.queueCmdZigbee { i with idButton := token }
      simp only [tasksWeight, hsending, Option.map_some, Option.getD_some, List.length_cons]
      omega
  · constructor
    · refine { h with sending := ?_ }
      rintro p ⟨⟩
    · simp [tasksWeight, hsending]
  · constructor
    · refine { h with queueIdButton := fun j hj => ?_, sending := ?_ }
      · exact h.queueIdButton j (by simp [hqueue, hj])
      · rintro p hp
        obtain ⟨ids, -, rfl⟩ := Option.map_eq_some_iff.mp hp
        exact h.queueIdButton i (by simp [hqueue])
    · -- the cost of an event counts the tokens of its list
      cases hget : mapGet map i.idButton with
      | none => simp [tasksWeight, hsending, hqueue, cost, hget]
      | some ids =>
        simp only [tasksWeight, hsending, hqueue, cost, hget, Option.map_some, Option.map_none,
          Option.getD_some, Option.getD_none, List.map_cons, List.sum_cons]
        omega

/-- The line of an item has the value of the item. -/
theorem sendCommandZigbee_value {i : LinkButton} {line : Text}
    (h : Link.sendCommandZigbee i = some line) :
    "custom action-onoff ".toList ++ i.stateButton ++ " ".toList <+: line := by
  simp only [Link.sendCommandZigbee, intoBuffer, Bind.bind, Option.bind_eq_some_iff] at h
  obtain ⟨endpoint, -, hline⟩ := h
  split at hline
  · obtain rfl := Option.some.inj hline
    simp only [List.append_assoc, List.prefix_append_right_inj]
    exact List.prefix_append ..
  · contradiction

theorem TasksCarry.sendCommandZigbee (h : TasksCarry v s)
    (hstep : s.step map .sendCommandZigbee = some s') :
    TasksCarry v s' ∧ tasksWeight map s' < tasksWeight map s := by
  obtain ⟨i, queue, line, hqueue, hline, rfl⟩ := Tasks.step_sendCommandZigbee hstep
  constructor
  · refine { h with queueCmdZigbee := fun j hj => ?_, uart := fun l hl => ?_ }
    · exact h.queueCmdZigbee j (by simp [hqueue, hj])
    · rcases List.mem_append.mp hl with hl | hl
      · exact h.uart l hl
      · obtain rfl := List.mem_singleton.mp hl
        rw [← h.queueCmdZigbee i (by simp [hqueue])]
        exact sendCommandZigbee_value hline
  · simp only [tasksWeight, hqueue, List.length_cons, List.length_append, List.length_nil]
    omega

end Tasks

theorem sum_eraseIdx {α : Type*} {l : List α} {i : Nat} {a : α} (f : α → Nat)
    (h : l[i]? = some a) : f a + ((l.eraseIdx i).map f).sum = (l.map f).sum := by
  obtain ⟨hi, rfl⟩ := List.getElem?_eq_some_iff.mp h
  exact ((List.getElem_cons_eraseIdx_perm hi).map f).sum_nat

theorem value_inj {v : Bool} {command rest : Text}
    (h : command ++ value v ++ " ".toList <+: command ++ value (!v) ++ " ".toList ++ rest) :
    False := by
  have hboth := List.prefix_or_prefix_of_prefix h (List.prefix_append ..)
  simp only [List.append_assoc, List.prefix_append_right_inj] at hboth
  clear h
  revert hboth
  cases v <;> decide

theorem Device.line_ne {v : Bool} {line : Text} (d : Device)
    (h : "custom action-onoff ".toList ++ value v ++ " ".toList <+: line) :
    line ≠ d.line (!v) := by
  intro hline
  have hrest : d.line (!v) = "custom action-onoff ".toList ++ value (!v) ++ " ".toList ++
      (d.nodeId ++ (" ".toList ++ (Text.decimal d.endpoint ++ "\n".toList))) := by
    unfold Device.line
    simp only [List.append_assoc]
  rw [hline, hrest] at h
  exact value_inj h

theorem Device.take_of_carries {v : Bool} {line : Text} (d : Device)
    (h : "custom action-onoff ".toList ++ value v ++ " ".toList <+: line) :
    d.take line = d ∨ d.take line = { d with on := v } := by
  have hother := d.line_ne h
  unfold Device.take
  cases v with
  | true =>
    rw [if_neg (show ¬line = d.line false from hother)]
    split
    · exact .inr rfl
    · exact .inl rfl
  | false =>
    rw [if_neg (show ¬line = d.line true from hother)]
    split
    · exact .inr rfl
    · exact .inl rfl

namespace Home

structure Carries (v : Bool) (s : Home) : Prop where
  reports : ∀ r ∈ s.reports, r.on = v
  tasks : TasksCarry v s.tasks

/-- The steps that a device can still lead to: it changes to `v` at most once. -/
def toCome (map : MapStr) (v : Bool) (d : Device) : Nat :=
  if d.on = v then 0 else cost map d.key + 1

def weight (map : MapStr) (v : Bool) (s : Home) : Nat :=
  (s.devices.map (toCome map v)).sum + (s.reports.map fun r => cost map r.key + 1).sum +
    tasksWeight map s.tasks

section Weight

variable {map : MapStr} {v : Bool} {s s' : Home} {f : Device → Device}

/-- What a change takes from the devices it adds to the reports. -/
theorem weight_change (hf : ∀ d, f d = d ∨ f d = { d with on := v }) :
    (s.change f).weight map v = s.weight map v := by
  have hdevices (l : List Device) :
      ((l.map f).map (toCome map v)).sum +
          (((l.filter fun d => f d ≠ d).map f).map fun r => cost map r.key + 1).sum =
        (l.map (toCome map v)).sum := by
    induction l with
    | nil => rfl
    | cons d l ih =>
      rcases hf d with hd | hd
      · simp only [List.map_cons, List.sum_cons, List.filter_cons, hd, ne_eq, not_true_eq_false,
          decide_false, Bool.false_eq_true, if_false] at ih ⊢
        omega
      · by_cases hon : d.on = v
        · have hd : f d = d := by rw [hd, ← hon]
          simp only [List.map_cons, List.sum_cons, List.filter_cons, hd, ne_eq, not_true_eq_false,
            decide_false, Bool.false_eq_true, if_false] at ih ⊢
          omega
        · have hne : f d ≠ d := by
            rw [hd]
            intro h
            exact hon (congrArg Device.on h).symm
          have hkey : (f d).key = d.key := by rw [hd]; rfl
          have hnew : toCome map v (f d) = 0 := by rw [hd]; exact if_pos rfl
          have hold : toCome map v d = cost map d.key + 1 := if_neg hon
          simp only [List.map_cons, List.sum_cons, List.filter_cons, decide_eq_true hne, if_true,
            hkey, hnew, hold] at ih ⊢
          omega
  have := hdevices s.devices
  simp only [weight, change, List.map_append, List.sum_append] at this ⊢
  omega

theorem Carries.change (h : s.Carries v) (hf : ∀ d, f d = d ∨ f d = { d with on := v }) :
    (s.change f).Carries v := by
  refine ⟨fun r hr => ?_, h.tasks⟩
  rcases List.mem_append.mp hr with hr | hr
  · exact h.reports r hr
  · obtain ⟨d, hd, rfl⟩ := List.mem_map.mp hr
    have hne : f d ≠ d := by simpa using (List.mem_filter.mp hd).2
    rw [(hf d).resolve_left hne]

theorem Carries.report {i : Nat} (h : s.Carries v) (hstep : step map s (.report i) = some s') :
    s'.Carries v ∧ s'.weight map v < s.weight map v := by
  simp only [step, Bind.bind, Option.bind_eq_some_iff, pure, Option.some.injEq] at hstep
  obtain ⟨r, hr, tasks, htasks, rfl⟩ := hstep
  rw [h.reports r (List.mem_of_getElem? hr)] at htasks
  obtain ⟨hcarry, hle⟩ := h.tasks.put htasks
  refine ⟨⟨fun r hr => h.reports r (List.mem_of_mem_eraseIdx hr), hcarry⟩, ?_⟩
  have := sum_eraseIdx (fun r => cost map r.key + 1) hr
  simp only [weight] at this ⊢
  omega

theorem Carries.command {i : Nat} (h : s.Carries v) (hstep : step map s (.command i) = some s') :
    s'.Carries v ∧ s'.weight map v < s.weight map v := by
  simp only [step, Bind.bind, Option.bind_eq_some_iff, pure, Option.some.injEq] at hstep
  obtain ⟨line, hline, rfl⟩ := hstep
  have htake (d : Device) := d.take_of_carries (h.tasks.uart line (List.mem_of_getElem? hline))
  have hcarry : ({ s with tasks := { s.tasks with uart := s.tasks.uart.eraseIdx i } } :
      Home).Carries v :=
    ⟨h.reports, { h.tasks with uart := fun l hl => h.tasks.uart l (List.mem_of_mem_eraseIdx hl) }⟩
  refine ⟨hcarry.change htake, ?_⟩
  rw [weight_change htake]
  have : s.tasks.uart.length = (s.tasks.uart.eraseIdx i).length + 1 := by
    obtain ⟨hi, -⟩ := List.getElem?_eq_some_iff.mp hline
    rw [List.length_eraseIdx_of_lt hi]
    omega
  simp only [weight, tasksWeight]
  omega

/-- Each step without a press keeps the value and leaves less to come. -/
theorem Carries.step {e : Event} (h : s.Carries v)
    (hstep : Guarded (Steps (step map)) Calm s e s') :
    s'.Carries v ∧ s'.weight map v < s.weight map v := by
  obtain ⟨hstep, hcalm⟩ := hstep
  cases e with
  | press nodeId endpoint on => exact hcalm.elim
  | report i => exact h.report hstep
  | sendIdButton =>
    obtain ⟨tasks, htasks, rfl⟩ := Option.map_eq_some_iff.mp hstep
    obtain ⟨hcarry, hlt⟩ := h.tasks.sendIdButton htasks
    exact ⟨⟨h.reports, hcarry⟩, Nat.add_lt_add_left hlt _⟩
  | sendCommandZigbee =>
    obtain ⟨tasks, htasks, rfl⟩ := Option.map_eq_some_iff.mp hstep
    obtain ⟨hcarry, hlt⟩ := h.tasks.sendCommandZigbee htasks
    exact ⟨⟨h.reports, hcarry⟩, Nat.add_lt_add_left hlt _⟩
  | command i => exact h.command hstep

theorem Same.weight {t : Home} (h : Same s t) : s.weight map v = t.weight map v := by
  have hreports := (h.reports.map fun r => cost map r.key + 1).sum_nat
  have huart := h.uart.length_eq
  have hid : s.tasks.queueIdButton = t.tasks.queueIdButton := by rw [h.queues]
  have hsending : s.tasks.sending = t.tasks.sending := by rw [h.queues]
  have hzigbee : s.tasks.queueCmdZigbee = t.tasks.queueCmdZigbee := by rw [h.queues]
  simp only [Home.weight, tasksWeight, h.devices, hreports, huart, hid, hsending, hzigbee]

/-- As long as all that is under way has one value, the links do not echo. -/
theorem neverEchoes_of_carries (h : s.Carries v) : NeverEchoes map s := by
  intro ds t es u hrun hne hcycle hsame
  have ht : t.Carries v := hrun.invariant h fun _ _ _ ha hstep => (ha.step hstep).1
  have hweight : u.weight map v + es.length ≤ t.weight map v :=
    hcycle.measure ht (fun _ _ _ ha hstep => (ha.step hstep).1)
      fun _ _ _ ha hstep => (ha.step hstep).2
  have hlength : es.length ≠ 0 := by simpa using hne
  rw [hsame.weight] at hweight
  omega

end Weight

/-- The state after one press when nothing is under way. -/
theorem carries_press {map : MapStr} {s s' : Home} {nodeId : Text} {endpoint : Nat} {on : Bool}
    (hreports : s.reports = []) (hquiet : s.tasks.Quiet) (huart : s.tasks.uart = [])
    (hstep : step map s (.press nodeId endpoint on) = some s') : s'.Carries on := by
  obtain rfl := Option.some.inj hstep
  obtain ⟨hid, hsending, hzigbee, -⟩ := hquiet
  have hcarries : s.Carries on := by
    constructor
    · simp [hreports]
    · constructor <;> simp [hid, hsending, hzigbee, huart]
  apply hcarries.change
  intro d
  unfold Device.switch
  split
  · exact .inr rfl
  · exact .inl rfl

/-! ### Two buttons pressed at once -/

def twoButtons : Document :=
  config [[zigbeeButton ⟨"0x3C4D".toList, rfl⟩, zigbeeButton ⟨"0x5E6F".toList, rfl⟩]]

def twoButtonsGroup : List Button :=
  [⟨"0x3C4D".toList, "zigbee".toList, "1".toList⟩, ⟨"0x5E6F".toList, "zigbee".toList, "1".toList⟩]

theorem twoButtons_configures : twoButtons.root.Configures [twoButtonsGroup] := by
  refine ⟨_, rfl, .cons ⟨_, rfl, .cons ⟨_, rfl, ?_, ?_, ?_⟩ (.cons ⟨_, rfl, ?_, ?_, ?_⟩ .nil)⟩ .nil⟩
  all_goals decide

theorem twoButtons_plain : Plain [twoButtonsGroup] := by
  refine ⟨by decide, ?_, by decide⟩
  intro b hb
  have hb : b = ⟨"0x3C4D".toList, "zigbee".toList, "1".toList⟩ ∨
      b = ⟨"0x5E6F".toList, "zigbee".toList, "1".toList⟩ := by
    simpa [twoButtonsGroup] using hb
  rcases hb with rfl | rfl
  · exact ⟨⟨"3C4D".toList, by decide, by decide, by decide⟩, .inr rfl, '1', by decide⟩
  · exact ⟨⟨"5E6F".toList, by decide, by decide, by decide⟩, .inr rfl, '1', by decide⟩

def twoDevices (on : Bool) : List Device :=
  [⟨"0x3C4D".toList, 1, on⟩, ⟨"0x5E6F".toList, 1, !on⟩]

theorem neverEchoes_of_carries_press : ∃ map s, jsonParsing twoButtons.text = some map ∧
    Run (Guarded (Steps (step map)) HasRoom) (start (twoDevices false))
      [.press "0x3C4D".toList 1 true] s ∧ NeverEchoes map s := by
  have hsome : (jsonParsing twoButtons.text).isSome = true := by decide
  obtain ⟨map, hmap⟩ := Option.isSome_iff_exists.mp hsome
  have hstep : step map (start (twoDevices false)) (.press "0x3C4D".toList 1 true) =
      some ((start (twoDevices false)).change (Device.switch "0x3C4D".toList 1 true)) := rfl
  have hcarries := carries_press rfl ⟨rfl, rfl, rfl, rfl⟩ rfl hstep
  exact ⟨map, _, hmap, Run.single ⟨hstep, trivial⟩, neverEchoes_of_carries hcarries⟩

def bothPressed : Home := ⟨twoDevices true, twoDevices true, Tasks.start⟩

/-- Both reports lead to a command to the other button. -/
def exchange : List Event :=
  [.report 0, .report 0, .sendIdButton, .sendIdButton, .sendIdButton, .sendIdButton, .sendIdButton,
    .sendIdButton, .sendCommandZigbee, .sendCommandZigbee, .command 0, .command 0]

theorem bothPressed_run : ((jsonParsing twoButtons.text).bind fun map =>
    exec (restrict (step map) fun s e => decide (HasRoom s e)) (start (twoDevices false))
      [.press "0x3C4D".toList 1 true, .press "0x5E6F".toList 1 false]) = some bothPressed := by
  decide

theorem exchange_run : ((jsonParsing twoButtons.text).bind fun map =>
    exec (restrict (step map) fun s e => decide (Calm s e)) bothPressed
      (exchange ++ exchange)) = some bothPressed := by
  decide +kernel

/-- When the first button of two is pressed on and the second off before either report is taken,
the two values go round for ever. -/
theorem bothPressed_echoes :
    ¬ ∀ (doc : Document) (group : List Button) (map : MapStr) (devices : List Device)
      (es : List Event) (s : Home),
      doc.root.Configures [group] → Plain [group] → 2 ≤ group.length →
        (∀ b ∈ group, b.protocol = "zigbee".toList) → jsonParsing doc.text = some map →
          devices.map Device.key = group.map Button.key →
            Run (Guarded (Steps (step map)) HasRoom) (start devices) es s → NeverEchoes map s := by
  intro h
  obtain ⟨map, hmap, hpressed⟩ := Option.bind_eq_some_iff.mp bothPressed_run
  have hexchange := exchange_run
  rw [hmap, Option.bind_some] at hexchange
  have hpressed := Run.of_exec_restrict (G := HasRoom) (fun _ _ => of_decide_eq_true) hpressed
  have hexchange := Run.of_exec_restrict (G := Calm) (fun _ _ => of_decide_eq_true) hexchange
  have hnever := h twoButtons twoButtonsGroup map (twoDevices false) _ _ twoButtons_configures
    twoButtons_plain (by decide) (by decide) hmap (by decide) hpressed
  exact hnever [] _ _ _ .nil (by decide) hexchange (.refl _)

end Home

end VhomeBridge.Link.Echo
