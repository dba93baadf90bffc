import VhomeBridge.Main.Uplink
import VhomeBridge.Mqtt.Serial

/-! The links from end to end.  Three tasks put link events on one queue: `uart_rx_task` for what
the Zigbee chip reports, `mqtt_handle` for what a user switches, and the callback of the generic
client for what BLE nodes publish.  From there the tasks of the links lead to the lines that the
chip reads, and `mqtt_handle` writes lines of its own in between.  A run is one between two changes
of the configuration. -/

namespace VhomeBridge.Main

open Lib Ble Link JsonUser Zigbee Mqtt

/-- The tasks that put link events on the queue. -/
inductive Sender
  | uartRxTask
  | mqttHandle
  | bleMeshGenericClientCb
  deriving DecidableEq

/-- The link event of an effect. -/
def effectEvent? : Effect → Option LinkButton
  | .queueIdButton item => some item
  | _ => none

/-- The link event of an output of the generic client. -/
def genericEvent? : GenericOut → Option LinkButton
  | .queueIdButton item => some item
  | _ => none

/-- `uart_rx_task`, the line to the chip and the tasks of the links, with the link events put on the
queue so far. -/
structure Bridge where
  uplink : Uplink
  serial : Serial
  tasks : Tasks
  put : List (Sender × LinkButton)

namespace Bridge

def start (commandSet : Cmd) : Bridge := ⟨.start commandSet, .start, .start, []⟩

/-- An event of `uart_rx_task` or of the connection, of the line to the chip, of the generic client
whatever `stateButtonBLE` holds, or the next step of a task of the links. -/
inductive Event
  | uplink (e : Uplink.Event)
  | startNetwork
  | message (item : Text)
  | effect
  | genericClient (stateButtonBLE : Octet) (event : GenericEvent) (param : GenericParam)
      (node : Option Node)
  | sendIdButton
  | sendCommandZigbee
  | sendCommandBLE

/-- `xQueueSend` to `queueIdButton`. -/
def queue (s : Bridge) (p : Sender × LinkButton) : Bridge :=
  { s with
    tasks.queueIdButton := Tasks.send 100 s.tasks.queueIdButton p.2
    put := s.put ++ [p] }

/-- The link events put on the queue so far by one task. -/
def putBy (s : Bridge) (w : Sender) : List LinkButton := (s.put.filter (·.1 = w)).map Prod.snd

section

variable (lib : CJsonLib) (map : MapStr)

/-- The link events that a step puts on the queue. -/
def sends (s : Bridge) : Event → List (Sender × LinkButton)
  | .uplink e =>
    (((s.uplink.step lib true e).map fun u => u.queued.drop s.uplink.queued.length).getD []).map
      (Sender.uartRxTask, ·)
  | .effect => (s.serial.todo.head?.bind effectEvent?).toList.map (Sender.mqttHandle, ·)
  | .genericClient stateButtonBLE event param node =>
    ((bleMeshGenericClientCb true stateButtonBLE event param node).2.filterMap genericEvent?).map
      (Sender.bleMeshGenericClientCb, ·)
  | _ => []

/-- A step without the link events.  With a new configuration the run is over. -/
def move (s : Bridge) : Event → Option Bridge
  | .uplink e => (s.uplink.step lib true e).map fun uplink => { s with uplink }
  | .startNetwork => (s.serial.step lib true .startNetwork).map fun serial => { s with serial }
  | .message item => (s.serial.step lib true (.message item)).map fun serial => { s with serial }
  | .effect =>
    match s.serial.todo with
    | .map _ :: _ => none
    | _ => (s.serial.step lib true .effect).map fun serial => { s with serial }
  | .genericClient .. => some s
  | .sendIdButton => (s.tasks.step map .sendIdButton).map fun tasks => { s with tasks }
  | .sendCommandZigbee =>
    match s.tasks.queueCmdZigbee with
    | [] => none
    | item :: _ => do
      let serial ← s.serial.step lib true (.command item)
      let tasks ← s.tasks.step map .sendCommandZigbee
      return { s with serial, tasks }
  | .sendCommandBLE => (s.tasks.step map .sendCommandBLE).map fun tasks => { s with tasks }

def step (s : Bridge) (e : Event) : Option Bridge :=
  (s.move lib map e).map fun t => (s.sends lib e).foldl queue t

/-- The command queues have room, and no field of a message that becomes part of a line has a
newline. -/
def Ready (s : Bridge) : Event → Prop
  | .sendIdButton => s.tasks.HasRoom .sendIdButton
  | .message item => Serial.Event.Clean lib (.message item)
  | _ => True

instance (s : Bridge) : DecidablePred (s.Ready lib)
  | .sendIdButton => inferInstanceAs (Decidable (s.tasks.HasRoom .sendIdButton))
  | .message item => inferInstanceAs (Decidable (Serial.Event.Clean lib (.message item)))
  | .uplink _ | .startNetwork | .effect | .genericClient .. | .sendCommandZigbee
  | .sendCommandBLE => .isTrue trivial

/-- Each link event is that something went on or off, as those of messages and of BLE nodes always
are, and there is room for it. -/
structure Fine (s : Bridge) (e : Event) : Prop where
  onOff : ∀ p ∈ s.sends lib e, p.2.stateButton = "on".toList ∨ p.2.stateButton = "off".toList
  room : s.tasks.queueIdButton.length + (s.sends lib e).length ≤ 100
  ready : s.Ready lib e

instance (s : Bridge) : DecidablePred (s.Fine lib) := fun e =>
  decidable_of_iff ((∀ p ∈ s.sends lib e, p.2.stateButton = "on".toList ∨
      p.2.stateButton = "off".toList) ∧
    s.tasks.queueIdButton.length + (s.sends lib e).length ≤ 100 ∧ s.Ready lib e)
    ⟨fun h => ⟨h.1, h.2.1, h.2.2⟩, fun h => ⟨h.onOff, h.room, h.ready⟩⟩

end

/-! ### What an event is to put on the queue -/

/-- An event of `uart_rx_task` or of the connection. -/
def Event.toUplink : Event → List Uplink.Event
  | uplink e => [e]
  | _ => []

/-- The link events that `mqtt_handle` is to put on the queue for a message. -/
def Event.asks (lib : CJsonLib) : Event → List LinkButton
  | message item => ((mqttHandle lib true item).map (·.filterMap effectEvent?)).getD []
  | _ => []

/-- Those of the generic client. -/
def Event.publishes : Event → List LinkButton
  | genericClient stateButtonBLE event param node =>
    (bleMeshGenericClientCb true stateButtonBLE event param node).2.filterMap genericEvent?
  | _ => []

/-! ### The parts of a step -/

section

variable {lib : CJsonLib} {map : MapStr} {s s' t : Bridge} {e : Event} {es : List Event}
  {ps : List (Sender × LinkButton)}

theorem foldl_queue (ps : List (Sender × LinkButton)) (s : Bridge) :
    (ps.foldl queue s).uplink = s.uplink ∧ (ps.foldl queue s).serial = s.serial ∧
      (ps.foldl queue s).put = s.put ++ ps := by
  induction ps generalizing s with
  | nil => simp
  | cons p ps ih =>
    obtain ⟨huplink, hserial, hput⟩ := ih (s.queue p)
    refine ⟨huplink, hserial, ?_⟩
    rw [List.foldl_cons, hput]
    simp [queue]

theorem putBy_append (w : Sender) (h : t.put = s.put ++ ps) :
    t.putBy w = s.putBy w ++ (ps.filter (·.1 = w)).map Prod.snd := by
  rw [putBy, h, List.filter_append, List.map_append, putBy]

/-- What a step of one part can be. -/
theorem move_cases (h : s.move lib map e = some t) :
    (∃ u uplink, e = .uplink u ∧ s.uplink.step lib true u = some uplink ∧
      t = { s with uplink }) ∨
    (∃ serial, e = .startNetwork ∧ s.serial.step lib true .startNetwork = some serial ∧
      t = { s with serial }) ∨
    (∃ item serial, e = .message item ∧ s.serial.step lib true (.message item) = some serial ∧
      t = { s with serial }) ∨
    (∃ serial, e = .effect ∧ s.serial.step lib true .effect = some serial ∧
      t = { s with serial }) ∨
    (∃ b event param node, e = .genericClient b event param node ∧ t = s) ∨
    (∃ tasks, e = .sendIdButton ∧ s.tasks.step map .sendIdButton = some tasks ∧
      t = { s with tasks }) ∨
    (∃ item line tasks, e = .sendCommandZigbee ∧ item ∈ s.tasks.queueCmdZigbee ∧
      Link.sendCommandZigbee item = some line ∧
        s.tasks.step map .sendCommandZigbee = some tasks ∧ tasks.uart = s.tasks.uart ++ [line] ∧
          t = { s with serial := s.serial.write .sendCommandZigbee line, tasks }) ∨
    (∃ tasks, e = .sendCommandBLE ∧ s.tasks.step map .sendCommandBLE = some tasks ∧
      t = { s with tasks }) := by
  cases e with
  | uplink u =>
    obtain ⟨uplink, hstep, rfl⟩ := Option.map_eq_some_iff.mp h
    exact .inl ⟨u, uplink, rfl, hstep, rfl⟩
  | startNetwork =>
    obtain ⟨serial, hstep, rfl⟩ := Option.map_eq_some_iff.mp h
    exact .inr (.inl ⟨serial, rfl, hstep, rfl⟩)
  | message item =>
    obtain ⟨serial, hstep, rfl⟩ := Option.map_eq_some_iff.mp h
    exact .inr (.inr (.inl ⟨item, serial, rfl, hstep, rfl⟩))
  | effect =>
    simp only [move] at h
    split at h
    · cases h
    · obtain ⟨serial, hstep, rfl⟩ := Option.map_eq_some_iff.mp h
      exact .inr (.inr (.inr (.inl ⟨serial, rfl, hstep, rfl⟩)))
  | genericClient b event param node =>
    exact .inr (.inr (.inr (.inr (.inl ⟨b, event, param, node, rfl, (Option.some.inj h).symm⟩))))
  | sendIdButton =>
    obtain ⟨tasks, hstep, rfl⟩ := Option.map_eq_some_iff.mp h
    exact .inr (.inr (.inr (.inr (.inr (.inl ⟨tasks, rfl, hstep, rfl⟩)))))
  | sendCommandZigbee =>
    simp only [move] at h
    split at h
    · cases h
    · rename_i item queue hqueue
      obtain ⟨serial, hserial, h⟩ := Option.bind_eq_some_iff.mp h
      obtain ⟨tasks, htasks, h⟩ := Option.bind_eq_some_iff.mp h
      obtain rfl := Option.some.inj h
      obtain ⟨line, hline, rfl⟩ := Option.map_eq_some_iff.mp hserial
      obtain ⟨item', queue', line', hqueue', hline', rfl⟩ := Tasks.step_sendCommandZigbee htasks
      obtain ⟨rfl, rfl⟩ := List.cons.inj (hqueue.symm.trans hqueue')
      obtain rfl : line = line' := Option.some.inj (hline.symm.trans hline')
      exact .inr (.inr (.inr (.inr (.inr (.inr (.inl ⟨item, line, _, rfl,
        hqueue ▸ List.mem_cons_self, hline, htasks, rfl, rfl⟩))))))
  | sendCommandBLE =>
    obtain ⟨tasks, hstep, rfl⟩ := Option.map_eq_some_iff.mp h
    exact .inr (.inr (.inr (.inr (.inr (.inr (.inr ⟨tasks, rfl, hstep, rfl⟩))))))

/-- A step moves one part, and then the link events are put on the queue. -/
theorem step_spec (h : s.step lib map e = some s') :
    ∃ t, s.move lib map e = some t ∧ s'.uplink = t.uplink ∧ s'.serial = t.serial ∧
      s'.put = s.put ++ s.sends lib e ∧ s' = (s.sends lib e).foldl queue t := by
  obtain ⟨t, hmove, rfl⟩ := Option.map_eq_some_iff.mp h
  obtain ⟨huplink, hserial, hput⟩ := foldl_queue (s.sends lib e) t
  have hkeeps : t.put = s.put := by
    obtain ⟨u, uplink, -, -, rfl⟩ | ⟨serial, -, -, rfl⟩ | ⟨item, serial, -, -, rfl⟩ |
      ⟨serial, -, -, rfl⟩ | ⟨b, event, param, node, -, rfl⟩ | ⟨tasks, -, -, rfl⟩ |
      ⟨item, line, tasks, -, -, -, -, -, rfl⟩ | ⟨tasks, -, -, rfl⟩ := move_cases hmove
    all_goals rfl
  exact ⟨t, hmove, huplink, hserial, hkeeps ▸ hput, rfl⟩

/-- The link events of one sender among those with a sender. -/
theorem filter_sender (w w' : Sender) (items : List LinkButton) :
    ((items.map (w, ·)).filter (·.1 = w')).map Prod.snd = if w = w' then items else [] := by
  by_cases h : w = w' <;> simp [List.filter_map, Function.comp_def, h]

/-- A step of `uart_rx_task` only adds link events. -/
theorem queued_prefix {u u' : Uplink} {d : Uplink.Event}
    (h : u.step lib true d = some u') : u.queued <+: u'.queued := by
  have hout : u.out <+: u'.out := by
    cases d with
    | net e =>
      obtain rfl := Option.some.inj h
      cases e with
      | staStart | staDisconnected | staBeaconTimeout | mqttConnected =>
        exact List.prefix_append _ _
      | _ => exact List.prefix_refl _
    | read bytes =>
      simp only [Uplink.step] at h
      split at h
      · cases h
      · obtain ⟨rxData, -, rfl⟩ := Option.map_eq_some_iff.mp h
        exact List.prefix_refl _
    | byte =>
      simp only [Uplink.step] at h
      split at h
      swap
      · cases h
      obtain ⟨rx, -, h⟩ := Option.bind_eq_some_iff.mp h
      split at h
      · obtain ⟨r, -, h⟩ := Option.bind_eq_some_iff.mp h
        obtain ⟨outs, -, h⟩ := Option.bind_eq_some_iff.mp h
        obtain ⟨version, -, h⟩ := Option.bind_eq_some_iff.mp h
        obtain rfl := Option.some.inj h
        exact List.prefix_append _ _
      · obtain rfl := Option.some.inj h
        exact List.prefix_refl _
  exact hout.filterMap _

/-! ### The tasks of the links -/

/-- Tokens have no character that the list does not have. -/
theorem not_mem_strtok {c : Char} {token list : Text} (htoken : c ∉ token) (hlist : c ∉ list) :
    ∀ word ∈ strtok token list, c ∉ word := by
  induction list generalizing token with
  | nil =>
    intro word hword
    rw [strtok] at hword
    split at hword
    · cases hword
    · exact List.mem_singleton.mp hword ▸ htoken
  | cons d list ih =>
    rw [List.mem_cons, not_or] at hlist
    obtain ⟨hd, hlist⟩ := hlist
    intro word hword
    rw [strtok] at hword
    split at hword
    · split at hword
      · exact ih List.not_mem_nil hlist word hword
      · rcases List.mem_cons.mp hword with rfl | hword
        · exact htoken
        · exact ih List.not_mem_nil hlist word hword
    · refine ih ?_ hlist word hword
      simp [htoken, hd]

/-- No list of the map has a newline. -/
def OneLine (map : MapStr) : Prop := ∀ node ∈ map.buckets.items, '\n' ∉ node.value

instance : DecidablePred OneLine := fun map =>
  inferInstanceAs (Decidable (∀ node ∈ map.buckets.items, '\n' ∉ node.value))

theorem OneLine.mapGet (hmap : OneLine map) {id list : Text} (h : mapGet map id = some list) :
    '\n' ∉ list := by
  obtain ⟨node, hmem, rfl⟩ := exists_node_of_mapGet h
  exact hmap node hmem

/-- Items of lists without a newline have none. -/
theorem newline_not_mem_linked (hmap : OneLine map)
    {item i : LinkButton} (hitem : '\n' ∉ item.stateButton) (hi : i ∈ Tasks.linked map item) :
    '\n' ∉ i.stateButton ∧ '\n' ∉ i.idButton := by
  obtain ⟨token, htoken, rfl⟩ := List.mem_map.mp hi
  refine ⟨hitem, ?_⟩
  cases hlist : mapGet map item.idButton with
  | none => simp [hlist] at htoken
  | some list =>
    rw [hlist] at htoken
    exact not_mem_strtok List.not_mem_nil (hmap.mapGet hlist) token htoken

/-- The tasks account for link events put on the queue. -/
def Carries (map : MapStr) (items : List LinkButton) (tasks : Tasks) : Prop :=
  ∃ ts, Tasks.Accounted map ts tasks ∧ Tasks.puts ts = items

theorem Carries.foldl_queue {items : List LinkButton} (h : Carries map items s.tasks)
    (honOff : ∀ p ∈ ps, p.2.stateButton = "on".toList ∨ p.2.stateButton = "off".toList)
    (hroom : s.tasks.queueIdButton.length + ps.length ≤ 100) :
    Carries map (items ++ ps.map Prod.snd) (ps.foldl queue s).tasks := by
  induction ps generalizing s items with
  | nil => simpa using h
  | cons p ps ih =>
    obtain ⟨hp, hps⟩ := List.forall_mem_cons.mp honOff
    rw [List.length_cons] at hroom
    have hone : Carries map (items ++ [p.2]) (s.queue p).tasks := by
      obtain ⟨ts, hts, hputs⟩ := h
      obtain ⟨on, hitem⟩ : ∃ on, p.2 = Tasks.item p.2.idButton on := by
        rcases hp with hon | hoff
        · exact ⟨true, congrArg (LinkButton.mk · p.2.idButton) hon⟩
        · exact ⟨false, congrArg (LinkButton.mk · p.2.idButton) hoff⟩
      have hstep : s.tasks.step map (.put p.2.idButton on) = some (s.queue p).tasks := by
        rw [Tasks.step, ← hitem]
        rfl
      have hlt : s.tasks.queueIdButton.length < 100 := by omega
      refine ⟨ts ++ [.put p.2.idButton on], hts.put hlt hstep, ?_⟩
      rw [Tasks.puts_append, hputs, hitem]
      rfl
    have hlength : (s.queue p).tasks.queueIdButton.length = s.tasks.queueIdButton.length + 1 := by
      have hlt : s.tasks.queueIdButton.length < 100 := by omega
      show (Tasks.send 100 s.tasks.queueIdButton p.2).length = _
      rw [Tasks.send, if_pos hlt, List.length_append, List.length_singleton]
    have hrest := ih hone hps (by omega)
    rwa [List.append_assoc] at hrest

/-- A line to come is a line of a link event. -/
theorem Carries.isLine (hmap : OneLine map)
    {items : List LinkButton} {tasks : Tasks} (h : Carries map items tasks)
    (hitems : ∀ i ∈ items, '\n' ∉ i.stateButton) {item : LinkButton} {line : Text}
    (hitem : item ∈ tasks.queueCmdZigbee) (hline : Link.sendCommandZigbee item = some line) :
    IsLine line := by
  obtain ⟨ts, hts, rfl⟩ := h
  have hmem : some line ∈ tasks.uart.map some ++ (tasks.queueCmdZigbee ++
      Tasks.zigbee (tasks.coming map)).map Link.sendCommandZigbee :=
    List.mem_append_right _ (List.mem_map.mpr ⟨item, List.mem_append_left _ hitem, hline⟩)
  rw [hts.uart] at hmem
  obtain ⟨i, hi, hsend⟩ := List.mem_map.mp hmem
  obtain ⟨put, hput, hi⟩ := List.mem_flatMap.mp (List.mem_of_mem_filter hi)
  obtain ⟨hstate, hid⟩ := newline_not_mem_linked hmap (hitems put hput) hi
  exact isLine_sendCommandZigbee hsend hstate (fun hmem => hid (List.mem_of_mem_take hmem))
    fun hlast => hid (List.mem_of_getLast? hlast)

/-! ### Runs -/

/-- The state of a run in terms of its events. -/
structure Inv (lib : CJsonLib) (map : MapStr) (c : Cmd) (es : List Event) (s : Bridge) : Prop where
  heard : Uplink.Linked lib true c (es.flatMap Event.toUplink) s.uplink
  queued : s.putBy .uartRxTask = s.uplink.queued
  asked : s.putBy .mqttHandle ++ s.serial.todo.filterMap effectEvent? =
    es.flatMap (Event.asks lib)
  published : s.putBy .bleMeshGenericClientCb = es.flatMap Event.publishes
  clean : ∀ i ∈ s.put.map Prod.snd, '\n' ∉ i.stateButton
  tasks : Carries map (s.put.map Prod.snd) s.tasks
  written : s.serial.sentBy .sendCommandZigbee = s.tasks.uart
  whole : s.serial.Whole

theorem inv_start (lib : CJsonLib) (map : MapStr) (c : Cmd) : Inv lib map c [] (start c) where
  heard := Uplink.linked_start lib true c
  queued := rfl
  asked := rfl
  published := rfl
  clean := by simp [start]
  tasks := ⟨[], Tasks.accounted_start, rfl⟩
  written := rfl
  whole := ⟨rfl, rfl, by simp [start, Serial.start, linesOf]⟩

variable {c : Cmd}

theorem flatMap_snoc {β : Type} (f : Event → List β) (es : List Event) (e : Event) :
    (es ++ [e]).flatMap f = es.flatMap f ++ f e := by
  rw [List.flatMap_append, List.flatMap_singleton]

theorem Inv.step_heard (h : Inv lib map c es s) (hstep : s.step lib map e = some s') :
    Uplink.Linked lib true c ((es ++ [e]).flatMap Event.toUplink) s'.uplink := by
  obtain ⟨t, hmove, huplink, -, -, -⟩ := step_spec hstep
  rw [huplink, flatMap_snoc]
  have hheard := h.heard
  obtain ⟨u, uplink, rfl, hu, rfl⟩ | ⟨serial, rfl, -, rfl⟩ | ⟨item, serial, rfl, -, rfl⟩ |
    ⟨serial, rfl, -, rfl⟩ | ⟨b, event, param, node, rfl, rfl⟩ | ⟨tasks, rfl, -, rfl⟩ |
    ⟨item, line, tasks, rfl, -, -, -, -, rfl⟩ | ⟨tasks, rfl, -, rfl⟩ := move_cases hmove
  · exact hheard.step hu
  all_goals
    show Uplink.Linked lib true c (_ ++ []) _
    rw [List.append_nil]
    exact hheard

theorem Inv.step_queued (h : Inv lib map c es s) (hstep : s.step lib map e = some s') :
    s'.putBy .uartRxTask = s'.uplink.queued := by
  obtain ⟨t, hmove, huplink, -, hput, -⟩ := step_spec hstep
  rw [putBy_append _ hput, huplink, h.queued]
  obtain ⟨u, uplink, rfl, hu, rfl⟩ | ⟨serial, rfl, -, rfl⟩ | ⟨item, serial, rfl, -, rfl⟩ |
    ⟨serial, rfl, -, rfl⟩ | ⟨b, event, param, node, rfl, rfl⟩ | ⟨tasks, rfl, -, rfl⟩ |
    ⟨item, line, tasks, rfl, -, -, -, -, rfl⟩ | ⟨tasks, rfl, -, rfl⟩ := move_cases hmove
  · rw [sends, filter_sender, if_pos rfl, hu]
    obtain ⟨more, hmore⟩ := queued_prefix hu
    rw [Option.map_some, Option.getD_some, ← hmore, List.drop_left]
  · simp [sends]
  · simp [sends]
  · rw [sends, filter_sender, if_neg (by decide), List.append_nil]
  · rw [sends, filter_sender, if_neg (by decide), List.append_nil]
  · simp [sends]
  · simp [sends]
  · simp [sends]

theorem Inv.step_asked (h : Inv lib map c es s) (hstep : s.step lib map e = some s') :
    s'.putBy .mqttHandle ++ s'.serial.todo.filterMap effectEvent? =
      (es ++ [e]).flatMap (Event.asks lib) := by
  obtain ⟨t, hmove, -, hserial, hput, -⟩ := step_spec hstep
  rw [putBy_append _ hput, hserial, flatMap_snoc, ← h.asked]
  obtain ⟨u, uplink, rfl, -, rfl⟩ | ⟨serial, rfl, hd, rfl⟩ | ⟨item, serial, rfl, hd, rfl⟩ |
    ⟨serial, rfl, hd, rfl⟩ | ⟨b, event, param, node, rfl, rfl⟩ | ⟨tasks, rfl, -, rfl⟩ |
    ⟨item, line, tasks, rfl, -, -, -, -, rfl⟩ | ⟨tasks, rfl, -, rfl⟩ := move_cases hmove
  · rw [sends, filter_sender, if_neg (by decide)]
    simp [Event.asks]
  · simp only [Serial.step, Option.ite_none_left_eq_some] at hd
    obtain rfl := Option.some.inj hd.2
    simp [sends, Event.asks, Serial.write]
  · simp only [Serial.step, Option.ite_none_right_eq_some, List.isEmpty_iff] at hd
    obtain ⟨htodo, hmap⟩ := hd
    obtain ⟨effects, heffects, rfl⟩ := Option.map_eq_some_iff.mp hmap
    simp [sends, Event.asks, htodo, heffects]
  · -- the event of the effect that is done
    have htodo : ∃ effect, s.serial.todo = effect :: serial.todo := by
      obtain ⟨hno, -⟩ | ⟨item, c, effects, hno, -⟩ | ⟨effect, todo, -, htodo, -, rfl⟩ |
        ⟨line, todo, -, htodo, rfl⟩ | ⟨item, line, hno, -⟩ := Serial.step_cases hd
      · cases hno
      · cases hno
      · exact ⟨effect, htodo⟩
      · exact ⟨.uart line, htodo⟩
      · cases hno
    obtain ⟨effect, htodo⟩ := htodo
    rw [sends, filter_sender, if_pos rfl, htodo, List.head?_cons, Option.bind_some]
    cases heffect : effectEvent? effect <;> simp [heffect, Event.asks]
  · rw [sends, filter_sender, if_neg (by decide)]
    simp [Event.asks]
  · simp [sends, Event.asks]
  · simp [sends, Event.asks, Serial.write]
  · simp [sends, Event.asks]

theorem Inv.step_published (h : Inv lib map c es s) (hstep : s.step lib map e = some s') :
    s'.putBy .bleMeshGenericClientCb = (es ++ [e]).flatMap Event.publishes := by
  obtain ⟨t, -, -, -, hput, -⟩ := step_spec hstep
  rw [putBy_append _ hput, flatMap_snoc, h.published]
  cases e with
  | uplink | effect =>
    rw [sends, filter_sender, if_neg (by decide)]
    rfl
  | genericClient =>
    rw [sends, filter_sender, if_pos rfl]
    rfl
  | _ => rfl

theorem Inv.step_tasks (h : Inv lib map c es s) (hstep : s.step lib map e = some s')
    (hfine : s.Fine lib e) : Carries map (s'.put.map Prod.snd) s'.tasks := by
  obtain ⟨t, hmove, -, -, hput, rfl⟩ := step_spec hstep
  rw [hput, List.map_append]
  obtain ⟨ts, hts, hputs⟩ := h.tasks
  -- only the other tasks put something on the queue
  have hmoved : Carries map (s.put.map Prod.snd) t.tasks ∧
      (s.sends lib e = [] ∨ t.tasks.queueIdButton = s.tasks.queueIdButton) := by
    obtain ⟨u, uplink, rfl, -, rfl⟩ | ⟨serial, rfl, -, rfl⟩ | ⟨item, serial, rfl, -, rfl⟩ |
      ⟨serial, rfl, -, rfl⟩ | ⟨b, event, param, node, rfl, rfl⟩ | ⟨tasks, rfl, hd, rfl⟩ |
      ⟨item, line, tasks, rfl, -, -, hd, -, rfl⟩ | ⟨tasks, rfl, hd, rfl⟩ := move_cases hmove
    · exact ⟨h.tasks, .inr rfl⟩
    · exact ⟨h.tasks, .inr rfl⟩
    · exact ⟨h.tasks, .inr rfl⟩
    · exact ⟨h.tasks, .inr rfl⟩
    · exact ⟨h.tasks, .inr rfl⟩
    · exact ⟨⟨ts, hts.sendIdButton hfine.ready hd, hputs⟩, .inl rfl⟩
    · exact ⟨⟨ts, hts.sendCommandZigbee hd, hputs⟩, .inl rfl⟩
    · exact ⟨⟨ts, hts.sendCommandBLE hd, hputs⟩, .inl rfl⟩
  obtain ⟨hcarries, hnone | hqueue⟩ := hmoved
  · rw [hnone]
    simpa using hcarries
  · refine hcarries.foldl_queue hfine.onOff ?_
    rw [hqueue]
    exact hfine.room

theorem Inv.step_written (h : Inv lib map c es s) (hstep : s.step lib map e = some s') :
    s'.serial.sentBy .sendCommandZigbee = s'.tasks.uart := by
  obtain ⟨t, hmove, -, hserial, -, hs'⟩ := step_spec hstep
  have huart (ps : List (Sender × LinkButton)) (t : Bridge) :
      (ps.foldl queue t).tasks.uart = t.tasks.uart := by
    induction ps generalizing t with
    | nil => rfl
    | cons p ps ih => exact ih (t.queue p)
  rw [hserial, hs', huart]
  have hwritten := h.written
  -- the other lines are those of other tasks
  have hother {d : Serial.Event} {serial : Serial} (hd : s.serial.step lib true d = some serial)
      (hno : ∀ item, d ≠ .command item) :
      serial.sentBy .sendCommandZigbee = s.tasks.uart := by
    obtain ⟨-, rfl⟩ | ⟨item, c, effects, -, -, -, -, rfl⟩ | ⟨effect, todo, -, -, -, rfl⟩ |
      ⟨line, todo, -, -, rfl⟩ | ⟨item, line, rfl, -, -⟩ := Serial.step_cases hd
    · rw [← hwritten]
      simp [Serial.sentBy, Serial.write]
    · exact hwritten
    · exact hwritten
    · rw [← hwritten]
      simp [Serial.sentBy, Serial.write]
    · exact absurd rfl (hno item)
  obtain ⟨u, uplink, rfl, -, rfl⟩ | ⟨serial, rfl, hd, rfl⟩ | ⟨item, serial, rfl, hd, rfl⟩ |
    ⟨serial, rfl, hd, rfl⟩ | ⟨b, event, param, node, rfl, rfl⟩ | ⟨tasks, rfl, hd, rfl⟩ |
    ⟨item, line, tasks, rfl, -, -, -, huart, rfl⟩ | ⟨tasks, rfl, hd, rfl⟩ := move_cases hmove
  · exact hwritten
  · exact hother hd fun _ => Serial.Event.noConfusion
  · exact hother hd fun _ => Serial.Event.noConfusion
  · exact hother hd fun _ => Serial.Event.noConfusion
  · exact hwritten
  · rw [hwritten]
    obtain ⟨i, token, tokens, -, -, rfl⟩ | ⟨i, token, tokens, -, -, rfl⟩ | ⟨i, -, rfl⟩ |
      ⟨i, queue, -, -, rfl⟩ := Tasks.step_sendIdButton hd
    all_goals rfl
  · rw [Serial.sentBy_write, hwritten, huart]
    rfl
  · rw [hwritten]
    obtain ⟨i, queue, call, -, -, rfl⟩ := Tasks.step_sendCommandBLE hd
    rfl

theorem Inv.step_whole (hmap : OneLine map)
    (h : Inv lib map c es s) (hstep : s.step lib map e = some s') (hfine : s.Fine lib e) :
    s'.serial.Whole := by
  obtain ⟨t, hmove, -, hserial, -, -⟩ := step_spec hstep
  rw [hserial]
  have hwhole := h.whole
  obtain ⟨u, uplink, rfl, -, rfl⟩ | ⟨serial, rfl, hd, rfl⟩ | ⟨item, serial, rfl, hd, rfl⟩ |
    ⟨serial, rfl, hd, rfl⟩ | ⟨b, event, param, node, rfl, rfl⟩ | ⟨tasks, rfl, -, rfl⟩ |
    ⟨item, line, tasks, rfl, hitem, hline, -, -, rfl⟩ | ⟨tasks, rfl, -, rfl⟩ := move_cases hmove
  · exact hwhole
  · exact hwhole.step hd trivial
  · exact hwhole.step hd hfine.ready
  · exact hwhole.step hd trivial
  · exact hwhole
  · exact hwhole
  · exact hwhole.write .sendCommandZigbee (h.tasks.isLine hmap h.clean hitem hline)
  · exact hwhole

theorem Inv.step (hmap : OneLine map) (h : Inv lib map c es s)
    (hstep : Guarded (Steps (Bridge.step lib map)) (Fine lib) s e s') :
    Inv lib map c (es ++ [e]) s' := by
  obtain ⟨hstep, hfine⟩ := hstep
  refine ⟨h.step_heard hstep, h.step_queued hstep, h.step_asked hstep, h.step_published hstep, ?_,
    h.step_tasks hstep hfine, h.step_written hstep, h.step_whole hmap hstep hfine⟩
  obtain ⟨t, -, -, -, hput, -⟩ := step_spec hstep
  intro i hi
  rw [hput, List.map_append, List.mem_append] at hi
  rcases hi with hi | hi
  · exact h.clean i hi
  · obtain ⟨p, hp, rfl⟩ := List.mem_map.mp hi
    rcases hfine.onOff p hp with hon | hoff
    · rw [hon]
      decide
    · rw [hoff]
      decide

/-- The links from end to end: the link events are those of the lines of the chip, of the messages
and of the BLE nodes, the commands are those of the link events, and the chip reads them as they
were written. -/
structure Through (lib : CJsonLib) (map : MapStr) (c : Cmd) (es : List Event) (s : Bridge) :
    Prop where
  reported : Uplink.linksOffline lib true c (Uplink.lines (es.flatMap Event.toUplink)) =
    some (s.uplink.commandSet, s.putBy .uartRxTask)
  asked : s.putBy .mqttHandle ++ s.serial.todo.filterMap effectEvent? =
    es.flatMap (Event.asks lib)
  published : s.putBy .bleMeshGenericClientCb = es.flatMap Event.publishes
  zigbee : (s.serial.sentBy .sendCommandZigbee).map some ++
      (s.tasks.queueCmdZigbee ++ Tasks.zigbee (s.tasks.coming map)).map Link.sendCommandZigbee =
    (Tasks.zigbee ((s.put.map Prod.snd).flatMap (Tasks.linked map))).map Link.sendCommandZigbee
  ble : s.tasks.calls.map some ++
      (s.tasks.queueCmdBLE ++ Tasks.ble (s.tasks.coming map)).map Link.sendCommandBLE =
    (Tasks.ble ((s.put.map Prod.snd).flatMap (Tasks.linked map))).map Link.sendCommandBLE
  read : finished '\n' s.serial.uart = s.serial.sent.map fun p => p.2.dropLast
  rest : unfinished '\n' s.serial.uart = []

/-- However the tasks take turns, each link event leads to one command to each button of its list,
in order, sent or still under way. -/
theorem links_through (hmap : OneLine map)
    (run : Run (Guarded (Steps (Bridge.step lib map)) (Fine lib)) (start c) es s) :
    Through lib map c es s := by
  have h : Inv lib map c es s :=
    run.history (inv_start lib map c) fun _ _ _ _ hI hstep => hI.step hmap hstep
  obtain ⟨ts, haccounted, hputs⟩ := h.tasks
  have huart := haccounted.uart
  have hcalls := haccounted.calls
  rw [hputs] at huart hcalls
  refine ⟨?_, h.asked, h.published, ?_, hcalls, h.whole.finished, h.whole.unfinished⟩
  · rw [h.queued]
    exact h.heard.links
  · rw [h.written]
    exact huart

/-- A switch and a lamp. -/
def lampMap : MapStr :=
  (mapSet mapInit "0x1A2Bzigbee1".toList "0x0005zigbee1 ".toList 15).getD mapInit

/-- The library on the reports and on the message that locks the door. -/
def homeLib : CJsonLib where
  parse := fun text => (reportLib.parse text).or (Serial.doorLib.parse text)
  getObjectItem := reportLib.getObjectItem
  getArrayItem := reportLib.getArrayItem

/-- The switch reports that it went on, and the lamp follows while the door is locked. -/
def evening : List Event :=
  .uplink (.read (fromSwitch ++ ['\n'])) ::
    List.replicate (fromSwitch.length + 1) (.uplink .byte) ++
      [.message Serial.lockDoor, .effect, .sendIdButton, .sendIdButton, .sendCommandZigbee, .effect]

def eveningEnd : Option Bridge :=
  exec (restrict (Bridge.step homeLib lampMap) fun s e => decide (s.Fine homeLib e))
    (start Cmd.zero) evening

theorem links_through_evening :
    ∃ s : Bridge, eveningEnd = some s ∧
      s.putBy .uartRxTask = [⟨"on".toList, "0x1A2Bzigbee1".toList⟩] ∧
        finished '\n' s.serial.uart = ["zcl lock lock \"000000\"".toList,
          "custom action-onoff on 0x0005 1".toList, "send 0x1A2B 0x01 0x01".toList] := by
  have hmap : OneLine lampMap := by decide +kernel
  have hsent : eveningEnd.map (fun s => s.serial.sent.map fun p => p.2.dropLast) =
      some ["zcl lock lock \"000000\"".toList, "custom action-onoff on 0x0005 1".toList,
        "send 0x1A2B 0x01 0x01".toList] := by
    decide +kernel
  obtain ⟨s, hs, hsent⟩ := Option.map_eq_some_iff.mp hsent
  have hthrough := links_through hmap (Run.of_exec_restrict (fun _ _ => of_decide_eq_true) hs)
  have hreported : (Uplink.linksOffline homeLib true Cmd.zero
      (Uplink.lines (evening.flatMap Event.toUplink))).map Prod.snd =
        some [⟨"on".toList, "0x1A2Bzigbee1".toList⟩] := by
    decide +kernel
  rw [hthrough.reported] at hreported
  exact ⟨s, hs, Option.some.inj hreported, hthrough.read.trans hsent⟩

end

end Bridge

end VhomeBridge.Main
