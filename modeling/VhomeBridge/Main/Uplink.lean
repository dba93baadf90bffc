import VhomeBridge.Lib.Run
import VhomeBridge.JsonFields
import VhomeBridge.Zigbee.Lines

/-! What the bridge reports.  `uart_rx_task` publishes a line of the Zigbee chip only while `STATE`
is `NORMAL`; the handlers of the Wi-Fi and of the MQTT client write `STATE`, the one without looking
at what the other has written.  Their events come at any time, also between two bytes of a line. -/

namespace VhomeBridge.Main

open Lib JsonUser Zigbee

/-- `enum system_state_t`. -/
inductive SystemState
  | unknow
  | normal
  | wifiDisconnected
  | localMode
  | quickMode
  | compatibleMode
  deriving DecidableEq

/-- The events that `wifi_event_handler` and `mqtt_event_handler` look at, but for data. -/
inductive NetEvent
  | staStart
  | staDisconnected
  | staConnected
  | staGotIp
  | staBeaconTimeout
  | mqttConnected
  | mqttDisconnected
  | mqttOther
  deriving DecidableEq

/-- What the handlers and the task call. -/
inductive UplinkOut
  | espWifiConnect
  | subscribeCmdSet
  | subscribeLinkButton
  | uart (out : UartOut)

def publication? : UartOut → Option (Topic × Text)
  | .publish topic payload => some (topic, payload)
  | .queueIdButton _ => none

/-- What is published. -/
def UplinkOut.publication? : UplinkOut → Option (Topic × Text)
  | uart out => Main.publication? out
  | _ => none

/-- The link events put on the queue. -/
def UplinkOut.event? : UplinkOut → Option LinkButton
  | uart out => out.event?
  | _ => none

/-- `STATE`, `fwVersion`, the buffers of `uart_rx_task` with `i` and `rxBytes`, its record
`command_set`, and the calls so far. -/
structure Uplink where
  state : SystemState
  fwVersion : Text
  rx : UartRx
  i : Nat
  rxBytes : Nat
  commandSet : Cmd
  out : List UplinkOut

namespace Uplink

inductive Event
  | net (e : NetEvent)
  /-- A turn of `uart_rx_task` in which `uart_read_bytes` returns these bytes. -/
  | read (bytes : Text)
  /-- The next turn of its loop over the bytes. -/
  | byte

/-- `fwVersion` as `app_main` writes it. -/
def ownVersion : Text := "\x7b\"fwVersion\":\"0.5.3\"\x7d".toList

/-- The bridge before its first events; `command_set` holds what the stack held. -/
def start (commandSet : Cmd) : Uplink := ⟨.unknow, ownVersion, .init, 0, 0, commandSet, []⟩

/-- `wifi_event_handler` and `mqtt_event_handler`. -/
def net (s : Uplink) : NetEvent → Uplink
  | .staStart => { s with out := s.out ++ [.espWifiConnect] }
  | .staDisconnected => { s with state := .wifiDisconnected, out := s.out ++ [.espWifiConnect] }
  | .staConnected => { s with state := .localMode }
  | .staGotIp => s
  | .staBeaconTimeout => { s with out := s.out ++ [.espWifiConnect] }
  | .mqttConnected =>
    { s with
      state := .normal
      out := s.out ++
        [.subscribeCmdSet, .subscribeLinkButton, .uart (.publish .msg s.fwVersion)] }
  | .mqttDisconnected => { s with state := .localMode }
  | .mqttOther => s

/-- `fwVersion` after a line with this action. -/
def versionAfter (s : Uplink) (action : Action) : Option Text :=
  if action.action = "mcuInfo".toList then fwVersionMessage action else some s.fwVersion

/-- `uart_rx_data` after `uart_read_bytes`, terminated if there are bytes. -/
def readInto (rxData : Tape Char) (bytes : Text) : Option (Tape Char) :=
  (rxData.store rxBufSize 0 bytes).bind fun rxData =>
    if 0 < bytes.length then rxData.store rxBufSize bytes.length ['\x00'] else some rxData

section

variable (lib : CJsonLib) (linkButton : Bool)

/-- What `uart_rx_task` does with a line. -/
def line (s : Uplink) (data : Text) : Option Uplink := do
  let (action, commandSet) ← analyzeSubZigbee lib data (Action.zero, s.commandSet)
  let outs ← lineOutputs (s.state == .normal) linkButton data action commandSet
  let fwVersion ← s.versionAfter action
  return { s with fwVersion, commandSet, out := s.out ++ outs.map .uart }

/-- A fault of the task ends the run. -/
def step (s : Uplink) : Event → Option Uplink
  | .net e => some (s.net e)
  | .read bytes =>
    if s.i < s.rxBytes then none
    else (readInto s.rx.rxData bytes).map fun rxData =>
      { s with rx := { s.rx with rxData }, i := 0, rxBytes := bytes.length }
  | .byte =>
    if s.i < s.rxBytes then
      (UartRx.byte s.i s.rx).bind fun rx =>
        let t := { s with rx, i := s.i + 1 }
        if s.rx.rxData s.i = '\n' then t.line lib linkButton (rx.analyzed.getLast?.getD [])
        else some t
    else none

end

/-! ### The same from the events alone -/

/-- The connection after an event: up with `MQTT_EVENT_CONNECTED`, down with the end of the session
and also when the access point comes or goes. -/
def connected (up : Bool) : Event → Bool
  | .net .mqttConnected => true
  | .net .mqttDisconnected | .net .staDisconnected | .net .staConnected => false
  | _ => up

/-- Whether `MQTT_EVENT_CONNECTED` is the last event that counts. -/
def online (es : List Event) : Bool := es.foldl connected false

def Event.bytes : Event → Text
  | read bytes => bytes
  | _ => []

def Event.isByte : Event → Bool
  | byte => true
  | _ => false

/-- The bytes that were read. -/
def arrived (es : List Event) : Text := es.flatMap Event.bytes

/-- The bytes that the loop is done with. -/
def handled (es : List Event) : Text := (arrived es).take (es.countP Event.isByte)

/-- The strings for which a line was analysed. -/
def lines (es : List Event) : List Text := (finished '\n' (handled es)).map lineString

section

variable (lib : CJsonLib)

/-- The action of a line, with the version that it gives. -/
def actionOf (line : Text) : Option Action :=
  (analyzeSubZigbee lib line (Action.zero, Cmd.zero)).map (·.1)

/-- What is published for a line with this action. -/
def reportsOf (action : Action) (line : Text) : List (Topic × Text) :=
  if isReport action.action then [(.deviceaction, line)]
  else if action.action = "join".toList then [(.devicejoined, line)]
  else if action.action = "rejoin".toList then [(.devicerejoin, line)]
  else if action.action = "left".toList then [(.deviceleft, line)]
  else if action.action = "mcuInfo".toList then
    ((fwVersionMessage action).map fun message => (.msg, message)).toList
  else []

/-- What is published for a line while the bridge is online. -/
def reports (line : Text) : List (Topic × Text) :=
  ((actionOf lib line).map (reportsOf · line)).getD []

/-- The versions that a line gives. -/
def versionOf (line : Text) : Option Text :=
  (actionOf lib line).bind fun action =>
    if action.action = "mcuInfo".toList then fwVersionMessage action else none

/-- The versions after lines: those of the last line that gives some. -/
def version (lines : List Text) : Text :=
  lines.foldl (fun v line => (versionOf lib line).getD v) ownVersion

/-- What is published at an event: the versions when a session begins, and at the end of a line its
report if the bridge is online. -/
def publishes (ds : List Event) : Event → List (Topic × Text)
  | .net .mqttConnected => [(.msg, version lib (lines ds))]
  | .byte =>
    if (arrived ds)[ds.countP Event.isByte]? = some '\n' ∧ online ds = true then
      reports lib (lineString (unfinished '\n' (handled ds)))
    else []
  | _ => []

end

/-! ### One line -/

section

variable {lib : CJsonLib} {linkButton normal : Bool} {data : Text} {action : Action} {c : Cmd}

theorem publications_publish (topic : Topic) (payload : Text) :
    (publish normal topic payload).filterMap publication? =
      if normal then [(topic, payload)] else [] := by
  cases normal <;> rfl

theorem publications_reportOutputs {report : List UartOut}
    (h : reportOutputs normal linkButton data action c = some report) :
    report.filterMap publication? =
      if isReport action.action && normal then [(.deviceaction, data)] else [] := by
  unfold reportOutputs at h
  split at h
  · rename_i hreport
    rw [hreport, Bool.true_and]
    split at h
    · obtain ⟨event, -, rfl⟩ := Option.map_eq_some_iff.mp h
      rw [List.filterMap_append, publications_publish]
      simp [publication?]
    · obtain rfl := Option.some.inj h
      exact publications_publish _ _
  · rename_i hother
    obtain rfl := Option.some.inj h
    simp [hother]

theorem publications_mcuInfoOutputs {info : List UartOut}
    (h : mcuInfoOutputs normal action = some info) :
    info.filterMap publication? =
      if action.action = "mcuInfo".toList ∧ normal then
        ((fwVersionMessage action).map fun message => (.msg, message)).toList
      else [] := by
  unfold mcuInfoOutputs at h
  split at h
  · rename_i hinfo
    obtain ⟨message, hmessage, rfl⟩ := Option.map_eq_some_iff.mp h
    rw [publications_publish, hmessage]
    simp [hinfo]
  · rename_i hother
    obtain rfl := Option.some.inj h
    rw [if_neg fun hinfo => hother hinfo.1]
    rfl

/-- A line is published on the topic of its action if the bridge is online. -/
theorem publications_lineOutputs {outs : List UartOut}
    (h : lineOutputs normal linkButton data action c = some outs) :
    outs.filterMap publication? = if normal then reportsOf action data else [] := by
  obtain ⟨report, hreport, hrest⟩ := Option.bind_eq_some_iff.mp h
  obtain ⟨info, hinfo, houts⟩ := Option.bind_eq_some_iff.mp hrest
  obtain rfl := Option.some.inj houts
  have hon (p : Prop) [Decidable p] (topic : Topic) :
      (if p then publish normal topic data else []).filterMap publication? =
        if p ∧ normal then [(topic, data)] else [] := by
    by_cases hp : p
    · simp [hp, publications_publish]
    · simp [hp]
  simp only [List.filterMap_append, hon, publications_reportOutputs hreport,
    publications_mcuInfoOutputs hinfo]
  cases normal with
  | false => simp
  | true =>
    simp only [Bool.and_true, and_true, if_true, reportsOf]
    -- an action has one name
    by_cases hr : isReport action.action = true
    · obtain ⟨hjoin, hrejoin, hleft, hinfo⟩ := report_names hr
      rw [if_pos hr, if_neg hjoin, if_neg hrejoin, if_neg hleft, if_neg hinfo, if_pos hr]
      rfl
    rw [if_neg hr, if_neg hr]
    by_cases hjoin : action.action = "join".toList
    · rw [if_pos hjoin, if_pos hjoin, hjoin]
      repeat rw [if_neg (by decide)]
      rfl
    rw [if_neg hjoin, if_neg hjoin]
    by_cases hrejoin : action.action = "rejoin".toList
    · rw [if_pos hrejoin, if_pos hrejoin, hrejoin]
      repeat rw [if_neg (by decide)]
      rfl
    rw [if_neg hrejoin, if_neg hrejoin]
    by_cases hleft : action.action = "left".toList
    · rw [if_pos hleft, if_pos hleft, hleft]
      repeat rw [if_neg (by decide)]
      rfl
    rw [if_neg hleft, if_neg hleft]
    rfl

theorem actionOf_eq {c' : Cmd}
    (h : analyzeSubZigbee lib data (Action.zero, c) = some (action, c')) :
    actionOf lib data = some action := by
  rw [actionOf]
  cases hparse : lib.parse data with
  | none =>
    obtain rfl : Action.zero = action := by
      simpa [analyzeSubZigbee, hparse] using congrArg (·.map Prod.fst) h
    simp [analyzeSubZigbee, hparse]
  | some root =>
    have hdefined := analyzeSubZigbee_defined hparse
    obtain ⟨hfit, hgiven⟩ := (hdefined _ _).mp h
    rw [(hdefined (Action.zero, Cmd.zero) _).mpr ⟨hfit, rfl⟩]
    exact congrArg (some ∘ Prod.fst) hgiven

variable {s s' : Uplink}

/-- What is published so far. -/
def published (s : Uplink) : List (Topic × Text) := s.out.filterMap UplinkOut.publication?

/-- A line changes the versions, the record and the calls. -/
theorem line_spec (h : s.line lib linkButton data = some s') :
    s'.state = s.state ∧ s'.rx = s.rx ∧ s'.i = s.i ∧ s'.rxBytes = s.rxBytes ∧
      s'.fwVersion = (versionOf lib data).getD s.fwVersion ∧
        s'.published = s.published ++ if s.state = .normal then reports lib data else [] := by
  obtain ⟨⟨action, commandSet⟩, hanalyze, h⟩ := Option.bind_eq_some_iff.mp h
  obtain ⟨outs, houts, h⟩ := Option.bind_eq_some_iff.mp h
  obtain ⟨fwVersion, hversion, h⟩ := Option.bind_eq_some_iff.mp h
  obtain rfl := Option.some.inj h
  have haction := actionOf_eq hanalyze
  refine ⟨rfl, rfl, rfl, rfl, ?_, ?_⟩
  · show fwVersion = _
    unfold versionAfter at hversion
    rw [versionOf, haction, Option.bind_some]
    split at hversion
    · rw [if_pos ‹_›, hversion]
      rfl
    · rw [if_neg ‹_›]
      exact (Option.some.inj hversion).symm
  · have hpublications := publications_lineOutputs houts
    simp only [beq_iff_eq] at hpublications
    have hmap : (outs.map UplinkOut.uart).filterMap UplinkOut.publication? =
        outs.filterMap publication? := by
      rw [List.filterMap_map]
      rfl
    show (s.out ++ outs.map UplinkOut.uart).filterMap _ = _
    rw [List.filterMap_append, hmap, hpublications, reports, haction]
    rfl

/-! ### Runs -/

variable {es : List Event} {e : Event}

theorem arrived_snoc (es : List Event) (e : Event) :
    arrived (es ++ [e]) = arrived es ++ e.bytes := by
  simp [arrived]

theorem online_snoc (es : List Event) (e : Event) :
    online (es ++ [e]) = connected (online es) e := by
  rw [online, List.foldl_append]
  rfl

/-- The state of a run in terms of its events. -/
structure Inv (lib : CJsonLib) (es : List Event) (s : Uplink) : Prop where
  state : s.state = .normal ↔ online es = true
  fwVersion : s.fwVersion = version lib (lines es)
  rx : s.rx.After (handled es)
  count : es.countP Event.isByte ≤ (arrived es).length
  index : s.i + ((arrived es).drop (es.countP Event.isByte)).length = s.rxBytes
  data : s.rx.rxData.Holds s.i ((arrived es).drop (es.countP Event.isByte))
  published : s.published = told (publishes lib) [] es

theorem inv_start (lib : CJsonLib) (c : Cmd) : Inv lib [] (start c) where
  state := iff_of_false SystemState.noConfusion (by decide)
  fwVersion := rfl
  rx := UartRx.After.init
  count := Nat.le_refl 0
  index := rfl
  data := Tape.holds_nil
  published := rfl

/-- Events of the connection leave the bytes alone. -/
theorem handled_net (es : List Event) (e : NetEvent) :
    arrived (es ++ [Event.net e]) = arrived es ∧
      (es ++ [Event.net e]).countP Event.isByte = es.countP Event.isByte ∧
        handled (es ++ [Event.net e]) = handled es := by
  have harrived : arrived (es ++ [Event.net e]) = arrived es := by
    rw [arrived_snoc]
    exact List.append_nil _
  have hcount : (es ++ [Event.net e]).countP Event.isByte = es.countP Event.isByte := by
    rw [List.countP_append]
    rfl
  exact ⟨harrived, hcount, by rw [handled, harrived, hcount, handled]⟩

theorem Inv.net (h : Inv lib es s) (e : NetEvent) : Inv lib (es ++ [.net e]) (s.net e) := by
  obtain ⟨harrived, hcount, hhandled⟩ := handled_net es e
  have hlines : lines (es ++ [.net e]) = lines es := by rw [lines, hhandled, lines]
  have hrx : (s.net e).rx = s.rx ∧ (s.net e).i = s.i ∧ (s.net e).rxBytes = s.rxBytes ∧
      (s.net e).fwVersion = s.fwVersion := by
    cases e <;> exact ⟨rfl, rfl, rfl, rfl⟩
  obtain ⟨hrx, hi, hrxBytes, hfwVersion⟩ := hrx
  refine ⟨?_, ?_, ?_, ?_, ?_, ?_, ?_⟩
  · rw [online_snoc]
    cases e with
    | staDisconnected | staConnected | mqttDisconnected =>
      exact iff_of_false (by simp [Uplink.net]) (by simp [connected])
    | mqttConnected => exact iff_of_true rfl rfl
    | _ => exact h.state
  · rw [hfwVersion, hlines, h.fwVersion]
  · rw [hrx, hhandled]
    exact h.rx
  · rw [hcount, harrived]
    exact h.count
  · rw [hi, hrxBytes, hcount, harrived]
    exact h.index
  · rw [hrx, hi, hcount, harrived]
    exact h.data
  · rw [told_snoc, ← h.published, List.nil_append]
    cases e with
    | mqttConnected =>
      rw [publishes, ← h.fwVersion]
      show (s.out ++ _).filterMap UplinkOut.publication? = _
      rw [List.filterMap_append]
      rfl
    | _ => simp [Uplink.net, Uplink.published, publishes, UplinkOut.publication?]

theorem holds_readInto {rxData rxData' : Tape Char} {bytes : Text}
    (h : readInto rxData bytes = some rxData') : rxData'.Holds 0 bytes := by
  obtain ⟨m, hm, h⟩ := Option.bind_eq_some_iff.mp h
  rw [Tape.store, Option.ite_none_right_eq_some] at hm
  obtain rfl := Option.some.inj hm.2
  split at h
  · rw [Tape.store, Option.ite_none_right_eq_some] at h
    obtain rfl := Option.some.inj h.2
    exact Tape.holds_write.frame fun k _ hk => Tape.write_of_lt (by omega)
  · obtain rfl := Option.some.inj h
    exact Tape.holds_write

/-- What is read is not handled yet. -/
theorem handled_read (h : es.countP Event.isByte ≤ (arrived es).length) (bytes : Text) :
    arrived (es ++ [Event.read bytes]) = arrived es ++ bytes ∧
      (es ++ [Event.read bytes]).countP Event.isByte = es.countP Event.isByte ∧
        handled (es ++ [Event.read bytes]) = handled es := by
  have harrived : arrived (es ++ [Event.read bytes]) = arrived es ++ bytes := arrived_snoc _ _
  have hcount : (es ++ [Event.read bytes]).countP Event.isByte = es.countP Event.isByte := by
    rw [List.countP_append]
    rfl
  refine ⟨harrived, hcount, ?_⟩
  rw [handled, harrived, hcount, List.take_append_of_le_length h, handled]

theorem Inv.read (h : Inv lib es s) {bytes : Text}
    (hstep : s.step lib linkButton (.read bytes) = some s') :
    Inv lib (es ++ [.read bytes]) s' := by
  simp only [step] at hstep
  split at hstep
  · cases hstep
  rename_i hdone
  obtain ⟨rxData, hread, rfl⟩ := Option.map_eq_some_iff.mp hstep
  obtain ⟨harrived, hcount, hhandled⟩ := handled_read h.count bytes
  -- nothing is left of the read before
  have hindex := h.index
  have hlength : es.countP Event.isByte = (arrived es).length := by
    rw [List.length_drop] at hindex
    have := h.count
    omega
  have hdrop : (arrived es ++ bytes).drop (es.countP Event.isByte) = bytes := by
    rw [hlength, List.drop_left]
  refine ⟨?_, ?_, ?_, ?_, ?_, ?_, ?_⟩
  · rw [online_snoc]
    exact h.state
  · rw [lines, hhandled]
    exact h.fwVersion
  · rw [hhandled]
    exact ⟨h.rx.j, h.rx.data, h.rx.analyzed⟩
  · rw [hcount, harrived, List.length_append]
    exact Nat.le_add_right_of_le h.count
  · rw [hcount, harrived, hdrop]
    exact Nat.zero_add _
  · rw [hcount, harrived, hdrop]
    exact holds_readInto hread
  · rw [told_snoc, ← h.published]
    simp [publishes, Uplink.published]

theorem arrived_byte (es : List Event) :
    arrived (es ++ [Event.byte]) = arrived es ∧
      (es ++ [Event.byte]).countP Event.isByte = es.countP Event.isByte + 1 := by
  constructor
  · rw [arrived_snoc]
    exact List.append_nil _
  · rw [List.countP_append]
    rfl

theorem handled_byte (h : es.countP Event.isByte < (arrived es).length) :
    handled (es ++ [Event.byte]) = handled es ++ [(arrived es)[es.countP Event.isByte]] := by
  obtain ⟨harrived, hcount⟩ := arrived_byte es
  rw [handled, harrived, hcount, List.take_succ_eq_append_getElem h, handled]

/-- A byte that ends a line adds it to the lines. -/
theorem lines_byte (h : es.countP Event.isByte < (arrived es).length) :
    lines (es ++ [Event.byte]) =
      if (arrived es)[es.countP Event.isByte]? = some '\n' then
        lines es ++ [lineString (unfinished '\n' (handled es))]
      else lines es := by
  rw [lines, handled_byte h, List.getElem?_eq_getElem h]
  split
  · rename_i hnewline
    rw [Option.some.inj hnewline, finished_sep, List.map_append, lines]
    rfl
  · rename_i hother
    rw [finished_snoc fun hno => hother (congrArg some hno), lines]

/-- A turn of the loop ends a line, or not. -/
theorem Inv.byte_cases (h : Inv lib es s) (hstep : s.step lib linkButton .byte = some s') :
    ∃ rx : UartRx, rx.After (handled (es ++ [.byte])) ∧ rx.rxData = s.rx.rxData ∧
      es.countP Event.isByte < (arrived es).length ∧
        ((arrived es)[es.countP Event.isByte]? = some '\n' ∧
            lines (es ++ [.byte]) = lines es ++ [lineString (unfinished '\n' (handled es))] ∧
              { s with rx, i := s.i + 1 }.line lib linkButton
                (lineString (unfinished '\n' (handled es))) = some s' ∨
          (arrived es)[es.countP Event.isByte]? ≠ some '\n' ∧ lines (es ++ [.byte]) = lines es ∧
            s' = { s with rx, i := s.i + 1 }) := by
  simp only [step] at hstep
  split at hstep
  swap
  · cases hstep
  rename_i hlt
  obtain ⟨rx, hbyte, hstep⟩ := Option.bind_eq_some_iff.mp hstep
  have hmore : es.countP Event.isByte < (arrived es).length := by
    have hindex := h.index
    rw [List.length_drop] at hindex
    omega
  have hdata := h.data
  rw [List.drop_eq_getElem_cons hmore, Tape.holds_cons] at hdata
  have hcell : (arrived es)[es.countP Event.isByte]? = some (s.rx.rxData s.i) := by
    rw [List.getElem?_eq_getElem hmore, hdata.1]
  have hlines := lines_byte hmore
  rw [hcell] at hlines
  obtain ⟨rx', hbyte', hafter, hrxData⟩ := h.rx.byte s.i
  obtain rfl : rx' = rx := Option.some.inj (hbyte'.symm.trans hbyte)
  have hhandled := handled_byte hmore
  rw [← hdata.1] at hhandled
  rw [← hhandled] at hafter
  refine ⟨rx', hafter, hrxData, hmore, ?_⟩
  split at hstep
  · rename_i hnewline
    rw [hnewline] at hcell
    rw [if_pos (congrArg some hnewline)] at hlines
    have hanalyzed : rx'.analyzed.getLast?.getD [] =
        lineString (unfinished '\n' (handled es)) := by
      have hall : rx'.analyzed = lines (es ++ [Event.byte]) := hafter.analyzed
      rw [hall, hlines, List.getLast?_concat]
      rfl
    rw [hanalyzed] at hstep
    exact .inl ⟨hcell, hlines, hstep⟩
  · rename_i hother
    have hno : some (s.rx.rxData s.i) ≠ some '\n' := fun hno => hother (Option.some.inj hno)
    rw [if_neg hno] at hlines
    exact .inr ⟨hcell ▸ hno, hlines, (Option.some.inj hstep).symm⟩

theorem Inv.byte (h : Inv lib es s) (hstep : s.step lib linkButton .byte = some s') :
    Inv lib (es ++ [.byte]) s' := by
  obtain ⟨rx, hafter, hrxData, hmore, hcases⟩ := h.byte_cases hstep
  have hdrop := List.drop_eq_getElem_cons hmore
  obtain ⟨harrived, hcount⟩ := arrived_byte es
  have honline : online (es ++ [Event.byte]) = online es := online_snoc _ _
  have hindex : s.i + 1 + ((arrived es).drop (es.countP Event.isByte + 1)).length = s.rxBytes := by
    have hindex := h.index
    rw [hdrop, List.length_cons] at hindex
    omega
  have hdata : rx.rxData.Holds (s.i + 1) ((arrived es).drop (es.countP Event.isByte + 1)) := by
    have hdata := h.data
    rw [hdrop, Tape.holds_cons] at hdata
    rw [hrxData]
    exact hdata.2
  have htold : told (publishes lib) [] (es ++ [Event.byte]) =
      s.published ++ publishes lib es .byte := by
    rw [told_snoc, ← h.published, List.nil_append]
  rcases hcases with ⟨hcell, hlines, hline⟩ | ⟨hcell, hlines, rfl⟩
  · obtain ⟨hstate, hrx, hi, hrxBytes, hfwVersion, hpublished⟩ := line_spec hline
    refine ⟨?_, ?_, ?_, ?_, ?_, ?_, ?_⟩
    · rw [hstate, honline]
      exact h.state
    · rw [hfwVersion, hlines, version, List.foldl_append]
      show _ = (versionOf lib _).getD (version lib (lines es))
      rw [← h.fwVersion]
    · rw [hrx]
      exact hafter
    · rw [hcount, harrived]
      exact hmore
    · rw [hi, hrxBytes, hcount, harrived]
      exact hindex
    · rw [hrx, hi, hcount, harrived]
      exact hdata
    · rw [htold, hpublished, publishes]
      show s.published ++ (if s.state = .normal then _ else _) = _
      by_cases honline : online es = true
      · rw [if_pos (h.state.mpr honline), if_pos ⟨hcell, honline⟩]
      · rw [if_neg fun hno => honline (h.state.mp hno), if_neg fun hno => honline hno.2]
  · refine ⟨?_, ?_, hafter, ?_, ?_, ?_, ?_⟩
    · rw [honline]
      exact h.state
    · rw [hlines]
      exact h.fwVersion
    · rw [hcount, harrived]
      exact hmore
    · rw [hcount, harrived]
      exact hindex
    · rw [hcount, harrived]
      exact hdata
    · rw [htold, publishes, if_neg fun hno => hcell hno.1, List.append_nil]
      rfl

theorem Inv.step (h : Inv lib es s) (hstep : s.step lib linkButton e = some s') :
    Inv lib (es ++ [e]) s' := by
  cases e with
  | net e =>
    obtain rfl := Option.some.inj hstep
    exact h.net e
  | read bytes => exact h.read hstep
  | byte => exact h.byte hstep

/-- Whatever the reads, and however the events of the Wi-Fi and of the session come between the bytes:
a line of the chip is published on the topic of its action, once and in order, exactly if it ends
while the last event of the connection is `MQTT_EVENT_CONNECTED`, and with each of these the
versions of the last line that gave some. -/
theorem published_eq_told {c : Cmd}
    (run : Run (Steps (Uplink.step lib linkButton)) (start c) es s) :
    s.published = told (publishes lib) [] es :=
  (run.history (I := Inv lib) (inv_start lib c) fun _ _ _ _ h hstep => h.step hstep).published

/-- A switch reports while the session lasts, and again after the access point went and came back
without an end of the session. -/
def blip : List Event :=
  [.net .mqttConnected, .read (fromSwitch ++ ['\n'])] ++
    List.replicate (fromSwitch.length + 1) .byte ++
      [.net .staDisconnected, .net .staConnected, .read (fromSwitch ++ ['\n'])] ++
        List.replicate (fromSwitch.length + 1) .byte

def blipEnd : Option Uplink := exec (Uplink.step reportLib true) (start Cmd.zero) blip

theorem blipEnd_isSome : blipEnd.isSome := by decide +kernel

/-- Only the first report is published. -/
theorem published_eq_told_blip :
    ∃ s, blipEnd = some s ∧
      s.published = [(.msg, ownVersion), (.deviceaction, fromSwitch)] := by
  obtain ⟨s, hs⟩ := Option.isSome_iff_exists.mp blipEnd_isSome
  have htold : told (publishes reportLib) [] blip =
      [(.msg, ownVersion), (.deviceaction, fromSwitch)] := by decide +kernel
  exact ⟨s, hs, (published_eq_told (Run.of_exec hs)).trans htold⟩

/-! ### Links -/

/-- The link events so far. -/
def queued (s : Uplink) : List LinkButton := s.out.filterMap UplinkOut.event?

/-- `command_set` and the link events after lines, without a connection. -/
def linksOffline (lib : CJsonLib) (linkButton : Bool) (c : Cmd) (lines : List Text) :
    Option (Cmd × List LinkButton) :=
  lines.foldlM (fun (c, events) line => (uartRxLine lib false linkButton c line).map fun (c, outs) =>
    (c, events ++ outs.filterMap UartOut.event?)) (c, [])

theorem events_reportOutputs :
    (reportOutputs normal linkButton data action c).map (·.filterMap UartOut.event?) =
      (reportOutputs false linkButton data action c).map (·.filterMap UartOut.event?) := by
  unfold reportOutputs
  split
  · split
    · rw [Option.map_map, Option.map_map]
      refine congrArg (Option.map · _) (funext fun event => ?_)
      cases normal <;> rfl
    · cases normal <;> rfl
  · rfl

theorem events_mcuInfoOutputs :
    (mcuInfoOutputs normal action).map (·.filterMap UartOut.event?) =
      (mcuInfoOutputs false action).map (·.filterMap UartOut.event?) := by
  unfold mcuInfoOutputs
  split
  · rw [Option.map_map, Option.map_map]
    refine congrArg (Option.map · _) (funext fun message => ?_)
    cases normal <;> rfl
  · rfl

/-- The link events of a line do not depend on the connection. -/
theorem events_lineOutputs :
    (lineOutputs normal linkButton data action c).map (·.filterMap UartOut.event?) =
      (lineOutputs false linkButton data action c).map (·.filterMap UartOut.event?) := by
  have hon (normal : Bool) (p : Prop) [Decidable p] (topic : Topic) :
      (if p then publish normal topic data else []).filterMap UartOut.event? = [] := by
    split
    · exact publish_events topic data
    · rfl
  have hsplit : ∀ normal, (lineOutputs normal linkButton data action c).map
      (·.filterMap UartOut.event?) =
        ((reportOutputs normal linkButton data action c).map (·.filterMap UartOut.event?)).bind
          fun report => ((mcuInfoOutputs normal action).map (·.filterMap UartOut.event?)).map
            fun info => report ++ info := by
    intro normal
    unfold lineOutputs
    cases reportOutputs normal linkButton data action c with
    | none => rfl
    | some report =>
      cases mcuInfoOutputs normal action with
      | none => rfl
      | some info =>
        simp only [Bind.bind, pure, Option.bind_some, Option.map_some, List.filterMap_append, hon,
          List.append_nil]
  rw [hsplit, hsplit, events_reportOutputs, events_mcuInfoOutputs]

theorem links_line (h : s.line lib linkButton data = some s') :
    ∃ outs, uartRxLine lib false linkButton s.commandSet data = some (s'.commandSet, outs) ∧
      s'.queued = s.queued ++ outs.filterMap UartOut.event? := by
  obtain ⟨⟨action, commandSet⟩, hanalyze, h⟩ := Option.bind_eq_some_iff.mp h
  obtain ⟨outs, houts, h⟩ := Option.bind_eq_some_iff.mp h
  obtain ⟨fwVersion, -, h⟩ := Option.bind_eq_some_iff.mp h
  obtain rfl := Option.some.inj h
  have hevents := @events_lineOutputs linkButton (s.state == .normal) data action commandSet
  rw [houts, Option.map_some] at hevents
  obtain ⟨outs', houts', heq⟩ := Option.map_eq_some_iff.mp hevents.symm
  refine ⟨outs', ?_, ?_⟩
  · rw [uartRxLine, hanalyze]
    show (lineOutputs false linkButton data action commandSet).bind _ = _
    rw [houts']
    rfl
  · have hmap : (outs.map UplinkOut.uart).filterMap UplinkOut.event? =
        outs.filterMap UartOut.event? := by
      rw [List.filterMap_map]
      rfl
    show (s.out ++ outs.map UplinkOut.uart).filterMap _ = _
    rw [List.filterMap_append, hmap, heq]
    rfl

/-- The state of a run with its links. -/
structure Linked (lib : CJsonLib) (linkButton : Bool) (c : Cmd) (es : List Event) (s : Uplink) :
    Prop where
  inv : Inv lib es s
  links : linksOffline lib linkButton c (lines es) = some (s.commandSet, s.queued)

theorem linked_start (lib : CJsonLib) (linkButton : Bool) (c : Cmd) :
    Linked lib linkButton c [] (start c) := ⟨inv_start lib c, rfl⟩

theorem Linked.step {c : Cmd} (h : Linked lib linkButton c es s)
    (hstep : s.step lib linkButton e = some s') : Linked lib linkButton c (es ++ [e]) s' := by
  obtain ⟨hinv, hlinks⟩ := h
  refine ⟨hinv.step hstep, ?_⟩
  cases e with
  | net e =>
    obtain rfl := Option.some.inj hstep
    rw [lines, (handled_net es e).2.2, ← lines, hlinks]
    cases e with
    | staStart | staDisconnected | staBeaconTimeout | mqttConnected =>
      simp [Uplink.net, queued, UplinkOut.event?, UartOut.event?]
    | _ => rfl
  | read bytes =>
    have hhandled := (handled_read hinv.count bytes).2.2
    simp only [Uplink.step] at hstep
    split at hstep
    · cases hstep
    · obtain ⟨rxData, -, rfl⟩ := Option.map_eq_some_iff.mp hstep
      rw [lines, hhandled, ← lines, hlinks]
      rfl
  | byte =>
    obtain ⟨rx, -, -, -, ⟨-, hlines, hline⟩ | ⟨-, hlines, rfl⟩⟩ := hinv.byte_cases hstep
    · obtain ⟨outs, houts, hqueued⟩ := links_line hline
      rw [hlines, linksOffline, List.foldlM_append, ← linksOffline, hlinks]
      show (uartRxLine lib false linkButton s.commandSet _).map _ >>= pure = _
      rw [houts, bind_pure, hqueued]
      rfl
    · rw [hlines, hlinks]
      rfl

/-- The link events are those of the lines, with a connection or without: events of the Wi-Fi and of
the session, and the way the lines are cut into reads, leave no trace in them. -/
theorem queued_offline {c : Cmd}
    (run : Run (Steps (Uplink.step lib linkButton)) (start c) es s) :
    linksOffline lib linkButton c (lines es) = some (s.commandSet, s.queued) :=
  (run.history (I := Linked lib linkButton c) (linked_start lib linkButton c)
    fun _ _ _ _ h hstep => h.step hstep).links

/-- Both reports lead to a link event. -/
theorem queued_offline_blip :
    ∃ s, blipEnd = some s ∧ s.queued =
      [⟨"on".toList, "0x1A2Bzigbee1".toList⟩, ⟨"on".toList, "0x1A2Bzigbee1".toList⟩] := by
  obtain ⟨s, hs⟩ := Option.isSome_iff_exists.mp blipEnd_isSome
  have hlinks := queued_offline (Run.of_exec hs)
  have hevents : (linksOffline reportLib true Cmd.zero (lines blip)).map Prod.snd = some
      [⟨"on".toList, "0x1A2Bzigbee1".toList⟩, ⟨"on".toList, "0x1A2Bzigbee1".toList⟩] := by
    decide +kernel
  rw [hlinks] at hevents
  exact ⟨s, hs, Option.some.inj hevents⟩

end

end Uplink

end VhomeBridge.Main
