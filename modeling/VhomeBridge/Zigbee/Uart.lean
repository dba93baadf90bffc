import VhomeBridge.JsonUser

/-! The lines from the Zigbee chip.  `uart_rx_task` analyses each line, publishes it, and puts a
link event on the queue for a report.  The record `action` is cleared for each line, the record
`command_set` is not: it starts with what the stack holds, and keeps from line to line the fields
that a line does not give.  The records are kept by fields: a string past the end of its field is a
fault, also where the record goes on behind it. -/

namespace VhomeBridge.Zigbee

open JsonUser

inductive Topic
  | devicejoined
  | deviceaction
  | deviceleft
  | devicerejoin
  | msg
  deriving DecidableEq

inductive UartOut
  | publish (topic : Topic) (payload : Text)
  | queueIdButton (item : LinkButton)
  deriving DecidableEq

def UartOut.event? : UartOut → Option LinkButton
  | .publish _ _ => none
  | .queueIdButton item => some item

/-- The actions whose lines are published on `deviceaction`. -/
def isReport (action : Text) : Bool :=
  action == "reportAttrs".toList || action == "readAttrsRes".toList ||
    action == "writeAttrsRes".toList || action == "readAttrs".toList

/-- The link event of a report, in `stateButton[5]` and `idButton[40]`. -/
def uartLinkEvent (commandSet : Cmd) : Option LinkButton := do
  let stateButton ← intoBuffer 5 commandSet.value
  let idButton ← intoBuffer 40
    (commandSet.nodeID ++ "zigbee".toList ++ Text.decimal commandSet.endpoint.toNat)
  return ⟨stateButton, idButton⟩

/-- The message of `mcuInfo`, in `fwVersion[50]`. -/
def fwVersionMessage (action : Action) : Option Text :=
  intoBuffer 50 ("\x7b\"fwVersion\":\"0.5.3\",\"zbFwVersion\":\"".toList ++ action.fwVersion ++
    "\"\x7d".toList)

section

variable (lib : CJsonLib) (normal linkButton : Bool)

def publish (topic : Topic) (payload : Text) : List UartOut :=
  if normal then [.publish topic payload] else []

/-- The outputs for a report. -/
def reportOutputs (data : Text) (action : Action) (commandSet : Cmd) : Option (List UartOut) :=
  if isReport action.action then
    if linkButton then
      (uartLinkEvent commandSet).map fun event =>
        publish normal .deviceaction data ++ [.queueIdButton event]
    else some (publish normal .deviceaction data)
  else some []

def mcuInfoOutputs (action : Action) : Option (List UartOut) :=
  if action.action = "mcuInfo".toList then (fwVersionMessage action).map (publish normal .msg)
  else some []

/-- The outputs for a line, once it is analysed. -/
def lineOutputs (data : Text) (action : Action) (commandSet : Cmd) : Option (List UartOut) := do
  let on (name : String) (topic : Topic) : List UartOut :=
    if action.action = name.toList then publish normal topic data else []
  let report ← reportOutputs normal linkButton data action commandSet
  let info ← mcuInfoOutputs normal action
  return report ++ on "join" .devicejoined ++ on "rejoin" .devicerejoin ++ on "left" .deviceleft ++
    info

/-- `uart_rx_task` at the end of a line: `command_set` afterwards and the outputs. -/
def uartRxLine (commandSet : Cmd) (data : Text) : Option (Cmd × List UartOut) := do
  let (action, commandSet) ← analyzeSubZigbee lib data (Action.zero, commandSet)
  return (commandSet, ← lineOutputs normal linkButton data action commandSet)

end

/-! ### One line -/

section

variable {lib : CJsonLib} {normal : Bool}

/-- The message leaves eleven characters for the version. -/
theorem fwVersionMessage_isSome {action : Action} :
    (fwVersionMessage action).isSome ↔ action.fwVersion.length < 12 := by
  have hopen : "\x7b\"fwVersion\":\"0.5.3\",\"zbFwVersion\":\"".toList.length = 36 := by decide
  have hclose : "\"\x7d".toList.length = 2 := by decide
  rw [fwVersionMessage, intoBuffer, Option.isSome_ite, List.length_append, List.length_append,
    hopen, hclose]
  omega

theorem report_names {a : Text} (h : isReport a = true) :
    a ≠ "join".toList ∧ a ≠ "rejoin".toList ∧ a ≠ "left".toList ∧ a ≠ "mcuInfo".toList := by
  simp only [isReport, Bool.or_eq_true, beq_iff_eq] at h
  rcases h with ((rfl | rfl) | rfl) | rfl <;> decide

theorem publish_events (topic : Topic) (payload : Text) :
    (publish normal topic payload).filterMap UartOut.event? = [] := by
  cases normal <;> rfl

/-- An event of a record whose strings fit. -/
theorem uartLinkEvent_eq {c : Cmd} (hnode : c.nodeID.length < 10) (hvalue : c.value.length < 5) :
    uartLinkEvent c =
      some ⟨c.value, c.nodeID ++ "zigbee".toList ++ Text.decimal c.endpoint.toNat⟩ := by
  have hdecimal : (Text.decimal c.endpoint.toNat).length ≤ 3 :=
    (Nat.length_toDigits_le_iff (by decide) (by decide)).mpr (by omega)
  have hfit : (c.nodeID ++ "zigbee".toList ++ Text.decimal c.endpoint.toNat).length < 40 := by
    have : "zigbee".toList.length = 6 := by simp
    simp only [List.length_append, this]
    omega
  simp only [uartLinkEvent, intoBuffer, hvalue, hfit, if_true, Bind.bind, Option.bind_some, pure]

/-! ### Reports of endpoint 1 -/

def stringItem (name value : String) : CJson := .mk (some name.toList) (some value.toList) 0 []

/-- A report of endpoint 1 that it is on, with a node id or without. -/
def reportTree (nodeId : List CJson) : CJson :=
  .mk none none 0 (stringItem "action" "reportAttrs" :: nodeId ++
    [.mk (some "endpoint".toList) none 1 [],
      .mk (some "data".toList) none 0
        [.mk none none 0 [stringItem "attributeBuffer" "01"]]])

def reportLine (nodeId : String) : Text :=
  ("\x7b\"action\":\"reportAttrs\"," ++ nodeId ++ "\"endpoint\":1," ++
    "\"data\":[\x7b\"attributeBuffer\":\"01\"\x7d]\x7d").toList

def fromSwitch : Text := reportLine "\"nodeId\":\"0x1A2B\","

def fromLamp : Text := reportLine "\"nodeId\":\"0x0005\","

def fromNobody : Text := reportLine ""

/-- The library on these lines. -/
def reportLib : CJsonLib where
  parse := fun text =>
    if text = fromSwitch then some (reportTree [stringItem "nodeId" "0x1A2B"])
    else if text = fromLamp then some (reportTree [stringItem "nodeId" "0x0005"])
    else if text = fromNobody then some (reportTree [])
    else none
  getObjectItem := fun object name =>
    object.bind fun object => object.child.find? fun it => it.string == some name
  getArrayItem := fun array index => array.bind fun array => array.child[index]?

end

end VhomeBridge.Zigbee
