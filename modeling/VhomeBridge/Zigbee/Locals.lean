import VhomeBridge.JsonRecords
import VhomeBridge.Zigbee.Uart

/-! The records of `uart_rx_task` as they lie in memory.  `action` is cleared for each line,
`command_set` and `dataLinkButton` are not: they start with what the stack holds. -/

namespace VhomeBridge.Zigbee

open JsonUser JsonRecords Lib

/-- The cells of `action`, `command_set` and `dataLinkButton`. -/
structure Locals where
  action : Tape Char
  commandSet : Tape Char
  dataLinkButton : Tape Char

/-! ### The layout of the records -/

/-- `action[50]` and `fwVersion[20]`. -/
def actionSize : Nat := 70

def fwVersionAt : Nat := 50

/-- `action[50]`, `nodeID[10]`, `EUI64[18]`, `endpoint`, `value[20]`, `url[100]` and
`protocol[10]`. -/
def cmdSize : Nat := 209

def nodeIDAt : Nat := 50

def endpointAt : Nat := 78

def valueAt : Nat := 79

/-- `stateButton[5]` and `idButton[40]`. -/
def linkButtonSize : Nat := 45

def idButtonAt : Nat := 5

namespace Locals

/-! ### `JSON_analyze_SUB_ZIGBEE` -/

section

variable (lib : CJsonLib) (normal linkButton : Bool)

def subZigbeeItem (root item : CJson) (s : Locals) : Option Locals := do
  let s ← onMember "action" item (fun s => do
    return { s with action := ← copyTo actionSize 0 item.valuestring s.action }) s
  let s ← onMember "fwVersion" item (fun s => do
    return { s with action := ← copyTo actionSize fwVersionAt item.valuestring s.action }) s
  let s ← onMember "nodeId" item (fun s => do
    return { s with commandSet := ← copyTo cmdSize nodeIDAt item.valuestring s.commandSet }) s
  let s ← onMember "endpoint" item (fun s =>
    let endpoint := Char.ofNat (BitVec.ofInt 8 item.valueint).toNat
    some { s with commandSet := s.commandSet.write endpointAt [endpoint] }) s
  onMember "data" item (fun s =>
    match attributeBuffer lib root with
    | none => some s
    | some attrBuf => do
      let state ← attributeState attrBuf
      return { s with commandSet := s.commandSet.write valueAt (state ++ ['\x00']) }) s

def analyzeSubZigbee (text : Text) (s : Locals) : Option Locals :=
  match lib.parse text with
  | none => some s
  | some root => root.child.foldlM (fun s item => subZigbeeItem lib root item s) s

/-! ### The end of a line -/

/-- `memset` of `action`. -/
def cleared (s : Locals) : Locals := { s with action := fun _ => '\x00' }

/-- `strcmp` of the action with a name finds them equal. -/
def isAction (s : Locals) (name : String) : Bool :=
  s.action.read 0 (name.toList.length + 1) == name.toList ++ ['\x00']

def isReport (s : Locals) : Bool :=
  s.isAction "reportAttrs" || s.isAction "readAttrsRes" || s.isAction "writeAttrsRes" ||
    s.isAction "readAttrs"

def endpoint (s : Locals) : Nat := (s.commandSet endpointAt).toNat % 256

/-- `dataLinkButton` for a report, and its two strings. -/
def uartLinkEvent (s : Locals) : Option (Tape Char × LinkButton) := do
  let value ← s.commandSet.string '\x00' cmdSize valueAt
  let item ← s.dataLinkButton.store linkButtonSize 0 (value ++ ['\x00'])
  let nodeID ← s.commandSet.string '\x00' cmdSize nodeIDAt
  let item ← item.store linkButtonSize idButtonAt
    (nodeID ++ "zigbee".toList ++ Text.decimal s.endpoint ++ ['\x00'])
  let stateButton ← item.string '\x00' linkButtonSize 0
  let idButton ← item.string '\x00' linkButtonSize idButtonAt
  return (item, ⟨stateButton, idButton⟩)

/-- The outputs for a report. -/
def reportOutputs (data : Text) (s : Locals) : Option (Locals × List UartOut) :=
  if s.isReport then
    if linkButton then do
      let (item, event) ← s.uartLinkEvent
      return ({ s with dataLinkButton := item },
        publish normal .deviceaction data ++ [.queueIdButton event])
    else some (s, publish normal .deviceaction data)
  else some (s, [])

/-- The message of `mcuInfo`, in `fwVersion[50]`. -/
def mcuInfoOutputs (s : Locals) : Option (List UartOut) :=
  if s.isAction "mcuInfo" then do
    let fwVersion ← s.action.string '\x00' actionSize fwVersionAt
    (fwVersionMessage ⟨"mcuInfo".toList, fwVersion⟩).map (publish normal .msg)
  else some []

/-- `uart_rx_task` at the end of a line. -/
def uartRxLine (s : Locals) (data : Text) : Option (Locals × List UartOut) := do
  let s ← analyzeSubZigbee lib data s.cleared
  let on (name : String) (topic : Topic) : List UartOut :=
    if s.isAction name then publish normal topic data else []
  let (s, report) ← s.reportOutputs normal linkButton data
  let info ← s.mcuInfoOutputs normal
  return (s, report ++ on "join" .devicejoined ++ on "rejoin" .devicerejoin ++
    on "left" .deviceleft ++ info)

/-- The records after lines. -/
def uartRxLines (s : Locals) (lines : List Text) : Option Locals :=
  lines.foldlM (fun s line => (s.uartRxLine lib normal linkButton line).map (·.1)) s

/-- The link events that the last of the lines puts on the queue. -/
def lastEvents (s : Locals) (lines : List Text) (line : Text) : Option (List LinkButton) := do
  let s ← s.uartRxLines lib normal linkButton lines
  let (_, outs) ← s.uartRxLine lib normal linkButton line
  return outs.filterMap UartOut.event?

end

/-! ### What a line gives -/

def fwVersionOf (item : CJson) : Option Text :=
  (textOf "fwVersion" item).or ((textOf "action" item).bind (spill 50))

def numberOf (item : CJson) : Option Char :=
  (byteOf "endpoint" item).map fun e => Char.ofNat e.toNat

/-- The byte that an item leaves in `endpoint`: its number, or a character of a node id. -/
def endpointOf (item : CJson) : Option Char :=
  (numberOf item).or
    (((textOf "nodeId" item).bind (spill 28)).map fun s => s.headD '\x00')

/-- The string that an item leaves in `value`: a state, or the rest of a node id. -/
def valueOf (lib : CJsonLib) (root item : CJson) : Option Text :=
  (stateOf lib root item).or ((textOf "nodeId" item).bind (spill 29))

/-- What the items leave in the fields that are read. -/
structure Given where
  action : Text
  fwVersion : Text
  nodeID : Option Text
  endpoint : Option Char
  value : Option Text

def given (lib : CJsonLib) (root : CJson) (items : List CJson) : Given where
  action := lastOf (textOf "action") items []
  fwVersion := lastOf fwVersionOf items []
  nodeID := (items.filterMap (textOf "nodeId")).getLast?
  endpoint := (items.filterMap endpointOf).getLast?
  value := (items.filterMap (valueOf lib root)).getLast?

/-- The strings of the item stay in the records. -/
structure FitsRecord (lib : CJsonLib) (root item : CJson) : Prop where
  action : FitsRoom "action" 70 item
  fwVersion : FitsRoom "fwVersion" 20 item
  nodeID : FitsRoom "nodeId" 159 item
  data : item.string = some "data".toList → BufferIsString lib root

/-- The string from `nodeID` on: a node id of 28 characters or more runs into the endpoint and the
value. -/
def runOn (nodeID : Text) (endpoint : Char) (value : Text) : Text :=
  if nodeID.length < 28 then nodeID
  else nodeID.take 28 ++ if endpoint = '\x00' then [] else endpoint :: value

/-- The line gives the node id, the endpoint and the value of its event, and they fit it. -/
def Given.Complete (g : Given) : Prop :=
  ∃ nodeID endpoint value, g.nodeID = some nodeID ∧ g.endpoint = some endpoint ∧
    g.value = some value ∧ value.length < 45 ∧
      (runOn nodeID endpoint value).length + (Text.decimal (endpoint.toNat % 256)).length < 34

/-- The strings of the line stay in the records, a report gives all of its event, and a version
leaves room for the rest of its message. -/
def Complete (lib : CJsonLib) (line : Text) : Prop :=
  ∀ root, lib.parse line = some root →
    (∀ item ∈ root.child, FitsRecord lib root item) ∧
      (Zigbee.isReport (given lib root root.child).action = true →
        (given lib root root.child).Complete) ∧
      ((given lib root root.child).action = "mcuInfo".toList →
        (given lib root root.child).fwVersion.length < 12)

/-! ### The items in the records -/

/-- A byte in `endpoint`, if there is one. -/
def putEndpoint (e : Option Char) (m : Tape Char) : Tape Char :=
  match e with
  | none => m
  | some e => m.write endpointAt [e]

def putItem (lib : CJsonLib) (root item : CJson) (s : Locals) : Locals where
  action := putAt fwVersionAt (textOf "fwVersion" item) (putAt 0 (textOf "action" item) s.action)
  commandSet := putAt valueAt (stateOf lib root item)
    (putEndpoint (numberOf item) (putAt nodeIDAt (textOf "nodeId" item) s.commandSet))
  dataLinkButton := s.dataLinkButton

def put (lib : CJsonLib) (root : CJson) (items : List CJson) (s : Locals) : Locals :=
  items.foldl (fun s item => putItem lib root item s) s

section

variable {lib : CJsonLib} {root item : CJson}

theorem subZigbeeItem_defined (lib : CJsonLib) (root item : CJson) :
    DefinedIf (FitsRecord lib root item) (subZigbeeItem lib root item)
      (putItem lib root item) := by
  have action := copyTo_defined "action" 70 actionSize 0 rfl item Locals.action
    (fun s m => { s with action := m }) fun _ => rfl
  have fwVersion := copyTo_defined "fwVersion" 20 actionSize fwVersionAt rfl item Locals.action
    (fun s m => { s with action := m }) fun _ => rfl
  have nodeID := copyTo_defined "nodeId" 159 cmdSize nodeIDAt rfl item Locals.commandSet
    (fun s m => { s with commandSet := m }) fun _ => rfl
  have endpoint : DefinedIf True (onMember "endpoint" item fun s : Locals =>
      let endpoint := Char.ofNat (BitVec.ofInt 8 item.valueint).toNat
      some { s with commandSet := s.commandSet.write endpointAt [endpoint] })
      fun s => { s with commandSet := putEndpoint (numberOf item) s.commandSet } := by
    intro s s'
    rw [onMember, numberOf, byteOf]
    by_cases hname : item.string = some "endpoint".toList
    · rw [if_pos hname, if_pos hname]
      simp [putEndpoint]
    · rw [if_neg hname, if_neg hname]
      simp [putEndpoint]
  have data : DefinedIf (item.string = some "data".toList → BufferIsString lib root)
      (onMember "data" item fun s : Locals =>
        match attributeBuffer lib root with
        | none => some s
        | some attrBuf => (attributeState attrBuf).bind fun state =>
          some { s with commandSet := s.commandSet.write valueAt (state ++ ['\x00']) })
      fun s => { s with commandSet := putAt valueAt (stateOf lib root item) s.commandSet } := by
    intro s s'
    rw [onMember, stateOf, BufferIsString]
    by_cases hname : item.string = some "data".toList
    · rw [if_pos hname, if_pos hname, forall_prop_of_true hname]
      cases attributeBuffer lib root with
      | none => simp [putAt]
      | some attrBuf =>
        cases hstring : attrBuf.valuestring with
        | none => simp [attributeState, hstring]
        | some t => simp [attributeState, hstring, putAt]
    · rw [if_neg hname, if_neg hname]
      exact ⟨fun h => ⟨fun h' => absurd h' hname, Option.some.inj h⟩, fun h => congrArg some h.2⟩
  have hitem : DefinedIf _ (subZigbeeItem lib root item) _ := action.andThen <|
    fwVersion.andThen <| nodeID.andThen <| endpoint.andThen data
  refine hitem.congr ?_ fun s => ?_
  · exact ⟨fun h => ⟨h.1, h.2.1, h.2.2.1, h.2.2.2.2⟩,
      fun h => ⟨h.action, h.fwVersion, h.nodeID, trivial, h.data⟩⟩
  · rfl

/-- The analysis is defined exactly if the strings stay in the records. -/
theorem analyze_defined {line : Text} (hparse : lib.parse line = some root) :
    DefinedIf (∀ item ∈ root.child, FitsRecord lib root item) (analyzeSubZigbee lib line)
      (put lib root root.child) := by
  intro s s'
  have hfold := DefinedIf.foldlM (subZigbeeItem_defined lib root) root.child s s'
  rw [analyzeSubZigbee, hparse]
  exact hfold

/-! ### What the items leave -/

/-- The records after items that leave `g`, from `s`. -/
structure Left (g : Given) (s t : Locals) : Prop where
  action : t.action.Holds 0 ((g.action ++ ['\x00']).take 50)
  fwVersion : t.action.Holds fwVersionAt (g.fwVersion ++ ['\x00'])
  nodeID : ∀ n, g.nodeID = some n → t.commandSet.Holds nodeIDAt ((n ++ ['\x00']).take 28)
  noNodeID : g.nodeID = none → ∀ k, nodeIDAt ≤ k → k < endpointAt → t.commandSet k = s.commandSet k
  endpoint : t.commandSet endpointAt = g.endpoint.getD (s.commandSet endpointAt)
  value : ∀ v, g.value = some v → t.commandSet.Holds valueAt (v ++ ['\x00'])
  noValue : g.value = none → ∀ k, valueAt ≤ k → t.commandSet k = s.commandSet k

variable {m : Tape Char} {pos j n : Nat} {l : Text} {s t : Locals}

theorem putEndpoint_of_ne {e : Option Char} (h : j ≠ endpointAt) : putEndpoint e m j = m j := by
  cases e with
  | none => rfl
  | some e => exact Tape.write_outside (by rw [List.length_singleton]; omega)

section

variable {items : List CJson}

theorem given_action_snoc : (given lib root (items ++ [item])).action =
    (textOf "action" item).getD (given lib root items).action := lastOf_snoc _ _ _ _

theorem given_fwVersion_snoc : (given lib root (items ++ [item])).fwVersion =
    ((textOf "fwVersion" item).or ((textOf "action" item).bind (spill 50))).getD
      (given lib root items).fwVersion := lastOf_snoc _ _ _ _

theorem given_nodeID_snoc : (given lib root (items ++ [item])).nodeID =
    (textOf "nodeId" item).or (given lib root items).nodeID := getLast?_filterMap_snoc _ _ _

theorem given_endpoint_snoc : (given lib root (items ++ [item])).endpoint =
    ((numberOf item).or (((textOf "nodeId" item).bind (spill 28)).map fun s => s.headD '\x00')).or
      (given lib root items).endpoint := getLast?_filterMap_snoc _ _ _

theorem given_value_snoc : (given lib root (items ++ [item])).value =
    ((stateOf lib root item).or ((textOf "nodeId" item).bind (spill 29))).or
      (given lib root items).value := getLast?_filterMap_snoc _ _ _

theorem left_nil (lib : CJsonLib) (root : CJson) (s : Locals) :
    Left (given lib root []) s.cleared s.cleared where
  action := Tape.holds_cons.mpr ⟨rfl, Tape.holds_nil⟩
  fwVersion := Tape.holds_cons.mpr ⟨rfl, Tape.holds_nil⟩
  nodeID := by intro n hn; cases hn
  noNodeID _ _ _ _ := rfl
  endpoint := rfl
  value := by intro v hv; cases hv
  noValue _ _ _ := rfl

theorem Left.action_item (h : Left (given lib root items) s t) :
    (putItem lib root item t).action.Holds 0
      (((given lib root (items ++ [item])).action ++ ['\x00']).take 50) := by
  have hkept {m : Tape Char} {l : Text} (hm : m.Holds 0 (l.take 50)) :
      (putAt fwVersionAt (textOf "fwVersion" item) m).Holds 0 (l.take 50) :=
    hm.frame fun k _ hk => putAt_of_lt (by rw [List.length_take] at hk; unfold fwVersionAt; omega)
  apply hkept
  rw [given_action_snoc]
  cases textOf "action" item with
  | none => exact h.action
  | some a => exact Tape.holds_write.take 50

theorem Left.fwVersion_item (h : Left (given lib root items) s t) :
    (putItem lib root item t).action.Holds fwVersionAt
      ((given lib root (items ++ [item])).fwVersion ++ ['\x00']) := by
  show (putAt fwVersionAt (textOf "fwVersion" item) (putAt 0 (textOf "action" item)
    t.action)).Holds fwVersionAt _
  rw [given_fwVersion_snoc]
  cases textOf "fwVersion" item with
  | some v => exact Tape.holds_write
  | none =>
    show (putAt 0 (textOf "action" item) t.action).Holds fwVersionAt _
    cases textOf "action" item with
    | none => exact h.fwVersion
    | some a =>
      rw [Option.none_or, Option.bind_some]
      cases hspill : spill 50 a with
      | some rest =>
        have hholds := holds_spill t.action 0 hspill
        rwa [Nat.zero_add] at hholds
      | none =>
        have hlt := spill_none hspill
        refine h.fwVersion.frame fun k hk _ => putAt_of_ge fun x hx => ?_
        obtain rfl := Option.some.inj hx
        unfold fwVersionAt at hk
        omega

/-- The cells of `command_set` before `endpoint` have the node id only. -/
theorem putItem_before {k : Nat} (hk : k < endpointAt) : (putItem lib root item t).commandSet k =
    putAt nodeIDAt (textOf "nodeId" item) t.commandSet k :=
  (putAt_of_lt (by unfold endpointAt valueAt at *; omega)).trans (putEndpoint_of_ne (by omega))

theorem Left.nodeID_item (h : Left (given lib root items) s t) {n : Text}
    (hn : (given lib root (items ++ [item])).nodeID = some n) :
    (putItem lib root item t).commandSet.Holds nodeIDAt ((n ++ ['\x00']).take 28) := by
  have hkept {l : Text} (hm : (putAt nodeIDAt (textOf "nodeId" item) t.commandSet).Holds nodeIDAt
      (l.take 28)) : (putItem lib root item t).commandSet.Holds nodeIDAt (l.take 28) :=
    hm.frame fun k _ hk => putItem_before (by
      rw [List.length_take] at hk
      unfold nodeIDAt at hk
      unfold endpointAt
      omega)
  apply hkept
  rw [given_nodeID_snoc] at hn
  cases hitem : textOf "nodeId" item with
  | none =>
    rw [hitem, Option.none_or] at hn
    exact h.nodeID n hn
  | some x =>
    rw [hitem, Option.some_or] at hn
    obtain rfl := Option.some.inj hn
    exact Tape.holds_write.take 28

theorem Left.noNodeID_item (h : Left (given lib root items) s t)
    (hn : (given lib root (items ++ [item])).nodeID = none) {k : Nat} (hk : nodeIDAt ≤ k)
    (hk' : k < endpointAt) : (putItem lib root item t).commandSet k = s.commandSet k := by
  rw [given_nodeID_snoc, Option.or_eq_none_iff] at hn
  rw [putItem_before hk', hn.1]
  exact h.noNodeID hn.2 k hk hk'

theorem Left.endpoint_item (h : Left (given lib root items) s t) :
    (putItem lib root item t).commandSet endpointAt =
      (given lib root (items ++ [item])).endpoint.getD (s.commandSet endpointAt) := by
  have hbehind : (putItem lib root item t).commandSet endpointAt =
      putEndpoint (numberOf item) (putAt nodeIDAt (textOf "nodeId" item) t.commandSet) endpointAt :=
    putAt_of_lt (by decide)
  rw [hbehind, given_endpoint_snoc]
  cases numberOf item with
  | some e => exact (Tape.holds_cons.mp Tape.holds_write).1
  | none =>
    show putAt nodeIDAt (textOf "nodeId" item) t.commandSet endpointAt = _
    cases textOf "nodeId" item with
    | none => exact h.endpoint
    | some x =>
      rw [Option.none_or, Option.bind_some]
      cases hspill : spill 28 x with
      | none =>
        have hlt := spill_none hspill
        refine Eq.trans (putAt_of_ge fun y hy => ?_) h.endpoint
        obtain rfl := Option.some.inj hy
        unfold nodeIDAt endpointAt
        omega
      | some rest =>
        have hholds := holds_spill t.commandSet nodeIDAt hspill
        cases rest with
        | nil => exact (Tape.holds_cons.mp hholds).1
        | cons c rest => exact (Tape.holds_cons.mp hholds).1

/-- The cells behind `endpoint` have the node id and the state. -/
theorem putItem_behind {k : Nat} (hk : valueAt ≤ k) : putEndpoint (numberOf item)
    (putAt nodeIDAt (textOf "nodeId" item) t.commandSet) k =
      putAt nodeIDAt (textOf "nodeId" item) t.commandSet k :=
  putEndpoint_of_ne (by unfold valueAt at hk; unfold endpointAt; omega)

theorem Left.value_item (h : Left (given lib root items) s t) {v : Text}
    (hv : (given lib root (items ++ [item])).value = some v) :
    (putItem lib root item t).commandSet.Holds valueAt (v ++ ['\x00']) := by
  rw [given_value_snoc] at hv
  show (putAt valueAt (stateOf lib root item) _).Holds valueAt _
  cases hstate : stateOf lib root item with
  | some x =>
    rw [hstate] at hv
    obtain rfl : x = v := by simpa using hv
    exact Tape.holds_write
  | none =>
    rw [hstate, Option.none_or] at hv
    have hkept {l : Text} (hm : (putAt nodeIDAt (textOf "nodeId" item) t.commandSet).Holds valueAt
        l) : (putAt valueAt none (putEndpoint (numberOf item) (putAt nodeIDAt
          (textOf "nodeId" item) t.commandSet))).Holds valueAt l :=
      hm.frame fun k hk _ => putItem_behind hk
    apply hkept
    cases hitem : textOf "nodeId" item with
    | none =>
      rw [hitem] at hv
      exact h.value v (by simpa using hv)
    | some x =>
      rw [hitem, Option.bind_some] at hv
      cases hspill : spill 29 x with
      | some rest =>
        rw [hspill, Option.some_or] at hv
        obtain rfl := Option.some.inj hv
        exact holds_spill t.commandSet nodeIDAt hspill
      | none =>
        rw [hspill, Option.none_or] at hv
        have hlt := spill_none hspill
        refine (h.value v hv).frame fun k hk _ => putAt_of_ge fun y hy => ?_
        obtain rfl := Option.some.inj hy
        unfold valueAt at hk
        unfold nodeIDAt
        omega

theorem Left.noValue_item (h : Left (given lib root items) s t)
    (hv : (given lib root (items ++ [item])).value = none) {k : Nat} (hk : valueAt ≤ k) :
    (putItem lib root item t).commandSet k = s.commandSet k := by
  rw [given_value_snoc, Option.or_eq_none_iff, Option.or_eq_none_iff] at hv
  obtain ⟨⟨hstate, hspill⟩, hbefore⟩ := hv
  show putAt valueAt (stateOf lib root item) _ k = _
  rw [hstate]
  refine (putItem_behind hk).trans (Eq.trans (putAt_of_ge fun x hx => ?_) (h.noValue hbefore k hk))
  rw [hx, Option.bind_some] at hspill
  have hlt := spill_none hspill
  unfold valueAt at hk
  unfold nodeIDAt
  omega

theorem Left.snoc (h : Left (given lib root items) s t) :
    Left (given lib root (items ++ [item])) s (putItem lib root item t) where
  action := h.action_item
  fwVersion := h.fwVersion_item
  nodeID _ := h.nodeID_item
  noNodeID hn _ hk hk' := h.noNodeID_item hn hk hk'
  endpoint := h.endpoint_item
  value _ := h.value_item
  noValue hv _ hk := h.noValue_item hv hk

theorem left_put (lib : CJsonLib) (root : CJson) (items : List CJson) (s : Locals) :
    Left (given lib root items)
    s.cleared (put lib root items s.cleared) := by
  induction items using List.reverseRecOn with
  | nil => exact left_nil lib root s
  | append_singleton items item ih =>
    rw [put, List.foldl_append]
    exact ih.snoc

end

/-! ### What is read -/

section

variable {items : List CJson} {g : Given} {v x : Text} {e : Char}

theorem given_action : '\x00' ∉ (given lib root items).action := by
  rcases lastOf_cases (textOf "action") items [] with h | ⟨item, -, h⟩
  · rw [show (given lib root items).action = _ from h]
    exact List.not_mem_nil
  · exact not_mem_textOf h

theorem given_fwVersion (hfit : ∀ item ∈ items, FitsRecord lib root item) :
    '\x00' ∉ (given lib root items).fwVersion ∧ (given lib root items).fwVersion.length < 20 := by
  rcases lastOf_cases fwVersionOf items [] with h | ⟨item, hitem, h⟩
  · rw [show (given lib root items).fwVersion = _ from h]
    exact ⟨List.not_mem_nil, by decide⟩
  · rcases Option.or_eq_some_iff.mp h with h | ⟨-, h⟩
    · exact ⟨not_mem_textOf h, length_textOf (hfit item hitem).fwVersion h⟩
    · obtain ⟨a, ha, hspill⟩ := Option.bind_eq_some_iff.mp h
      have hlt := length_textOf (hfit item hitem).action ha
      obtain ⟨hnul, hlength⟩ := spill_spec hspill (not_mem_textOf ha)
      exact ⟨hnul, by
        show (lastOf fwVersionOf items []).length < 20
        omega⟩

theorem given_nodeID (hx : (given lib root items).nodeID = some x) : '\x00' ∉ x := by
  obtain ⟨item, -, h⟩ := exists_of_getLast?_filterMap hx
  exact not_mem_textOf h

theorem given_value (hfit : ∀ item ∈ items, FitsRecord lib root item)
    (hv : (given lib root items).value = some v) : '\x00' ∉ v ∧ v.length < 130 := by
  obtain ⟨item, hitem, h⟩ := exists_of_getLast?_filterMap hv
  rcases Option.or_eq_some_iff.mp h with h | ⟨-, h⟩
  · rw [stateOf, Option.ite_none_right_eq_some] at h
    obtain ⟨attrBuf, -, hstate⟩ := Option.bind_eq_some_iff.mp h.2
    obtain ⟨state, -, rfl⟩ := Option.map_eq_some_iff.mp hstate
    split <;> decide
  · obtain ⟨y, hy, hspill⟩ := Option.bind_eq_some_iff.mp h
    have hlt := length_textOf (hfit item hitem).nodeID hy
    obtain ⟨hnul, hlength⟩ := spill_spec hspill (not_mem_textOf hy)
    exact ⟨hnul, by omega⟩

/-- The action is compared as if it had not run over. -/
theorem Left.isAction (h : Left g s t) (hnul : '\x00' ∉ g.action) {name : String}
    (hname : name.toList.length < 50 ∧ '\x00' ∉ name.toList) :
    t.isAction name = true ↔ g.action = name.toList := by
  have haction := h.action
  rw [Locals.isAction, beq_iff_eq]
  constructor
  · intro hread
    have hholds := t.action.holds_read 0 (name.toList.length + 1)
    rw [hread] at hholds
    by_cases hshort : g.action.length < 50
    · rw [List.take_of_length_le (by rw [List.length_append]; exact hshort)] at haction
      exact haction.string_unique hholds hnul hname.2
    · -- the terminator of the name would be a character of the action
      have hcell := hholds name.toList.length '\x00' (by simp)
      have hlt : name.toList.length < g.action.length := by omega
      have hchar := haction name.toList.length g.action[name.toList.length] (by
        rw [List.getElem?_take_of_lt hname.1, List.getElem?_append_left hlt,
          List.getElem?_eq_getElem hlt])
      exact absurd (hcell.symm.trans hchar ▸ List.getElem_mem hlt) hnul
  · intro heq
    rw [heq, List.take_of_length_le (by rw [List.length_append]; exact hname.1)] at haction
    have hread := haction.read
    rwa [List.length_append] at hread

theorem Left.isReport (h : Left g s t) (hnul : '\x00' ∉ g.action) :
    t.isReport = Zigbee.isReport g.action := by
  have hname {name : String} (hshort : name.toList.length < 50 ∧ '\x00' ∉ name.toList) :
      t.isAction name = (g.action == name.toList) := by
    rw [Bool.eq_iff_iff, h.isAction hnul hshort, beq_iff_eq]
  rw [Locals.isReport, Zigbee.isReport, hname (by decide), hname (by decide), hname (by decide),
    hname (by decide)]

theorem Left.string_fwVersion (h : Left g s t) (hnul : '\x00' ∉ g.fwVersion)
    (hlt : g.fwVersion.length < 20) :
    t.action.string '\x00' actionSize fwVersionAt = some g.fwVersion := by
  rw [h.fwVersion.string_append (by unfold fwVersionAt actionSize; omega), Tape.takeWhile_ne hnul]

theorem Left.string_value (h : Left g s t) (hv : g.value = some v)
    (hspec : '\x00' ∉ v ∧ v.length < 130) :
    t.commandSet.string '\x00' cmdSize valueAt = some v := by
  rw [(h.value v hv).string_append (by unfold valueAt cmdSize; omega), Tape.takeWhile_ne hspec.1]

/-- A node id that does not reach the endpoint is read back as it is. -/
theorem Left.string_short (h : Left g s t) (hx : g.nodeID = some x) (hnul : '\x00' ∉ x)
    (hlt : x.length < 28) : t.commandSet.string '\x00' cmdSize nodeIDAt = some x := by
  have hholds := h.nodeID x hx
  rw [List.take_of_length_le (by rw [List.length_append]; exact hlt)] at hholds
  rw [hholds.string_append (by unfold nodeIDAt cmdSize; omega), Tape.takeWhile_ne hnul]

/-- A node id is read back with what it runs into. -/
theorem Left.string_nodeID (h : Left g s t) (hx : g.nodeID = some x) (hnul : '\x00' ∉ x)
    (hv : t.commandSet.string '\x00' cmdSize valueAt = some v) :
    t.commandSet.string '\x00' cmdSize nodeIDAt =
      some (runOn x (t.commandSet endpointAt) v) := by
  obtain ⟨hroom, hvalue, hvnul⟩ := Tape.string_some hv
  generalize hcell : t.commandSet endpointAt = e
  by_cases hlt : x.length < 28
  · rw [runOn, if_pos hlt, h.string_short hx hnul hlt]
  have hhead := h.nodeID x hx
  rw [List.take_append_of_le_length (by omega)] at hhead
  have hlength : (x.take 28).length = 28 := by
    rw [List.length_take]
    omega
  have hfirst : '\x00' ∉ x.take 28 := fun hmem => hnul (List.mem_of_mem_take hmem)
  rw [runOn, if_neg hlt]
  split
  · rename_i hzero
    have hholds : t.commandSet.Holds nodeIDAt (x.take 28 ++ ['\x00']) :=
      Tape.holds_append.mpr ⟨hhead, Tape.holds_cons.mpr
        ⟨by rw [hlength]; exact hcell.trans hzero, Tape.holds_nil⟩⟩
    rw [hholds.string_append (by rw [hlength]; decide), Tape.takeWhile_ne hfirst, List.append_nil]
  · rename_i hne
    have hholds : t.commandSet.Holds nodeIDAt (x.take 28 ++ e :: v ++ ['\x00']) := by
      rw [List.append_assoc]
      refine Tape.holds_append.mpr ⟨hhead, ?_⟩
      rw [hlength]
      exact Tape.holds_cons.mpr ⟨hcell, hvalue⟩
    have hall : '\x00' ∉ x.take 28 ++ e :: v := by
      rw [List.mem_append, List.mem_cons, not_or, not_or]
      exact ⟨hfirst, Ne.symm hne, hvnul⟩
    have hsize : (x.take 28 ++ e :: v).length = 29 + v.length := by
      rw [List.length_append, List.length_cons, hlength]
      omega
    rw [hholds.string_append (by rw [hsize]; unfold nodeIDAt; unfold valueAt at hroom; omega),
      Tape.takeWhile_ne hall]

/-- The strings of an item: a value of five characters or more runs into the id. -/
def eventOf (value id : Text) : LinkButton :=
  ⟨if value.length < 5 then value else value.take 5 ++ id, id⟩

theorem uartLinkEvent_some {r : Tape Char × LinkButton} (h : s.uartLinkEvent = some r) :
    ∃ v x, s.commandSet.string '\x00' cmdSize valueAt = some v ∧
      s.commandSet.string '\x00' cmdSize nodeIDAt = some x := by
  simp only [uartLinkEvent, Option.bind_eq_bind, Option.bind_eq_some_iff] at h
  obtain ⟨v, hv, item, -, x, hx, -⟩ := h
  exact ⟨v, x, hv, hx⟩

theorem not_mem_decimal (n : Nat) : '\x00' ∉ Text.decimal n := by
  intro h
  exact absurd (Nat.isDigit_of_mem_toDigits (by decide) (by decide) h) (by decide)

/-- The strings of an item in which a value and an id are written. -/
theorem item_strings {id : Text} (hv : '\x00' ∉ v) (hid : '\x00' ∉ id) (hlt : id.length < 40) :
    let item := (m.write 0 (v ++ ['\x00'])).write idButtonAt (id ++ ['\x00'])
    item.string '\x00' linkButtonSize 0 = some (eventOf v id).stateButton ∧
      item.string '\x00' linkButtonSize idButtonAt = some id := by
  intro item
  have hhead : (m.write 0 (v ++ ['\x00'])).Holds 0 (v ++ ['\x00']) := Tape.holds_write
  have htail : item.Holds idButtonAt (id ++ ['\x00']) := Tape.holds_write
  have hkept {l : Text} (hl : l.length ≤ 5) (hm : (m.write 0 (v ++ ['\x00'])).Holds 0 l) :
      item.Holds 0 l :=
    hm.frame fun k _ hk => Tape.write_of_lt (by unfold idButtonAt; omega)
  refine ⟨?_, ?_⟩
  · rw [eventOf]
    split
    · rename_i hshort
      have hholds := hkept (by rw [List.length_append]; exact hshort) hhead
      rw [hholds.string_append (by unfold linkButtonSize; omega), Tape.takeWhile_ne hv]
    · rename_i hlong
      have hlength : (v.take 5).length = 5 := by
        rw [List.length_take]
        omega
      have hfirst := hkept (Nat.le_of_eq hlength)
        ((Tape.holds_append.mp hhead).1.take 5)
      have hholds : item.Holds 0 (v.take 5 ++ id ++ ['\x00']) := by
        rw [List.append_assoc]
        refine Tape.holds_append.mpr ⟨hfirst, ?_⟩
        rw [hlength]
        exact htail
      have hall : '\x00' ∉ v.take 5 ++ id := by
        rw [List.mem_append, not_or]
        exact ⟨fun hmem => hv (List.mem_of_mem_take hmem), hid⟩
      rw [hholds.string_append (by rw [List.length_append, hlength]; unfold linkButtonSize; omega),
        Tape.takeWhile_ne hall]
  · rw [htail.string_append (by unfold idButtonAt linkButtonSize; omega), Tape.takeWhile_ne hid]

/-- The event that the strings of `command_set` give, if they fit the item. -/
theorem uartLinkEvent_eq (hv : s.commandSet.string '\x00' cmdSize valueAt = some v)
    (hx : s.commandSet.string '\x00' cmdSize nodeIDAt = some x) :
    s.uartLinkEvent.map (·.2) =
      if v.length < 45 ∧ x.length + (Text.decimal s.endpoint).length < 34 then
        some (eventOf v (x ++ "zigbee".toList ++ Text.decimal s.endpoint))
      else none := by
  have hvalue := (Tape.string_some hv).2.2
  have hid : '\x00' ∉ x ++ "zigbee".toList ++ Text.decimal s.endpoint := by
    rw [List.mem_append, List.mem_append, not_or, not_or]
    exact ⟨⟨(Tape.string_some hx).2.2, by decide⟩, not_mem_decimal _⟩
  have hlength : (x ++ "zigbee".toList ++ Text.decimal s.endpoint).length =
      x.length + 6 + (Text.decimal s.endpoint).length := by
    simp only [List.length_append]
    rfl
  rw [uartLinkEvent, hv, hx]
  dsimp only [Option.bind_eq_bind, Option.bind_some]
  generalize x ++ "zigbee".toList ++ Text.decimal s.endpoint = id at hid hlength
  by_cases hlt : v.length < 45
  swap
  · rw [if_neg fun h => hlt h.1, Tape.store_of_lt]
    · rfl
    · rw [List.length_append, List.length_singleton, linkButtonSize]
      omega
  rw [Tape.store_of_le (by rw [List.length_append, List.length_singleton, linkButtonSize]; omega),
    Option.bind_some]
  by_cases hfit : x.length + (Text.decimal s.endpoint).length < 34
  swap
  · rw [if_neg fun h => hfit h.2, Tape.store_of_lt]
    · rfl
    · rw [List.length_append, List.length_singleton, linkButtonSize, idButtonAt]
      omega
  obtain ⟨hstate, hbutton⟩ := item_strings (m := s.dataLinkButton) hvalue hid (by omega)
  rw [if_pos ⟨hlt, hfit⟩, Tape.store_of_le (by
    rw [List.length_append, List.length_singleton, linkButtonSize, idButtonAt]; omega),
    Option.bind_some, hstate, Option.bind_some, hbutton]
  rfl

end

end

end Locals

end VhomeBridge.Zigbee
