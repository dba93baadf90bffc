import VhomeBridge.JsonUser
import VhomeBridge.Lib.Defined
import Mathlib.Data.List.Induction

/-! What the analysers write.  Each member that an analyser knows replaces one field, and the
records stay whole exactly if the members that are copied are strings that fit their fields. -/

namespace VhomeBridge.JsonUser

open Lib

/-- If the item has the name of the field, then it is a string that fits the size of the field with
its terminator. -/
def Fits (field : String × Nat) (item : CJson) : Prop :=
  item.string = some field.1.toList → ∃ s, item.valuestring = some s ∧ s.length < field.2

instance (field : String × Nat) (item : CJson) : Decidable (Fits field item) :=
  decidable_of_iff
    (item.string = some field.1.toList → ∃ s ∈ item.valuestring, s.length < field.2) Iff.rfl

/-- The string of an item of this name. -/
def stringOf (name : String) (item : CJson) : Option Text :=
  if item.string = some name.toList then item.valuestring else none

/-- The number of an item of this name, as a byte. -/
def byteOf (name : String) (item : CJson) : Option (BitVec 8) :=
  if item.string = some name.toList then some (BitVec.ofInt 8 item.valueint) else none

theorem length_of_fits (field : String × Nat) {item : CJson} {s : Text} (hfit : Fits field item)
    (h : stringOf field.1 item = some s) : s.length < field.2 := by
  rw [stringOf, Option.ite_none_right_eq_some] at h
  obtain ⟨s', hs', hlen⟩ := hfit h.1
  obtain rfl : s = s' := Option.some.inj (h.2.symm.trans hs')
  exact hlen

section

variable {σ : Type*}

/-- A branch that copies the string of a member into a field. -/
theorem copy_defined (field : String × Nat) (item : CJson) (get : σ → Text) (set : σ → Text → σ)
    (hset : ∀ s, set s (get s) = s) :
    DefinedIf (Fits field item)
      (onMember field.1 item fun s => (copyString field.2 item.valuestring).bind fun t =>
        some (set s t))
      fun s => set s ((stringOf field.1 item).getD (get s)) := by
  intro s s'
  rw [onMember, stringOf, Fits]
  by_cases hname : item.string = some field.1.toList
  · rw [if_pos hname, if_pos hname, forall_prop_of_true hname, copyString]
    cases item.valuestring with
    | none => simp
    | some t => by_cases hlen : t.length < field.2 <;> simp [intoBuffer, hlen]
  · rw [if_neg hname, if_neg hname]
    simp [hname, hset]

/-- The branch for a number. -/
theorem byte_defined (name : String) (item : CJson) (get : σ → BitVec 8)
    (set : σ → BitVec 8 → σ) (hset : ∀ s, set s (get s) = s) :
    DefinedIf True (onMember name item fun s => some (set s (BitVec.ofInt 8 item.valueint)))
      fun s => set s ((byteOf name item).getD (get s)) := by
  intro s s'
  rw [onMember, byteOf]
  by_cases hname : item.string = some name.toList
  · simp [hname]
  · simp [hname, hset]

end

/-! ### `JSON_analyze_SUB_MQTT` -/

def mqttFields : List (String × Nat) :=
  [("action", 50), ("nodeId", 10), ("eui64", 18), ("value", 20), ("url", 100), ("protocol", 10)]

/-- The record with what the items give put in: each field has its last string or number, or keeps
what it had. -/
def mqttGiven (items : List CJson) (c : Cmd) : Cmd where
  action := lastOf (stringOf "action") items c.action
  nodeID := lastOf (stringOf "nodeId") items c.nodeID
  EUI64 := lastOf (stringOf "eui64") items c.EUI64
  endpoint := lastOf (byteOf "endpoint") items c.endpoint
  value := lastOf (stringOf "value") items c.value
  url := lastOf (stringOf "url") items c.url
  protocol := lastOf (stringOf "protocol") items c.protocol

theorem foldl_mqttGiven (items : List CJson) (c : Cmd) :
    items.foldl (fun c item => mqttGiven [item] c) c = mqttGiven items c := by
  induction items using List.reverseRecOn with
  | nil => rfl
  | append_singleton items item ih =>
    rw [List.foldl_append, ih]
    simp [mqttGiven]

theorem subMqttItem_defined (item : CJson) :
    DefinedIf (∀ f ∈ mqttFields, Fits f item) (subMqttItem item) (mqttGiven [item]) := by
  have action := copy_defined ("action", 50) item Cmd.action (fun c t => { c with action := t })
    fun _ => rfl
  have nodeID := copy_defined ("nodeId", 10) item Cmd.nodeID (fun c t => { c with nodeID := t })
    fun _ => rfl
  have EUI64 := copy_defined ("eui64", 18) item Cmd.EUI64 (fun c t => { c with EUI64 := t })
    fun _ => rfl
  have endpoint := byte_defined "endpoint" item Cmd.endpoint (fun c e => { c with endpoint := e })
    fun _ => rfl
  have value := copy_defined ("value", 20) item Cmd.value (fun c t => { c with value := t })
    fun _ => rfl
  have url := copy_defined ("url", 100) item Cmd.url (fun c t => { c with url := t })
    fun _ => rfl
  have protocol := copy_defined ("protocol", 10) item Cmd.protocol
    (fun c t => { c with protocol := t }) fun _ => rfl
  have hitem : DefinedIf _ (subMqttItem item) _ := action.andThen <| nodeID.andThen <|
    EUI64.andThen <| endpoint.andThen <| value.andThen <| url.andThen protocol
  refine hitem.congr ?_ fun c => ?_
  · simp [mqttFields]
  · simp [mqttGiven]

/-- The members of the text are copied into their own fields, and nothing else changes. -/
def MqttInPlace (lib : CJsonLib) (text : Text) (root : CJson) : Prop :=
  ∀ c, analyzeSubMqtt lib text c = some (mqttGiven root.child c)

theorem mqttInPlace_iff {lib : CJsonLib} {text : Text} {root : CJson}
    (hparse : lib.parse text = some root) :
    MqttInPlace lib text root ↔ ∀ item ∈ root.child, ∀ f ∈ mqttFields, Fits f item := by
  have : Nonempty Cmd := ⟨Cmd.zero⟩
  rw [← (DefinedIf.foldlM subMqttItem_defined root.child).forall_eq_iff]
  simp only [MqttInPlace, analyzeSubMqtt, hparse, foldl_mqttGiven]

/-! ### `JSON_analyze_SUB_ZIGBEE` -/

def zigbeeFields : List (String × Nat) := [("action", 50), ("fwVersion", 20), ("nodeId", 10)]

/-- The state that an item of the name `data` gives: that of the first attribute buffer. -/
def stateOf (lib : CJsonLib) (root item : CJson) : Option Text :=
  if item.string = some "data".toList then (attributeBuffer lib root).bind attributeState else none

/-- If there is an attribute buffer, it is a string. -/
def BufferIsString (lib : CJsonLib) (root : CJson) : Prop :=
  ∀ attrBuf, attributeBuffer lib root = some attrBuf → attrBuf.valuestring.isSome

def zigbeeGiven (lib : CJsonLib) (root : CJson) (items : List CJson) (s : Action × Cmd) :
    Action × Cmd :=
  (⟨lastOf (stringOf "action") items s.1.action, lastOf (stringOf "fwVersion") items s.1.fwVersion⟩,
    { s.2 with
      nodeID := lastOf (stringOf "nodeId") items s.2.nodeID
      endpoint := lastOf (byteOf "endpoint") items s.2.endpoint
      value := lastOf (stateOf lib root) items s.2.value })

theorem foldl_zigbeeGiven (lib : CJsonLib) (root : CJson) (items : List CJson)
    (s : Action × Cmd) :
    items.foldl (fun s item => zigbeeGiven lib root [item] s) s =
      zigbeeGiven lib root items s := by
  induction items using List.reverseRecOn with
  | nil => rfl
  | append_singleton items item ih =>
    rw [List.foldl_append, ih]
    simp [zigbeeGiven]

theorem data_defined (lib : CJsonLib) (root item : CJson) :
    DefinedIf (item.string = some "data".toList → BufferIsString lib root)
      (onMember "data" item fun s : Action × Cmd =>
        match attributeBuffer lib root with
        | none => some s
        | some attrBuf => (attributeState attrBuf).bind fun t =>
          some (s.1, { s.2 with value := t }))
      fun s => (s.1, { s.2 with value := (stateOf lib root item).getD s.2.value }) := by
  intro s s'
  rw [onMember, stateOf, BufferIsString]
  by_cases hname : item.string = some "data".toList
  · rw [if_pos hname, if_pos hname, forall_prop_of_true hname]
    cases attributeBuffer lib root with
    | none => simp
    | some attrBuf =>
      cases hstring : attrBuf.valuestring with
      | none => simp [attributeState, hstring]
      | some t => simp [attributeState, hstring]
  · rw [if_neg hname, if_neg hname]
    exact ⟨fun h => ⟨fun h' => absurd h' hname, Option.some.inj h⟩, fun h => congrArg some h.2⟩

theorem subZigbeeItem_defined (lib : CJsonLib) (root item : CJson) :
    DefinedIf ((∀ f ∈ zigbeeFields, Fits f item) ∧
        (item.string = some "data".toList → BufferIsString lib root))
      (subZigbeeItem lib root item) (zigbeeGiven lib root [item]) := by
  have action := copy_defined ("action", 50) item (fun s : Action × Cmd => s.1.action)
    (fun s t => ({ s.1 with action := t }, s.2)) fun _ => rfl
  have fwVersion := copy_defined ("fwVersion", 20) item (fun s : Action × Cmd => s.1.fwVersion)
    (fun s t => ({ s.1 with fwVersion := t }, s.2)) fun _ => rfl
  have nodeID := copy_defined ("nodeId", 10) item (fun s : Action × Cmd => s.2.nodeID)
    (fun s t => (s.1, { s.2 with nodeID := t })) fun _ => rfl
  have endpoint := byte_defined "endpoint" item (fun s : Action × Cmd => s.2.endpoint)
    (fun s e => (s.1, { s.2 with endpoint := e })) fun _ => rfl
  have hitem : DefinedIf _ (subZigbeeItem lib root item) _ := action.andThen <|
    fwVersion.andThen <| nodeID.andThen <| endpoint.andThen (data_defined lib root item)
  refine hitem.congr ?_ fun s => ?_
  · simp [zigbeeFields, and_assoc]
  · simp [zigbeeGiven]

theorem analyzeSubZigbee_defined {lib : CJsonLib} {text : Text} {root : CJson}
    (hparse : lib.parse text = some root) :
    DefinedIf (∀ item ∈ root.child, (∀ f ∈ zigbeeFields, Fits f item) ∧
        (item.string = some "data".toList → BufferIsString lib root))
      (analyzeSubZigbee lib text) (zigbeeGiven lib root root.child) := by
  have hfold := (DefinedIf.foldlM (subZigbeeItem_defined lib root) root.child).congr Iff.rfl
    (foldl_zigbeeGiven lib root root.child)
  intro s s'
  rw [← hfold s s', analyzeSubZigbee, hparse]

def ZigbeeInPlace (lib : CJsonLib) (text : Text) (root : CJson) : Prop :=
  ∀ s, analyzeSubZigbee lib text s = some (zigbeeGiven lib root root.child s)

theorem zigbeeInPlace_iff {lib : CJsonLib} {text : Text} {root : CJson}
    (hparse : lib.parse text = some root) :
    ZigbeeInPlace lib text root ↔ (∀ item ∈ root.child, ∀ f ∈ zigbeeFields, Fits f item) ∧
      (HasMember root "data" → BufferIsString lib root) := by
  have : Nonempty (Action × Cmd) := ⟨(Action.zero, Cmd.zero)⟩
  have hcond : (∀ item ∈ root.child, (∀ f ∈ zigbeeFields, Fits f item) ∧
      (item.string = some "data".toList → BufferIsString lib root)) ↔
      (∀ item ∈ root.child, ∀ f ∈ zigbeeFields, Fits f item) ∧
        (HasMember root "data" → BufferIsString lib root) := by
    rw [HasMember]
    constructor
    · intro h
      refine ⟨fun item hitem => (h item hitem).1, ?_⟩
      rintro ⟨item, hitem, hname⟩
      exact (h item hitem).2 hname
    · exact fun h item hitem => ⟨h.1 item hitem, fun hname => h.2 ⟨item, hitem, hname⟩⟩
  rw [← hcond, ← (analyzeSubZigbee_defined hparse).forall_eq_iff, ZigbeeInPlace]

/-! ### `JSON_analyze_post` -/

def postFields : List (String × Nat) := [("broker", 100), ("deviceid", 50), ("devicetoken", 50)]

def postGiven (items : List CJson) (s : Device × Text) : Device × Text :=
  (⟨lastOf (stringOf "deviceid") items s.1.id, lastOf (stringOf "devicetoken") items s.1.token⟩,
    lastOf (stringOf "broker") items s.2)

theorem foldl_postGiven (items : List CJson) (s : Device × Text) :
    items.foldl (fun s item => postGiven [item] s) s = postGiven items s := by
  induction items using List.reverseRecOn with
  | nil => rfl
  | append_singleton items item ih =>
    rw [List.foldl_append, ih]
    simp [postGiven]

theorem postItem_defined (item : CJson) :
    DefinedIf (∀ f ∈ postFields, Fits f item) (postItem item) (postGiven [item]) := by
  have broker := copy_defined ("broker", 100) item (fun s : Device × Text => s.2)
    (fun s t => (s.1, t)) fun _ => rfl
  have id := copy_defined ("deviceid", 50) item (fun s : Device × Text => s.1.id)
    (fun s t => ({ s.1 with id := t }, s.2)) fun _ => rfl
  have token := copy_defined ("devicetoken", 50) item (fun s : Device × Text => s.1.token)
    (fun s t => ({ s.1 with token := t }, s.2)) fun _ => rfl
  have hitem : DefinedIf _ (postItem item) _ := broker.andThen (id.andThen token)
  refine hitem.congr ?_ fun s => ?_
  · simp [postFields]
  · simp [postGiven]

def PostInPlace (lib : CJsonLib) (text : Text) (root : CJson) : Prop :=
  ∀ s, analyzePost lib text s = some (postGiven root.child s)

theorem postInPlace_iff {lib : CJsonLib} {text : Text} {root : CJson}
    (hparse : lib.parse text = some root) :
    PostInPlace lib text root ↔ ∀ item ∈ root.child, ∀ f ∈ postFields, Fits f item := by
  have : Nonempty (Device × Text) := ⟨(⟨[], []⟩, [])⟩
  rw [← (DefinedIf.foldlM postItem_defined root.child).forall_eq_iff]
  simp only [PostInPlace, analyzePost, hparse, foldl_postGiven]

/-! ### The analysers -/

/-- Each analyser stays in its fields exactly if the members that it copies are strings that fit,
and the one attribute buffer that it reads, if any, is a string. -/
theorem inPlace_iff (lib : CJsonLib) (text : Text) (root : CJson)
    (hparse : lib.parse text = some root) :
    (MqttInPlace lib text root ↔ ∀ item ∈ root.child, ∀ f ∈ mqttFields, Fits f item) ∧
      (ZigbeeInPlace lib text root ↔ (∀ item ∈ root.child, ∀ f ∈ zigbeeFields, Fits f item) ∧
        (HasMember root "data" → BufferIsString lib root)) ∧
      (PostInPlace lib text root ↔ ∀ item ∈ root.child, ∀ f ∈ postFields, Fits f item) :=
  ⟨mqttInPlace_iff hparse, zigbeeInPlace_iff hparse, postInPlace_iff hparse⟩

def textItem (name value : String) : CJson := .mk (some name.toList) (some value.toList) 0 []

/-- The library on one text. -/
def textLib (text : Text) (root : CJson) : CJsonLib where
  parse := fun t => if t = text then some root else none
  getObjectItem := fun object name =>
    object.bind fun object => object.child.find? fun item => item.string == some name
  getArrayItem := fun array index => array.bind fun array => array.child[index]?

theorem textLib_parse (text : Text) (root : CJson) : (textLib text root).parse text = some root :=
  if_pos rfl

/-- A report that gives a device and a broker too. -/
def reportText : Text :=
  ("\x7b\"action\":\"reportAttrs\",\"nodeId\":\"0x1A2B\",\"endpoint\":1," ++
    "\"data\":[\x7b\"attributeBuffer\":\"01\"\x7d],\"deviceid\":\"gw\"," ++
    "\"broker\":\"mqtt://home\"\x7d").toList

def reportTree : CJson :=
  .mk none none 0 [textItem "action" "reportAttrs", textItem "nodeId" "0x1A2B",
    .mk (some "endpoint".toList) none 1 [],
    .mk (some "data".toList) none 0 [.mk none none 0 [textItem "attributeBuffer" "01"]],
    textItem "deviceid" "gw", textItem "broker" "mqtt://home"]

/-- Its strings fit the fields of all three analysers. -/
theorem inPlace_report :
    MqttInPlace (textLib reportText reportTree) reportText reportTree ∧
      ZigbeeInPlace (textLib reportText reportTree) reportText reportTree ∧
      PostInPlace (textLib reportText reportTree) reportText reportTree := by
  obtain ⟨hmqtt, hzigbee, hpost⟩ := inPlace_iff _ _ _ (textLib_parse reportText reportTree)
  refine ⟨hmqtt.mpr (by decide +kernel), hzigbee.mpr ⟨by decide +kernel, fun _ => ?_⟩,
    hpost.mpr (by decide +kernel)⟩
  have hbuffer : attributeBuffer (textLib reportText reportTree) reportTree =
      some (textItem "attributeBuffer" "01") := by rfl
  rintro attrBuf hbuf
  obtain rfl := Option.some.inj (hbuffer.symm.trans hbuf)
  rfl

def nodeText (nodeId : String) : Text := ("\x7b\"nodeId\":\"" ++ nodeId ++ "\"\x7d").toList

/-- A node id of ten characters does not fit `nodeID[10]`: its terminator is written to
`EUI64[0]`. -/
theorem not_inPlace :
    ¬∀ (lib : CJsonLib) (text : Text) (root : CJson), lib.parse text = some root →
      MqttInPlace lib text root ∧ ZigbeeInPlace lib text root ∧ PostInPlace lib text root := by
  intro h
  have hparse := textLib_parse (nodeText "0x1A2B3C4D")
    (.mk none none 0 [textItem "nodeId" "0x1A2B3C4D"])
  have hmqtt := (mqttInPlace_iff hparse).mp (h _ _ _ hparse).1 _ (List.mem_singleton_self _)
    ("nodeId", 10) (by simp [mqttFields])
  obtain ⟨s, hs, hlen⟩ := hmqtt rfl
  obtain rfl := Option.some.inj hs
  exact absurd hlen (by decide)

end VhomeBridge.JsonUser
