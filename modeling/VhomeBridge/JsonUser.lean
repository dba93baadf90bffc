import VhomeBridge.Text

/-! The analysers of the gateway's JSON messages.  Each walks over the members of the parsed text
and copies those it knows into the fields of its records; a field whose member is absent keeps what
it had.  A member without a string where one is copied, and a string that does not fit its field,
are faults, `none`. -/

namespace VhomeBridge

/-- `cJSON`, with the fields that the gateway reads; `child` is the chain of the children. -/
inductive CJson
  | mk (string valuestring : Option Text) (valueint : Int) (child : List CJson)

namespace CJson

def string : CJson → Option Text
  | mk string _ _ _ => string

def valuestring : CJson → Option Text
  | mk _ valuestring _ _ => valuestring

def valueint : CJson → Int
  | mk _ _ valueint _ => valueint

def child : CJson → List CJson
  | mk _ _ _ child => child

end CJson

/-- What the gateway uses of the JSON library; NULL is `none`. -/
structure CJsonLib where
  parse : Text → Option CJson
  getObjectItem : Option CJson → Text → Option CJson
  getArrayItem : Option CJson → Nat → Option CJson

structure Cmd where
  action : Text
  nodeID : Text
  EUI64 : Text
  endpoint : BitVec 8
  value : Text
  url : Text
  protocol : Text
  deriving DecidableEq

structure Action where
  action : Text
  fwVersion : Text
  deriving DecidableEq

structure Device where
  id : Text
  token : Text

/-- A record after `memset`. -/
def Cmd.zero : Cmd := ⟨[], [], [], 0, [], [], []⟩

def Action.zero : Action := ⟨[], []⟩

namespace JsonUser

/-- `memcpy` of a string with its terminator into a field of `size` bytes. -/
def copyString (size : Nat) (valuestring : Option Text) : Option Text :=
  valuestring.bind (intoBuffer size)

section

variable {σ : Type*}

/-- A branch of an analyser, for the members of one name. -/
def onMember (name : String) (item : CJson) (f : σ → Option σ) (s : σ) : Option σ :=
  if item.string = some name.toList then f s else some s

end

section

variable (lib : CJsonLib)

/-- `data[0].attributeBuffer`. -/
def attributeBuffer (root : CJson) : Option CJson :=
  lib.getObjectItem (lib.getArrayItem (lib.getObjectItem (some root) "data".toList) 0)
    "attributeBuffer".toList

/-- The parsed text has a member of this name. -/
def HasMember (root : CJson) (name : String) : Prop :=
  ∃ it ∈ root.child, it.string = some name.toList

/-- The state that an attribute buffer stands for. -/
def attributeState (attrBuf : CJson) : Option Text :=
  attrBuf.valuestring.map fun s => if s = "00".toList then "off".toList else "on".toList

/-- The records are a device and `brokerInfor`. -/
def postItem (item : CJson) (s : Device × Text) : Option (Device × Text) := do
  let s ← onMember "broker" item (fun (d, _) => do
    return (d, ← copyString 100 item.valuestring)) s
  let s ← onMember "deviceid" item (fun (d, broker) => do
    return ({ d with id := ← copyString 50 item.valuestring }, broker)) s
  onMember "devicetoken" item (fun (d, broker) => do
    return ({ d with token := ← copyString 50 item.valuestring }, broker)) s

/-- `JSON_analyze_post`. -/
def analyzePost (text : Text) (s : Device × Text) : Option (Device × Text) :=
  match lib.parse text with
  | none => some s
  | some root => root.child.foldlM (fun s item => postItem item s) s

def subMqttItem (item : CJson) (c : Cmd) : Option Cmd := do
  let c ← onMember "action" item (fun c => do
    return { c with action := ← copyString 50 item.valuestring }) c
  let c ← onMember "nodeId" item (fun c => do
    return { c with nodeID := ← copyString 10 item.valuestring }) c
  let c ← onMember "eui64" item (fun c => do
    return { c with EUI64 := ← copyString 18 item.valuestring }) c
  let c ← onMember "endpoint" item (fun c => do
    return { c with endpoint := BitVec.ofInt 8 item.valueint }) c
  let c ← onMember "value" item (fun c => do
    return { c with value := ← copyString 20 item.valuestring }) c
  let c ← onMember "url" item (fun c => do
    return { c with url := ← copyString 100 item.valuestring }) c
  onMember "protocol" item (fun c => do
    return { c with protocol := ← copyString 10 item.valuestring }) c

/-- `JSON_analyze_SUB_MQTT`. -/
def analyzeSubMqtt (text : Text) (c : Cmd) : Option Cmd :=
  match lib.parse text with
  | none => some c
  | some root => root.child.foldlM (fun c item => subMqttItem item c) c

def subZigbeeItem (root item : CJson) (s : Action × Cmd) : Option (Action × Cmd) := do
  let s ← onMember "action" item (fun (a, c) => do
    return ({ a with action := ← copyString 50 item.valuestring }, c)) s
  let s ← onMember "fwVersion" item (fun (a, c) => do
    return ({ a with fwVersion := ← copyString 20 item.valuestring }, c)) s
  let s ← onMember "nodeId" item (fun (a, c) => do
    return (a, { c with nodeID := ← copyString 10 item.valuestring })) s
  let s ← onMember "endpoint" item (fun (a, c) => do
    return (a, { c with endpoint := BitVec.ofInt 8 item.valueint })) s
  onMember "data" item (fun (a, c) =>
    match attributeBuffer lib root with
    | none => some (a, c)
    | some attrBuf => do return (a, { c with value := ← attributeState attrBuf })) s

/-- `JSON_analyze_SUB_ZIGBEE`. -/
def analyzeSubZigbee (text : Text) (s : Action × Cmd) : Option (Action × Cmd) :=
  match lib.parse text with
  | none => some s
  | some root => root.child.foldlM (fun s item => subZigbeeItem lib root item s) s

end

end JsonUser

end VhomeBridge
