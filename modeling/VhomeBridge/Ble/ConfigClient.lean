import VhomeBridge.Ble.CompData

/-! The configuration client.  `ble_mesh_config_client_cb` takes a node from its composition data
to the joined record: the AppKey is added, then bound to one model after the other, each request
sent when the status of the one before it has come.  The position in the table is kept in static
variables.  One call is a function of the record, the statics, the event and what the mesh stack and
the state queue answer during the call; its outputs are listed in order. -/

namespace VhomeBridge.Ble

/-- A node of the provisioner's table.  Unicast addresses end at `0x7fff`. -/
structure Node where
  unicastAddr : Word
  unicast : unicastAddr.toNat < 0x8000

/-- The node at `prov_start_address`. -/
def firstNode : Node := ⟨0x0005, by decide⟩

structure Binding where
  elementAddr : Word
  modelId : Word
  companyId : Word
  deriving DecidableEq

/-- The record published on `bledevicejoined`. -/
structure Joined where
  nodeId : Word
  eui64 : Vector Octet 6
  endpointCount : Word
  deviceType : Octet × Octet
  deriving DecidableEq

/-- The record published on `bledeviceaction`. -/
structure Action where
  nodeId : Word
  endpoint : Octet
  opcode : Nat
  param : Octet
  deriving DecidableEq

/-- What the callbacks hand to the mesh stack and to the MQTT client. -/
inductive Out
  | addUnprovDev (addr : Vector Octet 6) (uuid : Vector Octet 16)
  | compositionDataGet (addr : Word)
  | appKeyAdd (addr : Word)
  | modelAppBind (addr : Word) (binding : Binding)
  | modelSubAdd (addr elementAddr subAddr : Word)
  | vendorMessage (addr : Word) (data : List Octet)
  | onoffGet (addr : Word)
  | onoffSet (addr : Word) (onoff : Octet) (resp : Bool)
  | joined (record : Joined)
  | action (record : Action)
  deriving DecidableEq

def Out.isJoined : Out → Bool
  | .joined _ => true
  | _ => false

/-- `ESP_BLE_MESH_MODEL_OP_GEN_ONOFF_STATUS`. -/
def genOnoffStatus : Nat := 0x8204

inductive CfgClientEvent
  | getState
  | setState
  | publish
  | timeout
  deriving DecidableEq

inductive CfgOpcode
  | compositionDataGet
  | appKeyAdd
  | modelAppBind
  | modelSubAdd
  | other
  deriving DecidableEq

/-- `esp_ble_mesh_cfg_client_cb_param_t`.  `status` is the status code of `model_app_status`, which
no branch reads. -/
structure CfgClientParam where
  errorCode : Nat
  opcode : CfgOpcode
  compositionData : List Octet
  modelAppStatus : Binding
  status : Octet

/-- What the stack and the queue answer during one call: the node of the event's address, whether
sending a request and storing the composition data fail, and what `queueGetStateOnoffBLE` gives for
each endpoint. -/
structure Answers where
  node : Option Node
  sendErr : Bool
  storeErr : Bool
  onoff : Nat → Option Octet

/-- `global_node` and the static variables of the callback. -/
structure ConfigClient where
  globalNode : NodeInfor
  waitModelId : Word
  waitCid : Word
  i : Nat
  j : Nat
  temp : Word
  k : Nat

/-- The status passes the test of the callback for the binding that the statics await. -/
def ConfigClient.Awaits (s : ConfigClient) (node : Node) (status : Binding) : Prop :=
  status.modelId = s.temp ∧ status.companyId = s.waitCid ∧
    status.elementAddr.toNat = node.unicastAddr.toNat + s.j

instance (s : ConfigClient) (node : Node) (status : Binding) :
    Decidable (s.Awaits node status) :=
  inferInstanceAs (Decidable (_ ∧ _ ∧ _))

def aes128Key : List Octet :=
  [0x56, 0x49, 0x45, 0x54, 0x54, 0x45, 0x4C, 0x5F, 0x52, 0x26, 0x44, 0x28, 0x56, 0x48, 0x54, 0x29]

def aes128DataHeader : List Octet := [0x24, 0x02, 0x28, 0x04, 0x28, 0x11, 0x20, 0x20]

/-- `ble_mesh_command_get` for `ONOFF`. -/
def bleMeshCommandGet (unicastAddr elementAddr : Word) : Out :=
  .onoffGet (unicastAddr + (elementAddr.setWidth 8).setWidth 16)

def queryState (g : NodeInfor) (i : Nat) : Out :=
  bleMeshCommandGet g.unicastAddr (BitVec.ofNat 16 (i - 1))

def publishState (g : NodeInfor) (i : Nat) (onoffStatus : Option Octet) : List Out :=
  (onoffStatus.map fun v => .action ⟨g.unicastAddr, BitVec.ofNat 8 i, genOnoffStatus, v⟩).toList

def publishStates (g : NodeInfor) (onoff : Nat → Option Octet) : List Out :=
  (List.range' 1 g.elementNum.toNat).flatMap fun i =>
    queryState g i :: publishState g i (onoff i)

def deviceType (uuid : Vector Octet 16) : Octet × Octet := (uuid[6], uuid[7])

def joinedRecord (g : NodeInfor) : Joined where
  nodeId := g.unicastAddr
  eui64 := g.mac
  endpointCount := g.elementNum
  deviceType := deviceType g.uuid

def groupAddr : Word := 0xC000

section

-- `mbedtls_aes_crypt_ecb` with a key and a block
variable (aes128 : List Octet → List Octet → List Octet)

/-- The block that `check_type_data` is taken from, before encryption. -/
def aesData (g : NodeInfor) : List Octet :=
  aes128DataHeader ++ g.uuid.toList.take 6 ++ le16 g.unicastAddr

/-- What is sent and published when the last model is bound. -/
def configSuccess (node : Node) (g : NodeInfor) (onoff : Nat → Option Octet) : List Out :=
  [.vendorMessage node.unicastAddr [0x02, 0, 0, 0, 0, 0, 0, 0],
    .vendorMessage node.unicastAddr
      ([0x03, 0x00] ++ ((aes128 aes128Key (aesData g)).drop 10).take 6),
    .joined (joinedRecord g)] ++ publishStates g onoff ++
  -- a wall switch adds its buttons to a group, the first of them here
  if g.uuid[6] = 0x02 ∧ g.uuid[7] = 0x01 then
    [.modelSubAdd node.unicastAddr node.unicastAddr groupAddr]
  else []

/-- The request for the model in `temp`, and the statics after it has been sent. -/
def sendModelAppBind (node : Node) (sendErr : Bool) (s : ConfigClient) :
    Option (ConfigClient × List Out) := do
  let cid ← s.globalNode.getCid s.j s.i
  let out := .modelAppBind node.unicastAddr
    ⟨node.unicastAddr + BitVec.ofNat 16 s.j, s.temp, cid⟩
  if sendErr then return (s, [out])
  return ({ s with waitModelId := s.temp, waitCid := cid, i := (s.i + 1) % 256 }, [out])

def modelSubAddStatus (node : Node) (status : Binding) (s : ConfigClient) :
    ConfigClient × List Out :=
  if status.companyId = 0xFFFF ∧
      status.elementAddr.toNat = node.unicastAddr.toNat + s.k then
    let k := (s.k + 1) % 256
    if k ≥ s.globalNode.elementNum.toNat then
      ({ s with k := 0 }, [.onoffSet groupAddr 0 true])
    else
      ({ s with k := k },
        [.modelSubAdd node.unicastAddr (node.unicastAddr + BitVec.ofNat 16 k) groupAddr])
  else (s, [])

def appKeyAddStatus (node : Node) (sendErr : Bool) (s : ConfigClient) :
    Option (ConfigClient × List Out) := do
  let temp ← s.globalNode.getModel 0 0
  sendModelAppBind node sendErr { s with i := 0, j := 0, temp := temp }

def modelAppBindStatus (node : Node) (status : Binding) (answers : Answers) (s : ConfigClient) :
    Option (ConfigClient × List Out) :=
  if s.Awaits node status then do
    let temp ← s.globalNode.getModel s.j s.i
    if temp = 0xffff then
      let j := (s.j + 1) % 256
      if j ≥ s.globalNode.elementNum.toNat then
        return ({ s with i := 0, j := 0, temp := temp },
          configSuccess aes128 node s.globalNode answers.onoff)
      else
        let temp ← s.globalNode.getModel j 0
        sendModelAppBind node answers.sendErr { s with i := 0, j := j, temp := temp }
    else sendModelAppBind node answers.sendErr { s with temp := temp }
  else return (s, [])

def compositionDataStatus (node : Node) (data : List Octet) (storeErr : Bool)
    (s : ConfigClient) : Option (ConfigClient × List Out) := do
  let g ← bleMeshParseNodeCompData data s.globalNode
  let s := { s with globalNode := g }
  return (s, if storeErr then [] else [.appKeyAdd node.unicastAddr])

def bleMeshConfigClientCb (s : ConfigClient) (event : CfgClientEvent) (param : CfgClientParam)
    (answers : Answers) : Option (ConfigClient × List Out) :=
  if param.errorCode ≠ 0 then some (s, [])
  else match answers.node with
    | none => some (s, [])
    | some node =>
      match event, param.opcode with
      | .getState, .compositionDataGet =>
        compositionDataStatus node param.compositionData answers.storeErr s
      | .setState, .modelSubAdd => some (modelSubAddStatus node param.modelAppStatus s)
      | .setState, .appKeyAdd => appKeyAddStatus node answers.sendErr s
      | .setState, .modelAppBind => modelAppBindStatus aes128 node param.modelAppStatus answers s
      | .timeout, .compositionDataGet => some (s, [.compositionDataGet node.unicastAddr])
      | .timeout, .appKeyAdd => some (s, [.appKeyAdd node.unicastAddr])
      | .timeout, .modelAppBind =>
        some (s, [.modelAppBind node.unicastAddr
          ⟨node.unicastAddr + BitVec.ofNat 16 s.j, s.waitModelId, s.waitCid⟩])
      | _, _ => some (s, [])

end

/-! ### What a call can do -/

section

variable {aes128 : List Octet → List Octet → List Octet} {node : Node} {sendErr : Bool}
  {s t : ConfigClient} {outs : List Out}

theorem NodeInfor.getModel_eq_some {g : NodeInfor} {e j : Nat} {m : Word} :
    g.getModel e j = some m ↔ (e < maxElements ∧ j < maxModels) ∧ g.models e j = m := by
  simp [NodeInfor.getModel]

theorem NodeInfor.getCid_eq_some {g : NodeInfor} {e j : Nat} {c : Word} :
    g.getCid e j = some c ↔ (e < maxElements ∧ j < maxModels) ∧ g.cid e j = c := by
  simp [NodeInfor.getCid]

theorem sendModelAppBind_cases (hsend : sendModelAppBind node sendErr s = some (t, outs)) :
    outs = [.modelAppBind node.unicastAddr
        ⟨node.unicastAddr + BitVec.ofNat 16 s.j, s.temp, s.globalNode.cid s.j s.i⟩] ∧
      (t = s ∨ t = { s with
        waitModelId := s.temp, waitCid := s.globalNode.cid s.j s.i, i := s.i + 1 }) := by
  simp only [sendModelAppBind, Option.bind_eq_bind, Option.bind_eq_some_iff,
    NodeInfor.getCid_eq_some] at hsend
  obtain ⟨cid, ⟨⟨-, hi⟩, rfl⟩, hsend⟩ := hsend
  cases sendErr with
  | false =>
    obtain ⟨rfl, rfl⟩ := Prod.mk.inj (Option.some.inj hsend)
    have hsucc : (s.i + 1) % 256 = s.i + 1 := by
      unfold maxModels at hi
      omega
    exact ⟨rfl, .inr (by rw [hsucc])⟩
  | true =>
    obtain ⟨rfl, rfl⟩ := Prod.mk.inj (Option.some.inj hsend)
    exact ⟨rfl, .inl rfl⟩

theorem appKeyAddStatus_cases (hcall : appKeyAddStatus node sendErr s = some (t, outs)) :
    sendModelAppBind node sendErr { s with i := 0, j := 0, temp := s.globalNode.models 0 0 } =
      some (t, outs) := by
  simp only [appKeyAddStatus, Option.bind_eq_bind, Option.bind_eq_some_iff,
    NodeInfor.getModel_eq_some] at hcall
  obtain ⟨temp, ⟨-, rfl⟩, hsend⟩ := hcall
  exact hsend

/-- A status that passes the test leads to the next model of the row, to the next row, or to the
end. -/
theorem modelAppBindStatus_cases {status : Binding} {answers : Answers}
    (hcall : modelAppBindStatus aes128 node status answers s = some (t, outs)) :
    (¬ s.Awaits node status ∧ t = s ∧ outs = []) ∨
      (s.Awaits node status ∧ s.j < maxElements ∧
        (s.globalNode.models s.j s.i ≠ 0xffff ∧ sendModelAppBind node answers.sendErr
            { s with temp := s.globalNode.models s.j s.i } = some (t, outs) ∨
          s.globalNode.models s.j s.i = 0xffff ∧ sendModelAppBind node answers.sendErr
            { s with i := 0, j := s.j + 1, temp := s.globalNode.models (s.j + 1) 0 } =
              some (t, outs) ∨
          s.globalNode.models s.j s.i = 0xffff ∧ s.globalNode.elementNum.toNat ≤ s.j + 1 ∧
            t = { s with i := 0, j := 0, temp := 0xffff } ∧
            outs = configSuccess aes128 node s.globalNode answers.onoff)) := by
  unfold modelAppBindStatus at hcall
  by_cases hawaits : s.Awaits node status
  · rw [if_pos hawaits] at hcall
    simp only [Option.bind_eq_bind, Option.bind_eq_some_iff, NodeInfor.getModel_eq_some] at hcall
    obtain ⟨temp, ⟨⟨hj, -⟩, rfl⟩, hcall⟩ := hcall
    refine .inr ⟨hawaits, hj, ?_⟩
    have hsucc : (s.j + 1) % 256 = s.j + 1 := by
      unfold maxElements at hj
      omega
    by_cases htemp : s.globalNode.models s.j s.i = 0xffff
    · rw [if_pos htemp, hsucc, htemp] at hcall
      by_cases hend : s.j + 1 ≥ s.globalNode.elementNum.toNat
      · rw [if_pos hend] at hcall
        obtain ⟨rfl, rfl⟩ := Prod.mk.inj (Option.some.inj hcall)
        exact .inr (.inr ⟨htemp, hend, rfl, rfl⟩)
      · rw [if_neg hend] at hcall
        simp only [Option.bind_eq_some_iff, NodeInfor.getModel_eq_some] at hcall
        obtain ⟨next, ⟨-, rfl⟩, hsend⟩ := hcall
        exact .inr (.inl ⟨htemp, hsend⟩)
    · rw [if_neg htemp] at hcall
      exact .inl ⟨htemp, hcall⟩
  · rw [if_neg hawaits] at hcall
    obtain ⟨rfl, rfl⟩ := Prod.mk.inj (Option.some.inj hcall)
    exact .inl ⟨hawaits, rfl, rfl⟩

end

/-! ### The position in the table -/

/-- The statics say that `cur` is requested, after the rows `done` and after `pre` in its row. -/
structure ConfigClient.Position (s : ConfigClient) (done : List (List (Word × Word)))
    (pre : List (Word × Word)) (cur : Word × Word) : Prop where
  i : s.i = pre.length + 1
  j : s.j = done.length
  temp : s.temp = cur.1
  waitModelId : s.waitModelId = cur.1
  waitCid : s.waitCid = cur.2

/-- The position does not depend on the record. -/
theorem ConfigClient.Position.withGlobalNode {s : ConfigClient}
    {done : List (List (Word × Word))} {pre : List (Word × Word)} {cur : Word × Word}
    (h : s.Position done pre cur) (g : NodeInfor) :
    { s with globalNode := g }.Position done pre cur :=
  ⟨h.i, h.j, h.temp, h.waitModelId, h.waitCid⟩

/-- The request for `cur` is outstanding, and the record holds the table: `post` are the entries
after `cur` in its row, `rest` the rows after. -/
structure ConfigClient.Waiting (s : ConfigClient) (done : List (List (Word × Word)))
    (pre : List (Word × Word)) (cur : Word × Word) (post : List (Word × Word))
    (rest : List (List (Word × Word))) : Prop extends s.Position done pre cur where
  holds : s.globalNode.Holds (done ++ (pre ++ cur :: post) :: rest)

structure TableFits (table : List (List (Word × Word))) : Prop where
  rows : table.length ≤ maxElements
  columns : ∀ row ∈ table, row.length < maxModels
  nonempty : ∀ row ∈ table, row ≠ []

theorem Composition.tableFits (comp : Composition) (nonempty : ∀ row ∈ comp.rows, row ≠ []) :
    TableFits comp.rows where
  rows := by simpa [Composition.rows] using comp.fits
  columns := by
    intro row hrow
    obtain ⟨el, -, rfl⟩ := List.mem_map.mp hrow
    simpa [Element.row] using el.fits
  nonempty := nonempty

def bindingOf (node : Node) (j : Nat) (x : Word × Word) : Binding :=
  ⟨node.unicastAddr + BitVec.ofNat 16 j, x.1, x.2⟩

theorem bindingOf_elementAddr (node : Node) {j : Nat} (hj : j ≤ maxElements) (x : Word × Word) :
    (bindingOf node j x).elementAddr.toNat = node.unicastAddr.toNat + j := by
  have := node.unicast
  unfold maxElements at hj
  simp only [bindingOf, BitVec.toNat_add, BitVec.toNat_ofNat]
  omega

/-- A status is for the entry that is awaited exactly if it passes the test of the callback. -/
theorem matches_iff (node : Node) {j : Nat} (hj : j ≤ maxElements) (status : Binding)
    (x : Word × Word) :
    (status.modelId = x.1 ∧ status.companyId = x.2 ∧
      status.elementAddr.toNat = node.unicastAddr.toNat + j) ↔ status = bindingOf node j x := by
  rw [← bindingOf_elementAddr node hj x]
  constructor
  · rintro ⟨hmodel, hcompany, helement⟩
    obtain ⟨elementAddr, modelId, companyId⟩ := status
    obtain rfl := hmodel
    obtain rfl := hcompany
    obtain rfl := BitVec.eq_of_toNat_eq helement
    rfl
  · rintro rfl
    exact ⟨rfl, rfl, rfl⟩

namespace NodeInfor.Holds

variable {g : NodeInfor} {table done rest : List (List (Word × Word))}
  {row pre post : List (Word × Word)} {x : Word × Word}

theorem getModel (h : g.Holds (done ++ (pre ++ x :: post) :: rest))
    (fits : TableFits (done ++ (pre ++ x :: post) :: rest)) :
    g.getModel done.length pre.length = some x.1 ∧ g.getCid done.length pre.length = some x.2 := by
  have hrow := fits.rows
  have hcolumn := fits.columns (pre ++ x :: post) (by simp)
  simp only [List.length_append, List.length_cons] at hrow hcolumn
  obtain ⟨hm, hc⟩ := h.entry done.length (pre ++ x :: post) pre.length x.1 x.2 (by simp) (by simp)
  have hin : done.length < maxElements ∧ pre.length < maxModels := by omega
  simp [NodeInfor.getModel, NodeInfor.getCid, hin, hm, hc]

theorem getTerminator (h : g.Holds (done ++ row :: rest)) (fits : TableFits (done ++ row :: rest)) :
    g.getModel done.length row.length = some 0xffff := by
  have hrow := fits.rows
  have hcolumn := fits.columns row (by simp)
  simp only [List.length_append, List.length_cons] at hrow
  have ht := h.terminator done.length row (by simp)
  have hin : done.length < maxElements ∧ row.length < maxModels := by omega
  simp [NodeInfor.getModel, hin, ht]

end NodeInfor.Holds

theorem sendModelAppBind_eq {s : ConfigClient} {done rest : List (List (Word × Word))}
    {pre post : List (Word × Word)} {x : Word × Word} (node : Node)
    (holds : s.globalNode.Holds (done ++ (pre ++ x :: post) :: rest))
    (fits : TableFits (done ++ (pre ++ x :: post) :: rest))
    (hi : s.i = pre.length) (hj : s.j = done.length) (htemp : s.temp = x.1) :
    (∃ t : ConfigClient, t.Waiting done pre x post rest ∧ t.globalNode = s.globalNode ∧
      sendModelAppBind node false s =
        some (t, [.modelAppBind node.unicastAddr (bindingOf node done.length x)])) ∧
    sendModelAppBind node true s =
      some (s, [.modelAppBind node.unicastAddr (bindingOf node done.length x)]) := by
  have hcid := (holds.getModel fits).2
  have hcolumn := fits.columns (pre ++ x :: post) (by simp)
  simp only [List.length_append, List.length_cons] at hcolumn
  unfold maxModels at hcolumn
  constructor
  · refine ⟨{ s with waitModelId := s.temp, waitCid := x.2, i := (s.i + 1) % 256 },
      ⟨⟨?_, hj, htemp, htemp, rfl⟩, holds⟩, rfl, ?_⟩
    · simp only [hi]
      omega
    · simp [sendModelAppBind, hi, hj, hcid, htemp, bindingOf]
  · simp [sendModelAppBind, hi, hj, hcid, htemp, bindingOf]

namespace ConfigClient.Waiting

variable {aes128 : List Octet → List Octet → List Octet} {s : ConfigClient} {node : Node}
  {answers : Answers} {done rest : List (List (Word × Word))} {pre post ns : List (Word × Word)}
  {cur next n : Word × Word}

theorem test_iff (h : s.Waiting done pre cur post rest)
    (fits : TableFits (done ++ (pre ++ cur :: post) :: rest)) (status : Binding) :
    s.Awaits node status ↔ status = bindingOf node done.length cur := by
  have hrows := fits.rows
  simp only [List.length_append, List.length_cons] at hrows
  rw [ConfigClient.Awaits, h.temp, h.waitCid, h.j, matches_iff node (by omega)]

theorem other_status (h : s.Waiting done pre cur post rest)
    (fits : TableFits (done ++ (pre ++ cur :: post) :: rest)) {status : Binding}
    (hne : status ≠ bindingOf node done.length cur) :
    modelAppBindStatus aes128 node status answers s = some (s, []) := by
  rw [modelAppBindStatus, if_neg fun hpass => hne ((h.test_iff fits status).mp hpass)]
  rfl

theorem next_in_row (h : s.Waiting done pre cur (next :: post) rest)
    (fits : TableFits (done ++ (pre ++ cur :: next :: post) :: rest)) (hid : next.1 ≠ 0xffff) :
    modelAppBindStatus aes128 node (bindingOf node done.length cur) answers s =
      sendModelAppBind node answers.sendErr { s with temp := next.1 } := by
  have hread : s.globalNode.getModel s.j s.i = some next.1 := by
    have hholds := h.holds
    rw [show pre ++ cur :: next :: post = (pre ++ [cur]) ++ next :: post by simp] at hholds fits
    have := (hholds.getModel fits).1
    rwa [List.length_append, List.length_singleton, ← h.i, ← h.j] at this
  rw [modelAppBindStatus, if_pos ((h.test_iff fits _).mpr rfl), hread]
  simp only [Option.bind_eq_bind, Option.bind_some, if_neg hid]

/-- The slot after the last model of the row, or one that holds the id `0xffff`. -/
theorem read_end (h : s.Waiting done pre cur post rest)
    (fits : TableFits (done ++ (pre ++ cur :: post) :: rest))
    (hend : ∀ y ∈ post.head?, y.1 = 0xffff) : s.globalNode.getModel s.j s.i = some 0xffff := by
  have hholds := h.holds
  rw [h.i, h.j]
  cases post with
  | nil =>
    have := hholds.getTerminator fits
    rwa [List.length_append, List.length_singleton] at this
  | cons y post =>
    rw [show pre ++ cur :: y :: post = (pre ++ [cur]) ++ y :: post by simp] at hholds fits
    have := (hholds.getModel fits).1
    rwa [List.length_append, List.length_singleton, hend y (by simp)] at this

theorem next_row (h : s.Waiting done pre cur post ((n :: ns) :: rest))
    (fits : TableFits (done ++ (pre ++ cur :: post) :: (n :: ns) :: rest))
    (hend : ∀ y ∈ post.head?, y.1 = 0xffff) :
    modelAppBindStatus aes128 node (bindingOf node done.length cur) answers s =
      sendModelAppBind node answers.sendErr
        { s with i := 0, j := done.length + 1, temp := n.1 } := by
  have hrows := fits.rows
  have hnum := h.holds.elementNum
  simp only [List.length_append, List.length_cons] at hrows hnum
  unfold maxElements at hrows
  have hj : (s.j + 1) % 256 = done.length + 1 := by rw [h.j]; omega
  have hread : s.globalNode.getModel (done.length + 1) 0 = some n.1 := by
    have hholds := h.holds
    rw [show done ++ (pre ++ cur :: post) :: (n :: ns) :: rest =
      (done ++ [pre ++ cur :: post]) ++ ([] ++ n :: ns) :: rest by simp] at hholds fits
    have := (hholds.getModel fits).1
    rwa [List.length_append, List.length_singleton] at this
  have hmore : ¬ done.length + 1 ≥ s.globalNode.elementNum.toNat := by omega
  rw [modelAppBindStatus, if_pos ((h.test_iff fits _).mpr rfl), h.read_end fits hend]
  simp only [Option.bind_eq_bind, Option.bind_some, if_true, hj, if_neg hmore, hread]

theorem finish (h : s.Waiting done pre cur post [])
    (fits : TableFits (done ++ [pre ++ cur :: post])) (hend : ∀ y ∈ post.head?, y.1 = 0xffff) :
    modelAppBindStatus aes128 node (bindingOf node done.length cur) answers s =
      some ({ s with i := 0, j := 0, temp := 0xffff },
        configSuccess aes128 node s.globalNode answers.onoff) := by
  have hrows := fits.rows
  have hnum := h.holds.elementNum
  simp only [List.length_append, List.length_cons, List.length_nil] at hrows hnum
  unfold maxElements at hrows
  have hj : (s.j + 1) % 256 = done.length + 1 := by rw [h.j]; omega
  have hlast : done.length + 1 ≥ s.globalNode.elementNum.toNat := by omega
  rw [modelAppBindStatus, if_pos ((h.test_iff fits _).mpr rfl), h.read_end fits hend]
  simp only [Option.bind_eq_bind, Option.bind_some, if_true, hj, if_pos hlast]
  rfl

end ConfigClient.Waiting

theorem appKeyAddStatus_eq {s : ConfigClient} (node : Node) (sendErr : Bool)
    {n : Word × Word} {ns : List (Word × Word)} {rest : List (List (Word × Word))}
    (holds : s.globalNode.Holds ((n :: ns) :: rest)) (fits : TableFits ((n :: ns) :: rest)) :
    appKeyAddStatus node sendErr s =
      sendModelAppBind node sendErr { s with i := 0, j := 0, temp := n.1 } := by
  have hholds : s.globalNode.Holds ([] ++ ([] ++ n :: ns) :: rest) := holds
  have hread : s.globalNode.getModel 0 0 = some n.1 := (hholds.getModel fits).1
  rw [appKeyAddStatus, hread]
  rfl

end VhomeBridge.Ble
