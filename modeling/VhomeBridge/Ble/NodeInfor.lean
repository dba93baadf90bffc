import Mathlib.Data.List.Basic

/-! The record `global_node` and the reader of composition data.  The record is filled by three
callbacks: an advertisement gives the MAC, the end of provisioning the address and the UUID, and
the composition data, read by `ble_mesh_parse_node_comp_data`, the table of models.  An access
outside the data or outside the table is a fault, `none`. -/

namespace VhomeBridge.Ble

/-- `uint8_t`. -/
abbrev Octet := BitVec 8

/-- `uint16_t`. -/
abbrev Word := BitVec 16

/-- The rows of `models[8][24]` and `cid[8][24]`. -/
def maxElements : Nat := 8

/-- The columns of `models[8][24]` and `cid[8][24]`. -/
def maxModels : Nat := 24

structure NodeInfor where
  unicastAddr : Word
  mac : Vector Octet 6
  uuid : Vector Octet 16
  elementNum : Word
  models : Nat → Nat → Word
  cid : Nat → Nat → Word

def blankNode : NodeInfor :=
  ⟨0, Vector.replicate 6 0, Vector.replicate 16 0, 0, fun _ _ => 0, fun _ _ => 0⟩

def put (table : Nat → Nat → Word) (e j : Nat) (v : Word) : Nat → Nat → Word :=
  fun e' j' => if e' = e ∧ j' = j then v else table e' j'

namespace NodeInfor

def getModel (g : NodeInfor) (e j : Nat) : Option Word :=
  if e < maxElements ∧ j < maxModels then some (g.models e j) else none

def getCid (g : NodeInfor) (e j : Nat) : Option Word :=
  if e < maxElements ∧ j < maxModels then some (g.cid e j) else none

def setModel (g : NodeInfor) (e j : Nat) (v : Word) : Option NodeInfor :=
  if e < maxElements ∧ j < maxModels then some { g with models := put g.models e j v } else none

def setCid (g : NodeInfor) (e j : Nat) (v : Word) : Option NodeInfor :=
  if e < maxElements ∧ j < maxModels then some { g with cid := put g.cid e j v } else none

end NodeInfor

def compData1Octet (data : List Octet) (offset : Nat) : Option Octet := data[offset]?

def compData2Octet (data : List Octet) (offset : Nat) : Option Word := do
  let high ← data[offset + 1]?
  let low ← data[offset]?
  return high ++ low

/-- The loop over the `nums` SIG models of element `e`: the offset and the slot it ends at, and the
record. -/
def parseSigModels (data : List Octet) (e : Nat) :
    Nat → Nat → Nat → NodeInfor → Option (Nat × Nat × NodeInfor)
  | 0, offset, j, g => some (offset, j, g)
  | nums + 1, offset, j, g => do
    let modelId ← compData2Octet data offset
    let g ← g.setModel e j modelId
    let g ← g.setCid e j 0xffff
    parseSigModels data e nums (offset + 2) (j + 1) g

def parseVendorModels (data : List Octet) (e : Nat) :
    Nat → Nat → Nat → NodeInfor → Option (Nat × Nat × NodeInfor)
  | 0, offset, j, g => some (offset, j, g)
  | numv + 1, offset, j, g => do
    let companyId ← compData2Octet data offset
    let modelId ← compData2Octet data (offset + 2)
    let g ← g.setModel e j modelId
    let g ← g.setCid e j companyId
    parseVendorModels data e numv (offset + 4) (j + 1) g

/-- The loop over the elements, `numElement` of them read so far.  Each turn moves the offset on,
so `data.length` turns are enough. -/
def parseElements (data : List Octet) :
    Nat → Nat → Nat → NodeInfor → Option NodeInfor
  | 0, offset, numElement, g =>
    if offset < data.length then none
    else some { g with elementNum := BitVec.ofNat 16 numElement }
  | fuel + 1, offset, numElement, g =>
    if offset < data.length then do
      let _loc ← compData2Octet data offset
      let nums ← compData1Octet data (offset + 2)
      let numv ← compData1Octet data (offset + 3)
      let (offset, j, g) ← parseSigModels data numElement nums.toNat (offset + 4) 0 g
      let (offset, j, g) ← parseVendorModels data numElement numv.toNat offset j g
      -- the terminator has no company id: `cid` keeps what an earlier node left there
      let g ← g.setModel numElement j 0xffff
      parseElements data fuel offset (numElement + 1) g
    else some { g with elementNum := BitVec.ofNat 16 numElement }

def bleMeshParseNodeCompData (data : List Octet) (g : NodeInfor) : Option NodeInfor := do
  let _cid ← compData2Octet data 0
  let _pid ← compData2Octet data 2
  let _vid ← compData2Octet data 4
  let _crpl ← compData2Octet data 6
  let _feat ← compData2Octet data 8
  parseElements data data.length 10 0 g

end VhomeBridge.Ble
