import VhomeBridge.Link.JsonParser
import VhomeBridge.Link.Map

/-! The links between buttons.  `json_parsing` builds the map of links from a configuration text:
for each button of a group the ids of the other buttons, with a space after each.  Writing past a
buffer, reading a buffer never written and reading through a bad cursor are faults, `none`. -/

namespace VhomeBridge.Link

open Lib

/-- The buffers `node_id[20]`, `protocol[10]` and `endpoint[5]`, `none` until written. -/
structure Fields where
  nodeId : Option Text
  protocol : Option Text
  endpoint : Option Text

/-- The three calls of `json_obj_get_string` on the button at the cursor. -/
def Fields.read (ctx : JparseCtx) (fields : Fields) : Option Fields := do
  let nodeId ← ctx.jsonObjGetString "node_id".toList 20
  let fields := { fields with nodeId := nodeId.or fields.nodeId }
  let protocol ← ctx.jsonObjGetString "protocol".toList 10
  let fields := { fields with protocol := protocol.or fields.protocol }
  let endpoint ← ctx.jsonObjGetString "endpoint".toList 5
  return { fields with endpoint := endpoint.or fields.endpoint }

/-- `sprintf` of the three buffers into `key[40]`. -/
def Fields.key (fields : Fields) : Option Text := do
  intoBuffer 40 ((← fields.nodeId) ++ (← fields.protocol) ++ (← fields.endpoint))

/-- `sprintf` of the three buffers and a space into `ID[40]`. -/
def Fields.id (fields : Fields) : Option Text := do
  intoBuffer 40 ((← fields.nodeId) ++ (← fields.protocol) ++ (← fields.endpoint) ++ " ".toList)

structure SiblingLoop where
  ctx : JparseCtx
  fields : Fields
  value : Text

structure ButtonLoop where
  ctx : JparseCtx
  fields : Fields
  map : MapStr

/-- The body of the loop over `k`, for button `j`. -/
def siblingBody (j k : Nat) (s : SiblingLoop) : Option SiblingLoop := do
  let object ← s.ctx.jsonArrGetObject k
  let ctx := object.getD s.ctx
  if object.isSome && k != j then
    let fields ← s.fields.read ctx
    let value ← intoBuffer 256 (s.value ++ (← fields.id))
    return ⟨← ctx.jsonArrLeave, fields, value⟩
  else return { s with ctx := ← ctx.jsonArrLeave }

/-- The body of the loop over `j`, for a group of `numElemArr` elements. -/
def buttonBody (numElemArr j : Nat) (s : ButtonLoop) : Option ButtonLoop := do
  let object ← s.ctx.jsonArrGetObject j
  let ctx := object.getD s.ctx
  let fields ← if object.isSome then s.fields.read ctx else some s.fields
  let ctx ← ctx.jsonArrLeave
  let key ← fields.key
  let r ← forRange (siblingBody j) numElemArr 0 ⟨ctx, fields, []⟩
  let map ← mapSet s.map key r.value (r.value.length + 1)
  return ⟨r.ctx, r.fields, map⟩

/-- The body of the loop over `i`, for a group. -/
def groupBody (i : Nat) (s : ButtonLoop) : Option ButtonLoop := do
  match ← s.ctx.jsonArrGetArray i with
  | none => return s
  | some (ctx, numElemArr) =>
    let s ← forRange (buttonBody numElemArr) numElemArr 0 { s with ctx := ctx }
    return { s with ctx := ← s.ctx.jsonArrLeave }

def jsonParsing (textBuf : Text) : Option MapStr := do
  -- a failed start is only reported, and the accessors go on without a cursor
  let (_, ctx) ← jsonParseStart textBuf
  match ← ctx.jsonObjGetArray "link".toList with
  | none => return mapInit
  | some (ctx, numElemObjArr) =>
    let s ← forRange groupBody numElemObjArr 0 ⟨ctx, ⟨none, none, none⟩, mapInit⟩
    let _ ← s.ctx.jsonObjLeaveArray
    return s.map

end VhomeBridge.Link
