import VhomeBridge.Lib.Loop
import VhomeBridge.Link.Jsmn

/-! The accessors over the tokens of a text, under the names of the C functions.  They move a cursor
through the token array: to skip an element they count on the sizes that the tokenizer recorded.  A
cursor that is NULL or outside the array is a fault when it is read, `none`; an accessor that does
not find what it looks for fails without a fault. -/

namespace VhomeBridge.Link

open Lib

/-- `jparse_ctx_t`: the text, the token array and the cursor. -/
structure JparseCtx where
  js : Text
  tokens : List JsmnTok
  cur : Option Nat

def JparseCtx.zero : JparseCtx := ⟨[], [], none⟩

/-- `json_parse_start`: whether it succeeds, and the context. -/
def jsonParseStart (js : Text) : Option (Bool × JparseCtx) :=
  match jsmnParse js none with
  | .error .fault => none
  | .error _ => some (false, .zero)
  | .ok (_, numTokens) =>
    if numTokens = 0 then some (false, .zero)
    else match jsmnParse js (some numTokens) with
      | .error .fault => none
      | .error _ => some (false, .zero)
      | .ok (tokens, ret) =>
        if ret = 0 then some (false, .zero) else some (true, ⟨js, tokens, some 0⟩)

namespace JparseCtx

variable (ctx : JparseCtx)

def tokenMatchesStr (tok : JsmnTok) (str : Text) : Bool :=
  (ctx.js.drop tok.start.toNat).take str.length == str &&
    (str.length : Int) == tok.stop - tok.start

/-- `json_skip_elem`: the last token of the element at a token.  Each call is one token further on,
so as many calls as there are tokens are enough. -/
def jsonSkipElem : (fuel : Nat) → Nat → Option Nat
  | 0, _ => none
  | fuel + 1, token => do
    let tok ← ctx.tokens[token]?
    forRange (fun _ cur => jsonSkipElem fuel (cur + 1)) tok.size 0 token

/-- The loop of `json_obj_search`, over `size` more keys after token `tok`. -/
def searchKeys (key : Text) : (size : Nat) → Nat → Option (Option Nat)
  | 0, _ => some none
  | size + 1, tok => do
    let t ← ctx.tokens[tok + 1]?
    if ctx.tokenMatchesStr t key then return some (tok + 1)
    let tok ← ctx.jsonSkipElem ctx.tokens.length (tok + 1)
    searchKeys key size tok

def jsonObjSearch (key : Text) : Option (Option Nat) := do
  let cur ← ctx.cur
  let tok ← ctx.tokens[cur]?
  if tok.size = 0 then return none
  if tok.type ≠ .object then return none
  ctx.searchKeys key tok.size cur

def jsonObjGetValTok (name : Text) (type : JsmnType) : Option (Option (Nat × JsmnTok)) := do
  match ← ctx.jsonObjSearch name with
  | none => return none
  | some tok =>
    let t ← ctx.tokens[tok + 1]?
    return if t.type ≠ type then none else some (tok + 1, t)

/-- `json_obj_get_array`: the context with the cursor moved and the number of elements. -/
def jsonObjGetArray (name : Text) : Option (Option (JparseCtx × Nat)) := do
  match ← ctx.jsonObjGetValTok name .array with
  | none => return none
  | some (i, t) => return some ({ ctx with cur := some i }, t.size)

def jsonTokToString (tok : JsmnTok) (size : Nat) : Option Text :=
  if tok.stop - tok.start > (size : Int) - 1 then none
  else some ((ctx.js.drop tok.start.toNat).take (tok.stop - tok.start).toNat)

def jsonObjGetString (name : Text) (size : Nat) : Option (Option Text) := do
  match ← ctx.jsonObjGetValTok name .string with
  | none => return none
  | some (_, t) => return ctx.jsonTokToString t size

def jsonArrSearch (index : Nat) : Option (Option Nat) := do
  let cur ← ctx.cur
  let tok ← ctx.tokens[cur]?
  if tok.type ≠ .array ∨ tok.size = 0 then return none
  if index > tok.size - 1 then return none
  let tok ← forRange (fun _ tok => do
    let tok ← ctx.jsonSkipElem ctx.tokens.length tok
    return tok + 1) index 0 (cur + 1)
  return some tok

def jsonArrGetValTok (index : Nat) (type : JsmnType) : Option (Option (Nat × JsmnTok)) := do
  match ← ctx.jsonArrSearch index with
  | none => return none
  | some tok =>
    let t ← ctx.tokens[tok]?
    return if t.type ≠ type then none else some (tok, t)

def jsonArrGetArray (index : Nat) : Option (Option (JparseCtx × Nat)) := do
  match ← ctx.jsonArrGetValTok index .array with
  | none => return none
  | some (i, t) => return some ({ ctx with cur := some i }, t.size)

def jsonArrGetObject (index : Nat) : Option (Option JparseCtx) := do
  match ← ctx.jsonArrGetValTok index .object with
  | none => return none
  | some (i, _) => return some { ctx with cur := some i }

/-- `json_arr_leave_array` and `json_arr_leave_object`: the cursor moves to the parent, if there is
one. -/
def jsonArrLeave : Option JparseCtx := do
  let cur ← ctx.cur
  let tok ← ctx.tokens[cur]?
  return if tok.parent < 0 then ctx else { ctx with cur := some tok.parent.toNat }

/-- `json_obj_leave_array`: the cursor moves to the key and then to the object. -/
def jsonObjLeaveArray : Option JparseCtx := do
  let cur ← ctx.cur
  let tok ← ctx.tokens[cur]?
  if tok.parent < 0 then return ctx
  let ctx := { ctx with cur := some tok.parent.toNat }
  let key ← ctx.tokens[tok.parent.toNat]?
  return if key.parent < 0 then ctx else { ctx with cur := some key.parent.toNat }

end JparseCtx

end VhomeBridge.Link
