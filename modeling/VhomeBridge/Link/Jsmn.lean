import VhomeBridge.Text

/-! The tokenizer, `jsmn_parse` as it is built here, with `JSMN_PARENT_LINKS` and `JSMN_STRICT`.
It runs over the text twice: first without tokens, to count them, then with a pool of that many.
The loop is a recursion over the text.  A string or a primitive moves the position past itself: the
characters that it takes are skipped by the loop.  The cases of its `switch` are definitions of
their own. -/

namespace VhomeBridge.Link

inductive JsmnType
  | object
  | array
  | string
  | primitive
  deriving DecidableEq

/-- `jsmntok_t`, with `stop` for its field `end`. -/
structure JsmnTok where
  type : JsmnType
  start : Int
  stop : Int
  size : Nat
  parent : Int
  deriving DecidableEq

/-- `enum jsmnerr`, and `fault` for the use of a token outside the pool. -/
inductive JsmnErr
  | nomem
  | inval
  | part
  | fault
  deriving DecidableEq

/-- The parser and its tokens.  `pool` is the number of tokens there is room for, `none` in the
counting pass; `toknext` is the length of `tokens`.  `skip` counts the characters that the string or
primitive at hand still takes. -/
structure Jsmn where
  pos : Nat
  toksuper : Int
  pool : Option Nat
  tokens : List JsmnTok
  count : Nat
  skip : Nat
  deriving DecidableEq

def jsmnInit (pool : Option Nat) : Jsmn := ⟨0, -1, pool, [], 0, 0⟩

def Jsmn.tok (s : Jsmn) (i : Int) : Except JsmnErr JsmnTok :=
  if i < 0 then .error .fault
  else match s.tokens[i.toNat]? with
    | some t => .ok t
    | none => .error .fault

def isBlank (c : Char) : Bool := c == '\t' || c == '\r' || c == '\n' || c == ' '

def endsPrimitive (c : Char) : Bool := isBlank c || c == ',' || c == ']' || c == '}'

def startsPrimitive (c : Char) : Bool :=
  c == '-' || ('0' ≤ c && c ≤ '9') || c == 't' || c == 'f' || c == 'n'

/-- `jsmn_parse_primitive`: the number of characters of the primitive at the head of the text. -/
def jsmnParsePrimitive : Text → Except JsmnErr Nat
  | [] => .error .part
  | c :: js =>
    if endsPrimitive c then .ok 0
    else if c.toNat < 32 || c.toNat ≥ 127 then .error .inval
    else (jsmnParsePrimitive js).map (· + 1)

def isHex (c : Char) : Bool :=
  ('0' ≤ c && c ≤ '9') || ('A' ≤ c && c ≤ 'F') || ('a' ≤ c && c ≤ 'f')

/-- The symbols allowed after a backslash, apart from `u`. -/
def isEscape (c : Char) : Bool :=
  c == '"' || c == '/' || c == '\\' || c == 'b' || c == 'f' || c == 'r' || c == 'n' || c == 't'

/-- `jsmn_parse_string` after the opening quote: the number of characters before the closing
quote.  `hex` counts the digits of a `\u` that are still expected. -/
def jsmnParseString : Text → (escape : Bool) → (hex : Nat) → Except JsmnErr Nat
  | [], _, _ => .error .part
  | c :: js, true, _ =>
    if c == 'u' then (jsmnParseString js false 4).map (· + 1)
    else if isEscape c then (jsmnParseString js false 0).map (· + 1)
    else .error .inval
  | c :: js, false, hex + 1 =>
    if isHex c then (jsmnParseString js false hex).map (· + 1) else .error .inval
  | c :: js, false, 0 =>
    if c == '"' then .ok 0
    -- a backslash at the end of the text is taken as it is
    else if c == '\\' && !js.isEmpty then (jsmnParseString js true 0).map (· + 1)
    else (jsmnParseString js false 0).map (· + 1)

/-- `jsmn_alloc_token` and `jsmn_fill_token`. -/
def Jsmn.alloc (s : Jsmn) (t : JsmnTok) : Except JsmnErr Jsmn :=
  match s.pool with
  | none => .ok s
  | some pool =>
    if s.tokens.length ≥ pool then .error .nomem else .ok { s with tokens := s.tokens ++ [t] }

/-- `tokens[toksuper].size++`, when there are tokens and a superior one. -/
def Jsmn.bump (s : Jsmn) : Except JsmnErr Jsmn :=
  if s.toksuper != -1 && s.pool.isSome then do
    let _ ← s.tok s.toksuper
    return { s with
      tokens := s.tokens.modify s.toksuper.toNat fun t => { t with size := t.size + 1 } }
  else return s

def Jsmn.openBracket (s : Jsmn) (type : JsmnType) : Except JsmnErr Jsmn := do
  let s := { s with count := s.count + 1 }
  if s.pool.isNone then return s
  let s' ← s.alloc ⟨type, s.pos, -1, 0, s.toksuper⟩
  if s.toksuper != -1 then
    let super ← s.tok s.toksuper
    if super.type = .object then throw .inval
  let s' ← s'.bump
  return { s' with toksuper := (s'.tokens.length : Int) - 1 }

/-- The search of a closing bracket for the token that it closes, from token `i` up the parents;
`true` if it is found, `false` if the root is reached without an open token. -/
def Jsmn.findOpen (s : Jsmn) (type : JsmnType) : Nat → Int → Except JsmnErr (Option Int)
  | 0, _ => .error .fault
  | fuel + 1, i => do
    let t ← s.tok i
    if t.start ≠ -1 ∧ t.stop = -1 then
      if t.type ≠ type then throw .inval
      return some i
    if t.parent = -1 then
      if t.type ≠ type ∨ s.toksuper = -1 then throw .inval
      return none
    s.findOpen type fuel t.parent

def Jsmn.closeBracket (s : Jsmn) (type : JsmnType) : Except JsmnErr Jsmn := do
  if s.pool.isNone then return s
  if s.tokens.length < 1 then throw .inval
  match ← s.findOpen type (s.tokens.length + 1) ((s.tokens.length : Int) - 1) with
  | some i =>
    let t ← s.tok i
    return { s with
      tokens := s.tokens.modify i.toNat fun t => { t with stop := (s.pos : Int) + 1 }
      toksuper := t.parent }
  | none => return s

/-- A string, its opening quote at the position and `js` after it. -/
def Jsmn.string (s : Jsmn) (js : Text) : Except JsmnErr Jsmn := do
  let length ← jsmnParseString js false 0
  let start : Int := s.pos + 1
  let s' ← s.alloc ⟨.string, start, start + length, 0, s.toksuper⟩
  let s' ← { s' with count := s.count + 1 }.bump
  return { s' with skip := length + 1 }

def Jsmn.primitive (s : Jsmn) (js : Text) : Except JsmnErr Jsmn := do
  if s.pool.isSome && s.toksuper != -1 then
    let super ← s.tok s.toksuper
    if super.type = .object ∨ (super.type = .string ∧ super.size ≠ 0) then throw .inval
  let length ← jsmnParsePrimitive js
  let s' ← s.alloc ⟨.primitive, s.pos, s.pos + length, 0, s.toksuper⟩
  let s' ← { s' with count := s.count + 1 }.bump
  return { s' with skip := length - 1 }

def Jsmn.comma (s : Jsmn) : Except JsmnErr Jsmn := do
  if s.pool.isSome && s.toksuper != -1 then
    let super ← s.tok s.toksuper
    if super.type ≠ .array ∧ super.type ≠ .object then
      return { s with toksuper := super.parent }
  return s

/-- The `switch` of `jsmn_parse` on the character `c`, with `js` after it. -/
def Jsmn.char (s : Jsmn) (c : Char) (js : Text) : Except JsmnErr Jsmn :=
  if c == '{' then s.openBracket .object
  else if c == '[' then s.openBracket .array
  else if c == '}' then s.closeBracket .object
  else if c == ']' then s.closeBracket .array
  else if c == '"' then s.string js
  else if isBlank c then .ok s
  else if c == ':' then .ok { s with toksuper := (s.tokens.length : Int) - 1 }
  else if c == ',' then s.comma
  else if startsPrimitive c then s.primitive (c :: js)
  else .error .inval

def Jsmn.loop (s : Jsmn) : Text → Except JsmnErr Jsmn
  | [] => .ok s
  | c :: js =>
    match s.skip with
    | skip + 1 => loop { s with pos := s.pos + 1, skip := skip } js
    | 0 => do
      let s ← s.char c js
      loop { s with pos := s.pos + 1 } js

def jsmnParse (js : Text) (pool : Option Nat) : Except JsmnErr (List JsmnTok × Nat) := do
  let s ← (jsmnInit pool).loop js
  if s.tokens.any fun t => t.start != -1 && t.stop == -1 then throw .part
  return (s.tokens, s.count)

end VhomeBridge.Link
