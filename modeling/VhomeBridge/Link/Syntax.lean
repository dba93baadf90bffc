import VhomeBridge.Link.Jsmn

/-! The texts that the tokenizer takes apart, as trees.  A tree keeps the blanks between its parts,
so that it determines its text, and `toks` says which tokens the text has: `pos` is the position at
which it starts, `parent` the token that it belongs to and `base` the number of tokens before it. -/

namespace VhomeBridge.Link

abbrev Blank := {t : Text // t.all isBlank = true}

/-- The text of a number or of `true`, `false` or `null`, as far as the tokenizer looks at it. -/
def isPrimitive : Text → Bool
  | [] => false
  | c :: t => startsPrimitive c &&
      (c :: t).all fun c => !endsPrimitive c && 32 ≤ c.toNat && c.toNat < 127

abbrev Primitive := {t : Text // isPrimitive t = true}

/-- The text between the quotes of a string, after a backslash if `escape`, and with `hex` digits
of a `\u` to come. -/
def isBody : Text → (escape : Bool) → (hex : Nat) → Bool
  | [], escape, hex => !escape && hex == 0
  | c :: t, true, _ => if c == 'u' then isBody t false 4 else isEscape c && isBody t false 0
  | c :: t, false, hex + 1 => isHex c && isBody t false hex
  | c :: t, false, 0 => c != '"' && isBody t (c == '\\') 0

abbrev Body := {t : Text // isBody t false 0 = true}

mutual

inductive Json
  | prim (p : Primitive)
  | str (s : Body)
  | arr (items : Items)
  | obj (members : Members)

/-- The items of an array, each with the blanks around it. -/
inductive Items
  | nil (blank : Blank)
  | cons (before : Blank) (value : Json) (after : Blank) (rest : Items)

/-- The members of an object, each with the blanks around its key and its value. -/
inductive Members
  | nil (blank : Blank)
  | cons (before : Blank) (key : Body) (colon : Blank) (between : Blank) (value : Json)
      (after : Blank) (rest : Members)

end

def Items.comma : Items → Text
  | .nil _ => []
  | .cons .. => [',']

def Members.comma : Members → Text
  | .nil _ => []
  | .cons .. => [',']

def Body.text (s : Body) : Text := '"' :: (s.1 ++ ['"'])

mutual

def Json.text : Json → Text
  | .prim p => p.1
  | .str s => s.text
  | .arr items => '[' :: (items.text ++ [']'])
  | .obj members => '{' :: (members.text ++ ['}'])

def Items.text : Items → Text
  | .nil blank => blank.1
  | .cons before value after rest =>
    before.1 ++ (value.text ++ (after.1 ++ (rest.comma ++ rest.text)))

def Members.text : Members → Text
  | .nil blank => blank.1
  | .cons before key colon between value after rest =>
    before.1 ++ (key.text ++ (colon.1 ++ (':' :: (between.1 ++ (value.text ++
      (after.1 ++ (rest.comma ++ rest.text)))))))

end

mutual

def Json.count : Json → Nat
  | .prim _ => 1
  | .str _ => 1
  | .arr items => items.count + 1
  | .obj members => members.count + 1

def Items.count : Items → Nat
  | .nil _ => 0
  | .cons _ value _ rest => value.count + rest.count

def Members.count : Members → Nat
  | .nil _ => 0
  | .cons _ _ _ _ value _ rest => 1 + value.count + rest.count

end

def Items.values : Items → List Json
  | .nil _ => []
  | .cons _ value _ rest => value :: rest.values

def Members.entries : Members → List (Text × Json)
  | .nil _ => []
  | .cons _ key _ _ value _ rest => (key.1, value) :: rest.entries

/-- The token of a string that starts at `pos`. -/
def Body.tok (s : Body) (pos : Nat) (size : Nat) (parent : Int) : JsmnTok :=
  ⟨.string, pos + 1, pos + 1 + s.1.length, size, parent⟩

mutual

def Json.toks : Json → (pos : Nat) → (parent : Int) → (base : Nat) → List JsmnTok
  | .prim p, pos, parent, _ => [⟨.primitive, pos, pos + p.1.length, 0, parent⟩]
  | .str s, pos, parent, _ => [s.tok pos 0 parent]
  | .arr items, pos, parent, base =>
    ⟨.array, pos, pos + items.text.length + 2, items.values.length, parent⟩ ::
      items.toks (pos + 1) base (base + 1)
  | .obj members, pos, parent, base =>
    ⟨.object, pos, pos + members.text.length + 2, members.entries.length, parent⟩ ::
      members.toks (pos + 1) base (base + 1)

def Items.toks : Items → (pos : Nat) → (parent : Int) → (base : Nat) → List JsmnTok
  | .nil _, _, _, _ => []
  | .cons before value after rest, pos, parent, base =>
    value.toks (pos + before.1.length) parent base ++
      rest.toks (pos + before.1.length + value.text.length + after.1.length + rest.comma.length)
        parent (base + value.count)

def Members.toks : Members → (pos : Nat) → (parent : Int) → (base : Nat) → List JsmnTok
  | .nil _, _, _, _ => []
  | .cons before key colon between value after rest, pos, parent, base =>
    let pos := pos + before.1.length
    let mid := pos + key.text.length + colon.1.length + 1 + between.1.length
    key.tok pos 1 parent :: (value.toks mid base (base + 1) ++
      rest.toks (mid + value.text.length + after.1.length + rest.comma.length) parent
        (base + 1 + value.count))

end

/-! ### Whole texts -/

/-- A text that ends a primitive before it. -/
def Ends : Text → Prop
  | [] => False
  | c :: _ => endsPrimitive c = true

/-- What may follow a value: a primitive needs a character that ends it. -/
def Json.Before : Json → Text → Prop
  | .prim _, js => Ends js
  | _, _ => True

/-- What may follow the object of a text: blanks, commas and whole values. -/
inductive Tail
  | nil
  | sep (c : Char) (h : (isBlank c || c == ',') = true) (rest : Tail)
  | value (v : Json) (rest : Tail)

def Tail.text : Tail → Text
  | .nil => []
  | .sep c _ rest => c :: rest.text
  | .value v rest => v.text ++ rest.text

/-- Every primitive of the tail has a character after it that ends it. -/
def Tail.Whole : Tail → Prop
  | .nil => True
  | .sep _ _ rest => rest.Whole
  | .value v rest => v.Before rest.text ∧ rest.Whole

def Tail.count : Tail → Nat
  | .nil => 0
  | .sep _ _ rest => rest.count
  | .value v rest => v.count + rest.count

def Tail.toks : Tail → (pos : Nat) → (base : Nat) → List JsmnTok
  | .nil, _, _ => []
  | .sep _ _ rest, pos, base => rest.toks (pos + 1) base
  | .value v rest, pos, base =>
    v.toks pos (-1) base ++ rest.toks (pos + v.text.length) (base + v.count)

/-- A text that starts with an object, as the tokenizer reads it. -/
structure Document where
  before : Blank
  root : Members
  tail : Tail
  whole : tail.Whole

namespace Document

variable (doc : Document)

def text : Text := doc.before.1 ++ ((Json.obj doc.root).text ++ doc.tail.text)

def count : Nat := (Json.obj doc.root).count + doc.tail.count

def rootToks : List JsmnTok := (Json.obj doc.root).toks doc.before.1.length (-1) 0

def toks : List JsmnTok :=
  doc.rootToks ++ doc.tail.toks (doc.before.1.length + (Json.obj doc.root).text.length)
    (Json.obj doc.root).count

end Document

end VhomeBridge.Link
