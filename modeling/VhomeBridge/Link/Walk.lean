import VhomeBridge.Link.Access
import VhomeBridge.Link.LinkButton

/-! `json_parsing` on the tree of a text.  The cursor becomes a path of item lists: those of the
array at the cursor and of each token above it, where a token that is not an array has none.  A
member that is not an object is not entered, and leaving it moves up from the array itself.  The
walk over the groups works on any table that the sibling lists go to. -/

namespace VhomeBridge.Link

open Lib

/-- The items at the cursor, and at each token above it. -/
abbrev Path := List (List Json)

namespace Path

def kids : Path → List Json
  | [] => []
  | kids :: _ => kids

def up : Path → Path
  | _ :: above :: rest => above :: rest
  | path => path

def object (path : Path) (k : Nat) : Option Members :=
  match path.kids[k]? with
  | some (.obj members) => some members
  | _ => none

end Path

/-- What the three buffers hold after reading a button. -/
def Fields.step (fields : Fields) (button : Members) : Fields where
  nodeId := (button.string "node_id".toList 20).or fields.nodeId
  protocol := (button.string "protocol".toList 10).or fields.protocol
  endpoint := (button.string "endpoint".toList 5).or fields.endpoint

/-- Where the sibling lists go: `append` adds an id to a list, `set` puts a list to a key. -/
structure Table (τ : Type) where
  empty : τ
  append : Text → Text → Option Text
  set : τ → Text → Text → Option τ

structure SiblingWalk where
  path : Path
  fields : Fields
  value : Text

structure ButtonWalk (τ : Type) where
  path : Path
  fields : Fields
  table : τ

namespace Table

variable {τ : Type} (T : Table τ)

def siblingTurn (j k : Nat) (s : SiblingWalk) : Option SiblingWalk :=
  match s.path.object k with
  | some button =>
    if k ≠ j then do
      let fields := s.fields.step button
      let value ← T.append s.value (← fields.id)
      return ⟨s.path, fields, value⟩
    else some s
  | none => some { s with path := s.path.up }

variable {T} in
theorem siblingTurn_some {j k : Nat} {s : SiblingWalk} {button : Members}
    (h : s.path.object k = some button) :
    T.siblingTurn j k s =
      if k ≠ j then
        (s.fields.step button).id.bind fun id =>
          (T.append s.value id).map fun value => ⟨s.path, s.fields.step button, value⟩
      else some s := by
  simp only [siblingTurn, h, Bind.bind, pure, Option.map_eq_bind]
  rfl

variable {T} in
theorem siblingTurn_none {j k : Nat} {s : SiblingWalk} (h : s.path.object k = none) :
    T.siblingTurn j k s = some { s with path := s.path.up } := by
  simp only [siblingTurn, h]

def buttonTurn (numElemArr j : Nat) (s : ButtonWalk τ) : Option (ButtonWalk τ) := do
  let button := s.path.object j
  let path := if button.isSome then s.path else s.path.up
  let fields := button.elim s.fields s.fields.step
  let key ← fields.key
  let r ← forRange (T.siblingTurn j) numElemArr 0 ⟨path, fields, []⟩
  return ⟨r.path, r.fields, ← T.set s.table key r.value⟩

def groupTurn (i : Nat) (s : ButtonWalk τ) : Option (ButtonWalk τ) :=
  match s.path.kids[i]? with
  | some (.arr items) => do
    let numElemArr := items.values.length
    let s ← forRange (T.buttonTurn numElemArr) numElemArr 0
      { s with path := items.values :: s.path }
    return { s with path := s.path.up }
  | _ => some s

def walk (root : Members) : Option τ :=
  match root.entries.lookup "link".toList with
  | some (.arr items) => do
    let s ← forRange T.groupTurn items.values.length 0
      ⟨[items.values, [], []], ⟨none, none, none⟩, T.empty⟩
    return s.table
  | _ => some T.empty

end Table

/-- The links that `json_parsing` keeps in the map, with the buffer `value[256]`. -/
def linkTable : Table Links where
  empty := fun _ => none
  append := fun value id => intoBuffer 256 (value ++ id)
  set := fun f key value => f.set key value (value.length + 1)

/-! ### Cursors and paths -/

section Cursor

variable {ctx : JparseCtx} {c i k pos : Nat} {parent : Int} {path : Path} {members : Members}

def JparseCtx.move (ctx : JparseCtx) (c : Nat) : JparseCtx := { ctx with cur := some c }

theorem Json.At.move {v : Json} (h : v.At ctx pos parent i) : v.At (ctx.move c) pos parent i :=
  ⟨h.text, h.toks⟩

theorem Json.At.unmove {v : Json} (h : v.At (ctx.move c) pos parent i) : v.At ctx pos parent i :=
  ⟨h.text, h.toks⟩

theorem Kids.move {kids : List Json} (h : Kids ctx i kids) : Kids (ctx.move c) i kids :=
  h.imp (fun ⟨pos, parent, items, hat, hkids⟩ => ⟨pos, parent, items, hat.move, hkids⟩) id

/-- The token at a cursor has the items of a path, and so have the tokens above it. -/
def Path.At (ctx : JparseCtx) : Path → Nat → Prop
  | [], _ => False
  | [kids], c => Kids ctx c kids ∧ ∃ t, ctx.tokens[c]? = some t ∧ t.parent = -1
  | kids :: above :: rest, c =>
    Kids ctx c kids ∧ ∃ t, ∃ p : Nat, ctx.tokens[c]? = some t ∧ t.parent = p ∧
      Path.At ctx (above :: rest) p

theorem Path.At.kids (h : path.At ctx c) : Kids ctx c path.kids := by
  match path, h with
  | [_], h => exact h.1
  | _ :: _ :: _, h => exact h.1

theorem Path.At.leave (h : path.At ctx c) :
    ∃ c', (ctx.move c).jsonArrLeave = some (ctx.move c') ∧ path.up.At ctx c' := by
  match path, h with
  | [kids], ⟨hkids, t, ht, hparent⟩ =>
    refine ⟨c, ?_, hkids, t, ht, hparent⟩
    simp [JparseCtx.jsonArrLeave, JparseCtx.move, ht, hparent]
  | kids :: above :: rest, ⟨hkids, t, p, ht, hparent, hup⟩ =>
    refine ⟨p, ?_, hup⟩
    simp [JparseCtx.jsonArrLeave, JparseCtx.move, ht, hparent, show ¬(p : Int) < 0 by omega]

theorem Path.At.head (h : path.At ctx c) : ∃ t, ctx.tokens[c]? = some t := by
  match path, h with
  | [_], ⟨_, t, ht, _⟩ => exact ⟨t, ht⟩
  | _ :: _ :: _, ⟨_, t, _, ht, _⟩ => exact ⟨t, ht⟩

theorem Path.At.obj_leave (h : path.At ctx c) : ((ctx.move c).jsonObjLeaveArray).isSome := by
  match path, h with
  | [kids], ⟨hkids, t, ht, hparent⟩ =>
    simp [JparseCtx.jsonObjLeaveArray, JparseCtx.move, ht, hparent]
  | kids :: above :: rest, ⟨hkids, t, p, ht, hparent, hup⟩ =>
    obtain ⟨u, hu⟩ := hup.head
    simp [JparseCtx.jsonObjLeaveArray, JparseCtx.move, ht, hparent, hu,
      show ¬(p : Int) < 0 by omega]

theorem Path.At.object_some (h : path.At ctx c) (hobject : path.object k = some members) :
    ∃ pos i, (Json.obj members).At ctx pos c i ∧
      (ctx.move c).jsonArrGetObject k = some (some (ctx.move i)) := by
  have hk : path.kids[k]? = some (.obj members) := by
    unfold Path.object at hobject
    split at hobject
    · rename_i hk
      rw [hk, Option.some.inj hobject]
    · contradiction
  have hkids : Kids (ctx.move c) c path.kids := h.kids.move
  obtain ⟨pos, i, hat, hget⟩ := hkids.get_some rfl hk
  refine ⟨pos, i, hat.unmove, ?_⟩
  rw [JparseCtx.jsonArrGetObject, hget]
  rfl

theorem Path.At.object_none (h : path.At ctx c) (hobject : path.object k = none) :
    (ctx.move c).jsonArrGetObject k = some none := by
  have hkids : Kids (ctx.move c) c path.kids := h.kids.move
  unfold Path.object at hobject
  cases hk : path.kids[k]? with
  | none =>
    rw [JparseCtx.jsonArrGetObject, hkids.get_none rfl hk]
    rfl
  | some v =>
    obtain ⟨pos, i, -, hget⟩ := hkids.get_some rfl hk
    rw [JparseCtx.jsonArrGetObject, hget]
    cases v with
    | obj => simp [hk] at hobject
    | prim => rfl
    | str => rfl
    | arr => rfl

theorem Path.At.array_some {items : Items} (h : path.At ctx c)
    (hk : path.kids[k]? = some (.arr items)) :
    ∃ i, (ctx.move c).jsonArrGetArray k = some (some (ctx.move i, items.values.length)) ∧
      Path.At ctx (items.values :: path) i := by
  have hkids : Kids (ctx.move c) c path.kids := h.kids.move
  obtain ⟨pos, i, hat, hget⟩ := hkids.get_some rfl hk
  refine ⟨i, ?_, ?_⟩
  · rw [JparseCtx.jsonArrGetArray, hget]
    rfl
  · have hentered : Kids ctx i items.values := .inl ⟨pos, c, items, hat.unmove, rfl⟩
    match path, h with
    | [_], h => exact ⟨hentered, _, c, hat.unmove.head, by simp, h⟩
    | _ :: _ :: _, h => exact ⟨hentered, _, c, hat.unmove.head, by simp, h⟩

theorem Path.At.array_none (h : path.At ctx c)
    (hk : ∀ items, path.kids[k]? ≠ some (.arr items)) :
    (ctx.move c).jsonArrGetArray k = some none := by
  have hkids : Kids (ctx.move c) c path.kids := h.kids.move
  cases hv : path.kids[k]? with
  | none =>
    rw [JparseCtx.jsonArrGetArray, hkids.get_none rfl hv]
    rfl
  | some v =>
    obtain ⟨pos, i, -, hget⟩ := hkids.get_some rfl hv
    rw [JparseCtx.jsonArrGetArray, hget]
    cases v with
    | arr items => exact absurd hv (hk items)
    | prim => rfl
    | str => rfl
    | obj => rfl

theorem Json.At.leave (h : (Json.obj members).At ctx pos c i) :
    (ctx.move i).jsonArrLeave = some (ctx.move c) := by
  simp [JparseCtx.jsonArrLeave, JparseCtx.move, h.head, show ¬(c : Int) < 0 by omega]

theorem Json.At.read (h : (Json.obj members).At ctx pos parent i) (fields : Fields) :
    fields.read (ctx.move i) = some (fields.step members) := by
  have hget (name : Text) (size : Nat) :
      (ctx.move i).jsonObjGetString name size = some (members.string name size) :=
    h.move.obj_get_string rfl size
  simp [Fields.read, hget, Fields.step]

end Cursor

/-! ### The loops -/

section Loops

variable {ctx : JparseCtx}

def SameSibling (ctx : JparseCtx) (s : SiblingLoop) (a : SiblingWalk) : Prop :=
  ∃ c, s = ⟨ctx.move c, a.fields, a.value⟩ ∧ a.path.At ctx c

def SameButton (ctx : JparseCtx) (s : ButtonLoop) (a : ButtonWalk Links) : Prop :=
  ∃ c map, s = ⟨ctx.move c, a.fields, map⟩ ∧ a.path.At ctx c ∧ map.Valid ∧ map.links = a.table

theorem siblingBody_same (j k : Nat) (s : SiblingLoop) (a : SiblingWalk)
    (h : SameSibling ctx s a) :
    Option.Rel (SameSibling ctx) (siblingBody j k s) (linkTable.siblingTurn j k a) := by
  obtain ⟨c, rfl, hat⟩ := h
  cases hobject : a.path.object k with
  | none =>
    obtain ⟨c', hleave, hup⟩ := hat.leave
    simp only [siblingBody, hat.object_none hobject, Bind.bind, Option.bind_some, pure,
      Option.getD_none, Option.isSome_none, Bool.false_and, Bool.false_eq_true, if_false, hleave,
      Table.siblingTurn_none hobject]
    exact .some ⟨c', rfl, hup⟩
  | some button =>
    obtain ⟨pos, i, hbutton, hget⟩ := hat.object_some hobject
    simp only [siblingBody, hget, Bind.bind, Option.bind_some, pure, Option.getD_some,
      Option.isSome_some, Bool.true_and, bne_iff_ne, hbutton.leave, hbutton.read,
      Table.siblingTurn_some hobject]
    split
    · cases (a.fields.step button).id with
      | none => exact .none
      | some id =>
        simp only [Option.bind_some, linkTable]
        cases intoBuffer 256 (a.value ++ id) with
        | none => exact .none
        | some value => exact .some ⟨c, rfl, hat⟩
    · exact .some ⟨c, rfl, hat⟩

theorem mapSet_same {map : MapStr} (hvalid : map.Valid) (key value : Text) (vsize : Nat) :
    Option.Rel (fun m f => m.Valid ∧ m.links = f) (mapSet map key value vsize)
      (map.links.set key value vsize) := by
  obtain ⟨hkeep, hlinks⟩ := hvalid.mapSet key value vsize
  rw [← hlinks]
  cases hset : mapSet map key value vsize with
  | none => exact .none
  | some map' => exact .some ⟨hkeep map' hset, rfl⟩

theorem list_same {path : Path} {fields : Fields} {map : MapStr} {c : Nat} (numElemArr j : Nat)
    (hat : path.At ctx c) (hvalid : map.Valid) :
    Option.Rel (SameButton ctx)
      (fields.key.bind fun key =>
        (forRange (siblingBody j) numElemArr 0 ⟨ctx.move c, fields, []⟩).bind fun r =>
          (mapSet map key r.value (r.value.length + 1)).bind fun map =>
            some ⟨r.ctx, r.fields, map⟩)
      (fields.key.bind fun key =>
        (forRange (linkTable.siblingTurn j) numElemArr 0 ⟨path, fields, []⟩).bind fun r =>
          (linkTable.set map.links key r.value).bind fun table =>
            some ⟨r.path, r.fields, table⟩) := by
  cases fields.key with
  | none => exact .none
  | some key =>
    simp only [Option.bind_some]
    refine rel_bind (forRange_rel (siblingBody_same j) numElemArr 0 ⟨c, rfl, hat⟩) ?_
    rintro s a ⟨c', rfl, hat'⟩
    apply rel_bind (mapSet_same hvalid key a.value _)
    rintro map' f ⟨hvalid', rfl⟩
    exact .some ⟨c', map', rfl, hat', hvalid', rfl⟩

theorem buttonBody_same (numElemArr j : Nat) (s : ButtonLoop) (a : ButtonWalk Links)
    (h : SameButton ctx s a) :
    Option.Rel (SameButton ctx) (buttonBody numElemArr j s)
      (linkTable.buttonTurn numElemArr j a) := by
  obtain ⟨c, map, rfl, hat, hvalid, hlinks⟩ := h
  cases hobject : a.path.object j with
  | none =>
    obtain ⟨c', hleave, hup⟩ := hat.leave
    simp only [buttonBody, hat.object_none hobject, Bind.bind, Option.bind_some, pure,
      Option.getD_none, Option.isSome_none, Bool.false_eq_true, if_false, hleave,
      Table.buttonTurn, hobject, Option.elim_none, ← hlinks]
    exact list_same numElemArr j hup hvalid
  | some button =>
    obtain ⟨pos, i, hbutton, hget⟩ := hat.object_some hobject
    simp only [buttonBody, hget, Bind.bind, Option.bind_some, pure, Option.getD_some,
      Option.isSome_some, if_true, hbutton.leave, hbutton.read, Table.buttonTurn, hobject,
      Option.elim_some, ← hlinks]
    exact list_same numElemArr j hat hvalid

theorem groupBody_same (i : Nat) (s : ButtonLoop) (a : ButtonWalk Links)
    (h : SameButton ctx s a) :
    Option.Rel (SameButton ctx) (groupBody i s) (linkTable.groupTurn i a) := by
  obtain ⟨c, map, rfl, hat, hvalid, hlinks⟩ := h
  by_cases harr : ∃ items, a.path.kids[i]? = some (.arr items)
  · obtain ⟨items, hk⟩ := harr
    obtain ⟨c', hget, hentered⟩ := hat.array_some hk
    simp only [groupBody, hget, Bind.bind, Option.bind_some, Table.groupTurn, hk]
    refine rel_bind (forRange_rel (buttonBody_same _) _ 0
      ⟨c', map, rfl, hentered, hvalid, hlinks⟩) ?_
    rintro s a ⟨c, map, rfl, hat, hvalid, hlinks⟩
    obtain ⟨c', hleave, hup⟩ := hat.leave
    simp only [hleave, Option.bind_some, pure]
    exact .some ⟨c', map, rfl, hup, hvalid, hlinks⟩
  · have hk : ∀ items, a.path.kids[i]? ≠ some (.arr items) := fun items hk => harr ⟨items, hk⟩
    simp only [groupBody, hat.array_none hk, Bind.bind, Option.bind_some, Table.groupTurn, pure]
    exact .some ⟨c, map, rfl, hat, hvalid, hlinks⟩

end Loops

namespace Document

variable (doc : Document)

theorem jsonParseStart_eq :
    jsonParseStart doc.text = some (true, ⟨doc.text, doc.toks, some 0⟩) := by
  have hcount : doc.count ≠ 0 := by
    simp [count, Json.count]
  simp only [jsonParseStart, doc.jsmnParse_count, hcount, if_false, doc.jsmnParse_toks]

theorem root_at :
    (Json.obj doc.root).At ⟨doc.text, doc.toks, some 0⟩ doc.before.1.length (-1) 0 where
  text := by
    refine ⟨doc.tail.text, ?_⟩
    simp [text]
  toks := ⟨_, rfl⟩

/-- `json_parsing` fills the map with the links of the object, or faults where they do not fit. -/
theorem jsonParsing_same :
    Option.Rel (fun m f => m.Valid ∧ m.links = f) (jsonParsing doc.text)
      (linkTable.walk doc.root) := by
  have hroot : (Json.obj doc.root).At ⟨doc.text, doc.toks, some 0⟩ _ _ 0 := doc.root_at
  have hempty : mapInit.links = linkTable.empty := by
    funext key
    simp [MapStr.links, mapGetref, mapInit, linkTable]
  have hnone : Option.Rel (fun m f => m.Valid ∧ m.links = f) (some mapInit)
      (some linkTable.empty) := .some ⟨MapStr.valid_init, hempty⟩
  simp only [jsonParsing, doc.jsonParseStart_eq, Bind.bind, Option.bind_some, Table.walk,
    JparseCtx.jsonObjGetArray]
  cases hlookup : doc.root.entries.lookup "link".toList with
  | none =>
    simp only [hroot.obj_get_none rfl hlookup, Option.bind_some, pure]
    exact hnone
  | some v =>
    obtain ⟨i, k, pos, pos', hk, hv, hget⟩ := hroot.obj_get_some rfl hlookup
    cases v with
    | prim =>
      rw [hget]
      exact hnone
    | str =>
      rw [hget]
      exact hnone
    | obj =>
      rw [hget]
      exact hnone
    | arr items =>
      simp only [hget, Json.type, ne_eq, not_true_eq_false, if_false, Option.bind_some, pure,
        Json.tok]
      have hat : Path.At ⟨doc.text, doc.toks, some 0⟩ [items.values, [], []] (i + 1) :=
        ⟨.inl ⟨_, _, items, hv, rfl⟩, _, i, hv.head, by simp,
          .inr ⟨_, hk.tok, by simp [Body.tok], rfl⟩, _, 0, hk.tok, rfl,
          .inr ⟨_, hroot.head, by simp [Json.tok], rfl⟩, _, hroot.head, rfl⟩
      refine rel_bind (forRange_rel groupBody_same _ 0
        ⟨i + 1, mapInit, rfl, hat, MapStr.valid_init, hempty⟩) ?_
      rintro s a ⟨c, map, rfl, hat', hvalid, hlinks⟩
      obtain ⟨left, hleft⟩ := Option.isSome_iff_exists.mp hat'.obj_leave
      simp only [hleft, Option.bind_some]
      exact .some ⟨hvalid, hlinks⟩

end Document

end VhomeBridge.Link
