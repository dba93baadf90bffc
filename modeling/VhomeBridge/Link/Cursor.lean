import VhomeBridge.Link.Shape

/-! The accessors on the tokens of any text that `json_parse_start` accepts.  The tokens are the
nodes of a forest, so the sizes that the accessors count on lead from each part of a token to the
next: a cursor on a token stays on one.  Only the token after a key may lie outside the array. -/

namespace VhomeBridge.Link

open Lib

namespace JparseCtx

variable (ctx : JparseCtx)

def goto (x : Nat) : JparseCtx := { ctx with cur := some x }

/-- The tokens whose parent is `x`. -/
def parts (x : Nat) : List Nat := Forest.childrenOf x (ctx.tokens.map JsmnTok.node) 0

def isType (type : JsmnType) (x : Nat) : Bool := ctx.tokens[x]?.any fun t => t.type == type

def isKey (name : Text) (x : Nat) : Bool := ctx.tokens[x]?.any (ctx.tokenMatchesStr · name)

/-- The first key of that name, if `x` is an object. -/
def findKey (x : Nat) (name : Text) : Option Nat :=
  if ctx.isType .object x then (ctx.parts x).find? (ctx.isKey name) else none

/-- The part at an index, if `x` is an array and the part is of that type. -/
def item (type : JsmnType) (x k : Nat) : Option Nat :=
  if ctx.isType .array x then (ctx.parts x)[k]?.filter (ctx.isType type) else none

/-- Where leaving the token leads. -/
def up (x : Nat) : Nat :=
  match ctx.tokens[x]? with
  | some t => if t.parent < 0 then x else t.parent.toNat
  | none => x

/-- The tokens make a forest, and `x` is one of them. -/
structure On (x : Nat) : Prop where
  shaped : ∃ f, Shaped ctx.tokens f
  lt : x < ctx.tokens.length

variable {ctx} {x : Nat}

/-- Below a token is a forest of its parts. -/
theorem On.kids (h : ctx.On x) :
    ∃ kids : Forest, (∃ t, ctx.tokens[x]? = some t ∧ t.size = kids.length) ∧
      Slice (ctx.tokens.map JsmnTok.node) (x + 1) (kids.links x (x + 1)) ∧
      ctx.parts x = kids.roots (x + 1) := by
  obtain ⟨⟨f, h⟩, hx⟩ := h
  have hlength : ctx.tokens.length = f.count := by
    rw [← f.length_links (-1) 0, ← h.links, List.length_map]
  obtain ⟨kids, p, hnode, hslice, -, hroots⟩ := f.exists_kids (-1) 0 (i := x)
    (by omega) (by omega) (by omega)
  rw [Nat.sub_zero, ← h.links] at hnode hslice
  rw [← h.links] at hroots
  rw [List.getElem?_map, Option.map_eq_some_iff] at hnode
  obtain ⟨t, ht, hnode⟩ := hnode
  exact ⟨kids, ⟨t, ht, congrArg ForestNode.arity hnode⟩, hslice, hroots⟩

theorem skip_kids {kids : Forest} {fuel i cur : Nat} {parent : Int}
    (h : Slice (ctx.tokens.map JsmnTok.node) (cur + 1) (kids.links parent (cur + 1)))
    (hfuel : kids.count ≤ fuel) :
    forRange (fun _ cur => ctx.jsonSkipElem fuel (cur + 1)) kids.length i cur =
      some (cur + kids.count) := by
  induction kids generalizing fuel i cur parent with
  | nil => rfl
  | cons kids rest hkids hrest =>
    unfold Forest.count at hfuel
    unfold Forest.links at h
    obtain ⟨fuel, rfl⟩ : ∃ n, fuel = n + 1 := ⟨fuel - 1, by omega⟩
    obtain ⟨t, ht, hnode⟩ := Option.map_eq_some_iff.mp (List.getElem?_map .. ▸ h.head)
    have hsize : t.size = kids.length := congrArg ForestNode.arity hnode
    have hskip : ctx.jsonSkipElem (fuel + 1) (cur + 1) = some (cur + 1 + kids.count) := by
      unfold jsonSkipElem
      simp only [ht, hsize, Bind.bind, Option.bind_some]
      exact hkids h.tail.left (by omega)
    have hafter := h.tail.right
    rw [Forest.length_links, show cur + 1 + 1 + kids.count = cur + 1 + kids.count + 1 by omega]
      at hafter
    rw [Forest.length, forRange, hskip, Option.bind_some, hrest hafter (by omega), Forest.count]
    congr 1
    omega

theorem skip_tree {kids rest : Forest} {fuel cur : Nat} {parent : Int}
    (h : Slice (ctx.tokens.map JsmnTok.node) cur ((Forest.cons kids rest).links parent cur))
    (hfuel : kids.count < fuel) : ctx.jsonSkipElem fuel cur = some (cur + kids.count) := by
  obtain ⟨fuel, rfl⟩ : ∃ n, fuel = n + 1 := ⟨fuel - 1, by omega⟩
  obtain ⟨t, ht, hnode⟩ := Option.map_eq_some_iff.mp (List.getElem?_map .. ▸ h.head)
  have hsize : t.size = kids.length := congrArg ForestNode.arity hnode
  unfold jsonSkipElem
  simp only [ht, hsize, Bind.bind, Option.bind_some]
  exact skip_kids h.tail.left (by omega)

/-- The trees after the first one. -/
theorem slice_rest {kids rest : Forest} {cur : Nat} {parent : Int}
    (h : Slice (ctx.tokens.map JsmnTok.node) cur ((Forest.cons kids rest).links parent cur)) :
    Slice (ctx.tokens.map JsmnTok.node) (cur + kids.count + 1)
      (rest.links parent (cur + kids.count + 1)) := by
  have hafter := h.tail.right
  rwa [Forest.length_links, Nat.add_right_comm] at hafter

theorem search_kids {kids : Forest} {name : Text} {tok : Nat} {parent : Int}
    (h : Slice (ctx.tokens.map JsmnTok.node) (tok + 1) (kids.links parent (tok + 1))) :
    ctx.searchKeys name kids.length tok = some ((kids.roots (tok + 1)).find? (ctx.isKey name)) := by
  induction kids generalizing tok with
  | nil => rfl
  | cons kids rest _ hrest =>
    obtain ⟨t, ht, -⟩ := Option.map_eq_some_iff.mp (List.getElem?_map .. ▸ h.head)
    have hkey : ctx.isKey name (tok + 1) = ctx.tokenMatchesStr t name := by simp [isKey, ht]
    have hfuel : kids.count < ctx.tokens.length := by
      have := h.length_le (by simp [Forest.links])
      simp only [Forest.length_links, List.length_map, Forest.count] at this
      omega
    rw [Forest.length, searchKeys, Forest.roots, List.find?_cons, hkey]
    simp only [ht, Bind.bind, Option.bind_some, skip_tree h hfuel]
    cases ctx.tokenMatchesStr t name with
    | true => rfl
    | false =>
      simp only [Bool.false_eq_true, if_false]
      rw [hrest (slice_rest h), Nat.add_right_comm (tok + 1) 1 kids.count]

/-- A part by its index, counted from the first one. -/
theorem nth_kids {kids : Forest} {k j base : Nat} {parent : Int} (hk : k < kids.length)
    (h : Slice (ctx.tokens.map JsmnTok.node) base (kids.links parent base)) :
    forRange (fun _ tok => do
      let tok ← ctx.jsonSkipElem ctx.tokens.length tok
      return tok + 1) k j base = (kids.roots base)[k]? := by
  induction kids generalizing k j base with
  | nil => simp [Forest.length] at hk
  | cons kids rest _ hrest =>
    cases k with
    | zero => rfl
    | succ k =>
      have hfuel : kids.count < ctx.tokens.length := by
        have := h.length_le (by simp [Forest.links])
        simp only [Forest.length_links, List.length_map, Forest.count] at this
        omega
      unfold Forest.length at hk
      simp only [forRange, skip_tree h hfuel, Bind.bind, Option.bind_some, pure]
      rw [Forest.roots, List.getElem?_cons_succ, Nat.add_right_comm base 1 kids.count]
      exact hrest (by omega) (slice_rest h)

theorem On.objSearch (h : ctx.On x) (name : Text) :
    (ctx.goto x).jsonObjSearch name = some (ctx.findKey x name) := by
  obtain ⟨kids, ⟨t, ht, hsize⟩, hslice, hparts⟩ := h.kids
  have hkeys : (ctx.goto x).searchKeys name kids.length x =
      some ((kids.roots (x + 1)).find? (ctx.isKey name)) := search_kids hslice
  have hobject : ctx.isType .object x = (t.type == .object) := by simp [isType, ht]
  have ht : (ctx.goto x).tokens[x]? = some t := ht
  have hcur : (ctx.goto x).cur = some x := rfl
  rw [jsonObjSearch, findKey, hparts, hobject]
  simp only [hcur, ht, Bind.bind, Option.bind_some, hsize, hkeys]
  split
  · rename_i hempty
    have hnil : kids = .nil := by
      cases kids with
      | nil => rfl
      | cons => simp [Forest.length] at hempty
    simp [hnil, Forest.roots]
  · split
    · rename_i hne
      simp [hne]
    · rename_i heq
      simp [not_not.mp heq]

theorem On.arrSearch (h : ctx.On x) (k : Nat) :
    (ctx.goto x).jsonArrSearch k =
      some (if ctx.isType .array x then (ctx.parts x)[k]? else none) := by
  obtain ⟨kids, ⟨t, ht, hsize⟩, hslice, hparts⟩ := h.kids
  have hlength := kids.length_roots (x + 1)
  have harray : ctx.isType .array x = (t.type == .array) := by simp [isType, ht]
  have ht : (ctx.goto x).tokens[x]? = some t := ht
  have hcur : (ctx.goto x).cur = some x := rfl
  rw [jsonArrSearch, hparts, harray]
  simp only [hcur, ht, Bind.bind, Option.bind_some, hsize]
  split
  · rename_i hne
    rcases hne with hne | hempty
    · simp [hne]
    · have hnone : (kids.roots (x + 1))[k]? = none := List.getElem?_eq_none (by omega)
      simp [hnone]
  · rename_i heq
    rw [not_or, not_not] at heq
    split
    · have hnone : (kids.roots (x + 1))[k]? = none := List.getElem?_eq_none (by omega)
      simp [hnone]
    · have hk : k < kids.length := by omega
      have hslice : Slice ((ctx.goto x).tokens.map JsmnTok.node) (x + 1) _ := hslice
      have hnth := nth_kids (j := 0) hk hslice
      have hsome := List.getElem?_eq_getElem (hlength ▸ hk)
      simp only [Bind.bind] at hnth
      rw [hnth, hsome, heq.1]
      rfl

theorem mem_parts {y : Nat} :
    y ∈ ctx.parts x ↔ ∃ t, ctx.tokens[y]? = some t ∧ t.parent = x := by
  simp only [parts, Forest.mem_childrenOf, Nat.zero_le, Nat.sub_zero, true_and,
    List.getElem?_map, Option.map_eq_some_iff]
  constructor
  · rintro ⟨_, ⟨t, ht, rfl⟩, hparent⟩
    exact ⟨t, ht, hparent⟩
  · rintro ⟨t, ht, hparent⟩
    exact ⟨t.node, ⟨t, ht, rfl⟩, hparent⟩

theorem On.part {y : Nat} (h : ctx.On x) (hy : y ∈ ctx.parts x) : ctx.On y := by
  obtain ⟨t, ht, -⟩ := mem_parts.mp hy
  exact ⟨h.shaped, (List.getElem?_eq_some_iff.mp ht).1⟩

theorem isType_iff {type : JsmnType} :
    ctx.isType type x = true ↔ ∃ t, ctx.tokens[x]? = some t ∧ t.type = type := by
  unfold isType
  cases ctx.tokens[x]? with
  | none => simp
  | some t => simp

theorem item_eq_some {type : JsmnType} {k y : Nat} :
    ctx.item type x k = some y ↔
      ctx.isType .array x = true ∧ (ctx.parts x)[k]? = some y ∧ ctx.isType type y = true := by
  unfold item
  split
  · rename_i harray
    simp [harray, Option.filter_eq_some_iff]
  · rename_i harray
    simp [harray]

theorem mem_parts_of_item {type : JsmnType} {k y : Nat} (h : ctx.item type x k = some y) :
    y ∈ ctx.parts x :=
  List.mem_of_getElem? (item_eq_some.mp h).2.1

theorem On.size_eq (h : ctx.On x) {t : JsmnTok} (ht : ctx.tokens[x]? = some t) :
    t.size = (ctx.parts x).length := by
  obtain ⟨kids, ⟨t', ht', hsize⟩, -, hparts⟩ := h.kids
  obtain rfl : t = t' := Option.some.inj (ht.symm.trans ht')
  rw [hparts, Forest.length_roots, hsize]

/-! ### The accessors of a configuration -/

namespace On

theorem arrGetValTok (h : ctx.On x) (k : Nat) (type : JsmnType) :
    (ctx.goto x).jsonArrGetValTok k type =
      some ((ctx.item type x k).bind fun y => ctx.tokens[y]?.map fun t => (y, t)) := by
  rw [jsonArrGetValTok, h.arrSearch, item]
  cases harray : ctx.isType .array x with
  | false => rfl
  | true =>
    cases hy : (ctx.parts x)[k]? with
    | none => rfl
    | some y =>
      obtain ⟨t, ht, -⟩ := mem_parts.mp (List.mem_of_getElem? hy)
      have ht' : (ctx.goto x).tokens[y]? = some t := ht
      have htype : ctx.isType type y = (t.type == type) := by simp [isType, ht]
      simp only [if_true, Bind.bind, Option.bind_some, ht', Option.filter_some, htype, beq_iff_eq]
      split
      · rfl
      · rename_i heq
        rw [if_pos (not_not.mp heq), Option.bind_some, ht]
        rfl

theorem arrGetObject (h : ctx.On x) (k : Nat) :
    (ctx.goto x).jsonArrGetObject k = some ((ctx.item .object x k).map ctx.goto) := by
  rw [jsonArrGetObject, h.arrGetValTok]
  cases hy : ctx.item .object x k with
  | none => rfl
  | some y =>
    obtain ⟨t, ht, -⟩ := mem_parts.mp (mem_parts_of_item hy)
    simp only [Option.bind_some, ht]
    rfl

theorem arrGetArray (h : ctx.On x) (k : Nat) : (ctx.goto x).jsonArrGetArray k =
    some ((ctx.item .array x k).map fun y => (ctx.goto y, (ctx.parts y).length)) := by
  rw [jsonArrGetArray, h.arrGetValTok]
  cases hy : ctx.item .array x k with
  | none => rfl
  | some y =>
    have hmem := mem_parts_of_item hy
    obtain ⟨t, ht, -⟩ := mem_parts.mp hmem
    rw [Option.map_some, ← (h.part hmem).size_eq ht, Option.bind_some, ht]
    rfl

theorem objGetValTok_none (h : ctx.On x) {name : Text} (hkey : ctx.findKey x name = none)
    (type : JsmnType) : (ctx.goto x).jsonObjGetValTok name type = some none := by
  rw [jsonObjGetValTok, h.objSearch, hkey]
  rfl

theorem objGetValTok_some (h : ctx.On x) {name : Text} {i : Nat}
    (hkey : ctx.findKey x name = some i) (type : JsmnType) :
    (ctx.goto x).jsonObjGetValTok name type =
      ctx.tokens[i + 1]?.map fun t => if t.type ≠ type then none else some (i + 1, t) := by
  rw [jsonObjGetValTok, h.objSearch, hkey, Option.map_eq_bind]
  rfl

theorem objGetArray_none (h : ctx.On x) {name : Text} (hkey : ctx.findKey x name = none) :
    (ctx.goto x).jsonObjGetArray name = some none := by
  rw [jsonObjGetArray, h.objGetValTok_none hkey]
  rfl

theorem objGetArray_some (h : ctx.On x) {name : Text} {i : Nat}
    (hkey : ctx.findKey x name = some i) : (ctx.goto x).jsonObjGetArray name =
      if i + 1 < ctx.tokens.length then
        some (if ctx.isType .array (i + 1) then
          some (ctx.goto (i + 1), (ctx.parts (i + 1)).length) else none)
      else none := by
  rw [jsonObjGetArray, h.objGetValTok_some hkey]
  cases ht : ctx.tokens[i + 1]? with
  | none =>
    have := List.getElem?_eq_none_iff.mp ht
    rw [if_neg (by omega)]
    rfl
  | some t =>
    have hlt := (List.getElem?_eq_some_iff.mp ht).1
    have hnext : ctx.On (i + 1) := ⟨h.shaped, hlt⟩
    have htype : ctx.isType .array (i + 1) = (t.type == .array) := by simp [isType, ht]
    rw [if_pos hlt, htype, ← hnext.size_eq ht, Option.map_some]
    by_cases harray : t.type = .array
    · simp only [harray]
      rfl
    · simp only [harray, ne_eq, not_false_eq_true, if_true, beq_iff_eq, if_false]
      rfl

theorem leave (h : ctx.On x) : (ctx.goto x).jsonArrLeave = some (ctx.goto (ctx.up x)) := by
  obtain ⟨t, ht⟩ : ∃ t, ctx.tokens[x]? = some t := ⟨_, List.getElem?_eq_getElem h.lt⟩
  have ht' : (ctx.goto x).tokens[x]? = some t := ht
  have hcur : (ctx.goto x).cur = some x := rfl
  rw [jsonArrLeave, JparseCtx.up]
  simp only [hcur, ht, ht', Bind.bind, Option.bind_some]
  split <;> rfl

/-- The parent of a token is before it. -/
theorem parent_lt {y : Nat} (h : ctx.On y) (hy : y ∈ ctx.parts x) : x < y := by
  obtain ⟨⟨f, h⟩, -⟩ := h
  obtain ⟨t, ht, hparent⟩ := mem_parts.mp hy
  have := h.parent_lt ht
  omega

theorem up (h : ctx.On x) : ctx.On (ctx.up x) := by
  refine ⟨h.shaped, ?_⟩
  have hlt := h.lt
  obtain ⟨⟨f, h⟩, -⟩ := h
  obtain ⟨t, ht⟩ : ∃ t, ctx.tokens[x]? = some t := ⟨_, List.getElem?_eq_getElem hlt⟩
  have hparent := h.parent_lt ht
  rw [JparseCtx.up, ht]
  dsimp only
  split <;> omega

theorem leaveArray_isSome (h : ctx.On x) : ((ctx.goto x).jsonObjLeaveArray).isSome := by
  obtain ⟨t, ht⟩ : ∃ t, ctx.tokens[x]? = some t := ⟨_, List.getElem?_eq_getElem h.lt⟩
  have ht' : (ctx.goto x).tokens[x]? = some t := ht
  have hcur : (ctx.goto x).cur = some x := rfl
  unfold jsonObjLeaveArray
  simp only [hcur, ht', Bind.bind, Option.bind_some]
  split
  · rfl
  · rename_i hparent
    have hup : ctx.up x = t.parent.toNat := by
      rw [JparseCtx.up, ht]
      exact if_neg hparent
    obtain ⟨key, hkey⟩ : ∃ key, ctx.tokens[t.parent.toNat]? = some key :=
      ⟨_, List.getElem?_eq_getElem (hup ▸ h.up.lt)⟩
    have hkey' : (ctx.goto x).tokens[t.parent.toNat]? = some key := hkey
    simp only [hkey', Option.bind_some]
    split <;> rfl

end On

theorem up_of_mem {y : Nat} (h : y ∈ ctx.parts x) : ctx.up y = x := by
  obtain ⟨t, ht, hparent⟩ := mem_parts.mp h
  rw [up, ht]
  dsimp only
  rw [hparent]
  exact if_neg (by omega)

end JparseCtx

end VhomeBridge.Link
