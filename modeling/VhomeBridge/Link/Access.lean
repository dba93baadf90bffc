import VhomeBridge.Lib.Slice
import VhomeBridge.Link.JsonParser
import VhomeBridge.Link.Tokenize

/-! The accessors on the tokens of a tree.  `Json.At` places a value in a context: its text at a
position and its tokens from an index on.  Skipping an element moves by the number of its tokens, a
search by name finds the first member with that name, and a search by index the item. -/

namespace VhomeBridge.Link

open Lib

variable {ctx : JparseCtx} {pos base : Nat} {parent : Int}

/-- A value with its text at `pos` and its tokens from `base` on. -/
structure Json.At (v : Json) (ctx : JparseCtx) (pos : Nat) (parent : Int) (base : Nat) : Prop where
  text : Slice ctx.js pos v.text
  toks : Slice ctx.tokens base (v.toks pos parent base)

structure Items.At (items : Items) (ctx : JparseCtx) (pos : Nat) (parent : Int) (base : Nat) :
    Prop where
  text : Slice ctx.js pos items.text
  toks : Slice ctx.tokens base (items.toks pos parent base)

structure Members.At (members : Members) (ctx : JparseCtx) (pos : Nat) (parent : Int) (base : Nat) :
    Prop where
  text : Slice ctx.js pos members.text
  toks : Slice ctx.tokens base (members.toks pos parent base)

/-- A key with its text at `pos` and its token at `base`, followed by the token of its value. -/
structure Body.At (s : Body) (ctx : JparseCtx) (pos : Nat) (parent : Int) (base : Nat) : Prop where
  text : Slice ctx.js pos s.text
  tok : ctx.tokens[base]? = some (s.tok pos 1 parent)

def Json.tok : Json → (pos : Nat) → (parent : Int) → JsmnTok
  | .prim p, pos, parent => ⟨.primitive, pos, pos + p.1.length, 0, parent⟩
  | .str s, pos, parent => s.tok pos 0 parent
  | .arr items, pos, parent =>
    ⟨.array, pos, pos + items.text.length + 2, items.values.length, parent⟩
  | .obj members, pos, parent =>
    ⟨.object, pos, pos + members.text.length + 2, members.entries.length, parent⟩

theorem Json.toks_eq_cons (v : Json) (pos : Nat) (parent : Int) (base : Nat) :
    ∃ rest, v.toks pos parent base = v.tok pos parent :: rest := by
  cases v with
  | prim => exact ⟨_, rfl⟩
  | str => exact ⟨_, rfl⟩
  | arr => exact ⟨_, rfl⟩
  | obj => exact ⟨_, rfl⟩

theorem Json.count_pos (v : Json) : 0 < v.count := by
  cases v <;> simp [Json.count]

@[simp] theorem Json.parent_tok (v : Json) : (v.tok pos parent).parent = parent := by
  cases v <;> rfl

namespace Json.At

variable {v : Json}

theorem head (h : v.At ctx pos parent base) : ctx.tokens[base]? = some (v.tok pos parent) := by
  obtain ⟨rest, hrest⟩ := v.toks_eq_cons pos parent base
  exact (hrest ▸ h.toks).head

theorem items {items : Items} (h : (Json.arr items).At ctx pos parent base) :
    items.At ctx (pos + 1) base (base + 1) where
  text := h.text.tail.left
  toks := h.toks.tail

theorem members {members : Members}
    (h : (Json.obj members).At ctx pos parent base) :
    members.At ctx (pos + 1) base (base + 1) where
  text := h.text.tail.left
  toks := h.toks.tail

theorem base_lt (h : v.At ctx pos parent base) : base + v.count ≤ ctx.tokens.length := by
  have hne : v.toks pos parent base ≠ [] := by
    obtain ⟨rest, hrest⟩ := v.toks_eq_cons pos parent base
    simp [hrest]
  simpa using h.toks.length_le hne

end Json.At

section Parts

variable {before colon between after : Blank} {k : Body} {v : Json}

theorem Items.At.value {rest : Items}
    (h : (Items.cons before v after rest).At ctx pos parent base) :
    v.At ctx (pos + before.1.length) parent base where
  text := h.text.right.left
  toks := h.toks.left

theorem Items.At.rest {rest : Items}
    (h : (Items.cons before v after rest).At ctx pos parent base) :
    rest.At ctx (pos + before.1.length + v.text.length + after.1.length + rest.comma.length)
      parent (base + v.count) where
  text := h.text.right.right.right.right
  toks := by simpa using h.toks.right

theorem Members.At.key {rest : Members}
    (h : (Members.cons before k colon between v after rest).At ctx pos parent base) :
    k.At ctx (pos + before.1.length) parent base where
  text := h.text.right.left
  tok := h.toks.head

theorem Members.At.value {rest : Members}
    (h : (Members.cons before k colon between v after rest).At ctx pos parent base) :
    v.At ctx
      (pos + before.1.length + k.text.length + colon.1.length + 1 + between.1.length) base
      (base + 1) where
  text := h.text.right.right.right.tail.right.left
  toks := h.toks.tail.left

theorem Members.At.rest {rest : Members}
    (h : (Members.cons before k colon between v after rest).At ctx pos parent base) :
    rest.At ctx
      (pos + before.1.length + k.text.length + colon.1.length + 1 + between.1.length +
        v.text.length + after.1.length + rest.comma.length)
      parent (base + 1 + v.count) where
  text := h.text.right.right.right.tail.right.right.right.right
  toks := by simpa using h.toks.tail.right

end Parts

/-! ### Skipping -/

theorem Body.At.skip {k : Body} {fuel last : Nat} (h : k.At ctx pos parent base)
    (hvalue : ctx.jsonSkipElem fuel (base + 1) = some last) :
    ctx.jsonSkipElem (fuel + 1) base = some last := by
  simp only [JparseCtx.jsonSkipElem, h.tok, Body.tok, Bind.bind, Option.bind_some, forRange, hvalue]

mutual

theorem Json.At.skip {pos base : Nat} {parent : Int} {v : Json} {fuel : Nat}
    (h : v.At ctx pos parent base) (hfuel : v.count ≤ fuel) :
    ctx.jsonSkipElem fuel base = some (base + v.count - 1) := by
  have := v.count_pos
  obtain ⟨fuel, rfl⟩ : ∃ f, fuel = f + 1 := ⟨fuel - 1, by omega⟩
  cases v with
  | prim p => simp [JparseCtx.jsonSkipElem, h.head, Json.tok, forRange, Json.count]
  | str s => simp [JparseCtx.jsonSkipElem, h.head, Json.tok, Body.tok, forRange, Json.count]
  | arr items =>
    simp only [Json.count] at hfuel
    simp only [JparseCtx.jsonSkipElem, h.head, Json.tok, Bind.bind, Option.bind_some,
      h.items.skip (Nat.le_of_succ_le_succ hfuel), Json.count]
    simp
  | obj members =>
    simp only [Json.count] at hfuel
    simp only [JparseCtx.jsonSkipElem, h.head, Json.tok, Bind.bind, Option.bind_some,
      h.members.skip (Nat.le_of_succ_le_succ hfuel), Json.count]
    simp

theorem Items.At.skip {pos cur : Nat} {parent : Int} {items : Items} {fuel i : Nat}
    (h : items.At ctx pos parent (cur + 1)) (hfuel : items.count ≤ fuel) :
    forRange (fun _ cur => ctx.jsonSkipElem fuel (cur + 1)) items.values.length i cur =
      some (cur + items.count) := by
  cases items with
  | nil => rfl
  | cons before v after rest =>
    simp only [Items.count] at hfuel ⊢
    have hv := h.value.skip (Nat.le_of_add_right_le hfuel)
    have hrest := h.rest
    rw [show cur + 1 + v.count = cur + v.count + 1 by omega] at hv hrest
    simp only [Nat.add_sub_cancel] at hv
    simp only [Items.values, List.length_cons, forRange, hv, Option.bind_some,
      hrest.skip (Nat.le_of_add_left_le hfuel), Nat.add_assoc]

theorem Members.At.skip {pos cur : Nat} {parent : Int} {members : Members} {fuel i : Nat}
    (h : members.At ctx pos parent (cur + 1)) (hfuel : members.count ≤ fuel) :
    forRange (fun _ cur => ctx.jsonSkipElem fuel (cur + 1)) members.entries.length i cur =
      some (cur + members.count) := by
  cases members with
  | nil => rfl
  | cons before k colon between v after rest =>
    simp only [Members.count] at hfuel ⊢
    obtain ⟨fuel, rfl⟩ : ∃ f, fuel = f + 1 := ⟨fuel - 1, by omega⟩
    have hfuel' : v.count ≤ fuel := by omega
    have hk := h.key.skip (h.value.skip hfuel')
    have hrest := h.rest
    rw [show cur + 1 + 1 + v.count = cur + 1 + v.count + 1 by omega] at hk hrest
    simp only [Nat.add_sub_cancel] at hk
    simp only [Members.entries, List.length_cons, forRange, hk, Option.bind_some,
      hrest.skip (Nat.le_of_add_left_le hfuel)]
    congr 1
    omega

end

/-! ### Searching -/

theorem Body.At.matches {k : Body} (h : k.At ctx pos parent base) (str : Text) :
    ctx.tokenMatchesStr (k.tok pos 1 parent) str = (str == k.1) := by
  have hslice : (ctx.js.drop (pos + 1)).take k.1.length = k.1 := h.text.tail.left.take
  have hstart : ((pos : Int) + 1).toNat = pos + 1 := by omega
  have hlen : (pos : Int) + 1 + k.1.length - ((pos : Int) + 1) = k.1.length := by omega
  rw [Bool.eq_iff_iff]
  simp only [JparseCtx.tokenMatchesStr, Body.tok, hstart, hlen, Bool.and_eq_true, beq_iff_eq]
  constructor
  · rintro ⟨htake, hlength⟩
    have hlength : str.length = k.1.length := by omega
    rw [← htake, hlength, hslice]
  · rintro rfl
    exact ⟨hslice, rfl⟩

/-- One turn of the search: the first key matches, or the search goes on after its value. -/
theorem Members.At.search_cons {tok : Nat} {key : Text} {before colon between after : Blank}
    {k : Body} {v : Json} {rest : Members}
    (h : (Members.cons before k colon between v after rest).At ctx pos parent (tok + 1)) :
    ctx.searchKeys key (rest.entries.length + 1) tok =
      if key == k.1 then some (some (tok + 1))
      else ctx.searchKeys key rest.entries.length (tok + 1 + v.count) := by
  have hle := h.value.base_lt
  have hfuel : v.count ≤ ctx.tokens.length - 1 := by omega
  have hskip := h.key.skip (h.value.skip hfuel)
  rw [Nat.sub_add_cancel (by omega)] at hskip
  simp only [JparseCtx.searchKeys, h.key.tok, Bind.bind, Option.bind_some, h.key.matches, hskip]
  split
  · rfl
  · congr 1
    omega

theorem Members.At.search_none {pos tok : Nat} {parent : Int} {key : Text} {members : Members}
    (h : members.At ctx pos parent (tok + 1)) (hnone : members.entries.lookup key = none) :
    ctx.searchKeys key members.entries.length tok = some none := by
  cases members with
  | nil => rfl
  | cons before k colon between v after rest =>
    rw [Members.entries, List.lookup_cons] at hnone
    rw [Members.entries, List.length_cons, h.search_cons]
    split at hnone
    · contradiction
    · rename_i hne
      have hrest := h.rest
      rw [show tok + 1 + 1 + v.count = tok + 1 + v.count + 1 by omega] at hrest
      simp [hne, hrest.search_none hnone]

theorem Members.At.search_some {pos tok : Nat} {parent : Int} {key : Text} {members : Members}
    {v : Json} (h : members.At ctx pos parent (tok + 1))
    (hsome : members.entries.lookup key = some v) :
    ∃ (i : Nat) (k : Body) (pos pos' : Nat),
      ctx.searchKeys key members.entries.length tok = some (some i) ∧
        k.At ctx pos parent i ∧ v.At ctx pos' i (i + 1) := by
  cases members with
  | nil => contradiction
  | cons before k colon between v' after rest =>
    rw [Members.entries, List.lookup_cons] at hsome
    rw [Members.entries, List.length_cons, h.search_cons]
    split at hsome
    · rename_i heq
      obtain rfl : v' = v := by simpa using hsome
      exact ⟨tok + 1, k, _, _, by simp [heq], h.key, h.value⟩
    · rename_i hne
      have hrest := h.rest
      rw [show tok + 1 + 1 + v'.count = tok + 1 + v'.count + 1 by omega] at hrest
      simpa [hne] using hrest.search_some hsome

theorem Items.At.nth {pos base k j : Nat} {parent : Int} {items : Items} {v : Json}
    (h : items.At ctx pos parent base) (hv : items.values[k]? = some v) :
    ∃ pos' i, v.At ctx pos' parent i ∧
      forRange (fun _ tok => do
        let tok ← ctx.jsonSkipElem ctx.tokens.length tok
        return tok + 1) k j base = some i := by
  cases items with
  | nil => simp [Items.values] at hv
  | cons before v' after rest =>
    cases k with
    | zero =>
      obtain rfl : v' = v := by simpa [Items.values] using hv
      exact ⟨_, base, h.value, rfl⟩
    | succ k =>
      have hcount : v'.count ≤ ctx.tokens.length := by
        have := h.value.base_lt
        omega
      have hpos := v'.count_pos
      obtain ⟨pos', i, hat, hrun⟩ := h.rest.nth (j := j + 1) (by simpa [Items.values] using hv)
      refine ⟨pos', i, hat, ?_⟩
      rw [forRange, h.value.skip hcount]
      simp only [Bind.bind, Option.bind_some, pure,
        show base + v'.count - 1 + 1 = base + v'.count by omega]
      exact hrun

/-! ### Objects -/

def Json.type : Json → JsmnType
  | .prim _ => .primitive
  | .str _ => .string
  | .arr _ => .array
  | .obj _ => .object

@[simp] theorem Json.type_tok (v : Json) : (v.tok pos parent).type = v.type := by
  cases v <;> rfl

section Object

variable {c : Nat} {members : Members} {name : Text}

theorem Json.At.obj_search (h : (Json.obj members).At ctx pos parent c) (hcur : ctx.cur = some c) :
    ctx.jsonObjSearch name = ctx.searchKeys name members.entries.length c := by
  simp only [JparseCtx.jsonObjSearch, hcur, h.head, Bind.bind, Option.bind_some, Json.tok, pure]
  split
  · rename_i hempty
    rw [hempty]
    rfl
  · rfl

theorem Json.At.obj_get_none {type : JsmnType} (h : (Json.obj members).At ctx pos parent c)
    (hcur : ctx.cur = some c) (hnone : members.entries.lookup name = none) :
    ctx.jsonObjGetValTok name type = some none := by
  simp only [JparseCtx.jsonObjGetValTok, h.obj_search hcur, h.members.search_none hnone, Bind.bind,
    Option.bind_some, pure]

theorem Json.At.obj_get_some {v : Json} (h : (Json.obj members).At ctx pos parent c)
    (hcur : ctx.cur = some c) (hsome : members.entries.lookup name = some v) :
    ∃ (i : Nat) (k : Body) (pos pos' : Nat), k.At ctx pos c i ∧ v.At ctx pos' i (i + 1) ∧
      ∀ type, ctx.jsonObjGetValTok name type =
        some (if v.type ≠ type then none else some (i + 1, v.tok pos' i)) := by
  obtain ⟨i, k, pos, pos', hsearch, hk, hv⟩ := h.members.search_some hsome
  refine ⟨i, k, pos, pos', hk, hv, fun type => ?_⟩
  simp only [JparseCtx.jsonObjGetValTok, h.obj_search hcur, hsearch, hv.head, Bind.bind,
    Option.bind_some, pure, Json.type_tok]

/-- The string that a member has, if it fits a buffer of `size` bytes. -/
def Members.string (members : Members) (name : Text) (size : Nat) : Option Text :=
  match members.entries.lookup name with
  | some (.str s) => if s.1.length < size then some s.1 else none
  | _ => none

theorem Json.At.obj_get_string (h : (Json.obj members).At ctx pos parent c)
    (hcur : ctx.cur = some c) (size : Nat) :
    ctx.jsonObjGetString name size = some (members.string name size) := by
  rw [JparseCtx.jsonObjGetString, Members.string]
  cases hlookup : members.entries.lookup name with
  | none => simp [h.obj_get_none hcur hlookup]
  | some v =>
    obtain ⟨i, k, _, pos', -, hv, hget⟩ := h.obj_get_some hcur hlookup
    rw [hget]
    cases v with
    | str s =>
      have htake : (ctx.js.drop (pos' + 1)).take s.1.length = s.1 := hv.text.tail.left.take
      have hstart : ((pos' : Int) + 1).toNat = pos' + 1 := by omega
      have hlen : (pos' : Int) + 1 + s.1.length - ((pos' : Int) + 1) = s.1.length := by omega
      simp only [Json.type, ne_eq, not_true_eq_false, if_false, Bind.bind, Option.bind_some, pure,
        JparseCtx.jsonTokToString, Json.tok, Body.tok, hlen, hstart, Int.toNat_natCast, htake]
      congr 1
      by_cases hfit : s.1.length < size
      · rw [if_pos hfit, if_neg (by omega)]
      · rw [if_neg hfit, if_pos (by omega)]
    | prim => simp [Json.type]
    | arr => simp [Json.type]
    | obj => simp [Json.type]

end Object

/-! ### Arrays -/

/-- The items under the cursor `c`: those of an array, and none of a token of another type. -/
def Kids (ctx : JparseCtx) (c : Nat) (kids : List Json) : Prop :=
  (∃ pos parent items, (Json.arr items).At ctx pos parent c ∧ kids = items.values) ∨
    ∃ t, ctx.tokens[c]? = some t ∧ t.type ≠ .array ∧ kids = []

section Array

variable {c k : Nat} {kids : List Json} {type : JsmnType}

theorem Kids.get_none (h : Kids ctx c kids) (hcur : ctx.cur = some c) (hnone : kids[k]? = none) :
    ctx.jsonArrGetValTok k type = some none := by
  have hsearch : ctx.jsonArrSearch k = some none := by
    rcases h with ⟨pos, parent, items, hat, rfl⟩ | ⟨t, ht, htype, -⟩
    · have := List.getElem?_eq_none_iff.mp hnone
      simp only [JparseCtx.jsonArrSearch, hcur, hat.head, Bind.bind, Option.bind_some, Json.tok,
        pure]
      split
      · rfl
      · rw [if_pos (by omega)]
    · simp [JparseCtx.jsonArrSearch, hcur, ht, htype]
  simp [JparseCtx.jsonArrGetValTok, hsearch]

theorem Kids.get_some {v : Json} (h : Kids ctx c kids) (hcur : ctx.cur = some c)
    (hv : kids[k]? = some v) :
    ∃ pos i, v.At ctx pos c i ∧ ∀ type, ctx.jsonArrGetValTok k type =
      some (if v.type ≠ type then none else some (i, v.tok pos c)) := by
  rcases h with ⟨pos, parent, items, hat, rfl⟩ | ⟨t, ht, htype, rfl⟩
  · have hlt := (List.getElem?_eq_some_iff.mp hv).1
    obtain ⟨pos', i, hat', hrun⟩ := hat.items.nth (j := 0) hv
    refine ⟨pos', i, hat', fun type => ?_⟩
    have hsearch : ctx.jsonArrSearch k = some (some i) := by
      have hne : ¬(JsmnType.array ≠ JsmnType.array ∨ items.values.length = 0) := by
        simp
        rintro h
        simp [h] at hlt
      simp only [JparseCtx.jsonArrSearch, hcur, hat.head, Bind.bind, Option.bind_some, Json.tok,
        hne, if_false, show ¬k > items.values.length - 1 by omega, pure]
      simp only [Bind.bind, pure] at hrun
      rw [hrun]
      rfl
    simp only [JparseCtx.jsonArrGetValTok, hsearch, Bind.bind, Option.bind_some, hat'.head, pure,
      Json.type_tok]
  · simp at hv

end Array

end VhomeBridge.Link
