import VhomeBridge.Lib.Forest
import VhomeBridge.Link.JsonParser
import VhomeBridge.Link.Tokenize

/-! The tokenizer on any text.  Whatever the text is, the tokens are the nodes of a forest in
preorder, each with the number of its parts and the index of its parent, and the superior token is
one that can take another part.  So the tokenizer never uses a token outside the pool, and
`json_parse_start` succeeds or fails on every text. -/

namespace VhomeBridge.Link

open Lib

def JsmnTok.node (t : JsmnTok) : ForestNode := ⟨t.size, t.parent⟩

/-- The parts of an object are strings. -/
def StringKeys (tokens : List JsmnTok) : Prop :=
  ∀ (i j : Nat) (o t : JsmnTok), tokens[i]? = some o → o.type = .object → tokens[j]? = some t →
    t.parent = i → t.type = .string

/-- An outcome that is no fault, and keeps `P` if it is no error. -/
def Safe {α : Type} (P : α → Prop) : Except JsmnErr α → Prop
  | .ok a => P a
  | .error e => e ≠ .fault

theorem Safe.bind {α β : Type} {P : α → Prop} {Q : β → Prop} {x : Except JsmnErr α}
    {f : α → Except JsmnErr β} (h : Safe P x) (hf : ∀ a, P a → Safe Q (f a)) :
    Safe Q (x >>= f) := by
  cases x with
  | ok a => exact hf a h
  | error e => exact h

theorem Safe.map {x : Except JsmnErr Nat} (h : Safe (fun _ => True) x) (g : Nat → Nat) :
    Safe (fun _ => True) (x.map g) := by
  cases x with
  | ok => trivial
  | error => exact h

theorem safe_throw {α : Type} {P : α → Prop} {e : JsmnErr} (h : e ≠ .fault) :
    Safe P (throw e) := h

/-- The rest of the block plays no part after an error. -/
theorem safe_throw_bind {α β : Type} {P : β → Prop} {e : JsmnErr} (h : e ≠ .fault)
    (f : α → Except JsmnErr β) : Safe P (throw e >>= f) := h

/-- Tokens that have the types and parents of others. -/
theorem StringKeys.of_map_eq {tokens tokens' : List JsmnTok} (h : StringKeys tokens)
    (heq : tokens'.map (fun t => (t.type, t.parent)) = tokens.map fun t => (t.type, t.parent)) :
    StringKeys tokens' := by
  have hget (i : Nat) (t : JsmnTok) (ht : tokens'[i]? = some t) :
      ∃ u, tokens[i]? = some u ∧ u.type = t.type ∧ u.parent = t.parent := by
    have := congrArg (·[i]?) heq
    simp only [List.getElem?_map, ht, Option.map_some] at this
    obtain ⟨u, hu, hkind⟩ := Option.map_eq_some_iff.mp this.symm
    exact ⟨u, hu, congrArg Prod.fst hkind, congrArg Prod.snd hkind⟩
  intro i j o t ho hobject ht hparent
  obtain ⟨o', ho', hotype, -⟩ := hget i o ho
  obtain ⟨t', ht', httype, htparent⟩ := hget j t ht
  exact httype ▸ h i j o' t' ho' (hotype ▸ hobject) ht' (htparent ▸ hparent)

theorem Super.lt {tokens : List JsmnTok} {p : Int} {ok : JsmnTok → Prop}
    (h : Super tokens p ok) : p < tokens.length := by
  rcases h with rfl | ⟨i, t, rfl, ht, -⟩
  · omega
  · have := (List.getElem?_eq_some_iff.mp ht).1
    omega

theorem map_modify_eq {α : Type} {k : JsmnTok → α} {g : JsmnTok → JsmnTok} (h : ∀ t, k (g t) = k t)
    (tokens : List JsmnTok) (i : Nat) : (tokens.modify i g).map k = tokens.map k := by
  apply List.ext_getElem?
  intro j
  rw [List.getElem?_map, List.getElem?_map, List.getElem?_modify]
  cases tokens[j]? with
  | none => rfl
  | some t => by_cases hj : i = j <;> simp [hj, h]

theorem map_node_modify (tokens : List JsmnTok) (i : Nat) :
    (tokens.modify i fun t => { t with size := t.size + 1 }).map JsmnTok.node =
      (tokens.map JsmnTok.node).modify i ForestNode.grow := by
  apply List.ext_getElem?
  intro j
  rw [List.getElem?_map, List.getElem?_modify, List.getElem?_modify, List.getElem?_map]
  cases tokens[j]? with
  | none => rfl
  | some t => by_cases hj : i = j <;> simp [hj, JsmnTok.node, ForestNode.grow]

theorem getElem?_concat {tokens : List JsmnTok} {t u : JsmnTok} {i : Nat}
    (h : (tokens ++ [t])[i]? = some u) : tokens[i]? = some u ∨ t = u := by
  rw [List.getElem?_append] at h
  split at h
  · exact .inl h
  · rw [List.getElem?_singleton] at h
    split at h
    · exact .inr (Option.some.inj h)
    · contradiction

/-- A token more, whose parent is before it, as that of each other token is. -/
theorem StringKeys.append {tokens : List JsmnTok} {t : JsmnTok} (h : StringKeys tokens)
    (hparents : ∀ u ∈ tokens, u.parent < tokens.length) (hparent : t.parent < tokens.length)
    (hkey : ∀ (i : Nat) (o : JsmnTok), t.parent = i → tokens[i]? = some o →
      o.type = .object → t.type = .string) : StringKeys (tokens ++ [t]) := by
  intro i j o u ho hobject hu hi
  have hlt : i < tokens.length := by
    rcases getElem?_concat hu with hu | rfl
    · have := hparents u (List.mem_of_getElem? hu)
      omega
    · omega
  rw [List.getElem?_append_left hlt] at ho
  rcases getElem?_concat hu with hu | rfl
  · exact h i j o u ho hobject hu hi
  · exact hkey i o hi ho hobject

theorem safe_parsePrimitive (js : Text) : Safe (fun _ => True) (jsmnParsePrimitive js) := by
  induction js with
  | nil => simp [jsmnParsePrimitive, Safe]
  | cons c js ih =>
    unfold jsmnParsePrimitive
    split
    · trivial
    · split
      · simp [Safe]
      · exact ih.map _

theorem safe_parseString (js : Text) (escape : Bool) (hex : Nat) :
    Safe (fun _ => True) (jsmnParseString js escape hex) := by
  fun_induction jsmnParseString js escape hex with
  | case1 => simp [Safe]
  | case2 _ _ _ _ ih => exact ih.map _
  | case3 _ _ _ _ _ ih => exact ih.map _
  | case4 => simp [Safe]
  | case5 _ _ _ _ ih => exact ih.map _
  | case6 => simp [Safe]
  | case7 => trivial
  | case8 _ _ _ _ ih => exact ih.map _
  | case9 _ _ _ _ ih => exact ih.map _

namespace Jsmn

/-- The token pass so far: its tokens make the forest `f`. -/
structure Shaped (s : Jsmn) (f : Forest) : Prop where
  pool : s.pool.isSome
  links : s.tokens.map JsmnTok.node = f.links (-1) 0
  super : s.toksuper = -1 ∨ ∃ i ∈ f.spine 0, s.toksuper = i
  keys : StringKeys s.tokens
  count : s.count = s.tokens.length

def Inv (s : Jsmn) : Prop := ∃ f, s.Shaped f

section

variable {s : Jsmn} {f : Forest} {t : JsmnTok} {i : Nat} {type : JsmnType}

namespace Shaped

theorem length_tokens (h : s.Shaped f) : s.tokens.length = f.count := by
  rw [← f.length_links (-1) 0, ← h.links, List.length_map]

/-- A node of the spine, and its parent, which is on the spine and before it. -/
theorem tok_spine (h : s.Shaped f) (hi : i ∈ f.spine 0) :
    ∃ t, s.tokens[i]? = some t ∧ t.parent < i ∧
      (t.parent = -1 ∨ ∃ j ∈ f.spine 0, t.parent = j) := by
  obtain ⟨n, hn, hparent⟩ := Forest.spine_parent (-1) hi
  rw [Nat.sub_zero, ← h.links, List.getElem?_map, Option.map_eq_some_iff] at hn
  obtain ⟨t, ht, rfl⟩ := hn
  have hnode : t.node.parent = t.parent := rfl
  rcases hparent with hroot | ⟨j, hj, hlt, hparent⟩
  · exact ⟨t, ht, by omega, .inl hroot⟩
  · exact ⟨t, ht, by omega, .inr ⟨j, hj, hparent⟩⟩

theorem superTok (h : s.Shaped f) : Super s.tokens s.toksuper fun _ => True := by
  rcases h.super with hnone | ⟨i, hi, hsuper⟩
  · exact .inl hnone
  · obtain ⟨t, ht, -, -⟩ := h.tok_spine hi
    exact .inr ⟨i, t, hsuper, ht, trivial⟩

theorem parent_lt (h : s.Shaped f) : ∀ t ∈ s.tokens, t.parent < s.tokens.length := by
  intro t ht
  obtain ⟨i, hi⟩ := List.getElem?_of_mem ht
  have hlt := (List.getElem?_eq_some_iff.mp hi).1
  have hn : (f.links (-1) 0)[i]? = some t.node := by
    rw [← h.links, List.getElem?_map, hi, Option.map_some]
  have : t.node.parent = t.parent := rfl
  rcases Forest.parent_links hn with hparent | ⟨j, hparent, -, hj⟩ <;> omega

/-- A token more, as a part of the superior one. -/
theorem push (h : s.Shaped f) (hsize : t.size = 0) (hparent : t.parent = s.toksuper)
    (hkey : ∀ (i : Nat) (o : JsmnTok), s.toksuper = i → s.tokens[i]? = some o →
      o.type = .object → t.type = .string) :
    Inv { s with tokens := addSize 1 s.toksuper s.tokens ++ [t], count := s.count + 1 } := by
  have hnode : t.node = ⟨0, s.toksuper⟩ := by rw [JsmnTok.node, hsize, hparent]
  have hkeys : StringKeys (addSize 1 s.toksuper s.tokens ++ [t]) := by
    have happend : StringKeys (s.tokens ++ [t]) :=
      h.keys.append h.parent_lt (hparent ▸ h.superTok.lt) (hparent ▸ hkey)
    apply happend.of_map_eq
    rw [List.map_append, List.map_append, addSize]
    split
    · rfl
    · rw [map_modify_eq]
      exact fun _ => rfl
  rcases h.super with hsuper | ⟨i, hi, hsuper⟩
  · refine ⟨f.snoc, h.pool, ?_, .inl hsuper, hkeys, by simp [h.count]⟩
    simp [addSize, hsuper, h.links, hnode, Forest.links_snoc]
  · obtain ⟨f', -, -, hlinks, hi', -⟩ := Forest.exists_grow hi
    refine ⟨f', h.pool, ?_, .inr ⟨i, hi', hsuper⟩, hkeys, by simp [h.count]⟩
    simp [addSize, hsuper, h.links, hnode, hlinks, map_node_modify]

end Shaped

/-- `jsmn_alloc_token` and the count of the parts, for a part of the superior token. -/
theorem Shaped.alloc_bump {n : Nat} (h : s.Shaped f) (hpool : s.pool = some n) (hsize : t.size = 0)
    (hparent : t.parent = s.toksuper)
    (hkey : ∀ (i : Nat) (o : JsmnTok), s.toksuper = i → s.tokens[i]? = some o →
      o.type = .object → t.type = .string) :
    (∀ c, Jsmn.alloc { s with count := c } t = .error .nomem) ∨
      (∀ c, Jsmn.alloc { s with count := c } t =
        .ok { s with tokens := s.tokens ++ [t], count := c }) ∧
      ∃ s', Jsmn.bump { s with tokens := s.tokens ++ [t], count := s.count + 1 } = .ok s' ∧
        s'.Inv := by
  obtain ⟨pos, p, pool, tokens, count, skip⟩ := s
  obtain rfl : pool = some n := hpool
  by_cases hroom : tokens.length < n
  · right
    refine ⟨fun c => alloc_eq hroom, _, bump_eq h.superTok.append, ?_⟩
    rw [addSize_append h.superTok]
    exact h.push hsize hparent hkey
  · left
    simp [alloc, Nat.le_of_not_lt hroom]

end

/-! ### One character -/

section

variable {s : Jsmn} {type : JsmnType} {js : Text} {c : Char}

/-- The position plays no part. -/
theorem Inv.move {pos skip : Nat} (h : s.Inv) : Inv { s with pos := pos, skip := skip } := by
  obtain ⟨f, h⟩ := h
  exact ⟨f, h.pool, h.links, h.super, h.keys, h.count⟩

/-- The superior token is there, and its parent can be the superior token too. -/
theorem Inv.tok_super (h : s.Inv) (hsuper : s.toksuper ≠ -1) :
    ∃ (i : Nat) (t : JsmnTok), s.toksuper = i ∧ s.tokens[i]? = some t ∧
      s.tok s.toksuper = .ok t ∧ Inv { s with toksuper := t.parent } := by
  obtain ⟨f, h⟩ := h
  rcases h.super with hnone | ⟨i, hi, hsuper⟩
  · contradiction
  · obtain ⟨t, ht, -, hparent⟩ := h.tok_spine hi
    exact ⟨i, t, hsuper, ht, by simp [tok, hsuper, ht], f, h.pool, h.links, hparent, h.keys,
      h.count⟩

/-- The last token as the superior one. -/
theorem Inv.super_last (h : s.Inv) : Inv { s with toksuper := (s.tokens.length : Int) - 1 } := by
  obtain ⟨f, h⟩ := h
  refine ⟨f, h.pool, h.links, ?_, h.keys, h.count⟩
  by_cases hnil : f = .nil
  · left
    simp [h.length_tokens, hnil, Forest.count]
  · right
    refine ⟨_, Forest.last_mem_spine 0 hnil, ?_⟩
    have hpos : f.count ≠ 0 := by
      cases f with
      | nil => contradiction
      | cons => simp [Forest.count]
    simp only [h.length_tokens]
    omega

theorem safe_alloc (s : Jsmn) (t : JsmnTok) : Safe (fun _ => True) (s.alloc t) := by
  unfold alloc
  split
  · trivial
  · split
    · simp [Safe]
    · trivial

theorem Inv.openBracket (h : s.Inv) : Safe Inv (s.openBracket type) := by
  have hsuper := h.tok_super
  obtain ⟨f, h⟩ := h
  obtain ⟨pos, p, pool, tokens, count, skip⟩ := s
  obtain ⟨n, rfl⟩ : ∃ n, pool = some n := Option.isSome_iff_exists.mp h.pool
  have halloc := h.alloc_bump (t := ⟨type, pos, -1, 0, p⟩) rfl rfl rfl
  unfold Jsmn.openBracket
  simp only [Option.isNone_some, Bool.false_eq_true, if_false]
  by_cases hp : p = -1
  · subst hp
    rcases halloc fun i o hi => by simp at hi with halloc | ⟨halloc, s', hbump, hinv⟩
    · simp [halloc, Bind.bind, Except.bind, Safe]
    · simp only [halloc, hbump, Bind.bind, Except.bind]
      exact hinv.super_last
  · obtain ⟨i, o, rfl, ho, htok, -⟩ := hsuper hp
    have htok : Jsmn.tok ⟨pos, i, some n, tokens, count + 1, skip⟩ i = .ok o := htok
    have hi : ((i : Int) != -1) = true := by simp
    by_cases hobject : o.type = .object
    · apply (safe_alloc _ _).bind
      intro s' _
      simp only [hi, if_true, htok, hobject, Bind.bind, Except.bind]
      exact safe_throw (by decide)
    · rcases halloc fun j u hj hu hobj => by grind with halloc | ⟨halloc, s', hbump, hinv⟩
      · simp [halloc, Bind.bind, Except.bind, Safe]
      · simp only [halloc, hi, if_true, htok, hobject, if_false, hbump, Bind.bind, Except.bind,
          pure, Except.pure]
        exact hinv.super_last

/-- What is left of a string or primitive once its length is known. -/
theorem Shaped.put {f : Forest} {t : JsmnTok} (h : s.Shaped f) (k : Nat) (hsize : t.size = 0)
    (hparent : t.parent = s.toksuper)
    (hkey : ∀ (i : Nat) (o : JsmnTok), s.toksuper = i → s.tokens[i]? = some o →
      o.type = .object → t.type = .string) :
    Safe Inv (do
      let s' ← s.alloc t
      let s' ← Jsmn.bump { s' with count := s.count + 1 }
      return { s' with skip := k }) := by
  obtain ⟨n, hpool⟩ := Option.isSome_iff_exists.mp h.pool
  rcases h.alloc_bump hpool hsize hparent hkey with halloc | ⟨halloc, s', hbump, hinv⟩
  · have herror : s.alloc t = .error .nomem := halloc s.count
    simp [herror, Bind.bind, Except.bind, Safe]
  · have hok : s.alloc t = .ok { s with tokens := s.tokens ++ [t] } := halloc s.count
    simp only [hok, hbump, Bind.bind, Except.bind]
    exact hinv.move

theorem Inv.string (h : s.Inv) : Safe Inv (s.string js) := by
  obtain ⟨f, h⟩ := h
  unfold Jsmn.string
  exact (safe_parseString js false 0).bind fun length _ =>
    h.put (length + 1) rfl rfl fun _ _ _ _ _ => rfl

theorem Inv.primitive (h : s.Inv) : Safe Inv (s.primitive js) := by
  have hsuper := h.tok_super
  obtain ⟨f, h⟩ := h
  have hrest (hkey : ∀ (i : Nat) (o : JsmnTok), s.toksuper = i → s.tokens[i]? = some o →
      o.type = .object → JsmnType.primitive = .string) :
      Safe Inv (jsmnParsePrimitive js >>= fun length => do
        let s' ← s.alloc ⟨.primitive, s.pos, s.pos + length, 0, s.toksuper⟩
        let s' ← Jsmn.bump { s' with count := s.count + 1 }
        return { s' with skip := length - 1 }) :=
    (safe_parsePrimitive js).bind fun length _ => h.put (length - 1) rfl rfl hkey
  unfold Jsmn.primitive
  by_cases hp : s.toksuper = -1
  · have hskip : (s.pool.isSome && s.toksuper != -1) = false := by simp [hp]
    rw [if_neg (by simp [hskip])]
    exact hrest fun i o hi => by omega
  · obtain ⟨i, o, hi, ho, htok, -⟩ := hsuper hp
    rw [if_pos (by simp [h.pool, hp]), htok]
    change Safe Inv (ite _ _ _)
    split
    · exact safe_throw_bind (by decide) _
    · rename_i htakes
      exact hrest fun j u hj hu hobj => by grind

theorem Inv.comma (h : s.Inv) : Safe Inv s.comma := by
  unfold Jsmn.comma
  by_cases hp : s.toksuper = -1
  · rw [hp, bne_self_eq_false, Bool.and_false]
    exact h
  · obtain ⟨i, t, hi, ht, htok, hparent⟩ := h.tok_super hp
    have hpool : s.pool.isSome = true := h.elim fun _ h => h.pool
    have hne : (s.toksuper != -1) = true := by simpa using hp
    simp only [hpool, hne, Bool.and_self, if_true, htok, Bind.bind, Except.bind]
    split
    · exact hparent
    · exact h

/-- The search for an open token goes up the spine. -/
theorem Shaped.findOpen {f : Forest} (h : s.Shaped f) {fuel i : Nat} (hi : i ∈ f.spine 0)
    (hfuel : i < fuel) :
    Safe (fun r => ∀ j ∈ r, ∃ k ∈ f.spine 0, j = (k : Int)) (s.findOpen type fuel i) := by
  induction fuel generalizing i with
  | zero => omega
  | succ fuel ih =>
    obtain ⟨t, ht, hlt, hparent⟩ := h.tok_spine hi
    have htok : s.tok i = .ok t := by simp [tok, ht]
    rw [Jsmn.findOpen, htok]
    simp only [Bind.bind, Except.bind]
    split
    · split
      · exact safe_throw (by decide)
      · rintro j ⟨⟩
        exact ⟨i, hi, rfl⟩
    · split
      · split
        · exact safe_throw (by decide)
        · simp [pure, Except.pure, Safe]
      · rename_i hne
        obtain ⟨j, hj, heq⟩ := hparent.resolve_left hne
        rw [heq]
        exact ih hj (by omega)

theorem Inv.closeBracket (h : s.Inv) : Safe Inv (s.closeBracket type) := by
  obtain ⟨f, h⟩ := h
  have hpool : s.pool.isNone = false := by simpa using h.pool
  unfold Jsmn.closeBracket
  simp only [hpool, Bool.false_eq_true, if_false]
  by_cases hempty : s.tokens.length < 1
  · rw [if_pos hempty]
    exact safe_throw_bind (by decide) _
  · simp only [hempty, if_false]
    have hnil : f ≠ .nil := by
      rintro rfl
      simp [h.length_tokens, Forest.count] at hempty
    have hlast : ((s.tokens.length : Int) - 1) = ((0 + f.count - 1 : Nat) : Int) := by
      have := h.length_tokens
      omega
    rw [hlast]
    refine (h.findOpen (Forest.last_mem_spine 0 hnil) ?_).bind fun r hr => ?_
    · rw [h.length_tokens]
      omega
    · cases r with
      | none => exact ⟨f, h⟩
      | some j =>
        obtain ⟨k, hk, rfl⟩ := hr _ rfl
        obtain ⟨t, ht, -, hparent⟩ := h.tok_spine hk
        have htok : s.tok k = .ok t := by simp [tok, ht]
        simp only [htok, Bind.bind, Except.bind]
        refine ⟨f, h.pool, ?_, ?_, ?_, ?_⟩
        · exact (map_modify_eq (g := fun t => { t with stop := (s.pos : Int) + 1 })
            (fun _ => rfl) _ _).trans h.links
        · exact hparent
        · exact h.keys.of_map_eq (map_modify_eq
            (g := fun t => { t with stop := (s.pos : Int) + 1 }) (fun _ => rfl) _ _)
        · simpa using h.count

theorem Inv.char (h : s.Inv) (c : Char) (js : Text) : Safe Inv (s.char c js) := by
  simp only [Jsmn.char]
  repeat' split
  · exact h.openBracket
  · exact h.openBracket
  · exact h.closeBracket
  · exact h.closeBracket
  · exact h.string
  · exact h
  · exact h.super_last
  · exact h.comma
  · exact h.primitive
  · simp [Safe]

/-- The counting pass uses no token. -/
theorem char_counting (h : s.pool = none) (c : Char) (js : Text) :
    Safe (fun s' => s'.pool = none) (s.char c js) := by
  simp only [Jsmn.char]
  repeat' split
  · simp [Jsmn.openBracket, h, Safe, pure, Except.pure]
  · simp [Jsmn.openBracket, h, Safe, pure, Except.pure]
  · simp [Jsmn.closeBracket, h, Safe, pure, Except.pure]
  · simp [Jsmn.closeBracket, h, Safe, pure, Except.pure]
  · apply (safe_parseString js false 0).bind
    intro length _
    simp [Jsmn.alloc, Jsmn.bump, h, Safe, pure, Except.pure, Bind.bind, Except.bind]
  · exact h
  · exact h
  · simp [Jsmn.comma, h, Safe, pure, Except.pure]
  · simp only [Jsmn.primitive, h, Option.isSome_none, Bool.false_and, Bool.false_eq_true, if_false]
    apply (safe_parsePrimitive _).bind
    intro length _
    simp [Jsmn.alloc, Jsmn.bump, h, Safe, pure, Except.pure, Bind.bind, Except.bind]
  · simp [Safe]

end

/-- The loop keeps what each character keeps. -/
theorem safe_loop {I : Jsmn → Prop} (hchar : ∀ s c js, I s → Safe I (s.char c js))
    (hmove : ∀ (s : Jsmn) (pos skip : Nat), I s → I { s with pos := pos, skip := skip }) {s : Jsmn}
    (h : I s) (js : Text) : Safe I (s.loop js) := by
  induction js generalizing s with
  | nil => exact h
  | cons c js ih =>
    unfold loop
    split
    · exact ih (hmove s _ _ h)
    · exact (hchar s c js h).bind fun s' hs' => ih (hmove s' _ s'.skip hs')

end Jsmn

/-! ### Whole texts -/

theorem safe_jsmnParse_count (js : Text) : Safe (fun _ => True) (jsmnParse js none) := by
  have hloop := Jsmn.safe_loop (I := fun s => s.pool = none)
    (fun s c js h => Jsmn.char_counting h c js) (fun _ _ _ h => h) (s := jsmnInit none) rfl js
  apply hloop.bind
  intro s _
  split
  · exact safe_throw (by decide)
  · trivial

/-- The tokens make the forest `f`, and the parts of an object are strings. -/
structure Shaped (tokens : List JsmnTok) (f : Forest) : Prop where
  links : tokens.map JsmnTok.node = f.links (-1) 0
  keys : StringKeys tokens

theorem Shaped.getElem? {tokens : List JsmnTok} {f : Forest} (h : Shaped tokens f) (i : Nat) :
    (f.links (-1) 0)[i]? = tokens[i]?.map JsmnTok.node := by
  rw [← h.links, List.getElem?_map]

theorem Shaped.parent_lt {tokens : List JsmnTok} {f : Forest} {i : Nat} {t : JsmnTok}
    (h : Shaped tokens f) (ht : tokens[i]? = some t) : t.parent < i := by
  have hn : (f.links (-1) 0)[i]? = some t.node := by rw [h.getElem?, ht, Option.map_some]
  have hnode : t.node.parent = t.parent := rfl
  rcases Forest.parent_links hn with hparent | ⟨j, hparent, -, hj⟩ <;> omega

theorem safe_jsmnParse_toks (js : Text) (n : Nat) :
    Safe (fun r => r.2 = r.1.length ∧ ∃ f, Shaped r.1 f) (jsmnParse js (some n)) := by
  have hinit : (jsmnInit (some n)).Inv :=
    ⟨.nil, rfl, rfl, .inl rfl, by simp [StringKeys, jsmnInit], rfl⟩
  have hloop := Jsmn.safe_loop (fun s c js h => Jsmn.Inv.char h c js)
    (fun _ _ _ h => h.move) hinit js
  apply hloop.bind
  intro s hs
  obtain ⟨f, h⟩ := hs
  split
  · exact safe_throw (by decide)
  · exact ⟨h.count, f, h.links, h.keys⟩

/-- `json_parse_start` succeeds or fails on every text, and gives a cursor on the first token of a
forest if it succeeds. -/
theorem jsonParseStart_cases (js : Text) :
    jsonParseStart js = some (false, .zero) ∨
      ∃ tokens f, jsonParseStart js = some (true, ⟨js, tokens, some 0⟩) ∧ tokens ≠ [] ∧
        Shaped tokens f := by
  have hcount := safe_jsmnParse_count js
  unfold jsonParseStart
  cases hparse : jsmnParse js none with
  | error e =>
    rw [hparse] at hcount
    cases e with
    | fault => exact (hcount rfl).elim
    | nomem => exact .inl rfl
    | inval => exact .inl rfl
    | part => exact .inl rfl
  | ok r =>
    obtain ⟨_, numTokens⟩ := r
    dsimp only
    split
    · exact .inl rfl
    · have htoks := safe_jsmnParse_toks js numTokens
      cases hparse : jsmnParse js (some numTokens) with
      | error e =>
        rw [hparse] at htoks
        cases e with
        | fault => exact (htoks rfl).elim
        | nomem => exact .inl rfl
        | inval => exact .inl rfl
        | part => exact .inl rfl
      | ok r =>
        rw [hparse] at htoks
        obtain ⟨tokens, ret⟩ := r
        obtain ⟨hret, f, hshaped⟩ := htoks
        dsimp only
        split
        · exact .inl rfl
        · rename_i hne
          refine .inr ⟨tokens, f, rfl, ?_, hshaped⟩
          rintro rfl
          exact hne hret

end VhomeBridge.Link
