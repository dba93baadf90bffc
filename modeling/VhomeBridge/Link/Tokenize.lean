import VhomeBridge.Link.Syntax

/-! The tokenizer on the text of a tree.  The counting pass counts its tokens; the pass with room
for them appends them and moves the size of the superior token.  A closing bracket finds the token
that it closes since the tokens after it are closed, and their parents lie between. -/

namespace VhomeBridge.Link

theorem Ends.array {js : Text} : Ends (']' :: js) := rfl

theorem Ends.object {js : Text} : Ends ('}' :: js) := rfl

theorem Ends.blank {js : Text} (h : Ends js) (b : Blank) : Ends (b.1 ++ js) := by
  obtain ⟨b, hb⟩ := b
  cases b with
  | nil => exact h
  | cons c b =>
    have hc : isBlank c = true := List.all_eq_true.mp hb c (by simp)
    simp [Ends, endsPrimitive, hc]

theorem Items.ends {items : Items} {js : Text} (h : Ends js) :
    Ends (items.comma ++ (items.text ++ js)) := by
  cases items with
  | nil blank => exact h.blank blank
  | cons => rfl

theorem Members.ends {members : Members} {js : Text} (h : Ends js) :
    Ends (members.comma ++ (members.text ++ js)) := by
  cases members with
  | nil blank => exact h.blank blank
  | cons => rfl

theorem Json.before_of_ends {v : Json} {js : Text} (h : Ends js) : v.Before js := by
  cases v <;> first | exact h | trivial

/-! ### Strings and primitives -/

theorem jsmnParsePrimitive_append {t js : Text}
    (ht : t.all (fun c => !endsPrimitive c && 32 ≤ c.toNat && c.toNat < 127) = true)
    (h : Ends js) : jsmnParsePrimitive (t ++ js) = .ok t.length := by
  induction t with
  | nil =>
    cases js with
    | nil => exact h.elim
    | cons c js => simp_all [Ends, jsmnParsePrimitive]
  | cons c t ih =>
    simp only [List.all_cons, Bool.and_eq_true, Bool.not_eq_true', decide_eq_true_eq] at ht
    obtain ⟨⟨⟨hend, hlow⟩, hhigh⟩, ht⟩ := ht
    have hrange : ¬(c.toNat < 32 ∨ c.toNat ≥ 127) := by omega
    simp only [List.cons_append, jsmnParsePrimitive, hend, Bool.false_eq_true, if_false,
      Bool.or_eq_true, decide_eq_true_eq, hrange, ih ht, List.length_cons]
    rfl

theorem jsmnParseString_append {t js : Text} {escape : Bool} {hex : Nat}
    (ht : isBody t escape hex = true) :
    jsmnParseString (t ++ '"' :: js) escape hex = .ok t.length := by
  fun_induction isBody t escape hex with
  | case1 escape hex =>
    simp only [Bool.and_eq_true, Bool.not_eq_true', beq_iff_eq] at ht
    obtain ⟨rfl, rfl⟩ := ht
    rfl
  | case2 c t hex hu ih => simp [jsmnParseString, hu, ih ht, Except.map]
  | case3 c t hex hu ih =>
    simp only [Bool.and_eq_true] at ht
    simp [jsmnParseString, hu, ht.1, ih ht.2, Except.map]
  | case4 c t hex ih =>
    simp only [Bool.and_eq_true] at ht
    simp [jsmnParseString, ht.1, ih ht.2, Except.map]
  | case5 c t ih =>
    simp only [Bool.and_eq_true, bne_iff_ne, ne_eq] at ht
    have hquote : (c == '"') = false := by simpa using ht.1
    by_cases hslash : (c == '\\') = true
    · simp [jsmnParseString, hquote, hslash, hslash ▸ ih ht.2, Except.map]
    · have hslash' : (c == '\\') = false := by simpa using hslash
      simp [jsmnParseString, hquote, hslash', hslash' ▸ ih ht.2, Except.map]

/-! ### One character -/

namespace Jsmn

variable {pos : Nat} {p : Int} {pool : Option Nat} {tokens : List JsmnTok} {count : Nat}
variable {c : Char} {js : Text}

theorem loop_char {s' : Jsmn} (h : char ⟨pos, p, pool, tokens, count, 0⟩ c js = .ok s') :
    loop ⟨pos, p, pool, tokens, count, 0⟩ (c :: js) = loop { s' with pos := s'.pos + 1 } js := by
  simp only [loop, h]
  rfl

theorem loop_skip (t : Text) :
    loop ⟨pos, p, pool, tokens, count, t.length⟩ (t ++ js) =
      loop ⟨pos + t.length, p, pool, tokens, count, 0⟩ js := by
  induction t generalizing pos with
  | nil => rfl
  | cons c t ih =>
    change loop ⟨pos + 1, p, pool, tokens, count, t.length⟩ (t ++ js) = _
    rw [ih, List.length_cons]
    congr 2
    omega

theorem char_blank {s : Jsmn} (h : isBlank c = true) : s.char c js = .ok s := by
  have h' := h
  simp only [isBlank, Bool.or_eq_true, beq_iff_eq] at h'
  obtain ((rfl | rfl) | rfl) | rfl := h' <;> rfl

theorem loop_blank (b : Blank) :
    loop ⟨pos, p, pool, tokens, count, 0⟩ (b.1 ++ js) =
      loop ⟨pos + b.1.length, p, pool, tokens, count, 0⟩ js := by
  obtain ⟨b, hb⟩ := b
  induction b generalizing pos with
  | nil => rfl
  | cons c b ih =>
    have hc : isBlank c = true := List.all_eq_true.mp hb c (by simp)
    have hb' : b.all isBlank = true := List.all_eq_true.mpr fun d hd =>
      List.all_eq_true.mp hb d (by simp [hd])
    rw [List.cons_append, loop_char (char_blank hc)]
    apply (ih hb').trans
    simp only [List.length_cons]
    congr 2
    omega

theorem char_primitive {s : Jsmn} (h : startsPrimitive c = true) :
    s.char c js = s.primitive (c :: js) := by
  have hne (d : Char) (hd : startsPrimitive d = false) : (c == d) = false := by
    rw [beq_eq_false_iff_ne]
    rintro rfl
    rw [h] at hd
    contradiction
  simp [char, isBlank, h, hne '{' rfl, hne '[' rfl, hne '}' rfl, hne ']' rfl, hne '"' rfl,
    hne ':' rfl, hne ',' rfl, hne '\t' rfl, hne '\r' rfl, hne '\n' rfl, hne ' ' rfl]

theorem loop_body (s : Body) {tokens' : List JsmnTok} {count' : Nat}
    (h : string ⟨pos, p, pool, tokens, count, 0⟩ (s.1 ++ '"' :: js) =
      .ok ⟨pos, p, pool, tokens', count', s.1.length + 1⟩) :
    loop ⟨pos, p, pool, tokens, count, 0⟩ (s.text ++ js) =
      loop ⟨pos + s.text.length, p, pool, tokens', count', 0⟩ js := by
  have htext : s.text ++ js = '"' :: (s.1 ++ '"' :: js) := by simp [Body.text]
  have hskip : loop ⟨pos + 1, p, pool, tokens', count', (s.1 ++ ['"']).length⟩
      (s.1 ++ ['"'] ++ js) = _ := loop_skip _
  rw [List.append_assoc, List.singleton_append, List.length_append, List.length_singleton] at hskip
  rw [htext, loop_char (c := '"') h]
  apply hskip.trans
  simp only [Body.text, List.length_cons, List.length_append, List.length_nil]
  congr 2
  omega

theorem loop_lexeme (t : Primitive) {tokens' : List JsmnTok} {count' : Nat}
    (h : primitive ⟨pos, p, pool, tokens, count, 0⟩ (t.1 ++ js) =
      .ok ⟨pos, p, pool, tokens', count', t.1.length - 1⟩) :
    loop ⟨pos, p, pool, tokens, count, 0⟩ (t.1 ++ js) =
      loop ⟨pos + t.1.length, p, pool, tokens', count', 0⟩ js := by
  obtain ⟨t, ht⟩ := t
  cases t with
  | nil => contradiction
  | cons c t =>
    simp only [isPrimitive, Bool.and_eq_true] at ht
    apply (loop_char ((char_primitive ht.1).trans h)).trans
    apply (loop_skip t).trans
    simp only [List.length_cons]
    congr 2
    omega

theorem parse_primitive (t : Primitive) (h : Ends js) :
    jsmnParsePrimitive (t.1 ++ js) = .ok t.1.length := by
  obtain ⟨t, ht⟩ := t
  cases t with
  | nil => contradiction
  | cons c t =>
    simp only [isPrimitive, Bool.and_eq_true] at ht
    exact jsmnParsePrimitive_append (by simpa using ht.2) h

end Jsmn

/-! ### The counting pass -/

section Counting

variable {pos count : Nat} {js : Text}

theorem Body.loop_count (s : Body) :
    Jsmn.loop ⟨pos, -1, none, [], count, 0⟩ (s.text ++ js) =
      Jsmn.loop ⟨pos + s.text.length, -1, none, [], count + 1, 0⟩ js := by
  apply Jsmn.loop_body
  rw [Jsmn.string, jsmnParseString_append s.2]
  rfl

theorem Primitive.loop_count (t : Primitive) (h : Ends js) :
    Jsmn.loop ⟨pos, -1, none, [], count, 0⟩ (t.1 ++ js) =
      Jsmn.loop ⟨pos + t.1.length, -1, none, [], count + 1, 0⟩ js := by
  apply Jsmn.loop_lexeme
  rw [Jsmn.primitive, Jsmn.parse_primitive t h]
  rfl

theorem loop_count_mark {c : Char} (hc : c ∈ ['{', '}', '[', ']', ':', ',']) :
    Jsmn.loop ⟨pos, -1, none, [], count, 0⟩ (c :: js) =
      Jsmn.loop ⟨pos + 1, -1, none, [], count + if c = '{' ∨ c = '[' then 1 else 0, 0⟩ js := by
  simp only [List.mem_cons, List.not_mem_nil, or_false] at hc
  obtain rfl | rfl | rfl | rfl | rfl | rfl := hc <;> rfl

theorem Items.loop_comma (items : Items) :
    Jsmn.loop ⟨pos, -1, none, [], count, 0⟩ (items.comma ++ js) =
      Jsmn.loop ⟨pos + items.comma.length, -1, none, [], count, 0⟩ js := by
  cases items <;> rfl

theorem Members.loop_comma (members : Members) :
    Jsmn.loop ⟨pos, -1, none, [], count, 0⟩ (members.comma ++ js) =
      Jsmn.loop ⟨pos + members.comma.length, -1, none, [], count, 0⟩ js := by
  cases members <;> rfl

end Counting

mutual

theorem Json.loop_count {pos count : Nat} {js : Text} (v : Json) (h : v.Before js) :
    Jsmn.loop ⟨pos, -1, none, [], count, 0⟩ (v.text ++ js) =
      Jsmn.loop ⟨pos + v.text.length, -1, none, [], count + v.count, 0⟩ js := by
  cases v with
  | prim t => exact t.loop_count h
  | str s => exact s.loop_count
  | arr items =>
    simp only [Json.text, Json.count, List.cons_append, List.append_assoc, List.length_cons,
      List.length_append, List.length_nil]
    rw [loop_count_mark (by decide), List.nil_append, items.loop_count .array,
      loop_count_mark (by decide)]
    congr 2 <;> simp <;> omega
  | obj members =>
    simp only [Json.text, Json.count, List.cons_append, List.append_assoc, List.length_cons,
      List.length_append, List.length_nil]
    rw [loop_count_mark (by decide), List.nil_append, members.loop_count .object,
      loop_count_mark (by decide)]
    congr 2 <;> simp <;> omega

theorem Items.loop_count {pos count : Nat} {js : Text} (items : Items) (h : Ends js) :
    Jsmn.loop ⟨pos, -1, none, [], count, 0⟩ (items.text ++ js) =
      Jsmn.loop ⟨pos + items.text.length, -1, none, [], count + items.count, 0⟩ js := by
  cases items with
  | nil blank => exact Jsmn.loop_blank blank
  | cons before value after rest =>
    simp only [Items.text, Items.count, List.append_assoc, List.length_append]
    rw [Jsmn.loop_blank, value.loop_count (Json.before_of_ends ((rest.ends h).blank after)),
      Jsmn.loop_blank, rest.loop_comma, rest.loop_count h]
    congr 2 <;> omega

theorem Members.loop_count {pos count : Nat} {js : Text} (members : Members) (h : Ends js) :
    Jsmn.loop ⟨pos, -1, none, [], count, 0⟩ (members.text ++ js) =
      Jsmn.loop ⟨pos + members.text.length, -1, none, [], count + members.count, 0⟩ js := by
  cases members with
  | nil blank => exact Jsmn.loop_blank blank
  | cons before key colon between value after rest =>
    simp only [Members.text, Members.count, List.append_assoc, List.cons_append,
      List.length_append, List.length_cons]
    rw [Jsmn.loop_blank, key.loop_count, Jsmn.loop_blank, loop_count_mark (by decide),
      Jsmn.loop_blank, value.loop_count (Json.before_of_ends ((rest.ends h).blank after)),
      Jsmn.loop_blank, rest.loop_comma, rest.loop_count h]
    congr 2
    · omega
    · simp
      omega

end

/-! ### The token pass -/

/-- `n` more parts of the token at `p`, if there is one. -/
def addSize (n : Nat) (p : Int) (tokens : List JsmnTok) : List JsmnTok :=
  if p = -1 then tokens else tokens.modify p.toNat fun t => { t with size := t.size + n }

/-- The superior token is none, or one that `ok` holds of. -/
def Super (tokens : List JsmnTok) (p : Int) (ok : JsmnTok → Prop) : Prop :=
  p = -1 ∨ ∃ (i : Nat) (t : JsmnTok), p = i ∧ tokens[i]? = some t ∧ ok t

/-- A token that takes any value as its next part. -/
def JsmnTok.Takes (t : JsmnTok) : Prop := t.type = .array ∨ t.type = .string ∧ t.size = 0

section AddSize

variable {tokens more : List JsmnTok} {p : Int} {ok : JsmnTok → Prop} {n : Nat}

@[simp] theorem length_addSize : (addSize n p tokens).length = tokens.length := by
  unfold addSize
  split <;> simp

theorem addSize_append (h : Super tokens p ok) :
    addSize n p (tokens ++ more) = addSize n p tokens ++ more := by
  obtain rfl | ⟨i, t, rfl, ht, -⟩ := h
  · rfl
  · have hi := (List.getElem?_eq_some_iff.mp ht).1
    simp only [addSize, show (i : Int) ≠ -1 by omega, if_false, Int.toNat_natCast]
    apply List.ext_getElem?
    intro j
    grind

theorem addSize_add {m : Nat} :
    addSize m p (addSize n p tokens) = addSize (n + m) p tokens := by
  simp only [addSize]
  split
  · rfl
  · rw [List.modify_modify_eq]
    congr 1
    funext t
    simp [Nat.add_assoc]

@[simp] theorem addSize_zero : addSize 0 p tokens = tokens := by
  unfold addSize
  split
  · rfl
  · exact List.modify_id _ _

theorem addSize_next {t : JsmnTok} :
    addSize n (tokens.length : Int) (tokens ++ t :: more) =
      tokens ++ { t with size := t.size + n } :: more := by
  simp only [addSize, show (tokens.length : Int) ≠ -1 by omega, if_false, Int.toNat_natCast]
  apply List.ext_getElem?
  intro j
  grind

theorem Super.imp {ok' : JsmnTok → Prop} (h : Super tokens p ok) (himp : ∀ t, ok t → ok' t) :
    Super tokens p ok' :=
  Or.imp id (fun ⟨i, t, hp, ht, hok⟩ => ⟨i, t, hp, ht, himp t hok⟩) h

theorem Super.append (h : Super tokens p ok) : Super (tokens ++ more) p ok := by
  refine Or.imp id (fun ⟨i, t, hp, ht, hok⟩ => ⟨i, t, hp, ?_, hok⟩) h
  rw [List.getElem?_append_left (List.getElem?_eq_some_iff.mp ht).1, ht]

/-- A property of the type of the superior token stays when its size grows. -/
theorem Super.addSize {type : JsmnType} (h : Super tokens p (·.type = type)) :
    Super (addSize n p tokens) p (·.type = type) := by
  obtain rfl | ⟨i, t, rfl, ht, hok⟩ := h
  · exact .inl rfl
  · refine .inr ⟨i, { t with size := t.size + n }, rfl, ?_, hok⟩
    simp [Link.addSize, show (i : Int) ≠ -1 by omega, ht]

theorem Super.last {t : JsmnTok} {i : Nat} (hi : i = tokens.length) (h : ok t) :
    Super (tokens ++ [t]) i ok :=
  .inr ⟨i, t, rfl, by simp [hi], h⟩

end AddSize

section Tokens

variable {pos n count skip : Nat} {p : Int} {tokens more : List JsmnTok} {js : Text}
variable {ok : JsmnTok → Prop}

theorem Jsmn.tok_eq {pool : Option Nat} {i : Nat} {t : JsmnTok} (h : tokens[i]? = some t) :
    Jsmn.tok ⟨pos, p, pool, tokens, count, skip⟩ i = .ok t := by
  simp [Jsmn.tok, h]

theorem Jsmn.alloc_eq {t : JsmnTok} (h : tokens.length < n) :
    Jsmn.alloc ⟨pos, p, some n, tokens, count, skip⟩ t =
      .ok ⟨pos, p, some n, tokens ++ [t], count, skip⟩ := by
  simp [Jsmn.alloc, Nat.not_le.mpr h]

theorem Jsmn.bump_eq (h : Super tokens p ok) :
    Jsmn.bump ⟨pos, p, some n, tokens, count, skip⟩ =
      .ok ⟨pos, p, some n, addSize 1 p tokens, count, skip⟩ := by
  obtain rfl | ⟨i, t, rfl, ht, -⟩ := h
  · rfl
  · have hi : ((i : Int) != -1) = true := by simp
    simp only [Jsmn.bump, hi, Option.isSome_some, Bool.and_self, if_true, Jsmn.tok_eq ht, addSize,
      show (i : Int) ≠ -1 by omega, if_false]
    rfl

theorem Body.loop_tok (s : Body) (h : Super tokens p ok) (room : tokens.length < n) :
    Jsmn.loop ⟨pos, p, some n, tokens, count, 0⟩ (s.text ++ js) =
      Jsmn.loop ⟨pos + s.text.length, p, some n, addSize 1 p tokens ++ [s.tok pos 0 p],
        count + 1, 0⟩ js := by
  apply Jsmn.loop_body
  rw [Jsmn.string, jsmnParseString_append s.2]
  simp only [Bind.bind, Except.bind, Jsmn.alloc_eq room, Jsmn.bump_eq h.append, addSize_append h]
  rfl

theorem Primitive.loop_tok (t : Primitive) (h : Super tokens p JsmnTok.Takes)
    (room : tokens.length < n) (hjs : Ends js) :
    Jsmn.loop ⟨pos, p, some n, tokens, count, 0⟩ (t.1 ++ js) =
      Jsmn.loop ⟨pos + t.1.length, p, some n,
        addSize 1 p tokens ++ [⟨.primitive, pos, pos + t.1.length, 0, p⟩], count + 1, 0⟩ js := by
  apply Jsmn.loop_lexeme
  have halloc : Jsmn.alloc ⟨pos, p, some n, tokens, count, 0⟩
      ⟨.primitive, pos, pos + t.1.length, 0, p⟩ = _ := Jsmn.alloc_eq room
  have hbump : Jsmn.bump ⟨pos, p, some n,
      tokens ++ [⟨.primitive, pos, pos + t.1.length, 0, p⟩], count + 1, 0⟩ = _ :=
    Jsmn.bump_eq h.append
  have hparse := Jsmn.parse_primitive t hjs
  obtain rfl | ⟨i, super, rfl, hsuper, htakes⟩ := id h
  · rw [Jsmn.primitive, hparse]
    simp only [Bind.bind, Except.bind, halloc, hbump, addSize_append h]
    rfl
  · have hi : ((i : Int) != -1) = true := by simp
    have hno : ¬(super.type = .object ∨ super.type = .string ∧ super.size ≠ 0) := by
      rcases htakes with h | ⟨h, hsize⟩ <;> simp_all
    rw [Jsmn.primitive, hparse]
    simp only [Option.isSome_some, hi, Bool.and_self, if_true, Bind.bind, Except.bind,
      Jsmn.tok_eq hsuper, hno, if_false, halloc, hbump, addSize_append h]
    rfl

theorem Jsmn.char_open {s : Jsmn} {c : Char} {type : JsmnType}
    (hc : c = '[' ∧ type = .array ∨ c = '{' ∧ type = .object) :
    s.char c js = s.openBracket type := by
  rcases hc with ⟨rfl, rfl⟩ | ⟨rfl, rfl⟩ <;> rfl

theorem Jsmn.char_close {s : Jsmn} {c : Char} {type : JsmnType}
    (hc : c = ']' ∧ type = .array ∨ c = '}' ∧ type = .object) :
    s.char c js = s.closeBracket type := by
  rcases hc with ⟨rfl, rfl⟩ | ⟨rfl, rfl⟩ <;> rfl

theorem Jsmn.char_comma {s : Jsmn} : s.char ',' js = s.comma := rfl

theorem loop_open {c : Char} {type : JsmnType}
    (hc : c = '[' ∧ type = .array ∨ c = '{' ∧ type = .object)
    (h : Super tokens p JsmnTok.Takes) (room : tokens.length < n) :
    Jsmn.loop ⟨pos, p, some n, tokens, count, 0⟩ (c :: js) =
      Jsmn.loop ⟨pos + 1, tokens.length, some n,
        addSize 1 p tokens ++ [⟨type, pos, -1, 0, p⟩], count + 1, 0⟩ js := by
  have hopen : Jsmn.openBracket ⟨pos, p, some n, tokens, count, 0⟩ type =
      .ok ⟨pos, tokens.length, some n, addSize 1 p tokens ++ [⟨type, pos, -1, 0, p⟩],
        count + 1, 0⟩ := by
    have halloc : Jsmn.alloc ⟨pos, p, some n, tokens, count + 1, 0⟩ ⟨type, pos, -1, 0, p⟩ = _ :=
      Jsmn.alloc_eq room
    have hbump : Jsmn.bump ⟨pos, p, some n, tokens ++ [⟨type, pos, -1, 0, p⟩], count + 1, 0⟩ = _ :=
      Jsmn.bump_eq h.append
    obtain rfl | ⟨i, super, rfl, hsuper, htakes⟩ := id h
    · simp only [Jsmn.openBracket, Option.isNone_some, Bool.false_eq_true, if_false, Bind.bind,
        Except.bind, halloc, bne_self_eq_false, pure, Except.pure, hbump, addSize_append h]
      simp
    · have hi : ((i : Int) != -1) = true := by simp
      have hno : super.type ≠ .object := by rcases htakes with h | ⟨h, -⟩ <;> simp [h]
      simp only [Jsmn.openBracket, Option.isNone_some, Bool.false_eq_true, if_false, Bind.bind,
        Except.bind, halloc, hi, if_true, Jsmn.tok_eq hsuper, hno, pure, Except.pure, hbump,
        addSize_append h]
      simp
  exact Jsmn.loop_char ((Jsmn.char_open hc).trans hopen)

/-- The tokens from index `base` on are closed, and the parent of each is `parent` or one of them
before it. -/
def Within (parent : Int) (base : Nat) (tokens : List JsmnTok) : Prop :=
  ∀ i t, tokens[i]? = some t → t.stop ≠ -1 ∧
    (t.parent = parent ∨ ∃ k : Nat, t.parent = (k : Int) ∧ base ≤ k ∧ k < base + i)

theorem Within.nil {base : Nat} : Within p base [] := by
  intro i t h
  simp at h

theorem Within.append {base : Nat} (h : Within p base tokens)
    (h' : Within p (base + tokens.length) more) : Within p base (tokens ++ more) := by
  intro i t ht
  by_cases hi : i < tokens.length
  · exact h i t (by rwa [List.getElem?_append_left hi] at ht)
  · rw [List.getElem?_append_right (by omega)] at ht
    obtain ⟨hstop, hparent⟩ := h' _ t ht
    refine ⟨hstop, hparent.imp id ?_⟩
    rintro ⟨k, hk, hle, hlt⟩
    exact ⟨k, hk, by omega, by omega⟩

theorem Within.cons {base : Nat} {t : JsmnTok} (hstop : t.stop ≠ -1) (hparent : t.parent = p)
    (h : Within base (base + 1) tokens) : Within p base (t :: tokens) := by
  intro i t' ht
  cases i with
  | zero =>
    obtain rfl : t = t' := by simpa using ht
    exact ⟨hstop, .inl hparent⟩
  | succ i =>
    obtain ⟨hstop', hparent'⟩ := h i t' (by simpa using ht)
    refine ⟨hstop', .inr ?_⟩
    rcases hparent' with hk | ⟨k, hk, hle, hlt⟩
    · exact ⟨base, hk, by omega, by omega⟩
    · exact ⟨k, hk, by omega, by omega⟩

/-- From a token after the open one, the parents lead to the open one. -/
theorem Jsmn.findOpen_eq {s : Jsmn} {t : JsmnTok} {fuel i : Nat}
    (hs : s.tokens = tokens ++ t :: more) (hopen : t.start ≠ -1 ∧ t.stop = -1)
    (h : Within tokens.length (tokens.length + 1) more) (hle : tokens.length ≤ i)
    (hlt : i < tokens.length + 1 + more.length) (hfuel : i < tokens.length + fuel) :
    s.findOpen t.type fuel i = .ok (some (tokens.length : Int)) := by
  induction fuel generalizing i with
  | zero => omega
  | succ fuel ih =>
    by_cases hi : i = tokens.length
    · subst hi
      have htok : s.tok tokens.length = .ok t := by simp [Jsmn.tok, hs]
      simp only [Jsmn.findOpen, htok, Bind.bind, Except.bind]
      rw [if_pos hopen]
      simp [pure, Except.pure]
    · obtain ⟨j, rfl⟩ : ∃ j, i = tokens.length + 1 + j := ⟨i - tokens.length - 1, by omega⟩
      obtain ⟨u, hu⟩ : ∃ u, more[j]? = some u := ⟨_, List.getElem?_eq_getElem (by omega)⟩
      obtain ⟨hstop, hparent⟩ := h j u hu
      have hsu : s.tokens[tokens.length + 1 + j]? = some u := by
        rw [hs, List.getElem?_append_right (by omega),
          show tokens.length + 1 + j - tokens.length = j + 1 by omega, List.getElem?_cons_succ, hu]
      have htok : s.tok ((tokens.length + 1 + j : Nat) : Int) = .ok u := by
        simp only [Jsmn.tok, Int.toNat_natCast, hsu]
        rw [if_neg (by omega)]
      have hk : ∃ k : Nat, u.parent = k ∧ tokens.length ≤ k ∧ k < tokens.length + 1 + j := by
        rcases hparent with hk | ⟨k, hk, hle, hlt⟩
        · exact ⟨_, hk, by omega, by omega⟩
        · exact ⟨k, hk, by omega, by omega⟩
      obtain ⟨k, hk, hle', hlt'⟩ := hk
      simp only [Jsmn.findOpen, htok, Bind.bind, Except.bind, hstop, and_false, if_false, hk,
        show ((k : Int) = -1) = False by simp, pure, Except.pure]
      exact ih hle' (by omega) (by omega)

theorem loop_close {c : Char} {type : JsmnType} {start : Nat} {size : Nat} {parent : Int}
    (hc : c = ']' ∧ type = .array ∨ c = '}' ∧ type = .object)
    (h : Within tokens.length (tokens.length + 1) more) :
    Jsmn.loop ⟨pos, p, some n, tokens ++ ⟨type, start, -1, size, parent⟩ :: more, count, 0⟩
        (c :: js) =
      Jsmn.loop ⟨pos + 1, parent, some n,
        tokens ++ ⟨type, start, pos + 1, size, parent⟩ :: more, count, 0⟩ js := by
  have hclose : Jsmn.closeBracket
      ⟨pos, p, some n, tokens ++ ⟨type, start, -1, size, parent⟩ :: more, count, 0⟩ type =
      .ok ⟨pos, parent, some n, tokens ++ ⟨type, start, pos + 1, size, parent⟩ :: more,
        count, 0⟩ := by
    have hfind : Jsmn.findOpen
        ⟨pos, p, some n, tokens ++ ⟨type, start, -1, size, parent⟩ :: more, count, 0⟩ type
        ((tokens ++ (⟨type, start, -1, size, parent⟩ : JsmnTok) :: more).length + 1)
        ((tokens.length + more.length : Nat) : Int) = .ok (some (tokens.length : Int)) :=
      Jsmn.findOpen_eq (t := ⟨type, start, -1, size, parent⟩) rfl ⟨by simp, rfl⟩ h (by omega)
        (by omega) (by simp; omega)
    have hlast :
        ((tokens ++ (⟨type, start, -1, size, parent⟩ : JsmnTok) :: more).length : Int) - 1 =
        ((tokens.length + more.length : Nat) : Int) := by
      simp
      omega
    have htok : Jsmn.tok ⟨pos, p, some n,
        tokens ++ ⟨type, start, -1, size, parent⟩ :: more, count, 0⟩ (tokens.length : Int) =
        .ok ⟨type, start, -1, size, parent⟩ := Jsmn.tok_eq (by simp)
    have hpos : ¬(tokens ++ (⟨type, start, -1, size, parent⟩ : JsmnTok) :: more).length < 1 := by
      simp
    have hmodify : (tokens ++ (⟨type, start, -1, size, parent⟩ : JsmnTok) :: more).modify
        tokens.length (fun t => { t with stop := (pos : Int) + 1 }) =
        tokens ++ ⟨type, start, pos + 1, size, parent⟩ :: more := by
      apply List.ext_getElem?
      intro j
      grind
    simp only [Jsmn.closeBracket, Option.isNone_some, Bool.false_eq_true, if_false, hlast, hpos,
      Bind.bind, Except.bind, hfind, htok, pure, Except.pure, Int.toNat_natCast, hmodify]
  exact Jsmn.loop_char ((Jsmn.char_close hc).trans hclose)

end Tokens

mutual

@[simp] theorem Json.length_toks (v : Json) (pos : Nat) (parent : Int) (base : Nat) :
    (v.toks pos parent base).length = v.count := by
  cases v with
  | prim => rfl
  | str => rfl
  | arr items => simp [Json.toks, Json.count, items.length_toks]
  | obj members => simp [Json.toks, Json.count, members.length_toks]

@[simp] theorem Items.length_toks (items : Items) (pos : Nat) (parent : Int) (base : Nat) :
    (items.toks pos parent base).length = items.count := by
  cases items with
  | nil => rfl
  | cons before value after rest =>
    simp [Items.toks, Items.count, value.length_toks, rest.length_toks]

@[simp] theorem Members.length_toks (members : Members) (pos : Nat) (parent : Int) (base : Nat) :
    (members.toks pos parent base).length = members.count := by
  cases members with
  | nil => rfl
  | cons before key colon between value after rest =>
    simp [Members.toks, Members.count, value.length_toks, rest.length_toks]
    omega

end

mutual

theorem Json.within_toks (v : Json) (pos : Nat) (parent : Int) (base : Nat) :
    Within parent base (v.toks pos parent base) := by
  cases v with
  | prim => exact .cons (by simp; omega) rfl .nil
  | str => exact .cons (by simp [Body.tok]; omega) rfl .nil
  | arr items => exact .cons (by simp; omega) rfl (items.within_toks _ _ _)
  | obj members => exact .cons (by simp; omega) rfl (members.within_toks _ _ _)

theorem Items.within_toks (items : Items) (pos : Nat) (parent : Int) (base : Nat) :
    Within parent base (items.toks pos parent base) := by
  cases items with
  | nil => exact .nil
  | cons before value after rest =>
    apply (value.within_toks _ _ _).append
    rw [value.length_toks]
    exact rest.within_toks _ _ _

theorem Members.within_toks (members : Members) (pos : Nat) (parent : Int) (base : Nat) :
    Within parent base (members.toks pos parent base) := by
  cases members with
  | nil => exact .nil
  | cons before key colon between value after rest =>
    rw [Members.toks, ← List.cons_append]
    refine Within.append (.cons ?_ rfl (value.within_toks _ _ _)) ?_
    · simp [Body.tok]
      omega
    · rw [List.length_cons, value.length_toks, Nat.add_comm value.count, ← Nat.add_assoc]
      exact rest.within_toks _ _ _

end

section Tokens

variable {pos n count : Nat} {p : Int} {tokens more : List JsmnTok} {js : Text}

/-- A bracket, its parts and the bracket that closes it. -/
theorem loop_bracket {c d : Char} {type : JsmnType} {inner : Text} {k m : Nat} {p' : Int}
    (hc : c = '[' ∧ type = .array ∨ c = '{' ∧ type = .object)
    (hd : d = ']' ∧ type = .array ∨ d = '}' ∧ type = .object)
    (h : Super tokens p JsmnTok.Takes) (room : tokens.length < n)
    (hmore : Within tokens.length (tokens.length + 1) more)
    (hinner : Jsmn.loop ⟨pos + 1, tokens.length, some n,
        addSize 1 p tokens ++ [⟨type, pos, -1, 0, p⟩], count + 1, 0⟩ (inner ++ d :: js) =
      Jsmn.loop ⟨pos + 1 + inner.length, p', some n,
        addSize k tokens.length (addSize 1 p tokens ++ [⟨type, pos, -1, 0, p⟩]) ++ more,
        count + 1 + m, 0⟩ (d :: js)) :
    Jsmn.loop ⟨pos, p, some n, tokens, count, 0⟩ (c :: (inner ++ [d]) ++ js) =
      Jsmn.loop ⟨pos + (inner.length + 2), p, some n,
        addSize 1 p tokens ++ ⟨type, pos, pos + inner.length + 2, k, p⟩ :: more,
        count + (m + 1), 0⟩ js := by
  rw [List.cons_append, List.append_assoc, List.singleton_append, loop_open hc h room, hinner]
  have hsize : addSize k (addSize 1 p tokens).length
      (addSize 1 p tokens ++ [⟨type, pos, -1, 0, p⟩]) = _ := addSize_next
  rw [length_addSize] at hsize
  rw [hsize, List.append_assoc, List.singleton_append, loop_close hd (by simpa using hmore)]
  simp only [Nat.zero_add]
  congr 2
  · omega
  · congr 3
    simp
    omega
  · omega

/-- A comma does not change the superior token of an item. -/
theorem Items.loop_comma_tok (items : Items) (h : Super tokens p (·.type = .array)) :
    Jsmn.loop ⟨pos, p, some n, tokens, count, 0⟩ (items.comma ++ js) =
      Jsmn.loop ⟨pos + items.comma.length, p, some n, tokens, count, 0⟩ js := by
  cases items with
  | nil => rfl
  | cons =>
    have hchar : Jsmn.char ⟨pos, p, some n, tokens, count, 0⟩ ',' js =
        .ok ⟨pos, p, some n, tokens, count, 0⟩ := by
      rw [Jsmn.char_comma]
      obtain rfl | ⟨i, t, rfl, ht, harray⟩ := h
      · rfl
      · have hi : ((i : Int) != -1) = true := by simp
        simp [Jsmn.comma, hi, Jsmn.tok_eq ht, Bind.bind, Except.bind, harray, pure, Except.pure]
    exact Jsmn.loop_char hchar

/-- A comma after the value of a key leads to the object. -/
theorem loop_comma_key {t : JsmnTok} {i : Nat} (ht : tokens[i]? = some t)
    (hkey : t.type = .string) :
    Jsmn.loop ⟨pos, i, some n, tokens, count, 0⟩ (',' :: js) =
      Jsmn.loop ⟨pos + 1, t.parent, some n, tokens, count, 0⟩ js := by
  have hchar : Jsmn.char ⟨pos, i, some n, tokens, count, 0⟩ ',' js =
      .ok ⟨pos, t.parent, some n, tokens, count, 0⟩ := by
    rw [Jsmn.char_comma]
    have hi : ((i : Int) != -1) = true := by simp
    simp [Jsmn.comma, hi, Jsmn.tok_eq ht, Bind.bind, Except.bind, hkey, pure, Except.pure]
  exact Jsmn.loop_char hchar

theorem loop_colon :
    Jsmn.loop ⟨pos, p, some n, tokens, count, 0⟩ (':' :: js) =
      Jsmn.loop ⟨pos + 1, (tokens.length : Int) - 1, some n, tokens, count, 0⟩ js :=
  rfl

end Tokens

mutual

/-- The tokens of a value are appended, and it counts as a part of the superior token. -/
theorem Json.loop_toks {pos n count : Nat} {p : Int} {tokens : List JsmnTok} {js : Text} (v : Json)
    (h : Super tokens p JsmnTok.Takes) (room : tokens.length + v.count ≤ n) (hjs : v.Before js) :
    Jsmn.loop ⟨pos, p, some n, tokens, count, 0⟩ (v.text ++ js) =
      Jsmn.loop ⟨pos + v.text.length, p, some n,
        addSize 1 p tokens ++ v.toks pos p tokens.length, count + v.count, 0⟩ js := by
  cases v with
  | prim t => exact t.loop_tok h room hjs
  | str s => exact s.loop_tok h room
  | arr items =>
    simp only [Json.count] at room
    have hsuper : Super (addSize 1 p tokens ++ [⟨.array, pos, -1, 0, p⟩]) tokens.length
        (·.type = .array) := .last (by simp) rfl
    have hinner : Jsmn.loop ⟨pos + 1, tokens.length, some n,
        addSize 1 p tokens ++ [⟨.array, pos, -1, 0, p⟩], count + 1, 0⟩
        (items.text ++ ']' :: js) = _ :=
      items.loop_toks hsuper (by simp; omega) .array
    simp only [List.length_append, length_addSize, List.length_singleton] at hinner
    have := loop_bracket (c := '[') (.inl ⟨rfl, rfl⟩) (.inl ⟨rfl, rfl⟩) h (by omega)
      (items.within_toks _ _ _) hinner
    simpa [Json.text, Json.count, Json.toks] using this
  | obj members =>
    simp only [Json.count] at room
    have hsuper : Super (addSize 1 p tokens ++ [⟨.object, pos, -1, 0, p⟩]) tokens.length
        (·.type = .object) := .last (by simp) rfl
    obtain ⟨p', hinner⟩ : ∃ p', Jsmn.loop ⟨pos + 1, tokens.length, some n,
        addSize 1 p tokens ++ [⟨.object, pos, -1, 0, p⟩], count + 1, 0⟩
        (members.text ++ '}' :: js) = _ :=
      members.loop_toks hsuper (by simp; omega) .object
    simp only [List.length_append, length_addSize, List.length_singleton] at hinner
    have := loop_bracket (c := '{') (.inr ⟨rfl, rfl⟩) (.inr ⟨rfl, rfl⟩) h (by omega)
      (members.within_toks _ _ _) hinner
    simpa [Json.text, Json.count, Json.toks] using this

theorem Items.loop_toks {pos n count : Nat} {p : Int} {tokens : List JsmnTok} {js : Text}
    (items : Items) (h : Super tokens p (·.type = .array))
    (room : tokens.length + items.count ≤ n) (hjs : Ends js) :
    Jsmn.loop ⟨pos, p, some n, tokens, count, 0⟩ (items.text ++ js) =
      Jsmn.loop ⟨pos + items.text.length, p, some n,
        addSize items.values.length p tokens ++ items.toks pos p tokens.length,
        count + items.count, 0⟩ js := by
  cases items with
  | nil blank =>
    apply (Jsmn.loop_blank blank).trans
    simp [Items.values, Items.toks, Items.text, Items.count]
  | cons before value after rest =>
    simp only [Items.count] at room
    simp only [Items.text, List.append_assoc]
    rw [Jsmn.loop_blank, value.loop_toks (h.imp fun _ => .inl) (by omega)
      (Json.before_of_ends ((rest.ends hjs).blank after)), Jsmn.loop_blank,
      rest.loop_comma_tok h.addSize.append, rest.loop_toks h.addSize.append (by simp; omega) hjs,
      addSize_append h.addSize, addSize_add]
    simp only [Items.values, Items.toks, Items.count, List.append_assoc, List.length_append,
      length_addSize, Json.length_toks, List.length_cons]
    congr 2
    · omega
    · rw [Nat.add_comm 1]
    · omega

/-- The members of an object.  A comma leads back from the key to the object; after the last value
the key stays the superior token. -/
theorem Members.loop_toks {pos n count : Nat} {p : Int} {tokens : List JsmnTok} {js : Text}
    (members : Members) (h : Super tokens p (·.type = .object))
    (room : tokens.length + members.count ≤ n) (hjs : Ends js) :
    ∃ p', Jsmn.loop ⟨pos, p, some n, tokens, count, 0⟩ (members.text ++ js) =
      Jsmn.loop ⟨pos + members.text.length, p', some n,
        addSize members.entries.length p tokens ++ members.toks pos p tokens.length,
        count + members.count, 0⟩ js := by
  cases members with
  | nil blank =>
    refine ⟨p, (Jsmn.loop_blank blank).trans ?_⟩
    simp [Members.entries, Members.toks, Members.text, Members.count]
  | cons before key colon between value after rest =>
    simp only [Members.count] at room
    simp only [Members.text, List.append_assoc, List.cons_append]
    have hkey : Super (addSize 1 p tokens ++ [key.tok (pos + before.1.length) 0 p]) tokens.length
        JsmnTok.Takes := .last (by simp) (.inr ⟨rfl, rfl⟩)
    have hlast : ((addSize 1 p tokens ++ [key.tok (pos + before.1.length) 0 p]).length : Int) - 1 =
        tokens.length := by
      simp
    have hsize : addSize 1 tokens.length
        (addSize 1 p tokens ++ [key.tok (pos + before.1.length) 0 p]) =
        addSize 1 p tokens ++ [key.tok (pos + before.1.length) 1 p] := by
      rw [← length_addSize (n := 1) (p := p), addSize_next]
      rfl
    have ih : ∀ {pos count : Nat} {tokens : List JsmnTok} (_ : Super tokens p (·.type = .object))
        (_ : tokens.length + rest.count ≤ n),
        ∃ p', Jsmn.loop ⟨pos, p, some n, tokens, count, 0⟩ (rest.text ++ js) = _ :=
      fun h room => rest.loop_toks h room hjs
    rw [Jsmn.loop_blank, key.loop_tok h (by omega), Jsmn.loop_blank, loop_colon, hlast,
      Jsmn.loop_blank, value.loop_toks hkey (by simp; omega)
      (Json.before_of_ends ((rest.ends hjs).blank after)), Jsmn.loop_blank, hsize]
    cases rest with
    | nil blank =>
      refine ⟨tokens.length, (Jsmn.loop_blank blank).trans ?_⟩
      simp only [Members.text, Members.comma, Members.entries, Members.toks, Members.count,
        List.append_nil, List.length_append, List.length_cons, List.length_nil, List.append_assoc,
        length_addSize, List.singleton_append]
      congr 2 <;> omega
    | cons =>
      rw [Members.comma, List.singleton_append,
        loop_comma_key (i := tokens.length) (t := key.tok (pos + before.1.length) 1 p)
          (by simp) rfl]
      refine (ih ?_ ?_).imp fun p' ih => ih.trans ?_
      · exact h.addSize.append.append
      · simp
        omega
      · rw [List.append_assoc, addSize_append h.addSize, addSize_add]
        simp only [Members.comma, Members.entries, Members.toks, Members.count, List.append_assoc,
          List.length_append, List.length_cons, List.length_nil, List.singleton_append,
          length_addSize, Json.length_toks]
        congr 2
        · omega
        · have hbase : tokens.length + (value.count + 1) = tokens.length + 1 + value.count := by
            omega
          simp only [Nat.add_comm 1, Nat.zero_add, List.cons_append, hbase]
        · omega

end

/-! ### Whole texts -/

theorem loop_sep {pos count : Nat} {pool : Option Nat} {tokens : List JsmnTok} {c : Char}
    {js : Text} (hc : (isBlank c || c == ',') = true) :
    Jsmn.loop ⟨pos, -1, pool, tokens, count, 0⟩ (c :: js) =
      Jsmn.loop ⟨pos + 1, -1, pool, tokens, count, 0⟩ js := by
  simp only [Bool.or_eq_true, beq_iff_eq] at hc
  rcases hc with hblank | rfl
  · exact Jsmn.loop_char (Jsmn.char_blank hblank)
  · have hchar : Jsmn.char ⟨pos, -1, pool, tokens, count, 0⟩ ',' js =
        .ok ⟨pos, -1, pool, tokens, count, 0⟩ := by
      simp [Jsmn.char_comma, Jsmn.comma, pure, Except.pure]
    exact Jsmn.loop_char hchar

theorem Tail.loop_count {pos count : Nat} (tail : Tail) (h : tail.Whole) :
    Jsmn.loop ⟨pos, -1, none, [], count, 0⟩ tail.text =
      .ok ⟨pos + tail.text.length, -1, none, [], count + tail.count, 0⟩ := by
  induction tail generalizing pos count with
  | nil => rfl
  | sep c hc rest ih =>
    rw [Tail.text, loop_sep hc, ih h, List.length_cons, Tail.count]
    congr 2
    omega
  | value v rest ih =>
    rw [Tail.text, v.loop_count h.1, ih h.2, List.length_append, Tail.count]
    congr 2 <;> omega

theorem Tail.loop_toks {pos n count : Nat} {tokens : List JsmnTok} (tail : Tail) (h : tail.Whole)
    (room : tokens.length + tail.count ≤ n) :
    Jsmn.loop ⟨pos, -1, some n, tokens, count, 0⟩ tail.text =
      .ok ⟨pos + tail.text.length, -1, some n, tokens ++ tail.toks pos tokens.length,
        count + tail.count, 0⟩ := by
  induction tail generalizing pos count tokens with
  | nil => simp [Tail.text, Tail.toks, Tail.count, Jsmn.loop]
  | sep c hc rest ih =>
    rw [Tail.text, loop_sep hc, ih h room, List.length_cons, Tail.count, Tail.toks]
    congr 2
    omega
  | value v rest ih =>
    simp only [Tail.count] at room
    rw [Tail.text, v.loop_toks (.inl rfl) (by omega) h.1]
    change Jsmn.loop ⟨_, _, _, tokens ++ _, _, _⟩ _ = _
    rw [ih h.2 (by simp; omega)]
    simp only [List.length_append, Tail.count, Tail.toks, Json.length_toks, List.append_assoc]
    congr 2 <;> omega

theorem Tail.within_toks (tail : Tail) (pos base : Nat) :
    Within (-1) base (tail.toks pos base) := by
  induction tail generalizing pos base with
  | nil => exact .nil
  | sep c hc rest ih => exact ih _ _
  | value v rest ih =>
    apply (v.within_toks _ _ _).append
    rw [v.length_toks]
    exact ih _ _

namespace Document

variable (doc : Document)

theorem jsmnParse_count : jsmnParse doc.text none = .ok ([], doc.count) := by
  have hloop : (jsmnInit none).loop doc.text =
      .ok ⟨doc.text.length, -1, none, [], doc.count, 0⟩ := by
    rw [jsmnInit, text, Jsmn.loop_blank, (Json.obj doc.root).loop_count trivial,
      doc.tail.loop_count doc.whole]
    simp [count, Nat.add_assoc]
  rw [jsmnParse, hloop]
  rfl

theorem jsmnParse_toks : jsmnParse doc.text (some doc.count) = .ok (doc.toks, doc.count) := by
  have hloop : (jsmnInit (some doc.count)).loop doc.text =
      .ok ⟨doc.text.length, -1, some doc.count, doc.toks, doc.count, 0⟩ := by
    rw [jsmnInit, text, Jsmn.loop_blank, (Json.obj doc.root).loop_toks (.inl rfl)
      (by simp [count]) trivial]
    change Jsmn.loop ⟨_, _, _, [] ++ _, _, _⟩ _ = _
    rw [doc.tail.loop_toks doc.whole (by simp [count])]
    simp [count, toks, rootToks, Nat.add_assoc]
  have hclosed : (doc.toks.any fun t => t.start != -1 && t.stop == -1) = false := by
    rw [List.any_eq_false]
    intro t ht
    obtain ⟨i, hi⟩ := List.getElem?_of_mem ht
    have hwithin : Within (-1) 0 doc.toks := by
      apply ((Json.obj doc.root).within_toks _ _ _).append
      rw [Json.length_toks, Nat.zero_add]
      exact doc.tail.within_toks _ _
    simp [(hwithin i t hi).1]
  rw [jsmnParse, hloop]
  simp [Bind.bind, Except.bind, hclosed, pure, Except.pure]

end Document

end VhomeBridge.Link
