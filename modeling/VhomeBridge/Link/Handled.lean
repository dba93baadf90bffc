import VhomeBridge.Link.Strings

/-! Which texts `json_parsing` answers with a map.  A rejected text leaves the context zeroed, and
`json_obj_search` reads through its cursor all the same.  On an accepted text the cursor stays on a
token, but the token after a key need not be its value: a key that is the last token has none after
it, and an array after a `link` without a value belongs to nothing. -/

namespace VhomeBridge.Link

open Lib

namespace JparseCtx

variable (ctx : JparseCtx)

/-- The outermost object has a key `link` with an array as a part. -/
def HasLink : Prop :=
  ctx.isType .object 0 = true ∧ ∃ key ∈ ctx.parts 0, ctx.isKey "link".toList key = true ∧
    ∃ v ∈ ctx.parts key, ctx.isType .array v = true

/-- The first key `link` of the outermost object is not the last token.  If an array follows it, and
is its value, the objects of its turns can be read and the lists fit; if it is not, it has no part
that is a nonempty array. -/
def Clear : Prop :=
  ∀ key, ctx.findKey 0 "link".toList = some key →
    key + 1 < ctx.tokens.length ∧ (ctx.isType .array (key + 1) = true →
      if key + 1 ∈ ctx.parts key then
        ctx.Readable (ctx.rounds (key + 1)) ∧ Fit (ctx.lists (ctx.rounds (key + 1)))
      else ∀ group ∈ ctx.parts (key + 1), ctx.isType .array group = true → ctx.parts group = [])

end JparseCtx

/-- `json_parse_start` rejects the text. -/
def Rejected (textBuf : Text) : Prop := ∃ ctx, jsonParseStart textBuf = some (false, ctx)

def Accepted (textBuf : Text) (ctx : JparseCtx) : Prop := jsonParseStart textBuf = some (true, ctx)

/-- A map is returned, and for a text that is rejected or has no link array it is empty. -/
structure Handled (textBuf : Text) : Prop where
  map : ∃ m, jsonParsing textBuf = some m
  empty : (Rejected textBuf ∨ ∀ ctx, Accepted textBuf ctx → ¬ctx.HasLink) →
    jsonParsing textBuf = some mapInit

/-! ### The first key -/

namespace JparseCtx

variable {ctx : JparseCtx} {key x : Nat}

theorem up_zero (h : ctx.On 0) : ctx.up 0 = 0 := by
  obtain ⟨⟨f, h⟩, -⟩ := h
  unfold up
  split
  · rename_i t ht
    have := h.parent_lt ht
    exact if_pos (by omega)
  · rfl

theorem findKey_eq_some {name : Text} (h : ctx.findKey x name = some key) :
    ctx.isType .object x = true ∧ (ctx.parts x).find? (ctx.isKey name) = some key := by
  unfold findKey at h
  split at h
  · rename_i hobject
    exact ⟨hobject, h⟩
  · contradiction

theorem isType_ne {type type' : JsmnType} (h : ctx.isType type x = true) (hne : type ≠ type') :
    ctx.isType type' x = false := by
  obtain ⟨t, ht, htype⟩ := isType_iff.mp h
  rw [← Bool.not_eq_true, isType_iff]
  rintro ⟨t', ht', htype'⟩
  obtain rfl := Option.some.inj (ht.symm.trans ht')
  exact hne (htype.symm.trans htype')

/-- A part of an object is a string. -/
theorem isType_part (h : ctx.On x) (hobject : ctx.isType .object x = true)
    (hkey : key ∈ ctx.parts x) : ctx.isType .string key = true := by
  obtain ⟨⟨f, h⟩, -⟩ := h
  obtain ⟨t, ht, hparent⟩ := mem_parts.mp hkey
  obtain ⟨o, ho, htype⟩ := isType_iff.mp hobject
  exact isType_iff.mpr ⟨t, ht, h.keys x key o t ho htype ht hparent⟩

/-- Above the value of a key of the outermost object is no array. -/
theorem idle_key (h : ctx.On 0) (hobject : ctx.isType .object 0 = true)
    (hkey : key ∈ ctx.parts 0) : ctx.Idle key where
  here := isType_ne (isType_part h hobject hkey) (by decide)
  above := by
    rw [up_of_mem hkey]
    exact isType_ne hobject (by decide)
  top := by rw [up_of_mem hkey, up_zero h]

/-- A token between `x` and one of its parts is a part of `x` or of a token after it. -/
theorem parent_between {i j : Nat} (h : ctx.On j) (hj : j ∈ ctx.parts x) (hlow : x < i)
    (hlt : i < j) : ∃ p ≥ x, i ∈ ctx.parts p := by
  obtain ⟨⟨f, h⟩, hlength⟩ := h
  obtain ⟨t', ht', hparent⟩ := mem_parts.mp hj
  obtain ⟨t, ht⟩ : ∃ t, ctx.tokens[i]? = some t :=
    ⟨_, List.getElem?_eq_getElem (Nat.lt_trans hlt hlength)⟩
  have hnode {k : Nat} {u : JsmnTok} (hu : ctx.tokens[k]? = some u) :
      (f.links (-1) 0)[k]? = some u.node := by rw [h.getElem?, hu, Option.map_some]
  have hle : t'.parent ≤ t.parent := Forest.parent_between (by omega) (hnode ht) (hnode ht')
    (show t'.parent < _ by omega) hlt
  exact ⟨t.parent.toNat, by omega, mem_parts.mpr ⟨t, ht, by omega⟩⟩

/-- If an array follows the first key `link` and is not its value, no key `link` has a value. -/
theorem not_hasLink (h : ctx.On 0) (hkey : ctx.findKey 0 "link".toList = some key)
    (harray : ctx.isType .array (key + 1) = true) (hnot : key + 1 ∉ ctx.parts key) :
    ¬ctx.HasLink := by
  rintro ⟨hobject, key', hmem', hname', v, hv, -⟩
  obtain ⟨-, hfind⟩ := findKey_eq_some hkey
  have hmem := List.mem_of_find?_eq_some hfind
  have hnext : ctx.On (key + 1) := by
    obtain ⟨t, ht, -⟩ := isType_iff.mp harray
    exact ⟨h.shaped, (List.getElem?_eq_some_iff.mp ht).1⟩
  -- a token that follows the key and has a parent is a part of the key
  have hparent {p : Nat} (hp : key + 1 ∈ ctx.parts p) : False := by
    have hlt := hnext.parent_lt hp
    by_cases hpk : p = key
    · exact hnot (hpk ▸ hp)
    · obtain ⟨q, hq, hkeyq⟩ := parent_between hnext hp (show p < key by omega) (by omega)
      have hzero : q = 0 := (up_of_mem hkeyq).symm.trans (up_of_mem hmem)
      have hstring := isType_part h hobject (show key + 1 ∈ ctx.parts 0 by
        rwa [show p = 0 by omega] at hp)
      rw [isType_ne hstring (by decide)] at harray
      contradiction
  obtain ⟨-, before, after, hparts, hbefore⟩ := List.find?_eq_some_iff_append.mp hfind
  have hle : key ≤ key' := by
    have hsorted : (ctx.parts 0).Pairwise (· < ·) := Forest.pairwise_childrenOf _ _ _
    rw [hparts] at hsorted hmem'
    rcases List.mem_append.mp hmem' with hmem' | hmem'
    · have := hbefore key' hmem'
      rw [hname'] at this
      contradiction
    · rcases List.mem_cons.mp hmem' with rfl | hmem'
      · exact Nat.le_refl _
      · exact Nat.le_of_lt (List.rel_of_pairwise_cons (List.pairwise_append.mp hsorted).2.1 hmem')
  by_cases heq : key' = key
  · subst heq
    have hon := (h.part hmem).part hv
    have hlt := hon.parent_lt hv
    by_cases hv' : v = key' + 1
    · exact hnot (hv' ▸ hv)
    · obtain ⟨p, -, hp⟩ := parent_between hon hv (show key' < key' + 1 by omega) (by omega)
      exact hparent hp
  · by_cases hkey' : key' = key + 1
    · exact hparent (hkey' ▸ hmem')
    · obtain ⟨p, -, hp⟩ :=
        parent_between (h.part hmem') hmem' (show 0 < key + 1 by omega) (by omega)
      exact hparent hp

/-! ### Groups that are empty -/

theorem mapSet_nnodes {m m' : MapStr} {k value : Text} {vsize : Nat}
    (h : mapSet m k value vsize = some m') (hm : 0 < m.nnodes ∨ m = mapInit) : 0 < m'.nnodes := by
  unfold mapSet at h
  split at h
  · rename_i node hnode
    split at h
    · obtain rfl := Option.some.inj h
      apply hm.resolve_right
      rintro rfl
      contradiction
    · contradiction
  · obtain rfl := Option.some.inj h
    exact Nat.succ_pos _

theorem buttonBody_nnodes {n j : Nat} {s s' : ButtonLoop} (h : buttonBody n j s = some s')
    (hs : 0 < s.map.nnodes ∨ s.map = mapInit) : 0 < s'.map.nnodes := by
  simp only [buttonBody_eq, Option.bind_eq_some_iff, Option.some.injEq] at h
  obtain ⟨_, -, _, -, _, -, key, -, r, -, map, hmap, rfl⟩ := h
  exact mapSet_nnodes hmap hs

theorem groupBody_nnodes {i : Nat} {s s' : ButtonLoop} (h : groupBody i s = some s')
    (hs : 0 < s.map.nnodes) : 0 < s'.map.nnodes := by
  simp only [groupBody, Bind.bind, Option.bind_eq_some_iff] at h
  obtain ⟨array, -, h⟩ := h
  cases array with
  | none => exact Option.some.inj h ▸ hs
  | some r =>
    obtain ⟨ctx, n⟩ := r
    simp only [Option.bind_eq_some_iff, pure, Option.some.injEq] at h
    obtain ⟨t, hloop, _, -, rfl⟩ := h
    exact forRange_holds (I := fun s => 0 < s.map.nnodes)
      (fun j s s' hbody hs => buttonBody_nnodes hbody (.inl hs)) hloop hs

section

variable {array i : Nat} {fields : Fields} {m : MapStr}

/-- An element that is no group, or an empty one, changes nothing. -/
theorem groupBody_empty (h : ctx.On array)
    (hempty : ∀ group, ctx.item .array array i = some group → ctx.parts group = []) :
    groupBody i ⟨ctx.goto array, fields, m⟩ = some ⟨ctx.goto array, fields, m⟩ := by
  unfold groupBody
  simp only [h.arrGetArray, Bind.bind, Option.bind_some]
  cases hgroup : ctx.item .array array i with
  | none => rfl
  | some group =>
    have hmem := mem_parts_of_item hgroup
    have hleave := (h.part hmem).leave
    rw [up_of_mem hmem] at hleave
    simp only [Option.map_some, hempty group hgroup, List.length_nil, forRange, Option.bind_some,
      hleave]
    rfl

/-- A group that is not empty puts an entry into the map. -/
theorem groupBody_nonempty (h : ctx.On array)
    {group : Nat} (hgroup : ctx.item .array array i = some group) (hne : ctx.parts group ≠ [])
    {s' : ButtonLoop} (hbody : groupBody i ⟨ctx.goto array, fields, mapInit⟩ = some s') :
    0 < s'.map.nnodes := by
  unfold groupBody at hbody
  simp only [h.arrGetArray, hgroup, Option.map_some, Bind.bind,
    Option.bind_some, Option.bind_eq_some_iff, pure, Option.some.injEq] at hbody
  obtain ⟨t, hloop, _, -, rfl⟩ := hbody
  obtain ⟨n, hn⟩ : ∃ n, (ctx.parts group).length = n + 1 :=
    ⟨_, (Nat.succ_pred_eq_of_pos (List.length_pos_iff.mpr hne)).symm⟩
  rw [hn, forRange] at hloop
  obtain ⟨u, hfirst, hrest⟩ := Option.bind_eq_some_iff.mp hloop
  exact forRange_holds (I := fun s => 0 < s.map.nnodes)
    (fun j s s' hbody hs => buttonBody_nnodes hbody (.inl hs)) hrest
    (buttonBody_nnodes hfirst (.inr rfl))

theorem groups_empty (h : ctx.On array) {n : Nat}
    (hempty : ∀ j group, ctx.item .array array j = some group → ctx.parts group = []) :
    forRange groupBody n i ⟨ctx.goto array, fields, m⟩ = some ⟨ctx.goto array, fields, m⟩ := by
  induction n generalizing i with
  | zero => rfl
  | succ n ih => rw [forRange, groupBody_empty h (hempty i), Option.bind_some, ih]

theorem groups_init (h : ctx.On array) {n : Nat} {s' : ButtonLoop}
    (hloop : forRange groupBody n i ⟨ctx.goto array, fields, mapInit⟩ = some s')
    (hinit : s'.map = mapInit) {j group : Nat} (hle : i ≤ j) (hlt : j < i + n)
    (hgroup : ctx.item .array array j = some group) : ctx.parts group = [] := by
  induction n generalizing i with
  | zero => omega
  | succ n ih =>
    obtain ⟨t, hfirst, hrest⟩ := Option.bind_eq_some_iff.mp hloop
    by_cases hempty : ∀ g, ctx.item .array array i = some g → ctx.parts g = []
    · rw [groupBody_empty h hempty] at hfirst
      obtain rfl := Option.some.inj hfirst
      by_cases hj : j = i
      · exact hempty group (hj ▸ hgroup)
      · exact ih hrest (by omega) (by omega)
    · push Not at hempty
      obtain ⟨g, hg, hne⟩ := hempty
      have hpos := forRange_holds (I := fun s => 0 < s.map.nnodes)
        (fun j s s' hbody hs => groupBody_nnodes hbody hs) hrest
        (groupBody_nonempty h hg hne hfirst)
      rw [hinit] at hpos
      contradiction

end

end JparseCtx

/-! ### Whole texts -/

section

variable {textBuf : Text} {ctx : JparseCtx} {key : Nat}

theorem Accepted.cases (textBuf : Text) : jsonParseStart textBuf = some (false, .zero) ∨
    ∃ ctx, Accepted textBuf ctx ∧ ctx.goto 0 = ctx ∧ ctx.On 0 := by
  rcases jsonParseStart_cases textBuf with hrejected | ⟨tokens, f, hstart, hne, hshaped⟩
  · exact .inl hrejected
  · exact .inr ⟨_, hstart, rfl, ⟨f, hshaped⟩, List.length_pos_iff.mpr hne⟩

theorem Accepted.unique {ctx' : JparseCtx} (h : Accepted textBuf ctx)
    (h' : Accepted textBuf ctx') : ctx = ctx' := by
  simpa using h.symm.trans h'

/-- A rejected text is read through a cursor that is NULL. -/
theorem jsonParsing_rejected (h : jsonParseStart textBuf = some (false, .zero)) :
    jsonParsing textBuf = none := by
  simp only [jsonParsing, h, Bind.bind, Option.bind_some]
  rfl

theorem handled_of_no_array (h : Accepted textBuf ctx)
    (harray : ctx.jsonObjGetArray "link".toList = some none) : Handled textBuf := by
  unfold Accepted at h
  have hmap : jsonParsing textBuf = some mapInit := by
    simp only [jsonParsing, h, harray, Bind.bind, Option.bind_some, pure]
  exact ⟨⟨mapInit, hmap⟩, fun _ => hmap⟩

theorem not_handled_of_last (h : Accepted textBuf ctx)
    (harray : ctx.jsonObjGetArray "link".toList = none) : ¬Handled textBuf := by
  unfold Accepted at h
  rintro ⟨⟨m, hm⟩, -⟩
  simp only [jsonParsing, h, harray, Bind.bind, Option.bind_some, Option.bind_none] at hm
  contradiction

theorem jsonParsing_eq {array n : Nat} (h : Accepted textBuf ctx)
    (harray : ctx.jsonObjGetArray "link".toList = some (some (ctx.goto array, n))) :
    jsonParsing textBuf =
      (forRange groupBody n 0 ⟨ctx.goto array, ⟨none, none, none⟩, mapInit⟩).bind fun s =>
        s.ctx.jsonObjLeaveArray.bind fun _ => some s.map := by
  unfold Accepted at h
  simp only [jsonParsing, h, harray, Bind.bind, Option.bind_some, pure]

/-- An array that is the value of the key. -/
theorem handled_iff_value (h : Accepted textBuf ctx) (hroot : ctx.On 0)
    (hkey : ctx.findKey 0 "link".toList = some key)
    (htype : ctx.isType .array (key + 1) = true) (hvalue : key + 1 ∈ ctx.parts key)
    (harray : ctx.jsonObjGetArray "link".toList =
      some (some (ctx.goto (key + 1), (ctx.parts (key + 1)).length))) :
    Handled textBuf ↔
      ctx.Readable (ctx.rounds (key + 1)) ∧ Fit (ctx.lists (ctx.rounds (key + 1))) := by
  obtain ⟨hobject, hfind⟩ := JparseCtx.findKey_eq_some hkey
  have hmem := List.mem_of_find?_eq_some hfind
  have hidle : ctx.Idle (ctx.up (key + 1)) := by
    rw [JparseCtx.up_of_mem hvalue]
    exact JparseCtx.idle_key hroot hobject hmem
  have hlink : ctx.HasLink := ⟨hobject, key, hmem, List.find?_some hfind, key + 1, hvalue, htype⟩
  have hon : ctx.On (key + 1) := (hroot.part hmem).part hvalue
  obtain ⟨d, hloop⟩ := JparseCtx.groups_eq (i := 0) hon htype hidle (Nat.zero_add _)
  have hsome : (∃ m, jsonParsing textBuf = some m) ↔
      (ctx.putRounds (ctx.rounds (key + 1)) (⟨none, none, none⟩, mapInit)).isSome := by
    rw [← Option.isSome_iff_exists, jsonParsing_eq h harray, hloop, List.drop_zero]
    change _ ↔ (ctx.putRounds (ctx.groupRounds (ctx.objects (key + 1)) (ctx.parts (key + 1)))
      (⟨none, none, none⟩, mapInit)).isSome
    cases ctx.putRounds (ctx.groupRounds (ctx.objects (key + 1)) (ctx.parts (key + 1)))
      (⟨none, none, none⟩, mapInit) with
    | none => exact Iff.rfl
    | some r =>
      obtain ⟨ctx', hleave⟩ := Option.isSome_iff_exists.mp (hon.iterate d).leaveArray_isSome
      simp [hleave]
  have hstore (lists : List (Text × Text)) :
      (lists.foldlM Links.store fun _ => none).isSome ↔ Fit lists := by
    change (storeAll lists).isSome ↔ _
    rw [Option.isSome_iff_exists]
    simp only [storeAll_eq_some_iff, exists_and_left, exists_eq, and_true]
  have hlists : (∃ m, jsonParsing textBuf = some m) ↔
      ctx.Readable (ctx.rounds (key + 1)) ∧ Fit (ctx.lists (ctx.rounds (key + 1))) := by
    rw [hsome, JparseCtx.putRounds_isSome MapStr.valid_init, JparseCtx.links_init]
    simp only [hstore, JparseCtx.entries_eq_some (JparseCtx.on_of_rounds hon), and_assoc,
      exists_and_left, exists_eq_left']
  refine ⟨fun hhandled => hlists.mp hhandled.map, fun hfit => ⟨hlists.mpr hfit, ?_⟩⟩
  rintro (⟨ctx', hrejected⟩ | hnone)
  · have := h.symm.trans hrejected
    simp at this
  · exact absurd hlink (hnone ctx h)

/-- An array that is not the value of the key. -/
theorem handled_iff_stray (h : Accepted textBuf ctx) (hroot : ctx.On 0)
    (hkey : ctx.findKey 0 "link".toList = some key) (hnext : ctx.On (key + 1))
    (htype : ctx.isType .array (key + 1) = true) (hstray : key + 1 ∉ ctx.parts key)
    (harray : ctx.jsonObjGetArray "link".toList =
      some (some (ctx.goto (key + 1), (ctx.parts (key + 1)).length))) :
    Handled textBuf ↔
      ∀ group ∈ ctx.parts (key + 1), ctx.isType .array group = true → ctx.parts group = [] := by
  have hitem : (∀ group ∈ ctx.parts (key + 1), ctx.isType .array group = true →
      ctx.parts group = []) ↔
      ∀ j group, ctx.item .array (key + 1) j = some group → ctx.parts group = [] := by
    constructor
    · intro hempty j group hgroup
      exact hempty group (JparseCtx.mem_parts_of_item hgroup) (JparseCtx.item_eq_some.mp hgroup).2.2
    · intro hempty group hmem hgroup
      obtain ⟨j, hj⟩ := List.getElem?_of_mem hmem
      exact hempty j group (JparseCtx.item_eq_some.mpr ⟨htype, hj, hgroup⟩)
  rw [hitem]
  have heq := jsonParsing_eq h harray
  constructor
  · intro hhandled j group hgroup
    have hinit := hhandled.empty <| .inr fun ctx' h' =>
      h.unique h' ▸ JparseCtx.not_hasLink hroot hkey htype hstray
    rw [heq] at hinit
    obtain ⟨s, hloop, hinit⟩ := Option.bind_eq_some_iff.mp hinit
    obtain ⟨_, -, hmap⟩ := Option.bind_eq_some_iff.mp hinit
    have hj := (List.getElem?_eq_some_iff.mp (JparseCtx.item_eq_some.mp hgroup).2.1).1
    exact JparseCtx.groups_init hnext hloop (Option.some.inj hmap) (Nat.zero_le j)
      (by omega) hgroup
  · intro hempty
    obtain ⟨ctx', hleave⟩ := Option.isSome_iff_exists.mp hnext.leaveArray_isSome
    have hmap : jsonParsing textBuf = some mapInit := by
      rw [heq, JparseCtx.groups_empty hnext hempty]
      simp only [Option.bind_some, hleave]
    exact ⟨⟨mapInit, hmap⟩, fun _ => hmap⟩

theorem handled_iff_of_accepted (h : Accepted textBuf ctx) (hgoto : ctx.goto 0 = ctx)
    (hroot : ctx.On 0) : Handled textBuf ↔ ctx.Clear := by
  cases hkey : ctx.findKey 0 "link".toList with
  | none =>
    have harray := hroot.objGetArray_none hkey
    rw [hgoto] at harray
    apply iff_of_true (handled_of_no_array h harray)
    intro key hkey'
    rw [hkey] at hkey'
    contradiction
  | some key =>
    have hclear : ctx.Clear ↔ key + 1 < ctx.tokens.length ∧
        (ctx.isType .array (key + 1) = true →
          if key + 1 ∈ ctx.parts key then
            ctx.Readable (ctx.rounds (key + 1)) ∧ Fit (ctx.lists (ctx.rounds (key + 1)))
          else ∀ group ∈ ctx.parts (key + 1),
            ctx.isType .array group = true → ctx.parts group = []) := by
      simp only [JparseCtx.Clear, hkey, Option.some.injEq, forall_eq']
    have harray := hroot.objGetArray_some hkey
    rw [hgoto] at harray
    rw [hclear]
    by_cases hlt : key + 1 < ctx.tokens.length
    · rw [if_pos hlt] at harray
      simp only [hlt, true_and]
      by_cases htype : ctx.isType .array (key + 1) = true
      · rw [if_pos htype] at harray
        simp only [htype, forall_const]
        split
        · rename_i hvalue
          exact handled_iff_value h hroot hkey htype hvalue harray
        · rename_i hstray
          exact handled_iff_stray h hroot hkey ⟨hroot.shaped, hlt⟩ htype hstray harray
      · rw [if_neg htype] at harray
        exact iff_of_true (handled_of_no_array h harray) fun h => absurd h htype
    · rw [if_neg hlt] at harray
      exact iff_of_false (not_handled_of_last h harray) fun h => hlt h.1

/-- A map is returned, and the map that it should be, just for the texts that are accepted and
clear. -/
theorem handled_iff_clear (textBuf : Text) :
    Handled textBuf ↔ ∃ ctx, Accepted textBuf ctx ∧ ctx.Clear := by
  rcases Accepted.cases textBuf with hrejected | ⟨ctx, haccepted, hgoto, hroot⟩
  · refine iff_of_false (fun h => ?_) ?_
    · obtain ⟨m, hm⟩ := h.map
      rw [jsonParsing_rejected hrejected] at hm
      contradiction
    · rintro ⟨ctx, haccepted, -⟩
      have := haccepted.symm.trans hrejected
      simp at this
  · rw [handled_iff_of_accepted haccepted hgoto hroot]
    constructor
    · exact fun h => ⟨ctx, haccepted, h⟩
    · rintro ⟨ctx', haccepted', h⟩
      exact haccepted.unique haccepted' ▸ h

/-- The empty text is rejected, and read all the same. -/
theorem empty_unhandled : ¬Handled [] := by
  rintro ⟨⟨m, hm⟩, -⟩
  rw [jsonParsing_rejected rfl] at hm
  contradiction

end

end VhomeBridge.Link
