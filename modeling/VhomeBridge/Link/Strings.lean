import VhomeBridge.Link.Visits

/-! The lists of the turns from the strings of the objects.  The buffers keep the strings of the
object read before where an object lacks one, and hold nothing before the first.  So the lists can
be put together if the first turn starts with an object that has all three strings, and no key that
is looked for is the last token: what follows it would be read as its value. -/

namespace VhomeBridge.Link

/-! ### The buffers -/

namespace Fields

/-- The strings of an object, and what is in the buffers where it lacks one. -/
def update (fields new : Fields) : Fields where
  nodeId := new.nodeId.or fields.nodeId
  protocol := new.protocol.or fields.protocol
  endpoint := new.endpoint.or fields.endpoint

def text (fields : Fields) : Text :=
  fields.nodeId.getD [] ++ fields.protocol.getD [] ++ fields.endpoint.getD []

/-- All three buffers hold a string. -/
structure Filled (fields : Fields) : Prop where
  nodeId : fields.nodeId.isSome
  protocol : fields.protocol.isSome
  endpoint : fields.endpoint.isSome

/-- What is in the buffers fits them. -/
structure Short (fields : Fields) : Prop where
  nodeId : ∀ s ∈ fields.nodeId, s.length < 20
  protocol : ∀ s ∈ fields.protocol, s.length < 10
  endpoint : ∀ s ∈ fields.endpoint, s.length < 5

variable {fields new : Fields}

theorem Filled.update (h : fields.Filled) (new : Fields) : (fields.update new).Filled where
  nodeId := by simp [Fields.update, h.nodeId]
  protocol := by simp [Fields.update, h.protocol]
  endpoint := by simp [Fields.update, h.endpoint]

theorem Short.update (h : fields.Short) (hnew : new.Short) : (fields.update new).Short where
  nodeId s hs := (Option.or_eq_some_iff.mp hs).elim (hnew.nodeId s) fun hs => h.nodeId s hs.2
  protocol s hs := (Option.or_eq_some_iff.mp hs).elim (hnew.protocol s) fun hs => h.protocol s hs.2
  endpoint s hs := (Option.or_eq_some_iff.mp hs).elim (hnew.endpoint s) fun hs => h.endpoint s hs.2

/-- With nothing in the buffers only an object with all strings fills them. -/
theorem filled_update_none : (Fields.update ⟨none, none, none⟩ new).Filled ↔ new.Filled := by
  simp only [Fields.update, Option.or_none]

theorem filled_of_key (h : fields.key.isSome) : fields.Filled := by
  obtain ⟨key, hkey⟩ := Option.isSome_iff_exists.mp h
  obtain ⟨a, ha, hkey⟩ := Option.bind_eq_some_iff.mp hkey
  obtain ⟨b, hb, hkey⟩ := Option.bind_eq_some_iff.mp hkey
  obtain ⟨c, hc, -⟩ := Option.bind_eq_some_iff.mp hkey
  exact ⟨Option.isSome_iff_exists.mpr ⟨a, ha⟩, Option.isSome_iff_exists.mpr ⟨b, hb⟩,
    Option.isSome_iff_exists.mpr ⟨c, hc⟩⟩

/-- Strings that fit their buffers leave room in the `key[40]` and `ID[40]`. -/
theorem Filled.key_id (h : fields.Filled) (hshort : fields.Short) :
    fields.key = some fields.text ∧ fields.id = some (fields.text ++ " ".toList) := by
  obtain ⟨a, ha⟩ := Option.isSome_iff_exists.mp h.nodeId
  obtain ⟨b, hb⟩ := Option.isSome_iff_exists.mp h.protocol
  obtain ⟨c, hc⟩ := Option.isSome_iff_exists.mp h.endpoint
  have hla := hshort.nodeId a ha
  have hlb := hshort.protocol b hb
  have hlc := hshort.endpoint c hc
  simp only [Fields.key, Fields.id, text, ha, hb, hc, Bind.bind, Option.bind_some, Option.getD_some]
  constructor
  · apply if_pos
    rw [List.length_append, List.length_append]
    omega
  · apply if_pos
    have hone : " ".toList.length = 1 := rfl
    rw [List.length_append, List.length_append, List.length_append]
    omega

end Fields

/-! ### The strings of an object -/

namespace JparseCtx

variable (ctx : JparseCtx)

/-- The string of the first key of the name, if it fits the buffer. -/
def stringAt (y : Nat) (name : Text) (size : Nat) : Option Text := do
  let key ← ctx.findKey y name
  let t ← ctx.tokens[key + 1]?
  if t.type = .string then ctx.jsonTokToString t size else none

def strings (y : Nat) : Fields where
  nodeId := ctx.stringAt y "node_id".toList 20
  protocol := ctx.stringAt y "protocol".toList 10
  endpoint := ctx.stringAt y "endpoint".toList 5

/-- No key that is looked for in the object is the last token. -/
def KeysInside (y : Nat) : Prop :=
  ∀ name ∈ ["node_id", "protocol", "endpoint"], ∀ key ∈ ctx.findKey y name.toList,
    key + 1 < ctx.tokens.length

variable {ctx} {y : Nat} {fields : Fields}

theorem length_stringAt {name : Text} {size : Nat} {s : Text} (hpos : 0 < size)
    (h : ctx.stringAt y name size = some s) : s.length < size := by
  obtain ⟨key, -, h⟩ := Option.bind_eq_some_iff.mp h
  obtain ⟨t, -, h⟩ := Option.bind_eq_some_iff.mp h
  rw [Option.ite_none_right_eq_some] at h
  obtain ⟨-, h⟩ := h
  unfold jsonTokToString at h
  split at h
  · cases h
  · obtain rfl := Option.some.inj h
    rw [List.length_take]
    omega

theorem strings_short (ctx : JparseCtx) (y : Nat) : (ctx.strings y).Short :=
  ⟨fun _ => length_stringAt (by decide), fun _ => length_stringAt (by decide),
    fun _ => length_stringAt (by decide)⟩

theorem On.objGetString (h : ctx.On y) {name : Text} (size : Nat)
    (hinside : ∀ key ∈ ctx.findKey y name, key + 1 < ctx.tokens.length) :
    (ctx.goto y).jsonObjGetString name size = some (ctx.stringAt y name size) := by
  unfold jsonObjGetString stringAt
  cases hkey : ctx.findKey y name with
  | none =>
    rw [h.objGetValTok_none hkey]
    rfl
  | some key =>
    obtain ⟨t, ht⟩ : ∃ t, ctx.tokens[key + 1]? = some t :=
      ⟨_, List.getElem?_eq_getElem (hinside key hkey)⟩
    simp only [h.objGetValTok_some hkey, ht, Option.map_some, Bind.bind, Option.bind_some, pure]
    by_cases hstring : t.type = .string
    · rw [if_neg (not_not.mpr hstring), if_pos hstring]
      rfl
    · rw [if_pos hstring, if_neg hstring]

theorem On.inside_of_objGetString (h : ctx.On y) {name : Text} {size : Nat} {s : Option Text}
    (hget : (ctx.goto y).jsonObjGetString name size = some s) :
    ∀ key ∈ ctx.findKey y name, key + 1 < ctx.tokens.length := by
  intro key hkey
  obtain ⟨r, hr, -⟩ := Option.bind_eq_some_iff.mp hget
  rw [h.objGetValTok_some hkey] at hr
  obtain ⟨t, ht, -⟩ := Option.map_eq_some_iff.mp hr
  exact (List.getElem?_eq_some_iff.mp ht).1

/-- The buffers after an object. -/
theorem On.read_of_inside (h : ctx.On y) (hinside : ctx.KeysInside y) (fields : Fields) :
    fields.read (ctx.goto y) = some (fields.update (ctx.strings y)) := by
  unfold Fields.read
  rw [h.objGetString 20 (hinside "node_id" (by simp)),
    h.objGetString 10 (hinside "protocol" (by simp)),
    h.objGetString 5 (hinside "endpoint" (by simp))]
  rfl

theorem On.inside_of_read (h : ctx.On y) {fields' : Fields}
    (hread : fields.read (ctx.goto y) = some fields') : ctx.KeysInside y := by
  obtain ⟨a, ha, hread⟩ := Option.bind_eq_some_iff.mp hread
  obtain ⟨b, hb, hread⟩ := Option.bind_eq_some_iff.mp hread
  obtain ⟨c, hc, -⟩ := Option.bind_eq_some_iff.mp hread
  simp only [KeysInside, List.forall_mem_cons, List.not_mem_nil, false_implies, implies_true,
    and_true]
  exact ⟨h.inside_of_objGetString ha, h.inside_of_objGetString hb, h.inside_of_objGetString hc⟩

/-! ### The lists -/

section

variable (ctx)

/-- The ids of objects one after the other, behind a list. -/
def listIds : Fields → Text → List Nat → Fields × Text
  | fields, list, [] => (fields, list)
  | fields, list, y :: ys =>
    let fields := fields.update (ctx.strings y)
    listIds fields (list ++ fields.text ++ " ".toList) ys

/-- The buffers for the key of a turn. -/
def ownFields (fields : Fields) (round : Round Nat) : Fields :=
  match round.own with
  | some y => fields.update (ctx.strings y)
  | none => fields

def listsFrom : Fields → List (Round Nat) → List (Text × Text)
  | _, [] => []
  | fields, round :: rounds =>
    let own := ctx.ownFields fields round
    let r := ctx.listIds own [] round.others
    (own.text, r.2) :: listsFrom r.1 rounds

/-- The lists of the turns, with their keys. -/
def lists (rounds : List (Round Nat)) : List (Text × Text) :=
  ctx.listsFrom ⟨none, none, none⟩ rounds

/-- The objects of the turns can be read, and the first turn starts with one that has all three
strings. -/
structure Readable (rounds : List (Round Nat)) : Prop where
  inside : ∀ round ∈ rounds, ∀ y ∈ round.objects, ctx.KeysInside y
  first : ∀ round ∈ rounds.head?, ∃ y ∈ round.own, (ctx.strings y).Filled

end

variable {rounds : List (Round Nat)} {round : Round Nat} {ys : List Nat} {list : Text}

theorem ids_of_inside (list : Text) (hon : ∀ y ∈ ys, ctx.On y)
    (hinside : ∀ y ∈ ys, ctx.KeysInside y) (hfilled : fields.Filled) (hshort : fields.Short) :
    ctx.ids fields list ys = some (ctx.listIds fields list ys) ∧
      (ctx.listIds fields list ys).1.Filled ∧ (ctx.listIds fields list ys).1.Short := by
  induction ys generalizing fields list with
  | nil => exact ⟨rfl, hfilled, hshort⟩
  | cons y ys ih =>
    have hfilled' := hfilled.update (ctx.strings y)
    have hshort' := hshort.update (ctx.strings_short y)
    have hread := (hon y List.mem_cons_self).read_of_inside (hinside y List.mem_cons_self) fields
    rw [ids, hread, Option.bind_eq_bind, Option.bind_some, (hfilled'.key_id hshort').2,
      Option.bind_eq_bind, Option.bind_some, listIds, List.append_assoc]
    exact ih _ (fun z hz => hon z (List.mem_cons_of_mem y hz))
      (fun z hz => hinside z (List.mem_cons_of_mem y hz)) hfilled' hshort'

theorem inside_of_ids {r : Fields × Text} (hon : ∀ y ∈ ys, ctx.On y)
    (h : ctx.ids fields list ys = some r) : ∀ y ∈ ys, ctx.KeysInside y := by
  induction ys generalizing fields list with
  | nil => exact fun _ hy => by cases hy
  | cons y ys ih =>
    obtain ⟨fields', hread, h⟩ := Option.bind_eq_some_iff.mp h
    obtain ⟨id, -, h⟩ := Option.bind_eq_some_iff.mp h
    intro z hz
    obtain rfl | hz := List.mem_cons.mp hz
    · exact (hon z List.mem_cons_self).inside_of_read hread
    · exact ih (fun z hz => hon z (List.mem_cons_of_mem y hz)) h z hz

/-- The list of a turn whose key can be put together. -/
theorem entry_of_inside (rounds : List (Round Nat)) (hon : ∀ y ∈ round.objects, ctx.On y)
    (hinside : ∀ y ∈ round.objects, ctx.KeysInside y)
    (hfilled : (ctx.ownFields fields round).Filled) (hshort : fields.Short) :
    ∃ last, last.Filled ∧ last.Short ∧
      ctx.listsFrom fields (round :: rounds) =
        ((ctx.ownFields fields round).text,
          (ctx.listIds (ctx.ownFields fields round) [] round.others).2) ::
            ctx.listsFrom last rounds ∧
      ctx.entry fields round = some (last, ((ctx.ownFields fields round).text,
        (ctx.listIds (ctx.ownFields fields round) [] round.others).2)) := by
  have hshort' : (ctx.ownFields fields round).Short := by
    unfold ownFields
    split
    · exact hshort.update (ctx.strings_short _)
    · exact hshort
  have hothers {y : Nat} (hy : y ∈ round.others) : y ∈ round.objects :=
    Round.mem_objects.mpr (.inr hy)
  obtain ⟨hids, hlast, hlastShort⟩ := ids_of_inside []
    (fun y hy => hon y (hothers hy)) (fun y hy => hinside y (hothers hy)) hfilled hshort'
  refine ⟨_, hlast, hlastShort, rfl, ?_⟩
  have hown : ctx.ownRead fields round = some (ctx.ownFields fields round) := by
    unfold ownRead ownFields
    cases hround : round.own with
    | none => rfl
    | some y =>
      have hy : y ∈ round.objects := Round.mem_objects.mpr (.inl hround)
      exact (hon y hy).read_of_inside (hinside y hy) fields
  unfold entry
  rw [hown, Option.bind_eq_bind, Option.bind_some, (hfilled.key_id hshort').1, Option.bind_eq_bind,
    Option.bind_some, hids]
  rfl

theorem entries_of_inside (hon : ∀ round ∈ rounds, ∀ y ∈ round.objects, ctx.On y)
    (hinside : ∀ round ∈ rounds, ∀ y ∈ round.objects, ctx.KeysInside y)
    (hfirst : ∀ round ∈ rounds.head?, (ctx.ownFields fields round).Filled) (hshort : fields.Short) :
    ctx.entries fields rounds = some (ctx.listsFrom fields rounds) := by
  induction rounds generalizing fields with
  | nil => rfl
  | cons round rounds ih =>
    obtain ⟨last, hlast, hlastShort, hlists, hentry⟩ := entry_of_inside rounds
      (hon round List.mem_cons_self) (hinside round List.mem_cons_self) (hfirst round rfl) hshort
    have hown : ∀ r ∈ rounds.head?, (ctx.ownFields last r).Filled := by
      intro r _
      unfold ownFields
      split
      · exact hlast.update _
      · exact hlast
    have hrest := ih (fun r hr => hon r (List.mem_cons_of_mem round hr))
      (fun r hr => hinside r (List.mem_cons_of_mem round hr)) hown hlastShort
    rw [entries, hentry, hlists]
    dsimp only [Bind.bind, Option.bind_some]
    rw [hrest]
    rfl

theorem inside_of_entries {lists : List (Text × Text)}
    (hon : ∀ round ∈ rounds, ∀ y ∈ round.objects, ctx.On y)
    (h : ctx.entries fields rounds = some lists) :
    ∀ round ∈ rounds, ∀ y ∈ round.objects, ctx.KeysInside y := by
  induction rounds generalizing fields lists with
  | nil => exact fun _ hround => by cases hround
  | cons round rounds ih =>
    obtain ⟨r, hentry, h⟩ := Option.bind_eq_some_iff.mp h
    obtain ⟨rest, hrest, -⟩ := Option.bind_eq_some_iff.mp h
    intro round' hround'
    obtain rfl | hround' := List.mem_cons.mp hround'
    · obtain ⟨own, hown, hentry⟩ := Option.bind_eq_some_iff.mp hentry
      obtain ⟨key, -, hentry⟩ := Option.bind_eq_some_iff.mp hentry
      obtain ⟨s, hids, -⟩ := Option.bind_eq_some_iff.mp hentry
      have hround := hon round' List.mem_cons_self
      intro y hy
      obtain hy' | hothers := Round.mem_objects.mp hy
      · rw [ownRead, hy'] at hown
        exact (hround y hy).inside_of_read hown
      · exact inside_of_ids (fun z hz => hround z (Round.mem_objects.mpr (.inr hz))) hids y hothers
    · exact ih (fun r hr => hon r (List.mem_cons_of_mem round hr)) hrest round' hround'

/-- With nothing in the buffers the first turn has an object with all strings. -/
theorem first_of_entries {lists : List (Text × Text)}
    (hon : ∀ round ∈ rounds, ∀ y ∈ round.objects, ctx.On y)
    (h : ctx.entries ⟨none, none, none⟩ rounds = some lists) :
    ∀ round ∈ rounds.head?, ∃ y ∈ round.own, (ctx.strings y).Filled := by
  cases rounds with
  | nil => exact fun _ hround => by cases hround
  | cons round rounds =>
    intro round' hround'
    obtain rfl := Option.some.inj hround'
    obtain ⟨r, hentry, -⟩ := Option.bind_eq_some_iff.mp h
    obtain ⟨own, hown, hentry⟩ := Option.bind_eq_some_iff.mp hentry
    obtain ⟨key, hkey, -⟩ := Option.bind_eq_some_iff.mp hentry
    have hfilled := Fields.filled_of_key (Option.isSome_iff_exists.mpr ⟨key, hkey⟩)
    cases hround : round.own with
    | none =>
      rw [ownRead, hround] at hown
      obtain rfl := Option.some.inj hown
      exact absurd hfilled.nodeId (by decide)
    | some y =>
      rw [ownRead, hround] at hown
      dsimp only at hown
      have hony := hon round List.mem_cons_self y (Round.mem_objects.mpr (.inl hround))
      rw [hony.read_of_inside (hony.inside_of_read hown), Option.some.injEq] at hown
      exact ⟨y, rfl, Fields.filled_update_none.mp (hown ▸ hfilled)⟩

/-- When the lists can be put together, and what they are. -/
theorem entries_eq_some (hon : ∀ round ∈ rounds, ∀ y ∈ round.objects, ctx.On y)
    {lists : List (Text × Text)} : ctx.entries ⟨none, none, none⟩ rounds = some lists ↔
      ctx.Readable rounds ∧ ctx.lists rounds = lists := by
  have hall (h : ctx.Readable rounds) :
      ctx.entries ⟨none, none, none⟩ rounds = some (ctx.lists rounds) := by
    apply entries_of_inside hon h.inside
    · intro round hround
      obtain ⟨y, hy, hfilled⟩ := h.first round hround
      rw [ownFields, Option.mem_def.mp hy]
      exact Fields.filled_update_none.mpr hfilled
    · constructor <;> exact fun _ hs => by cases hs
  constructor
  · intro h
    have hreadable : ctx.Readable rounds := ⟨inside_of_entries hon h, first_of_entries hon h⟩
    exact ⟨hreadable, Option.some.inj ((hall hreadable).symm.trans h)⟩
  · rintro ⟨hreadable, rfl⟩
    exact hall hreadable

/-! ### The objects of a configuration -/

theorem mem_of_objects {x : Nat} (h : some y ∈ ctx.objects x) : y ∈ ctx.parts x := by
  obtain ⟨z, hz, heq⟩ := List.mem_map.mp h
  rw [Option.ite_none_right_eq_some] at heq
  exact Option.some.inj heq.2 ▸ hz

theorem on_of_groupRounds {x : Nat} (h : ctx.On x) {groups : List Nat}
    (hgroups : ∀ group ∈ groups, group ∈ ctx.parts x) :
    ∀ round ∈ ctx.groupRounds (ctx.objects x) groups, ∀ y ∈ round.objects, ctx.On y := by
  induction groups with
  | nil => exact fun _ hround => by cases hround
  | cons group groups ih =>
    have hrest := ih fun g hg => hgroups g (List.mem_cons_of_mem group hg)
    have hgroup : ctx.On group := h.part (hgroups group List.mem_cons_self)
    intro round hround y hy
    rw [groupRounds] at hround
    split at hround
    · split at hround
      · obtain hround | hround := List.mem_append.mp hround
        · exact hgroup.part (mem_of_fullRounds hround hy)
        · exact hrest round hround y hy
      · obtain hy | hy := some_mem_of_brokenRounds hround hy
        · exact hgroup.part (mem_of_objects hy)
        · exact h.part (mem_of_objects hy)
    · exact hrest round hround y hy

theorem on_of_rounds {x : Nat} (h : ctx.On x) :
    ∀ round ∈ ctx.rounds x, ∀ y ∈ round.objects, ctx.On y :=
  on_of_groupRounds h fun _ hgroup => hgroup

end JparseCtx

end VhomeBridge.Link
