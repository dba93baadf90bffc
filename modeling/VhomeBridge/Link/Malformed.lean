import VhomeBridge.Link.Groups

/-! Elements of a configuration that are no buttons.  The three buffers keep the strings of the
button read before, and a member that was not entered is left all the same, so one malformed element
changes what the rest of its group and the groups after it become.  A group that is no array is
passed over.  A text does no harm, that is each turn stores the lists of the buttons of its group
only and the map is that of the text without its malformed elements and groups, exactly if no group
has a malformed element. -/

namespace VhomeBridge.Link

open Lib

/-! ### Texts without their malformed elements -/

/-- The items that `f` keeps, as it changes them, each with the blanks around it. -/
def Items.filterMap (f : Json → Option Json) : Items → Items
  | .nil blank => .nil blank
  | .cons before value after rest =>
    match f value with
    | some value => .cons before value after (rest.filterMap f)
    | none => rest.filterMap f

/-- The items without the malformed elements. -/
def Items.buttons (items : Items) : Items :=
  items.filterMap fun v => if v.asButton.isSome then some v else none

/-- A group without its malformed elements, if it is an array. -/
def Json.cleanGroup : Json → Option Json
  | .arr items => some (.arr items.buttons)
  | _ => none

def Json.cleanLink : Json → Json
  | .arr items => .arr (items.filterMap Json.cleanGroup)
  | v => v

/-- The members with the first one named `link` cleaned, which is the one that is read. -/
def Members.clean : Members → Members
  | .nil blank => .nil blank
  | .cons before key colon between value after rest =>
    if key.1 = "link".toList then .cons before key colon between value.cleanLink after rest
    else .cons before key colon between value after rest.clean

def Json.clean : Json → Json
  | .obj members => .obj members.clean
  | v => v

/-- A JSON text: a value with blanks around it. -/
structure JsonText where
  before : Blank
  value : Json
  after : Blank

def JsonText.text (t : JsonText) : Text := t.before.1 ++ (t.value.text ++ t.after.1)

/-- The text with every malformed element and every malformed group removed. -/
def JsonText.clean (t : JsonText) : JsonText := { t with value := t.value.clean }

/-- The elements of the groups of the text are buttons. -/
def JsonText.Sound (t : JsonText) : Prop :=
  ∀ root items, t.value = .obj root → root.entries.lookup "link".toList = some (.arr items) →
    ∀ v ∈ items.values, v.SoundGroup

/-- Two outcomes of `json_parsing`: both are faults, or maps with the same lists. -/
def SameMap (x y : Option MapStr) : Prop :=
  Option.Rel (fun m m' => ∀ key, mapGet m key = mapGet m' key) x y

/-- A malformed element changes nothing: each turn of the loop over the groups stores the lists of
the buttons of its group only, and the map is that of the text with every malformed element
removed. -/
structure JsonText.Unharmed (t : JsonText) : Prop where
  turns : ∀ root items, t.value = .obj root →
    root.entries.lookup "link".toList = some (.arr items) →
      turnLists items.values.length 0 [items.values, [], []] ⟨none, none, none⟩ =
        some (items.values.map fun v => groupLists v.groupButtons)
  map : SameMap (jsonParsing t.text) (jsonParsing t.clean.text)

theorem SameMap.refl (x : Option MapStr) : SameMap x x := by
  cases x with
  | none => exact .none
  | some m => exact .some fun _ => rfl

theorem sameMap_of_links {x y : Option MapStr} {f : Option Links}
    (hx : Option.Rel (fun m f => m.Valid ∧ m.links = f) x f)
    (hy : Option.Rel (fun m f => m.Valid ∧ m.links = f) y f) : SameMap x y := by
  cases hx with
  | none =>
    cases hy
    exact .none
  | some hm =>
    cases hy with
    | some hm' => exact .some fun key => by rw [mapGet_eq, mapGet_eq, hm.2, hm'.2]

section

variable {root : Members} {items : Items} {f : Json → Option Json}

theorem Items.values_filterMap (items : Items) (f : Json → Option Json) :
    (items.filterMap f).values = items.values.filterMap f := by
  match items with
  | .nil _ => rfl
  | .cons _ value _ rest =>
    rw [Items.filterMap, Items.values, List.filterMap_cons]
    cases f value with
    | none => exact rest.values_filterMap f
    | some value => exact congrArg (value :: ·) (rest.values_filterMap f)

theorem Members.lookup_clean (root : Members) :
    root.clean.entries.lookup "link".toList =
      (root.entries.lookup "link".toList).map Json.cleanLink := by
  match root with
  | .nil _ => rfl
  | .cons _ key _ _ value _ rest =>
    unfold Members.clean
    split
    · rename_i hkey
      simp [Members.entries, hkey]
    · rename_i hkey
      have hne : ("link".toList == key.1) = false := by simpa using Ne.symm hkey
      simp only [Members.entries, List.lookup_cons, hne]
      exact rest.lookup_clean

/-- A cleaned group has the buttons of the group and no other elements. -/
theorem cleanGroup_eq_some {v v' : Json} (h : v.cleanGroup = some v') :
    v'.SoundGroup ∧ v'.groupButtons = v.groupButtons := by
  cases v with
  | arr inner =>
    obtain rfl := Option.some.inj h
    have hbuttons : inner.buttons.values = inner.values.filter fun v => v.asButton.isSome := by
      rw [Items.buttons, Items.values_filterMap]
      exact congrFun (List.filterMap_eq_filter (p := fun v : Json => v.asButton.isSome)) _
    refine ⟨?_, ?_⟩
    · rintro _ ⟨⟩ w hw
      rw [hbuttons] at hw
      exact (List.mem_filter.mp hw).2
    · rw [Json.groupButtons, Json.groupButtons, hbuttons, List.filterMap_filter]
      apply List.filterMap_congr
      intro w _
      cases w.asButton <;> rfl
  | prim => contradiction
  | str => contradiction
  | obj => contradiction

theorem groupButtons_of_cleanGroup {v : Json} (h : v.cleanGroup = none) : v.groupButtons = [] := by
  cases v with
  | arr inner => contradiction
  | prim => rfl
  | str => rfl
  | obj => rfl

theorem lists_clean (vs : List Json) :
    (vs.filterMap Json.cleanGroup).flatMap (fun v => groupLists v.groupButtons) =
      vs.flatMap fun v => groupLists v.groupButtons := by
  induction vs with
  | nil => rfl
  | cons v vs ih =>
    cases hclean : v.cleanGroup with
    | none =>
      rw [List.filterMap_cons_none hclean, List.flatMap_cons, groupButtons_of_cleanGroup hclean, ih]
      rfl
    | some v' =>
      rw [List.filterMap_cons_some hclean, List.flatMap_cons, List.flatMap_cons,
        (cleanGroup_eq_some hclean).2, ih]

/-- Cleaning does not change the lists of an object whose groups have buttons only. -/
theorem walk_clean (hlookup : root.entries.lookup "link".toList = some (.arr items))
    (hsound : ∀ v ∈ items.values, v.SoundGroup) :
    listTable.walk root.clean = listTable.walk root := by
  have hlookup' : root.clean.entries.lookup "link".toList =
      some (.arr (items.filterMap Json.cleanGroup)) := by
    rw [Members.lookup_clean, hlookup]
    rfl
  have hsound' : ∀ v ∈ (items.filterMap Json.cleanGroup).values, v.SoundGroup := by
    intro v' hv'
    rw [Items.values_filterMap] at hv'
    obtain ⟨v, -, hclean⟩ := List.mem_filterMap.mp hv'
    exact (cleanGroup_eq_some hclean).1
  rw [walk_of_sound hlookup' hsound', walk_of_sound hlookup hsound, Items.values_filterMap,
    lists_clean]

/-- Without a member `link` that is an array there is nothing to clean. -/
theorem walk_clean_none (hnone : ∀ items, root.entries.lookup "link".toList ≠ some (.arr items)) :
    listTable.walk root.clean = listTable.walk root := by
  rw [Table.walk, Table.walk, Members.lookup_clean]
  cases hlookup : root.entries.lookup "link".toList with
  | none => rfl
  | some v =>
    cases v with
    | arr items => exact absurd hlookup (hnone items)
    | prim => rfl
    | str => rfl
    | obj => rfl

end

/-! ### Whole texts -/

/-- Blanks after the object of a text. -/
def Tail.ofBlank : (t : Text) → t.all isBlank = true → Tail
  | [], _ => .nil
  | c :: t, h => .sep c (by simp_all) (ofBlank t (by simp_all))

theorem Tail.ofBlank_spec (t : Text) (h : t.all isBlank = true) :
    (ofBlank t h).text = t ∧ (ofBlank t h).Whole := by
  induction t with
  | nil => exact ⟨rfl, trivial⟩
  | cons c t ih =>
    have hrest := ih (by simp_all)
    exact ⟨congrArg (c :: ·) hrest.1, hrest.2⟩

namespace JsonText

/-- The text of an object. -/
def document (t : JsonText) (root : Members) : Document where
  before := t.before
  root := root
  tail := Tail.ofBlank t.after.1 t.after.2
  whole := (Tail.ofBlank_spec _ _).2

theorem text_document (t : JsonText) {root : Members} (h : t.value = .obj root) :
    t.text = (t.document root).text := by
  rw [text, h, document, Document.text, (Tail.ofBlank_spec _ _).1]

theorem sameMap_of_sound (t : JsonText) (h : t.Sound) :
    SameMap (jsonParsing t.text) (jsonParsing t.clean.text) := by
  cases hvalue : t.value with
  | obj root =>
    have hclean : t.clean.value = .obj root.clean := by rw [clean, hvalue, Json.clean]
    rw [t.text_document hvalue, t.clean.text_document hclean]
    have hwalk : linkTable.walk root.clean = linkTable.walk root := by
      rw [linkTable_walk, linkTable_walk]
      by_cases hlink : ∃ items, root.entries.lookup "link".toList = some (.arr items)
      · obtain ⟨items, hlookup⟩ := hlink
        rw [walk_clean hlookup (h root items hvalue hlookup)]
      · rw [walk_clean_none fun items hlookup => hlink ⟨items, hlookup⟩]
    have hold : Option.Rel _ _ (linkTable.walk root) := (t.document root).jsonParsing_same
    have hnew : Option.Rel _ _ (linkTable.walk root.clean) :=
      (t.clean.document root.clean).jsonParsing_same
    rw [hwalk] at hnew
    exact sameMap_of_links hold hnew
  | prim | str | arr =>
    have hsame : t.value.clean = t.value := by
      rw [hvalue]
      rfl
    have hclean : t.clean = t := by rw [clean, hsame]
    rw [hclean]
    exact SameMap.refl _

/-- A text does no harm exactly if no element of its groups is malformed. -/
theorem unharmed_iff_sound (t : JsonText) : t.Unharmed ↔ t.Sound := by
  constructor
  · intro h root items hroot hlookup
    exact (turnLists_eq_iff [] items.values _).mp (h.turns root items hroot hlookup)
  · intro h
    refine ⟨fun root items hroot hlookup => ?_, t.sameMap_of_sound h⟩
    exact (turnLists_eq_iff [] items.values _).mpr (h root items hroot hlookup)

/-- The text of a configuration with these groups. -/
def ofLink (groups : List Json) : JsonText where
  before := noBlank
  value := .obj (linkMembers groups)
  after := noBlank

def plug : Json := zigbeeButton ⟨"0x4D5E".toList, rfl⟩

/-- A plug with a lamp whose object has no endpoint. -/
def plugAndLamp : JsonText :=
  ofLink [.arr (itemsOf [plug, bareLamp ⟨"0x0007".toList, rfl⟩])]

/-- The lamp borrows the endpoint of the plug. -/
theorem endpoint_borrowed :
    ¬ SameMap (jsonParsing plugAndLamp.text) (jsonParsing plugAndLamp.clean.text) := by
  have hborrowed : (jsonParsing plugAndLamp.text).map
      (mapGet · "0x4D5Ezigbee1".toList) = some (some "0x0007ble1 ".toList) := by decide +kernel
  have hclean : (jsonParsing plugAndLamp.clean.text).map
      (mapGet · "0x4D5Ezigbee1".toList) = some (some []) := by decide +kernel
  obtain ⟨m, hm, hget⟩ := Option.map_eq_some_iff.mp hborrowed
  obtain ⟨m', hm', hget'⟩ := Option.map_eq_some_iff.mp hclean
  rw [hm, hm']
  intro h
  cases h with
  | some hsame =>
    have := hsame "0x4D5Ezigbee1".toList
    rw [hget, hget'] at this
    exact absurd this (by decide)

end JsonText

end VhomeBridge.Link
