import Mathlib.Data.List.Forall2
import VhomeBridge.Link.Turns

/-! Configurations whose groups are arrays of buttons, each with its three strings.  The cursor
stays in its group, and the list of a button has the ids of the other buttons of the group. -/

namespace VhomeBridge.Link

open Lib

structure Button where
  nodeId : Text
  protocol : Text
  endpoint : Text
  deriving DecidableEq

namespace Button

def key (b : Button) : Text := b.nodeId ++ b.protocol ++ b.endpoint

/-- The strings fit the buffers that `json_parsing` reads them into. -/
def Fits (b : Button) : Prop :=
  b.nodeId.length < 20 ∧ b.protocol.length < 10 ∧ b.endpoint.length < 5

def fields (b : Button) : Fields := ⟨some b.nodeId, some b.protocol, some b.endpoint⟩

/-- The ids of buttons, each with a space after it. -/
def ids (bs : List Button) : Text := bs.flatMap fun b => b.key ++ " ".toList

end Button

/-- An object with the strings of a button, whatever else it has. -/
def Json.IsButton (v : Json) (b : Button) : Prop :=
  ∃ members, v = .obj members ∧ members.string "node_id".toList 20 = some b.nodeId ∧
    members.string "protocol".toList 10 = some b.protocol ∧
    members.string "endpoint".toList 5 = some b.endpoint

/-- An array of buttons. -/
def Json.IsGroup (v : Json) (group : List Button) : Prop :=
  ∃ items, v = .arr items ∧ List.Forall₂ Json.IsButton items.values group

/-- The button that an element gives, if it is well formed. -/
def Json.asButton : Json → Option Button
  | .obj members => do
    return ⟨← members.string "node_id".toList 20, ← members.string "protocol".toList 10,
      ← members.string "endpoint".toList 5⟩
  | _ => none

/-- The buttons among the elements of an array. -/
def Json.groupButtons : Json → List Button
  | .arr items => items.values.filterMap Json.asButton
  | _ => []

/-- No array, or an array of buttons. -/
def Json.SoundGroup (v : Json) : Prop :=
  ∀ inner, v = .arr inner → ∀ w ∈ inner.values, w.asButton.isSome

/-- An object whose member `link` is an array of the groups. -/
def Members.Configures (root : Members) (groups : List (List Button)) : Prop :=
  ∃ items, root.entries.lookup "link".toList = some (.arr items) ∧
    List.Forall₂ Json.IsGroup items.values groups

/-- The keys of a group with their lists. -/
def groupLists (group : List Button) : List (Text × Text) :=
  group.mapIdx fun j b => (b.key, Button.ids (group.eraseIdx j))

theorem Members.string_length {members : Members} {name s : Text} {size : Nat}
    (h : members.string name size = some s) : s.length < size := by
  unfold Members.string at h
  split at h
  · split at h
    · rename_i hfit
      obtain rfl := Option.some.inj h
      exact hfit
    · contradiction
  · contradiction

section Group

variable {kids : List Json} {group : List Button} (path : Path) {j k : Nat} {b : Button}

theorem forall₂_getElem? {α β : Type*} {R : α → β → Prop} {l : List α} {l' : List β} {b : β}
    (h : List.Forall₂ R l l') (hk : l'[k]? = some b) : ∃ a, l[k]? = some a ∧ R a b := by
  obtain ⟨hlength, hget⟩ := List.forall₂_iff_get.mp h
  obtain ⟨hlt, rfl⟩ := List.getElem?_eq_some_iff.mp hk
  exact ⟨l[k], List.getElem?_eq_getElem (by omega), hget k (by omega) hlt⟩

theorem object_group (h : List.Forall₂ Json.IsButton kids group) (hk : group[k]? = some b) :
    ∃ members, Path.object (kids :: path) k = some members ∧ b.Fits ∧
      ∀ fields : Fields, fields.step members = b.fields := by
  obtain ⟨v, hv, members, rfl, hnode, hprotocol, hendpoint⟩ := forall₂_getElem? h hk
  refine ⟨members, ?_, ⟨Members.string_length hnode, Members.string_length hprotocol,
    Members.string_length hendpoint⟩, fun fields => ?_⟩
  · simp [Path.object, Path.kids, hv]
  · simp only [Fields.step, hnode, hprotocol, hendpoint, Option.some_or, Button.fields]

theorem Button.Fits.key (h : b.Fits) : b.fields.key = some b.key := by
  have hlength : (b.nodeId ++ b.protocol ++ b.endpoint).length < 40 := by
    obtain ⟨h1, h2, h3⟩ := h
    simp only [List.length_append]
    omega
  simp only [Fields.key, Button.fields, Bind.bind, Option.bind_some, intoBuffer, hlength, if_true,
    Button.key]

theorem Button.Fits.id (h : b.Fits) : b.fields.id = some (b.key ++ " ".toList) := by
  have hlength : (b.nodeId ++ b.protocol ++ b.endpoint ++ " ".toList).length < 40 := by
    obtain ⟨h1, h2, h3⟩ := h
    simp only [List.length_append]
    simp
    omega
  simp only [Fields.id, Button.fields, Bind.bind, Option.bind_some, intoBuffer, hlength, if_true,
    Button.key]

theorem eraseIdx_take_succ {α : Type*} {l : List α} {a : α} (hk : l[k]? = some a) :
    (l.take (k + 1)).eraseIdx j = (l.take k).eraseIdx j ++ if k = j then [] else [a] := by
  have hlt := (List.getElem?_eq_some_iff.mp hk).1
  have hlength : (l.take k).length = k := by simp; omega
  rw [List.take_add_one, hk, Option.toList_some]
  rcases Nat.lt_trichotomy j k with h | rfl | h
  · rw [List.eraseIdx_append_of_lt_length (by omega), if_neg (by omega)]
  · have hkeep : (l.take j).eraseIdx j = l.take j := List.eraseIdx_of_length_le (by omega)
    rw [List.eraseIdx_append_of_length_le (by omega), if_pos rfl, hkeep, hlength, Nat.sub_self]
    rfl
  · have hkeep : (l.take k).eraseIdx j = l.take k := List.eraseIdx_of_length_le (by omega)
    rw [if_neg (by omega), hkeep, List.eraseIdx_of_length_le]
    rw [List.length_append, hlength, List.length_singleton]
    omega

theorem siblings_group (h : List.Forall₂ Json.IsButton kids group) (j : Nat) (fields : Fields) :
    ∃ fields', forRange (listTable.siblingTurn j) group.length 0 ⟨kids :: path, fields, []⟩ =
      some ⟨kids :: path, fields', Button.ids (group.eraseIdx j)⟩ := by
  -- after `k` turns the list has the ids of the first `k` buttons without that at `j`
  let reached (k : Nat) (s : SiblingWalk) : Prop :=
    s.path = kids :: path ∧ s.value = Button.ids ((group.take k).eraseIdx j)
  have hloop : ∃ s, forRange (listTable.siblingTurn j) group.length 0 ⟨kids :: path, fields, []⟩ =
      some s ∧ reached (0 + group.length) s := by
    refine forRange_keeps reached ⟨rfl, by simp [Button.ids]⟩ ?_
    rintro k ⟨path', fields', value⟩ - hk ⟨rfl, rfl⟩
    obtain ⟨b, hb⟩ : ∃ b, group[k]? = some b := ⟨_, List.getElem?_eq_getElem (by omega)⟩
    obtain ⟨members, hobject, hfits, hstep⟩ := object_group path h hb
    rw [Table.siblingTurn_some hobject]
    by_cases hkj : k = j
    · subst hkj
      refine ⟨_, if_neg (by simp), rfl, ?_⟩
      rw [eraseIdx_take_succ hb, if_pos rfl, List.append_nil]
    · refine ⟨⟨kids :: path, b.fields,
        Button.ids ((group.take k).eraseIdx j) ++ (b.key ++ " ".toList)⟩, ?_, rfl, ?_⟩
      · simp only [ne_eq, hkj, not_false_eq_true, if_true, hstep, hfits.id, Option.bind_some,
          listTable, Option.map_some]
      · simp only [eraseIdx_take_succ hb, hkj, if_false, Button.ids, List.flatMap_append,
          List.flatMap_cons, List.flatMap_nil, List.append_nil]
  obtain ⟨⟨path', fields', value⟩, hloop, rfl, rfl⟩ := hloop
  refine ⟨fields', ?_⟩
  rwa [Nat.zero_add, List.take_length] at hloop

theorem buttons_group (h : List.Forall₂ Json.IsButton kids group) (fields : Fields)
    (lists : List (Text × Text)) :
    ∃ fields', forRange (listTable.buttonTurn group.length) group.length 0
        ⟨kids :: path, fields, lists⟩ =
      some ⟨kids :: path, fields', lists ++ groupLists group⟩ := by
  let reached (k : Nat) (s : ButtonWalk (List (Text × Text))) : Prop :=
    s.path = kids :: path ∧ s.table = lists ++ (groupLists group).take k
  have hloop : ∃ s, forRange (listTable.buttonTurn group.length) group.length 0
      ⟨kids :: path, fields, lists⟩ = some s ∧ reached (0 + group.length) s := by
    refine forRange_keeps reached ⟨rfl, by simp⟩ ?_
    rintro j ⟨path', fields', value⟩ - hj ⟨rfl, rfl⟩
    obtain ⟨b, hb⟩ : ∃ b, group[j]? = some b := ⟨_, List.getElem?_eq_getElem (by omega)⟩
    obtain ⟨members, hobject, hfits, hstep⟩ := object_group path h hb
    obtain ⟨fields'', hsiblings⟩ := siblings_group path h j b.fields
    refine ⟨⟨kids :: path, fields'',
      lists ++ (groupLists group).take j ++ [(b.key, Button.ids (group.eraseIdx j))]⟩, ?_, rfl, ?_⟩
    · simp only [Table.buttonTurn, hobject, Option.isSome_some, if_true, Option.elim_some, hstep,
        hfits.key, Bind.bind, Option.bind_some, hsiblings, pure]
      rfl
    · have hnext : (groupLists group)[j]? = some (b.key, Button.ids (group.eraseIdx j)) := by
        simp [groupLists, hb]
      rw [List.take_add_one, hnext, Option.toList_some, List.append_assoc]
  obtain ⟨⟨path', fields', table⟩, hloop, rfl, rfl⟩ := hloop
  refine ⟨fields', ?_⟩
  have hall : (groupLists group).take (0 + group.length) = groupLists group :=
    List.take_of_length_le (by simp [groupLists])
  rwa [hall] at hloop

end Group

/-! ### Turns -/

theorem Json.asButton_eq_some {v : Json} {b : Button} : v.asButton = some b ↔ v.IsButton b := by
  constructor
  · intro h
    cases v with
    | obj members =>
      simp only [Json.asButton, Bind.bind, pure, Option.bind_eq_some_iff, Option.some.injEq] at h
      obtain ⟨nodeId, hnode, protocol, hprotocol, endpoint, hendpoint, rfl⟩ := h
      exact ⟨members, rfl, hnode, hprotocol, hendpoint⟩
    | prim => contradiction
    | str => contradiction
    | arr => contradiction
  · rintro ⟨members, rfl, hnode, hprotocol, hendpoint⟩
    simp only [Json.asButton, hnode, hprotocol, hendpoint, Bind.bind, pure, Option.bind_some]

theorem forall₂_asButton {vs : List Json} (h : ∀ v ∈ vs, v.asButton.isSome) :
    List.Forall₂ Json.IsButton vs (vs.filterMap Json.asButton) := by
  induction vs with
  | nil => exact .nil
  | cons v vs ih =>
    obtain ⟨hv, hvs⟩ := List.forall_mem_cons.mp h
    obtain ⟨b, hb⟩ := Option.isSome_iff_exists.mp hv
    rw [List.filterMap_cons_some hb]
    exact .cons (Json.asButton_eq_some.mp hb) (ih hvs)

theorem asButton_of_forall₂ {vs : List Json} {group : List Button}
    (h : List.Forall₂ Json.IsButton vs group) :
    (∀ v ∈ vs, v.asButton.isSome) ∧ vs.filterMap Json.asButton = group := by
  induction h with
  | nil => simp
  | @cons v b vs group hv _ ih =>
    have hb : v.asButton = some b := Json.asButton_eq_some.mpr hv
    refine ⟨List.forall_mem_cons.mpr ⟨by rw [hb]; rfl, ih.1⟩, ?_⟩
    rw [List.filterMap_cons_some hb, ih.2]

/-- Arrays of buttons have no other elements. -/
theorem sound_groups {vs : List Json} {groups : List (List Button)}
    (h : List.Forall₂ Json.IsGroup vs groups) :
    (∀ v ∈ vs, v.SoundGroup) ∧
      vs.flatMap (fun v => groupLists v.groupButtons) = groups.flatMap groupLists := by
  induction h with
  | nil => simp
  | cons hv _ ih =>
    obtain ⟨inner, rfl, hbuttons⟩ := hv
    obtain ⟨hall, hgroup⟩ := asButton_of_forall₂ hbuttons
    refine ⟨List.forall_mem_cons.mpr ⟨fun _ heq => Json.arr.inj heq ▸ hall, ih.1⟩, ?_⟩
    rw [List.flatMap_cons, List.flatMap_cons, Json.groupButtons, hgroup, ih.2]

section Turn

variable {kids : List Json} {v : Json} {i : Nat} {fields : Fields}

/-- The turn for an array of buttons adds its lists.  What is not an array is passed over. -/
theorem groupTurn_sound (hv : kids[i]? = some v) (hsound : v.SoundGroup) (fields : Fields)
    (lists : List (Text × Text)) :
    ∃ fields', listTable.groupTurn i ⟨[kids, [], []], fields, lists⟩ =
      some ⟨[kids, [], []], fields', lists ++ groupLists v.groupButtons⟩ := by
  have hk : Path.kids [kids, [], []] = kids := rfl
  cases v with
  | arr inner =>
    have hbuttons := forall₂_asButton (hsound inner rfl)
    obtain ⟨fields', hloop⟩ := buttons_group [kids, [], []] hbuttons fields lists
    refine ⟨fields', ?_⟩
    simp only [Table.groupTurn, hk, hv, hbuttons.length_eq, hloop, Bind.bind, Option.bind_some,
      pure, Path.up, Json.groupButtons]
  | prim | str | obj =>
    refine ⟨fields, ?_⟩
    simp only [Table.groupTurn, hk, hv, Json.groupButtons, groupLists, List.mapIdx_nil,
      List.append_nil]

/-- A turn that stores the lists of the buttons of an array has no other element in it. -/
theorem soundGroup_of_turn {s : ButtonWalk (List (Text × Text))} (hv : kids[i]? = some v)
    (hturn : listTable.groupTurn i ⟨[kids, [], []], fields, []⟩ = some s)
    (hlists : s.table = groupLists v.groupButtons) : v.SoundGroup := by
  rintro inner rfl
  have hk : Path.kids [kids, [], []] = kids := rfl
  simp only [Table.groupTurn, hk, hv, Bind.bind, Option.bind_eq_some_iff, pure,
    Option.some.injEq] at hturn
  obtain ⟨t, hloop, rfl⟩ := hturn
  have hlength := length_buttons hloop
  rw [show t.table = _ from hlists, groupLists, List.length_mapIdx, Json.groupButtons,
    List.length_nil, Nat.zero_add] at hlength
  exact List.filterMap_length_eq_length.mp hlength

end Turn

/-- The turns store the lists of the buttons of each group, and nothing else, exactly if no group
has an element that is no button. -/
theorem turnLists_eq_iff (done rest : List Json) (fields : Fields) :
    turnLists rest.length done.length [done ++ rest, [], []] fields =
        some (rest.map fun v => groupLists v.groupButtons) ↔ ∀ v ∈ rest, v.SoundGroup := by
  induction rest generalizing done fields with
  | nil => simp [turnLists]
  | cons v rest ih =>
    have hv : (done ++ v :: rest)[done.length]? = some v := by simp
    rw [List.forall_mem_cons, List.length_cons, turnLists, List.map_cons]
    by_cases hsound : v.SoundGroup
    · obtain ⟨fields', hturn⟩ := groupTurn_sound hv hsound fields []
      have ih := ih (done ++ [v]) fields'
      rw [List.length_append, List.length_singleton, List.append_assoc, List.singleton_append] at ih
      rw [List.nil_append] at hturn
      simp only [hturn, hsound, true_and, ← ih, Bind.bind, Option.bind_some, pure,
        Option.bind_eq_some_iff, Option.some.injEq, List.cons.injEq, exists_eq_right]
    · refine iff_of_false (fun h => ?_) fun h => hsound h.1
      obtain ⟨s, hturn, h⟩ := Option.bind_eq_some_iff.mp h
      obtain ⟨_, -, h⟩ := Option.bind_eq_some_iff.mp h
      exact hsound (soundGroup_of_turn hv hturn (List.cons.inj (Option.some.inj h)).1)

/-- The lists of an object whose groups have buttons only. -/
theorem walk_of_sound {root : Members} {items : Items}
    (hlookup : root.entries.lookup "link".toList = some (.arr items))
    (hsound : ∀ v ∈ items.values, v.SoundGroup) :
    listTable.walk root = some (items.values.flatMap fun v => groupLists v.groupButtons) := by
  have hturns := (turnLists_eq_iff [] items.values ⟨none, none, none⟩).mpr hsound
  rw [walk_eq_turns hlookup]
  exact congrArg (Option.map List.flatten) hturns

/-- The lists of a configuration: those of its groups, one after the other. -/
theorem Members.Configures.walk {root : Members} {groups : List (List Button)}
    (h : root.Configures groups) : listTable.walk root = some (groups.flatMap groupLists) := by
  obtain ⟨items, hlookup, hgroups⟩ := h
  obtain ⟨hsound, hlists⟩ := sound_groups hgroups
  rw [walk_of_sound hlookup hsound, hlists]

theorem map_groupLists (group : List Button) :
    (groupLists group).map (·.1) = group.map Button.key := by
  apply List.ext_getElem?
  intro i
  simp only [groupLists, List.getElem?_map, List.getElem?_mapIdx, Option.map_map]
  rfl

theorem map_lists (groups : List (List Button)) :
    (groups.flatMap groupLists).map (·.1) = groups.flatten.map Button.key := by
  induction groups with
  | nil => rfl
  | cons group groups ih =>
    rw [List.flatMap_cons, List.map_append, map_groupLists, ih, List.flatten_cons, List.map_append]

/-! ### Texts of configurations -/

def noBlank : Blank := ⟨[], rfl⟩

def member (key : Body) (value : Json) (rest : Members) : Members :=
  .cons noBlank key noBlank noBlank value noBlank rest

def itemsOf : List Json → Items
  | [] => .nil noBlank
  | value :: rest => .cons noBlank value noBlank (itemsOf rest)

def button (nodeId protocol endpoint : Body) : Json :=
  .obj (member ⟨"node_id".toList, rfl⟩ (.str nodeId)
    (member ⟨"protocol".toList, rfl⟩ (.str protocol)
      (member ⟨"endpoint".toList, rfl⟩ (.str endpoint) (.nil noBlank))))

def config (groups : List (List Json)) : Document where
  before := noBlank
  root := member ⟨"action".toList, rfl⟩ (.str ⟨"linkButton".toList, rfl⟩)
    (member ⟨"link".toList, rfl⟩ (.arr (itemsOf (groups.map fun group => .arr (itemsOf group))))
      (.nil noBlank))
  tail := .nil
  whole := trivial

/-- The members of a configuration whose groups may be anything. -/
def linkMembers (groups : List Json) : Members :=
  member ⟨"action".toList, rfl⟩ (.str ⟨"linkButton".toList, rfl⟩)
    (member ⟨"link".toList, rfl⟩ (.arr (itemsOf groups)) (.nil noBlank))

/-- A BLE lamp that gives no endpoint. -/
def bareLamp (nodeId : Body) : Json :=
  .obj (member ⟨"node_id".toList, rfl⟩ (.str nodeId)
    (member ⟨"protocol".toList, rfl⟩ (.str ⟨"ble".toList, rfl⟩) (.nil noBlank)))

/-- A Zigbee button at endpoint 1. -/
def zigbeeButton (nodeId : Body) : Json :=
  button nodeId ⟨"zigbee".toList, rfl⟩ ⟨"1".toList, rfl⟩

/-- A Zigbee switch linked with a BLE lamp. -/
def switchAndLamp : Document :=
  config [[zigbeeButton ⟨"0x1A2B".toList, rfl⟩,
    button ⟨"0x0005".toList, rfl⟩ ⟨"ble".toList, rfl⟩ ⟨"2".toList, rfl⟩]]

def switchAndLampGroup : List Button :=
  [⟨"0x1A2B".toList, "zigbee".toList, "1".toList⟩, ⟨"0x0005".toList, "ble".toList, "2".toList⟩]

theorem switchAndLamp_configures : switchAndLamp.root.Configures [switchAndLampGroup] := by
  refine ⟨_, rfl, .cons ⟨_, rfl, .cons ⟨_, rfl, ?_, ?_, ?_⟩ (.cons ⟨_, rfl, ?_, ?_, ?_⟩ .nil)⟩ .nil⟩
  all_goals decide

end VhomeBridge.Link
