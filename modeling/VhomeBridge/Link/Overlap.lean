import VhomeBridge.Link.Ids

/-! Configurations in which a button may occur more than once.  A list is stored for each member of
each group, so a button ends with the list of its last group, in the room that its first list got:
`json_parsing` keeps to the buffers if no later list is longer, and the map has all links if the
last group of a button has all the buttons it is linked with. -/

namespace VhomeBridge.Link

/-! ### The copies -/

theorem linksOf_last (lists : List (Text × Text)) (key : Text) :
    (linksOf lists key).map (·.1) = lists.reverse.lookup key := by
  unfold linksOf
  cases hfirst : lists.lookup key with
  | none =>
    rw [Option.bind_none, Option.map_none, eq_comm]
    simpa using hfirst
  | some first =>
    rw [Option.bind_some, Option.map_map]
    exact Option.map_id'

/-- All copies stay inside their destinations, and the map has the latest list of each button. -/
def Document.Kept (doc : Document) : Prop :=
  ∃ m, jsonParsing doc.text = some m ∧ ∀ lists, listTable.walk doc.root = some lists →
    ∀ key, mapGet m key = lists.reverse.lookup key

theorem Document.parsed {doc : Document} {m : MapStr} (hm : jsonParsing doc.text = some m) :
    ∃ lists, listTable.walk doc.root = some lists ∧ Fit lists ∧
      ∀ key, mapGet m key = lists.reverse.lookup key := by
  have hvalid : m.Valid := by
    have hsame := doc.jsonParsing_same
    rw [hm] at hsame
    generalize linkTable.walk doc.root = walked at hsame
    cases hsame with
    | some h => exact h.1
  obtain ⟨lists, hlists, hfit, hlinks⟩ := doc.jsonParsing_iff.mp ⟨m, hm, hvalid, rfl⟩
  refine ⟨lists, hlists, hfit, fun key => ?_⟩
  rw [mapGet_eq, hlinks, linksOf_last]

/-- The copies of `json_parsing` stay inside their destinations exactly if the lists can be put
together, each is shorter than 256 characters and none is longer than the first of its key. -/
theorem Document.kept_iff (doc : Document) :
    doc.Kept ↔ ∃ lists, listTable.walk doc.root = some lists ∧ Fit lists := by
  constructor
  · rintro ⟨m, hm, -⟩
    obtain ⟨lists, hlists, hfit, -⟩ := doc.parsed hm
    exact ⟨lists, hlists, hfit⟩
  · rintro ⟨lists, hlists, hfit⟩
    obtain ⟨m, hm, -⟩ := doc.jsonParsing_iff.mpr ⟨lists, hlists, hfit, rfl⟩
    obtain ⟨lists', hlists', -, hget⟩ := doc.parsed hm
    refine ⟨m, hm, fun lists'' hlists'' key => ?_⟩
    rw [hlists', Option.some.injEq] at hlists''
    rw [hget, hlists'']

/-- A switch alone with a lamp, and then in a group with two lamps. -/
def growing : Document :=
  config [[zigbeeButton ⟨"0x2C3D".toList, rfl⟩, zigbeeButton ⟨"0x3001".toList, rfl⟩],
    [zigbeeButton ⟨"0x2C3D".toList, rfl⟩, zigbeeButton ⟨"0x3002".toList, rfl⟩,
      zigbeeButton ⟨"0x3003".toList, rfl⟩]]

/-- The second list of the switch is copied past the room of the first. -/
theorem growing_not_kept : ¬ ∀ doc : Document, doc.Kept := by
  intro h
  obtain ⟨m, hm, -⟩ := h growing
  have hfault : (jsonParsing growing.text).isNone = true := by decide +kernel
  rw [hm] at hfault
  exact absurd hfault (by simp)

/-! ### The last lists -/

section Last

variable {groups : List (List Button)} {group : List Button} {a c : Text} {j : Nat}

/-- The last group with a button of this id. -/
def lastGroup (groups : List (List Button)) (a : Text) : Option (List Button) :=
  groups.reverse.find? fun group => group.any (·.key == a)

theorem groupLists_last (h : a ∈ group.map Button.key) :
    ∃ j, (group.map Button.key)[j]? = some a ∧
      (groupLists group).reverse.lookup a = some (Button.ids (group.eraseIdx j)) := by
  have hkeys : a ∈ (groupLists group).reverse.map (·.1) := by
    rwa [List.map_reverse, List.mem_reverse, map_groupLists]
  obtain ⟨list, hlist, rfl⟩ := List.mem_map.mp hkeys
  have hsome : ((groupLists group).reverse.lookup list.1).isSome :=
    List.lookup_isSome_iff.mpr ⟨list, hlist, by simp⟩
  obtain ⟨v, hv⟩ := Option.isSome_iff_exists.mp hsome
  obtain ⟨before, after, hsplit, -⟩ := List.lookup_eq_some_iff.mp hv
  have hmem : (list.1, v) ∈ groupLists group := by
    rw [← List.mem_reverse, hsplit]
    simp
  obtain ⟨j, hj⟩ := List.getElem?_of_mem hmem
  rw [groupLists, List.getElem?_mapIdx, Option.map_eq_some_iff] at hj
  obtain ⟨b, hb, heq⟩ := hj
  obtain ⟨hkey, rfl⟩ := Prod.mk.inj heq
  exact ⟨j, by rw [List.getElem?_map, hb, Option.map_some, hkey], hv⟩

/-- The list that the map has for a button in the end: the others of its last group. -/
theorem lists_last (h : a ∈ groups.flatten.map Button.key) :
    ∃ group j, lastGroup groups a = some group ∧ (group.map Button.key)[j]? = some a ∧
      (groups.flatMap groupLists).reverse.lookup a = some (Button.ids (group.eraseIdx j)) := by
  rw [List.reverse_flatMap, lastGroup]
  have hmem : ∃ group ∈ groups.reverse, a ∈ group.map Button.key := by
    obtain ⟨b, hb, rfl⟩ := List.mem_map.mp h
    obtain ⟨group, hgroup, hb⟩ := List.mem_flatten.mp hb
    exact ⟨group, List.mem_reverse.mpr hgroup, List.mem_map_of_mem hb⟩
  generalize groups.reverse = gs at hmem ⊢
  induction gs with
  | nil => simp at hmem
  | cons g gs ih =>
    rw [List.flatMap_cons, List.lookup_append, List.find?_cons]
    by_cases hg : a ∈ g.map Button.key
    · obtain ⟨j, hj, hlookup⟩ := groupLists_last hg
      have hany : g.any (·.key == a) = true := by
        obtain ⟨b, hb, rfl⟩ := List.mem_map.mp hg
        exact List.any_eq_true.mpr ⟨b, hb, by simp⟩
      exact ⟨g, j, by rw [hany], hj, by rw [Function.comp_apply, hlookup, Option.some_or]⟩
    · have hany : g.any (·.key == a) = false := by
        rw [Bool.eq_false_iff, ne_eq, List.any_eq_true]
        rintro ⟨b, hb, hkey⟩
        exact hg (List.mem_map.mpr ⟨b, hb, beq_iff_eq.mp hkey⟩)
      have hnone : (groupLists g).reverse.lookup a = none := by
        rw [List.lookup_eq_none_iff]
        intro p hp
        rw [bne_iff_ne]
        rintro rfl
        rw [List.mem_reverse] at hp
        exact hg (map_groupLists g ▸ List.mem_map_of_mem hp)
      obtain ⟨g', hg', ha⟩ := hmem
      rcases List.mem_cons.mp hg' with rfl | hg'
      · exact absurd ha hg
      · rw [hany, Function.comp_apply, hnone, Option.none_or]
        exact ih ⟨g', hg', ha⟩

theorem keys_eraseIdx (h : (group.map Button.key)[j]? = some a) :
    (group.map Button.key).Perm (a :: (group.eraseIdx j).map Button.key) := by
  obtain ⟨hlt, rfl⟩ := List.getElem?_eq_some_iff.mp h
  rw [← List.eraseIdx_map]
  exact (List.getElem_cons_eraseIdx_perm hlt).symm

end Last

/-! ### Which links are kept -/

/-- Some group contains both. -/
def Together (groups : List (List Button)) (a b : Text) : Prop :=
  ∃ group ∈ groups, a ∈ group.map Button.key ∧ b ∈ group.map Button.key

/-- The ids in the list that the map has for a button. -/
def listed (m : MapStr) (a : Text) : List Text := ((mapGet m a).map (strtok [])).getD []

/-- The map has for each button of the configuration the buttons that some group has with it, and
no others. -/
def LinksKept (doc : Document) (groups : List (List Button)) : Prop :=
  ∃ m, jsonParsing doc.text = some m ∧ ∀ a ∈ groups.flatten.map Button.key,
    ∀ b ∈ groups.flatten.map Button.key, a ≠ b → (b ∈ listed m a ↔ Together groups a b)

/-- The lists fit, an id that is linked with another is not empty and has no space, the last group
of a button has all the buttons that share a group with it, and where the last group repeats a
button no other id is a word of its id. -/
structure Resolved (groups : List (List Button)) : Prop where
  fit : Fit (groups.flatMap groupLists)
  words : ∀ a b, Together groups a b → a ≠ b → IsWord b
  last : ∀ a b, Together groups a b → a ≠ b →
    ∃ group, lastGroup groups a = some group ∧ b ∈ group.map Button.key
  repeated : ∀ a group, lastGroup groups a = some group → 2 ≤ (group.map Button.key).count a →
    ∀ b ∈ strtok [] a, b ∈ groups.flatten.map Button.key → b = a

section Kept

variable {groups : List (List Button)} {doc : Document} {a b : Text}

theorem Together.symm (h : Together groups a b) : Together groups b a := by
  obtain ⟨group, hgroup, ha, hb⟩ := h
  exact ⟨group, hgroup, hb, ha⟩

theorem mem_keys {group : List Button} (hgroup : group ∈ groups) (ha : a ∈ group.map Button.key) :
    a ∈ groups.flatten.map Button.key := by
  obtain ⟨c, hc, rfl⟩ := List.mem_map.mp ha
  exact List.mem_map_of_mem (List.mem_flatten.mpr ⟨group, hgroup, hc⟩)

theorem Together.mem (h : Together groups a b) : a ∈ groups.flatten.map Button.key := by
  obtain ⟨group, hgroup, ha, -⟩ := h
  exact mem_keys hgroup ha

/-- What the map lists for a button, by the other members of its last group. -/
theorem mem_listed {m : MapStr} (hdoc : doc.root.Configures groups)
    (hm : jsonParsing doc.text = some m) (ha : a ∈ groups.flatten.map Button.key) :
    ∃ group, group ∈ groups ∧ lastGroup groups a = some group ∧ a ∈ group.map Button.key ∧
      ∀ b, b ∈ listed m a ↔ (∃ c ∈ group.map Button.key, c ≠ a ∧ b ∈ strtok [] c) ∨
        (2 ≤ (group.map Button.key).count a ∧ b ∈ strtok [] a) := by
  obtain ⟨lists, hlists, -, hget⟩ := doc.parsed hm
  rw [hdoc.walk, Option.some.injEq] at hlists
  obtain ⟨group, j, hlast, hj, hlookup⟩ := lists_last ha
  have hperm := keys_eraseIdx hj
  refine ⟨group, List.mem_reverse.mp (List.mem_of_find?_eq_some hlast), hlast,
    List.mem_of_getElem? hj, fun b => ?_⟩
  have hlisted : b ∈ listed m a ↔ ∃ c ∈ (group.eraseIdx j).map Button.key, b ∈ strtok [] c := by
    rw [listed, hget, ← hlists, hlookup, Option.map_some, Option.getD_some, strtok_ids]
    simp
  rw [hlisted, hperm.count_eq, List.count_cons_self]
  constructor
  · rintro ⟨c, hc, hb⟩
    by_cases hca : c = a
    · subst hca
      have := List.count_pos_iff.mpr hc
      exact .inr ⟨by omega, hb⟩
    · exact .inl ⟨c, hperm.mem_iff.mpr (List.mem_cons_of_mem _ hc), hca, hb⟩
  · rintro (⟨c, hc, hca, hb⟩ | ⟨hcount, hb⟩)
    · exact ⟨c, (List.mem_cons.mp (hperm.mem_iff.mp hc)).resolve_left hca, hb⟩
    · exact ⟨a, List.count_pos_iff.mp (by omega), hb⟩

theorem LinksKept.resolved (hdoc : doc.root.Configures groups) (h : LinksKept doc groups) :
    Resolved groups := by
  obtain ⟨m, hm, hlinks⟩ := h
  obtain ⟨lists, hlists, hfit, -⟩ := doc.parsed hm
  rw [hdoc.walk, Option.some.injEq] at hlists
  have hlisted : ∀ a b, Together groups a b → a ≠ b → b ∈ listed m a :=
    fun a b htogether hne => (hlinks a htogether.mem b htogether.symm.mem hne).mpr htogether
  have hwords : ∀ a b, Together groups a b → a ≠ b → IsWord b := by
    intro a b htogether hne
    have hmem := hlisted a b htogether hne
    cases hget : mapGet m a with
    | none => simp [listed, hget] at hmem
    | some list =>
      simp only [listed, hget, Option.map_some, Option.getD_some] at hmem
      exact isWord_of_mem_strtok (by simp) hmem
  refine ⟨hlists ▸ hfit, hwords, fun a b htogether hne => ?_,
    fun a group hlast hcount b hb hmem => ?_⟩
  · obtain ⟨group, hgroup, hlast, ha, hiff⟩ := mem_listed hdoc hm htogether.mem
    refine ⟨group, hlast, ?_⟩
    rcases (hiff b).mp (hlisted a b htogether hne) with ⟨c, hc, hca, hb⟩ | ⟨-, hb⟩
    · rw [(hwords a c ⟨group, hgroup, ha, hc⟩ (Ne.symm hca)).strtok] at hb
      rwa [List.mem_singleton.mp hb]
    · rw [(hwords b a htogether.symm hne.symm).strtok] at hb
      exact absurd (List.mem_singleton.mp hb).symm hne
  · by_contra hne
    have hgroup : group ∈ groups := List.mem_reverse.mp (List.mem_of_find?_eq_some hlast)
    have ha : a ∈ group.map Button.key := List.count_pos_iff.mp (by omega)
    have hkey := mem_keys hgroup ha
    obtain ⟨group', -, hlast', -, hiff⟩ := mem_listed hdoc hm hkey
    obtain rfl : group = group' := Option.some.inj (hlast.symm.trans hlast')
    have htogether := (hlinks a hkey b hmem (Ne.symm hne)).mp ((hiff b).mpr (.inr ⟨hcount, hb⟩))
    rw [(hwords b a htogether.symm hne).strtok] at hb
    exact hne (List.mem_singleton.mp hb)

/-- `json_parsing` keeps the links of a configuration exactly if the last list of each button has
them all. -/
theorem linksKept_iff (hdoc : doc.root.Configures groups) :
    LinksKept doc groups ↔ Resolved groups := by
  refine ⟨fun h => h.resolved hdoc, fun h => ?_⟩
  obtain ⟨m, hm, -⟩ := doc.jsonParsing_iff.mpr ⟨_, hdoc.walk, h.fit, rfl⟩
  refine ⟨m, hm, fun a ha b hb hne => ?_⟩
  obtain ⟨group, hgroup, hlast, ha, hiff⟩ := mem_listed hdoc hm ha
  rw [hiff]
  constructor
  · rintro (⟨c, hc, hca, hbc⟩ | ⟨hcount, hba⟩)
    · have htogether : Together groups a c := ⟨group, hgroup, ha, hc⟩
      rw [(h.words a c htogether (Ne.symm hca)).strtok] at hbc
      rwa [List.mem_singleton.mp hbc]
    · exact absurd (h.repeated a group hlast hcount b hba hb) (Ne.symm hne)
  · intro htogether
    obtain ⟨group', hlast', hmem⟩ := h.last a b htogether hne
    obtain rfl : group = group' := Option.some.inj (hlast.symm.trans hlast')
    refine .inl ⟨b, hmem, Ne.symm hne, ?_⟩
    rw [(h.words a b htogether hne).strtok]
    exact List.mem_singleton.mpr rfl

end Kept

def switchIn (other : Body) : List Json :=
  [zigbeeButton ⟨"0x2C3D".toList, rfl⟩, zigbeeButton other]

/-- A switch and a lamp in two groups. -/
def bothWays : Document :=
  config [switchIn ⟨"0x3001".toList, rfl⟩, (switchIn ⟨"0x3001".toList, rfl⟩).reverse]

def switchInGroup : List Button :=
  [⟨"0x2C3D".toList, "zigbee".toList, "1".toList⟩, ⟨"0x3001".toList, "zigbee".toList, "1".toList⟩]

def bothWaysButtons : List (List Button) := [switchInGroup, switchInGroup.reverse]

theorem bothWays_configures : bothWays.root.Configures bothWaysButtons := by
  refine ⟨_, rfl, .cons ⟨_, rfl, .cons ⟨_, rfl, ?_, ?_, ?_⟩ (.cons ⟨_, rfl, ?_, ?_, ?_⟩ .nil)⟩
    (.cons ⟨_, rfl, .cons ⟨_, rfl, ?_, ?_, ?_⟩ (.cons ⟨_, rfl, ?_, ?_, ?_⟩ .nil)⟩ .nil)⟩
  all_goals decide

theorem resolved_bothWays : Resolved bothWaysButtons := by
  have hkeys : ∀ key ∈ bothWaysButtons.flatten.map Button.key,
      key = "0x2C3Dzigbee1".toList ∨ key = "0x3001zigbee1".toList := by decide
  have hmem {a b : Text} (h : Together bothWaysButtons a b) :
      b = "0x2C3Dzigbee1".toList ∨ b = "0x3001zigbee1".toList := hkeys b h.symm.mem
  refine ⟨by decide, fun a b h _ => ?_, fun a b h _ => ?_, fun a group hlast hcount => ?_⟩
  · rcases hmem h with rfl | rfl <;> exact ⟨by decide, by decide⟩
  · refine ⟨switchInGroup.reverse, ?_, ?_⟩
    · rcases hmem h.symm with rfl | rfl <;> decide
    · rcases hmem h with rfl | rfl <;> decide
  · have hgroup : group ∈ bothWaysButtons :=
      List.mem_reverse.mp (List.mem_of_find?_eq_some hlast)
    have hnodup : ∀ group ∈ bothWaysButtons, (group.map Button.key).Nodup := by decide
    have := List.nodup_iff_count_le_one.mp (hnodup group hgroup) a
    omega

theorem linksKept_bothWays : LinksKept bothWays bothWaysButtons :=
  (linksKept_iff bothWays_configures).mpr resolved_bothWays

/-- One switch in two groups, with a lamp in each. -/
def twoGroups : Document :=
  config [switchIn ⟨"0x3001".toList, rfl⟩, switchIn ⟨"0x3002".toList, rfl⟩]

def twoGroupsButtons : List (List Button) :=
  [[⟨"0x2C3D".toList, "zigbee".toList, "1".toList⟩, ⟨"0x3001".toList, "zigbee".toList, "1".toList⟩],
    [⟨"0x2C3D".toList, "zigbee".toList, "1".toList⟩,
      ⟨"0x3002".toList, "zigbee".toList, "1".toList⟩]]

theorem twoGroups_configures : twoGroups.root.Configures twoGroupsButtons := by
  refine ⟨_, rfl, .cons ⟨_, rfl, .cons ⟨_, rfl, ?_, ?_, ?_⟩ (.cons ⟨_, rfl, ?_, ?_, ?_⟩ .nil)⟩
    (.cons ⟨_, rfl, .cons ⟨_, rfl, ?_, ?_, ?_⟩ (.cons ⟨_, rfl, ?_, ?_, ?_⟩ .nil)⟩ .nil)⟩
  all_goals decide

/-- The second group takes the lamp of the first out of the list of the switch. -/
theorem twoGroups_dropped :
    ¬ ∀ (doc : Document) (groups : List (List Button)), doc.root.Configures groups →
      Fit (groups.flatMap groupLists) → LinksKept doc groups := by
  intro h
  obtain ⟨m, hm, hlinks⟩ := h twoGroups twoGroupsButtons twoGroups_configures (by decide)
  have hlisted : (jsonParsing twoGroups.text).map (fun m =>
      decide ("0x3001zigbee1".toList ∈ listed m "0x2C3Dzigbee1".toList)) = some false := by
    decide +kernel
  rw [hm, Option.map_some, Option.some.injEq, decide_eq_false_iff_not] at hlisted
  refine hlisted ((hlinks _ (by decide) _ (by decide) (by decide)).mpr ?_)
  exact ⟨_, List.mem_cons_self, by decide, by decide⟩

end VhomeBridge.Link
