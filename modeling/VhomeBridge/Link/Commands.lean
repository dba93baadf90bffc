import VhomeBridge.Link.Ids

/-! The commands that a configuration of disjoint groups gives: for a button event one command to
each other button of the group, in the order of the configuration. -/

namespace VhomeBridge.Link

open Lib Ble

/-! ### The list of a button -/

section Lists

variable {α β : Type*} [BEq α] [LawfulBEq α]

theorem lookup_of_nodup {l : List (α × β)} {k : α} {v : β} (h : (l.map (·.1)).Nodup)
    (hmem : (k, v) ∈ l) : l.lookup k = some v := by
  induction l with
  | nil => contradiction
  | cons p l ih =>
    obtain ⟨k', v'⟩ := p
    rw [List.map_cons, List.nodup_cons] at h
    rcases List.mem_cons.mp hmem with heq | htail
    · obtain ⟨rfl, rfl⟩ := Prod.mk.inj heq
      exact List.lookup_cons_self
    · have hne : (k == k') = false := by
        rw [beq_eq_false_iff_ne]
        rintro rfl
        exact h.1 (List.mem_map.mpr ⟨_, htail, rfl⟩)
      rw [List.lookup_cons, hne]
      exact ih h.2 htail

theorem lookup_reverse {l : List (α × β)} (h : (l.map (·.1)).Nodup) (k : α) :
    l.reverse.lookup k = l.lookup k := by
  cases hk : l.lookup k with
  | some v =>
    obtain ⟨a, b, rfl, -⟩ := List.lookup_eq_some_iff.mp hk
    refine lookup_of_nodup ?_ (by simp)
    rw [List.map_reverse, List.nodup_reverse]
    exact h
  | none => simpa using hk

end Lists

theorem linksOf_nodup {lists : List (Text × Text)} (h : (lists.map (·.1)).Nodup) (key : Text) :
    (linksOf lists key).map (·.1) = lists.lookup key := by
  rw [linksOf, lookup_reverse h]
  cases lists.lookup key <;> rfl

theorem fit_nodup {lists : List (Text × Text)} (h : (lists.map (·.1)).Nodup)
    (hlength : ∀ list ∈ lists, list.2.length < 256) : Fit lists := by
  rintro ⟨k, v⟩ hmem
  refine ⟨hlength _ hmem, fun first hfirst => ?_⟩
  obtain rfl : v = first := by simpa [lookup_of_nodup h hmem] using hfirst
  exact Nat.le_refl _

section Groups

variable {groups : List (List Button)} {group : List Button} {b : Button} {j : Nat} {id : Text}

/-- The buttons linked with a button id: the others of each group that has it. -/
def others (groups : List (List Button)) (id : Text) : List Button :=
  groups.flatMap fun group =>
    if group.any (·.key == id) then group.filter (·.key != id) else []

theorem others_nil (h : id ∉ groups.flatten.map Button.key) : others groups id = [] := by
  simp only [others, List.flatMap_eq_nil_iff]
  intro group hgroup
  rw [if_neg]
  simp only [List.any_eq_true, beq_iff_eq, not_exists, not_and]
  rintro b hb rfl
  exact h (List.mem_map.mpr ⟨b, List.mem_flatten.mpr ⟨group, hgroup, hb⟩, rfl⟩)

theorem others_eq (hkeys : (groups.flatten.map Button.key).Nodup) (hgroup : group ∈ groups)
    (hb : b ∈ group) : others groups b.key = group.filter (·.key != b.key) := by
  induction groups with
  | nil => contradiction
  | cons head groups ih =>
    rw [List.flatten_cons, List.map_append, List.nodup_append'] at hkeys
    obtain ⟨-, hkeys, hdisjoint⟩ := hkeys
    have hcons : others (head :: groups) b.key =
        (if head.any (·.key == b.key) then head.filter (·.key != b.key) else []) ++
          others groups b.key := rfl
    rw [hcons]
    rcases List.mem_cons.mp hgroup with rfl | hgroup
    · have hhead : group.any (·.key == b.key) = true :=
        List.any_eq_true.mpr ⟨b, hb, by simp⟩
      rw [if_pos hhead, others_nil, List.append_nil]
      exact hdisjoint (List.mem_map.mpr ⟨b, hb, rfl⟩)
    · have htail : b.key ∈ groups.flatten.map Button.key :=
        List.mem_map.mpr ⟨b, List.mem_flatten.mpr ⟨group, hgroup, hb⟩, rfl⟩
      rw [if_neg, ih hkeys hgroup, List.nil_append]
      simp only [List.any_eq_true, beq_iff_eq, not_exists, not_and]
      intro c hc hkey
      exact hdisjoint (List.mem_map.mpr ⟨c, hc, rfl⟩) (hkey ▸ htail)

theorem eraseIdx_eq_filter (hkeys : (group.map Button.key).Nodup) (hb : group[j]? = some b) :
    group.eraseIdx j = group.filter (·.key != b.key) := by
  induction group generalizing j with
  | nil => simp at hb
  | cons c group ih =>
    rw [List.map_cons, List.nodup_cons] at hkeys
    cases j with
    | zero =>
      obtain rfl : c = b := by simpa using hb
      rw [List.eraseIdx_cons_zero, List.filter_cons_of_neg (by simp), eq_comm,
        List.filter_eq_self]
      intro d hd
      have hne : d.key ≠ c.key := fun heq => hkeys.1 (List.mem_map.mpr ⟨d, hd, heq⟩)
      simpa using hne
    | succ j =>
      have hmem : b ∈ group := List.mem_of_getElem? (by simpa using hb)
      have hne : c.key ≠ b.key := fun heq =>
        hkeys.1 (List.mem_map.mpr ⟨b, hmem, heq.symm⟩)
      rw [List.eraseIdx_cons_succ, List.filter_cons_of_pos (by simpa using hne),
        ih hkeys.2 (by simpa using hb)]

theorem lookup_lists (hkeys : (groups.flatten.map Button.key).Nodup) :
    (groups.flatMap groupLists).lookup id =
      if id ∈ groups.flatten.map Button.key then some (Button.ids (others groups id))
      else none := by
  split
  · rename_i hmem
    obtain ⟨b, hb, rfl⟩ := List.mem_map.mp hmem
    obtain ⟨group, hgroup, hb⟩ := List.mem_flatten.mp hb
    obtain ⟨j, hj⟩ := List.getElem?_of_mem hb
    have hgroupKeys : (group.map Button.key).Nodup :=
      hkeys.sublist ((List.sublist_flatten_of_mem hgroup).map _)
    apply lookup_of_nodup (by rwa [map_lists])
    refine List.mem_flatMap.mpr ⟨group, hgroup, List.mem_of_getElem? (i := j) ?_⟩
    simp [groupLists, hj, others_eq hkeys hgroup hb, eraseIdx_eq_filter hgroupKeys hj]
  · rename_i hmem
    rw [List.lookup_eq_none_iff]
    intro p hp
    rw [bne_iff_ne]
    rintro rfl
    apply hmem
    rw [← map_lists]
    exact List.mem_map.mpr ⟨p, hp, rfl⟩

end Groups

/-! ### The commands of a run -/

/-- The Zigbee lines for an event: one to each linked Zigbee button. -/
def zigbeeLines (groups : List (List Button)) (item : LinkButton) : List Text :=
  ((others groups item.idButton).filter fun b => b.protocol == "zigbee".toList).map
    (·.line item.stateButton)

/-- The BLE calls for an event: one to each linked BLE button. -/
def bleCalls (groups : List (List Button)) (item : LinkButton) : List BleCall :=
  ((others groups item.idButton).filter fun b => b.protocol == "ble".toList).map
    (·.call item.stateButton)

/-- Disjoint groups without repeated buttons, named as the gateway does, with lists that fit. -/
structure Plain (groups : List (List Button)) : Prop where
  nodup : groups.flatten.Nodup
  named : ∀ b ∈ groups.flatten, b.Named
  fit : ∀ b ∈ groups.flatten, (Button.ids (others groups b.key)).length ≤ 255

theorem Button.Named.key_inj {b c : Button} (hb : b.Named) (hc : c.Named) (h : b.key = c.key) :
    b = c := by
  obtain ⟨nodeId, protocol, endpoint⟩ := b
  obtain ⟨nodeId', protocol', endpoint'⟩ := c
  obtain ⟨e, rfl, -⟩ := hb.endpoint
  obtain ⟨e', rfl, -⟩ := hc.endpoint
  have hlength : nodeId.length = nodeId'.length :=
    hb.spelt.length_nodeId.trans hc.spelt.length_nodeId.symm
  simp only [Button.key, List.append_assoc] at h
  obtain ⟨rfl, hrest⟩ := List.append_inj h hlength
  obtain ⟨rfl, hlast⟩ := List.append_inj' hrest rfl
  rw [hlast]

section Plain

variable {groups : List (List Button)}

theorem Plain.keys (h : Plain groups) : (groups.flatten.map Button.key).Nodup :=
  h.nodup.map_on fun b hb c hc hkey => (h.named b hb).key_inj (h.named c hc) hkey

theorem others_subset {id : Text} : ∀ b ∈ others groups id, b ∈ groups.flatten := by
  intro b hb
  obtain ⟨group, hgroup, hb⟩ := List.mem_flatMap.mp hb
  split at hb
  · exact List.mem_flatten.mpr ⟨group, hgroup, (List.mem_filter.mp hb).1⟩
  · contradiction

/-- The map of the configuration takes each button to the ids of the buttons linked with it. -/
theorem Plain.map (h : Plain groups) {doc : Document} (hdoc : doc.root.Configures groups) :
    ∃ map, jsonParsing doc.text = some map ∧ ∀ id, mapGet map id =
      if id ∈ groups.flatten.map Button.key then some (Button.ids (others groups id))
      else none := by
  have hkeys : ((groups.flatMap groupLists).map (·.1)).Nodup := by
    rw [map_lists]
    exact h.keys
  have hfit : Fit (groups.flatMap groupLists) := by
    apply fit_nodup hkeys
    rintro ⟨k, v⟩ hmem
    have hlookup := lookup_of_nodup hkeys hmem
    rw [lookup_lists h.keys] at hlookup
    split at hlookup
    · rename_i hk
      obtain ⟨b, hb, rfl⟩ := List.mem_map.mp hk
      obtain rfl := Option.some.inj hlookup
      have := h.fit b hb
      simp only
      omega
    · contradiction
  obtain ⟨map, hmap, -, hlinks⟩ := doc.jsonParsing_iff.mpr ⟨_, hdoc.walk, hfit, rfl⟩
  refine ⟨map, hmap, fun id => ?_⟩
  rw [mapGet_eq, hlinks, linksOf_nodup hkeys, lookup_lists h.keys]

open Tasks in
theorem Plain.linked (h : Plain groups) {map : MapStr} (item : LinkButton)
    (hmap : ∀ id, mapGet map id =
      if id ∈ groups.flatten.map Button.key then some (Button.ids (others groups id)) else none) :
    linked map item = tokenItems item ((others groups item.idButton).map Button.key) := by
  rw [Tasks.linked, hmap]
  split
  · rw [Option.map_some, Option.getD_some, strtok_ids_words fun b hb =>
      (h.named b (others_subset b hb)).spelt.isWord_key]
  · rename_i hno
    rw [others_nil hno]
    rfl

end Plain

section Commands

open Tasks

variable {bs : List Button}

/-- The commands for the items of one kind, where the kind of an item is that of its button. -/
theorem commands_of_kind {α : Type} {p : LinkButton → Bool} {q : Button → Bool}
    {send : LinkButton → Option α} {command : Button → α} {item : LinkButton}
    (hkind : ∀ b ∈ bs, p ⟨item.stateButton, b.key⟩ = q b)
    (hsend : ∀ b ∈ bs, q b = true → send ⟨item.stateButton, b.key⟩ = some (command b)) :
    ((tokenItems item (bs.map Button.key)).filter p).map send =
      ((bs.filter q).map command).map some := by
  have hitems : tokenItems item (bs.map Button.key) =
      bs.map fun b => ⟨item.stateButton, b.key⟩ := List.map_map
  have hfilter : (tokenItems item (bs.map Button.key)).filter p =
      (bs.filter q).map fun b => ⟨item.stateButton, b.key⟩ := by
    rw [hitems, List.filter_map]
    exact congrArg _ (List.filter_congr hkind)
  rw [hfilter, List.map_map, List.map_map]
  apply List.map_congr_left
  intro b hb
  obtain ⟨hb, hq⟩ := List.mem_filter.mp hb
  exact hsend b hb hq

theorem zigbee_commands (hnamed : ∀ b ∈ bs, b.Named) (item : LinkButton)
    (hstate : item.stateButton.length ≤ 4) :
    (zigbee (tokenItems item (bs.map Button.key))).map Link.sendCommandZigbee =
      ((bs.filter fun b => b.protocol == "zigbee".toList).map (·.line item.stateButton)).map
        some := by
  refine commands_of_kind (fun b hb => ?_) fun b hb _ => (hnamed b hb).line_eq hstate
  rcases (hnamed b hb).protocol with hp | hp
  · have hble : isBle b.key = true := (hnamed b hb).spelt.isBle_key.mpr hp
    rw [hble, hp]
    decide
  · have hble : isBle b.key = false := by
      rw [Bool.eq_false_iff, ne_eq, (hnamed b hb).spelt.isBle_key, hp]
      decide
    rw [hble, hp]
    decide

theorem ble_commands (hnamed : ∀ b ∈ bs, b.Named) (item : LinkButton) :
    (ble (tokenItems item (bs.map Button.key))).map Link.sendCommandBLE =
      ((bs.filter fun b => b.protocol == "ble".toList).map (·.call item.stateButton)).map
        some := by
  refine commands_of_kind (fun b hb => ?_) fun b hb _ => (hnamed b hb).call_eq _
  rw [Bool.eq_iff_iff, (hnamed b hb).spelt.isBle_key, beq_iff_eq]

/-- Whatever the order in which the tasks work, when all is quiet each event has given one command
to each other button of its group, in the order of the configuration and of the events. -/
theorem commands_exact {groups : List (List Button)} {doc : Document}
    (hdoc : doc.root.Configures groups) (hplain : Plain groups) :
    ∃ map, jsonParsing doc.text = some map ∧
      ∀ (es : List Tasks.Event) (s : Tasks),
        Run (Guarded (Steps (Tasks.step map)) HasRoom) Tasks.start es s → s.Quiet →
          s.uart = (puts es).flatMap (zigbeeLines groups) ∧
            s.calls = (puts es).flatMap (bleCalls groups) := by
  obtain ⟨map, hmap, hget⟩ := hplain.map hdoc
  refine ⟨map, hmap, fun es s run hquiet => ?_⟩
  obtain ⟨huart, hcalls⟩ := accounted_quiet run hquiet
  have hnamed (item : LinkButton) : ∀ b ∈ others groups item.idButton, b.Named :=
    fun b hb => hplain.named b (others_subset b hb)
  have hstate : ∀ item ∈ puts es, item.stateButton.length ≤ 4 := by
    intro item hitem
    obtain ⟨e, -, he⟩ := List.mem_filterMap.mp hitem
    cases e with
    | put idButton on =>
      obtain rfl := Option.some.inj he
      cases on with
      | true => exact (by decide : "on".toList.length ≤ 4)
      | false => exact (by decide : "off".toList.length ≤ 4)
    | sendIdButton => contradiction
    | sendCommandZigbee => contradiction
    | sendCommandBLE => contradiction
  have hinj : Function.Injective (List.map (some : Text → Option Text)) :=
    List.map_injective_iff.mpr (Option.some_injective _)
  have hinj' : Function.Injective (List.map (some : BleCall → Option BleCall)) :=
    List.map_injective_iff.mpr (Option.some_injective _)
  constructor
  · apply hinj
    rw [huart, zigbee, List.filter_flatMap, List.map_flatMap, List.map_flatMap]
    apply List.flatMap_congr
    intro item hitem
    rw [hplain.linked item hget]
    exact zigbee_commands (hnamed item) item (hstate item hitem)
  · apply hinj'
    rw [hcalls, ble, List.filter_flatMap, List.map_flatMap, List.map_flatMap]
    apply List.flatMap_congr
    intro item hitem
    rw [hplain.linked item hget]
    exact ble_commands (hnamed item) item

/-- A press of the switch puts the lamp on. -/
theorem commands_exact_switch :
    ∃ map s, jsonParsing switchAndLamp.text = some map ∧
      Run (Guarded (Steps (Tasks.step map)) HasRoom) Tasks.start
        [.put "0x1A2Bzigbee1".toList true, .sendIdButton, .sendIdButton, .sendIdButton,
          .sendCommandBLE] s ∧
      s.calls = bleCalls [switchAndLampGroup] (item "0x1A2Bzigbee1".toList true) := by
  have hplain : Plain [switchAndLampGroup] := by
    refine ⟨by decide, ?_, by decide⟩
    intro b hb
    have hb : b = ⟨"0x1A2B".toList, "zigbee".toList, "1".toList⟩ ∨
        b = ⟨"0x0005".toList, "ble".toList, "2".toList⟩ := by
      simpa [switchAndLampGroup] using hb
    rcases hb with rfl | rfl
    · exact ⟨⟨"1A2B".toList, by decide, by decide, by decide⟩, .inr rfl, '1', by decide⟩
    · exact ⟨⟨"0005".toList, by decide, by decide, by decide⟩, .inl rfl, '2', by decide⟩
  obtain ⟨map, hmap, hexact⟩ := commands_exact switchAndLamp_configures hplain
  have hexec : ((jsonParsing switchAndLamp.text).bind fun map =>
      exec (restrict (Tasks.step map) fun s e => decide (HasRoom s e)) Tasks.start
        [.put "0x1A2Bzigbee1".toList true, .sendIdButton, .sendIdButton, .sendIdButton,
          .sendCommandBLE]) = some ⟨[], none, [], [], [], [⟨5, 1, 1, true⟩]⟩ := by
    decide
  rw [hmap, Option.bind_some] at hexec
  have hrun := Run.of_exec_restrict (G := HasRoom) (fun _ _ => of_decide_eq_true) hexec
  have hcalls := (hexact _ _ hrun ⟨rfl, rfl, rfl, rfl⟩).2
  exact ⟨map, _, hmap, hrun, by simpa [puts] using hcalls⟩

end Commands

end VhomeBridge.Link
