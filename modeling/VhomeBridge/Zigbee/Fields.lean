import VhomeBridge.JsonFields
import VhomeBridge.Zigbee.Locals

/-! The fields and the memory of `uart_rx_task`.  As long as each string fits its own field, what
the task does with the fields is what it does with the records in memory. -/

namespace VhomeBridge.Zigbee.Locals

open JsonUser JsonRecords Lib

/-- The fields that are read, in memory. -/
structure Represents (c : Cmd) (s : Locals) : Prop where
  nodeID : s.commandSet.Holds nodeIDAt (c.nodeID ++ ['\x00'])
  endpoint : s.commandSet endpointAt = Char.ofNat c.endpoint.toNat
  value : s.commandSet.Holds valueAt (c.value ++ ['\x00'])
  nodeID_fits : c.nodeID.length < 10 ∧ '\x00' ∉ c.nodeID
  value_fits : c.value.length < 20 ∧ '\x00' ∉ c.value

/-- No string of the line has a NUL. -/
def NulFree (lib : CJsonLib) (line : Text) : Prop :=
  ∀ root, lib.parse line = some root → ∀ item ∈ root.child, ∀ s, item.valuestring = some s →
    '\x00' ∉ s

section

variable {lib : CJsonLib} {normal linkButton : Bool} {root : CJson} {items : List CJson}
  {line : Text} {s t : Locals} {c c' : Cmd} {a : Action}

/-- What items that fit the fields give. -/
theorem given_of_fits (hfits : ∀ item ∈ items, ∀ f ∈ zigbeeFields, JsonUser.Fits f item)
    (hnul : ∀ item ∈ items, ∀ s, item.valuestring = some s → '\x00' ∉ s) :
    given lib root items = {
      action := lastOf (stringOf "action") items []
      fwVersion := lastOf (stringOf "fwVersion") items []
      nodeID := (items.filterMap (stringOf "nodeId")).getLast?
      endpoint := (items.filterMap numberOf).getLast?
      value := (items.filterMap (stateOf lib root)).getLast? } := by
  have htext (name : String) : ∀ item ∈ items, textOf name item = stringOf name item :=
    fun item hitem => textOf_eq_stringOf (hnul item hitem)
  have hspill {name : String} {n room : Nat} (hfield : (name, n) ∈ zigbeeFields) (hle : n ≤ room) :
      ∀ item ∈ items, (textOf name item).bind (spill room) = none := by
    intro item hitem
    rw [htext name item hitem]
    cases hstring : stringOf name item with
    | none => rfl
    | some x =>
      have hlt := length_of_fits (name, n) (hfits item hitem _ hfield) hstring
      exact if_neg (show ¬room ≤ x.length by omega)
  have hversion : ∀ item ∈ items, fwVersionOf item = stringOf "fwVersion" item := by
    intro item hitem
    rw [fwVersionOf, hspill (by decide) (Nat.le_refl 50) item hitem, Option.or_none,
      htext _ item hitem]
  have hendpoint : ∀ item ∈ items, endpointOf item = numberOf item := by
    intro item hitem
    rw [endpointOf, hspill (n := 10) (by decide) (by decide) item hitem, Option.map_none,
      Option.or_none]
  have hvalue : ∀ item ∈ items, valueOf lib root item = stateOf lib root item := by
    intro item hitem
    rw [valueOf, hspill (n := 10) (by decide) (by decide) item hitem, Option.or_none]
  simp only [given, lastOf, List.filterMap_congr (htext _), List.filterMap_congr hversion,
    List.filterMap_congr hendpoint, List.filterMap_congr hvalue]

theorem stringOf_fits {name : String} {n : Nat} {x : Text}
    (hfits : ∀ item ∈ items, JsonUser.Fits (name, n) item)
    (hnul : ∀ item ∈ items, ∀ s, item.valuestring = some s → '\x00' ∉ s)
    (hx : (items.filterMap (stringOf name)).getLast? = some x) : x.length < n ∧ '\x00' ∉ x := by
  obtain ⟨item, hitem, hstring⟩ := exists_of_getLast?_filterMap hx
  have hvalue := hstring
  rw [stringOf, Option.ite_none_right_eq_some] at hvalue
  exact ⟨length_of_fits (name, n) (hfits item hitem) hstring, hnul item hitem x hvalue.2⟩

theorem stateOf_fits {x : Text} (hx : (items.filterMap (stateOf lib root)).getLast? = some x) :
    x.length < 20 ∧ '\x00' ∉ x := by
  obtain ⟨item, -, hstate⟩ := exists_of_getLast?_filterMap hx
  rw [stateOf, Option.ite_none_right_eq_some] at hstate
  obtain ⟨attrBuf, -, hstate⟩ := Option.bind_eq_some_iff.mp hstate.2
  obtain ⟨state, -, rfl⟩ := Option.map_eq_some_iff.mp hstate
  split <;> decide

theorem Represents.of_left {g : Given} {e : BitVec 8} (hrep : Represents c s)
    (hleft : Left g s.cleared t) (hnode : ∀ x, g.nodeID = some x → x.length < 10 ∧ '\x00' ∉ x)
    (hvalue : ∀ x, g.value = some x → x.length < 20 ∧ '\x00' ∉ x)
    (he : g.endpoint.getD (Char.ofNat c.endpoint.toNat) = Char.ofNat e.toNat) :
    Represents { c with
      nodeID := g.nodeID.getD c.nodeID, endpoint := e, value := g.value.getD c.value } t where
  nodeID := by
    cases hg : g.nodeID with
    | some x =>
      have hholds := hleft.nodeID x hg
      have hlt := (hnode x hg).1
      rwa [List.take_of_length_le (by rw [List.length_append, List.length_singleton]; omega)]
        at hholds
    | none =>
      refine hrep.nodeID.frame fun k hk hk' => hleft.noNodeID hg k hk ?_
      have hlt := hrep.nodeID_fits.1
      rw [List.length_append, List.length_singleton] at hk'
      unfold nodeIDAt at hk'
      unfold endpointAt
      omega
  endpoint := by
    rw [hleft.endpoint, show s.cleared.commandSet endpointAt = _ from hrep.endpoint]
    exact he
  value := by
    cases hg : g.value with
    | some x => exact hleft.value x hg
    | none => exact hrep.value.frame fun k hk _ => hleft.noValue hg k hk
  nodeID_fits := by
    cases hg : g.nodeID with
    | some x => exact hnode x hg
    | none => exact hrep.nodeID_fits
  value_fits := by
    cases hg : g.value with
    | some x => exact hvalue x hg
    | none => exact hrep.value_fits

/-- The analyser of the fields and that of the memory. -/
theorem analyze_fields (hrep : Represents c s) (hnul : NulFree lib line)
    (h : JsonUser.analyzeSubZigbee lib line (Action.zero, c) = some (a, c')) :
    ∃ g t, analyzeSubZigbee lib line s.cleared = some t ∧ Left g s.cleared t ∧
      Represents c' t ∧ g.action = a.action ∧ g.fwVersion = a.fwVersion ∧ '\x00' ∉ a.action ∧
      a.fwVersion.length < 20 ∧ '\x00' ∉ a.fwVersion := by
  cases hparse : lib.parse line with
  | none =>
    rw [JsonUser.analyzeSubZigbee, hparse, Option.some.injEq, Prod.mk.injEq] at h
    obtain ⟨rfl, rfl⟩ := h
    refine ⟨_, s.cleared, by rw [analyzeSubZigbee, hparse], left_nil lib (.mk none none 0 []) s,
      ⟨hrep.nodeID, hrep.endpoint, hrep.value, hrep.nodeID_fits, hrep.value_fits⟩, rfl, rfl,
      List.not_mem_nil, by decide, List.not_mem_nil⟩
  | some root =>
    obtain ⟨hcond, hgiven⟩ := (analyzeSubZigbee_defined hparse _ _).mp h
    have hfits : ∀ item ∈ root.child, ∀ f ∈ zigbeeFields, JsonUser.Fits f item :=
      fun item hitem => (hcond item hitem).1
    have hplain := hnul root hparse
    have hrecord : ∀ item ∈ root.child, FitsRecord lib root item := fun item hitem =>
      ⟨fitsRoom_of_fits (n := 50) (by decide) (hfits item hitem _ (by decide)),
        fitsRoom_of_fits (n := 20) (by decide) (hfits item hitem _ (by decide)),
        fitsRoom_of_fits (n := 10) (by decide) (hfits item hitem _ (by decide)),
        (hcond item hitem).2⟩
    have hline := (analyze_defined hparse s.cleared _).mpr ⟨hrecord, rfl⟩
    have hleft := left_put lib root root.child s
    have hfield {name : String} {n : Nat} (hmem : (name, n) ∈ zigbeeFields) :
        ∀ item ∈ root.child, JsonUser.Fits (name, n) item :=
      fun item hitem => hfits item hitem _ hmem
    rw [given_of_fits hfits hplain] at hleft
    obtain ⟨rfl, rfl⟩ := Prod.mk.inj hgiven
    have hlast (name : String) (n : Nat) (hmem : (name, n) ∈ zigbeeFields) (hpos : 0 < n) :
        (lastOf (stringOf name) root.child []).length < n ∧
          '\x00' ∉ lastOf (stringOf name) root.child [] := by
      rw [lastOf]
      cases hx : (root.child.filterMap (stringOf name)).getLast? with
      | none => exact ⟨hpos, List.not_mem_nil⟩
      | some x => exact stringOf_fits (hfield hmem) hplain hx
    have haction := hlast "action" 50 (by decide) (by decide)
    have hversion := hlast "fwVersion" 20 (by decide) (by decide)
    refine ⟨_, _, hline, hleft, hrep.of_left hleft ?_ ?_ ?_, rfl, rfl, haction.2, hversion⟩
    · exact fun x hx => stringOf_fits (hfield (by decide)) hplain hx
    · exact fun x hx => stateOf_fits hx
    · exact lastOf_map (byteOf "endpoint") (fun e => Char.ofNat e.toNat) root.child c.endpoint

/-! ### The outputs -/

theorem Represents.string_nodeID (h : Represents c s) :
    s.commandSet.string '\x00' cmdSize nodeIDAt = some c.nodeID := by
  have hlt := h.nodeID_fits.1
  rw [h.nodeID.string_append (by unfold nodeIDAt cmdSize; omega),
    Tape.takeWhile_ne h.nodeID_fits.2]

theorem Represents.string_value (h : Represents c s) :
    s.commandSet.string '\x00' cmdSize valueAt = some c.value := by
  have hlt := h.value_fits.1
  rw [h.value.string_append (by unfold valueAt cmdSize; omega), Tape.takeWhile_ne h.value_fits.2]

theorem Represents.endpoint_eq (h : Represents c s) : s.endpoint = c.endpoint.toNat := by
  have hlt := c.endpoint.isLt
  rw [Locals.endpoint, h.endpoint, Text.toNat_ofNat (by omega)]
  omega

/-- The event of the fields and that of the memory. -/
theorem uartLinkEvent_fields (h : Represents c s) {event : LinkButton}
    (hevent : Zigbee.uartLinkEvent c = some event) :
    ∃ item, s.uartLinkEvent = some (item, event) := by
  simp only [Zigbee.uartLinkEvent, intoBuffer, Option.bind_eq_bind, Option.bind_eq_some_iff,
    Option.ite_none_right_eq_some, pure, Option.some.injEq] at hevent
  obtain ⟨value, ⟨hvalue, rfl⟩, id, ⟨hid, rfl⟩, rfl⟩ := hevent
  have hzigbee : "zigbee".toList.length = 6 := by decide
  have heq := uartLinkEvent_eq h.string_value h.string_nodeID
  rw [List.length_append, List.length_append, hzigbee] at hid
  rw [h.endpoint_eq, if_pos (by omega), eventOf, if_pos hvalue] at heq
  obtain ⟨⟨item, event⟩, hsome, rfl⟩ := Option.map_eq_some_iff.mp heq
  exact ⟨item, hsome⟩

theorem reportOutputs_fields {data : Text} {report : List UartOut} (hrep : Represents c s)
    (haction : s.isReport = Zigbee.isReport a.action)
    (h : Zigbee.reportOutputs normal linkButton data a c = some report) :
    ∃ item, s.reportOutputs normal linkButton data =
      some ({ s with dataLinkButton := item }, report) := by
  unfold Zigbee.reportOutputs at h
  unfold reportOutputs
  rw [haction]
  split
  · rename_i hreport
    rw [if_pos hreport] at h
    cases linkButton with
    | false =>
      obtain rfl := Option.some.inj h
      exact ⟨s.dataLinkButton, rfl⟩
    | true =>
      obtain ⟨event, hevent, rfl⟩ := Option.map_eq_some_iff.mp h
      obtain ⟨item, hitem⟩ := uartLinkEvent_fields hrep hevent
      rw [if_pos rfl, hitem]
      exact ⟨item, rfl⟩
  · rename_i hreport
    rw [if_neg hreport] at h
    obtain rfl := Option.some.inj h
    exact ⟨s.dataLinkButton, rfl⟩

theorem mcuInfoOutputs_fields {info : List UartOut}
    (haction : s.isAction "mcuInfo" = true ↔ a.action = "mcuInfo".toList)
    (hversion : s.action.string '\x00' actionSize fwVersionAt = some a.fwVersion)
    (h : Zigbee.mcuInfoOutputs normal a = some info) : s.mcuInfoOutputs normal = some info := by
  unfold Zigbee.mcuInfoOutputs at h
  unfold mcuInfoOutputs
  split
  · rename_i hinfo
    rw [if_pos (haction.mp hinfo)] at h
    rw [hversion]
    exact h
  · rename_i hinfo
    rw [if_neg fun hyes => hinfo (haction.mpr hyes)] at h
    exact h

/-- As long as the strings of a line fit their fields, `uart_rx_task` does on the memory what it
does on the fields. -/
theorem uartRxLine_fields {outs : List UartOut} (hrep : Represents c s) (hnul : NulFree lib line)
    (h : Zigbee.uartRxLine lib normal linkButton c line = some (c', outs)) :
    ∃ t, s.uartRxLine lib normal linkButton line = some (t, outs) ∧ Represents c' t := by
  obtain ⟨⟨a, c₁⟩, hanalyze, h⟩ := Option.bind_eq_some_iff.mp h
  obtain ⟨outs', hlines, heq⟩ := Option.bind_eq_some_iff.mp h
  obtain ⟨rfl, rfl⟩ := Prod.mk.inj (Option.some.inj heq)
  obtain ⟨report, hreport, hlines⟩ := Option.bind_eq_some_iff.mp hlines
  obtain ⟨info, hinfo, heq⟩ := Option.bind_eq_some_iff.mp hlines
  obtain rfl := Option.some.inj heq
  obtain ⟨g, t, hline, hleft, hrep', haction, hversion, hnula, hlt, hnulv⟩ :=
    analyze_fields hrep hnul hanalyze
  have hisReport : t.isReport = Zigbee.isReport a.action := by
    rw [hleft.isReport (haction ▸ hnula), haction]
  have hname {name : String} (hshort : name.toList.length < 50 ∧ '\x00' ∉ name.toList) :
      t.isAction name = true ↔ a.action = name.toList := by
    rw [hleft.isAction (haction ▸ hnula) hshort, haction]
  have hstring : t.action.string '\x00' actionSize fwVersionAt = some a.fwVersion := by
    rw [hleft.string_fwVersion (hversion ▸ hnulv) (hversion ▸ hlt), hversion]
  obtain ⟨item, hout⟩ := reportOutputs_fields hrep' hisReport hreport
  have hmcu : ({ t with dataLinkButton := item } : Locals).mcuInfoOutputs normal = some info :=
    mcuInfoOutputs_fields (hname (by decide)) hstring hinfo
  refine ⟨{ t with dataLinkButton := item }, ?_,
    ⟨hrep'.nodeID, hrep'.endpoint, hrep'.value, hrep'.nodeID_fits, hrep'.value_fits⟩⟩
  simp only [uartRxLine, hline, hout, hmcu, Bind.bind, Option.bind_some, pure,
    hname (show "join".toList.length < 50 ∧ '\x00' ∉ "join".toList by decide),
    hname (show "rejoin".toList.length < 50 ∧ '\x00' ∉ "rejoin".toList by decide),
    hname (show "left".toList.length < 50 ∧ '\x00' ∉ "left".toList by decide)]

/-- The same over lines. -/
theorem uartRxLines_fields {lines : List Text} (hrep : Represents c s)
    (hnul : ∀ line ∈ lines, NulFree lib line)
    (h : lines.foldlM (fun c line => (Zigbee.uartRxLine lib normal linkButton c line).map (·.1)) c =
      some c') :
    ∃ t, s.uartRxLines lib normal linkButton lines = some t ∧ Represents c' t := by
  induction lines generalizing c s with
  | nil =>
    obtain rfl := Option.some.inj h
    exact ⟨s, rfl, hrep⟩
  | cons line lines ih =>
    rw [List.foldlM_cons] at h
    obtain ⟨c₁, hfirst, hrest⟩ := Option.bind_eq_some_iff.mp h
    obtain ⟨⟨c₁, outs⟩, hline, rfl⟩ := Option.map_eq_some_iff.mp hfirst
    obtain ⟨t, ht, hrep'⟩ := uartRxLine_fields hrep (hnul line (by simp)) hline
    obtain ⟨u, hu, hrep''⟩ := ih hrep' (fun l hl => hnul l (by simp [hl])) hrest
    refine ⟨u, ?_, hrep''⟩
    rw [uartRxLines, List.foldlM_cons, ht]
    exact hu

end

end VhomeBridge.Zigbee.Locals
