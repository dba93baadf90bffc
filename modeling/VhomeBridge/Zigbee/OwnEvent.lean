import VhomeBridge.Zigbee.Locals

/-! The link event of a line.  It comes from the line alone exactly if the line gives all that the
event is made of; else from what earlier lines or the stack have left in `command_set`. -/

namespace VhomeBridge.Zigbee.Locals

open JsonUser JsonRecords Lib

/-- With links, the line is handled without a fault after any lines and on any stack, and puts the
same events on the queue each time. -/
def OwnEvent (lib : CJsonLib) (normal : Bool) (line : Text) : Prop :=
  ∃ es, ∀ (s : Locals) (lines : List Text), (s.uartRxLines lib normal true lines).isSome →
    s.lastEvents lib normal true lines line = some es

section

variable {lib : CJsonLib} {normal : Bool} {line : Text} {root : CJson} {s t : Locals} {g : Given}

/-- The events of one line. -/
def lineEvents (lib : CJsonLib) (normal : Bool) (s : Locals) (line : Text) :
    Option (List LinkButton) :=
  (s.uartRxLine lib normal true line).map fun r => r.2.filterMap UartOut.event?

theorem ownEvent_iff_line :
    OwnEvent lib normal line ↔ ∃ es, ∀ s, lineEvents lib normal s line = some es := by
  constructor
  · rintro ⟨es, h⟩
    refine ⟨es, fun s => ?_⟩
    have hline := h s [] rfl
    rw [← hline, lineEvents]
    cases hs : s.uartRxLine lib normal true line <;>
      simp [lastEvents, uartRxLines, hs]
  · rintro ⟨es, h⟩
    refine ⟨es, fun s lines hlines => ?_⟩
    obtain ⟨t, ht⟩ := Option.isSome_iff_exists.mp hlines
    rw [← h t, lastEvents, ht, lineEvents]
    cases ht' : t.uartRxLine lib normal true line <;> simp [ht']

/-- The events of a line that is analysed, by its action. -/
theorem lineEvents_eq (normal : Bool) (hline : analyzeSubZigbee lib line s.cleared = some t)
    (h : Left g s.cleared t) (hnul : '\x00' ∉ g.action) :
    lineEvents lib normal s line =
      if Zigbee.isReport g.action = true then t.uartLinkEvent.map fun r => [r.2]
      else (t.mcuInfoOutputs normal).map fun _ => [] := by
  have hother {name : String} {topic : Topic} : (if t.isAction name then publish normal topic line
      else []).filterMap UartOut.event? = [] := by
    split
    · exact publish_events topic line
    · rfl
  have hinfo {outs : List UartOut} (houts : t.mcuInfoOutputs normal = some outs) :
      outs.filterMap UartOut.event? = [] := by
    unfold mcuInfoOutputs at houts
    split at houts
    · obtain ⟨v, -, hmessage⟩ := Option.bind_eq_some_iff.mp houts
      obtain ⟨message, -, rfl⟩ := Option.map_eq_some_iff.mp hmessage
      exact publish_events .msg message
    · obtain rfl := Option.some.inj houts
      rfl
  rw [lineEvents, uartRxLine, hline]
  dsimp only [Option.bind_eq_bind, Option.bind_some]
  rw [reportOutputs, h.isReport hnul]
  by_cases hreport : Zigbee.isReport g.action = true
  · have hname : t.isAction "mcuInfo" = false := by
      rw [Bool.eq_false_iff, ne_eq, h.isAction hnul (by decide)]
      exact (report_names hreport).2.2.2
    rw [if_pos hreport, if_pos rfl, if_pos hreport]
    cases t.uartLinkEvent with
    | none => rfl
    | some r =>
      have hnone : ({ t with dataLinkButton := r.1 } : Locals).mcuInfoOutputs normal = some [] := by
        rw [mcuInfoOutputs, show ({ t with dataLinkButton := r.1 } : Locals).isAction "mcuInfo" =
          false from hname]
        rfl
      simp only [Bind.bind, pure, Option.bind_some, hnone, Option.map_some,
        List.filterMap_append, hother, publish_events, List.append_nil]
      rfl
  · rw [if_neg hreport, if_neg hreport]
    simp only [Option.bind_some]
    cases hout : t.mcuInfoOutputs normal with
    | none => rfl
    | some info =>
      simp only [pure, Option.bind_some, Option.map_some, List.filterMap_append, hother, hinfo hout,
        List.filterMap_nil, List.append_nil]

/-- The event of a report, after any lines. -/
theorem lastEvents_report {lines : List Text} {es : List LinkButton}
    (hparse : lib.parse line = some root)
    (hreport : Zigbee.isReport (given lib root root.child).action = true)
    (h : s.lastEvents lib normal true lines line = some es) :
    ∃ s' t r, Left (given lib root root.child) s' t ∧ t.uartLinkEvent = some r ∧ es = [r.2] := by
  obtain ⟨s', -, h⟩ := Option.bind_eq_some_iff.mp h
  obtain ⟨⟨u, outs⟩, hline, hes⟩ := Option.bind_eq_some_iff.mp h
  have hevents : lineEvents lib normal s' line = some es := by
    rw [lineEvents, hline]
    exact hes
  obtain ⟨t, ht, -⟩ := Option.bind_eq_some_iff.mp hline
  obtain ⟨-, rfl⟩ := (analyze_defined hparse _ t).mp ht
  have hleft := left_put lib root root.child s'
  rw [lineEvents_eq normal ht hleft given_action, if_pos hreport, Option.map_eq_some_iff] at hevents
  obtain ⟨r, hr, rfl⟩ := hevents
  exact ⟨_, _, r, hleft, hr, rfl⟩

/-! ### The event of a report -/

/-- The event of a node id, an endpoint and a value in `command_set`, if it fits the item. -/
def recordEvent (nodeID : Text) (endpoint : Char) (value : Text) : Option (List LinkButton) :=
  let digits := Text.decimal (endpoint.toNat % 256)
  if value.length < 45 ∧ (runOn nodeID endpoint value).length + digits.length < 34 then
    some [eventOf value (runOn nodeID endpoint value ++ "zigbee".toList ++ digits)]
  else none

theorem uartLinkEvent_record {x v : Text} {e : Char}
    (hv : t.commandSet.string '\x00' cmdSize valueAt = some v)
    (hx : t.commandSet.string '\x00' cmdSize nodeIDAt = some (runOn x e v))
    (he : t.commandSet endpointAt = e) :
    (t.uartLinkEvent.map fun r => [r.2]) = recordEvent x e v := by
  have hevent := congrArg (Option.map fun event : LinkButton => [event]) (uartLinkEvent_eq hv hx)
  rw [Option.map_map] at hevent
  apply hevent.trans
  rw [recordEvent, endpoint, he]
  split <;> rfl

/-- A record of an earlier line, or what the stack held. -/
def heldRecord (nodeID : Text) (endpoint : Char) (value : Text) : Tape Char :=
  ((Tape.write (fun _ => '\x00') nodeIDAt (nodeID ++ ['\x00'])).write endpointAt [endpoint]).write
    valueAt (value ++ ['\x00'])

def held (nodeID : Text) (endpoint : Char) (value : Text) : Locals where
  action := fun _ => '\x00'
  commandSet := heldRecord nodeID endpoint value
  dataLinkButton := fun _ => '\x00'

theorem held_endpoint (x : Text) (e : Char) (v : Text) :
    (held x e v).commandSet endpointAt = e := by
  show heldRecord x e v endpointAt = e
  rw [heldRecord, Tape.write_of_lt (by decide)]
  exact (Tape.holds_cons.mp Tape.holds_write).1

/-- The event of a report on a record: each field is that of the line or else that of the record. -/
theorem Left.event_held {x v : Text} {e : Char} (h : Left g (held x e v).cleared t)
    (hx : x.length < 28 ∧ '\x00' ∉ x) (hv : v.length < 130 ∧ '\x00' ∉ v)
    (gx : ∀ y, g.nodeID = some y → '\x00' ∉ y)
    (gv : ∀ y, g.value = some y → '\x00' ∉ y ∧ y.length < 130) :
    (t.uartLinkEvent.map fun r => [r.2]) =
      recordEvent (g.nodeID.getD x) (g.endpoint.getD e) (g.value.getD v) := by
  have hendpoint : t.commandSet endpointAt = g.endpoint.getD e :=
    h.endpoint.trans (congrArg g.endpoint.getD (held_endpoint x e v))
  have hvalue : t.commandSet.string '\x00' cmdSize valueAt = some (g.value.getD v) := by
    cases hg : g.value with
    | some y => exact h.string_value hg (gv y hg)
    | none =>
      have hheld : (held x e v).commandSet.Holds valueAt (v ++ ['\x00']) := Tape.holds_write
      have hholds := hheld.frame fun k hk _ => h.noValue hg k hk
      rw [hholds.string_append (by unfold valueAt cmdSize; omega), Tape.takeWhile_ne hv.2]
      rfl
  refine uartLinkEvent_record hvalue ?_ hendpoint
  cases hg : g.nodeID with
  | some y => rw [h.string_nodeID hg (gx y hg) hvalue, hendpoint, Option.getD_some]
  | none =>
    have hheld : (held x e v).commandSet.Holds nodeIDAt (x ++ ['\x00']) :=
      Tape.holds_write.frame fun k hk hk' => by
        rw [List.length_append, List.length_singleton, nodeIDAt] at hk'
        have hvalue : k < valueAt := by unfold valueAt; omega
        have hendpoint : k < endpointAt := by unfold endpointAt; omega
        exact (Tape.write_of_lt hvalue).trans (Tape.write_of_lt hendpoint)
    have hholds : t.commandSet.Holds nodeIDAt (x ++ ['\x00']) := hheld.frame fun k hk hk' => by
      rw [List.length_append, List.length_singleton] at hk'
      exact h.noNodeID hg k hk (by unfold nodeIDAt at hk'; unfold endpointAt; omega)
    rw [hholds.string_append (by unfold nodeIDAt cmdSize; omega), Tape.takeWhile_ne hx.2,
      Option.getD_none, runOn, if_pos hx.1]

/-- A report that gives all of its event. -/
theorem Left.event_complete (h : Left g s t) {x v : Text} {e : Char} (hx : g.nodeID = some x)
    (he : g.endpoint = some e) (hv : g.value = some v) (gx : '\x00' ∉ x)
    (gv : '\x00' ∉ v ∧ v.length < 130) :
    (t.uartLinkEvent.map fun r => [r.2]) = recordEvent x e v := by
  have hvalue := h.string_value hv gv
  have hendpoint : t.commandSet endpointAt = e := by rw [h.endpoint, he, Option.getD_some]
  exact uartLinkEvent_record hvalue (by rw [h.string_nodeID hx gx hvalue, hendpoint]) hendpoint

theorem recordEvent_some {x v : Text} {e : Char} {es : List LinkButton}
    (h : recordEvent x e v = some es) : (v.length < 45 ∧
      (runOn x e v).length + (Text.decimal (e.toNat % 256)).length < 34) ∧
        es = [eventOf v (runOn x e v ++ "zigbee".toList ++ Text.decimal (e.toNat % 256))] := by
  rw [recordEvent, Option.ite_none_right_eq_some, Option.some.injEq] at h
  exact ⟨h.1, h.2.symm⟩

/-- If the event is the same for all records, the line gives its fields. -/
theorem complete_of_same (es : List LinkButton)
    (short : ∀ x, g.nodeID = some x → g.endpoint = none → x.length < 28)
    (hsame : ∀ x e v, x.length < 28 ∧ '\x00' ∉ x → v.length < 130 ∧ '\x00' ∉ v →
      recordEvent (g.nodeID.getD x) (g.endpoint.getD e) (g.value.getD v) = some es) :
    g.Complete := by
  have hids {x x' v v' : Text} {e e' : Char} (h : recordEvent x e v = some es)
      (h' : recordEvent x' e' v' = some es) : eventOf v (runOn x e v ++ "zigbee".toList ++
        Text.decimal (e.toNat % 256)) = eventOf v' (runOn x' e' v' ++ "zigbee".toList ++
          Text.decimal (e'.toNat % 256)) := by
    have heq := (recordEvent_some h).2.symm.trans (recordEvent_some h').2
    exact List.singleton_inj.mp heq
  have hblank := hsame [] '\x00' [] (by decide) (by decide)
  cases hnode : g.nodeID with
  | none =>
    -- the ids would begin with the letter of the record
    have heq := hids hblank (hsame "a".toList '\x00' [] (by decide) (by decide))
    rw [hnode] at heq
    have hhead : some 'z' = some 'a' := congrArg (fun event => event.idButton.head?) heq
    exact absurd hhead (by decide)
  | some x =>
    cases hendpoint : g.endpoint with
    | none =>
      have hx := short x hnode hendpoint
      have heq := hids hblank (hsame [] '\x01' [] (by decide) (by decide))
      rw [hnode, hendpoint] at heq
      have hid := congrArg LinkButton.idButton heq
      simp only [eventOf, Option.getD_some, Option.getD_none, runOn, if_pos hx] at hid
      exact absurd (List.append_cancel_left hid) (by decide)
    | some e =>
      cases hvalue : g.value with
      | none =>
        have heq := hids hblank (hsame [] '\x00' "a".toList (by decide) (by decide))
        rw [hvalue] at heq
        have hstate : [] = "a".toList := congrArg LinkButton.stateButton heq
        exact absurd hstate (by decide)
      | some v =>
        rw [hnode, hendpoint, hvalue] at hblank
        obtain ⟨hfit, -⟩ := recordEvent_some hblank
        exact ⟨x, e, v, hnode, hendpoint, hvalue, hfit⟩

/-- A node id that does not reach the endpoint. -/
theorem given_short {items : List CJson} {x : Text} (hx : (given lib root items).nodeID = some x)
    (he : (given lib root items).endpoint = none) : x.length < 28 := by
  obtain ⟨item, hitem, htext⟩ := exists_of_getLast?_filterMap hx
  have hnone : endpointOf item = none :=
    List.filterMap_eq_nil_iff.mp (List.getLast?_eq_none_iff.mp he) item hitem
  rw [endpointOf, Option.or_eq_none_iff, htext, Option.bind_some, Option.map_eq_none_iff] at hnone
  exact spill_none hnone.2

theorem mcuInfoOutputs_isSome (normal : Bool) (h : Left g s t) (haction : '\x00' ∉ g.action)
    (hversion : '\x00' ∉ g.fwVersion ∧ g.fwVersion.length < 20) :
    (t.mcuInfoOutputs normal).isSome ↔ (g.action = "mcuInfo".toList → g.fwVersion.length < 12) := by
  have hname : t.isAction "mcuInfo" = true ↔ g.action = "mcuInfo".toList :=
    h.isAction haction (by decide)
  unfold mcuInfoOutputs
  split
  · rename_i hinfo
    rw [h.string_fwVersion hversion.1 hversion.2, forall_prop_of_true (hname.mp hinfo)]
    show ((fwVersionMessage ⟨"mcuInfo".toList, g.fwVersion⟩).map _).isSome ↔ _
    rw [Option.isSome_map, fwVersionMessage_isSome]
  · rename_i hother
    exact iff_of_true rfl fun hinfo => absurd (hname.mpr hinfo) hother

/-- A report has its own event if it gives all of it. -/
theorem lineEvents_report_iff (normal : Bool) (hparse : lib.parse line = some root)
    (hfit : ∀ item ∈ root.child, FitsRecord lib root item)
    (hreport : Zigbee.isReport (given lib root root.child).action = true) :
    (∃ es, ∀ s, lineEvents lib normal s line = some es) ↔
      (given lib root root.child).Complete := by
  have hline (s : Locals) := (analyze_defined hparse s.cleared _).mpr ⟨hfit, rfl⟩
  have hleft (s : Locals) := left_put lib root root.child s
  have hevents (s : Locals) := lineEvents_eq normal (hline s) (hleft s) given_action
  have gx : ∀ y, (given lib root root.child).nodeID = some y → '\x00' ∉ y :=
    fun _ => given_nodeID
  have gv : ∀ y, (given lib root root.child).value = some y → '\x00' ∉ y ∧ y.length < 130 :=
    fun _ => given_value hfit
  simp only [hevents, hreport, if_true]
  constructor
  · rintro ⟨es, hes⟩
    apply complete_of_same es (fun x hx he => given_short hx he)
    intro x e v hx hv
    rw [← (hleft (held x e v)).event_held hx hv gx gv]
    exact hes _
  · rintro ⟨x, e, v, hx, he, hv, hfits⟩
    refine ⟨[eventOf v (runOn x e v ++ "zigbee".toList ++ Text.decimal (e.toNat % 256))],
      fun s => ?_⟩
    rw [(hleft s).event_complete hx he hv (gx x hx) (gv v hv), recordEvent]
    exact if_pos hfits

/-- Another line has no event, and is handled if a version leaves room. -/
theorem lineEvents_other_iff (normal : Bool) (hparse : lib.parse line = some root)
    (hfit : ∀ item ∈ root.child, FitsRecord lib root item)
    (hother : ¬ Zigbee.isReport (given lib root root.child).action = true) :
    (∃ es, ∀ s, lineEvents lib normal s line = some es) ↔
      ((given lib root root.child).action = "mcuInfo".toList →
        (given lib root root.child).fwVersion.length < 12) := by
  have hline (s : Locals) := (analyze_defined hparse s.cleared _).mpr ⟨hfit, rfl⟩
  have hleft (s : Locals) := left_put lib root root.child s
  have hevents (s : Locals) := lineEvents_eq normal (hline s) (hleft s) given_action
  have hinfo (s : Locals) := mcuInfoOutputs_isSome normal (hleft s) given_action
    (given_fwVersion hfit)
  simp only [hevents, hother, Bool.false_eq_true, if_false]
  constructor
  · rintro ⟨es, hes⟩
    rw [← hinfo (held [] '\x00' []), ← Option.isSome_map, hes]
    rfl
  · intro hversion
    refine ⟨[], fun s => ?_⟩
    obtain ⟨outs, houts⟩ := Option.isSome_iff_exists.mp ((hinfo s).mpr hversion)
    rw [houts, Option.map_some]

/-- The event of a line is its own exactly if the line stays in the records and gives all of its
event. -/
theorem ownEvent_iff (lib : CJsonLib) (normal : Bool) (line : Text) :
    OwnEvent lib normal line ↔ Complete lib line := by
  rw [ownEvent_iff_line]
  cases hparse : lib.parse line with
  | none =>
    refine iff_of_true ⟨[], fun s => ?_⟩ fun root hroot => ?_
    · have hline : analyzeSubZigbee lib line s.cleared =
          some s.cleared := by rw [analyzeSubZigbee, hparse]
      rw [lineEvents_eq normal hline (left_nil lib (.mk none none 0 []) s)
        List.not_mem_nil]
      rfl
    · rw [hparse] at hroot
      cases hroot
  | some root =>
    simp only [Locals.Complete, hparse, Option.some.injEq, forall_eq']
    by_cases hfit : ∀ item ∈ root.child, FitsRecord lib root item
    swap
    · refine iff_of_false ?_ fun h => hfit h.1
      rintro ⟨es, hes⟩
      have hline := hes (held [] '\x00' [])
      obtain ⟨r, hr, -⟩ := Option.map_eq_some_iff.mp hline
      obtain ⟨t, ht, -⟩ := Option.bind_eq_some_iff.mp hr
      exact hfit ((analyze_defined hparse _ t).mp ht).1
    rw [and_iff_right hfit]
    by_cases hreport : Zigbee.isReport (given lib root root.child).action = true
    · -- the action of a report is not `mcuInfo`
      have hnot := (report_names hreport).2.2.2
      simp only [hnot, false_implies, and_true, hreport, true_implies]
      exact lineEvents_report_iff normal hparse hfit hreport
    · simp only [hreport, Bool.false_eq_true, false_implies, true_and]
      exact lineEvents_other_iff normal hparse hfit hreport

end

/-- The event of a report without a node id names the node of the line before it. -/
theorem fromNobody_differs :
    ¬ ∀ (lib : CJsonLib) (normal : Bool) (line : Text), OwnEvent lib normal line := by
  intro h
  obtain ⟨es, hes⟩ := h reportLib true fromNobody
  have hswitch : (held [] '\x00' []).lastEvents reportLib true true [fromSwitch] fromNobody =
      some [⟨"on".toList, "0x1A2Bzigbee1".toList⟩] := by decide +kernel
  have hlamp : (held [] '\x00' []).lastEvents reportLib true true [fromLamp] fromNobody =
      some [⟨"on".toList, "0x0005zigbee1".toList⟩] := by decide +kernel
  have hlines (line : Text) (hline : ((held [] '\x00' []).uartRxLines reportLib true true
      [line]).isSome) := hes (held [] '\x00' []) [line] hline
  have heq := (hlines fromSwitch (by decide +kernel)).symm.trans hswitch
  rw [← hlines fromLamp (by decide +kernel), hlamp] at heq
  exact absurd heq (by decide)

end VhomeBridge.Zigbee.Locals
