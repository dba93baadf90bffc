import VhomeBridge.JsonFields
import VhomeBridge.Lib.Lines
import VhomeBridge.Lib.Run
import VhomeBridge.Mqtt.OnOff

/-! `mqtt_handle` on all actions, and the serial line to the Zigbee chip.  A message leads to a list
of effects, which come one after the other while `sendCommandZigbee` writes its own lines in
between.  The chip takes what it reads up to a newline for one command. -/

namespace VhomeBridge.Mqtt

open Lib Link JsonUser

/-- What `mqtt_handle` does for a message, one call after the other. -/
inductive Effect
  | bleDeinit
  | otaTask (url : Option Text)
  | zigbeeBoot
  | zigbeeFotaTask
  | provisionStatus (status : BitVec 8)
  | bleMeshNodeReset (unicastAddr : Ble.Word)
  | bleMeshCommandSet (call : BleCall)
  | uart (line : Text)
  | espRestart
  | queueIdButton (item : LinkButton)
  | writetofile (textbuffer : Text)
  | map (map : MapStr)

def Effect.line? : Effect → Option Text
  | uart line => some line
  | _ => none

def OnOffOut.effect : OnOffOut → Effect
  | bleMeshCommandSet call => .bleMeshCommandSet call
  | uart line => .uart line

/-- The actions `lock` and `unlock`, with two lines in `data[50]`. -/
def lockEffects (command : String) (c : Cmd) : Option (List Effect) := do
  let data ← intoBuffer 50 ("zcl lock ".toList ++ command.toList ++ " \"000000\"\n".toList)
  let data' ← intoBuffer 50 ("send ".toList ++ c.nodeID ++ " 0x01 0x01\n".toList)
  return [.uart data, .uart data']

/-- `mqtt_handle` for the command that `item` was analysed to. -/
def dispatch (linkButton : Bool) (item : Text) (c : Cmd) : Option (List Effect) :=
  if c.action = "upgrade".toList then
    some [.bleDeinit, .otaTask (if c.url.length > 0 then some c.url else none)]
  else if c.action = "zigbee_upgrade".toList then
    some [.bleDeinit, .zigbeeBoot, .zigbeeFotaTask]
  else if c.action = "bleopen".toList then some [.provisionStatus 1]
  else if c.action = "blereset".toList then
    some [.bleMeshNodeReset ((mParseHex c.nodeID 6).setWidth 16)]
  else if c.action = "open".toList then
    (intoBuffer 100 "custom action-open\n".toList).map fun data => [.uart data]
  else if c.action = "close".toList then
    (intoBuffer 100 "custom action-close\n".toList).map fun data =>
      [.provisionStatus 0, .uart data]
  else if c.action = "restart".toList then some [.espRestart]
  else if c.action = "on-off".toList then
    (mqttOnOff linkButton c).map fun (out, event) =>
      out.effect :: (event.map Effect.queueIdButton).toList
  else if c.action = "lock".toList then lockEffects "lock" c
  else if c.action = "unlock".toList then lockEffects "unlock" c
  else if c.action = "linkButton".toList then
    (jsonParsing item).map fun map => [.writetofile item, .map map]
  else some []

/-- `mqtt_handle` for a message. -/
def mqttHandle (lib : CJsonLib) (linkButton : Bool) (item : Text) : Option (List Effect) :=
  (analyzeSubMqtt lib item Cmd.zero).bind (dispatch linkButton item)

/-! ### Faults -/

section

variable {lib : CJsonLib} {linkButton : Bool} {item : Text} {c : Cmd}

/-- A field that is copied from items that fit holds a string that fits. -/
theorem length_lastOf {name : String} {size : Nat} {items : List CJson}
    (h : ∀ it ∈ items, JsonUser.Fits (name, size) it) (hpos : 0 < size) :
    (lastOf (stringOf name) items []).length < size := by
  rw [lastOf]
  cases hlast : (items.filterMap (stringOf name)).getLast? with
  | none => exact hpos
  | some t =>
    obtain ⟨it, hit, hstring⟩ := List.mem_filterMap.mp (List.mem_of_getLast? hlast)
    rw [stringOf, Option.ite_none_right_eq_some] at hstring
    obtain ⟨t', ht', hlt⟩ := h it hit hstring.1
    obtain rfl : t' = t := Option.some.inj (ht'.symm.trans hstring.2)
    exact hlt

/-- What the analyser leaves fits the fields. -/
theorem fits_of_analyzeSubMqtt (h : analyzeSubMqtt lib item Cmd.zero = some c) : Fits c := by
  unfold analyzeSubMqtt at h
  split at h
  · obtain rfl := Option.some.inj h
    exact ⟨by decide, by decide, by decide⟩
  · rename_i root hparse
    have hdefined := (DefinedIf.foldlM subMqttItem_defined root.child Cmd.zero c).mp h
    simp only [foldl_mqttGiven] at hdefined
    obtain ⟨hfits, rfl⟩ := hdefined
    have hfield : ∀ field ∈ mqttFields, ∀ it ∈ root.child, JsonUser.Fits field it :=
      fun field hfield it hit => hfits it hit field hfield
    have hnode := length_lastOf (hfield ("nodeId", 10) (by simp [mqttFields])) (by decide)
    have hvalue := length_lastOf (hfield ("value", 20) (by simp [mqttFields])) (by decide)
    have hprotocol := length_lastOf (hfield ("protocol", 10) (by simp [mqttFields])) (by decide)
    exact ⟨hnode, hvalue, hprotocol⟩

theorem length_decimal (e : BitVec 8) : (Text.decimal e.toNat).length ≤ 3 :=
  (Nat.length_toDigits_le_iff (by decide) (by decide)).mpr (by omega)

theorem mqttOnOff_isSome (h : Fits c) : (mqttOnOff linkButton c).isSome := by
  obtain ⟨hnode, hvalue, hprotocol⟩ := h
  have hdecimal := length_decimal c.endpoint
  have hcommand : (onOffCommand c).isSome := by
    unfold onOffCommand
    split
    · rfl
    · rw [Option.isSome_map, intoBuffer, if_pos]
      · rfl
      · simp only [List.length_append, String.length_toList]
        have : ("custom action-onoff ".length, " ".length, "\n".length) = (20, 1, 1) := by decide
        simp only [Prod.mk.injEq] at this
        omega
  have hevent : (onOffEvent c).isSome := by
    rw [onOffEvent, intoBuffer, if_pos]
    · rfl
    · simp only [List.length_append]
      omega
  obtain ⟨out, hout⟩ := Option.isSome_iff_exists.mp hcommand
  obtain ⟨event, hevent⟩ := Option.isSome_iff_exists.mp hevent
  cases linkButton <;> simp [mqttOnOff, hout, hevent]

/-- The two lines of `lock` and `unlock`. -/
def lockLines (command : String) (c : Cmd) : List Text :=
  ["zcl lock ".toList ++ command.toList ++ " \"000000\"\n".toList,
    "send ".toList ++ c.nodeID ++ " 0x01 0x01\n".toList]

theorem lockEffects_eq (h : Fits c) {command : String} (hcommand : command.length ≤ 6) :
    lockEffects command c = some ((lockLines command c).map .uart) := by
  have hnode := h.nodeID
  have hzcl : ("zcl lock ".toList ++ command.toList ++ " \"000000\"\n".toList).length < 50 := by
    have hhead : "zcl lock ".length = 9 := by decide
    have hend : " \"000000\"\n".length = 10 := by decide
    simp only [List.length_append, String.length_toList]
    omega
  have hsend : ("send ".toList ++ c.nodeID ++ " 0x01 0x01\n".toList).length < 50 := by
    have hhead : "send ".length = 5 := by decide
    have hend : " 0x01 0x01\n".length = 11 := by decide
    simp only [List.length_append, String.length_toList]
    omega
  simp only [lockEffects, intoBuffer, hzcl, hsend, if_true, Bind.bind, Option.bind_some, pure]
  rfl

theorem isSome_ite {α : Type*} {p : Prop} [Decidable p] {x y : Option α} (hx : p → x.isSome)
    (hy : ¬p → y.isSome) : (if p then x else y).isSome := by
  by_cases h : p
  · rw [if_pos h]
    exact hx h
  · rw [if_neg h]
    exact hy h

theorem dispatch_isSome_iff (h : Fits c) :
    (dispatch linkButton item c).isSome ↔
      (c.action = "linkButton".toList → (jsonParsing item).isSome) := by
  by_cases hlink : c.action = "linkButton".toList
  · have hdispatch : dispatch linkButton item c =
        (jsonParsing item).map fun map => [.writetofile item, .map map] := by
      rw [dispatch, hlink]
      repeat rw [if_neg (by decide)]
      rfl
    rw [hdispatch, Option.isSome_map]
    exact ⟨fun hsome _ => hsome, fun hsome => hsome hlink⟩
  · refine iff_of_true ?_ fun hyes => absurd hyes hlink
    have hlock : (lockEffects "lock" c).isSome := by
      rw [lockEffects_eq h (by decide)]
      rfl
    have hunlock : (lockEffects "unlock" c).isSome := by
      rw [lockEffects_eq h (by decide)]
      rfl
    have honoff := @mqttOnOff_isSome linkButton c h
    unfold dispatch
    iterate 7 refine isSome_ite (fun _ => rfl) fun _ => ?_
    refine isSome_ite (fun _ => ?_) fun _ => ?_
    · rwa [Option.isSome_map]
    · refine isSome_ite (fun _ => hlock) fun _ => isSome_ite (fun _ => hunlock) fun _ => ?_
      exact isSome_ite (fun hyes => absurd hyes hlink) fun _ => rfl

/-- Once a message is analysed `mqtt_handle` faults only where `json_parsing` does: no string that it
puts together is longer than its array. -/
theorem mqttHandle_isSome_iff (lib : CJsonLib) (linkButton : Bool) (item : Text) :
    (mqttHandle lib linkButton item).isSome ↔
      ∃ c, analyzeSubMqtt lib item Cmd.zero = some c ∧
        (c.action = "linkButton".toList → (jsonParsing item).isSome) := by
  rw [mqttHandle]
  cases hanalyze : analyzeSubMqtt lib item Cmd.zero with
  | none => simp
  | some c =>
    rw [Option.bind_some, dispatch_isSome_iff (fits_of_analyzeSubMqtt hanalyze)]
    simp

/-! ### The lines of a message -/

/-- The lines that effects write. -/
def linesOf (effects : List Effect) : List Text := effects.filterMap Effect.line?

/-- The line of an on-off command to a Zigbee node. -/
def onOffLine (c : Cmd) : Text :=
  "custom action-onoff ".toList ++ c.value ++ " ".toList ++ c.nodeID ++ " ".toList ++
    Text.decimal c.endpoint.toNat ++ "\n".toList

/-- What a message can write: nothing, one line, or the two lines of a lock. -/
theorem dispatch_cases (h : Fits c) {effects : List Effect}
    (hd : dispatch linkButton item c = some effects) :
    linesOf effects = [] ∨ linesOf effects = ["custom action-open\n".toList] ∨
      linesOf effects = ["custom action-close\n".toList] ∨
      ((c.action = "on-off".toList ∧ c.protocol ≠ "ble".toList) ∧
        linesOf effects = [onOffLine c]) ∨
      ∃ command, (command = "lock" ∨ command = "unlock") ∧ c.action = command.toList ∧
        linesOf effects = lockLines command c := by
  have hlock : ∀ command : String, command.length ≤ 6 → lockEffects command c = some effects →
      linesOf effects = lockLines command c := by
    intro command hlen hlock
    rw [lockEffects_eq h hlen] at hlock
    exact Option.some.inj hlock ▸ rfl
  unfold dispatch at hd
  iterate 4 (
    rcases ite_eq_iff.mp hd with ⟨-, heq⟩ | ⟨-, hd⟩
    · exact .inl (Option.some.inj heq ▸ rfl))
  rcases ite_eq_iff.mp hd with ⟨-, heq⟩ | ⟨-, hd⟩
  · exact .inr (.inl (Option.some.inj heq ▸ rfl))
  rcases ite_eq_iff.mp hd with ⟨-, heq⟩ | ⟨-, hd⟩
  · exact .inr (.inr (.inl (Option.some.inj heq ▸ rfl)))
  rcases ite_eq_iff.mp hd with ⟨-, heq⟩ | ⟨-, hd⟩
  · exact .inl (Option.some.inj heq ▸ rfl)
  rcases ite_eq_iff.mp hd with ⟨haction, heq⟩ | ⟨-, hd⟩
  · obtain ⟨⟨out, event⟩, hout, rfl⟩ := Option.map_eq_some_iff.mp heq
    obtain ⟨out', hcommand, hevent⟩ := Option.bind_eq_some_iff.mp hout
    obtain ⟨event', -, hpair⟩ := Option.map_eq_some_iff.mp hevent
    obtain ⟨rfl, rfl⟩ := Prod.mk.inj hpair
    have hqueue : linesOf (event'.map Effect.queueIdButton).toList = [] := by cases event' <;> rfl
    unfold onOffCommand at hcommand
    rcases ite_eq_iff.mp hcommand with ⟨-, heq⟩ | ⟨hprotocol, heq⟩
    · obtain rfl := Option.some.inj heq
      exact .inl hqueue
    · obtain ⟨line, hline, rfl⟩ := Option.map_eq_some_iff.mp heq
      rw [intoBuffer, Option.ite_none_right_eq_some] at hline
      obtain rfl := Option.some.inj hline.2
      have honOff : linesOf (.uart (onOffLine c) :: (event'.map Effect.queueIdButton).toList) =
          [onOffLine c] := congrArg (onOffLine c :: ·) hqueue
      exact .inr (.inr (.inr (.inl ⟨⟨haction, hprotocol⟩, honOff⟩)))
  rcases ite_eq_iff.mp hd with ⟨haction, heq⟩ | ⟨-, hd⟩
  · exact .inr (.inr (.inr (.inr ⟨"lock", .inl rfl, haction, hlock "lock" (by decide) heq⟩)))
  rcases ite_eq_iff.mp hd with ⟨haction, heq⟩ | ⟨-, hd⟩
  · exact .inr (.inr (.inr (.inr
      ⟨"unlock", .inr rfl, haction, hlock "unlock" (by decide) heq⟩)))
  rcases ite_eq_iff.mp hd with ⟨-, heq⟩ | ⟨-, heq⟩
  · obtain ⟨map, -, rfl⟩ := Option.map_eq_some_iff.mp heq
    exact .inl rfl
  · exact .inl (Option.some.inj heq ▸ rfl)

/-- A lock writes its two lines, whatever the rest of the command is. -/
theorem dispatch_lock (h : Fits c) {command : String}
    (hcommand : command = "lock" ∨ command = "unlock") (haction : c.action = command.toList)
    {effects : List Effect} (hd : dispatch linkButton item c = some effects) :
    linesOf effects = lockLines command c := by
  have heffects : dispatch linkButton item c = lockEffects command c := by
    obtain rfl | rfl := hcommand
    all_goals
      rw [dispatch, haction]
      repeat rw [if_neg (by decide)]
      rfl
  have hlen : command.length ≤ 6 := by
    obtain rfl | rfl := hcommand <;> decide
  rw [heffects, lockEffects_eq h hlen] at hd
  exact Option.some.inj hd ▸ rfl

end

end VhomeBridge.Mqtt
