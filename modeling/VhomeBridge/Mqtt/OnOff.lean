import VhomeBridge.Link.Overlap
import VhomeBridge.Zigbee.OwnEvent

/-! On-off commands from MQTT, and the keys of buttons.  A button is looked up under its node id,
protocol and endpoint, written one after the other.  The key is written in four places: for an
on-off command, for a report of a Zigbee node, for a state that a BLE node publishes, and for the
entry of a configuration. -/

namespace VhomeBridge.Mqtt

open Ble Link Zigbee JsonUser

/-- What `mqtt_handle` does for the action `on-off`. -/
inductive OnOffOut
  | bleMeshCommandSet (call : BleCall)
  | uart (line : Text)
  deriving DecidableEq

/-- The command: to a BLE node if the protocol is `ble`, else a line in `data[100]`. -/
def onOffCommand (c : Cmd) : Option OnOffOut :=
  if c.protocol = "ble".toList then
    some (.bleMeshCommandSet ⟨(mParseHex c.nodeID 6).setWidth 16,
      BitVec.ofInt 16 (c.endpoint.toNat - 1), if c.value = "off".toList then 0 else 1, true⟩)
  else
    (intoBuffer 100 ("custom action-onoff ".toList ++ c.value ++ " ".toList ++ c.nodeID ++
      " ".toList ++ Text.decimal c.endpoint.toNat ++ "\n".toList)).map .uart

/-- The link event, in `idButton[40]`. -/
def onOffEvent (c : Cmd) : Option LinkButton := do
  let idButton ← intoBuffer 40 (c.nodeID ++ c.protocol ++ Text.decimal c.endpoint.toNat)
  return ⟨if c.value = "off".toList then "off".toList else "on".toList, idButton⟩

/-- The branch of `mqtt_handle` for the action `on-off`. -/
def mqttOnOff (linkButton : Bool) (c : Cmd) : Option (OnOffOut × Option LinkButton) :=
  (onOffCommand c).bind fun out =>
    (if linkButton then (onOffEvent c).map some else some none).map fun event => (out, event)

/-- The strings fit their fields, as the analyser leaves them. -/
structure Fits (c : Cmd) : Prop where
  nodeID : c.nodeID.length < 10
  value : c.value.length < 20
  protocol : c.protocol.length < 10

/-! ### The texts of addresses and endpoints -/

section Texts

theorem hexDigit_spec {n : Nat} (h : n < 16) :
    isHex (Text.hexDigit n) = true ∧ hexValue (Text.hexDigit n) = some n := by
  have : ∀ n < 16, isHex (Text.hexDigit n) = true ∧ hexValue (Text.hexDigit n) = some n := by
    decide
  exact this n h

theorem hex04_isHex (w : Word) : (Text.hex04 w).all isHex = true := by
  have := w.isLt
  simp only [Text.hex04, List.all_cons, List.all_nil, Bool.and_true, Bool.and_eq_true]
  exact ⟨(hexDigit_spec (by omega)).1, (hexDigit_spec (by omega)).1,
    (hexDigit_spec (by omega)).1, (hexDigit_spec (by omega)).1⟩

theorem hexNumber_hex04 (w : Word) : hexNumber (Text.hex04 w) = w.toNat := by
  have := w.isLt
  simp only [hexNumber, Text.hex04, List.foldl_cons, List.foldl_nil,
    (hexDigit_spec (n := w.toNat / 4096) (by omega)).2,
    (hexDigit_spec (n := w.toNat / 256 % 16) (by omega)).2,
    (hexDigit_spec (n := w.toNat / 16 % 16) (by omega)).2,
    (hexDigit_spec (n := w.toNat % 16) (by omega)).2, Option.getD_some]
  omega

theorem hex04_inj {w w' : Word} (h : Text.hex04 w = Text.hex04 w') : w = w' := by
  apply BitVec.eq_of_toNat_eq
  rw [← hexNumber_hex04, h, hexNumber_hex04]

theorem decimal_inj {n m : Nat} (h : Text.decimal n = Text.decimal m) : n = m := by
  have := congrArg (fun digits => Nat.ofDigitChars 10 digits 0) h
  simpa [Text.decimal] using this

end Texts

/-! ### Physical buttons -/

/-- A button of a node: its address, its protocol and an endpoint from 1 to 255. -/
structure Physical where
  address : Word
  protocol : Protocol
  endpoint : Nat
  range : 1 ≤ endpoint ∧ endpoint ≤ 255

namespace Physical

/-- The address as `"0x%04X"`. -/
def nodeId (b : Physical) : Text := "0x".toList ++ Text.hex04 b.address

/-- The entry of a configuration for the button. -/
def button (b : Physical) : Button := ⟨b.nodeId, b.protocol.text, Text.decimal b.endpoint⟩

def key (b : Physical) : Text := b.button.key

/-- The protocol text of a command that `mqtt_handle` routes to the protocol of the button. -/
def Routes (b : Physical) (protocol : Text) : Prop :=
  protocol = "ble".toList ↔ b.protocol = .ble

/-- The event of each on-off command to the button, with this protocol text, has the key `k`. -/
def MqttKey (b : Physical) (protocol k : Text) : Prop :=
  ∀ c : Cmd, Fits c → c.nodeID = b.nodeId → c.protocol = protocol →
    c.endpoint.toNat = b.endpoint →
      ∃ out event, mqttOnOff true c = some (out, some event) ∧ event.idButton = k

/-- The event of each report of the button has the key `k`: of a line with its node id and its
endpoint, with a state or without, after any lines, or of a state that its element publishes. -/
def ReportKey (lib : CJsonLib) (b : Physical) (k : Text) : Prop :=
  match b.protocol with
  | .zigbee => ∀ (line : Text) (root : CJson) (normal : Bool) (s : Locals) (lines : List Text)
      (es : List LinkButton), lib.parse line = some root →
        isReport (Locals.given lib root root.child).action = true →
          (Locals.given lib root root.child).nodeID = some b.nodeId →
            (Locals.given lib root root.child).endpoint = some (Char.ofNat b.endpoint) →
              s.lastEvents lib normal true lines line = some es → es.map (·.idButton) = [k]
  | .ble => ∀ (node : Node) (param : GenericParam) (stateButtonBLE : Octet),
      node.unicastAddr = b.address → param.errorCode = 0 →
        param.addr = b.address + BitVec.ofNat 16 (b.endpoint - 1) →
          ∃ event, .queueIdButton event ∈
            (bleMeshGenericClientCb true stateButtonBLE .publish param (some node)).2 ∧
              event.idButton = k

/-- `json_parsing` stores the entry of the button under the key `k`, in every configuration that has
one: there stands the list of the last entry that reads like it, and each other key is that of
another entry. -/
def ConfigKey (b : Physical) (k : Text) : Prop :=
  ∀ (doc : Document) (groups : List (List Button)) (m : MapStr), doc.root.Configures groups →
    jsonParsing doc.text = some m → b.button ∈ groups.flatten →
      (∃ group j, lastGroup groups b.button.key = some group ∧
        (group.map Button.key)[j]? = some b.button.key ∧
          mapGet m k = some (Button.ids (group.eraseIdx j))) ∧
        ∀ id, (mapGet m id).isSome → id ≠ k → ∃ c ∈ groups.flatten, c ≠ b.button ∧ c.key = id

/-- All four places write the key `k` for the button. -/
structure OneKey (lib : CJsonLib) (b : Physical) (protocol k : Text) : Prop where
  mqtt : b.MqttKey protocol k
  report : b.ReportKey lib k
  config : b.ConfigKey k

variable {lib : CJsonLib} (b : Physical) {protocol k : Text}

theorem length_nodeId : b.nodeId.length = 6 := by
  simp [nodeId, Text.hex04]

/-- A button is read back from its key. -/
theorem key_inj {b b' : Physical} (h : b.key = b'.key) : b = b' := by
  obtain ⟨address, protocol, endpoint, range⟩ := b
  obtain ⟨address', protocol', endpoint', range'⟩ := b'
  simp only [key, Button.key, button, List.append_assoc] at h
  obtain ⟨hnode, hrest⟩ := List.append_inj h (by simp [nodeId, Text.hex04])
  obtain rfl : address = address' := hex04_inj (List.append_cancel_left hnode)
  obtain rfl : protocol = protocol' := by
    -- the protocols differ in their first letter
    have hhead := congrArg List.head? hrest
    cases protocol with
    | ble =>
      cases protocol' with
      | ble => rfl
      | zigbee => exact absurd (show some 'b' = some 'z' from hhead) (by decide)
    | zigbee =>
      cases protocol' with
      | ble => exact absurd (show some 'z' = some 'b' from hhead) (by decide)
      | zigbee => rfl
  obtain rfl : endpoint = endpoint' := decimal_inj (List.append_cancel_left hrest)
  rfl

theorem mqttKey (c : Cmd) (hfits : Fits c) (hnode : c.nodeID = b.nodeId)
    (hendpoint : c.endpoint.toNat = b.endpoint) :
    ∃ out event, mqttOnOff true c = some (out, some event) ∧
      event.idButton = b.nodeId ++ c.protocol ++ Text.decimal b.endpoint := by
  have hdecimal : (Text.decimal c.endpoint.toNat).length ≤ 3 :=
    (Nat.length_toDigits_le_iff (by decide) (by decide)).mpr (by omega)
  obtain ⟨hfit, hvalue, hprotocol⟩ := hfits
  have hevent : onOffEvent c = some
      ⟨if c.value = "off".toList then "off".toList else "on".toList,
        c.nodeID ++ c.protocol ++ Text.decimal c.endpoint.toNat⟩ := by
    have hlength : (c.nodeID ++ c.protocol ++ Text.decimal c.endpoint.toNat).length < 40 := by
      simp only [List.length_append]
      omega
    simp only [onOffEvent, intoBuffer, hlength, if_true, Bind.bind, Option.bind_some, pure]
  obtain ⟨out, hout⟩ : ∃ out, onOffCommand c = some out := by
    have hline : ("custom action-onoff ".toList ++ c.value ++ " ".toList ++ c.nodeID ++
        " ".toList ++ Text.decimal c.endpoint.toNat ++ "\n".toList).length < 100 := by
      have hprefix : "custom action-onoff ".toList.length = 20 := by simp
      have hspace : " ".toList.length = 1 := by simp
      have hend : "\n".toList.length = 1 := by simp
      simp only [List.length_append, hprefix, hspace, hend]
      omega
    unfold onOffCommand
    split
    · exact ⟨_, rfl⟩
    · exact ⟨_, by rw [intoBuffer, if_pos hline]; rfl⟩
  refine ⟨out, _, by rw [mqttOnOff, hout, hevent]; rfl, ?_⟩
  rw [hnode, hendpoint]

theorem reportKey : b.ReportKey lib b.key := by
  unfold ReportKey
  cases hp : b.protocol with
  | zigbee =>
    intro line root normal s lines es hparse hreport hnode hendpoint hes
    obtain ⟨s', t, r, hleft, hevent, rfl⟩ := Locals.lastEvents_report hparse hreport hes
    obtain ⟨v, x, hv, hx⟩ := Locals.uartLinkEvent_some hevent
    have hrange := b.range
    have hshort : b.nodeId.length < 28 := by
      rw [b.length_nodeId]
      decide
    obtain rfl : b.nodeId = x := by
      rw [hleft.string_short hnode (Locals.given_nodeID hnode) hshort] at hx
      exact Option.some.inj hx
    have hcell : t.endpoint = b.endpoint := by
      rw [Locals.endpoint, hleft.endpoint, hendpoint, Option.getD_some,
        Text.toNat_ofNat (by omega)]
      omega
    have hfields := Locals.uartLinkEvent_eq hv hx
    rw [hevent, Option.map_some] at hfields
    split at hfields
    · rw [List.map_cons, List.map_nil, Option.some.inj hfields, Locals.eventOf, hcell, key,
        Button.key, button, hp, Protocol.text_zigbee]
    · cases hfields
  | ble =>
    intro node param stateButtonBLE haddress herror haddr
    refine ⟨linkEvent node param, ?_, ?_⟩
    · simp [bleMeshGenericClientCb, herror]
    · have hrange := b.range
      have hoffset : (elementOffset node param.addr + 1).toNat = b.endpoint := by
        have h1 : (1 : Octet).toNat = 1 := rfl
        have hsub (x y : Word) : x + y - x = y := by rw [BitVec.add_comm, BitVec.add_sub_cancel]
        rw [elementOffset, haddr, haddress, hsub]
        simp only [BitVec.toNat_add, BitVec.toNat_setWidth, BitVec.toNat_ofNat, h1]
        omega
      rw [linkEvent, hoffset, haddress, key, Button.key, button, hp, Protocol.text_ble, nodeId]

theorem fits : b.button.Fits := by
  have hrange := b.range
  refine ⟨by simp [button, length_nodeId], ?_, ?_⟩
  · have hprotocol : b.protocol.text.length < 10 := by
      rcases b.protocol.text_cases with hp | hp
      · rw [hp]
        decide
      · rw [hp]
        decide
    exact hprotocol
  · have : (Text.decimal b.endpoint).length ≤ 3 :=
      (Nat.length_toDigits_le_iff (by decide) (by decide)).mpr (by omega)
    exact Nat.lt_of_le_of_lt this (by decide)

theorem configKey : b.ConfigKey b.key := by
  intro doc groups m hdoc hm hmem
  obtain ⟨lists, hlists, -, hget⟩ := doc.parsed hm
  rw [hdoc.walk, Option.some.injEq] at hlists
  obtain ⟨group, j, hlast, hj, hlookup⟩ := lists_last (List.mem_map_of_mem hmem)
  refine ⟨⟨group, j, hlast, hj, by rw [hget, ← hlists]; exact hlookup⟩, fun id hid hne => ?_⟩
  rw [hget, ← hlists, List.lookup_isSome_iff] at hid
  obtain ⟨list, hlist, hkey⟩ := hid
  have hkeys : id ∈ groups.flatten.map Button.key := by
    rw [← map_lists, beq_iff_eq.mp hkey]
    exact List.mem_map_of_mem (List.mem_reverse.mp hlist)
  obtain ⟨c, hc, rfl⟩ := List.mem_map.mp hkeys
  exact ⟨c, hc, fun heq => hne (heq ▸ rfl), rfl⟩

/-! ### One key -/

theorem isBody_plain {t : Text} (h : ∀ c ∈ t, c ≠ '"' ∧ c ≠ '\\') : isBody t false 0 = true := by
  induction t with
  | nil => rfl
  | cons c t ih =>
    obtain ⟨hquote, hslash⟩ := h c (by simp)
    have hescape : (c == '\\') = false := beq_eq_false_iff_ne.mpr hslash
    have hopen : (c != '"') = true := bne_iff_ne.mpr hquote
    rw [isBody, hopen, hescape, Bool.true_and]
    exact ih fun d hd => h d (by simp [hd])

theorem isBody_hex {t : Text} (h : t.all isHex = true) : isBody t false 0 = true := by
  apply isBody_plain
  intro c hc
  have := List.all_eq_true.mp h c hc
  constructor <;> rintro rfl <;> exact absurd this (by decide)

/-- The configuration of the button alone. -/
theorem alone : ∃ (doc : Document) (m : MapStr), doc.root.Configures [[b.button]] ∧
    jsonParsing doc.text = some m := by
  have hnode : isBody b.nodeId false 0 = true := by
    have hx : isBody b.nodeId false 0 = isBody (Text.hex04 b.address) false 0 := rfl
    rw [hx]
    exact isBody_hex (hex04_isHex b.address)
  have hprotocol : isBody b.protocol.text false 0 = true := by
    cases b.protocol <;> rfl
  have hendpoint : isBody (Text.decimal b.endpoint) false 0 = true := by
    exact isBody_hex (ButtonId.decimal_isHex b.endpoint)
  have hfits := b.fits
  have hstring {t : Text} {size : Nat} (h : t.length < size) :
      (if t.length < size then some t else none) = some t := if_pos h
  have hconfigures : (config [[Link.button ⟨b.nodeId, hnode⟩ ⟨b.protocol.text, hprotocol⟩
      ⟨Text.decimal b.endpoint, hendpoint⟩]]).root.Configures [[b.button]] := by
    refine ⟨_, rfl, .cons ⟨_, rfl, .cons ⟨_, rfl, ?_, ?_, ?_⟩ .nil⟩ .nil⟩
    · exact hstring hfits.1
    · exact hstring hfits.2.1
    · exact hstring hfits.2.2
  obtain ⟨m, hm, -⟩ := (config _).jsonParsing_iff.mpr
    ⟨_, hconfigures.walk, by simp [groupLists, Fit, Button.ids], rfl⟩
  exact ⟨_, m, hconfigures, hm⟩

theorem ConfigKey.eq {b : Physical} {k : Text} (h : b.ConfigKey k) : k = b.key := by
  obtain ⟨doc, m, hdoc, hm⟩ := b.alone
  have hmem : b.button ∈ [[b.button]].flatten := by simp
  obtain ⟨⟨group, j, -, -, hlist⟩, -⟩ := h doc _ m hdoc hm hmem
  by_contra hne
  obtain ⟨c, hc, hother, -⟩ := (b.configKey doc _ m hdoc hm hmem).2 k (by rw [hlist]; rfl) hne
  exact hother (by simpa using hc)

/-- An on-off command to the button. -/
def command (protocol : Text) : Cmd :=
  { Cmd.zero with
    nodeID := b.nodeId, protocol := protocol, endpoint := BitVec.ofNat 8 b.endpoint }

theorem OneKey.eq {b : Physical} (h : OneKey lib b protocol k) (hfit : protocol.length < 10) :
    k = b.key ∧ protocol = b.protocol.text := by
  have hfits : Fits (b.command protocol) := by
    refine ⟨?_, Nat.zero_lt_succ 19, hfit⟩
    change b.nodeId.length < 10
    rw [b.length_nodeId]
    decide
  have hendpoint : (BitVec.ofNat 8 b.endpoint).toNat = b.endpoint := by
    have := b.range
    rw [BitVec.toNat_ofNat]
    omega
  obtain ⟨out, event, hout, hevent⟩ := h.mqtt _ hfits rfl rfl hendpoint
  obtain ⟨out', event', hout', hevent'⟩ := b.mqttKey _ hfits rfl hendpoint
  have hk := h.config.eq
  rw [hout] at hout'
  obtain ⟨-, rfl⟩ : out = out' ∧ event = event' := by simpa using hout'
  refine ⟨hk, ?_⟩
  rw [hevent, hk, key, Button.key] at hevent'
  exact (List.append_cancel_left (List.append_cancel_right hevent')).symm

theorem oneKey : OneKey lib b b.protocol.text b.key where
  mqtt := by
    rintro c hfits hnode hprotocol hendpoint
    obtain ⟨out, event, hout, hevent⟩ := b.mqttKey c hfits hnode hendpoint
    exact ⟨out, event, hout, by rw [hevent, hprotocol]; rfl⟩
  report := b.reportKey
  config := b.configKey

/-- The four keys of a button are one, and the key of no other button, exactly if the command has
the protocol text of the button. -/
theorem oneKey_iff (lib : CJsonLib) (b : Physical) (protocol : Text) (hroute : b.Routes protocol)
    (hfit : protocol.length < 10) :
    (∃ k, OneKey lib b protocol k ∧ ∀ (b' : Physical) (protocol' : Text), b'.Routes protocol' →
      protocol'.length < 10 → OneKey lib b' protocol' k → b' = b) ↔
        protocol = b.protocol.text := by
  constructor
  · rintro ⟨k, h, -⟩
    exact (h.eq hfit).2
  · rintro rfl
    refine ⟨b.key, b.oneKey, fun b' protocol' _ hfit' h => ?_⟩
    exact (key_inj (h.eq hfit').1).symm

/-- The switch at endpoint 1 of a Zigbee node. -/
def switch : Physical := ⟨0x1A2B, .zigbee, 1, by decide⟩

theorem oneKey_iff_switch :
    (∃ k, OneKey reportLib switch "zigbee".toList k ∧
      ∀ (b' : Physical) (protocol' : Text), b'.Routes protocol' → protocol'.length < 10 →
        OneKey reportLib b' protocol' k → b' = switch) ↔ "zigbee".toList = switch.protocol.text :=
  oneKey_iff reportLib switch "zigbee".toList (by unfold Routes; decide) (by decide)

/-- A command to the switch without a protocol puts `0x1A2B1` on the queue. -/
theorem switch_no_protocol :
    ¬ ∀ (lib : CJsonLib) (b : Physical) (protocol : Text), b.Routes protocol →
      protocol.length < 10 → ∃ k, OneKey lib b protocol k := by
  intro h
  obtain ⟨k, hkey⟩ := h reportLib switch [] (by unfold Routes; decide) (by decide)
  obtain ⟨out, event, hout, hevent⟩ :=
    hkey.mqtt (switch.command []) ⟨by decide, by decide, by decide⟩
    rfl rfl rfl
  have hcommand : (mqttOnOff true (switch.command [])).map (·.2.map (·.idButton)) =
      some (some "0x1A2B1".toList) := by decide +kernel
  rw [hout] at hcommand
  have hk : event.idButton = "0x1A2B1".toList := by simpa using hcommand
  rw [hevent, hkey.config.eq] at hk
  exact absurd hk (by decide)

end Physical

end VhomeBridge.Mqtt
