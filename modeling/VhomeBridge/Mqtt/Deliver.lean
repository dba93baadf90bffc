import VhomeBridge.Ble.OnOff
import VhomeBridge.JsonFields
import VhomeBridge.Mqtt.OnOff

/-! Where on-off commands go.  The endpoint of a command is a byte that `mqtt_handle` counts down by
one, or the last character of an id that `sendCommandBLE` counts down from `'1'`; the result passes
through 16 bits and 8 bits before it is added to the address.  The message reaches the element of
the endpoint exactly if the endpoint is one of the node's, and, in an id, a single digit. -/

namespace VhomeBridge.Mqtt

open Ble Link Lib

/-- An address of one of the `n` elements of the node. -/
def InNode (node : Node) (n : Octet) (addr : Word) : Prop :=
  node.unicastAddr.toNat ≤ addr.toNat ∧ addr.toNat < node.unicastAddr.toNat + n.toNat

/-- The text is `"0x"` and the address of the node in four hexadecimal digits. -/
def NamesNode (t : Text) (node : Node) : Prop :=
  ∃ digits : Text, t = "0x".toList ++ digits ∧ digits.length = 4 ∧ digits.all isHex = true ∧
    hexNumber digits = node.unicastAddr.toNat

section

-- `esp_ble_mesh_provisioner_get_node_with_addr`
variable (lookup : Word → Option Node) (node : Node) (n : Octet)

/-- The status of an on-off command from `addr` is published with the address of the node and with
the endpoint. -/
def Published (endpoint : Int) (addr : Word) : Prop :=
  ∀ (linkButton : Bool) (stateButtonBLE : Octet) (param : GenericParam), param.errorCode = 0 →
    param.opcode = .onoffSet → param.addr = addr →
      ∃ record : Ble.Action, (bleMeshGenericClientCb linkButton stateButtonBLE .setState param
          (lookup param.addr)).2 = [.out (.action record)] ∧
        record.nodeId = node.unicastAddr ∧ (record.endpoint.toNat : Int) = endpoint

/-- A message to `addr` reaches the element of the endpoint and no other node, and its status is
published for that endpoint. -/
structure Delivers (endpoint : Option Int) (addr : Word) : Prop where
  inside : InNode node n addr
  alone : ∀ other, lookup addr = some other → other = node
  element : ∃ e, endpoint = some e ∧ (addr.toNat : Int) = node.unicastAddr.toNat + e - 1 ∧
    Published lookup node e addr

end

/-! ### The address of a message -/

section

variable {lookup : Word → Option Node} {node : Node} {n : Octet} {endpoint : Option Int}

theorem NamesNode.length {t : Text} (h : NamesNode t node) : t.length = 6 := by
  obtain ⟨digits, rfl, hlength, -⟩ := h
  simp [hlength]

end

end VhomeBridge.Mqtt
