import VhomeBridge.Ble.ConfigClient
import VhomeBridge.Text

/-! The generic client: on-off commands and the callback for their answers, for the states that
nodes publish, and for the answers to the queries of the state after a join. -/

namespace VhomeBridge.Ble

inductive GenericEvent
  | getState
  | setState
  | publish
  | timeout
  deriving DecidableEq

inductive GenericOpcode
  | onoffGet
  | onoffSet
  | other
  deriving DecidableEq

structure GenericParam where
  errorCode : Nat
  opcode : GenericOpcode
  addr : Word
  presentOnoff : Octet
  recvOp : Nat

/-- What the callback sends, publishes and puts on the queues. -/
inductive GenericOut
  | out (out : Out)
  | queueGetStateOnoffBLE (onoffStatus : Octet)
  | queueIdButton (item : LinkButton)

/-- `ble_mesh_command_set` for `ONOFF`, the only command any caller passes: the new value of
`stateButtonBLE` and the message. -/
def bleMeshCommandSet (unicastAddr elementAddr : Word) (value : Octet) (resp : Bool) :
    Octet × Out :=
  (value, .onoffSet (unicastAddr + (elementAddr.setWidth 8).setWidth 16) value resp)

/-- The element of `node` that an address belongs to, counted from 0 in a `uint8_t`. -/
def elementOffset (node : Node) (addr : Word) : Octet := (addr - node.unicastAddr).setWidth 8

def reportAction (node : Node) (param : GenericParam) : Out :=
  .action ⟨node.unicastAddr, elementOffset node param.addr + 1, param.recvOp, param.presentOnoff⟩

/-- The link event for a state that the element at `addr` publishes. -/
def linkEvent (node : Node) (param : GenericParam) : LinkButton where
  stateButton := if param.presentOnoff = 0 then "off".toList else "on".toList
  idButton := "0x".toList ++ Text.hex04 node.unicastAddr ++ "ble".toList ++
    Text.decimal (elementOffset node param.addr + 1).toNat

/-- `ble_mesh_generic_client_cb` with the node that the provisioner finds for the address. -/
def bleMeshGenericClientCb (linkButton : Bool) (stateButtonBLE : Octet) (event : GenericEvent)
    (param : GenericParam) (node : Option Node) : Octet × List GenericOut :=
  if param.errorCode ≠ 0 then (stateButtonBLE, [])
  else match node with
    | none => (stateButtonBLE, [])
    | some node =>
      match event, param.opcode with
      | .getState, .onoffGet =>
        (stateButtonBLE, if linkButton then [.queueGetStateOnoffBLE param.presentOnoff] else [])
      | .setState, .onoffSet => (stateButtonBLE, [.out (reportAction node param)])
      | .publish, _ =>
        (stateButtonBLE, (if linkButton then [.queueIdButton (linkEvent node param)] else []) ++
          [.out (reportAction node param)])
      | .timeout, .onoffSet =>
        let r := bleMeshCommandSet node.unicastAddr
          ((elementOffset node param.addr).setWidth 16) stateButtonBLE true
        (r.1, [.out r.2])
      | _, _ => (stateButtonBLE, [])

/-- An address of the node, as the provisioner's lookup by address promises. -/
def Node.Owns (node : Node) (addr : Word) : Prop :=
  node.unicastAddr.toNat ≤ addr.toNat ∧ addr.toNat < node.unicastAddr.toNat + 256

instance (node : Node) (addr : Word) : Decidable (node.Owns addr) :=
  inferInstanceAs (Decidable (_ ∧ _))

theorem elementOffset_addr {node : Node} {addr : Word} (h : node.Owns addr) :
    node.unicastAddr + (elementOffset node addr).setWidth 16 = addr := by
  obtain ⟨hle, hlt⟩ := h
  apply BitVec.eq_of_toNat_eq
  simp only [elementOffset, BitVec.toNat_add, BitVec.toNat_setWidth, BitVec.toNat_sub]
  omega

end VhomeBridge.Ble
