import Mathlib.Tactic.Ring
import VhomeBridge.Link.Groups
import VhomeBridge.Link.Tasks

/-! The ids of buttons.  An id is the address of the node, the protocol and the endpoint, one after
the other without a separator.  The list of a button splits into the ids of the others, and the
tasks find address and endpoint in an id by their places: the endpoint is its last character. -/

namespace VhomeBridge.Link

open Ble

/-! ### The ids in a list -/

/-- An id that `strtok` does not break. -/
def IsWord (id : Text) : Prop := ' ' ∉ id ∧ id ≠ []

theorem strtok_space (token s rest : Text) :
    strtok token (s ++ ' ' :: rest) = strtok token s ++ strtok [] rest := by
  induction s generalizing token with
  | nil =>
    rw [List.nil_append, strtok, strtok, if_pos (beq_self_eq_true ' ')]
    split <;> rfl
  | cons c s ih =>
    rw [List.cons_append, strtok, strtok]
    split
    · split <;> simp [ih]
    · exact ih _

theorem strtok_word {token s : Text} (h : ' ' ∉ s) (hne : token ++ s ≠ []) :
    strtok token s = [token ++ s] := by
  induction s generalizing token with
  | nil =>
    have htoken : token.isEmpty = false := by simpa using hne
    simp [strtok, htoken]
  | cons c s ih =>
    simp only [List.mem_cons, not_or] at h
    have hc : (c == ' ') = false := by simpa using Ne.symm h.1
    rw [strtok, hc, if_neg (by simp), ih h.2 (by simp)]
    simp

theorem IsWord.strtok {id : Text} (h : IsWord id) : strtok [] id = [id] := strtok_word h.1 h.2

theorem isWord_of_mem_strtok {token s t : Text} (htoken : ' ' ∉ token) (h : t ∈ strtok token s) :
    IsWord t := by
  have hword : ∀ {u : Text}, ' ' ∉ u → u.isEmpty = false → IsWord u := fun hu hne =>
    ⟨hu, by simpa using hne⟩
  induction s generalizing token with
  | nil =>
    rw [Link.strtok] at h
    split at h
    · contradiction
    · rename_i hne
      obtain rfl := List.mem_singleton.mp h
      exact hword htoken (by simpa using hne)
  | cons c s ih =>
    rw [Link.strtok] at h
    split at h
    · split at h
      · exact ih (by simp) h
      · rename_i hne
        rcases List.mem_cons.mp h with rfl | h
        · exact hword htoken (by simpa using hne)
        · exact ih (by simp) h
    · rename_i hc
      have hnext : ' ' ∉ token ++ [c] := by
        simp only [List.mem_append, List.mem_singleton, not_or]
        exact ⟨htoken, fun heq => hc (beq_iff_eq.mpr heq.symm)⟩
      exact ih hnext h

/-- A list splits id by id. -/
theorem strtok_ids (bs : List Button) :
    strtok [] (Button.ids bs) = bs.flatMap fun b => strtok [] b.key := by
  induction bs with
  | nil => rfl
  | cons b bs ih =>
    have hids : Button.ids (b :: bs) = b.key ++ ' ' :: Button.ids bs := by
      simp [Button.ids]
    rw [hids, strtok_space, ih, List.flatMap_cons]

theorem strtok_ids_words {bs : List Button} (h : ∀ b ∈ bs, IsWord b.key) :
    strtok [] (Button.ids bs) = bs.map Button.key := by
  rw [strtok_ids, List.map_eq_flatMap]
  exact List.flatMap_congr fun b hb => (h b hb).strtok

/-! ### Ids as the gateway names them -/

/-- A button whose id the tasks can take apart: `"0x"` and four hexadecimal digits, one of the two
protocols and digits for the endpoint. -/
structure Button.Spelt (b : Button) : Prop where
  nodeId : ∃ digits : Text, b.nodeId = "0x".toList ++ digits ∧ digits.length = 4 ∧
    digits.all isHex = true
  protocol : b.protocol = "ble".toList ∨ b.protocol = "zigbee".toList
  endpoint : b.endpoint ≠ [] ∧ b.endpoint.all isHex = true

/-- A button as the gateway names it: `"0x"` and four hexadecimal digits, one of the two protocols
and one digit for the endpoint. -/
structure Button.Named (b : Button) : Prop where
  nodeId : ∃ digits : Text, b.nodeId = "0x".toList ++ digits ∧ digits.length = 4 ∧
    digits.all isHex = true
  protocol : b.protocol = "ble".toList ∨ b.protocol = "zigbee".toList
  endpoint : ∃ c : Char, b.endpoint = [c] ∧ '1' ≤ c ∧ c ≤ '9'

def hexNumber (digits : Text) : Nat :=
  digits.foldl (fun n c => 16 * n + (hexValue c).getD 0) 0

def Button.address (b : Button) : Word := BitVec.ofNat 16 (hexNumber (b.nodeId.drop 2))

def Button.endpointNumber (b : Button) : Nat := (b.endpoint.headD '0').toNat - '0'.toNat

/-- The Zigbee command that puts a button into a state. -/
def Button.line (b : Button) (state : Text) : Text :=
  "custom action-onoff ".toList ++ state ++ " ".toList ++ b.nodeId ++ " ".toList ++ b.endpoint ++
    "\n".toList

theorem Button.length_line (b : Button) (state : Text) :
    (b.line state).length = 23 + state.length + b.nodeId.length + b.endpoint.length := by
  have hprefix : "custom action-onoff ".toList.length = 20 := by simp
  have hspace : " ".toList.length = 1 := by simp
  have hline : "\n".toList.length = 1 := by simp
  unfold Button.line
  -- the literals are atoms for the sum of the lengths
  generalize "custom action-onoff ".toList = a at *
  generalize " ".toList = c at *
  generalize "\n".toList = d at *
  simp only [List.length_append]
  omega

theorem Button.line_inj {b : Button} {state e : Text}
    (h : { b with endpoint := e }.line state = b.line state) : e = b.endpoint := by
  unfold Button.line at h
  exact List.append_cancel_left (List.append_cancel_right h)

/-- The BLE command that puts a button into a state; endpoint 1 is the first element. -/
def Button.call (b : Button) (state : Text) : BleCall :=
  ⟨b.address, BitVec.ofNat 16 (b.endpointNumber - 1),
    if state = "off".toList then 0 else 1, true⟩

theorem char_le_iff (c d : Char) : c ≤ d ↔ c.toNat ≤ d.toNat := Iff.rfl

theorem hexValue_of_isHex {c : Char} (h : isHex c = true) :
    ∃ v, hexValue c = some v ∧ v < 16 := by
  simp only [isHex, Bool.or_eq_true, Bool.and_eq_true, decide_eq_true_eq, char_le_iff] at h
  simp only [hexValue, char_le_iff]
  have h0 : '0'.toNat = 48 := rfl
  have h9 : '9'.toNat = 57 := rfl
  have hA : 'A'.toNat = 65 := rfl
  have hF : 'F'.toNat = 70 := rfl
  have ha : 'a'.toNat = 97 := rfl
  have hf : 'f'.toNat = 102 := rfl
  split
  · exact ⟨_, rfl, by omega⟩
  · split
    · exact ⟨_, rfl, by omega⟩
    · split
      · exact ⟨_, rfl, by omega⟩
      · omega

theorem foldl_hex {digits : Text} {n : Nat} (hhex : digits.all isHex = true)
    (hn : n * 16 ^ digits.length + 16 ^ digits.length ≤ 2 ^ 32) :
    digits.foldl (fun ret c =>
      match hexValue c with
      | none => ret
      | some v => (ret <<< 4) ||| BitVec.ofNat 32 v) (BitVec.ofNat 32 n) =
      BitVec.ofNat 32 (digits.foldl (fun n c => 16 * n + (hexValue c).getD 0) n) := by
  induction digits generalizing n with
  | nil => rfl
  | cons c digits ih =>
    simp only [List.all_cons, Bool.and_eq_true] at hhex
    obtain ⟨v, hv, hlt⟩ := hexValue_of_isHex hhex.1
    rw [List.length_cons, Nat.pow_succ] at hn
    have hpos : 0 < 16 ^ digits.length := Nat.pow_pos (by decide)
    have hbound : (16 * n + 16) * 16 ^ digits.length ≤ 2 ^ 32 := by
      calc (16 * n + 16) * 16 ^ digits.length
          = n * (16 ^ digits.length * 16) + 16 ^ digits.length * 16 := by ring
        _ ≤ 2 ^ 32 := hn
    have hsmall : 16 * n + 16 ≤ 2 ^ 32 :=
      le_trans (Nat.le_mul_of_pos_right _ hpos) hbound
    have hstep : (BitVec.ofNat 32 n <<< 4) ||| BitVec.ofNat 32 v =
        BitVec.ofNat 32 (16 * n + v) := by
      have hn32 : n % 2 ^ 32 = n := Nat.mod_eq_of_lt (by omega)
      have hv32 : v % 2 ^ 32 = v := Nat.mod_eq_of_lt (by omega)
      have hshift : n <<< 4 % 2 ^ 32 = n <<< 4 :=
        Nat.mod_eq_of_lt (by rw [Nat.shiftLeft_eq]; omega)
      have hsum : (16 * n + v) % 2 ^ 32 = 16 * n + v := Nat.mod_eq_of_lt (by omega)
      apply BitVec.eq_of_toNat_eq
      rw [BitVec.toNat_or, BitVec.toNat_shiftLeft, BitVec.toNat_ofNat, BitVec.toNat_ofNat,
        BitVec.toNat_ofNat, hn32, hv32, hshift, hsum, ← Nat.shiftLeft_add_eq_or_of_lt (by omega),
        Nat.shiftLeft_eq]
      ring
    rw [List.foldl_cons, List.foldl_cons, hv, Option.getD_some]
    simp only [hstep]
    apply ih hhex.2
    calc (16 * n + v) * 16 ^ digits.length + 16 ^ digits.length
        = (16 * n + v + 1) * 16 ^ digits.length := by ring
      _ ≤ (16 * n + 16) * 16 ^ digits.length := Nat.mul_le_mul_right _ (by omega)
      _ ≤ 2 ^ 32 := hbound

theorem Button.Named.spelt {b : Button} (h : b.Named) : b.Spelt where
  nodeId := h.nodeId
  protocol := h.protocol
  endpoint := by
    obtain ⟨e, hendpoint, hlow, hhigh⟩ := h.endpoint
    have h9 : e ≤ '9' := hhigh
    have h0 : '0' ≤ e := Char.le_trans (by decide) hlow
    simp [hendpoint, isHex, h0, h9]

namespace Button.Spelt

variable {b : Button} {c : Char}

theorem length_nodeId (h : b.Spelt) : b.nodeId.length = 6 := by
  obtain ⟨digits, hnode, hlength, -⟩ := h.nodeId
  simp [hnode, hlength]

/-- The characters of an id: digits, `x` and those of the protocol. -/
theorem mem_key (h : b.Spelt) (hc : c ∈ b.key) :
    isHex c = true ∨ c = 'x' ∨ c ∈ b.protocol := by
  obtain ⟨digits, hnode, -, hhex⟩ := h.nodeId
  simp only [Button.key, hnode, List.mem_append] at hc
  rcases hc with ((hc | hc) | hc) | hc
  · have : c = '0' ∨ c = 'x' := by simpa using hc
    rcases this with rfl | rfl
    · exact .inl rfl
    · exact .inr (.inl rfl)
  · exact .inl (List.all_eq_true.mp hhex c hc)
  · exact .inr (.inr hc)
  · exact .inl (List.all_eq_true.mp h.endpoint.2 c hc)

theorem isBle_key (h : b.Spelt) : isBle b.key = true ↔ b.protocol = "ble".toList := by
  rw [isBle, decide_eq_true_eq]
  constructor
  · rintro hinfix
    rcases h.protocol with hp | hp
    · exact hp
    · have hl : 'l' ∈ b.key := hinfix.subset (by decide)
      rcases h.mem_key hl with hc | hc | hc
      · exact absurd hc (by decide)
      · exact absurd hc (by decide)
      · rw [hp] at hc
        exact absurd hc (by decide)
  · intro hp
    exact ⟨b.nodeId, b.endpoint, by rw [Button.key, hp]⟩

theorem isWord_key (h : b.Spelt) : IsWord b.key := by
  refine ⟨fun hc => ?_, by simp [Button.key, h.endpoint.1]⟩
  rcases h.mem_key hc with hc | hc | hc
  · exact absurd hc (by decide)
  · exact absurd hc (by decide)
  · rcases h.protocol with hp | hp <;> rw [hp] at hc <;> exact absurd hc (by decide)

theorem mParseHex (h : b.Spelt) :
    mParseHex (b.key.take 7) 6 = BitVec.ofNat 32 (hexNumber (b.nodeId.drop 2)) := by
  obtain ⟨digits, hnode, hlength, hhex⟩ := h.nodeId
  have htake : (b.key.take 7).take 6 = '0' :: 'x' :: digits := by
    rw [List.take_take, Button.key, List.append_assoc, hnode]
    have : min 6 7 = ("0x".toList ++ digits).length := by simp [hlength]
    rw [this, List.take_left]
    rfl
  rw [VhomeBridge.mParseHex, htake, List.foldl_cons, List.foldl_cons, hnode]
  exact foldl_hex (n := 0) hhex (by rw [hlength]; decide)

theorem getLast?_key {front : Text} (hend : b.endpoint = front ++ [c]) :
    b.key.getLast? = some c := by
  rw [Button.key, hend, ← List.append_assoc, List.getLast?_concat]

/-- `sendCommandZigbee` takes the last character of an id for the endpoint. -/
theorem line_eq (h : b.Spelt) {front : Text} (hend : b.endpoint = front ++ [c]) {state : Text}
    (hstate : state.length ≤ 4) :
    sendCommandZigbee ⟨state, b.key⟩ = some ({ b with endpoint := [c] }.line state) := by
  have htake : b.key.take 6 = b.nodeId := by
    rw [Button.key, List.append_assoc, ← h.length_nodeId, List.take_left]
  have hfit : ({ b with endpoint := [c] }.line state).length < 100 := by
    rw [Button.length_line, h.length_nodeId, List.length_singleton]
    omega
  have hline : sendCommandZigbee ⟨state, b.key⟩ =
      intoBuffer 100 ({ b with endpoint := [c] }.line state) := by
    unfold sendCommandZigbee Button.line
    dsimp only
    rw [getLast?_key hend, htake]
    rfl
  rw [hline, intoBuffer, if_pos hfit]

/-- And so does `sendCommandBLE`. -/
theorem call_eq (h : b.Spelt) {front : Text} (hend : b.endpoint = front ++ [c]) (state : Text) :
    sendCommandBLE ⟨state, b.key⟩ =
      some ⟨b.address, BitVec.ofInt 16 ((c.toNat : Int) - '0'.toNat - 1),
        if state = "off".toList then 0 else 1, true⟩ := by
  have hlength : ¬b.key.length < 6 := by
    simp [Button.key, h.length_nodeId]
  have haddress : (BitVec.ofNat 32 (hexNumber (b.nodeId.drop 2))).setWidth 16 = b.address := by
    rw [Button.address, BitVec.setWidth_ofNat_of_le (by decide)]
  simp only [sendCommandBLE, getLast?_key hend, Bind.bind, Option.bind_some, hlength, if_false,
    h.mParseHex, haddress]
  rfl

end Button.Spelt

theorem Button.Named.line_eq {b : Button} (h : b.Named) {state : Text} (hstate : state.length ≤ 4) :
    sendCommandZigbee ⟨state, b.key⟩ = some (b.line state) := by
  obtain ⟨nodeId, protocol, endpoint⟩ := b
  obtain ⟨e, rfl, -⟩ := h.endpoint
  exact h.spelt.line_eq (List.nil_append [e]).symm hstate

theorem Button.Named.call_eq {b : Button} (h : b.Named) (state : Text) :
    sendCommandBLE ⟨state, b.key⟩ = some (b.call state) := by
  obtain ⟨e, hendpoint, hlow, -⟩ := h.endpoint
  have helement : BitVec.ofInt 16 ((e.toNat : Int) - '0'.toNat - 1) =
      BitVec.ofNat 16 (b.endpointNumber - 1) := by
    have hlow : 49 ≤ e.toNat := hlow
    have h0 : '0'.toNat = 48 := rfl
    rw [Button.endpointNumber, hendpoint, List.headD_cons, h0, ← BitVec.ofInt_natCast]
    congr 1
    omega
  have hend : b.endpoint = [] ++ [e] := hendpoint
  rw [h.spelt.call_eq hend, helement, Button.call]

/-! ### The button behind an id -/

inductive Protocol
  | ble
  | zigbee
  deriving DecidableEq

def Protocol.text : Protocol → Text
  | .ble => "ble".toList
  | .zigbee => "zigbee".toList

theorem Protocol.text_ble : Protocol.ble.text = "ble".toList := rfl

theorem Protocol.text_zigbee : Protocol.zigbee.text = "zigbee".toList := rfl

theorem Protocol.text_cases (p : Protocol) : p.text = "ble".toList ∨ p.text = "zigbee".toList := by
  cases p with
  | ble => exact .inl text_ble
  | zigbee => exact .inr text_zigbee

theorem Protocol.text_eq_ble {p : Protocol} : p.text = "ble".toList ↔ p = .ble := by
  cases p <;> decide

/-- Four hexadecimal digits of an address, a protocol and an endpoint from 1 to 255. -/
structure ButtonId where
  digits : Text
  protocol : Protocol
  endpoint : Nat
  hex : digits.length = 4 ∧ digits.all isHex = true
  range : 1 ≤ endpoint ∧ endpoint ≤ 255

namespace ButtonId

/-- The strings of the button in a configuration. -/
def button (b : ButtonId) : Button :=
  ⟨"0x".toList ++ b.digits, b.protocol.text, Text.decimal b.endpoint⟩

/-- What a task makes of an id. -/
inductive Command
  | zigbee (line : Text)
  | ble (call : BleCall)
  deriving DecidableEq

/-- `sendIdButton` gives the item to a task, and the task makes a command of it. -/
def received (item : LinkButton) : Option Command :=
  if isBle item.idButton then (sendCommandBLE item).map .ble
  else (sendCommandZigbee item).map .zigbee

/-- The command for the button itself: its node id and endpoint, or its address and element. -/
def command (b : ButtonId) (state : Text) : Command :=
  match b.protocol with
  | .zigbee => .zigbee (b.button.line state)
  | .ble => .ble ⟨BitVec.ofNat 16 (hexNumber b.digits), BitVec.ofNat 16 (b.endpoint - 1),
      if state = "off".toList then 0 else 1, true⟩

variable (b : ButtonId)

theorem decimal_isHex (n : Nat) : (Text.decimal n).all isHex = true := by
  apply List.all_eq_true.mpr
  intro c hc
  have hdigit := Nat.isDigit_of_mem_toDigits (by decide) (by decide) hc
  simp only [Char.isDigit, Bool.and_eq_true, decide_eq_true_eq] at hdigit
  simp only [isHex, Bool.or_eq_true, Bool.and_eq_true, decide_eq_true_eq]
  exact .inl (.inl hdigit)

/-- The decimal text of a number ends with its last digit, which is all of it below ten. -/
theorem decimal_eq (n : Nat) :
    ∃ front, Text.decimal n = front ++ [(n % 10).digitChar] ∧ (front = [] ↔ n < 10) := by
  rw [Text.decimal, Nat.toDigits_eq_if (by decide)]
  split
  · rename_i hlt
    exact ⟨[], by rw [Nat.mod_eq_of_lt hlt]; rfl, by simp [hlt]⟩
  · rename_i hge
    exact ⟨_, rfl, by simp [hge, Nat.toDigits_ne_nil]⟩

theorem spelt : b.button.Spelt where
  nodeId := ⟨b.digits, rfl, b.hex⟩
  protocol := b.protocol.text_cases
  endpoint := ⟨Nat.toDigits_ne_nil, decimal_isHex b.endpoint⟩

theorem isBle_key : isBle b.button.key = true ↔ b.protocol = .ble := by
  rw [b.spelt.isBle_key]
  exact Protocol.text_eq_ble

theorem received_zigbee (hp : b.protocol = .zigbee) {state : Text} (hstate : state.length ≤ 4) :
    received ⟨state, b.button.key⟩ = some (b.command state) ↔ b.endpoint ≤ 9 := by
  obtain ⟨front, hend, hfront⟩ := decimal_eq b.endpoint
  have hble : ¬isBle b.button.key = true := by simp [b.isBle_key, hp]
  rw [received, if_neg hble, b.spelt.line_eq hend hstate, command, hp]
  simp only [Option.map_some, Option.some.injEq, Command.zigbee.injEq]
  constructor
  · intro hline
    have hdigits := Button.line_inj hline
    rw [show b.button.endpoint = _ from hend, List.self_eq_append_left, hfront] at hdigits
    omega
  · intro hle
    obtain rfl := hfront.mpr (by omega)
    have hdigit : b.button.endpoint = [(b.endpoint % 10).digitChar] := hend
    rw [← hdigit]

theorem received_ble (hp : b.protocol = .ble) (state : Text) :
    received ⟨state, b.button.key⟩ = some (b.command state) ↔ b.endpoint ≤ 9 := by
  obtain ⟨front, hend, -⟩ := decimal_eq b.endpoint
  have hble : isBle b.button.key = true := b.isBle_key.mpr hp
  have haddress : b.button.address = BitVec.ofNat 16 (hexNumber b.digits) := rfl
  have hrange := b.range
  -- the element that the last digit gives, and that of the endpoint
  have helement : BitVec.ofInt 16 (((b.endpoint % 10).digitChar.toNat : Int) - '0'.toNat - 1) =
      BitVec.ofNat 16 (b.endpoint - 1) ↔ b.endpoint ≤ 9 := by
    have h0 : '0'.toNat = 48 := rfl
    rw [Nat.toNat_digitChar_of_lt_ten (Nat.mod_lt _ (by decide)), h0, ← BitVec.ofInt_natCast,
      ← BitVec.toInt_inj, BitVec.toInt_ofInt, BitVec.toInt_ofInt,
      Int.bmod_eq_of_le (by omega) (by omega), Int.bmod_eq_of_le (by omega) (by omega)]
    omega
  rw [received, if_pos hble, b.spelt.call_eq hend, command, hp, haddress]
  simp only [Option.map_some, Option.some.injEq, Command.ble.injEq, BleCall.mk.injEq, true_and,
    and_true, helement]

/-- The commands that an event of a button gives along its list. -/
def commands (on : Bool) (list : Text) : List (Option Command) :=
  (strtok [] list).map fun token => received { Tasks.item [] on with idButton := token }

/-- The tasks recover the buttons of a list exactly if no endpoint has more than one digit. -/
theorem commands_iff (bs : List ButtonId) (on : Bool) :
    commands on (Button.ids (bs.map button)) =
        bs.map (fun b => some (b.command (Tasks.item [] on).stateButton)) ↔
      ∀ b ∈ bs, b.endpoint ≤ 9 := by
  have hwords : ∀ b ∈ bs.map button, IsWord b.key := by
    intro b hb
    obtain ⟨b, -, rfl⟩ := List.mem_map.mp hb
    exact b.spelt.isWord_key
  have hstate : (Tasks.item [] on).stateButton.length ≤ 4 := by cases on <;> decide
  rw [commands, strtok_ids_words hwords, List.map_map, List.map_map, List.map_inj_left]
  apply forall₂_congr
  intro b _
  cases hp : b.protocol with
  | zigbee => exact b.received_zigbee hp hstate
  | ble => exact b.received_ble hp _

/-- Endpoint 12 of a Zigbee node is taken for endpoint 2. -/
theorem endpoint12_lost :
    ¬ ∀ (bs : List ButtonId) (on : Bool), commands on (Button.ids (bs.map button)) =
      bs.map fun b => some (b.command (Tasks.item [] on).stateButton) := by
  intro h
  exact absurd (h [⟨"1A2B".toList, .zigbee, 12, by decide, by decide⟩] true) (by decide)

end ButtonId

end VhomeBridge.Link
