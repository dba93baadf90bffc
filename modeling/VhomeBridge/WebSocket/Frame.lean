import VhomeBridge.Lib.Octets
import VhomeBridge.Lib.Tape
import VhomeBridge.Text

/-! The frames of a web socket.  `ws_send` writes a message as one frame; what it writes is a frame
as the protocol has it, and `ws_read` takes the header of any such frame apart. -/

namespace VhomeBridge.WebSocket

open Lib

/-! ### `WEBSOCKET_OPCODES_t` -/

namespace Opcode

def cont : BitVec 4 := 0x0

def text : BitVec 4 := 0x1

def bin : BitVec 4 := 0x2

def close : BitVec 4 := 0x8

def ping : BitVec 4 := 0x9

def pong : BitVec 4 := 0xA

end Opcode

/-- `param` of `ws_header_t`, read as `bit`. -/
structure Param where
  len : BitVec 7
  mask : Bool
  opcode : BitVec 4
  reserved : BitVec 3
  fin : Bool
  deriving DecidableEq

namespace Param

/-- `pos.ONE`, the bits 0 to 7. -/
def one (p : Param) : Byte := (BitVec.ofBool p.mask).setWidth 8 <<< 7 ||| p.len.setWidth 8

/-- `pos.ZERO`, the bits 8 to 15. -/
def zero (p : Param) : Byte :=
  (BitVec.ofBool p.fin).setWidth 8 <<< 7 ||| p.reserved.setWidth 8 <<< 4 ||| p.opcode.setWidth 8

def ofPos (zero one : Byte) : Param where
  len := one.setWidth 7
  mask := one.getLsbD 7
  opcode := zero.setWidth 4
  reserved := (zero >>> 4).setWidth 3
  fin := zero.getLsbD 7

theorem ofPos_eq (p : Param) : ofPos p.zero p.one = p := by
  obtain ⟨len, mask, opcode, reserved, fin⟩ := p
  rw [ofPos, Param.mk.injEq]
  refine ⟨?_, ?_, ?_, ?_, ?_⟩
  · apply BitVec.eq_of_getLsbD_eq
    intro i hi
    simp [one, hi]
  · simp [one]
  · apply BitVec.eq_of_getLsbD_eq
    intro i hi
    simp [zero, hi]
  · apply BitVec.eq_of_getLsbD_eq
    intro i hi
    have hplace : 4 + i < 8 ∧ i < 8 ∧ ¬4 + i < 4 ∧ ¬7 ≤ 4 + i := by omega
    simp [zero, hi, hplace]
  · simp [zero]

end Param

/-- The four bytes of a masking key, `key.part`. -/
abbrev Key := Fin 4 → Byte

/-- `ws_header_t`, with its key where the masking bit is set. -/
structure WsHeader where
  param : Param
  length : BitVec 64
  key : Option Key
  deriving DecidableEq

/-- The loop of `ws_encrypt_decrypt` over a message. -/
def mask (key : Key) (msg : List Byte) : List Byte :=
  msg.mapIdx fun i b => b ^^^ key (Fin.ofNat 4 i)

def wsEncryptDecrypt (msg : List Byte) : Option Key → List Byte
  | some key => mask key msg
  | none => msg

/-- The field `LEN` that `ws_send` sets for a length. -/
def lenField (len : BitVec 64) : BitVec 7 :=
  if len ≤ 125 then len.setWidth 7 else if len < 65536 then 126 else 127

/-- The length as `ws_send` puts it in behind the first two bytes. -/
def putLength (field : BitVec 7) (len : BitVec 64) : List Byte :=
  (if field = 126 then [(len >>> 8).setWidth 8, len.setWidth 8] else []) ++
    if field = 127 then
      [(len >>> 56).setWidth 8, (len >>> 48).setWidth 8, (len >>> 40).setWidth 8,
        (len >>> 32).setWidth 8, (len >>> 24).setWidth 8, (len >>> 16).setWidth 8,
        (len >>> 8).setWidth 8, len.setWidth 8]
    else []

/-- The bytes that `ws_send` writes to the connection.  `key` is what `ws_generate_mask` draws for a
message that is to be masked. -/
def wsSend (opcode : BitVec 4) (msg : List Byte) (key : Option Key) : List Byte :=
  let len := BitVec.ofNat 64 msg.length
  let param : Param := ⟨lenField len, key.isSome, opcode, 0, true⟩
  [param.zero, param.one] ++ putLength param.len len ++
    (key.elim [] fun key => [key 0, key 1, key 2, key 3]) ++ wsEncryptDecrypt msg key

/-- The message length that `ws_read` finds, and the position behind it. -/
def readLength (field : BitVec 7) (buf : Tape Byte) : BitVec 64 × Nat :=
  if field ≤ 125 then (field.setWidth 64, 2)
  else if field = 126 then
    (((buf 2).setWidth 32 <<< 8 ||| (buf 3).setWidth 32).setWidth 64, 4)
  else
    ((buf 2).setWidth 64 <<< 56 ||| (buf 3).setWidth 64 <<< 48 ||| (buf 4).setWidth 64 <<< 40 |||
      (buf 5).setWidth 64 <<< 32 ||| (buf 6).setWidth 64 <<< 24 ||| (buf 7).setWidth 64 <<< 16 |||
      (buf 8).setWidth 64 <<< 8 ||| (buf 9).setWidth 64, 10)

/-- The header at the start of a buffer, and the position behind it. -/
def readHeader (buf : Tape Byte) : WsHeader × Nat :=
  let param := Param.ofPos (buf 0) (buf 1)
  let (length, pos) := readLength param.len buf
  if param.mask then (⟨param, length, some fun i => buf (pos + i)⟩, pos + 4)
  else (⟨param, length, none⟩, pos)

/-! ### Frames of the protocol -/

/-- A frame: a final one or not, with its opcode, its key if it is masked, and its payload before
masking. -/
structure Frame where
  fin : Bool
  reserved : BitVec 3
  opcode : BitVec 4
  key : Option Key
  payload : List Byte
  fits : payload.length < 2 ^ 64

namespace Frame

variable (f : Frame)

def length : BitVec 64 := BitVec.ofNat 64 f.payload.length

/-- The length itself up to 125, and then the number that says how many octets of it follow. -/
def shortLength : BitVec 7 :=
  if f.payload.length ≤ 125 then BitVec.ofNat 7 f.payload.length
  else if f.payload.length < 65536 then 126 else 127

def lengthOctets : List Byte :=
  if f.payload.length ≤ 125 then []
  else octets f.length (if f.payload.length < 65536 then 2 else 8)

def param : Param := ⟨f.shortLength, f.key.isSome, f.opcode, f.reserved, f.fin⟩

def keyBytes : List Byte := f.key.elim [] fun key => List.ofFn key

def head : List Byte := [f.param.zero, f.param.one] ++ f.lengthOctets ++ f.keyBytes

/-- The payload as it stands in the frame. -/
def body : List Byte := wsEncryptDecrypt f.payload f.key

def bytes : List Byte := f.head ++ f.body

def header : WsHeader := ⟨f.param, f.length, f.key⟩

theorem toNat_length : f.length.toNat = f.payload.length := by
  rw [length, BitVec.toNat_ofNat, Nat.mod_eq_of_lt f.fits]

end Frame

@[simp] theorem length_wsEncryptDecrypt (msg : List Byte) (key : Option Key) :
    (wsEncryptDecrypt msg key).length = msg.length := by
  cases key with
  | none => rfl
  | some key => exact List.length_mapIdx

/-- Masking twice with one key gives the message back. -/
theorem wsEncryptDecrypt_twice (msg : List Byte) (key : Option Key) :
    wsEncryptDecrypt (wsEncryptDecrypt msg key) key = msg := by
  cases key with
  | none => rfl
  | some key =>
    simp only [wsEncryptDecrypt, mask, List.mapIdx_mapIdx]
    refine List.ext_getElem (by simp) fun i _ _ => ?_
    rw [List.getElem_mapIdx, Function.comp_apply, BitVec.xor_assoc, BitVec.xor_self,
      BitVec.xor_zero]

namespace Frame

variable (f : Frame)

theorem le_125_iff : f.length ≤ 125 ↔ f.payload.length ≤ 125 := by
  rw [BitVec.le_def, f.toNat_length]
  rfl

theorem lt_65536_iff : f.length < 65536 ↔ f.payload.length < 65536 := by
  rw [BitVec.lt_def, f.toNat_length]
  rfl

theorem lenField_eq : lenField f.length = f.shortLength := by
  simp only [lenField, f.le_125_iff, f.lt_65536_iff, shortLength]
  refine ite_congr rfl (fun _ => ?_) fun _ => rfl
  apply BitVec.eq_of_toNat_eq
  rw [BitVec.toNat_setWidth, f.toNat_length, BitVec.toNat_ofNat]

theorem shortLength_short (h : f.payload.length ≤ 125) : f.shortLength ≤ 125 := by
  rw [shortLength, if_pos h, BitVec.le_def, BitVec.toNat_ofNat, Nat.mod_eq_of_lt (by omega)]
  exact h

theorem shortLength_medium (h : ¬f.payload.length ≤ 125) (h' : f.payload.length < 65536) :
    f.shortLength = 126 := by
  rw [shortLength, if_neg h, if_pos h']

theorem shortLength_long (h : ¬f.payload.length < 65536) : f.shortLength = 127 := by
  rw [shortLength, if_neg (by omega), if_neg h]

theorem putLength_eq : putLength f.shortLength f.length = f.lengthOctets := by
  rw [lengthOctets]
  by_cases hshort : f.payload.length ≤ 125
  · have hle := f.shortLength_short hshort
    rw [if_pos hshort, putLength, if_neg (by bv_omega), if_neg (by bv_omega)]
    rfl
  · by_cases hmedium : f.payload.length < 65536
    · rw [if_neg hshort, if_pos hmedium, f.shortLength_medium hshort hmedium]
      simp [putLength, octets]
    · rw [if_neg hshort, if_neg hmedium, f.shortLength_long hmedium]
      simp [putLength, octets]

theorem readLength_eq {buf : Tape Byte} (h : buf.Holds 2 f.lengthOctets) :
    readLength f.shortLength buf = (f.length, 2 + f.lengthOctets.length) := by
  rw [lengthOctets] at h ⊢
  by_cases hshort : f.payload.length ≤ 125
  · have hfield := f.lenField_eq
    rw [lenField, if_pos (f.le_125_iff.mpr hshort)] at hfield
    rw [readLength, if_pos (f.shortLength_short hshort), if_pos hshort, ← hfield]
    refine Prod.ext ?_ rfl
    apply BitVec.eq_of_toNat_eq
    rw [BitVec.toNat_setWidth, BitVec.toNat_setWidth, f.toNat_length]
    omega
  · rw [if_neg hshort] at h ⊢
    have hread := h.read
    by_cases hmedium : f.payload.length < 65536
    · have hbytes : octets f.length 2 = [buf 2, buf 3] := by
        rw [if_pos hmedium, length_octets] at hread
        exact hread.symm
      have hjoin : fromOctets 32 (octets f.length 2) = f.length.setWidth 32 :=
        fromOctets_octets (by rw [f.toNat_length]; omega)
      have hint : (buf 2).setWidth 32 <<< 8 ||| (buf 3).setWidth 32 = f.length.setWidth 32 := by
        rw [← hjoin, hbytes]
        simp [fromOctets]
      rw [f.shortLength_medium hshort hmedium, if_pos hmedium, length_octets, readLength,
        if_neg (by decide), if_pos rfl, hint]
      refine Prod.ext ?_ rfl
      apply BitVec.eq_of_toNat_eq
      rw [BitVec.toNat_setWidth, BitVec.toNat_setWidth, f.toNat_length]
      omega
    · have hbytes : octets f.length 8 =
          [buf 2, buf 3, buf 4, buf 5, buf 6, buf 7, buf 8, buf 9] := by
        rw [if_neg hmedium, length_octets] at hread
        exact hread.symm
      have hjoin : fromOctets 64 (octets f.length 8) = f.length.setWidth 64 :=
        fromOctets_octets f.length.isLt
      rw [hbytes, BitVec.setWidth_eq] at hjoin
      rw [f.shortLength_long hmedium, if_neg hmedium, length_octets, readLength,
        if_neg (by decide), if_neg (by decide), ← hjoin]
      simp [fromOctets, BitVec.or_assoc]

theorem keyBytes_eq : (f.key.elim [] fun key => [key 0, key 1, key 2, key 3]) = f.keyBytes := by
  rw [keyBytes]
  cases f.key with
  | none => rfl
  | some key => simp [List.ofFn_succ]

/-- The header of a frame, read from a buffer that starts with it. -/
theorem readHeader_eq {buf : Tape Byte} (h : buf.Holds 0 f.head) :
    readHeader buf = (f.header, f.head.length) := by
  obtain ⟨hfront, hkey⟩ := Tape.holds_append.mp h
  obtain ⟨hstart, hlength⟩ := Tape.holds_append.mp hfront
  obtain ⟨hzero, hone, -⟩ := (Tape.holds_cons.mp hstart).imp id Tape.holds_cons.mp
  have hlen : readLength f.param.len buf = (f.length, 2 + f.lengthOctets.length) :=
    f.readLength_eq (by simpa using hlength)
  have hpos : 0 + ([f.param.zero, f.param.one] ++ f.lengthOctets).length =
      2 + f.lengthOctets.length := by
    simp only [List.length_append, List.length_cons, List.length_nil, Nat.zero_add]
  rw [hpos] at hkey
  rw [readHeader, hzero, hone, Param.ofPos_eq, hlen]
  simp only [header, head, List.length_append, List.length_cons, List.length_nil]
  cases hk : f.key with
  | none =>
    have hmask : f.param.mask = false := by rw [param, hk, Option.isSome_none]
    simp [hmask, keyBytes, hk]
  | some key =>
    have hmask : f.param.mask = true := by rw [param, hk, Option.isSome_some]
    have hparts : (fun i : Fin 4 => buf (2 + f.lengthOctets.length + i)) = key := by
      funext i
      rw [keyBytes, hk] at hkey
      exact hkey i (key i) (List.getElem?_ofFn.trans (dif_pos i.isLt))
    simp [hmask, keyBytes, hk, hparts]

end Frame

/-- `ws_send` writes a final frame. -/
theorem wsSend_eq (opcode : BitVec 4) (msg : List Byte) (key : Option Key)
    (h : msg.length < 2 ^ 64) :
    wsSend opcode msg key = (Frame.mk true 0 opcode key msg h).bytes := by
  have hfield := (Frame.mk true 0 opcode key msg h).lenField_eq
  have hlength := (Frame.mk true 0 opcode key msg h).putLength_eq
  have hkey := (Frame.mk true 0 opcode key msg h).keyBytes_eq
  rw [Frame.length] at hfield hlength
  simp only [wsSend, hfield, hlength, hkey]
  rfl

end VhomeBridge.WebSocket
