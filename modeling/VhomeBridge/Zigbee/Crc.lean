import Mathlib.Tactic.IntervalCases
import VhomeBridge.Lib.Crc

/-! `crc16_ccitt` of `fota.c` and the check that an XMODEM receiver computes.  The C function works
on an `unsigned short` with `int` promotions; `crcStep_eq` shows that each of its rounds is eight
shifts of the remainder for the generator `x^16 + x^12 + x^5 + 1`. -/

namespace VhomeBridge.Zigbee

open Lib.Crc

abbrev Byte := BitVec 8

/-- An `unsigned short` operand promoted to `int`. -/
def int (c : BitVec 16) : BitVec 32 := c.setWidth 32

/-- The value of an `int` after a cast to `unsigned char` and promotion back. -/
def uchar (c : BitVec 32) : BitVec 32 := (c.setWidth 8).setWidth 32

/-- The value of an `int` stored in an `unsigned short`. -/
def ushort (c : BitVec 32) : BitVec 16 := c.setWidth 16

/-- The body of the loop of `crc16_ccitt` for the byte `b`. -/
def crcStep (crc16 : BitVec 16) (b : Byte) : BitVec 16 :=
  let crc16 := ushort (uchar (int crc16 >>> 8) ||| (int crc16 <<< 8))
  let crc16 := crc16 ^^^ b.setWidth 16
  let crc16 := crc16 ^^^ ushort (uchar (int crc16 &&& 0xff) >>> 4)
  let crc16 := crc16 ^^^ ushort ((int crc16 <<< 8) <<< 4)
  crc16 ^^^ ushort (((int crc16 &&& 0xff) <<< 4) <<< 1)

def crc16Ccitt (buffer : List Byte) : BitVec 16 := buffer.foldl crcStep 0

/-- The eight shifts of CRC-16/XMODEM, whose generator is `0x1021`, for the byte `b`. -/
def xmodemStep (c : BitVec 16) (b : Byte) : BitVec 16 :=
  (shift 0x1021#16)^[8] (c ^^^ (b.setWidth 16 <<< (8 : Nat)))

/-- CRC-16/XMODEM, a bit at a time from the initial value 0. -/
def crcXmodem (message : List Byte) : BitVec 16 := message.foldl xmodemStep 0

/-- The exchange of the two bytes that opens a round. -/
def swap (x : BitVec 16) : BitVec 16 := ushort (uchar (int x >>> 8) ||| (int x <<< 8))

/-- The rest of a round, after the byte has been added. -/
def mix (x : BitVec 16) : BitVec 16 :=
  let x := x ^^^ ushort (uchar (int x &&& 0xff) >>> 4)
  let x := x ^^^ ushort ((int x <<< 8) <<< 4)
  x ^^^ ushort (((int x &&& 0xff) <<< 4) <<< 1)

theorem getLsbD_swap (x : BitVec 16) {i : Nat} (hi : i < 16) :
    (swap x).getLsbD i = if i < 8 then x.getLsbD (i + 8) else x.getLsbD (i - 8) := by
  interval_cases i <;> simp [swap, ushort, uchar, int]

theorem swap_linear : Linear swap := by
  intro x y
  apply BitVec.eq_of_getLsbD_eq
  intro i hi
  simp only [BitVec.getLsbD_xor, getLsbD_swap _ hi]
  split <;> rfl

theorem swap_byte (b : Byte) : swap (b.setWidth 16 <<< 8) = b.setWidth 16 := by
  apply BitVec.eq_of_getLsbD_eq
  intro i hi
  rw [getLsbD_swap _ hi]
  interval_cases i <;> simp

theorem and_xor_mask (x y m : BitVec 32) : (x ^^^ y) &&& m = (x &&& m) ^^^ (y &&& m) := by
  apply BitVec.eq_of_getLsbD_eq
  intro i _
  simp only [BitVec.getLsbD_and, BitVec.getLsbD_xor]
  cases m.getLsbD i <;> simp

theorem low_nibble_linear : Linear fun x => ushort (uchar (int x &&& 0xff) >>> 4) := by
  intro x y
  simp only [ushort, uchar, int, BitVec.setWidth_xor, and_xor_mask,
    BitVec.ushiftRight_xor_distrib]

theorem high_nibble_linear : Linear fun x => ushort ((int x <<< 8) <<< 4) := by
  intro x y
  simp only [ushort, int, BitVec.setWidth_xor, BitVec.shiftLeft_xor_distrib]

theorem low_byte_linear : Linear fun x => ushort (((int x &&& 0xff) <<< 4) <<< 1) := by
  intro x y
  simp only [ushort, int, BitVec.setWidth_xor, and_xor_mask,
    BitVec.shiftLeft_xor_distrib]

theorem mix_linear : Linear mix := by
  have id_linear : Linear (id : BitVec 16 → BitVec 16) := fun _ _ => rfl
  exact (id_linear.xor low_byte_linear).comp
    ((id_linear.xor high_nibble_linear).comp (id_linear.xor low_nibble_linear))

theorem crcStep_eq_mix (c : BitVec 16) (b : Byte) :
    crcStep c b = (mix ∘ swap) (c ^^^ (b.setWidth 16 <<< (8 : Nat))) := by
  rw [Function.comp, swap_linear, swap_byte]
  rfl

/-- Each round of `crc16_ccitt` is eight shifts of the remainder. -/
theorem crcStep_eq (c : BitVec 16) (b : Byte) : crcStep c b = xmodemStep c b := by
  have h : mix ∘ swap = (shift 0x1021#16)^[8] :=
    (mix_linear.comp swap_linear).ext ((shift_linear _).iterate 8) (by decide)
  rw [crcStep_eq_mix, h]
  rfl

theorem crc16Ccitt_eq (buffer : List Byte) : crc16Ccitt buffer = crcXmodem buffer := by
  have step : crcStep = xmodemStep := funext fun c => funext (crcStep_eq c)
  rw [crc16Ccitt, crcXmodem, step]

end VhomeBridge.Zigbee
