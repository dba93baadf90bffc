import VhomeBridge.Lib.Remainder
import VhomeBridge.Zigbee.Fota

/-! `crc16_ccitt` is the remainder of the message times `x^16` in a division by
`x^16 + x^12 + x^5 + 1`, so the packets of `XmodemTransmit` have CRC 0 over payload and trailer. -/

namespace VhomeBridge.Zigbee

open Lib.Crc Polynomial

/-- The generator of CRC-16/XMODEM. -/
theorem generator_xmodem :
    generator 0x1021#16 = (X ^ 16 + X ^ 12 + X ^ 5 + 1 : (ZMod 2)[X]) := by
  have hpoly : poly 0x1021#16 = (X ^ 12 + X ^ 5 + 1 : (ZMod 2)[X]) := by
    simp only [poly, Finset.sum_range_succ, Finset.sum_range_zero]
    simp
    ring
  rw [generator, hpoly]
  ring

/-- A byte is shifted in from the top of the remainder. -/
theorem crcXmodem_eq_absorb (message : List Byte) :
    crcXmodem message = message.foldl (absorb 0x1021#16) 0#16 := rfl

theorem messagePoly_trailer (message : List Byte) :
    messagePoly (XmodemPacket.trailer message) = poly (crc16Ccitt message) := by
  rw [poly_split (crc16Ccitt message) 8]
  simp [XmodemPacket.trailer, messagePoly]

theorem crc16Ccitt_trailer (message : List Byte) :
    crc16Ccitt (message ++ XmodemPacket.trailer message) = 0 := by
  have htrailer := messagePoly_trailer message
  rw [crc16Ccitt_eq, crcXmodem_eq_absorb] at htrailer ⊢
  exact foldl_absorb_trailer 0x1021#16 (by decide) message _ rfl htrailer

/-- Every message: the CRC a bit at a time, the remainder, and the check over message and CRC. -/
theorem crc16Ccitt_remainder (message : List Byte) :
    crc16Ccitt message = crcXmodem message ∧
      poly (crc16Ccitt message) =
        (messagePoly message * X ^ 16) %ₘ (X ^ 16 + X ^ 12 + X ^ 5 + 1) ∧
      crc16Ccitt (message ++ XmodemPacket.trailer message) = 0 := by
  refine ⟨crc16Ccitt_eq message, ?_, crc16Ccitt_trailer message⟩
  rw [crc16Ccitt_eq, crcXmodem_eq_absorb, ← generator_xmodem]
  exact (leaves_message 0x1021#16 (by decide) message).eq

/-- The check value of CRC-16/XMODEM, the CRC of the digits 1 to 9. -/
example : crc16Ccitt [0x31, 0x32, 0x33, 0x34, 0x35, 0x36, 0x37, 0x38, 0x39] = 0x31c3 := by decide

end VhomeBridge.Zigbee
