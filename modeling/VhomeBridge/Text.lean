import Mathlib.Data.List.Basic

/-! Text as C strings: the bytes before the terminating NUL, one character for each byte, and the
`printf` conversions that the gateway uses. -/

namespace VhomeBridge

/-- The bytes of a C string before its terminator. -/
abbrev Text := List Char

abbrev Byte := BitVec 8

namespace Text

def hexDigit (n : Nat) : Char :=
  if n < 10 then Char.ofNat ('0'.toNat + n) else Char.ofNat ('A'.toNat + (n - 10))

/-- `%04X` of a 16-bit value. -/
def hex04 (w : BitVec 16) : Text :=
  [hexDigit (w.toNat / 4096), hexDigit (w.toNat / 256 % 16), hexDigit (w.toNat / 16 % 16),
    hexDigit (w.toNat % 16)]

/-- `%d` of a natural number. -/
def decimal (n : Nat) : Text := Nat.toDigits 10 n

theorem toNat_ofNat {n : Nat} (h : n < 256) : (Char.ofNat n).toNat = n := by
  have hvalid : n.isValidChar := .inl (by omega)
  rw [Char.ofNat, dif_pos hvalid]
  rfl

end Text

/-- A string written to a buffer of `size` bytes. -/
def intoBuffer (size : Nat) (s : Text) : Option Text := if s.length < size then some s else none

/-- `hexValue`, `none` for a character that is no hexadecimal digit. -/
def hexValue (c : Char) : Option Nat :=
  if '0' ≤ c ∧ c ≤ '9' then some (c.toNat - '0'.toNat)
  else if 'A' ≤ c ∧ c ≤ 'F' then some (10 + c.toNat - 'A'.toNat)
  else if 'a' ≤ c ∧ c ≤ 'f' then some (10 + c.toNat - 'a'.toNat)
  else none

/-- `mParseHex`: the hexadecimal digits among the first `maxLen` characters. -/
def mParseHex (data : Text) (maxLen : Nat) : BitVec 32 :=
  (data.take maxLen).foldl (fun ret c =>
    match hexValue c with
    | none => ret
    | some v => (ret <<< 4) ||| BitVec.ofNat 32 v) 0

/-- `linkButton_t`: an item of the queues of the link tasks. -/
structure LinkButton where
  stateButton : Text
  idButton : Text
  deriving DecidableEq

end VhomeBridge
