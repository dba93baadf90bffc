import VhomeBridge.Lib.Tape
import VhomeBridge.Text
import Mathlib.Data.BitVec
import Mathlib.Tactic.IntervalCases

/-! The quick pairing mode.  The app that pairs the gateway sends the password of the network with
7 added to the bytes at even positions and 2 to those at odd ones, and `decodePsk` takes it back in
place.  An access outside the password field of the event, or outside the buffer of `decodePsk`, is
a fault, `none`. -/

namespace VhomeBridge.SmartConfig

open Lib

/-- The size of the password field of the event, and of the buffer. -/
def fieldSize : Nat := 64

/-- `strlen` of a field. -/
def strlen (field : Tape Byte) : Option Nat := (field.string 0 fieldSize 0).map List.length

/-- What the loop stores for the byte `b` at position `i`. -/
def decodeByte (i b : Byte) : Byte :=
  let tmp : BitVec 32 := if i &&& 1 ≠ 0 then b.setWidth 32 - 2 else b.setWidth 32 - 7
  (tmp &&& 0xff).setWidth 8

/-- The loop of `decodePsk` from position `i` on, for at most `fuel` tests of its condition: the
buffer and the counter after it. -/
def decodeLoop (psk : Tape Byte) : Nat → Byte → Tape Byte → Option (Tape Byte × Byte)
  | 0, _, _ => none
  | fuel + 1, i, password => do
    if i.toNat < (← strlen psk) then
      let password ← password.store fieldSize i.toNat [decodeByte i (psk i.toNat)]
      decodeLoop psk fuel (i + 1) password
    else return (password, i)

/-- `decodePsk`.  A terminated field has at most 63 bytes before its terminator. -/
def decodePsk (psk : Tape Byte) : Option (Tape Byte) := do
  let (password, i) ← decodeLoop psk fieldSize 0 fun _ => 0
  let password ← password.store fieldSize i.toNat [0]
  -- `memcpy` of `strlen(password)` bytes
  let decoded ← password.string 0 fieldSize 0
  psk.store fieldSize 0 decoded

/-- How the app encodes a key. -/
def encode (key : List Byte) : List Byte :=
  key.mapIdx fun i c => if i % 2 = 0 then c + 7 else c + 2

/-- The field holds an encoded passphrase or hex key, and a terminator where there is room. -/
structure Receives (psk : Tape Byte) (key : List Byte) : Prop where
  length : 1 ≤ key.length ∧ key.length ≤ fieldSize
  printable : ∀ c ∈ key, 0x20 ≤ c ∧ c ≤ 0x7e
  holds : psk.Holds 0 (encode key)
  ends : key.length < fieldSize → psk key.length = 0

/-- `decodePsk` stays in bounds and restores every key, and nothing behind it changes. -/
def Decodes (psk : Tape Byte) : Prop :=
  (decodePsk psk).isSome ∧ ∀ key, Receives psk key → ∃ psk', decodePsk psk = some psk' ∧
    psk'.Holds 0 key ∧ ∀ k, key.length ≤ k → psk' k = psk k

/-! ### Bytes -/

theorem setWidth_and_low (x : BitVec 32) : (x &&& 0xff).setWidth 8 = x.setWidth 8 := by
  apply BitVec.eq_of_getLsbD_eq
  intro i hi
  have hbit : ((0xff : BitVec 32)).getLsbD i = true := by interval_cases i <;> rfl
  simp only [BitVec.getLsbD_setWidth, BitVec.getLsbD_and, hbit, Bool.and_true]

theorem odd_iff {k : Nat} (hk : k < fieldSize) : BitVec.ofNat 8 k &&& 1 ≠ 0 ↔ k % 2 ≠ 0 := by
  have hsize : fieldSize = 64 := rfl
  have hnat : (BitVec.ofNat 8 k &&& 1).toNat = k % 2 := by
    rw [BitVec.toNat_and, BitVec.toNat_ofNat, Nat.mod_eq_of_lt (by omega)]
    exact Nat.and_one_is_mod k
  rw [← hnat, ne_eq, ne_eq, ← BitVec.toNat_inj]
  rfl

theorem decodeByte_eq {k : Nat} (hk : k < fieldSize) (b : Byte) :
    decodeByte (BitVec.ofNat 8 k) b = if k % 2 = 0 then b - 7 else b - 2 := by
  rw [decodeByte, setWidth_and_low]
  by_cases hodd : k % 2 = 0
  · rw [if_neg (mt (odd_iff hk).mp (not_not_intro hodd)), if_pos hodd]
    bv_omega
  · rw [if_pos ((odd_iff hk).mpr hodd), if_neg hodd]
    bv_omega

/-- The bytes that the loop computes for a string. -/
def decode (s : List Byte) : List Byte :=
  s.mapIdx fun i b => if i % 2 = 0 then b - 7 else b - 2

theorem decode_encode (key : List Byte) : decode (encode key) = key := by
  rw [decode, encode, List.mapIdx_mapIdx]
  apply List.ext_getElem
  · simp
  · intro i _ _
    simp only [List.getElem_mapIdx, Function.comp]
    split <;> simp

/-- An encoded printable byte is not the terminator. -/
theorem zero_not_mem_encode {key : List Byte} (h : ∀ c ∈ key, 0x20 ≤ c ∧ c ≤ 0x7e) :
    0 ∉ encode key := by
  intro hzero
  obtain ⟨i, hi, heq⟩ := List.mem_mapIdx.mp hzero
  obtain ⟨hlow, hhigh⟩ := h key[i] (List.getElem_mem hi)
  split at heq
  · bv_omega
  · bv_omega

/-! ### The loop -/

theorem length_decode (s : List Byte) : (decode s).length = s.length := List.length_mapIdx

theorem decodeLoop_next {psk password : Tape Byte} {n fuel : Nat} {i : Byte}
    (hlen : strlen psk = some n) (hi : i.toNat < n) (hroom : i.toNat < fieldSize) :
    decodeLoop psk (fuel + 1) i password =
      decodeLoop psk fuel (i + 1) (password.write i.toNat [decodeByte i (psk i.toNat)]) := by
  rw [decodeLoop, hlen]
  simp only [Option.bind_eq_bind, Option.bind_some, if_pos hi]
  rw [Tape.store_of_le hroom, Option.bind_some]

theorem decodeLoop_stop {psk password : Tape Byte} {n fuel : Nat} {i : Byte}
    (hlen : strlen psk = some n) (hi : ¬i.toNat < n) :
    decodeLoop psk (fuel + 1) i password = some (password, i) := by
  rw [decodeLoop, hlen]
  simp only [Option.bind_eq_bind, Option.bind_some, if_neg hi]
  rfl

/-- The first `k` bytes are decoded, and the rest comes in the turns that are left. -/
theorem decodeLoop_eq {psk : Tape Byte} {s : List Byte} (hs : psk.string 0 fieldSize 0 = some s)
    {k fuel : Nat} (hk : k ≤ s.length) (hfuel : s.length < k + fuel) {password : Tape Byte}
    (hpassword : password.Holds 0 ((decode s).take k)) :
    ∃ password', decodeLoop psk fuel (BitVec.ofNat 8 k) password =
        some (password', BitVec.ofNat 8 s.length) ∧ password'.Holds 0 (decode s) := by
  have hsize : fieldSize = 64 := rfl
  obtain ⟨hroom, hholds, -⟩ := Tape.string_some hs
  have hlen : strlen psk = some s.length := by rw [strlen, hs, Option.map_some]
  induction fuel generalizing k password with
  | zero => omega
  | succ fuel ih =>
    have hnat : (BitVec.ofNat 8 k).toNat = k := by
      rw [BitVec.toNat_ofNat, Nat.mod_eq_of_lt (by omega)]
    by_cases hlt : k < s.length
    · have hbyte : psk k = s[k] := by
        have hcell := (Tape.holds_append.mp hholds).1 k _ (List.getElem?_eq_getElem hlt)
        rwa [Nat.zero_add] at hcell
      have htake : (decode s).take (k + 1) =
          (decode s).take k ++ [decodeByte (BitVec.ofNat 8 k) (psk k)] := by
        have hdecode : k < (decode s).length := by rwa [length_decode]
        rw [List.take_add_one, List.getElem?_eq_getElem hdecode, hbyte,
          decodeByte_eq (by omega), Option.toList_some]
        simp [decode]
      have hnext : (password.write k [decodeByte (BitVec.ofNat 8 k) (psk k)]).Holds 0
          ((decode s).take (k + 1)) := by
        have hwrite := hpassword.write_append (t := [decodeByte (BitVec.ofNat 8 k) (psk k)])
        rwa [← htake, List.length_take, length_decode, Nat.min_eq_left hk, Nat.zero_add] at hwrite
      have hcount : BitVec.ofNat 8 k + 1 = BitVec.ofNat 8 (k + 1) := by
        rw [BitVec.ofNat_add]
        rfl
      rw [decodeLoop_next hlen (by omega) (by omega), hnat, hcount]
      exact ih (by omega) (by omega) hnext
    · obtain rfl : k = s.length := by omega
      refine ⟨password, decodeLoop_stop hlen (by omega), ?_⟩
      rwa [List.take_of_length_le (length_decode s).le] at hpassword

/-- A terminated field is decoded up to its first byte that decodes to 0. -/
theorem decodePsk_eq {psk : Tape Byte} {s : List Byte} (hs : psk.string 0 fieldSize 0 = some s) :
    decodePsk psk = some (psk.write 0 ((decode s).takeWhile (· ≠ 0))) := by
  have hsize : fieldSize = 64 := rfl
  obtain ⟨hroom, -, -⟩ := Tape.string_some hs
  have hlen := length_decode s
  obtain ⟨password, hloop, hholds⟩ : ∃ password, decodeLoop psk fieldSize 0 (fun _ => 0) =
      some (password, BitVec.ofNat 8 s.length) ∧ password.Holds 0 (decode s) :=
    decodeLoop_eq hs (Nat.zero_le _) (by omega) Tape.holds_nil
  have hend : (password.write s.length [0]).Holds 0 (decode s ++ [0]) := by
    have hwrite := hholds.write_append (t := [0])
    rwa [hlen, Nat.zero_add] at hwrite
  have hnat : (BitVec.ofNat 8 s.length).toNat = s.length := by
    rw [BitVec.toNat_ofNat, Nat.mod_eq_of_lt (by omega)]
  have hfits : ((decode s).takeWhile (· ≠ 0)).length ≤ s.length :=
    hlen ▸ (List.takeWhile_prefix _).length_le
  have hstop : password.store fieldSize s.length [0] = some (password.write s.length [0]) :=
    Tape.store_of_le (by rw [List.length_singleton]; omega)
  have hcopy : psk.store fieldSize 0 ((decode s).takeWhile (· ≠ 0)) =
      some (psk.write 0 ((decode s).takeWhile (· ≠ 0))) := Tape.store_of_le (by omega)
  rw [decodePsk, hloop]
  simp only [Option.bind_eq_bind, Option.bind_some]
  rw [hnat, hstop, Option.bind_some, hend.string_append (by omega), Option.bind_some, hcopy]

/-- The loop's first test already leaves a field that is not terminated. -/
theorem decodePsk_none {psk : Tape Byte} (h : psk.string 0 fieldSize 0 = none) :
    decodePsk psk = none := by
  have hlen : strlen psk = none := by rw [strlen, h, Option.map_none]
  rw [decodePsk, fieldSize, decodeLoop, hlen]
  rfl

/-! ### Keys -/

theorem length_encode (key : List Byte) : (encode key).length = key.length := List.length_mapIdx

/-- A terminated field has a key of at most 63 bytes, and that is what it holds. -/
theorem Receives.string {psk : Tape Byte} {key : List Byte} (h : Receives psk key)
    (hlt : key.length < fieldSize) : psk.string 0 fieldSize 0 = some (encode key) := by
  have hlen := length_encode key
  have hend : psk.Holds 0 (encode key ++ [0]) := by
    apply Tape.holds_append.mpr
    refine ⟨h.holds, Tape.holds_cons.mpr ⟨?_, Tape.holds_nil⟩⟩
    rw [hlen, Nat.zero_add]
    exact h.ends hlt
  rw [hend.string_append (by omega), Tape.takeWhile_ne (zero_not_mem_encode h.printable)]

theorem Receives.length_lt {psk : Tape Byte} {key : List Byte} (h : Receives psk key) {k : Nat}
    (hk : k < fieldSize) (hzero : psk k = 0) : key.length < fieldSize := by
  have hlen := length_encode key
  by_contra hfull
  have hin : k < (encode key).length := by omega
  have hcell := h.holds k _ (List.getElem?_eq_getElem hin)
  rw [Nat.zero_add, hzero] at hcell
  exact zero_not_mem_encode h.printable (hcell ▸ List.getElem_mem hin)

theorem printable_ne_zero {key : List Byte} (h : ∀ c ∈ key, 0x20 ≤ c ∧ c ≤ 0x7e) : 0 ∉ key :=
  fun hzero => absurd (h 0 hzero).1 (by decide)

/-- `decodePsk` does its work exactly where the field contains a terminator. -/
theorem decodes_iff (psk : Tape Byte) : Decodes psk ↔ ∃ k < fieldSize, psk k = 0 := by
  constructor
  · rintro ⟨hsome, -⟩
    rw [← Tape.string_isSome_iff]
    by_contra hnone
    rw [Option.not_isSome_iff_eq_none] at hnone
    rw [decodePsk_none hnone] at hsome
    cases hsome
  · intro hzero
    obtain ⟨s, hs⟩ := Option.isSome_iff_exists.mp (Tape.string_isSome_iff.mpr hzero)
    refine ⟨by rw [decodePsk_eq hs]; rfl, fun key h => ?_⟩
    obtain ⟨k, hk, hcell⟩ := hzero
    refine ⟨psk.write 0 key, ?_, Tape.holds_write, fun j hj => Tape.write_of_ge (by omega)⟩
    rw [decodePsk_eq (h.string (h.length_lt hk hcell)), decode_encode,
      Tape.takeWhile_ne (printable_ne_zero h.printable)]

/-- A hex key of 64 digits fills the field: `strlen` reads on behind it. -/
theorem not_decodes : ¬∀ psk, Decodes psk := by
  intro h
  let psk : Tape Byte := fun k => if k % 2 = 0 then 0x68 else 0x63
  have hne : ∀ k, psk k ≠ 0 := by
    intro k
    simp only [psk]
    split <;> decide
  have hnone : psk.string 0 fieldSize 0 = none := by
    rw [← Option.not_isSome_iff_eq_none, Tape.string_isSome_iff]
    rintro ⟨k, -, hzero⟩
    exact hne k hzero
  have hsome := (h psk).1
  rw [decodePsk_none hnone] at hsome
  cases hsome

end VhomeBridge.SmartConfig
