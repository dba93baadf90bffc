import Mathlib.Data.BitVec

/-! Words as octets, the most significant first.  The octets of a word, each shifted back to its
place, are the word again as far as they reach, also when the two words differ in width. -/

namespace VhomeBridge.Lib

variable {v w : Nat}

/-- The `n` low octets of a word. -/
def octets (x : BitVec v) : Nat → List (BitVec 8)
  | 0 => []
  | n + 1 => (x >>> (8 * n)).setWidth 8 :: octets x n

/-- Octets as a word, each shifted to its place. -/
def fromOctets (w : Nat) : List (BitVec 8) → BitVec w
  | [] => 0
  | b :: bs => (b.setWidth w <<< (8 * bs.length)) ||| fromOctets w bs

@[simp] theorem length_octets (x : BitVec v) (n : Nat) : (octets x n).length = n := by
  induction n with
  | zero => rfl
  | succ n ih => rw [octets, List.length_cons, ih]

theorem getLsbD_fromOctets (x : BitVec v) (n i : Nat) :
    (fromOctets w (octets x n)).getLsbD i = (decide (i < w ∧ i < 8 * n) && x.getLsbD i) := by
  induction n with
  | zero => simp [octets, fromOctets]
  | succ n ih =>
    rw [octets, fromOctets, length_octets, BitVec.getLsbD_or, ih, BitVec.getLsbD_shiftLeft,
      BitVec.getLsbD_setWidth, BitVec.getLsbD_setWidth, BitVec.getLsbD_ushiftRight]
    by_cases hw : i < w
    · by_cases hlow : i < 8 * n
      · have hnext : i < 8 * (n + 1) := by omega
        simp [hw, hlow, hnext]
      · have hplace : 8 * n + (i - 8 * n) = i := by omega
        have hshift : i - 8 * n < w := by omega
        have htop : i - 8 * n < 8 ↔ i < 8 * (n + 1) := by omega
        simp [hw, hlow, hplace, hshift, htop]
    · simp [hw]

/-- The octets of a word that they hold whole. -/
theorem fromOctets_octets {x : BitVec v} {n : Nat} (hx : x.toNat < 2 ^ (8 * n)) :
    fromOctets w (octets x n) = x.setWidth w := by
  apply BitVec.eq_of_getLsbD_eq
  intro i hi
  rw [getLsbD_fromOctets, BitVec.getLsbD_setWidth]
  by_cases hlow : i < 8 * n
  · simp [hi, hlow]
  · have hzero : x.getLsbD i = false :=
      Nat.testBit_lt_two_pow (hx.trans_le (Nat.pow_le_pow_right (by decide) (by omega)))
    simp [hzero]

end VhomeBridge.Lib
