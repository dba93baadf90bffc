import Mathlib.Data.List.Basic
import Mathlib.Logic.Function.Iterate

/-! Cyclic redundancy checks over `BitVec w`, a bit at a time from the most significant end, and
the principle that two maps that commute with exclusive or are equal once they agree on the powers
of two. -/

namespace VhomeBridge.Lib.Crc

variable {w : Nat}

/-- A map of bit vectors that commutes with exclusive or. -/
def Linear (f : BitVec w → BitVec w) : Prop := ∀ x y, f (x ^^^ y) = f x ^^^ f y

theorem Linear.zero {f : BitVec w → BitVec w} (hf : Linear f) : f 0#w = 0#w := by
  have h := hf 0#w 0#w
  simpa using h

theorem Linear.comp {f g : BitVec w → BitVec w} (hf : Linear f) (hg : Linear g) :
    Linear (f ∘ g) := fun x y => by simp only [Function.comp, hg x y, hf _ _]

theorem Linear.iterate {f : BitVec w → BitVec w} (hf : Linear f) (n : Nat) : Linear f^[n] := by
  induction n with
  | zero => exact fun _ _ => rfl
  | succ n ih => exact ih.comp hf

theorem Linear.xor {f g : BitVec w → BitVec w} (hf : Linear f) (hg : Linear g) :
    Linear fun x => f x ^^^ g x := fun x y => by
  simp only [hf x y, hg x y]
  ac_rfl

/-- The bits of `x` below `n`, as an exclusive or of powers of two. -/
def low (x : BitVec w) : Nat → BitVec w
  | 0 => 0#w
  | n + 1 => low x n ^^^ (if x.getLsbD n then BitVec.twoPow w n else 0#w)

theorem getLsbD_low (x : BitVec w) (n i : Nat) :
    (low x n).getLsbD i = (x.getLsbD i && decide (i < n)) := by
  induction n with
  | zero => simp [low]
  | succ n ih =>
    rw [low, BitVec.getLsbD_xor, ih]
    by_cases hi : i = n
    · subst hi
      by_cases hw : i < w
      · cases hx : x.getLsbD i <;> simp [hw]
      · simp [BitVec.getLsbD_of_ge _ i (Nat.le_of_not_lt hw)]
    · have hlt : (i < n + 1) = (i < n) := by simp only [eq_iff_iff]; omega
      cases hx : x.getLsbD n <;> simp [BitVec.getLsbD_twoPow, hlt, Ne.symm hi]

theorem low_width (x : BitVec w) : low x w = x := by
  apply BitVec.eq_of_getLsbD_eq
  intro i hi
  rw [getLsbD_low, decide_eq_true hi, Bool.and_true]

/-- Two linear maps that agree on the powers of two are equal. -/
theorem Linear.ext {f g : BitVec w → BitVec w} (hf : Linear f) (hg : Linear g)
    (basis : ∀ n < w, f (BitVec.twoPow w n) = g (BitVec.twoPow w n)) : f = g := by
  have upTo : ∀ x : BitVec w, ∀ n ≤ w, f (low x n) = g (low x n) := by
    intro x n
    induction n with
    | zero => intro _; rw [low, hf.zero, hg.zero]
    | succ n ih =>
      intro hn
      rw [low, hf, hg, ih (by omega)]
      split
      · rw [basis n (by omega)]
      · rw [hf.zero, hg.zero]
  funext x
  have h := upTo x w (Nat.le_refl w)
  rwa [low_width] at h

/-- One shift of the remainder `c` for the generator `x^w + poly`: the bit that leaves at the top
is replaced by the generator's lower terms. -/
def shift (poly c : BitVec w) : BitVec w := if c.msb then c <<< 1 ^^^ poly else c <<< 1

theorem shift_linear (poly : BitVec w) : Linear (shift poly) := by
  intro x y
  have hs : (x ^^^ y) <<< 1 = x <<< 1 ^^^ y <<< 1 := BitVec.shiftLeft_xor_distrib ..
  simp only [shift, BitVec.msb_xor, hs]
  cases x.msb <;> cases y.msb <;> simp
  · ac_rfl
  · ac_rfl
  · rw [BitVec.xor_assoc, BitVec.xor_comm poly, BitVec.xor_assoc, BitVec.xor_self,
      BitVec.xor_zero]

end VhomeBridge.Lib.Crc
