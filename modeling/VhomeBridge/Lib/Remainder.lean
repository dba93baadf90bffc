import VhomeBridge.Lib.Crc
import Mathlib.Algebra.CharP.Two
import Mathlib.Algebra.Polynomial.Div
import Mathlib.Algebra.Polynomial.Monic
import Mathlib.Algebra.Field.ZMod
import Mathlib.Tactic.LinearCombination

/-! A bit vector as a polynomial over the field of two elements, bit `i` being the coefficient of
`x^i`.  Shifting in a message leaves the remainder of the message times `x^w` in a division by the
generator, so a message followed by its remainder leaves 0. -/

namespace VhomeBridge.Lib.Crc

open Polynomial

variable {v w : Nat}

noncomputable def poly (x : BitVec w) : (ZMod 2)[X] :=
  ∑ i ∈ Finset.range w, if x.getLsbD i then X ^ i else 0

/-- The first word of a message has the highest coefficients. -/
noncomputable def messagePoly : List (BitVec v) → (ZMod 2)[X]
  | [] => 0
  | b :: bs => poly b * X ^ (v * bs.length) + messagePoly bs

/-- The generator whose terms below `x^w` are those of `g`. -/
noncomputable def generator (g : BitVec w) : (ZMod 2)[X] := X ^ w + poly g

/-! ### Coefficients -/

theorem coeff_poly (x : BitVec w) (i : Nat) :
    (poly x).coeff i = if x.getLsbD i then 1 else 0 := by
  have hterm : ∀ k, (if x.getLsbD k then (X : (ZMod 2)[X]) ^ k else 0).coeff i =
      if k = i then (if x.getLsbD i then 1 else 0) else 0 := by
    intro k
    by_cases hki : k = i
    · subst hki
      cases x.getLsbD k <;> simp
    · cases x.getLsbD k <;> simp [hki, coeff_X_pow, Ne.symm hki]
  rw [poly, finsetSum_coeff, Finset.sum_congr rfl fun k _ => hterm k, Finset.sum_ite_eq']
  by_cases hi : i < w
  · rw [if_pos (Finset.mem_range.mpr hi)]
  · rw [if_neg (by simpa using hi), BitVec.getLsbD_of_ge x i (Nat.le_of_not_lt hi)]
    rfl

theorem poly_injective {x y : BitVec w} (h : poly x = poly y) : x = y := by
  apply BitVec.eq_of_getLsbD_eq
  intro i _
  have hcoeff := congrArg (fun p => p.coeff i) h
  simp only [coeff_poly] at hcoeff
  cases hx : x.getLsbD i <;> cases hy : y.getLsbD i <;> simp_all

theorem degree_poly_lt (x : BitVec w) : (poly x).degree < w := by
  rw [degree_lt_iff_coeff_zero]
  intro i hi
  rw [coeff_poly, BitVec.getLsbD_of_ge x i hi]
  rfl

theorem poly_zero : poly 0#w = 0 := by
  ext i
  simp [coeff_poly]

theorem poly_xor (x y : BitVec w) : poly (x ^^^ y) = poly x + poly y := by
  ext i
  simp only [coeff_poly, coeff_add, BitVec.getLsbD_xor]
  cases x.getLsbD i <;> cases y.getLsbD i <;> decide

/-- The bit that leaves at the top is the coefficient of `x^w`. -/
theorem poly_shiftLeft_one (c : BitVec w) :
    poly (c <<< 1) + (if c.msb then X ^ w else 0) = X * poly c := by
  ext i
  cases i with
  | zero =>
    cases w with
    | zero =>
      obtain rfl := BitVec.eq_nil c
      simp [coeff_poly]
    | succ w => cases c.msb <;> simp [coeff_poly]
  | succ i =>
    rw [coeff_X_mul, coeff_add, coeff_poly, coeff_poly, BitVec.getLsbD_shiftLeft]
    rcases Nat.lt_trichotomy (i + 1) w with hlt | rfl | hgt
    · cases c.msb <;> simp [hlt, coeff_X_pow, hlt.ne]
    · have hmsb : c.msb = c.getLsbD i := by simp [BitVec.msb_eq_getLsbD_last]
      rw [hmsb]
      cases c.getLsbD i <;> simp
    · have hout : c.getLsbD i = false := BitVec.getLsbD_of_ge c i (by omega)
      cases c.msb <;> simp [hout, hgt.ne', coeff_X_pow, not_lt_of_gt hgt]

/-- A word in two parts. -/
theorem poly_split (x : BitVec w) (v : Nat) :
    poly x = poly ((x >>> v).setWidth (w - v)) * X ^ v + poly (x.setWidth v) := by
  ext i
  simp only [coeff_add, coeff_mul_X_pow', coeff_poly, BitVec.getLsbD_setWidth,
    BitVec.getLsbD_ushiftRight]
  by_cases hi : v ≤ i
  · have hlow : decide (i < v) = false := by simpa using hi
    rw [if_pos hi, hlow, Nat.add_sub_cancel' hi]
    by_cases hw : i < w
    · have hhigh : i - v < w - v := by omega
      simp [hhigh]
    · simp [BitVec.getLsbD_of_ge x i (Nat.le_of_not_lt hw)]
  · have hlow : decide (i < v) = true := by simpa using hi
    rw [if_neg hi, hlow, Bool.true_and, zero_add]

/-- A word moved up without loss. -/
theorem poly_shiftLeft (b : BitVec v) (h : v ≤ w) :
    poly (b.setWidth w <<< (w - v)) = poly b * X ^ (w - v) := by
  ext i
  rw [coeff_mul_X_pow', coeff_poly, BitVec.getLsbD_shiftLeft, BitVec.getLsbD_setWidth]
  by_cases hi : w - v ≤ i
  · have hge : ¬i < w - v := by omega
    rw [if_pos hi, coeff_poly]
    by_cases hw : i < w
    · have hlt : i - (w - v) < w := by omega
      simp [hw, hge, hlt]
    · simp [hw, BitVec.getLsbD_of_ge b (i - (w - v)) (by omega)]
  · have hlt : i < w - v := by omega
    simp [hi, hlt]

theorem messagePoly_append (bs cs : List (BitVec v)) :
    messagePoly (bs ++ cs) = messagePoly bs * X ^ (v * cs.length) + messagePoly cs := by
  induction bs with
  | nil => simp [messagePoly]
  | cons b bs ih =>
    rw [List.cons_append, messagePoly, messagePoly, ih, List.length_append]
    ring

/-! ### Remainders -/

theorem generator_monic (g : BitVec w) : (generator g).Monic :=
  monic_X_pow_add (degree_poly_lt g)

theorem degree_generator (g : BitVec w) : (generator g).degree = w := by
  rw [generator, degree_add_eq_left_of_degree_lt]
  · exact degree_X_pow w
  · rw [degree_X_pow]
    exact degree_poly_lt g

/-- `x` is what a division of `p` by the generator leaves. -/
def Leaves (g : BitVec w) (p : (ZMod 2)[X]) (x : BitVec w) : Prop := generator g ∣ poly x - p

namespace Leaves

variable {g x : BitVec w} {p q : (ZMod 2)[X]}

theorem eq (h : Leaves g p x) : poly x = p %ₘ generator g := by
  obtain ⟨q, hq⟩ := h
  refine (div_modByMonic_unique (-q) (poly x) (generator_monic g) ⟨?_, ?_⟩).2.symm
  · linear_combination hq
  · rw [degree_generator]
    exact degree_poly_lt x

/-- Subtracting is adding, so the remainder completes a multiple of the generator. -/
theorem dvd_add (h : Leaves g p x) : generator g ∣ p + poly x := by
  obtain ⟨q, hq⟩ := h
  have htwo : p + p = 0 := CharTwo.add_self_eq_zero _
  exact ⟨q, by linear_combination hq + htwo⟩

theorem self (g x : BitVec w) : Leaves g (poly x) x := by
  rw [Leaves, sub_self]
  exact dvd_zero _

theorem xor (h : Leaves g p x) (y : BitVec w) : Leaves g (p + poly y) (x ^^^ y) := by
  rw [Leaves, poly_xor, add_sub_add_right_eq_sub]
  exact h

theorem shift (h : Leaves g p x) : Leaves g (X * p) (shift g x) := by
  obtain ⟨q, hq⟩ := h
  have hmul := poly_shiftLeft_one x
  rw [Leaves, Crc.shift]
  split
  · rename_i hmsb
    rw [if_pos hmsb] at hmul
    have htwo : poly g + poly g = 0 := CharTwo.add_self_eq_zero _
    refine ⟨X * q - 1, ?_⟩
    rw [poly_xor, generator] at *
    linear_combination hmul + X * hq + htwo
  · rename_i hmsb
    rw [if_neg hmsb, add_zero] at hmul
    refine ⟨X * q, ?_⟩
    linear_combination hmul + X * hq

theorem iterate (h : Leaves g p x) (n : Nat) : Leaves g (X ^ n * p) ((Crc.shift g)^[n] x) := by
  induction n with
  | zero => simpa using h
  | succ n ih =>
    rw [Function.iterate_succ_apply', pow_succ', mul_assoc]
    exact ih.shift

end Leaves

/-! ### Messages -/

/-- The remainder `c` after one more word of a message. -/
def absorb (g c : BitVec w) (b : BitVec v) : BitVec w :=
  (shift g)^[v] (c ^^^ (b.setWidth w <<< (w - v)))

theorem Leaves.absorb {g c : BitVec w} {p : (ZMod 2)[X]} (hv : v ≤ w)
    (h : Leaves g (p * X ^ w) c) (b : BitVec v) :
    Leaves g ((p * X ^ v + poly b) * X ^ w) (absorb g c b) := by
  have hstep := (h.xor (b.setWidth w <<< (w - v))).iterate v
  rw [poly_shiftLeft b hv] at hstep
  have hpow : (X : (ZMod 2)[X]) ^ (w - v) * X ^ v = X ^ w := pow_sub_mul_pow X hv
  have hsum : (X : (ZMod 2)[X]) ^ v * (p * X ^ w + poly b * X ^ (w - v)) =
      (p * X ^ v + poly b) * X ^ w := by
    linear_combination poly b * hpow
  rwa [hsum] at hstep

theorem leaves_foldl {g c : BitVec w} {p : (ZMod 2)[X]} (hv : v ≤ w)
    (h : Leaves g (p * X ^ w) c) (message : List (BitVec v)) :
    Leaves g ((p * X ^ (v * message.length) + messagePoly message) * X ^ w)
      (message.foldl (absorb g) c) := by
  induction message generalizing c p with
  | nil => simpa [messagePoly] using h
  | cons b bs ih =>
    have hrest := ih (h.absorb hv b)
    have hsum : (p * X ^ v + poly b) * X ^ (v * bs.length) + messagePoly bs =
        p * X ^ (v * (b :: bs).length) + messagePoly (b :: bs) := by
      rw [messagePoly, List.length_cons]
      ring
    rwa [hsum] at hrest

/-- A message, a word at a time from the remainder 0. -/
theorem leaves_message (g : BitVec w) (hv : v ≤ w) (message : List (BitVec v)) :
    Leaves g (messagePoly message * X ^ w) (message.foldl (absorb g) 0#w) := by
  have hzero : Leaves g (0 * X ^ w) 0#w := by
    rw [zero_mul, ← poly_zero]
    exact Leaves.self g 0#w
  have hrun := leaves_foldl hv hzero message
  rwa [zero_mul, zero_add] at hrun

/-- A message followed by the words of its remainder leaves 0. -/
theorem foldl_absorb_trailer (g : BitVec w) (hv : v ≤ w) (message trailer : List (BitVec v))
    (hlen : v * trailer.length = w)
    (htrailer : messagePoly trailer = poly (message.foldl (absorb g) 0#w)) :
    (message ++ trailer).foldl (absorb g) 0#w = 0#w := by
  have hall := leaves_message g hv (message ++ trailer)
  rw [messagePoly_append, hlen, htrailer] at hall
  apply poly_injective
  rw [poly_zero, hall.eq, modByMonic_eq_zero_iff_dvd (generator_monic g)]
  exact dvd_mul_of_dvd_left (leaves_message g hv message).dvd_add _

end VhomeBridge.Lib.Crc
