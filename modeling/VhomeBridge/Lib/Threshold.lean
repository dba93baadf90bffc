import Mathlib.Algebra.Group.Int.Defs
import Mathlib.Data.List.Chain

/-! Reports of progress.  A value is reported when it has reached a threshold, which then rises by
`d`.  The `k`th report is at least `k` steps above the first threshold; and while no value skips a
band of width `d`, the reports are the first values of the bands. -/

namespace VhomeBridge.Lib

variable {d threshold p : Int} {ps : List Int}

/-- The values that are reported. -/
def reported (d threshold : Int) : List Int → List Int
  | [] => []
  | p :: ps =>
    if threshold ≤ p then p :: reported d (threshold + d) ps else reported d threshold ps

theorem reported_sublist (d threshold : Int) (ps : List Int) :
    (reported d threshold ps).Sublist ps := by
  induction ps generalizing threshold with
  | nil => exact .slnil
  | cons p ps ih =>
    rw [reported]
    split
    · exact (ih _).cons_cons p
    · exact (ih _).cons p

theorem le_of_reported {k : Nat} (h : (reported d threshold ps)[k]? = some p) :
    threshold + d * k ≤ p := by
  induction ps generalizing threshold k with
  | nil => simp [reported] at h
  | cons q ps ih =>
    rw [reported] at h
    split at h
    · cases k with
      | zero =>
        obtain rfl : q = p := by simpa using h
        simpa
      | succ k =>
        have := ih (k := k) (by simpa using h)
        rw [Int.natCast_succ, Int.mul_add]
        omega
    · exact ih h

/-- The values do not fall, and skip no band of width `d`. -/
def Gradual (d : Int) (ps : List Int) : Prop :=
  ps.IsChain fun p q => p ≤ q ∧ q / d ≤ p / d + 1

/-- From a value on, the reports are one for each band that is entered. -/
theorem reported_bands (hd : 0 < d) (h : Gradual d (p :: ps)) :
    ∃ n : Nat, (reported d (d * (p / d + 1)) ps).map (· / d) =
        (List.range n).map (fun k : Nat => p / d + 1 + k) ∧
      ((p :: ps).getLast (List.cons_ne_nil p ps)) / d = p / d + n := by
  induction ps generalizing p with
  | nil => exact ⟨0, rfl, by simp⟩
  | cons q ps ih =>
    rw [Gradual, List.isChain_cons_cons] at h
    obtain ⟨⟨hle, hband⟩, hrest⟩ := h
    obtain ⟨n, hreports, hlast⟩ := ih hrest
    have hmono : p / d ≤ q / d := Int.ediv_le_ediv hd hle
    have hreached : d * (p / d + 1) ≤ q ↔ p / d + 1 ≤ q / d := by
      rw [Int.le_ediv_iff_mul_le hd, Int.mul_comm]
    rw [reported]
    split
    · rename_i hq
      have hnext : q / d = p / d + 1 := Int.le_antisymm hband (hreached.mp hq)
      have hthreshold : d * (p / d + 1) + d = d * (q / d + 1) := by
        rw [hnext, Int.mul_add, Int.mul_add, Int.mul_add]
        omega
      refine ⟨n + 1, ?_, ?_⟩
      · rw [hthreshold, List.map_cons, hreports, List.range_succ_eq_map, List.map_cons,
          List.map_map, hnext]
        refine congrArg₂ _ (by simp) (List.map_congr_left fun k _ => ?_)
        simp only [Function.comp_apply, Int.natCast_succ]
        omega
      · rw [List.getLast_cons (List.cons_ne_nil q ps), hlast, hnext, Int.natCast_succ]
        omega
    · rename_i hq
      have hsame : q / d = p / d := by
        have := hreached.not.mp hq
        omega
      refine ⟨n, ?_, ?_⟩
      · rw [← hsame, hreports]
      · rw [List.getLast_cons (List.cons_ne_nil q ps), hlast, hsame]

end VhomeBridge.Lib
