import Mathlib.Data.List.Basic

/-! Parts of a list at a position.  `Slice l i s` says that `s` stands in `l` from index `i` on. -/

namespace VhomeBridge.Lib

variable {α : Type*} {l s t : List α} {i : Nat} {a : α}

def Slice (l : List α) (i : Nat) (s : List α) : Prop := s <+: l.drop i

namespace Slice

theorem left (h : Slice l i (s ++ t)) : Slice l i s :=
  (List.prefix_append s t).trans h

theorem right (h : Slice l i (s ++ t)) : Slice l (i + s.length) t := by
  obtain ⟨r, hr⟩ := h
  refine ⟨r, ?_⟩
  rw [← List.drop_drop, ← hr, List.append_assoc, List.drop_left]

theorem head (h : Slice l i (a :: t)) : l[i]? = some a := by
  obtain ⟨r, hr⟩ := h
  have := congrArg List.head? hr
  simpa using this.symm

theorem tail (h : Slice l i (a :: t)) : Slice l (i + 1) t :=
  right (s := [a]) h

theorem take (h : Slice l i s) : (l.drop i).take s.length = s :=
  (List.prefix_iff_eq_take.mp h).symm

theorem length_le (h : Slice l i s) (hs : s ≠ []) : i + s.length ≤ l.length := by
  have hle := List.IsPrefix.length_le h
  have := List.length_pos_iff.mpr hs
  rw [List.length_drop] at hle
  omega

end Slice

end VhomeBridge.Lib
