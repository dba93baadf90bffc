import Mathlib.Data.List.Basic

/-! A list cut into blocks of `m` elements, the last of them shorter when the length is no multiple
of `m`, and the blocks filled up to `m` elements. -/

namespace VhomeBridge.Lib

variable {α : Type*} {m : Nat}

/-- The blocks of `m` elements of a list, the last one the rest of the list. -/
def blocks (m : Nat) (xs : List α) : List (List α) :=
  if m = 0 ∨ xs = [] then [] else xs.take m :: blocks m (xs.drop m)
termination_by xs.length
decreasing_by
  rename_i h
  have hlen := List.length_pos_iff.mpr (not_or.mp h).2
  simp only [List.length_drop]
  omega

@[simp] theorem blocks_nil : blocks m ([] : List α) = [] := by simp [blocks]

theorem blocks_of_ne_nil (hm : 0 < m) {xs : List α} (h : xs ≠ []) :
    blocks m xs = xs.take m :: blocks m (xs.drop m) := by
  rw [blocks, if_neg (by simp [h]; omega)]

theorem blocks_short {xs : List α} (h : xs ≠ []) (hlen : xs.length ≤ m) : blocks m xs = [xs] := by
  have hpos := List.length_pos_iff.mpr h
  rw [blocks_of_ne_nil (by omega) h, List.take_of_length_le hlen, List.drop_of_length_le hlen,
    blocks_nil]

theorem blocks_flatten (hm : 0 < m) (xs : List α) : (blocks m xs).flatten = xs := by
  fun_induction blocks m xs with
  | case1 xs h =>
    obtain rfl : xs = [] := h.resolve_left (by omega)
    rfl
  | case2 xs h ih => rw [List.flatten_cons, ih, List.take_append_drop]

theorem blocks_length (hm : 0 < m) (xs : List α) :
    (blocks m xs).length = (xs.length + m - 1) / m := by
  fun_induction blocks m xs with
  | case1 xs h =>
    obtain rfl : xs = [] := h.resolve_left (by omega)
    simpa using (Nat.div_eq_of_lt (by omega)).symm
  | case2 xs h ih =>
    have hpos := List.length_pos_iff.mpr (not_or.mp h).2
    rw [List.length_cons, ih, List.length_drop]
    by_cases hle : m ≤ xs.length
    · rw [← Nat.add_div_right _ hm]
      congr 1
      omega
    · have hone : (xs.length + m - 1) / m = 1 := Nat.div_eq_of_lt_le (by omega) (by omega)
      rw [show xs.length - m = 0 by omega, Nat.div_eq_of_lt (by omega : 0 + m - 1 < m), hone]

/-- A list whose length is a multiple of `m` is cut independently of what follows it. -/
theorem blocks_append (hm : 0 < m) {xs : List α} (ys : List α) (h : m ∣ xs.length) :
    blocks m (xs ++ ys) = blocks m xs ++ blocks m ys := by
  fun_induction blocks m xs with
  | case1 xs hnil =>
    obtain rfl : xs = [] := hnil.resolve_left (by omega)
    simp
  | case2 xs hne ih =>
    have hle := Nat.le_of_dvd (List.length_pos_iff.mpr (not_or.mp hne).2) h
    have hdrop : m ∣ (xs.drop m).length := by
      rw [List.length_drop]
      exact Nat.dvd_sub h (Nat.dvd_refl m)
    rw [blocks_of_ne_nil hm (by simp [(not_or.mp hne).2]), List.take_append_of_le_length hle,
      List.drop_append_of_le_length hle, ih hdrop, List.cons_append]

/-- A block filled up to `m` elements with `z`. -/
def fill (m : Nat) (z : α) (b : List α) : List α := b ++ List.replicate (m - b.length) z

theorem length_fill {z : α} {b : List α} (h : b.length ≤ m) : (fill m z b).length = m := by
  simp only [fill, List.length_append, List.length_replicate]
  omega

/-- The filled blocks of a list are the list followed by fewer than `m` fillers. -/
theorem fill_blocks_flatten (hm : 0 < m) (z : α) (xs : List α) :
    ∃ p < m, ((blocks m xs).map (fill m z)).flatten = xs ++ List.replicate p z := by
  fun_induction blocks m xs with
  | case1 xs h =>
    obtain rfl : xs = [] := h.resolve_left (by omega)
    exact ⟨0, hm, rfl⟩
  | case2 xs h ih =>
    have hpos := List.length_pos_iff.mpr (not_or.mp h).2
    by_cases hle : m ≤ xs.length
    · obtain ⟨p, hp, heq⟩ := ih
      have hfull : fill m z (xs.take m) = xs.take m := by
        simp [fill, List.length_take, Nat.min_eq_left hle]
      refine ⟨p, hp, ?_⟩
      rw [List.map_cons, List.flatten_cons, heq, hfull, ← List.append_assoc,
        List.take_append_drop]
    · refine ⟨m - xs.length, by omega, ?_⟩
      rw [List.take_of_length_le (by omega), List.drop_of_length_le (by omega), blocks_nil]
      simp [fill]

end VhomeBridge.Lib
