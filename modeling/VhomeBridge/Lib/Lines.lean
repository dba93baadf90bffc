import Mathlib.Data.List.Induction

/-! The lines of a stream: the parts that a separator ends, and the part after the last separator,
which is not finished yet. -/

namespace VhomeBridge.Lib

variable {α : Type*} [DecidableEq α] {sep c : α} {s : List α}

/-- The lines that are complete. -/
def finished (sep : α) (s : List α) : List (List α) := (s.splitOn sep).dropLast

/-- The line that is not. -/
def unfinished (sep : α) (s : List α) : List α :=
  (s.splitOn sep).getLast (List.splitOn_ne_nil sep s)

theorem splitOn_eq_finished (sep : α) (s : List α) :
    s.splitOn sep = finished sep s ++ [unfinished sep s] :=
  (List.dropLast_concat_getLast (List.splitOn_ne_nil sep s)).symm

theorem splitOn_snoc (h : c ≠ sep) (s : List α) :
    (s ++ [c]).splitOn sep = finished sep s ++ [unfinished sep s ++ [c]] := by
  induction s with
  | nil => simp [finished, unfinished, List.splitOn_cons_eq_if_modifyHead, h]
  | cons a s ih =>
    have hcons := List.splitOn_cons_eq_if_modifyHead (a := sep) a s
    rw [splitOn_eq_finished, splitOn_eq_finished sep s] at hcons
    rw [List.cons_append, List.splitOn_cons_eq_if_modifyHead, ih]
    split at hcons
    · rw [if_pos ‹_›]
      have hcons : finished sep (a :: s) ++ [_] = [] :: finished sep s ++ [_] := hcons
      obtain ⟨hinit, hlast⟩ := List.append_singleton_inj.mp hcons
      rw [hinit, hlast, List.cons_append]
    · rw [if_neg ‹_›]
      cases hinit : finished sep s with
      | nil =>
        rw [hinit] at hcons
        have hcons : finished sep (a :: s) ++ [_] = [] ++ [a :: unfinished sep s] := hcons
        obtain ⟨hleft, hlast⟩ := List.append_singleton_inj.mp hcons
        rw [hleft, hlast]
        rfl
      | cons l ls =>
        rw [hinit] at hcons
        have hcons : finished sep (a :: s) ++ [_] = (a :: l) :: ls ++ [unfinished sep s] := hcons
        obtain ⟨hleft, hlast⟩ := List.append_singleton_inj.mp hcons
        rw [hleft, hlast]
        rfl

theorem finished_nil : finished sep [] = [] := rfl

theorem unfinished_nil : unfinished sep [] = [] := rfl

theorem split_sep (sep : α) (s : List α) :
    finished sep (s ++ [sep]) = finished sep s ++ [unfinished sep s] ∧
      unfinished sep (s ++ [sep]) = [] := by
  have hsplit := List.splitOn_append_cons_self s [] (a := sep)
  rw [List.splitOn_nil, splitOn_eq_finished, splitOn_eq_finished sep s] at hsplit
  exact List.append_singleton_inj.mp hsplit

theorem finished_sep (sep : α) (s : List α) :
    finished sep (s ++ [sep]) = finished sep s ++ [unfinished sep s] := (split_sep sep s).1

theorem unfinished_sep (sep : α) (s : List α) : unfinished sep (s ++ [sep]) = [] :=
  (split_sep sep s).2

theorem split_snoc (h : c ≠ sep) (s : List α) :
    finished sep (s ++ [c]) = finished sep s ∧
      unfinished sep (s ++ [c]) = unfinished sep s ++ [c] := by
  have hsplit := splitOn_snoc h s
  rw [splitOn_eq_finished] at hsplit
  exact List.append_singleton_inj.mp hsplit

theorem finished_snoc (h : c ≠ sep) (s : List α) : finished sep (s ++ [c]) = finished sep s :=
  (split_snoc h s).1

theorem unfinished_snoc (h : c ≠ sep) (s : List α) :
    unfinished sep (s ++ [c]) = unfinished sep s ++ [c] := (split_snoc h s).2

/-- A whole line behind a stream. -/
theorem split_line {l : List α} (h : sep ∉ l) (s : List α) :
    finished sep (s ++ (l ++ [sep])) = finished sep s ++ [unfinished sep s ++ l] ∧
      unfinished sep (s ++ (l ++ [sep])) = [] := by
  have hline : finished sep (s ++ l) = finished sep s ∧
      unfinished sep (s ++ l) = unfinished sep s ++ l := by
    induction l using List.reverseRecOn with
    | nil => simp
    | append_singleton l c ih =>
      rw [List.mem_append, not_or, List.mem_singleton] at h
      obtain ⟨hfinished, hunfinished⟩ := ih h.1
      rw [← List.append_assoc, finished_snoc (Ne.symm h.2), unfinished_snoc (Ne.symm h.2),
        hfinished, hunfinished]
      exact ⟨rfl, List.append_assoc ..⟩
  rw [← List.append_assoc, finished_sep, unfinished_sep, hline.1, hline.2]
  exact ⟨rfl, rfl⟩

/-- The lines of a text whose characters are replaced, none of them by the separator. -/
theorem splitOn_map {f : α → α} (hf : ∀ a, f a = sep ↔ a = sep) (s : List α) :
    (s.map f).splitOn sep = (s.splitOn sep).map (List.map f) := by
  induction s with
  | nil => rfl
  | cons a s ih =>
    obtain ⟨l, ls, hl⟩ := List.exists_cons_of_ne_nil (List.splitOn_ne_nil sep s)
    rw [List.map_cons, List.splitOn_cons_eq_if_modifyHead, List.splitOn_cons_eq_if_modifyHead, ih,
      hl]
    by_cases ha : a = sep
    · simp [ha, (hf sep).mpr rfl]
    · simp [ha, hf]

/-- The characters of the lines are those of the text that are no separators. -/
theorem exists_mem_splitOn {a : α} (hsep : a ≠ sep) (s : List α) :
    (∃ l ∈ s.splitOn sep, a ∈ l) ↔ a ∈ s := by
  induction s with
  | nil => simp
  | cons b s ih =>
    obtain ⟨l, ls, hl⟩ := List.exists_cons_of_ne_nil (List.splitOn_ne_nil sep s)
    simp only [hl, List.mem_cons, exists_eq_or_imp] at ih
    rw [List.splitOn_cons_eq_if_modifyHead, hl, List.mem_cons, ← ih]
    by_cases hb : b = sep
    · simp [hb, hsep]
    · simp [hb, or_assoc]

/-- The lines have no elements but those of the stream. -/
theorem mem_of_mem_line {l : List α} (hl : l ∈ finished sep s ++ [unfinished sep s])
    (hc : c ∈ l) : c ∈ s := by
  induction s using List.reverseRecOn generalizing l with
  | nil =>
    obtain rfl : l = [] := by simpa [finished_nil, unfinished_nil] using hl
    exact hc
  | append_singleton s a ih =>
    rw [List.mem_append, List.mem_singleton] at hl ⊢
    by_cases ha : a = sep
    · subst ha
      rw [finished_sep, unfinished_sep] at hl
      obtain hl | rfl := hl
      · exact .inl (ih hl hc)
      · simp at hc
    · rw [finished_snoc ha, unfinished_snoc ha] at hl
      obtain hl | rfl := hl
      · exact .inl (ih (List.mem_append_left _ hl) hc)
      · rw [List.mem_append, List.mem_singleton] at hc
        exact hc.imp_left (ih (by simp))

end VhomeBridge.Lib
