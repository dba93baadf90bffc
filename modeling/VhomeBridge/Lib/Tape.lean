import Mathlib.Data.List.TakeWhile

/-! Memory as a tape: a value for every cell.  `Tape.Holds m i l` says that `l` stands in the cells
from `i` on.  A write leaves the cells outside of it alone. -/

namespace VhomeBridge.Lib

/-- The value of each cell. -/
abbrev Tape (α : Type*) := Nat → α

namespace Tape

variable {α : Type*}

/-- `l` written to the cells from `i` on. -/
def write (m : Tape α) (i : Nat) (l : List α) : Tape α :=
  fun k => if k < i then m k else l[k - i]?.getD (m k)

/-- The `n` cells from `i` on. -/
def read (m : Tape α) (i : Nat) : Nat → List α
  | 0 => []
  | n + 1 => m i :: read m (i + 1) n

/-- The cells from `i` on before the first that is `stop`, at most `fuel` of them. -/
def readTo [DecidableEq α] (stop : α) (m : Tape α) (i : Nat) : Nat → List α
  | 0 => []
  | fuel + 1 => if m i = stop then [] else m i :: readTo stop m (i + 1) fuel

def Holds (m : Tape α) (i : Nat) (l : List α) : Prop := ∀ k a, l[k]? = some a → m (i + k) = a

variable {m m' : Tape α} {i j : Nat} {l s t : List α} {a : α}

theorem write_of_lt (h : j < i) : m.write i l j = m j := if_pos h

theorem write_of_ge (h : i + l.length ≤ j) : m.write i l j = m j := by
  have hnot : ¬ j < i := by omega
  have hout : l.length ≤ j - i := by omega
  simp [write, hnot, List.getElem?_eq_none hout]

theorem write_outside (h : j < i ∨ i + l.length ≤ j) : m.write i l j = m j :=
  h.elim write_of_lt write_of_ge

theorem holds_write : (m.write i l).Holds i l := by
  intro k a hk
  have hnot : ¬ i + k < i := by omega
  simp [write, hnot, hk]

theorem Holds.frame (h : m.Holds i l) (same : ∀ k, i ≤ k → k < i + l.length → m' k = m k) :
    m'.Holds i l := by
  intro k a hk
  have hlt := (List.getElem?_eq_some_iff.mp hk).1
  rw [same (i + k) (by omega) (by omega)]
  exact h k a hk

theorem holds_append : m.Holds i (s ++ t) ↔ m.Holds i s ∧ m.Holds (i + s.length) t := by
  constructor
  · refine fun h => ⟨fun k a hk => h k a ?_, fun k a hk => ?_⟩
    · rw [List.getElem?_append_left (List.getElem?_eq_some_iff.mp hk).1, hk]
    · rw [Nat.add_assoc]
      apply h (s.length + k) a
      rw [List.getElem?_append_right (Nat.le_add_right _ _), Nat.add_sub_cancel_left, hk]
  · rintro ⟨hs, ht⟩ k a hk
    by_cases hlt : k < s.length
    · rw [List.getElem?_append_left hlt] at hk
      exact hs k a hk
    · rw [List.getElem?_append_right (by omega)] at hk
      have hcell := ht (k - s.length) a hk
      rwa [show i + s.length + (k - s.length) = i + k by omega] at hcell

theorem holds_cons : m.Holds i (a :: t) ↔ m i = a ∧ m.Holds (i + 1) t := by
  rw [← List.singleton_append, holds_append]
  refine and_congr_left fun _ => ⟨fun h => h 0 a rfl, fun h k b hk => ?_⟩
  obtain ⟨rfl, rfl⟩ : 0 = k ∧ a = b := by
    cases k with
    | zero => exact ⟨rfl, by simpa using hk⟩
    | succ k => simp at hk
  exact h

theorem Holds.take (h : m.Holds i l) (n : Nat) : m.Holds i (l.take n) := by
  rw [← List.take_append_drop n l, holds_append] at h
  exact h.1

theorem Holds.drop {n : Nat} (h : m.Holds i l) (hn : n ≤ l.length) :
    m.Holds (i + n) (l.drop n) := by
  rw [← List.take_append_drop n l, holds_append, List.length_take, Nat.min_eq_left hn] at h
  exact h.2

theorem Holds.read (h : m.Holds i l) : m.read i l.length = l := by
  induction l generalizing i with
  | nil => rfl
  | cons a l ih =>
    obtain ⟨ha, hl⟩ := holds_cons.mp h
    rw [List.length_cons, Tape.read, ha, ih hl]

@[simp] theorem length_read (m : Tape α) (i n : Nat) : (m.read i n).length = n := by
  induction n generalizing i with
  | zero => rfl
  | succ n ih => rw [Tape.read, List.length_cons, ih]

theorem read_add (m : Tape α) (i n k : Nat) :
    m.read i (n + k) = m.read i n ++ m.read (i + n) k := by
  induction n generalizing i with
  | zero => simp [Tape.read]
  | succ n ih =>
    rw [Nat.add_right_comm, Tape.read, Tape.read, ih, Nat.add_right_comm, List.cons_append,
      Nat.add_assoc]

/-- What is read stands there. -/
theorem holds_read (m : Tape α) (i n : Nat) : m.Holds i (m.read i n) := by
  induction n generalizing i with
  | zero => exact fun k a hk => by simp [Tape.read] at hk
  | succ n ih => exact holds_cons.mpr ⟨rfl, ih (i + 1)⟩

theorem Holds.readTo [DecidableEq α] {stop : α} {fuel : Nat} (h : m.Holds i l)
    (hstop : m (i + l.length) = stop) (hnone : stop ∉ l) (hfuel : l.length < fuel) :
    m.readTo stop i fuel = l := by
  induction l generalizing i fuel with
  | nil =>
    obtain ⟨fuel, rfl⟩ := Nat.exists_eq_add_one.mpr hfuel
    exact if_pos hstop
  | cons a l ih =>
    obtain ⟨fuel, rfl⟩ := Nat.exists_eq_add_one.mpr (Nat.zero_lt_of_lt hfuel)
    obtain ⟨ha, hl⟩ := holds_cons.mp h
    simp only [List.length_cons, List.mem_cons, not_or] at hstop hnone hfuel
    rw [Tape.readTo, ha, if_neg (Ne.symm hnone.1),
      ih hl (by rw [← hstop]; congr 1; omega) hnone.2 (by omega)]

/-! ### Arrays -/

/-- A write to an array of `size` cells at address 0, if it is inside. -/
def store (size : Nat) (m : Tape α) (i : Nat) (l : List α) : Option (Tape α) :=
  if i + l.length ≤ size then some (m.write i l) else none

/-- A cell of an array of `size` cells, if it is inside. -/
def load (size : Nat) (m : Tape α) (i : Nat) : Option α := if i < size then some (m i) else none

/-- The cells of an array of `size` cells from `i` on before the first that is `stop`, if one
is. -/
def string [DecidableEq α] (stop : α) (size : Nat) (m : Tape α) (i : Nat) : Option (List α) :=
  let s := m.readTo stop i (size - i)
  if i + s.length < size then some s else none

theorem store_of_le {size : Nat} (h : i + l.length ≤ size) :
    m.store size i l = some (m.write i l) := if_pos h

theorem Holds.load {size : Nat} (h : m.Holds i (a :: t)) (hi : i < size) :
    m.load size i = some a := by
  rw [Tape.load, if_pos hi, (holds_cons.mp h).1]

theorem store_of_lt {size : Nat} (h : size < i + l.length) : m.store size i l = none :=
  if_neg (by omega)

/-- Reading stops at the first `stop`, in the list or after it. -/
theorem Holds.readTo_append [DecidableEq α] {stop : α} {fuel : Nat} (h : m.Holds i (l ++ [stop]))
    (hfuel : l.length < fuel) : m.readTo stop i fuel = l.takeWhile (· ≠ stop) := by
  induction l generalizing i fuel with
  | nil =>
    obtain ⟨fuel, rfl⟩ := Nat.exists_eq_add_one.mpr hfuel
    exact if_pos (holds_cons.mp h).1
  | cons a l ih =>
    obtain ⟨fuel, rfl⟩ := Nat.exists_eq_add_one.mpr (Nat.zero_lt_of_lt hfuel)
    obtain ⟨ha, hl⟩ := holds_cons.mp h
    rw [List.length_cons, Nat.add_lt_add_iff_right] at hfuel
    rw [Tape.readTo, ha, List.takeWhile_cons]
    by_cases hstop : a = stop
    · simp [hstop]
    · simp [hstop, ih hl hfuel]

theorem Holds.string_append [DecidableEq α] {stop : α} {size : Nat} (h : m.Holds i (l ++ [stop]))
    (hsize : i + l.length < size) : m.string stop size i = some (l.takeWhile (· ≠ stop)) := by
  have hfuel : l.length < size - i := by omega
  have hread := h.readTo_append hfuel
  have hle : (l.takeWhile (· ≠ stop)).length ≤ l.length :=
    (List.takeWhile_prefix _).length_le
  rw [Tape.string, hread]
  exact if_pos (by omega)

/-- What was read: a string without `stop`, and `stop` after it. -/
theorem readTo_spec [DecidableEq α] {stop : α} {fuel : Nat}
    (h : (m.readTo stop i fuel).length < fuel) :
    m.Holds i (m.readTo stop i fuel ++ [stop]) ∧ stop ∉ m.readTo stop i fuel := by
  induction fuel generalizing i with
  | zero => exact absurd h (Nat.not_lt_zero _)
  | succ fuel ih =>
    rw [readTo] at h ⊢
    by_cases hstop : m i = stop
    · rw [if_pos hstop] at h ⊢
      exact ⟨holds_cons.mpr ⟨hstop, fun k a hk => by simp at hk⟩, List.not_mem_nil⟩
    · rw [if_neg hstop, List.length_cons, Nat.add_lt_add_iff_right] at h
      rw [if_neg hstop]
      obtain ⟨hholds, hnot⟩ := ih h
      exact ⟨holds_cons.mpr ⟨rfl, hholds⟩, by simpa [hnot] using fun heq => hstop heq.symm⟩

theorem string_some [DecidableEq α] {stop : α} {size : Nat} (h : m.string stop size i = some s) :
    i + s.length < size ∧ m.Holds i (s ++ [stop]) ∧ stop ∉ s := by
  rw [Tape.string, Option.ite_none_right_eq_some, Option.some.injEq] at h
  obtain ⟨hlt, rfl⟩ := h
  have hread : (m.readTo stop i (size - i)).length < size - i := by omega
  exact ⟨hlt, readTo_spec hread⟩

theorem readTo_length_lt_iff [DecidableEq α] {stop : α} {fuel : Nat} :
    (m.readTo stop i fuel).length < fuel ↔ ∃ k < fuel, m (i + k) = stop := by
  induction fuel generalizing i with
  | zero => simp [readTo]
  | succ fuel ih =>
    rw [readTo]
    by_cases hstop : m i = stop
    · rw [if_pos hstop]
      exact iff_of_true (Nat.succ_pos fuel) ⟨0, Nat.succ_pos fuel, hstop⟩
    · rw [if_neg hstop, List.length_cons, Nat.add_lt_add_iff_right, ih]
      constructor
      · rintro ⟨k, hk, hcell⟩
        refine ⟨k + 1, Nat.succ_lt_succ hk, ?_⟩
        rwa [show i + (k + 1) = i + 1 + k by omega]
      · rintro ⟨k, hk, hcell⟩
        cases k with
        | zero => exact absurd hcell hstop
        | succ k =>
          refine ⟨k, Nat.lt_of_succ_lt_succ hk, ?_⟩
          rwa [show i + 1 + k = i + (k + 1) by omega]

/-- A string can be read exactly if `stop` stands behind it inside the array. -/
theorem string_isSome_iff [DecidableEq α] {stop : α} {size : Nat} :
    (m.string stop size 0).isSome ↔ ∃ k < size, m k = stop := by
  have hread : (m.readTo stop 0 size).length < size ↔ ∃ k < size, m (0 + k) = stop :=
    readTo_length_lt_iff
  simp only [Nat.zero_add] at hread
  rw [string, Nat.sub_zero, Nat.zero_add]
  split
  · rename_i hlt
    exact iff_of_true rfl (hread.mp hlt)
  · rename_i hlt
    exact iff_of_false Bool.false_ne_true fun h => hlt (hread.mpr h)

theorem holds_nil : m.Holds i [] := fun k a hk => by simp at hk

theorem takeWhile_ne [DecidableEq α] {stop : α} (h : stop ∉ s) :
    s.takeWhile (· ≠ stop) = s := by
  apply List.takeWhile_eq_self_iff.mpr
  intro a ha
  simpa using fun heq : a = stop => h (heq ▸ ha)

/-- Two strings that end at the first `stop` of the same cells. -/
theorem Holds.string_unique [DecidableEq α] {stop : α} (hs : m.Holds i (s ++ [stop]))
    (ht : m.Holds i (t ++ [stop])) (hs' : stop ∉ s) (ht' : stop ∉ t) : s = t := by
  have hread := hs.readTo_append (show s.length < s.length + t.length + 1 by omega)
  rw [ht.readTo_append (by omega), takeWhile_ne hs', takeWhile_ne ht'] at hread
  exact hread.symm

/-- A write right after what the cells hold, and at its end. -/
theorem Holds.write_append (h : m.Holds i l) : (m.write (i + l.length) t).Holds i (l ++ t) :=
  holds_append.mpr ⟨h.frame fun _ _ hlt => write_of_lt hlt, holds_write⟩

end Tape

end VhomeBridge.Lib
