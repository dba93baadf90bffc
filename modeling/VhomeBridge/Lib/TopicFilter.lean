import Mathlib.Data.List.Forall2

/-! Topics and filters of a publish-subscribe protocol.  A topic is a list of levels.  A filter is a
list of patterns: a level, any one level, or all levels from there on, which stands only at the
end. -/

namespace VhomeBridge.Lib

variable {α : Type*} [DecidableEq α]

inductive Pattern (α : Type*)
  | level (a : α)
  | one
  | rest
  deriving DecidableEq

namespace Pattern

/-- The pattern for a level of a filter, of which `plus` and `hash` are wildcards. -/
def ofLevel (plus hash a : α) : Pattern α :=
  if a = plus then one else if a = hash then rest else level a

/-- Whether a topic matches a filter. -/
def covers : List (Pattern α) → List α → Bool
  | [rest], _ => true
  | [], [] => true
  | level a :: fs, t :: ts => a == t && covers fs ts
  | one :: fs, _ :: ts => covers fs ts
  | _, _ => false

/-- The levels that a pattern for one level takes. -/
def Accepts : Pattern α → α → Prop
  | level a, t => a = t
  | one, _ => True
  | rest, _ => False

variable {plus hash a : α} {fs : List (Pattern α)} {ls ts : List α}

theorem covers_levels : covers (ls.map level) ts = true ↔ ts = ls := by
  induction ls generalizing ts with
  | nil => cases ts <;> simp [covers]
  | cons a ls ih =>
    cases ts with
    | nil => simp [covers]
    | cons t ts =>
      rw [List.map_cons, covers, Bool.and_eq_true, beq_iff_eq, ih, List.cons.injEq, eq_comm]

/-- A filter that ends with levels takes the topics that end with them, one level for each pattern
in front. -/
theorem covers_append_levels (hne : ls ≠ []) :
    covers (fs ++ ls.map level) ts = true ↔
      ∃ front, ts = front ++ ls ∧ List.Forall₂ Accepts fs front := by
  induction fs generalizing ts with
  | nil => simp [covers_levels]
  | cons f fs ih =>
    have hcons : (∃ front, ts = front ++ ls ∧ List.Forall₂ Accepts (f :: fs) front) ↔
        ∃ t ts', ts = t :: ts' ∧ f.Accepts t ∧
          ∃ front, ts' = front ++ ls ∧ List.Forall₂ Accepts fs front := by
      constructor
      · rintro ⟨front, rfl, hfront⟩
        obtain ⟨t, front', ht, hfront', rfl⟩ := List.forall₂_cons_left_iff.mp hfront
        exact ⟨t, front' ++ ls, rfl, ht, front', rfl, hfront'⟩
      · rintro ⟨t, ts', rfl, ht, front, rfl, hfront⟩
        exact ⟨t :: front, rfl, .cons ht hfront⟩
    rw [hcons]
    cases f with
    | level a =>
      cases ts with
      | nil => simp [covers]
      | cons t ts =>
        rw [List.cons_append, covers, Bool.and_eq_true, beq_iff_eq, ih]
        constructor
        · rintro ⟨ha, h⟩
          exact ⟨t, ts, rfl, ha, h⟩
        · rintro ⟨t', ts', heq, ha, h⟩
          obtain ⟨rfl, rfl⟩ := List.cons.inj heq
          exact ⟨ha, h⟩
    | one =>
      cases ts with
      | nil => simp [covers]
      | cons t ts => simp [covers, Accepts, ih]
    | rest =>
      obtain ⟨g, gs, hg⟩ := List.exists_cons_of_ne_nil
        (show fs ++ ls.map level ≠ [] by simp [hne])
      simp [hg, covers, Accepts]

/-- A topic that is accepted level by level matches. -/
theorem covers_of_accepts (h : List.Forall₂ Accepts fs ts) : covers fs ts = true := by
  induction h with
  | nil => rfl
  | @cons f t fs ts hf _ ih =>
    cases f with
    | level a =>
      obtain rfl : a = t := hf
      rw [covers, ih, Bool.and_true, beq_self_eq_true]
    | one => exact ih
    | rest => exact absurd hf id

end Pattern

end VhomeBridge.Lib
