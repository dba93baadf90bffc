import Mathlib.Data.List.Basic

/-! Partial functions on a state that are defined under a condition that does not depend on it.
The condition of a sequence is that of all its parts. -/

namespace VhomeBridge.Lib

variable {σ α β : Type*} {p q : Prop} {f f' : σ → Option σ} {g g' : σ → σ}

/-- `f` is defined exactly if `p` holds, whatever the state, and is then `g`. -/
def DefinedIf (p : Prop) (f : σ → Option σ) (g : σ → σ) : Prop :=
  ∀ s s', f s = some s' ↔ p ∧ g s = s'

namespace DefinedIf

theorem andThen (h : DefinedIf p f g) (h' : DefinedIf q f' g') :
    DefinedIf (p ∧ q) (fun s => (f s).bind f') fun s => g' (g s) := by
  intro s s'
  rw [Option.bind_eq_some_iff]
  constructor
  · rintro ⟨t, ht, ht'⟩
    obtain ⟨hp, rfl⟩ := (h s t).mp ht
    obtain ⟨hq, hs'⟩ := (h' _ s').mp ht'
    exact ⟨⟨hp, hq⟩, hs'⟩
  · rintro ⟨⟨hp, hq⟩, hs'⟩
    exact ⟨g s, (h s _).mpr ⟨hp, rfl⟩, (h' _ s').mpr ⟨hq, hs'⟩⟩

theorem foldlM {p : α → Prop} {f : σ → α → Option σ} {g : σ → α → σ}
    (h : ∀ a, DefinedIf (p a) (fun s => f s a) fun s => g s a) (l : List α) :
    DefinedIf (∀ a ∈ l, p a) (fun s => l.foldlM f s) fun s => l.foldl g s := by
  induction l with
  | nil =>
    intro s s'
    simp
  | cons a l ih =>
    intro s s'
    have hcons := (h a).andThen ih s s'
    rw [List.forall_mem_cons]
    exact hcons

theorem congr (h : DefinedIf p f g) (hp : p ↔ q) (hg : ∀ s, g s = g' s) : DefinedIf q f g' := by
  intro s s'
  rw [h s s', hp, hg]

theorem forall_eq_iff [Nonempty σ] (h : DefinedIf p f g) : (∀ s, f s = some (g s)) ↔ p := by
  obtain ⟨s⟩ := ‹Nonempty σ›
  exact ⟨fun hall => ((h s _).mp (hall s)).1, fun hp s => (h s _).mpr ⟨hp, rfl⟩⟩

end DefinedIf

/-- The last value that a list of items gives, or else `old`. -/
def lastOf (f : α → Option β) (items : List α) (old : β) : β :=
  (items.filterMap f).getLast?.getD old

@[simp] theorem lastOf_nil (f : α → Option β) (old : β) : lastOf f [] old = old := rfl

@[simp] theorem lastOf_singleton (f : α → Option β) (a : α) (old : β) :
    lastOf f [a] old = (f a).getD old := by
  cases h : f a <;> simp [lastOf, h]

theorem lastOf_map {γ : Type*} (f : α → Option β) (g : β → γ) (items : List α) (old : β) :
    lastOf (fun a => (f a).map g) items (g old) = g (lastOf f items old) := by
  rw [lastOf, lastOf, ← List.map_filterMap, List.getLast?_map]
  cases (items.filterMap f).getLast? <;> rfl

@[simp] theorem lastOf_snoc (f : α → Option β) (items : List α) (a : α) (old : β) :
    lastOf f (items ++ [a]) old = (f a).getD (lastOf f items old) := by
  cases h : f a <;> simp [lastOf, h]

theorem exists_of_getLast?_filterMap {f : α → Option β} {items : List α} {b : β}
    (h : (items.filterMap f).getLast? = some b) : ∃ a ∈ items, f a = some b :=
  List.mem_filterMap.mp (List.mem_of_getLast? h)

/-- The last value is the old one or given by an item. -/
theorem lastOf_cases (f : α → Option β) (items : List α) (old : β) :
    lastOf f items old = old ∨ ∃ a ∈ items, f a = some (lastOf f items old) := by
  rw [lastOf]
  cases h : (items.filterMap f).getLast? with
  | none => exact .inl rfl
  | some b => exact .inr (exists_of_getLast?_filterMap h)

theorem getLast?_filterMap_snoc (f : α → Option β) (items : List α) (a : α) :
    ((items ++ [a]).filterMap f).getLast? = (f a).or (items.filterMap f).getLast? := by
  cases h : f a <;> simp [h]

end VhomeBridge.Lib
