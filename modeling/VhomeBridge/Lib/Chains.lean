import Mathlib.Data.List.Nodup
import Mathlib.Data.List.Basic
import Mathlib.Data.List.Perm.Basic

/-! Chained hash tables.  A table is a list of chains, and `slot x n` is the chain of an item in a
table of `n` chains.  Where each item lies in its chain, a search in the chain of a key finds an
item exactly if the table holds it, in whatever order items were added and however often the table
was rebuilt. -/

namespace VhomeBridge.Lib

variable {α : Type*}

/-- A table of chains. -/
abbrev Chains (α : Type*) := List (List α)

namespace Chains

def items (t : Chains α) : List α := t.flatten

/-- The first item that meets the test in chain `i`. -/
def find (t : Chains α) (i : Nat) (p : α → Bool) : Option α := t[i]?.bind (·.find? p)

/-- An item put at the front of its chain. -/
def add (slot : α → Nat → Nat) (t : Chains α) (x : α) : Chains α :=
  t.modify (slot x t.length) (x :: ·)

/-- The first item that meets the test replaced by its image. -/
def replaceFirst (p : α → Bool) (f : α → α) : List α → List α
  | [] => []
  | x :: xs => if p x then f x :: xs else x :: replaceFirst p f xs

def update (t : Chains α) (i : Nat) (p : α → Bool) (f : α → α) : Chains α :=
  t.modify i (replaceFirst p f)

/-- The first item of chain `i` that meets the test taken out. -/
def remove (t : Chains α) (i : Nat) (p : α → Bool) : Chains α := t.modify i (List.eraseP p)

def rebuild (slot : α → Nat → Nat) (n : Nat) (xs : List α) : Chains α :=
  xs.foldl (add slot) (List.replicate n [])

/-- Each item lies in its chain. -/
def Placed (slot : α → Nat → Nat) (t : Chains α) : Prop :=
  ∀ (i : Nat) (chain : List α), t[i]? = some chain → ∀ x ∈ chain, slot x t.length = i

section

variable {slot : α → Nat → Nat} {t : Chains α} {x y : α} {p : α → Bool} {i n : Nat}
  {chain : List α}

theorem mem_items : x ∈ t.items ↔ ∃ (i : Nat) (chain : List α), t[i]? = some chain ∧ x ∈ chain := by
  rw [items, List.mem_flatten]
  constructor
  · rintro ⟨chain, hchain, hx⟩
    obtain ⟨i, hi⟩ := List.mem_iff_getElem?.mp hchain
    exact ⟨i, chain, hi, hx⟩
  · rintro ⟨i, chain, hi, hx⟩
    exact ⟨chain, List.mem_of_getElem? hi, hx⟩

@[simp] theorem length_add : (t.add slot x).length = t.length := by simp [add]

@[simp] theorem length_update (f : α → α) : (t.update i p f).length = t.length := by
  simp [update]

@[simp] theorem length_remove : (t.remove i p).length = t.length := by simp [remove]

@[simp] theorem length_rebuild (xs : List α) : (rebuild slot n xs).length = n := by
  have (t : Chains α) : (xs.foldl (add slot) t).length = t.length := by
    induction xs generalizing t with
    | nil => rfl
    | cons x xs ih => rw [List.foldl_cons, ih, length_add]
  simp [rebuild, this]

/-! ### The items after each operation -/

theorem items_add (h : slot x t.length < t.length) : (t.add slot x).items.Perm (x :: t.items) := by
  obtain ⟨before, chain, after, rfl, -, hmodify⟩ := List.exists_of_modify (x :: ·) h
  rw [add, hmodify, items, items]
  simp only [List.flatten_append, List.flatten_cons, List.cons_append]
  exact List.perm_middle

theorem items_rebuild (hslot : ∀ x, slot x n < n) (xs : List α) :
    (rebuild slot n xs).items.Perm xs := by
  have (t : Chains α) (ht : t.length = n) :
      (xs.foldl (add slot) t).items.Perm (xs ++ t.items) := by
    induction xs generalizing t with
    | nil => exact .refl _
    | cons x xs ih =>
      have hadd : (t.add slot x).items.Perm (x :: t.items) := items_add (by rw [ht]; exact hslot x)
      rw [List.foldl_cons, List.cons_append]
      exact ((ih _ (by simp [ht])).trans (hadd.append_left xs)).trans List.perm_middle
  simpa [rebuild, items] using this (List.replicate n []) (by simp)

theorem replaceFirst_split {f : α → α} (h : chain.find? p = some x) :
    ∃ before after, chain = before ++ x :: after ∧
      replaceFirst p f chain = before ++ f x :: after := by
  induction chain with
  | nil => simp at h
  | cons z chain ih =>
    by_cases hz : p z = true
    · obtain rfl : z = x := by simpa [hz] using h
      exact ⟨[], chain, rfl, by simp [replaceFirst, hz]⟩
    · rw [List.find?_cons_of_neg hz] at h
      obtain ⟨before, after, rfl, hreplace⟩ := ih h
      exact ⟨z :: before, after, rfl, by simp [replaceFirst, hz, hreplace]⟩

/-- An update changes the item that a search finds, and no other. -/
theorem items_update {f : α → α} (h : t.find i p = some x) :
    ∃ before after, t.items = before ++ x :: after ∧
      (t.update i p f).items = before ++ f x :: after := by
  simp only [find, Option.bind_eq_some_iff] at h
  obtain ⟨chain, hchain, hfind⟩ := h
  obtain ⟨hi, -⟩ := List.getElem?_eq_some_iff.mp hchain
  obtain ⟨left, chain', right, rfl, hlength, hmodify⟩ :=
    List.exists_of_modify (replaceFirst p f) hi
  obtain rfl : chain' = chain := by simpa [← hlength] using hchain
  obtain ⟨before, after, rfl, hreplace⟩ := replaceFirst_split (f := f) hfind
  refine ⟨left.flatten ++ before, after ++ right.flatten, ?_, ?_⟩
  · simp [items]
  · rw [update, hmodify, items, hreplace]
    simp

/-- A removal takes out the item that a search finds, and no other. -/
theorem items_remove (h : t.find i p = some x) :
    ∃ before after, t.items = before ++ x :: after ∧ (t.remove i p).items = before ++ after := by
  simp only [find, Option.bind_eq_some_iff] at h
  obtain ⟨chain, hchain, hfind⟩ := h
  obtain ⟨hi, -⟩ := List.getElem?_eq_some_iff.mp hchain
  obtain ⟨left, chain', right, rfl, hlength, hmodify⟩ := List.exists_of_modify (List.eraseP p) hi
  obtain rfl : chain' = chain := by simpa [← hlength] using hchain
  obtain ⟨hp, before, after, rfl, hbefore⟩ := List.find?_eq_some_iff_append.mp hfind
  have herase : (before ++ x :: after).eraseP p = before ++ after := by
    rw [List.eraseP_append_right _ fun y hy => by simpa using hbefore y hy,
      List.eraseP_cons_of_pos hp]
  refine ⟨left.flatten ++ before, after ++ right.flatten, ?_, ?_⟩
  · simp [items]
  · rw [remove, hmodify, items, herase]
    simp

/-! ### Where the items lie -/

theorem Placed.add (h : Placed slot t) : Placed slot (t.add slot x) := by
  intro j chain hj y hy
  rw [Chains.add, List.getElem?_modify] at hj
  obtain ⟨old, hold, rfl⟩ := Option.map_eq_some_iff.mp hj
  rw [length_add]
  split at hy
  · rename_i heq
    rcases List.mem_cons.mp hy with rfl | hy
    · exact heq
    · exact h j old hold y hy
  · exact h j old hold y hy

theorem Placed.rebuild (xs : List α) : Placed slot (rebuild slot n xs) := by
  have (t : Chains α) (ht : Placed slot t) : Placed slot (xs.foldl (Chains.add slot) t) := by
    induction xs generalizing t with
    | nil => exact ht
    | cons x xs ih => exact ih _ ht.add
  apply this
  intro i chain hi y hy
  obtain ⟨-, rfl⟩ : i < n ∧ [] = chain := by simpa [List.getElem?_replicate] using hi
  contradiction

theorem mem_replaceFirst {f : α → α} (h : y ∈ replaceFirst p f chain) :
    y ∈ chain ∨ ∃ z ∈ chain, y = f z := by
  induction chain with
  | nil => simp [replaceFirst] at h
  | cons z chain ih =>
    unfold replaceFirst at h
    split at h
    · rcases List.mem_cons.mp h with rfl | h
      · exact .inr ⟨z, by simp, rfl⟩
      · exact .inl (by simp [h])
    · rcases List.mem_cons.mp h with rfl | h
      · exact .inl (by simp)
      · rcases ih h with h | ⟨w, hw, rfl⟩
        · exact .inl (by simp [h])
        · exact .inr ⟨w, by simp [hw], rfl⟩

theorem Placed.update (h : Placed slot t) {f : α → α} (hf : ∀ y n, slot (f y) n = slot y n) :
    Placed slot (t.update i p f) := by
  intro j chain hj y hy
  rw [Chains.update, List.getElem?_modify] at hj
  obtain ⟨old, hold, rfl⟩ := Option.map_eq_some_iff.mp hj
  rw [length_update]
  split at hy
  · rcases mem_replaceFirst hy with hy | ⟨z, hz, rfl⟩
    · exact h j old hold y hy
    · rw [hf]
      exact h j old hold z hz
  · exact h j old hold y hy

theorem Placed.remove (h : Placed slot t) : Placed slot (t.remove i p) := by
  intro j chain hj y hy
  rw [Chains.remove, List.getElem?_modify] at hj
  obtain ⟨old, hold, rfl⟩ := Option.map_eq_some_iff.mp hj
  rw [length_remove]
  split at hy
  · exact h j old hold y (List.mem_of_mem_eraseP hy)
  · exact h j old hold y hy

/-- The search in the chain of a key finds the item that the table holds for it, `p` testing for
the key. -/
theorem find_eq_some_iff (h : Placed slot t) (hslot : ∀ y, p y = true → slot y t.length = i)
    (unique : ∀ y ∈ t.items, ∀ z ∈ t.items, p y = true → p z = true → y = z) :
    t.find i p = some x ↔ x ∈ t.items ∧ p x = true := by
  constructor
  · intro hfind
    simp only [find, Option.bind_eq_some_iff] at hfind
    obtain ⟨chain, hchain, hx⟩ := hfind
    exact ⟨mem_items.mpr ⟨i, chain, hchain, List.mem_of_find?_eq_some hx⟩,
      List.find?_some hx⟩
  · rintro ⟨hx, hp⟩
    obtain ⟨j, chain, hchain, hmem⟩ := mem_items.mp hx
    obtain rfl : i = j := (hslot x hp).symm.trans (h j chain hchain x hmem)
    rw [find, hchain, Option.bind_some]
    obtain ⟨y, hy⟩ : ∃ y, chain.find? p = some y :=
      Option.isSome_iff_exists.mp (by rw [List.find?_isSome]; exact ⟨x, hmem, hp⟩)
    have hymem := mem_items.mpr ⟨i, chain, hchain, List.mem_of_find?_eq_some hy⟩
    rw [hy, unique y hymem x hx (List.find?_some hy) hp]

end

end Chains

end VhomeBridge.Lib
