import Mathlib.Data.List.Basic
import VhomeBridge.Lib.Slice

/-! Ordered forests in preorder.  `links` lists the nodes of a forest, each with the number of its
children and the index of its parent.  A forest grows on its right side only: `spine` has the nodes
that can take another child, those on the way to the last node. -/

namespace VhomeBridge.Lib

/-- A first tree, with its children, and the trees after it. -/
inductive Forest
  | nil
  | cons (kids rest : Forest)

/-- A node in preorder. -/
structure ForestNode where
  arity : Nat
  parent : Int

/-- The node with a child more. -/
def ForestNode.grow (n : ForestNode) : ForestNode := { n with arity := n.arity + 1 }

namespace Forest

/-- The number of trees. -/
def length : Forest → Nat
  | nil => 0
  | cons _ rest => rest.length + 1

/-- The number of nodes. -/
def count : Forest → Nat
  | nil => 0
  | cons kids rest => kids.count + 1 + rest.count

/-- The nodes in preorder, numbered from `base` on, below the node `parent`. -/
def links : Forest → (parent : Int) → (base : Nat) → List ForestNode
  | nil, _, _ => []
  | cons kids rest, parent, base =>
    ⟨kids.length, parent⟩ :: (kids.links base (base + 1) ++
      rest.links parent (base + 1 + kids.count))

/-- The numbers of the last root, of its last child, and so on. -/
def spine : Forest → (base : Nat) → List Nat
  | nil, _ => []
  | cons kids nil, base => base :: kids.spine (base + 1)
  | cons kids (cons kids' rest), base => (cons kids' rest).spine (base + 1 + kids.count)

/-- A tree of one node more. -/
def snoc : Forest → Forest
  | nil => cons nil nil
  | cons kids rest => cons kids rest.snoc

variable {f kids rest : Forest} {parent : Int} {base i : Nat}

@[simp] theorem length_links (f : Forest) (parent : Int) (base : Nat) :
    (f.links parent base).length = f.count := by
  induction f generalizing parent base with
  | nil => rfl
  | cons kids rest hkids hrest =>
    simp only [links, count, List.length_cons, List.length_append, hkids, hrest]
    omega

@[simp] theorem length_snoc (f : Forest) : f.snoc.length = f.length + 1 := by
  induction f with
  | nil => rfl
  | cons kids rest _ hrest => rw [snoc, length, hrest, length]

@[simp] theorem count_snoc (f : Forest) : f.snoc.count = f.count + 1 := by
  induction f with
  | nil => rfl
  | cons kids rest _ hrest =>
    rw [snoc, count, hrest, count]
    omega

theorem snoc_ne_nil (f : Forest) : f.snoc ≠ nil := by
  cases f <;> simp [snoc]

theorem links_snoc (f : Forest) (parent : Int) (base : Nat) :
    f.snoc.links parent base = f.links parent base ++ [⟨0, parent⟩] := by
  induction f generalizing base with
  | nil => rfl
  | cons kids rest _ hrest => rw [snoc, links, hrest, links, List.cons_append, List.append_assoc]

theorem spine_cons (h : rest ≠ nil) :
    (cons kids rest).spine base = rest.spine (base + 1 + kids.count) := by
  cases rest with
  | nil => contradiction
  | cons => rfl

theorem spine_snoc (f : Forest) (base : Nat) : f.snoc.spine base = [base + f.count] := by
  induction f generalizing base with
  | nil => rfl
  | cons kids rest _ hrest =>
    rw [snoc, spine_cons rest.snoc_ne_nil, hrest, count]
    simp only [List.cons.injEq, and_true]
    omega

theorem spine_bounds (h : i ∈ f.spine base) : base ≤ i ∧ i < base + f.count := by
  induction f generalizing base with
  | nil => simp [spine] at h
  | cons kids rest hkids hrest =>
    unfold count
    by_cases hnil : rest = nil
    · subst hnil
      rcases List.mem_cons.mp h with rfl | h
      · omega
      · have := hkids h
        omega
    · rw [spine_cons hnil] at h
      have := hrest h
      omega

/-- The last node is on the spine. -/
theorem last_mem_spine (base : Nat) (h : f ≠ nil) : base + f.count - 1 ∈ f.spine base := by
  induction f generalizing base with
  | nil => contradiction
  | cons kids rest hkids hrest =>
    unfold count
    by_cases hnil : rest = nil
    · subst hnil
      by_cases hleaf : kids = nil
      · subst hleaf
        simp [spine, count]
      · have hlast := hkids (base + 1) hleaf
        apply List.mem_cons_of_mem
        rwa [show base + 1 + kids.count - 1 = base + (kids.count + 1 + count nil) - 1 by
          simp only [count]; omega] at hlast
    · rw [spine_cons hnil]
      have hlast := hrest (base + 1 + kids.count) hnil
      rwa [show base + 1 + kids.count + rest.count - 1 = base + (kids.count + 1 + rest.count) - 1
        by omega] at hlast

/-- A node of the spine is a root, or its parent is on the spine. -/
theorem spine_parent (parent : Int) (h : i ∈ f.spine base) :
    ∃ n, (f.links parent base)[i - base]? = some n ∧
      (n.parent = parent ∨ ∃ j ∈ f.spine base, j < i ∧ n.parent = j) := by
  induction f generalizing parent base with
  | nil => simp [spine] at h
  | cons kids rest hkids hrest =>
    by_cases hnil : rest = nil
    · subst hnil
      rcases List.mem_cons.mp h with rfl | h
      · exact ⟨⟨kids.length, parent⟩, by simp [links], .inl rfl⟩
      · obtain ⟨hlow, hhigh⟩ := spine_bounds h
        obtain ⟨n, hn, hparent⟩ := hkids base h
        refine ⟨n, ?_, .inr ?_⟩
        · rw [links, show i - base = i - (base + 1) + 1 by omega, List.getElem?_cons_succ,
            List.getElem?_append_left (by rw [length_links]; omega), hn]
        · rcases hparent with hparent | ⟨j, hj, hlt, hparent⟩
          · exact ⟨base, List.mem_cons_self, by omega, hparent⟩
          · exact ⟨j, List.mem_cons_of_mem _ hj, hlt, hparent⟩
    · rw [spine_cons hnil] at h ⊢
      obtain ⟨hlow, hhigh⟩ := spine_bounds h
      obtain ⟨n, hn, hparent⟩ := hrest parent h
      refine ⟨n, ?_, hparent⟩
      rw [links, show i - base = i - (base + 1 + kids.count) + kids.count + 1 by omega,
        List.getElem?_cons_succ, List.getElem?_append_right (by rw [length_links]; omega),
        length_links, Nat.add_sub_cancel, hn]

theorem modify_append {α : Type*} (g : α → α) (l l' : List α) (i : Nat) :
    (i < l.length → (l ++ l').modify i g = l.modify i g ++ l') ∧
      (l ++ l').modify (l.length + i) g = l ++ l'.modify i g := by
  constructor
  · intro hi
    apply List.ext_getElem?
    intro j
    grind
  · apply List.ext_getElem?
    intro j
    grind

/-- A node of the spine can take another child, and stays on the spine with it. -/
theorem exists_grow (h : i ∈ f.spine base) :
    ∃ f' : Forest, f'.length = f.length ∧ f'.count = f.count + 1 ∧
      (∀ parent, f'.links parent base =
        (f.links parent base).modify (i - base) ForestNode.grow ++ [⟨0, i⟩]) ∧
      i ∈ f'.spine base ∧ base + f.count ∈ f'.spine base := by
  induction f generalizing base with
  | nil => simp [spine] at h
  | cons kids rest hkids hrest =>
    by_cases hnil : rest = nil
    · subst hnil
      rcases List.mem_cons.mp h with rfl | h
      · refine ⟨cons kids.snoc nil, rfl, ?_, fun parent => ?_, List.mem_cons_self, ?_⟩
        · simp only [count, count_snoc]
        · simp [links, links_snoc, ForestNode.grow]
        · rw [spine, spine_snoc]
          exact List.mem_cons_of_mem _ (List.mem_singleton.mpr (by simp only [count]; omega))
      · obtain ⟨hlow, hhigh⟩ := spine_bounds h
        obtain ⟨kids', hlength, hcount, hlinks, hi, hlast⟩ := hkids h
        refine ⟨cons kids' nil, rfl, ?_, fun parent => ?_, List.mem_cons_of_mem _ hi, ?_⟩
        · simp only [count, hcount]
        · rw [links, hlinks, hlength, show i - base = i - (base + 1) + 1 by omega]
          simp only [links, List.append_nil, List.modify_succ_cons, List.cons_append]
        · apply List.mem_cons_of_mem
          rwa [show base + (kids.cons nil).count = base + 1 + kids.count by
            simp only [count]; omega]
    · rw [spine_cons hnil] at h
      obtain ⟨hlow, hhigh⟩ := spine_bounds h
      obtain ⟨rest', hlength, hcount, hlinks, hi, hlast⟩ := hrest h
      have hnil' : rest' ≠ nil := by
        rintro rfl
        simp [count] at hcount
      refine ⟨cons kids rest', by rw [length, hlength, length], ?_, fun parent => ?_, ?_, ?_⟩
      · simp only [count, hcount]
        omega
      · rw [links, hlinks, show i - base = kids.count + (i - (base + 1 + kids.count)) + 1 by omega]
        have happend := (modify_append ForestNode.grow (kids.links base (base + 1))
          (rest.links parent (base + 1 + kids.count)) (i - (base + 1 + kids.count))).2
        rw [length_links] at happend
        rw [links, List.modify_succ_cons, happend, List.cons_append, List.append_assoc]
      · rwa [spine_cons hnil']
      · rw [spine_cons hnil']
        rwa [show base + (kids.cons rest).count = base + 1 + kids.count + rest.count by
          simp only [count]; omega]

/-! ### The children of a node -/

/-- The numbers of the roots. -/
def roots : Forest → (base : Nat) → List Nat
  | nil, _ => []
  | cons kids rest, base => base :: rest.roots (base + 1 + kids.count)

/-- The numbers of the nodes of a list, which are numbered from `base` on, that have the parent. -/
def childrenOf (parent : Int) : List ForestNode → (base : Nat) → List Nat
  | [], _ => []
  | n :: nodes, base =>
    if n.parent = parent then base :: childrenOf parent nodes (base + 1)
    else childrenOf parent nodes (base + 1)

theorem length_roots (f : Forest) (base : Nat) : (f.roots base).length = f.length := by
  induction f generalizing base with
  | nil => rfl
  | cons kids rest _ hrest => rw [roots, List.length_cons, hrest, length]

theorem childrenOf_append {parent : Int} {nodes nodes' : List ForestNode} {base : Nat} :
    childrenOf parent (nodes ++ nodes') base =
      childrenOf parent nodes base ++ childrenOf parent nodes' (base + nodes.length) := by
  induction nodes generalizing base with
  | nil => rfl
  | cons n nodes ih =>
    simp only [List.cons_append, childrenOf, ih, List.length_cons]
    rw [show base + 1 + nodes.length = base + (nodes.length + 1) by omega]
    split <;> rfl

theorem childrenOf_eq_nil {parent : Int} {nodes : List ForestNode} {base : Nat}
    (h : ∀ n ∈ nodes, n.parent ≠ parent) : childrenOf parent nodes base = [] := by
  induction nodes generalizing base with
  | nil => rfl
  | cons n nodes ih =>
    rw [childrenOf, if_neg (h n List.mem_cons_self)]
    exact ih fun n hn => h n (List.mem_cons_of_mem _ hn)

theorem mem_childrenOf {parent : Int} {nodes : List ForestNode} {base j : Nat} :
    j ∈ childrenOf parent nodes base ↔
      base ≤ j ∧ ∃ n, nodes[j - base]? = some n ∧ n.parent = parent := by
  induction nodes generalizing base with
  | nil => simp [childrenOf]
  | cons n nodes ih =>
    have hrest : j ∈ childrenOf parent nodes (base + 1) ↔
        base + 1 ≤ j ∧ ∃ n', (n :: nodes)[j - base]? = some n' ∧ n'.parent = parent := by
      rw [ih]
      apply and_congr_right
      intro hle
      rw [show j - base = j - (base + 1) + 1 by omega, List.getElem?_cons_succ]
    unfold childrenOf
    split
    · rename_i hn
      rw [List.mem_cons, hrest]
      constructor
      · rintro (rfl | ⟨hle, h⟩)
        · exact ⟨Nat.le_refl _, n, by simp, hn⟩
        · exact ⟨by omega, h⟩
      · rintro ⟨hle, h⟩
        by_cases hj : j = base
        · exact .inl hj
        · exact .inr ⟨by omega, h⟩
    · rename_i hn
      rw [hrest]
      refine and_congr_left fun ⟨n', hn', hparent⟩ => ?_
      constructor
      · omega
      · intro hle
        by_contra hlt
        obtain rfl : j = base := by omega
        simp only [Nat.sub_self, List.getElem?_cons_zero, Option.some.injEq] at hn'
        exact hn (hn' ▸ hparent)

theorem pairwise_childrenOf (parent : Int) (nodes : List ForestNode) (base : Nat) :
    (childrenOf parent nodes base).Pairwise (· < ·) := by
  induction nodes generalizing base with
  | nil => exact .nil
  | cons n nodes ih =>
    unfold childrenOf
    split
    · exact .cons (fun j hj => (mem_childrenOf.mp hj).1) (ih (base + 1))
    · exact ih (base + 1)

/-- The parent of a node is the one above the forest, or a node before it. -/
theorem parent_links {n : ForestNode} (h : (f.links parent base)[i]? = some n) :
    n.parent = parent ∨ ∃ j : Nat, n.parent = j ∧ base ≤ j ∧ j < base + i := by
  induction f generalizing parent base i with
  | nil => simp [links] at h
  | cons kids rest hkids hrest =>
    unfold links at h
    cases i with
    | zero =>
      obtain rfl := Option.some.inj h
      exact .inl rfl
    | succ i =>
      rw [List.getElem?_cons_succ] at h
      by_cases hi : i < kids.count
      · rw [List.getElem?_append_left (by rwa [length_links])] at h
        rcases hkids h with hparent | ⟨j, hparent, hlow, hhigh⟩
        · exact .inr ⟨base, hparent, by omega, by omega⟩
        · exact .inr ⟨j, hparent, by omega, by omega⟩
      · rw [List.getElem?_append_right (by rw [length_links]; omega), length_links] at h
        rcases hrest h with hparent | ⟨j, hparent, hlow, hhigh⟩
        · exact .inl hparent
        · exact .inr ⟨j, hparent, by omega, by omega⟩

theorem childrenOf_links_eq_nil {p : Int} (hne : p ≠ parent)
    (hout : p < base ∨ base + f.count ≤ p) : childrenOf p (f.links parent base) base = [] := by
  apply childrenOf_eq_nil
  intro n hn
  obtain ⟨i, hi⟩ := List.getElem?_of_mem hn
  have hlt := (List.getElem?_eq_some_iff.mp hi).1
  rw [length_links] at hlt
  rcases parent_links hi with hparent | ⟨j, hparent, hlow, hhigh⟩ <;> omega

theorem childrenOf_links (h : parent < base) :
    childrenOf parent (f.links parent base) base = f.roots base := by
  induction f generalizing base with
  | nil => rfl
  | cons kids rest _ hrest =>
    have hkids : childrenOf parent (kids.links base (base + 1)) (base + 1) = [] :=
      childrenOf_links_eq_nil (by omega) (.inl (by omega))
    rw [links, childrenOf, if_pos rfl, childrenOf_append, hkids, List.nil_append, length_links,
      hrest (by omega), roots]

/-- Below each node is a forest, whose nodes follow the node and whose roots are its children. -/
theorem exists_kids (f : Forest) (parent : Int) (base : Nat) (hparent : parent < base)
    (hlow : base ≤ i) (hhigh : i < base + f.count) :
    ∃ (kids : Forest) (p : Int), (f.links parent base)[i - base]? = some ⟨kids.length, p⟩ ∧
      Slice (f.links parent base) (i - base + 1) (kids.links i (i + 1)) ∧
      i + kids.count < base + f.count ∧
      childrenOf i (f.links parent base) base = kids.roots (i + 1) := by
  induction f generalizing parent base with
  | nil => simp [count] at hhigh; omega
  | cons kids rest hkids hrest =>
    simp only [count] at hhigh ⊢
    rw [links]
    by_cases hi : i = base
    · subst hi
      refine ⟨kids, parent, by simp, by simp [Slice], by omega, ?_⟩
      rw [childrenOf, if_neg (by simp; omega), childrenOf_append, childrenOf_links (by omega),
        length_links, childrenOf_links_eq_nil (by omega) (.inl (by omega)), List.append_nil]
    · obtain ⟨j, rfl⟩ : ∃ j, i = base + 1 + j := ⟨i - (base + 1), by omega⟩
      rw [childrenOf, if_neg (by simp; omega), childrenOf_append, length_links,
        show base + 1 + j - base = j + 1 by omega, List.getElem?_cons_succ]
      by_cases hj : j < kids.count
      · obtain ⟨k, p, hnode, hslice, hcount, hroots⟩ :=
          hkids base (base + 1) (by omega) (by omega) (by omega)
        rw [show base + 1 + j - (base + 1) = j by omega] at hnode hslice
        refine ⟨k, p, ?_, ?_, by omega, ?_⟩
        · rw [List.getElem?_append_left (by rwa [length_links]), hnode]
        · obtain ⟨r, hr⟩ := hslice
          refine ⟨r ++ rest.links parent (base + 1 + kids.count), ?_⟩
          rw [List.drop_succ_cons, List.drop_append_of_le_length (by rw [length_links]; omega),
            ← hr, List.append_assoc]
        · rw [hroots, childrenOf_links_eq_nil (by omega) (.inl (by omega)), List.append_nil]
      · obtain ⟨k, p, hnode, hslice, hcount, hroots⟩ :=
          hrest parent (base + 1 + kids.count) (by omega) (by omega) (by omega)
        refine ⟨k, p, ?_, ?_, by omega, ?_⟩
        · rw [List.getElem?_append_right (by rw [length_links]; omega), length_links,
            ← hnode]
          congr 1
          omega
        · obtain ⟨r, hr⟩ := hslice
          refine ⟨r, ?_⟩
          have hdrop : (kids.links base (base + 1)).drop (j + 1) = [] :=
            List.drop_eq_nil_of_le (by rw [length_links]; omega)
          rw [hr, List.drop_succ_cons, List.drop_append, hdrop, List.nil_append, length_links]
          congr 1
          omega
        · rw [hroots, childrenOf_links_eq_nil (by omega) (.inr (by omega)), List.nil_append]

/-- A node between a node and one of its children lies below the node. -/
theorem parent_between {j : Nat} {n n' : ForestNode} (hparent : parent < base)
    (hi : (f.links parent base)[i]? = some n) (hj : (f.links parent base)[j]? = some n')
    (hlow : n'.parent < base + i) (hlt : i < j) : n'.parent ≤ n.parent := by
  induction f generalizing parent base i j with
  | nil => simp [links] at hi
  | cons kids rest hkids hrest =>
    have hn := parent_links hi
    have hn' := parent_links hj
    rw [links] at hi hj
    obtain ⟨j, rfl⟩ : ∃ j', j = j' + 1 := ⟨j - 1, by omega⟩
    rw [List.getElem?_cons_succ] at hj
    cases i with
    | zero => omega
    | succ i =>
      rw [List.getElem?_cons_succ] at hi
      by_cases hik : i < kids.count
      · rw [List.getElem?_append_left (by rwa [length_links])] at hi
        by_cases hjk : j < kids.count
        · rw [List.getElem?_append_left (by rwa [length_links])] at hj
          exact hkids (by omega) hi hj (by omega) (by omega)
        · -- the child is a tree after the one of the node
          rw [List.getElem?_append_right (by rw [length_links]; omega), length_links] at hj
          have := parent_links hj
          omega
      · rw [List.getElem?_append_right (by rw [length_links]; omega), length_links] at hi hj
        exact hrest (by omega) hi hj (by omega) (by omega)

end Forest

end VhomeBridge.Lib
