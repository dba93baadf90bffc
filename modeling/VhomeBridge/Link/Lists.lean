import Mathlib.Data.List.Induction
import VhomeBridge.Link.Walk

/-! The sibling lists of an object, without the limits of the buffers and the map, and what the
limits are: a list of at most 255 characters, and one that is no longer than the first list of its
key. -/

namespace VhomeBridge.Link

open Lib

/-- The lists of all buttons in order, each with its key. -/
def listTable : Table (List (Text × Text)) where
  empty := []
  append := fun value id => some (value ++ id)
  set := fun lists key value => some (lists ++ [(key, value)])

def Links.store (f : Links) (list : Text × Text) : Option Links :=
  if list.2.length < 256 then f.set list.1 list.2 (list.2.length + 1) else none

/-- The links after storing lists in order. -/
def storeAll (lists : List (Text × Text)) : Option Links := lists.foldlM Links.store fun _ => none

/-! ### The walks compared -/

/-- A list as far as it fits the buffer. -/
def SiblingWalk.bounded (a : SiblingWalk) : Option SiblingWalk :=
  if a.value.length < 256 then some a else none

/-- The links of lists as far as they can be stored. -/
def ButtonWalk.stored (a : ButtonWalk (List (Text × Text))) : Option (ButtonWalk Links) :=
  (storeAll a.table).map fun f => ⟨a.path, a.fields, f⟩

theorem storeAll_append_singleton (lists : List (Text × Text)) (list : Text × Text) :
    storeAll (lists ++ [list]) = (storeAll lists).bind fun f => f.store list := by
  simp [storeAll, List.foldlM_append, List.foldlM_cons]

theorem siblingTurn_comm (j k : Nat) (a : SiblingWalk) :
    a.bounded.bind (linkTable.siblingTurn j k) =
      (listTable.siblingTurn j k a).bind SiblingWalk.bounded := by
  cases hobject : a.path.object k with
  | none =>
    by_cases hfit : a.value.length < 256 <;>
      simp [SiblingWalk.bounded, hfit, Table.siblingTurn_none hobject]
  | some button =>
    rw [Table.siblingTurn_some hobject]
    by_cases hfit : a.value.length < 256
    · rw [show a.bounded = some a from if_pos hfit, Option.bind_some,
        Table.siblingTurn_some hobject]
      split
      · cases (a.fields.step button).id with
        | none => rfl
        | some id =>
          simp only [linkTable, listTable, intoBuffer, Option.bind_some, Option.map_some,
            SiblingWalk.bounded]
          split <;> rfl
      · simp [SiblingWalk.bounded, hfit]
    · -- a list that is too long stays too long
      rw [show a.bounded = none from if_neg hfit, Option.bind_none]
      split
      · cases (a.fields.step button).id with
        | none => rfl
        | some id =>
          have hlong : ¬(a.value ++ id).length < 256 := by
            rw [List.length_append]
            omega
          simp only [listTable, Option.bind_some, Option.map_some, SiblingWalk.bounded, hlong,
            if_false]
      · simp [SiblingWalk.bounded, hfit]

theorem buttonTurn_comm (numElemArr j : Nat) (a : ButtonWalk (List (Text × Text))) :
    a.stored.bind (linkTable.buttonTurn numElemArr j) =
      (listTable.buttonTurn numElemArr j a).bind ButtonWalk.stored := by
  have hsiblings (path : Path) (fields : Fields) :
      forRange (linkTable.siblingTurn j) numElemArr 0 ⟨path, fields, []⟩ =
        (forRange (listTable.siblingTurn j) numElemArr 0 ⟨path, fields, []⟩).bind
          SiblingWalk.bounded :=
    forRange_comm (siblingTurn_comm j) numElemArr 0 ⟨path, fields, []⟩
  unfold ButtonWalk.stored
  cases hstore : storeAll a.table with
  | none =>
    symm
    rw [Option.map_none, Option.bind_none, Option.bind_eq_none_iff]
    intro r hr
    simp only [Table.buttonTurn, Bind.bind, Option.bind_eq_some_iff, pure, Option.some.injEq,
      listTable] at hr
    obtain ⟨key, -, r', -, table, rfl, rfl⟩ := hr
    simp [storeAll_append_singleton, hstore]
  | some f =>
    simp only [Option.map_some, Option.bind_some, Table.buttonTurn, hsiblings, Bind.bind, pure,
      Option.bind_assoc]
    congr 1
    funext key
    congr 1
    funext r
    simp only [listTable, Option.bind_some, storeAll_append_singleton, hstore, Links.store,
      SiblingWalk.bounded, linkTable]
    split
    · simp only [Option.bind_some]
      cases f.set key r.value (r.value.length + 1) <;> rfl
    · rfl

theorem groupTurn_comm (i : Nat) (a : ButtonWalk (List (Text × Text))) :
    a.stored.bind (linkTable.groupTurn i) = (listTable.groupTurn i a).bind ButtonWalk.stored := by
  by_cases harr : ∃ items, a.path.kids[i]? = some (.arr items)
  · obtain ⟨items, hk⟩ := harr
    have hloop := forRange_comm (buttonTurn_comm items.values.length) items.values.length 0
      { a with path := items.values :: a.path }
    have hleave : (listTable.groupTurn i a).bind ButtonWalk.stored =
        ((forRange (listTable.buttonTurn items.values.length) items.values.length 0
          { a with path := items.values :: a.path }).bind ButtonWalk.stored).bind
          fun b => some { b with path := b.path.up } := by
      simp only [Table.groupTurn, hk, Bind.bind, Option.bind_assoc, pure, Option.bind_some]
      congr 1
      funext b
      simp only [ButtonWalk.stored]
      cases storeAll b.table <;> rfl
    rw [hleave, ← hloop]
    simp only [ButtonWalk.stored]
    cases storeAll a.table with
    | none => rfl
    | some f =>
      simp only [Option.map_some, Option.bind_some, Table.groupTurn, hk]
      rfl
  · have hsame {τ : Type} (T : Table τ) (t : τ) :
        T.groupTurn i ⟨a.path, a.fields, t⟩ = some ⟨a.path, a.fields, t⟩ := by
      unfold Table.groupTurn
      split
      · rename_i items hk
        exact absurd ⟨items, hk⟩ harr
      · rfl
    rw [show listTable.groupTurn i a = some a from hsame listTable a.table]
    simp only [ButtonWalk.stored, Option.bind_some]
    cases storeAll a.table with
    | none => rfl
    | some f => exact hsame linkTable f

theorem linkTable_walk (root : Members) :
    linkTable.walk root = (listTable.walk root).bind storeAll := by
  rw [Table.walk, Table.walk]
  split
  · rename_i items hitems
    have hloop := forRange_comm groupTurn_comm items.values.length 0
      ⟨[items.values, [], []], ⟨none, none, none⟩, []⟩
    rw [show ButtonWalk.stored ⟨[items.values, [], []], ⟨none, none, none⟩, []⟩ =
      some ⟨[items.values, [], []], ⟨none, none, none⟩, linkTable.empty⟩ from rfl,
      Option.bind_some] at hloop
    simp only [Bind.bind, pure, hloop, Option.bind_assoc, Option.bind_some]
    congr 1
    funext a
    simp only [ButtonWalk.stored]
    cases storeAll a.table <;> rfl
  · rfl

/-! ### What the map holds in the end -/

/-- Every list fits the buffer, and the room of the first list for its key. -/
def Fit (lists : List (Text × Text)) : Prop :=
  ∀ list ∈ lists, list.2.length < 256 ∧
    ∀ first ∈ lists.lookup list.1, list.2.length ≤ first.length

instance (lists : List (Text × Text)) : Decidable (Fit lists) :=
  inferInstanceAs (Decidable (∀ list ∈ lists, list.2.length < 256 ∧
    ∀ first ∈ lists.lookup list.1, list.2.length ≤ first.length))

/-- For a key with lists, the last list in the room of the first. -/
def linksOf (lists : List (Text × Text)) : Links := fun key =>
  (lists.lookup key).bind fun first =>
    (lists.reverse.lookup key).map fun last => (last, first.length + 1)

section Store

variable {lists : List (Text × Text)} {key k v : Text}

theorem fit_append_singleton :
    Fit (lists ++ [(k, v)]) ↔ Fit lists ∧ v.length < 256 ∧
      ∀ first, lists.lookup k = some first → v.length ≤ first.length := by
  constructor
  · intro h
    refine ⟨fun other hother => ⟨(h other (by simp [hother])).1, fun first hfirst => ?_⟩,
      (h (k, v) (by simp)).1, fun first hfirst => ?_⟩
    · exact (h other (by simp [hother])).2 first
        (by simp [List.lookup_append, Option.mem_def.mp hfirst])
    · exact (h (k, v) (by simp)).2 first (by simp [List.lookup_append, Option.mem_def.mp hfirst])
  · rintro ⟨hlists, hlength, hroom⟩ other hother
    rcases List.mem_append.mp hother with hmem | hmem
    · refine ⟨(hlists other hmem).1, fun first hfirst => (hlists other hmem).2 first ?_⟩
      have hsome : (lists.lookup other.1).isSome :=
        List.lookup_isSome_iff.mpr ⟨other, hmem, by simp⟩
      obtain ⟨first', hfirst'⟩ := Option.isSome_iff_exists.mp hsome
      simpa [List.lookup_append, hfirst'] using hfirst
    · obtain rfl := List.mem_singleton.mp hmem
      refine ⟨hlength, fun first hfirst => ?_⟩
      cases hold : lists.lookup k with
      | some first' =>
        obtain rfl : first' = first := by simpa [List.lookup_append, hold] using hfirst
        exact hroom first' hold
      | none =>
        obtain rfl : v = first := by simpa [List.lookup_append, hold] using hfirst
        exact Nat.le_refl _

theorem linksOf_append_singleton :
    linksOf (lists ++ [(k, v)]) = fun key =>
      if key = k then some (v, ((lists.lookup k).getD v).length + 1) else linksOf lists key := by
  funext key
  rw [linksOf, List.reverse_append, List.lookup_append]
  by_cases hkey : key = k
  · subst hkey
    cases hold : lists.lookup key <;> simp
  · have hne : (key == k) = false := by simpa using hkey
    simp [List.lookup_cons, hne, hkey, linksOf]

theorem linksOf_room :
    (linksOf lists key).map (·.2) = (lists.lookup key).map fun first => first.length + 1 := by
  unfold linksOf
  cases hfirst : lists.lookup key with
  | none => rfl
  | some first =>
    have hsome : (lists.reverse.lookup key).isSome := by
      have hkey := List.lookup_isSome_iff.mp (Option.isSome_iff_exists.mpr ⟨first, hfirst⟩)
      simpa using hkey
    obtain ⟨last, hlast⟩ := Option.isSome_iff_exists.mp hsome
    simp [hlast]

theorem store_linksOf {f : Links} :
    (linksOf lists).store (k, v) = some f ↔
      (v.length < 256 ∧ ∀ first, lists.lookup k = some first → v.length ≤ first.length) ∧
        f = linksOf (lists ++ [(k, v)]) := by
  have hroom := @linksOf_room lists k
  rw [linksOf_append_singleton, Links.store, Links.set]
  cases hfirst : lists.lookup k with
  | none =>
    rw [hfirst, Option.map_none, Option.map_eq_none_iff] at hroom
    rw [hroom]
    by_cases hlength : v.length < 256 <;> simp [hlength, eq_comm]
  | some first =>
    rw [hfirst, Option.map_some, Option.map_eq_some_iff] at hroom
    obtain ⟨⟨last, room⟩, hlast, rfl⟩ := hroom
    rw [hlast]
    by_cases hlength : v.length < 256 <;> by_cases hle : v.length ≤ first.length <;>
      simp [hlength, hle, eq_comm]

theorem storeAll_eq_some_iff {f : Links} :
    storeAll lists = some f ↔ Fit lists ∧ f = linksOf lists := by
  induction lists using List.reverseRecOn generalizing f with
  | nil =>
    have hfit : Fit [] := by simp [Fit]
    have hlinks : linksOf [] = fun _ => none := rfl
    simp [storeAll, hfit, hlinks, eq_comm]
  | append_singleton lists list ih =>
    obtain ⟨k, v⟩ := list
    rw [storeAll_append_singleton, fit_append_singleton, Option.bind_eq_some_iff]
    constructor
    · rintro ⟨g, hg, hstore⟩
      obtain ⟨hfit, rfl⟩ := ih.mp hg
      obtain ⟨hv, hf⟩ := store_linksOf.mp hstore
      exact ⟨⟨hfit, hv⟩, hf⟩
    · rintro ⟨⟨hfit, hv⟩, hf⟩
      exact ⟨linksOf lists, ih.mpr ⟨hfit, rfl⟩, store_linksOf.mpr ⟨hv, hf⟩⟩

end Store

theorem mapGet_eq (m : MapStr) (key : Text) : mapGet m key = (m.links key).map (·.1) := by
  rw [mapGet, MapStr.links, Option.map_map]
  rfl

/-- `json_parsing` completes exactly if the lists of the object can be put together and fit, and
the map then holds them. -/
theorem Document.jsonParsing_iff (doc : Document) {f : Links} :
    (∃ m, jsonParsing doc.text = some m ∧ m.Valid ∧ m.links = f) ↔
      ∃ lists, listTable.walk doc.root = some lists ∧ Fit lists ∧ f = linksOf lists := by
  have hsame := doc.jsonParsing_same
  have hstore : linkTable.walk doc.root = some f ↔
      ∃ lists, listTable.walk doc.root = some lists ∧ Fit lists ∧ f = linksOf lists := by
    simp only [linkTable_walk, Option.bind_eq_some_iff, storeAll_eq_some_iff]
  rw [← hstore]
  generalize linkTable.walk doc.root = walked at hsame
  generalize jsonParsing doc.text = parsed at hsame
  cases hsame with
  | none => simp
  | @some m g h =>
    obtain ⟨hvalid, rfl⟩ := h
    constructor
    · rintro ⟨m', hm', -, rfl⟩
      rw [Option.some.inj hm']
    · intro hg
      exact ⟨m, rfl, hvalid, Option.some.inj hg⟩

end VhomeBridge.Link
