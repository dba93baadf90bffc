import VhomeBridge.Link.Lists

/-! What each turn of the loop over the groups stores.  A turn for an array stores a list for each
of its elements, whatever they are: one that is no button stores a list under the strings that the
buffers hold. -/

namespace VhomeBridge.Link

open Lib

/-- The lists that the turns from turn `i` on store, turn by turn. -/
def turnLists : (n i : Nat) → Path → Fields → Option (List (List (Text × Text)))
  | 0, _, _, _ => some []
  | n + 1, i, path, fields => do
    let s ← listTable.groupTurn i ⟨path, fields, []⟩
    return s.table :: (← turnLists n (i + 1) s.path s.fields)

/-- The state with lists stored before its own. -/
def ButtonWalk.onto (lists : List (Text × Text)) (s : ButtonWalk (List (Text × Text))) :
    ButtonWalk (List (Text × Text)) :=
  { s with table := lists ++ s.table }

theorem buttonTurn_onto (lists : List (Text × Text)) (numElemArr j : Nat)
    (s : ButtonWalk (List (Text × Text))) :
    listTable.buttonTurn numElemArr j (s.onto lists) =
      (listTable.buttonTurn numElemArr j s).map (ButtonWalk.onto lists) := by
  simp only [Table.buttonTurn, ButtonWalk.onto, Bind.bind, pure, Option.map_bind, listTable,
    Function.comp_def, Option.map_some, Option.bind_some, List.append_assoc]
  rfl

theorem groupTurn_onto (lists : List (Text × Text)) (i : Nat)
    (s : ButtonWalk (List (Text × Text))) :
    listTable.groupTurn i (s.onto lists) =
      (listTable.groupTurn i s).map (ButtonWalk.onto lists) := by
  unfold Table.groupTurn
  have hkids : (s.onto lists).path.kids = s.path.kids := rfl
  rw [hkids]
  split
  · rename_i items _
    have hloop := forRange_map _ (ButtonWalk.onto lists) (fun _ => True)
      (fun j t _ => buttonTurn_onto lists items.values.length j t) (fun _ _ _ _ _ => trivial)
      (n := items.values.length) (i := 0) (t := { s with path := items.values :: s.path }) trivial
    have hstart : (ButtonWalk.onto lists { s with path := items.values :: s.path }) =
        { s.onto lists with path := items.values :: (s.onto lists).path } := rfl
    rw [hstart] at hloop
    simp only [Bind.bind, pure, hloop, Option.bind_map, Option.map_bind]
    rfl
  · rfl

theorem forRange_groupTurn (n i : Nat) (path : Path) (fields : Fields)
    (lists : List (Text × Text)) :
    (forRange listTable.groupTurn n i ⟨path, fields, lists⟩).map (·.table) =
      (turnLists n i path fields).map fun turns => lists ++ turns.flatten := by
  induction n generalizing i path fields lists with
  | zero => simp [forRange, turnLists]
  | succ n ih =>
    have hturn : listTable.groupTurn i ⟨path, fields, lists⟩ =
        (listTable.groupTurn i ⟨path, fields, []⟩).map (ButtonWalk.onto lists) := by
      rw [← groupTurn_onto, ButtonWalk.onto, List.append_nil]
    rw [forRange, hturn, turnLists]
    cases listTable.groupTurn i ⟨path, fields, []⟩ with
    | none => rfl
    | some s =>
      simp only [Option.map_some, Option.bind_some, Bind.bind, pure, ButtonWalk.onto, ih]
      cases turnLists n (i + 1) s.path s.fields with
      | none => rfl
      | some turns => simp

/-- The lists of an object are those of its turns, one after the other. -/
theorem walk_eq_turns {root : Members} {items : Items}
    (hlookup : root.entries.lookup "link".toList = some (.arr items)) :
    listTable.walk root = (turnLists items.values.length 0 [items.values, [], []]
      ⟨none, none, none⟩).map List.flatten := by
  have hloop := forRange_groupTurn items.values.length 0 [items.values, [], []]
    ⟨none, none, none⟩ []
  rw [Table.walk, hlookup]
  exact Option.map_eq_bind.symm.trans hloop

/-- Each turn of the inner loop that completes stores one list. -/
theorem length_buttons {numElemArr m j : Nat} {s t : ButtonWalk (List (Text × Text))}
    (h : forRange (listTable.buttonTurn numElemArr) m j s = some t) :
    t.table.length = s.table.length + m := by
  induction m generalizing j s with
  | zero =>
    obtain rfl := Option.some.inj h
    rfl
  | succ m ih =>
    obtain ⟨u, hturn, hloop⟩ := Option.bind_eq_some_iff.mp h
    simp only [Table.buttonTurn, Bind.bind, Option.bind_eq_some_iff, pure, Option.some.injEq,
      listTable] at hturn
    obtain ⟨key, -, r, -, _, rfl, rfl⟩ := hturn
    rw [ih hloop, List.length_append, List.length_singleton]
    omega

end VhomeBridge.Link
