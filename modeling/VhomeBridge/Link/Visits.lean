import VhomeBridge.Link.Cursor
import VhomeBridge.Link.Lists
import VhomeBridge.Link.Rounds
import Mathlib.Logic.Function.Iterate

/-! The lists that `json_parsing` stores for the tokens of any accepted text.  They are known from
the objects that the groups consist of: `rounds` has the turns with the objects read in each, and
`entries` reads the list of each turn, without the limits of the buffers and the map. -/

namespace VhomeBridge.Link

open Lib

namespace JparseCtx

variable (ctx : JparseCtx)

/-- The parts of a token, as far as they are objects. -/
def objects (x : Nat) : List (Option Nat) :=
  (ctx.parts x).map fun y => if ctx.isType .object y then some y else none

/-- The turns of groups, up to the first with an element that is no object. -/
def groupRounds (link : List (Option Nat)) : List Nat → List (Round Nat)
  | [] => []
  | group :: groups =>
    if ctx.isType .array group then
      if (ctx.parts group).all (ctx.isType .object) then
        fullRounds (ctx.parts group) ++ groupRounds link groups
      else brokenRounds (ctx.objects group) link
    else groupRounds link groups

/-- The turns of a configuration with its groups in the array `x`. -/
def rounds (x : Nat) : List (Round Nat) := ctx.groupRounds (ctx.objects x) (ctx.parts x)

/-- The ids of objects one after the other, behind a list. -/
def ids : Fields → Text → List Nat → Option (Fields × Text)
  | fields, list, [] => some (fields, list)
  | fields, list, y :: ys => do
    let fields ← fields.read (ctx.goto y)
    ids fields (list ++ (← fields.id)) ys

/-- The buffers for the key of a turn. -/
def ownRead (fields : Fields) (round : Round Nat) : Option Fields :=
  match round.own with
  | some y => fields.read (ctx.goto y)
  | none => some fields

/-- The list of a turn with its key. -/
def entry (fields : Fields) (round : Round Nat) : Option (Fields × (Text × Text)) := do
  let fields ← ctx.ownRead fields round
  let key ← fields.key
  let (fields, list) ← ctx.ids fields [] round.others
  return (fields, (key, list))

/-- The lists of turns, with their keys. -/
def entries : Fields → List (Round Nat) → Option (List (Text × Text))
  | _, [] => some []
  | fields, round :: rounds => do
    let (fields, list) ← ctx.entry fields round
    return list :: (← entries fields rounds)

/-! ### The cursor and the arrays above it -/

/-- `levels` are the array at a token and those above it. -/
def Below (x : Nat) (levels : Levels Nat) : Prop :=
  ∀ d, levels[d]? = if ctx.isType .array (ctx.up^[d] x) then some (ctx.objects (ctx.up^[d] x))
    else none

variable {ctx} {x y : Nat} {levels : Levels Nat}

theorem Below.up (h : ctx.Below x levels) : ctx.Below (ctx.up x) levels.tail := by
  intro d
  rw [List.getElem?_tail, h (d + 1), Function.iterate_succ_apply]

theorem Below.iterate (h : ctx.Below x levels) (d : Nat) :
    ctx.Below (ctx.up^[d] x) (levels.drop d) := by
  intro e
  rw [List.getElem?_drop, h (d + e), Nat.add_comm, Function.iterate_add_apply]

theorem On.iterate (h : ctx.On x) (d : Nat) : ctx.On (ctx.up^[d] x) := by
  induction d generalizing x with
  | zero => exact h
  | succ d ih => exact ih h.up

theorem Below.head? (h : ctx.Below x levels) :
    levels.head? = if ctx.isType .array x then some (ctx.objects x) else none := by
  rw [List.head?_eq_getElem?]
  exact h 0

theorem Below.item_object (h : ctx.Below x levels) (k : Nat) :
    ctx.item .object x k = levels.object k := by
  rw [Levels.object, h.head?, item]
  cases ctx.isType .array x with
  | false => rfl
  | true =>
    simp only [if_true, Option.bind_some, objects, List.getElem?_map]
    cases (ctx.parts x)[k]? with
    | none => rfl
    | some y => cases hobject : ctx.isType .object y <;> simp [Option.filter, hobject]

theorem Below.item_array (h : ctx.Below x []) (i : Nat) : ctx.item .array x i = none := by
  have harray := h.head?
  rw [item]
  split at harray
  · cases harray
  · rename_i hother
    rw [if_neg hother]

/-! ### The loop over `k` -/

/-- `ids` in the buffer `value[256]`. -/
def idsInto (ctx : JparseCtx) : Fields → Text → List Nat → Option (Fields × Text)
  | fields, value, [] => some (fields, value)
  | fields, value, y :: ys => do
    let fields ← fields.read (ctx.goto y)
    idsInto ctx fields (← intoBuffer 256 (value ++ (← fields.id))) ys

theorem length_ids {fields : Fields} {list : Text} {ys : List Nat} {r : Fields × Text}
    (h : ctx.ids fields list ys = some r) : list.length ≤ r.2.length := by
  induction ys generalizing fields list with
  | nil =>
    obtain rfl := Option.some.inj h
    exact Nat.le_refl _
  | cons y ys ih =>
    simp only [ids, Bind.bind, Option.bind_eq_some_iff] at h
    obtain ⟨fields', -, id, -, h⟩ := h
    have := ih h
    rw [List.length_append] at this
    omega

/-- The ids fit the buffer if they do all together. -/
theorem idsInto_eq {fields : Fields} {value : Text} (hvalue : value.length < 256) (ys : List Nat) :
    ctx.idsInto fields value ys =
      (ctx.ids fields value ys).filter fun r => r.2.length < 256 := by
  induction ys generalizing fields value with
  | nil => simp [idsInto, ids, Option.filter, hvalue]
  | cons y ys ih =>
    simp only [idsInto, ids, Bind.bind]
    cases fields.read (ctx.goto y) with
    | none => rfl
    | some fields =>
      cases hid : fields.id with
      | none => simp [hid]
      | some id =>
        simp only [hid, Option.bind_some]
        by_cases hfit : (value ++ id).length < 256
        · rw [show intoBuffer 256 (value ++ id) = some (value ++ id) from if_pos hfit,
            Option.bind_some, ih hfit]
        · rw [show intoBuffer 256 (value ++ id) = none from if_neg hfit, Option.bind_none, eq_comm,
            Option.filter_eq_none_iff]
          intro r hr
          have := length_ids hr
          simp only [decide_eq_true_eq]
          omega

theorem siblings_eq (h : ctx.On x) (hbelow : ctx.Below x levels) (j n k : Nat) :
    ∃ d, (sweep j levels (List.range' k n)).2 = levels.drop d ∧
      ∀ fields value, forRange (siblingBody j) n k ⟨ctx.goto x, fields, value⟩ =
        (ctx.idsInto fields value (sweep j levels (List.range' k n)).1).map fun r =>
          ⟨ctx.goto (ctx.up^[d] x), r.1, r.2⟩ := by
  induction n generalizing x levels k with
  | zero => exact ⟨0, rfl, fun _ _ => rfl⟩
  | succ n ih =>
    have hitem := hbelow.item_object k
    rw [List.range'_succ]
    cases hobject : levels.object k with
    | none =>
      obtain ⟨d, hlevels, hloop⟩ := ih h.up hbelow.up (k + 1)
      refine ⟨d + 1, ?_, fun fields value => ?_⟩
      · rw [sweep_miss hobject, hlevels, List.drop_tail]
      · have hbody : siblingBody j k ⟨ctx.goto x, fields, value⟩ =
            some ⟨ctx.goto (ctx.up x), fields, value⟩ := by
          simp [siblingBody, h.arrGetObject, hitem, hobject, h.leave]
        rw [sweep_miss hobject, forRange, hbody, Option.bind_some, hloop,
          Function.iterate_succ_apply]
    | some y =>
      obtain ⟨d, hlevels, hloop⟩ := ih h hbelow (k + 1)
      have hmem := mem_parts_of_item (hitem.trans hobject)
      have hleave := (h.part hmem).leave
      rw [up_of_mem hmem] at hleave
      have hget : (ctx.goto x).jsonArrGetObject k = some (some (ctx.goto y)) := by
        rw [h.arrGetObject, hitem, hobject, Option.map_some]
      refine ⟨d, ?_, fun fields value => ?_⟩
      · rwa [sweep_hit hobject]
      · rw [sweep_hit hobject, forRange]
        simp only [siblingBody, hget, Bind.bind, pure, Option.bind_some, Option.getD_some,
          Option.isSome_some, Bool.true_and, bne_iff_ne, hleave]
        by_cases hkj : k ≠ j
        · rw [if_pos hkj, if_pos hkj, idsInto]
          dsimp only [Bind.bind]
          cases fields.read (ctx.goto y) with
          | none => rfl
          | some fields =>
            dsimp only [Option.bind_some]
            cases fields.id with
            | none => rfl
            | some id =>
              dsimp only [Option.bind_some]
              cases intoBuffer 256 (value ++ id) with
              | none => rfl
              | some value => exact hloop fields value
        · rw [if_neg hkj, if_neg hkj]
          exact hloop fields value

/-! ### The loop over `j` -/

/-- A turn with the buffer and the map. -/
def putRound (ctx : JparseCtx) (fields : Fields) (map : MapStr) (round : Round Nat) :
    Option (Fields × MapStr) :=
  (ctx.entry fields round).bind fun r =>
    if r.2.2.length < 256 then
      (mapSet map r.2.1 r.2.2 (r.2.2.length + 1)).map fun map => (r.1, map)
    else none

def putRounds (ctx : JparseCtx) (rounds : List (Round Nat)) (r : Fields × MapStr) :
    Option (Fields × MapStr) :=
  rounds.foldlM (fun r round => ctx.putRound r.1 r.2 round) r

theorem buttonBody_eq (n j : Nat) (s : ButtonLoop) :
    buttonBody n j s = (s.ctx.jsonArrGetObject j).bind fun object =>
      (if object.isSome then s.fields.read (object.getD s.ctx) else some s.fields).bind
        fun fields => (object.getD s.ctx).jsonArrLeave.bind fun ctx =>
          fields.key.bind fun key =>
            (forRange (siblingBody j) n 0 ⟨ctx, fields, []⟩).bind fun r =>
              (mapSet s.map key r.value (r.value.length + 1)).bind fun map =>
                some ⟨r.ctx, r.fields, map⟩ := by
  simp only [buttonBody, Bind.bind, pure]
  congr 1
  funext object
  split <;> rfl

/-- The rest of a turn, when its own object is read. -/
theorem putList_eq {fields : Fields} {map : MapStr} {others : List Nat} (x : Nat) :
    (fields.key.bind fun key =>
      ((ctx.idsInto fields [] others).map fun r => (⟨ctx.goto x, r.1, r.2⟩ : SiblingLoop)).bind
        fun r => (mapSet map key r.value (r.value.length + 1)).bind fun map =>
          some (⟨r.ctx, r.fields, map⟩ : ButtonLoop)) =
      (((fields.key.bind fun key => (ctx.ids fields [] others).bind fun r =>
        some (r.1, (key, r.2))).bind fun r =>
          if r.2.2.length < 256 then
            (mapSet map r.2.1 r.2.2 (r.2.2.length + 1)).map fun map => (r.1, map)
          else none).map fun r => ⟨ctx.goto x, r.1, r.2⟩) := by
  have hempty : ([] : Text).length < 256 := Nat.zero_lt_succ 255
  rw [idsInto_eq hempty]
  cases fields.key with
  | none => rfl
  | some key =>
    cases ctx.ids fields [] others with
    | none => rfl
    | some r =>
      by_cases hfit : r.2.length < 256
      · simp only [Option.bind_some, Option.filter, hfit, decide_true, if_true, Option.map_some,
          Option.map_map]
        cases mapSet map key r.2 (r.2.length + 1) <;> rfl
      · simp [Option.filter, hfit]

theorem button_eq (h : ctx.On x) (hbelow : ctx.Below x levels) (n j : Nat) :
    ∃ d, (turn n j levels).2 = levels.drop d ∧
      ∀ fields map, buttonBody n j ⟨ctx.goto x, fields, map⟩ =
        (ctx.putRound fields map (turn n j levels).1).map fun r =>
          ⟨ctx.goto (ctx.up^[d] x), r.1, r.2⟩ := by
  have hitem := hbelow.item_object j
  rw [turn, List.range_eq_range']
  cases hobject : levels.object j with
  | none =>
    obtain ⟨d, hlevels, hloop⟩ := siblings_eq h.up hbelow.up j n 0
    refine ⟨d + 1, by simpa using hlevels, fun fields map => ?_⟩
    simp only [buttonBody_eq, h.arrGetObject, hitem, hobject, Option.map_none, Option.bind_some,
      Option.isSome_none, Bool.false_eq_true, if_false, Option.getD_none, h.leave, hloop,
      ← Function.iterate_succ_apply]
    exact putList_eq _
  | some y =>
    obtain ⟨d, hlevels, hloop⟩ := siblings_eq h hbelow j n 0
    have hmem := mem_parts_of_item (hitem.trans hobject)
    have hleave := (h.part hmem).leave
    rw [up_of_mem hmem] at hleave
    refine ⟨d, hlevels, fun fields map => ?_⟩
    simp only [buttonBody_eq, h.arrGetObject, hitem, hobject, Option.map_some, Option.bind_some,
      Option.isSome_some, if_true, Option.getD_some, hleave, hloop, putRound, entry, ownRead,
      Bind.bind]
    cases fields.read (ctx.goto y) with
    | none => rfl
    | some fields => exact putList_eq _

theorem buttons_eq (h : ctx.On x) (hbelow : ctx.Below x levels) (n count j : Nat) :
    ∃ d, (turns n count j levels).2 = levels.drop d ∧
      ∀ fields map, forRange (buttonBody n) count j ⟨ctx.goto x, fields, map⟩ =
        (ctx.putRounds (turns n count j levels).1 (fields, map)).map fun r =>
          ⟨ctx.goto (ctx.up^[d] x), r.1, r.2⟩ := by
  induction count generalizing x levels j with
  | zero => exact ⟨0, rfl, fun _ _ => rfl⟩
  | succ count ih =>
    obtain ⟨d, hlevels, hbody⟩ := button_eq h hbelow n j
    obtain ⟨e, hlevels', hloop⟩ := ih (h.iterate d) (hlevels ▸ hbelow.iterate d) (j + 1)
    refine ⟨e + d, ?_, fun fields map => ?_⟩
    · rw [turns]
      dsimp only
      rw [hlevels', hlevels, List.drop_drop, Nat.add_comm]
    · rw [forRange, hbody, turns, putRounds, List.foldlM_cons]
      cases ctx.putRound fields map (turn n j levels).1 with
      | none => rfl
      | some r =>
        rw [Function.iterate_add_apply]
        exact hloop r.1 r.2

/-! ### The groups -/

/-- No array from `x` up. -/
structure Idle (ctx : JparseCtx) (x : Nat) : Prop where
  here : ctx.isType .array x = false
  above : ctx.isType .array (ctx.up x) = false
  top : ctx.up (ctx.up x) = ctx.up x

theorem Idle.up (h : ctx.Idle x) : ctx.Idle (ctx.up x) where
  here := h.above
  above := by rw [h.top]; exact h.above
  top := by rw [h.top, h.top]

theorem Idle.below (h : ctx.Idle x) : ctx.Below x [] := by
  intro d
  have hidle : ctx.Idle (ctx.up^[d] x) := by
    induction d generalizing x with
    | zero => exact h
    | succ d ih => exact ih h.up
  rw [hidle.here]
  rfl

theorem below_array (harray : ctx.isType .array x = true) (h : ctx.Below (ctx.up x) levels) :
    ctx.Below x (ctx.objects x :: levels) := by
  intro d
  cases d with
  | zero => simp [harray]
  | succ d => rw [List.getElem?_cons_succ, h d, Function.iterate_succ_apply]

theorem full_iff (ctx : JparseCtx) (group : Nat) :
    (ctx.parts group).all (ctx.isType .object) = true ↔
      (lead (ctx.objects group)).length = (ctx.parts group).length := by
  rw [objects]
  induction ctx.parts group with
  | nil => simp
  | cons y ys ih =>
    cases hobject : ctx.isType .object y with
    | false => simp [hobject]
    | true => simpa [hobject] using ih

theorem objects_full {group : Nat} (h : (ctx.parts group).all (ctx.isType .object) = true) :
    ctx.objects group = (ctx.parts group).map some := by
  refine List.map_congr_left fun y hy => ?_
  rw [if_pos (List.all_eq_true.mp h y hy)]

section

variable {array i : Nat} {fields : Fields} {map : MapStr}

/-- A turn of the loop over the groups for an element that is no array. -/
theorem groupBody_none (h : ctx.On x) (hitem : ctx.item .array x i = none) :
    groupBody i ⟨ctx.goto x, fields, map⟩ = some ⟨ctx.goto x, fields, map⟩ := by
  simp [groupBody, h.arrGetArray, hitem]

/-- A turn for a group. -/
theorem groupBody_some (h : ctx.On array) (hup : ctx.Idle (ctx.up array)) {group : Nat}
    (hitem : ctx.item .array array i = some group) :
    ∃ d, (turns (ctx.parts group).length (ctx.parts group).length 0
        [ctx.objects group, ctx.objects array]).2 =
          [ctx.objects group, ctx.objects array].drop d ∧
      ∀ fields map, groupBody i ⟨ctx.goto array, fields, map⟩ =
        (ctx.putRounds (turns (ctx.parts group).length (ctx.parts group).length 0
          [ctx.objects group, ctx.objects array]).1 (fields, map)).map fun r =>
            ⟨ctx.goto (ctx.up^[d] array), r.1, r.2⟩ := by
  obtain ⟨harray, hmem, hgroup⟩ := item_eq_some.mp hitem
  have hmem := List.mem_of_getElem? hmem
  have hbelow : ctx.Below group [ctx.objects group, ctx.objects array] := by
    apply below_array hgroup
    rw [up_of_mem hmem]
    exact below_array harray hup.below
  obtain ⟨d, hlevels, hloop⟩ := buttons_eq (h.part hmem) hbelow (ctx.parts group).length
    (ctx.parts group).length 0
  refine ⟨d, hlevels, fun fields map => ?_⟩
  have hleave : (ctx.goto (ctx.up^[d] group)).jsonArrLeave =
      some (ctx.goto (ctx.up^[d] array)) := by
    rw [((h.part hmem).iterate d).leave, ← Function.iterate_succ_apply' ctx.up d group,
      Function.iterate_succ_apply, up_of_mem hmem]
  simp only [groupBody, h.arrGetArray, hitem, Option.map_some, Bind.bind, Option.bind_some, hloop]
  generalize ctx.putRounds _ (fields, map) = r
  cases r with
  | none => rfl
  | some r =>
    simp only [Option.map_some, Option.bind_some, hleave]
    rfl

/-- A group of objects is left for the next one. -/
theorem groupBody_full (h : ctx.On array) (hup : ctx.Idle (ctx.up array)) {group : Nat}
    (hitem : ctx.item .array array i = some group)
    (hfull : (ctx.parts group).all (ctx.isType .object) = true) (fields : Fields) (map : MapStr) :
    groupBody i ⟨ctx.goto array, fields, map⟩ =
      (ctx.putRounds (fullRounds (ctx.parts group)) (fields, map)).map fun r =>
        ⟨ctx.goto array, r.1, r.2⟩ := by
  obtain ⟨e, hlevels, hbody⟩ := groupBody_some h hup hitem
  have hlength : (ctx.objects group).length = (ctx.parts group).length := List.length_map _
  have hlead : lead ((ctx.objects group).take (ctx.parts group).length) = ctx.parts group := by
    rw [List.take_of_length_le (Nat.le_of_eq hlength), objects_full hfull, lead_map_some]
  have hturns : turns (ctx.parts group).length (ctx.parts group).length 0
      [ctx.objects group, ctx.objects array] = _ :=
    turns_full (congrArg List.length hlead) (Nat.zero_add (ctx.parts group).length)
  rw [hlead, List.drop_zero] at hturns
  rw [hturns] at hlevels hbody
  obtain rfl : e = 0 := by
    have := congrArg List.length hlevels
    simp only [List.length_drop, List.length_cons, List.length_nil] at this
    omega
  exact hbody fields map

/-- A group with an element that is no object leaves the cursor where no array is above it. -/
theorem groupBody_broken (h : ctx.On array) (hup : ctx.Idle (ctx.up array)) {group : Nat}
    (hitem : ctx.item .array array i = some group)
    (hbroken : ¬(ctx.parts group).all (ctx.isType .object) = true) :
    ∃ e, ctx.Below (ctx.up^[e] array) [] ∧
      ∀ fields map, groupBody i ⟨ctx.goto array, fields, map⟩ =
        (ctx.putRounds (brokenRounds (ctx.objects group) (ctx.objects array)) (fields, map)).map
          fun r => ⟨ctx.goto (ctx.up^[e] array), r.1, r.2⟩ := by
  obtain ⟨e, hlevels, hbody⟩ := groupBody_some h hup hitem
  have hlength : (ctx.objects group).length = (ctx.parts group).length := List.length_map _
  have hlt : (lead (ctx.objects group)).length < (ctx.objects group).length :=
    Nat.lt_of_le_of_ne (length_lead_le _) fun heq => hbroken ((full_iff ctx group).mpr
      (heq.trans hlength))
  obtain ⟨levels, htail, hturns⟩ := turns_broken (ctx.objects array) hlt
  rw [hlength] at hturns
  rw [hturns] at hlevels hbody
  refine ⟨e, ?_, hbody⟩
  have hbelow := (below_array (item_eq_some.mp hitem).1 hup.below).iterate e
  have hnil : [ctx.objects array].drop e = [] := by
    have hnil := congrArg List.tail hlevels
    rw [htail, List.tail_drop, List.drop_succ_cons] at hnil
    exact hnil.symm
  rwa [hnil] at hbelow

/-- After a group that is broken nothing is found. -/
theorem groups_idle (h : ctx.On x) (hidle : ctx.Below x []) (n i : Nat) (fields : Fields)
    (map : MapStr) :
    forRange groupBody n i ⟨ctx.goto x, fields, map⟩ = some ⟨ctx.goto x, fields, map⟩ := by
  induction n generalizing i with
  | zero => rfl
  | succ n ih => rw [forRange, groupBody_none h (hidle.item_array i), Option.bind_some, ih]

theorem putRounds_append (a b : List (Round Nat)) (r : Fields × MapStr) :
    ctx.putRounds (a ++ b) r = (ctx.putRounds a r).bind (ctx.putRounds b) := List.foldlM_append

/-- The loop over the groups puts the lists of all turns into the map. -/
theorem groups_eq (h : ctx.On array) (harray : ctx.isType .array array = true)
    (hup : ctx.Idle (ctx.up array)) {n : Nat} (hn : i + n = (ctx.parts array).length) :
    ∃ d, ∀ fields map, forRange groupBody n i ⟨ctx.goto array, fields, map⟩ =
      (ctx.putRounds (ctx.groupRounds (ctx.objects array) ((ctx.parts array).drop i))
        (fields, map)).map fun r => ⟨ctx.goto (ctx.up^[d] array), r.1, r.2⟩ := by
  induction n generalizing i with
  | zero =>
    refine ⟨0, fun fields map => ?_⟩
    rw [List.drop_eq_nil_of_le (by omega)]
    rfl
  | succ n ih =>
    have hlt : i < (ctx.parts array).length := by omega
    obtain ⟨d, hrest⟩ := ih (i := i + 1) (by omega)
    rw [List.drop_eq_getElem_cons hlt, groupRounds]
    have hget := List.getElem?_eq_getElem hlt
    generalize (ctx.parts array)[i] = group at hget
    by_cases hgroup : ctx.isType .array group = true
    swap
    · have hitem : ctx.item .array array i = none := by
        rw [item, if_pos harray, hget, Option.filter_some, if_neg hgroup]
      refine ⟨d, fun fields map => ?_⟩
      rw [if_neg hgroup, forRange, groupBody_none h hitem, Option.bind_some, hrest]
    have hitem := item_eq_some.mpr ⟨harray, hget, hgroup⟩
    rw [if_pos hgroup]
    by_cases hfull : (ctx.parts group).all (ctx.isType .object) = true
    · refine ⟨d, fun fields map => ?_⟩
      rw [if_pos hfull, forRange, groupBody_full h hup hitem hfull, putRounds_append]
      cases ctx.putRounds (fullRounds (ctx.parts group)) (fields, map) with
      | none => rfl
      | some r => exact hrest r.1 r.2
    · obtain ⟨e, hidle, hbody⟩ := groupBody_broken h hup hitem hfull
      refine ⟨e, fun fields map => ?_⟩
      rw [if_neg hfull, forRange, hbody]
      cases ctx.putRounds (brokenRounds (ctx.objects group) (ctx.objects array)) (fields, map) with
      | none => rfl
      | some r => exact groups_idle (h.iterate e) hidle n (i + 1) r.1 r.2

end

/-! ### The map -/

/-- The turns fill the map exactly if their lists can be put together and stored. -/
theorem putRounds_isSome {rounds : List (Round Nat)} {fields : Fields} {map : MapStr}
    (hvalid : map.Valid) : (ctx.putRounds rounds (fields, map)).isSome ↔
      ∃ lists, ctx.entries fields rounds = some lists ∧
        (lists.foldlM Links.store map.links).isSome := by
  induction rounds generalizing fields map with
  | nil => exact iff_of_true rfl ⟨[], rfl, rfl⟩
  | cons round rounds ih =>
    rw [putRounds, List.foldlM_cons, entries, putRound]
    dsimp only [Bind.bind]
    cases ctx.entry fields round with
    | none => simp
    | some r =>
      obtain ⟨fields, key, value⟩ := r
      rw [Option.bind_some, Option.bind_some]
      dsimp only
      have hlists : (∃ lists, ((ctx.entries fields rounds).bind fun lists =>
            some ((key, value) :: lists)) = some lists ∧
          (lists.foldlM Links.store map.links).isSome) ↔
          ∃ lists, ctx.entries fields rounds = some lists ∧
            ((map.links.store (key, value)).bind (lists.foldlM Links.store)).isSome := by
        constructor
        · rintro ⟨lists, hlists, hstore⟩
          obtain ⟨rest, hrest, heq⟩ := Option.bind_eq_some_iff.mp hlists
          obtain rfl := Option.some.inj heq
          exact ⟨rest, hrest, hstore⟩
        · rintro ⟨rest, hrest, hstore⟩
          exact ⟨(key, value) :: rest, by rw [hrest]; rfl, hstore⟩
      refine Iff.trans ?_ hlists.symm
      rw [Links.store]
      by_cases hfit : value.length < 256
      · have hsame := mapSet_same hvalid key value (value.length + 1)
        rw [if_pos hfit, if_pos hfit]
        generalize mapSet map key value (value.length + 1) = set at hsame
        generalize map.links.set key value (value.length + 1) = set' at hsame
        cases hsame with
        | none => simp
        | @some map' links h =>
          obtain ⟨hvalid', rfl⟩ := h
          exact ih hvalid'
      · rw [if_neg hfit, if_neg hfit]
        simp

theorem links_init : mapInit.links = fun _ => none := by
  funext key
  simp [MapStr.links, mapGetref, mapInit]

end JparseCtx

end VhomeBridge.Link
