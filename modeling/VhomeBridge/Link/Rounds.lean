import Mathlib.Data.List.ReduceOption
import Mathlib.Data.List.Basic

/-! What the loops over a group read.  In a group of objects each of them has its turn, in which it
is read first and then the others.  At the first element that is none the array of the groups takes
the place of the group, at the first element of it that is none nothing does, and the turns go
on. -/

namespace VhomeBridge.Link

variable {α : Type*}

/-- The objects read in a turn: the one that the list is stored for, if there is one, and those
whose ids are put into the list. -/
structure Round (α : Type*) where
  own : Option α
  others : List α

/-- The objects read in a turn, in their order. -/
def Round.objects (round : Round α) : List α := round.own.toList ++ round.others

/-- The turns of a group of objects. -/
def fullRounds (objects : List α) : List (Round α) :=
  objects.mapIdx fun j y => ⟨some y, objects.eraseIdx j⟩

/-- Turns in which nothing is read. -/
def noRounds (n : Nat) : List (Round α) := List.replicate n ⟨none, []⟩

/-- The objects before the first element that is none. -/
def lead (elements : List (Option α)) : List α := (elements.takeWhile Option.isSome).reduceOption

/-- The turns after the first in a group of `n` elements, on the elements of `link`. -/
def linkRounds (n : Nat) (link : List (Option α)) : List (Round α) :=
  let front := lead (link.take n)
  if front.length = n then (fullRounds front).tail
  else
    match link[1]?.join with
    | some y => ⟨some y, front.eraseIdx 1⟩ :: noRounds (n - 2)
    | none => noRounds (n - 1)

/-- The turns of a group with an element that is no object, among the elements of `link`. -/
def brokenRounds (group link : List (Option α)) : List (Round α) :=
  let n := group.length
  match lead group with
  | [] =>
    let front := lead (link.take n)
    ⟨none, front.tail⟩ :: if front.length = n then linkRounds n link else noRounds (n - 1)
  | y :: others =>
    let front := lead ((link.take n).drop (others.length + 2))
    ⟨some y, others ++ front⟩ ::
      if others.length + 2 + front.length = n then linkRounds n link else noRounds (n - 1)

/-! ### The loops -/

/-- Arrays, each with those above it. -/
abbrev Levels (α : Type*) := List (List (Option α))

def Levels.object (levels : Levels α) (k : Nat) : Option α :=
  levels.head?.bind fun elements => elements[k]?.join

/-- The loop over `k`: the objects that are read, and where it ends. -/
def sweep (j : Nat) : Levels α → List Nat → List α × Levels α
  | levels, [] => ([], levels)
  | levels, k :: ks =>
    match levels.object k with
    | some y =>
      let r := sweep j levels ks
      (if k ≠ j then y :: r.1 else r.1, r.2)
    | none => sweep j levels.tail ks

/-- A turn of the loop over `j`. -/
def turn (n j : Nat) (levels : Levels α) : Round α × Levels α :=
  let r := sweep j (if (levels.object j).isSome then levels else levels.tail) (List.range n)
  (⟨levels.object j, r.1⟩, r.2)

def turns (n : Nat) : (count j : Nat) → Levels α → List (Round α) × Levels α
  | 0, _, levels => ([], levels)
  | count + 1, j, levels =>
    let r := turn n j levels
    let rest := turns n count (j + 1) r.2
    (r.1 :: rest.1, rest.2)

/-! ### The first objects -/

section

variable {top : List (Option α)} {rest : Levels α} {y : α} {j k n : Nat}

@[simp] theorem lead_nil : lead ([] : List (Option α)) = [] := rfl

@[simp] theorem lead_cons_some (y : α) (l : List (Option α)) :
    lead (some y :: l) = y :: lead l := by
  simp [lead]

@[simp] theorem lead_cons_none (l : List (Option α)) : lead (none :: l) = [] := by
  simp [lead]

theorem length_lead_le (l : List (Option α)) : (lead l).length ≤ l.length := by
  induction l with
  | nil => exact Nat.le_refl 0
  | cons a l ih =>
    cases a with
    | none => simp
    | some y => simpa using ih

theorem drop_of_join (h : top[k]?.join = some y) : top.drop k = some y :: top.drop (k + 1) := by
  obtain ⟨hlt, hget⟩ := List.getElem?_eq_some_iff.mp (Option.join_eq_some_iff.mp h)
  rw [List.drop_eq_getElem_cons hlt, hget]

theorem lead_drop_none (h : top[k]?.join = none) : lead ((top.drop k).take n) = [] := by
  cases n with
  | zero => rw [List.take_zero, lead_nil]
  | succ n =>
    cases hget : top[k]? with
    | none =>
      rw [List.drop_eq_nil_of_le (List.getElem?_eq_none_iff.mp hget), List.take_nil, lead_nil]
    | some a =>
      rw [hget] at h
      obtain rfl : a = none := h
      obtain ⟨hlt, hnone⟩ := List.getElem?_eq_some_iff.mp hget
      rw [List.drop_eq_getElem_cons hlt, hnone, List.take_succ_cons, lead_cons_none]

/-- The first objects are at the first indices. -/
theorem getElem?_lead {l : List (Option α)} (h : k < (lead l).length) :
    l[k]?.join = (lead l)[k]? := by
  induction l generalizing k with
  | nil => simp at h
  | cons a l ih =>
    cases a with
    | none => simp at h
    | some y =>
      cases k with
      | zero => simp
      | succ k => simpa using ih (by simpa using h)

theorem lead_map_some (l : List α) : lead (l.map some) = l := by
  induction l with
  | nil => rfl
  | cons y l ih => rw [List.map_cons, lead_cons_some, ih]

/-! ### What is read -/

theorem Round.mem_objects {round : Round α} :
    y ∈ round.objects ↔ round.own = some y ∨ y ∈ round.others := by
  rw [objects, List.mem_append, Option.mem_toList]

theorem some_mem_of_lead {l : List (Option α)} (h : y ∈ lead l) : some y ∈ l := by
  rw [lead, List.reduceOption_mem_iff] at h
  exact List.takeWhile_subset _ h

theorem mem_of_fullRounds {l : List α} {round : Round α} (h : round ∈ fullRounds l)
    (hy : y ∈ round.objects) : y ∈ l := by
  obtain ⟨j, hj, rfl⟩ := List.mem_mapIdx.mp h
  obtain hown | hothers := Round.mem_objects.mp hy
  · exact Option.some.inj hown ▸ List.getElem_mem hj
  · exact List.mem_of_mem_eraseIdx hothers

theorem not_mem_of_noRounds {round : Round α} (h : round ∈ noRounds n) : y ∉ round.objects := by
  rw [List.eq_of_mem_replicate h]
  exact List.not_mem_nil

theorem some_mem_of_linkRounds {link : List (Option α)} {round : Round α}
    (h : round ∈ linkRounds n link) (hy : y ∈ round.objects) : some y ∈ link := by
  have hfront {x : α} (hlead : x ∈ lead (link.take n)) : some x ∈ link :=
    List.mem_of_mem_take (some_mem_of_lead hlead)
  unfold linkRounds at h
  dsimp only at h
  split at h
  · exact hfront (mem_of_fullRounds (List.mem_of_mem_tail h) hy)
  · split at h
    · rename_i x hx
      obtain rfl | h := List.mem_cons.mp h
      · obtain hown | hothers := Round.mem_objects.mp hy
        · obtain rfl := Option.some.inj hown
          exact List.mem_of_getElem? (Option.join_eq_some_iff.mp hx)
        · exact hfront (List.mem_of_mem_eraseIdx hothers)
      · exact absurd hy (not_mem_of_noRounds h)
    · exact absurd hy (not_mem_of_noRounds h)

theorem some_mem_of_brokenRounds {group link : List (Option α)} {round : Round α}
    (h : round ∈ brokenRounds group link) (hy : y ∈ round.objects) :
    some y ∈ group ∨ some y ∈ link := by
  have hrest {alive : Prop} [Decidable alive]
      (h : round ∈ if alive then linkRounds group.length link else noRounds (group.length - 1)) :
      some y ∈ link := by
    split at h
    · exact some_mem_of_linkRounds h hy
    · exact absurd hy (not_mem_of_noRounds h)
  unfold brokenRounds at h
  dsimp only at h
  split at h
  · obtain rfl | h := List.mem_cons.mp h
    · obtain hown | hothers := Round.mem_objects.mp hy
      · cases hown
      · exact .inr (List.mem_of_mem_take (some_mem_of_lead (List.mem_of_mem_tail hothers)))
    · exact .inr (hrest h)
  · rename_i x others hlead
    obtain rfl | h := List.mem_cons.mp h
    · have hgroup {z : α} (hz : z ∈ x :: others) : some z ∈ group :=
        some_mem_of_lead (hlead ▸ hz)
      obtain hown | hothers := Round.mem_objects.mp hy
      · exact .inl (hgroup (Option.some.inj hown ▸ List.mem_cons_self))
      · obtain hothers | hfront := List.mem_append.mp hothers
        · exact .inl (hgroup (List.mem_cons_of_mem x hothers))
        · exact .inr (List.mem_of_mem_take (List.mem_of_mem_drop (some_mem_of_lead hfront)))
    · exact .inr (hrest h)

/-! ### The loop over `k` -/

theorem sweep_hit {ks : List Nat} {levels : Levels α} (h : levels.object k = some y) :
    sweep j levels (k :: ks) =
      (if k ≠ j then y :: (sweep j levels ks).1 else (sweep j levels ks).1,
        (sweep j levels ks).2) := by
  rw [sweep, h]

theorem sweep_miss {ks : List Nat} {levels : Levels α} (h : levels.object k = none) :
    sweep j levels (k :: ks) = sweep j levels.tail ks := by
  rw [sweep, h]

@[simp] theorem sweep_none (j : Nat) (ks : List Nat) : sweep j ([] : Levels α) ks = ([], []) := by
  induction ks with
  | nil => rfl
  | cons k ks ih => rw [sweep_miss rfl, List.tail_nil, ih]

/-- The objects from an index on, without that at `j`. -/
def without (j k : Nat) (objects : List α) : List α :=
  if k ≤ j then objects.eraseIdx (j - k) else objects

theorem without_cons (j k : Nat) (y : α) (objects : List α) :
    without j k (y :: objects) =
      if k ≠ j then y :: without j (k + 1) objects else without j (k + 1) objects := by
  unfold without
  rcases Nat.lt_trichotomy k j with hlt | rfl | hgt
  · obtain ⟨d, rfl⟩ : ∃ d, j = k + 1 + d := ⟨j - (k + 1), by omega⟩
    rw [if_pos (by omega), if_pos (by omega), if_pos (by omega),
      show k + 1 + d - k = d + 1 by omega, Nat.add_sub_cancel_left, List.eraseIdx_cons_succ]
  · rw [if_pos (Nat.le_refl k), if_neg (by simp), if_neg (by omega), Nat.sub_self,
      List.eraseIdx_cons_zero]
  · rw [if_neg (by omega), if_pos (by omega), if_neg (by omega)]

theorem without_of_lt (h : j < k) (objects : List α) : without j k objects = objects :=
  if_neg (Nat.not_le_of_lt h)

/-- The loop reads the objects up to the first element that is none, and goes on above. -/
theorem sweep_range' (top : List (Option α)) (rest : Levels α) (j k m : Nat) :
    sweep j (top :: rest) (List.range' k m) =
      let front := lead ((top.drop k).take m)
      if front.length = m then (without j k front, top :: rest)
      else
        let r := sweep j rest (List.range' (k + front.length + 1) (m - front.length - 1))
        (without j k front ++ r.1, r.2) := by
  induction m generalizing k with
  | zero => simp [sweep, without]
  | succ m ih =>
    rw [List.range'_succ]
    cases hobject : top[k]?.join with
    | none =>
      have hmiss : Levels.object (top :: rest) k = none := hobject
      have hnil : (without j k ([] : List α)) = [] := by simp [without]
      rw [sweep_miss hmiss, lead_drop_none hobject]
      simp [hnil]
    | some y =>
      have hhit : Levels.object (top :: rest) k = some y := hobject
      rw [sweep_hit hhit, ih, drop_of_join hobject, List.take_succ_cons, lead_cons_some]
      generalize lead ((top.drop (k + 1)).take m) = front
      dsimp only
      rw [without_cons, List.length_cons]
      by_cases hfull : front.length = m
      · simp only [hfull, if_true]
      · have hfull' : ¬front.length + 1 = m + 1 := by omega
        have hk : k + (front.length + 1) + 1 = k + 1 + front.length + 1 := by omega
        have hm : m + 1 - (front.length + 1) - 1 = m - front.length - 1 := by omega
        simp only [hfull, hfull', hk, hm, if_false]
        split <;> rfl

/-! ### The loop over `j` -/

theorem length_fullRounds (l : List α) : (fullRounds l).length = l.length := List.length_mapIdx

theorem drop_fullRounds {l : List α} (h : j < l.length) : (fullRounds l).drop j =
    ⟨l[j]?, l.eraseIdx j⟩ :: (fullRounds l).drop (j + 1) := by
  rw [List.drop_eq_getElem_cons (by rwa [length_fullRounds]), List.getElem?_eq_getElem h]
  simp only [fullRounds, List.getElem_mapIdx]

theorem noRounds_succ (n : Nat) : (noRounds (n + 1) : List (Round α)) = ⟨none, []⟩ :: noRounds n :=
  List.replicate_succ

theorem turns_none (n count j : Nat) :
    turns n count j ([] : Levels α) = (noRounds count, []) := by
  induction count generalizing j with
  | zero => rfl
  | succ count ih =>
    have hturn : turn n j ([] : Levels α) = (⟨none, []⟩, []) := by
      simp [turn, Levels.object]
    rw [turns, hturn, ih, noRounds_succ]

/-- A turn among objects at all indices. -/
theorem turn_full (hfull : (lead (top.take n)).length = n) (hj : j < n) :
    turn n j (top :: rest) =
      (⟨(lead (top.take n))[j]?, (lead (top.take n)).eraseIdx j⟩, top :: rest) := by
  have hobject : Levels.object (top :: rest) j = (lead (top.take n))[j]? := by
    rw [← getElem?_lead (by omega), List.getElem?_take_of_lt hj]
    rfl
  have hsweep := sweep_range' top rest j 0 n
  rw [List.drop_zero] at hsweep
  dsimp only at hsweep
  rw [if_pos hfull, without, if_pos (Nat.zero_le j), Nat.sub_zero] at hsweep
  have hsome : ((lead (top.take n))[j]?).isSome := by
    rw [List.getElem?_eq_getElem (by omega), Option.isSome_some]
  rw [turn, hobject, if_pos hsome, List.range_eq_range', hsweep]

/-- Among objects at all indices each has its turn. -/
theorem turns_full (hfull : (lead (top.take n)).length = n) {count : Nat} (hcount : j + count = n) :
    turns n count j (top :: rest) = ((fullRounds (lead (top.take n))).drop j, top :: rest) := by
  induction count generalizing j with
  | zero =>
    rw [turns, List.drop_eq_nil_of_le (by rw [length_fullRounds]; omega)]
  | succ count ih =>
    rw [turns, turn_full hfull (by omega), drop_fullRounds (by omega)]
    dsimp only
    rw [ih (by omega)]

/-- The turns after the first on the elements of `link` alone. -/
theorem turns_link {link : List (Option α)} (hn : 0 < n)
    (h : n = 1 → (lead (link.take n)).length = n) :
    ∃ levels : Levels α, levels.tail = [] ∧
      turns n (n - 1) 1 [link] = (linkRounds n link, levels) := by
  rw [linkRounds]
  by_cases hfull : (lead (link.take n)).length = n
  · rw [if_pos hfull, turns_full hfull (by omega), List.drop_one]
    exact ⟨_, rfl, rfl⟩
  · rw [if_neg hfull]
    refine ⟨[], rfl, ?_⟩
    obtain ⟨m, rfl⟩ : ∃ m, n = m + 2 := ⟨n - 2, by
      have : n ≠ 1 := fun hone => hfull (h hone)
      omega⟩
    rw [show m + 2 - 1 = m + 1 by omega, turns, turn]
    cases hobject : link[1]?.join with
    | none =>
      have hnone : Levels.object [link] 1 = none := hobject
      simp only [hnone, Option.isSome_none, Bool.false_eq_true, if_false, List.tail_cons,
        sweep_none, turns_none, noRounds_succ]
    | some y =>
      have hsome : Levels.object [link] 1 = some y := hobject
      have hsweep := sweep_range' link [] 1 0 (m + 2)
      rw [List.drop_zero] at hsweep
      dsimp only at hsweep
      rw [if_neg hfull, without, if_pos (Nat.zero_le 1), Nat.sub_zero, sweep_none,
        List.append_nil] at hsweep
      simp only [hsome, Option.isSome_some, if_true, List.range_eq_range', hsweep, turns_none,
        Nat.add_sub_cancel]

/-- The turns after the first, if `link` is still there. -/
theorem turns_after (link : List (Option α)) (alive : Prop) [Decidable alive] (hn : 0 < n)
    (h : alive → n = 1 → (lead (link.take n)).length = n) :
    ∃ levels : Levels α, levels.tail = [] ∧
      turns n (n - 1) 1 (if alive then [link] else []) =
        (if alive then linkRounds n link else noRounds (n - 1), levels) := by
  by_cases hb : alive
  · rw [if_pos hb, if_pos hb]
    exact turns_link hn (h hb)
  · rw [if_neg hb, if_neg hb, turns_none]
    exact ⟨[], rfl, rfl⟩

/-- The first turn of a group that does not start with an object. -/
theorem turn_zero_nil {group : List (Option α)} (link : List (Option α)) (n : Nat)
    (hlead : lead group = []) :
    turn n 0 [group, link] = (⟨none, (lead (link.take n)).tail⟩,
      if (lead (link.take n)).length = n then [link] else []) := by
  have hobject : Levels.object [group, link] 0 = none := by
    cases group with
    | nil => rfl
    | cons a group =>
      cases a with
      | none => rfl
      | some y => simp at hlead
  have hsweep := sweep_range' link [] 0 0 n
  rw [List.drop_zero] at hsweep
  dsimp only at hsweep
  rw [sweep_none, without, if_pos (Nat.zero_le 0), Nat.sub_self, List.eraseIdx_zero,
    List.append_nil] at hsweep
  rw [turn, hobject]
  simp only [Option.isSome_none, Bool.false_eq_true, if_false, List.tail_cons,
    List.range_eq_range', hsweep]
  split <;> rfl

/-- The first turn of a group that starts with some objects: `link` comes after these. -/
theorem turn_zero_cons {group : List (Option α)} (link : List (Option α)) {others : List α}
    (hlead : lead group = y :: others) (hlength : others.length + 1 < group.length) :
    turn group.length 0 [group, link] =
      let front := lead ((link.take group.length).drop (others.length + 2))
      (⟨some y, others ++ front⟩,
        if others.length + 2 + front.length = group.length then [link] else []) := by
  have hobject : Levels.object [group, link] 0 = some y := by
    have hzero := getElem?_lead (l := group) (k := 0) (by rw [hlead]; exact Nat.succ_pos _)
    rw [hlead] at hzero
    exact hzero
  generalize hn : group.length = n at hlength
  have hgroup := sweep_range' group [link] 0 0 n
  rw [List.drop_zero, List.take_of_length_le (by omega), hlead] at hgroup
  dsimp only [List.length_cons] at hgroup
  rw [if_neg (by omega), without, if_pos (Nat.zero_le 0), Nat.sub_self, List.eraseIdx_zero,
    List.tail_cons, show 0 + (others.length + 1) + 1 = others.length + 2 by omega,
    show n - (others.length + 1) - 1 = n - (others.length + 2) by omega,
    sweep_range' link [] 0 (others.length + 2) (n - (others.length + 2)),
    ← List.drop_take] at hgroup
  dsimp only at hgroup ⊢
  generalize lead ((link.take n).drop (others.length + 2)) = front at hgroup ⊢
  rw [sweep_none, without_of_lt (by omega), List.append_nil] at hgroup
  rw [turn, hobject]
  simp only [Option.isSome_some, if_true, List.range_eq_range', hgroup]
  by_cases hfull : others.length + 2 + front.length = n
  · rw [if_pos hfull, if_pos (by omega)]
  · rw [if_neg hfull, if_neg (by omega)]

/-- The turns of a group that has an element that is no object. -/
theorem turns_broken {group : List (Option α)} (link : List (Option α))
    (h : (lead group).length < group.length) :
    ∃ levels : Levels α, levels.tail = [] ∧
      turns group.length group.length 0 [group, link] = (brokenRounds group link, levels) := by
  have hpos : 0 < group.length := Nat.zero_lt_of_lt h
  have hfirst : turns group.length group.length 0 [group, link] =
      let r := turn group.length 0 [group, link]
      let rest := turns group.length (group.length - 1) 1 r.2
      (r.1 :: rest.1, rest.2) := by
    obtain ⟨m, hm⟩ : ∃ m, group.length = m + 1 := ⟨group.length - 1, by omega⟩
    rw [hm]
    rfl
  rw [hfirst, brokenRounds]
  dsimp only
  cases hlead : lead group with
  | nil =>
    rw [turn_zero_nil link _ hlead]
    obtain ⟨levels, htail, hrest⟩ := turns_after link
      ((lead (link.take group.length)).length = group.length) hpos fun hfull _ => hfull
    exact ⟨levels, htail, by rw [hrest]⟩
  | cons y others =>
    rw [hlead] at h
    rw [turn_zero_cons link hlead h]
    dsimp only
    obtain ⟨levels, htail, hrest⟩ := turns_after link
      (others.length + 2 + (lead ((link.take group.length).drop (others.length + 2))).length =
        group.length) hpos fun _ hone => by omega
    exact ⟨levels, htail, by rw [hrest]⟩

end

end VhomeBridge.Link
