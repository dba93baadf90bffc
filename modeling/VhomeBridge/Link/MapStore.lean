import Mathlib.Algebra.Group.Nat.Defs
import VhomeBridge.Lib.Run
import VhomeBridge.Link.Map

/-! The map through any sequence of calls.  An allocation may fail: then `map_set_` says so, and the
map is as it was, with its nodes in the order that `map_resize` left them.  Beside the map stands a
record of the nodes that `malloc` gave and of those that were freed. -/

namespace VhomeBridge.Link

open Lib

/-- What the allocator gives to a call of `map_set_`. -/
structure Alloc where
  malloc : Bool
  realloc : Bool
  deriving DecidableEq

/-- A call that changes the map. -/
inductive MapCall
  | set (key value : Text) (vsize : Nat) (alloc : Alloc)
  | remove (key : Text)
  deriving DecidableEq

/-- The map, and the keys of the nodes that were allocated and freed. -/
structure MapStore where
  map : MapStr
  made : List Text
  freed : List Text

/-- `map_resize`, with whether it returns 0.  If `realloc` gives nothing the nodes go back into the
buckets that there are. -/
def mapResizeWith (m : MapStr) (nbuckets : Nat) (realloc : Bool) : MapStr × Bool :=
  if realloc then (mapResize m nbuckets, true) else (mapResize m m.buckets.length, false)

/-- The part of `map_set_` that makes room for another node. -/
def makeRoom (m : MapStr) (realloc : Bool) : MapStr × Bool :=
  if m.nnodes ≥ m.buckets.length then
    mapResizeWith m (if 0 < m.buckets.length then m.buckets.length * 2 else 1) realloc
  else (m, true)

namespace MapStore

/-- After `map_init`. -/
def init : MapStore := ⟨mapInit, [], []⟩

/-- The end of `map_set_` for a new node, which is freed if there is no room for it. -/
def addNode (s : MapStore) (key value : Text) (vsize : Nat) (alloc : Alloc) : MapStore × Bool :=
  if alloc.malloc then
    let (m, ok) := makeRoom s.map alloc.realloc
    if ok then
      (⟨⟨m.buckets.add MapNode.slot ⟨mapHash key, key, value, vsize⟩, m.nnodes + 1⟩,
        s.made ++ [key], s.freed⟩, true)
    else (⟨m, s.made ++ [key], s.freed ++ [key]⟩, false)
  else (s, false)

/-- `map_set_`, with whether it returns 0. -/
def mapSet (s : MapStore) (key value : Text) (vsize : Nat) (alloc : Alloc) :
    Option (MapStore × Bool) :=
  match mapGetref s.map key with
  | some node =>
    if vsize ≤ node.vsize then
      some ({ s with map := { s.map with
        buckets := s.map.buckets.update (mapBucketidx s.map.buckets.length (mapHash key))
          (MapNode.hit key) fun node => { node with value := value } } }, true)
    else none
  | none => some (s.addNode key value vsize alloc)

/-- `map_remove_`. -/
def mapRemove (s : MapStore) (key : Text) : MapStore :=
  match mapGetref s.map key with
  | some node =>
    { s with
      map := ⟨s.map.buckets.remove (mapBucketidx s.map.buckets.length (mapHash key))
        (MapNode.hit key), s.map.nnodes - 1⟩
      freed := s.freed ++ [node.key] }
  | none => s

/-- A call and what it returns; `map_remove_` returns nothing. -/
def call (s : MapStore) : MapCall → Option (MapStore × Bool)
  | .set key value vsize alloc => s.mapSet key value vsize alloc
  | .remove key => some (s.mapRemove key, true)

/-- A call that returns what the label says. -/
def step (s : MapStore) (e : MapCall × Bool) : Option MapStore :=
  (s.call e.1).bind fun r => if r.2 = e.2 then some r.1 else none

/-- The keys whose nodes `map_deinit_` frees, the last bucket first. -/
def mapDeinit (s : MapStore) : List Text := s.map.buckets.reverse.flatten.map (·.key)

end MapStore

/-! ### Iterating -/

/-- `map_iter_t`.  `begun` is `bucketidx + 1`, and `node` is the chain from the node on. -/
structure MapIter where
  begun : Nat
  node : List MapNode

/-- `map_iter_`. -/
def mapIter : MapIter := ⟨0, []⟩

/-- The loop of `map_next_` over the buckets that are left. -/
def nextBucket : Chains MapNode → Nat → MapIter × Option Text
  | [], begun => (⟨begun + 1, []⟩, none)
  | [] :: buckets, begun => nextBucket buckets (begun + 1)
  | (node :: chain) :: _, begun => (⟨begun + 1, node :: chain⟩, some node.key)

/-- `map_next_`. -/
def mapNext (m : MapStr) (iter : MapIter) : MapIter × Option Text :=
  match iter.node with
  | _ :: node :: chain => ({ iter with node := node :: chain }, some node.key)
  | _ => nextBucket (m.buckets.drop iter.begun) iter.begun

/-- What a number of calls of `map_next_` return. -/
def mapNexts (m : MapStr) : Nat → MapIter → List (Option Text)
  | 0, _ => []
  | n + 1, iter => (mapNext m iter).2 :: mapNexts m n (mapNext m iter).1

/-! ### The map as an abstract map -/

/-- What a call that returns `ok` does. -/
def Links.step (f : Links) : MapCall × Bool → Option Links
  | (.set key value vsize _, true) => f.set key value vsize
  | (.set key _ _ alloc, false) =>
    -- only the allocation for a new key fails
    if f key = none ∧ ¬(alloc.malloc = true ∧ alloc.realloc = true) then some f else none
  | (.remove key, ok) => if ok then some fun k => if k = key then none else f k else none

/-- The call does not write behind the room for a value. -/
def MapCall.Fits (f : Links) : MapCall → Prop
  | .set key _ vsize _ => ∀ value room, f key = some (value, room) → vsize ≤ room
  | .remove _ => True

/-- What holds of a map between calls. -/
structure MapStore.Sound (s : MapStore) : Prop where
  valid : s.map.Valid
  count : s.map.nnodes = s.map.buckets.items.length
  full : s.map.nnodes ≤ s.map.buckets.length
  buckets : s.map.buckets.length = 0 ∨ ∃ k, s.map.buckets.length = 2 ^ k
  owned : s.made.Perm (s.freed ++ s.map.buckets.items.map (·.key))

/-! ### One call -/

namespace MapStr

variable {m : MapStr} {key : Text} {node : MapNode}

theorem find_of_getref (h : mapGetref m key = some node) :
    m.buckets.find (mapBucketidx m.buckets.length (mapHash key)) (MapNode.hit key) = some node := by
  unfold mapGetref at h
  split at h
  · exact h
  · contradiction

theorem Valid.remove (h : m.Valid) (hfound : mapGetref m key = some node) (nnodes : Nat) :
    let m' : MapStr := ⟨m.buckets.remove (mapBucketidx m.buckets.length (mapHash key))
      (MapNode.hit key), nnodes⟩
    m'.Valid ∧ (m'.links = fun k => if k = key then none else m.links k) ∧
      m.buckets.items.Perm (node :: m'.buckets.items) := by
  intro m'
  obtain ⟨-, rfl⟩ := h.getref_eq_some_iff.mp hfound
  obtain ⟨before, after, hitems, hitems'⟩ := Chains.items_remove (find_of_getref hfound)
  have hperm : m.buckets.items.Perm (node :: m'.buckets.items) := by
    rw [hitems, hitems']
    exact List.perm_middle
  have hkeys := (hperm.map (·.key)).nodup_iff.mp h.keys
  rw [List.map_cons, List.nodup_cons] at hkeys
  have hvalid : m'.Valid :=
    ⟨h.placed.remove, fun n hn => h.hash n (hperm.mem_iff.mpr (List.mem_cons_of_mem _ hn)), hkeys.2⟩
  refine ⟨hvalid, funext fun k => ?_, hperm⟩
  split
  · rename_i hk
    subst hk
    rw [links, hvalid.getref_eq_none_iff.mpr]
    · rfl
    · exact fun n hn hkey => hkeys.1 (List.mem_map.mpr ⟨n, hn, hkey⟩)
  · rename_i hk
    ext ⟨v, room⟩
    simp only [h.links_eq_some_iff, hvalid.links_eq_some_iff, hperm.mem_iff, List.mem_cons]
    refine exists_congr fun n => and_congr_left ?_
    rintro ⟨hkey, -⟩
    refine ⟨.inr, fun hn => hn.resolve_left ?_⟩
    rintro rfl
    exact hk hkey.symm

/-- The nodes go back into the buckets that there are. -/
theorem Valid.resize_self (h : m.Valid) :
    (mapResize m m.buckets.length).Valid ∧ (mapResize m m.buckets.length).links = m.links ∧
      (mapResize m m.buckets.length).buckets.items.Perm m.buckets.items := by
  by_cases hpos : 0 < m.buckets.length
  · exact ⟨(h.resize hpos).1, (h.resize hpos).2, items_resize hpos⟩
  · obtain ⟨buckets, nnodes⟩ := m
    obtain rfl : buckets = [] := List.length_eq_zero_iff.mp (Nat.le_zero.mp (Nat.not_lt.mp hpos))
    exact ⟨h, rfl, .refl _⟩

/-- The map with room for another node, or as it was. -/
structure Roomy (m : MapStr) (realloc : Bool) (r : MapStr × Bool) : Prop where
  valid : r.1.Valid
  links : r.1.links = m.links
  items : r.1.buckets.items.Perm m.buckets.items
  nnodes : r.1.nnodes = m.nnodes
  room : r.2 = true → m.nnodes < r.1.buckets.length ∧ ∃ k, r.1.buckets.length = 2 ^ k
  failed : r.2 = false → realloc = false ∧ r.1.buckets.length = m.buckets.length

theorem Valid.makeRoom (h : m.Valid) (hfull : m.nnodes ≤ m.buckets.length)
    (hbuckets : m.buckets.length = 0 ∨ ∃ k, m.buckets.length = 2 ^ k) (realloc : Bool) :
    Roomy m realloc (makeRoom m realloc) := by
  unfold Link.makeRoom
  split
  · cases realloc with
    | false =>
      obtain ⟨hvalid, hlinks, hitems⟩ := h.resize_self
      exact ⟨hvalid, hlinks, hitems, rfl, fun hok => (Bool.false_ne_true hok).elim,
        fun _ => ⟨rfl, Chains.length_rebuild _⟩⟩
    | true =>
      have hdouble : ∃ k, (if 0 < m.buckets.length then m.buckets.length * 2 else 1) = 2 ^ k := by
        rcases hbuckets with hzero | ⟨k, hk⟩
        · exact ⟨0, by simp [hzero]⟩
        · exact ⟨k + 1, by rw [hk, if_pos (Nat.two_pow_pos k), Nat.pow_succ]⟩
      have hmore : m.nnodes < if 0 < m.buckets.length then m.buckets.length * 2 else 1 := by
        split <;> omega
      have hpos := Nat.zero_lt_of_lt hmore
      generalize (if 0 < m.buckets.length then m.buckets.length * 2 else 1) = n at *
      have hlength : (mapResize m n).buckets.length = n := Chains.length_rebuild _
      refine ⟨(h.resize hpos).1, (h.resize hpos).2, items_resize hpos, rfl, fun _ => ?_, ?_⟩
      · rw [mapResizeWith, if_pos rfl, hlength]
        exact ⟨hmore, hdouble⟩
      · rintro ⟨⟩
  · rename_i hroom
    have hlt : m.nnodes < m.buckets.length := by omega
    refine ⟨h, rfl, .refl _, rfl, fun _ => ⟨hlt, hbuckets.resolve_left (by omega)⟩, ?_⟩
    rintro ⟨⟩

end MapStr

namespace MapStore

variable {s s' : MapStore} {key value : Text} {vsize : Nat} {alloc : Alloc} {c : MapCall}
  {ok : Bool}

theorem Sound.init : init.Sound where
  valid := MapStr.valid_init
  count := rfl
  full := Nat.le_refl _
  buckets := .inl rfl
  owned := .refl _

theorem Sound.addNode (h : s.Sound) (hnone : s.map.links key = none) :
    (s.addNode key value vsize alloc).1.Sound ∧
      s.map.links.step (.set key value vsize alloc, (s.addNode key value vsize alloc).2) =
        some (s.addNode key value vsize alloc).1.map.links := by
  unfold MapStore.addNode
  split
  · have hroomy := h.valid.makeRoom h.full h.buckets alloc.realloc
    generalize makeRoom s.map alloc.realloc = r at hroomy
    obtain ⟨m, ok⟩ := r
    obtain ⟨hvalid, hlinks, hitems, hnnodes, hroom, hfailed⟩ := hroomy
    dsimp only at *
    cases ok with
    | false =>
      obtain ⟨hrealloc, hlength⟩ := hfailed rfl
      rw [if_neg Bool.false_ne_true]
      refine ⟨⟨hvalid, ?_, ?_, ?_, ?_⟩, by simp [Links.step, hnone, hlinks, hrealloc]⟩
      · rw [hnnodes, hitems.length_eq]
        exact h.count
      · rw [hnnodes, hlength]
        exact h.full
      · rw [hlength]
        exact h.buckets
      · -- the new node is made and freed
        rw [List.append_assoc, List.singleton_append]
        refine (List.perm_append_singleton key s.made).trans ((h.owned.cons key).trans ?_)
        exact List.perm_middle.symm.trans (((hitems.map _).symm.cons key).append_left s.freed)
    | true =>
      obtain ⟨hlt, hpow⟩ := hroom rfl
      have hpos := Nat.zero_lt_of_lt hlt
      have hnone' : mapGetref m key = none := by
        rw [← hlinks] at hnone
        simpa [MapStr.links] using hnone
      obtain ⟨hvalid', hlinks'⟩ := hvalid.insert value vsize hnone' hpos (m.nnodes + 1)
      have hadd : (m.buckets.add MapNode.slot ⟨mapHash key, key, value, vsize⟩).items.Perm
          (⟨mapHash key, key, value, vsize⟩ :: s.map.buckets.items) :=
        (Chains.items_add (MapStr.slot_lt _ hpos)).trans (hitems.cons _)
      have hkeys := hadd.map (·.key)
      rw [if_pos rfl]
      refine ⟨⟨hvalid', ?_, ?_, ?_, ?_⟩, ?_⟩
      · rw [hadd.length_eq, List.length_cons, ← h.count, hnnodes]
      · rw [Chains.length_add, hnnodes]
        exact hlt
      · rw [Chains.length_add]
        exact .inr hpow
      · refine (List.perm_append_singleton key s.made).trans ((h.owned.cons key).trans ?_)
        exact List.perm_middle.symm.trans (hkeys.symm.append_left s.freed)
      · rw [hlinks', hlinks]
        simp only [Links.step, Links.set, hnone]
  · rename_i hmalloc
    exact ⟨h, by simp [Links.step, hnone, hmalloc]⟩

theorem Sound.mapSet (h : s.Sound) (hset : s.mapSet key value vsize alloc = some (s', ok)) :
    s'.Sound ∧ s.map.links.step (.set key value vsize alloc, ok) = some s'.map.links := by
  unfold MapStore.mapSet at hset
  cases hfound : mapGetref s.map key with
  | none =>
    rw [hfound] at hset
    obtain heq := Option.some.inj hset
    have hnone : s.map.links key = none := by simp [MapStr.links, hfound]
    have hadd := @Sound.addNode s key value vsize alloc h hnone
    rw [heq] at hadd
    exact hadd
  | some node =>
    rw [hfound] at hset
    dsimp only at hset
    split at hset
    · rename_i hroom
      obtain ⟨rfl, rfl⟩ := Prod.mk.inj (Option.some.inj hset)
      obtain ⟨hvalid, hlinks⟩ := h.valid.replace value hfound
      obtain ⟨before, after, hitems, hitems'⟩ := Chains.items_update
        (f := fun node : MapNode => { node with value := value }) (MapStr.find_of_getref hfound)
      have hlink : s.map.links key = some (node.value, node.vsize) := by
        simp [MapStr.links, hfound]
      refine ⟨⟨hvalid, ?_, ?_, ?_, ?_⟩, ?_⟩
      · have hcount := h.count
        rw [hitems] at hcount
        rw [hitems', hcount]
        simp
      · rw [Chains.length_update]
        exact h.full
      · rw [Chains.length_update]
        exact h.buckets
      · have howned := h.owned
        rw [hitems] at howned
        rw [hitems']
        simpa using howned
      · rw [hlinks]
        simp only [Links.step, Links.set, hlink, hroom, if_true]
    · contradiction

theorem Sound.mapRemove (h : s.Sound) :
    (s.mapRemove key).Sound ∧
      (s.mapRemove key).map.links = fun k => if k = key then none else s.map.links k := by
  unfold MapStore.mapRemove
  cases hfound : mapGetref s.map key with
  | none =>
    refine ⟨h, funext fun k => ?_⟩
    by_cases hk : k = key
    · simp [hk, MapStr.links, hfound]
    · rw [if_neg hk]
  | some node =>
    obtain ⟨hvalid, hlinks, hitems⟩ := h.valid.remove hfound (s.map.nnodes - 1)
    have hcount := h.count
    rw [hitems.length_eq, List.length_cons] at hcount
    refine ⟨⟨hvalid, ?_, ?_, ?_, ?_⟩, hlinks⟩
    · dsimp only at hcount ⊢
      omega
    · rw [Chains.length_remove]
      have := h.full
      dsimp only
      omega
    · rw [Chains.length_remove]
      exact h.buckets
    · have hkeys := hitems.map (·.key)
      rw [List.append_assoc, List.singleton_append]
      exact h.owned.trans (hkeys.append_left s.freed)

/-- What a call does, and when it writes behind the room for a value. -/
theorem Sound.call (h : s.Sound) :
    (∀ s' ok, s.call c = some (s', ok) →
        s'.Sound ∧ s.map.links.step (c, ok) = some s'.map.links) ∧
      ((s.call c).isSome ↔ c.Fits s.map.links) := by
  cases c with
  | set key value vsize alloc =>
    refine ⟨fun s' ok hset => h.mapSet hset, ?_⟩
    rw [MapStore.call, MapStore.mapSet]
    cases hfound : mapGetref s.map key with
    | none => simp [MapCall.Fits, MapStr.links, hfound]
    | some node =>
      have hlink : s.map.links key = some (node.value, node.vsize) := by
        simp [MapStr.links, hfound]
      rw [MapCall.Fits, hlink]
      by_cases hroom : vsize ≤ node.vsize <;> simp [hroom]
  | remove key =>
    refine ⟨fun s' ok hcall => ?_, iff_of_true rfl trivial⟩
    obtain ⟨rfl, rfl⟩ := Prod.mk.inj (Option.some.inj hcall)
    exact ⟨h.mapRemove.1, by rw [h.mapRemove.2]; rfl⟩

theorem Sound.step {e : MapCall × Bool} (h : s.Sound) (hstep : s.step e = some s') :
    s'.Sound ∧ s.map.links.step e = some s'.map.links := by
  obtain ⟨c, ok⟩ := e
  obtain ⟨⟨s'', ok'⟩, hcall, hok⟩ := Option.bind_eq_some_iff.mp hstep
  dsimp only at hok
  split at hok
  · rename_i heq
    obtain rfl := Option.some.inj hok
    exact heq ▸ h.call.1 s'' ok' hcall
  · contradiction

/-! ### Any sequence of calls -/

theorem Sound.run {es : List (MapCall × Bool)}
    (run : Run (Steps MapStore.step) MapStore.init es s) : s.Sound :=
  run.invariant Sound.init fun _ _ _ h hstep => (h.step hstep).1

/-- The second `realloc` fails once, one key is replaced, one is removed. -/
def threeButtons : List (MapCall × Bool) :=
  [(.set ['a'] ['1'] 2 ⟨true, true⟩, true), (.set ['b'] ['2'] 2 ⟨true, false⟩, false),
    (.set ['b'] ['2'] 2 ⟨true, true⟩, true), (.set ['c'] ['3'] 2 ⟨true, true⟩, true),
    (.set ['a'] [] 1 ⟨false, false⟩, true), (.remove ['c'], true)]

theorem threeButtons_exec :
    (exec step init threeButtons).map (fun s =>
      (s.map.links ['a'], s.map.nnodes, s.made, s.freed)) =
        some (some ([], 2), 2, [['a'], ['b'], ['b'], ['c']], [['b'], ['c']]) := by decide +kernel

/-- Whatever is allocated or not, the table answers as the map that the calls make which return 0,
and a call writes behind the room for a value exactly if it replaces a value by a longer one than
the key was first given. -/
theorem agrees {es : List (MapCall × Bool)} (run : Run (Steps step) init es s) :
    Run (Steps Links.step) (fun _ => none) es s.map.links ∧
      ∀ c, (s.call c).isSome ↔ c.Fits s.map.links := by
  refine ⟨?_, fun c => (Sound.run run).call.2⟩
  induction run with
  | nil => exact .nil
  | snoc run hstep ih => exact ih.snoc ((Sound.run run).step hstep).2

theorem agrees_threeButtons :
    ∃ s, Run (Steps step) init threeButtons s ∧
      Run (Steps Links.step) (fun _ => none) threeButtons s.map.links := by
  obtain ⟨s, hs, -⟩ := Option.map_eq_some_iff.mp threeButtons_exec
  exact ⟨s, Run.of_exec hs, (agrees (Run.of_exec hs)).1⟩

/-- Every node is freed at most once, and `map_deinit_` frees just those that are left. -/
theorem freed_once {es : List (MapCall × Bool)} (run : Run (Steps step) init es s) :
    (s.freed ++ s.mapDeinit).Perm s.made := by
  have hsound := Sound.run run
  have hall : s.mapDeinit.Perm (s.map.buckets.items.map (·.key)) :=
    ((List.reverse_perm s.map.buckets).flatten).map MapNode.key
  exact (hall.append_left s.freed).trans hsound.owned.symm

theorem freed_once_threeButtons :
    ∃ s, Run (Steps step) init threeButtons s ∧
      (s.freed ++ s.mapDeinit).Perm s.made := by
  obtain ⟨s, hs, -⟩ := Option.map_eq_some_iff.mp threeButtons_exec
  exact ⟨s, Run.of_exec hs, freed_once (Run.of_exec hs)⟩

end MapStore

/-! ### Every key once -/

/-- The nodes that an iteration has still to visit. -/
def MapIter.rest (iter : MapIter) (m : MapStr) : List MapNode :=
  iter.node.tail ++ (m.buckets.drop iter.begun).flatten

section Iter

variable {m : MapStr}

theorem nextBucket_eq {buckets : Chains MapNode} {begun : Nat}
    (h : m.buckets.drop begun = buckets) :
    (nextBucket buckets begun).2 = buckets.flatten.head?.map (·.key) ∧
      (nextBucket buckets begun).1.rest m = buckets.flatten.tail := by
  induction buckets generalizing begun with
  | nil =>
    have hdrop : m.buckets.drop (begun + 1) = [] := by
      rw [← List.drop_drop, h, List.drop_nil]
    simp [nextBucket, MapIter.rest, hdrop]
  | cons chain buckets ih =>
    have hdrop : m.buckets.drop (begun + 1) = buckets := by
      rw [← List.drop_drop, h, List.drop_one, List.tail_cons]
    cases chain with
    | nil => simpa [nextBucket] using ih hdrop
    | cons node chain => simp [nextBucket, MapIter.rest, hdrop]

/-- A call of `map_next_` takes the first node of those that are left. -/
theorem mapNext_eq (iter : MapIter) :
    (mapNext m iter).2 = (iter.rest m).head?.map (·.key) ∧
      (mapNext m iter).1.rest m = (iter.rest m).tail := by
  obtain ⟨begun, chain⟩ := iter
  match chain with
  | [] => exact nextBucket_eq rfl
  | [_] => exact nextBucket_eq rfl
  | _ :: node :: chain => exact ⟨rfl, rfl⟩

theorem mapNexts_eq (nodes : List MapNode) (iter : MapIter) (h : iter.rest m = nodes) :
    mapNexts m (nodes.length + 1) iter = nodes.map (fun node => some node.key) ++ [none] := by
  induction nodes generalizing iter with
  | nil =>
    obtain ⟨hkey, -⟩ := mapNext_eq (m := m) iter
    rw [h] at hkey
    simp [mapNexts, hkey]
  | cons node nodes ih =>
    obtain ⟨hkey, hrest⟩ := mapNext_eq (m := m) iter
    rw [h] at hkey hrest
    rw [List.length_cons, mapNexts, hkey, ih _ hrest]
    rfl

end Iter

/-- After any calls an iteration gives every key that the map has, each once, and then NULL. -/
theorem MapStore.iterates {s : MapStore} {es : List (MapCall × Bool)}
    (run : Run (Steps MapStore.step) MapStore.init es s) :
    ∃ keys : List Text,
      mapNexts s.map (keys.length + 1) mapIter = keys.map some ++ [none] ∧ keys.Nodup ∧
        keys.length = s.map.nnodes ∧ ∀ key, key ∈ keys ↔ (mapGet s.map key).isSome := by
  have hsound := Sound.run run
  refine ⟨s.map.buckets.items.map (·.key), ?_, hsound.valid.keys, ?_, fun key => ?_⟩
  · rw [List.length_map, List.map_map]
    exact mapNexts_eq s.map.buckets.items mapIter rfl
  · rw [List.length_map, hsound.count]
  · rw [mapGet, Option.isSome_map, List.mem_map]
    constructor
    · rintro ⟨node, hnode, rfl⟩
      rw [hsound.valid.getref_eq_some_iff.mpr ⟨hnode, rfl⟩]
      rfl
    · intro hsome
      obtain ⟨node, hnode⟩ := Option.isSome_iff_exists.mp hsome
      exact ⟨node, hsound.valid.getref_eq_some_iff.mp hnode⟩

theorem MapStore.iterates_threeButtons :
    ∃ s, Run (Steps MapStore.step) MapStore.init threeButtons s ∧ s.map.nnodes = 2 ∧
      ∃ keys : List Text, mapNexts s.map (keys.length + 1) mapIter = keys.map some ++ [none] ∧
        keys.Nodup ∧ keys.length = s.map.nnodes ∧
          ∀ key, key ∈ keys ↔ (mapGet s.map key).isSome := by
  obtain ⟨s, hs, hend⟩ := Option.map_eq_some_iff.mp threeButtons_exec
  simp only [Prod.mk.injEq] at hend
  exact ⟨s, Run.of_exec hs, hend.2.1, iterates (Run.of_exec hs)⟩

end VhomeBridge.Link
