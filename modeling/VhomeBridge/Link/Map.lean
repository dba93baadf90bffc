import VhomeBridge.Lib.Chains
import VhomeBridge.Text

/-! The map of links: a chained hash table of C strings.  A node keeps the size that its value was
allocated with, and a value that replaces another is copied into that allocation; a longer one
would be written past its end, a fault, `none`.  As an abstract map the table takes each key to its
value and the room for it. -/

namespace VhomeBridge.Link

open Lib

/-- `map_node_t`, with its key, its value and the bytes allocated for the value. -/
structure MapNode where
  hash : BitVec 32
  key : Text
  value : Text
  vsize : Nat
  deriving DecidableEq

structure MapStr where
  buckets : Chains MapNode
  nnodes : Nat

def mapHash (str : Text) : BitVec 32 :=
  str.foldl (fun hash c => ((hash <<< 5) + hash) ^^^ BitVec.ofNat 32 c.toNat) 5381

def mapInit : MapStr := ⟨[], 0⟩

def mapBucketidx (nbuckets : Nat) (hash : BitVec 32) : Nat := hash.toNat &&& (nbuckets - 1)

/-- The bucket that `map_addnode` puts a node into. -/
def MapNode.slot (node : MapNode) (nbuckets : Nat) : Nat := mapBucketidx nbuckets node.hash

/-- `map_resize`: all nodes chained together, the last bucket first and each node before those
chained so far, and added again from the head of the chain. -/
def mapResize (m : MapStr) (nbuckets : Nat) : MapStr :=
  { m with buckets := Chains.rebuild MapNode.slot nbuckets m.buckets.reverse.flatten.reverse }

def MapNode.hit (key : Text) (node : MapNode) : Bool :=
  node.hash == mapHash key && node.key == key

def mapGetref (m : MapStr) (key : Text) : Option MapNode :=
  if 0 < m.buckets.length then
    m.buckets.find (mapBucketidx m.buckets.length (mapHash key)) (MapNode.hit key)
  else none

def mapGet (m : MapStr) (key : Text) : Option Text := (mapGetref m key).map (·.value)

/-- `map_set_` for a value that is a string of `vsize` bytes with its terminator. -/
def mapSet (m : MapStr) (key value : Text) (vsize : Nat) : Option MapStr :=
  match mapGetref m key with
  | some node =>
    if vsize ≤ node.vsize then
      some { m with
        buckets := m.buckets.update (mapBucketidx m.buckets.length (mapHash key))
          (MapNode.hit key) fun node => { node with value := value } }
    else none
  | none =>
    let m :=
      if m.nnodes ≥ m.buckets.length then
        mapResize m (if 0 < m.buckets.length then m.buckets.length * 2 else 1)
      else m
    some ⟨m.buckets.add MapNode.slot ⟨mapHash key, key, value, vsize⟩, m.nnodes + 1⟩

/-- Each node lies in the bucket of its hash, which is that of its key, and no key has two nodes. -/
structure MapStr.Valid (m : MapStr) : Prop where
  placed : m.buckets.Placed MapNode.slot
  hash : ∀ node ∈ m.buckets.items, node.hash = mapHash node.key
  keys : (m.buckets.items.map (·.key)).Nodup

/-- What is found is the value of a node. -/
theorem exists_node_of_mapGet {m : MapStr} {key value : Text} (h : mapGet m key = some value) :
    ∃ node ∈ m.buckets.items, node.value = value := by
  obtain ⟨node, hnode, rfl⟩ := Option.map_eq_some_iff.mp h
  rw [mapGetref, Option.ite_none_right_eq_some] at hnode
  obtain ⟨chain, hchain, hfind⟩ := Option.bind_eq_some_iff.mp hnode.2
  exact ⟨node, Chains.mem_items.mpr ⟨_, chain, hchain, List.mem_of_find?_eq_some hfind⟩, rfl⟩

/-! ### The table as a map -/

/-- What a map says about a key: its value and the bytes allocated for it. -/
abbrev Links := Text → Option (Text × Nat)

/-- The table as a map. -/
def MapStr.links (m : MapStr) : Links := fun key =>
  (mapGetref m key).map fun node => (node.value, node.vsize)

/-- `value` for `key`, in the room that the key has already if it is there. -/
def Links.set (f : Links) (key value : Text) (vsize : Nat) : Option Links :=
  match f key with
  | some (_, room) =>
    if vsize ≤ room then some fun k => if k = key then some (value, room) else f k else none
  | none => some fun k => if k = key then some (value, vsize) else f k

namespace MapStr

variable {m : MapStr} {key value : Text} {vsize : Nat}

theorem valid_init : mapInit.Valid where
  placed := by intro i chain h; simp [mapInit] at h
  hash := by intro node h; simp [mapInit, Chains.items] at h
  keys := by simp [mapInit, Chains.items]

theorem slot_lt (node : MapNode) {n : Nat} (h : 0 < n) : node.slot n < n := by
  have : node.slot n ≤ n - 1 := Nat.and_le_right
  omega

theorem Valid.unique (h : m.Valid) {x y : MapNode} (hx : x ∈ m.buckets.items)
    (hy : y ∈ m.buckets.items) (hkey : x.key = y.key) : x = y :=
  List.inj_on_of_nodup_map h.keys hx hy hkey

theorem Valid.getref_eq_some_iff (h : m.Valid) {node : MapNode} :
    mapGetref m key = some node ↔ node ∈ m.buckets.items ∧ node.key = key := by
  have hfind := Chains.find_eq_some_iff (x := node) (p := MapNode.hit key)
    (i := mapBucketidx m.buckets.length (mapHash key)) h.placed ?_ ?_
  · unfold mapGetref
    split
    · rw [hfind]
      apply and_congr_right
      intro hmem
      simp only [MapNode.hit, Bool.and_eq_true, beq_iff_eq, and_iff_right_iff_imp]
      rintro rfl
      exact h.hash node hmem
    · rename_i hempty
      have : m.buckets = [] := List.length_eq_zero_iff.mp (by omega)
      simp [this, Chains.items]
  · intro y hy
    simp only [MapNode.hit, Bool.and_eq_true, beq_iff_eq] at hy
    rw [MapNode.slot, hy.1]
  · intro y hy z hz hpy hpz
    simp only [MapNode.hit, Bool.and_eq_true, beq_iff_eq] at hpy hpz
    exact h.unique hy hz (hpy.2.trans hpz.2.symm)

theorem Valid.getref_eq_none_iff (h : m.Valid) :
    mapGetref m key = none ↔ ∀ node ∈ m.buckets.items, node.key ≠ key := by
  rw [Option.eq_none_iff_forall_ne_some]
  constructor
  · intro hnone node hmem hkey
    exact hnone node (h.getref_eq_some_iff.mpr ⟨hmem, hkey⟩)
  · intro hne node hsome
    obtain ⟨hmem, hkey⟩ := h.getref_eq_some_iff.mp hsome
    exact hne node hmem hkey

theorem Valid.of_perm {m' : MapStr} (h : m.Valid) (placed : m'.buckets.Placed MapNode.slot)
    (perm : m'.buckets.items.Perm m.buckets.items) : m'.Valid where
  placed := placed
  hash := fun node hnode => h.hash node (perm.mem_iff.mp hnode)
  keys := (perm.map _).nodup_iff.mpr h.keys

theorem items_resize {n : Nat} (hn : 0 < n) :
    (mapResize m n).buckets.items.Perm m.buckets.items := by
  refine (Chains.items_rebuild (fun x => slot_lt x hn) _).trans ?_
  apply (List.reverse_perm _).trans
  exact (List.reverse_perm m.buckets).flatten

theorem Valid.links_eq_some_iff (h : m.Valid) {k v : Text} {room : Nat} :
    m.links k = some (v, room) ↔
      ∃ node ∈ m.buckets.items, node.key = k ∧ node.value = v ∧ node.vsize = room := by
  simp only [links, Option.map_eq_some_iff, h.getref_eq_some_iff, Prod.mk.injEq]
  constructor
  · rintro ⟨node, ⟨hmem, hkey⟩, hvalue⟩
    exact ⟨node, hmem, hkey, hvalue⟩
  · rintro ⟨node, hmem, hkey, hvalue⟩
    exact ⟨node, ⟨hmem, hkey⟩, hvalue⟩

/-- A valid table that differs from another in the node of one key is the map that differs in that
key. -/
theorem Valid.links_congr {m' : MapStr} (h : m.Valid) (h' : m'.Valid) (node : MapNode)
    (hnode : node ∈ m'.buckets.items)
    (hrest : ∀ n, n.key ≠ node.key → (n ∈ m'.buckets.items ↔ n ∈ m.buckets.items)) :
    m'.links = fun k => if k = node.key then some (node.value, node.vsize) else m.links k := by
  funext k
  split
  · rename_i hk
    exact h'.links_eq_some_iff.mpr ⟨node, hnode, hk.symm, rfl, rfl⟩
  · rename_i hk
    ext ⟨v, room⟩
    simp only [h.links_eq_some_iff, h'.links_eq_some_iff]
    refine exists_congr fun n => ⟨?_, ?_⟩
    · rintro ⟨hmem, rfl, hvalue⟩
      exact ⟨(hrest n hk).mp hmem, rfl, hvalue⟩
    · rintro ⟨hmem, rfl, hvalue⟩
      exact ⟨(hrest n hk).mpr hmem, rfl, hvalue⟩

theorem Valid.replace (h : m.Valid) (value : Text) {node : MapNode}
    (hfound : mapGetref m key = some node) :
    let m' : MapStr := { m with
      buckets := m.buckets.update (mapBucketidx m.buckets.length (mapHash key))
        (MapNode.hit key) fun node => { node with value := value } }
    m'.Valid ∧
      m'.links = fun k => if k = key then some (value, node.vsize) else m.links k := by
  intro m'
  obtain ⟨hmem, rfl⟩ := h.getref_eq_some_iff.mp hfound
  have hfind : m.buckets.find (mapBucketidx m.buckets.length (mapHash node.key))
      (MapNode.hit node.key) = some node := by
    unfold mapGetref at hfound
    split at hfound
    · exact hfound
    · contradiction
  obtain ⟨before, after, hitems, hitems'⟩ :=
    Chains.items_update (f := fun node => { node with value := value }) hfind
  have hkeys : m'.buckets.items.map (·.key) = m.buckets.items.map (·.key) := by
    simp [m', hitems, hitems']
  have hvalid : m'.Valid := by
    refine ⟨h.placed.update fun _ _ => rfl, fun n hn => ?_, hkeys ▸ h.keys⟩
    rcases List.mem_append.mp (hitems' ▸ hn) with hn | hn
    · exact h.hash n (by simp [hitems, hn])
    · rcases List.mem_cons.mp hn with rfl | hn
      · exact h.hash node hmem
      · exact h.hash n (by simp [hitems, hn])
  refine ⟨hvalid, h.links_congr hvalid { node with value := value }
    (by simp [m', hitems']) fun n hne => ?_⟩
  have hn : n ≠ node := by rintro rfl; exact hne rfl
  have hn' : n ≠ { node with value := value } := by rintro rfl; exact hne rfl
  simp [m', hitems, hitems', hn, hn']

theorem Valid.insert (h : m.Valid) (value : Text) (vsize : Nat) (hnone : mapGetref m key = none)
    (hroom : 0 < m.buckets.length) (nnodes : Nat) :
    let m' : MapStr := ⟨m.buckets.add MapNode.slot ⟨mapHash key, key, value, vsize⟩, nnodes⟩
    m'.Valid ∧ m'.links = fun k => if k = key then some (value, vsize) else m.links k := by
  intro m'
  have hne := h.getref_eq_none_iff.mp hnone
  have hitems : m'.buckets.items.Perm (⟨mapHash key, key, value, vsize⟩ :: m.buckets.items) :=
    Chains.items_add (slot_lt _ hroom)
  have hvalid : m'.Valid := by
    refine ⟨h.placed.add, fun n hn => ?_, ?_⟩
    · rcases List.mem_cons.mp (hitems.mem_iff.mp hn) with rfl | hn
      · rfl
      · exact h.hash n hn
    · rw [(hitems.map _).nodup_iff, List.map_cons, List.nodup_cons]
      refine ⟨fun hmem => ?_, h.keys⟩
      obtain ⟨n, hn, hkey⟩ := List.mem_map.mp hmem
      exact hne n hn hkey
  refine ⟨hvalid, h.links_congr hvalid ⟨mapHash key, key, value, vsize⟩
    (hitems.mem_iff.mpr (by simp)) fun n hn => ?_⟩
  rw [hitems.mem_iff, List.mem_cons, or_iff_right]
  rintro rfl
  exact hn rfl

theorem Valid.resize (h : m.Valid) {n : Nat} (hn : 0 < n) :
    (mapResize m n).Valid ∧ (mapResize m n).links = m.links := by
  have hvalid : (mapResize m n).Valid := h.of_perm (Chains.Placed.rebuild _) (items_resize hn)
  refine ⟨hvalid, funext fun k => ?_⟩
  ext ⟨v, room⟩
  simp only [h.links_eq_some_iff, hvalid.links_eq_some_iff, (items_resize hn).mem_iff]

/-- `map_set_` on the table is setting the key of the map: it stays inside the allocation of the
value exactly if the room for the key is enough. -/
theorem Valid.mapSet (h : m.Valid) (key value : Text) (vsize : Nat) :
    (∀ m', mapSet m key value vsize = some m' → m'.Valid) ∧
      (mapSet m key value vsize).map links = m.links.set key value vsize := by
  unfold Link.mapSet
  cases hfound : mapGetref m key with
  | some node =>
    have hlinks : m.links key = some (node.value, node.vsize) := by simp [links, hfound]
    simp only [Links.set, hlinks]
    by_cases hroom : vsize ≤ node.vsize
    · obtain ⟨hvalid, heq⟩ := h.replace value hfound
      simp only [hroom, if_true, Option.map_some, Option.some.injEq]
      exact ⟨fun m' hm' => hm' ▸ hvalid, heq⟩
    · simp [hroom]
  | none =>
    have hlinks : m.links key = none := by simp [links, hfound]
    simp only [Links.set, hlinks, Option.map_some, Option.some.injEq]
    split
    · have hpos : 0 < (if 0 < m.buckets.length then m.buckets.length * 2 else 1) := by
        split <;> omega
      generalize (if 0 < m.buckets.length then m.buckets.length * 2 else 1) = n at hpos ⊢
      obtain ⟨hresized, heq⟩ := h.resize hpos
      have hnone : mapGetref (mapResize m n) key = none := by
        simpa [links] using (congrFun heq key).trans hlinks
      have hroom : 0 < (mapResize m n).buckets.length := by
        rwa [mapResize, Chains.length_rebuild]
      obtain ⟨hvalid, hset⟩ := hresized.insert value vsize hnone hroom
        ((mapResize m n).nnodes + 1)
      exact ⟨fun m' hm' => hm' ▸ hvalid, by rw [hset, heq]⟩
    · rename_i hfull
      obtain ⟨hvalid, hset⟩ := h.insert value vsize hfound (by omega)
        (m.nnodes + 1)
      exact ⟨fun m' hm' => hm' ▸ hvalid, hset⟩

end MapStr

end VhomeBridge.Link
