import VhomeBridge.Ble.ConfigClient

/-! Binding the models of one node.  From the response to the AppKey on, `Model App Bind` statuses
and timeouts come in any order, statuses that repeat an earlier one among them.  The requests walk
through the composition in order, a timeout repeats the latest request, and the joined record is
published when the last entry has been acknowledged. -/

namespace VhomeBridge.Ble

/-- What reaches the callback after the response to the AppKey. -/
inductive BindEvent
  | appKeyAdd
  | status (binding : Binding) (status : Octet) (onoff : Nat → Option Octet)
  | timeout

/-- The entries of a table in element-then-model order, the first row being row `j`. -/
def entriesFrom (node : Node) (j : Nat) : List (List (Word × Word)) → List Binding
  | [] => []
  | row :: table => row.map (bindingOf node j) ++ entriesFrom node (j + 1) table

def Composition.entries (comp : Composition) (node : Node) : List Binding :=
  entriesFrom node 0 comp.rows

section

variable (aes128 : List Octet → List Octet → List Octet) (node : Node)

/-- The callback on an event about `node`, with every request sent. -/
def bindCall (s : ConfigClient) : BindEvent → Option (ConfigClient × List Out)
  | .appKeyAdd =>
    bleMeshConfigClientCb aes128 s .setState ⟨0, .appKeyAdd, [], ⟨0, 0, 0⟩, 0⟩
      ⟨some node, false, false, fun _ => none⟩
  | .status binding status onoff =>
    bleMeshConfigClientCb aes128 s .setState ⟨0, .modelAppBind, [], binding, status⟩
      ⟨some node, false, false, onoff⟩
  | .timeout =>
    bleMeshConfigClientCb aes128 s .timeout ⟨0, .modelAppBind, [], ⟨0, 0, 0⟩, 0⟩
      ⟨some node, false, false, fun _ => none⟩

def bindRun (s : ConfigClient) :
    List BindEvent → Option (ConfigClient × List (BindEvent × List Out))
  | [] => some (s, [])
  | e :: es => do
    let (s, outs) ← bindCall aes128 node s e
    let (s, log) ← bindRun s es
    return (s, (e, outs) :: log)

end

/-- The events after the response to the AppKey, `p` entries acknowledged: a status is for the
entry that is awaited, or repeats an entry acknowledged before and not awaited now; a timeout is of
a request. -/
def Legal (entries : List Binding) : Nat → List BindEvent → Prop
  | _, [] => True
  | _, .appKeyAdd :: _ => False
  | p, .status binding _ _ :: es =>
    if entries[p]? = some binding then Legal entries (p + 1) es
    else binding ∈ entries.take p ∧ Legal entries p es
  | p, .timeout :: es => p < entries.length ∧ Legal entries p es

def Legal.decide (entries : List Binding) :
    ∀ (p : Nat) (es : List BindEvent), Decidable (Legal entries p es)
  | _, [] => .isTrue trivial
  | _, .appKeyAdd :: _ => .isFalse id
  | p, .status binding _ _ :: es =>
    have := Legal.decide entries (p + 1) es
    have := Legal.decide entries p es
    inferInstanceAs (Decidable (if entries[p]? = some binding then Legal entries (p + 1) es
      else binding ∈ entries.take p ∧ Legal entries p es))
  | p, .timeout :: es =>
    have := Legal.decide entries p es
    inferInstanceAs (Decidable (p < entries.length ∧ Legal entries p es))

instance (entries : List Binding) (p : Nat) (es : List BindEvent) :
    Decidable (Legal entries p es) := Legal.decide entries p es

/-- The number of entries acknowledged after the events, `p` before them. -/
def acked (entries : List Binding) : Nat → List BindEvent → Nat
  | p, [] => p
  | p, .status binding _ _ :: es =>
    acked entries (if entries[p]? = some binding then p + 1 else p) es
  | p, _ :: es => acked entries p es

def Out.request? : Out → Option Binding
  | .modelAppBind _ binding => some binding
  | _ => none

/-- The requests that are not resends. -/
def requests : List (BindEvent × List Out) → List Binding
  | [] => []
  | (.timeout, _) :: log => requests log
  | (_, outs) :: log => outs.filterMap Out.request? ++ requests log

def joins (log : List (BindEvent × List Out)) : Nat :=
  (log.flatMap (·.2)).countP Out.isJoined

/-- Each timeout sends the latest request again, `last` being the latest so far. -/
def ResendsLast (node : Node) : Option Binding → List (BindEvent × List Out) → Prop
  | _, [] => True
  | last, (.timeout, outs) :: log =>
    (∃ binding, last = some binding ∧ outs = [.modelAppBind node.unicastAddr binding]) ∧
      ResendsLast node last log
  | last, (_, outs) :: log =>
    ResendsLast node ((outs.filterMap Out.request?).getLast?.or last) log

/-! ### The entries around a position -/

theorem entriesFrom_append (node : Node) (j : Nat) (xs ys : List (List (Word × Word))) :
    entriesFrom node j (xs ++ ys) =
      entriesFrom node j xs ++ entriesFrom node (j + xs.length) ys := by
  induction xs generalizing j with
  | nil => rfl
  | cons x xs ih =>
    have hj : j + 1 + xs.length = j + (x :: xs).length := by simp only [List.length_cons]; omega
    rw [List.cons_append, entriesFrom, entriesFrom, ih, hj, List.append_assoc]

theorem mem_entriesFrom {node : Node} {b : Binding} {j : Nat}
    {table : List (List (Word × Word))} (h : b ∈ entriesFrom node j table) :
    ∃ row ∈ table, ∃ x ∈ row, b.modelId = x.1 := by
  induction table generalizing j with
  | nil => simp [entriesFrom] at h
  | cons row table ih =>
    rw [entriesFrom, List.mem_append, List.mem_map] at h
    rcases h with ⟨x, hx, rfl⟩ | h
    · exact ⟨row, by simp, x, hx, rfl⟩
    · obtain ⟨row', hrow, x, hx, hb⟩ := ih h
      exact ⟨row', by simp [hrow], x, hx, hb⟩

def position (node : Node) (done : List (List (Word × Word))) (pre : List (Word × Word)) : Nat :=
  (entriesFrom node 0 done).length + pre.length

theorem getElem?_position (node : Node) (done rest : List (List (Word × Word)))
    (pre post : List (Word × Word)) (cur : Word × Word) :
    (entriesFrom node 0 (done ++ (pre ++ cur :: post) :: rest))[position node done pre]? =
      some (bindingOf node done.length cur) := by
  have hlength : position node done pre =
      (entriesFrom node 0 done ++ pre.map (bindingOf node done.length)).length := by
    simp [position]
  rw [entriesFrom_append, entriesFrom, List.map_append, List.map_cons, Nat.zero_add,
    List.append_assoc, ← List.append_assoc, List.cons_append, hlength,
    List.getElem?_append_right (Nat.le_refl _)]
  simp

theorem position_last (node : Node) (done : List (List (Word × Word)))
    (pre : List (Word × Word)) (cur : Word × Word) :
    position node done pre + 1 = (entriesFrom node 0 (done ++ [pre ++ [cur]])).length := by
  simp only [position, entriesFrom_append, entriesFrom, List.length_append, List.length_map,
    List.length_cons, List.length_nil]
  omega

theorem configSuccess_request (aes128 : List Octet → List Octet → List Octet) (node : Node)
    (g : NodeInfor) (onoff : Nat → Option Octet) :
    (configSuccess aes128 node g onoff).filterMap Out.request? = [] := by
  rw [List.filterMap_eq_nil_iff]
  intro out hout
  simp only [configSuccess, publishStates, publishState, List.mem_append, List.mem_cons,
    List.mem_flatMap, Option.mem_toList, Option.map_eq_some_iff, List.not_mem_nil, or_false] at hout
  rcases hout with ((rfl | rfl | rfl) | ⟨i, -, rfl | ⟨v, -, rfl⟩⟩) | h
  any_goals rfl
  split at h
  · obtain rfl := List.mem_singleton.mp h
    rfl
  · simp at h

/-- The one joined record at the end of a binding is made of `global_node`. -/
theorem configSuccess_record {aes128 : List Octet → List Octet → List Octet} {node : Node}
    {g : NodeInfor} {onoff : Nat → Option Octet} {record : Joined}
    (h : Out.joined record ∈ configSuccess aes128 node g onoff) : record = joinedRecord g := by
  simp only [configSuccess, publishStates, publishState, List.mem_append, List.mem_cons,
    List.mem_flatMap, Option.mem_toList, Option.map_eq_some_iff, List.not_mem_nil, or_false] at h
  rcases h with ((h | h | h) | ⟨i, -, h | ⟨v, -, h⟩⟩) | h
  · contradiction
  · contradiction
  · exact Out.joined.inj h
  · contradiction
  · contradiction
  · split at h <;> simp at h

theorem configSuccess_joined (aes128 : List Octet → List Octet → List Octet) (node : Node)
    (g : NodeInfor) (onoff : Nat → Option Octet) :
    (configSuccess aes128 node g onoff).countP Out.isJoined = 1 := by
  have hstates : (publishStates g onoff).countP Out.isJoined = 0 := by
    rw [List.countP_eq_zero]
    intro out hout
    simp only [publishStates, publishState, List.mem_flatMap, List.mem_cons, Option.mem_toList,
      Option.map_eq_some_iff] at hout
    obtain ⟨i, -, rfl | ⟨v, -, rfl⟩⟩ := hout <;>
      simp [queryState, bleMeshCommandGet, Out.isJoined]
  simp only [configSuccess, List.countP_append, hstates]
  split <;> rfl

/-! ### One event -/

/-- `p` entries have been acknowledged: the next one is awaited, or there is none. -/
def At (node : Node) (table : List (List (Word × Word))) (s : ConfigClient) (p : Nat) : Prop :=
  (∃ done pre cur post rest, table = done ++ (pre ++ cur :: post) :: rest ∧
    s.Waiting done pre cur post rest ∧ p = position node done pre) ∨
  (p = (entriesFrom node 0 table).length ∧ s.temp = 0xffff)

def NoTerminatorId (table : List (List (Word × Word))) : Prop :=
  ∀ row ∈ table, ∀ x ∈ row, x.1 ≠ 0xffff

instance (table : List (List (Word × Word))) : Decidable (NoTerminatorId table) :=
  @List.decidableBAll _ (fun row : List (Word × Word) => ∀ x ∈ row, x.1 ≠ 0xffff)
    (fun _ => List.decidableBAll _ _) table

section

variable (aes128 : List Octet → List Octet → List Octet) {node : Node}
  {table : List (List (Word × Word))} {s : ConfigClient} {p : Nat} {b : Binding}

theorem At.status_other (h : At node table s p) (fits : TableFits table)
    (ids : NoTerminatorId table) (hb : b ∈ entriesFrom node 0 table)
    (hne : (entriesFrom node 0 table)[p]? ≠ some b) (status : Octet)
    (onoff : Nat → Option Octet) :
    bindCall aes128 node s (.status b status onoff) = some (s, []) := by
  change modelAppBindStatus aes128 node b _ s = some (s, [])
  rcases h with ⟨done, pre, cur, post, rest, rfl, hwait, rfl⟩ | ⟨-, htemp⟩
  · rw [getElem?_position] at hne
    exact hwait.other_status fits fun h => hne (by rw [h])
  · obtain ⟨row, hrow, x, hx, hbx⟩ := mem_entriesFrom hb
    have hid : b.modelId ≠ s.temp := by rw [hbx, htemp]; exact ids row hrow x hx
    rw [modelAppBindStatus, if_neg fun hpass => hid hpass.1]
    rfl

theorem At.timeout (h : At node table s p) (hp : p < (entriesFrom node 0 table).length) :
    ∃ b, (entriesFrom node 0 table)[p]? = some b ∧
      bindCall aes128 node s .timeout = some (s, [.modelAppBind node.unicastAddr b]) := by
  rcases h with ⟨done, pre, cur, post, rest, rfl, hwait, rfl⟩ | ⟨rfl, -⟩
  · refine ⟨_, getElem?_position .., ?_⟩
    simp [bindCall, bleMeshConfigClientCb, hwait.j, hwait.waitModelId, hwait.waitCid, bindingOf]
  · omega

theorem At.status_match (h : At node table s p) (fits : TableFits table)
    (ids : NoTerminatorId table) (hb : (entriesFrom node 0 table)[p]? = some b) (status : Octet)
    (onoff : Nat → Option Octet) :
    ∃ t outs, bindCall aes128 node s (.status b status onoff) = some (t, outs) ∧
      At node table t (p + 1) ∧
      ((∃ next, (entriesFrom node 0 table)[p + 1]? = some next ∧
          outs = [.modelAppBind node.unicastAddr next]) ∨
        (p + 1 = (entriesFrom node 0 table).length ∧
          outs = configSuccess aes128 node s.globalNode onoff)) := by
  change ∃ t outs, modelAppBindStatus aes128 node b _ s = some (t, outs) ∧ _
  rcases h with ⟨done, pre, cur, post, rest, rfl, hwait, rfl⟩ | ⟨rfl, -⟩
  · obtain rfl : bindingOf node done.length cur = b := by
      rw [getElem?_position] at hb
      exact Option.some.inj hb
    match post, rest with
    | next :: post, rest =>
      have hid : next.1 ≠ 0xffff := ids (pre ++ cur :: next :: post) (by simp) next (by simp)
      have hsplit : pre ++ cur :: next :: post = (pre ++ [cur]) ++ next :: post := by simp
      rw [hwait.next_in_row fits hid]
      have hholds := hwait.holds
      rw [hsplit] at hholds fits ⊢
      obtain ⟨⟨t, ht, -, hsend⟩, -⟩ := sendModelAppBind_eq (s := { s with temp := next.1 }) node
        hholds fits (by simp [hwait.i]) hwait.j rfl
      have hp : position node done pre + 1 = position node done (pre ++ [cur]) := by
        simp [position, Nat.add_assoc]
      refine ⟨t, _, hsend, .inl ⟨done, _, next, post, rest, rfl, ht, hp⟩, .inl ⟨_, ?_, rfl⟩⟩
      rw [hp, getElem?_position]
    | [], row :: rest =>
      obtain ⟨n, ns, rfl⟩ : ∃ n ns, row = n :: ns :=
        List.exists_cons_of_ne_nil (fits.nonempty row (by simp))
      have hsplit : done ++ (pre ++ [cur]) :: (n :: ns) :: rest =
          (done ++ [pre ++ [cur]]) ++ ([] ++ n :: ns) :: rest := by simp
      rw [hwait.next_row fits (by simp)]
      have hholds := hwait.holds
      rw [hsplit] at hholds fits ⊢
      obtain ⟨⟨t, ht, -, hsend⟩, -⟩ := sendModelAppBind_eq
        (s := { s with i := 0, j := done.length + 1, temp := n.1 }) node
        hholds fits rfl (by simp) rfl
      have hp : position node done pre + 1 = position node (done ++ [pre ++ [cur]]) [] := by
        rw [position_last, position, List.length_nil, Nat.add_zero]
      refine ⟨t, _, hsend, .inl ⟨_, [], n, ns, rest, rfl, ht, hp⟩, .inl ⟨_, ?_, rfl⟩⟩
      rw [hp, getElem?_position]
    | [], [] =>
      have hp := position_last node done pre cur
      exact ⟨_, _, hwait.finish fits (by simp), .inr ⟨hp, rfl⟩, .inr ⟨hp, rfl⟩⟩
  · simp at hb

/-! ### A run -/

theorem bindRun_cons {t u : ConfigClient} {e : BindEvent} {outs : List Out} {es : List BindEvent}
    {log : List (BindEvent × List Out)} (hcall : bindCall aes128 node s e = some (t, outs))
    (hrun : bindRun aes128 node t es = some (u, log)) :
    bindRun aes128 node s (e :: es) = some (u, (e, outs) :: log) := by
  simp only [bindRun, hcall, Option.bind_eq_bind, Option.bind_some, hrun]
  rfl

theorem ResendsLast.weaken {log : List (BindEvent × List Out)} (h : ResendsLast node none log)
    (last : Option Binding) : ResendsLast node last log := by
  induction log with
  | nil => trivial
  | cons entry log ih =>
    obtain ⟨e, outs⟩ := entry
    cases e with
    | timeout =>
      obtain ⟨⟨b, hb, -⟩, -⟩ := h
      contradiction
    | appKeyAdd | status =>
      simp only [ResendsLast] at h ⊢
      cases hlast : (outs.filterMap Out.request?).getLast? with
      | none =>
        rw [hlast] at h
        exact ih h
      | some b => rwa [hlast] at h

theorem acked_length (entries : List Binding) (es : List BindEvent) :
    acked entries entries.length es = entries.length := by
  induction es with
  | nil => rfl
  | cons e es ih => cases e <;> simpa [acked] using ih

theorem joins_cons (e : BindEvent) (outs : List Out) (log : List (BindEvent × List Out)) :
    joins ((e, outs) :: log) = outs.countP Out.isJoined + joins log := by
  simp [joins]

/-- From a position on, the requests follow the entries after it, resends repeat the entry that is
awaited, and the join ends with the last entry. -/
theorem At.run (h : At node table s p) (fits : TableFits table) (ids : NoTerminatorId table)
    {es : List BindEvent} (legal : Legal (entriesFrom node 0 table) p es) :
    ∃ t log, bindRun aes128 node s es = some (t, log) ∧
      requests log <+: (entriesFrom node 0 table).drop (p + 1) ∧
      ResendsLast node (entriesFrom node 0 table)[p]? log ∧
      joins log = if p < (entriesFrom node 0 table).length ∧
        acked (entriesFrom node 0 table) p es = (entriesFrom node 0 table).length
        then 1 else 0 := by
  induction es generalizing s p with
  | nil =>
    refine ⟨s, [], rfl, by simp [requests], trivial, ?_⟩
    rw [if_neg (by simp only [acked]; omega)]
    rfl
  | cons e es ih =>
    cases e with
    | appKeyAdd => exact legal.elim
    | timeout =>
      obtain ⟨hp, hlegal⟩ := legal
      obtain ⟨b, hb, hcall⟩ := h.timeout aes128 hp
      obtain ⟨t, log, hrun, hrequests, hresends, hjoins⟩ := ih h hlegal
      exact ⟨t, _, bindRun_cons aes128 hcall hrun, hrequests, ⟨⟨b, hb, rfl⟩, hresends⟩, hjoins⟩
    | status b status onoff =>
      by_cases hb : (entriesFrom node 0 table)[p]? = some b
      · simp only [Legal, hb, if_true] at legal
        have hp : p < (entriesFrom node 0 table).length := (List.getElem?_eq_some_iff.mp hb).1
        obtain ⟨t, outs, hcall, hat, houts⟩ := h.status_match aes128 fits ids hb status onoff
        obtain ⟨u, log, hrun, hrequests, hresends, hjoins⟩ := ih hat legal
        have hacked : acked (entriesFrom node 0 table) p (.status b status onoff :: es) =
            acked (entriesFrom node 0 table) (p + 1) es := by simp only [acked, hb, if_true]
        refine ⟨u, _, bindRun_cons aes128 hcall hrun, ?_⟩
        rw [joins_cons, hacked, hjoins]
        rcases houts with ⟨next, hnext, rfl⟩ | ⟨hlast, rfl⟩
        · obtain ⟨hlt, rfl⟩ := List.getElem?_eq_some_iff.mp hnext
          rw [hnext] at hresends
          refine ⟨?_, hresends, ?_⟩
          · rw [List.drop_eq_getElem_cons hlt]
            exact (List.prefix_cons_inj _).mpr hrequests
          · simp [Out.isJoined, hp, hlt]
        · have hrest : (entriesFrom node 0 table)[p + 1]? = none := by simp [hlast]
          rw [hrest] at hresends
          simp only [requests, ResendsLast, configSuccess_request, configSuccess_joined]
          refine ⟨?_, hresends.weaken _, ?_⟩
          · rw [List.drop_eq_nil_of_le (by omega)] at hrequests ⊢
            exact hrequests
          · rw [hlast, acked_length, if_neg (by omega), if_pos (by omega)]
      · simp only [Legal, hb, if_false] at legal
        obtain ⟨hmem, hlegal⟩ := legal
        have hcall := h.status_other aes128 fits ids (List.mem_of_mem_take hmem) hb
          status onoff
        obtain ⟨t, log, hrun, hrequests, hresends, hjoins⟩ := ih h hlegal
        refine ⟨t, _, bindRun_cons aes128 hcall hrun, hrequests, hresends, ?_⟩
        rw [joins_cons, hjoins]
        simp [acked, hb]

theorem Legal.take {entries : List Binding} {es : List BindEvent} (h : Legal entries p es)
    (k : Nat) : Legal entries p (es.take k) := by
  induction es generalizing p k with
  | nil => simpa using h
  | cons e es ih =>
    cases k with
    | zero => trivial
    | succ k =>
      cases e with
      | appKeyAdd => exact h.elim
      | timeout => exact ⟨h.1, ih h.2 k⟩
      | status b status onoff =>
        simp only [List.take_succ_cons, Legal] at h ⊢
        split
        · rename_i hb
          rw [if_pos hb] at h
          exact ih h k
        · rename_i hb
          rw [if_neg hb] at h
          exact ⟨h.1, ih h.2 k⟩

theorem bindRun_take {es : List BindEvent} {t : ConfigClient}
    {log : List (BindEvent × List Out)} (h : bindRun aes128 node s es = some (t, log)) (k : Nat) :
    ∃ u, bindRun aes128 node s (es.take k) = some (u, log.take k) := by
  induction es generalizing s log k with
  | nil =>
    obtain ⟨rfl, rfl⟩ : s = t ∧ [] = log := by simpa [bindRun] using h
    exact ⟨s, by simp [bindRun]⟩
  | cons e es ih =>
    simp only [bindRun, Option.bind_eq_bind, Option.bind_eq_some_iff] at h
    obtain ⟨⟨a, outs⟩, hcall, ⟨b, log'⟩, hrun, hlog⟩ := h
    obtain ⟨rfl, rfl⟩ : b = t ∧ (e, outs) :: log' = log := by simpa using hlog
    cases k with
    | zero => exact ⟨s, rfl⟩
    | succ k =>
      obtain ⟨u, hu⟩ := ih hrun k
      exact ⟨u, bindRun_cons aes128 hcall hu⟩

theorem at_start (holds : s.globalNode.Holds table) (fits : TableFits table)
    (filled : table ≠ []) :
    ∃ t first, bindCall aes128 node s .appKeyAdd =
        some (t, [.modelAppBind node.unicastAddr first]) ∧
      At node table t 0 ∧ (entriesFrom node 0 table)[0]? = some first := by
  obtain ⟨row, rest, rfl⟩ := List.exists_cons_of_ne_nil filled
  obtain ⟨n, ns, rfl⟩ := List.exists_cons_of_ne_nil (fits.nonempty row (by simp))
  have hholds : s.globalNode.Holds ([] ++ ([] ++ n :: ns) :: rest) := holds
  obtain ⟨⟨t, ht, -, hsend⟩, -⟩ := sendModelAppBind_eq
    (s := { s with i := 0, j := 0, temp := n.1 }) node hholds fits rfl rfl rfl
  refine ⟨t, _, ?_, .inl ⟨[], [], n, ns, rest, rfl, ht, rfl⟩,
    getElem?_position node [] rest [] ns n⟩
  change appKeyAddStatus node false s = _
  rw [appKeyAddStatus_eq node false holds fits, hsend]

end

/-- The requests that are not resends are a prefix of the entries of the composition, each resend
repeats the latest request, and after the response to the AppKey and `k` further events the joined
record has been published once if the last entry has been acknowledged, and not otherwise. -/
theorem binds_in_order (aes128 : List Octet → List Octet → List Octet) (node : Node)
    (comp : Composition) (nonempty : ∀ row ∈ comp.rows, row ≠ []) (ids : NoTerminatorId comp.rows)
    (g : NodeInfor) (s : ConfigClient)
    (parsed : bleMeshParseNodeCompData comp.encode g = some s.globalNode)
    (es : List BindEvent) (legal : Legal (comp.entries node) 0 es) :
    ∃ t log, bindRun aes128 node s (.appKeyAdd :: es) = some (t, log) ∧
      requests log <+: comp.entries node ∧
      ResendsLast node none log ∧
      ∀ k, joins (log.take (k + 1)) =
        if acked (comp.entries node) 0 (es.take k) = (comp.entries node).length then 1 else 0 := by
  have hholds : s.globalNode.Holds comp.rows := by
    rw [parse_encode] at parsed
    rw [← Option.some.inj parsed]
    exact load_holds comp g
  have hrows : comp.rows ≠ [] := by simpa [Composition.rows] using comp.nonempty
  have hfits := comp.tableFits nonempty
  obtain ⟨a, first, hstart, hat, hfirst⟩ := at_start aes128 hholds hfits hrows
  obtain ⟨hpos, hget⟩ := List.getElem?_eq_some_iff.mp hfirst
  obtain ⟨t, log, hrun, hrequests, hresends, -⟩ := hat.run aes128 hfits ids legal
  refine ⟨t, _, bindRun_cons aes128 hstart hrun, ?_, ?_, ?_⟩
  · rw [Composition.entries, ← List.drop_zero (l := entriesFrom node 0 comp.rows),
      List.drop_eq_getElem_cons hpos, hget]
    exact (List.prefix_cons_inj _).mpr hrequests
  · rw [hfirst] at hresends
    exact hresends
  · intro k
    obtain ⟨u, hu⟩ := bindRun_take aes128 hrun k
    obtain ⟨v, log', hrun', -, -, hjoins⟩ := hat.run aes128 hfits ids (legal.take k)
    obtain ⟨-, rfl⟩ : u = v ∧ log.take k = log' := by simpa [hu] using hrun'
    rw [List.take_succ_cons, joins_cons, hjoins, Nat.add_comm]
    simp only [hpos, true_and]
    rfl

def switchComp : Composition where
  header := Vector.replicate 10 0
  elements := [⟨0, [0x1000], [(0x0211, 0x0001)], by decide⟩, onoffElement 1]
  nonempty := by simp
  fits := by decide

def switchEvents : List BindEvent :=
  [.timeout, .status ⟨5, 0x1000, 0xffff⟩ 0 fun _ => none,
    .status ⟨5, 0x1000, 0xffff⟩ 0 fun _ => none, .status ⟨5, 0x0001, 0x0211⟩ 0 fun _ => none,
    .timeout, .status ⟨6, 0x1000, 0xffff⟩ 0 fun _ => some 1]

theorem binds_in_order_switch :
    ∃ t log, bindRun (fun _ block => block) firstNode
        ⟨blankNode.load switchComp, 0, 0, 0, 0, 0, 0⟩ (.appKeyAdd :: switchEvents) =
          some (t, log) ∧
      requests log <+: switchComp.entries firstNode ∧
      ResendsLast firstNode none log ∧
      ∀ k, joins (log.take (k + 1)) =
        if acked (switchComp.entries firstNode) 0 (switchEvents.take k) =
          (switchComp.entries firstNode).length then 1 else 0 :=
  binds_in_order _ firstNode switchComp (by decide) (by decide) blankNode _
    (parse_encode switchComp blankNode) switchEvents (by decide)

end VhomeBridge.Ble
