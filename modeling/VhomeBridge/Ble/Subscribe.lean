import VhomeBridge.Ble.Join

/-! Wall switches joining one after the other.  When the last model of a wall switch is bound, its
elements are added to a group one by one, each when the one before it is acknowledged, and the
acknowledgement of the last element switches the group.  The element that is awaited is counted in
the static variable `k`, which only the last acknowledgement sets back.  A session that fails in
between leaves the count where it was, and no later session gets past its first element. -/

namespace VhomeBridge.Ble

open Lib

/-- The device type of a wall switch. -/
def Device.IsWall (d : Device) : Prop := d.uuid.get 6 = 0x02 ∧ d.uuid.get 7 = 0x01

/-- The call reports the failure of a subscription request. -/
def CfgCall.Fails (c : CfgCall) : Prop :=
  c.errorCode ≠ 0 ∨ c.event = .timeout ∧ c.opcode = .modelSubAdd

/-- An output about the group. -/
def Out.isGroup : Out → Bool
  | .modelSubAdd _ _ _ => true
  | .onoffSet _ _ _ => true
  | _ => false

def Out.subElement? : Out → Option Word
  | .modelSubAdd _ elementAddr _ => some elementAddr
  | _ => none

/-- The element whose subscription the outputs of a call request. -/
def requested (outs : List Out) : Option Word := outs.findSome? Out.subElement?

/-- The join of a wall switch: the calls up to its joined record, the status codes with which its
elements acknowledge, and the call that ends it if an element does not. -/
structure Session where
  device : Device
  joining : List CfgCall
  acks : List Octet
  failure : Option { c : CfgCall // c.Fails }
  wall : device.IsWall
  composed : ∃ c ∈ joining, c.Composes
  unsubscribed : ∀ c ∈ joining, c.opcode ≠ .modelSubAdd

def subAdd (node : Node) (j : Nat) : Out :=
  .modelSubAdd node.unicastAddr (node.unicastAddr + BitVec.ofNat 16 j) groupAddr

/-- Each element is added once, in order, and then the group is switched once. -/
def Session.Complete (x : Session) (outs : List Out) : Prop :=
  outs.filter Out.isGroup =
    (List.range x.device.comp.rows.length).map (subAdd x.device.node) ++
      [.onoffSet groupAddr 0 true]

/-- A request was acknowledged, and a later one was not. -/
def Session.Broken (x : Session) : Prop := x.acks ≠ [] ∧ x.failure ≠ none

/-- The acknowledgement of the subscription of an element. -/
def subAck (elementAddr : Word) (status : Octet) : CfgCall where
  event := .setState
  opcode := .modelSubAdd
  errorCode := 0
  modelAppStatus := ⟨elementAddr, 0x1000, 0xffff⟩
  status := status
  nodeFound := true
  sendErr := false
  storeErr := false
  onoff := fun _ => none

section

variable (aes128 : List Octet → List Octet → List Octet)

def Device.call (d : Device) (s : ConfigClient) (c : CfgCall) :
    Option (ConfigClient × List Out) :=
  bleMeshConfigClientCb aes128 s c.event (c.param d) (c.answers d)

/-- The calls of a join, the last of which publishes the joined record. -/
def Device.join (d : Device) (s : ConfigClient) : List CfgCall → Option (ConfigClient × List Out)
  | [] => none
  | c :: cs =>
    (d.call aes128 s c).bind fun r =>
      if r.2.any Out.isJoined then
        if cs.isEmpty then some r else none
      else (d.join r.1 cs).map fun t => (t.1, r.2 ++ t.2)

/-- The acknowledgements of the elements, each of the one requested last, and the element requested
after them. -/
def Device.subscribe (d : Device) (s : ConfigClient) (sent : Option Word) :
    List Octet → Option (ConfigClient × Option Word × List Out)
  | [] => some (s, sent, [])
  | status :: acks =>
    sent.bind fun elementAddr =>
      (d.call aes128 s (subAck elementAddr status)).bind fun r =>
        (d.subscribe r.1 (requested r.2) acks).map fun t => (t.1, t.2.1, r.2 ++ t.2.2)

/-- The record once the device has been found and provisioned. -/
def Device.provisioned (d : Device) (g : NodeInfor) : NodeInfor × List Out :=
  let found := recvUnprovAdvPkt d.mac d.uuid g
  let joined := provComplete d.uuid d.node.unicastAddr false true found.1
  (joined.1, found.2 ++ joined.2)

/-- How a session ends: nothing is awaited any more, or what is awaited fails. -/
def Session.finish (x : Session) (s : ConfigClient) (sent : Option Word) :
    Option (ConfigClient × List Out) :=
  match x.failure, sent with
  | none, none => some (s, [])
  | some c, some _ => x.device.call aes128 s c
  | _, _ => none

def Session.run (x : Session) (s : ConfigClient) : Option (ConfigClient × List Out) :=
  let found := x.device.provisioned s.globalNode
  (x.device.join aes128 { s with globalNode := found.1 } x.joining).bind fun joined =>
    (x.device.subscribe aes128 joined.1 (requested joined.2) x.acks).bind fun acked =>
      (x.finish aes128 acked.1 acked.2.1).map fun ended =>
        (ended.1, found.2 ++ joined.2 ++ acked.2.2 ++ ended.2)

/-- The bridge, and the sessions so far with what each has sent. -/
structure Switches where
  client : ConfigClient
  log : List (Session × List Out)

def Switches.step (s : Switches) (x : Session) : Option Switches :=
  (x.run aes128 s.client).map fun r => ⟨r.1, s.log ++ [(x, r.2)]⟩

end

/-! ### One call -/

section

variable {aes128 : List Octet → List Octet → List Octet} {s t : ConfigClient} {d : Device}
  {c : CfgCall} {outs : List Out}

theorem requested_eq (outs : List Out) : requested outs = requested (outs.filter Out.isGroup) := by
  induction outs with
  | nil => rfl
  | cons out outs ih =>
    unfold requested at ih ⊢
    rw [List.findSome?_cons, List.filter_cons, ih]
    cases out <;> rfl

theorem publishStates_group (g : NodeInfor) (onoff : Nat → Option Octet) :
    (publishStates g onoff).filter Out.isGroup = [] := by
  apply List.filter_eq_nil_iff.mpr
  intro out hout
  simp only [publishStates, publishState, List.mem_flatMap, List.mem_cons, Option.mem_toList,
    Option.map_eq_some_iff] at hout
  obtain ⟨i, -, rfl | ⟨v, -, rfl⟩⟩ := hout
  · simp [queryState, bleMeshCommandGet, Out.isGroup]
  · simp [Out.isGroup]

theorem configSuccess_group (node : Node) (g : NodeInfor) (onoff : Nat → Option Octet)
    (wall : g.uuid.get 6 = 0x02 ∧ g.uuid.get 7 = 0x01) :
    (configSuccess aes128 node g onoff).filter Out.isGroup = [subAdd node 0] := by
  rw [configSuccess, List.filter_append, List.filter_append, publishStates_group]
  split
  · simp [Out.isGroup, subAdd]
  · rename_i hwall
    exact absurd wall hwall

theorem configSuccess_any (node : Node) (g : NodeInfor) (onoff : Nat → Option Octet) :
    (configSuccess aes128 node g onoff).any Out.isJoined = true := by
  simp [configSuccess, Out.isJoined]

/-- A call before the joined record asks for nothing about the group, and the call that publishes
it asks for the first element. -/
def Asks (node : Node) (outs : List Out) : Prop :=
  outs.filter Out.isGroup = if outs.any Out.isJoined then [subAdd node 0] else []

theorem asks_nil {node : Node} (h : ∀ out ∈ outs, out.isGroup = false ∧ out.isJoined = false) :
    Asks node outs := by
  have hjoined : outs.any Out.isJoined = false :=
    List.any_eq_false.mpr fun out hout => by simp [(h out hout).2]
  rw [Asks, hjoined]
  exact List.filter_eq_nil_iff.mpr fun out hout => by simp [(h out hout).1]

theorem sendModelAppBind_keeps {node : Node} {sendErr : Bool}
    (hsend : sendModelAppBind node sendErr s = some (t, outs)) :
    t.k = s.k ∧ t.globalNode = s.globalNode ∧ Asks node outs := by
  obtain ⟨rfl, rfl | rfl⟩ := sendModelAppBind_cases hsend
  · exact ⟨rfl, rfl, by simp [Asks, Out.isGroup, Out.isJoined]⟩
  · exact ⟨rfl, rfl, by simp [Asks, Out.isGroup, Out.isJoined]⟩

theorem modelAppBindStatus_keeps {node : Node} {status : Binding} {answers : Answers}
    (wall : s.globalNode.uuid.get 6 = 0x02 ∧ s.globalNode.uuid.get 7 = 0x01)
    (hcall : modelAppBindStatus aes128 node status answers s = some (t, outs)) :
    t.k = s.k ∧ t.globalNode = s.globalNode ∧ Asks node outs := by
  obtain ⟨-, rfl, rfl⟩ | ⟨-, -, ⟨-, hsend⟩ | ⟨-, hsend⟩ | ⟨-, -, rfl, rfl⟩⟩ :=
    modelAppBindStatus_cases hcall
  · exact ⟨rfl, rfl, by simp [Asks]⟩
  · have hsent := sendModelAppBind_keeps hsend
    exact hsent
  · have hsent := sendModelAppBind_keeps hsend
    exact hsent
  · refine ⟨rfl, rfl, ?_⟩
    rw [Asks, configSuccess_any, configSuccess_group node _ _ wall, if_pos rfl]

/-- A call of the join leaves the count alone, and the record as it was or with the composition. -/
theorem call_keeps (wall : s.globalNode.uuid.get 6 = 0x02 ∧ s.globalNode.uuid.get 7 = 0x01)
    (hop : c.opcode ≠ .modelSubAdd) (hcall : d.call aes128 s c = some (t, outs)) :
    t.k = s.k ∧ Asks d.node outs ∧ (c.Composes ∧ t.globalNode = s.globalNode.load d.comp ∨
      ¬ c.Composes ∧ t.globalNode = s.globalNode) := by
  cases Join.cb_effect aes128 hcall with
  | appKeyAdd sets call =>
    obtain ⟨hk, hg, hasks⟩ := sendModelAppBind_keeps (appKeyAddStatus_cases call)
    exact ⟨hk, hasks, .inr ⟨sets.not_composes, hg⟩⟩
  | modelAppBind sets call =>
    obtain ⟨hk, hg, hasks⟩ := modelAppBindStatus_keeps wall call
    exact ⟨hk, hasks, .inr ⟨sets.not_composes, hg⟩⟩
  | modelSubAdd sets => exact absurd sets.2.2 hop
  | compositionData composes client sent =>
    subst client
    refine ⟨rfl, asks_nil fun out hout => ?_, .inl ⟨composes, rfl⟩⟩
    rw [sent out hout]
    exact ⟨rfl, rfl⟩
  | other sets composes client sent =>
    subst client
    refine ⟨rfl, asks_nil fun out hout => ?_, .inr ⟨composes, rfl⟩⟩
    rcases sent out hout with rfl | rfl | ⟨binding, rfl⟩ <;> exact ⟨rfl, rfl⟩

/-- A session fails without a trace in the statics. -/
theorem call_fails (hfails : c.Fails) (hcall : d.call aes128 s c = some (t, outs)) :
    t.k = s.k := by
  by_cases hhandled : c.Handled
  · obtain ⟨hevent, hopcode⟩ := hfails.resolve_left fun h => h hhandled.1
    have hnode : (c.answers d).node = some d.node := by simp [CfgCall.answers, hhandled.2]
    simp only [Device.call, bleMeshConfigClientCb, hnode, CfgCall.param, hhandled.1, ne_eq,
      not_true_eq_false, if_false, hevent, hopcode] at hcall
    obtain ⟨rfl, rfl⟩ := Prod.mk.inj (Option.some.inj hcall)
    rfl
  · rw [Device.call, Join.cb_unhandled aes128 s hhandled] at hcall
    obtain ⟨rfl, rfl⟩ := Prod.mk.inj (Option.some.inj hcall)
    rfl

theorem subAdd_elementAddr (node : Node) {j : Nat} (hj : j ≤ maxElements) :
    (node.unicastAddr + BitVec.ofNat 16 j).toNat = node.unicastAddr.toNat + j := by
  have := node.unicast
  unfold maxElements at hj
  simp only [BitVec.toNat_add, BitVec.toNat_ofNat]
  omega

/-- The acknowledgement of the element that `k` counts. -/
theorem call_subAck (status : Octet) (hk : s.k ≤ maxElements) :
    d.call aes128 s (subAck (d.node.unicastAddr + BitVec.ofNat 16 s.k) status) =
      some (if s.k + 1 ≥ s.globalNode.elementNum.toNat then
          ({ s with k := 0 }, [.onoffSet groupAddr 0 true])
        else ({ s with k := s.k + 1 }, [subAdd d.node (s.k + 1)])) := by
  have hsucc : (s.k + 1) % 256 = s.k + 1 := by
    unfold maxElements at hk
    omega
  simp only [Device.call, bleMeshConfigClientCb, subAck, CfgCall.param, CfgCall.answers,
    modelSubAddStatus, subAdd_elementAddr d.node hk, hsucc, ne_eq, not_true_eq_false, if_false,
    if_true, true_and, subAdd]

/-- The acknowledgement of the first element passes unnoticed if `k` counts another. -/
theorem call_subAck_stale (status : Octet) (hk : s.k ≠ 0) :
    d.call aes128 s (subAck (d.node.unicastAddr + BitVec.ofNat 16 0) status) = some (s, []) := by
  simp [Device.call, bleMeshConfigClientCb, subAck, CfgCall.param, CfgCall.answers,
    modelSubAddStatus, hk]

/-! ### One session -/

theorem join_keeps (wall : d.IsWall) {cs : List CfgCall} (huuid : s.globalNode.uuid = d.uuid)
    (hop : ∀ c ∈ cs, c.opcode ≠ .modelSubAdd)
    (hcomp : (∃ c ∈ cs, c.Composes) ∨ s.globalNode.elementNum.toNat = d.comp.rows.length)
    (hrun : d.join aes128 s cs = some (t, outs)) :
    t.k = s.k ∧ t.globalNode.elementNum.toNat = d.comp.rows.length ∧
      outs.filter Out.isGroup = [subAdd d.node 0] := by
  induction cs generalizing s outs with
  | nil => simp [Device.join] at hrun
  | cons c cs ih =>
    simp only [Device.join, Option.bind_eq_some_iff] at hrun
    obtain ⟨⟨u, sent⟩, hcall, hrun⟩ := hrun
    have hwall : s.globalNode.uuid.get 6 = 0x02 ∧ s.globalNode.uuid.get 7 = 0x01 := huuid ▸ wall
    obtain ⟨hk, hasks, hrecord⟩ := call_keeps hwall (hop c (by simp)) hcall
    have hnum (hcomposed : (∃ c' ∈ [c], c'.Composes) ∨
        s.globalNode.elementNum.toNat = d.comp.rows.length) :
        u.globalNode.elementNum.toNat = d.comp.rows.length := by
      rcases hrecord with ⟨-, hload⟩ | ⟨hnot, hsame⟩
      · rw [hload]
        exact (load_holds d.comp _).elementNum
      · rw [hsame]
        exact hcomposed.resolve_left fun ⟨c', hmem, hcomposes⟩ =>
          hnot (List.mem_singleton.mp hmem ▸ hcomposes)
    have huuid' : u.globalNode.uuid = d.uuid := by
      rcases hrecord with ⟨-, hload⟩ | ⟨-, hsame⟩
      · obtain ⟨num, models, cid, hframe⟩ := load_eq d.comp s.globalNode
        rw [hload, hframe]
        exact huuid
      · rw [hsame]
        exact huuid
    by_cases hjoined : sent.any Out.isJoined = true
    · rw [if_pos hjoined] at hrun
      by_cases hempty : cs = []
      · subst hempty
        obtain ⟨rfl, rfl⟩ := Prod.mk.inj (Option.some.inj hrun)
        exact ⟨hk, hnum hcomp, by rw [hasks, if_pos hjoined]⟩
      · simp [hempty] at hrun
    · rw [if_neg hjoined] at hrun
      obtain ⟨⟨v, rest⟩, hrest, heq⟩ := Option.map_eq_some_iff.mp hrun
      obtain ⟨rfl, rfl⟩ := Prod.mk.inj heq
      have hcomp' : (∃ c ∈ cs, c.Composes) ∨
          u.globalNode.elementNum.toNat = d.comp.rows.length := by
        rcases hcomp with ⟨c', hmem, hcomposes⟩ | hsame
        · rcases List.mem_cons.mp hmem with rfl | hmem
          · exact .inr (hnum (.inl ⟨c', by simp, hcomposes⟩))
          · exact .inl ⟨c', hmem, hcomposes⟩
        · exact .inr (hnum (.inr hsame))
      obtain ⟨hk', hnum', hgroup⟩ := ih huuid' (fun c hc => hop c (by simp [hc])) hcomp' hrest
      refine ⟨hk'.trans hk, hnum', ?_⟩
      rw [List.filter_append, hasks, if_neg hjoined, hgroup, List.nil_append]

/-- From a count that agrees with the element requested, each acknowledgement is followed by the
request for the next element, and the last one by the message to the group. -/
theorem subscribe_fresh {n : Nat} {acks : List Octet} {sent : Option Word} (hn : n ≤ maxElements)
    (hnum : s.globalNode.elementNum.toNat = n) (hk : s.k < n)
    (hrun : d.subscribe aes128 s (some (d.node.unicastAddr + BitVec.ofNat 16 s.k)) acks =
      some (t, sent, outs)) :
    (s.k + acks.length < n ∧ t.k = s.k + acks.length ∧ sent ≠ none) ∨
      (s.k + acks.length = n ∧ t.k = 0 ∧ sent = none ∧
        outs = (List.range' (s.k + 1) (n - 1 - s.k)).map (subAdd d.node) ++
          [.onoffSet groupAddr 0 true]) := by
  induction acks generalizing s outs with
  | nil =>
    obtain ⟨rfl, rfl, rfl⟩ : s = t ∧ some _ = sent ∧ [] = outs := by
      simpa [Device.subscribe] using hrun
    exact .inl ⟨by simpa using hk, by simp, by simp⟩
  | cons status acks ih =>
    rw [Device.subscribe, Option.bind_some, call_subAck status (by omega), Option.bind_some,
      hnum] at hrun
    by_cases hlast : s.k + 1 ≥ n
    · rw [if_pos hlast] at hrun
      cases acks with
      | nil =>
        obtain ⟨rfl, rfl, rfl⟩ : _ = t ∧ none = sent ∧ _ = outs := by
          simpa [Device.subscribe, requested, Out.subElement?] using hrun
        have hrange : n - 1 - s.k = 0 := by omega
        refine .inr ⟨?_, rfl, rfl, by simp [hrange]⟩
        simp only [List.length_singleton]
        omega
      | cons status' acks =>
        simp [Device.subscribe, requested, Out.subElement?] at hrun
    · rw [if_neg hlast] at hrun
      obtain ⟨⟨u, sent', rest⟩, hrest, heq⟩ := Option.map_eq_some_iff.mp hrun
      obtain ⟨rfl, rfl, rfl⟩ : u = t ∧ sent' = sent ∧ _ = outs := by simpa using heq
      have hnext : requested [subAdd d.node (s.k + 1)] =
          some (d.node.unicastAddr + BitVec.ofNat 16 (s.k + 1)) := rfl
      rw [hnext] at hrest
      have hih := ih (s := { s with k := s.k + 1 }) hnum (by simpa using hlast) hrest
      simp only [List.length_cons] at hih ⊢
      rcases hih with ⟨hlt, hk', hsent⟩ | ⟨hall, hk', hsent, rfl⟩
      · exact .inl ⟨by omega, by omega, hsent⟩
      · refine .inr ⟨by omega, hk', hsent, ?_⟩
        have hrange : n - 1 - s.k = (n - 1 - (s.k + 1)) + 1 := by omega
        rw [hrange, List.range'_succ]
        rfl

/-- From any other count, the acknowledgement of the first element is the end. -/
theorem subscribe_stale {acks : List Octet} {sent : Option Word} (hk : s.k ≠ 0)
    (hrun : d.subscribe aes128 s (some (d.node.unicastAddr + BitVec.ofNat 16 0)) acks =
      some (t, sent, outs)) : t = s ∧ outs = [] := by
  cases acks with
  | nil =>
    obtain ⟨rfl, rfl, rfl⟩ : s = t ∧ some _ = sent ∧ [] = outs := by
      simpa [Device.subscribe] using hrun
    exact ⟨rfl, rfl⟩
  | cons status acks =>
    rw [Device.subscribe, Option.bind_some, call_subAck_stale status hk, Option.bind_some] at hrun
    cases acks with
    | nil =>
      obtain ⟨rfl, rfl, rfl⟩ : s = t ∧ none = sent ∧ [] = outs := by
        simpa [Device.subscribe, requested] using hrun
      exact ⟨rfl, rfl⟩
    | cons status' acks => simp [Device.subscribe, requested] at hrun

end

namespace Session

variable {aes128 : List Octet → List Octet → List Octet} {x : Session} {s t : ConfigClient}
  {outs : List Out}

/-- The parts of a session: the request for the first element, the acknowledgements, and the end. -/
theorem run_parts (hrun : x.run aes128 s = some (t, outs)) :
    ∃ joined sent acked u ended, joined.k = s.k ∧
      joined.globalNode.elementNum.toNat = x.device.comp.rows.length ∧
      x.device.subscribe aes128 joined
        (some (x.device.node.unicastAddr + BitVec.ofNat 16 0)) x.acks = some (u, sent, acked) ∧
      x.finish aes128 u sent = some (t, ended) ∧
      outs.filter Out.isGroup =
        subAdd x.device.node 0 :: (acked.filter Out.isGroup ++ ended.filter Out.isGroup) := by
  simp only [run, Option.bind_eq_some_iff, Option.map_eq_some_iff] at hrun
  obtain ⟨⟨joined, asked⟩, hjoin, ⟨u, sent, acked⟩, hacks, ⟨v, ended⟩, hfinish, heq⟩ := hrun
  obtain ⟨rfl, rfl⟩ := Prod.mk.inj heq
  obtain ⟨hk, hnum, hgroup⟩ := join_keeps x.wall
    (s := { s with globalNode := (x.device.provisioned s.globalNode).1 }) rfl x.unsubscribed
    (.inl x.composed) hjoin
  have hasked : requested asked = some (x.device.node.unicastAddr + BitVec.ofNat 16 0) := by
    rw [requested_eq, hgroup]
    rfl
  rw [hasked] at hacks
  refine ⟨joined, sent, acked, u, ended, hk, hnum, hacks, hfinish, ?_⟩
  simp only [List.filter_append, hgroup, Device.provisioned, recvUnprovAdvPkt, provComplete,
    Bool.not_true, Bool.or_self, Bool.false_eq_true, if_false]
  rfl

theorem finish_none {u : ConfigClient} {sent : Option Word} {ended : List Out}
    (hfinish : x.finish aes128 u sent = some (t, ended)) (h : sent = none) :
    x.failure = none ∧ u = t ∧ ended = [] := by
  subst h
  cases hfailure : x.failure with
  | none =>
    obtain ⟨rfl, rfl⟩ : u = t ∧ [] = ended := by simpa [finish, hfailure] using hfinish
    exact ⟨rfl, rfl, rfl⟩
  | some c => simp [finish, hfailure] at hfinish

theorem finish_some {u : ConfigClient} {sent : Option Word} {ended : List Out}
    (hfinish : x.finish aes128 u sent = some (t, ended)) (h : sent ≠ none) :
    x.failure ≠ none ∧ t.k = u.k := by
  obtain ⟨element, rfl⟩ := Option.ne_none_iff_exists'.mp h
  cases hfailure : x.failure with
  | none => simp [finish, hfailure] at hfinish
  | some c =>
    simp only [finish, hfailure] at hfinish
    exact ⟨by simp, call_fails c.2 hfinish⟩

theorem rows_length (d : Device) : 0 < d.comp.rows.length ∧ d.comp.rows.length ≤ maxElements := by
  have := List.length_pos_iff.mpr d.comp.nonempty
  have := d.comp.fits
  simp only [Composition.rows, List.length_map]
  omega

theorem subAdds_group (node : Node) (js : List Nat) :
    (js.map (subAdd node) ++ [Out.onoffSet groupAddr 0 true]).filter Out.isGroup =
      js.map (subAdd node) ++ [Out.onoffSet groupAddr 0 true] := by
  apply List.filter_eq_self.mpr
  intro out hout
  rcases List.mem_append.mp hout with hout | hout
  · obtain ⟨j, -, rfl⟩ := List.mem_map.mp hout
    rfl
  · obtain rfl := List.mem_singleton.mp hout
    rfl

theorem range_pos {n : Nat} (h : 0 < n) : List.range n = 0 :: List.range' 1 (n - 1) := by
  obtain ⟨m, rfl⟩ := Nat.exists_eq_add_one.mpr h
  rw [List.range_eq_range', List.range'_succ, Nat.add_sub_cancel]

/-- A session that starts with the count at zero is complete unless it fails, and leaves the count
at zero unless it is broken. -/
theorem run_fresh (hk : s.k = 0) (hrun : x.run aes128 s = some (t, outs)) :
    (t.k = 0 ↔ ¬ x.Broken) ∧ (x.failure = none → x.Complete outs) := by
  obtain ⟨joined, sent, acked, u, ended, hjoined, hnum, hacks, hfinish, hgroup⟩ := run_parts hrun
  obtain ⟨hpos, hmax⟩ := rows_length x.device
  rw [hk] at hjoined
  rw [← hjoined] at hacks
  have hsubscribed := subscribe_fresh hmax hnum (by omega) hacks
  rw [hjoined, Nat.zero_add, Nat.zero_add, Nat.sub_zero] at hsubscribed
  rcases hsubscribed with ⟨-, hu, hsent⟩ | ⟨-, hu, hsent, rfl⟩
  · obtain ⟨hfailed, ht⟩ := finish_some hfinish hsent
    refine ⟨?_, fun h => absurd h hfailed⟩
    rw [ht, hu, List.length_eq_zero_iff]
    exact ⟨fun hnil hbroken => hbroken.1 hnil,
      fun hwhole => by_contra fun hacked => hwhole ⟨hacked, hfailed⟩⟩
  · obtain ⟨hwhole, rfl, rfl⟩ := finish_none hfinish hsent
    refine ⟨iff_of_true hu fun hbroken => hbroken.2 hwhole, fun _ => ?_⟩
    rw [Complete, hgroup, subAdds_group, range_pos hpos]
    simp

/-- A session that starts with any other count leaves it so, and is not complete. -/
theorem run_stale (hk : s.k ≠ 0) (hrun : x.run aes128 s = some (t, outs)) :
    t.k ≠ 0 ∧ (x.failure = none → ¬ x.Complete outs) := by
  obtain ⟨joined, sent, acked, u, ended, hjoined, -, hacks, hfinish, hgroup⟩ := run_parts hrun
  rw [← hjoined] at hk
  obtain ⟨rfl, rfl⟩ := subscribe_stale hk hacks
  by_cases hsent : sent = none
  · obtain ⟨-, rfl, rfl⟩ := finish_none hfinish hsent
    refine ⟨hk, fun _ hcomplete => ?_⟩
    rw [Complete, hgroup] at hcomplete
    have hlast := congrArg List.getLast? hcomplete
    simp [subAdd] at hlast
  · obtain ⟨hfailed, ht⟩ := finish_some hfinish hsent
    exact ⟨ht ▸ hk, fun h => absurd h hfailed⟩

end Session

namespace Switches

open Join

variable {aes128 : List Octet → List Octet → List Octet} {s : Switches}

/-- From the boot on, every session that does not fail is complete exactly if none of them comes
after a broken one. -/
theorem complete_iff (aes128 : List Octet → List Octet → List Octet) (client : ConfigClient)
    (boot : client.k = 0) (xs : List Session) (s : Switches)
    (run : Run (Steps (step aes128)) ⟨client, []⟩ xs s) :
    (∀ entry ∈ s.log, entry.1.failure = none → entry.1.Complete entry.2) ↔
      xs.Pairwise fun a b => a.Broken → b.failure ≠ none := by
  have hinv : (s.client.k = 0 ↔ ∀ a ∈ xs, ¬ a.Broken) ∧
      ((∀ entry ∈ s.log, entry.1.failure = none → entry.1.Complete entry.2) ↔
        xs.Pairwise fun a b => a.Broken → b.failure ≠ none) := by
    refine run.history (I := fun xs s => (s.client.k = 0 ↔ ∀ a ∈ xs, ¬ a.Broken) ∧
      ((∀ entry ∈ s.log, entry.1.failure = none → entry.1.Complete entry.2) ↔
        xs.Pairwise fun a b => a.Broken → b.failure ≠ none)) ⟨by simp [boot], by simp⟩ ?_
    rintro xs s x _ ⟨hcount, hlog⟩ hstep
    obtain ⟨⟨t, outs⟩, hrun, rfl⟩ := Option.map_eq_some_iff.mp hstep
    simp only [List.forall_mem_append, List.forall_mem_singleton, List.pairwise_append,
      List.pairwise_singleton, true_and, ← hlog]
    by_cases hk : s.client.k = 0
    · have hwhole := hcount.mp hk
      obtain ⟨ht, hcomplete⟩ := Session.run_fresh hk hrun
      refine ⟨by rw [ht]; exact ⟨fun h => ⟨hwhole, h⟩, fun h => h.2⟩, ?_⟩
      exact and_congr_right fun _ =>
        iff_of_true hcomplete fun a ha hbroken => absurd hbroken (hwhole a ha)
    · obtain ⟨a, ha, hbroken⟩ : ∃ a ∈ xs, a.Broken := by
        by_contra hnone
        exact hk (hcount.mpr fun a ha hbroken => hnone ⟨a, ha, hbroken⟩)
      obtain ⟨ht, hcomplete⟩ := Session.run_stale hk hrun
      refine ⟨iff_of_false ht fun h => h.1 a ha hbroken, and_congr_right fun _ => ?_⟩
      exact ⟨fun h a _ _ hnone => hcomplete hnone (h hnone),
        fun h hnone => absurd hnone (h a ha hbroken)⟩
  exact hinv.2

def wallSwitch : Device where
  mac := Vector.replicate 6 0xCC
  uuid := #v[0, 0, 0, 0, 0, 0, 0x02, 0x01, 0, 0, 0, 0, 0, 0, 0, 0]
  node := firstNode
  comp :=
    { header := Vector.replicate 10 0, elements := [onoffElement 0, onoffElement 1]
      nonempty := by simp, fits := by decide }

def wallJoining : List CfgCall :=
  [lampCall .getState .compositionDataGet 0, lampCall .setState .appKeyAdd 0,
    lampCall .setState .modelAppBind 5, lampCall .setState .modelAppBind 6]

/-- A join of the switch with the given acknowledgements, then a timeout for the next request. -/
def wallSession (acks : List Octet) (timeout : Bool) : Session where
  device := wallSwitch
  joining := wallJoining
  acks := acks
  failure := if timeout then some ⟨lampCall .timeout .modelSubAdd 0, .inr ⟨rfl, rfl⟩⟩ else none
  wall := ⟨rfl, rfl⟩
  composed := ⟨_, List.mem_cons_self, ⟨rfl, rfl⟩, rfl, rfl⟩
  unsubscribed := by decide

theorem complete_iff_switch :
    ∃ s, Run (Steps (step fun _ block => block)) ⟨⟨blankNode, 0, 0, 0, 0, 0, 0⟩, []⟩
        [wallSession [] true, wallSession [0, 0] false, wallSession [0] true] s ∧
      s.log.length = 3 ∧
      ∀ entry ∈ s.log, entry.1.failure = none → entry.1.Complete entry.2 := by
  have hexec : (exec (step fun _ block => block) ⟨⟨blankNode, 0, 0, 0, 0, 0, 0⟩, []⟩
      [wallSession [] true, wallSession [0, 0] false, wallSession [0] true]).map
        (fun s => s.log.length) = some 3 := by decide
  obtain ⟨s, hs, hlength⟩ := Option.map_eq_some_iff.mp hexec
  have run := Run.of_exec hs
  refine ⟨s, run, hlength, (complete_iff _ _ rfl _ s run).mpr ?_⟩
  simp [Session.Broken, wallSession]

/-- The second element is not acknowledged in time, and the next join ends after its first. -/
theorem switch_stuck :
    ∃ s, Run (Steps (step fun _ block => block)) ⟨⟨blankNode, 0, 0, 0, 0, 0, 0⟩, []⟩
        [wallSession [0] true, wallSession [0] false] s ∧
      ∃ entry ∈ s.log, entry.1.failure = none ∧
        entry.2.filter Out.isGroup = [.modelSubAdd 5 5 groupAddr] ∧
        ¬ entry.1.Complete entry.2 := by
  have hexec : (exec (step fun _ block => block) ⟨⟨blankNode, 0, 0, 0, 0, 0, 0⟩, []⟩
      [wallSession [0] true, wallSession [0] false]).map
        (fun s => s.log.map fun entry => (entry.1.failure.isNone, entry.2.filter Out.isGroup)) =
          some [(false, [.modelSubAdd 5 5 groupAddr, .modelSubAdd 5 6 groupAddr]),
            (true, [.modelSubAdd 5 5 groupAddr])] := by decide
  obtain ⟨s, hs, hlog⟩ := Option.map_eq_some_iff.mp hexec
  refine ⟨s, Run.of_exec hs, ?_⟩
  have hmem : (true, [Out.modelSubAdd 5 5 groupAddr]) ∈
      s.log.map fun entry => (entry.1.failure.isNone, entry.2.filter Out.isGroup) := by
    rw [hlog]
    simp
  obtain ⟨entry, hentry, heq⟩ := List.mem_map.mp hmem
  obtain ⟨hfailure, hsent⟩ := Prod.mk.inj heq
  refine ⟨entry, hentry, by simpa using hfailure, hsent, fun hcomplete => ?_⟩
  rw [Session.Complete, hsent] at hcomplete
  have hlast := congrArg List.getLast? hcomplete
  simp at hlast

end Switches

end VhomeBridge.Ble
