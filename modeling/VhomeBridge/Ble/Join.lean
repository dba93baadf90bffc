import VhomeBridge.Lib.Run
import VhomeBridge.Ble.ConfigClient

/-! Several devices joining at once.  Advertisements, ends of provisioning and events of the
configuration client come in any order, each with the data of its own device, and all of them write
the one record `global_node`.  The joined record is that of one device if the last advertisement,
the last end of provisioning and the last composition data before it were all of the device whose
models are being bound. -/

namespace VhomeBridge.Ble

open Lib

/-- A device as it describes itself, and the node it becomes. -/
structure Device where
  mac : Vector Octet 6
  uuid : Vector Octet 16
  node : Node
  comp : Composition

def Device.record (d : Device) : Joined where
  nodeId := d.node.unicastAddr
  eui64 := d.mac
  endpointCount := BitVec.ofNat 16 d.comp.rows.length
  deviceType := deviceType d.uuid

/-- An event of the configuration client about a device, apart from what the device determines. -/
structure CfgCall where
  event : CfgClientEvent
  opcode : CfgOpcode
  errorCode : Nat
  modelAppStatus : Binding
  status : Octet
  nodeFound : Bool
  sendErr : Bool
  storeErr : Bool
  onoff : Nat → Option Octet

/-- The parameter of the event, which carries the composition data of the device. -/
def CfgCall.param (c : CfgCall) (d : Device) : CfgClientParam where
  errorCode := c.errorCode
  opcode := c.opcode
  compositionData := d.comp.encode
  modelAppStatus := c.modelAppStatus
  status := c.status

def CfgCall.answers (c : CfgCall) (d : Device) : Answers where
  node := if c.nodeFound then some d.node else none
  sendErr := c.sendErr
  storeErr := c.storeErr
  onoff := c.onoff

/-- What the stack reports and the server commands. -/
inductive JoinEvent (ι : Type*)
  | bleopen
  | close
  | recvUnprovAdvPkt (d : ι)
  | provComplete (d : ι) (nameErr nodeFound : Bool)
  | config (d : ι) (call : CfgCall)

/-- The globals of the join, and its history: the devices of the last advertisement, the last end of
provisioning and the last composition data, the device whose models are being bound, and the
outputs, each with the device of the event that caused it. -/
structure Join (ι : Type*) where
  client : ConfigClient
  provisionStatus : Nat
  adv : Option ι
  complete : Option ι
  comp : Option ι
  walk : Option ι
  log : List (ι × Out)

def recvUnprovAdvPkt (addr : Vector Octet 6) (uuid : Vector Octet 16) (g : NodeInfor) :
    NodeInfor × List Out :=
  ({ g with mac := addr }, [.addUnprovDev addr uuid])

def provComplete (uuid : Vector Octet 16) (primaryAddr : Word) (nameErr nodeFound : Bool)
    (g : NodeInfor) : NodeInfor × List Out :=
  ({ g with unicastAddr := primaryAddr, uuid := uuid },
    if nameErr || !nodeFound then [] else [.compositionDataGet primaryAddr])

/-- The callback gets past its first checks. -/
def CfgCall.Handled (c : CfgCall) : Prop := c.errorCode = 0 ∧ c.nodeFound = true

instance (c : CfgCall) : Decidable c.Handled :=
  inferInstanceAs (Decidable (c.errorCode = 0 ∧ c.nodeFound = true))

/-- The call brings the composition data. -/
def CfgCall.Composes (c : CfgCall) : Prop :=
  c.Handled ∧ c.event = .getState ∧ c.opcode = .compositionDataGet

/-- The call answers a request that sets the state of the node. -/
def CfgCall.Sets (c : CfgCall) (opcode : CfgOpcode) : Prop :=
  c.Handled ∧ c.event = .setState ∧ c.opcode = opcode

instance (c : CfgCall) (opcode : CfgOpcode) : Decidable (c.Sets opcode) :=
  inferInstanceAs (Decidable (_ ∧ _ ∧ _))

theorem CfgCall.Sets.not_composes {c : CfgCall} {opcode : CfgOpcode} (h : c.Sets opcode) :
    ¬ c.Composes := fun hcomposes => absurd (hcomposes.2.1.symm.trans h.2.1) (by decide)

/-- What one call about `d` does. -/
inductive CfgCall.Effect (aes128 : List Octet → List Octet → List Octet) (c : CfgCall) (d : Device)
    (s t : ConfigClient) (outs : List Out) : Prop
  | appKeyAdd (sets : c.Sets .appKeyAdd)
      (call : appKeyAddStatus d.node c.sendErr s = some (t, outs))
  | modelAppBind (sets : c.Sets .modelAppBind)
      (call : modelAppBindStatus aes128 d.node c.modelAppStatus (c.answers d) s = some (t, outs))
  | modelSubAdd (sets : c.Sets .modelSubAdd)
      (call : modelSubAddStatus d.node c.modelAppStatus s = (t, outs))
  | compositionData (composes : c.Composes)
      (client : t = { s with globalNode := s.globalNode.load d.comp })
      (sent : ∀ out ∈ outs, out = .appKeyAdd d.node.unicastAddr)
  | other (sets : ¬ c.Sets .appKeyAdd ∧ ¬ c.Sets .modelAppBind ∧ ¬ c.Sets .modelSubAdd)
      (composes : ¬ c.Composes) (client : t = s)
      (sent : ∀ out ∈ outs, out = .compositionDataGet d.node.unicastAddr ∨
        out = .appKeyAdd d.node.unicastAddr ∨
          ∃ binding, out = .modelAppBind d.node.unicastAddr binding)

/-- The next slot ends the last row. -/
def ConfigClient.AtEnd (s : ConfigClient) : Prop :=
  s.globalNode.models s.j s.i = 0xffff ∧ s.globalNode.elementNum.toNat ≤ (s.j + 1) % 256

instance (s : ConfigClient) : Decidable s.AtEnd := inferInstanceAs (Decidable (_ ∧ _))

namespace Join

variable {ι : Type*} (dev : ι → Device) (aes128 : List Octet → List Octet → List Octet)

/-- The device whose models are being bound after a call about `d`. -/
def walkAfter (s : Join ι) (d : ι) (c : CfgCall) : Option ι :=
  if c.Handled then
    match c.event, c.opcode with
    | .setState, .appKeyAdd => if c.sendErr then none else some d
    | .setState, .modelAppBind =>
      if s.client.Awaits (dev d).node c.modelAppStatus ∧ (c.sendErr = true ∨ s.client.AtEnd) then
        none
      else s.walk
    | _, _ => s.walk
  else s.walk

/-- The device of the last composition data after a call about `d`. -/
def compAfter (s : Join ι) (d : ι) (c : CfgCall) : Option ι :=
  if c.Handled ∧ c.event = .getState ∧ c.opcode = .compositionDataGet then some d else s.comp

def step (s : Join ι) : JoinEvent ι → Option (Join ι)
  | .bleopen => some { s with provisionStatus := 1 }
  | .close => some { s with provisionStatus := 0 }
  | .recvUnprovAdvPkt d =>
    if s.provisionStatus = 1 then
      let r := recvUnprovAdvPkt (dev d).mac (dev d).uuid s.client.globalNode
      some { s with
        client := { s.client with globalNode := r.1 }
        adv := some d, log := s.log ++ r.2.map (d, ·) }
    else some s
  | .provComplete d nameErr nodeFound =>
    let r := provComplete (dev d).uuid (dev d).node.unicastAddr nameErr nodeFound
      s.client.globalNode
    some { s with
      client := { s.client with globalNode := r.1 }
      provisionStatus := 0, complete := some d, log := s.log ++ r.2.map (d, ·) }
  | .config d c =>
    (bleMeshConfigClientCb aes128 s.client c.event (c.param (dev d)) (c.answers (dev d))).map
      fun r => { s with
        client := r.1, comp := s.compAfter d c, walk := s.walkAfter dev d c
        log := s.log ++ r.2.map (d, ·) }

/-- The join of each device keeps to itself where it matters: the response to an AppKey and the
status of a binding find the composition of their own device in the table, each of its elements
with a model, a timeout of a binding is of the device being bound, and the device whose last binding
is acknowledged is also that of the last advertisement and of the last end of provisioning. -/
def Alone (s : Join ι) : JoinEvent ι → Prop
  | .config d c => c.Handled →
    (c.event = .setState ∧ c.opcode = .appKeyAdd →
      s.comp = some d ∧ ∀ row ∈ (dev d).comp.rows, row ≠ []) ∧
    (c.event = .setState ∧ c.opcode = .modelAppBind →
      s.client.Awaits (dev d).node c.modelAppStatus →
        s.comp = some d ∧ s.walk = some d ∧
          (s.client.AtEnd → s.adv = some d ∧ s.complete = some d)) ∧
    (c.event = .timeout ∧ c.opcode = .modelAppBind → s.walk = some d)
  | _ => True

instance [DecidableEq ι] (s : Join ι) (e : JoinEvent ι) : Decidable (s.Alone dev e) :=
  match e with
  | .config _ _ => inferInstanceAs (Decidable (_ → _ ∧ _ ∧ _))
  | .bleopen | .close | .recvUnprovAdvPkt _ | .provComplete _ _ _ => .isTrue trivial

/-- A joined record is that of a device, and a bind request sent to a node names an element and a
model of the node's own composition. -/
def Belongs (entry : ι × Out) : Prop :=
  match entry.2 with
  | .joined record => ∃ d, record = (dev d).record
  | .modelAppBind addr binding =>
    addr = (dev entry.1).node.unicastAddr ∧
      ∃ (j : Nat) (row : List (Word × Word)) (x : Word × Word),
        (dev entry.1).comp.rows[j]? = some row ∧ x ∈ row ∧
          binding = bindingOf (dev entry.1).node j x
  | _ => True

def start (client : ConfigClient) : Join ι := ⟨client, 0, none, none, none, none, []⟩

/-- The record holds the data of the devices that the history names, and the statics stand in the
table of the device being bound. -/
structure Inv (s : Join ι) : Prop where
  adv : ∀ d, s.adv = some d → s.client.globalNode.mac = (dev d).mac
  complete : ∀ d, s.complete = some d →
    s.client.globalNode.unicastAddr = (dev d).node.unicastAddr ∧
      s.client.globalNode.uuid = (dev d).uuid
  comp : ∀ d, s.comp = some d → s.client.globalNode.Holds (dev d).comp.rows
  walk : ∀ d, s.walk = some d → TableFits (dev d).comp.rows ∧
    ∃ done pre cur post rest, (dev d).comp.rows = done ++ (pre ++ cur :: post) :: rest ∧
      s.client.Position done pre cur
  log : ∀ entry ∈ s.log, Belongs dev entry

/-! ### One event -/

section

variable {s t : Join ι} {dev}

theorem start_inv (client : ConfigClient) : Inv dev (start client) where
  adv := by intro d h; contradiction
  complete := by intro d h; contradiction
  comp := by intro d h; contradiction
  walk := by intro d h; contradiction
  log := by intro entry h; contradiction

theorem belongs_bind {d : ι} {done rest : List (List (Word × Word))} {pre post : List (Word × Word)}
    {x : Word × Word} (hrows : (dev d).comp.rows = done ++ (pre ++ x :: post) :: rest) :
    Belongs dev (d, .modelAppBind (dev d).node.unicastAddr
      (bindingOf (dev d).node done.length x)) :=
  ⟨rfl, done.length, pre ++ x :: post, x, by simp [hrows], by simp, rfl⟩

theorem belongs_configSuccess {d : ι} {g : NodeInfor} {onoff : Nat → Option Octet}
    (hrecord : joinedRecord g = (dev d).record) :
    ∀ out ∈ configSuccess aes128 (dev d).node g onoff, Belongs dev (d, out) := by
  intro out hout
  simp only [configSuccess, publishStates, publishState, List.mem_append, List.mem_cons,
    List.mem_flatMap, Option.mem_toList, Option.map_eq_some_iff, List.not_mem_nil, or_false] at hout
  rcases hout with ((rfl | rfl | rfl) | ⟨i, -, rfl | ⟨v, -, rfl⟩⟩) | h
  · trivial
  · trivial
  · exact ⟨d, hrecord⟩
  · trivial
  · trivial
  · split at h
    · obtain rfl := List.mem_singleton.mp h
      trivial
    · simp at h

/-- Where the device being bound stands after a call that keeps the position. -/
theorem Inv.walking (h : Inv dev s) {client : ConfigClient}
    (statics : ∀ done pre cur, s.client.Position done pre cur → client.Position done pre cur) :
    ∀ d, s.walk = some d → TableFits (dev d).comp.rows ∧
      ∃ done pre cur post rest, (dev d).comp.rows = done ++ (pre ++ cur :: post) :: rest ∧
        client.Position done pre cur := by
  intro d hd
  obtain ⟨fits, done, pre, cur, post, rest, hrows, hpos⟩ := h.walk d hd
  exact ⟨fits, done, pre, cur, post, rest, hrows, statics _ _ _ hpos⟩

theorem Inv.logged (h : Inv dev s) {d : ι} {outs : List Out}
    (hout : ∀ out ∈ outs, Belongs dev (d, out)) :
    ∀ entry ∈ s.log ++ outs.map (d, ·), Belongs dev entry := by
  intro entry hentry
  rcases List.mem_append.mp hentry with hentry | hentry
  · exact h.log entry hentry
  · obtain ⟨out, hmem, rfl⟩ := List.mem_map.mp hentry
    exact hout out hmem

/-- A call that leaves the address, the MAC and the UUID of the record as they were. -/
theorem Inv.call (h : Inv dev s) {client : ConfigClient} {d : ι} {comp walk : Option ι}
    {outs : List Out}
    (frame : ∃ num models cid, client.globalNode =
      { s.client.globalNode with elementNum := num, models := models, cid := cid })
    (hcomp : ∀ d, comp = some d → client.globalNode.Holds (dev d).comp.rows)
    (hwalk : ∀ d, walk = some d → TableFits (dev d).comp.rows ∧
      ∃ done pre cur post rest, (dev d).comp.rows = done ++ (pre ++ cur :: post) :: rest ∧
        client.Position done pre cur)
    (hout : ∀ out ∈ outs, Belongs dev (d, out)) :
    Inv dev { s with
      client := client, comp := comp, walk := walk, log := s.log ++ outs.map (d, ·) } := by
  obtain ⟨num, models, cid, hframe⟩ := frame
  refine ⟨?_, ?_, hcomp, hwalk, h.logged hout⟩
  · intro d hd
    rw [hframe]
    exact h.adv d hd
  · intro d hd
    rw [hframe]
    exact h.complete d hd

/-- A call that changes neither the table nor the position. -/
theorem Inv.quiet (h : Inv dev s) {client : ConfigClient} {d : ι} {outs : List Out}
    (table : client.globalNode = s.client.globalNode)
    (statics : ∀ done pre cur, s.client.Position done pre cur → client.Position done pre cur)
    (hout : ∀ out ∈ outs, Belongs dev (d, out)) :
    Inv dev { s with client := client, log := s.log ++ outs.map (d, ·) } :=
  h.call ⟨_, _, _, table⟩ (by rw [table]; exact h.comp) (h.walking statics) hout

/-- Sending a bind request for an entry of the device. -/
theorem Inv.bind (h : Inv dev s) (client : ConfigClient) {client' : ConfigClient} {d : ι}
    {sendErr : Bool} {outs : List Out} {done rest : List (List (Word × Word))}
    {pre post : List (Word × Word)}
    {x : Word × Word} (hcomp : s.comp = some d) (fits : TableFits (dev d).comp.rows)
    (hrows : (dev d).comp.rows = done ++ (pre ++ x :: post) :: rest)
    (table : client.globalNode = s.client.globalNode) (hi : client.i = pre.length)
    (hj : client.j = done.length) (htemp : client.temp = x.1)
    (hsend : sendModelAppBind (dev d).node sendErr client = some (client', outs)) :
    Inv dev { s with
      client := client', walk := if sendErr then none else some d
      log := s.log ++ outs.map (d, ·) } := by
  have hholds := h.comp d hcomp
  rw [hrows, ← table] at hholds
  rw [hrows] at fits
  obtain ⟨⟨u, hu, hug, hok⟩, herr⟩ := sendModelAppBind_eq (dev d).node hholds fits hi hj htemp
  cases sendErr with
  | false =>
    obtain ⟨rfl, rfl⟩ : u = client' ∧ _ = outs := by simpa [hok] using hsend
    refine h.call ⟨_, _, _, hug.trans table⟩ (by rw [hug, table]; exact h.comp) ?_
      (by simpa using belongs_bind hrows)
    intro d' hd'
    obtain rfl : d = d' := by simpa using hd'
    exact ⟨hrows ▸ fits, done, pre, x, post, rest, hrows, hu.toPosition⟩
  | true =>
    obtain ⟨rfl, rfl⟩ : client = client' ∧ _ = outs := by simpa [herr] using hsend
    exact h.call ⟨_, _, _, table⟩ (by rw [table]; exact h.comp) (by simp)
      (by simpa using belongs_bind hrows)

theorem Inv.record (h : Inv dev s) {d : ι} (hadv : s.adv = some d) (hcomplete : s.complete = some d)
    (hcomp : s.comp = some d) : joinedRecord s.client.globalNode = (dev d).record := by
  obtain ⟨hunicast, huuid⟩ := h.complete d hcomplete
  have hnum : s.client.globalNode.elementNum = BitVec.ofNat 16 (dev d).comp.rows.length := by
    rw [← (h.comp d hcomp).elementNum, BitVec.ofNat_toNat, BitVec.setWidth_eq]
  simp only [joinedRecord, Device.record, h.adv d hadv, hunicast, huuid, hnum]

theorem atEnd_iff {client : ConfigClient} {done rest : List (List (Word × Word))}
    {pre post : List (Word × Word)} {cur : Word × Word}
    (h : client.Waiting done pre cur post rest)
    (fits : TableFits (done ++ (pre ++ cur :: post) :: rest)) :
    client.AtEnd ↔ (∀ y ∈ post.head?, y.1 = 0xffff) ∧ rest = [] := by
  have hnum := h.holds.elementNum
  have hlength := fits.rows
  simp only [List.length_append, List.length_cons] at hnum hlength
  unfold maxElements at hlength
  have hj : (client.j + 1) % 256 = done.length + 1 := by rw [h.j]; omega
  have hrest : client.globalNode.elementNum.toNat ≤ (client.j + 1) % 256 ↔ rest = [] := by
    rw [hnum, hj, ← List.length_eq_zero_iff]
    omega
  have hslot : client.globalNode.models client.j client.i = 0xffff ↔
      ∀ y ∈ post.head?, y.1 = 0xffff := by
    constructor
    · intro hread
      cases post with
      | nil => simp
      | cons next post =>
        have hnext := h.holds.entry done.length (pre ++ cur :: next :: post) (pre.length + 1)
          next.1 next.2 (by simp) (by simp)
        rw [h.i, h.j, hnext.1] at hread
        simpa using hread
    · intro hend
      have hread := h.read_end fits hend
      simp only [NodeInfor.getModel, Option.ite_none_right_eq_some, Option.some.injEq] at hread
      exact hread.2
  rw [ConfigClient.AtEnd, hslot, hrest]

theorem Inv.awaited (h : Inv dev s) {client : ConfigClient} {d : ι} {status : Binding}
    {answers : Answers} {outs : List Out} (hawaits : s.client.Awaits (dev d).node status)
    (hcomp : s.comp = some d) (hwalk : s.walk = some d)
    (hend : s.client.AtEnd → s.adv = some d ∧ s.complete = some d)
    (hcall : modelAppBindStatus aes128 (dev d).node status answers s.client =
      some (client, outs)) :
    Inv dev { s with
      client := client
      walk := if answers.sendErr = true ∨ s.client.AtEnd then none else some d
      log := s.log ++ outs.map (d, ·) } := by
  obtain ⟨fits, done, pre, cur, post, rest, hrows, hpos⟩ := h.walk d hwalk
  have hholds := h.comp d hcomp
  rw [hrows] at hholds
  have hwait : s.client.Waiting done pre cur post rest := ⟨hpos, hholds⟩
  have hfits : TableFits (done ++ (pre ++ cur :: post) :: rest) := hrows ▸ fits
  obtain rfl := (hwait.test_iff hfits status).mp hawaits
  have hbind (client' : ConfigClient) {done' rest' : List (List (Word × Word))}
      {pre' post' : List (Word × Word)} {x : Word × Word} (hmore : ¬ s.client.AtEnd)
      (hrows' : (dev d).comp.rows = done' ++ (pre' ++ x :: post') :: rest')
      (table : client'.globalNode = s.client.globalNode) (hi : client'.i = pre'.length)
      (hj : client'.j = done'.length) (htemp : client'.temp = x.1)
      (hsend : modelAppBindStatus aes128 (dev d).node (bindingOf (dev d).node done.length cur)
        answers s.client = sendModelAppBind (dev d).node answers.sendErr client') :
      Inv dev { s with
        client := client
        walk := if answers.sendErr = true ∨ s.client.AtEnd then none else some d
        log := s.log ++ outs.map (d, ·) } := by
    rw [hcall] at hsend
    have := h.bind client' hcomp fits hrows' table hi hj htemp hsend.symm
    simpa only [hmore, or_false] using this
  by_cases hid : ∀ y ∈ post.head?, y.1 = 0xffff
  · cases rest with
    | nil =>
      have hat : s.client.AtEnd := (atEnd_iff hwait hfits).mpr ⟨hid, rfl⟩
      obtain ⟨hadv, hcomplete⟩ := hend hat
      rw [hwait.finish hfits hid] at hcall
      obtain ⟨rfl, rfl⟩ : _ = client ∧ _ = outs := by simpa using hcall
      exact h.call ⟨_, _, _, rfl⟩ h.comp (by simp [hat])
        (belongs_configSuccess aes128 (h.record hadv hcomplete hcomp))
    | cons row rest =>
      have hmore : ¬ s.client.AtEnd := fun hat => by
        have := ((atEnd_iff hwait hfits).mp hat).2
        contradiction
      obtain ⟨n, ns, rfl⟩ := List.exists_cons_of_ne_nil (hfits.nonempty row (by simp))
      have hrows' : (dev d).comp.rows =
          (done ++ [pre ++ cur :: post]) ++ ([] ++ n :: ns) :: rest := by rw [hrows]; simp
      exact hbind { s.client with i := 0, j := done.length + 1, temp := n.1 } hmore hrows'
        rfl rfl (by simp) rfl (hwait.next_row hfits hid)
  · have hmore : ¬ s.client.AtEnd := fun hat => hid ((atEnd_iff hwait hfits).mp hat).1
    cases post with
    | nil => simp at hid
    | cons next post =>
      have hnext : next.1 ≠ 0xffff := by simpa using hid
      have hrows' : (dev d).comp.rows = done ++ ((pre ++ [cur]) ++ next :: post) :: rest := by
        rw [hrows]; simp
      exact hbind { s.client with temp := next.1 } hmore hrows' rfl (by simp [hwait.i]) hwait.j rfl
        (hwait.next_in_row hfits hnext)

theorem Inv.recvUnprovAdvPkt (h : Inv dev s) (d : ι) :
    Inv dev { s with
      client := { s.client with globalNode := { s.client.globalNode with mac := (dev d).mac } }
      adv := some d
      log := s.log ++ [.addUnprovDev (dev d).mac (dev d).uuid].map (d, ·) } where
  adv := by
    rintro d' ⟨⟩
    rfl
  complete := h.complete
  comp := fun d' hd' => ⟨(h.comp d' hd').elementNum, (h.comp d' hd').entry,
    (h.comp d' hd').terminator⟩
  walk := h.walking fun _ _ _ hpos => hpos.withGlobalNode _
  log := h.logged (by simp [Belongs])

theorem Inv.provComplete (h : Inv dev s) (d : ι) (nameErr nodeFound : Bool) :
    Inv dev { s with
      client := { s.client with globalNode := { s.client.globalNode with
        unicastAddr := (dev d).node.unicastAddr, uuid := (dev d).uuid } }
      provisionStatus := 0, complete := some d
      log := s.log ++ (if nameErr || !nodeFound then []
        else [Out.compositionDataGet (dev d).node.unicastAddr]).map (d, ·) } where
  adv := h.adv
  complete := by
    rintro d' ⟨⟩
    exact ⟨rfl, rfl⟩
  comp := fun d' hd' => ⟨(h.comp d' hd').elementNum, (h.comp d' hd').entry,
    (h.comp d' hd').terminator⟩
  walk := h.walking fun _ _ _ hpos => hpos.withGlobalNode _
  log := by
    apply h.logged
    intro out hout
    split at hout
    · simp at hout
    · obtain rfl := List.mem_singleton.mp hout
      trivial

/-- The composition data of `d` replaces the table. -/
theorem Inv.compositionData (h : Inv dev s) {d : ι} {storeErr : Bool} {client : ConfigClient}
    {outs : List Out}
    (hcall : compositionDataStatus (dev d).node (dev d).comp.encode storeErr s.client =
      some (client, outs)) :
    Inv dev { s with client := client, comp := some d, log := s.log ++ outs.map (d, ·) } := by
  simp only [compositionDataStatus, parse_encode, Option.bind_eq_bind, Option.bind_some,
    Option.pure_def, Option.some.injEq, Prod.mk.injEq] at hcall
  obtain ⟨rfl, rfl⟩ := hcall
  refine h.call (load_eq _ _) ?_ (h.walking fun _ _ _ hpos => hpos.withGlobalNode _) ?_
  · rintro d' ⟨⟩
    exact load_holds _ _
  · intro out hout
    split at hout
    · simp at hout
    · obtain rfl := List.mem_singleton.mp hout
      trivial

/-- The response to the AppKey starts the binding of `d`. -/
theorem Inv.appKeyAdd (h : Inv dev s) {d : ι} {sendErr : Bool} {client : ConfigClient}
    {outs : List Out} (hcomp : s.comp = some d) (hne : ∀ row ∈ (dev d).comp.rows, row ≠ [])
    (hcall : appKeyAddStatus (dev d).node sendErr s.client = some (client, outs)) :
    Inv dev { s with
      client := client, walk := if sendErr then none else some d
      log := s.log ++ outs.map (d, ·) } := by
  have fits := (dev d).comp.tableFits hne
  have hholds := h.comp d hcomp
  have hfilled : (dev d).comp.rows ≠ [] := by
    simpa [Composition.rows] using (dev d).comp.nonempty
  obtain ⟨row, rest, hrows⟩ := List.exists_cons_of_ne_nil hfilled
  obtain ⟨n, ns, rfl⟩ := List.exists_cons_of_ne_nil (hne row (by simp [hrows]))
  rw [hrows] at hholds
  rw [appKeyAddStatus_eq (dev d).node _ hholds (hrows ▸ fits)] at hcall
  exact h.bind { s.client with i := 0, j := 0, temp := n.1 } hcomp fits
    (show _ = [] ++ ([] ++ n :: ns) :: rest from hrows) rfl rfl rfl rfl hcall

theorem modelSubAddStatus_quiet (node : Node) (status : Binding) (c : ConfigClient) :
    ∃ k, (modelSubAddStatus node status c).1 = { c with k := k } ∧
      ∀ out ∈ (modelSubAddStatus node status c).2,
        out = .onoffSet groupAddr 0 true ∨
          ∃ addr element, out = .modelSubAdd addr element groupAddr := by
  unfold modelSubAddStatus
  by_cases hmatch : status.companyId = 0xFFFF ∧
    status.elementAddr.toNat = node.unicastAddr.toNat + c.k
  · by_cases hlast : (c.k + 1) % 256 ≥ c.globalNode.elementNum.toNat
    · exact ⟨0, by simp [hmatch, hlast], by simp [hmatch, hlast]⟩
    · exact ⟨(c.k + 1) % 256, by simp [hmatch, hlast], by simp [hmatch, hlast]⟩
  · rw [if_neg hmatch]
    exact ⟨c.k, rfl, by simp⟩

theorem cb_unhandled {d : Device} {c : CfgCall} (client : ConfigClient) (h : ¬c.Handled) :
    bleMeshConfigClientCb aes128 client c.event (c.param d) (c.answers d) = some (client, []) := by
  by_cases herr : c.errorCode = 0
  · have hfound : c.nodeFound = false := by simpa [CfgCall.Handled, herr] using h
    simp [bleMeshConfigClientCb, CfgCall.param, CfgCall.answers, hfound]
  · simp [bleMeshConfigClientCb, CfgCall.param, herr]

/-- Each call has one of the effects. -/
theorem cb_effect {d : Device} {c : CfgCall} {s t : ConfigClient} {outs : List Out}
    (hcall : bleMeshConfigClientCb aes128 s c.event (c.param d) (c.answers d) = some (t, outs)) :
    c.Effect aes128 d s t outs := by
  by_cases hhandled : c.Handled
  · have hnode : (c.answers d).node = some d.node := by simp [CfgCall.answers, hhandled.2]
    simp only [bleMeshConfigClientCb, hnode, CfgCall.param, hhandled.1, ne_eq, not_true_eq_false,
      if_false] at hcall
    cases hevent : c.event <;> cases hopcode : c.opcode <;>
      simp only [hevent, hopcode] at hcall
    case getState.compositionDataGet =>
      simp only [compositionDataStatus, parse_encode, Option.bind_eq_bind, Option.bind_some,
        Option.pure_def, Option.some.injEq, Prod.mk.injEq] at hcall
      obtain ⟨rfl, rfl⟩ := hcall
      refine .compositionData ⟨hhandled, hevent, hopcode⟩ rfl fun out hout => ?_
      split at hout
      · simp at hout
      · exact List.mem_singleton.mp hout
    case setState.appKeyAdd => exact .appKeyAdd ⟨hhandled, hevent, hopcode⟩ hcall
    case setState.modelAppBind => exact .modelAppBind ⟨hhandled, hevent, hopcode⟩ hcall
    case setState.modelSubAdd =>
      exact .modelSubAdd ⟨hhandled, hevent, hopcode⟩ (Option.some.inj hcall)
    all_goals
      obtain ⟨rfl, rfl⟩ := Prod.mk.inj (Option.some.inj hcall)
      exact .other (by simp [CfgCall.Sets, hevent, hopcode])
        (by simp [CfgCall.Composes, hevent, hopcode]) rfl (by simp)
  · rw [cb_unhandled aes128 s hhandled] at hcall
    obtain ⟨rfl, rfl⟩ := Prod.mk.inj (Option.some.inj hcall)
    exact .other ⟨fun h => hhandled h.1, fun h => hhandled h.1, fun h => hhandled h.1⟩
      (fun h => hhandled h.1) rfl (by simp)

theorem Inv.config (h : Inv dev s) {d : ι} {c : CfgCall} {client : ConfigClient}
    {outs : List Out} (ok : s.Alone dev (.config d c))
    (hcall : bleMeshConfigClientCb aes128 s.client c.event (c.param (dev d))
      (c.answers (dev d)) = some (client, outs)) :
    Inv dev { s with
      client := client, comp := s.compAfter d c, walk := s.walkAfter dev d c
      log := s.log ++ outs.map (d, ·) } := by
  by_cases hhandled : c.Handled
  · have hnode : (c.answers (dev d)).node = some (dev d).node := by
      simp [CfgCall.answers, hhandled.2]
    have hok := ok hhandled
    simp only [bleMeshConfigClientCb, hnode, CfgCall.param, hhandled.1, ne_eq, not_true_eq_false,
      if_false] at hcall
    simp only [compAfter, walkAfter, hhandled, true_and, if_true]
    cases hevent : c.event <;> cases hopcode : c.opcode <;>
      simp only [hevent, hopcode, reduceCtorEq, and_self, and_true, true_and, and_false,
        if_true, if_false, true_implies, false_implies] at hcall hok ⊢
    case getState.compositionDataGet => exact h.compositionData hcall
    case setState.modelSubAdd =>
      obtain ⟨k, hk, hout⟩ := modelSubAddStatus_quiet (dev d).node c.modelAppStatus s.client
      rw [Option.some.injEq] at hcall
      rw [hcall] at hk hout
      obtain rfl := hk
      refine h.quiet rfl (fun _ _ _ hpos => ⟨hpos.i, hpos.j, hpos.temp, hpos.waitModelId,
        hpos.waitCid⟩) fun out hmem => ?_
      rcases hout out hmem with rfl | ⟨addr, element, rfl⟩ <;> trivial
    case setState.appKeyAdd => exact h.appKeyAdd hok.1 hok.2 hcall
    case setState.modelAppBind =>
      by_cases hawaits : s.client.Awaits (dev d).node c.modelAppStatus
      · obtain ⟨hcomp, hwalk, hend⟩ := hok hawaits
        simp only [hawaits, true_and]
        rw [hwalk]
        exact h.awaited aes128 hawaits hcomp hwalk hend hcall
      · rw [modelAppBindStatus, if_neg hawaits] at hcall
        obtain ⟨rfl, rfl⟩ := Prod.mk.inj (Option.some.inj hcall)
        simp only [hawaits, false_and, if_false]
        exact h.quiet rfl (fun _ _ _ hpos => hpos) (by simp)
    case timeout.compositionDataGet | timeout.appKeyAdd =>
      obtain ⟨rfl, rfl⟩ := Prod.mk.inj (Option.some.inj hcall)
      exact h.quiet rfl (fun _ _ _ hpos => hpos) (by simp [Belongs])
    case timeout.modelAppBind =>
      obtain ⟨rfl, rfl⟩ := Prod.mk.inj (Option.some.inj hcall)
      obtain ⟨-, done, pre, cur, post, rest, hrows, hpos⟩ := h.walk d hok
      apply h.quiet rfl (fun _ _ _ hpos => hpos)
      intro out hout
      obtain rfl := List.mem_singleton.mp hout
      rw [hpos.j, hpos.waitModelId, hpos.waitCid]
      exact belongs_bind hrows
    all_goals
      obtain ⟨rfl, rfl⟩ := Prod.mk.inj (Option.some.inj hcall)
      exact h.quiet rfl (fun _ _ _ hpos => hpos) (by simp)
  · rw [cb_unhandled aes128 s.client hhandled] at hcall
    obtain ⟨rfl, rfl⟩ := Prod.mk.inj (Option.some.inj hcall)
    simp only [compAfter, walkAfter, hhandled, false_and, if_false]
    exact h.quiet rfl (fun _ _ _ hpos => hpos) (by simp)

theorem step_inv {e : JoinEvent ι} (h : Inv dev s) (hstep : s.step dev aes128 e = some t)
    (ok : s.Alone dev e) : Inv dev t := by
  cases e with
  | bleopen | close =>
    obtain rfl := Option.some.inj hstep
    exact ⟨h.adv, h.complete, h.comp, h.walk, h.log⟩
  | recvUnprovAdvPkt d =>
    rw [step] at hstep
    split at hstep
    · obtain rfl := Option.some.inj hstep
      exact h.recvUnprovAdvPkt d
    · obtain rfl := Option.some.inj hstep
      exact h
  | provComplete d nameErr nodeFound =>
    obtain rfl := Option.some.inj hstep
    exact h.provComplete d nameErr nodeFound
  | config d c =>
    obtain ⟨⟨client, outs⟩, hcall, rfl⟩ := Option.map_eq_some_iff.mp hstep
    exact h.config aes128 ok hcall

end

/-- In every run in which the joins keep to themselves where it matters, each joined record
published is that of one device, and each bind request names a model of the node it is sent to. -/
theorem belongs_of_alone (dev : ι → Device) (aes128 : List Octet → List Octet → List Octet)
    (client : ConfigClient) (es : List (JoinEvent ι)) (s : Join ι)
    (run : Run (Guarded (Steps (step dev aes128)) (Alone dev)) (start client) es s) :
    ∀ entry ∈ s.log, Belongs dev entry :=
  (run.invariant (start_inv client) fun _ _ _ h hstep => step_inv aes128 h hstep.1 hstep.2).log

def lampComp : Composition where
  header := Vector.replicate 10 0
  elements := [onoffElement 0]
  nonempty := by simp
  fits := by decide

def twoLamps : Bool → Device
  | false => ⟨Vector.replicate 6 0xAA, Vector.replicate 16 1, firstNode, lampComp⟩
  | true => ⟨Vector.replicate 6 0xBB, Vector.replicate 16 2, ⟨6, by decide⟩, lampComp⟩

def lampCall (event : CfgClientEvent) (opcode : CfgOpcode) (elementAddr : Word) : CfgCall :=
  ⟨event, opcode, 0, ⟨elementAddr, 0x1000, 0xffff⟩, 0, true, false, false, fun _ => none⟩

def lampJoin (d : Bool) : List (JoinEvent Bool) :=
  [.provComplete d false true, .config d (lampCall .getState .compositionDataGet 0),
    .config d (lampCall .setState .appKeyAdd 0),
    .config d (lampCall .setState .modelAppBind (twoLamps d).node.unicastAddr)]

def lampsInTurn : List (JoinEvent Bool) :=
  [.bleopen, .recvUnprovAdvPkt false] ++ lampJoin false ++
    [.bleopen, .recvUnprovAdvPkt true] ++ lampJoin true

theorem belongs_of_alone_lamps :
    ∃ s, Run (Guarded (Steps (step twoLamps fun _ block => block)) (Alone twoLamps))
        (start ⟨blankNode, 0, 0, 0, 0, 0, 0⟩) lampsInTurn s ∧
      s.log.countP (·.2.isJoined) = 2 ∧ ∀ entry ∈ s.log, Belongs twoLamps entry := by
  have hexec : (exec (restrict (step twoLamps fun _ block => block)
      fun s e => decide (s.Alone twoLamps e)) (start ⟨blankNode, 0, 0, 0, 0, 0, 0⟩)
        lampsInTurn).map (fun s => s.log.countP (·.2.isJoined)) = some 2 := by decide
  obtain ⟨s, hs, hcount⟩ := Option.map_eq_some_iff.mp hexec
  have run := Run.of_exec_restrict (G := Alone twoLamps) (fun _ _ => of_decide_eq_true) hs
  exact ⟨s, run, hcount, belongs_of_alone _ _ _ _ s run⟩

/-- Both lamps advertise before the first is provisioned: its record has the MAC of the second. -/
theorem lamps_overlap :
    ∃ s, Run (Steps (step twoLamps fun _ block => block)) (start ⟨blankNode, 0, 0, 0, 0, 0, 0⟩)
        ([.bleopen, .recvUnprovAdvPkt false, .recvUnprovAdvPkt true] ++ lampJoin false) s ∧
      ∃ entry ∈ s.log, ¬ Belongs twoLamps entry := by
  have hexec : (exec (step twoLamps fun _ block => block) (start ⟨blankNode, 0, 0, 0, 0, 0, 0⟩)
      ([.bleopen, .recvUnprovAdvPkt false, .recvUnprovAdvPkt true] ++ lampJoin false)).map
        (fun s => decide ((false, .joined ⟨5, Vector.replicate 6 0xBB, 1, (1, 1)⟩) ∈ s.log)) =
          some true := by decide
  obtain ⟨s, hs, hmem⟩ := Option.map_eq_some_iff.mp hexec
  refine ⟨s, Run.of_exec hs, _, of_decide_eq_true hmem, ?_⟩
  rintro ⟨d, hd⟩
  revert d
  decide

end Join

end VhomeBridge.Ble
