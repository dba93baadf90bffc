import VhomeBridge.Ble.Bind
import VhomeBridge.Ble.Join

/-! The slots that the binding of a node reads.  A row of the table ends at its terminator, which is
told from an entry by its value alone, and only one of the three reads of an entry tests for it.
Every request names an entry of the composition, and no slot after a terminator is read, in the
runs that meet no element without models and whose statuses and timeouts answer what was sent. -/

namespace VhomeBridge.Ble

open Lib

namespace ConfigClient

/-- The slot that the request after an awaited status is taken from, if there is one. -/
def nextSlot (s : ConfigClient) : Option (Nat × Nat) :=
  if s.globalNode.models s.j s.i ≠ 0xffff then some (s.j, s.i)
  else if s.AtEnd then none
  else some ((s.j + 1) % 256, 0)

/-- The slot that a call takes a request from: its model id and its company id are read. -/
def boundSlot (s : ConfigClient) (node : Node) (c : CfgCall) : Option (Nat × Nat) :=
  if c.Sets .appKeyAdd then some (0, 0)
  else if c.Sets .modelAppBind ∧ s.Awaits node c.modelAppStatus then s.nextSlot
  else none

/-- The slot that a call tests for the end of a row: its model id is read. -/
def testedSlot (s : ConfigClient) (node : Node) (c : CfgCall) : Option (Nat × Nat) :=
  if c.Sets .modelAppBind ∧ s.Awaits node c.modelAppStatus then some (s.j, s.i) else none

/-- The statics with another table. -/
def withTable (s : ConfigClient) (models cid : Nat → Nat → Word) : ConfigClient :=
  { s with globalNode := { s.globalNode with models := models, cid := cid } }

end ConfigClient

/-- The binding of one node with its history: whether the AppKey has been acknowledged, the element
of the latest request that the stack took, the outputs, and the slots that requests were taken from
or that were tested for the end of a row. -/
structure SlotWalk where
  client : ConfigClient
  started : Bool
  sent : Option Nat
  log : List Out
  bound : List (Nat × Nat)
  tested : List (Nat × Nat)

/-- The slot holds an entry of the table. -/
def IsEntry (table : List (List (Word × Word))) (slot : Nat × Nat) : Prop :=
  ∃ row, table[slot.1]? = some row ∧ slot.2 < row.length

/-- The slot holds an entry of the table or the terminator of a row. -/
def InRow (table : List (List (Word × Word))) (slot : Nat × Nat) : Prop :=
  ∃ row, table[slot.1]? = some row ∧ slot.2 ≤ row.length

/-- A call is a request that the stack reports as timed out. -/
def CfgCall.Resends (c : CfgCall) : Prop :=
  c.Handled ∧ c.event = .timeout ∧ c.opcode = .modelAppBind

instance (c : CfgCall) : Decidable c.Resends := inferInstanceAs (Decidable (_ ∧ _ ∧ _))

namespace SlotWalk

def start (client : ConfigClient) : SlotWalk := ⟨client, false, none, [], [], []⟩

section

variable (d : Device)

def sentAfter (s : SlotWalk) (c : CfgCall) : Option Nat :=
  if c.sendErr then s.sent else ((s.client.boundSlot d.node c).map Prod.fst).or s.sent

def after (s : SlotWalk) (c : CfgCall) (client : ConfigClient) (outs : List Out) : SlotWalk where
  client := client
  started := s.started || decide (c.Sets .appKeyAdd)
  sent := s.sentAfter d c
  log := s.log ++ outs
  bound := s.bound ++ (s.client.boundSlot d.node c).toList
  tested := s.tested ++ (s.client.testedSlot d.node c).toList

def step (aes128 : List Octet → List Octet → List Octet) (s : SlotWalk) (c : CfgCall) :
    Option SlotWalk :=
  (bleMeshConfigClientCb aes128 s.client c.event (c.param d) (c.answers d)).map fun r =>
    s.after d c r.1 r.2

/-- Where the row ends and is not the last, the next element has a model. -/
def NextFilled (s : SlotWalk) : Prop :=
  s.client.globalNode.models s.client.j s.client.i = 0xffff →
    d.comp.rows[s.client.j + 1]? ≠ some []

instance (s : SlotWalk) : Decidable (s.NextFilled d) := inferInstanceAs (Decidable (_ → _ ≠ _))

/-- The response to the AppKey finds a model in the first element.  A status that passes the test
comes after it, and finds the next element with a model where its row ends.  A timeout comes while
the statics stand at the element of the latest request that was taken. -/
def Tame (s : SlotWalk) (c : CfgCall) : Prop :=
  (c.Sets .appKeyAdd → d.comp.rows[0]? ≠ some []) ∧
  (c.Sets .modelAppBind → s.client.Awaits d.node c.modelAppStatus →
    s.started = true ∧ s.NextFilled d) ∧
  (c.Resends → s.sent = some s.client.j)

instance (s : SlotWalk) (c : CfgCall) : Decidable (s.Tame d c) :=
  inferInstanceAs (Decidable ((_ → _) ∧ (_ → _ → _ ∧ _) ∧ (_ → _)))

/-- Each request is sent to the node and names an entry of its composition, requests are taken from
entries alone, and the end of a row is looked for no further than its terminator. -/
structure Sound (s : SlotWalk) : Prop where
  requests : ∀ addr binding, .modelAppBind addr binding ∈ s.log →
    addr = d.node.unicastAddr ∧ binding ∈ d.comp.entries d.node
  bound : ∀ slot ∈ s.bound, IsEntry d.comp.rows slot
  tested : ∀ slot ∈ s.tested, InRow d.comp.rows slot

/-- The record holds the table, the statics stand in one of its rows or at the end of one, and the
request to repeat is an entry of its element. -/
structure Inv (s : SlotWalk) : Prop extends Sound d s where
  holds : s.client.globalNode.Holds d.comp.rows
  stands : s.started = true → InRow d.comp.rows (s.client.j, s.client.i)
  sent : ∀ e, s.sent = some e → ∃ row, d.comp.rows[e]? = some row ∧
    (s.client.waitModelId, s.client.waitCid) ∈ row

end

end SlotWalk

/-! ### Slots of a composition -/

section

variable {comp : Composition} {g : NodeInfor} {e i : Nat} {row : List (Word × Word)}

theorem Composition.rows_lt (h : comp.rows[e]? = some row) :
    e < maxElements ∧ row.length < maxModels := by
  have hlength : comp.rows.length ≤ maxElements := by simpa [Composition.rows] using comp.fits
  have he := (List.getElem?_eq_some_iff.mp h).1
  obtain ⟨el, -, rfl⟩ := List.mem_map.mp (List.mem_of_getElem? h)
  exact ⟨by omega, by rw [Element.row_length]; exact el.fits⟩

theorem bindingOf_mem_entries (node : Node) {x : Word × Word} (hrow : comp.rows[e]? = some row)
    (hx : x ∈ row) : bindingOf node e x ∈ comp.entries node := by
  obtain ⟨he, hget⟩ := List.getElem?_eq_some_iff.mp hrow
  have hlength : (comp.rows.take e).length = e := by simp; omega
  rw [Composition.entries, ← List.take_append_drop e comp.rows, entriesFrom_append,
    List.drop_eq_getElem_cons he, hget, entriesFrom, hlength, Nat.zero_add]
  simp only [List.mem_append, List.mem_map]
  exact .inr (.inl ⟨x, hx, rfl⟩)

theorem IsEntry.inRow {table : List (List (Word × Word))} {slot : Nat × Nat}
    (h : IsEntry table slot) : InRow table slot := by
  obtain ⟨row, hrow, hlt⟩ := h
  exact ⟨row, hrow, Nat.le_of_lt hlt⟩

/-- A slot of a row that does not hold the value of the terminator holds an entry. -/
theorem InRow.isEntry {table : List (List (Word × Word))} (h : InRow table (e, i))
    (holds : g.Holds table) (hne : g.models e i ≠ 0xffff) : IsEntry table (e, i) := by
  obtain ⟨row, hrow, hle⟩ := h
  refine ⟨row, hrow, Nat.lt_of_le_of_ne hle ?_⟩
  rintro rfl
  exact hne (holds.terminator e row hrow)

theorem isEntry_first {table : List (List (Word × Word))} (he : e < table.length)
    (hne : table[e]? ≠ some []) : IsEntry table (e, 0) := by
  refine ⟨table[e], List.getElem?_eq_getElem he, List.length_pos_iff.mpr fun hnil => hne ?_⟩
  rw [List.getElem?_eq_getElem he, hnil]

theorem NodeInfor.Holds.entry_mem {table : List (List (Word × Word))} (h : g.Holds table)
    (hslot : IsEntry table (e, i)) :
    ∃ row, table[e]? = some row ∧ (g.models e i, g.cid e i) ∈ row := by
  obtain ⟨row, hrow, hi⟩ := hslot
  obtain ⟨hm, hc⟩ := h.entry e row i row[i].1 row[i].2 hrow (List.getElem?_eq_getElem hi)
  refine ⟨row, hrow, ?_⟩
  rw [hm, hc]
  exact List.getElem_mem hi

theorem InRow.lt (h : InRow comp.rows (e, i)) : e < maxElements ∧ i < maxModels := by
  obtain ⟨row, hrow, hle⟩ := h
  obtain ⟨he, hlt⟩ := Composition.rows_lt hrow
  exact ⟨he, Nat.lt_of_le_of_lt hle hlt⟩

theorem InRow.getModel (h : InRow comp.rows (e, i)) (g : NodeInfor) :
    g.getModel e i = some (g.models e i) :=
  NodeInfor.getModel_eq_some.mpr ⟨h.lt, rfl⟩

theorem IsEntry.getCid (h : IsEntry comp.rows (e, i)) (g : NodeInfor) :
    g.getCid e i = some (g.cid e i) :=
  NodeInfor.getCid_eq_some.mpr ⟨h.inRow.lt, rfl⟩

end

/-! ### One call -/

section

variable {aes128 : List Octet → List Octet → List Octet} {d : Device} {c : CfgCall}
  {s : ConfigClient} {e i : Nat}

/-- A request for an entry.  The statics keep the entry to repeat, or, if the stack refuses the
request, the one before it. -/
theorem sendModelAppBind_entry (node : Node) (sendErr : Bool)
    (hslot : IsEntry d.comp.rows (s.j, s.i)) :
    ∃ t, sendModelAppBind node sendErr s = some (t, [.modelAppBind node.unicastAddr
        (bindingOf node s.j (s.temp, s.globalNode.cid s.j s.i))]) ∧
      t.globalNode = s.globalNode ∧ InRow d.comp.rows (t.j, t.i) ∧
      (t.waitModelId, t.waitCid) =
        if sendErr then (s.waitModelId, s.waitCid) else (s.temp, s.globalNode.cid s.j s.i) := by
  have hread := hslot.getCid s.globalNode
  cases sendErr with
  | true => exact ⟨s, by simp [sendModelAppBind, hread, bindingOf], rfl, hslot.inRow, rfl⟩
  | false =>
    have hlt := hslot.inRow.lt.2
    unfold maxModels at hlt
    have hi : (s.i + 1) % 256 = s.i + 1 := by omega
    refine ⟨{ s with waitModelId := s.temp, waitCid := s.globalNode.cid s.j s.i, i := s.i + 1 },
      ?_, rfl, hslot, rfl⟩
    simp [sendModelAppBind, hread, bindingOf, hi]

theorem cb_appKeyAdd (h : c.Sets .appKeyAdd) :
    bleMeshConfigClientCb aes128 s c.event (c.param d) (c.answers d) =
      appKeyAddStatus d.node c.sendErr s := by
  obtain ⟨⟨herror, hnode⟩, hevent, hopcode⟩ := h
  simp [bleMeshConfigClientCb, CfgCall.param, CfgCall.answers, herror, hnode, hevent, hopcode]

theorem cb_modelAppBind (h : c.Sets .modelAppBind) :
    bleMeshConfigClientCb aes128 s c.event (c.param d) (c.answers d) =
      modelAppBindStatus aes128 d.node c.modelAppStatus (c.answers d) s := by
  obtain ⟨⟨herror, hnode⟩, hevent, hopcode⟩ := h
  simp [bleMeshConfigClientCb, CfgCall.param, CfgCall.answers, herror, hnode, hevent, hopcode]

/-- A timeout of a request repeats it. -/
theorem cb_resends (h : c.Resends) :
    bleMeshConfigClientCb aes128 s c.event (c.param d) (c.answers d) =
      some (s, [.modelAppBind d.node.unicastAddr
        (bindingOf d.node s.j (s.waitModelId, s.waitCid))]) := by
  obtain ⟨⟨herror, hnode⟩, hevent, hopcode⟩ := h
  simp [bleMeshConfigClientCb, CfgCall.param, CfgCall.answers, herror, hnode, hevent, hopcode,
    bindingOf]

/-- A call that neither answers an AppKey nor a binding brings the composition data, answers a
subscription, is a timeout of a binding, or leaves the statics alone. -/
theorem cb_other (hkey : ¬ c.Sets .appKeyAdd) (hbind : ¬ c.Sets .modelAppBind) :
    c.Composes ∨ c.Resends ∨
      (∀ s, bleMeshConfigClientCb aes128 s c.event (c.param d) (c.answers d) =
        some (modelSubAddStatus d.node c.modelAppStatus s)) ∨
      ∃ outs, (∀ addr binding, .modelAppBind addr binding ∉ outs) ∧
        ∀ s, bleMeshConfigClientCb aes128 s c.event (c.param d) (c.answers d) =
          some (s, outs) := by
  by_cases hhandled : c.Handled
  · have hnode : (c.answers d).node = some d.node := by simp [CfgCall.answers, hhandled.2]
    simp only [CfgCall.Sets, CfgCall.Composes, CfgCall.Resends, hhandled, true_and] at hkey hbind ⊢
    simp only [bleMeshConfigClientCb, hnode, CfgCall.param, hhandled.1, ne_eq, not_true_eq_false,
      if_false]
    cases hevent : c.event <;> cases hopcode : c.opcode <;>
      simp only [hevent, hopcode, and_self, not_true_eq_false] at hkey hbind ⊢
    case getState.compositionDataGet => exact .inl trivial
    case timeout.modelAppBind => exact .inr (.inl trivial)
    case setState.modelSubAdd => exact .inr (.inr (.inl fun _ => trivial))
    all_goals exact .inr (.inr (.inr ⟨_, by simp, fun _ => rfl⟩))
  · exact .inr (.inr (.inr ⟨[], by simp, fun s => Join.cb_unhandled aes128 s hhandled⟩))

theorem sendModelAppBind_withTable {models cid : Nat → Nat → Word} (node : Node) (sendErr : Bool)
    (hcid : cid s.j s.i = s.globalNode.cid s.j s.i) :
    sendModelAppBind node sendErr (s.withTable models cid) =
      (sendModelAppBind node sendErr s).map fun r => (r.1.withTable models cid, r.2) := by
  have hread : (s.withTable models cid).globalNode.getCid s.j s.i =
      s.globalNode.getCid s.j s.i := by
    simp [NodeInfor.getCid, ConfigClient.withTable, hcid]
  unfold sendModelAppBind
  change ((s.withTable models cid).globalNode.getCid s.j s.i).bind _ = _
  rw [hread]
  cases s.globalNode.getCid s.j s.i with
  | none => rfl
  | some cid => cases sendErr <;> rfl

theorem getModel_withTable {models cid : Nat → Nat → Word}
    (h : models e i = s.globalNode.models e i) :
    (s.withTable models cid).globalNode.getModel e i = s.globalNode.getModel e i := by
  simp [NodeInfor.getModel, ConfigClient.withTable, h]

theorem modelAppBindStatus_withTable {models cid : Nat → Nat → Word} {node : Node}
    {status : Binding} {answers : Answers} (hawaits : s.Awaits node status)
    (htested : models s.j s.i = s.globalNode.models s.j s.i)
    (hbound : ∀ slot ∈ s.nextSlot,
      models slot.1 slot.2 = s.globalNode.models slot.1 slot.2 ∧
        cid slot.1 slot.2 = s.globalNode.cid slot.1 slot.2) :
    modelAppBindStatus aes128 node status answers (s.withTable models cid) =
      (modelAppBindStatus aes128 node status answers s).map
        fun r => (r.1.withTable models cid, r.2) := by
  have hawaits' : (s.withTable models cid).Awaits node status := hawaits
  rw [modelAppBindStatus, modelAppBindStatus, if_pos hawaits, if_pos hawaits']
  change ((s.withTable models cid).globalNode.getModel s.j s.i).bind _ = _
  rw [getModel_withTable htested]
  cases hget : s.globalNode.getModel s.j s.i with
  | none => rfl
  | some temp =>
    obtain ⟨-, rfl⟩ := NodeInfor.getModel_eq_some.mp hget
    simp only [Option.bind_eq_bind, Option.bind_some]
    by_cases hend : s.globalNode.models s.j s.i = 0xffff
    · rw [if_pos hend, if_pos hend]
      by_cases hlast : (s.j + 1) % 256 ≥ s.globalNode.elementNum.toNat
      · have hlast' : (s.j + 1) % 256 ≥ (s.withTable models cid).globalNode.elementNum.toNat :=
          hlast
        change (if (s.j + 1) % 256 ≥ (s.withTable models cid).globalNode.elementNum.toNat
          then _ else _) = _
        rw [if_pos hlast, if_pos hlast']
        rfl
      · have hmore : ¬ s.AtEnd := fun hat => hlast hat.2
        rw [ConfigClient.nextSlot, if_neg (not_not.mpr hend), if_neg hmore] at hbound
        obtain ⟨hmodel, hcid⟩ := hbound _ rfl
        have hlast' : ¬ (s.j + 1) % 256 ≥ (s.withTable models cid).globalNode.elementNum.toNat :=
          hlast
        change (if (s.j + 1) % 256 ≥ (s.withTable models cid).globalNode.elementNum.toNat
          then _ else ((s.withTable models cid).globalNode.getModel ((s.j + 1) % 256) 0).bind _) = _
        rw [if_neg hlast, if_neg hlast', getModel_withTable hmodel]
        cases s.globalNode.getModel ((s.j + 1) % 256) 0 with
        | none => rfl
        | some temp =>
          exact sendModelAppBind_withTable
            (s := { s with i := 0, j := (s.j + 1) % 256, temp := temp }) _ _ hcid
    · rw [if_neg hend, if_neg hend]
      rw [ConfigClient.nextSlot, if_pos hend] at hbound
      exact sendModelAppBind_withTable
        (s := { s with temp := s.globalNode.models s.j s.i }) _ _ (hbound _ rfl).2

theorem modelSubAddStatus_withTable {models cid : Nat → Nat → Word} (node : Node)
    (status : Binding) :
    modelSubAddStatus node status (s.withTable models cid) =
      ((modelSubAddStatus node status s).1.withTable models cid,
        (modelSubAddStatus node status s).2) := by
  by_cases hmatch : status.companyId = 0xFFFF ∧
    status.elementAddr.toNat = node.unicastAddr.toNat + s.k
  · have hmatch' : status.companyId = 0xFFFF ∧
      status.elementAddr.toNat = node.unicastAddr.toNat + (s.withTable models cid).k := hmatch
    rw [modelSubAddStatus, modelSubAddStatus, if_pos hmatch, if_pos hmatch']
    by_cases hlast : s.globalNode.elementNum.toNat ≤ (s.k + 1) % 256 <;>
      simp [ConfigClient.withTable, hlast]
  · have hmatch' : ¬ (status.companyId = 0xFFFF ∧
      status.elementAddr.toNat = node.unicastAddr.toNat + (s.withTable models cid).k) := hmatch
    rw [modelSubAddStatus, modelSubAddStatus, if_neg hmatch, if_neg hmatch']

/-- A call that brings no composition data reads no other slot of the table: with a table that
agrees on the slots tested and bound it does the same. -/
theorem cb_withTable {models cid : Nat → Nat → Word} (hcomposes : ¬ c.Composes)
    (htested : ∀ slot ∈ s.testedSlot d.node c,
      models slot.1 slot.2 = s.globalNode.models slot.1 slot.2)
    (hbound : ∀ slot ∈ s.boundSlot d.node c,
      models slot.1 slot.2 = s.globalNode.models slot.1 slot.2 ∧
        cid slot.1 slot.2 = s.globalNode.cid slot.1 slot.2) :
    bleMeshConfigClientCb aes128 (s.withTable models cid) c.event (c.param d) (c.answers d) =
      (bleMeshConfigClientCb aes128 s c.event (c.param d) (c.answers d)).map
        fun r => (r.1.withTable models cid, r.2) := by
  by_cases hkey : c.Sets .appKeyAdd
  · rw [ConfigClient.boundSlot, if_pos hkey] at hbound
    obtain ⟨hmodel, hcid⟩ := hbound _ rfl
    rw [cb_appKeyAdd hkey, cb_appKeyAdd hkey]
    unfold appKeyAddStatus
    rw [getModel_withTable hmodel]
    cases s.globalNode.getModel 0 0 with
    | none => rfl
    | some temp =>
      exact sendModelAppBind_withTable (s := { s with i := 0, j := 0, temp := temp }) _ _ hcid
  by_cases hbind : c.Sets .modelAppBind
  · rw [cb_modelAppBind hbind, cb_modelAppBind hbind]
    by_cases hawaits : s.Awaits d.node c.modelAppStatus
    · rw [ConfigClient.boundSlot, if_neg hkey, if_pos ⟨hbind, hawaits⟩] at hbound
      rw [ConfigClient.testedSlot, if_pos ⟨hbind, hawaits⟩] at htested
      exact modelAppBindStatus_withTable hawaits (htested _ rfl) hbound
    · have hawaits' : ¬ (s.withTable models cid).Awaits d.node c.modelAppStatus := hawaits
      rw [modelAppBindStatus, modelAppBindStatus, if_neg hawaits, if_neg hawaits']
      rfl
  rcases cb_other hkey hbind with h | h | h | ⟨outs, -, h⟩
  · exact absurd h hcomposes
  · rw [cb_resends h, cb_resends h]
    rfl
  · rw [h, h, modelSubAddStatus_withTable]
    rfl
  · rw [h, h]
    rfl

/-- A call that takes a request from an entry. -/
theorem cb_bound (hslot : s.boundSlot d.node c = some (e, i))
    (hentry : IsEntry d.comp.rows (e, i))
    (htested : ∀ slot ∈ s.testedSlot d.node c, InRow d.comp.rows slot) :
    bleMeshConfigClientCb aes128 s c.event (c.param d) (c.answers d) =
      sendModelAppBind d.node c.sendErr
        { s with i := i, j := e, temp := s.globalNode.models e i } := by
  have hread := hentry.inRow.getModel s.globalNode
  unfold ConfigClient.boundSlot at hslot
  unfold ConfigClient.testedSlot at htested
  split at hslot
  · rename_i hsets
    obtain ⟨rfl, rfl⟩ : 0 = e ∧ 0 = i := by simpa using hslot
    rw [cb_appKeyAdd hsets, appKeyAddStatus, hread]
    rfl
  · split at hslot
    · rename_i hawaits
      rw [if_pos hawaits] at htested
      have htest := (htested _ rfl).getModel s.globalNode
      rw [cb_modelAppBind hawaits.1, modelAppBindStatus, if_pos hawaits.2, htest]
      unfold ConfigClient.nextSlot at hslot
      split at hslot
      · rename_i hne
        obtain ⟨rfl, rfl⟩ : s.j = e ∧ s.i = i := by simpa using hslot
        simp only [Option.bind_eq_bind, Option.bind_some, if_neg hne]
        rfl
      · rename_i heq
        split at hslot
        · contradiction
        · rename_i hmore
          obtain ⟨rfl, rfl⟩ : (s.j + 1) % 256 = e ∧ 0 = i := by simpa using hslot
          rw [not_not] at heq
          have hnum : ¬ (s.j + 1) % 256 ≥ s.globalNode.elementNum.toNat :=
            fun hge => hmore ⟨heq, hge⟩
          simp only [Option.bind_eq_bind, Option.bind_some, if_pos heq, if_neg hnum, hread]
          rfl
    · contradiction

/-- A status that passes the test, but takes no request from a slot, ends the binding. -/
theorem cb_finish (hsets : c.Sets .modelAppBind) (hawaits : s.Awaits d.node c.modelAppStatus)
    (hslot : s.boundSlot d.node c = none)
    (htested : ∀ slot ∈ s.testedSlot d.node c, InRow d.comp.rows slot) :
    bleMeshConfigClientCb aes128 s c.event (c.param d) (c.answers d) =
      some ({ s with i := 0, j := 0, temp := 0xffff },
        configSuccess aes128 d.node s.globalNode c.onoff) := by
  have hkey : ¬ c.Sets .appKeyAdd := fun h => by
    have := hsets.2.2.symm.trans h.2.2
    contradiction
  rw [ConfigClient.testedSlot, if_pos ⟨hsets, hawaits⟩] at htested
  have htest := (htested _ rfl).getModel s.globalNode
  rw [ConfigClient.boundSlot, if_neg hkey, if_pos ⟨hsets, hawaits⟩] at hslot
  unfold ConfigClient.nextSlot at hslot
  split at hslot
  · contradiction
  · rename_i heq
    split at hslot
    · rename_i hat
      rw [not_not] at heq
      rw [cb_modelAppBind hsets, modelAppBindStatus, if_pos hawaits, htest]
      simp only [Option.bind_eq_bind, Option.bind_some, if_pos hat.2, heq]
      rfl
    · contradiction

/-- What a call does that takes no request from a slot and repeats none. -/
structure Quiet (comp : Composition) (s t : ConfigClient) (outs : List Out) : Prop where
  table : t.globalNode = s.globalNode ∨ t.globalNode = s.globalNode.load comp
  i : t.i = s.i
  j : t.j = s.j
  waitModelId : t.waitModelId = s.waitModelId
  waitCid : t.waitCid = s.waitCid
  requests : ∀ addr binding, .modelAppBind addr binding ∉ outs

theorem Quiet.refl {comp : Composition} {outs : List Out}
    (requests : ∀ addr binding, .modelAppBind addr binding ∉ outs) : Quiet comp s s outs :=
  ⟨.inl rfl, rfl, rfl, rfl, rfl, requests⟩

theorem cb_composes (h : c.Composes) :
    bleMeshConfigClientCb aes128 s c.event (c.param d) (c.answers d) =
      some ({ s with globalNode := s.globalNode.load d.comp },
        if c.storeErr then [] else [.appKeyAdd d.node.unicastAddr]) := by
  obtain ⟨⟨herror, hnode⟩, hevent, hopcode⟩ := h
  simp [bleMeshConfigClientCb, CfgCall.param, CfgCall.answers, herror, hnode, hevent, hopcode,
    compositionDataStatus, parse_encode]

variable (aes128) in
theorem cb_quiet (hkey : ¬ c.Sets .appKeyAdd)
    (hbind : ¬ (c.Sets .modelAppBind ∧ s.Awaits d.node c.modelAppStatus)) (hresends : ¬ c.Resends) :
    ∃ t outs, bleMeshConfigClientCb aes128 s c.event (c.param d) (c.answers d) = some (t, outs) ∧
      Quiet d.comp s t outs := by
  by_cases hset : c.Sets .modelAppBind
  · rw [cb_modelAppBind hset, modelAppBindStatus, if_neg fun hawaits => hbind ⟨hset, hawaits⟩]
    exact ⟨s, [], rfl, .refl (by simp)⟩
  rcases cb_other hkey hset with h | h | h | ⟨outs, houts, h⟩
  · refine ⟨_, _, cb_composes h, .inr rfl, rfl, rfl, rfl, rfl, fun addr binding => ?_⟩
    split <;> simp
  · exact absurd h hresends
  · obtain ⟨k, hk, hout⟩ := Join.modelSubAddStatus_quiet d.node c.modelAppStatus s
    refine ⟨{ s with k := k }, (modelSubAddStatus d.node c.modelAppStatus s).2,
      by rw [h s, ← hk], .inl rfl, rfl, rfl, rfl, rfl, fun addr binding hmem => ?_⟩
    rcases hout _ hmem with heq | ⟨_, _, heq⟩ <;> contradiction
  · exact ⟨s, outs, h s, .refl houts⟩

end

namespace SlotWalk

section

variable {aes128 : List Octet → List Octet → List Octet} {d : Device} {c : CfgCall}
  {s : SlotWalk} {e i : Nat}

theorem start_inv (client : ConfigClient) (holds : client.globalNode.Holds d.comp.rows) :
    Inv d (start client) where
  requests := by simp [start]
  bound := by simp [start]
  tested := by simp [start]
  holds := holds
  stands := by simp [start]
  sent := by simp [start]

theorem Sound.after (h : Sound d s) {client : ConfigClient} {outs : List Out}
    (requests : ∀ addr binding, .modelAppBind addr binding ∈ outs →
      addr = d.node.unicastAddr ∧ binding ∈ d.comp.entries d.node)
    (bound : ∀ slot ∈ s.client.boundSlot d.node c, IsEntry d.comp.rows slot)
    (tested : ∀ slot ∈ s.client.testedSlot d.node c, InRow d.comp.rows slot) :
    Sound d (s.after d c client outs) where
  requests := by
    intro addr binding hmem
    rcases List.mem_append.mp hmem with hmem | hmem
    · exact h.requests addr binding hmem
    · exact requests addr binding hmem
  bound := by
    intro slot hmem
    rcases List.mem_append.mp hmem with hmem | hmem
    · exact h.bound slot hmem
    · exact bound slot (Option.mem_toList.mp hmem)
  tested := by
    intro slot hmem
    rcases List.mem_append.mp hmem with hmem | hmem
    · exact h.tested slot hmem
    · exact tested slot (Option.mem_toList.mp hmem)

/-- A request is taken from an entry. -/
theorem Inv.bound_step (h : Inv d s) (hslot : s.client.boundSlot d.node c = some (e, i))
    (hentry : IsEntry d.comp.rows (e, i))
    (htested : ∀ slot ∈ s.client.testedSlot d.node c, InRow d.comp.rows slot) :
    ∃ t, s.step d aes128 c = some t ∧ Inv d t := by
  obtain ⟨row, hrow, hmem⟩ := h.holds.entry_mem hentry
  obtain ⟨client, hsend, htable, hstands, hwait⟩ := sendModelAppBind_entry (s := { s.client with
    i := i, j := e, temp := s.client.globalNode.models e i }) d.node c.sendErr hentry
  refine ⟨_, by rw [step, cb_bound hslot hentry htested, hsend]; rfl, ?_⟩
  refine ⟨h.toSound.after ?_ (by simpa [hslot] using hentry) htested, ?_, fun _ => hstands, ?_⟩
  · intro addr binding hout
    obtain ⟨rfl, rfl⟩ := Out.modelAppBind.inj (List.mem_singleton.mp hout)
    exact ⟨rfl, bindingOf_mem_entries d.node hrow hmem⟩
  · simpa only [after, htable] using h.holds
  · intro e' he'
    simp only [after, hwait]
    cases herr : c.sendErr with
    | true =>
      have hsent : s.sent = some e' := by simpa [after, sentAfter, herr] using he'
      exact h.sent e' hsent
    | false =>
      obtain rfl : e = e' := by simpa [after, sentAfter, herr, hslot] using he'
      exact ⟨row, hrow, hmem⟩

/-- The slot after the one tested, if the next element has a model. -/
theorem Inv.nextSlot (h : Inv d s) (started : s.started = true) (hfilled : s.NextFilled d)
    {slot : Nat × Nat} (hslot : s.client.nextSlot = some slot) : IsEntry d.comp.rows slot := by
  have hstands := h.stands started
  unfold ConfigClient.nextSlot at hslot
  split at hslot
  · rename_i hne
    obtain rfl := Option.some.inj hslot
    exact hstands.isEntry h.holds hne
  · rename_i heq
    rw [not_not] at heq
    split at hslot
    · contradiction
    · rename_i hmore
      obtain rfl := Option.some.inj hslot
      have hj : (s.client.j + 1) % 256 = s.client.j + 1 := by
        have := hstands.lt.1
        unfold maxElements at this
        omega
      have hlast : ¬ s.client.globalNode.elementNum.toNat ≤ (s.client.j + 1) % 256 :=
        fun hle => hmore ⟨heq, hle⟩
      rw [h.holds.elementNum, hj, Nat.not_le] at hlast
      rw [hj]
      exact isEntry_first hlast (hfilled heq)

/-- The binding ends. -/
theorem Inv.finish_step (h : Inv d s) (hsets : c.Sets .modelAppBind)
    (hawaits : s.client.Awaits d.node c.modelAppStatus)
    (hslot : s.client.boundSlot d.node c = none)
    (htested : ∀ slot ∈ s.client.testedSlot d.node c, InRow d.comp.rows slot) :
    ∃ t, s.step d aes128 c = some t ∧ Inv d t := by
  refine ⟨_, by rw [step, cb_finish hsets hawaits hslot htested]; rfl, ?_⟩
  refine ⟨h.toSound.after ?_ (by simp [hslot]) htested, h.holds, fun _ => ?_, fun e he => ?_⟩
  · intro addr binding hout
    have hnone := configSuccess_request aes128 d.node s.client.globalNode c.onoff
    have := (List.filterMap_eq_nil_iff.mp hnone) _ hout
    contradiction
  · have hpos : 0 < d.comp.rows.length := by
      simpa [Composition.rows, List.length_pos_iff] using d.comp.nonempty
    exact ⟨_, List.getElem?_eq_getElem hpos, Nat.zero_le _⟩
  · exact h.sent e (by simpa [after, sentAfter, hslot] using he)

/-- A call that takes no request from a slot. -/
theorem Inv.unbound_step (h : Inv d s) (hkey : ¬ c.Sets .appKeyAdd)
    (hbind : ¬ (c.Sets .modelAppBind ∧ s.client.Awaits d.node c.modelAppStatus))
    (hok : c.Resends → s.sent = some s.client.j) :
    ∃ t, s.step d aes128 c = some t ∧ Inv d t := by
  have hbound : s.client.boundSlot d.node c = none := by
    rw [ConfigClient.boundSlot, if_neg hkey, if_neg hbind]
  have htested : s.client.testedSlot d.node c = none := by
    rw [ConfigClient.testedSlot, if_neg hbind]
  have hsent : s.sentAfter d c = s.sent := by simp [sentAfter, hbound]
  by_cases hresends : c.Resends
  · obtain ⟨row, hrow, hmem⟩ := h.sent _ (hok hresends)
    refine ⟨_, by rw [step, cb_resends hresends]; rfl, ?_⟩
    refine ⟨h.toSound.after ?_ (by simp [hbound]) (by simp [htested]), h.holds, ?_, ?_⟩
    · intro addr binding hout
      obtain ⟨rfl, rfl⟩ := Out.modelAppBind.inj (List.mem_singleton.mp hout)
      exact ⟨rfl, bindingOf_mem_entries d.node hrow hmem⟩
    · intro hstarted
      exact h.stands (by simpa [after, hkey] using hstarted)
    · intro e he
      exact h.sent e (hsent ▸ he)
  · obtain ⟨client, outs, hcall, hquiet⟩ := cb_quiet aes128 hkey hbind hresends
    refine ⟨_, by rw [step, hcall]; rfl, ?_⟩
    refine ⟨h.toSound.after ?_ (by simp [hbound]) (by simp [htested]), ?_, ?_, ?_⟩
    · intro addr binding hout
      exact absurd hout (hquiet.requests addr binding)
    · rcases hquiet.table with htable | htable
      · simpa only [after, htable] using h.holds
      · simpa only [after, htable] using load_holds d.comp s.client.globalNode
    · intro hstarted
      simp only [after, hquiet.i, hquiet.j]
      exact h.stands (by simpa [after, hkey] using hstarted)
    · intro e he
      simp only [after, hquiet.waitModelId, hquiet.waitCid]
      exact h.sent e (hsent ▸ he)

variable (aes128) in
/-- A call that meets the condition does not fault, and keeps the invariant. -/
theorem Inv.step (h : Inv d s) (ok : s.Tame d c) : ∃ t, s.step d aes128 c = some t ∧ Inv d t := by
  obtain ⟨hfirst, hstatus, hresends⟩ := ok
  have hpos : 0 < d.comp.rows.length := by
    simpa [Composition.rows, List.length_pos_iff] using d.comp.nonempty
  by_cases hkey : c.Sets .appKeyAdd
  · have hbound : s.client.boundSlot d.node c = some (0, 0) := by
      rw [ConfigClient.boundSlot, if_pos hkey]
    have htested : s.client.testedSlot d.node c = none := by
      rw [ConfigClient.testedSlot, if_neg fun hbind => ?_]
      have := hkey.2.2.symm.trans hbind.1.2.2
      contradiction
    exact h.bound_step hbound (isEntry_first hpos (hfirst hkey)) (by simp [htested])
  · by_cases hbind : c.Sets .modelAppBind ∧ s.client.Awaits d.node c.modelAppStatus
    · obtain ⟨hstarted, hfilled⟩ := hstatus hbind.1 hbind.2
      have hstands := h.stands hstarted
      have htested : ∀ slot ∈ s.client.testedSlot d.node c, InRow d.comp.rows slot := by
        rw [ConfigClient.testedSlot, if_pos hbind]
        rintro slot ⟨⟩
        exact hstands
      cases hslot : s.client.boundSlot d.node c with
      | none => exact h.finish_step hbind.1 hbind.2 hslot htested
      | some slot =>
        refine h.bound_step (e := slot.1) (i := slot.2) hslot ?_ htested
        rw [ConfigClient.boundSlot, if_neg hkey, if_pos hbind] at hslot
        exact h.nextSlot hstarted hfilled hslot
    · exact h.unbound_step hkey hbind hresends

end

/-- From the composition data on, in every run whose calls meet the condition, each request names an
entry of the composition, and no slot after a terminator is read or bound; nor does a further call
that meets it fault. -/
theorem binds_entries (d : Device) (aes128 : List Octet → List Octet → List Octet) (g : NodeInfor)
    (client : ConfigClient)
    (parsed : bleMeshParseNodeCompData d.comp.encode g = some client.globalNode)
    (calls : List CfgCall) (s : SlotWalk)
    (run : Run (Guarded (Steps (step d aes128)) (Tame d)) (start client) calls s) :
    Sound d s ∧ ∀ c, s.Tame d c → ∃ t, s.step d aes128 c = some t := by
  have hholds : client.globalNode.Holds d.comp.rows := by
    rw [parse_encode] at parsed
    rw [← Option.some.inj parsed]
    exact load_holds d.comp g
  have hinv : Inv d s := run.invariant (start_inv client hholds) fun a c b h hstep => by
    obtain ⟨t, ht, hinv⟩ := h.step aes128 hstep.2
    obtain rfl : t = b := Option.some.inj (ht.symm.trans hstep.1)
    exact hinv
  refine ⟨hinv.toSound, fun c ok => ?_⟩
  obtain ⟨t, ht, -⟩ := hinv.step aes128 ok
  exact ⟨t, ht⟩

/-- A device at the first address with the given elements. -/
def deviceOf (comp : Composition) : Device :=
  ⟨Vector.replicate 6 0xAA, Vector.replicate 16 1, firstNode, comp⟩

def blindComp : Composition where
  header := Vector.replicate 10 0
  elements := [⟨0, [0x1000], [(0x0211, 0xffff)], by decide⟩, onoffElement 1]
  nonempty := by simp
  fits := by decide

def bindCalls : List CfgCall :=
  [Join.lampCall .setState .appKeyAdd 0, Join.lampCall .setState .modelAppBind 5,
    Join.lampCall .timeout .modelAppBind 0, Join.lampCall .setState .modelAppBind 6]

theorem binds_entries_blind :
    ∃ s, Run (Guarded (Steps (step (deviceOf blindComp) fun _ block => block))
        (Tame (deviceOf blindComp))) (start ⟨blankNode.load blindComp, 0, 0, 0, 0, 0, 0⟩)
          bindCalls s ∧
      (s.bound = [(0, 0), (1, 0)] ∧ s.tested = [(0, 1), (1, 1)]) ∧
      Sound (deviceOf blindComp) s ∧ ∀ c, s.Tame (deviceOf blindComp) c →
        ∃ t, s.step (deviceOf blindComp) (fun _ block => block) c = some t := by
  have hexec : (exec (restrict (step (deviceOf blindComp) fun _ block => block)
      fun s c => decide (s.Tame (deviceOf blindComp) c))
        (start ⟨blankNode.load blindComp, 0, 0, 0, 0, 0, 0⟩) bindCalls).map
          (fun s => (s.bound, s.tested)) = some ([(0, 0), (1, 0)], [(0, 1), (1, 1)]) := by decide
  obtain ⟨s, hs, hslots⟩ := Option.map_eq_some_iff.mp hexec
  have run := Run.of_exec_restrict (G := Tame (deviceOf blindComp))
    (fun _ _ => of_decide_eq_true) hs
  exact ⟨s, run, Prod.mk.inj hslots, binds_entries (deviceOf blindComp) _ blankNode
    ⟨blankNode.load blindComp, 0, 0, 0, 0, 0, 0⟩ (parse_encode blindComp blankNode) _ s run⟩

def plugComp : Composition where
  header := Vector.replicate 10 0
  elements := [onoffElement 0, ⟨1, [], [(0x0211, 0x0007)], by decide⟩]
  nonempty := by simp
  fits := by decide

def hollowComp : Composition where
  header := Vector.replicate 10 0
  elements := [onoffElement 0, ⟨1, [], [], by decide⟩]
  nonempty := by simp
  fits := by decide

/-- The second element has no model: its terminator is bound, with the company id that an earlier
node left behind it. -/
theorem not_binds_entries :
    ∃ s, Run (Steps (step (deviceOf hollowComp) fun _ block => block))
        (start ⟨(blankNode.load plugComp).load hollowComp, 0, 0, 0, 0, 0, 0⟩)
          (bindCalls.take 2) s ∧
      .modelAppBind 5 ⟨6, 0xffff, 0x0211⟩ ∈ s.log ∧ ¬ Sound (deviceOf hollowComp) s := by
  have hexec : (exec (step (deviceOf hollowComp) fun _ block => block)
      (start ⟨(blankNode.load plugComp).load hollowComp, 0, 0, 0, 0, 0, 0⟩) (bindCalls.take 2)).map
        (fun s => decide (.modelAppBind 5 ⟨6, 0xffff, 0x0211⟩ ∈ s.log)) = some true := by decide
  obtain ⟨s, hs, hmem⟩ := Option.map_eq_some_iff.mp hexec
  have hsent := of_decide_eq_true hmem
  refine ⟨s, Run.of_exec hs, hsent, fun hsound => ?_⟩
  exact absurd (hsound.requests _ _ hsent).2 (by decide)

end SlotWalk

end VhomeBridge.Ble
