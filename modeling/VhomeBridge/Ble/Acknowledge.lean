import VhomeBridge.Ble.Bind
import VhomeBridge.Ble.Join

/-! What the joined record stands for.  A status of `Model App Bind` that names the awaited model
moves the binding on, whatever its status code says, so that the record is published although a node
has refused a key.  It stands for a binding of every model of the node that it names in the runs in
which the statuses that move a binding on are successful and of the device being bound, which at the
last of them is also the device that was provisioned last. -/

namespace VhomeBridge.Ble

open Lib

/-- The join of the devices, with the device whose AppKey was added last and the bindings that the
devices have acknowledged as successful. -/
structure Binds (ι : Type*) where
  join : Join ι
  bound : Option ι
  acks : List (ι × Binding)

namespace Binds

variable {ι : Type*} (dev : ι → Device) (aes128 : List Octet → List Octet → List Octet)

def boundAfter (s : Binds ι) : JoinEvent ι → Option ι
  | .config d c => if c.Sets .appKeyAdd then some d else s.bound
  | _ => s.bound

def acksAfter (s : Binds ι) : JoinEvent ι → List (ι × Binding)
  | .config d c =>
    if c.Sets .modelAppBind ∧ c.status = 0 then (d, c.modelAppStatus) :: s.acks else s.acks
  | _ => s.acks

def step (s : Binds ι) (e : JoinEvent ι) : Option (Binds ι) :=
  (s.join.step dev aes128 e).map fun t => ⟨t, s.boundAfter e, s.acksAfter e⟩

def start (client : ConfigClient) : Binds ι := ⟨Join.start client, none, []⟩

/-- A joined record that `d` causes names the node of `d`, and all models of `d` have been bound. -/
def Confirms (acks : List (ι × Binding)) (d : ι) (record : Joined) : Prop :=
  record.nodeId = (dev d).node.unicastAddr ∧
    ∀ binding ∈ (dev d).comp.entries (dev d).node, (d, binding) ∈ acks

/-- The joined records name nodes all of whose models had been bound. -/
def Confirmed (s : Binds ι) : Prop :=
  ∀ d record, (d, Out.joined record) ∈ s.join.log → Confirms dev s.acks d record

/-- The response to an AppKey finds the composition of its own device in the table, and a status
that passes the test of the callback is successful, of the device being bound, with its composition
in the table, and not before a model with the id that ends a row.  The last one is of the device
whose provisioning ended last. -/
def Heeds (s : Binds ι) : JoinEvent ι → Prop
  | .config d c =>
    (c.Sets .appKeyAdd → s.join.comp = some d) ∧
      (c.Sets .modelAppBind → s.join.client.Awaits (dev d).node c.modelAppStatus →
        c.status = 0 ∧ s.bound = some d ∧ s.join.comp = some d ∧
          (∀ row ∈ (dev d).comp.rows[s.join.client.j]?, ∀ x ∈ row[s.join.client.i]?,
            x.1 ≠ 0xffff) ∧
          (s.join.client.AtEnd → s.join.complete = some d))
  | _ => True

instance [DecidableEq ι] (s : Binds ι) (e : JoinEvent ι) : Decidable (s.Heeds dev e) :=
  match e with
  | .config d _ =>
    have (row : List (Word × Word)) :
        Decidable (∀ x ∈ row[s.join.client.i]?, x.1 ≠ 0xffff) := Option.decidableForallMem _
    have : Decidable (∀ row ∈ (dev d).comp.rows[s.join.client.j]?,
        ∀ x ∈ row[s.join.client.i]?, x.1 ≠ 0xffff) := Option.decidableForallMem _
    inferInstanceAs (Decidable ((_ → _) ∧ (_ → _ → _ ∧ _ ∧ _ ∧ _ ∧ _)))
  | .bleopen | .close | .recvUnprovAdvPkt _ | .provComplete _ _ _ => .isTrue trivial

end Binds

/-! ### The entries before a position -/

/-- The entries before slot `i` of row `j` are acknowledged. -/
structure DoneBefore (rows : List (List (Word × Word))) (acked : Nat → Word × Word → Prop)
    (j i : Nat) : Prop where
  earlier : ∀ j' < j, ∀ row, rows[j']? = some row → ∀ x ∈ row, acked j' x
  before : ∀ row, rows[j]? = some row → ∀ i' < i, ∀ x, row[i']? = some x → acked j x

/-- The statics await the acknowledgement of `x`. -/
def ConfigClient.AwaitsEntry (s : ConfigClient) (j : Nat) (x : Word × Word) : Prop :=
  j = s.j ∧ s.temp = x.1 ∧ s.waitCid = x.2

/-- The entries before the position are acknowledged, but for the one that is awaited. -/
def Progress (rows : List (List (Word × Word))) (acked : Nat → Word × Word → Prop)
    (s : ConfigClient) : Prop :=
  DoneBefore rows (fun j x => acked j x ∨ s.AwaitsEntry j x) s.j s.i

section

variable {rows : List (List (Word × Word))} {acked acked' : Nat → Word × Word → Prop}
  {s t : ConfigClient} {node : Node} {i j : Nat} {sendErr : Bool} {outs : List Out}

theorem doneBefore_zero : DoneBefore rows acked 0 0 where
  earlier j' hj' := absurd hj' (Nat.not_lt_zero j')
  before _ _ i' hi' := absurd hi' (Nat.not_lt_zero i')

theorem DoneBefore.mono (h : DoneBefore rows acked j i) (hmono : ∀ j x, acked j x → acked' j x) :
    DoneBefore rows acked' j i where
  earlier j' hj' row hrow x hx := hmono j' x (h.earlier j' hj' row hrow x hx)
  before row hrow i' hi' x hx := hmono j x (h.before row hrow i' hi' x hx)

/-- A status that passes the test acknowledges what is awaited. -/
theorem Progress.accept (h : Progress rows acked s)
    (hawaited : ∀ j x, s.AwaitsEntry j x → acked j x) : DoneBefore rows acked s.j s.i :=
  DoneBefore.mono h fun j x hx => hx.elim id (hawaited j x)

/-- The request for the entry in the next slot is sent, or not. -/
theorem DoneBefore.send (h : DoneBefore rows acked s.j s.i) (holds : s.globalNode.Holds rows)
    (htemp : s.temp = s.globalNode.models s.j s.i)
    (hsend : sendModelAppBind node sendErr s = some (t, outs)) : Progress rows acked t := by
  obtain ⟨-, rfl | rfl⟩ := sendModelAppBind_cases hsend
  · exact h.mono fun j x => .inl
  · refine ⟨fun j hj row hrow x hx => .inl (h.earlier j hj row hrow x hx),
      fun row hrow i' hi' x hx => ?_⟩
    rcases Nat.lt_succ_iff_lt_or_eq.mp hi' with hlt | rfl
    · exact .inl (h.before row hrow i' hlt x hx)
    · obtain ⟨hmodel, hcid⟩ := holds.entry s.j row s.i x.1 x.2 hrow hx
      exact .inr ⟨rfl, htemp.trans hmodel, hcid⟩

/-- A slot that reads as the end of its row is the end, unless a model has its id. -/
theorem DoneBefore.next_row (h : DoneBefore rows acked j i) (holds : s.globalNode.Holds rows)
    (hend : s.globalNode.models j i = 0xffff)
    (hid : ∀ row ∈ rows[j]?, ∀ x ∈ row[i]?, x.1 ≠ 0xffff) : DoneBefore rows acked (j + 1) 0 where
  earlier j' hj' row hrow x hx := by
    rcases Nat.lt_succ_iff_lt_or_eq.mp hj' with hlt | rfl
    · exact h.earlier j' hlt row hrow x hx
    · obtain ⟨i', hi', rfl⟩ := List.getElem_of_mem hx
      refine h.before row hrow i' ?_ _ (List.getElem?_eq_getElem hi')
      -- the row has no entry in slot `i`
      by_contra hge
      have hlt : i < row.length := by omega
      have hread := (holds.entry j' row i _ _ hrow (List.getElem?_eq_getElem hlt)).1
      exact hid row hrow row[i] (List.getElem?_eq_getElem hlt) (hread.symm.trans hend)
  before row _ i' hi' := absurd hi' (Nat.not_lt_zero i')

theorem DoneBefore.all (h : DoneBefore rows acked j i) (hj : rows.length ≤ j) :
    ∀ j' row, rows[j']? = some row → ∀ x ∈ row, acked j' x := by
  intro j' row hrow
  have hlt := (List.getElem?_eq_some_iff.mp hrow).1
  exact h.earlier j' (by omega) row hrow

theorem getElem_of_mem_entriesFrom {binding : Binding}
    (h : binding ∈ entriesFrom node j rows) :
    ∃ j' row, rows[j']? = some row ∧ ∃ x ∈ row, binding = bindingOf node (j + j') x := by
  induction rows generalizing j with
  | nil => simp [entriesFrom] at h
  | cons row rows ih =>
    rw [entriesFrom, List.mem_append, List.mem_map] at h
    rcases h with ⟨x, hx, rfl⟩ | h
    · exact ⟨0, row, rfl, x, hx, rfl⟩
    · obtain ⟨j', row', hrow, x, hx, rfl⟩ := ih h
      exact ⟨j' + 1, row', hrow, x, hx, by rw [Nat.add_assoc, Nat.add_comm 1 j']⟩

end

namespace Binds

/-- `d` has acknowledged the entry `x` of row `j`. -/
def AckedBy {ι : Type*} (dev : ι → Device) (acks : List (ι × Binding)) (d : ι) (j : Nat)
    (x : Word × Word) : Prop :=
  (d, bindingOf (dev d).node j x) ∈ acks

/-- The record holds the address of the device provisioned last and the table the composition that
came last, the entries of the device being bound are acknowledged up to the position, and the joined
records are confirmed. -/
structure Inv {ι : Type*} (dev : ι → Device) (s : Binds ι) : Prop where
  complete : ∀ d, s.join.complete = some d →
    s.join.client.globalNode.unicastAddr = (dev d).node.unicastAddr
  comp : ∀ d, s.join.comp = some d → s.join.client.globalNode.Holds (dev d).comp.rows
  progress : ∀ d, s.bound = some d →
    Progress (dev d).comp.rows (AckedBy dev s.acks d) s.join.client
  confirmed : s.Confirmed dev

section

variable {ι : Type*} {dev : ι → Device} {aes128 : List Octet → List Octet → List Octet}
  {s t : Binds ι} {client : ConfigClient} {d : ι} {c : CfgCall} {outs : List Out}
  {comp walk : Option ι}

theorem start_inv (client : ConfigClient) : Inv dev (start client) where
  complete := by intro d h; contradiction
  comp := by intro d h; contradiction
  progress := by intro d h; contradiction
  confirmed := by intro d record h; contradiction

/-- The state after a call about `d`. -/
def called (s : Binds ι) (d : ι) (client : ConfigClient) (comp walk : Option ι) (outs : List Out)
    (bound : Option ι) (acks : List (ι × Binding)) : Binds ι :=
  ⟨{ s.join with
      client := client, comp := comp, walk := walk, log := s.join.log ++ outs.map (d, ·) },
    bound, acks⟩

/-- Outputs without a joined record leave the records confirmed. -/
theorem Confirmed.called (h : s.Confirmed dev) {bound : Option ι} {acks : List (ι × Binding)}
    (hacks : s.acks ⊆ acks)
    (hout : ∀ record, Out.joined record ∈ outs → Confirms dev acks d record) :
    (s.called d client comp walk outs bound acks).Confirmed dev := by
  intro d' record hmem
  rcases List.mem_append.mp hmem with hmem | hmem
  · obtain ⟨hnode, hbound⟩ := h d' record hmem
    exact ⟨hnode, fun binding hbinding => hacks (hbound binding hbinding)⟩
  · obtain ⟨out, hout', heq⟩ := List.mem_map.mp hmem
    obtain ⟨rfl, rfl⟩ := Prod.mk.inj heq
    exact hout record hout'

/-- A call that leaves the position alone. -/
theorem Inv.quiet (h : Inv dev s) {acks : List (ι × Binding)} (hacks : s.acks ⊆ acks)
    (haddr : client.globalNode.unicastAddr = s.join.client.globalNode.unicastAddr)
    (hi : client.i = s.join.client.i) (hj : client.j = s.join.client.j)
    (htemp : client.temp = s.join.client.temp) (hcid : client.waitCid = s.join.client.waitCid)
    (hcomp : ∀ d, comp = some d → client.globalNode.Holds (dev d).comp.rows)
    (hout : ∀ out ∈ outs, out.isJoined = false) :
    Inv dev (s.called d client comp walk outs s.bound acks) where
  complete d' hd' := haddr.trans (h.complete d' hd')
  comp := hcomp
  progress := by
    intro d' hd'
    have hprogress := h.progress d' hd'
    simp only [Progress, ConfigClient.AwaitsEntry, called, hi, hj, htemp, hcid] at hprogress ⊢
    exact hprogress.mono fun j x hx => hx.imp_left fun hmem => hacks hmem
  confirmed := h.confirmed.called hacks fun record hmem =>
    absurd (hout _ hmem) (by simp [Out.isJoined])

/-- Sending the request for the next entry of the device being bound. -/
theorem Inv.send (h : Inv dev s) {client' : ConfigClient} {sendErr : Bool}
    {acks : List (ι × Binding)}
    (hsend : sendModelAppBind (dev d).node sendErr client' = some (client, outs))
    (hacks : s.acks ⊆ acks) (hcomp : s.join.comp = some d)
    (done : DoneBefore (dev d).comp.rows (AckedBy dev acks d) client'.j client'.i)
    (table : client'.globalNode = s.join.client.globalNode)
    (htemp : client'.temp = client'.globalNode.models client'.j client'.i) :
    Inv dev (s.called d client s.join.comp walk outs (some d) acks) where
  complete := by
    intro d' hd'
    have haddr := h.complete d' hd'
    obtain ⟨-, rfl | rfl⟩ := sendModelAppBind_cases hsend
    · exact table ▸ haddr
    · exact table ▸ haddr
  comp := by
    intro d' hd'
    have hholds := h.comp d' hd'
    obtain ⟨-, rfl | rfl⟩ := sendModelAppBind_cases hsend
    · exact table ▸ hholds
    · exact table ▸ hholds
  progress := by
    rintro d' ⟨⟩
    exact done.send (table ▸ h.comp d hcomp) htemp hsend
  confirmed := h.confirmed.called hacks fun record hmem => by
    rw [(sendModelAppBind_cases hsend).1] at hmem
    simp at hmem

/-- A status that passes the test, of the device being bound and successful. -/
theorem Inv.awaited (h : Inv dev s) {status : Binding} {answers : Answers}
    (hawaits : s.join.client.Awaits (dev d).node status) (hbound : s.bound = some d)
    (hcomp : s.join.comp = some d)
    (hid : ∀ row ∈ (dev d).comp.rows[s.join.client.j]?, ∀ x ∈ row[s.join.client.i]?,
      x.1 ≠ 0xffff)
    (hcomplete : s.join.client.AtEnd → s.join.complete = some d)
    (hcall : modelAppBindStatus aes128 (dev d).node status answers s.join.client =
      some (client, outs)) :
    Inv dev (s.called d client s.join.comp walk outs (some d) ((d, status) :: s.acks)) := by
  have hacks : s.acks ⊆ (d, status) :: s.acks := List.subset_cons_self _ _
  have hholds := h.comp d hcomp
  obtain ⟨hnot, -⟩ | ⟨-, hj, hcases⟩ := modelAppBindStatus_cases hcall
  · exact absurd hawaits hnot
  have hsucc : (s.join.client.j + 1) % 256 = s.join.client.j + 1 :=
    Nat.mod_eq_of_lt (by unfold maxElements at hj; omega)
  have done : DoneBefore (dev d).comp.rows (AckedBy dev ((d, status) :: s.acks) d)
      s.join.client.j s.join.client.i := by
    have hprogress : Progress (dev d).comp.rows (AckedBy dev ((d, status) :: s.acks) d)
        s.join.client := (h.progress d hbound).mono fun j x hx => hx.imp_left fun hmem =>
          hacks hmem
    apply hprogress.accept
    rintro j x ⟨rfl, htemp, hcid⟩
    have hstatus := (matches_iff (dev d).node (Nat.le_of_lt hj) status x).mp
      ⟨hawaits.1.trans htemp, hawaits.2.1.trans hcid, hawaits.2.2⟩
    rw [AckedBy, ← hstatus]
    exact List.mem_cons_self
  rcases hcases with ⟨-, hsend⟩ | ⟨hend, hsend⟩ | ⟨hend, hlast, rfl, rfl⟩
  · exact h.send hsend hacks hcomp done rfl rfl
  · exact h.send hsend hacks hcomp (done.next_row hholds hend hid) rfl rfl
  · refine ⟨h.complete, h.comp, ?_, h.confirmed.called hacks fun record hrecord => ⟨?_, ?_⟩⟩
    · rintro d' ⟨⟩
      exact doneBefore_zero
    · rw [configSuccess_record hrecord]
      exact h.complete d (hcomplete ⟨hend, by rw [hsucc]; exact hlast⟩)
    · intro binding hbinding
      rw [hholds.elementNum] at hlast
      obtain ⟨j', row, hrow, x, hx, rfl⟩ := getElem_of_mem_entriesFrom hbinding
      rw [Nat.zero_add]
      exact (done.next_row hholds hend hid).all hlast j' row hrow x hx

theorem compAfter_of_composes {s : Join ι} (h : c.Composes) : s.compAfter d c = some d := if_pos h

theorem compAfter_of_not_composes {s : Join ι} (h : ¬ c.Composes) : s.compAfter d c = s.comp :=
  if_neg h

theorem Sets.unique {opcode opcode' : CfgOpcode} (h : c.Sets opcode) (hne : opcode ≠ opcode') :
    ¬ c.Sets opcode' := fun h' => hne (h.2.2.symm.trans h'.2.2)

theorem Inv.config (h : Inv dev s) (ok : s.Heeds dev (.config d c))
    (hcall : bleMeshConfigClientCb aes128 s.join.client c.event (c.param (dev d))
      (c.answers (dev d)) = some (client, outs)) :
    Inv dev (s.called d client (s.join.compAfter d c) walk outs (s.boundAfter (.config d c))
      (s.acksAfter (.config d c))) := by
  have hacks : s.acks ⊆ s.acksAfter (.config d c) := by
    rw [acksAfter]
    split
    · exact List.subset_cons_self _ _
    · exact List.Subset.refl _
  cases Join.cb_effect aes128 hcall with
  | appKeyAdd sets call =>
    rw [compAfter_of_not_composes sets.not_composes, boundAfter, if_pos sets]
    exact h.send (appKeyAddStatus_cases call) hacks (ok.1 sets) doneBefore_zero rfl rfl
  | modelAppBind sets call =>
    have hkey : ¬ c.Sets .appKeyAdd := Sets.unique sets (by decide)
    rw [compAfter_of_not_composes sets.not_composes, boundAfter, if_neg hkey]
    by_cases hawaits : s.join.client.Awaits (dev d).node c.modelAppStatus
    · obtain ⟨hstatus, hbound, hcomp, hid, hcomplete⟩ := ok.2 sets hawaits
      rw [acksAfter, if_pos ⟨sets, hstatus⟩, hbound]
      exact h.awaited hawaits hbound hcomp hid hcomplete call
    · rw [modelAppBindStatus, if_neg hawaits] at call
      obtain ⟨rfl, rfl⟩ := Prod.mk.inj (Option.some.inj call)
      exact h.quiet hacks rfl rfl rfl rfl rfl h.comp (by simp)
  | modelSubAdd sets call =>
    have hkey : ¬ c.Sets .appKeyAdd := Sets.unique sets (by decide)
    rw [compAfter_of_not_composes sets.not_composes, boundAfter, if_neg hkey]
    obtain ⟨k, hk, hout⟩ :=
      Join.modelSubAddStatus_quiet (dev d).node c.modelAppStatus s.join.client
    rw [call] at hk hout
    obtain rfl := hk
    refine h.quiet hacks rfl rfl rfl rfl rfl h.comp fun out hmem => ?_
    rcases hout out hmem with rfl | ⟨addr, element, rfl⟩ <;> rfl
  | compositionData composes client sent =>
    subst client
    have hkey : ¬ c.Sets .appKeyAdd := fun sets => sets.not_composes composes
    rw [compAfter_of_composes composes, boundAfter, if_neg hkey]
    refine h.quiet hacks ?_ rfl rfl rfl rfl ?_ fun out hmem => ?_
    · obtain ⟨num, models, cid, hframe⟩ := load_eq (dev d).comp s.join.client.globalNode
      have haddr := congrArg NodeInfor.unicastAddr hframe
      exact haddr
    · rintro d' ⟨⟩
      exact load_holds _ _
    · rw [sent out hmem]
      rfl
  | other sets composes client sent =>
    subst client
    rw [compAfter_of_not_composes composes, boundAfter, if_neg sets.1]
    apply h.quiet hacks rfl rfl rfl rfl rfl h.comp
    intro out hmem
    rcases sent out hmem with rfl | rfl | ⟨binding, rfl⟩ <;> rfl

/-- An advertisement or an end of provisioning leaves the table and the position alone. -/
theorem Inv.provision (h : Inv dev s) {join : Join ι} {g : NodeInfor}
    (hclient : join.client = { s.join.client with globalNode := g })
    (table : ∃ addr mac uuid, g =
      { s.join.client.globalNode with unicastAddr := addr, mac := mac, uuid := uuid })
    (hcomplete : ∀ d, join.complete = some d → g.unicastAddr = (dev d).node.unicastAddr)
    (hcomp : join.comp = s.join.comp) (hlog : join.log = s.join.log ++ outs.map (d, ·))
    (hout : ∀ out ∈ outs, out.isJoined = false) : Inv dev ⟨join, s.bound, s.acks⟩ where
  complete := by
    intro d' hd'
    rw [hclient]
    exact hcomplete d' hd'
  comp := by
    intro d' hd'
    obtain ⟨addr, mac, uuid, rfl⟩ := table
    have hholds := h.comp d' (hcomp ▸ hd')
    rw [hclient]
    exact ⟨hholds.elementNum, hholds.entry, hholds.terminator⟩
  progress := by
    intro d' hd'
    have hprogress := h.progress d' hd'
    simp only [Progress, ConfigClient.AwaitsEntry, hclient] at hprogress ⊢
    exact hprogress
  confirmed := by
    intro d' record hmem
    rw [hlog] at hmem
    rcases List.mem_append.mp hmem with hmem | hmem
    · exact h.confirmed d' record hmem
    · obtain ⟨out, hout', heq⟩ := List.mem_map.mp hmem
      obtain ⟨rfl, rfl⟩ := Prod.mk.inj heq
      exact absurd (hout _ hout') (by simp [Out.isJoined])

theorem step_inv {e : JoinEvent ι} (h : Inv dev s) (hstep : s.step dev aes128 e = some t)
    (ok : s.Heeds dev e) : Inv dev t := by
  obtain ⟨join, hjoin, rfl⟩ := Option.map_eq_some_iff.mp hstep
  cases e with
  | bleopen | close =>
    obtain rfl := Option.some.inj hjoin
    exact ⟨h.complete, h.comp, h.progress, h.confirmed⟩
  | recvUnprovAdvPkt d =>
    rw [Join.step] at hjoin
    split at hjoin
    · obtain rfl := Option.some.inj hjoin
      exact h.provision rfl ⟨_, _, _, rfl⟩ h.complete rfl rfl
        (by simp [recvUnprovAdvPkt, Out.isJoined])
    · obtain rfl := Option.some.inj hjoin
      exact h
  | provComplete d nameErr nodeFound =>
    obtain rfl := Option.some.inj hjoin
    refine h.provision rfl ⟨_, _, _, rfl⟩ ?_ rfl rfl fun out hout => ?_
    · rintro d' ⟨⟩
      rfl
    simp only [Ble.provComplete] at hout
    split at hout
    · simp at hout
    · rw [List.mem_singleton.mp hout]
      rfl
  | config d c =>
    obtain ⟨⟨client, outs⟩, hcall, rfl⟩ := Option.map_eq_some_iff.mp hjoin
    exact h.config ok hcall

end

open Join

end Binds

end VhomeBridge.Ble
