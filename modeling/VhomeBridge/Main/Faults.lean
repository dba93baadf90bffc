import VhomeBridge.JsonFields
import VhomeBridge.Main.Uplink

/-! When `uart_rx_task` survives what it reads.  Whether it does depends on each read and on each
line by itself: not on the lines before, on the way they are cut into reads, or on the
connection. -/

namespace VhomeBridge.Main

open Lib JsonUser Zigbee

/-- The node id and the value of a record fit the buffers of a link event. -/
structure FitsEvent (c : Cmd) : Prop where
  nodeID : c.nodeID.length < 10
  value : c.value.length < 5

/-- The strings of the line fit the records and, if they are its versions, also `fwVersion[50]`. -/
def Harmless (lib : CJsonLib) (line : Text) : Prop :=
  ∀ root, lib.parse line = some root →
    (∀ item ∈ root.child, (∀ f ∈ zigbeeFields, Fits f item) ∧
      (item.string = some "data".toList → BufferIsString lib root)) ∧
    (lastOf (stringOf "action") root.child [] = "mcuInfo".toList →
      (lastOf (stringOf "fwVersion") root.child []).length < 12)

/-! ### One line -/

section

variable {lib : CJsonLib} {linkButton normal : Bool} {data : Text} {action : Action} {c : Cmd}

/-- A line leaves a record that fits. -/
theorem FitsEvent.analyze (hc : FitsEvent c) {c' : Cmd}
    (h : analyzeSubZigbee lib data (Action.zero, c) = some (action, c')) : FitsEvent c' := by
  cases hparse : lib.parse data with
  | none =>
    obtain rfl : c = c' := by simpa [analyzeSubZigbee, hparse] using congrArg (·.map Prod.snd) h
    exact hc
  | some root =>
    obtain ⟨hfit, hgiven⟩ := (analyzeSubZigbee_defined hparse _ _).mp h
    obtain rfl : (zigbeeGiven lib root root.child (Action.zero, c)).2 = c' :=
      congrArg Prod.snd hgiven
    constructor
    · rcases lastOf_cases (stringOf "nodeId") root.child c.nodeID with hold | ⟨item, hitem, hnew⟩
      · exact (congrArg List.length hold).trans_lt hc.nodeID
      · exact length_of_fits ("nodeId", 10)
          ((hfit item hitem).1 _ (by simp [zigbeeFields])) hnew
    · rcases lastOf_cases (stateOf lib root) root.child c.value with hold | ⟨item, -, hnew⟩
      · exact (congrArg List.length hold).trans_lt hc.value
      · rw [stateOf, Option.ite_none_right_eq_some] at hnew
        obtain ⟨attrBuf, -, hstate⟩ := Option.bind_eq_some_iff.mp hnew.2
        obtain ⟨s, -, hvalue⟩ := Option.map_eq_some_iff.mp hstate
        show (lastOf (stateOf lib root) root.child c.value).length < 5
        rw [← hvalue]
        split <;> decide

theorem versionAfter_isSome {s : Uplink} :
    (s.versionAfter action).isSome ↔
      (action.action = "mcuInfo".toList → action.fwVersion.length < 12) := by
  rw [Uplink.versionAfter]
  split
  · rename_i hinfo
    rw [fwVersionMessage_isSome, forall_prop_of_true hinfo]
  · rename_i hother
    exact iff_of_true rfl fun hinfo => absurd hinfo hother

theorem lineOutputs_isSome (hc : FitsEvent c) :
    (lineOutputs normal linkButton data action c).isSome ↔
      (action.action = "mcuInfo".toList → action.fwVersion.length < 12) := by
  have hreport : (reportOutputs normal linkButton data action c).isSome := by
    unfold reportOutputs
    rw [uartLinkEvent_eq hc.nodeID hc.value]
    split
    · split <;> rfl
    · rfl
  have hinfo : (mcuInfoOutputs normal action).isSome ↔
      (action.action = "mcuInfo".toList → action.fwVersion.length < 12) := by
    unfold mcuInfoOutputs
    split
    · rename_i hinfo
      rw [Option.isSome_map, fwVersionMessage_isSome, forall_prop_of_true hinfo]
    · rename_i hother
      exact iff_of_true rfl fun hinfo => absurd hinfo hother
  obtain ⟨report, hreport⟩ := Option.isSome_iff_exists.mp hreport
  rw [← hinfo, lineOutputs, hreport]
  cases mcuInfoOutputs normal action with
  | none => exact Iff.rfl
  | some info => exact iff_of_true rfl rfl

namespace Uplink

variable {s s' : Uplink}

theorem line_isSome (hc : FitsEvent s.commandSet) :
    (s.line lib linkButton data).isSome ↔ Harmless lib data := by
  have hrest {action : Action} {c' : Cmd}
      (h : analyzeSubZigbee lib data (Action.zero, s.commandSet) = some (action, c')) :
      (s.line lib linkButton data).isSome ↔
        (action.action = "mcuInfo".toList → action.fwVersion.length < 12) := by
    have houts : (lineOutputs (s.state == .normal) linkButton data action c').isSome ↔ _ :=
      lineOutputs_isSome (hc.analyze h)
    have hversion : (s.versionAfter action).isSome ↔ _ := versionAfter_isSome
    rw [line, h]
    show ((lineOutputs _ linkButton data action c').bind fun _ =>
      (s.versionAfter action).bind fun _ => some _).isSome ↔ _
    rw [← hversion] at houts ⊢
    cases hsome : s.versionAfter action with
    | none => simp
    | some v =>
      obtain ⟨outs, houts⟩ := Option.isSome_iff_exists.mp (houts.mpr (hsome ▸ rfl))
      rw [houts]
      exact iff_of_true rfl rfl
  cases hparse : lib.parse data with
  | none =>
    have hanalyze : analyzeSubZigbee lib data (Action.zero, s.commandSet) =
        some (Action.zero, s.commandSet) := by
      simp only [analyzeSubZigbee, hparse]
    rw [hrest hanalyze]
    refine iff_of_true (fun hno => absurd hno (by decide)) fun root hroot => ?_
    rw [hparse] at hroot
    cases hroot
  | some root =>
    have hdefined := analyzeSubZigbee_defined hparse (Action.zero, s.commandSet)
    have hroots : Harmless lib data ↔ (∀ item ∈ root.child, (∀ f ∈ zigbeeFields, Fits f item) ∧
        (item.string = some "data".toList → BufferIsString lib root)) ∧
          (lastOf (stringOf "action") root.child [] = "mcuInfo".toList →
            (lastOf (stringOf "fwVersion") root.child []).length < 12) := by
      refine ⟨fun h => h root hparse, fun h root' hroot' => ?_⟩
      obtain rfl : root = root' := Option.some.inj (hparse.symm.trans hroot')
      exact h
    rw [hroots]
    cases hanalyze : analyzeSubZigbee lib data (Action.zero, s.commandSet) with
    | none =>
      -- a member that does not fit
      rw [line, hanalyze]
      refine iff_of_false Bool.false_ne_true fun h => ?_
      rw [(hdefined _).mpr ⟨h.1, rfl⟩] at hanalyze
      cases hanalyze
    | some r =>
      obtain ⟨hfit, rfl⟩ := (hdefined r).mp hanalyze
      rw [hrest hanalyze]
      exact ⟨fun h => ⟨hfit, h⟩, fun h => h.2⟩

/-! ### Runs -/

variable {es : List Event} {e : Event}

/-- The task reads when it is done with the bytes of the last read. -/
def InTurn (ds : List Event) : Event → Prop
  | .net _ => True
  | .read _ => ds.countP Event.isByte = (arrived ds).length
  | .byte => ds.countP Event.isByte < (arrived ds).length

/-- An event in its turn that leads to no fault. -/
def Enabled (lib : CJsonLib) (ds : List Event) (e : Event) : Prop :=
  InTurn ds e ∧
    match e with
    | .net _ => True
    | .read bytes => bytes.length < rxBufSize
    | .byte => (arrived ds)[ds.countP Event.isByte]? = some '\n' →
        Harmless lib (lineString (unfinished '\n' (handled ds)))

theorem Inv.inTurn_read (h : Inv lib es s) (bytes : Text) :
    InTurn es (.read bytes) ↔ ¬ s.i < s.rxBytes := by
  have hindex := h.index
  have hcount := h.count
  rw [List.length_drop] at hindex
  rw [InTurn]
  omega

theorem Inv.inTurn_byte (h : Inv lib es s) : InTurn es .byte ↔ s.i < s.rxBytes := by
  have hindex := h.index
  have hcount := h.count
  rw [List.length_drop] at hindex
  rw [InTurn]
  omega

/-- A read has to leave a cell for the terminator. -/
theorem readInto_isSome {rxData : Tape Char} {bytes : Text} :
    (readInto rxData bytes).isSome ↔ bytes.length < rxBufSize := by
  rw [readInto, Tape.store]
  split
  · rename_i hroom
    rw [Option.bind_some]
    split
    · rw [Tape.store, Option.isSome_ite]
      exact Iff.rfl
    · rename_i hempty
      exact iff_of_true rfl (by simp [rxBufSize]; omega)
  · rename_i hfull
    exact iff_of_false Bool.false_ne_true (by omega)

/-- What a run keeps of the record of the task. -/
structure Fit (lib : CJsonLib) (es : List Event) (s : Uplink) : Prop where
  inv : Inv lib es s
  commandSet : FitsEvent s.commandSet

theorem line_commandSet (hc : FitsEvent s.commandSet)
    (h : s.line lib linkButton data = some s') : FitsEvent s'.commandSet := by
  obtain ⟨⟨action, commandSet⟩, hanalyze, h⟩ := Option.bind_eq_some_iff.mp h
  obtain ⟨outs, -, h⟩ := Option.bind_eq_some_iff.mp h
  obtain ⟨fwVersion, -, h⟩ := Option.bind_eq_some_iff.mp h
  obtain rfl := Option.some.inj h
  exact hc.analyze hanalyze

theorem Fit.step (h : Fit lib es s) (hstep : s.step lib linkButton e = some s') :
    Fit lib (es ++ [e]) s' := by
  refine ⟨h.inv.step hstep, ?_⟩
  cases e with
  | net e =>
    obtain rfl := Option.some.inj hstep
    cases e <;> exact h.commandSet
  | read bytes =>
    simp only [Uplink.step] at hstep
    split at hstep
    · cases hstep
    · obtain ⟨rxData, -, rfl⟩ := Option.map_eq_some_iff.mp hstep
      exact h.commandSet
  | byte =>
    obtain ⟨rx, -, -, -, ⟨-, -, hline⟩ | ⟨-, -, rfl⟩⟩ := h.inv.byte_cases hstep
    · exact line_commandSet (s := { s with rx, i := s.i + 1 }) h.commandSet hline
    · exact h.commandSet

theorem Fit.byte_isSome (h : Fit lib es s) :
    (s.step lib linkButton .byte).isSome ↔ Enabled lib es .byte := by
  rw [Enabled, h.inv.inTurn_byte, Uplink.step]
  by_cases hlt : s.i < s.rxBytes
  swap
  · rw [if_neg hlt]
    exact iff_of_false Bool.false_ne_true fun hno => hlt hno.1
  have hmore := h.inv.inTurn_byte.mpr hlt
  have hdata := h.inv.data
  rw [List.drop_eq_getElem_cons hmore, Tape.holds_cons] at hdata
  have hcell : (arrived es)[es.countP Event.isByte]? = some (s.rx.rxData s.i) := by
    rw [List.getElem?_eq_getElem hmore, hdata.1]
  obtain ⟨rx, hbyte, hafter, -⟩ := h.inv.rx.byte s.i
  rw [if_pos hlt, hbyte, Option.bind_some, hcell]
  split
  · rename_i hnewline
    rw [hnewline] at hafter
    have hline : rx.analyzed.getLast?.getD [] = lineString (unfinished '\n' (handled es)) := by
      rw [hafter.analyzed, finished_sep, List.map_append, List.map_singleton, List.getLast?_concat]
      rfl
    rw [line_isSome (s := { s with rx, i := s.i + 1 }) h.commandSet, hline, hnewline]
    exact ⟨fun hharmless => ⟨hlt, fun _ => hharmless⟩, fun hall => hall.2 rfl⟩
  · rename_i hother
    exact iff_of_true rfl ⟨hlt, fun hno => absurd (Option.some.inj hno) hother⟩

theorem Fit.step_isSome (h : Fit lib es s) :
    (s.step lib linkButton e).isSome ↔ Enabled lib es e := by
  cases e with
  | net e => exact iff_of_true rfl ⟨trivial, trivial⟩
  | read bytes =>
    rw [Enabled, h.inv.inTurn_read, Uplink.step]
    split
    · rename_i hlt
      exact iff_of_false Bool.false_ne_true fun hno => hno.1 hlt
    · rename_i hdone
      rw [Option.isSome_map, readInto_isSome]
      exact ⟨fun hroom => ⟨hdone, hroom⟩, fun hall => hall.2⟩
  | byte => exact h.byte_isSome

theorem count_le_of_inTurn (h : Allowed InTurn es) :
    es.countP Event.isByte ≤ (arrived es).length := by
  induction es using List.reverseRecOn with
  | nil => exact Nat.le_refl 0
  | append_singleton es e ih =>
    obtain ⟨hes, he⟩ := allowed_snoc.mp h
    cases e with
    | net e =>
      obtain ⟨harrived, hcount, -⟩ := handled_net es e
      rw [harrived, hcount]
      exact ih hes
    | read bytes =>
      obtain ⟨harrived, hcount, -⟩ := handled_read (ih hes) bytes
      rw [harrived, hcount, List.length_append]
      exact Nat.le_add_right_of_le (ih hes)
    | byte =>
      obtain ⟨harrived, hcount⟩ := arrived_byte es
      rw [harrived, hcount]
      exact he

/-- Which events are enabled in terms of the reads and the lines. -/
theorem allowed_enabled_iff (lib : CJsonLib) (es : List Event) :
    Allowed (Enabled lib) es ↔ Allowed InTurn es ∧
      (∀ bytes, .read bytes ∈ es → bytes.length < rxBufSize) ∧
        ∀ line ∈ lines es, Harmless lib line := by
  induction es using List.reverseRecOn with
  | nil =>
    refine iff_of_true allowed_nil ⟨allowed_nil, ?_, ?_⟩
    · simp
    · simp [lines, handled, arrived, finished_nil]
  | append_singleton es e ih =>
    rw [allowed_snoc, allowed_snoc, ih]
    by_cases hturn : Allowed InTurn es ∧ InTurn es e
    swap
    · exact iff_of_false (fun h => hturn ⟨h.1.1, h.2.1⟩) fun h => hturn h.1
    have hle := count_le_of_inTurn hturn.1
    simp only [hturn.1, hturn.2, true_and, Enabled]
    cases e with
    | net e => simp [lines, (handled_net es e).2.2]
    | read bytes =>
      simp only [lines, (handled_read hle bytes).2.2, List.mem_append, List.mem_singleton,
        or_imp, forall_and, Event.read.injEq, forall_eq]
      exact and_right_comm
    | byte =>
      rw [lines_byte hturn.2]
      by_cases hnewline : (arrived es)[es.countP Event.isByte]? = some '\n'
      · rw [if_pos hnewline]
        simp only [hnewline, List.mem_append, List.mem_singleton, or_imp, forall_and, forall_eq,
          reduceCtorEq, or_false, true_imp_iff, and_assoc]
      · simp [hnewline]

/-- The task survives exactly if each read leaves a cell of `uart_rx_data` and each line by itself
is harmless, if what the stack held fits. -/
theorem survives_iff {c : Cmd} (hc : FitsEvent c) :
    (exec (Uplink.step lib linkButton) (start c) es).isSome ↔ Allowed InTurn es ∧
      (∀ bytes, .read bytes ∈ es → bytes.length < rxBufSize) ∧
        ∀ line ∈ lines es, Harmless lib line := by
  rw [← allowed_enabled_iff]
  exact Run.exec_isSome_iff (I := Fit lib) ⟨inv_start lib c, hc⟩ (fun _ _ _ _ h => h.step)
    (fun _ _ _ h => h.step_isSome) es

/-- The versions of a chip. -/
def infoLine (fwVersion : String) : Text :=
  ("\x7b\"action\":\"mcuInfo\",\"fwVersion\":\"" ++ fwVersion ++ "\"\x7d").toList

def infoTree (fwVersion : String) : CJson :=
  .mk none none 0 [stringItem "action" "mcuInfo", stringItem "fwVersion" fwVersion]

/-- The library on such a line. -/
def infoLib (fwVersion : String) : CJsonLib where
  parse := fun text => if text = infoLine fwVersion then some (infoTree fwVersion) else none
  getObjectItem := fun object name =>
    object.bind fun object => object.child.find? fun item => item.string == some name
  getArrayItem := fun array index => array.bind fun array => array.child[index]?

theorem infoLib_parse (fwVersion : String) :
    (infoLib fwVersion).parse (infoLine fwVersion) = some (infoTree fwVersion) := by
  simp [infoLib]

/-- Twelve characters fit the record of the line but not `fwVersion`. -/
theorem survives_iff_info :
    ¬ (exec (Uplink.step (infoLib "1.0.0-beta.1") false) (start Cmd.zero)
      (.read (infoLine "1.0.0-beta.1" ++ ['\n']) ::
        List.replicate ((infoLine "1.0.0-beta.1").length + 1) .byte)).isSome := by
  rw [survives_iff ⟨by decide, by decide⟩]
  rintro ⟨-, -, hlines⟩
  have hline := hlines (infoLine "1.0.0-beta.1") (by decide +kernel)
  have hversion := (hline (infoTree "1.0.0-beta.1") (infoLib_parse _)).2 (by decide +kernel)
  exact absurd hversion (by decide +kernel)

end Uplink

end

end VhomeBridge.Main
