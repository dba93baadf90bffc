import VhomeBridge.Zigbee.Lines
import VhomeBridge.Zigbee.OwnEvent

/-! The lines that reach the analysis.  They do not depend on the reads, and every line that fits
the buffer is among them, as long as no line before it leads to a fault: then the task is gone. -/

namespace VhomeBridge.Zigbee

open JsonUser Lib

/-! ### Harmless lines -/

namespace Locals

/-- The value and the node id in `command_set` fit `dataLinkButton`. -/
def EventFits (s : Locals) : Prop :=
  ∃ value nodeID, s.commandSet.string '\x00' cmdSize valueAt = some value ∧
    s.commandSet.string '\x00' cmdSize nodeIDAt = some nodeID ∧ value.length < 45 ∧
      nodeID.length + (Text.decimal s.endpoint).length < 34

/-- The strings of the line stay in the records, with links what a report leaves in `command_set`
fits its event, and a version leaves room for the rest of its message. -/
def Harmless (lib : CJsonLib) (linkButton : Bool) (s : Locals) (line : Text) : Prop :=
  ∀ root, lib.parse line = some root →
    (∀ item ∈ root.child, FitsRecord lib root item) ∧
      (linkButton = true → Zigbee.isReport (given lib root root.child).action = true →
        (put lib root root.child s.cleared).EventFits) ∧
      ((given lib root root.child).action = "mcuInfo".toList →
        (given lib root root.child).fwVersion.length < 12)

variable {lib : CJsonLib} {normal linkButton : Bool} {s t : Locals} {line : Text} {g : Given}

theorem uartLinkEvent_isSome : s.uartLinkEvent.isSome ↔ s.EventFits := by
  constructor
  · intro h
    obtain ⟨r, hr⟩ := Option.isSome_iff_exists.mp h
    obtain ⟨v, x, hv, hx⟩ := uartLinkEvent_some hr
    have hevent := uartLinkEvent_eq hv hx
    rw [hr, Option.map_some] at hevent
    split at hevent
    · rename_i hfits
      exact ⟨v, x, hv, hx, hfits⟩
    · cases hevent
  · rintro ⟨v, x, hv, hx, hfits⟩
    rw [← Option.isSome_map, uartLinkEvent_eq hv hx, if_pos hfits]
    rfl

/-- The end of a line whose analysis leaves `t`. -/
theorem uartRxLine_left_isSome (hline : analyzeSubZigbee lib line s.cleared = some t)
    (h : Left g s.cleared t) (haction : '\x00' ∉ g.action)
    (hversion : '\x00' ∉ g.fwVersion ∧ g.fwVersion.length < 20) :
    (s.uartRxLine lib normal linkButton line).isSome ↔
      (linkButton = true → Zigbee.isReport g.action = true → t.EventFits) ∧
        (g.action = "mcuInfo".toList → g.fwVersion.length < 12) := by
  have hreport : (t.reportOutputs normal linkButton line).isSome ↔
      (linkButton = true → Zigbee.isReport g.action = true → t.EventFits) := by
    rw [reportOutputs, h.isReport haction, ← uartLinkEvent_isSome]
    cases Zigbee.isReport g.action <;> cases linkButton <;> cases t.uartLinkEvent <;> simp
  have hinfo := mcuInfoOutputs_isSome normal h haction hversion
  have hkept {u : Locals} {outs : List UartOut}
      (hout : t.reportOutputs normal linkButton line = some (u, outs)) : u.action = t.action := by
    unfold reportOutputs at hout
    split at hout
    · split at hout
      · obtain ⟨r, -, heq⟩ := Option.bind_eq_some_iff.mp hout
        obtain ⟨rfl, -⟩ := Prod.mk.inj (Option.some.inj heq)
        rfl
      · obtain ⟨rfl, -⟩ := Prod.mk.inj (Option.some.inj hout)
        rfl
    · obtain ⟨rfl, -⟩ := Prod.mk.inj (Option.some.inj hout)
      rfl
  rw [← hreport, ← hinfo, uartRxLine, hline]
  dsimp only [Option.bind_eq_bind, Option.bind_some]
  cases hout : t.reportOutputs normal linkButton line with
  | none => simp
  | some r =>
    have hsame : r.1.mcuInfoOutputs normal = t.mcuInfoOutputs normal := by
      rw [mcuInfoOutputs, mcuInfoOutputs, isAction, isAction, hkept hout]
    rw [Option.bind_some, hsame]
    cases t.mcuInfoOutputs normal <;> simp

/-- Whether a line leads to a fault. -/
theorem uartRxLine_isSome :
    (s.uartRxLine lib normal linkButton line).isSome ↔ s.Harmless lib linkButton line := by
  cases hparse : lib.parse line with
  | none =>
    have hline : analyzeSubZigbee lib line s.cleared = some s.cleared := by
      rw [analyzeSubZigbee, hparse]
    rw [uartRxLine_left_isSome hline (left_nil lib (.mk none none 0 []) s) List.not_mem_nil
      ⟨List.not_mem_nil, Nat.zero_lt_succ 19⟩]
    refine iff_of_true ⟨fun _ hreport => ?_, fun _ => Nat.zero_lt_succ 11⟩ fun root hroot => ?_
    · have hno : Zigbee.isReport [] = true := hreport
      exact absurd hno (by decide)
    rw [hparse] at hroot
    cases hroot
  | some root =>
    simp only [Harmless, hparse, Option.some.injEq, forall_eq']
    have hdefined := analyze_defined hparse
    by_cases hfit : ∀ item ∈ root.child, FitsRecord lib root item
    · rw [uartRxLine_left_isSome ((hdefined s.cleared _).mpr ⟨hfit, rfl⟩)
        (left_put lib root root.child s) given_action (given_fwVersion hfit), and_iff_right hfit]
    · refine iff_of_false (fun hsome => ?_) fun h => hfit h.1
      obtain ⟨r, hr⟩ := Option.isSome_iff_exists.mp hsome
      obtain ⟨t, ht, -⟩ := Option.bind_eq_some_iff.mp hr
      exact hfit ((hdefined _ t).mp ht).1

end Locals

/-! ### The task -/

/-- The buffers and the records of the task; the records are `none` once a line has led to a
fault. -/
structure UartTask where
  rx : UartRx
  locals : Option Locals

namespace UartTask

def init (s : Locals) : UartTask := ⟨UartRx.init, some s⟩

section

-- `flags n` are `STATE == NORMAL` and `LINK_BUTTON` at the end of line `n`
variable (lib : CJsonLib) (flags : Nat → Bool × Bool)

/-- A turn of the loop over the bytes of a read. -/
def byte (i : Nat) (s : UartTask) : Option UartTask :=
  match s.locals with
  | none => some s
  | some locals => do
    let rx ← UartRx.byte i s.rx
    if s.rx.rxData i = '\n' then
      let (normal, linkButton) := flags s.rx.analyzed.length
      -- the string for which `rx` has just called `JSON_analyze_SUB_ZIGBEE`
      let data := rx.analyzed.getLast?.getD []
      return ⟨rx, (locals.uartRxLine lib normal linkButton data).map (·.1)⟩
    else return ⟨rx, some locals⟩

/-- A turn of the task in which `uart_read_bytes` returns `bytes`. -/
def read (s : UartTask) (bytes : Text) : Option UartTask := do
  let rxData ← s.rx.rxData.store rxBufSize 0 bytes
  let rxBytes := bytes.length
  if 0 < rxBytes then
    let rxData ← rxData.store rxBufSize rxBytes ['\x00']
    forRange (byte lib flags) rxBytes 0 { s with rx := { s.rx with rxData } }
  else return { s with rx := { s.rx with rxData } }

/-- The records after lines, `n` lines before them. -/
def recordsAfter (n : Nat) (s : Locals) : List Text → Option Locals
  | [] => some s
  | line :: lines => do
    let (s, _) ← s.uartRxLine lib (flags n).1 (flags n).2 line
    recordsAfter (n + 1) s lines

/-- The lines up to the first that leads to a fault. -/
def calls (n : Nat) (s : Locals) : List Text → List Text
  | [] => []
  | line :: lines => line ::
    match s.uartRxLine lib (flags n).1 (flags n).2 line with
    | none => []
    | some (s, _) => calls (n + 1) s lines

end

/-! ### Lines in turn -/

section

variable {lib : CJsonLib} {flags : Nat → Bool × Bool} {n i j : Nat} {s t : Locals}
  {line : Text} {lines : List Text}

theorem recordsAfter_snoc : recordsAfter lib flags n s (lines ++ [line]) =
    (recordsAfter lib flags n s lines).bind fun t =>
      (t.uartRxLine lib (flags (n + lines.length)).1 (flags (n + lines.length)).2 line).map
        (·.1) := by
  induction lines generalizing n s with
  | nil => cases h : s.uartRxLine lib (flags n).1 (flags n).2 line <;> simp [recordsAfter, h]
  | cons first lines ih =>
    rw [List.cons_append, recordsAfter, recordsAfter]
    cases h : s.uartRxLine lib (flags n).1 (flags n).2 first with
    | none => rfl
    | some r =>
      simp only [Option.bind_eq_bind, Option.bind_some, List.length_cons]
      rw [ih, Nat.add_assoc, Nat.add_comm 1]

theorem calls_snoc : calls lib flags n s (lines ++ [line]) = calls lib flags n s lines ++
    if (recordsAfter lib flags n s lines).isSome then [line] else [] := by
  induction lines generalizing n s with
  | nil => cases h : s.uartRxLine lib (flags n).1 (flags n).2 line <;> simp [calls, recordsAfter, h]
  | cons first lines ih =>
    rw [List.cons_append, calls, calls, recordsAfter]
    cases h : s.uartRxLine lib (flags n).1 (flags n).2 first with
    | none => rfl
    | some r =>
      simp only [Option.bind_eq_bind, Option.bind_some]
      rw [ih, List.cons_append]

/-- As long as there is no fault, all lines are analysed. -/
theorem calls_of_isSome (h : (recordsAfter lib flags n s lines).isSome) :
    calls lib flags n s lines = lines := by
  induction lines using List.reverseRecOn with
  | nil => rfl
  | append_singleton lines line ih =>
    rw [recordsAfter_snoc, Option.isSome_bind] at h
    have hbefore : (recordsAfter lib flags n s lines).isSome := Option.isSome_of_any h
    rw [calls_snoc, if_pos hbefore, ih hbefore]

theorem calls_prefix : calls lib flags n s lines <+: lines := by
  induction lines generalizing n s with
  | nil => exact List.prefix_refl _
  | cons line lines ih =>
    rw [calls, List.cons_prefix_cons]
    refine ⟨rfl, ?_⟩
    split
    · exact List.nil_prefix
    · exact ih

/-- A line is analysed if there was no fault before it. -/
theorem lt_calls_iff (hj : j < lines.length) : j < (calls lib flags n s lines).length ↔
    (recordsAfter lib flags n s (lines.take j)).isSome := by
  induction lines generalizing n s j with
  | nil => simp at hj
  | cons line lines ih =>
    rw [calls, List.length_cons]
    cases j with
    | zero => exact iff_of_true (Nat.succ_pos _) rfl
    | succ j =>
      rw [List.take_succ_cons, recordsAfter, Nat.add_lt_add_iff_right]
      cases h : s.uartRxLine lib (flags n).1 (flags n).2 line with
      | none => simp
      | some r => exact ih (Nat.lt_of_succ_lt_succ hj)

/-- There is no fault if each line is harmless for the records that the lines before it leave. -/
theorem recordsAfter_isSome_iff : (recordsAfter lib flags n s lines).isSome ↔
    ∀ i line, lines[i]? = some line → ∀ t, recordsAfter lib flags n s (lines.take i) = some t →
      t.Harmless lib (flags (n + i)).2 line := by
  induction lines using List.reverseRecOn with
  | nil => simp [recordsAfter]
  | append_singleton lines last ih =>
    rw [recordsAfter_snoc]
    constructor
    · intro h i line hline t ht
      have hbefore : (recordsAfter lib flags n s lines).isSome :=
        Option.isSome_of_any (Option.isSome_bind _ _ ▸ h)
      rcases Nat.lt_or_ge i lines.length with hlt | hge
      · rw [List.getElem?_append_left hlt] at hline
        rw [List.take_append_of_le_length (Nat.le_of_lt hlt)] at ht
        exact ih.mp hbefore i line hline t ht
      · obtain rfl : i = lines.length := by
          have := (List.getElem?_eq_some_iff.mp hline).1
          rw [List.length_append, List.length_singleton] at this
          omega
        rw [List.getElem?_concat_length, Option.some.injEq] at hline
        rw [List.take_left] at ht
        rw [ht, Option.bind_some, Option.isSome_map, Locals.uartRxLine_isSome] at h
        exact hline ▸ h
    · intro h
      have hbefore : (recordsAfter lib flags n s lines).isSome := ih.mpr fun i line hline t ht => by
        have hlt := (List.getElem?_eq_some_iff.mp hline).1
        refine h i line (by rw [List.getElem?_append_left hlt, hline]) t ?_
        rw [List.take_append_of_le_length (Nat.le_of_lt hlt), ht]
      obtain ⟨t, ht⟩ := Option.isSome_iff_exists.mp hbefore
      rw [ht, Option.bind_some, Option.isSome_map, Locals.uartRxLine_isSome]
      exact h lines.length last List.getElem?_concat_length t (by rw [List.take_left, ht])

end

/-! ### A stream in reads -/

/-- The strings of the lines of the stream. -/
def strings (stream : Text) : List Text := (finished '\n' stream).map lineString

/-- The task after the bytes `stream`: the strings up to the first that leads to a fault have been
analysed; without a fault, the buffers are those of the reader. -/
structure After (lib : CJsonLib) (flags : Nat → Bool × Bool) (s : Locals) (stream : Text)
    (t : UartTask) : Prop where
  analyzed : t.rx.analyzed = calls lib flags 0 s (strings stream)
  locals : t.locals = recordsAfter lib flags 0 s (strings stream)
  rx : t.locals.isSome → t.rx.After stream

namespace After

variable {lib : CJsonLib} {flags : Nat → Bool × Bool} {s : Locals} {t : UartTask} {stream : Text}

theorem init : (UartTask.init s).After lib flags s [] :=
  ⟨rfl, rfl, fun _ => UartRx.After.init⟩

/-- After a fault nothing is read any more. -/
theorem gone (h : t.After lib flags s stream) (hgone : t.locals = none) (c : Char) :
    t.After lib flags s (stream ++ [c]) := by
  have hrecords : recordsAfter lib flags 0 s (strings stream) = none := h.locals.symm.trans hgone
  by_cases hc : c = '\n'
  · have hstrings : strings (stream ++ [c]) =
        strings stream ++ [lineString (unfinished '\n' stream)] := by
      rw [hc, strings, finished_sep, List.map_append]
      rfl
    refine ⟨?_, ?_, fun hsome => ?_⟩
    · rw [hstrings, calls_snoc, hrecords, h.analyzed]
      exact (List.append_nil _).symm
    · rw [hstrings, recordsAfter_snoc, hrecords, hgone]
      rfl
    · rw [hgone] at hsome
      cases hsome
  · have hstrings : strings (stream ++ [c]) = strings stream := by
      rw [strings, finished_snoc hc, strings]
    refine ⟨?_, ?_, fun hsome => ?_⟩
    · rw [hstrings, h.analyzed]
    · rw [hstrings, h.locals]
    · rw [hgone] at hsome
      cases hsome

/-- The end of a line: it is analysed with the records that the lines before it leave. -/
theorem newline (h : t.After lib flags s stream) {locals : Locals}
    (hlocals : t.locals = some locals) (i : Nat) (hc : t.rx.rxData i = '\n') :
    ∃ t', UartTask.byte lib flags i t = some t' ∧
      t'.After lib flags s (stream ++ ['\n']) ∧ t'.rx.rxData = t.rx.rxData := by
  have hrecords := h.locals.symm.trans hlocals
  have hcalls := calls_of_isSome (Option.isSome_of_eq_some hrecords)
  obtain ⟨rx, hrx, hafter, hdata⟩ :=
    (h.rx (Option.isSome_of_eq_some hlocals)).newline i hc
  have hstrings : strings (stream ++ ['\n']) =
      strings stream ++ [lineString (unfinished '\n' stream)] := by
    rw [strings, finished_sep, List.map_append]
    rfl
  have hlast : rx.analyzed.getLast?.getD [] = lineString (unfinished '\n' stream) := by
    rw [hafter.analyzed]
    show (strings (stream ++ ['\n'])).getLast?.getD [] = _
    rw [hstrings, List.getLast?_concat, Option.getD_some]
  have hnumber : t.rx.analyzed.length = 0 + (strings stream).length := by
    rw [h.analyzed, hcalls, Nat.zero_add]
  rw [UartTask.byte, hlocals]
  dsimp only
  rw [hrx, Option.bind_eq_bind, Option.bind_some, if_pos hc, hlast, hnumber]
  refine ⟨_, rfl, ⟨?_, ?_, fun _ => hafter⟩, hdata⟩
  · rw [hstrings, calls_snoc, hrecords, hcalls]
    exact hafter.analyzed.trans hstrings
  · rw [hstrings, recordsAfter_snoc, hrecords]
    rfl

/-- A byte of a line: nothing is analysed. -/
theorem other (h : t.After lib flags s stream) {locals : Locals}
    (hlocals : t.locals = some locals) (i : Nat) (hc : t.rx.rxData i ≠ '\n') :
    ∃ t', UartTask.byte lib flags i t = some t' ∧
      t'.After lib flags s (stream ++ [t.rx.rxData i]) ∧ t'.rx.rxData = t.rx.rxData := by
  have hcalls := calls_of_isSome (Option.isSome_of_eq_some (h.locals.symm.trans hlocals))
  obtain ⟨rx, hrx, hafter, hdata⟩ := (h.rx (Option.isSome_of_eq_some hlocals)).other i hc
  have hstrings : strings (stream ++ [t.rx.rxData i]) = strings stream := by
    rw [strings, finished_snoc hc, strings]
  rw [UartTask.byte, hlocals]
  dsimp only
  rw [hrx, Option.bind_eq_bind, Option.bind_some, if_neg hc]
  refine ⟨_, rfl, ⟨?_, ?_, fun _ => hafter⟩, hdata⟩
  · rw [hstrings, hcalls]
    exact hafter.analyzed.trans hstrings
  · rw [hstrings, ← h.locals, hlocals]

theorem byte (h : t.After lib flags s stream) (i : Nat) :
    ∃ t', UartTask.byte lib flags i t = some t' ∧
      t'.After lib flags s (stream ++ [t.rx.rxData i]) ∧ t'.rx.rxData = t.rx.rxData := by
  cases hlocals : t.locals with
  | none =>
    refine ⟨t, ?_, h.gone hlocals _, rfl⟩
    rw [UartTask.byte, hlocals]
  | some locals =>
    by_cases hc : t.rx.rxData i = '\n'
    · rw [hc]
      exact h.newline hlocals i hc
    · exact h.other hlocals i hc

/-- Another buffer of bytes read. -/
theorem buffer (h : t.After lib flags s stream) (rxData : Tape Char) :
    UartTask.After lib flags s stream { t with rx := { t.rx with rxData } } :=
  ⟨h.analyzed, h.locals, fun hsome =>
    have hafter := h.rx hsome
    ⟨hafter.j, hafter.data, hafter.analyzed⟩⟩

/-- A read that leaves room for its terminator. -/
theorem read (h : t.After lib flags s stream) {bytes : Text} (hlen : bytes.length < rxBufSize) :
    ∃ t', t.read lib flags bytes = some t' ∧ t'.After lib flags s (stream ++ bytes) := by
  have hstore : t.rx.rxData.store rxBufSize 0 bytes = some (t.rx.rxData.write 0 bytes) :=
    Tape.store_of_le (by omega)
  rw [UartTask.read, hstore]
  dsimp only [Option.bind_eq_bind, Option.bind_some]
  by_cases hpos : 0 < bytes.length
  · have hend : (t.rx.rxData.write 0 bytes).store rxBufSize bytes.length ['\x00'] =
        some ((t.rx.rxData.write 0 bytes).write bytes.length ['\x00']) := Tape.store_of_le hlen
    have hholds : ((t.rx.rxData.write 0 bytes).write bytes.length ['\x00']).Holds 0 bytes :=
      Tape.holds_write.frame fun k _ hk => Tape.write_of_lt (by omega)
    rw [if_pos hpos, hend, Option.bind_some]
    obtain ⟨t', hloop, ht', -⟩ := forRange_keeps (n := bytes.length) (i := 0)
      (I := fun k t' => UartTask.After lib flags s (stream ++ bytes.take k) t' ∧
        t'.rx.rxData = (t.rx.rxData.write 0 bytes).write bytes.length ['\x00'])
      ⟨by
        rw [List.take_zero, List.append_nil]
        exact h.buffer ((t.rx.rxData.write 0 bytes).write bytes.length ['\x00']), rfl⟩
      fun k u _ hk hI => by
        obtain ⟨hafter, hdata⟩ := hI
        obtain ⟨u', hbyte, hafter', hdata'⟩ := hafter.byte k
        refine ⟨u', hbyte, ?_, hdata'.trans hdata⟩
        rw [Nat.zero_add] at hk
        have hcell := hholds k bytes[k] (List.getElem?_eq_getElem hk)
        rw [Nat.zero_add, ← hdata] at hcell
        rw [hcell, List.append_assoc] at hafter'
        rwa [← List.take_append_getElem hk]
    rw [Nat.zero_add, List.take_length] at ht'
    exact ⟨t', hloop, ht'⟩
  · obtain rfl : bytes = [] := List.length_eq_zero_iff.mp (by omega)
    rw [if_neg hpos, List.append_nil]
    exact ⟨_, rfl, h.buffer _⟩

end After

end UartTask

/-- `uart_rx_task` on the reads, with what the stack holds in its records. -/
def uartTask (lib : CJsonLib) (flags : Nat → Bool × Bool) (s : Locals) (reads : List Text) :
    Option UartTask :=
  reads.foldlM (UartTask.read lib flags) (UartTask.init s)

theorem uartTask_after (lib : CJsonLib) (flags : Nat → Bool × Bool) (s : Locals)
    (reads : List Text) (h : ∀ r ∈ reads, r.length < rxBufSize) :
    ∃ t, uartTask lib flags s reads = some t ∧ t.After lib flags s reads.flatten := by
  induction reads using List.reverseRecOn with
  | nil => exact ⟨_, rfl, UartTask.After.init⟩
  | append_singleton reads r ih =>
    obtain ⟨t, ht, hafter⟩ := ih fun q hq => h q (List.mem_append_left _ hq)
    obtain ⟨t', hread, hafter'⟩ := hafter.read (h r (by simp))
    refine ⟨t', ?_, by rwa [List.flatten_concat]⟩
    rw [uartTask] at ht ⊢
    rw [List.foldlM_append, ht]
    simpa using hread

/-! ### Delivery -/

open UartTask (recordsAfter strings)

theorem length_of_reads {reads : List Text} (h : ∀ r ∈ reads, 1 ≤ r.length ∧ r.length ≤ 1023) :
    ∀ r ∈ reads, r.length < rxBufSize := by
  intro r hr
  have := h r hr
  have hsize : rxBufSize = 1024 := rfl
  omega

/-- In any two ways of splitting the stream into reads of 1 to 1023 bytes the same strings are
analysed, one for each line at most; and every line of at most 1023 bytes is analysed as it is, at
its place. -/
def Delivers (lib : CJsonLib) (flags : Nat → Bool × Bool) (s : Locals) (stream : Text) : Prop :=
  ∀ reads reads' : List Text, reads.flatten = stream → reads'.flatten = stream →
    (∀ r ∈ reads, 1 ≤ r.length ∧ r.length ≤ 1023) →
    (∀ r ∈ reads', 1 ≤ r.length ∧ r.length ≤ 1023) →
    ∃ t t', uartTask lib flags s reads = some t ∧ uartTask lib flags s reads' = some t' ∧
      t.rx.analyzed = t'.rx.analyzed ∧
      t.rx.analyzed.length ≤ (finished '\n' stream).length ∧
      ∀ (i : Nat) (line : Text), (finished '\n' stream)[i]? = some line → line.length ≤ 1023 →
        t.rx.analyzed[i]? = some line

/-- No line that comes before one of at most 1023 bytes leads to a fault. -/
def HarmlessBefore (lib : CJsonLib) (flags : Nat → Bool × Bool) (s : Locals) (stream : Text) :
    Prop :=
  ∀ (i j : Nat) (line line' : Text), i < j → (finished '\n' stream)[i]? = some line →
    (finished '\n' stream)[j]? = some line' → line'.length ≤ 1023 →
    ∀ t, recordsAfter lib flags 0 s ((strings stream).take i) = some t →
      t.Harmless lib (flags i).2 (lineString line)

section

variable {lib : CJsonLib} {flags : Nat → Bool × Bool} {s : Locals} {stream line : Text} {j : Nat}

/-- The lines before one are harmless, each for the records it meets, if they leave records. -/
theorem harmless_before_iff :
    (recordsAfter lib flags 0 s ((strings stream).take j)).isSome ↔
      ∀ i line, i < j → (finished '\n' stream)[i]? = some line →
        ∀ t, recordsAfter lib flags 0 s ((strings stream).take i) = some t →
          t.Harmless lib (flags i).2 (lineString line) := by
  rw [UartTask.recordsAfter_isSome_iff]
  have htake {i : Nat} (hi : i < j) : ((strings stream).take j).take i =
      (strings stream).take i := by rw [List.take_take, Nat.min_eq_left (Nat.le_of_lt hi)]
  constructor
  · intro h i line hi hline t ht
    have hstring : ((strings stream).take j)[i]? = some (lineString line) := by
      rw [List.getElem?_take_of_lt hi, strings, List.getElem?_map, hline]
      rfl
    have hharmless := h i _ hstring t (by rwa [htake hi])
    rwa [Nat.zero_add] at hharmless
  · intro h i string hstring t ht
    have hi : i < j := by
      have := (List.getElem?_eq_some_iff.mp hstring).1
      rw [List.length_take] at this
      omega
    rw [List.getElem?_take_of_lt hi, strings, List.getElem?_map, Option.map_eq_some_iff] at hstring
    obtain ⟨line, hline, rfl⟩ := hstring
    rw [Nat.zero_add]
    exact h i line hi hline t (by rwa [← htake hi])

/-- A line at its place among the strings that are analysed. -/
theorem calls_line_iff (hline : (finished '\n' stream)[j]? = some line)
    (hshort : line.length ≤ 1023) (hnul : '\x00' ∉ stream) :
    (UartTask.calls lib flags 0 s (strings stream))[j]? = some line ↔
      (recordsAfter lib flags 0 s ((strings stream).take j)).isSome := by
  have hlt := (List.getElem?_eq_some_iff.mp hline).1
  have hlen : (strings stream).length = (finished '\n' stream).length := List.length_map _
  have hstring : (strings stream)[j]? = some line := by
    have hmem : '\x00' ∉ line := fun hmem =>
      hnul (mem_of_mem_line (List.mem_append_left _ (List.mem_of_getElem? hline)) hmem)
    have hsize : rxBufSize = 1024 := rfl
    rw [strings, List.getElem?_map, hline, Option.map_some,
      lineString_of_short (by omega) hmem]
  rw [← UartTask.lt_calls_iff (by omega)]
  refine ⟨fun h => (List.getElem?_eq_some_iff.mp h).1, fun h => ?_⟩
  have hprefix : UartTask.calls lib flags 0 s (strings stream) <+: strings stream :=
    UartTask.calls_prefix
  obtain ⟨rest, hrest⟩ := hprefix
  rw [← hrest, List.getElem?_append_left h] at hstring
  exact hstring

/-- A stream is delivered exactly if no line before one that is due leads to a fault. -/
theorem linesDelivered_iff (lib : CJsonLib) (flags : Nat → Bool × Bool) (s : Locals) (stream : Text)
    (hnul : '\x00' ∉ stream) :
    Delivers lib flags s stream ↔ HarmlessBefore lib flags s stream := by
  have hlines : HarmlessBefore lib flags s stream ↔ ∀ (j : Nat) (line : Text),
      (finished '\n' stream)[j]? = some line → line.length ≤ 1023 →
        (UartTask.calls lib flags 0 s (strings stream))[j]? = some line := by
    constructor
    · intro h j line hline hshort
      apply (calls_line_iff hline hshort hnul).mpr
      apply harmless_before_iff.mpr
      exact fun i line' hi hline' => h i j line' line hi hline' hline hshort
    · intro h i j line line' hij hline hline' hshort
      have hrecords := (calls_line_iff hline' hshort hnul).mp (h j line' hline' hshort)
      exact harmless_before_iff.mp hrecords i line hij hline
  rw [hlines]
  constructor
  · intro h j line hline hshort
    have hone : ∀ r ∈ stream.map fun c => [c], 1 ≤ r.length ∧ r.length ≤ 1023 := by
      intro r hr
      obtain ⟨c, -, rfl⟩ := List.mem_map.mp hr
      rw [List.length_singleton]
      omega
    have hsplit : (stream.map fun c => [c]).flatten = stream := List.flatMap_singleton' stream
    obtain ⟨t, t', ht, -, -, -, hat⟩ := h _ _ hsplit hsplit hone hone
    obtain ⟨u, hu, hafter⟩ := uartTask_after lib flags s _ (length_of_reads hone)
    obtain rfl := Option.some.inj (ht.symm.trans hu)
    rw [hsplit] at hafter
    rw [← hafter.analyzed]
    exact hat j line hline hshort
  · intro h reads reads' hreads hreads' hlen hlen'
    obtain ⟨t, ht, hafter⟩ := uartTask_after lib flags s reads (length_of_reads hlen)
    obtain ⟨t', ht', hafter'⟩ := uartTask_after lib flags s reads' (length_of_reads hlen')
    rw [hreads] at hafter
    rw [hreads'] at hafter'
    refine ⟨t, t', ht, ht', hafter.analyzed.trans hafter'.analyzed.symm, ?_, ?_⟩
    · have hprefix : UartTask.calls lib flags 0 s (strings stream) <+: strings stream :=
        UartTask.calls_prefix
      have hle := hprefix.length_le
      rw [← hafter.analyzed, strings, List.length_map] at hle
      exact hle
    · intro i line hline hshort
      rw [hafter.analyzed]
      exact h i line hline hshort

end

/-- Two reports, whose second line is due. -/
theorem linesDelivered_iff_reports :
    Delivers reportLib (fun _ => (true, true)) (Locals.held [] '\x00' [])
      (fromSwitch ++ '\n' :: fromLamp ++ ['\n']) := by
  refine (linesDelivered_iff _ _ _ _ (by decide +kernel)).mpr
    fun i j line line' hij hline hline' _ t ht => ?_
  have hlines : finished '\n' (fromSwitch ++ '\n' :: fromLamp ++ ['\n']) =
      [fromSwitch, fromLamp] := by decide +kernel
  rw [hlines] at hline hline'
  have hj := (List.getElem?_eq_some_iff.mp hline').1
  obtain rfl : i = 0 := by
    simp only [List.length_cons, List.length_nil] at hj
    omega
  obtain rfl : fromSwitch = line := Option.some.inj hline
  obtain rfl : Locals.held [] '\x00' [] = t := Option.some.inj ht
  have hdone : ((Locals.held [] '\x00' []).uartRxLine reportLib true true
      (lineString fromSwitch)).isSome := by decide +kernel
  exact Locals.uartRxLine_isSome.mp hdone

def numberLine : Text := "\x7b\"action\":1\x7d".toList

def joinLine : Text := "\x7b\"action\":\"join\"\x7d".toList

/-- The library on these lines. -/
def joinLib : CJsonLib where
  parse := fun text =>
    if text = numberLine then
      some (.mk none none 0 [.mk (some "action".toList) none 1 []])
    else if text = joinLine then some (.mk none none 0 [stringItem "action" "join"])
    else none
  getObjectItem := reportLib.getObjectItem
  getArrayItem := reportLib.getArrayItem

/-- After a line whose action is a number, a line is not delivered. -/
theorem numberLine_last :
    ¬ ∀ (lib : CJsonLib) (flags : Nat → Bool × Bool) (s : Locals) (stream : Text),
      '\x00' ∉ stream → Delivers lib flags s stream := by
  intro h
  have hjoin := h joinLib (fun _ => (true, true)) (Locals.held [] '\x00' [])
    (numberLine ++ '\n' :: joinLine ++ ['\n']) (by decide +kernel)
    [numberLine ++ '\n' :: joinLine ++ ['\n']] [numberLine ++ '\n' :: joinLine ++ ['\n']]
    (List.append_nil _) (List.append_nil _) (by decide +kernel) (by decide +kernel)
  obtain ⟨t, -, ht, -, -, -, hlines⟩ := hjoin
  have hgot := hlines 1 joinLine (by decide +kernel) (by decide +kernel)
  have honly : ((uartTask joinLib (fun _ => (true, true)) (Locals.held [] '\x00' [])
      [numberLine ++ '\n' :: joinLine ++ ['\n']]).map fun t => t.rx.analyzed) =
      some [numberLine] := by decide +kernel
  rw [ht, Option.map_some, Option.some.injEq] at honly
  rw [honly] at hgot
  cases hgot

end VhomeBridge.Zigbee
