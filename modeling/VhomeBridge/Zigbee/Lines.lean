import VhomeBridge.Zigbee.Handshake
import VhomeBridge.Zigbee.Uart
import VhomeBridge.Lib.Lines
import VhomeBridge.Lib.Loop
import VhomeBridge.Lib.Tape
import Mathlib.Data.List.Forall2
import Mathlib.Data.List.TakeWhile

/-! The bytes from the Zigbee chip.  `uart_rx_task` reads them into `uart_rx_data` and collects
them in `data` up to the end of a line, across reads. -/

namespace VhomeBridge.Zigbee

open Lib

/-- `uart_rx_data`, `data` and `j`, and the strings for which `JSON_analyze_SUB_ZIGBEE` was
called. -/
structure UartRx where
  rxData : Tape Char
  data : Tape Char
  j : Nat
  analyzed : List Text

def UartRx.init : UartRx := ⟨fun _ => '\x00', fun _ => '\x00', 0, []⟩

namespace UartRx

/-- A turn of the loop over the bytes of a read.  What is done with a line is `uartRxLine`. -/
def byte (i : Nat) (s : UartRx) : Option UartRx :=
  if s.rxData i = '\n' then do
    let data ← s.data.store rxBufSize s.j ['\x00']
    let line ← data.string '\x00' rxBufSize 0
    return { s with data, j := 0, analyzed := s.analyzed ++ [line] }
  else do
    let data ← s.data.store rxBufSize s.j [s.rxData i]
    return { s with data, j := if rxBufSize ≤ s.j + 1 then 0 else s.j + 1 }

/-- A turn of the task in which `uart_read_bytes` returns `bytes`. -/
def read (s : UartRx) (bytes : Text) : Option UartRx := do
  let rxData ← s.rxData.store rxBufSize 0 bytes
  let rxBytes := bytes.length
  if 0 < rxBytes then
    let rxData ← rxData.store rxBufSize rxBytes ['\x00']
    forRange byte rxBytes 0 { s with rxData }
  else return { s with rxData }

end UartRx

/-- `uart_rx_task` on the reads. -/
def uartRx (reads : List Text) : Option UartRx := reads.foldlM UartRx.read UartRx.init

/-- The string for which a line is analysed: what the last pass over `data` leaves of it, up to a
NUL. -/
def lineString (line : Text) : Text :=
  (line.drop (rxBufSize * (line.length / rxBufSize))).takeWhile (· ≠ '\x00')

/-- The state after the bytes `stream`: `data` holds the end of the line that is not finished. -/
structure UartRx.After (stream : Text) (s : UartRx) : Prop where
  j : s.j = (unfinished '\n' stream).length % rxBufSize
  data : s.data.Holds 0 ((unfinished '\n' stream).drop
    (rxBufSize * ((unfinished '\n' stream).length / rxBufSize)))
  analyzed : s.analyzed = (finished '\n' stream).map lineString

/-! ### The bytes of a read -/

/-- The cells of a pass over a buffer of `m` cells. -/
theorem length_lastPass {m : Nat} (line : Text) :
    (line.drop (m * (line.length / m))).length = line.length % m := by
  rw [List.length_drop]
  have := Nat.div_add_mod line.length m
  omega

/-- The last pass over the buffer with one more byte. -/
theorem lastPass_snoc {m : Nat} (line : Text) (c : Char) (h : line.length % m + 1 < m) :
    (line ++ [c]).drop (m * ((line ++ [c]).length / m)) =
      line.drop (m * (line.length / m)) ++ [c] := by
  have hdiv : (line.length + 1) / m = line.length / m := by
    rw [Nat.div_eq_iff (by omega)]
    have := Nat.div_add_mod line.length m
    rw [Nat.mul_comm m] at this
    constructor <;> omega
  rw [List.length_append, List.length_singleton, hdiv,
    List.drop_append_of_le_length (Nat.mul_div_le _ _)]

/-- A byte that fills the buffer ends the pass. -/
theorem lastPass_full {m : Nat} (line : Text) (c : Char) (hm : 0 < m)
    (h : line.length % m + 1 = m) :
    (line ++ [c]).drop (m * ((line ++ [c]).length / m)) = [] ∧ (line ++ [c]).length % m = 0 := by
  have hdiv := Nat.div_add_mod line.length m
  have hlen : (line ++ [c]).length = m * (line.length / m + 1) := by
    rw [List.length_append, List.length_singleton, Nat.mul_add]
    omega
  rw [hlen, Nat.mul_div_cancel_left _ hm, ← hlen, List.drop_length]
  exact ⟨rfl, by rw [hlen, Nat.mul_mod_right]⟩

namespace UartRx.After

variable {s : UartRx} {stream : Text}

theorem init : UartRx.After [] UartRx.init :=
  ⟨rfl, Tape.holds_nil, rfl⟩

theorem j_lt (h : s.After stream) : s.j < rxBufSize := by
  rw [h.j]
  exact Nat.mod_lt _ (by decide)

/-- `data` with a string written at `j`. -/
theorem write (h : s.After stream) (t : Text) :
    (s.data.write s.j t).Holds 0 ((unfinished '\n' stream).drop
      (rxBufSize * ((unfinished '\n' stream).length / rxBufSize)) ++ t) := by
  have hwrite := h.data.write_append (t := t)
  rwa [Nat.zero_add, length_lastPass, ← h.j] at hwrite

/-- The end of a line: the string of the line is analysed. -/
theorem newline (h : s.After stream) (i : Nat) (hc : s.rxData i = '\n') :
    ∃ s', UartRx.byte i s = some s' ∧ s'.After (stream ++ ['\n']) ∧ s'.rxData = s.rxData := by
  have hlen := length_lastPass (m := rxBufSize) (unfinished '\n' stream)
  rw [← h.j] at hlen
  have hroom : 0 + ((unfinished '\n' stream).drop
      (rxBufSize * ((unfinished '\n' stream).length / rxBufSize))).length < rxBufSize := by
    rw [Nat.zero_add, hlen]
    exact h.j_lt
  have hstring := (h.write ['\x00']).string_append hroom
  have hstore : s.data.store rxBufSize s.j ['\x00'] = some (s.data.write s.j ['\x00']) :=
    Tape.store_of_le h.j_lt
  rw [UartRx.byte, if_pos hc, hstore]
  dsimp only [Option.bind_eq_bind, Option.bind_some]
  rw [hstring]
  refine ⟨_, rfl, ⟨?_, ?_, ?_⟩, rfl⟩
  · rw [unfinished_sep]
    rfl
  · rw [unfinished_sep]
    exact Tape.holds_nil
  · rw [finished_sep, List.map_append, ← h.analyzed]
    rfl

/-- A byte of a line: it is kept, and the index starts again at the end of the buffer. -/
theorem other (h : s.After stream) (i : Nat) (hc : s.rxData i ≠ '\n') :
    ∃ s', UartRx.byte i s = some s' ∧ s'.After (stream ++ [s.rxData i]) ∧
      s'.rxData = s.rxData := by
  have hstore : s.data.store rxBufSize s.j [s.rxData i] =
      some (s.data.write s.j [s.rxData i]) := Tape.store_of_le h.j_lt
  have hlt := h.j_lt
  rw [UartRx.byte, if_neg hc, hstore]
  refine ⟨_, rfl, ⟨?_, ?_, ?_⟩, rfl⟩
  · rw [unfinished_snoc hc]
    dsimp only
    split
    · have hfull := lastPass_full (unfinished '\n' stream) (s.rxData i) (m := rxBufSize) (by decide)
        (by rw [← h.j]; omega)
      exact hfull.2.symm
    · rw [List.length_append, List.length_singleton, ← Nat.mod_add_mod, ← h.j,
        Nat.mod_eq_of_lt (by omega)]
  · rw [unfinished_snoc hc]
    by_cases hfull : rxBufSize ≤ s.j + 1
    · rw [(lastPass_full (unfinished '\n' stream) (s.rxData i) (by decide)
        (by rw [← h.j]; omega)).1]
      exact Tape.holds_nil
    · rw [lastPass_snoc _ _ (by rw [← h.j]; omega)]
      exact h.write _
  · rw [finished_snoc hc]
    exact h.analyzed

theorem byte (h : s.After stream) (i : Nat) :
    ∃ s', UartRx.byte i s = some s' ∧ s'.After (stream ++ [s.rxData i]) ∧
      s'.rxData = s.rxData := by
  by_cases hc : s.rxData i = '\n'
  · rw [hc]
    exact h.newline i hc
  · exact h.other i hc

/-- A read that leaves room for its terminator in `uart_rx_data`. -/
theorem read (h : s.After stream) {bytes : Text} (hlen : bytes.length < rxBufSize) :
    ∃ s', s.read bytes = some s' ∧ s'.After (stream ++ bytes) := by
  have hstore : s.rxData.store rxBufSize 0 bytes = some (s.rxData.write 0 bytes) :=
    Tape.store_of_le (by omega)
  rw [UartRx.read, hstore]
  dsimp only [Option.bind_eq_bind, Option.bind_some]
  by_cases hpos : 0 < bytes.length
  · have hend : (s.rxData.write 0 bytes).store rxBufSize bytes.length ['\x00'] =
        some ((s.rxData.write 0 bytes).write bytes.length ['\x00']) := Tape.store_of_le hlen
    have hholds : ((s.rxData.write 0 bytes).write bytes.length ['\x00']).Holds 0 bytes :=
      Tape.holds_write.frame fun k _ hk => Tape.write_of_lt (by omega)
    rw [if_pos hpos, hend, Option.bind_some]
    obtain ⟨s', hloop, hs', -⟩ := forRange_keeps (n := bytes.length) (i := 0)
      (I := fun k s' => s'.After (stream ++ bytes.take k) ∧
        s'.rxData = (s.rxData.write 0 bytes).write bytes.length ['\x00'])
      (s := { s with rxData := (s.rxData.write 0 bytes).write bytes.length ['\x00'] })
      ⟨by rw [List.take_zero, List.append_nil]; exact ⟨h.j, h.data, h.analyzed⟩, rfl⟩
      fun k t _ hk hI => by
        obtain ⟨hafter, hdata⟩ := hI
        obtain ⟨t', hbyte, hafter', hdata'⟩ := hafter.byte k
        refine ⟨t', hbyte, ?_, hdata'.trans hdata⟩
        rw [Nat.zero_add] at hk
        have hcell := hholds k bytes[k] (List.getElem?_eq_getElem hk)
        rw [Nat.zero_add, ← hdata] at hcell
        rw [hcell, List.append_assoc] at hafter'
        rwa [← List.take_append_getElem hk]
    rw [Nat.zero_add, List.take_length] at hs'
    exact ⟨s', hloop, hs'⟩
  · obtain rfl : bytes = [] := List.length_eq_zero_iff.mp (by omega)
    rw [if_neg hpos, List.append_nil]
    exact ⟨_, rfl, h.j, h.data, h.analyzed⟩

end UartRx.After

/-- A full read has no room for its terminator. -/
theorem UartRx.read_full (s : UartRx) {bytes : Text} (h : rxBufSize ≤ bytes.length) :
    s.read bytes = none := by
  rw [UartRx.read]
  by_cases hlen : bytes.length = rxBufSize
  · have hpos : 0 < bytes.length := by
      rw [hlen]
      decide
    have hstore : s.rxData.store rxBufSize 0 bytes = some (s.rxData.write 0 bytes) :=
      Tape.store_of_le (by omega)
    have hend : (s.rxData.write 0 bytes).store rxBufSize bytes.length ['\x00'] = none :=
      Tape.store_of_lt (by rw [List.length_singleton]; omega)
    rw [hstore]
    dsimp only [Option.bind_eq_bind, Option.bind_some]
    rw [if_pos hpos, hend]
    rfl
  · rw [Tape.store_of_lt (by omega)]
    rfl

/-! ### Streams -/

theorem uartRx_snoc (reads : List Text) (r : Text) :
    uartRx (reads ++ [r]) = (uartRx reads).bind fun s => s.read r := by
  rw [uartRx, List.foldlM_append]
  simp only [List.foldlM_cons, List.foldlM_nil, bind_pure]
  rfl

theorem uartRx_after (reads : List Text) (h : ∀ r ∈ reads, r.length < rxBufSize) :
    ∃ s, uartRx reads = some s ∧ s.After reads.flatten := by
  induction reads using List.reverseRecOn with
  | nil => exact ⟨_, rfl, UartRx.After.init⟩
  | append_singleton reads r ih =>
    obtain ⟨s, hs, hafter⟩ := ih fun q hq => h q (List.mem_append_left _ hq)
    obtain ⟨s', hread, hafter'⟩ := hafter.read (h r (by simp))
    rw [uartRx_snoc, hs, Option.bind_some, List.flatten_concat]
    exact ⟨s', hread, hafter'⟩

theorem uartRx_short {reads : List Text} {s : UartRx} (h : uartRx reads = some s) :
    ∀ r ∈ reads, r.length < rxBufSize := by
  induction reads using List.reverseRecOn generalizing s with
  | nil => simp
  | append_singleton reads r ih =>
    rw [uartRx_snoc] at h
    obtain ⟨t, ht, hread⟩ := Option.bind_eq_some_iff.mp h
    intro q hq
    rw [List.mem_append, List.mem_singleton] at hq
    obtain hq | rfl := hq
    · exact ih ht q hq
    · by_contra hfull
      rw [t.read_full (by omega)] at hread
      cases hread

theorem lineString_of_short {line : Text} (hlen : line.length < rxBufSize)
    (hnul : '\x00' ∉ line) : lineString line = line := by
  rw [lineString, Nat.div_eq_of_lt hlen, Nat.mul_zero, List.drop_zero, List.takeWhile_eq_self_iff]
  intro c hc
  simpa using fun h : c = '\x00' => hnul (h ▸ hc)

/-- A line is its own string exactly if it fits with its terminator and has no NUL. -/
theorem lineString_eq_iff (line : Text) :
    lineString line = line ↔ line.length < rxBufSize ∧ '\x00' ∉ line := by
  refine ⟨fun h => ?_, fun h => lineString_of_short h.1 h.2⟩
  have hle : (lineString line).length ≤ line.length % rxBufSize := by
    rw [← length_lastPass, lineString]
    exact (List.takeWhile_prefix _).length_le
  rw [h] at hle
  have hlt := Nat.mod_lt line.length (show 0 < rxBufSize by decide)
  have hlen : line.length < rxBufSize := by omega
  rw [lineString, Nat.div_eq_of_lt hlen, Nat.mul_zero, List.drop_zero,
    List.takeWhile_eq_self_iff] at h
  exact ⟨hlen, fun hnul => by simpa using h _ hnul⟩

/-! ### What is published -/

/-- `payload` is published for the line `data`, on a topic for lines. -/
def Published (data payload : Text) : Prop :=
  ∃ lib normal linkButton commandSet commandSet' outs topic,
    uartRxLine lib normal linkButton commandSet data = some (commandSet', outs) ∧
      UartOut.publish topic payload ∈ outs ∧ topic ≠ .msg

theorem mem_publish {normal : Bool} {topic topic' : Topic} {data payload : Text}
    (h : UartOut.publish topic payload ∈ publish normal topic' data) :
    topic = topic' ∧ payload = data := by
  cases normal with
  | false => simp [publish] at h
  | true => simpa [publish] using h

/-- Lines are published as they were analysed. -/
theorem Published.eq {data payload : Text} (h : Published data payload) : payload = data := by
  obtain ⟨lib, normal, linkButton, c, c', outs, topic, hline, hmem, hne⟩ := h
  obtain ⟨⟨action, c''⟩, -, hout⟩ := Option.bind_eq_some_iff.mp hline
  obtain ⟨outs', hlines, heq⟩ := Option.bind_eq_some_iff.mp hout
  obtain ⟨rfl, rfl⟩ := Prod.mk.inj (Option.some.inj heq)
  obtain ⟨report, hreport, hrest⟩ := Option.bind_eq_some_iff.mp hlines
  obtain ⟨info, hinfo, hall⟩ := Option.bind_eq_some_iff.mp hrest
  obtain rfl := Option.some.inj hall
  have on : ∀ (name : String) (topic' : Topic), UartOut.publish topic payload ∈
      (if action.action = name.toList then publish normal topic' data else []) →
      payload = data := by
    intro name topic' hon
    split at hon
    · exact (mem_publish hon).2
    · simp at hon
  simp only [List.mem_append] at hmem
  rcases hmem with (((hmem | hmem) | hmem) | hmem) | hmem
  · rw [reportOutputs] at hreport
    split at hreport
    · split at hreport
      · obtain ⟨event, -, rfl⟩ := Option.map_eq_some_iff.mp hreport
        exact (mem_publish (by simpa using hmem)).2
      · obtain rfl := Option.some.inj hreport
        exact (mem_publish hmem).2
    · obtain rfl := Option.some.inj hreport
      simp at hmem
  · exact on _ _ hmem
  · exact on _ _ hmem
  · exact on _ _ hmem
  · rw [mcuInfoOutputs] at hinfo
    split at hinfo
    · obtain ⟨message, -, rfl⟩ := Option.map_eq_some_iff.mp hinfo
      exact absurd (mem_publish hmem).1 hne
    · obtain rfl := Option.some.inj hinfo
      simp at hmem

/-! ### Writes in bounds and complete lines -/

/-- The task writes inside its buffers, and what it analyses and publishes are complete lines, in
the order of the stream. -/
def OnlyLines (reads : List Text) : Prop :=
  ∃ s, uartRx reads = some s ∧ s.analyzed.Sublist (finished '\n' reads.flatten) ∧
    ∀ data ∈ s.analyzed, ∀ payload, Published data payload →
      payload ∈ finished '\n' reads.flatten

/-- This holds exactly if no read fills `uart_rx_data`, and every complete line fits `data` with
its terminator and has no NUL. -/
theorem onlyLines_iff (reads : List Text) :
    OnlyLines reads ↔ (∀ r ∈ reads, r.length < rxBufSize) ∧
      ∀ line ∈ finished '\n' reads.flatten, line.length < rxBufSize ∧ '\x00' ∉ line := by
  constructor
  · rintro ⟨s, hs, hsub, -⟩
    have hshort := uartRx_short hs
    obtain ⟨t, ht, hafter⟩ := uartRx_after reads hshort
    obtain rfl := Option.some.inj (ht.symm.trans hs)
    refine ⟨hshort, fun line hline => ?_⟩
    rw [hafter.analyzed] at hsub
    have heq := hsub.eq_of_length (by rw [List.length_map])
    have hid : (finished '\n' reads.flatten).map lineString =
        (finished '\n' reads.flatten).map id := by rw [heq, List.map_id]
    exact (lineString_eq_iff line).mp (List.map_inj_left.mp hid line hline)
  · rintro ⟨hshort, hlines⟩
    obtain ⟨s, hs, hafter⟩ := uartRx_after reads hshort
    have heq : s.analyzed = finished '\n' reads.flatten := by
      rw [hafter.analyzed]
      refine (List.map_congr_left fun line hline => ?_).trans (List.map_id _)
      exact (lineString_eq_iff line).mpr (hlines line hline)
    refine ⟨s, hs, by rw [heq], fun data hdata payload hpub => ?_⟩
    rw [hpub.eq, ← heq]
    exact hdata

/-- A read of 1024 bytes: the terminator is written after the end of `uart_rx_data`. -/
theorem not_onlyLines :
    ¬∀ reads : List Text, (∀ r ∈ reads, 1 ≤ r.length ∧ r.length ≤ rxBufSize) →
      OnlyLines reads := by
  intro h
  have hfull := h [List.replicate 1024 'a'] fun r hr => by
    rw [List.mem_singleton] at hr
    rw [hr, List.length_replicate]
    decide
  obtain ⟨s, hs, -⟩ := hfull
  have := uartRx_short hs _ (List.mem_singleton_self _)
  rw [List.length_replicate] at this
  exact absurd this (by decide)

end VhomeBridge.Zigbee
