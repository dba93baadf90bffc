import VhomeBridge.Lib.Run
import VhomeBridge.Lib.Tape

/-! The queue between the MQTT client and the gateway.  `mqtt_event_handler` puts what arrives into
a ring buffer, one item for each event, and `mqtt_handle` takes the items out one by one, writes a
terminator behind each and hands it to the analyser as a C string.  The ring keeps the items one
after another, rounded up to four bytes, each behind a header with its length, so the terminator of
an item with a length divisible by four is written to the length of the item behind it. -/

namespace VhomeBridge.Mqtt

open Lib

abbrev Byte := BitVec 8

/-- The size of the ring, which is also the longest string that lies in it. -/
def ringSize : Nat := 4096

/-- A published message, as the client delivers it: in one event, or in several that each bring
some of it. -/
structure Message where
  pieces : List (List Byte)
  split : pieces = [[]] ∨ (pieces ≠ [] ∧ [] ∉ pieces)
  fits : ∀ piece ∈ pieces, piece.length + 8 ≤ ringSize

def Message.payload (m : Message) : List Byte := m.pieces.flatten

/-- Where `mqtt_handle` stands in its loop: `item` is the address and `size` the length of the item
that it has received. -/
inductive Handler
  | idle
  | received (item size : Nat)
  | terminated (item size : Nat)
  | analysed
  deriving DecidableEq

namespace Handler

/-- The length of the item whose terminator is still to be written. -/
def toTerminate : Handler → Option Nat
  | .received _ size => some size
  | _ => none

/-- The length of the item whose terminator has to last until the analyser has read it. -/
def toAnalyse : Handler → Option Nat
  | .terminated _ size => some size
  | _ => none

end Handler

/-- The ring, of which the memory is a tape that never wraps, the pieces still to come of the
message that is arriving, the state of `mqtt_handle`, and the history: the payloads published and
the texts passed to `JSON_analyze_SUB_MQTT`. -/
structure MqttQueue where
  mem : Tape Byte
  write : Nat
  read : Nat
  waiting : Nat
  incoming : List (List Byte)
  handler : Handler
  published : List (List Byte)
  analysed : List (List Byte)

/-- A message is published, `mqtt_event_handler` is called with its next piece, or `mqtt_handle`
takes its next step. -/
inductive QueueEvent
  | publish (message : Message)
  | data
  | handle

def aligned (n : Nat) : Nat := (n + 3) / 4 * 4

/-- The length, little-endian, and the flags. -/
def header (n : Nat) : List Byte :=
  [BitVec.ofNat 8 n, BitVec.ofNat 8 (n / 256), BitVec.ofNat 8 (n / 65536),
    BitVec.ofNat 8 (n / 16777216), 0, 0, 0, 0]

/-- The length in the header at `pos`. -/
def itemLength (mem : Tape Byte) (pos : Nat) : Nat :=
  (mem pos).toNat + 256 * ((mem (pos + 1)).toNat + 256 * ((mem (pos + 2)).toNat +
    256 * (mem (pos + 3)).toNat))

/-- The `n` items of the ring from `pos` on, as they would be received. -/
def items (mem : Tape Byte) (pos : Nat) : Nat → List (List Byte)
  | 0 => []
  | n + 1 =>
    let size := itemLength mem pos
    mem.read (pos + 8) size :: items mem (pos + 8 + aligned size) n

namespace MqttQueue

/-- `xRingbufferSendFromISR`, with room in the ring. -/
def send (s : MqttQueue) (data : List Byte) : MqttQueue :=
  { s with
    mem := s.mem.write s.write (header data.length ++ data)
    write := s.write + 8 + aligned data.length
    waiting := s.waiting + 1 }

/-- `MQTT_EVENT_DATA`. -/
def eventData (s : MqttQueue) (data : List Byte) : MqttQueue :=
  if data.length > 0 then s.send data else s

/-- `xRingbufferReceiveFromISR` and the test of what it gives. -/
def receive (s : MqttQueue) : MqttQueue :=
  if s.waiting = 0 then s
  else
    let size := itemLength s.mem s.read
    { s with
      read := s.read + 8 + aligned size
      waiting := s.waiting - 1
      handler := if size > 0 then .received (s.read + 8) size else .idle }

/-- The next step of `mqtt_handle`. -/
def mqttHandle (s : MqttQueue) : MqttQueue :=
  match s.handler with
  | .idle => s.receive
  | .received item size =>
    { s with mem := s.mem.write (item + size) [0], handler := .terminated item size }
  | .terminated item _ =>
    { s with analysed := s.analysed ++ [s.mem.readTo 0 item ringSize], handler := .analysed }
  -- `vRingbufferReturnItem`: the item is not read again, and its space is not needed
  | .analysed => { s with handler := .idle }

def step (s : MqttQueue) : QueueEvent → Option MqttQueue
  | .publish m =>
    match s.incoming with
    | [] => some { s with incoming := m.pieces, published := s.published ++ [m.payload] }
    | _ :: _ => none
  | .data =>
    match s.incoming with
    | [] => none
    | piece :: incoming => some { s.eventData piece with incoming := incoming }
  | .handle => some s.mqttHandle

def start (mem : Tape Byte) : MqttQueue := ⟨mem, 0, 0, 0, [], .idle, [], []⟩

/-- The item that `mqtt_handle` has in hand. -/
def inHand (s : MqttQueue) : List (List Byte) :=
  match s.handler with
  | .received item size | .terminated item size => [s.mem.read item size]
  | .idle | .analysed => []

/-- What has been analysed, what is in hand and what is in the ring are the payloads published, in
order, and all of them once the last has arrived. -/
def Exact (s : MqttQueue) : Prop :=
  s.analysed ++ s.inHand ++ items s.mem s.read s.waiting <+: s.published ∧
    (s.incoming = [] → s.analysed ++ s.inHand ++ items s.mem s.read s.waiting = s.published)

/-- Messages come whole, in one event, with some text and no NUL in it.  The terminator of an item
with a length divisible by four is written when the byte behind it is unused or zero already, the
low byte of the length of the item behind, and what arrives before the item is analysed does not
replace it by another. -/
def Spared (s : MqttQueue) : QueueEvent → Prop
  | .publish m => m.pieces.length = 1 ∧ m.payload ≠ [] ∧ 0 ∉ m.payload
  | .data => ∀ size ∈ s.handler.toAnalyse, size % 4 = 0 → s.waiting = 0 →
    ∀ piece ∈ s.incoming.head?, piece.length % 256 = 0
  | .handle => ∀ size ∈ s.handler.toTerminate, size % 4 = 0 → s.waiting ≠ 0 →
    itemLength s.mem s.read % 256 = 0

instance (s : MqttQueue) (e : QueueEvent) : Decidable (s.Spared e) :=
  match e with
  | .publish _ => inferInstanceAs (Decidable (_ ∧ _ ∧ _))
  | .data => inferInstanceAs (Decidable (∀ size ∈ _, _ → _ → ∀ piece ∈ _, _))
  | .handle => inferInstanceAs (Decidable (∀ size ∈ _, _ → _ → _))

end MqttQueue

/-! ### The items in the ring -/

section

variable {mem mem' : Tape Byte} {pos stop : Nat} {data : List Byte} {ds : List (List Byte)}

/-- The items `ds` lie from `pos` to `stop`, each behind its header. -/
def Layout (mem : Tape Byte) : Nat → List (List Byte) → Nat → Prop
  | pos, [], stop => pos = stop
  | pos, data :: ds, stop =>
    mem.Holds pos (header data.length ++ data) ∧
      Layout mem (pos + 8 + aligned data.length) ds stop

theorem le_aligned (n : Nat) : n ≤ aligned n := by
  unfold aligned
  omega

theorem aligned_eq {n : Nat} (h : n % 4 = 0) : aligned n = n := by
  unfold aligned
  omega

theorem lt_aligned {n : Nat} (h : n % 4 ≠ 0) : n < aligned n := by
  unfold aligned
  omega

theorem Layout.le (h : Layout mem pos ds stop) : pos ≤ stop := by
  induction ds generalizing pos with
  | nil => exact Nat.le_of_eq h
  | cons data ds ih =>
    have := ih h.2
    omega

theorem Layout.lt (h : Layout mem pos ds stop) (hds : ds ≠ []) : pos < stop := by
  obtain ⟨data, ds, rfl⟩ := List.exists_cons_of_ne_nil hds
  have := h.2.le
  omega

/-- Items stay where the memory that they lie in stays. -/
theorem Layout.frame (h : Layout mem pos ds stop)
    (same : ∀ k, pos ≤ k → k < stop → mem' k = mem k) : Layout mem' pos ds stop := by
  induction ds generalizing pos with
  | nil => exact h
  | cons data ds ih =>
    have hle := h.2.le
    have hdata := le_aligned data.length
    refine ⟨h.1.frame fun k hlow hhigh => ?_, ih h.2 fun k hlow hhigh => ?_⟩
    · simp only [List.length_append, header, List.length_cons, List.length_nil] at hhigh
      exact same k hlow (by omega)
    · exact same k (by omega) hhigh

theorem Layout.snoc (h : Layout mem pos ds stop)
    (hdata : mem.Holds stop (header data.length ++ data)) :
    Layout mem pos (ds ++ [data]) (stop + 8 + aligned data.length) := by
  induction ds generalizing pos with
  | nil =>
    obtain rfl := h
    exact ⟨hdata, rfl⟩
  | cons _ ds ih => exact ⟨h.1, ih h.2⟩

theorem itemLength_eq (h : mem.Holds pos (header data.length ++ data))
    (hfits : data.length + 8 ≤ ringSize) : itemLength mem pos = data.length := by
  unfold ringSize at hfits
  simp only [header, List.cons_append, Tape.holds_cons, Nat.add_assoc, Nat.reduceAdd] at h
  obtain ⟨h0, h1, h2, h3, -⟩ := h
  simp only [itemLength, h0, h1, h2, h3, BitVec.toNat_ofNat]
  omega

theorem holds_data (h : mem.Holds pos (header data.length ++ data)) :
    mem.Holds (pos + 8) data :=
  (Tape.holds_append.mp h).2

theorem Layout.items_eq (h : Layout mem pos ds stop)
    (hfits : ∀ data ∈ ds, data.length + 8 ≤ ringSize) : items mem pos ds.length = ds := by
  induction ds generalizing pos with
  | nil => rfl
  | cons data ds ih =>
    have hsize := itemLength_eq h.1 (hfits data (by simp))
    simp only [List.length_cons, items, hsize]
    rw [(holds_data h.1).read, ih h.2 fun data hdata => hfits data (by simp [hdata])]

/-- The low byte of the length of the next item. -/
theorem itemLength_mod (mem : Tape Byte) (pos : Nat) (h : itemLength mem pos % 256 = 0) :
    mem pos = 0 := by
  have hlt := (mem pos).isLt
  apply BitVec.eq_of_toNat_eq
  simp only [itemLength] at h
  show (mem pos).toNat = 0
  omega

end

/-! ### One event -/

/-- A payload that survives as a C string in the ring. -/
structure Clean (data : List Byte) : Prop where
  nonempty : data ≠ []
  noNul : 0 ∉ data
  fits : data.length + 8 ≤ ringSize

/-- The item in hand lies before the items in the ring. -/
structure InHand (mem : Tape Byte) (read item size : Nat) (data : List Byte) : Prop where
  clean : Clean data
  size : size = data.length
  holds : mem.Holds item data
  next : read = item + aligned data.length

theorem InHand.frame {mem mem' : Tape Byte} {read item size : Nat}
    {data : List Byte} (h : InHand mem read item size data)
    (same : ∀ k < read, mem' k = mem k) : InHand mem' read item size data := by
  refine ⟨h.clean, h.size, h.holds.frame fun k _ hhigh => same k ?_, h.next⟩
  have := le_aligned data.length
  have := h.next
  omega

namespace MqttQueue

variable {s t : MqttQueue} {held queued : List (List Byte)} {data : List Byte}
  {item size : Nat}

/-- `held` is the item in hand, with its terminator if that has been written. -/
def Holding (s : MqttQueue) (held : List (List Byte)) : Prop :=
  match s.handler with
  | .idle | .analysed => held = []
  | .received item size => ∃ data, held = [data] ∧ InHand s.mem s.read item size data
  | .terminated item size =>
    ∃ data, held = [data] ∧ InHand s.mem s.read item size data ∧ s.mem (item + size) = 0

/-- The payloads published are those analysed, that in hand, those in the ring, and the one that is
arriving. -/
structure Ledger (s : MqttQueue) (held queued : List (List Byte)) : Prop where
  layout : Layout s.mem s.read queued s.write
  waiting : s.waiting = queued.length
  holding : s.Holding held
  clean : ∀ data ∈ queued ++ s.incoming, Clean data
  single : s.incoming.length ≤ 1
  published : s.analysed ++ held ++ queued ++ s.incoming = s.published

theorem start_ledger (mem : Tape Byte) : (start mem).Ledger [] [] where
  layout := rfl
  waiting := rfl
  holding := rfl
  clean := by simp [start]
  single := by simp [start]
  published := rfl

theorem Ledger.inHand (h : s.Ledger held queued) : s.inHand = held := by
  have hholding := h.holding
  unfold Holding at hholding
  unfold MqttQueue.inHand
  cases hhandler : s.handler with
  | idle | analysed =>
    rw [hhandler] at hholding
    exact hholding.symm
  | received item size =>
    rw [hhandler] at hholding
    obtain ⟨data, rfl, hdata⟩ := hholding
    simp only [hdata.size, hdata.holds.read]
  | terminated item size =>
    rw [hhandler] at hholding
    obtain ⟨data, rfl, hdata, -⟩ := hholding
    simp only [hdata.size, hdata.holds.read]

theorem Ledger.exact (h : s.Ledger held queued) : s.Exact := by
  have hitems : items s.mem s.read s.waiting = queued := by
    rw [h.waiting]
    exact h.layout.items_eq fun data hdata => (h.clean data (by simp [hdata])).fits
  rw [Exact, hitems, h.inHand, ← h.published]
  refine ⟨List.prefix_append _ _, fun hnone => ?_⟩
  rw [hnone, List.append_nil]

/-- A message starts to arrive. -/
theorem Ledger.publish (h : s.Ledger held queued) {m : Message} (hnone : s.incoming = [])
    (hone : m.pieces.length = 1) (hnonempty : m.payload ≠ []) (hnul : 0 ∉ m.payload) :
    { s with incoming := m.pieces, published := s.published ++ [m.payload] }.Ledger
      held queued := by
  obtain ⟨data, hpieces⟩ := List.length_eq_one_iff.mp hone
  have hpayload : m.payload = data := by simp [Message.payload, hpieces]
  have hfits := m.fits data (by simp [hpieces])
  have hpublished := h.published
  rw [hnone, List.append_nil] at hpublished
  refine ⟨h.layout, h.waiting, h.holding, fun d hd => ?_, by simp [hpieces], ?_⟩
  · rcases List.mem_append.mp hd with hd | hd
    · exact h.clean d (List.mem_append_left _ hd)
    · obtain rfl : d = data := by simpa [hpieces] using hd
      exact ⟨hpayload ▸ hnonempty, hpayload ▸ hnul, hfits⟩
  · simp only [hpieces, hpayload, hpublished]

/-- The piece arrives, which is a whole message. -/
theorem Ledger.eventData (h : s.Ledger held queued) {piece : List Byte}
    {incoming : List (List Byte)} (hincoming : s.incoming = piece :: incoming)
    (hspared : ∀ item size, s.handler = .terminated item size → size % 4 = 0 → s.waiting = 0 →
      piece.length % 256 = 0) :
    { s.eventData piece with incoming := incoming }.Ledger held (queued ++ [piece]) := by
  have hsingle := h.single
  rw [hincoming, List.length_cons] at hsingle
  obtain rfl : incoming = [] := List.length_eq_zero_iff.mp (by omega)
  have hclean : Clean piece := h.clean piece (by simp [hincoming])
  have hpos := List.length_pos_iff.mpr hclean.nonempty
  have hread := h.layout.le
  have hbelow (k : Nat) (hk : k < s.write) :
      s.mem.write s.write (header piece.length ++ piece) k = s.mem k := Tape.write_of_lt hk
  rw [MqttQueue.eventData, if_pos hpos, send]
  refine ⟨?_, ?_, ?_, ?_, by simp, ?_⟩
  · exact (h.layout.frame fun k _ hk => hbelow k hk).snoc Tape.holds_write
  · simp [h.waiting]
  · have hholding := h.holding
    unfold Holding at hholding ⊢
    cases hhandler : s.handler with
    | idle | analysed =>
      rw [hhandler] at hholding
      exact hholding
    | received item size =>
      rw [hhandler] at hholding
      obtain ⟨data, rfl, hdata⟩ := hholding
      exact ⟨data, rfl, hdata.frame fun k hk => hbelow k (by omega)⟩
    | terminated item size =>
      rw [hhandler] at hholding
      obtain ⟨data, rfl, hdata, hzero⟩ := hholding
      refine ⟨data, rfl, hdata.frame fun k hk => hbelow k (by omega), ?_⟩
      have hsize := hdata.size
      have hnext := hdata.next
      -- the terminator lies in front of what is written, or at its first byte
      by_cases hlt : item + size < s.write
      · exact (hbelow _ hlt).trans hzero
      · have hge := le_aligned data.length
        have hsize4 : data.length % 4 = 0 := by
          by_contra hne
          have := lt_aligned hne
          omega
        have hqueued : queued = [] := by
          by_contra hne
          have := h.layout.lt hne
          omega
        have hlow := hspared item size hhandler (hsize ▸ hsize4) (by simp [h.waiting, hqueued])
        have haddr : item + size = s.write := by omega
        have hcell : s.mem.write s.write (header piece.length ++ piece) s.write =
            BitVec.ofNat 8 piece.length := (Tape.holds_cons.mp Tape.holds_write).1
        have hbyte : BitVec.ofNat 8 piece.length = 0 := BitVec.eq_of_toNat_eq (by simpa using hlow)
        rw [haddr]
        exact hcell.trans hbyte
  · intro d hd
    apply h.clean d
    simpa [hincoming, or_assoc] using hd
  · rw [← h.published, hincoming]
    simp

/-- `mqtt_handle` looks for an item. -/
theorem Ledger.receive (h : s.Ledger held queued) (hidle : s.handler = .idle) :
    ∃ held' queued', s.receive.Ledger held' queued' := by
  have hheld : held = [] := by
    have hholding := h.holding
    rwa [Holding, hidle] at hholding
  unfold MqttQueue.receive
  cases queued with
  | nil =>
    have hnone : s.waiting = 0 := h.waiting
    rw [if_pos hnone]
    exact ⟨held, [], h⟩
  | cons data queued =>
    have hwaiting : s.waiting ≠ 0 := by simp [h.waiting]
    obtain ⟨hdata, hrest⟩ := h.layout
    have hclean : Clean data := h.clean data (by simp)
    have hsize := itemLength_eq hdata hclean.fits
    have hpos := List.length_pos_iff.mpr hclean.nonempty
    rw [if_neg hwaiting]
    simp only [hsize, if_pos hpos]
    refine ⟨[data], queued, hrest, by simp [h.waiting], ?_, fun d hd => ?_, h.single, ?_⟩
    · exact ⟨data, rfl, hclean, rfl, holds_data hdata, rfl⟩
    · exact h.clean d (by simpa using Or.inr (by simpa using hd))
    · rw [← h.published, hheld]
      simp

/-- The terminator is written behind the item in hand. -/
theorem Ledger.terminate (h : s.Ledger held queued) (hreceived : s.handler = .received item size)
    (hspared : size % 4 = 0 → s.waiting ≠ 0 → itemLength s.mem s.read % 256 = 0) :
    { s with mem := s.mem.write (item + size) [0], handler := .terminated item size }.Ledger
      held queued := by
  have hholding := h.holding
  rw [Holding, hreceived] at hholding
  obtain ⟨data, rfl, hdata⟩ := hholding
  have hsize := hdata.size
  have hnext := hdata.next
  have hge := le_aligned data.length
  have hzero : s.mem.write (item + size) [0] (item + size) = 0 :=
    (Tape.holds_cons.mp Tape.holds_write).1
  -- no byte of the ring changes
  have hring (k : Nat) (hlow : s.read ≤ k) (hhigh : k < s.write) :
      s.mem.write (item + size) [0] k = s.mem k := by
    by_cases haddr : k = item + size
    · have hsize4 : data.length % 4 = 0 := by
        by_contra hne
        have := lt_aligned hne
        omega
      have hwaiting : s.waiting ≠ 0 := by
        intro hnone
        have hqueued : queued = [] := List.length_eq_zero_iff.mp (h.waiting.symm.trans hnone)
        have hstop : s.read = s.write := by
          have hlayout := h.layout
          rwa [hqueued] at hlayout
        omega
      have hread := itemLength_mod s.mem s.read (hspared (hsize ▸ hsize4) hwaiting)
      have haddr' : item + size = s.read := by
        have := aligned_eq hsize4
        omega
      rw [haddr, hzero, haddr', hread]
    · exact Tape.write_outside (by simp only [List.length_singleton]; omega)
  refine ⟨h.layout.frame hring, h.waiting, ?_, h.clean, h.single, h.published⟩
  refine ⟨data, rfl, ⟨hdata.clean, hsize, hdata.holds.frame fun k _ hhigh => ?_, hnext⟩, hzero⟩
  exact Tape.write_of_lt (by omega)

/-- The text that the analyser reads is the item in hand. -/
theorem Ledger.analyse (h : s.Ledger held queued)
    (hterminated : s.handler = .terminated item size) :
    { s with
      analysed := s.analysed ++ [s.mem.readTo 0 item ringSize], handler := .analysed }.Ledger
      [] queued := by
  have hholding := h.holding
  rw [Holding, hterminated] at hholding
  obtain ⟨data, rfl, hdata, hzero⟩ := hholding
  rw [hdata.size] at hzero
  have hfits := hdata.clean.fits
  rw [hdata.holds.readTo hzero hdata.clean.noNul (by omega)]
  refine ⟨h.layout, h.waiting, rfl, h.clean, h.single, ?_⟩
  rw [← h.published]
  simp

theorem Ledger.handle (h : s.Ledger held queued) (hspared : s.Spared .handle) :
    ∃ held' queued', s.mqttHandle.Ledger held' queued' := by
  unfold mqttHandle
  cases hhandler : s.handler with
  | idle => exact h.receive hhandler
  | received item size =>
    exact ⟨held, queued,
      h.terminate hhandler (hspared size (by simp [Handler.toTerminate, hhandler]))⟩
  | terminated item size => exact ⟨[], queued, h.analyse hhandler⟩
  | analysed =>
    have hheld : held = [] := by
      have hholding := h.holding
      rwa [Holding, hhandler] at hholding
    exact ⟨[], queued, h.layout, h.waiting, rfl, h.clean, h.single, hheld ▸ h.published⟩

theorem step_ledger {e : QueueEvent} (h : ∃ held queued, s.Ledger held queued)
    (hstep : s.step e = some t) (hspared : s.Spared e) :
    ∃ held queued, t.Ledger held queued := by
  obtain ⟨held, queued, h⟩ := h
  cases e with
  | publish m =>
    cases hincoming : s.incoming with
    | nil =>
      obtain rfl : _ = t := by simpa only [step, hincoming, Option.some.injEq] using hstep
      exact ⟨held, queued, h.publish hincoming hspared.1 hspared.2.1 hspared.2.2⟩
    | cons piece incoming => simp [step, hincoming] at hstep
  | data =>
    cases hincoming : s.incoming with
    | nil => simp [step, hincoming] at hstep
    | cons piece incoming =>
      obtain rfl : _ = t := by simpa only [step, hincoming, Option.some.injEq] using hstep
      refine ⟨held, queued ++ [piece], h.eventData hincoming fun item size hhandler h4 hnone => ?_⟩
      exact hspared size (by simp [Handler.toAnalyse, hhandler]) h4 hnone piece
        (by simp [hincoming])
  | handle =>
    obtain rfl : _ = t := by simpa only [step, Option.some.injEq] using hstep
    exact h.handle hspared

/-- In every run that spares the terminators, the texts analysed are the payloads published. -/
theorem exact_of_spared (mem : Tape Byte) (es : List QueueEvent) (s : MqttQueue)
    (run : Run (Guarded (Steps step) Spared) (start mem) es s) : s.Exact := by
  obtain ⟨held, queued, h⟩ := run.invariant
    (I := fun s => ∃ held queued, Ledger s held queued) ⟨[], [], start_ledger mem⟩
    fun _ _ _ h hstep => step_ledger h hstep.1 hstep.2
  exact h.exact

def bytes (text : String) : List Byte := text.toList.map fun c => BitVec.ofNat 8 c.toNat

theorem bytes_length (text : String) : (bytes text).length = text.length := by
  rw [bytes, List.length_map, String.length_toList]

/-- A text delivered in one event. -/
def whole (text : String) (h : 0 < text.length ∧ text.length + 8 ≤ ringSize) : Message where
  pieces := [bytes text]
  split := by
    have hne : bytes text ≠ [] := by
      rw [← List.length_pos_iff, bytes_length]
      exact h.1
    exact .inr ⟨by simp, by simpa using hne.symm⟩
  fits := by simpa [bytes_length] using h.2

/-- A text of four bytes on its own, then one of five bytes with one of four behind it. -/
def inTurn : List QueueEvent :=
  [.publish (whole "null" (by decide)), .data, .handle, .handle, .handle,
    .publish (whole "false" (by decide)), .data, .publish (whole "true" (by decide)), .data] ++
    List.replicate 9 .handle

theorem exact_of_spared_inTurn :
    ∃ s, Run (Guarded (Steps step) Spared) (start fun _ => 0) inTurn s ∧
      s.analysed.length = 3 ∧ s.Exact := by
  have hexec : (exec (restrict step fun s e => decide (s.Spared e)) (start fun _ => 0) inTurn).map
      (fun s => s.analysed.length) = some 3 := by decide +kernel
  obtain ⟨s, hs, hlength⟩ := Option.map_eq_some_iff.mp hexec
  have run := Run.of_exec_restrict (G := Spared) (fun _ _ => of_decide_eq_true) hs
  exact ⟨s, run, hlength, exact_of_spared _ _ s run⟩

/-- Twenty bytes. -/
def bleopenMessage : Message := whole "\x7b\"action\":\"bleopen\"\x7d" (by decide)

/-- Eighteen bytes. -/
def closeMessage : Message := whole "\x7b\"action\":\"close\"\x7d" (by decide)

/-- Both messages arrive before the first is received.  Four steps take the first from the ring to
the analyser and back, and the fifth receives the second. -/
def bothQueued : List QueueEvent :=
  [.publish bleopenMessage, .data, .publish closeMessage, .data] ++ List.replicate 5 .handle

/-- The second message is received with the length zero. -/
theorem second_lost :
    ∃ s, Run (Steps step) (start fun _ => 0) bothQueued s ∧ s.handler = .idle ∧ s.waiting = 0 ∧
      s.analysed = [bleopenMessage.payload] ∧ ¬ s.Exact := by
  have hexec : (exec step (start fun _ => 0) bothQueued).map (fun s =>
      (s.handler, s.waiting, s.analysed, s.incoming)) =
        some (.idle, 0, [bleopenMessage.payload], []) := by decide +kernel
  obtain ⟨s, hs, hend⟩ := Option.map_eq_some_iff.mp hexec
  simp only [Prod.mk.injEq] at hend
  obtain ⟨hidle, hwaiting, hanalysed, hincoming⟩ := hend
  refine ⟨s, Run.of_exec hs, hidle, hwaiting, hanalysed, fun hexact => ?_⟩
  have hpublished : s.published.length = 2 := by
    have hlength : (exec step (start fun _ => 0) bothQueued).map (fun s => s.published.length) =
        some 2 := by decide +kernel
    rw [hs] at hlength
    exact Option.some.inj hlength
  have hall := hexact.2 hincoming
  rw [hanalysed, hwaiting, inHand, hidle] at hall
  rw [← hall] at hpublished
  simp [items] at hpublished

end MqttQueue

end VhomeBridge.Mqtt
