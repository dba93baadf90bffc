import VhomeBridge.Button
import VhomeBridge.Lib.Session

/-! The debouncing of the button pins.  `button_debounce_task` samples each pin every 10 ms, looks
for an edge in the last sixteen samples, and sends what it takes for a press, a long press and a
release to the queue. -/

namespace VhomeBridge

open Lib

/-- `BUTTON_UP`. -/
def buttonUp : BitVec 8 := 2

/-- `BUTTON_HELD`. -/
def buttonHeld : BitVec 8 := 3

/-- `CONFIG_ESP32_BUTTON_LONG_PRESS_DURATION_MS`. -/
def longPressDuration : BitVec 32 := 2000

/-- `CONFIG_ESP32_BUTTON_LONG_PRESS_REPEAT_MS`. -/
def longPressRepeat : BitVec 32 := 50

/-- `debounce_t`. -/
structure Debounce where
  pin : BitVec 8
  inverted : Bool
  history : BitVec 16
  downTime : BitVec 32
  nextLongTime : BitVec 32
  deriving DecidableEq

/-- What a turn of the loop reads for a pin: its level, and `millis` at the test for a long press
and at a press.  The clock has left 0. -/
structure Sample where
  level : Bool
  longTime : BitVec 32
  downTime : BitVec 32
  started : downTime ≠ 0

/-- `MASK`. -/
def mask : BitVec 16 := 0b1111000000111111

/-- The history with a new sample. -/
def shiftIn (history : BitVec 16) (level : Bool) : BitVec 16 :=
  (history <<< 1) ||| (BitVec.ofBool level).setWidth 16

namespace Debounce

def updateButton (d : Debounce) (level : Bool) : Debounce :=
  { d with history := shiftIn d.history level }

def buttonRose (d : Debounce) : Bool × Debounce :=
  if d.history &&& mask = 0b0000000000111111 then (true, { d with history := 0xffff })
  else (false, d)

def buttonFell (d : Debounce) : Bool × Debounce :=
  if d.history &&& mask = 0b1111000000000000 then (true, { d with history := 0x0000 })
  else (false, d)

def buttonDown (d : Debounce) : Bool × Debounce :=
  if d.inverted then d.buttonFell else d.buttonRose

def buttonUp (d : Debounce) : Bool × Debounce :=
  if d.inverted then d.buttonRose else d.buttonFell

/-- The body of the loop of `button_debounce_task` for an entry of `debounce`, and the event it
sends. -/
def poll (d : Debounce) (r : Sample) : Debounce × Option ButtonEvent :=
  let up := (d.updateButton r.level).buttonUp
  let d := up.2
  if up.1 then ({ d with downTime := 0 }, some ⟨d.pin, VhomeBridge.buttonUp⟩)
  else if d.downTime ≠ 0 ∧ d.nextLongTime ≤ r.longTime then
    ({ d with nextLongTime := d.nextLongTime + longPressRepeat }, some ⟨d.pin, buttonHeld⟩)
  else
    -- the history is rewritten also where the button is down already
    let down := d.buttonDown
    let d := down.2
    if down.1 ∧ d.downTime = 0 then
      ({ d with downTime := r.downTime, nextLongTime := r.downTime + longPressDuration },
        some ⟨d.pin, VhomeBridge.buttonDown⟩)
    else (d, none)

end Debounce

/-- The entries that `pulled_button_init` makes for the pins it is given. -/
def pulledButtonInit (pinSelect : BitVec 64) : List Debounce :=
  ((List.range 40).filter fun pin => (1#64 <<< pin) &&& pinSelect ≠ 0).map fun pin =>
    ⟨BitVec.ofNat 8 pin, true, 0xffff, 0, 0⟩

/-- A turn of `button_debounce_task`: every entry is polled, in order. -/
def debounceTurn (debounce : List Debounce) (samples : BitVec 8 → Sample) :
    List Debounce × List ButtonEvent :=
  (debounce.map fun d => (d.poll (samples d.pin)).1,
    debounce.filterMap fun d => (d.poll (samples d.pin)).2)

/-- `button_debounce_task`: the entries after some turns, and the events sent. -/
def debounceTask (debounce : List Debounce) (turns : List (BitVec 8 → Sample)) :
    List Debounce × List ButtonEvent :=
  turns.foldl (fun s samples =>
    ((debounceTurn s.1 samples).1, s.2 ++ (debounceTurn s.1 samples).2)) (debounce, [])

/-- The events sent for a pin. -/
def eventsOf (pin : BitVec 8) (events : List ButtonEvent) : List ButtonEvent :=
  events.filter fun e => decide (e.pin = pin)

/-- What an event says of the button. -/
def ButtonEvent.mark (e : ButtonEvent) : Mark :=
  if e.event = buttonDown then .opens else if e.event = buttonUp then .closes else .inside

@[simp] theorem ButtonEvent.mark_down (pin : BitVec 8) :
    (ButtonEvent.mk pin buttonDown).mark = .opens := rfl

@[simp] theorem ButtonEvent.mark_up (pin : BitVec 8) :
    (ButtonEvent.mk pin buttonUp).mark = .closes := rfl

@[simp] theorem ButtonEvent.mark_held (pin : BitVec 8) :
    (ButtonEvent.mk pin buttonHeld).mark = .inside := rfl

/-! ### One poll -/

namespace Debounce

/-- The button counts as down. -/
def isDown (d : Debounce) : Bool := decide (d.downTime ≠ 0)

/-- The last samples make the poll send `BUTTON_UP`. -/
def Rises (d : Debounce) (r : Sample) : Prop := (d.updateButton r.level).buttonUp.1 = true

theorem rises_iff {d : Debounce} {r : Sample} (h : d.inverted = true) :
    d.Rises r ↔ shiftIn d.history r.level &&& mask = 0b0000000000111111 := by
  rw [Rises, buttonUp, updateButton, if_pos h, buttonRose]
  split <;> simp_all

theorem buttonRose_history (d : Debounce) : ∃ h, d.buttonRose.2 = { d with history := h } := by
  rw [buttonRose]
  split
  · exact ⟨0xffff, rfl⟩
  · exact ⟨d.history, rfl⟩

theorem buttonFell_history (d : Debounce) : ∃ h, d.buttonFell.2 = { d with history := h } := by
  rw [buttonFell]
  split
  · exact ⟨0x0000, rfl⟩
  · exact ⟨d.history, rfl⟩

theorem buttonUp_history (d : Debounce) : ∃ h, d.buttonUp.2 = { d with history := h } := by
  rw [buttonUp]
  split
  · exact d.buttonRose_history
  · exact d.buttonFell_history

theorem buttonDown_history (d : Debounce) : ∃ h, d.buttonDown.2 = { d with history := h } := by
  rw [buttonDown]
  split
  · exact d.buttonFell_history
  · exact d.buttonRose_history

/-- What a poll does, but for the history. -/
theorem poll_cases (d : Debounce) (r : Sample) : ∃ h,
    (d.Rises r ∧
      d.poll r = ({ d with history := h, downTime := 0 }, some ⟨d.pin, VhomeBridge.buttonUp⟩)) ∨
    (¬d.Rises r ∧ d.downTime ≠ 0 ∧
      d.poll r = ({ d with history := h, nextLongTime := d.nextLongTime + longPressRepeat },
        some ⟨d.pin, buttonHeld⟩)) ∨
    (¬d.Rises r ∧ d.downTime = 0 ∧
      d.poll r = (⟨d.pin, d.inverted, h, r.downTime, r.downTime + longPressDuration⟩,
        some ⟨d.pin, VhomeBridge.buttonDown⟩)) ∨
    (¬d.Rises r ∧ d.poll r = ({ d with history := h }, none)) := by
  obtain ⟨h, hup⟩ := (d.updateButton r.level).buttonUp_history
  rw [poll]
  dsimp only
  by_cases hrises : (d.updateButton r.level).buttonUp.1 = true
  · rw [if_pos hrises, hup]
    exact ⟨h, .inl ⟨hrises, rfl⟩⟩
  · rw [if_neg hrises, hup]
    by_cases hlong : d.downTime ≠ 0 ∧ d.nextLongTime ≤ r.longTime
    · exact ⟨h, .inr (.inl ⟨hrises, hlong.1, if_pos hlong⟩)⟩
    · obtain ⟨h', hdown⟩ := buttonDown_history { d with history := h }
      rw [updateButton, if_neg hlong, hdown]
      dsimp only
      split
      · rename_i hpress
        exact ⟨h', .inr (.inr (.inl ⟨hrises, hpress.2, rfl⟩))⟩
      · exact ⟨h', .inr (.inr (.inr ⟨hrises, rfl⟩))⟩

theorem poll_frame (d : Debounce) (r : Sample) :
    (d.poll r).1.pin = d.pin ∧ (d.poll r).1.inverted = d.inverted := by
  obtain ⟨h, ⟨-, hpoll⟩ | ⟨-, -, hpoll⟩ | ⟨-, -, hpoll⟩ | ⟨-, hpoll⟩⟩ := d.poll_cases r <;>
    rw [hpoll] <;> exact ⟨rfl, rfl⟩

/-- An event is sent for the pin that was polled. -/
theorem poll_event {d : Debounce} {r : Sample} {e : ButtonEvent} (he : (d.poll r).2 = some e) :
    e.pin = d.pin := by
  obtain ⟨h, ⟨-, hpoll⟩ | ⟨-, -, hpoll⟩ | ⟨-, -, hpoll⟩ | ⟨-, hpoll⟩⟩ := d.poll_cases r <;>
    rw [hpoll] at he
  · exact (Option.some.inj he) ▸ rfl
  · exact (Option.some.inj he) ▸ rfl
  · exact (Option.some.inj he) ▸ rfl
  · cases he

/-- A poll with the mark of its event. -/
def pollMark (d : Debounce) (r : Sample) : Debounce × Option Mark :=
  ((d.poll r).1, (d.poll r).2.map ButtonEvent.mark)

/-- Whether the button counts as down follows the events. -/
theorem isDown_pollMark (d : Debounce) (r : Sample) :
    (d.pollMark r).1.isDown = (d.pollMark r).2.elim d.isDown fun m => m.after d.isDown := by
  obtain ⟨h, ⟨-, hpoll⟩ | ⟨-, -, hpoll⟩ | ⟨-, -, hpoll⟩ | ⟨-, hpoll⟩⟩ := d.poll_cases r <;>
    rw [pollMark, hpoll]
  · rfl
  · rfl
  · exact decide_eq_true r.started
  · rfl

/-- A press and a long press are sent where they are allowed, and so is a release while the button
counts as down. -/
theorem allowed_pollMark (d : Debounce) (r : Sample) :
    (∀ m, (d.pollMark r).2 = some m → m.Allowed d.isDown) ↔ ¬(d.downTime = 0 ∧ d.Rises r) := by
  obtain ⟨h, ⟨hrises, hpoll⟩ | ⟨hrises, hdown, hpoll⟩ | ⟨hrises, hdown, hpoll⟩ | ⟨hrises, hpoll⟩⟩ :=
    d.poll_cases r <;> rw [pollMark, hpoll]
  · simp [hrises, Mark.Allowed, isDown]
  · simpa [hrises, Mark.Allowed, isDown] using hdown
  · simp [hrises, hdown, Mark.Allowed, isDown]
  · simp [hrises]

end Debounce

/-! ### The task -/

theorem debounceTask_snoc (debounce : List Debounce) (turns : List (BitVec 8 → Sample))
    (samples : BitVec 8 → Sample) :
    debounceTask debounce (turns ++ [samples]) =
      ((debounceTurn (debounceTask debounce turns).1 samples).1,
        (debounceTask debounce turns).2 ++
          (debounceTurn (debounceTask debounce turns).1 samples).2) := by
  rw [debounceTask, List.foldl_append]
  rfl

/-- What the task makes of one entry: the polls of its pin. -/
def Debounce.run (d : Debounce) (turns : List (BitVec 8 → Sample)) : Debounce × List Mark :=
  emits (fun d samples => d.pollMark (samples d.pin)) d turns

theorem Debounce.run_snoc (d : Debounce) (turns : List (BitVec 8 → Sample))
    (samples : BitVec 8 → Sample) :
    d.run (turns ++ [samples]) =
      (((d.run turns).1.pollMark (samples (d.run turns).1.pin)).1,
        (d.run turns).2 ++ ((d.run turns).1.pollMark (samples (d.run turns).1.pin)).2.toList) :=
  emits_snoc ..

theorem Debounce.run_frame (d : Debounce) (turns : List (BitVec 8 → Sample)) :
    (d.run turns).1.pin = d.pin ∧ (d.run turns).1.inverted = d.inverted := by
  induction turns using List.reverseRecOn with
  | nil => exact ⟨rfl, rfl⟩
  | append_singleton turns samples ih =>
    obtain ⟨hpin, hinverted⟩ := (d.run turns).1.poll_frame (samples (d.run turns).1.pin)
    rw [run_snoc, pollMark]
    exact ⟨hpin.trans ih.1, hinverted.trans ih.2⟩

theorem Debounce.run_pin (d : Debounce) (turns : List (BitVec 8 → Sample)) :
    (d.run turns).1.pin = d.pin := (d.run_frame turns).1

theorem debounceTask_entries (debounce : List Debounce) (turns : List (BitVec 8 → Sample)) :
    (debounceTask debounce turns).1 = debounce.map fun d => (d.run turns).1 := by
  induction turns using List.reverseRecOn with
  | nil => exact (List.map_id' debounce).symm
  | append_singleton turns samples ih =>
    rw [debounceTask_snoc, debounceTurn, ih, List.map_map]
    refine List.map_congr_left fun d _ => ?_
    rw [Debounce.run_snoc]
    rfl

theorem eventsOf_append (pin : BitVec 8) (xs ys : List ButtonEvent) :
    eventsOf pin (xs ++ ys) = eventsOf pin xs ++ eventsOf pin ys := List.filter_append ..

/-- The entries for a pin. -/
def entriesOf (pin : BitVec 8) (debounce : List Debounce) : List Debounce :=
  debounce.filter fun d => decide (d.pin = pin)

/-- The events for a pin come from its entries. -/
theorem eventsOf_filterMap {f : Debounce → Option ButtonEvent}
    (hf : ∀ d e, f d = some e → e.pin = d.pin) (pin : BitVec 8) (debounce : List Debounce) :
    eventsOf pin (debounce.filterMap f) = (entriesOf pin debounce).filterMap f := by
  induction debounce with
  | nil => rfl
  | cons d debounce ih =>
    rw [eventsOf, entriesOf] at ih ⊢
    by_cases hpin : d.pin = pin
    · rw [List.filter_cons_of_pos (by simpa using hpin), List.filterMap_cons, List.filterMap_cons]
      cases hd : f d with
      | none => exact ih
      | some e =>
        have he : e.pin = pin := (hf d e hd).trans hpin
        simp [he, ih]
    · rw [List.filter_cons_of_neg (by simpa using hpin), List.filterMap_cons]
      cases hd : f d with
      | none => exact ih
      | some e =>
        have he : e.pin ≠ pin := fun heq => hpin ((hf d e hd).symm.trans heq)
        simp [he, ih]

theorem entriesOf_run (pin : BitVec 8) (debounce : List Debounce)
    (turns : List (BitVec 8 → Sample)) :
    entriesOf pin (debounce.map fun d => (d.run turns).1) =
      (entriesOf pin debounce).map fun d => (d.run turns).1 := by
  rw [entriesOf, entriesOf, List.filter_map]
  refine congrArg _ (List.filter_congr fun d _ => ?_)
  simp [d.run_pin turns]

/-- Where a pin has at most one entry, what the task makes of it. -/
theorem mem_debounceTask_iff {pin : BitVec 8} {debounce : List Debounce} {o : Option Debounce}
    (h : entriesOf pin debounce = o.toList) (turns : List (BitVec 8 → Sample)) (d : Debounce) :
    d ∈ (debounceTask debounce turns).1 ∧ d.pin = pin ↔
      ∃ d₀, o = some d₀ ∧ d = (d₀.run turns).1 := by
  have hmem : d ∈ entriesOf pin (debounceTask debounce turns).1 ↔
      d ∈ (debounceTask debounce turns).1 ∧ d.pin = pin := by
    simp [entriesOf]
  rw [← hmem, debounceTask_entries, entriesOf_run, h]
  cases o <;> simp

/-- Where a pin has at most one entry, its events are those of the entry. -/
theorem eventsOf_debounceTask {pin : BitVec 8} {debounce : List Debounce} {o : Option Debounce}
    (h : entriesOf pin debounce = o.toList) (turns : List (BitVec 8 → Sample)) :
    (eventsOf pin (debounceTask debounce turns).2).map ButtonEvent.mark =
      o.elim [] fun d => (d.run turns).2 := by
  induction turns using List.reverseRecOn with
  | nil => cases o <;> rfl
  | append_singleton turns samples ih =>
    have hpoll : ∀ (d : Debounce) e, (d.poll (samples d.pin)).2 = some e → e.pin = d.pin :=
      fun d e => Debounce.poll_event
    rw [debounceTask_snoc, eventsOf_append, List.map_append, ih, debounceTurn,
      debounceTask_entries, eventsOf_filterMap hpoll, entriesOf_run, h]
    cases o with
    | none => rfl
    | some d =>
      rw [Option.elim_some, Option.elim_some, d.run_snoc, Debounce.pollMark]
      cases hevent : ((d.run turns).1.poll (samples (d.run turns).1.pin)).2 with
      | none => simp [hevent]
      | some e => simp [hevent]

/-- Entries with different pins: at most one for each pin. -/
theorem entriesOf_unique {debounce : List Debounce} (h : (debounce.map Debounce.pin).Nodup)
    (pin : BitVec 8) : ∃ o : Option Debounce, entriesOf pin debounce = o.toList := by
  induction debounce with
  | nil => exact ⟨none, rfl⟩
  | cons d debounce ih =>
    rw [List.map_cons, List.nodup_cons] at h
    by_cases hpin : d.pin = pin
    · refine ⟨some d, ?_⟩
      rw [entriesOf, List.filter_cons_of_pos (by simpa using hpin), List.filter_eq_nil_iff.mpr]
      · rfl
      · intro a ha
        simpa using fun heq : a.pin = pin =>
          h.1 (List.mem_map.mpr ⟨a, ha, heq.trans hpin.symm⟩)
    · rw [entriesOf, List.filter_cons_of_neg (by simpa using hpin)]
      exact ih h.2

theorem pulledButtonInit_nodup (pinSelect : BitVec 64) :
    ((pulledButtonInit pinSelect).map Debounce.pin).Nodup := by
  rw [pulledButtonInit, List.map_map]
  refine (List.nodup_range.filter _).map_on fun k hk l hl heq => ?_
  have hk := List.mem_range.mp (List.mem_of_mem_filter hk)
  have hl := List.mem_range.mp (List.mem_of_mem_filter hl)
  have hnat := congrArg BitVec.toNat heq
  simp only [Function.comp, BitVec.toNat_ofNat] at hnat
  omega

/-- The entries start with an inverted pin that counts as up. -/
theorem pulledButtonInit_up {pinSelect : BitVec 64} {d : Debounce}
    (h : d ∈ pulledButtonInit pinSelect) : d.inverted = true ∧ d.downTime = 0 := by
  obtain ⟨k, -, rfl⟩ := List.mem_map.mp h
  exact ⟨rfl, rfl⟩

/-! ### Dips -/

/-- A poll while the button counts as up: what the history becomes, and the event. -/
def watch (history : BitVec 16) (level : Bool) : BitVec 16 × Option Mark :=
  let history := shiftIn history level
  if history &&& mask = 0b0000000000111111 then (0xffff, some .closes)
  else if history &&& mask = 0b1111000000000000 then (0x0000, some .opens)
  else (history, none)

namespace Debounce

theorem pollMark_watch {d : Debounce} (r : Sample) (hinverted : d.inverted = true)
    (hup : d.downTime = 0) :
    (d.pollMark r).1.history = (watch d.history r.level).1 ∧
      (d.pollMark r).2 = (watch d.history r.level).2 := by
  obtain ⟨pin, inverted, history, downTime, nextLongTime⟩ := d
  obtain rfl : inverted = true := hinverted
  obtain rfl : downTime = 0 := hup
  simp only [pollMark, poll, updateButton, buttonUp, buttonDown, if_true, watch]
  by_cases hrose : shiftIn history r.level &&& mask = 0b0000000000111111
  · simp [buttonRose, hrose]
  · by_cases hfell : shiftIn history r.level &&& mask = 0b1111000000000000
    · simp [buttonRose, buttonFell, hfell]
    · simp only [buttonRose, buttonFell, if_neg hrose, if_neg hfell]
      simp

/-- Until a press is sent, the samples decide. -/
theorem run_watch {d : Debounce} (hinverted : d.inverted = true) (hup : d.downTime = 0)
    (turns : List (BitVec 8 → Sample))
    (hquiet : .opens ∉ (emits watch d.history (turns.map fun s => (s d.pin).level)).2) :
    (d.run turns).1.history = (emits watch d.history (turns.map fun s => (s d.pin).level)).1 ∧
      (d.run turns).1.downTime = 0 ∧
      (d.run turns).2 = (emits watch d.history (turns.map fun s => (s d.pin).level)).2 := by
  induction turns using List.reverseRecOn with
  | nil => exact ⟨rfl, hup, rfl⟩
  | append_singleton turns samples ih =>
    rw [List.map_append, List.map_singleton, emits_snoc] at hquiet ⊢
    rw [List.mem_append, not_or] at hquiet
    obtain ⟨hhistory, hdown, hmarks⟩ := ih hquiet.1
    obtain ⟨hnext, hmark⟩ := (d.run turns).1.pollMark_watch (samples d.pin)
      ((d.run_frame turns).2.trans hinverted) hdown
    have hfollows := (d.run turns).1.isDown_pollMark (samples d.pin)
    rw [hhistory] at hnext hmark
    rw [run_snoc, d.run_pin turns, hnext, hmark, hmarks]
    refine ⟨rfl, ?_, rfl⟩
    have hstill : ((d.run turns).1.pollMark (samples d.pin)).1.isDown = false := by
      rw [hfollows, hmark]
      cases hm : (watch (emits watch d.history (turns.map fun s => (s d.pin).level)).1
          (samples d.pin).level).2 with
      | none => simp [isDown, hdown]
      | some m =>
        cases m with
        | opens => exact absurd (by simp [hm]) hquiet.2
        | inside => simp [Mark.after, isDown, hdown]
        | closes => rfl
    simpa [isDown] using hstill

/-- At rest, a dip of four or five low samples is too short for a press, and a release is sent
after it. -/
theorem run_dip {d : Debounce} (hinverted : d.inverted = true) (hup : d.downTime = 0)
    (hrest : d.history = 0xffff) {turns : List (BitVec 8 → Sample)} {k : Nat} (hk : k = 4 ∨ k = 5)
    (hdip : turns.map (fun s => (s d.pin).level) =
      List.replicate k false ++ List.replicate (16 - k) true) :
    (d.run turns).2 = [.closes] := by
  have hwatch : (emits watch d.history (turns.map fun s => (s d.pin).level)).2 = [.closes] := by
    rw [hdip, hrest]
    obtain rfl | rfl := hk
    · decide
    · decide
  rw [(run_watch hinverted hup turns (by simp [hwatch])).2.2, hwatch]

end Debounce

/-! ### Presses and releases -/

/-- The button counts as up, and with the new sample the four oldest samples of the history are
low and the six newest high. -/
def SpuriousRise (d : Debounce) (r : Sample) : Prop :=
  d.downTime = 0 ∧ shiftIn d.history r.level &&& mask = 0b0000000000111111

theorem Debounce.alternates_run_iff {d : Debounce} (hinverted : d.inverted = true)
    (hup : d.downTime = 0) (turns : List (BitVec 8 → Sample)) :
    Alternates (d.run turns).2 ↔ ∀ before samples after, turns = before ++ samples :: after →
      ¬SpuriousRise (d.run before).1 (samples d.pin) := by
  rw [Debounce.run, alternates_emits_iff (by simp [isDown, hup]) fun d samples =>
    d.isDown_pollMark (samples d.pin)]
  refine forall_congr' fun before => forall_congr' fun samples => forall_congr' fun after =>
    imp_congr_right fun _ => ?_
  have hrun := (d.run before).1.allowed_pollMark (samples d.pin)
  rw [rises_iff ((d.run_frame before).2.trans hinverted), ← d.run_pin before] at hrun
  rw [← d.run_pin before]
  exact hrun

/-- For every pin: presses and releases alternate, a press first, and long presses come between,
exactly if no rise is spurious.  The clock need not even be in order. -/
theorem debounce_alternates_iff (pinSelect : BitVec 64) (pin : BitVec 8)
    (turns : List (BitVec 8 → Sample)) :
    Alternates ((eventsOf pin (debounceTask (pulledButtonInit pinSelect) turns).2).map
        ButtonEvent.mark) ↔
      ∀ before samples after, turns = before ++ samples :: after →
        ∀ d ∈ (debounceTask (pulledButtonInit pinSelect) before).1, d.pin = pin →
          ¬SpuriousRise d (samples pin) := by
  obtain ⟨o, ho⟩ := entriesOf_unique (pulledButtonInit_nodup pinSelect) pin
  have hentry := mem_debounceTask_iff ho
  rw [eventsOf_debounceTask ho]
  cases o with
  | none =>
    refine iff_of_true Alternates.nil fun before samples after _ d hd hpin => ?_
    obtain ⟨d₀, hnone, -⟩ := (hentry before d).mp ⟨hd, hpin⟩
    cases hnone
  | some d₀ =>
    have hmem : d₀ ∈ entriesOf pin (pulledButtonInit pinSelect) := by simp [ho]
    obtain ⟨hinit, hpin⟩ := List.mem_filter.mp hmem
    obtain rfl : d₀.pin = pin := by simpa using hpin
    obtain ⟨hinverted, hup⟩ := pulledButtonInit_up hinit
    rw [Option.elim_some, d₀.alternates_run_iff hinverted hup]
    refine forall_congr' fun before => forall_congr' fun samples => forall_congr' fun after =>
      imp_congr_right fun _ => ?_
    constructor
    · intro h d hd hpin
      obtain ⟨d₁, heq, rfl⟩ := (hentry before d).mp ⟨hd, hpin⟩
      obtain rfl := Option.some.inj heq
      exact h
    · intro h
      obtain ⟨hd, hpin⟩ := (hentry before (d₀.run before).1).mpr ⟨d₀, rfl, rfl⟩
      exact h _ hd hpin

/-- The clock does not go back: `millis` over the turns, entry by entry. -/
def InOrder (debounce : List Debounce) (turns : List (BitVec 8 → Sample)) : Prop :=
  (turns.flatMap fun samples => debounce.flatMap fun d =>
    [(samples d.pin).longTime, (samples d.pin).downTime]).Pairwise (· ≤ ·)

/-- A dip of 40 ms right after the start: a release that follows no press. -/
theorem not_debounce_alternates :
    ¬∀ pinSelect pin turns, InOrder (pulledButtonInit pinSelect) turns →
      Alternates ((eventsOf pin (debounceTask (pulledButtonInit pinSelect) turns).2).map
        ButtonEvent.mark) := by
  intro h
  let levels := List.replicate 4 false ++ List.replicate 12 true
  let turns : List (BitVec 8 → Sample) := levels.map fun level _ => ⟨level, 1, 1, by decide⟩
  let d : Debounce := ⟨button, true, 0xffff, 0, 0⟩
  have hentry : entriesOf button (pulledButtonInit (1#64 <<< 18)) = (some d).toList := by decide
  have hmarks := eventsOf_debounceTask hentry turns
  rw [Option.elim_some, Debounce.run_dip (k := 4) rfl rfl rfl (.inl rfl) (by decide)] at hmarks
  have halternates := h (1#64 <<< 18) button turns (by unfold InOrder; decide)
  rw [hmarks] at halternates
  exact absurd (halternates [] .closes [] rfl) (by decide)

end VhomeBridge
