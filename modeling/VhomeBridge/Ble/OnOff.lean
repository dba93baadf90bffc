import VhomeBridge.Lib.Run
import VhomeBridge.Ble.GenericClient

/-! Retries of on-off commands.  Commands to several elements overlap with the acknowledgements and
timeouts of earlier ones, and the value that a timeout sends again is that of the latest command to
any element.  It is the value for its own element exactly if the latest command to that element had
the same value. -/

namespace VhomeBridge.Ble

open Lib

/-- A command of `mqtt_handle` or `sendCommandBLE`, or a message that a timeout sends again. -/
inductive SetEntry
  | issued (addr : Word) (value : Octet)
  | resent (addr : Word) (value : Octet)
  deriving DecidableEq

/-- `stateButtonBLE`, the addresses of the messages neither acknowledged nor timed out, and the
commands and resends so far, the latest first. -/
structure OnOff where
  stateButtonBLE : Octet
  outstanding : List Word
  log : List SetEntry

/-- A command is issued, and the stack reports the end of a message: its acknowledgement, its
timeout, or an error. -/
inductive OnOffEvent
  | command (unicastAddr elementAddr : Word) (value : Octet) (sendErr : Bool)
  | ended (event : GenericEvent) (param : GenericParam) (node : Option Node) (sendErr : Bool)

def Out.onoffSet? : Out → Option (Word × Octet)
  | .onoffSet addr value _ => some (addr, value)
  | _ => none

def resends (outs : List GenericOut) : List (Word × Octet) :=
  outs.filterMap fun
    | .out out => out.onoffSet?
    | _ => none

namespace OnOff

def step (s : OnOff) : OnOffEvent → Option OnOff
  | .command unicastAddr elementAddr value sendErr =>
    let r := bleMeshCommandSet unicastAddr elementAddr value true
    let sent := r.2.onoffSet?.toList
    some {
      stateButtonBLE := r.1
      outstanding := s.outstanding ++ if sendErr then [] else sent.map (·.1)
      log := (sent.map fun m => .issued m.1 m.2) ++ s.log }
  | .ended event param node sendErr =>
    if s.outstanding.contains param.addr ∧ param.opcode = .onoffSet then
      let r := bleMeshGenericClientCb true s.stateButtonBLE event param node
      let sent := resends r.2
      some {
        stateButtonBLE := r.1
        outstanding := s.outstanding.erase param.addr ++ if sendErr then [] else sent.map (·.1)
        log := (sent.map fun m => .resent m.1 m.2) ++ s.log }
    else none

/-- The provisioner finds a node that owns the address, if it finds one. -/
def Found : OnOff → OnOffEvent → Prop
  | _, .ended _ param (some node) _ => node.Owns param.addr
  | _, _ => True

instance (s : OnOff) (e : OnOffEvent) : Decidable (s.Found e) :=
  match e with
  | .ended _ _ (some _) _ => inferInstanceAs (Decidable (Node.Owns _ _))
  | .ended _ _ none _ | .command _ _ _ _ => .isTrue trivial

def start : OnOff := ⟨0, [], []⟩

end OnOff

def lastValue : List SetEntry → Option Octet
  | [] => none
  | .issued _ value :: _ => some value
  | .resent _ _ :: log => lastValue log

def lastValueTo (addr : Word) : List SetEntry → Option Octet
  | [] => none
  | .issued a value :: log => if a = addr then some value else lastValueTo addr log
  | .resent _ _ :: log => lastValueTo addr log

/-- Each message sent again carries the value of the latest command to its address. -/
def Faithful : List SetEntry → Prop
  | [] => True
  | .issued _ _ :: log => Faithful log
  | .resent addr value :: log => lastValueTo addr log = some value ∧ Faithful log

/-- Whenever a message was sent again, the latest command to its address had the value of the latest
command to any address. -/
def Agreeing : List SetEntry → Prop
  | [] => True
  | .issued _ _ :: log => Agreeing log
  | .resent addr _ :: log => lastValueTo addr log = lastValue log ∧ Agreeing log

namespace OnOff

/-- The global has the value of the latest command, each message in flight and each message sent
again is of an address that a command went to, with the value of the latest command. -/
structure Inv (s : OnOff) : Prop where
  state : ∀ value, lastValue s.log = some value → s.stateButtonBLE = value
  outstanding : ∀ addr ∈ s.outstanding, (lastValueTo addr s.log).isSome
  resent : ∀ newer addr value older, s.log = newer ++ .resent addr value :: older →
    lastValue older = some value

theorem lastValue_isSome {addr : Word} {log : List SetEntry} (h : (lastValueTo addr log).isSome) :
    (lastValue log).isSome := by
  induction log with
  | nil => simp [lastValueTo] at h
  | cons entry log ih =>
    cases entry with
    | issued a value => rfl
    | resent a value => exact ih h

theorem Inv.faithful_iff {s : OnOff} (h : Inv s) : Faithful s.log ↔ Agreeing s.log := by
  have hlog := h.resent
  generalize s.log = log at hlog
  clear h
  induction log with
  | nil => exact Iff.rfl
  | cons entry log ih =>
    have hrest := ih fun newer addr value older heq =>
      hlog (entry :: newer) addr value older (by rw [heq, List.cons_append])
    cases entry with
    | issued addr value => exact hrest
    | resent addr value =>
      have hlast := hlog [] addr value log rfl
      simp only [Faithful, Agreeing, hlast, hrest]

theorem start_inv : Inv start where
  state := by intro value h; contradiction
  outstanding := by intro addr h; contradiction
  resent := by intro newer addr value older h; simp [start] at h

theorem Inv.drop {s : OnOff} (h : Inv s) {outstanding : List Word}
    (hsub : ∀ addr ∈ outstanding, addr ∈ s.outstanding) :
    Inv { s with outstanding := outstanding } :=
  ⟨h.state, fun addr haddr => h.outstanding addr (hsub addr haddr), h.resent⟩

theorem Inv.issued {s : OnOff} (h : Inv s) (addr : Word) (value : Octet)
    {outstanding : List Word} (hsub : ∀ a ∈ outstanding, a ∈ s.outstanding ∨ a = addr) :
    Inv ⟨value, outstanding, .issued addr value :: s.log⟩ where
  state := by
    intro v hv
    exact Option.some.inj hv
  outstanding := by
    intro a ha
    rcases hsub a ha with hold | rfl
    · by_cases heq : addr = a
      · simp [lastValueTo, heq]
      · simpa [lastValueTo, heq] using h.outstanding a hold
    · simp [lastValueTo]
  resent := by
    intro newer a v older heq
    cases newer with
    | nil => simp at heq
    | cons entry newer =>
      exact h.resent newer a v older (List.cons.inj heq).2

theorem Inv.resend {s : OnOff} (h : Inv s) {addr : Word} (haddr : addr ∈ s.outstanding)
    {outstanding : List Word} (hsub : ∀ a ∈ outstanding, a ∈ s.outstanding) :
    Inv ⟨s.stateButtonBLE, outstanding, .resent addr s.stateButtonBLE :: s.log⟩ where
  state := h.state
  outstanding := fun a ha => h.outstanding a (hsub a ha)
  resent := by
    intro newer a v older heq
    cases newer with
    | nil =>
      obtain ⟨⟨rfl, rfl⟩, rfl⟩ : (addr = a ∧ s.stateButtonBLE = v) ∧ s.log = older := by
        simpa using heq
      obtain ⟨w, hw⟩ := Option.isSome_iff_exists.mp (lastValue_isSome (h.outstanding addr haddr))
      rw [hw, h.state w hw]
    | cons entry newer => exact h.resent newer a v older (List.cons.inj heq).2

/-- Only a timeout sends a message, to the address that timed out and with the value of the
global. -/
theorem resends_cb (stateButtonBLE : Octet) (event : GenericEvent) (param : GenericParam)
    (node : Option Node) (hnode : ∀ n, node = some n → n.Owns param.addr) :
    (bleMeshGenericClientCb true stateButtonBLE event param node).1 = stateButtonBLE ∧
      (resends (bleMeshGenericClientCb true stateButtonBLE event param node).2 = [] ∨
        resends (bleMeshGenericClientCb true stateButtonBLE event param node).2 =
          [(param.addr, stateButtonBLE)]) := by
  by_cases herr : param.errorCode = 0
  · cases node with
    | none => simp [bleMeshGenericClientCb, herr, resends]
    | some n =>
      have haddr := elementOffset_addr (hnode n rfl)
      cases event <;> cases hopcode : param.opcode <;>
        simp [bleMeshGenericClientCb, herr, hopcode, resends, reportAction, Out.onoffSet?,
          bleMeshCommandSet, haddr]
  · simp [bleMeshGenericClientCb, herr, resends]

theorem step_inv {s t : OnOff} {e : OnOffEvent} (h : Inv s) (hstep : s.step e = some t)
    (hfound : s.Found e) : Inv t := by
  cases e with
  | command unicastAddr elementAddr value sendErr =>
    obtain rfl := Option.some.inj hstep
    apply h.issued _ value
    intro a ha
    cases sendErr with
    | false => simpa [bleMeshCommandSet, Out.onoffSet?] using ha
    | true => exact .inl (by simpa using ha)
  | ended event param node sendErr =>
    simp only [step, Option.ite_none_right_eq_some] at hstep
    obtain ⟨⟨hcontains, -⟩, hstep⟩ := hstep
    have haddr : param.addr ∈ s.outstanding := List.contains_iff_mem.mp hcontains
    have hnode : ∀ n, node = some n → n.Owns param.addr := by
      rintro n rfl
      exact hfound
    have herase {a : Word} (ha : a ∈ s.outstanding.erase param.addr) : a ∈ s.outstanding :=
      List.mem_of_mem_erase ha
    obtain ⟨hstate, hsent | hsent⟩ := resends_cb s.stateButtonBLE event param node hnode
    · rw [hstate, hsent] at hstep
      obtain rfl := Option.some.inj hstep
      exact h.drop fun a ha => herase (by simpa using ha)
    · rw [hstate, hsent] at hstep
      obtain rfl := Option.some.inj hstep
      apply h.resend haddr
      intro a ha
      cases sendErr with
      | false =>
        rcases List.mem_append.mp ha with ha | ha
        · exact herase ha
        · obtain rfl : a = param.addr := by simpa using ha
          exact haddr
      | true => exact herase (by simpa using ha)

/-- In every run, each message sent again carries the value of the latest command to its address
exactly if, at each of them, the latest command to the address and the latest command to any address
had the same value. -/
theorem resends_faithful_iff (es : List OnOffEvent) (s : OnOff)
    (run : Run (Guarded (Steps step) Found) start es s) : Faithful s.log ↔ Agreeing s.log :=
  (run.invariant start_inv fun _ _ _ h hstep => step_inv h hstep.1 hstep.2).faithful_iff

def lampTimeout (node : Node) : OnOffEvent :=
  .ended .timeout ⟨0, .onoffSet, node.unicastAddr, 0, 0⟩ (some node) false

theorem resends_faithful_iff_lamp :
    ∃ s, Run (Guarded (Steps step) Found) start
        [.command 5 0 1 false, .command 5 1 1 false, lampTimeout firstNode] s ∧
      s.log = [.resent 5 1, .issued 6 1, .issued 5 1] ∧ (Faithful s.log ↔ Agreeing s.log) := by
  have hexec : (exec (restrict step fun s e => decide (s.Found e)) start
      [.command 5 0 1 false, .command 5 1 1 false, lampTimeout firstNode]).map (·.log) =
        some [.resent 5 1, .issued 6 1, .issued 5 1] := by decide
  obtain ⟨s, hs, hlog⟩ := Option.map_eq_some_iff.mp hexec
  have run := Run.of_exec_restrict (G := Found) (fun _ _ => of_decide_eq_true) hs
  exact ⟨s, run, hlog, resends_faithful_iff _ s run⟩

/-- A lamp is switched on, another one off, and the first does not answer: it is switched off. -/
theorem lamps_retry_mix :
    ∃ s, Run (Guarded (Steps step) Found) start
        [.command 5 0 1 false, .command 6 0 0 false, lampTimeout firstNode] s ∧
      ¬ Faithful s.log := by
  have hexec : (exec (restrict step fun s e => decide (s.Found e)) start
      [.command 5 0 1 false, .command 6 0 0 false, lampTimeout firstNode]).map (·.log) =
        some [.resent 5 0, .issued 6 0, .issued 5 1] := by decide
  obtain ⟨s, hs, hlog⟩ := Option.map_eq_some_iff.mp hexec
  refine ⟨s, Run.of_exec_restrict (fun _ _ => of_decide_eq_true) hs, ?_⟩
  rw [hlog]
  rintro ⟨h, -⟩
  exact absurd h (by decide)

end OnOff

end VhomeBridge.Ble
