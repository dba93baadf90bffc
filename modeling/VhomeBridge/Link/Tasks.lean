import Mathlib.Data.List.Infix
import VhomeBridge.Ble.GenericClient
import VhomeBridge.Lib.Run
import VhomeBridge.Link.LinkButton

/-! The tasks of the links.  `sendIdButton` takes a button event and puts the ids of the linked
buttons one by one on the queue of their protocol; `sendCommandZigbee` and `sendCommandBLE` turn
them into commands.  The queues are first in, first out, and each task takes its next step at any
time.  What an event stands for is the ids in its list: they are in the hands of some task until
their commands are out. -/

namespace VhomeBridge.Link

open Lib Ble

/-- `strtok` for one space, until it returns `NULL`; `token` is the token begun. -/
def strtok (token : Text) : Text → List Text
  | [] => if token.isEmpty then [] else [token]
  | c :: s =>
    if c == ' ' then (if token.isEmpty then strtok [] s else token :: strtok [] s)
    else strtok (token ++ [c]) s

/-- Whether `strstr` finds `"ble"`. -/
def isBle (token : Text) : Bool := decide ("ble".toList <:+: token)

structure BleCall where
  unicastAddr : Word
  elementAddr : Word
  value : Octet
  resp : Bool
  deriving DecidableEq

/-- The line of `sendCommandZigbee`, in `msg[100]`. -/
def sendCommandZigbee (item : LinkButton) : Option Text := do
  let nodeId := item.idButton.take 6
  let endpoint ← item.idButton.getLast?
  intoBuffer 100 ("custom action-onoff ".toList ++ item.stateButton ++ " ".toList ++ nodeId ++
    " ".toList ++ [endpoint] ++ "\n".toList)

/-- The call of `sendCommandBLE`.  Of an id with fewer than six characters it reads what is behind
the terminator. -/
def sendCommandBLE (item : LinkButton) : Option BleCall := do
  let endpoint ← item.idButton.getLast?
  if item.idButton.length < 6 then none
  let state := if item.stateButton = "off".toList then 0 else 1
  return ⟨(mParseHex (item.idButton.take 7) 6).setWidth 16,
    BitVec.ofInt 16 ((endpoint.toNat : Int) - '0'.toNat - 1), state, true⟩

/-- The queues, the event that `sendIdButton` has in hand with the tokens to come, and the commands
sent. -/
structure Tasks where
  queueIdButton : List LinkButton
  sending : Option (LinkButton × List Text)
  queueCmdZigbee : List LinkButton
  queueCmdBLE : List LinkButton
  uart : List Text
  calls : List BleCall
  deriving DecidableEq

namespace Tasks

def start : Tasks := ⟨[], none, [], [], [], []⟩

/-- A button event, or the next step of a task. -/
inductive Event
  | put (idButton : Text) (on : Bool)
  | sendIdButton
  | sendCommandZigbee
  | sendCommandBLE
  deriving DecidableEq

def item (idButton : Text) (on : Bool) : LinkButton :=
  ⟨if on then "on".toList else "off".toList, idButton⟩

/-- The queue after `xQueueSend`, which fails when there is no room. -/
def send (room : Nat) (queue : List LinkButton) (item : LinkButton) : List LinkButton :=
  if queue.length < room then queue ++ [item] else queue

def step (map : MapStr) (s : Tasks) : Event → Option Tasks
  | .put idButton on =>
    some { s with queueIdButton := send 100 s.queueIdButton (item idButton on) }
  | .sendIdButton =>
    match s.sending with
    | some (item, token :: tokens) => do
      let item := { item with idButton := ← intoBuffer 40 token }
      let s := { s with sending := some (item, tokens) }
      if isBle token then return { s with queueCmdBLE := send 50 s.queueCmdBLE item }
      else return { s with queueCmdZigbee := send 50 s.queueCmdZigbee item }
    | some (_, []) => some { s with sending := none }
    | none =>
      match s.queueIdButton with
      | [] => none
      | item :: queue =>
        some { s with
          queueIdButton := queue
          sending := (mapGet map item.idButton).map fun ids => (item, strtok [] ids) }
  | .sendCommandZigbee =>
    match s.queueCmdZigbee with
    | [] => none
    | item :: queue => do
      let line ← Link.sendCommandZigbee item
      return { s with queueCmdZigbee := queue, uart := s.uart ++ [line] }
  | .sendCommandBLE =>
    match s.queueCmdBLE with
    | [] => none
    | item :: queue => do
      let call ← Link.sendCommandBLE item
      return { s with queueCmdBLE := queue, calls := s.calls ++ [call] }

/-- The queue that the next step puts something on has room for it. -/
def HasRoom (s : Tasks) : Event → Prop
  | .put _ _ => s.queueIdButton.length < 100
  | .sendIdButton => s.queueCmdZigbee.length < 50 ∧ s.queueCmdBLE.length < 50
  | _ => True

instance (s : Tasks) (e : Event) : Decidable (s.HasRoom e) :=
  match e with
  | .put _ _ => inferInstanceAs (Decidable (_ < _))
  | .sendIdButton => inferInstanceAs (Decidable (_ ∧ _))
  | .sendCommandZigbee => .isTrue trivial
  | .sendCommandBLE => .isTrue trivial

/-- All queues are empty, and `sendIdButton` waits for the next event. -/
def Quiet (s : Tasks) : Prop :=
  s.queueIdButton = [] ∧ s.sending = none ∧ s.queueCmdZigbee = [] ∧ s.queueCmdBLE = []

def puts (es : List Event) : List LinkButton :=
  es.filterMap fun
    | .put idButton on => some (item idButton on)
    | _ => none

/-! ### What a step of a task does -/

section Step

variable {map : MapStr} {s s' : Tasks}

/-- `sendIdButton` puts the next token on the queue of its protocol, is done with an event, or takes
the next one and looks it up. -/
theorem step_sendIdButton (h : step map s .sendIdButton = some s') :
    (∃ i token tokens, s.sending = some (i, token :: tokens) ∧ isBle token = true ∧
      s' = { s with
        sending := some ({ i with idButton := token }, tokens)
        queueCmdBLE := send 50 s.queueCmdBLE { i with idButton := token } }) ∨
    (∃ i token tokens, s.sending = some (i, token :: tokens) ∧ isBle token = false ∧
      s' = { s with
        sending := some ({ i with idButton := token }, tokens)
        queueCmdZigbee := send 50 s.queueCmdZigbee { i with idButton := token } }) ∨
    (∃ i, s.sending = some (i, []) ∧ s' = { s with sending := none }) ∨
    (∃ i queue, s.sending = none ∧ s.queueIdButton = i :: queue ∧
      s' = { s with
        queueIdButton := queue
        sending := (mapGet map i.idButton).map fun ids => (i, strtok [] ids) }) := by
  rw [step] at h
  split at h
  · rename_i i token tokens hsending
    rw [intoBuffer] at h
    split at h
    · cases htoken : isBle token with
      | true => exact .inl ⟨i, token, tokens, hsending, htoken, by simpa [htoken] using h.symm⟩
      | false =>
        exact .inr (.inl ⟨i, token, tokens, hsending, htoken, by simpa [htoken] using h.symm⟩)
    · contradiction
  · rename_i i hsending
    exact .inr (.inr (.inl ⟨i, hsending, (Option.some.inj h).symm⟩))
  · rename_i hsending
    split at h
    · contradiction
    · rename_i i queue hqueue
      exact .inr (.inr (.inr ⟨i, queue, hsending, hqueue, (Option.some.inj h).symm⟩))

/-- A task that takes the front item of its queue. -/
theorem takes_front {α β : Type} {queue : List LinkButton} {f : LinkButton → Option α}
    {g : List LinkButton → α → β} {r : β}
    (h : (match queue with
      | [] => none
      | i :: rest => (f i).bind fun a => some (g rest a)) = some r) :
    ∃ i rest a, queue = i :: rest ∧ f i = some a ∧ r = g rest a := by
  cases queue with
  | nil => cases h
  | cons i rest =>
    obtain ⟨a, ha, h⟩ := Option.bind_eq_some_iff.mp h
    exact ⟨i, rest, a, rfl, ha, (Option.some.inj h).symm⟩

theorem step_sendCommandZigbee (h : step map s .sendCommandZigbee = some s') :
    ∃ i queue line, s.queueCmdZigbee = i :: queue ∧ Link.sendCommandZigbee i = some line ∧
      s' = { s with queueCmdZigbee := queue, uart := s.uart ++ [line] } := takes_front h

theorem step_sendCommandBLE (h : step map s .sendCommandBLE = some s') :
    ∃ i queue call, s.queueCmdBLE = i :: queue ∧ Link.sendCommandBLE i = some call ∧
      s' = { s with queueCmdBLE := queue, calls := s.calls ++ [call] } := takes_front h

end Step

/-! ### Where the commands of an event are -/

def tokenItems (item : LinkButton) (tokens : List Text) : List LinkButton :=
  tokens.map fun token => { item with idButton := token }

/-- The items that an event stands for. -/
def linked (map : MapStr) (item : LinkButton) : List LinkButton :=
  tokenItems item (((mapGet map item.idButton).map (strtok [])).getD [])

def zigbee (items : List LinkButton) : List LinkButton := items.filter fun i => !isBle i.idButton

def ble (items : List LinkButton) : List LinkButton := items.filter fun i => isBle i.idButton

/-- The items that are not on a command queue yet. -/
def coming (map : MapStr) (s : Tasks) : List LinkButton :=
  (s.sending.map fun (item, tokens) => tokenItems item tokens).getD [] ++
    s.queueIdButton.flatMap (linked map)

/-- All commands of the events so far are sent, queued or coming, in order. -/
structure Accounted (map : MapStr) (es : List Event) (s : Tasks) : Prop where
  uart : s.uart.map some ++
      (s.queueCmdZigbee ++ zigbee (s.coming map)).map Link.sendCommandZigbee =
    (zigbee ((puts es).flatMap (linked map))).map Link.sendCommandZigbee
  calls : s.calls.map some ++ (s.queueCmdBLE ++ ble (s.coming map)).map Link.sendCommandBLE =
    (ble ((puts es).flatMap (linked map))).map Link.sendCommandBLE

section Account

variable {map : MapStr} {es : List Event} {s s' : Tasks}

@[simp] theorem zigbee_append (a b : List LinkButton) : zigbee (a ++ b) = zigbee a ++ zigbee b :=
  List.filter_append a b

@[simp] theorem ble_append (a b : List LinkButton) : ble (a ++ b) = ble a ++ ble b :=
  List.filter_append a b

theorem puts_append (ds : List Event) : puts (es ++ ds) = puts es ++ puts ds :=
  List.filterMap_append

theorem accounted_start : Accounted map [] start := by
  constructor <;> rfl

theorem Accounted.put {idButton : Text} {on : Bool} (h : Accounted map es s)
    (hroom : HasRoom s (.put idButton on)) (hstep : step map s (.put idButton on) = some s') :
    Accounted map (es ++ [.put idButton on]) s' := by
  obtain rfl := Option.some.inj hstep
  have hsend : send 100 s.queueIdButton (item idButton on) =
      s.queueIdButton ++ [item idButton on] := if_pos hroom
  have hcoming :
      coming map { s with queueIdButton := send 100 s.queueIdButton (item idButton on) } =
      s.coming map ++ linked map (item idButton on) := by
    simp [coming, hsend]
  have hputs : (puts (es ++ [.put idButton on])).flatMap (linked map) =
      (puts es).flatMap (linked map) ++ linked map (item idButton on) := by
    simp [puts]
  have huart := congrArg
    (· ++ (zigbee (linked map (item idButton on))).map Link.sendCommandZigbee) h.uart
  have hcalls := congrArg
    (· ++ (ble (linked map (item idButton on))).map Link.sendCommandBLE) h.calls
  constructor
  · simpa only [hcoming, hputs, zigbee_append, List.map_append, List.append_assoc] using huart
  · simpa only [hcoming, hputs, ble_append, List.map_append, List.append_assoc] using hcalls

theorem Accounted.move (h : Accounted map es s)
    (huart : s'.uart = s.uart) (hcalls : s'.calls = s.calls)
    (hzigbee : s'.queueCmdZigbee ++ zigbee (s'.coming map) =
      s.queueCmdZigbee ++ zigbee (s.coming map))
    (hble : s'.queueCmdBLE ++ ble (s'.coming map) = s.queueCmdBLE ++ ble (s.coming map)) :
    Accounted map es s' where
  uart := by rw [huart, hzigbee, h.uart]
  calls := by rw [hcalls, hble, h.calls]

theorem Accounted.sendIdButton (h : Accounted map es s) (hroom : HasRoom s .sendIdButton)
    (hstep : step map s .sendIdButton = some s') : Accounted map es s' := by
  have hzigbee (i : LinkButton) : send 50 s.queueCmdZigbee i = s.queueCmdZigbee ++ [i] :=
    if_pos hroom.1
  have hble (i : LinkButton) : send 50 s.queueCmdBLE i = s.queueCmdBLE ++ [i] := if_pos hroom.2
  obtain ⟨i, token, tokens, hsending, htoken, rfl⟩ | ⟨i, token, tokens, hsending, htoken, rfl⟩ |
    ⟨i, hsending, rfl⟩ | ⟨i, queue, hsending, hqueue, rfl⟩ := step_sendIdButton hstep
  · refine h.move rfl rfl ?_ ?_
    · simp [coming, hsending, tokenItems, zigbee, htoken]
    · simp [coming, hsending, tokenItems, ble, htoken, hble]
  · refine h.move rfl rfl ?_ ?_
    · simp [coming, hsending, tokenItems, zigbee, htoken, hzigbee]
    · simp [coming, hsending, tokenItems, ble, htoken]
  · have hcoming : coming map { s with sending := none } = s.coming map := by
      simp [coming, hsending, tokenItems]
    exact h.move rfl rfl (by rw [hcoming]) (by rw [hcoming])
  · have hcoming : coming map { s with
        queueIdButton := queue
        sending := (mapGet map i.idButton).map fun ids => (i, strtok [] ids) } =
        s.coming map := by
      cases hget : mapGet map i.idButton <;>
        simp [coming, hsending, hqueue, linked, hget, tokenItems]
    exact h.move rfl rfl (by rw [hcoming]) (by rw [hcoming])

theorem Accounted.sendCommandZigbee (h : Accounted map es s)
    (hstep : step map s .sendCommandZigbee = some s') : Accounted map es s' := by
  obtain ⟨i, queue, line, hqueue, hline, rfl⟩ := step_sendCommandZigbee hstep
  refine ⟨?_, h.calls⟩
  rw [← h.uart, hqueue]
  simp [hline, coming]

theorem Accounted.sendCommandBLE (h : Accounted map es s)
    (hstep : step map s .sendCommandBLE = some s') : Accounted map es s' := by
  obtain ⟨i, queue, call, hqueue, hcall, rfl⟩ := step_sendCommandBLE hstep
  refine ⟨h.uart, ?_⟩
  rw [← h.calls, hqueue]
  simp [hcall, coming]

theorem Accounted.step {e : Event} (h : Accounted map es s)
    (hstep : Guarded (Steps (step map)) HasRoom s e s') : Accounted map (es ++ [e]) s' := by
  obtain ⟨hstep, hroom⟩ := hstep
  have hputs (hno : puts [e] = []) : puts (es ++ [e]) = puts es := by
    rw [puts_append, hno, List.append_nil]
  cases e with
  | put idButton on => exact h.put hroom hstep
  | sendIdButton =>
    have := h.sendIdButton hroom hstep
    exact ⟨by rw [hputs rfl, this.uart], by rw [hputs rfl, this.calls]⟩
  | sendCommandZigbee =>
    have := h.sendCommandZigbee hstep
    exact ⟨by rw [hputs rfl, this.uart], by rw [hputs rfl, this.calls]⟩
  | sendCommandBLE =>
    have := h.sendCommandBLE hstep
    exact ⟨by rw [hputs rfl, this.uart], by rw [hputs rfl, this.calls]⟩

/-- When all is quiet the commands out are those of all events, in order. -/
theorem accounted_quiet (run : Run (Guarded (Steps (Tasks.step map)) HasRoom) start es s)
    (hquiet : s.Quiet) :
    s.uart.map some =
        (zigbee ((puts es).flatMap (linked map))).map Link.sendCommandZigbee ∧
      s.calls.map some = (ble ((puts es).flatMap (linked map))).map Link.sendCommandBLE := by
  have h := run.history (I := Accounted map) accounted_start fun _ _ _ _ h hstep => h.step hstep
  obtain ⟨hid, hsending, hzigbee, hble⟩ := hquiet
  have hcoming : s.coming map = [] := by simp [coming, hsending, hid]
  have huart := h.uart
  have hcalls := h.calls
  rw [hzigbee, hcoming] at huart
  rw [hble, hcoming] at hcalls
  exact ⟨by simpa [zigbee] using huart, by simpa [ble] using hcalls⟩

end Account

end Tasks

end VhomeBridge.Link
