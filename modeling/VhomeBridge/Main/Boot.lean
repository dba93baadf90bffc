import VhomeBridge.Main.Infor
import VhomeBridge.Mqtt.Topics
import VhomeBridge.Web.Receive

/-! The gateway from one reset to the next.  The two flags of the pairing mode lie in memory that
`app_main` clears only after power was lost; the file `deviceinfor` keeps the last text that
`POST_handler` was given, the file `link_node` the last `linkButton` message.  `app_main` reads both
files before it looks at the flags.  After a fault only a reset goes on. -/

namespace VhomeBridge.Main

open Lib Link JsonUser

/-- `esp_reset_reason`, as far as `app_main` looks at it. -/
inductive ResetReason
  | unknown
  | powerOn
  | other
  deriving DecidableEq

/-- What `app_main` starts: one of the pairing modes, or the bridge itself. -/
inductive Mode
  | quick
  | compatible
  | bridge
  deriving DecidableEq

/-- What is in memory once `app_main` has read the files. -/
structure App where
  mode : Mode
  webServer : Bool
  infor : Infor
  map : MapStr
  topics : Mqtt.Topics

/-- `answering` is between the reply of `POST_handler` and its restart. -/
inductive Stage
  | booting (reason : ResetReason)
  | running (app : App)
  | answering (app : App)
  | crashed

structure Gateway where
  flagQuickPair : Bool
  flagCompatiblePair : Bool
  deviceinfor : Option Text
  linkNode : Option Text
  stage : Stage

inductive Event
  /-- A reset; memory that loses its power comes back with any flags. -/
  | reset (reason : ResetReason) (flagQuickPair flagCompatiblePair : Bool)
  /-- `app_main`, with what `buff` of `get_device_infor` holds at its start. -/
  | appMain (buff : Text)
  /-- The fifth press in a row. -/
  | fivePresses
  /-- `SC_EVENT_SEND_ACK_DONE`. -/
  | sendAckDone
  /-- `POST_handler` until it has replied, with what `buf` holds at its start. -/
  | post (req : Web.Request) (script : List Web.Recv) (buf : Tape Char)
  /-- The end of `POST_handler`. -/
  | postRestart
  /-- The branch of `mqtt_handle` for the action `linkButton`. -/
  | linkButton (item : Text)

def Event.isPost : Event → Bool
  | post .. => true
  | _ => false

section

variable (lib : CJsonLib)

/-- The map that `app_main` builds. -/
def readLinks (file : Option Text) : Option MapStr :=
  match file with
  | none => some mapInit
  | some file => (Reload.readfromfile file).bind jsonParsing

def mode (flagQuickPair flagCompatiblePair : Bool) : Mode :=
  if flagQuickPair then .quick else if flagCompatiblePair then .compatible else .bridge

namespace Gateway

/-- `app_main` until it has written the topics. -/
def load (s : Gateway) (buff : Text) : Option (Infor × MapStr × Mqtt.Topics) := do
  let infor ← Infor.blank.getDeviceInfor lib s.deviceinfor buff
  let infor := infor.withBroker
  let map ← readLinks s.linkNode
  let (device, _) ← infor.strings
  let topics ← Mqtt.Topics.ofDevice device
  return (infor, map, topics)

def appMain (s : Gateway) (reason : ResetReason) (buff : Text) : Gateway :=
  match s.load lib buff with
  | some (infor, map, topics) =>
    let keeps := reason != .unknown && reason != .powerOn
    let flagQuickPair := keeps && s.flagQuickPair
    let flagCompatiblePair := keeps && s.flagCompatiblePair
    let mode := mode flagQuickPair flagCompatiblePair
    { s with
      flagQuickPair, flagCompatiblePair
      -- `wifi_init_softap` starts the server at once
      stage := .running ⟨mode, mode == .compatible, infor, map, topics⟩ }
  | none => { s with stage := .crashed }

/-- The fifth press in `button_task`. -/
def fivePresses (s : Gateway) : Gateway :=
  let s :=
    if !s.flagQuickPair then { s with flagCompatiblePair := false, flagQuickPair := true }
    else if !s.flagCompatiblePair then
      { s with flagQuickPair := false, flagCompatiblePair := true }
    else s
  { s with stage := .booting .other }

/-- `POST_handler` with its text. -/
def posted (s : Gateway) (app : App) (text : Text) : Gateway :=
  match app.infor.getDeviceInfor lib (some text) [] with
  | some infor => { s with deviceinfor := some text, stage := .answering { app with infor } }
  | none => { s with deviceinfor := some text, stage := .crashed }

def post (s : Gateway) (app : App) (req : Web.Request) (script : List Web.Recv)
    (buf : Tape Char) : Option Gateway :=
  match Web.postHandler req script buf with
  | none => some { s with stage := .crashed }
  | some .waiting => none
  | some .failed => some s
  | some (.done text) => some (s.posted lib app text)

def linkButton (s : Gateway) (app : App) (item : Text) : Gateway :=
  match jsonParsing item with
  | none => { s with linkNode := some item, stage := .crashed }
  | some map => { s with linkNode := some item, stage := .running { app with map } }

def step (s : Gateway) : Event → Option Gateway
  | .reset reason quick compatible =>
    some (if reason = .other then { s with stage := .booting reason }
      else
        { s with
          flagQuickPair := quick, flagCompatiblePair := compatible, stage := .booting reason })
  | .appMain buff =>
    match s.stage with
    | .booting reason => some (s.appMain lib reason buff)
    | _ => none
  | .fivePresses =>
    match s.stage with
    | .crashed => none
    | _ => some s.fivePresses
  | .sendAckDone =>
    match s.stage with
    | .running app =>
      if app.mode = .quick then some { s with stage := .running { app with webServer := true } }
      else none
    | _ => none
  | .post req script buf =>
    match s.stage with
    | .running app => if app.webServer then s.post lib app req script buf else none
    | _ => none
  | .postRestart =>
    match s.stage with
    | .answering _ =>
      some { s with
        flagQuickPair := false, flagCompatiblePair := false, stage := .booting .other }
    | _ => none
  | .linkButton item =>
    match s.stage with
    | .running app => if app.mode = .bridge then some (s.linkButton app item) else none
    | _ => none

variable {lib} {s t : Gateway}

theorem post_eq {req : Web.Request} {script : List Web.Recv} {buf : Tape Char} {text : Text}
    (htext : Web.postHandler req script buf = some (.done text))
    (hstep : s.step lib (.post req script buf) = some t) :
    ∃ app, t = s.posted lib app text := by
  simp only [Gateway.step] at hstep
  split at hstep
  · rename_i app hstage
    rw [Option.ite_none_right_eq_some] at hstep
    obtain ⟨-, hstep⟩ := hstep
    refine ⟨app, ?_⟩
    simp only [Gateway.post, htext, Option.some.injEq] at hstep
    exact hstep.symm
  · cases hstep

/-- `POST_handler` faults before it writes, gives up, or stores its text. -/
theorem post_cases {req : Web.Request} {script : List Web.Recv} {buf : Tape Char}
    (hstep : s.step lib (.post req script buf) = some t) :
    ∃ app, s.stage = .running app ∧ (t = { s with stage := .crashed } ∨ t = s ∨
      ∃ text, t = s.posted lib app text) := by
  simp only [Gateway.step] at hstep
  split at hstep
  · rename_i app hstage
    rw [Option.ite_none_right_eq_some] at hstep
    obtain ⟨-, hstep⟩ := hstep
    refine ⟨app, hstage, ?_⟩
    unfold Gateway.post at hstep
    split at hstep
    · exact .inl (Option.some.inj hstep).symm
    · cases hstep
    · exact .inr (.inl (Option.some.inj hstep).symm)
    · exact .inr (.inr ⟨_, (Option.some.inj hstep).symm⟩)
  · cases hstep

end Gateway

end

end VhomeBridge.Main
