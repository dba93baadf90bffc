import VhomeBridge.Main.Boot

/-! What the files do to a gateway.  The broker and the device that it has are those of the last
text that was posted, and a file that `app_main` cannot read keeps it from ever running again. -/

namespace VhomeBridge.Main

open Lib Link JsonUser JsonRecords Infor

/-! ### Reading the files -/

section

variable {lib : CJsonLib} {text : Text}

/-- The strings of the text stay in the records, and the topics have room for the id. -/
def Analysable (lib : CJsonLib) (text : Text) : Prop :=
  (∀ item ∈ parsedItems lib text, FitsRecord item) ∧
    (deviceGiven (parsedItems lib text)).id.length < 75

/-- `get_device_infor` can read the file, or what `buff` holds if there is none. -/
def DeviceReadable (lib : CJsonLib) : Option Text → Prop
  | none => ∃ buff, Analysable lib buff
  | some file => ∃ line, Reload.readfromfile file = some line ∧ line.length < 513 ∧
      Analysable lib line

/-- `json_parsing` gives a map for the line that is read back from the file, if there is one. -/
def LinksReadable (file : Option Text) : Prop :=
  ∀ text, file = some text →
    ∃ line, Reload.readfromfile text = some line ∧ (jsonParsing line).isSome

theorem deviceReadable_iff (file : Option Text) : DeviceReadable lib file ↔
    ∃ buff line, readInto 513 file buff = some line ∧ Analysable lib line := by
  cases file with
  | none => simp only [DeviceReadable, readInto, Option.some.injEq, exists_eq_left']
  | some file =>
    simp only [DeviceReadable, readInto, Option.bind_eq_some_iff, exists_const, intoBuffer,
      Option.ite_none_right_eq_some, Option.some.injEq]
    constructor
    · rintro ⟨line, hread, hlen, h⟩
      exact ⟨line, ⟨line, hread, hlen, rfl⟩, h⟩
    · rintro ⟨line, ⟨line', hread, hlen, rfl⟩, h⟩
      exact ⟨line', hread, hlen, h⟩

theorem readLinks_isSome (file : Option Text) : (readLinks file).isSome ↔ LinksReadable file := by
  cases file with
  | none => simp [readLinks, LinksReadable]
  | some text =>
    cases hread : Reload.readfromfile text with
    | none => simp [readLinks, LinksReadable, hread]
    | some line => simp [readLinks, LinksReadable, hread]

/-- The device, the broker and the topics that `app_main` takes from a line. -/
structure Configured (lib : CJsonLib) (line : Text) (infor : Infor) (topics : Mqtt.Topics) :
    Prop where
  strings : infor.strings =
    some (deviceGiven (parsedItems lib line), brokerGiven (parsedItems lib line))
  topics : topics = Mqtt.Topics.texts (deviceGiven (parsedItems lib line)).id

/-- What `app_main` loads from files that it can read. -/
theorem load_of_readable {s : Gateway} {buff line : Text} {map : MapStr}
    (hread : readInto 513 s.deviceinfor buff = some line) (hline : Analysable lib line)
    (hlinks : readLinks s.linkNode = some map) : (s.load lib buff).isSome := by
  obtain ⟨hfit, hid⟩ := hline
  simp only [Gateway.load, (Infor.getDeviceInfor_eq hread).mpr ⟨hfit, rfl⟩, hlinks,
    withBroker_withBroker, strings_given hfit, Mqtt.Topics.ofDevice_eq hid, Bind.bind, pure,
    Option.bind_some, Option.isSome_some]

theorem load_some {s : Gateway} {buff : Text} {infor : Infor} {map : MapStr}
    {topics : Mqtt.Topics} (h : s.load lib buff = some (infor, map, topics)) :
    ∃ line, readInto 513 s.deviceinfor buff = some line ∧ Analysable lib line ∧
      readLinks s.linkNode = some map ∧ Configured lib line infor topics := by
  simp only [Gateway.load, Option.bind_eq_bind, Option.bind_eq_some_iff, pure, Option.some.injEq,
    Prod.mk.injEq] at h
  obtain ⟨first, hfirst, map', hlinks, ⟨d, b⟩, hstrings, topics', htopics, rfl, rfl, rfl⟩ := h
  have hdefined : (readInto 513 s.deviceinfor buff).isSome := by
    by_contra hnone
    rw [Option.not_isSome_iff_eq_none] at hnone
    simp only [Infor.getDeviceInfor, hnone, Bind.bind, Option.bind_none, reduceCtorEq] at hfirst
  obtain ⟨line, hread⟩ := Option.isSome_iff_exists.mp hdefined
  obtain ⟨hfit, rfl⟩ := (Infor.getDeviceInfor_eq hread).mp hfirst
  rw [withBroker_withBroker, strings_given hfit, Option.some.injEq, Prod.mk.injEq] at hstrings
  obtain ⟨rfl, rfl⟩ := hstrings
  have hid := Mqtt.Topics.ofDevice_isSome.mp (Option.isSome_of_eq_some htopics)
  rw [Mqtt.Topics.ofDevice_eq hid, Option.some.injEq] at htopics
  refine ⟨line, hread, ⟨hfit, hid⟩, hlinks, ?_, htopics.symm⟩
  rw [withBroker_withBroker, strings_given hfit]

theorem load_isSome (s : Gateway) : (∃ buff, (s.load lib buff).isSome) ↔
    DeviceReadable lib s.deviceinfor ∧ LinksReadable s.linkNode := by
  rw [deviceReadable_iff, ← readLinks_isSome]
  constructor
  · rintro ⟨buff, hload⟩
    obtain ⟨⟨infor, map, topics⟩, hload⟩ := Option.isSome_iff_exists.mp hload
    obtain ⟨line, hread, hline, hlinks, -⟩ := load_some hload
    exact ⟨⟨buff, line, hread, hline⟩, Option.isSome_of_eq_some hlinks⟩
  · rintro ⟨⟨buff, line, hread, hline⟩, hlinks⟩
    obtain ⟨map, hmap⟩ := Option.isSome_iff_exists.mp hlinks
    exact ⟨buff, load_of_readable hread hline hmap⟩

end

/-! ### A gateway to be configured -/

def postRequest (body : Text) (h : body.length < 2 ^ 32) : Web.Request where
  uri := "/ap".toList
  contentType := "application/json".toList
  body := body
  uri_path := by decide
  uri_string := by decide
  small := h

/-- The compatible mode, with an empty buffer for the body. -/
def waiting : Gateway :=
  ⟨false, true, none, none,
    .running ⟨.compatible, true, blank.withBroker, mapInit, Mqtt.Topics.texts []⟩⟩

def emptyBuf : Tape Char := fun _ => '\x00'

/-- A library that finds one object at the front of a text. -/
def frontLib (front : Text) (root : CJson) : CJsonLib where
  parse := fun text => if front <+: text then some root else none
  getObjectItem := fun _ _ => none
  getArrayItem := fun _ _ => none

def isRunning : Stage → Bool
  | .running _ => true
  | _ => false

def homeText : Text := "\x7b\"broker\":\"mqtt://home\",\"deviceid\":\"gw\"\x7d".toList

def homeTree : CJson :=
  .mk none none 0 [.mk (some "broker".toList) (some "mqtt://home".toList) 0 [],
    .mk (some "deviceid".toList) (some "gw".toList) 0 []]

/-! ### Running again -/

namespace Gateway

section

variable {lib : CJsonLib} {s t : Gateway} {e : Event}

/-- The presses leave the files alone. -/
theorem fivePresses_files (s : Gateway) : s.fivePresses.deviceinfor = s.deviceinfor ∧
    s.fivePresses.linkNode = s.linkNode := by
  unfold fivePresses
  split
  · exact ⟨rfl, rfl⟩
  · split <;> exact ⟨rfl, rfl⟩

/-- The gateway does not run, and its files are those of `s`. -/
structure Down (s t : Gateway) : Prop where
  deviceinfor : t.deviceinfor = s.deviceinfor
  linkNode : t.linkNode = s.linkNode
  stage : ∀ app, t.stage ≠ .running app

/-- A gateway that does not run and cannot read its files stays so. -/
theorem Down.step {u : Gateway} (h : s.Down t)
    (hfiles : ¬(DeviceReadable lib s.deviceinfor ∧ LinksReadable s.linkNode))
    (hstep : t.step lib e = some u) : s.Down u := by
  obtain ⟨hdevice, hlinks, hstage⟩ := h
  cases e with
  | reset reason quick compatible =>
    obtain rfl := Option.some.inj hstep
    split
    · exact ⟨hdevice, hlinks, fun _ hno => by cases hno⟩
    · exact ⟨hdevice, hlinks, fun _ hno => by cases hno⟩
  | appMain buff =>
    simp only [Gateway.step] at hstep
    split at hstep
    · obtain rfl := Option.some.inj hstep
      unfold Gateway.appMain
      split
      · rename_i hload
        have hreadable := (load_isSome t).mp ⟨buff, Option.isSome_of_eq_some hload⟩
        rw [hdevice, hlinks] at hreadable
        exact absurd hreadable hfiles
      · exact ⟨hdevice, hlinks, fun _ hno => by cases hno⟩
    · cases hstep
  | fivePresses =>
    simp only [Gateway.step] at hstep
    split at hstep
    · cases hstep
    · obtain rfl := Option.some.inj hstep
      obtain ⟨hdevice', hlinks'⟩ := fivePresses_files t
      exact ⟨hdevice'.trans hdevice, hlinks'.trans hlinks, fun _ hno => by cases hno⟩
  | postRestart =>
    simp only [Gateway.step] at hstep
    split at hstep
    · obtain rfl := Option.some.inj hstep
      exact ⟨hdevice, hlinks, fun _ hno => by cases hno⟩
    · cases hstep
  | sendAckDone | post | linkButton =>
    simp only [Gateway.step] at hstep
    cases hstep

end

section

variable {lib : CJsonLib} {s t : Gateway} {e : Event}

/-! ### The last text that was posted -/

/-- The text is in the file, and what runs has its device and its broker. -/
structure Keeps (lib : CJsonLib) (text : Text) (s : Gateway) : Prop where
  file : s.deviceinfor = some text
  app : ∀ app, s.stage = .running app → ∃ line, readInto 513 (some text) [] = some line ∧
    Configured lib line app.infor app.topics

theorem posted_keeps (app : App) (text : Text) : Keeps lib text (s.posted lib app text) := by
  unfold posted
  split
  · exact ⟨rfl, fun _ h => by cases h⟩
  · exact ⟨rfl, fun _ h => by cases h⟩

theorem Keeps.of_down {text : Text} (h : Keeps lib text s) (hfile : t.deviceinfor = s.deviceinfor)
    (hstage : ∀ app, t.stage ≠ .running app) : Keeps lib text t :=
  ⟨hfile.trans h.file, fun app happ => absurd happ (hstage app)⟩

theorem Keeps.step {text : Text} (h : Keeps lib text s) (hpost : e.isPost = false)
    (hstep : s.step lib e = some t) : Keeps lib text t := by
  cases e with
  | reset reason quick compatible =>
    obtain rfl := Option.some.inj hstep
    split
    · exact h.of_down rfl fun _ hno => by cases hno
    · exact h.of_down rfl fun _ hno => by cases hno
  | appMain buff =>
    simp only [Gateway.step] at hstep
    split at hstep
    · obtain rfl := Option.some.inj hstep
      unfold Gateway.appMain
      split
      · rename_i hload
        obtain ⟨line, hread, -, -, hconfigured⟩ := load_some hload
        -- with a file nothing depends on what the array held
        rw [h.file] at hread
        refine ⟨h.file, fun app happ => ?_⟩
        cases happ
        exact ⟨line, hread, hconfigured⟩
      · exact h.of_down rfl fun _ hno => by cases hno
    · cases hstep
  | fivePresses =>
    simp only [Gateway.step] at hstep
    split at hstep
    · cases hstep
    · obtain rfl := Option.some.inj hstep
      exact h.of_down (fivePresses_files s).1 fun _ hno => by cases hno
  | sendAckDone =>
    simp only [Gateway.step] at hstep
    split at hstep
    · rename_i app hstage
      rw [Option.ite_none_right_eq_some] at hstep
      obtain ⟨-, hstep⟩ := hstep
      obtain rfl := Option.some.inj hstep
      refine ⟨h.file, fun app' happ' => ?_⟩
      cases happ'
      exact h.app app hstage
    · cases hstep
  | post => cases hpost
  | postRestart =>
    simp only [Gateway.step] at hstep
    split at hstep
    · obtain rfl := Option.some.inj hstep
      exact h.of_down rfl fun _ hno => by cases hno
    · cases hstep
  | linkButton item =>
    simp only [Gateway.step] at hstep
    split at hstep
    · rename_i app hstage
      rw [Option.ite_none_right_eq_some] at hstep
      obtain ⟨-, hstep⟩ := hstep
      obtain rfl := Option.some.inj hstep
      unfold Gateway.linkButton
      split
      · exact h.of_down rfl fun _ hno => by cases hno
      · refine ⟨h.file, fun app' happ' => ?_⟩
        cases happ'
        exact h.app app hstage
    · cases hstep

/-- The text of a body that comes in one piece is read from behind it too. -/
theorem postText_one {req : Web.Request} {script : List Web.Recv} (buf : Tape Char)
    (hdelivers : Web.Delivers 200 req.body script) (hone : Web.pieces script = [req.body]) :
    Web.postText req script buf = ((buf.write 0 req.body).string '\x00' 200 0).bind fun text =>
      some (.done text) := by
  obtain ⟨-, hle⟩ := hdelivers.piece req.body (by simp [hone])
  have hrem : req.remaining = (Web.pieces script).flatten.length := by
    rw [hdelivers.whole, Web.Request.remaining_of_lt (by omega)]
  have hreceive := Web.receive_pieces hdelivers.piece hdelivers.ok hrem buf
  rw [Web.postText_done hreceive, hone]
  rfl

theorem postHandler_done {req : Web.Request} {script : List Web.Recv} {buf : Tape Char}
    {raw text : Text} (hraw : Web.postText req script buf = some (.done raw))
    (hdecode : Web.decodeText 200 req raw = some text) :
    Web.postHandler req script buf = some (.done text) := by
  simp only [Web.postHandler, hraw, hdecode, Bind.bind, Option.bind_some, pure]

/-- It is the body, and what stood behind it. -/
theorem postText_prefix {req : Web.Request} {script : List Web.Recv} {buf : Tape Char} {raw : Text}
    (hdelivers : Web.Delivers 200 req.body script) (hone : Web.pieces script = [req.body])
    (hnul : '\x00' ∉ req.body) (hraw : Web.postText req script buf = some (.done raw)) :
    (∃ rest, raw = req.body ++ rest) ∧ raw.length < 200 := by
  rw [postText_one buf hdelivers hone] at hraw
  obtain ⟨read, hstring, hdone⟩ := Option.bind_eq_some_iff.mp hraw
  obtain rfl : read = raw := by simpa using hdone
  obtain ⟨hlen, hholds, -⟩ := Tape.string_some hstring
  have hbody : (buf.write 0 req.body).Holds 0 req.body := Tape.holds_write
  have hshort : req.body.length ≤ read.length := by
    by_contra hlong
    have hnul' : (buf.write 0 req.body) (0 + read.length) = '\x00' :=
      (Tape.holds_append.mp hholds).2 0 _ rfl
    have hget := List.getElem?_eq_getElem (Nat.lt_of_not_le hlong)
    rw [hbody _ _ hget] at hnul'
    exact hnul (hnul' ▸ List.getElem_mem _)
  refine ⟨⟨read.drop req.body.length, ?_⟩, by omega⟩
  have htake : read.take req.body.length = req.body := by
    refine List.ext_getElem? fun k => ?_
    by_cases hk : k < req.body.length
    · rw [List.getElem?_take_of_lt hk]
      have hread := List.getElem?_eq_getElem (show k < read.length by omega)
      have hcell := List.getElem?_eq_getElem hk
      rw [hread, hcell, ← (Tape.holds_append.mp hholds).1 k _ hread]
      exact congrArg some (hbody k _ hcell)
    · rw [List.getElem?_eq_none (by rw [List.length_take]; omega),
        List.getElem?_eq_none (by omega)]
  exact (List.take_append_drop req.body.length read).symm.trans (by rw [htake])

/-- With a NUL somewhere behind the body the handler gets a text. -/
theorem postText_done_of_end {req : Web.Request} {script : List Web.Recv} {buf : Tape Char}
    (hdelivers : Web.Delivers 200 req.body script) (hone : Web.pieces script = [req.body])
    (hend : ∃ k < 200, req.body.length ≤ k ∧ buf k = '\x00') :
    ∃ raw, Web.postText req script buf = some (.done raw) := by
  rw [postText_one buf hdelivers hone]
  obtain ⟨k, hk, hbehind, hcell⟩ := hend
  have hstring : ((buf.write 0 req.body).string '\x00' 200 0).isSome :=
    Tape.string_isSome_iff.mpr ⟨k, hk, (Tape.write_of_ge (by omega)).trans hcell⟩
  obtain ⟨raw, hraw⟩ := Option.isSome_iff_exists.mp hstring
  exact ⟨raw, by rw [hraw]; rfl⟩

/-- The first line of a text that starts with a body without newline. -/
theorem readfromfile_prefix {body rest : Text} (hbody : body ≠ []) (hline : '\n' ∉ body)
    (hlen : (body ++ rest).length < 200) :
    ∃ rest', Reload.readfromfile (body ++ rest) = some (body ++ rest') ∧
      (body ++ rest').length < 513 := by
  refine ⟨rest.takeWhile (· != '\n'), ?_, ?_⟩
  · rw [Reload.readfromfile, if_neg (by simpa using fun h => absurd h hbody),
      List.take_of_length_le (by omega), List.takeWhile_append_of_pos]
    intro c hc
    simpa using fun heq : c = '\n' => hline (heq ▸ hc)
  · have := (List.takeWhile_prefix (l := rest) (· != '\n')).length_le
    rw [List.length_append] at hlen ⊢
    omega

/-- A gateway to which a line of JSON was posted in one piece, with a NUL somewhere behind it in the
buffer, has the broker, the device and the topics of that line whenever it runs later, until another
text is posted, whatever resets, losses of power, presses and links come in between. -/
theorem configured {req : Web.Request} {script : List Web.Recv} {buf : Tape Char} {root : CJson}
    {es : List Event} {app : App} (hplain : Web.strstr "urlencoded".toList req.contentType = none)
    (hdelivers : Web.Delivers 200 req.body script) (hone : Web.pieces script = [req.body])
    (hnul : '\x00' ∉ req.body) (hline : '\n' ∉ req.body)
    (hend : ∃ k < 200, req.body.length ≤ k ∧ buf k = '\x00')
    (hparse : ∀ rest, lib.parse (req.body ++ rest) = some root)
    (hpost : s.step lib (.post req script buf) = some t)
    {u : Gateway} (run : Run (Guarded (Steps (step lib)) fun _ e => e.isPost = false) t es u)
    (happ : u.stage = .running app) :
    app.infor.strings = some (deviceGiven root.child, brokerGiven root.child) ∧
      app.topics = Mqtt.Topics.texts (deviceGiven root.child).id := by
  obtain ⟨hne, -⟩ := hdelivers.piece req.body (by simp [hone])
  obtain ⟨raw, hraw⟩ := postText_done_of_end hdelivers hone hend
  obtain ⟨⟨rest, rfl⟩, hlen⟩ := postText_prefix hdelivers hone hnul hraw
  have hdecode : Web.decodeText 200 req (req.body ++ rest) = some (req.body ++ rest) := by
    rw [Web.decodeText, hplain]
    rfl
  obtain ⟨app0, rfl⟩ := post_eq (postHandler_done hraw hdecode) hpost
  have hkeeps : Keeps lib (req.body ++ rest) u :=
    run.invariant (posted_keeps app0 _) fun _ _ _ h hstep => h.step hstep.2 hstep.1
  obtain ⟨rest', hread, hsmall⟩ := readfromfile_prefix hne hline hlen
  obtain ⟨line, hbuff, hstrings, htopics⟩ := hkeeps.app app happ
  rw [readInto, hread, Option.bind_some, intoBuffer, if_pos hsmall, Option.some.injEq] at hbuff
  have hitems : parsedItems lib line = root.child := by
    rw [parsedItems, ← hbuff, hparse rest']
    rfl
  rw [hitems] at hstrings htopics
  exact ⟨hstrings, htopics⟩

end

/-- The gateway has the broker after the restart. -/
theorem configured_home :
    ∃ t u app, (waiting.step (frontLib homeText homeTree)
        (.post (postRequest homeText (by decide)) [.data homeText] emptyBuf)) = some t ∧
      Run (Guarded (Steps (step (frontLib homeText homeTree))) fun _ e => e.isPost = false) t
        [.postRestart, .appMain []] u ∧ u.stage = .running app ∧
      app.infor.strings = some (⟨"gw".toList, []⟩, "mqtt://home".toList) ∧
        app.topics = Mqtt.Topics.texts "gw".toList := by
  have hexec : ((waiting.step (frontLib homeText homeTree)
      (.post (postRequest homeText (by decide)) [.data homeText] emptyBuf)).bind fun t =>
        exec (restrict (step (frontLib homeText homeTree)) fun _ e => !e.isPost) t
          [.postRestart, .appMain []]).map (fun u => isRunning u.stage) = some true := by
    decide +kernel
  obtain ⟨u, hu, hrunning⟩ := Option.map_eq_some_iff.mp hexec
  obtain ⟨t, ht, hrun⟩ := Option.bind_eq_some_iff.mp hu
  have run : Run (Guarded (Steps (step (frontLib homeText homeTree))) fun _ e => e.isPost = false)
      t [.postRestart, .appMain []] u :=
    Run.of_exec_restrict (fun _ _ h => by simpa using h) hrun
  obtain ⟨app, happ⟩ : ∃ app, u.stage = .running app := by
    unfold isRunning at hrunning
    split at hrunning
    · exact ⟨_, ‹_›⟩
    · cases hrunning
  have hparse : ∀ rest, (frontLib homeText homeTree).parse (homeText ++ rest) = some homeTree :=
    fun rest => by simp [frontLib]
  have hdelivers : Web.Delivers 200 homeText [.data homeText] :=
    ⟨List.append_nil _, by decide, by simp⟩
  have hgiven := configured (by decide) hdelivers rfl (by decide) (by decide)
    ⟨199, by decide, by decide, rfl⟩ hparse ht run happ
  exact ⟨t, u, app, ht, run, happ, hgiven⟩

end Gateway

end VhomeBridge.Main
