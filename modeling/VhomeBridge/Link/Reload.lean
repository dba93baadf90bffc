import VhomeBridge.Lib.Run
import VhomeBridge.Link.Groups

/-! The link configuration across reboots.  `mqtt_handle` writes the text of a `linkButton` message
to the file `link_node` before it builds the map from it; `app_main` builds the map from the first
line of the file, as far as 1023 bytes of it.  A fault takes the map away. -/

namespace VhomeBridge.Link.Reload

open Lib

/-- The stored text of `link_node`, and the map, `none` after a fault. -/
structure Gateway where
  linkNode : Option Text
  map : Option MapStr

/-- Before the first message: no file, and the map as it is without initializer. -/
def start : Gateway := ⟨none, some mapInit⟩

inductive Event
  | payload (item : Text)
  | reboot

/-- `readfromfile`: `fgets` for `line[1024]`, without the newline.  From an empty file nothing is
read into `line`. -/
def readfromfile (file : Text) : Option Text :=
  if file.isEmpty then none else some ((file.take 1023).takeWhile (· != '\n'))

/-- The branch of `mqtt_handle` for the action `linkButton`. -/
def linkButton (item : Text) : Gateway := ⟨some item, jsonParsing item⟩

/-- `app_main` up to the map. -/
def appMain (s : Gateway) : Gateway where
  linkNode := s.linkNode
  map :=
    match s.linkNode with
    | none => some mapInit
    | some file => (readfromfile file).bind jsonParsing

/-- A message of which the JSON library says that its action is `linkButton`, or a reboot. -/
def step (isLinkButton : Text → Bool) (s : Gateway) : Event → Option Gateway
  | .payload item => if s.map.isSome && isLinkButton item then some (linkButton item) else none
  | .reboot => some (appMain s)

/-- A reboot completes, with a map that answers as the one before. -/
def RebootKeeps (s : Gateway) : Prop :=
  ∃ m m', s.map = some m ∧ (appMain s).map = some m' ∧ ∀ key, mapGet m' key = mapGet m key

/-- The text and the line that is read back start with the same object, followed by blanks, commas
and whole values only, and the lists of the object can be put together and fit. -/
def Reloadable (item : Text) : Prop :=
  ∃ doc stored : Document, doc.text = item ∧ readfromfile item = some stored.text ∧
    stored.root = doc.root ∧ ∃ lists, listTable.walk doc.root = some lists ∧ Fit lists

def Meets (_ : Gateway) : Event → Prop
  | .payload item => Reloadable item
  | .reboot => True

def Kept (s : Gateway) : Prop :=
  ∃ m m', s.map = some m ∧ (appMain s).map = some m' ∧ m'.links = m.links

theorem Kept.rebootKeeps {s : Gateway} (h : Kept s) : RebootKeeps s := by
  obtain ⟨m, m', hm, hm', hlinks⟩ := h
  refine ⟨m, m', hm, hm', fun key => ?_⟩
  rw [mapGet_eq, mapGet_eq, hlinks]

theorem kept_start : Kept start := ⟨mapInit, mapInit, rfl, rfl, rfl⟩

theorem Reloadable.kept {item : Text} (h : Reloadable item) : Kept (linkButton item) := by
  obtain ⟨doc, stored, rfl, hread, hroot, lists, hlists, hfit⟩ := h
  obtain ⟨m, hm, -, hlinks⟩ := doc.jsonParsing_iff.mpr ⟨lists, hlists, hfit, rfl⟩
  obtain ⟨m', hm', -, hlinks'⟩ := stored.jsonParsing_iff.mpr ⟨lists, hroot ▸ hlists, hfit, rfl⟩
  refine ⟨m, m', hm, ?_, hlinks'.trans hlinks.symm⟩
  simp only [appMain, linkButton, hread, Option.bind_some, hm']

theorem Kept.appMain {s : Gateway} (h : Kept s) : Kept (appMain s) := by
  obtain ⟨m, m', -, hm', -⟩ := h
  exact ⟨m', m', hm', hm', rfl⟩

theorem Kept.step {isLinkButton : Text → Bool} {s s' : Gateway} {e : Event} (h : Kept s)
    (hstep : Guarded (Steps (step isLinkButton)) Meets s e s') : Kept s' := by
  obtain ⟨hstep, hmeets⟩ := hstep
  cases e with
  | payload item =>
    simp only [Steps, Reload.step] at hstep
    split at hstep
    · obtain rfl := Option.some.inj hstep
      exact Reloadable.kept hmeets
    · contradiction
  | reboot =>
    obtain rfl := Option.some.inj hstep
    exact h.appMain

/-- In every run of messages that can be read back, a reboot keeps the links. -/
theorem reboot_keeps (isLinkButton : Text → Bool) {es : List Event} {s : Gateway}
    (run : Run (Guarded (Steps (step isLinkButton)) Meets) start es s) : RebootKeeps s :=
  (run.invariant kept_start fun _ _ _ h hstep => h.step hstep).rebootKeeps

/-! ### Two messages -/

def twoLines : Text := "\x7b\"action\":\"linkButton\",\n\"link\":[]\x7d".toList

/-- The first line of a configuration over two lines ends inside its object. -/
theorem twoLines_lost :
    ¬ ∀ (isLinkButton : Text → Bool) (es : List Event) (s : Gateway),
      Run (Steps (step isLinkButton)) start es s → RebootKeeps s := by
  intro h
  have hlive : (jsonParsing twoLines).isSome = true := by decide
  have hrun : Run (Steps (step (· == twoLines))) start [.payload twoLines] (linkButton twoLines) :=
    Run.single (by simp [Steps, step, start])
  obtain ⟨m, m', -, hm', -⟩ := h _ _ _ hrun
  have hfault : ((readfromfile twoLines).bind jsonParsing).isNone = true := by decide
  rw [show ((readfromfile twoLines).bind jsonParsing) = some m' from hm'] at hfault
  contradiction

set_option maxRecDepth 2000 in
theorem reboot_keeps_switchAndLamp : RebootKeeps (linkButton switchAndLamp.text) := by
  have hmeets : Reloadable switchAndLamp.text :=
    ⟨switchAndLamp, switchAndLamp, rfl, by decide, rfl,
      [("0x1A2Bzigbee1".toList, "0x0005ble2 ".toList),
        ("0x0005ble2".toList, "0x1A2Bzigbee1 ".toList)],
      by decide, by decide⟩
  have hstep : Steps (step (· == switchAndLamp.text)) start (.payload switchAndLamp.text)
      (linkButton switchAndLamp.text) := by
    simp [Steps, step, start]
  exact reboot_keeps (· == switchAndLamp.text) (Run.single ⟨hstep, hmeets⟩)

end VhomeBridge.Link.Reload
