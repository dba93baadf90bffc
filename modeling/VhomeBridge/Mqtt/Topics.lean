import VhomeBridge.JsonUser
import VhomeBridge.Lib.Lines
import VhomeBridge.Lib.TopicFilter

/-! The topics of a gateway.  `app_main` builds them from the device id once it has read it; with
`MQTT_EVENT_CONNECTED` the gateway subscribes to two of them, and it publishes on the others.  The
broker is a parameter: `takes filter topic` says that it sends what is published on `topic` to those
who subscribed to `filter`, in which `+` and `#` are wildcards. -/

namespace VhomeBridge.Mqtt

open Lib JsonUser

/-- The format `root/%s/last`. -/
def topic (root : String) (id : Text) (last : String) : Text :=
  root.toList ++ '/' :: (id ++ '/' :: last.toList)

structure Topics where
  cmdSet : Text
  bledevicejoined : Text
  bledeviceaction : Text
  devicejoined : Text
  deviceaction : Text
  deviceleft : Text
  devicerejoin : Text
  battery : Text
  msg : Text
  linkButton : Text
  deriving DecidableEq

namespace Topics

/-- The topics that `app_main` writes, each into an array of 100 characters. -/
def ofDevice (deviceInfor : Device) : Option Topics := do
  let id := deviceInfor.id
  let cmdSet ← intoBuffer 100 (topic "ont2mqtt" id "commands/set")
  let bledevicejoined ← intoBuffer 100 (topic "ont2mqtt" id "bledevicejoined")
  let bledeviceaction ← intoBuffer 100 (topic "ont2mqtt" id "bledeviceaction")
  let devicejoined ← intoBuffer 100 (topic "ont2mqtt" id "devicejoined")
  let deviceaction ← intoBuffer 100 (topic "ont2mqtt" id "deviceaction")
  let deviceleft ← intoBuffer 100 (topic "ont2mqtt" id "deviceleft")
  let devicerejoin ← intoBuffer 100 (topic "ont2mqtt" id "devicerejoin")
  let battery ← intoBuffer 100 (topic "ont2mqtt" id "battery")
  let msg ← intoBuffer 100 (topic "messages" id "attribute")
  let linkButton ← intoBuffer 100 (topic "ont2mqtt" id "linkButton")
  return { cmdSet, bledevicejoined, bledeviceaction, devicejoined, deviceaction, deviceleft,
           devicerejoin, battery, msg, linkButton }

/-- What the gateway subscribes to. -/
def subscribed (t : Topics) : List Text := [t.cmdSet, t.linkButton]

/-- What it publishes on. -/
def reports (t : Topics) : List Text :=
  [t.bledevicejoined, t.bledeviceaction, t.devicejoined, t.deviceaction, t.deviceleft,
    t.devicerejoin, t.battery, t.msg]

end Topics

/-- The levels of a topic. -/
def levels (topic : Text) : List Text := topic.splitOn '/'

def NoWildcard (text : Text) : Prop := '+' ∉ text ∧ '#' ∉ text

instance (text : Text) : Decidable (NoWildcard text) := inferInstanceAs (Decidable (_ ∧ _))

/-- A wildcard is a level of its own, and `#` the last one. -/
def WellFormed (filter : Text) : Prop :=
  (∀ l ∈ (levels filter).dropLast, NoWildcard l ∨ l = "+".toList) ∧
    ∀ l ∈ (levels filter).getLast?, NoWildcard l ∨ l = "+".toList ∨ l = "#".toList

def Printable (text : Text) : Prop := ∀ c ∈ text, 32 ≤ c.toNat ∧ c.toNat < 127

instance (text : Text) : Decidable (Printable text) := List.decidableBAll ..

/-- A text of the length that the protocol allows, of plain characters.  A `$` in front is for the
topics and the subscriptions of the broker itself. -/
def Regular (text : Text) : Prop :=
  text ≠ [] ∧ text.length < 65536 ∧ text.head? ≠ some '$' ∧ Printable text

/-- What the protocol says of the broker. -/
structure BrokerLaws (takes : Text → Text → Prop) : Prop where
  /-- A filter without wildcards takes its own topic and no other. -/
  plain : ∀ filter topic, Regular filter → NoWildcard filter → (takes filter topic ↔ topic = filter)
  /-- A level `+` takes any level in its place. -/
  one : ∀ filter topic, Regular filter → WellFormed filter → '#' ∉ filter → Regular topic →
    NoWildcard topic →
    List.Forall₂ (fun l l' => l = "+".toList ∨ l = l') (levels filter) (levels topic) →
    takes filter topic
  /-- A filter that is not well formed is refused. -/
  refused : ∀ filter topic, takes filter topic → WellFormed filter
  /-- A filter whose last level is no wildcard takes topics with that last level only. -/
  last : ∀ filter topic l, takes filter topic → (levels filter).getLast? = some l → NoWildcard l →
    (levels topic).getLast? = some l

/-- The broker sends the gateway what is published on the topic. -/
def Topics.Hears (takes : Text → Text → Prop) (t : Topics) (topic : Text) : Prop :=
  ∃ f ∈ t.subscribed, takes f topic

/-- The gateway is sent its own commands and link messages, and no others of their kind. -/
def Topics.OwnOnly (takes : Text → Text → Prop) (t : Topics) (id : Text) : Prop :=
  ∀ id', (t.Hears takes (topic "ont2mqtt" id' "commands/set") ↔ id' = id) ∧
    (t.Hears takes (topic "ont2mqtt" id' "linkButton") ↔ id' = id)

/-! ### Topics by their levels -/

section

variable {id id' : Text} {root last : String}

theorem levels_inj : levels id = levels id' ↔ id = id' := by
  have hjoin : ∀ id : Text, ['/'].intercalate (levels id) = id := fun _ =>
    List.intercalate_splitOn '/'
  refine ⟨fun h => ?_, fun h => h ▸ rfl⟩
  rw [← hjoin id, ← hjoin id', h]

theorem levels_topic (root : String) (id : Text) (last : String) :
    levels (topic root id last) = levels root.toList ++ levels id ++ levels last.toList := by
  simp only [levels, topic, List.splitOn_append_cons_self, List.append_assoc]

theorem getLast_topic (root : String) (id : Text) (last : String) :
    (levels (topic root id last)).getLast? = (levels last.toList).getLast? := by
  have hne : levels last.toList ≠ [] := List.splitOn_ne_nil _ _
  rw [levels_topic, List.getLast?_append_of_ne_nil _ hne]

/-- Topics of one kind are told apart by the ids. -/
theorem topic_inj : topic root id last = topic root id' last ↔ id = id' := by
  rw [← levels_inj, levels_topic, levels_topic, List.append_left_inj, List.append_right_inj,
    levels_inj]

theorem noWildcard_topic (hroot : NoWildcard root.toList) (hlast : NoWildcard last.toList) :
    NoWildcard (topic root id last) ↔ NoWildcard id := by
  simp only [NoWildcard, topic, List.mem_append, List.mem_cons, not_or] at *
  have hplus : '+' ≠ '/' := by decide
  have hhash : '#' ≠ '/' := by decide
  exact ⟨fun h => ⟨h.1.2.2.1, h.2.2.2.1⟩,
    fun h => ⟨⟨hroot.1, hplus, h.1, hplus, hlast.1⟩, hroot.2, hhash, h.2, hhash, hlast.2⟩⟩

theorem exists_mem_levels {c : Char} (hc : c ≠ '/') : (∃ l ∈ levels id, c ∈ l) ↔ c ∈ id :=
  exists_mem_splitOn hc id

theorem noWildcard_of_levels (h : ∀ l ∈ levels id, NoWildcard l) : NoWildcard id := by
  constructor
  · intro hplus
    obtain ⟨l, hl, hc⟩ := (exists_mem_levels (by decide)).mpr hplus
    exact (h l hl).1 hc
  · intro hhash
    obtain ⟨l, hl, hc⟩ := (exists_mem_levels (by decide)).mpr hhash
    exact (h l hl).2 hc

theorem noWildcard_of_mem {l : Text} (h : NoWildcard id) (hl : l ∈ levels id) : NoWildcard l :=
  ⟨fun hc => h.1 ((exists_mem_levels (by decide)).mp ⟨l, hl, hc⟩),
    fun hc => h.2 ((exists_mem_levels (by decide)).mp ⟨l, hl, hc⟩)⟩

theorem length_topic (root : String) (id : Text) (last : String) :
    (topic root id last).length = root.length + id.length + last.length + 2 := by
  simp only [topic, List.length_append, List.length_cons, String.length_toList]
  omega

/-- The topics of an id of plain characters are regular. -/
theorem regular_topic (hlen : id.length < 65000) (hid : Printable id)
    (hlast : Printable last.toList) (hroom : last.length < 100) :
    Regular (topic "ont2mqtt" id last) := by
  have hroot : Printable "ont2mqtt".toList := by decide
  have hslash : 32 ≤ '/'.toNat ∧ '/'.toNat < 127 := by decide
  refine ⟨by simp [topic], ?_, by simp [topic], ?_⟩
  · rw [length_topic, show "ont2mqtt".length = 8 by decide]
    omega
  · intro c hc
    simp only [topic, List.mem_append, List.mem_cons] at hc
    obtain hc | rfl | hc | rfl | hc := hc
    · exact hroot c hc
    · exact hslash
    · exact hid c hc
    · exact hslash
    · exact hlast c hc

end

/-! ### A broker -/

def filter (filter : Text) : List (Pattern Text) :=
  (levels filter).map (Pattern.ofLevel "+".toList "#".toList)

/-- A broker that matches filters level by level. -/
def mqttTakes (f topic : Text) : Prop :=
  WellFormed f ∧ Pattern.covers (filter f) (levels topic) = true

theorem ofLevel_of_noWildcard {l : Text} (h : NoWildcard l) :
    Pattern.ofLevel "+".toList "#".toList l = .level l := by
  have hplus : l ≠ "+".toList := by
    rintro rfl
    exact h.1 (by decide)
  have hhash : l ≠ "#".toList := by
    rintro rfl
    exact h.2 (by decide)
  rw [Pattern.ofLevel, if_neg hplus, if_neg hhash]

theorem mqttTakes_laws : BrokerLaws mqttTakes where
  plain f t _ hf := by
    have hlevels : ∀ l ∈ levels f, NoWildcard l := fun l hl => noWildcard_of_mem hf hl
    have hformed : WellFormed f :=
      ⟨fun l hl => .inl (hlevels l (List.dropLast_subset _ hl)),
        fun l hl => .inl (hlevels l (List.mem_of_getLast? hl))⟩
    have hfilter : filter f = (levels f).map .level :=
      List.map_congr_left fun l hl => ofLevel_of_noWildcard (hlevels l hl)
    rw [mqttTakes, hfilter, Pattern.covers_levels, levels_inj]
    exact and_iff_right hformed
  one f t _ hformed hhash _ _ h := by
    have hlevels : ∀ l ∈ levels f, l ≠ "#".toList := by
      rintro l hl rfl
      exact hhash ((exists_mem_levels (by decide)).mp ⟨_, hl, by decide⟩)
    refine ⟨hformed, Pattern.covers_of_accepts (List.forall₂_map_left_iff.mpr ?_)⟩
    refine ((List.forall₂_and_left _ _).mpr ⟨hlevels, h⟩).imp ?_
    rintro l l' ⟨hl, rfl | rfl⟩
    · trivial
    · rw [Pattern.ofLevel, if_neg hl]
      split
      · trivial
      · rfl
  refused f t h := h.1
  last f t l h hlast hl := by
    have hfilter : filter f = (levels f).dropLast.map (Pattern.ofLevel "+".toList "#".toList) ++
        [l].map .level := by
      conv_lhs => rw [filter, ← List.dropLast_append_getLast? l hlast, List.map_append]
      rw [List.map_singleton, List.map_singleton, ofLevel_of_noWildcard hl]
    have hcovers := h.2
    rw [hfilter, Pattern.covers_append_levels (by simp)] at hcovers
    obtain ⟨front, hfront, -⟩ := hcovers
    rw [hfront, List.getLast?_concat]

/-! ### What a gateway is sent -/

namespace Topics

/-- The topics for a device id. -/
def texts (id : Text) : Topics where
  cmdSet := topic "ont2mqtt" id "commands/set"
  bledevicejoined := topic "ont2mqtt" id "bledevicejoined"
  bledeviceaction := topic "ont2mqtt" id "bledeviceaction"
  devicejoined := topic "ont2mqtt" id "devicejoined"
  deviceaction := topic "ont2mqtt" id "deviceaction"
  deviceleft := topic "ont2mqtt" id "deviceleft"
  devicerejoin := topic "ont2mqtt" id "devicerejoin"
  battery := topic "ont2mqtt" id "battery"
  msg := topic "messages" id "attribute"
  linkButton := topic "ont2mqtt" id "linkButton"

section

variable {d d' : Device} {id : Text}

theorem intoBuffer_topic {root last : String} (hlen : root.length + last.length ≤ 23)
    (h : id.length < 75) : intoBuffer 100 (topic root id last) = some (topic root id last) := by
  rw [intoBuffer, if_pos]
  rw [length_topic]
  omega

theorem ofDevice_eq (h : d.id.length < 75) : ofDevice d = some (texts d.id) := by
  simp (disch := first | decide | exact h) only [ofDevice, intoBuffer_topic, Bind.bind,
    Option.bind_some, pure]
  rfl

/-- The arrays have room for the topics of ids of up to 74 characters. -/
theorem ofDevice_isSome : (ofDevice d).isSome ↔ d.id.length < 75 := by
  refine ⟨fun h => ?_, fun h => by rw [ofDevice_eq h, Option.isSome_some]⟩
  obtain ⟨t, ht⟩ := Option.isSome_iff_exists.mp h
  simp only [ofDevice, Option.bind_eq_bind, Option.bind_eq_some_iff] at ht
  obtain ⟨-, -, t, hjoined, -⟩ := ht
  rw [intoBuffer, Option.ite_none_right_eq_some, length_topic,
    show "ont2mqtt".length = 8 by decide, show "bledevicejoined".length = 15 by decide] at hjoined
  omega

variable {takes : Text → Text → Prop}

theorem hears_iff (id t : Text) : (texts id).Hears takes t ↔
    takes (topic "ont2mqtt" id "commands/set") t ∨ takes (topic "ont2mqtt" id "linkButton") t := by
  simp [Hears, subscribed, texts]

/-- What a filter takes ends with the last level of the filter. -/
theorem not_takes (h : BrokerLaws takes) {last : String} {l t : Text}
    (hlast : (levels last.toList).getLast? = some l) (hl : NoWildcard l)
    (ht : (levels t).getLast? ≠ some l) (id : Text) : ¬takes (topic "ont2mqtt" id last) t :=
  fun htakes => ht (h.last _ _ l htakes ((getLast_topic _ _ _).trans hlast) hl)

theorem not_takes_cmdSet (h : BrokerLaws takes) {t : Text}
    (ht : (levels t).getLast? ≠ some "set".toList) (id : Text) :
    ¬takes (topic "ont2mqtt" id "commands/set") t :=
  not_takes h (by decide +kernel) (by decide) ht id

theorem not_takes_linkButton (h : BrokerLaws takes) {t : Text}
    (ht : (levels t).getLast? ≠ some "linkButton".toList) (id : Text) :
    ¬takes (topic "ont2mqtt" id "linkButton") t :=
  not_takes h (by decide +kernel) (by decide) ht id

theorem hears_cmdSet (h : BrokerLaws takes) (id id' : Text) :
    (texts id).Hears takes (topic "ont2mqtt" id' "commands/set") ↔
      takes (topic "ont2mqtt" id "commands/set") (topic "ont2mqtt" id' "commands/set") := by
  rw [hears_iff, or_iff_left (not_takes_linkButton h (by rw [getLast_topic]; decide +kernel) id)]

theorem hears_linkButton (h : BrokerLaws takes) (id id' : Text) :
    (texts id).Hears takes (topic "ont2mqtt" id' "linkButton") ↔
      takes (topic "ont2mqtt" id "linkButton") (topic "ont2mqtt" id' "linkButton") := by
  rw [hears_iff, or_iff_right (not_takes_cmdSet h (by rw [getLast_topic]; decide +kernel) id)]

/-- The gateway with an id without wildcards. -/
theorem ownOnly_of_noWildcard (h : BrokerLaws takes) {id : Text} (hlen : id.length < 75)
    (hprint : Printable id) (hid : NoWildcard id) : (texts id).OwnOnly takes id := by
  intro id'
  have hcmd : Regular (topic "ont2mqtt" id "commands/set") :=
    regular_topic (by omega) hprint (by decide) (by decide)
  have hlink : Regular (topic "ont2mqtt" id "linkButton") :=
    regular_topic (by omega) hprint (by decide) (by decide)
  rw [hears_cmdSet h, hears_linkButton h,
    h.plain _ _ hcmd ((noWildcard_topic (by decide) (by decide)).mpr hid),
    h.plain _ _ hlink ((noWildcard_topic (by decide) (by decide)).mpr hid), topic_inj, topic_inj]
  exact ⟨Iff.rfl, Iff.rfl⟩

/-- The id with another character in the place of each `+`. -/
def replaced (id : Text) : Text := id.map fun c => if c = '+' then 'x' else c

theorem levels_replaced (id : Text) : levels (replaced id) = (levels id).map replaced := by
  refine splitOn_map (fun c => ?_) id
  split
  · simp_all
  · rfl

theorem replaced_eq {l : Text} (h : NoWildcard l) : replaced l = l := by
  refine (List.map_congr_left fun c hc => ?_).trans l.map_id
  have hplus : c ≠ '+' := fun hplus => h.1 (hplus ▸ hc)
  exact if_neg hplus

theorem noWildcard_replaced {id : Text} (h : '#' ∉ id) : NoWildcard (replaced id) := by
  constructor
  · intro hplus
    obtain ⟨c, -, hc⟩ := List.mem_map.mp hplus
    split at hc
    · exact absurd hc (by decide)
    · exact absurd hc ‹_›
  · intro hhash
    obtain ⟨c, hmem, hc⟩ := List.mem_map.mp hhash
    split at hc
    · exact absurd hc (by decide)
    · exact h (hc ▸ hmem)

theorem printable_replaced {id : Text} (h : Printable id) : Printable (replaced id) := by
  intro c hc
  obtain ⟨b, hb, rfl⟩ := List.mem_map.mp hc
  split
  · decide
  · exact h b hb

/-- The levels of an id in a filter that is well formed. -/
theorem levels_of_wellFormed {id : Text}
    (h : WellFormed (topic "ont2mqtt" id "commands/set")) :
    ∀ l ∈ levels id, NoWildcard l ∨ l = "+".toList := by
  have hset : levels "commands/set".toList = ["commands".toList, "set".toList] := by
    decide +kernel
  intro l hl
  apply h.1 l
  rw [levels_topic, hset, List.dropLast_append_of_ne_nil (by simp)]
  exact List.mem_append_left _ (List.mem_append_right _ hl)

/-- The filter for commands takes the topics of every id that has another level in the place of a
`+`. -/
theorem takes_replaced (h : BrokerLaws takes) {id : Text} (hlen : id.length < 75)
    (hprint : Printable id) (hformed : WellFormed (topic "ont2mqtt" id "commands/set")) :
    takes (topic "ont2mqtt" id "commands/set") (topic "ont2mqtt" (replaced id) "commands/set") := by
  have hlevels := levels_of_wellFormed hformed
  have hhash : '#' ∉ id := by
    intro hmem
    obtain ⟨l, hl, hc⟩ := (exists_mem_levels (by decide)).mpr hmem
    obtain hl | rfl := hlevels l hl
    · exact hl.2 hc
    · exact absurd hc (by decide)
  have hfilter : '#' ∉ topic "ont2mqtt" id "commands/set" := by
    simp only [topic, List.mem_append, List.mem_cons, not_or]
    exact ⟨by decide, by decide, hhash, by decide, by decide⟩
  refine h.one _ _ (regular_topic (by omega) hprint (by decide) (by decide)) hformed hfilter
    (regular_topic (by rw [replaced, List.length_map]; omega) (printable_replaced hprint)
      (by decide) (by decide))
    ((noWildcard_topic (by decide) (by decide)).mpr (noWildcard_replaced hhash)) ?_
  rw [levels_topic, levels_topic, levels_replaced]
  refine List.rel_append (List.rel_append (List.forall₂_same.mpr fun l _ => .inr rfl) ?_)
    (List.forall₂_same.mpr fun l _ => .inr rfl)
  refine List.forall₂_map_right_iff.mpr (List.forall₂_same.mpr fun l hl => ?_)
  obtain hl | rfl := hlevels l hl
  · exact .inr (replaced_eq hl).symm
  · exact .inl rfl

/-- A gateway that is sent its own commands only. -/
theorem noWildcard_of_ownOnly (h : BrokerLaws takes) {id : Text} (hlen : id.length < 75)
    (hprint : Printable id) (hown : (texts id).OwnOnly takes id) : NoWildcard id := by
  have hself := (hears_cmdSet h id id).mp ((hown id).1.mpr rfl)
  have hformed := h.refused _ _ hself
  have heq : replaced id = id := (hown (replaced id)).1.mp
    ((hears_cmdSet h id _).mpr (takes_replaced h hlen hprint hformed))
  refine noWildcard_of_levels fun l hl => ?_
  obtain hl | rfl := levels_of_wellFormed hformed l hl
  · exact hl
  · rw [← heq, levels_replaced] at hl
    obtain ⟨k, -, hk⟩ := List.mem_map.mp hl
    have hplus : '+' ∈ replaced k := hk ▸ List.mem_cons_self
    obtain ⟨c, -, hc⟩ := List.mem_map.mp hplus
    split at hc
    · exact absurd hc (by decide)
    · exact absurd hc ‹_›

/-- With a broker that keeps to the protocol the gateway is sent its own commands and link messages,
and no others, if and only if its id has no wildcard. -/
theorem ownOnly_iff_no_wildcard (h : BrokerLaws takes) (hlen : d.id.length < 75)
    (hprint : Printable d.id) :
    ∃ t, ofDevice d = some t ∧ (t.OwnOnly takes d.id ↔ NoWildcard d.id) :=
  ⟨texts d.id, ofDevice_eq hlen, noWildcard_of_ownOnly h hlen hprint,
    ownOnly_of_noWildcard h hlen hprint⟩

theorem ownOnly_iff_no_wildcard_plus :
    ∃ t, ofDevice ⟨"+".toList, []⟩ = some t ∧
      (t.OwnOnly mqttTakes "+".toList ↔ NoWildcard "+".toList) :=
  ownOnly_iff_no_wildcard mqttTakes_laws (by decide) (by decide)

/-- No gateway is sent what a gateway reports, not even itself. -/
theorem not_hears_reports (h : BrokerLaws takes) (hlen : d.id.length < 75)
    (hlen' : d'.id.length < 75) :
    ∃ t t', ofDevice d = some t ∧ ofDevice d' = some t' ∧
      ∀ report ∈ t'.reports, ¬t.Hears takes report := by
  refine ⟨texts d.id, texts d'.id, ofDevice_eq hlen, ofDevice_eq hlen', ?_⟩
  have hsilent : ∀ root last : String, (levels last.toList).getLast? ≠ some "set".toList →
      (levels last.toList).getLast? ≠ some "linkButton".toList →
        ¬(texts d.id).Hears takes (topic root d'.id last) := by
    intro root last hset hlinkButton hhears
    rw [← getLast_topic root d'.id] at hset hlinkButton
    obtain htakes | htakes := (hears_iff _ _).mp hhears
    · exact not_takes_cmdSet h hset d.id htakes
    · exact not_takes_linkButton h hlinkButton d.id htakes
  simp only [reports, texts, List.forall_mem_cons]
  refine ⟨?_, ?_, ?_, ?_, ?_, ?_, ?_, ?_, by simp⟩
  all_goals exact hsilent _ _ (by decide +kernel) (by decide +kernel)

theorem not_hears_reports_wildcard :
    ∃ t t', ofDevice ⟨"+".toList, []⟩ = some t ∧ ofDevice ⟨"gw".toList, []⟩ = some t' ∧
      ∀ report ∈ t'.reports, ¬t.Hears mqttTakes report :=
  not_hears_reports mqttTakes_laws (by decide) (by decide)

end

end Topics

end VhomeBridge.Mqtt
