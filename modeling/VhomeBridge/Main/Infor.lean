import VhomeBridge.JsonRecords
import VhomeBridge.Link.Reload

/-! `Device_Infor` and `brokerInfor` as they lie in memory, and what `get_device_infor` leaves in
them.  An id of 50 characters or more runs over into the token of the same record. -/

namespace VhomeBridge.Main

open JsonUser JsonRecords Lib Link

/-- The cells of `Device_Infor` and `brokerInfor`. -/
structure Infor where
  deviceInfor : Tape Char
  brokerInfor : Tape Char

/-- `id[50]` and `token[50]`. -/
def deviceSize : Nat := 100

def tokenAt : Nat := 50

def brokerSize : Nat := 100

/-- `BROKER`. -/
def defaultBroker : Text := "mqtt://mqtt.innoway.vn:1883".toList

/-- `readfromfile` into an array; without a file the array stays as it is. -/
def readInto (size : Nat) (file : Option Text) (buff : Text) : Option Text :=
  match file with
  | none => some buff
  | some file => (Reload.readfromfile file).bind (intoBuffer size)

namespace Infor

/-- The records after a reset. -/
def blank : Infor := ⟨fun _ => '\x00', fun _ => '\x00'⟩

def postItem (item : CJson) (s : Infor) : Option Infor := do
  let s ← onMember "broker" item (fun s => do
    return { s with brokerInfor := ← copyTo brokerSize 0 item.valuestring s.brokerInfor }) s
  let s ← onMember "deviceid" item (fun s => do
    return { s with deviceInfor := ← copyTo deviceSize 0 item.valuestring s.deviceInfor }) s
  onMember "devicetoken" item (fun s => do
    return { s with deviceInfor := ← copyTo deviceSize tokenAt item.valuestring s.deviceInfor }) s

section

variable (lib : CJsonLib)

/-- `JSON_analyze_post`. -/
def analyzePost (text : Text) (s : Infor) : Option Infor :=
  match lib.parse text with
  | none => some s
  | some root => root.child.foldlM (fun s item => postItem item s) s

/-- The default for a broker that was not given. -/
def withBroker (s : Infor) : Infor :=
  if s.brokerInfor 0 = '\x00' then
    { s with brokerInfor := s.brokerInfor.write 0 (defaultBroker ++ ['\x00']) }
  else s

/-- `get_device_infor`. -/
def getDeviceInfor (file : Option Text) (buff : Text) (s : Infor) : Option Infor := do
  let buff ← readInto 513 file buff
  let s ← s.analyzePost lib buff
  return s.withBroker

end

/-- The strings in the records. -/
def strings (s : Infor) : Option (Device × Text) := do
  let id ← s.deviceInfor.string '\x00' deviceSize 0
  let token ← s.deviceInfor.string '\x00' deviceSize tokenAt
  let broker ← s.brokerInfor.string '\x00' brokerSize 0
  return (⟨id, token⟩, broker)

/-! ### What a text gives -/

/-- The items of the parsed text. -/
def parsedItems (lib : CJsonLib) (text : Text) : List CJson := (lib.parse text).elim [] CJson.child

/-- The string that an item leaves in `token`: its own, or the rest of an id. -/
def tokenOf (item : CJson) : Option Text :=
  (textOf "devicetoken" item).or ((textOf "deviceid" item).bind (spill 50))

/-- An id that runs over is read back with the token. -/
def deviceGiven (items : List CJson) : Device :=
  let id := lastOf (textOf "deviceid") items []
  let token := lastOf tokenOf items []
  ⟨if id.length < 50 then id else id.take 50 ++ token, token⟩

def brokerGiven (items : List CJson) : Text :=
  let broker := lastOf (textOf "broker") items []
  if broker = [] then defaultBroker else broker

/-- The strings of the item stay in the records. -/
structure FitsRecord (item : CJson) : Prop where
  broker : FitsRoom "broker" 100 item
  deviceid : FitsRoom "deviceid" 100 item
  devicetoken : FitsRoom "devicetoken" 50 item

/-! ### The items in the records -/

def putItem (item : CJson) (s : Infor) : Infor where
  deviceInfor := putAt tokenAt (textOf "devicetoken" item)
    (putAt 0 (textOf "deviceid" item) s.deviceInfor)
  brokerInfor := putAt 0 (textOf "broker" item) s.brokerInfor

def put (items : List CJson) (s : Infor) : Infor := items.foldl (fun s item => putItem item s) s

section

variable {lib : CJsonLib} {text : Text} {item : CJson} {items : List CJson} {s : Infor}

theorem postItem_defined (item : CJson) :
    DefinedIf (FitsRecord item) (postItem item) (putItem item) := by
  have broker := copyTo_defined "broker" 100 brokerSize 0 rfl item Infor.brokerInfor
    (fun s m => { s with brokerInfor := m }) fun _ => rfl
  have deviceid := copyTo_defined "deviceid" 100 deviceSize 0 rfl item Infor.deviceInfor
    (fun s m => { s with deviceInfor := m }) fun _ => rfl
  have devicetoken := copyTo_defined "devicetoken" 50 deviceSize tokenAt rfl item
    Infor.deviceInfor (fun s m => { s with deviceInfor := m }) fun _ => rfl
  have hitem : DefinedIf _ (postItem item) _ := broker.andThen (deviceid.andThen devicetoken)
  refine hitem.congr ?_ fun s => ?_
  · exact ⟨fun h => ⟨h.1, h.2.1, h.2.2⟩, fun h => ⟨h.broker, h.deviceid, h.devicetoken⟩⟩
  · rfl

/-- The analysis is defined exactly if the strings stay in the records. -/
theorem analyzePost_defined (lib : CJsonLib) (text : Text) :
    DefinedIf (∀ item ∈ parsedItems lib text, FitsRecord item) (analyzePost lib text)
      (put (parsedItems lib text)) := by
  intro s s'
  have hfold := DefinedIf.foldlM postItem_defined (parsedItems lib text) s s'
  unfold analyzePost
  cases hparse : lib.parse text with
  | none => simp [parsedItems, hparse, put]
  | some root =>
    rw [show parsedItems lib text = root.child by rw [parsedItems, hparse]; rfl] at hfold ⊢
    exact hfold

/-- The records after items. -/
structure Left (items : List CJson) (s : Infor) : Prop where
  id : s.deviceInfor.Holds 0 ((lastOf (textOf "deviceid") items [] ++ ['\x00']).take 50)
  token : s.deviceInfor.Holds tokenAt (lastOf tokenOf items [] ++ ['\x00'])
  broker : s.brokerInfor.Holds 0 (lastOf (textOf "broker") items [] ++ ['\x00'])

theorem Left.id_item (h : Left items s) : (putItem item s).deviceInfor.Holds 0
    ((lastOf (textOf "deviceid") (items ++ [item]) [] ++ ['\x00']).take 50) := by
  have hkept {m : Tape Char} {l : Text} (hm : m.Holds 0 (l.take 50)) :
      (putAt tokenAt (textOf "devicetoken" item) m).Holds 0 (l.take 50) :=
    hm.frame fun k _ hk => putAt_of_lt (by rw [List.length_take] at hk; unfold tokenAt; omega)
  apply hkept
  rw [lastOf_snoc]
  cases textOf "deviceid" item with
  | none => exact h.id
  | some id => exact Tape.holds_write.take 50

theorem Left.token_item (h : Left items s) : (putItem item s).deviceInfor.Holds tokenAt
    (lastOf tokenOf (items ++ [item]) [] ++ ['\x00']) := by
  show (putAt tokenAt (textOf "devicetoken" item) (putAt 0 (textOf "deviceid" item)
    s.deviceInfor)).Holds tokenAt _
  rw [lastOf_snoc, tokenOf]
  cases textOf "devicetoken" item with
  | some token => exact Tape.holds_write
  | none =>
    rw [Option.none_or]
    show (putAt 0 (textOf "deviceid" item) s.deviceInfor).Holds tokenAt _
    cases textOf "deviceid" item with
    | none => exact h.token
    | some id =>
      rw [Option.bind_some]
      cases hspill : spill 50 id with
      | some rest =>
        have hrest := holds_spill s.deviceInfor 0 hspill
        rwa [Nat.zero_add] at hrest
      | none =>
        have hshort := spill_none hspill
        refine h.token.frame fun k hk _ => putAt_of_ge ?_
        rintro id' ⟨⟩
        unfold tokenAt at hk
        omega

theorem Left.broker_item (h : Left items s) : (putItem item s).brokerInfor.Holds 0
    (lastOf (textOf "broker") (items ++ [item]) [] ++ ['\x00']) := by
  show (putAt 0 (textOf "broker" item) s.brokerInfor).Holds 0 _
  rw [lastOf_snoc]
  cases textOf "broker" item with
  | none => exact h.broker
  | some broker => exact Tape.holds_write

theorem left_put (items : List CJson) : Left items (put items blank) := by
  induction items using List.reverseRecOn with
  | nil =>
    have hzero (i : Nat) : Tape.Holds (fun _ => '\x00') i ['\x00'] :=
      Tape.holds_cons.mpr ⟨rfl, Tape.holds_nil⟩
    exact ⟨hzero 0, hzero tokenAt, hzero 0⟩
  | append_singleton items item ih =>
    rw [put, List.foldl_append]
    exact ⟨ih.id_item, ih.token_item, ih.broker_item⟩

/-! ### What is read -/

theorem lastOf_textOf {name : String} {room : Nat} (hroom : 0 < room)
    (hfit : ∀ item ∈ items, FitsRoom name room item) :
    '\x00' ∉ lastOf (textOf name) items [] ∧ (lastOf (textOf name) items []).length < room := by
  rcases lastOf_cases (textOf name) items [] with h | ⟨item, hitem, h⟩
  · rw [h]
    exact ⟨List.not_mem_nil, hroom⟩
  · exact ⟨not_mem_textOf h, length_textOf (hfit item hitem) h⟩

theorem lastOf_tokenOf (hfit : ∀ item ∈ items, FitsRecord item) :
    '\x00' ∉ lastOf tokenOf items [] ∧ (lastOf tokenOf items []).length < 50 := by
  rcases lastOf_cases tokenOf items [] with h | ⟨item, hitem, h⟩
  · rw [h]
    exact ⟨List.not_mem_nil, by decide⟩
  · rcases Option.or_eq_some_iff.mp h with h | ⟨-, h⟩
    · exact ⟨not_mem_textOf h, length_textOf (hfit item hitem).devicetoken h⟩
    · obtain ⟨id, hid, hspill⟩ := Option.bind_eq_some_iff.mp h
      have hlt := length_textOf (hfit item hitem).deviceid hid
      obtain ⟨hnul, hlength⟩ := spill_spec hspill (not_mem_textOf hid)
      exact ⟨hnul, by omega⟩

theorem Left.string_id (h : Left items s) (hfit : ∀ item ∈ items, FitsRecord item) :
    s.deviceInfor.string '\x00' deviceSize 0 = some (deviceGiven items).id := by
  obtain ⟨hid, hlength⟩ := lastOf_textOf (by decide) fun item hitem => (hfit item hitem).deviceid
  obtain ⟨htoken, hlt⟩ := lastOf_tokenOf hfit
  have hhead := h.id
  unfold deviceGiven
  generalize lastOf (textOf "deviceid") items [] = id at *
  dsimp only
  split
  · rename_i hshort
    rw [List.take_of_length_le (by rw [List.length_append]; exact hshort)] at hhead
    rw [hhead.string_append (by unfold deviceSize; omega), Tape.takeWhile_ne hid]
  · rename_i hlong
    rw [List.take_append_of_le_length (by omega)] at hhead
    have htake : (id.take 50).length = 50 := by
      rw [List.length_take]
      omega
    have hholds : s.deviceInfor.Holds 0 (id.take 50 ++ lastOf tokenOf items [] ++ ['\x00']) := by
      rw [List.append_assoc]
      refine Tape.holds_append.mpr ⟨hhead, ?_⟩
      rw [htake]
      exact h.token
    have hall : '\x00' ∉ id.take 50 ++ lastOf tokenOf items [] := by
      rw [List.mem_append, not_or]
      exact ⟨fun hmem => hid (List.mem_of_mem_take hmem), htoken⟩
    rw [hholds.string_append (by rw [List.length_append, htake]; unfold deviceSize; omega),
      Tape.takeWhile_ne hall]

theorem Left.string_token (h : Left items s) (hfit : ∀ item ∈ items, FitsRecord item) :
    s.deviceInfor.string '\x00' deviceSize tokenAt = some (deviceGiven items).token := by
  obtain ⟨htoken, hlt⟩ := lastOf_tokenOf hfit
  rw [h.token.string_append (by unfold tokenAt deviceSize; omega), Tape.takeWhile_ne htoken]
  rfl

theorem Left.string_broker (h : Left items s) (hfit : ∀ item ∈ items, FitsRecord item) :
    s.brokerInfor.string '\x00' brokerSize 0 = some (lastOf (textOf "broker") items []) := by
  obtain ⟨hbroker, hlt⟩ := lastOf_textOf (by decide) fun item hitem => (hfit item hitem).broker
  rw [h.broker.string_append (by unfold brokerSize; omega), Tape.takeWhile_ne hbroker]

/-- The strings in the records after items. -/
theorem strings_put (hfit : ∀ item ∈ items, FitsRecord item) :
    (put items blank).strings = some (deviceGiven items, lastOf (textOf "broker") items []) := by
  have hleft := left_put items
  simp only [strings, hleft.string_id hfit, hleft.string_token hfit, hleft.string_broker hfit,
    Bind.bind, Option.bind_some, pure]

theorem strings_withBroker {d : Device} {broker : Text} (h : s.strings = some (d, broker)) :
    s.withBroker.strings = some (d, if broker = [] then defaultBroker else broker) := by
  simp only [strings, Option.bind_eq_bind, Option.bind_eq_some_iff, pure, Option.some.injEq,
    Prod.mk.injEq] at h
  obtain ⟨id, hid, token, htoken, broker', hbroker, rfl, rfl⟩ := h
  obtain ⟨-, hholds, hnul⟩ := Tape.string_some hbroker
  unfold withBroker
  cases broker' with
  | nil =>
    have hdefault : (s.brokerInfor.write 0 (defaultBroker ++ ['\x00'])).Holds 0
        (defaultBroker ++ ['\x00']) := Tape.holds_write
    have hlt : 0 + defaultBroker.length < brokerSize := by decide
    have hread := (hdefault.string_append hlt).trans
      (congrArg some (Tape.takeWhile_ne (by decide)))
    rw [if_pos (Tape.holds_cons.mp hholds).1, if_pos rfl]
    simp only [strings, hid, htoken, hread, Bind.bind, Option.bind_some, pure]
  | cons c broker =>
    have hcell : s.brokerInfor 0 ≠ '\x00' := fun hzero =>
      hnul (List.mem_cons.mpr (.inl (hzero.symm.trans (Tape.holds_cons.mp hholds).1)))
    rw [if_neg hcell, if_neg (List.cons_ne_nil _ _)]
    simp only [strings, hid, htoken, hbroker, Bind.bind, Option.bind_some, pure]

/-- The records of a device and its broker. -/
theorem strings_given (hfit : ∀ item ∈ items, FitsRecord item) :
    (put items blank).withBroker.strings = some (deviceGiven items, brokerGiven items) :=
  strings_withBroker (strings_put hfit)

theorem withBroker_withBroker (s : Infor) : s.withBroker.withBroker = s.withBroker := by
  by_cases h : s.brokerInfor 0 = '\x00'
  · have hdefault : (s.brokerInfor.write 0 (defaultBroker ++ ['\x00'])) 0 = 'm' :=
      (Tape.holds_cons.mp Tape.holds_write).1
    have hset : s.withBroker.brokerInfor 0 = 'm' := by
      rw [withBroker, if_pos h]
      exact hdefault
    exact if_neg (by rw [hset]; decide)
  · have hkept : s.withBroker = s := if_neg h
    rw [hkept, hkept]

/-- `get_device_infor` after a reset. -/
theorem getDeviceInfor_eq {file : Option Text} {buff line : Text}
    (hread : readInto 513 file buff = some line) :
    blank.getDeviceInfor lib file buff = some s ↔
      (∀ item ∈ parsedItems lib line, FitsRecord item) ∧
        (put (parsedItems lib line) blank).withBroker = s := by
  simp only [getDeviceInfor, hread, Bind.bind, pure, Option.bind_some, Option.bind_eq_some_iff,
    analyzePost_defined lib line _ _, Option.some.injEq, and_assoc, exists_and_left,
    exists_eq_left']

/-- Ids that fit their field are read back as they are. -/
theorem deviceGiven_of_fits (hfit : ∀ item ∈ items, FitsRoom "deviceid" 50 item) :
    deviceGiven items = ⟨lastOf (textOf "deviceid") items [],
      lastOf (textOf "devicetoken") items []⟩ := by
  have hshort := (lastOf_textOf (by decide) hfit).2
  have htoken : lastOf tokenOf items [] = lastOf (textOf "devicetoken") items [] := by
    rw [lastOf, lastOf, List.filterMap_congr fun item hitem => ?_]
    rw [tokenOf]
    cases hid : textOf "deviceid" item with
    | none => exact Option.or_none
    | some id =>
      have hlt := length_textOf (hfit item hitem) hid
      rw [Option.bind_some, spill, if_neg (by omega), Option.or_none]
  rw [deviceGiven, if_pos hshort, htoken]

/-- If every string fits its field, then the strings in the records are the fields. -/
theorem analyzePost_fields {d : Device × Text}
    (hnul : ∀ item ∈ parsedItems lib text, ∀ s, item.valuestring = some s → '\x00' ∉ s)
    (h : JsonUser.analyzePost lib text (⟨[], []⟩, []) = some d) :
    ∃ s, analyzePost lib text blank = some s ∧ s.strings = some d := by
  have hdefined :=
    DefinedIf.foldlM JsonUser.postItem_defined (parsedItems lib text) (⟨[], []⟩, []) d
  have hfold : (parsedItems lib text).foldlM (fun s item => JsonUser.postItem item s)
      (⟨[], []⟩, []) = some d := by
    rw [← h, JsonUser.analyzePost, parsedItems]
    cases lib.parse text <;> rfl
  obtain ⟨hfits, hgiven⟩ := hdefined.mp hfold
  have hd : postGiven (parsedItems lib text) (⟨[], []⟩, []) = d :=
    (foldl_postGiven _ _).symm.trans hgiven
  have hfit : ∀ item ∈ parsedItems lib text, FitsRecord item := fun item hitem =>
    ⟨fitsRoom_of_fits (by decide) (hfits item hitem ("broker", 100) (by decide)),
      fitsRoom_of_fits (by decide) (hfits item hitem ("deviceid", 50) (by decide)),
      fitsRoom_of_fits (by decide) (hfits item hitem ("devicetoken", 50) (by decide))⟩
  have hid : ∀ item ∈ parsedItems lib text, FitsRoom "deviceid" 50 item := fun item hitem =>
    fitsRoom_of_fits (by decide) (hfits item hitem ("deviceid", 50) (by decide))
  have htext (name : String) : lastOf (textOf name) (parsedItems lib text) [] =
      lastOf (stringOf name) (parsedItems lib text) [] := by
    rw [lastOf, lastOf, List.filterMap_congr fun item hitem => textOf_eq_stringOf (hnul item hitem)]
  refine ⟨_, (analyzePost_defined lib text _ _).mpr ⟨hfit, rfl⟩, ?_⟩
  rw [strings_put hfit, deviceGiven_of_fits hid, htext, htext, htext, ← hd]
  rfl

end

end Infor

end VhomeBridge.Main
