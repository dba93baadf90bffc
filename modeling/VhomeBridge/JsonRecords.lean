import VhomeBridge.JsonFields
import VhomeBridge.Lib.Tape

/-! The records of the analysers as they lie in memory.  A string that is too long for its field
runs over into the fields behind it, and is read back from there; it is a fault only if it leaves
its record. -/

namespace VhomeBridge.JsonRecords

open JsonUser Lib

/-- What `strlen` counts. -/
def cString (s : Text) : Text := s.takeWhile (· ≠ '\x00')

/-- `memcpy` of a string with its terminator to a place in a record of `size` bytes. -/
def copyTo (size pos : Nat) (valuestring : Option Text) (m : Tape Char) : Option (Tape Char) :=
  valuestring.bind fun s => m.store size pos (cString s ++ ['\x00'])

/-- The string of an item of this name, as far as it is copied. -/
def textOf (name : String) (item : CJson) : Option Text := (stringOf name item).map cString

/-- What a string leaves behind its first `n` cells. -/
def spill (n : Nat) (s : Text) : Option Text := if n ≤ s.length then some (s.drop n) else none

/-- If the item has the name, it is a string that leaves room for its terminator. -/
def FitsRoom (name : String) (room : Nat) (item : CJson) : Prop :=
  item.string = some name.toList → ∃ s, item.valuestring = some s ∧ (cString s).length < room

/-- A string with its terminator at a place, if there is one. -/
def putAt (pos : Nat) (s : Option Text) (m : Tape Char) : Tape Char :=
  match s with
  | none => m
  | some s => m.write pos (s ++ ['\x00'])

section

variable {item : CJson}

theorem not_mem_cString (s : Text) : '\x00' ∉ cString s := by
  intro h
  simpa using List.mem_takeWhile_imp h

theorem not_mem_textOf {name : String} {t : Text} (h : textOf name item = some t) :
    '\x00' ∉ t := by
  obtain ⟨s, -, rfl⟩ := Option.map_eq_some_iff.mp h
  exact not_mem_cString s

theorem length_textOf {name : String} {room : Nat} {t : Text} (hfit : FitsRoom name room item)
    (h : textOf name item = some t) : t.length < room := by
  obtain ⟨s, hs, rfl⟩ := Option.map_eq_some_iff.mp h
  rw [stringOf, Option.ite_none_right_eq_some] at hs
  obtain ⟨s', hs', hlen⟩ := hfit hs.1
  obtain rfl : s = s' := Option.some.inj (hs.2.symm.trans hs')
  exact hlen

/-- A string that fits its field stays in the record. -/
theorem fitsRoom_of_fits {name : String} {n room : Nat} (hle : n ≤ room)
    (h : Fits (name, n) item) : FitsRoom name room item := by
  intro hname
  obtain ⟨s, hs, hlt⟩ := h hname
  have hshort : (cString s).length ≤ s.length := (List.takeWhile_sublist _).length_le
  exact ⟨s, hs, by omega⟩

theorem textOf_eq_stringOf {name : String}
    (hnul : ∀ s, item.valuestring = some s → '\x00' ∉ s) :
    textOf name item = stringOf name item := by
  rw [textOf, stringOf]
  split
  · cases hs : item.valuestring with
    | none => rfl
    | some s => exact congrArg some (Tape.takeWhile_ne (hnul s hs))
  · rfl

/-- A branch that copies the string of a member into a record. -/
theorem copyTo_defined {σ : Type*} (name : String) (room size pos : Nat) (hsize : pos + room = size)
    (item : CJson) (get : σ → Tape Char) (set : σ → Tape Char → σ) (hset : ∀ s, set s (get s) = s) :
    DefinedIf (FitsRoom name room item)
      (onMember name item fun s => (copyTo size pos item.valuestring (get s)).bind fun m =>
        some (set s m))
      fun s => set s (putAt pos (textOf name item) (get s)) := by
  intro s s'
  rw [onMember, textOf, stringOf, FitsRoom]
  by_cases hname : item.string = some name.toList
  · rw [if_pos hname, if_pos hname, forall_prop_of_true hname, copyTo]
    cases item.valuestring with
    | none => simp
    | some t =>
      have hlength : (cString t ++ ['\x00']).length = (cString t).length + 1 :=
        List.length_append
      by_cases hlen : (cString t).length < room
      · rw [Option.bind_some, Tape.store_of_le (by omega)]
        simp [putAt, hlen]
      · rw [Option.bind_some, Tape.store_of_lt (by omega)]
        simp [hlen]
  · rw [if_neg hname, if_neg hname]
    simp [hname, hset, putAt]

end

/-! ### What is written -/

section

variable {m : Tape Char} {pos j n : Nat}

theorem putAt_of_lt {text : Option Text} (h : j < pos) : putAt pos text m j = m j := by
  cases text with
  | none => rfl
  | some text => exact Tape.write_of_lt h

theorem putAt_of_ge {text : Option Text} (h : ∀ x, text = some x → pos + x.length < j) :
    putAt pos text m j = m j := by
  cases text with
  | none => rfl
  | some text =>
    have hlt := h text rfl
    exact Tape.write_of_ge (by rw [List.length_append, List.length_singleton]; omega)

/-- A string that runs over `n` cells leaves its rest behind them. -/
theorem holds_spill (m : Tape Char) (pos : Nat) {text rest : Text} (h : spill n text = some rest) :
    (m.write pos (text ++ ['\x00'])).Holds (pos + n) (rest ++ ['\x00']) := by
  rw [spill, Option.ite_none_right_eq_some, Option.some.injEq] at h
  obtain ⟨hle, rfl⟩ := h
  have hholds : (m.write pos (text ++ ['\x00'])).Holds pos (text ++ ['\x00']) := Tape.holds_write
  rw [← List.drop_append_of_le_length hle]
  exact hholds.drop (by rw [List.length_append]; omega)

theorem spill_none {text : Text} (h : spill n text = none) : text.length < n := by
  by_contra hlt
  rw [spill, if_pos (by omega)] at h
  cases h

theorem spill_spec {text rest : Text} (h : spill n text = some rest) (hnul : '\x00' ∉ text) :
    '\x00' ∉ rest ∧ rest.length = text.length - n := by
  rw [spill, Option.ite_none_right_eq_some, Option.some.injEq] at h
  obtain ⟨-, rfl⟩ := h
  exact ⟨fun hmem => hnul (List.mem_of_mem_drop hmem), List.length_drop⟩

end

end VhomeBridge.JsonRecords
