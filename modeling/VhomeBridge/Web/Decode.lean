import VhomeBridge.Web.Form

/-! `urldecode2` on memory, byte by byte as the source reads it.  A read outside the input, which
ends with its terminator, is a fault, `none`.  It computes what `urldecode2` does on texts, so it
undoes every encoding of a form. -/

namespace VhomeBridge.Web.Decode

open Lib

def isxdigit (c : Byte) : Bool :=
  (0x30 ≤ c && c ≤ 0x39) || (0x41 ≤ c && c ≤ 0x46) || (0x61 ≤ c && c ≤ 0x66)

/-- The digit `a` after the subtractions of the source. -/
def digitValue (a : Byte) : Byte :=
  let a := if 0x61 ≤ a then a - (0x61 - 0x41) else a
  if 0x41 ≤ a then a - (0x41 - 10) else a - 0x30

/-- The digits of the escape that begins with the byte `c` at `i`, if one does: the test reads no
further than a terminator. -/
def escape (size : Nat) (src : Tape Byte) (i : Nat) (c : Byte) : Option (Option (Byte × Byte)) :=
  if c = 0x25 then do
    let a ← src.load size (i + 1)
    if a = 0 then return none
    let b ← src.load size (i + 2)
    if b ≠ 0 ∧ isxdigit a ∧ isxdigit b then return some (a, b) else return none
  else some none

/-- The loop of `urldecode2` from the byte at `i` on, for at most `fuel` tests of its condition,
`dst` being what it has written: what is written in the end. -/
def urldecode2Loop (size : Nat) (src : Tape Byte) : Nat → Nat → List Byte → Option (List Byte)
  | 0, _, _ => none
  | fuel + 1, i, dst => do
    let c ← src.load size i
    if c = 0 then return dst ++ [0]
    match ← escape size src i c with
    | some (a, b) =>
      urldecode2Loop size src fuel (i + 3) (dst ++ [16 * digitValue a + digitValue b])
    | none =>
      if c = 0x2b then urldecode2Loop size src fuel (i + 1) (dst ++ [0x20])
      else urldecode2Loop size src fuel (i + 1) (dst ++ [c])

/-! ### Bytes and characters -/

/-- The character of a byte in a text. -/
def toChar (c : Byte) : Char := Char.ofNat c.toNat

theorem toNat_toChar (c : Byte) : (toChar c).toNat = c.toNat := Text.toNat_ofNat c.isLt

theorem toChar_injective : Function.Injective toChar := by
  intro c d h
  have hnat := congrArg Char.toNat h
  rw [toNat_toChar, toNat_toChar] at hnat
  exact BitVec.eq_of_toNat_eq hnat

theorem forall_byte {P : Byte → Prop} (h : ∀ n < 256, P (BitVec.ofNat 8 n)) (c : Byte) : P c := by
  have hc := h c.toNat c.isLt
  rwa [BitVec.ofNat_toNat, BitVec.setWidth_eq] at hc

theorem isxdigit_toChar (c : Byte) : Web.isxdigit (toChar c) = isxdigit c := by
  revert c
  apply forall_byte
  decide +kernel

theorem digitValue_toChar {c : Byte} (h : isxdigit c = true) :
    xdigitValue (toChar c) = (digitValue c).toNat ∧ (digitValue c).toNat < 16 := by
  revert c
  apply forall_byte
  decide +kernel

theorem toChar_escape {a b : Byte} (ha : isxdigit a = true) (hb : isxdigit b = true) :
    toChar (16 * digitValue a + digitValue b) =
      Char.ofNat (16 * xdigitValue (toChar a) + xdigitValue (toChar b)) := by
  obtain ⟨hva, hlta⟩ := digitValue_toChar ha
  obtain ⟨hvb, hltb⟩ := digitValue_toChar hb
  rw [hva, hvb, toChar]
  congr 1
  bv_omega

theorem toChar_plus (c : Byte) :
    toChar (if c = 0x2b then 0x20 else c) = plusToSpace (toChar c) := by
  have hplus : toChar c = '+' ↔ c = 0x2b := toChar_injective.eq_iff (a := c) (b := 0x2b)
  rw [plusToSpace]
  by_cases hc : c = 0x2b
  · rw [if_pos hc, if_pos (hplus.mpr hc)]
    rfl
  · rw [if_neg hc, if_neg (mt hplus.mp hc)]

/-! ### The loop -/

/-- A byte that begins no escape. -/
theorem urldecode2_cons {c : Char} {s : Text} (h : ∀ a b t, s = a :: b :: t →
    ¬(c = '%' ∧ Web.isxdigit a ∧ Web.isxdigit b)) :
    urldecode2 (c :: s) = plusToSpace c :: urldecode2 s := by
  match s with
  | [] => rfl
  | [a] => rfl
  | a :: b :: t => rw [urldecode2, if_neg (h a b t rfl)]

/-- The digits that follow `c`, if it begins an escape. -/
def digits (c : Byte) : List Byte → Option (Byte × Byte)
  | a :: b :: _ => if c = 0x25 ∧ isxdigit a ∧ isxdigit b then some (a, b) else none
  | _ => none

theorem digits_of_ne {c : Byte} (hc : c ≠ 0x25) (s : List Byte) : digits c s = none := by
  match s with
  | [] => rfl
  | [_] => rfl
  | _ :: _ :: _ => rw [digits, if_neg fun htest => hc htest.1]

theorem digits_eq_some {c a b : Byte} {s : List Byte} (h : digits c s = some (a, b)) :
    (c = 0x25 ∧ isxdigit a = true ∧ isxdigit b = true) ∧ ∃ t, s = a :: b :: t := by
  match s with
  | [] => cases h
  | [_] => cases h
  | a' :: b' :: t =>
    rw [digits, Option.ite_none_right_eq_some] at h
    obtain ⟨htest, heq⟩ := h
    obtain ⟨rfl, rfl⟩ := Prod.mk.inj (Option.some.inj heq)
    exact ⟨htest, t, rfl⟩

/-- Without digits the byte stands for itself, but for `+`. -/
theorem urldecode2_byte {c : Byte} {s : List Byte} (h : digits c s = none) :
    urldecode2 ((c :: s).map toChar) =
      toChar (if c = 0x2b then 0x20 else c) :: urldecode2 (s.map toChar) := by
  rw [List.map_cons, toChar_plus]
  apply urldecode2_cons
  rintro _ _ _ heq ⟨hc, ha, hb⟩
  match s with
  | [] => cases heq
  | [_] => cases heq
  | a :: b :: t =>
    obtain ⟨rfl, htail⟩ := List.cons.inj heq
    obtain ⟨rfl, -⟩ := List.cons.inj htail
    have hpercent : c = 0x25 := toChar_injective hc
    rw [isxdigit_toChar] at ha hb
    rw [digits, if_pos ⟨hpercent, ha, hb⟩] at h
    cases h

/-- An escape stands for the byte of its digits. -/
theorem urldecode2_escape {a b : Byte} (ha : isxdigit a = true) (hb : isxdigit b = true)
    (s : List Byte) : urldecode2 ((0x25 :: a :: b :: s).map toChar) =
      toChar (16 * digitValue a + digitValue b) :: urldecode2 (s.map toChar) := by
  rw [List.map_cons, List.map_cons, List.map_cons, urldecode2,
    if_pos ⟨rfl, (isxdigit_toChar a).trans ha, (isxdigit_toChar b).trans hb⟩, toChar_escape ha hb]

/-- The test stops at the terminator. -/
theorem escape_eq {size i : Nat} {src : Tape Byte} {c : Byte} {s : List Byte}
    (hsrc : src.Holds (i + 1) (s ++ [0])) (hs : 0 ∉ s) (hsize : i + 1 + s.length < size) :
    escape size src i c = some (digits c s) := by
  rw [escape]
  by_cases hc : c = 0x25
  · rw [if_pos hc]
    match s with
    | [] =>
      rw [hsrc.load (by omega)]
      rfl
    | [a] =>
      simp only [List.mem_singleton] at hs
      rw [hsrc.load (by omega), Option.bind_eq_bind, Option.bind_some, if_neg (Ne.symm hs),
        (Tape.holds_cons.mp hsrc).2.load (by simp at hsize; omega)]
      rfl
    | a :: b :: t =>
      simp only [List.mem_cons, not_or] at hs
      simp only [List.length_cons] at hsize
      rw [hsrc.load (by omega), Option.bind_eq_bind, Option.bind_some, if_neg (Ne.symm hs.1),
        (Tape.holds_cons.mp hsrc).2.load (by omega), Option.bind_some, digits]
      simp only [hc, true_and, ne_eq, Ne.symm hs.2.1, not_false_eq_true]
      split <;> rfl
  · rw [if_neg hc, digits_of_ne hc]

theorem urldecode2Loop_end {size fuel i : Nat} {src : Tape Byte} (hsrc : src.Holds i [0])
    (hsize : i < size) (dst : List Byte) :
    urldecode2Loop size src (fuel + 1) i dst = some (dst ++ [0]) := by
  rw [urldecode2Loop, hsrc.load hsize]
  rfl

/-- A turn of the loop takes one byte or an escape. -/
theorem urldecode2Loop_cons {size fuel i : Nat} {src : Tape Byte} {c : Byte} {s : List Byte}
    (hsrc : src.Holds i (c :: s ++ [0])) (hs : 0 ∉ c :: s) (hsize : i + 1 + s.length < size)
    (dst : List Byte) :
    urldecode2Loop size src (fuel + 1) i dst =
      match digits c s with
      | some (a, b) =>
        urldecode2Loop size src fuel (i + 3) (dst ++ [16 * digitValue a + digitValue b])
      | none => urldecode2Loop size src fuel (i + 1) (dst ++ [if c = 0x2b then 0x20 else c]) := by
  rw [List.mem_cons, not_or] at hs
  have hescape : escape size src i c = some (digits c s) :=
    escape_eq (Tape.holds_cons.mp hsrc).2 hs.2 hsize
  rw [urldecode2Loop, hsrc.load (by omega), Option.bind_eq_bind, Option.bind_some,
    if_neg (Ne.symm hs.1), hescape, Option.bind_eq_bind, Option.bind_some]
  cases digits c s with
  | none =>
    dsimp only
    split <;> rfl
  | some ab => rfl

/-- From any byte on, what the loop writes are the characters of the decoded text. -/
theorem urldecode2Loop_eq {size fuel : Nat} {src : Tape Byte} {s : List Byte} (hs : 0 ∉ s)
    {i : Nat} (hsrc : src.Holds i (s ++ [0])) (hsize : i + s.length < size)
    (hfuel : s.length < fuel) (dst : List Byte) :
    ∃ out, urldecode2Loop size src fuel i dst = some (dst ++ out ++ [0]) ∧
      out.map toChar = urldecode2 (s.map toChar) := by
  induction fuel generalizing s i dst with
  | zero => omega
  | succ fuel ih =>
    cases s with
    | nil => exact ⟨[], by rw [urldecode2Loop_end hsrc hsize, List.append_nil], rfl⟩
    | cons c s =>
      have hrest := (Tape.holds_cons.mp hsrc).2
      rw [List.length_cons] at hsize hfuel
      rw [urldecode2Loop_cons hsrc hs (by omega)]
      cases hdigits : digits c s with
      | none =>
        obtain ⟨out, hout, htext⟩ := ih (List.not_mem_of_not_mem_cons hs) hrest (by omega) (by omega)
          (dst ++ [if c = 0x2b then 0x20 else c])
        refine ⟨(if c = 0x2b then 0x20 else c) :: out, ?_, ?_⟩
        · rw [List.append_cons dst _ out]
          exact hout
        · rw [List.map_cons, htext, urldecode2_byte hdigits]
      | some ab =>
        obtain ⟨a, b⟩ := ab
        obtain ⟨⟨rfl, ha, hb⟩, t, rfl⟩ := digits_eq_some hdigits
        have hnext := (Tape.holds_cons.mp (Tape.holds_cons.mp hrest).2).2
        rw [List.length_cons, List.length_cons] at hsize hfuel
        simp only [List.mem_cons, not_or] at hs
        obtain ⟨out, hout, htext⟩ := ih hs.2.2.2 hnext (by omega) (by omega)
          (dst ++ [16 * digitValue a + digitValue b])
        refine ⟨(16 * digitValue a + digitValue b) :: out, ?_, ?_⟩
        · rw [List.append_cons dst _ out]
          exact hout
        · rw [List.map_cons, htext, urldecode2_escape ha hb]

/-! ### Encodings -/

/-- `text` is an encoding of `value`: each byte is itself, or escaped by two hexadecimal digits in
either case, or `+` for a space. -/
inductive Encodes : List Byte → List Byte → Prop
  | nil : Encodes [] []
  | raw {c : Byte} {value text : List Byte} (h : c ≠ 0x25 ∧ c ≠ 0x2b) :
      Encodes value text → Encodes (c :: value) (c :: text)
  | plus {value text : List Byte} :
      Encodes value text → Encodes (0x20 :: value) (0x2b :: text)
  | escape {c a b : Byte} {value text : List Byte} (ha : IsHex (toChar a) (c.toNat / 16))
      (hb : IsHex (toChar b) (c.toNat % 16)) :
      Encodes value text → Encodes (c :: value) (0x25 :: a :: b :: text)

theorem digitValue_of_isHex {d : Byte} {n : Nat} (h : IsHex (toChar d) n) :
    isxdigit d = true ∧ (digitValue d).toNat = n := by
  obtain ⟨hdigit, hvalue⟩ := h.digit
  rw [isxdigit_toChar] at hdigit
  exact ⟨hdigit, (digitValue_toChar hdigit).1.symm.trans hvalue⟩

/-- Decoding an encoding gives the bytes back. -/
theorem Encodes.decode {value text : List Byte} (h : Encodes value text) :
    urldecode2 (text.map toChar) = value.map toChar := by
  induction h with
  | nil => rfl
  | @raw c value text h _ ih =>
    rw [urldecode2_byte (digits_of_ne h.1 text), if_neg h.2, ih, List.map_cons]
  | @plus value text _ ih =>
    rw [urldecode2_byte (digits_of_ne (by decide) text), if_pos rfl, ih, List.map_cons]
  | @escape c a b value text ha hb _ ih =>
    obtain ⟨hdigit, hvalue⟩ := digitValue_of_isHex ha
    obtain ⟨hdigit', hvalue'⟩ := digitValue_of_isHex hb
    have hbyte : 16 * digitValue a + digitValue b = c := by
      apply BitVec.eq_of_toNat_eq
      bv_omega
    rw [urldecode2_escape hdigit hdigit', hbyte, ih, List.map_cons]

theorem isxdigit_ne_zero {c : Byte} (h : isxdigit c = true) : c ≠ 0 := by
  rintro rfl
  exact absurd h (by decide)

/-- An encoding of a string is a string. -/
theorem Encodes.string {value text : List Byte} (h : Encodes value text) (hvalue : 0 ∉ value) :
    0 ∉ text := by
  induction h with
  | nil => exact hvalue
  | raw _ _ ih =>
    rw [List.mem_cons, not_or] at hvalue ⊢
    exact ⟨hvalue.1, ih hvalue.2⟩
  | plus _ ih =>
    rw [List.mem_cons, not_or] at hvalue ⊢
    exact ⟨by decide, ih hvalue.2⟩
  | escape ha hb _ ih =>
    rw [List.mem_cons, not_or] at hvalue
    simp only [List.mem_cons, not_or]
    exact ⟨by decide, (isxdigit_ne_zero (digitValue_of_isHex ha).1).symm,
      (isxdigit_ne_zero (digitValue_of_isHex hb).1).symm, ih hvalue.2⟩

/-- For every input, all of whose reads are inside the text and its terminator: if the text encodes
a string, that string is written, and of any string the loop ends and writes at most one byte
more. -/
theorem urldecode2_restores (src : Tape Byte) (text : List Byte) (hsrc : src.Holds 0 (text ++ [0]))
    (fuel : Nat) (hfuel : text.length < fuel) :
    (∀ value, 0 ∉ value → Encodes value text →
      urldecode2Loop (text.length + 1) src fuel 0 [] = some (value ++ [0])) ∧
    (0 ∉ text → ∃ dst, urldecode2Loop (text.length + 1) src fuel 0 [] = some dst ∧
      dst.length ≤ text.length + 1) := by
  have hloop : 0 ∉ text → ∃ out,
      urldecode2Loop (text.length + 1) src fuel 0 [] = some ([] ++ out ++ [0]) ∧
        out.map toChar = urldecode2 (text.map toChar) :=
    fun htext => urldecode2Loop_eq htext hsrc (by omega) hfuel []
  constructor
  · intro value hvalue h
    obtain ⟨out, hrun, htext⟩ := hloop (h.string hvalue)
    rw [h.decode] at htext
    obtain rfl := toChar_injective.list_map htext
    exact hrun
  · intro hstring
    obtain ⟨out, hrun, htext⟩ := hloop hstring
    have hlen := urldecode2_length_le (text.map toChar)
    rw [← htext, List.length_map, List.length_map] at hlen
    refine ⟨_, hrun, ?_⟩
    simp only [List.nil_append, List.length_append, List.length_singleton]
    omega

/-- The text `a%2b+%7E`. -/
theorem urldecode2_restores_mixed :
    urldecode2Loop 9 (Tape.write (fun _ => 0) 0
        [0x61, 0x25, 0x32, 0x62, 0x2b, 0x25, 0x37, 0x45, 0]) 9 0 [] =
      some [0x61, 0x2b, 0x20, 0x7e, 0] :=
  (urldecode2_restores (Tape.write (fun _ => 0) 0
      [0x61, 0x25, 0x32, 0x62, 0x2b, 0x25, 0x37, 0x45, 0])
    [0x61, 0x25, 0x32, 0x62, 0x2b, 0x25, 0x37, 0x45] Tape.holds_write 9 (by decide)).1
    [0x61, 0x2b, 0x20, 0x7e] (by decide)
    (.raw (by decide) (.escape (.inr rfl) (.inr rfl) (.plus (.escape (.inl rfl) (.inl rfl) .nil))))

end VhomeBridge.Web.Decode
