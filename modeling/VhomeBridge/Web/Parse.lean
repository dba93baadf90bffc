import VhomeBridge.Web.Form

/-! Forms in any order.  `parse_wifi_uri` ends each value at an `&`, and leaves out a value that
none follows, so which of its outputs it writes depends on where the two fields stand. -/

namespace VhomeBridge.Web

open Lib

/-! ### The copies -/

/-- The value that `copyValue` copies, if it copies one. -/
def valueOf (sub : Text) : Option Text :=
  (strstr "&".toList sub).map fun index => (sub.drop 3).take (sub.length - index.length - 3)

/-- The texts that `parseWifiUri` copies, in order, each with the address of its output. -/
def copies (buf : Text) : List (Nat × Text) :=
  match strstr "p1=".toList buf, strstr "s1=".toList buf, strstr "save=".toList buf with
  | some subP, some subS, some _ =>
    (valueOf subP).toList.map (passwordOffset, ·) ++ (valueOf subS).toList.map (0, ·)
  | _, _, _ => []

/-- A string and its terminator stored in an output. -/
def copyString (wifi : Tape Char) (copy : Nat × Text) : Option (Tape Char) := do
  let wifi ← wifi.store credentialsSize copy.1 copy.2
  wifi.store credentialsSize (copy.1 + copy.2.length) ['\x00']

theorem copyValue_eq_copyString (sub : Text) (i : Nat) (wifi : Tape Char) :
    copyValue sub i wifi = ((valueOf sub).toList.map (i, ·)).foldlM copyString wifi := by
  rw [copyValue, valueOf]
  cases hindex : strstr "&".toList sub with
  | none => rfl
  | some index =>
    have hlen : ((sub.drop 3).take (sub.length - index.length - 3)).length =
        sub.length - index.length - 3 := by
      rw [List.length_take, List.length_drop]
      omega
    simp only [Option.map_some, Option.toList_some, List.map_cons, List.map_nil,
      List.foldlM_cons, List.foldlM_nil, bind_pure, copyString, hlen]

theorem parseWifiUri_eq_copies (buf : Text) (wifi : Tape Char) :
    parseWifiUri buf wifi = (copies buf).foldlM copyString wifi := by
  rw [parseWifiUri, copies]
  cases strstr "p1=".toList buf with
  | none => rfl
  | some subP =>
    cases strstr "s1=".toList buf with
    | none => rfl
    | some subS =>
      cases strstr "save=".toList buf with
      | none => rfl
      | some sub =>
        simp only [copyValue_eq_copyString, List.foldlM_append]

/-- An output is written to. -/
def Writes (buf : Text) (output : Nat) : Prop := ∃ value, (output, value) ∈ copies buf

theorem mem_of_valueOf {sub value : Text} (h : valueOf sub = some value) : '&' ∈ sub := by
  obtain ⟨index, hindex, -⟩ := Option.map_eq_some_iff.mp h
  obtain ⟨⟨rest, rfl⟩, hsuffix⟩ := strstr_some hindex
  exact hsuffix.subset (by simp)

theorem exists_valueOf {sub : Text} (h : '&' ∈ sub) : ∃ value, valueOf sub = some value := by
  have hinfix : "&".toList <:+: sub := by
    obtain ⟨s, t, rfl⟩ := List.append_of_mem h
    exact ⟨s, t, by simp⟩
  obtain ⟨index, hindex⟩ := Option.isSome_iff_exists.mp (strstr_isSome_of_isInfix hinfix)
  exact ⟨_, by rw [valueOf, hindex, Option.map_some]⟩

/-- Both fields are followed by an `&`, or neither is, if all three are there. -/
def Balanced (buf : Text) : Prop :=
  ∀ subP subS sub, strstr "p1=".toList buf = some subP → strstr "s1=".toList buf = some subS →
    strstr "save=".toList buf = some sub → ('&' ∈ subP ↔ '&' ∈ subS)

/-- Both outputs are written or none exactly for a balanced text. -/
theorem bothOrNone_iff (buf : Text) :
    (copies buf = [] ∨ Writes buf 0 ∧ Writes buf passwordOffset) ↔ Balanced buf := by
  have hne : (0 : Nat) ≠ passwordOffset := by decide
  rw [Balanced]
  unfold Writes copies
  cases strstr "p1=".toList buf with
  | none => simp
  | some subP =>
    cases strstr "s1=".toList buf with
    | none => simp
    | some subS =>
      cases strstr "save=".toList buf with
      | none => simp
      | some sub =>
        have hP : '&' ∈ subP ↔ ∃ value, valueOf subP = some value :=
          ⟨exists_valueOf, fun ⟨_, h⟩ => mem_of_valueOf h⟩
        have hS : '&' ∈ subS ↔ ∃ value, valueOf subS = some value :=
          ⟨exists_valueOf, fun ⟨_, h⟩ => mem_of_valueOf h⟩
        have hfound : (∀ subP' subS' sub', some subP = some subP' → some subS = some subS' →
            some sub = some sub' → ('&' ∈ subP' ↔ '&' ∈ subS')) ↔ ('&' ∈ subP ↔ '&' ∈ subS) := by
          simp
        rw [hfound, hP, hS]
        cases hvP : valueOf subP <;> cases hvS : valueOf subS <;> simp [hne, hne.symm, hvP, hvS]

/-- The value of a field that an `&` follows. -/
theorem valueOf_field {key value : Text} (hkey : key.length = 3) (hamp : '&' ∉ key)
    (hvalue : '&' ∉ value) (t : Text) : valueOf (key ++ value ++ '&' :: t) = some value := by
  have hpass : ∀ c ∈ key ++ value, decide (c ≠ '&') = true := by
    intro c hc
    simp only [decide_eq_true_eq]
    rintro rfl
    exact (List.mem_append.mp hc).elim hamp hvalue
  have hindex : strstr "&".toList (key ++ value ++ '&' :: t) = some ('&' :: t) := by
    have hchar := strstr_char '&' (key ++ value ++ '&' :: t)
    rw [if_pos (by simp), List.dropWhile_append_of_pos hpass] at hchar
    simpa using hchar
  have hlen : (key ++ value ++ '&' :: t).length - ('&' :: t).length - 3 = value.length := by
    simp only [List.length_append, hkey]
    omega
  rw [valueOf, hindex, Option.map_some, hlen, List.append_assoc, ← hkey, List.drop_left,
    List.take_left]

/-! ### Forms -/

def fieldNames : List Text := ["s1=".toList, "p1=".toList, "save=".toList]

/-- A text without an `&` and without the names of the fields. -/
structure Clean (text : Text) : Prop where
  amp : '&' ∉ text
  names : ∀ name ∈ fieldNames, ¬name <:+: text

/-- `buf` has the three fields, in any order and with any others, the values `ssid` and `password`
fitting their outputs. -/
structure IsForm (ssid password buf : Text) : Prop where
  fields : ∃ save others fields, Clean save ∧ (∀ f ∈ others, Clean f) ∧
    fields.Perm (("s1=".toList ++ ssid) :: ("p1=".toList ++ password) ::
      ("save=".toList ++ save) :: others) ∧
    buf = "&".toList.intercalate fields
  ssid_clean : Clean ssid
  password_clean : Clean password
  string : '\x00' ∉ buf
  ssid_fits : ssid.length ≤ passwordOffset
  password_fits : passwordOffset + password.length ≤ credentialsSize

/-- No name of a field begins in another one. -/
theorem strstr_name {name other : Text} (hname : name ∈ fieldNames) (hother : other ∈ fieldNames)
    (hne : name ≠ other) (value : Text) : strstr name (other ++ value) = strstr name value := by
  simp only [fieldNames, List.mem_cons, List.not_mem_nil, or_false] at hname hother
  obtain rfl | rfl | rfl := hname <;> obtain rfl | rfl | rfl := hother <;>
    first | exact absurd rfl hne | simp [strstr]

theorem Clean.strstr {name text : Text} (h : Clean text) (hname : name ∈ fieldNames) :
    strstr name text = none := by
  cases hsub : Web.strstr name text with
  | none => rfl
  | some sub =>
    obtain ⟨hpre, hsuffix⟩ := strstr_some hsub
    exact absurd (hpre.isInfix.trans hsuffix.isInfix) (h.names name hname)

/-- The first field that contains a name is found, whatever comes before it. -/
theorem strstr_intercalate {name field : Text} {before : List Text} (hname : name ∈ fieldNames)
    (hfield : name <+: field) (hbefore : ∀ f ∈ before, strstr name f = none) (after : List Text) :
    strstr name ("&".toList.intercalate (before ++ field :: after)) =
      some ("&".toList.intercalate (field :: after)) := by
  have hshape : name ≠ [] ∧ '&' ∉ name := by
    simp only [fieldNames, List.mem_cons, List.not_mem_nil, or_false] at hname
    obtain rfl | rfl | rfl := hname <;> decide
  induction before with
  | nil =>
    apply strstr_of_isPrefix
    cases after with
    | nil => simpa using hfield
    | cons f after =>
      rw [List.nil_append, List.intercalate_cons_cons, List.append_assoc]
      exact hfield.trans (List.prefix_append _ _)
  | cons f before ih =>
    have hrest := ih fun g hg => hbefore g (by simp [hg])
    rw [List.cons_append, List.intercalate_cons_of_ne_nil (by simp), List.append_assoc]
    exact (strstr_none_append hshape.1 hshape.2 (hbefore f (by simp)) _).trans hrest

/-- Where a field stands among the others. -/
theorem exists_before {fields rest : List Text} {field : Text} (h : fields.Perm (field :: rest)) :
    ∃ before after, fields = before ++ field :: after ∧ ∀ f ∈ before, f ∈ rest := by
  obtain ⟨before, after, rfl⟩ := List.append_of_mem (h.mem_iff.mpr (List.mem_cons_self ..))
  have hrest := (List.perm_middle.symm.trans h).cons_inv
  exact ⟨before, after, rfl, fun f hf => hrest.subset (List.mem_append_left _ hf)⟩

/-- A field among others is found by its name, up to the end of the text. -/
theorem strstr_field (name value : Text) (named : List (Text × Text)) {others fields : List Text}
    (hname : name ∈ fieldNames)
    (hnamed : ∀ f ∈ named, f.1 ∈ fieldNames ∧ f.1 ≠ name ∧ Clean f.2)
    (hothers : ∀ f ∈ others, Clean f)
    (hperm : fields.Perm ((name ++ value) :: (named.map (fun f => f.1 ++ f.2) ++ others))) :
    ∃ before after rest, fields = before ++ (name ++ value) :: after ∧
      strstr name ("&".toList.intercalate fields) = some (name ++ value ++ rest) ∧
      (rest = [] ∧ after = [] ∨ ∃ t, rest = '&' :: t) := by
  obtain ⟨before, after, hfields, hbefore⟩ := exists_before hperm
  have hnone : ∀ f ∈ before, strstr name f = none := by
    intro f hf
    obtain hf | hf := List.mem_append.mp (hbefore f hf)
    · obtain ⟨g, hg, rfl⟩ := List.mem_map.mp hf
      obtain ⟨hmem, hne, hclean⟩ := hnamed g hg
      rw [strstr_name hname hmem hne.symm, hclean.strstr hname]
    · exact (hothers f hf).strstr hname
  have hfound := strstr_intercalate hname (List.prefix_append name value) hnone after
  rw [← hfields] at hfound
  cases after with
  | nil =>
    refine ⟨before, [], [], hfields, ?_, .inl ⟨rfl, rfl⟩⟩
    rw [hfound, List.intercalate_singleton, List.append_nil]
  | cons f after =>
    refine ⟨before, f :: after, '&' :: "&".toList.intercalate (f :: after), hfields, ?_,
      .inr ⟨_, rfl⟩⟩
    rw [hfound, List.intercalate_cons_cons, List.append_assoc]
    rfl

/-- Where the fields of a form are found. -/
theorem IsForm.found {ssid password buf : Text} (h : IsForm ssid password buf) :
    ∃ restP restS sub, strstr "p1=".toList buf = some ("p1=".toList ++ password ++ restP) ∧
      strstr "s1=".toList buf = some ("s1=".toList ++ ssid ++ restS) ∧
      strstr "save=".toList buf = some sub ∧
      ((∃ t, restP = '&' :: t) ∨ ∃ t, restS = '&' :: t) ∧
      (restP = [] ∨ ∃ t, restP = '&' :: t) ∧ (restS = [] ∨ ∃ t, restS = '&' :: t) := by
  obtain ⟨save, others, fields, hsave, hothers, hperm, rfl⟩ := h.fields
  have hssid := h.ssid_clean
  have hpassword := h.password_clean
  obtain ⟨beforeS, afterS, restS, hfieldsS, hS, hrestS⟩ := strstr_field "s1=".toList ssid
    [("p1=".toList, password), ("save=".toList, save)] (by decide)
    (by simp [hsave, hpassword, fieldNames]) hothers hperm
  obtain ⟨beforeP, afterP, restP, hfieldsP, hP, hrestP⟩ := strstr_field "p1=".toList password
    [("s1=".toList, ssid), ("save=".toList, save)] (by decide)
    (by simp [hsave, hssid, fieldNames]) hothers (hperm.trans (List.Perm.swap ..))
  obtain ⟨-, -, restSave, -, hSave, -⟩ := strstr_field "save=".toList save
    [("s1=".toList, ssid), ("p1=".toList, password)] (by decide)
    (by simp [hssid, hpassword, fieldNames]) hothers
    (hperm.trans (List.perm_middle : ([_, _] ++ _ :: _).Perm _))
  refine ⟨restP, restS, _, hP, hS, hSave, ?_, hrestP.imp_left And.left, hrestS.imp_left And.left⟩
  obtain ⟨-, rfl⟩ | hnext := hrestP
  · obtain ⟨-, rfl⟩ | hnext := hrestS
    · -- the two fields cannot both be the last one
      have hlast := (List.append_singleton_inj.mp (hfieldsS.symm.trans hfieldsP)).2
      simp at hlast
    · exact .inr hnext
  · exact .inl hnext

/-- A balanced form has both values copied. -/
theorem IsForm.copies {ssid password buf : Text} (h : IsForm ssid password buf)
    (hbalanced : Balanced buf) : copies buf = [(passwordOffset, password), (0, ssid)] := by
  obtain ⟨restP, restS, sub, hP, hS, hSave, hnext, hendP, hendS⟩ := h.found
  have hboth := hbalanced _ _ _ hP hS hSave
  have hp := h.password_clean.amp
  have hs := h.ssid_clean.amp
  obtain ⟨⟨t, rfl⟩, u, rfl⟩ : (∃ t, restP = '&' :: t) ∧ ∃ t, restS = '&' :: t := by
    obtain rfl | hendP := hendP
    · obtain ⟨t, ht⟩ | ⟨t, rfl⟩ := hnext
      · cases ht
      · have hmem := hboth.mpr (by simp)
        simp [hp] at hmem
    · obtain rfl | hendS := hendS
      · obtain ⟨t, rfl⟩ := hendP
        have hmem := hboth.mp (by simp)
        simp [hs] at hmem
      · exact ⟨hendP, hendS⟩
  rw [Web.copies, hP, hS, hSave]
  dsimp only
  rw [valueOf_field rfl (by decide) hp, valueOf_field rfl (by decide) hs]
  rfl

/-! ### The outputs -/

/-- The memory after a string and its terminator. -/
def withString (wifi : Tape Char) (i : Nat) (value : Text) : Tape Char :=
  (wifi.write i value).write (i + value.length) ['\x00']

theorem withString_holds (wifi : Tape Char) (i : Nat) (value : Text) :
    (withString wifi i value).Holds i (value ++ ['\x00']) := Tape.holds_write.write_append

theorem withString_behind {wifi : Tape Char} {i k : Nat} {value : Text}
    (h : i + value.length < k) : withString wifi i value k = wifi k := by
  rw [withString, Tape.write_of_ge (by rw [List.length_singleton]; omega),
    Tape.write_of_ge (by omega)]

theorem withString_end (wifi : Tape Char) (i : Nat) (value : Text) :
    withString wifi i value (i + value.length) = '\x00' :=
  (Tape.holds_append.mp (withString_holds wifi i value)).2 0 '\x00' rfl

/-- A string is stored if its terminator has room too. -/
theorem copyString_eq (wifi : Tape Char) (i : Nat) (value : Text) :
    copyString wifi (i, value) =
      if i + value.length < credentialsSize then some (withString wifi i value) else none := by
  rw [copyString]
  dsimp only [Option.bind_eq_bind]
  by_cases hroom : i + value.length < credentialsSize
  · rw [if_pos hroom, Tape.store_of_le (by omega), Option.bind_some]
    exact Tape.store_of_le hroom
  · rw [if_neg hroom]
    by_cases hvalue : i + value.length ≤ credentialsSize
    · rw [Tape.store_of_le hvalue, Option.bind_some]
      exact Tape.store_of_lt (by rw [List.length_singleton]; omega)
    · rw [Tape.store_of_lt (by omega), Option.bind_none]

/-- The outputs hold the two values, as strings of 32 and 64 bytes at most. -/
structure HoldsBoth (wifi : Tape Char) (ssid password : Text) : Prop where
  ssid : wifi.Holds 0 ((ssid ++ ['\x00']).take passwordOffset)
  password : wifi.Holds passwordOffset
    ((password ++ ['\x00']).take (credentialsSize - passwordOffset))

/-- What `parse_wifi_uri` is for: the values of a form are written, and of any text both outputs
are, or none. -/
def Parses (buf : Text) : Prop :=
  (∀ ssid password, IsForm ssid password buf → ∀ wifi, ∃ wifi',
    parseWifiUri buf wifi = some wifi' ∧ HoldsBoth wifi' ssid password) ∧
  (copies buf = [] ∨ Writes buf 0 ∧ Writes buf passwordOffset)

/-- The terminators fit too; that of an SSID of 32 bytes goes to the password, which may end
there. -/
def HasRoom (ssid password : Text) : Prop :=
  passwordOffset + password.length < credentialsSize ∧
    (ssid.length < passwordOffset ∨ password = [])

theorem holds_take {wifi : Tape Char} {i : Nat} {l : Text} (h : wifi.Holds i l) (n : Nat) :
    wifi.Holds i (l.take n) := by
  rw [← List.take_append_drop n l] at h
  exact (Tape.holds_append.mp h).1

theorem IsForm.password_string {ssid password buf : Text} (h : IsForm ssid password buf) :
    '\x00' ∉ password := by
  obtain ⟨restP, -, -, hP, -⟩ := h.found
  intro hnul
  exact h.string ((strstr_some hP).2.subset (by simp [hnul]))

/-- The memory after a balanced form: the password is written first, and the SSID before it. -/
theorem IsForm.parseWifiUri_eq {ssid password buf : Text} (h : IsForm ssid password buf)
    (hbalanced : Balanced buf) (wifi : Tape Char) :
    parseWifiUri buf wifi =
      if passwordOffset + password.length < credentialsSize then
        some (withString (withString wifi passwordOffset password) 0 ssid) else none := by
  have hoffset : passwordOffset = 32 := rfl
  have hsize : credentialsSize = 96 := rfl
  have hssid := h.ssid_fits
  rw [parseWifiUri_eq_copies, h.copies hbalanced, List.foldlM_cons, copyString_eq]
  split
  · rw [Option.bind_eq_bind, Option.bind_some, List.foldlM_cons, copyString_eq, if_pos (by omega)]
    rfl
  · rfl

/-- The terminator of the SSID leaves the password alone if the SSID is shorter than its output, or
if the password ends there. -/
theorem holdsBoth_iff {ssid password : Text} (hssid : ssid.length ≤ passwordOffset)
    (hstring : '\x00' ∉ password) (wifi : Tape Char) :
    HoldsBoth (withString (withString wifi passwordOffset password) 0 ssid) ssid password ↔
      ssid.length < passwordOffset ∨ password = [] := by
  have hsize : credentialsSize - passwordOffset = 64 := rfl
  have hend := withString_end (withString wifi passwordOffset password) 0 ssid
  constructor
  · intro hholds
    cases password with
    | nil => exact .inr rfl
    | cons c password =>
      left
      by_contra hfull
      have hcell := hholds.password 0 c (by simp [hsize])
      rw [show 0 + ssid.length = passwordOffset + 0 by omega, hcell] at hend
      exact hstring (by simp [hend])
  · intro hshort
    refine ⟨holds_take (withString_holds _ 0 ssid) _, holds_take ?_ _⟩
    by_cases hlt : ssid.length < passwordOffset
    · apply (withString_holds wifi passwordOffset password).frame
      intro k hk _
      exact withString_behind (by omega)
    · obtain rfl := hshort.resolve_left hlt
      rw [show 0 + ssid.length = passwordOffset by omega] at hend
      exact Tape.holds_cons.mpr ⟨hend, Tape.holds_nil⟩

theorem IsForm.written_iff {ssid password buf : Text} (h : IsForm ssid password buf)
    (hbalanced : Balanced buf) :
    (∀ wifi, ∃ wifi', parseWifiUri buf wifi = some wifi' ∧ HoldsBoth wifi' ssid password) ↔
      HasRoom ssid password := by
  have hrun := h.parseWifiUri_eq hbalanced
  have hholds := holdsBoth_iff h.ssid_fits h.password_string
  constructor
  · intro hwritten
    obtain ⟨wifi', hwifi', hboth⟩ := hwritten fun _ => '\x00'
    rw [hrun, Option.ite_none_right_eq_some] at hwifi'
    obtain ⟨hroom, heq⟩ := hwifi'
    obtain rfl := Option.some.inj heq
    exact ⟨hroom, (hholds _).mp hboth⟩
  · rintro ⟨hroom, hshort⟩ wifi
    exact ⟨_, (hrun wifi).trans (if_pos hroom), (hholds wifi).mpr hshort⟩

/-- `parse_wifi_uri` does what it is for exactly on the texts in which both fields are followed by
an `&` or neither is, if the values of a form leave room for their terminators. -/
theorem parses_iff (buf : Text) :
    Parses buf ↔
      Balanced buf ∧ ∀ ssid password, IsForm ssid password buf → HasRoom ssid password := by
  rw [Parses, bothOrNone_iff]
  constructor
  · rintro ⟨hforms, hbalanced⟩
    exact ⟨hbalanced, fun ssid password h => (h.written_iff hbalanced).mp (hforms _ _ h)⟩
  · rintro ⟨hbalanced, hroom⟩
    exact ⟨fun ssid password h => (h.written_iff hbalanced).mpr (hroom _ _ h), hbalanced⟩

/-- A form whose last field is the password: the SSID is written and the password is not. -/
theorem not_parses : ¬∀ buf, Parses buf := by
  intro h
  have hbalanced := (bothOrNone_iff _).mp (h "save=1&s1=home&p1=password".toList).2
  have hboth := hbalanced "p1=password".toList "s1=home&p1=password".toList
    "save=1&s1=home&p1=password".toList (by decide) (by decide) (by decide)
  exact absurd hboth (by decide)

end VhomeBridge.Web
