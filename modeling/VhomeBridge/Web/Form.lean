import VhomeBridge.Web.Receive

/-! The form for the network.  The SSID and the password reach `wifi_config` if the texts contain
nothing that the handler takes for the syntax of the form, once it has decoded it, and the SSID
leaves room for its terminator. -/

namespace VhomeBridge.Web

open Lib

/-! ### Encoded values -/

/-- `c` is a hexadecimal digit of value `n`. -/
def IsHex (c : Char) (n : Nat) : Prop :=
  "0123456789ABCDEF".toList[n]? = some c ∨ "0123456789abcdef".toList[n]? = some c

/-- `text` is an encoding of `value`: each byte is escaped, or itself, or `+` for a space. -/
inductive Encodes : Text → Text → Prop
  | nil : Encodes [] []
  | plain {c : Char} {value text : Text} (h : c ≠ '%' ∧ c ≠ '+' ∧ c ≠ '&') :
      Encodes value text → Encodes (c :: value) (c :: text)
  | plus {value text : Text} : Encodes value text → Encodes (' ' :: value) ('+' :: text)
  | escape {a b : Char} {m n : Nat} {value text : Text} (ha : IsHex a m) (hb : IsHex b n) :
      Encodes value text → Encodes (Char.ofNat (16 * m + n) :: value) ('%' :: a :: b :: text)

theorem IsHex.digit {c : Char} {n : Nat} (h : IsHex c n) :
    isxdigit c = true ∧ xdigitValue c = n := by
  have hlt : n < 16 := by
    rcases h with h | h
    · exact (List.getElem?_eq_some_iff.mp h).1
    · exact (List.getElem?_eq_some_iff.mp h).1
  have hupper : ∀ n < 16, isxdigit ("0123456789ABCDEF".toList.getD n '0') = true ∧
      xdigitValue ("0123456789ABCDEF".toList.getD n '0') = n := by decide
  have hlower : ∀ n < 16, isxdigit ("0123456789abcdef".toList.getD n '0') = true ∧
      xdigitValue ("0123456789abcdef".toList.getD n '0') = n := by decide
  rcases h with h | h
  · have hdigit := hupper n hlt
    rwa [List.getD_eq_getElem?_getD, h, Option.getD_some] at hdigit
  · have hdigit := hlower n hlt
    rwa [List.getD_eq_getElem?_getD, h, Option.getD_some] at hdigit

theorem urldecode2_plus (c : Char) (h : c ≠ '%') (src : Text) :
    urldecode2 (c :: src) = plusToSpace c :: urldecode2 src := by
  match src with
  | [] => rfl
  | [a] => rfl
  | a :: b :: src => rw [urldecode2, if_neg fun hc => h hc.1]

theorem urldecode2_plain (s rest : Text) (h : ∀ c ∈ s, c ≠ '%' ∧ c ≠ '+') :
    urldecode2 (s ++ rest) = s ++ urldecode2 rest := by
  induction s with
  | nil => rfl
  | cons c s ih =>
    obtain ⟨hpercent, hplus⟩ := h c (by simp)
    rw [List.cons_append, urldecode2_plus c hpercent, plusToSpace, if_neg hplus,
      ih fun d hd => h d (by simp [hd])]
    rfl

/-- Decoding gives the value back, and goes on with the rest. -/
theorem Encodes.decode {value text : Text} (h : Encodes value text) (rest : Text) :
    urldecode2 (text ++ rest) = value ++ urldecode2 rest := by
  induction h with
  | nil => rfl
  | plain h _ ih =>
    rw [List.cons_append, urldecode2_plus _ h.1, plusToSpace, if_neg h.2.1, ih]
    rfl
  | plus _ ih =>
    rw [List.cons_append, urldecode2_plus _ (by decide), ih]
    rfl
  | escape ha hb _ ih =>
    obtain ⟨hdigit, rfl⟩ := ha.digit
    obtain ⟨hdigit', rfl⟩ := hb.digit
    rw [List.cons_append, List.cons_append, List.cons_append, urldecode2,
      if_pos ⟨rfl, hdigit, hdigit'⟩, ih]
    rfl

theorem isxdigit_ne_nul {c : Char} (h : isxdigit c = true) : c ≠ '\x00' := by
  rintro rfl
  exact absurd h (by decide)

theorem Encodes.string {value text : Text} (h : Encodes value text) (hnul : '\x00' ∉ value) :
    '\x00' ∉ text := by
  induction h with
  | nil => exact hnul
  | plain _ _ ih =>
    rw [List.mem_cons, not_or] at hnul ⊢
    exact ⟨hnul.1, ih hnul.2⟩
  | plus _ ih =>
    rw [List.mem_cons, not_or] at hnul ⊢
    exact ⟨by decide, ih hnul.2⟩
  | escape ha hb _ ih =>
    rw [List.mem_cons, not_or] at hnul
    simp only [List.mem_cons, not_or]
    exact ⟨by decide, (isxdigit_ne_nul ha.digit.1).symm, (isxdigit_ne_nul hb.digit.1).symm,
      ih hnul.2⟩

theorem urldecode2_length_le (src : Text) : (urldecode2 src).length ≤ src.length := by
  fun_induction urldecode2 src with
  | case1 => simp
  | case2 => simp
  | case3 => simp
  | case4 c a b src h ih =>
    simp only [List.length_cons]
    omega
  | case5 c a b src h ih =>
    simp only [List.length_cons] at ih ⊢
    omega

/-! ### `strstr` -/

theorem strstr_of_isPrefix {pat s : Text} (h : pat <+: s) : strstr pat s = some s := by
  cases s with
  | nil =>
    obtain rfl := List.prefix_nil.mp h
    rfl
  | cons c s => rw [strstr, if_pos h]

theorem strstr_some {pat s sub : Text} (h : strstr pat s = some sub) : pat <+: sub ∧ sub <:+ s := by
  induction s with
  | nil =>
    rw [strstr, Option.ite_none_right_eq_some] at h
    obtain ⟨rfl, hsub⟩ := h
    obtain rfl := Option.some.inj hsub
    exact ⟨List.nil_prefix, List.suffix_refl _⟩
  | cons c s ih =>
    rw [strstr] at h
    split at h
    · obtain rfl := Option.some.inj h
      exact ⟨‹_›, List.suffix_refl _⟩
    · obtain ⟨hpat, hsub⟩ := ih h
      exact ⟨hpat, hsub.trans (List.suffix_cons c s)⟩

theorem isPrefix_of_append {pat s t : Text} (h : pat <+: s ++ t) (hle : pat.length ≤ s.length) :
    pat <+: s := List.prefix_of_prefix_length_le h (List.prefix_append s t) hle

/-- An occurrence is found also when text follows. -/
theorem strstr_append {pat s sub : Text} (h : strstr pat s = some sub) (t : Text) :
    strstr pat (s ++ t) = some (sub ++ t) := by
  induction s with
  | nil =>
    rw [strstr, Option.ite_none_right_eq_some] at h
    obtain ⟨rfl, hsub⟩ := h
    obtain rfl := Option.some.inj hsub
    exact strstr_of_isPrefix List.nil_prefix
  | cons c s ih =>
    rw [strstr] at h
    split at h
    · rename_i hfound
      obtain rfl := Option.some.inj h
      exact strstr_of_isPrefix (hfound.trans (List.prefix_append _ _))
    · rename_i hnot
      obtain ⟨hpat, hsub⟩ := strstr_some h
      have hle : pat.length ≤ (c :: s).length :=
        (hpat.length_le.trans hsub.length_le).trans (Nat.le_succ _)
      have hlong : ¬pat <+: c :: s ++ t := fun hlong => hnot (isPrefix_of_append hlong hle)
      rw [List.cons_append] at hlong ⊢
      rw [strstr, if_neg hlong, ih h]

/-- An occurrence does not go across a character that is not in the pattern. -/
theorem strstr_none_append {pat s : Text} {c : Char} (hne : pat ≠ []) (hc : c ∉ pat)
    (h : strstr pat s = none) (t : Text) : strstr pat (s ++ c :: t) = strstr pat t := by
  induction s with
  | nil =>
    have hnot : ¬pat <+: c :: t := fun hpat => by
      obtain ⟨p, ps, rfl⟩ := List.exists_cons_of_ne_nil hne
      obtain ⟨rfl, -⟩ := List.cons_prefix_cons.mp hpat
      exact hc (List.mem_cons_self ..)
    rw [List.nil_append, strstr, if_neg hnot]
  | cons a s ih =>
    rw [strstr] at h
    split at h
    · cases h
    · rename_i hnot
      have hlong : ¬pat <+: a :: s ++ c :: t := fun hlong => by
        by_cases hle : pat.length ≤ (a :: s).length
        · exact hnot (isPrefix_of_append hlong hle)
        · have hover : a :: s ++ [c] <+: pat := by
            refine List.prefix_of_prefix_length_le ⟨t, by simp⟩ hlong ?_
            rw [List.length_append, List.length_singleton]
            omega
          exact hc (hover.subset (by simp))
      rw [List.cons_append] at hlong ⊢
      rw [strstr, if_neg hlong, ih h]

theorem strstr_char (c : Char) (s : Text) :
    strstr [c] s = if c ∈ s then some (s.dropWhile (· ≠ c)) else none := by
  induction s with
  | nil => rfl
  | cons a s ih =>
    rw [strstr, ih]
    by_cases ha : c = a
    · simp [ha]
    · simp [ha, Ne.symm ha]

/-! ### The values -/

/-- What is copied of a value: its text up to an `&`. -/
def beforeAmp (value : Text) : Text := value.takeWhile (· ≠ '&')

theorem beforeAmp_append {value : Text} (t : Text) :
    beforeAmp (value ++ '&' :: t) = beforeAmp value := by
  induction value with
  | nil => rfl
  | cons c value ih =>
    by_cases hc : c = '&'
    · simp [beforeAmp, hc]
    · simpa [beforeAmp, hc] using ih

theorem beforeAmp_eq_self_iff {value : Text} : beforeAmp value = value ↔ '&' ∉ value := by
  constructor
  · intro h hamp
    simpa using List.takeWhile_eq_self_iff.mp h _ hamp
  · exact Tape.takeWhile_ne

theorem beforeAmp_length_le (value : Text) : (beforeAmp value).length ≤ value.length :=
  (List.takeWhile_prefix _).length_le

/-- The value after a key of three characters is copied up to the `&`. -/
theorem copyValue_eq {key value : Text} (hkey : key.length = 3) (hamp : '&' ∉ key)
    (hmem : '&' ∈ value) {i : Nat} (hroom : i + (beforeAmp value).length < credentialsSize)
    (wifi : Tape Char) :
    copyValue (key ++ value) i wifi = some ((wifi.write i (beforeAmp value)).write
      (i + (beforeAmp value).length) ['\x00']) := by
  have hindex : strstr "&".toList (key ++ value) = some (value.dropWhile (· ≠ '&')) := by
    have hchar := strstr_char '&' (key ++ value)
    rw [if_pos (List.mem_append_right _ hmem)] at hchar
    rw [List.dropWhile_append_of_pos fun c hc => by
      simpa using fun heq : c = '&' => hamp (heq ▸ hc)] at hchar
    exact hchar
  have hsplit := congrArg List.length
    (List.takeWhile_append_dropWhile (p := (· ≠ '&')) (l := value))
  rw [List.length_append] at hsplit
  have hlen : (key ++ value).length - (value.dropWhile (· ≠ '&')).length - 3 =
      (beforeAmp value).length := by
    rw [List.length_append, hkey, beforeAmp]
    omega
  have htext : ((key ++ value).drop 3).take (beforeAmp value).length = beforeAmp value := by
    rw [← hkey, List.drop_left]
    exact (List.prefix_iff_eq_take.mp (List.takeWhile_prefix _)).symm
  have hstore : wifi.store credentialsSize i (beforeAmp value) =
      some (wifi.write i (beforeAmp value)) := Tape.store_of_le (by omega)
  rw [copyValue, hindex]
  dsimp only
  rw [hlen, htext, hstore, Option.bind_eq_bind, Option.bind_some]
  exact Tape.store_of_le hroom

/-- The decoded body. -/
def formText (ssid password : Text) : Text :=
  "s1=".toList ++ ssid ++ "&p1=".toList ++ password ++ "&save=1".toList

/-- What the handler takes for the password: the text after the first `p1=`, which the SSID may
contain. -/
def foundPassword (ssid password : Text) : Text :=
  match strstr "p1=".toList ssid with
  | some sub => beforeAmp (sub.drop 3)
  | none => beforeAmp password

theorem formText_ssid (ssid password : Text) :
    formText ssid password =
      "s1=".toList ++ (ssid ++ '&' :: ("p1=".toList ++ (password ++ '&' :: "save=1".toList))) := by
  simp [formText]

/-- No `p1=` begins in the key of the SSID. -/
theorem strstr_key (s : Text) :
    strstr "p1=".toList ("s1=".toList ++ s) = strstr "p1=".toList s := by
  simp [strstr]

theorem strstr_ssid (ssid password : Text) :
    strstr "s1=".toList (formText ssid password) = some (formText ssid password) := by
  apply strstr_of_isPrefix
  rw [formText_ssid]
  exact List.prefix_append _ _

theorem strstr_password (ssid password : Text) :
    ∃ value, strstr "p1=".toList (formText ssid password) = some ("p1=".toList ++ value) ∧
      '&' ∈ value ∧ beforeAmp value = foundPassword ssid password := by
  rw [formText_ssid, strstr_key, foundPassword]
  cases hssid : strstr "p1=".toList ssid with
  | some sub =>
    obtain ⟨⟨rest, rfl⟩, -⟩ := strstr_some hssid
    rw [strstr_append hssid, List.append_assoc]
    exact ⟨_, rfl, by simp, beforeAmp_append _⟩
  | none =>
    rw [strstr_none_append (by decide) (by decide) hssid,
      strstr_of_isPrefix (List.prefix_append _ _)]
    exact ⟨_, rfl, by simp, beforeAmp_append _⟩

theorem strstr_isSome_of_isInfix {pat s : Text} (h : pat <:+: s) : (strstr pat s).isSome := by
  induction s with
  | nil =>
    obtain rfl := List.infix_nil.mp h
    rfl
  | cons c s ih =>
    rw [strstr]
    split
    · rfl
    · rename_i hnot
      exact ih ((List.infix_cons_iff.mp h).resolve_left hnot)

/-- The memory of `ssid` and `password` after the form: the password is written first, the SSID and
its terminator over it. -/
theorem parseWifiUri_form {ssid password : Text} (hssid : (beforeAmp ssid).length ≤ 32)
    (hpassword : (foundPassword ssid password).length < 64) (wifi : Tape Char) :
    parseWifiUri (formText ssid password) wifi =
      some ((((wifi.write passwordOffset (foundPassword ssid password)).write
        (passwordOffset + (foundPassword ssid password).length) ['\x00']).write 0
          (beforeAmp ssid)).write (beforeAmp ssid).length ['\x00']) := by
  have hoffset : passwordOffset = 32 := rfl
  have hsize : credentialsSize = 96 := rfl
  obtain ⟨value, hvalue, hamp, hfound⟩ := strstr_password ssid password
  have hs := strstr_ssid ssid password
  have hinfix : "save=".toList <:+: formText ssid password :=
    ⟨"s1=".toList ++ ssid ++ "&p1=".toList ++ password ++ "&".toList, "1".toList, by
      simp [formText]⟩
  obtain ⟨sub, hsave⟩ := Option.isSome_iff_exists.mp (strstr_isSome_of_isInfix hinfix)
  rw [parseWifiUri, hvalue, hs, hsave]
  dsimp only
  rw [copyValue_eq (by decide) (by decide) hamp (by rw [hfound]; omega), hfound,
    Option.bind_eq_bind, Option.bind_some, formText_ssid]
  rw [copyValue_eq (by decide) (by decide) (by simp) (by rw [beforeAmp_append]; omega),
    beforeAmp_append, Nat.zero_add]

/-! ### The handler -/

/-- A submission of the form: the body encodes an SSID and a password and comes in one piece. -/
structure Submits (req : Request) (script : List Recv) (ssid password : Text) : Prop where
  ssid_length : 1 ≤ ssid.length ∧ ssid.length ≤ 32
  ssid_string : '\x00' ∉ ssid
  password_length : 8 ≤ password.length ∧ password.length ≤ 63
  password_string : '\x00' ∉ password
  body : ∃ s p, Encodes ssid s ∧ Encodes password p ∧
    req.body = "s1=".toList ++ s ++ "&p1=".toList ++ p ++ "&save=1".toList
  body_length : req.body.length ≤ 99
  urlencoded : "urlencoded".toList <:+: req.contentType
  delivered : Delivers 100 req.body script
  onePiece : pieces script = [req.body]

/-- After the request `ssid` is the SSID, filled up with zeros, and `password` the password. -/
def Configures (req : Request) (script : List Recv) (ssid password : Text) : Prop :=
  ∀ buf, ∃ wifi, apPostHandler req script buf = some (.done wifi) ∧
    wifi.Holds 0 (ssid ++ List.replicate (passwordOffset - ssid.length) '\x00') ∧
    wifi.Holds passwordOffset (password ++ ['\x00'])

theorem Submits.decoded {req : Request} {script : List Recv} {ssid password : Text}
    (h : Submits req script ssid password) : urldecode2 req.body = formText ssid password := by
  obtain ⟨s, p, hs, hp, hbody⟩ := h.body
  rw [hbody, List.append_assoc, List.append_assoc, List.append_assoc,
    urldecode2_plain _ _ (by simp), hs.decode, urldecode2_plain _ _ (by simp), hp.decode]
  have hend : urldecode2 "&save=1".toList = "&save=1".toList := by decide
  rw [hend, formText, List.append_assoc, List.append_assoc, List.append_assoc]

theorem Submits.string {req : Request} {script : List Recv} {ssid password : Text}
    (h : Submits req script ssid password) : '\x00' ∉ req.body := by
  obtain ⟨s, p, hs, hp, hbody⟩ := h.body
  have hs := hs.string h.ssid_string
  have hp := hp.string h.password_string
  rw [hbody]
  simp only [List.mem_append, not_or]
  exact ⟨⟨⟨⟨by decide, hs⟩, by decide⟩, hp⟩, by decide⟩

/-- The handler parses the decoded form. -/
theorem Submits.handled {req : Request} {script : List Recv} {ssid password : Text}
    (h : Submits req script ssid password) (buf : Tape Char) :
    apPostHandler req script buf =
      (parseWifiUri (formText ssid password) fun _ => '\x00').bind fun wifi =>
        some (.done wifi) := by
  obtain ⟨s, p, -, -, hbody⟩ := h.body
  have hlen := h.body_length
  have hne : req.body ≠ [] := by
    rw [hbody]
    simp
  have hexact := (exact_apPost_iff h.delivered).mpr ⟨hne, h.string, by omega, h.onePiece⟩
  rw [Exact, if_pos (by omega)] at hexact
  have hroom : (urldecode2 req.body).length < 100 :=
    (urldecode2_length_le req.body).trans_lt (by omega)
  have hnul : '\x00' ∉ formText ssid password := by
    have hssid := h.ssid_string
    have hpassword := h.password_string
    simp only [formText, List.mem_append, not_or]
    exact ⟨⟨⟨⟨by decide, hssid⟩, by decide⟩, hpassword⟩, by decide⟩
  have hdecode : decodeText 100 req req.body = some (formText ssid password) := by
    rw [decodeText, if_pos (strstr_isSome_of_isInfix h.urlencoded), intoBuffer, if_pos hroom,
      Option.map_some, h.decoded, Tape.takeWhile_ne hnul]
  rw [apPostHandler, hexact buf]
  dsimp only [Option.bind_eq_bind, Option.bind_some]
  rw [hdecode]
  rfl

/-- The memory once a password of this text is written. -/
def passwordMemory (password : Text) : Tape Char :=
  (Tape.write (fun _ => '\x00') passwordOffset password).write
    (passwordOffset + password.length) ['\x00']

/-- The memory after an SSID and a password of these texts. -/
def credentials (ssid password : Text) : Tape Char :=
  ((passwordMemory password).write 0 ssid).write ssid.length ['\x00']

theorem credentials_ssid (ssid password : Text) :
    (credentials ssid password).Holds 0 (ssid ++ ['\x00']) := by
  have hwrite := (Tape.holds_write (m := passwordMemory password) (i := 0)
    (l := ssid)).write_append (t := ['\x00'])
  rwa [Nat.zero_add] at hwrite

theorem credentials_behind {ssid : Text} (password : Text) {k : Nat} (h : ssid.length < k) :
    credentials ssid password k = passwordMemory password k := by
  rw [credentials, Tape.write_of_ge (by rw [List.length_singleton]; omega),
    Tape.write_of_ge (by omega)]

/-- An SSID that leaves room for its terminator leaves the password alone. -/
theorem credentials_short (ssid password : Text) (h : ssid.length < passwordOffset) :
    (credentials ssid password).Holds 0
        (ssid ++ List.replicate (passwordOffset - ssid.length) '\x00') ∧
      (credentials ssid password).Holds passwordOffset (password ++ ['\x00']) := by
  constructor
  · refine Tape.holds_append.mpr ⟨(Tape.holds_append.mp (credentials_ssid ssid password)).1, ?_⟩
    intro k c hk
    obtain ⟨hlt, rfl⟩ := List.getElem?_eq_some_iff.mp hk
    rw [List.length_replicate] at hlt
    rw [List.getElem_replicate]
    cases k with
    | zero => exact (Tape.holds_append.mp (credentials_ssid ssid password)).2 0 _ rfl
    | succ k =>
      rw [credentials_behind password (by omega), passwordMemory, Tape.write_of_lt (by omega),
        Tape.write_of_lt (by omega)]
  · have hwrite := (Tape.holds_write (m := fun _ => '\x00') (i := passwordOffset)
      (l := password)).write_append (t := ['\x00'])
    exact hwrite.frame fun k hk _ => credentials_behind password (by omega)

theorem foundPassword_subset {ssid password : Text} :
    ∀ c ∈ foundPassword ssid password, c ∈ ssid ∨ c ∈ password := by
  intro c hc
  rw [foundPassword] at hc
  split at hc
  · rename_i sub hsub
    have hdrop := (List.takeWhile_prefix _).subset hc
    exact .inl ((strstr_some hsub).2.subset (List.mem_of_mem_drop hdrop))
  · exact .inr ((List.takeWhile_prefix _).subset hc)

theorem foundPassword_length {ssid password : Text} (hssid : ssid.length ≤ 32)
    (hpassword : password.length ≤ 63) : (foundPassword ssid password).length < 64 := by
  rw [foundPassword]
  split
  · rename_i sub hsub
    have hle := beforeAmp_length_le (sub.drop 3)
    have hsuffix := (strstr_some hsub).2.length_le
    rw [List.length_drop] at hle
    omega
  · have hle := beforeAmp_length_le password
    omega

theorem Submits.credentials {req : Request} {script : List Recv} {ssid password : Text}
    (h : Submits req script ssid password) (buf : Tape Char) :
    apPostHandler req script buf =
      some (.done (credentials (beforeAmp ssid) (foundPassword ssid password))) := by
  have hssid := h.ssid_length.2
  rw [h.handled, parseWifiUri_form ((beforeAmp_length_le ssid).trans hssid)
    (foundPassword_length hssid h.password_length.2), Option.bind_some]
  rfl

/-- What the handler finds is the password: no `p1=` in the SSID, and no `&` in the password, or a
`p1=` followed by the password. -/
theorem foundPassword_eq_iff {ssid password : Text} (hamp : '&' ∉ ssid) :
    foundPassword ssid password = password ↔
      (∀ sub, strstr "p1=".toList ssid = some sub → sub.drop 3 = password) ∧
        (strstr "p1=".toList ssid = none → '&' ∉ password) := by
  rw [foundPassword]
  cases hssid : strstr "p1=".toList ssid with
  | some sub =>
    have hclean : '&' ∉ sub.drop 3 := fun hmem =>
      hamp ((strstr_some hssid).2.subset (List.mem_of_mem_drop hmem))
    dsimp only
    rw [beforeAmp_eq_self_iff.mpr hclean]
    simp
  | none => simp [beforeAmp_eq_self_iff]

section

variable {req : Request} {script : List Recv} {ssid password : Text}

theorem Configures.memory (hconf : Configures req script ssid password)
    (h : Submits req script ssid password) :
    (credentials (beforeAmp ssid) (foundPassword ssid password)).Holds 0 ssid ∧
      (credentials (beforeAmp ssid) (foundPassword ssid password)).Holds passwordOffset
        (password ++ ['\x00']) := by
  obtain ⟨wifi, hwifi, hssid, hpassword⟩ := hconf fun _ => 'x'
  rw [h.credentials] at hwifi
  obtain rfl : _ = wifi := by simpa using hwifi
  exact ⟨(Tape.holds_append.mp hssid).1, hpassword⟩

theorem credentials_end (ssid password : Text) :
    credentials ssid password ssid.length = '\x00' := by
  have hend := (Tape.holds_append.mp (credentials_ssid ssid password)).2 0 '\x00' rfl
  rwa [Nat.add_zero, Nat.zero_add] at hend

/-- The copy of an SSID with an `&` ends before the SSID does. -/
theorem Configures.noAmp (hconf : Configures req script ssid password)
    (h : Submits req script ssid password) : '&' ∉ ssid := by
  intro hmem
  have hlt : (beforeAmp ssid).length < ssid.length := by
    apply (beforeAmp_length_le ssid).lt_of_ne
    intro heq
    exact beforeAmp_eq_self_iff.mp ((List.takeWhile_prefix _).eq_of_length heq) hmem
  have hcell := (hconf.memory h).1 _ _ (List.getElem?_eq_getElem hlt)
  rw [Nat.zero_add, credentials_end] at hcell
  exact h.ssid_string (hcell ▸ List.getElem_mem hlt)

/-- The terminator of an SSID of 32 bytes is the first byte of the password. -/
theorem Configures.room (hconf : Configures req script ssid password)
    (h : Submits req script ssid password) : ssid.length ≤ 31 := by
  have hoffset : passwordOffset = 32 := rfl
  have hpos : 0 < password.length := by
    have := h.password_length.1
    omega
  by_contra hfull
  have hlen := h.ssid_length.2
  have hcell := (Tape.holds_append.mp (hconf.memory h).2).1 0 _ (List.getElem?_eq_getElem hpos)
  rw [beforeAmp_eq_self_iff.mpr (hconf.noAmp h), Nat.add_zero,
    show passwordOffset = ssid.length by omega, credentials_end] at hcell
  exact h.password_string (hcell ▸ List.getElem_mem hpos)

theorem Configures.found (hconf : Configures req script ssid password)
    (h : Submits req script ssid password) : foundPassword ssid password = password := by
  have hoffset : passwordOffset = 32 := rfl
  have hroom := hconf.room h
  have hpassword := (hconf.memory h).2
  rw [beforeAmp_eq_self_iff.mpr (hconf.noAmp h)] at hpassword
  have hnul : '\x00' ∉ foundPassword ssid password := fun hmem =>
    (foundPassword_subset _ hmem).elim h.ssid_string h.password_string
  exact (credentials_short ssid _ (by omega)).2.string_unique hpassword hnul h.password_string

end

/-- The handler configures the network exactly if the SSID contains no `&` and at most 31 bytes,
and no `p1=` unless the password comes after it, and else the password contains no `&`. -/
theorem configures_iff (req : Request) (script : List Recv) (ssid password : Text)
    (h : Submits req script ssid password) :
    Configures req script ssid password ↔ '&' ∉ ssid ∧ ssid.length ≤ 31 ∧
      (∀ sub, strstr "p1=".toList ssid = some sub → sub.drop 3 = password) ∧
        (strstr "p1=".toList ssid = none → '&' ∉ password) := by
  constructor
  · intro hconf
    exact ⟨hconf.noAmp h, hconf.room h, (foundPassword_eq_iff (hconf.noAmp h)).mp (hconf.found h)⟩
  · rintro ⟨hamp, hlen, hfound⟩ buf
    have hoffset : passwordOffset = 32 := rfl
    have hself := beforeAmp_eq_self_iff.mpr hamp
    exact ⟨_, by rw [h.credentials, hself, (foundPassword_eq_iff hamp).mpr hfound],
      credentials_short ssid password (by omega)⟩

theorem encodes_plain {s : Text} (h : ∀ c ∈ s, c ≠ '%' ∧ c ≠ '+' ∧ c ≠ '&') : Encodes s s := by
  induction s with
  | nil => exact .nil
  | cons c s ih => exact .plain (h c (by simp)) (ih fun d hd => h d (by simp [hd]))

/-- A network `my home` with the password `pass+word`. -/
def escapedRequest : Request :=
  formRequest "s1=my+home&p1=pass%2Bword&save=1".toList (by decide)

theorem encodes_password : Encodes "pass+word".toList "pass%2Bword".toList :=
  have hword : Encodes "word".toList "word".toList := encodes_plain (by simp)
  have hplus : Encodes "+word".toList "%2Bword".toList :=
    .escape (m := 2) (n := 11) (.inl rfl) (.inl rfl) hword
  .plain (by decide) <| .plain (by decide) <| .plain (by decide) <| .plain (by decide) hplus

theorem encodes_ssid : Encodes "my home".toList "my+home".toList :=
  have hhome : Encodes "home".toList "home".toList := encodes_plain (by simp)
  .plain (by decide) <| .plain (by decide) <| .plus hhome

theorem configures_escaped : Configures escapedRequest [.timeout, .data escapedRequest.body]
    "my home".toList "pass+word".toList :=
  (configures_iff escapedRequest _ _ _
    { ssid_length := by decide
      ssid_string := by decide
      password_length := by decide
      password_string := by decide
      body := ⟨_, _, encodes_ssid, encodes_password, rfl⟩
      body_length := by decide
      urlencoded := by decide
      delivered := ⟨List.append_nil _, by decide, by simp⟩
      onePiece := rfl }).mpr ⟨by decide, by decide, by simp [strstr], by decide⟩

/-- An SSID of 32 bytes: its terminator makes the password empty. -/
theorem not_configures :
    ¬∀ (req : Request) (script : List Recv) (ssid password : Text),
      Submits req script ssid password → Configures req script ssid password := by
  intro h
  let ssid : Text := List.replicate 32 'a'
  let password := "password".toList
  let body := "s1=".toList ++ ssid ++ "&p1=".toList ++ password ++ "&save=1".toList
  have hsubmits : Submits (formRequest body (by decide)) [.data body] ssid password :=
    { ssid_length := by decide
      ssid_string := by decide
      password_length := by decide
      password_string := by decide
      body := ⟨_, _, encodes_plain (by simp [ssid]), encodes_plain (by simp [password]), rfl⟩
      body_length := by decide
      urlencoded := by decide
      delivered :=
        { whole := List.append_nil _
          piece := fun p hp => by
            obtain rfl := List.mem_singleton.mp hp
            exact ⟨by decide, by decide⟩
          ok := by simp }
      onePiece := rfl }
  exact absurd ((h _ _ _ _ hsubmits).room hsubmits) (by decide)

end VhomeBridge.Web
