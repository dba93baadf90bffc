import VhomeBridge.Ble.NodeInfor

/-! Compositions and their encoding.  A composition that fits the table, encoded as composition
data page 0, is read back by `ble_mesh_parse_node_comp_data`: the record then holds its rows. -/

namespace VhomeBridge.Ble

/-- An element of a composition: its location, its SIG model ids, and the company and model ids of
its vendor models.  Its models leave room for the terminator in a row of the table. -/
structure Element where
  loc : Word
  sig : List Word
  vendor : List (Word × Word)
  fits : sig.length + vendor.length < maxModels

/-- An element with the Generic OnOff Server. -/
def onoffElement (loc : Word) : Element := ⟨loc, [0x1000], [], by decide⟩

def Element.row (e : Element) : List (Word × Word) :=
  e.sig.map (·, 0xffff) ++ e.vendor.map fun v => (v.2, v.1)

structure Composition where
  header : Vector Octet 10
  elements : List Element
  nonempty : elements ≠ []
  fits : elements.length ≤ maxElements

def Composition.rows (comp : Composition) : List (List (Word × Word)) :=
  comp.elements.map Element.row

def le16 (w : Word) : List Octet := [w.extractLsb' 0 8, w.extractLsb' 8 8]

def Element.encode (e : Element) : List Octet :=
  le16 e.loc ++ [BitVec.ofNat 8 e.sig.length, BitVec.ofNat 8 e.vendor.length] ++
    e.sig.flatMap le16 ++ e.vendor.flatMap fun v => le16 v.1 ++ le16 v.2

def Composition.encode (comp : Composition) : List Octet :=
  comp.header.toList ++ comp.elements.flatMap Element.encode

/-- The record holds the table of a composition: each entry in its slot, the terminator after the
last entry of each row. -/
structure NodeInfor.Holds (g : NodeInfor) (table : List (List (Word × Word))) : Prop where
  elementNum : g.elementNum.toNat = table.length
  entry : ∀ e row j m c, table[e]? = some row → row[j]? = some (m, c) →
    g.models e j = m ∧ g.cid e j = c
  terminator : ∀ e row, table[e]? = some row → g.models e row.length = 0xffff

/-! ### Reading back what was encoded -/

theorem le16_length (w : Word) : (le16 w).length = 2 := rfl

theorem compData2Octet_le16 {data : List Octet} (before : List Octet) {w : Word}
    (after : List Octet) (h : data = before ++ le16 w ++ after) :
    compData2Octet data before.length = some w := by
  have h0 : data[before.length]? = some (w.extractLsb' 0 8) := by simp [h, le16]
  have h1 : data[before.length + 1]? = some (w.extractLsb' 8 8) := by simp [h, le16]
  have hw : w.extractLsb' 8 8 ++ w.extractLsb' 0 8 = w := by
    ext i hi
    simp only [BitVec.getElem_append, BitVec.getElem_extractLsb']
    split
    · simp [← BitVec.getLsbD_eq_getElem]
    · have : 8 + (i - 8) = i := by omega
      simp [this, ← BitVec.getLsbD_eq_getElem]
  simp [compData2Octet, h0, h1, hw]

namespace NodeInfor

/-- `entries` written to row `e` from slot `j` on. -/
def writeRow (g : NodeInfor) (e j : Nat) : List (Word × Word) → NodeInfor
  | [] => g
  | (m, c) :: entries =>
    writeRow { g with models := put g.models e j m, cid := put g.cid e j c } e (j + 1) entries

/-- The rows of `table` written to the rows from `e` on, each with its terminator. -/
def writeTable (g : NodeInfor) (e : Nat) : List (List (Word × Word)) → NodeInfor
  | [] => g
  | row :: table =>
    let written := g.writeRow e 0 row
    writeTable { written with models := put written.models e row.length 0xffff } (e + 1) table

def load (g : NodeInfor) (comp : Composition) : NodeInfor :=
  { g.writeTable 0 comp.rows with elementNum := BitVec.ofNat 16 comp.rows.length }

theorem writeRow_append (g : NodeInfor) (e j : Nat) (xs ys : List (Word × Word)) :
    g.writeRow e j (xs ++ ys) = (g.writeRow e j xs).writeRow e (j + xs.length) ys := by
  induction xs generalizing g j with
  | nil => rfl
  | cons x xs ih =>
    obtain ⟨m, c⟩ := x
    simp only [List.cons_append, writeRow, ih, List.length_cons]
    congr 1
    omega

theorem setEntry {g : NodeInfor} {e j : Nat} (he : e < maxElements) (hj : j < maxModels)
    (m c : Word) :
    ((g.setModel e j m).bind fun g => g.setCid e j c) =
      some (g.writeRow e j [(m, c)]) := by
  simp [setModel, setCid, writeRow, he, hj]

end NodeInfor

open NodeInfor

theorem parseSigModels_eq {data : List Octet} (before after : List Octet) {e : Nat}
    (he : e < maxElements) (sig : List Word) (j : Nat) (g : NodeInfor)
    (hj : j + sig.length < maxModels)
    (h : data = before ++ sig.flatMap le16 ++ after) :
    parseSigModels data e sig.length before.length j g =
      some (before.length + 2 * sig.length, j + sig.length,
        g.writeRow e j (sig.map (·, 0xffff))) := by
  induction sig generalizing before j g with
  | nil => rfl
  | cons m sig ih =>
    simp only [List.length_cons] at hj
    have hread : compData2Octet data before.length = some m :=
      compData2Octet_le16 before (sig.flatMap le16 ++ after) (by simp [h])
    have hset := setEntry (g := g) he (show j < maxModels by omega) m 0xffff
    have hrest := ih (before ++ le16 m) (j + 1) (g.writeRow e j [(m, 0xffff)])
      (by omega) (by simp [h])
    simp only [List.length_append, le16_length] at hrest
    simp only [List.length_cons, parseSigModels, hread, Option.bind_eq_bind, Option.bind_some]
    rw [← Option.bind_assoc, hset, Option.bind_some, hrest]
    simp only [List.map_cons, writeRow, Option.some.injEq, Prod.mk.injEq, and_true]
    constructor <;> omega

theorem parseVendorModels_eq {data : List Octet} (before after : List Octet) {e : Nat}
    (he : e < maxElements) (vendor : List (Word × Word)) (j : Nat) (g : NodeInfor)
    (hj : j + vendor.length < maxModels)
    (h : data = before ++ (vendor.flatMap fun v => le16 v.1 ++ le16 v.2) ++ after) :
    parseVendorModels data e vendor.length before.length j g =
      some (before.length + 4 * vendor.length, j + vendor.length,
        g.writeRow e j (vendor.map fun v => (v.2, v.1))) := by
  induction vendor generalizing before j g with
  | nil => rfl
  | cons v vendor ih =>
    obtain ⟨c, m⟩ := v
    simp only [List.length_cons] at hj
    have hcompany : compData2Octet data before.length = some c :=
      compData2Octet_le16 before (le16 m ++
        (vendor.flatMap fun v => le16 v.1 ++ le16 v.2) ++ after) (by simp [h])
    have hmodel : compData2Octet data (before.length + 2) = some m := by
      have := compData2Octet_le16 (before ++ le16 c)
        ((vendor.flatMap fun v => le16 v.1 ++ le16 v.2) ++ after)
        (show data = before ++ le16 c ++ le16 m ++ _ by simp [h])
      simpa [le16_length] using this
    have hset := setEntry (g := g) he (show j < maxModels by omega) m c
    have hrest := ih (before ++ le16 c ++ le16 m) (j + 1) (g.writeRow e j [(m, c)])
      (by omega) (by simp [h])
    simp only [List.length_append, le16_length] at hrest
    simp only [List.length_cons, parseVendorModels, hcompany, hmodel, Option.bind_eq_bind,
      Option.bind_some]
    rw [← Option.bind_assoc, hset, Option.bind_some, hrest]
    simp only [List.map_cons, writeRow, Option.some.injEq, Prod.mk.injEq, and_true]
    constructor <;> omega

theorem Element.row_length (e : Element) : e.row.length = e.sig.length + e.vendor.length := by
  simp [Element.row]

theorem flatMap_le16_length (xs : List Word) : (xs.flatMap le16).length = 2 * xs.length := by
  induction xs with
  | nil => rfl
  | cons x xs ih => simp only [List.flatMap_cons, List.length_append, ih, le16_length,
      List.length_cons]; omega

theorem flatMap_vendor_length (xs : List (Word × Word)) :
    (xs.flatMap fun v => le16 v.1 ++ le16 v.2).length = 4 * xs.length := by
  induction xs with
  | nil => rfl
  | cons x xs ih => simp only [List.flatMap_cons, List.length_append, ih, le16_length,
      List.length_cons]; omega

theorem Element.encode_length (e : Element) :
    e.encode.length = 4 + 2 * e.sig.length + 4 * e.vendor.length := by
  simp only [Element.encode, List.length_append, le16_length, flatMap_le16_length,
    flatMap_vendor_length, List.length_cons, List.length_nil]

theorem toNat_ofNat_octet {n : Nat} (h : n < maxModels) : (BitVec.ofNat 8 n).toNat = n := by
  unfold maxModels at h
  simp only [BitVec.toNat_ofNat]
  omega

theorem parseElements_step {data : List Octet} (before after : List Octet) (el : Element)
    {numElement : Nat} (hn : numElement < maxElements) (fuel : Nat) (g : NodeInfor)
    (h : data = before ++ el.encode ++ after) :
    parseElements data (fuel + 1) before.length numElement g =
      parseElements data fuel (before ++ el.encode).length (numElement + 1)
        (g.writeTable numElement [el.row]) := by
  have hfits := el.fits
  have hlt : before.length < data.length := by
    simp only [h, List.length_append, Element.encode_length]
    omega
  have hloc : compData2Octet data before.length = some el.loc :=
    compData2Octet_le16 before ([BitVec.ofNat 8 el.sig.length, BitVec.ofNat 8 el.vendor.length] ++
      el.sig.flatMap le16 ++ (el.vendor.flatMap fun v => le16 v.1 ++ le16 v.2) ++ after)
      (by rw [h, Element.encode]; simp only [List.append_assoc])
  have hnums : compData1Octet data (before.length + 2) = some (BitVec.ofNat 8 el.sig.length) := by
    simp [compData1Octet, h, Element.encode, le16]
  have hnumv : compData1Octet data (before.length + 3) =
      some (BitVec.ofNat 8 el.vendor.length) := by
    simp [compData1Octet, h, Element.encode, le16]
  have hsig := parseSigModels_eq (before ++ le16 el.loc ++
      [BitVec.ofNat 8 el.sig.length, BitVec.ofNat 8 el.vendor.length])
    ((el.vendor.flatMap fun v => le16 v.1 ++ le16 v.2) ++ after) hn el.sig 0 g (by omega)
    (show data = _ by rw [h, Element.encode]; simp only [List.append_assoc])
  have hvendor := parseVendorModels_eq (before ++ le16 el.loc ++
      [BitVec.ofNat 8 el.sig.length, BitVec.ofNat 8 el.vendor.length] ++ el.sig.flatMap le16)
    after hn el.vendor el.sig.length (g.writeRow numElement 0 (el.sig.map (·, 0xffff))) (by omega)
    (show data = _ by rw [h, Element.encode]; simp only [List.append_assoc])
  have hnums_eq : (BitVec.ofNat 8 el.sig.length).toNat = el.sig.length :=
    toNat_ofNat_octet (by omega)
  have hnumv_eq : (BitVec.ofNat 8 el.vendor.length).toNat = el.vendor.length :=
    toNat_ofNat_octet (by omega)
  simp only [List.length_append, le16_length, List.length_cons, List.length_nil,
    flatMap_le16_length, Nat.zero_add, Nat.add_assoc, Nat.reduceAdd] at hsig hvendor
  simp only [parseElements, hlt, if_true, hloc, hnums, hnumv, hnums_eq, hnumv_eq, hsig, hvendor,
    Option.bind_eq_bind, Option.bind_some]
  have hrow : (g.writeRow numElement 0 (el.sig.map (·, 0xffff))).writeRow numElement el.sig.length
      (el.vendor.map fun v => (v.2, v.1)) = g.writeRow numElement 0 el.row := by
    rw [Element.row, writeRow_append, List.length_map, Nat.zero_add]
  have hlength : (before ++ el.encode).length =
      before.length + (4 + (2 * el.sig.length + 4 * el.vendor.length)) := by
    rw [List.length_append, Element.encode_length, Nat.add_assoc]
  rw [hrow, hlength, setModel, if_pos ⟨hn, hfits⟩, ← Element.row_length]
  rfl

theorem parseElements_eq {data : List Octet} (before : List Octet) (els : List Element)
    {numElement fuel : Nat} (hn : numElement + els.length ≤ maxElements)
    (hfuel : els.length ≤ fuel) (g : NodeInfor) (h : data = before ++ els.flatMap Element.encode) :
    parseElements data fuel before.length numElement g =
      some { g.writeTable numElement (els.map Element.row) with
        elementNum := BitVec.ofNat 16 (numElement + els.length) } := by
  induction els generalizing before numElement fuel g with
  | nil =>
    have hend : ¬ before.length < data.length := by simp [h]
    cases fuel with
    | zero => simp [parseElements, hend, writeTable]
    | succ fuel => simp [parseElements, hend, writeTable]
  | cons el els ih =>
    simp only [List.length_cons] at hn hfuel
    obtain ⟨fuel, rfl⟩ : ∃ n, fuel = n + 1 := ⟨fuel - 1, by omega⟩
    rw [parseElements_step before (els.flatMap Element.encode) el (by omega) fuel g
      (by rw [h, List.flatMap_cons, List.append_assoc]),
      ih (before ++ el.encode) (by omega) (by omega) _
        (by rw [h, List.flatMap_cons, List.append_assoc])]
    simp only [List.map_cons, List.length_cons, writeTable, Option.some.injEq]
    congr 2
    omega

/-- The composition data of a composition that fits is read without a fault. -/
theorem parse_encode (comp : Composition) (g : NodeInfor) :
    bleMeshParseNodeCompData comp.encode g = some (g.load comp) := by
  have hlength : comp.header.toList.length = 10 := by simp
  have hheader (n : Nat) (hn : n + 1 < 10) :
      ∃ w, compData2Octet comp.encode n = some w := by
    have h0 : n < comp.encode.length := by simp [Composition.encode]; omega
    have h1 : n + 1 < comp.encode.length := by simp [Composition.encode]; omega
    exact ⟨comp.encode[n + 1] ++ comp.encode[n], by
      simp [compData2Octet, List.getElem?_eq_getElem h0, List.getElem?_eq_getElem h1]⟩
  obtain ⟨_, hcid⟩ := hheader 0 (by decide)
  obtain ⟨_, hpid⟩ := hheader 2 (by decide)
  obtain ⟨_, hvid⟩ := hheader 4 (by decide)
  obtain ⟨_, hcrpl⟩ := hheader 6 (by decide)
  obtain ⟨_, hfeat⟩ := hheader 8 (by decide)
  have hfuel : comp.elements.length ≤ comp.encode.length := by
    have (els : List Element) : els.length ≤ (els.flatMap Element.encode).length := by
      induction els with
      | nil => simp
      | cons el els ih =>
        simp only [List.flatMap_cons, List.length_append, Element.encode_length, List.length_cons]
        omega
    have := this comp.elements
    rw [Composition.encode, List.length_append]
    omega
  have hparse := parseElements_eq comp.header.toList comp.elements
    (show 0 + _ ≤ _ by have := comp.fits; omega) hfuel g
    (show comp.encode = _ from rfl)
  rw [hlength, Nat.zero_add] at hparse
  simp only [bleMeshParseNodeCompData, hcid, hpid, hvid, hcrpl, hfeat, Option.bind_eq_bind,
    Option.bind_some, hparse, load, Composition.rows, List.length_map]

/-! ### The table that the record holds -/

theorem writeRow_frame (g : NodeInfor) (e j : Nat) (entries : List (Word × Word)) (e' j' : Nat)
    (h : e' ≠ e ∨ j' < j) :
    (g.writeRow e j entries).models e' j' = g.models e' j' ∧
      (g.writeRow e j entries).cid e' j' = g.cid e' j' := by
  induction entries generalizing g j with
  | nil => exact ⟨rfl, rfl⟩
  | cons x entries ih =>
    obtain ⟨m, c⟩ := x
    have hne : ¬ (e' = e ∧ j' = j) := by omega
    have hrest := ih { g with models := put g.models e j m, cid := put g.cid e j c } (j + 1)
      (by omega)
    simpa only [writeRow, put, hne, if_false] using hrest

theorem writeRow_entry (g : NodeInfor) (e j : Nat) (entries : List (Word × Word)) {k : Nat}
    {m c : Word} (h : entries[k]? = some (m, c)) :
    (g.writeRow e j entries).models e (j + k) = m ∧
      (g.writeRow e j entries).cid e (j + k) = c := by
  induction entries generalizing g j k with
  | nil => simp at h
  | cons x entries ih =>
    obtain ⟨m', c'⟩ := x
    cases k with
    | zero =>
      obtain ⟨rfl, rfl⟩ : m' = m ∧ c' = c := by simpa using h
      have hframe := writeRow_frame
        { g with models := put g.models e j m', cid := put g.cid e j c' }
        e (j + 1) entries e j (by omega)
      simpa [writeRow, put] using hframe
    | succ k =>
      have hrest := ih { g with models := put g.models e j m', cid := put g.cid e j c' } (j + 1)
        (by simpa using h)
      rwa [Nat.add_assoc, Nat.add_comm 1 k] at hrest

theorem writeTable_frame (g : NodeInfor) (e : Nat) (table : List (List (Word × Word)))
    (e' j' : Nat) (h : e' < e) :
    (g.writeTable e table).models e' j' = g.models e' j' ∧
      (g.writeTable e table).cid e' j' = g.cid e' j' := by
  induction table generalizing g e with
  | nil => exact ⟨rfl, rfl⟩
  | cons row table ih =>
    have hrow := writeRow_frame g e 0 row e' j' (by omega)
    have hne : ¬ (e' = e ∧ j' = row.length) := by omega
    rw [writeTable, (ih _ (e + 1) (by omega)).1, (ih _ (e + 1) (by omega)).2]
    simpa only [put, hne, if_false] using hrow

theorem writeTable_row (g : NodeInfor) (e : Nat) (table : List (List (Word × Word))) {k : Nat}
    {row : List (Word × Word)} (h : table[k]? = some row) :
    (∀ j m c, row[j]? = some (m, c) → (g.writeTable e table).models (e + k) j = m ∧
      (g.writeTable e table).cid (e + k) j = c) ∧
    (g.writeTable e table).models (e + k) row.length = 0xffff := by
  induction table generalizing g e k with
  | nil => simp at h
  | cons first table ih =>
    cases k with
    | zero =>
      obtain rfl : first = row := by simpa using h
      rw [Nat.add_zero, writeTable]
      constructor
      · intro j m c hj
        have hlt : j < first.length := (List.getElem?_eq_some_iff.mp hj).1
        have hentry := writeRow_entry g e 0 first hj
        rw [(writeTable_frame _ (e + 1) table e j (by omega)).1,
          (writeTable_frame _ (e + 1) table e j (by omega)).2]
        simpa [put, show j ≠ first.length by omega] using hentry
      · rw [(writeTable_frame _ (e + 1) table e _ (by omega)).1]
        simp [put]
    | succ k =>
      have hrest := ih { g.writeRow e 0 first with
        models := put (g.writeRow e 0 first).models e first.length 0xffff } (e + 1) (k := k)
        (by simpa using h)
      rwa [Nat.add_assoc, Nat.add_comm 1 k] at hrest

theorem load_holds (comp : Composition) (g : NodeInfor) : (g.load comp).Holds comp.rows where
  elementNum := by
    have hlength : comp.rows.length ≤ maxElements := by
      simpa [Composition.rows] using comp.fits
    unfold maxElements at hlength
    simp only [load, BitVec.toNat_ofNat]
    omega
  entry := by
    intro e row j m c hrow hj
    have := (writeTable_row g 0 comp.rows hrow).1 j m c hj
    rwa [Nat.zero_add] at this
  terminator := by
    intro e row hrow
    have := (writeTable_row g 0 comp.rows hrow).2
    rwa [Nat.zero_add] at this

theorem writeRow_eq (g : NodeInfor) (e j : Nat) (entries : List (Word × Word)) :
    ∃ models cid, g.writeRow e j entries = { g with models := models, cid := cid } := by
  induction entries generalizing g j with
  | nil => exact ⟨g.models, g.cid, rfl⟩
  | cons x entries ih =>
    obtain ⟨models, cid, h⟩ := ih
      { g with models := put g.models e j x.1, cid := put g.cid e j x.2 }
      (j + 1)
    exact ⟨models, cid, h⟩

theorem load_eq (comp : Composition) (g : NodeInfor) :
    ∃ num models cid,
      g.load comp = { g with elementNum := num, models := models, cid := cid } := by
  have (e : Nat) (table : List (List (Word × Word))) :
      ∃ models cid, g.writeTable e table = { g with models := models, cid := cid } := by
    induction table generalizing g e with
    | nil => exact ⟨g.models, g.cid, rfl⟩
    | cons row table ih =>
      obtain ⟨models, cid, hrow⟩ := writeRow_eq g e 0 row
      obtain ⟨models', cid', hrest⟩ := ih { g.writeRow e 0 row with
        models := put (g.writeRow e 0 row).models e row.length 0xffff } (e + 1)
      refine ⟨models', cid', ?_⟩
      rw [writeTable, hrest, hrow]
  obtain ⟨models, cid, h⟩ := this 0 comp.rows
  exact ⟨_, models, cid, by rw [load, h]⟩

end VhomeBridge.Ble
