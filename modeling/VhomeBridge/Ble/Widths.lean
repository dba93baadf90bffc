import VhomeBridge.Ble.CompData

/-! `ble_mesh_parse_node_comp_data` with the widths of its variables: the offset and the length have
16 bits and the number of elements 8.  None of them wraps before an access faults, so it is the
reader over natural numbers; and it reads and writes in bounds exactly on the encoding of a
composition that fits the table. -/

namespace VhomeBridge.Ble

namespace Widths

def parseSigModels (data : List Octet) (e : Nat) :
    Nat → Word → Nat → NodeInfor → Option (Word × Nat × NodeInfor)
  | 0, offset, j, g => some (offset, j, g)
  | nums + 1, offset, j, g => do
    let modelId ← compData2Octet data offset.toNat
    let g ← g.setModel e j modelId
    let g ← g.setCid e j 0xffff
    parseSigModels data e nums (offset + 2) (j + 1) g

def parseVendorModels (data : List Octet) (e : Nat) :
    Nat → Word → Nat → NodeInfor → Option (Word × Nat × NodeInfor)
  | 0, offset, j, g => some (offset, j, g)
  | numv + 1, offset, j, g => do
    let companyId ← compData2Octet data offset.toNat
    let modelId ← compData2Octet data (offset.toNat + 2)
    let g ← g.setModel e j modelId
    let g ← g.setCid e j companyId
    parseVendorModels data e numv (offset + 4) (j + 1) g

/-- The index `num_element - 1`, an `int`. -/
def rowIndex (numElement : Octet) : Option Nat :=
  if numElement = 0 then none else some (numElement.toNat - 1)

/-- The loop over the elements, for at most `fuel` turns. -/
def parseElements (data : List Octet) (length : Word) :
    Nat → Word → Octet → NodeInfor → Option NodeInfor
  | 0, offset, numElement, g =>
    if offset < length then none else some { g with elementNum := numElement.setWidth 16 }
  | fuel + 1, offset, numElement, g =>
    if offset < length then do
      let _loc ← compData2Octet data offset.toNat
      let nums ← compData1Octet data (offset.toNat + 2)
      let numv ← compData1Octet data (offset.toNat + 3)
      let e ← rowIndex (numElement + 1)
      let (offset, j, g) ← parseSigModels data e nums.toNat (offset + 4) 0 g
      let (offset, j, g) ← parseVendorModels data e numv.toNat offset j g
      let g ← g.setModel e j 0xffff
      parseElements data length fuel offset (numElement + 1) g
    else some { g with elementNum := numElement.setWidth 16 }

/-- `ble_mesh_parse_node_comp_data` on `length` bytes, for at most `fuel` elements. -/
def bleMeshParseNodeCompData (fuel : Nat) (data : List Octet) (length : Word) (g : NodeInfor) :
    Option NodeInfor := do
  let _cid ← compData2Octet data 0
  let _pid ← compData2Octet data 2
  let _vid ← compData2Octet data 4
  let _crpl ← compData2Octet data 6
  let _feat ← compData2Octet data 8
  parseElements data length fuel 10 0 g

end Widths

/-! ### No variable wraps -/

theorem compData2Octet_lt {data : List Octet} {offset : Nat} {w : Word}
    (h : compData2Octet data offset = some w) : offset + 1 < data.length := by
  obtain ⟨high, hhigh, -⟩ := Option.bind_eq_some_iff.mp h
  exact (List.getElem?_eq_some_iff.mp hhigh).1

theorem compData1Octet_lt {data : List Octet} {offset : Nat} {b : Octet}
    (h : compData1Octet data offset = some b) : offset < data.length :=
  (List.getElem?_eq_some_iff.mp h).1

/-- The offset after an access at its end. -/
theorem toNat_add_offset {data : List Octet} (hdata : data.length < 65536) {offset : Word}
    {n : Nat} (h : offset.toNat + n ≤ data.length) :
    (offset + BitVec.ofNat 16 n).toNat = offset.toNat + n := by
  rw [BitVec.toNat_add, BitVec.toNat_ofNat]
  omega

section

variable {data : List Octet} (hdata : data.length < 65536) (e : Nat)

/-- The offset of the reader with widths, for an offset of the other one. -/
def narrow (r : Nat × Nat × NodeInfor) : Word × Nat × NodeInfor :=
  (BitVec.ofNat 16 r.1, r.2)

include hdata

theorem narrow_parseSigModels (nums : Nat) (offset : Word) (j : Nat) (g : NodeInfor) :
    Widths.parseSigModels data e nums offset j g =
      (parseSigModels data e nums offset.toNat j g).map narrow := by
  induction nums generalizing offset j g with
  | zero => simp [Widths.parseSigModels, parseSigModels, narrow]
  | succ nums ih =>
    rw [Widths.parseSigModels, parseSigModels]
    cases hread : compData2Octet data offset.toNat with
    | none => rfl
    | some modelId =>
      have hlt := compData2Octet_lt hread
      have hnext : (offset + 2).toNat = offset.toNat + 2 :=
        toNat_add_offset (n := 2) hdata (by omega)
      simp only [ih, hnext]
      simp only [Option.bind_eq_bind, Option.bind_some, Option.map_bind, Function.comp_def]

theorem narrow_parseVendorModels (numv : Nat) (offset : Word) (j : Nat) (g : NodeInfor) :
    Widths.parseVendorModels data e numv offset j g =
      (parseVendorModels data e numv offset.toNat j g).map narrow := by
  induction numv generalizing offset j g with
  | zero => simp [Widths.parseVendorModels, parseVendorModels, narrow]
  | succ numv ih =>
    rw [Widths.parseVendorModels, parseVendorModels]
    cases hread : compData2Octet data offset.toNat with
    | none => rfl
    | some companyId =>
      cases hread' : compData2Octet data (offset.toNat + 2) with
      | none => rfl
      | some modelId =>
        have hlt := compData2Octet_lt hread'
        have hnext : (offset + 4).toNat = offset.toNat + 4 :=
          toNat_add_offset (n := 4) hdata (by omega)
        simp only [ih, hnext]
        simp only [Option.bind_eq_bind, Option.bind_some, Option.map_bind, Function.comp_def]

end

/-! ### What is read -/

theorem drop_octet {data : List Octet} {offset : Nat} {b : Octet}
    (h : compData1Octet data offset = some b) :
    data.drop offset = b :: data.drop (offset + 1) := by
  obtain ⟨hlt, rfl⟩ := List.getElem?_eq_some_iff.mp h
  exact List.drop_eq_getElem_cons hlt

theorem le16_append (high low : Octet) : le16 (high ++ low) = [low, high] := by
  rw [le16, List.cons.injEq, List.cons.injEq]
  refine ⟨?_, ?_, rfl⟩
  · ext i hi
    rw [BitVec.getElem_extractLsb', Nat.zero_add, BitVec.getLsbD_append, if_pos hi,
      BitVec.getLsbD_eq_getElem hi]
  · ext i hi
    rw [BitVec.getElem_extractLsb', BitVec.getLsbD_append, if_neg (by omega),
      Nat.add_sub_cancel_left, BitVec.getLsbD_eq_getElem hi]

theorem drop_word {data : List Octet} {offset : Nat} {w : Word}
    (h : compData2Octet data offset = some w) :
    data.drop offset = le16 w ++ data.drop (offset + 2) := by
  obtain ⟨high, hhigh, h⟩ := Option.bind_eq_some_iff.mp h
  obtain ⟨low, hlow, h⟩ := Option.bind_eq_some_iff.mp h
  obtain rfl := Option.some.inj h
  rw [le16_append, drop_octet hlow, drop_octet hhigh]
  rfl

/-- The loop over the SIG models has read as many model ids, and stays in the data. -/
theorem parseSigModels_some {data : List Octet} {e nums offset j offset' j' : Nat}
    {g g' : NodeInfor} (h : parseSigModels data e nums offset j g = some (offset', j', g')) :
    (offset ≤ data.length → offset' ≤ data.length) ∧
      ∃ sig : List Word, sig.length = nums ∧ j' = j + nums ∧
        data.drop offset = sig.flatMap le16 ++ data.drop offset' := by
  induction nums generalizing offset j g with
  | zero =>
    obtain ⟨rfl, rfl, -⟩ : offset = offset' ∧ j = j' ∧ g = g' := by
      simpa [parseSigModels] using h
    exact ⟨id, [], rfl, rfl, rfl⟩
  | succ nums ih =>
    obtain ⟨w, hw, h⟩ := Option.bind_eq_some_iff.mp h
    obtain ⟨_, -, h⟩ := Option.bind_eq_some_iff.mp h
    obtain ⟨_, -, h⟩ := Option.bind_eq_some_iff.mp h
    obtain ⟨hle, sig, hlen, hj, hdrop⟩ := ih h
    refine ⟨fun _ => hle (compData2Octet_lt hw), w :: sig, by rw [List.length_cons, hlen],
      by omega, ?_⟩
    rw [drop_word hw, hdrop, List.flatMap_cons, List.append_assoc]

theorem parseVendorModels_some {data : List Octet} {e numv offset j offset' j' : Nat}
    {g g' : NodeInfor} (h : parseVendorModels data e numv offset j g = some (offset', j', g')) :
    (offset ≤ data.length → offset' ≤ data.length) ∧
      ∃ vendor : List (Word × Word), vendor.length = numv ∧ j' = j + numv ∧
        data.drop offset =
          (vendor.flatMap fun v => le16 v.1 ++ le16 v.2) ++ data.drop offset' := by
  induction numv generalizing offset j g with
  | zero =>
    obtain ⟨rfl, rfl, -⟩ : offset = offset' ∧ j = j' ∧ g = g' := by
      simpa [parseVendorModels] using h
    exact ⟨id, [], rfl, rfl, rfl⟩
  | succ numv ih =>
    obtain ⟨c, hc, h⟩ := Option.bind_eq_some_iff.mp h
    obtain ⟨m, hm, h⟩ := Option.bind_eq_some_iff.mp h
    obtain ⟨_, -, h⟩ := Option.bind_eq_some_iff.mp h
    obtain ⟨_, -, h⟩ := Option.bind_eq_some_iff.mp h
    obtain ⟨hle, vendor, hlen, hj, hdrop⟩ := ih h
    refine ⟨fun _ => hle (compData2Octet_lt hm), (c, m) :: vendor,
      by rw [List.length_cons, hlen], by omega, ?_⟩
    rw [drop_word hc, drop_word hm, hdrop, List.flatMap_cons]
    simp only [List.append_assoc]

theorem setModel_some {g g' : NodeInfor} {e j : Nat} {m : Word}
    (h : g.setModel e j m = some g') : e < maxElements ∧ j < maxModels := by
  rw [NodeInfor.setModel, Option.ite_none_right_eq_some] at h
  exact h.1

/-- The loop over the elements has read the encodings of elements that fit the rows that were
left. -/
theorem parseElements_some {data : List Octet} {fuel offset numElement : Nat} {g g' : NodeInfor}
    (hn : numElement ≤ maxElements)
    (h : parseElements data fuel offset numElement g = some g') :
    ∃ els : List Element, numElement + els.length ≤ maxElements ∧
      data.drop offset = els.flatMap Element.encode := by
  have hend : ¬offset < data.length → ∃ els : List Element,
      numElement + els.length ≤ maxElements ∧ data.drop offset = els.flatMap Element.encode :=
    fun hge => ⟨[], hn, List.drop_of_length_le (by omega)⟩
  induction fuel generalizing offset numElement g with
  | zero =>
    rw [parseElements, Option.ite_none_left_eq_some] at h
    exact hend h.1
  | succ fuel ih =>
    rw [parseElements] at h
    by_cases hlt : offset < data.length
    · rw [if_pos hlt] at h
      obtain ⟨loc, hloc, h⟩ := Option.bind_eq_some_iff.mp h
      obtain ⟨nums, hnums, h⟩ := Option.bind_eq_some_iff.mp h
      obtain ⟨numv, hnumv, h⟩ := Option.bind_eq_some_iff.mp h
      obtain ⟨⟨offset₁, j₁, g₁⟩, hsigs, h⟩ := Option.bind_eq_some_iff.mp h
      obtain ⟨⟨offset₂, j₂, g₂⟩, hvendors, h⟩ := Option.bind_eq_some_iff.mp h
      obtain ⟨g₃, hset, h⟩ := Option.bind_eq_some_iff.mp h
      obtain ⟨-, sig, hsig, hj₁, hdrop₁⟩ := parseSigModels_some hsigs
      obtain ⟨-, vendor, hvendor, hj₂, hdrop₂⟩ := parseVendorModels_some hvendors
      obtain ⟨hrow, hfits⟩ := setModel_some hset
      obtain ⟨els, hels, hdrop⟩ := ih hrow h fun hge =>
        ⟨[], hrow, List.drop_of_length_le (by omega)⟩
      refine ⟨⟨loc, sig, vendor, by omega⟩ :: els, by rw [List.length_cons]; omega, ?_⟩
      have hcounts : [BitVec.ofNat 8 sig.length, BitVec.ofNat 8 vendor.length] = [nums, numv] := by
        rw [hsig, hvendor, BitVec.ofNat_toNat, BitVec.ofNat_toNat, BitVec.setWidth_eq,
          BitVec.setWidth_eq]
      rw [List.flatMap_cons, ← hdrop, Element.encode]
      dsimp only
      rw [hcounts, drop_word hloc, drop_octet hnums, drop_octet hnumv, hdrop₁, hdrop₂]
      simp only [List.append_assoc, List.cons_append, List.nil_append]
    · exact hend hlt

/-! ### The reader with widths -/

theorem rowIndex_succ {numElement : Octet} (h : numElement.toNat ≤ maxElements) :
    Widths.rowIndex (numElement + 1) = some numElement.toNat ∧
      (numElement + 1).toNat = numElement.toNat + 1 := by
  have hmax : maxElements = 8 := rfl
  have hnext : (numElement + 1).toNat = numElement.toNat + 1 := by
    rw [BitVec.toNat_add]
    exact Nat.mod_eq_of_lt (by have : BitVec.toNat (1 : Octet) = 1 := rfl; omega)
  refine ⟨?_, hnext⟩
  rw [Widths.rowIndex, if_neg fun h0 => ?_, hnext, Nat.add_sub_cancel]
  rw [h0] at hnext
  exact absurd hnext (by simp)

theorem narrow_parseElements {data : List Octet} {length : Word}
    (hlength : length.toNat = data.length) (fuel : Nat) (offset : Word) (numElement : Octet)
    (hn : numElement.toNat ≤ maxElements) (g : NodeInfor) :
    Widths.parseElements data length fuel offset numElement g =
      parseElements data fuel offset.toNat numElement.toNat g := by
  have hdata : data.length < 65536 := hlength ▸ length.isLt
  have htest : ∀ o : Word, o < length ↔ o.toNat < data.length := fun o => by
    rw [BitVec.lt_def, hlength]
  induction fuel generalizing offset numElement g with
  | zero =>
    simp only [Widths.parseElements, parseElements, htest, BitVec.ofNat_toNat]
  | succ fuel ih =>
    rw [Widths.parseElements, parseElements]
    by_cases hlt : offset.toNat < data.length
    · rw [if_pos hlt, if_pos ((htest offset).mpr hlt)]
      refine congrArg (Option.bind (compData2Octet data offset.toNat)) (funext fun _ => ?_)
      refine congrArg (Option.bind (compData1Octet data (offset.toNat + 2))) (funext fun nums => ?_)
      cases hnumv : compData1Octet data (offset.toNat + 3) with
      | none => rfl
      | some numv =>
        have hle := compData1Octet_lt hnumv
        have hoffset : (offset + 4).toNat = offset.toNat + 4 :=
          toNat_add_offset (n := 4) hdata (by omega)
        obtain ⟨hrow, hnext⟩ := rowIndex_succ hn
        simp only [Option.bind_eq_bind, Option.bind_some, hrow, narrow_parseSigModels hdata,
          hoffset]
        cases hsigs : parseSigModels data numElement.toNat nums.toNat (offset.toNat + 4) 0 g with
        | none => rfl
        | some r =>
          obtain ⟨offset₁, j₁, g₁⟩ := r
          have hle₁ := (parseSigModels_some hsigs).1 hle
          have hoffset₁ : (BitVec.ofNat 16 offset₁).toNat = offset₁ :=
            Nat.mod_eq_of_lt (by omega)
          simp only [Option.map_some, narrow, Option.bind_some, narrow_parseVendorModels hdata,
            hoffset₁]
          cases hvendors : parseVendorModels data numElement.toNat numv.toNat offset₁ j₁ g₁ with
          | none => rfl
          | some r =>
            obtain ⟨offset₂, j₂, g₂⟩ := r
            have hle₂ := (parseVendorModels_some hvendors).1 hle₁
            have hoffset₂ : (BitVec.ofNat 16 offset₂).toNat = offset₂ :=
              Nat.mod_eq_of_lt (by omega)
            simp only [Option.map_some, narrow, Option.bind_some]
            cases hset : g₂.setModel numElement.toNat j₂ 0xffff with
            | none => rfl
            | some g₃ =>
              have hmax := (setModel_some hset).1
              rw [Option.bind_some, Option.bind_some, ih _ _ (by omega), hoffset₂, hnext]
    · rw [if_neg hlt, if_neg ((htest offset).not.mpr hlt), BitVec.ofNat_toNat]

theorem narrow_parse {data : List Octet} {length : Word} (hlength : length.toNat = data.length)
    (g : NodeInfor) :
    Widths.bleMeshParseNodeCompData data.length data length g =
      bleMeshParseNodeCompData data g := by
  rw [Widths.bleMeshParseNodeCompData, bleMeshParseNodeCompData,
    narrow_parseElements hlength data.length 10 0 (by decide)]
  rfl

/-! ### Reading back a composition -/

theorem elements_length_le (els : List Element) :
    (els.flatMap Element.encode).length ≤ 96 * els.length := by
  induction els with
  | nil => simp
  | cons el els ih =>
    have hfits := el.fits
    unfold maxModels at hfits
    simp only [List.flatMap_cons, List.length_append, Element.encode_length, List.length_cons]
    omega

theorem Composition.encode_length_lt (comp : Composition) : comp.encode.length < 65536 := by
  have hle := elements_length_le comp.elements
  have hfits := comp.fits
  unfold maxElements at hfits
  rw [Composition.encode, List.length_append, Vector.length_toList]
  omega

/-- The first `n` slots of a row of `models` or `cid`. -/
def slots (table : Nat → Nat → Word) (e n : Nat) : List Word := (List.range n).map (table e)

theorem NodeInfor.Holds.slots_eq {g : NodeInfor} {table : List (List (Word × Word))}
    (h : g.Holds table) {e : Nat} {row : List (Word × Word)} (hrow : table[e]? = some row) :
    slots g.models e (row.length + 1) = row.map Prod.fst ++ [0xffff] ∧
      slots g.cid e row.length = row.map Prod.snd := by
  have hentry : ∀ j (hj : j < row.length), g.models e j = row[j].1 ∧ g.cid e j = row[j].2 :=
    fun j hj => h.entry e row j row[j].1 row[j].2 hrow (List.getElem?_eq_getElem hj)
  constructor
  · rw [slots, List.range_succ, List.map_append, List.map_singleton, h.terminator e row hrow]
    congr 1
    apply List.ext_getElem (by simp)
    intro j hj _
    simpa using (hentry j (by simpa using hj)).1
  · apply List.ext_getElem (by simp [slots])
    intro j hj _
    simpa [slots] using (hentry j (by simpa [slots] using hj)).2

/-- The composition data of a composition that fits the table is read back: the number of elements,
and for each element its models and their companies, then the terminator, whatever the record held
before. -/
theorem parse_encode_rows (comp : Composition) (g : NodeInfor) :
    ∃ g', Widths.bleMeshParseNodeCompData comp.encode.length comp.encode
        (BitVec.ofNat 16 comp.encode.length) g = some g' ∧
      g'.elementNum.toNat = comp.elements.length ∧
      ∀ e el, comp.elements[e]? = some el →
        slots g'.models e (el.sig.length + el.vendor.length + 1) =
          el.sig ++ el.vendor.map Prod.snd ++ [0xffff] ∧
        slots g'.cid e (el.sig.length + el.vendor.length) =
          List.replicate el.sig.length 0xffff ++ el.vendor.map Prod.fst := by
  have hlength : (BitVec.ofNat 16 comp.encode.length).toNat = comp.encode.length :=
    Nat.mod_eq_of_lt comp.encode_length_lt
  have hholds := load_holds comp g
  refine ⟨g.load comp, ?_, ?_, fun e el hel => ?_⟩
  · rw [narrow_parse hlength, parse_encode]
  · rw [hholds.elementNum, Composition.rows, List.length_map]
  · have hrow : comp.rows[e]? = some el.row := by
      rw [Composition.rows, List.getElem?_map, hel, Option.map_some]
    rw [← el.row_length, (hholds.slots_eq hrow).1, (hholds.slots_eq hrow).2]
    simp [Element.row, Function.comp_def, List.map_const']

/-! ### Accesses in bounds -/

theorem compData2Octet_some {data : List Octet} {offset : Nat} (h : offset + 1 < data.length) :
    ∃ w, compData2Octet data offset = some w := by
  have hlow : offset < data.length := by omega
  exact ⟨data[offset + 1] ++ data[offset], by
    simp [compData2Octet, List.getElem?_eq_getElem h, List.getElem?_eq_getElem hlow]⟩

/-- The reader ends, and all that it reads is in the data, and all that it writes in the table. -/
def ReadsInBounds (length : Word) (data : Vector Octet length.toNat) : Prop :=
  ∀ g, ∃ fuel g', Widths.bleMeshParseNodeCompData fuel data.toList length g = some g'

/-- This holds exactly for a header of 10 bytes and at most 8 elements, each of at most 23
models. -/
theorem readsInBounds_iff (length : Word) (data : Vector Octet length.toNat) :
    ReadsInBounds length data ↔ ∃ (header : Vector Octet 10) (els : List Element),
      els.length ≤ maxElements ∧ data.toList = header.toList ++ els.flatMap Element.encode := by
  have hlength : length.toNat = data.toList.length := data.length_toList.symm
  constructor
  · intro h
    obtain ⟨fuel, g', h⟩ := h blankNode
    obtain ⟨_, -, h⟩ := Option.bind_eq_some_iff.mp h
    obtain ⟨_, -, h⟩ := Option.bind_eq_some_iff.mp h
    obtain ⟨_, -, h⟩ := Option.bind_eq_some_iff.mp h
    obtain ⟨_, -, h⟩ := Option.bind_eq_some_iff.mp h
    obtain ⟨_, hfeat, h⟩ := Option.bind_eq_some_iff.mp h
    have hten := compData2Octet_lt hfeat
    rw [narrow_parseElements hlength fuel 10 0 (by decide)] at h
    obtain ⟨els, hels, hdrop⟩ := parseElements_some (Nat.zero_le _) h
    refine ⟨⟨(data.toList.take 10).toArray, by simp; omega⟩, els, by omega, ?_⟩
    rw [← hdrop]
    exact (List.take_append_drop 10 data.toList).symm
  · rintro ⟨header, els, hels, hdata⟩ g
    have hheader : header.toList.length = 10 := header.length_toList
    have hlen : 10 ≤ data.toList.length := by
      rw [hdata, List.length_append]
      omega
    have hread (n : Nat) (hn : n + 1 < 10) : ∃ w, compData2Octet data.toList n = some w :=
      compData2Octet_some (by omega)
    obtain ⟨_, hcid⟩ := hread 0 (by decide)
    obtain ⟨_, hpid⟩ := hread 2 (by decide)
    obtain ⟨_, hvid⟩ := hread 4 (by decide)
    obtain ⟨_, hcrpl⟩ := hread 6 (by decide)
    obtain ⟨_, hfeat⟩ := hread 8 (by decide)
    have helements := parseElements_eq header.toList els
      (show 0 + els.length ≤ maxElements by omega) (Nat.le_refl els.length) g hdata
    rw [hheader] at helements
    refine ⟨els.length, { g.writeTable 0 (els.map Element.row) with
      elementNum := BitVec.ofNat 16 (0 + els.length) }, ?_⟩
    simp only [Widths.bleMeshParseNodeCompData, hcid, hpid, hvid, hcrpl, hfeat,
      Option.bind_eq_bind, Option.bind_some,
      narrow_parseElements hlength els.length 10 0 (by decide)]
    exact helements

/-- An element that announces a SIG model, and the end of the data: the id is read after it. -/
theorem not_readsInBounds : ¬∀ length data, ReadsInBounds length data := by
  intro h
  obtain ⟨fuel, g', h⟩ := h 14 ⟨#[0, 0, 0, 0, 0, 0, 0, 0, 0, 0, 0, 0, 1, 0], rfl⟩ blankNode
  cases fuel with
  | zero => cases h
  | succ fuel => cases h

end VhomeBridge.Ble
