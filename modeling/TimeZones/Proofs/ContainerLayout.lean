import TimeZones.Proofs.ContainerFormat
import TimeZones.Proofs.Reachable

/-! Writing containers. What is written of names in increasing order is read back, and the first
name that is out of order is reported. -/
namespace TimeZones

namespace Bytes

/-- A number below 2 ^ 32 as four bytes, the highest first. -/
def ofNat32 (n : Nat) : Bytes :=
  [.ofNat (n / 16777216), .ofNat (n / 65536), .ofNat (n / 256), .ofNat n]

variable {a b c : Bytes} {i len n : Nat}

theorem slice_of_append (c : Bytes) (hi : i = a.length) (hl : len = b.length) :
    (a ++ (b ++ c)).slice i len = b := by
  rw [slice, hi, hl, List.drop_left, List.take_left]

theorem bigEndian_ofNat32 (h : n < 2147483648) : bigEndian (ofNat32 n) = n := by
  simp only [bigEndian, ofNat32, List.foldl_cons, List.foldl_nil, UInt8.toNat_ofNat']
  omega

theorem toInt_int32At_append (c : Bytes) (hi : i = a.length) (h : n < 2147483648) :
    ((a ++ (ofNat32 n ++ c)).int32At i).toInt = n := by
  have hs : (Int32.size : Int) = 4294967296 := rfl
  have hslice : (a ++ (ofNat32 n ++ c)).slice i 4 = ofNat32 n := slice_of_append c hi rfl
  rw [int32At, hslice, bigEndian_ofNat32 h, Int32.toInt_ofInt, Int.bmod_def, hs]
  split <;> omega

theorem pieces_flatten {ps : List Bytes} (h : ∀ p ∈ ps, p.length = len) (rest : Bytes) :
    pieces len ps.length (ps.flatten ++ rest) = ps := by
  induction ps with
  | nil => rfl
  | cons p ps ih =>
    obtain ⟨hp, hps⟩ := List.forall_mem_cons.mp h
    rw [List.flatten_cons, List.append_assoc, List.length_cons, pieces, ← hp, List.take_left,
      List.drop_left, hp, ih hps]

theorem text_injective (h : text a = text b) : a = b :=
  (List.map_inj_right fun _ _ => charOfNat_inj.mp).mp (String.ofList_injective h)

end Bytes

namespace Container

/-- A name with zeros up to its full length. -/
def padded (name : Bytes) : Bytes := name ++ List.replicate (40 - name.length) 0

/-- An entry of the index. The last field is not used. -/
def writeEntry (name : Bytes) (start len : Nat) : Bytes :=
  padded name ++ (Bytes.ofNat32 start ++ (Bytes.ofNat32 len ++ Bytes.ofNat32 0))

/-- The entries for names with their records, of which the first starts at `start`. -/
def writeEntries : Nat → List (Bytes × Bytes) → List Bytes
  | _, [] => []
  | start, (name, record) :: zones =>
    writeEntry name start record.length :: writeEntries (start + record.length) zones

/-- All records, back to back. -/
def records (zones : List (Bytes × Bytes)) : Bytes := zones.flatMap (·.2)

/-- The header, the index, the records of names in the order given, and a text. -/
def write (version : Bytes) (zones : List (Bytes × Bytes)) (tab : String) : Bytes :=
  let data := 24 + 52 * zones.length
  (magic ++ (version ++ [0])) ++ (Bytes.ofNat32 24 ++ (Bytes.ofNat32 data ++
    (Bytes.ofNat32 (data + (records zones).length) ++ ((writeEntries 0 zones).flatten ++
    (records zones ++ tab.toUTF8.data.toList)))))

/-- What a container can be written of: each part fits in its place, and the whole is not too
long. -/
structure Writable (version : Bytes) (zones : List (Bytes × Bytes)) (tab : String) : Prop where
  length_version : version.length = 5
  version_graphic : ∀ x ∈ version, Bytes.isGraphic x
  zones_ne : zones ≠ []
  length_name : ∀ z ∈ zones, 1 ≤ z.1.length ∧ z.1.length ≤ 40
  name_graphic : ∀ z ∈ zones, ∀ x ∈ z.1, Bytes.isGraphic x
  length_lt : (write version zones tab).length < 2147483648

/-- The entries as they are read, with records counted from the start of the file. -/
def entriesAt (data : Nat) : Nat → List (Bytes × Bytes) → List Entry
  | _, [] => []
  | start, (name, record) :: zones =>
    ⟨Bytes.text name, data + start, data + start + record.length⟩ ::
      entriesAt data (start + record.length) zones

/-- The first fault in the order of names after `previous`. -/
def disorder? : Option String → List String → Option Fault
  | _, [] => none
  | previous, name :: names => (orderFault? previous name).or (disorder? (some name) names)

variable {version : Bytes} {zones : List (Bytes × Bytes)} {tab : String} {name : Bytes}
  {blocks : Blocks} {start len : Nat}

theorem length_padded (h : name.length ≤ 40) : (padded name).length = 40 := by
  rw [padded, List.length_append, List.length_replicate]
  omega

theorem length_writeEntry (h : name.length ≤ 40) : (writeEntry name start len).length = 52 := by
  rw [writeEntry, List.length_append, length_padded h]
  rfl

theorem length_writeEntries (start : Nat) (zones : List (Bytes × Bytes)) :
    (writeEntries start zones).length = zones.length := by
  induction zones generalizing start with
  | nil => rfl
  | cons z zones ih => rw [writeEntries, List.length_cons, List.length_cons, ih]

theorem length_of_mem_writeEntries (h : ∀ z ∈ zones, z.1.length ≤ 40) :
    ∀ p ∈ writeEntries start zones, p.length = 52 := by
  induction zones generalizing start with
  | nil => simp [writeEntries]
  | cons z zones ih =>
    obtain ⟨hz, hzs⟩ := List.forall_mem_cons.mp h
    rw [writeEntries, List.forall_mem_cons]
    exact ⟨length_writeEntry hz, ih hzs⟩

theorem length_flatten_writeEntries (h : ∀ z ∈ zones, z.1.length ≤ 40) :
    (writeEntries start zones).flatten.length = 52 * zones.length := by
  induction zones generalizing start with
  | nil => rfl
  | cons z zones ih =>
    obtain ⟨hz, hzs⟩ := List.forall_mem_cons.mp h
    rw [writeEntries, List.flatten_cons, List.length_append, length_writeEntry hz, ih hzs,
      List.length_cons]
    omega

/-- A graphic name is found again in front of the zeros. -/
theorem takeWhile_padded (h : ∀ x ∈ name, Bytes.isGraphic x) :
    (padded name).takeWhile (· ≠ 0) = name := by
  have hne : ∀ x ∈ name, decide (x ≠ 0) = true := by
    intro x hx
    rw [decide_eq_true_iff]
    rintro rfl
    exact absurd (h 0 hx) (by decide)
  rw [padded, List.takeWhile_append_of_pos hne, List.takeWhile_replicate]
  simp

theorem readEntry_writeEntry (hl : 1 ≤ name.length ∧ name.length ≤ 40)
    (hg : ∀ x ∈ name, Bytes.isGraphic x) (hfit : start + len ≤ blocks.final - blocks.data)
    (hlt : start + len < 2147483648) :
    readEntry blocks (writeEntry name start len) =
      .ok ⟨Bytes.text name, blocks.data + start, blocks.data + start + len⟩ := by
  have hname : ((writeEntry name start len).take nameLength).takeWhile (· ≠ 0) = name := by
    have htake : (writeEntry name start len).take nameLength = padded name := by
      rw [writeEntry, show nameLength = (padded name).length from (length_padded hl.2).symm,
        List.take_left]
    rw [htake, takeWhile_padded hg]
  have hstart : ((writeEntry name start len).int32At 40).toInt = start :=
    Bytes.toInt_int32At_append _ (length_padded hl.2).symm (by omega)
  have hlen : ((writeEntry name start len).int32At 44).toInt = len := by
    have hsplit : writeEntry name start len =
        (padded name ++ Bytes.ofNat32 start) ++ (Bytes.ofNat32 len ++ Bytes.ofNat32 0) := by
      rw [writeEntry, List.append_assoc]
    rw [hsplit]
    refine Bytes.toInt_int32At_append _ ?_ (by omega)
    rw [List.length_append, length_padded hl.2]
    rfl
  have hne : name ≠ [] := by
    rintro rfl
    simp at hl
  have hall : name.all Bytes.isGraphic = true := List.all_eq_true.mpr hg
  simp only [readEntry, hname, hstart, hlen]
  rw [if_neg (by simp [hne, hall]), if_neg (by omega)]
  simp only [Int.toNat_natCast]

/-- Entries are read one after another, with starts that add up as they were written. -/
theorem readEntries_writeEntries {previous : Option String}
    (hl : ∀ z ∈ zones, 1 ≤ z.1.length ∧ z.1.length ≤ 40)
    (hg : ∀ z ∈ zones, ∀ x ∈ z.1, Bytes.isGraphic x)
    (hfit : start + (records zones).length ≤ blocks.final - blocks.data)
    (hlt : start + (records zones).length < 2147483648) :
    readEntries blocks previous (writeEntries start zones) =
      (disorder? previous (zones.map fun z => Bytes.text z.1)).elim
        (.ok (entriesAt blocks.data start zones)) .error := by
  induction zones generalizing previous start with
  | nil => rfl
  | cons z zones ih =>
    obtain ⟨name, record⟩ := z
    obtain ⟨hl, hls⟩ := List.forall_mem_cons.mp hl
    obtain ⟨hg, hgs⟩ := List.forall_mem_cons.mp hg
    have hsum : (records ((name, record) :: zones)).length =
        record.length + (records zones).length := by
      rw [records, List.flatMap_cons, List.length_append, records]
    rw [hsum] at hfit hlt
    have ih := @ih (start + record.length) (some (Bytes.text name)) hls hgs (by omega) (by omega)
    rw [writeEntries, readEntries, readEntry_writeEntry hl hg (by omega) (by omega)]
    simp only [List.map_cons, disorder?]
    cases orderFault? previous (Bytes.text name) with
    | some f => rfl
    | none =>
      simp only [ih, Option.none_or]
      cases disorder? (some (Bytes.text name)) (zones.map fun z => Bytes.text z.1) with
      | some f => rfl
      | none => rfl

theorem disorder?_eq_none {previous : Option String} {names : List String} :
    disorder? previous names = none ↔ (previous.toList ++ names).Pairwise (· < ·) := by
  induction names generalizing previous with
  | nil => cases previous <;> simp [disorder?]
  | cons name names ih =>
    rw [disorder?, Option.or_eq_none_iff, orderFault?_eq_none, ih, increasing_previous_cons]
    rfl

/-- The fault is about the first name that does not come after the one before it. -/
theorem exists_of_disorder?_eq_some {previous : Option String} {names : List String} {f : Fault}
    (h : disorder? previous names = some f) :
    ∃ before p x after, previous.toList ++ names = before ++ p :: x :: after ∧
      (before ++ [p]).Pairwise (· < ·) ∧ (x = p ∧ f = .duplicate x ∨ x < p ∧ f = .unsorted x) := by
  induction names generalizing previous with
  | nil => simp [disorder?] at h
  | cons name names ih =>
    rw [disorder?] at h
    cases hf : orderFault? previous name with
    | some g =>
      rw [hf, Option.some_or] at h
      obtain rfl := Option.some.inj h
      cases previous with
      | none => simp [orderFault?] at hf
      | some p =>
        refine ⟨[], p, name, names, rfl, List.pairwise_singleton _ _, ?_⟩
        by_cases he : p = name
        · simp only [orderFault?, he, if_true, Option.some.injEq] at hf
          exact Or.inl ⟨he.symm, hf.symm⟩
        · by_cases hlt : name < p
          · simp only [orderFault?, he, hlt, if_true, if_false, Option.some.injEq] at hf
            exact Or.inr ⟨hlt, hf.symm⟩
          · simp [orderFault?, he, hlt] at hf
    | none =>
      rw [hf, Option.none_or] at h
      obtain ⟨before, p, x, after, hnames, hlt, hx⟩ := ih h
      rw [Option.toList_some, List.singleton_append] at hnames
      refine ⟨previous.toList ++ before, p, x, after, ?_, ?_, hx⟩
      · rw [hnames, List.append_assoc]
      · -- `previous` comes before the first name, and the names before `x` increase.
        cases hb : before with
        | nil =>
          rw [hb, List.nil_append] at hnames
          obtain ⟨rfl, -⟩ := List.cons.inj hnames
          rw [List.append_nil]
          exact increasing_previous_cons.mpr ⟨orderFault?_eq_none.mp hf,
            List.pairwise_singleton _ _⟩
        | cons q qs =>
          rw [hb, List.cons_append] at hnames
          obtain ⟨rfl, -⟩ := List.cons.inj hnames
          rw [hb] at hlt
          rw [List.append_assoc]
          exact increasing_previous_cons.mpr ⟨orderFault?_eq_none.mp hf, hlt⟩

/-- Where the zone data starts. -/
def dataStart (zones : List (Bytes × Bytes)) : Nat := 24 + 52 * zones.length

/-- The blocks of a container that is written. -/
def blocksOf (zones : List (Bytes × Bytes)) : Blocks where
  index := 24
  data := dataStart zones
  final := dataStart zones + (records zones).length

/-- What comes before the index. -/
def header (version : Bytes) (zones : List (Bytes × Bytes)) : Bytes :=
  (magic ++ (version ++ [0])) ++ (Bytes.ofNat32 24 ++ (Bytes.ofNat32 (dataStart zones) ++
    Bytes.ofNat32 (dataStart zones + (records zones).length)))

/-- The catalog that is to be read again. -/
def writtenCatalog (version : Bytes) (zones : List (Bytes × Bytes)) (tab : String) : Catalog where
  version := Bytes.text version
  entries := (zones.map fun z => (⟨Bytes.text z.1, .record z.2⟩ : Catalog.Entry)).toArray
  zoneTab := tab.toUTF8.data.toList
  isBuiltin := false

theorem write_eq (version : Bytes) (zones : List (Bytes × Bytes)) (tab : String) :
    write version zones tab = header version zones ++
      ((writeEntries 0 zones).flatten ++ (records zones ++ tab.toUTF8.data.toList)) := by
  simp only [write, header, dataStart, List.append_assoc]

theorem length_header (h : version.length = 5) : (header version zones).length = 24 := by
  simp [header, magic, h, Bytes.ofNat32]

theorem length_write (h : Writable version zones tab) : (write version zones tab).length =
    dataStart zones + (records zones).length + tab.toUTF8.data.toList.length := by
  rw [write_eq, List.length_append, List.length_append, List.length_append,
    length_header h.length_version, dataStart,
    length_flatten_writeEntries fun z hz => (h.length_name z hz).2]
  omega

theorem readVersion_write (h : Writable version zones tab) :
    readVersion (write version zones tab) = .ok (Bytes.text version) := by
  have hlen : 24 ≤ (write version zones tab).length := by
    rw [length_write h, dataStart]
    omega
  have hsplit : write version zones tab = magic ++ (version ++ ([0] ++ (Bytes.ofNat32 24 ++
      (Bytes.ofNat32 (dataStart zones) ++
        (Bytes.ofNat32 (dataStart zones + (records zones).length) ++
      ((writeEntries 0 zones).flatten ++ (records zones ++ tab.toUTF8.data.toList))))))) := by
    simp only [write, dataStart, List.append_assoc]
  have hversion : (write version zones tab).slice 6 5 = version := by
    rw [hsplit]
    exact Bytes.slice_of_append _ rfl h.length_version.symm
  refine readVersion_eq_ok.mpr ⟨⟨by omega, ?_, ?_, ?_⟩, by rw [hversion]⟩
  · rw [hsplit]
    exact List.take_left' rfl
  · rw [hversion]
    exact h.version_graphic
  · refine (byteAt_eq_zero_iff (by omega)).mpr ?_
    rw [hsplit, List.getElem?_append_right (by simp [magic]),
      List.getElem?_append_right (by rw [h.length_version]; decide), h.length_version]
    rfl

theorem readBlocks_write (h : Writable version zones tab) :
    readBlocks (write version zones tab) = .ok (blocksOf zones) := by
  have hlt := h.length_lt
  have hlen := length_write h
  have h12 : (magic ++ (version ++ [0])).length = 12 := by simp [magic, h.length_version]
  have hindex : ((write version zones tab).int32At 12).toInt = 24 :=
    Bytes.toInt_int32At_append _ h12.symm (by omega)
  have hdata : ((write version zones tab).int32At 16).toInt = dataStart zones := by
    rw [write, ← List.append_assoc]
    refine Bytes.toInt_int32At_append _ ?_ (by rw [dataStart] at hlen; omega)
    rw [List.length_append, h12]
    rfl
  have hfinal : ((write version zones tab).int32At 20).toInt =
      (dataStart zones + (records zones).length : Nat) := by
    rw [write, ← List.append_assoc, ← List.append_assoc]
    refine Bytes.toInt_int32At_append _ ?_ (by rw [dataStart] at hlen; omega)
    rw [List.length_append, List.length_append, h12]
    rfl
  have hstart : 24 ≤ dataStart zones := by rw [dataStart]; omega
  refine readBlocks_eq_ok.mpr ?_
  refine ⟨by omega, ?_, ?_, ?_, Nat.le_refl _, hstart, Nat.le_add_right _ _, ?_⟩
  · rw [← Bytes.toInt_int32At (by omega), hindex]
    rfl
  · rw [← Bytes.toInt_int32At (by omega), hdata]
    rfl
  · rw [← Bytes.toInt_int32At (by omega), hfinal]
    rfl
  · simp only [blocksOf]
    omega

theorem readIndex_write (h : Writable version zones tab) :
    readIndex (write version zones tab) (blocksOf zones) =
      (disorder? none (zones.map fun z => Bytes.text z.1)).elim
        (.ok (entriesAt (dataStart zones) 0 zones)) .error := by
  have hlt := h.length_lt
  have hlen := length_write h
  have hpos : 0 < zones.length := List.length_pos_iff.mpr h.zones_ne
  have hcount : (blocksOf zones).data - (blocksOf zones).index = 52 * zones.length := by
    simp only [blocksOf, dataStart]
    omega
  have hdrop : (write version zones tab).drop 24 =
      (writeEntries 0 zones).flatten ++ (records zones ++ tab.toUTF8.data.toList) := by
    rw [write_eq]
    exact List.drop_left' (length_header h.length_version)
  have hentry : ∀ e ∈ writeEntries 0 zones, e.length = 52 :=
    length_of_mem_writeEntries fun z hz => (h.length_name z hz).2
  have hpieces := Bytes.pieces_flatten hentry (records zones ++ tab.toUTF8.data.toList)
  rw [length_writeEntries] at hpieces
  simp only [readIndex, hcount, show entryLength = 52 from rfl]
  rw [if_neg (by omega), if_neg (by omega), Nat.mul_div_cancel_left _ (by decide),
    show (blocksOf zones).index = 24 from rfl, hdrop, hpieces]
  exact readEntries_writeEntries h.length_name h.name_graphic
    (by simp only [blocksOf]; omega) (by omega)

/-- Each record is found where the entries say, behind what comes before the records. -/
theorem map_entriesAt {data : Nat} {a : Bytes} (c : Bytes) (ha : a.length = data + start) :
    (entriesAt data start zones).map (fun e =>
        (⟨e.name, .record ((a ++ (records zones ++ c)).slice e.start (e.stop - e.start))⟩ :
          Catalog.Entry)) =
      zones.map fun z => ⟨Bytes.text z.1, .record z.2⟩ := by
  induction zones generalizing start a with
  | nil => rfl
  | cons z zones ih =>
    obtain ⟨name, record⟩ := z
    have hsplit : a ++ (records ((name, record) :: zones) ++ c) =
        (a ++ record) ++ (records zones ++ c) := by
      rw [records, List.flatMap_cons, records]
      simp only [List.append_assoc]
    have hslice : (a ++ (record ++ (records zones ++ c))).slice (data + start) record.length =
        record := Bytes.slice_of_append _ ha.symm rfl
    have ih := @ih (start + record.length) (a ++ record) (by rw [List.length_append, ha]; omega)
    rw [entriesAt, List.map_cons, List.map_cons, hsplit, ih, Nat.add_sub_cancel_left,
      List.append_assoc, hslice]

theorem ofBytes_write_eq (h : Writable version zones tab) :
    Catalog.ofBytes (write version zones tab) =
      (disorder? none (zones.map fun z => Bytes.text z.1)).elim
        (.ok (writtenCatalog version zones tab)) .error := by
  have hread : Container.ofBytes (write version zones tab) =
      (disorder? none (zones.map fun z => Bytes.text z.1)).elim
        (.ok ⟨Bytes.text version, entriesAt (dataStart zones) 0 zones, (blocksOf zones).final⟩)
        .error := by
    have hmap : Container.ofBytes (write version zones tab) =
        (readIndex (write version zones tab) (blocksOf zones)).map fun es =>
          ⟨Bytes.text version, es, (blocksOf zones).final⟩ := by
      rw [Container.ofBytes, readVersion_write h, readBlocks_write h]
      rfl
    rw [hmap, readIndex_write h]
    cases disorder? none (zones.map fun z => Bytes.text z.1) with
    | some f => rfl
    | none => rfl
  have hindex : (header version zones ++ (writeEntries 0 zones).flatten).length =
      dataStart zones := by
    rw [List.length_append, length_header h.length_version, dataStart,
      length_flatten_writeEntries fun z hz => (h.length_name z hz).2]
  have hwrite : write version zones tab = (header version zones ++
      (writeEntries 0 zones).flatten) ++ (records zones ++ tab.toUTF8.data.toList) := by
    rw [write_eq, List.append_assoc]
  have htab : (write version zones tab).drop (blocksOf zones).final = tab.toUTF8.data.toList := by
    rw [hwrite, ← List.append_assoc]
    refine List.drop_left' ?_
    rw [List.length_append, hindex]
    rfl
  rw [Catalog.ofBytes, hread]
  cases disorder? none (zones.map fun z => Bytes.text z.1) with
  | some f => rfl
  | none =>
    simp only [Option.elim_none, Except.map, htab, writtenCatalog]
    rw [hwrite, map_entriesAt _ (hindex.trans (Nat.add_zero _).symm)]

theorem fromUTF8?_toUTF8 (s : String) : String.fromUTF8? s.toUTF8 = some s :=
  dif_pos s.isValidUTF8

theorem zoneTabText_writtenCatalog :
    (writtenCatalog version zones tab).zoneTabText = if tab = "" then none else some tab := by
  rw [Catalog.zoneTabText, writtenCatalog]
  by_cases h : tab = ""
  · rw [if_pos h, h]
    rfl
  · have hne : ¬ tab.toUTF8.data.toList.isEmpty = true := by
      rw [List.isEmpty_iff]
      intro hnil
      have hsize : tab.utf8ByteSize = 0 := congrArg List.length hnil
      exact h (String.utf8ByteSize_eq_zero_iff.mp hsize)
    rw [if_neg h, if_neg hne, Array.toArray_toList]
    exact fromUTF8?_toUTF8 tab

theorem pairwise_text_iff {names : List Bytes} :
    (names.map Bytes.text).Pairwise (· < ·) ↔ names.Pairwise (· < ·) := by
  rw [List.pairwise_map]
  exact ⟨fun h => h.imp Bytes.text_lt_text_iff.mp, fun h => h.imp Bytes.text_lt_text_iff.mpr⟩

/-- Every name leads to its own record. -/
theorem table?_writtenCatalog (h : (writtenCatalog version zones tab).Obtained)
    {z : Bytes × Bytes} (hz : z ∈ zones) :
    (writtenCatalog version zones tab).table? (Bytes.text z.1) =
      (Table.ofRecord (Bytes.text z.1) z.2).toOption := by
  have hmem : (⟨Bytes.text z.1, .record z.2⟩ : Catalog.Entry) ∈
      (writtenCatalog version zones tab).entries :=
    List.mem_toArray.mpr (List.mem_map.mpr ⟨z, hz, rfl⟩)
  have htable := h.table?_of_mem hmem
  rw [Catalog.Entry.read] at htable
  exact htable

/-- Of names in increasing order, a container is written that is read again as the catalog of these
names, with each name's own record and with the text. Otherwise the first name that does not come
after the one before it is reported: twice the same name, or names out of order. -/
theorem ofBytes_write (h : Writable version zones tab) :
    ((zones.map (·.1)).Pairwise (· < ·) →
      ∃ c, Catalog.ofBytes (write version zones tab) = .ok c ∧
        c.version = Bytes.text version ∧
        c.availableIds = zones.map (fun z => Bytes.text z.1) ∧
        (∀ (w : World) (s : Shared Catalog), w.Reachable → s ∈ w.catalogs → s.value = c →
          ∀ z ∈ zones, (w.value (Catalog.lookup s (Bytes.text z.1))).map (·.value) =
            (Table.ofRecord (Bytes.text z.1) z.2).toOption) ∧
        c.zoneTabText = if tab = "" then none else some tab) ∧
    (¬ (zones.map (·.1)).Pairwise (· < ·) →
      ∃ before p x after, zones.map (·.1) = before ++ p :: x :: after ∧
        (before ++ [p]).Pairwise (· < ·) ∧
        (x = p ∧
            Catalog.ofBytes (write version zones tab) = .error (.duplicate (Bytes.text x)) ∨
          x < p ∧
            Catalog.ofBytes (write version zones tab) = .error (.unsorted (Bytes.text x)))) := by
  have hread := ofBytes_write_eq h
  have hnames : zones.map (fun z => Bytes.text z.1) = (zones.map (·.1)).map Bytes.text := by
    rw [List.map_map]
    rfl
  have horder : disorder? none (zones.map fun z => Bytes.text z.1) = none ↔
      (zones.map (·.1)).Pairwise (· < ·) := by
    rw [disorder?_eq_none, hnames, ← pairwise_text_iff]
    rfl
  constructor
  · intro hsorted
    rw [horder.mpr hsorted] at hread
    refine ⟨_, hread, rfl, ?_, ?_, zoneTabText_writtenCatalog⟩
    · rw [Catalog.availableIds, writtenCatalog, List.map_map]
      rfl
    · intro w s hw hs hvalue z hz
      rw [← table?_writtenCatalog (Or.inl ⟨_, hread⟩) hz, ← hvalue]
      exact (Catalog.lookup_spec hs _ w.registry hw.sound.registry).2
  · intro hunsorted
    cases hd : disorder? none (zones.map fun z => Bytes.text z.1) with
    | none => exact (hunsorted (horder.mp hd)).elim
    | some f =>
      rw [hd] at hread
      obtain ⟨before, p, x, after, heq, hlt, hx⟩ := exists_of_disorder?_eq_some hd
      rw [Option.toList_none, List.nil_append, hnames] at heq
      obtain ⟨before', rest, hzones, rfl, hrest⟩ := List.map_eq_append_iff.mp heq
      obtain ⟨p', rest', rfl, rfl, hrest'⟩ := List.map_eq_cons_iff.mp hrest
      obtain ⟨x', after', rfl, rfl, -⟩ := List.map_eq_cons_iff.mp hrest'
      refine ⟨before', p', x', after', hzones, ?_, ?_⟩
      · apply pairwise_text_iff.mp
        rw [List.map_append]
        exact hlt
      · rcases hx with ⟨he, rfl⟩ | ⟨hlt, rfl⟩
        · exact Or.inl ⟨Bytes.text_injective he, hread⟩
        · exact Or.inr ⟨Bytes.text_lt_text_iff.mp hlt, hread⟩

/-- The name Etc/UTC, with a record that can be read. -/
def utcZone : Bytes × Bytes :=
  ([0x45, 0x74, 0x63, 0x2F, 0x55, 0x54, 0x43],
    Record.magic ++ List.replicate 28 0 ++
      [0, 0, 0, 1, 0, 0, 0, 1, 0, 0, 0, 0, 128, 0, 0, 0, 0, 0, 0, 0, 0, 0, 0])

/-- A second name has its full length, and a record that is empty. -/
def sample : List (Bytes × Bytes) := [utcZone, (List.replicate 40 0x5A, [])]

/-- The letters 2024a. -/
def sampleVersion : Bytes := [0x32, 0x30, 0x32, 0x34, 0x61]

theorem text_utcZone : Bytes.text utcZone.1 = "Etc/UTC" := by decide +kernel

theorem writable_sample : Writable sampleVersion sample "#" ∧
    Writable sampleVersion sample.reverse "" := by
  constructor
  · constructor <;> decide +kernel
  · constructor <;> decide +kernel

theorem ofBytes_write_sample :
    (Writable sampleVersion sample "#" ∧
      ∃ c, Catalog.ofBytes (write sampleVersion sample "#") = .ok c ∧ c.zoneTabText = some "#" ∧
        ∀ (w : World) (s : Shared Catalog), w.Reachable → s ∈ w.catalogs → s.value = c →
          ((w.value (Catalog.lookup s "Etc/UTC")).map (·.value)).isSome = true) ∧
    Writable sampleVersion sample.reverse "" ∧
      Catalog.ofBytes (write sampleVersion sample.reverse "") = .error (.unsorted "Etc/UTC") := by
  have hsorted : (sample.map (·.1)).Pairwise (· < ·) := by decide +kernel
  have hunsorted : ¬ (sample.reverse.map (·.1)).Pairwise (· < ·) := by decide +kernel
  refine ⟨⟨writable_sample.1, ?_⟩, writable_sample.2, ?_⟩
  · obtain ⟨c, hc, -, -, hlookup, htab⟩ := (ofBytes_write writable_sample.1).1 hsorted
    refine ⟨c, hc, htab, fun w s hw hs hvalue => ?_⟩
    have hread : (Table.ofRecord "Etc/UTC" utcZone.2).toOption.isSome = true := by
      decide +kernel
    have hz := hlookup w s hw hs hvalue utcZone List.mem_cons_self
    rw [text_utcZone] at hz
    rw [hz, hread]
  · obtain ⟨before, p, x, after, heq, -, hx⟩ := (ofBytes_write writable_sample.2).2 hunsorted
    have hlen := congrArg List.length heq
    have hbefore : before = [] := by
      apply List.eq_nil_of_length_eq_zero
      simp [sample] at hlen
      omega
    subst hbefore
    obtain ⟨rfl, htail⟩ := List.cons.inj heq
    obtain ⟨rfl, -⟩ := List.cons.inj htail
    rcases hx with ⟨he, -⟩ | ⟨-, herror⟩
    · exact absurd he (by decide +kernel)
    · rw [← text_utcZone]
      exact herror

end Container

end TimeZones
