import TimeZones.Catalog.Basic
import TimeZones.Proofs.Bytes
import TimeZones.Proofs.Results

/-! The format of containers, byte by byte. Containers that have it are read, and others are not. All
but the length of the zone data is laid down before it. -/
namespace TimeZones.Container

variable {b : Bytes} {i d f n : Nat} {blocks : Blocks}

/-- Where entry `k` of the index stands. The index starts at `i`. -/
def entryAt (i k : Nat) : Nat := i + 52 * k

/-- The name of an entry: what comes before the first zero in 40 bytes, or all of them. -/
def nameAt (b : Bytes) (p : Nat) : Bytes := (b.slice p 40).takeWhile (· ≠ 0)

/-- Where the record of an entry starts, counted from the start of the zone data. -/
def startAt (b : Bytes) (p : Nat) : Int := b.signedAt (p + 40)

/-- How long the record of an entry is. -/
def lenAt (b : Bytes) (p : Nat) : Int := b.signedAt (p + 44)

/-- The letters, the version and the zero that a container starts with. -/
structure VersionHeader (b : Bytes) : Prop where
  length : 12 ≤ b.length
  letters : b.take 6 = magic
  version : ∀ x ∈ b.slice 6 5, Bytes.isGraphic x
  zero : b.byteAt 11 = 0

/-- The index starts at `i`, the zone data at `d` and the text at the end at `f`, in this order and
within the bytes. -/
structure Offsets (b : Bytes) (i d f : Nat) : Prop where
  length : 24 ≤ b.length
  index : b.signedAt 12 = i
  data : b.signedAt 16 = d
  final : b.signedAt 20 = f
  index_ge : 24 ≤ i
  index_le : i ≤ d
  data_le : d ≤ f
  final_le : f ≤ b.length

/-- The entry at `p` has a name, and a record within `size` bytes of zone data. -/
structure EntryAt (b : Bytes) (size : Nat) (p : Nat) : Prop where
  name_ne : nameAt b p ≠ []
  name_graphic : ∀ x ∈ nameAt b p, Bytes.isGraphic x
  start_nonneg : 0 ≤ startAt b p
  len_nonneg : 0 ≤ lenAt b p
  stop_le : startAt b p + lenAt b p ≤ size

/-- The block from `i` to `d` holds `n` entries with increasing names. -/
structure Index (b : Bytes) (i d f n : Nat) : Prop where
  count : d - i = 52 * n
  count_pos : 1 ≤ n
  entry : ∀ k < n, EntryAt b (f - d) (entryAt i k)
  increasing : ∀ k l, k < l → l < n → nameAt b (entryAt i k) < nameAt b (entryAt i l)

/-- A container of `n` entries with its blocks at `i`, `d` and `f`. -/
structure Format (b : Bytes) (i d f n : Nat) : Prop where
  header : VersionHeader b
  offsets : Offsets b i d f
  index : Index b i d f n

/-- A catalog holds what such a container says: under each name, in the same order, the record in
its full length. -/
structure Describes (b : Bytes) (i d f n : Nat) (c : Catalog) : Prop where
  version : c.version = Bytes.text (b.slice 6 5)
  availableIds : c.availableIds = (List.range n).map fun k => Bytes.text (nameAt b (entryAt i k))
  size_entries : c.entries.size = n
  record : ∀ k < n, ∃ start len : Nat,
    startAt b (entryAt i k) = start ∧ lenAt b (entryAt i k) = len ∧
    (b.slice (d + start) len).length = len ∧
    c.entries[k]? =
      some ⟨Bytes.text (nameAt b (entryAt i k)), .record (b.slice (d + start) len)⟩
  zoneTab : c.zoneTab = b.drop f
  isBuiltin : c.isBuiltin = false

theorem byteAt_eq_zero_iff (h : i < b.length) : b.byteAt i = 0 ↔ b[i]? = some 0 := by
  rw [List.getElem?_eq_getElem h, Option.some.injEq, ← UInt8.toNat_inj, Bytes.byteAt,
    List.getD_eq_getElem?_getD, List.getElem?_eq_getElem h]
  rfl

theorem readVersion_eq_ok {v : String} :
    readVersion b = .ok v ↔ VersionHeader b ∧ v = Bytes.text (b.slice 6 5) := by
  simp only [readVersion, versionHeaderLength, ne_eq, ite_not]
  constructor
  · intro h
    split at h
    · simp at h
    split at h
    · split at h
      · simp at h
      split at h
      · rename_i hl hm hv h0
        refine ⟨⟨by omega, hm, ?_, (byteAt_eq_zero_iff (by omega)).mpr h0⟩, ?_⟩
        · simpa using hv
        · simpa using h.symm
      · simp at h
    · simp at h
  · rintro ⟨⟨hl, hm, hv, h0⟩, rfl⟩
    have hv : (b.slice 6 5).all Bytes.isGraphic = true := List.all_eq_true.mpr hv
    rw [if_neg (by omega), if_pos hm, if_neg (by simp [hv]),
      if_pos ((byteAt_eq_zero_iff (by omega)).mp h0)]

theorem readBlocks_eq_ok :
    readBlocks b = .ok blocks ↔ Offsets b blocks.index blocks.data blocks.final := by
  obtain ⟨i, d, f⟩ := blocks
  by_cases hl : b.length < 24
  · simp only [readBlocks, headerLength, hl, if_true, reduceCtorEq, false_iff]
    intro h
    have := h.length
    omega
  · have hi : (b.int32At 12).toInt = b.signedAt 12 := Bytes.toInt_int32At (by omega)
    have hd : (b.int32At 16).toInt = b.signedAt 16 := Bytes.toInt_int32At (by omega)
    have hf : (b.int32At 20).toInt = b.signedAt 20 := Bytes.toInt_int32At (by omega)
    simp only [readBlocks, headerLength, hl, hi, hd, hf, if_false]
    constructor
    · intro h
      split at h
      · simp at h
      split at h
      · simp at h
      split at h
      · simp at h
      split at h
      · simp at h
      split at h
      · simp at h
      split at h
      · simp at h
      simp only [Except.ok.injEq, Blocks.mk.injEq] at h
      obtain ⟨rfl, rfl, rfl⟩ := h
      exact ⟨by omega, by omega, by omega, by omega, by omega, by omega, by omega, by omega⟩
    · rintro ⟨-, hi, hd, hf, _, _, _, _⟩
      rw [if_neg (by omega), if_neg (by omega), if_neg (by omega), if_neg (by omega),
        if_neg (by omega), if_neg (by omega), hi, hd, hf]
      rfl

/-- The entry that stands at `p`, with its record counted from the start of the file. -/
def entryOf (b : Bytes) (d p : Nat) : Entry where
  name := Bytes.text (nameAt b p)
  start := d + (startAt b p).toNat
  stop := d + (startAt b p).toNat + (lenAt b p).toNat

theorem readEntry_slice_eq_ok {p : Nat} (h : p + 52 ≤ b.length) {e : Entry} :
    readEntry blocks (b.slice p 52) = .ok e ↔
      EntryAt b (blocks.final - blocks.data) p ∧ e = entryOf b blocks.data p := by
  have hn : (b.slice p 52).take nameLength = b.slice p 40 := Bytes.take_slice (by decide)
  have hs : ((b.slice p 52).int32At 40).toInt = startAt b p := by
    rw [Bytes.int32At_slice _ _ (by omega), Bytes.toInt_int32At (by omega)]
    rfl
  have hl : ((b.slice p 52).int32At 44).toInt = lenAt b p := by
    rw [Bytes.int32At_slice _ _ (by omega), Bytes.toInt_int32At (by omega)]
    rfl
  simp only [readEntry, hn, hs, hl]
  change (if nameAt b p = [] ∨ (!(nameAt b p).all Bytes.isGraphic) = true then _ else _) = _ ↔ _
  constructor
  · intro h
    split at h
    · simp at h
    split at h
    · simp at h
    rename_i hname hrange
    rw [not_or] at hname
    have hg : ∀ x ∈ nameAt b p, Bytes.isGraphic x := by simpa using hname.2
    refine ⟨⟨hname.1, hg, by omega, by omega, by omega⟩, ?_⟩
    exact (Except.ok.inj h).symm
  · rintro ⟨⟨hne, hg, _, _, _⟩, rfl⟩
    have hg : (nameAt b p).all Bytes.isGraphic = true := List.all_eq_true.mpr hg
    rw [if_neg (by simp [hne, hg]), if_neg (by omega)]
    rfl

theorem orderFault?_eq_none {previous : Option String} {name : String} :
    orderFault? previous name = none ↔ ∀ p ∈ previous, p < name := by
  cases previous with
  | none => simp [orderFault?]
  | some p =>
    simp only [orderFault?, Option.mem_some_iff, forall_eq']
    by_cases he : p = name
    · simp [he]
    · by_cases hlt : name < p
      · simp [he, hlt, String.lt_asymm hlt]
      · have hle : p ≤ name := String.not_lt.mp hlt
        have hpn : p < name := by
          apply String.not_le.mp
          intro hge
          exact he (String.le_antisymm hle hge)
        simp [he, hlt, hpn]

theorem increasing_previous_cons {previous : Option String} {name : String} {names : List String} :
    (previous.toList ++ name :: names).Pairwise (· < ·) ↔
      (∀ p ∈ previous, p < name) ∧ (name :: names).Pairwise (· < ·) :=
  pairwise_previous_cons (r := (· < ·)) String.lt_trans

/-- Entries are read if each of them is in order on its own and their names increase. -/
theorem readEntries_eq_ok {previous : Option String} {ps : List Nat} {es : List Entry}
    (h : ∀ p ∈ ps, p + 52 ≤ b.length) :
    readEntries blocks previous (ps.map fun p => b.slice p 52) = .ok es ↔
      (∀ p ∈ ps, EntryAt b (blocks.final - blocks.data) p) ∧
        es = ps.map (entryOf b blocks.data) ∧
        (previous.toList ++ es.map (·.name)).Pairwise (· < ·) := by
  induction ps generalizing previous es with
  | nil =>
    simp only [List.map_nil, readEntries, Except.ok.injEq]
    constructor
    · rintro rfl
      cases previous <;> simp
    · rintro ⟨-, rfl, -⟩
      rfl
  | cons p ps ih =>
    obtain ⟨hp, hps⟩ := List.forall_mem_cons.mp h
    rw [List.map_cons, readEntries, List.forall_mem_cons]
    cases he : readEntry blocks (b.slice p 52) with
    | error f =>
      simp only [reduceCtorEq, false_iff]
      rintro ⟨⟨hat, -⟩, -⟩
      rw [(readEntry_slice_eq_ok hp).mpr ⟨hat, rfl⟩] at he
      simp at he
    | ok e =>
      obtain ⟨hat, rfl⟩ := (readEntry_slice_eq_ok hp).mp he
      simp only [hat, true_and]
      cases ho : orderFault? previous (entryOf b blocks.data p).name with
      | some f =>
        simp only [reduceCtorEq, false_iff]
        rintro ⟨-, rfl, hlt⟩
        rw [List.map_cons, List.map_cons, increasing_previous_cons] at hlt
        rw [orderFault?_eq_none.mpr hlt.1] at ho
        simp at ho
      | none =>
        have hprev := orderFault?_eq_none.mp ho
        simp only [map_eq_ok, ih hps]
        constructor
        · rintro ⟨es, ⟨hall, rfl, hlt⟩, rfl⟩
          refine ⟨hall, rfl, ?_⟩
          rw [List.map_cons, increasing_previous_cons]
          exact ⟨hprev, hlt⟩
        · rintro ⟨hall, rfl, hlt⟩
          rw [List.map_cons, List.map_cons, increasing_previous_cons] at hlt
          exact ⟨_, ⟨hall, rfl, hlt.2⟩, rfl⟩

theorem pieces_index (b : Bytes) (i n : Nat) :
    Bytes.pieces 52 n (b.drop i) = ((List.range n).map (entryAt i)).map fun p => b.slice p 52 := by
  rw [Bytes.pieces_eq, List.map_map]
  apply List.map_congr_left
  intro k _
  exact Bytes.slice_drop b _ _ _

/-- The entries of an index, as they are read. -/
def entriesOf (b : Bytes) (i d n : Nat) : List Entry :=
  ((List.range n).map (entryAt i)).map (entryOf b d)

theorem names_entriesOf : ((entriesOf b i d n).map (·.name)).Pairwise (· < ·) ↔
    ∀ k l, k < l → l < n → nameAt b (entryAt i k) < nameAt b (entryAt i l) := by
  rw [entriesOf, List.map_map, List.map_map, pairwise_map_range]
  simp only [Function.comp_apply, entryOf, Bytes.text_lt_text_iff]

theorem readIndex_eq_ok {es : List Entry} (h : blocks.data ≤ b.length) :
    readIndex b blocks = .ok es ↔
      ∃ n, Index b blocks.index blocks.data blocks.final n ∧
        es = entriesOf b blocks.index blocks.data n := by
  have hread : ∀ n, blocks.data - blocks.index = 52 * n →
      (readEntries blocks none (Bytes.pieces 52 n (b.drop blocks.index)) = .ok es ↔
        (∀ k < n, EntryAt b (blocks.final - blocks.data) (entryAt blocks.index k)) ∧
          es = entriesOf b blocks.index blocks.data n ∧ (es.map (·.name)).Pairwise (· < ·)) := by
    intro n hn
    rw [pieces_index, readEntries_eq_ok]
    · simp only [List.forall_mem_map, List.mem_range, Option.toList_none, List.nil_append]
      rfl
    · simp only [List.forall_mem_map, List.mem_range, entryAt]
      intro k hk
      omega
  simp only [readIndex, ne_eq, ite_not]
  rw [show entryLength = 52 from rfl]
  constructor
  · intro hes
    split at hes
    · split at hes
      · simp at hes
      have hn : blocks.data - blocks.index = 52 * ((blocks.data - blocks.index) / 52) := by omega
      obtain ⟨hat, rfl, hlt⟩ := (hread _ hn).mp hes
      exact ⟨_, ⟨hn, by omega, hat, names_entriesOf.mp hlt⟩, rfl⟩
    · simp at hes
  · rintro ⟨n, ⟨hn, hpos, hat, hlt⟩, rfl⟩
    rw [if_pos (by omega), if_neg (by omega), hn, Nat.mul_div_cancel_left n (by decide)]
    exact (hread n hn).mpr ⟨hat, rfl, names_entriesOf.mpr hlt⟩

/-- What is read of a container that has the format. -/
def containerOf (b : Bytes) (i d f n : Nat) : Container where
  version := Bytes.text (b.slice 6 5)
  entries := entriesOf b i d n
  zoneTab := f

theorem ofBytes_eq_ok {c : Container} :
    Container.ofBytes b = .ok c ↔ ∃ i d f n, Format b i d f n ∧ c = containerOf b i d f n := by
  simp only [Container.ofBytes, bind_eq_ok, readVersion_eq_ok, readBlocks_eq_ok]
  constructor
  · rintro ⟨v, ⟨hv, rfl⟩, ⟨i, d, f⟩, ho, es, hes, hc⟩
    obtain ⟨n, hn, rfl⟩ := (readIndex_eq_ok (Nat.le_trans ho.data_le ho.final_le)).mp hes
    exact ⟨i, d, f, n, ⟨hv, ho, hn⟩, (Except.ok.inj hc).symm⟩
  · rintro ⟨i, d, f, n, ⟨hv, ho, hn⟩, rfl⟩
    refine ⟨_, ⟨hv, rfl⟩, ⟨i, d, f⟩, ho, entriesOf b i d n, ?_, rfl⟩
    exact (readIndex_eq_ok (Nat.le_trans ho.data_le ho.final_le)).mpr ⟨n, hn, rfl⟩

/-- The catalog of a container that has the format. -/
def catalogOf (b : Bytes) (i d f n : Nat) : Catalog where
  version := Bytes.text (b.slice 6 5)
  entries := ((entriesOf b i d n).map fun e =>
    (⟨e.name, .record (b.slice e.start (e.stop - e.start))⟩ : Catalog.Entry)).toArray
  zoneTab := b.drop f
  isBuiltin := false

theorem describes_catalogOf (h : Format b i d f n) : Describes b i d f n (catalogOf b i d f n) := by
  refine ⟨rfl, ?_, by simp [catalogOf, entriesOf], ?_, rfl, rfl⟩
  · simp only [Catalog.availableIds, catalogOf, entriesOf, List.map_map]
    rfl
  · intro k hk
    have hat := h.index.entry k hk
    obtain ⟨start, hs⟩ := Int.eq_ofNat_of_zero_le hat.start_nonneg
    obtain ⟨len, hl⟩ := Int.eq_ofNat_of_zero_le hat.len_nonneg
    have hstop := hat.stop_le
    have hdata := h.offsets.data_le
    have hfinal := h.offsets.final_le
    refine ⟨start, len, hs, hl, Bytes.length_slice (by omega), ?_⟩
    have he : (entriesOf b i d n)[k]? = some (entryOf b d (entryAt i k)) := by
      rw [entriesOf, List.getElem?_map, List.getElem?_map, List.getElem?_range hk]
      rfl
    rw [catalogOf, List.getElem?_toArray, List.getElem?_map, he, Option.map_some]
    simp only [entryOf, hs, hl, Int.toNat_natCast, Nat.add_sub_cancel_left]

/-- Two catalogs that a container describes are the same. -/
theorem Describes.unique {c e : Catalog} (hc : Describes b i d f n c) (he : Describes b i d f n e) :
    c = e := by
  have hentries : c.entries = e.entries := by
    apply Array.ext_getElem?
    intro k
    by_cases hk : k < n
    · obtain ⟨start, len, hs, hl, -, hr⟩ := hc.record k hk
      obtain ⟨start', len', hs', hl', -, hr'⟩ := he.record k hk
      obtain rfl : start = start' := Int.ofNat_inj.mp (hs.symm.trans hs')
      obtain rfl : len = len' := Int.ofNat_inj.mp (hl.symm.trans hl')
      rw [hr, hr']
    · rw [Array.getElem?_eq_none (by rw [hc.size_entries]; omega),
        Array.getElem?_eq_none (by rw [he.size_entries]; omega)]
  have hversion := hc.version.trans he.version.symm
  have htab := hc.zoneTab.trans he.zoneTab.symm
  have hbuiltin := hc.isBuiltin.trans he.isBuiltin.symm
  cases c
  cases e
  simp_all

theorem ofBytes_eq_ok_iff {c : Catalog} :
    Catalog.ofBytes b = .ok c ↔ ∃ i d f n, Format b i d f n ∧ Describes b i d f n c := by
  simp only [Catalog.ofBytes, map_eq_ok, ofBytes_eq_ok]
  constructor
  · rintro ⟨_, ⟨i, d, f, n, h, rfl⟩, rfl⟩
    exact ⟨i, d, f, n, h, describes_catalogOf h⟩
  · rintro ⟨i, d, f, n, h, hc⟩
    exact ⟨_, ⟨i, d, f, n, h, rfl⟩, (describes_catalogOf h).unique hc⟩

theorem catalog_ofBytes_eq_ok {c : Catalog} :
    Catalog.ofBytes b = .ok c ↔ ∃ i d f n, Format b i d f n ∧ c = catalogOf b i d f n := by
  rw [ofBytes_eq_ok_iff]
  constructor
  · rintro ⟨i, d, f, n, h, hc⟩
    exact ⟨i, d, f, n, h, hc.unique (describes_catalogOf h)⟩
  · rintro ⟨i, d, f, n, h, rfl⟩
    exact ⟨i, d, f, n, h, describes_catalogOf h⟩

/-- Exactly the byte strings that have the format of a container are read as a catalog, and the
catalog holds exactly what is written. -/
theorem ofBytes_exact (b : Bytes) :
    ((∃ c, Catalog.ofBytes b = .ok c) ↔ ∃ i d f n, Format b i d f n) ∧
      ∀ c, Catalog.ofBytes b = .ok c ↔ ∃ i d f n, Format b i d f n ∧ Describes b i d f n c := by
  refine ⟨⟨?_, ?_⟩, fun c => ofBytes_eq_ok_iff⟩
  · rintro ⟨c, hc⟩
    obtain ⟨i, d, f, n, h, -⟩ := ofBytes_eq_ok_iff.mp hc
    exact ⟨i, d, f, n, h⟩
  · rintro ⟨i, d, f, n, h⟩
    exact ⟨_, ofBytes_eq_ok_iff.mpr ⟨i, d, f, n, h, describes_catalogOf h⟩⟩

section SameBytes
open Bytes

variable {a : Bytes} {p size : Nat}

theorem VersionHeader.congr (h : VersionHeader b) (hab : AgreeOn a b 0 12) : VersionHeader a where
  length := hab.lt_length (i := 11) (by decide) (by decide) h.length
  letters := (hab.take (by decide)).trans h.letters
  version := by
    rw [hab.slice (by decide) (by decide)]
    exact h.version
  zero := (hab.byteAt (by decide) (by decide)).trans h.zero

theorem Offsets.congr (h : Offsets b i d f) (hab : AgreeOn a b 0 24) (hf : f ≤ a.length) :
    Offsets a i d f where
  length := Nat.le_trans h.index_ge (Nat.le_trans h.index_le (Nat.le_trans h.data_le hf))
  index := (hab.signedAt (by decide) (by decide)).trans h.index
  data := (hab.signedAt (by decide) (by decide)).trans h.data
  final := (hab.signedAt (by decide) (by decide)).trans h.final
  index_ge := h.index_ge
  index_le := h.index_le
  data_le := h.data_le
  final_le := hf

theorem nameAt_congr (hab : AgreeOn a b p (p + 52)) : nameAt a p = nameAt b p := by
  rw [nameAt, nameAt, hab.slice (Nat.le_refl p) (by omega)]

theorem startAt_congr (hab : AgreeOn a b p (p + 52)) : startAt a p = startAt b p :=
  hab.signedAt (by omega) (by omega)

theorem lenAt_congr (hab : AgreeOn a b p (p + 52)) : lenAt a p = lenAt b p :=
  hab.signedAt (by omega) (by omega)

theorem EntryAt.congr (h : EntryAt b size p) (hab : AgreeOn a b p (p + 52)) : EntryAt a size p := by
  obtain ⟨hne, hgraphic, hstart, hlen, hstop⟩ := h
  rw [← nameAt_congr hab] at hne hgraphic
  rw [← startAt_congr hab] at hstart hstop
  rw [← lenAt_congr hab] at hlen hstop
  exact ⟨hne, hgraphic, hstart, hlen, hstop⟩

/-- The entries lie before the zone data. -/
theorem Index.agreeOn_entry (h : Index b i d f n) (hab : AgreeOn a b 0 d) {k : Nat} (hk : k < n) :
    AgreeOn a b (entryAt i k) (entryAt i k + 52) := by
  have hcount := h.count
  refine hab.mono (Nat.zero_le _) ?_
  simp only [entryAt]
  omega

theorem Index.congr (h : Index b i d f n) (hab : AgreeOn a b 0 d) : Index a i d f n where
  count := h.count
  count_pos := h.count_pos
  entry k hk := (h.entry k hk).congr (h.agreeOn_entry hab hk)
  increasing k l hkl hl := by
    rw [nameAt_congr (h.agreeOn_entry hab (Nat.lt_trans hkl hl)),
      nameAt_congr (h.agreeOn_entry hab hl)]
    exact h.increasing k l hkl hl

theorem Format.data_ge (h : Format b i d f n) : 24 ≤ d :=
  Nat.le_trans h.offsets.index_ge h.offsets.index_le

/-- What comes before the zone data makes a container, if all of the zone data is there. -/
theorem Format.congr (h : Format b i d f n) (hab : AgreeOn a b 0 d) (hf : f ≤ a.length) :
    Format a i d f n where
  header := h.header.congr (hab.mono (Nat.le_refl 0) (Nat.le_trans (by decide) h.data_ge))
  offsets := h.offsets.congr (hab.mono (Nat.le_refl 0) h.data_ge) hf
  index := h.index.congr hab

theorem entriesOf_congr (h : Index b i d f n) (hab : AgreeOn a b 0 d) :
    entriesOf a i d n = entriesOf b i d n := by
  rw [entriesOf, entriesOf, List.map_map, List.map_map]
  apply List.map_congr_left
  intro k hk
  have hentry := h.agreeOn_entry hab (List.mem_range.mp hk)
  rw [Function.comp_apply, Function.comp_apply, entryOf, entryOf, nameAt_congr hentry,
    startAt_congr hentry, lenAt_congr hentry]

/-- The header says where the blocks of a container are. -/
theorem Format.unique (h : Format b i d f n) {i' d' f' n' : Nat} (ha : Format a i' d' f' n')
    (hab : AgreeOn a b 0 24) : i' = i ∧ d' = d ∧ f' = f ∧ n' = n := by
  have hindex := hab.signedAt (i := 12) (by decide) (by decide)
  have hdata := hab.signedAt (i := 16) (by decide) (by decide)
  have hfinal := hab.signedAt (i := 20) (by decide) (by decide)
  rw [ha.offsets.index, h.offsets.index, Int.ofNat_inj] at hindex
  rw [ha.offsets.data, h.offsets.data, Int.ofNat_inj] at hdata
  rw [ha.offsets.final, h.offsets.final, Int.ofNat_inj] at hfinal
  have hcount := ha.index.count
  rw [hindex, hdata, h.index.count] at hcount
  exact ⟨hindex, hdata, hfinal, by omega⟩

/-- Records lie within the zone data. -/
theorem Format.record_le (h : Format b i d f n) {e : Entry} (he : e ∈ entriesOf b i d n) :
    d ≤ e.start ∧ e.start ≤ e.stop ∧ e.stop ≤ f := by
  rw [entriesOf, List.map_map, List.mem_map] at he
  obtain ⟨k, hk, rfl⟩ := he
  obtain ⟨-, -, hstart, hlen, hstop⟩ := h.index.entry k (List.mem_range.mp hk)
  have hdata := h.offsets.data_le
  simp only [Function.comp_apply, entryOf]
  omega

end SameBytes

end TimeZones.Container
