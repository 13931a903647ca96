import TimeZones.Proofs.Transcripts

/-! What is answered for a zone, and what that depends on: the header and the index of the container
and the bytes of its own record. Whatever the records of other zones are, and whether or not they
have been read, makes no difference. -/
namespace TimeZones

namespace Container
open Bytes

variable {a b : Bytes} {i d f n : Nat} {c e : Catalog} {id : String}

/-- Where the zone data starts. -/
def dataOffset (b : Bytes) : Nat := (b.signedAt 16).toNat

/-- The entries of the index, with the places of their records. -/
def indexEntries (b : Bytes) : List Entry :=
  let start := (b.signedAt 12).toNat
  entriesOf b start (dataOffset b) ((dataOffset b - start) / 52)

/-- Both have the same bytes up to the zone data, and where the record of `id` is. The index says
where that is, if it has the zone. -/
structure SameZone (a b : Bytes) (id : String) : Prop where
  index : AgreeOn a b 0 (dataOffset b)
  record : ∀ e ∈ indexEntries b, e.name = id → AgreeOn a b e.start e.stop

theorem Format.dataOffset_eq (h : Format b i d f n) : dataOffset b = d := by
  rw [dataOffset, h.offsets.data, Int.toNat_natCast]

theorem Format.indexEntries_eq (h : Format b i d f n) : indexEntries b = entriesOf b i d n := by
  rw [indexEntries, h.dataOffset_eq, h.offsets.index, Int.toNat_natCast, h.index.count,
    Nat.mul_div_cancel_left n (by decide)]

/-- In the catalog of a container, the zones with an identifier are those of the index, with the
bytes of their records. -/
theorem Format.find?_catalogOf (h : Format b i d f n) {entry : Catalog.Entry} :
    (catalogOf b i d f n).find? id = some entry ↔
      ∃ e ∈ entriesOf b i d n, e.name = id ∧
        entry = ⟨id, .record (b.slice e.start (e.stop - e.start))⟩ := by
  have hobtained : (catalogOf b i d f n).Obtained :=
    Or.inl ⟨b, catalog_ofBytes_eq_ok.mpr ⟨i, d, f, n, h, rfl⟩⟩
  rw [hobtained.find?_eq_some_iff, catalogOf, List.mem_toArray, List.mem_map]
  constructor
  · rintro ⟨⟨e, he, rfl⟩, rfl⟩
    exact ⟨e, he, rfl, rfl⟩
  · rintro ⟨e, he, rfl, rfl⟩
    exact ⟨⟨e, he, rfl⟩, rfl⟩

/-- The same bytes are read of both, if the index has the zone. -/
theorem SameZone.slice_eq (h : SameZone a b id) (hb : Format b i d f n) {x : Entry}
    (hx : x ∈ entriesOf b i d n) (hid : x.name = id) :
    a.slice x.start (x.stop - x.start) = b.slice x.start (x.stop - x.start) := by
  obtain ⟨-, hle, -⟩ := hb.record_le hx
  rw [← hb.indexEntries_eq] at hx
  exact (h.record x hx hid).slice (Nat.le_refl _) (Nat.le_of_eq (Nat.add_sub_of_le hle))

/-- Containers that are the same for a zone have the same entry for it, or both have none. -/
theorem SameZone.find?_eq (h : SameZone a b id) (hc : Catalog.ofBytes a = .ok c)
    (he : Catalog.ofBytes b = .ok e) : c.find? id = e.find? id := by
  obtain ⟨i, d, f, n, hb, rfl⟩ := catalog_ofBytes_eq_ok.mp he
  obtain ⟨i', d', f', n', ha, rfl⟩ := catalog_ofBytes_eq_ok.mp hc
  have hindex := h.index
  rw [hb.dataOffset_eq] at hindex
  obtain ⟨rfl, rfl, rfl, rfl⟩ := hb.unique ha (hindex.mono (Nat.le_refl 0) hb.data_ge)
  apply Option.ext
  intro entry
  rw [ha.find?_catalogOf, hb.find?_catalogOf, entriesOf_congr hb.index hindex]
  constructor
  · rintro ⟨x, hx, hid, rfl⟩
    exact ⟨x, hx, hid, by rw [h.slice_eq hb hx hid]⟩
  · rintro ⟨x, hx, hid, rfl⟩
    exact ⟨x, hx, hid, by rw [h.slice_eq hb hx hid]⟩

theorem SameZone.table?_eq (h : SameZone a b id) (hc : Catalog.ofBytes a = .ok c)
    (he : Catalog.ofBytes b = .ok e) : c.table? id = e.table? id := by
  rw [Catalog.table?, Catalog.table?, h.find?_eq hc he]

end Container

/-- All that a zone holds, without the identity of its table. -/
def Zone.contents (z : Zone) : Table × Snapshot × Int32 := (z.table.value, z.snapshot, z.rawShift)

namespace World
open Catalog

variable {v w : World} {s t : Shared Catalog} {a b : Bytes} {id : String}

theorem contents_makeZone (hw : w.Reachable) (hs : s ∈ w.catalogs) (id : String) (now : Int) :
    (w.value (makeZone s id now)).map Zone.contents =
      (s.value.table? id).map fun t => (t, Snapshot.ofTable t now, 0) := by
  have hzone : w.value (makeZone s id now) = (w.value (lookup s id)).map (Zone.ofTable · now) := rfl
  rw [hzone, ← value_lookup hw hs, Option.map_map, Option.map_map]
  rfl

theorem value_snapshot (hw : w.Reachable) (hs : s ∈ w.catalogs) (id : String) (now : Int) :
    w.value (snapshot s id now) = (s.value.table? id).map (Snapshot.ofTable · now) :=
  value_of_gives hw (snapshot_gives hs id now)

/-- On containers that are the same for a zone, all questions about it have the same answers, at
whatever states they are asked. Neither what the other records are nor what has been asked before
shows in them. -/
theorem zone_undisturbed (hv : v.Reachable) (hw : w.Reachable) (hs : s ∈ v.catalogs)
    (ht : t ∈ w.catalogs) (ha : Catalog.ofBytes a = .ok s.value)
    (hb : Catalog.ofBytes b = .ok t.value) (h : Container.SameZone a b id) :
    (v.value (lookup s id)).map (·.value) = (w.value (lookup t id)).map (·.value) ∧
      ∀ now : Int,
        (v.value (makeZone s id now)).map Zone.contents =
            (w.value (makeZone t id now)).map Zone.contents ∧
          v.value (snapshot s id now) = w.value (snapshot t id now) := by
  have htable := h.table?_eq ha hb
  refine ⟨?_, fun now => ⟨?_, ?_⟩⟩
  · rw [value_lookup hv hs, value_lookup hw ht, htable]
  · rw [contents_makeZone hv hs, contents_makeZone hw ht, htable]
  · rw [value_snapshot hv hs, value_snapshot hw ht, htable]

/-- Besides Etc/UTC there is a zone with a record that cannot be read, one byte that is `x`. -/
def spoiledZones (x : UInt8) : List (Bytes × Bytes) :=
  [Container.utcZone, (List.replicate 40 0x5A, [x])]

def spoiledContainer (x : UInt8) (tab : String) : Bytes :=
  Container.write Container.sampleVersion (spoiledZones x) tab

def spoiledCatalog (x : UInt8) (tab : String) : Shared Catalog :=
  ⟨0, Container.writtenCatalog Container.sampleVersion (spoiledZones x) tab⟩

theorem ofBytes_spoiledContainer {x : UInt8} {tab : String}
    (h : Container.Writable Container.sampleVersion (spoiledZones x) tab) :
    Catalog.ofBytes (spoiledContainer x tab) = .ok (spoiledCatalog x tab).value := by
  have horder : Container.disorder? none ((spoiledZones x).map fun z => Bytes.text z.1) = none := by
    have hnames : (spoiledZones x).map (fun z => Bytes.text z.1) =
        (spoiledZones 0).map fun z => Bytes.text z.1 := rfl
    rw [hnames]
    decide +kernel
  have hread := Container.ofBytes_write_eq h
  rw [horder] at hread
  exact hread

/-- The other records are not the same and neither are the texts at the end, and in one of the
catalogs the other zone has been looked up in vain. -/
theorem zone_undisturbed_sample :
    let s := spoiledCatalog 0 ""
    let t := spoiledCatalog 1 "#"
    let v := initial.gain (Session.share s.value) fun c => [c]
    let held := initial.gain (Session.share t.value) fun c => [c]
    let other := Bytes.text (List.replicate 40 0x5A)
    let w := held.after (lookup t other)
    v.Reachable ∧ w.Reachable ∧ s ∈ v.catalogs ∧ t ∈ w.catalogs ∧
      held.value (lookup t other) = none ∧
      Container.SameZone (spoiledContainer 0 "") (spoiledContainer 1 "#") "Etc/UTC" ∧
      ∃ table, (v.value (lookup s "Etc/UTC")).map (·.value) = some table ∧
        (w.value (lookup t "Etc/UTC")).map (·.value) = some table := by
  intro s t v held other w
  have ha : Catalog.ofBytes (spoiledContainer 0 "") = .ok s.value :=
    ofBytes_spoiledContainer (by constructor <;> decide +kernel)
  have hb : Catalog.ofBytes (spoiledContainer 1 "#") = .ok t.value :=
    ofBytes_spoiledContainer (by constructor <;> decide +kernel)
  have hs : s ∈ v.catalogs := List.mem_cons_self
  have ht : t ∈ held.catalogs := List.mem_cons_self
  have hv : v.Reachable := .step .initial (.ofBytes ha)
  have hheld : held.Reachable := .step .initial (.ofBytes hb)
  have hw : w.Reachable := .step hheld (.lookup other ht)
  have hsame : Container.SameZone (spoiledContainer 0 "") (spoiledContainer 1 "#") "Etc/UTC" :=
    ⟨by decide +kernel, by decide +kernel⟩
  have hbad : t.value.table? other = none := Option.isNone_iff_eq_none.mp (by decide +kernel)
  have hother : held.value (lookup t other) = none := by
    have hvalue := value_lookup hheld ht other
    rw [hbad] at hvalue
    exact Option.map_eq_none_iff.mp hvalue
  obtain ⟨hlookup, -⟩ := zone_undisturbed hv hw hs ht ha hb hsame
  obtain ⟨table, htable⟩ : ∃ table, s.value.table? "Etc/UTC" = some table :=
    Option.isSome_iff_exists.mp (by decide +kernel)
  have hfirst : (v.value (lookup s "Etc/UTC")).map (·.value) = some table :=
    (value_lookup hv hs _).trans htable
  exact ⟨hv, hw, hs, ht, hother, hsame, table, hfirst, hlookup.symm.trans hfirst⟩

end World

end TimeZones
