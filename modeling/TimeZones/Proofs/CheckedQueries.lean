import TimeZones.Proofs.CivilTimes
import TimeZones.Proofs.Summaries
import TimeZones.Proofs.Transcripts

/-! Queries with all checks made. A place that is looked up has to exist, a range has to lie within
the bytes, and a number has to fit into 64 bits. What has been accepted passes all of these checks,
so that queries always come to an answer. -/
namespace TimeZones

/-- The bytes from one place to another, which have to come in order and within the bytes. -/
def Bytes.range? (b : Bytes) (start stop : Nat) : Option Bytes :=
  if start ≤ stop ∧ stop ≤ b.length then some (b.slice start (stop - start)) else none

namespace Catalog

/-- The record of an entry, cut out of the bytes. -/
def entryIn? (b : Bytes) (e : Container.Entry) : Option Entry := do
  let record ← b.range? e.start e.stop
  return ⟨e.name, .record record⟩

/-- The catalog of a container, cut out of the bytes. -/
def cut? (b : Bytes) (c : Container) : Option Catalog := do
  let entries ← c.entries.mapM (entryIn? b)
  let zoneTab ← b.range? c.zoneTab b.length
  return ⟨c.version, entries.toArray, zoneTab, false⟩

theorem mapM_eq_some {α β : Type} {f : α → Option β} {g : α → β} {xs : List α}
    (h : ∀ x ∈ xs, f x = some (g x)) : xs.mapM f = some (xs.map g) := by
  induction xs with
  | nil => rfl
  | cons x xs ih =>
    rw [List.mapM_cons, h x List.mem_cons_self,
      ih fun y hy => h y (List.mem_cons_of_mem _ hy)]
    rfl

open Container in
/-- All records, and the text at the end, lie within the bytes. -/
theorem cut?_of_ofBytes {b : Bytes} {c : Catalog} (h : ofBytes b = .ok c) :
    ∃ x, Container.ofBytes b = .ok x ∧ cut? b x = some c := by
  obtain ⟨i, d, f, n, hf, rfl⟩ := catalog_ofBytes_eq_ok.mp h
  refine ⟨containerOf b i d f n, ofBytes_eq_ok.mpr ⟨i, d, f, n, hf, rfl⟩, ?_⟩
  have hentries : (entriesOf b i d n).mapM (entryIn? b) = some ((entriesOf b i d n).map fun e =>
      (⟨e.name, .record (b.slice e.start (e.stop - e.start))⟩ : Entry)) := by
    apply mapM_eq_some
    intro e he
    obtain ⟨-, hle, hstop⟩ := hf.record_le he
    rw [entryIn?, Bytes.range?, if_pos ⟨hle, Nat.le_trans hstop hf.offsets.final_le⟩]
    rfl
  have htab : b.range? f b.length = some (b.drop f) := by
    rw [Bytes.range?, if_pos ⟨hf.offsets.final_le, Nat.le_refl _⟩, Bytes.slice,
      List.take_of_length_le (by rw [List.length_drop])]
  change (do
    let entries ← (entriesOf b i d n).mapM (entryIn? b)
    let zoneTab ← b.range? f b.length
    return (⟨Bytes.text (b.slice 6 5), entries.toArray, zoneTab, false⟩ : Catalog)) = _
  rw [hentries, htab]
  rfl

end Catalog

namespace Table

variable {t : Table} {i : Nat}

def firstStandardType? (t : Table) : Option OffsetType := t.types[t.firstStandard]?

/-- The type in effect from transition `i` on. -/
def typeOf? (t : Table) (i : Nat) : Option OffsetType := do
  let tr ← t.transitions[i]?
  t.types[tr.typeIndex]?

def offsetAt? (t : Table) (seconds : Int) : Option OffsetType :=
  match t.reached seconds with
  | 0 => t.firstStandardType?
  | i + 1 => t.typeOf? i

def offsetAtMillis? (t : Table) (millis : Int) : Option OffsetType := do
  let seconds ← fit64? (secondOf millis)
  t.offsetAt? seconds

def inDaylightTime? (t : Table) (millis : Int) : Option Bool := do
  let ty ← t.offsetAtMillis? millis
  return ty.isDst

/-- The offset of the latest standard time before transition `i`. -/
def standardOffsetBefore? (t : Table) : Nat → Option Int32
  | 0 => do
    let ty ← t.firstStandardType?
    return ty.utcOffset
  | i + 1 => do
    let ty ← t.typeOf? i
    if ty.isDst then t.standardOffsetBefore? i else return ty.utcOffset

def offsetsAtMillis? (t : Table) (millis : Int) : Option Offsets := do
  let seconds ← fit64? (secondOf millis)
  match t.reached seconds with
  | 0 =>
    let ty ← t.firstStandardType?
    return .standard ty.utcOffset
  | i + 1 =>
    let ty ← t.typeOf? i
    if ty.isDst then
      let raw ← t.standardOffsetBefore? i
      return ⟨ty.utcOffset, raw, satSub ty.utcOffset raw⟩
    else return .standard ty.utcOffset

/-- The last of the first `n` transitions that starts daylight saving time, if there is one. -/
def lastDstBefore? (t : Table) : Nat → Option (Option Nat)
  | 0 => some none
  | i + 1 => do
    let ty ← t.typeOf? i
    if ty.isDst then return some i else t.lastDstBefore? i

theorem Obtained.firstStandardType?_eq (h : t.Obtained) :
    t.firstStandardType? = some t.firstStandardType := by
  rcases h with ⟨id, b, hr⟩ | rfl
  · obtain ⟨n, k, -, hd⟩ := Record.ofRecord_eq_ok_iff.mp hr
    exact hd.firstStandardType
  · rfl

theorem Sound.typeOf?_eq (h : t.Sound) (hi : i < t.transitions.size) :
    t.typeOf? i = some (t.typeOf i) := by
  have hget := Array.getElem?_eq_getElem hi
  have htype := getElem?_types (h.typeIndex_lt _ (Array.getElem_mem hi))
  rw [typeOf?, hget, typeOf_eq hget]
  exact htype

theorem Obtained.offsetAt?_eq (h : t.Obtained) (s : Int) : t.offsetAt? s = some (t.offsetAt s) := by
  have hle := h.sound.reached_le s
  rw [offsetAt?, offsetAt]
  cases hr : t.reached s with
  | zero => exact h.firstStandardType?_eq
  | succ i =>
    rw [hr] at hle
    exact h.sound.typeOf?_eq hle

theorem fit64?_secondOf (m : Int64) : fit64? (secondOf m.toInt) = some (secondOf m.toInt) := by
  have hmin := m.le_toInt
  have hmax := m.toInt_lt
  rw [secondOf]
  exact fit64?_eq (by omega) (by omega)

theorem Obtained.offsetAtMillis?_eq (h : t.Obtained) (m : Int64) :
    t.offsetAtMillis? m.toInt = some (t.offsetAtMillis m.toInt) := by
  rw [offsetAtMillis?, fit64?_secondOf]
  exact h.offsetAt?_eq _

theorem Obtained.inDaylightTime?_eq (h : t.Obtained) (m : Int64) :
    t.inDaylightTime? m.toInt = some (t.inDaylightTime m.toInt) := by
  rw [inDaylightTime?, h.offsetAtMillis?_eq]
  rfl

theorem Obtained.standardOffsetBefore?_eq (h : t.Obtained) (hi : i ≤ t.transitions.size) :
    t.standardOffsetBefore? i = some (t.standardOffsetBefore i) := by
  induction i with
  | zero =>
    rw [standardOffsetBefore?, h.firstStandardType?_eq]
    rfl
  | succ i ih =>
    rw [standardOffsetBefore?, h.sound.typeOf?_eq hi, standardOffsetBefore]
    change (if (t.typeOf i).isDst then t.standardOffsetBefore? i
      else some (t.typeOf i).utcOffset) = _
    rw [ih (Nat.le_of_succ_le hi)]
    exact (apply_ite some _ _ _).symm

theorem Obtained.offsetsAtMillis?_eq (h : t.Obtained) (m : Int64) :
    t.offsetsAtMillis? m.toInt = some (t.offsetsAtMillis m.toInt) := by
  have hle := h.sound.reached_le (secondOf m.toInt)
  rw [offsetsAtMillis?, fit64?_secondOf, offsetsAtMillis]
  dsimp only [Option.bind_eq_bind, Option.bind_some]
  cases hr : t.reached (secondOf m.toInt) with
  | zero =>
    dsimp only
    rw [h.firstStandardType?_eq]
    rfl
  | succ i =>
    rw [hr] at hle
    dsimp only
    rw [h.sound.typeOf?_eq hle, h.standardOffsetBefore?_eq (Nat.le_of_succ_le hle)]
    exact (apply_ite some _ _ _).symm

theorem Sound.lastDstBefore?_eq (h : t.Sound) {n : Nat} (hn : n ≤ t.transitions.size) :
    t.lastDstBefore? n = some (t.lastDstBefore n) := by
  induction n with
  | zero => rfl
  | succ i ih =>
    rw [lastDstBefore?, h.typeOf?_eq hn, lastDstBefore]
    change (if (t.typeOf i).isDst then some (some i) else t.lastDstBefore? i) = _
    rw [ih (Nat.le_of_succ_le hn)]
    exact (apply_ite some _ _ _).symm

/-- A table answers if all of its checked queries come to an answer, which is the one given. -/
structure Answers (t : Table) : Prop where
  firstStandardType : t.firstStandardType? = some t.firstStandardType
  standardOffsetBefore : ∀ i ≤ t.transitions.size,
    t.standardOffsetBefore? i = some (t.standardOffsetBefore i)
  offsetAt : ∀ s : Int64, t.offsetAt? s.toInt = some (t.offsetAt s.toInt)
  offsetAtMillis : ∀ m : Int64, t.offsetAtMillis? m.toInt = some (t.offsetAtMillis m.toInt)
  inDaylightTime : ∀ m : Int64, t.inDaylightTime? m.toInt = some (t.inDaylightTime m.toInt)
  offsetsAtMillis : ∀ m : Int64, t.offsetsAtMillis? m.toInt = some (t.offsetsAtMillis m.toInt)

theorem Obtained.answers (h : t.Obtained) : t.Answers where
  firstStandardType := h.firstStandardType?_eq
  standardOffsetBefore _ hi := h.standardOffsetBefore?_eq hi
  offsetAt s := h.offsetAt?_eq s.toInt
  offsetAtMillis m := h.offsetAtMillis?_eq m
  inDaylightTime m := h.inDaylightTime?_eq m
  offsetsAtMillis m := h.offsetsAtMillis?_eq m

end Table

namespace Snapshot

variable {t : Table}

/-- Multiplication that stays at the nearest end of 64 bits instead of leaving them. -/
def satMul64 (a b : Int) : Int := max Int64.minValue.toInt (min Int64.maxValue.toInt (a * b))

/-- What the last change to daylight saving time adds, unless there is none or it came before
`now`. -/
def checkedSavings? (t : Table) (now : Int) : Option (Option Int32) := do
  match ← t.lastDstBefore? t.transitions.size with
  | none => return none
  | some i =>
    let tr ← t.transitions[i]?
    if now ≤ satMul64 tr.instant 1000 then
      let ty ← t.typeOf? i
      let standard ← t.standardOffsetBefore? i
      return some (satSub ty.utcOffset standard)
    else return none

def ofTable? (t : Table) (now : Int) : Option Snapshot := do
  let offsets ← t.offsetsAtMillis? now
  let savings ← checkedSavings? t now
  return ⟨t.id, offsets.raw, savings.isSome, savings.getD 0⟩

theorem satMul64_eq {a : Int} (h : InRange a) : satMul64 a 1000 = a * 1000 := by
  have hmin : Int64.minValue.toInt = -9223372036854775808 := rfl
  have hmax : Int64.maxValue.toInt = 9223372036854775807 := rfl
  obtain ⟨hleast, hgreatest⟩ := h
  rw [Int32.toInt_minValue] at hleast
  rw [Int32.toInt_maxValue] at hgreatest
  rw [satMul64, hmin, hmax]
  omega

theorem checkedSavings?_eq (h : t.Obtained) (now : Int) :
    checkedSavings? t now = some (savings? t now) := by
  rw [checkedSavings?, h.sound.lastDstBefore?_eq (Nat.le_refl _), savings?]
  cases hlast : t.lastDstBefore t.transitions.size with
  | none => rfl
  | some i =>
    obtain ⟨hlt, -⟩ := Table.lastDstBefore_eq_some hlast
    have hget := Array.getElem?_eq_getElem hlt
    have hinstant := satMul64_eq (h.inRange_instant (Array.getElem_mem hlt))
    dsimp only [Option.bind_eq_bind, Option.bind_some]
    rw [hget, Option.bind_some, Option.bind_some, hinstant, h.sound.typeOf?_eq hlt,
      h.standardOffsetBefore?_eq (Nat.le_of_lt hlt)]
    exact (apply_ite some _ _ _).symm

theorem ofTable?_eq (h : t.Obtained) (now : Int64) :
    ofTable? t now.toInt = some (ofTable t now.toInt) := by
  rw [ofTable?, h.offsetsAtMillis?_eq, checkedSavings?_eq h]
  rfl

end Snapshot

namespace Zone

variable {z : Zone}

def offsetAtMillis? (z : Zone) (millis : Int) : Option Int32 := do
  let ty ← z.table.value.offsetAtMillis? millis
  return satAdd ty.utcOffset z.rawShift

def offsetsAtMillis? (z : Zone) (millis : Int) : Option Offsets := do
  let offsets ← z.table.value.offsetsAtMillis? millis
  return offsets.shift z.rawShift

def inDaylightTime? (z : Zone) (millis : Int) : Option Bool := z.table.value.inDaylightTime? millis

def offsetAtCivil? (z : Zone) (t : CivilTime) : Option (Except CivilTime.Fault Int32) :=
  match t.fault? with
  | some f => some (.error f)
  | none => do
    let millis ← t.millisAt64? z.rawOffset
    let offset ← z.offsetAtMillis? millis
    return .ok offset

def ofTable? (t : Shared Table) (now : Int) : Option Zone := do
  let snapshot ← Snapshot.ofTable? t.value now
  return ⟨t, snapshot, 0⟩

theorem ofTable?_eq {t : Shared Table} (h : t.value.Obtained) (now : Int64) :
    ofTable? t now.toInt = some (ofTable t now.toInt) := by
  rw [ofTable?, Snapshot.ofTable?_eq h]
  rfl

theorem offsetAtMillis?_eq (h : z.table.value.Obtained) (m : Int64) :
    z.offsetAtMillis? m.toInt = some (z.offsetAtMillis m.toInt) := by
  rw [offsetAtMillis?, h.offsetAtMillis?_eq]
  rfl

theorem offsetsAtMillis?_eq (h : z.table.value.Obtained) (m : Int64) :
    z.offsetsAtMillis? m.toInt = some (z.offsetsAtMillis m.toInt) := by
  rw [offsetsAtMillis?, h.offsetsAtMillis?_eq]
  rfl

/-- The instant of a civil time that is answered is one of 64 bits. -/
theorem offsetAtCivil?_eq (h : z.table.value.Obtained) (t : CivilTime) :
    z.offsetAtCivil? t = some (z.offsetAtCivil t) := by
  rw [offsetAtCivil?, offsetAtCivil]
  cases hfault : t.fault? with
  | some f => rfl
  | none =>
    have hmillis := CivilTime.millisAt64?_eq (CivilTime.fault?_eq_none.mp hfault) z.rawOffset
    obtain ⟨m, hm⟩ := CivilTime.exists_int64_of_millisAt64? hmillis
    dsimp only
    rw [hmillis, ← hm]
    dsimp only [Option.bind_eq_bind, Option.bind_some]
    rw [offsetAtMillis?_eq h]
    rfl

/-- A zone answers if all of its checked queries come to an answer, which is the one given. -/
structure Answers (z : Zone) : Prop where
  offsetAtMillis : ∀ m : Int64, z.offsetAtMillis? m.toInt = some (z.offsetAtMillis m.toInt)
  offsetsAtMillis : ∀ m : Int64, z.offsetsAtMillis? m.toInt = some (z.offsetsAtMillis m.toInt)
  inDaylightTime : ∀ m : Int64, z.inDaylightTime? m.toInt = some (z.inDaylightTime m.toInt)
  offsetAtCivil : ∀ t : CivilTime, z.offsetAtCivil? t = some (z.offsetAtCivil t)

theorem answers (h : z.table.value.Obtained) : z.Answers where
  offsetAtMillis m := offsetAtMillis?_eq h m
  offsetsAtMillis m := offsetsAtMillis?_eq h m
  inDaylightTime m := h.inDaylightTime?_eq m
  offsetAtCivil t := offsetAtCivil?_eq h t

end Zone

namespace Catalog

variable {c : Catalog} {t : Table}

theorem Obtained.table_obtained (h : c.Obtained) {id : String} (ht : c.table? id = some t) :
    t.Obtained := by
  obtain ⟨e, hmem, rfl, hread⟩ := h.table?_eq_some_iff.mp ht
  rcases h with ⟨b, hb⟩ | rfl
  · obtain ⟨record, hrecord⟩ := payload_of_ofBytes hb hmem
    rw [Entry.read, hrecord] at hread
    exact .inl ⟨_, _, hread⟩
  · obtain rfl : e = ⟨"GMT", .table .gmt⟩ := by simpa [builtin] using hmem
    exact .inr (Except.ok.inj hread).symm

end Catalog

namespace World

variable {w : World} {c : Shared Catalog} {t : Shared Table} {z : Zone}

/-- Tables that callers are given have been read or are built in, now or at an earlier call. -/
theorem Reachable.obtained_of_lookup (hw : w.Reachable) (hc : c ∈ w.catalogs) {id : String}
    (ht : w.value (Catalog.lookup c id) = some t) : t.value.Obtained := by
  obtain ⟨-, htable⟩ := Catalog.lookup_spec hc id w.registry hw.sound.registry
  change (w.value (Catalog.lookup c id)).map (·.value) = _ at htable
  rw [ht, Option.map_some] at htable
  exact (hw.sound.registry.obtained c hc).table_obtained htable.symm

theorem Reachable.obtained_of_makeZone (hw : w.Reachable) (hc : c ∈ w.catalogs) {id : String}
    {now : Int} (hz : w.value (Catalog.makeZone c id now) = some z) :
    ∃ t : Shared Table, t.value.Obtained ∧ z = .ofTable t now := by
  change (w.value (Catalog.lookup c id)).map (Zone.ofTable · now) = some z at hz
  obtain ⟨t, ht, rfl⟩ := Option.map_eq_some_iff.mp hz
  exact ⟨t, hw.obtained_of_lookup hc ht, rfl⟩

end World

/-- No query of what has been accepted fails. All ranges that are cut out of the bytes of a catalog
lie within them. A table that has been read, or is built in, passes all checks of its queries and of
its summary, and so do the zones over it, whatever overrides they have had. Tables that callers are
given in any state that they can bring about are such tables, and zones are over them. -/
theorem queries_exact :
    (∀ b c, Catalog.ofBytes b = .ok c →
      ∃ x, Container.ofBytes b = .ok x ∧ Catalog.cut? b x = some c) ∧
    (∀ t : Table, t.Obtained → t.Answers ∧
      ∀ now : Int64, Snapshot.ofTable? t now.toInt = some (.ofTable t now.toInt)) ∧
    (∀ (t : Shared Table) (now : Int64) (os : List Zone.Override), t.value.Obtained →
      Zone.ofTable? t now.toInt = some (.ofTable t now.toInt) ∧
      ((Zone.ofTable t now.toInt).overrideAll os).Answers) ∧
    ∀ (w : World) (c : Shared Catalog) (id : String), w.Reachable → c ∈ w.catalogs →
      (∀ t, w.value (Catalog.lookup c id) = some t → t.value.Obtained) ∧
      ∀ now z, w.value (Catalog.makeZone c id now) = some z →
        ∃ t : Shared Table, t.value.Obtained ∧ z = .ofTable t now := by
  refine ⟨fun b c h => Catalog.cut?_of_ofBytes h, fun t h => ⟨h.answers, Snapshot.ofTable?_eq h⟩,
    ?_, fun w c id hw hc => ⟨fun t ht => hw.obtained_of_lookup hc ht,
      fun now z hz => hw.obtained_of_makeZone hc hz⟩⟩
  intro t now os h
  refine ⟨Zone.ofTable?_eq h now, Zone.answers ?_⟩
  rw [Zone.table_overrideAll]
  exact h

/-- A container with a text at the end, a zone that is asked for instants at both ends of 64 bits
while an override keeps it as far behind as can be, and a zone of the built-in catalog. -/
theorem queries_exact_sample :
    let z := (Zone.ofTable ⟨0, Zone.putForward⟩ 0).overrideAll [.rawOffset Int32.minValue]
    let builtin : Shared Catalog := ⟨0, .builtin⟩
    let w := World.initial.gain Catalog.makeBuiltin fun c => [c]
    (∃ x, Container.ofBytes World.sampleContainer = .ok x ∧
      Catalog.cut? World.sampleContainer x = some World.sampleCatalog.value) ∧
    (z.offsetAtMillis? Int64.minValue.toInt = some Int32.minValue ∧
      z.offsetAtMillis? Int64.maxValue.toInt = some (-2147480048) ∧
      z.offsetAtCivil? ⟨9999, 12, 31, 86399999⟩ = some (.ok (-2147480048))) ∧
    ∃ t : Shared Table, t.value.Obtained ∧
      w.value (Catalog.makeZone builtin "GMT" 0) = some (.ofTable t 0) := by
  intro z builtin w
  obtain ⟨hcut, -, hzones, hgiven⟩ := queries_exact
  refine ⟨hcut _ _ World.ofBytes_sampleContainer, ?_, ?_⟩
  · obtain ⟨-, hz⟩ := hzones ⟨0, Zone.putForward⟩ 0 [.rawOffset Int32.minValue]
      Zone.putForward_obtained
    refine ⟨?_, ?_, ?_⟩
    · refine (hz.offsetAtMillis Int64.minValue).trans ?_
      decide +kernel
    · refine (hz.offsetAtMillis Int64.maxValue).trans ?_
      decide +kernel
    · refine (hz.offsetAtCivil ⟨9999, 12, 31, 86399999⟩).trans ?_
      decide +kernel
  · have hsome : (w.value (Catalog.makeZone builtin "GMT" 0)).isSome = true := by decide +kernel
    obtain ⟨z, hz⟩ := Option.isSome_iff_exists.mp hsome
    obtain ⟨-, hzone⟩ := hgiven w builtin "GMT" (.step .initial .makeBuiltin)
      (List.mem_singleton_self _)
    obtain ⟨t, ht, rfl⟩ := hzone 0 z hz
    exact ⟨t, ht, hz⟩

end TimeZones
