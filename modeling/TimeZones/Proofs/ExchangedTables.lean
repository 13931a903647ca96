import TimeZones.Proofs.RawOffsets

/-! Tables with the same rules. Either can be put in the place of the other: no answer depends on
what the comparison leaves out, which is the identifier and where the first standard type is. Nor
does it in zones that are made of the tables, whatever raw offsets these are given later. -/
namespace TimeZones

namespace Table

variable {t u v : Table}

/-- Where the first standard type is can be told from the types. -/
theorem Obtained.firstStandard_eq (h : t.Obtained) :
    t.firstStandard = t.types.findIdx fun ty => !ty.isDst := by
  rcases h with ⟨id, b, hr⟩ | rfl
  · obtain ⟨c, -, -, rfl⟩ := Record.ofRecord_eq_ok.mp hr
    exact List.findIdx_toArray.symm
  · simp [gmt]

/-- Apart from identifiers the comparison leaves nothing out that could differ. -/
theorem Obtained.eq_iff (ht : t.Obtained) (hu : u.Obtained) :
    t = u ↔ t.hasSameRules u = true ∧ t.id = u.id := by
  rw [hasSameRules_iff]
  constructor
  · rintro rfl
    exact ⟨⟨rfl, rfl⟩, rfl⟩
  · rintro ⟨⟨htr, hty⟩, hid⟩
    -- this is not compared, but the types decide it
    have hfirst : t.firstStandard = u.firstStandard := by
      rw [ht.firstStandard_eq, hu.firstStandard_eq, hty]
    cases t
    cases u
    simp_all

theorem hasSameRules_refl (t : Table) : t.hasSameRules t = true := hasSameRules_iff.mpr ⟨rfl, rfl⟩

theorem hasSameRules_symm (h : t.hasSameRules u = true) : u.hasSameRules t = true := by
  obtain ⟨htr, hty⟩ := hasSameRules_iff.mp h
  exact hasSameRules_iff.mpr ⟨htr.symm, hty.symm⟩

theorem hasSameRules_trans (h : t.hasSameRules u = true) (h' : u.hasSameRules v = true) :
    t.hasSameRules v = true := by
  obtain ⟨htr, hty⟩ := hasSameRules_iff.mp h
  obtain ⟨htr', hty'⟩ := hasSameRules_iff.mp h'
  exact hasSameRules_iff.mpr ⟨htr.trans htr', hty.trans hty'⟩

/-- Tables that answer alike whatever the instant. -/
structure SameAnswers (t u : Table) : Prop where
  offsetAt : ∀ s, t.offsetAt s = u.offsetAt s
  offsetAtMillis : ∀ m, t.offsetAtMillis m = u.offsetAtMillis m
  offsetsAtMillis : ∀ m, t.offsetsAtMillis m = u.offsetsAtMillis m
  inDaylightTime : ∀ m, t.inDaylightTime m = u.inDaylightTime m

theorem Sound.sameAnswers (ht : t.Sound) (hu : u.Sound) (h : t.hasSameRules u = true) :
    t.SameAnswers u where
  offsetAt := ht.offsetAt_congr hu h
  offsetAtMillis := ht.offsetAtMillis_congr hu h
  offsetsAtMillis := ht.offsetsAtMillis_congr hu h
  inDaylightTime := ht.inDaylightTime_congr hu h

theorem Sound.lastDstBefore_congr (ht : t.Sound) (hu : u.Sound) (h : t.hasSameRules u = true)
    (n : Nat) : t.lastDstBefore n = u.lastDstBefore n := by
  induction n with
  | zero => rfl
  | succ n ih => rw [lastDstBefore, lastDstBefore, ht.typeOf_congr hu h, ih]

end Table

namespace Snapshot

variable {t u : Table}

theorem savings?_congr (ht : t.Sound) (hu : u.Sound) (h : t.hasSameRules u = true) (now : Int) :
    savings? t now = savings? u now := by
  rw [savings?, savings?, ht.lastDstBefore_congr hu h, (Table.hasSameRules_iff.mp h).1]
  simp only [ht.typeOf_congr hu h, ht.standardOffsetBefore_congr hu h]

theorem ofTable_congr (ht : t.Sound) (hu : u.Sound) (h : t.hasSameRules u = true) (now : Int) :
    ofTable u now = { ofTable t now with id := u.id } := by
  rw [ofTable, ofTable, ht.offsetsAtMillis_congr hu h, savings?_congr ht hu h]

end Snapshot

namespace Zone

variable {a b c : Zone}

/-- Zones that answer alike, whether asked about an instant or about a civil time. -/
structure SameAnswers (a b : Zone) : Prop where
  offsetAtMillis : ∀ m, a.offsetAtMillis m = b.offsetAtMillis m
  offsetsAtMillis : ∀ m, a.offsetsAtMillis m = b.offsetsAtMillis m
  inDaylightTime : ∀ m, a.inDaylightTime m = b.inDaylightTime m
  offsetAtCivil : ∀ t, a.offsetAtCivil t = b.offsetAtCivil t

/-- Zones that differ in identifiers only, their own and those of their tables. -/
structure Alike (a b : Zone) : Prop where
  rules : a.table.value.hasSameRules b.table.value = true
  snapshot : b.snapshot = { a.snapshot with id := b.id }
  rawShift : a.rawShift = b.rawShift

namespace Alike

theorem refl (a : Zone) : a.Alike a := ⟨Table.hasSameRules_refl _, rfl, rfl⟩

theorem rawOffset (h : a.Alike b) : a.rawOffset = b.rawOffset :=
  (congrArg Snapshot.rawOffset h.snapshot).symm

theorem usesDst (h : a.Alike b) : a.usesDst = b.usesDst :=
  (congrArg Snapshot.usesDst h.snapshot).symm

theorem symm (h : a.Alike b) : b.Alike a := by
  refine ⟨Table.hasSameRules_symm h.rules, ?_, h.rawShift.symm⟩
  rw [h.snapshot]
  rfl

theorem trans (h : a.Alike b) (h' : b.Alike c) : a.Alike c := by
  refine ⟨Table.hasSameRules_trans h.rules h'.rules, ?_, h.rawShift.trans h'.rawShift⟩
  rw [h'.snapshot, h.snapshot]

theorem hasSameRules (h : a.Alike b) : a.hasSameRules b = true := by
  rw [Zone.hasSameRules, h.rawOffset, h.usesDst, h.rules]
  simp

theorem sameAnswers (h : a.Alike b) (ha : a.table.value.Sound) (hb : b.table.value.Sound) :
    a.SameAnswers b := by
  have hoffset (m : Int) : a.offsetAtMillis m = b.offsetAtMillis m := by
    rw [offsetAtMillis, offsetAtMillis, ha.offsetAtMillis_congr hb h.rules, h.rawShift]
  refine ⟨hoffset, ?_, ?_, ?_⟩
  · intro m
    rw [offsetsAtMillis, offsetsAtMillis, ha.offsetsAtMillis_congr hb h.rules, h.rawShift]
  · intro m
    exact ha.inDaylightTime_congr hb h.rules m
  · intro t
    rw [offsetAtCivil, offsetAtCivil, h.rawOffset]
    simp only [hoffset]

theorem withId (a : Zone) (id : String) : (a.withId id).Alike a :=
  ⟨Table.hasSameRules_refl _, rfl, rfl⟩

theorem withRawOffset (h : a.Alike b) (seconds : Int32) :
    (a.withRawOffset seconds).Alike (b.withRawOffset seconds) := by
  refine ⟨h.rules, ?_, ?_⟩
  · rw [Zone.withRawOffset, Zone.withRawOffset, h.snapshot]
    rfl
  · rw [Zone.withRawOffset, Zone.withRawOffset, h.rawShift, h.rawOffset]

/-- Of overrides, only the raw offsets matter. -/
theorem overrideAll_rawOffsets (z : Zone) (os : List Override) :
    (z.overrideAll os).Alike ((os.filterMap Override.rawOffset?).foldl Zone.withRawOffset z) := by
  rw [List.foldl_filterMap]
  refine List.foldl_rel (refl z) ?_
  intro o _ a b h
  cases o with
  | rawOffset seconds => exact h.withRawOffset seconds
  | id id => exact (withId a id).trans h

theorem overrideAll (h : a.Alike b) {os ps : List Override}
    (hraw : os.filterMap Override.rawOffset? = ps.filterMap Override.rawOffset?) :
    (a.overrideAll os).Alike (b.overrideAll ps) := by
  have hfold : ((ps.filterMap Override.rawOffset?).foldl Zone.withRawOffset a).Alike
      ((ps.filterMap Override.rawOffset?).foldl Zone.withRawOffset b) :=
    List.foldl_rel h fun seconds _ _ _ h => h.withRawOffset seconds
  have ha := overrideAll_rawOffsets a os
  -- both come to the same raw offsets, with the identifiers between them left out
  rw [hraw] at ha
  exact (ha.trans hfold).trans (overrideAll_rawOffsets b ps).symm

end Alike

theorem alike_ofTable {x y : Shared Table} (hx : x.value.Sound) (hy : y.value.Sound)
    (h : x.value.hasSameRules y.value = true) (now : Int) :
    (ofTable x now).Alike (ofTable y now) :=
  ⟨h, Snapshot.ofTable_congr hx hy h now, rfl⟩

end Zone

namespace Table

/-- Tables with the same rules are equal if their identifiers are. In any case they give the same
answers and, at all instants, the same summaries apart from the identifier. So do zones that are
made of them and are given the same raw offsets in turn: these still have the same rules. -/
theorem hasSameRules_exact {x y : Shared Table} (hx : x.value.Obtained) (hy : y.value.Obtained) :
    (x.value = y.value ↔ x.value.hasSameRules y.value = true ∧ x.value.id = y.value.id) ∧
    (x.value.hasSameRules y.value = true →
      x.value.SameAnswers y.value ∧
      ∀ now,
        (Zone.ofTable y now).snapshot = { (Zone.ofTable x now).snapshot with id := y.value.id } ∧
        ∀ os ps : List Zone.Override,
          os.filterMap Zone.Override.rawOffset? = ps.filterMap Zone.Override.rawOffset? →
          let a := (Zone.ofTable x now).overrideAll os
          let b := (Zone.ofTable y now).overrideAll ps
          a.SameAnswers b ∧ a.hasSameRules b = true) := by
  refine ⟨hx.eq_iff hy, ?_⟩
  intro h
  refine ⟨hx.sound.sameAnswers hy.sound h, ?_⟩
  intro now
  have halike := Zone.alike_ofTable hx.sound hy.sound h now
  refine ⟨halike.snapshot, ?_⟩
  intro os ps hraw a b
  have hab : a.Alike b := halike.overrideAll hraw
  have ha : a.table = x := Zone.table_overrideAll (Zone.ofTable x now) os
  have hb : b.table = y := Zone.table_overrideAll (Zone.ofTable y now) ps
  refine ⟨hab.sameAnswers ?_ ?_, hab.hasSameRules⟩
  · rw [ha]
    exact hx.sound
  · rw [hb]
    exact hy.sound

/-- Its first standard type is neither the first of its types nor one that is led to. -/
def quarterAhead (id : String) : Table where
  id := id
  transitions := #[⟨-1000, 2⟩, ⟨1000, 0⟩]
  types := #[⟨3600, true⟩, ⟨0, false⟩, ⟨900, false⟩]
  firstStandard := 1

theorem quarterAhead_obtained (id : String) : (quarterAhead id).Obtained := by
  refine Or.inl ⟨id, Record.magic ++ List.replicate 28 0 ++
    [0, 0, 0, 2, 0, 0, 0, 3, 0, 0, 0, 4, 255, 255, 252, 24, 0, 0, 3, 232, 2, 0,
     0, 0, 14, 16, 1, 0, 0, 0, 0, 0, 0, 0, 0, 0, 3, 132, 0, 0], ?_⟩
  rfl

theorem hasSameRules_exact_quarterAhead :
    let x : Shared Table := ⟨0, quarterAhead "Test/Zone"⟩
    let y : Shared Table := ⟨1, quarterAhead "Test/Other"⟩
    let a := (Zone.ofTable x 0).overrideAll [.rawOffset 60, .id "Test/Third", .rawOffset 7200]
    let b := (Zone.ofTable y 0).overrideAll [.rawOffset 60, .rawOffset 7200]
    x.value.Obtained ∧ y.value.Obtained ∧ x.value.hasSameRules y.value = true ∧
      x.value ≠ y.value ∧ a.hasSameRules b = true ∧
      a.offsetAtMillis 1000000 = 9900 ∧ b.offsetAtMillis 1000000 = 9900 := by
  intro x y a b
  have hx : x.value.Obtained := quarterAhead_obtained _
  have hy : y.value.Obtained := quarterAhead_obtained _
  have hrules : x.value.hasSameRules y.value = true := by decide +kernel
  obtain ⟨heq, hsame⟩ := hasSameRules_exact hx hy
  obtain ⟨-, hzones⟩ := hsame hrules
  obtain ⟨-, hoverridden⟩ := hzones 0
  obtain ⟨hanswers, hab⟩ := hoverridden
    [.rawOffset 60, .id "Test/Third", .rawOffset 7200] [.rawOffset 60, .rawOffset 7200] rfl
  have ha : a.offsetAtMillis 1000000 = 9900 := by decide +kernel
  refine ⟨hx, hy, hrules, ?_, hab, ha, (hanswers.offsetAtMillis 1000000).symm.trans ha⟩
  intro hxy
  have hid : x.value.id = y.value.id := (heq.mp hxy).2
  exact absurd hid (by decide)

end Table

end TimeZones
