import TimeZones.Proofs.OffsetParts

/-! Overrides of the raw offset, one after another. If none of them is cut off, only the last one
counts: a zone is then as far from its table as if that had been the first, and going back to the
raw offset of the beginning undoes them all. -/
namespace TimeZones

theorem inRange_toInt (a : Int32) : InRange a.toInt := ⟨a.minValue_le_toInt, a.toInt_le⟩

theorem satAdd_zero (a : Int32) : satAdd a 0 = a := by
  have hsum : a.toInt + (0 : Int32).toInt = a.toInt := Int.add_zero _
  rw [← Int32.toInt_inj, toInt_satAdd (hsum.symm ▸ inRange_toInt a), hsum]

namespace Zone

variable {z : Zone} {os : List Override} {t : Shared Table} {now : Int} {r : Int32}

/-- The raw offset that an override sets. Setting an identifier leaves it alone. -/
def Override.rawOffset? : Override → Option Int32
  | .rawOffset seconds => some seconds
  | .id _ => none

/-- The last raw offset that overrides set. -/
def lastRawOffset? (os : List Override) : Option Int32 :=
  (os.filterMap Override.rawOffset?).getLast?

theorem rawOffset_overrideAll (z : Zone) (os : List Override) :
    (z.overrideAll os).rawOffset = (lastRawOffset? os).getD z.rawOffset := by
  induction os generalizing z with
  | nil => rfl
  | cons o os ih =>
    refine (ih (z.override o)).trans ?_
    cases o with
    | rawOffset seconds =>
      rw [lastRawOffset?, lastRawOffset?, List.filterMap_cons_some (f := Override.rawOffset?) rfl,
        List.getLast?_cons]
      rfl
    | id id => rfl

/-- Of what a zone reports, overrides change the identifier and the raw offset only. -/
theorem snapshot_overrideAll (z : Zone) (os : List Override) :
    (z.overrideAll os).snapshot =
      { z.snapshot with
        id := (z.overrideAll os).id
        rawOffset := (z.overrideAll os).rawOffset } := by
  induction os generalizing z with
  | nil => rfl
  | cons o os ih =>
    refine (ih (z.override o)).trans ?_
    cases o with
    | rawOffset seconds => rfl
    | id id => rfl

theorem withRawOffset_rawOffset (z : Zone) : z.withRawOffset z.rawOffset = z := by
  rw [withRawOffset, satSub_self, satAdd_zero]
  rfl

/-- The shift in between is in range, since it is one that a zone has. -/
theorem inRange_of_exact (hlast : lastRawOffset? os = some r)
    (h : Exact (ofTable t now) (ofTable t now) os) :
    InRange (r.toInt - (ofTable t now).rawOffset.toInt) := by
  have hshift := rawShift_of_exact h
  rw [rawOffset_overrideAll, hlast, Option.getD_some] at hshift
  rw [← hshift]
  exact inRange_toInt _

/-- All overrides together do what the last one of the raw offset does alone, apart from the
identifier. -/
theorem overrideAll_eq (hlast : lastRawOffset? os = some r)
    (h : Exact (ofTable t now) (ofTable t now) os) :
    (ofTable t now).overrideAll os =
      ((ofTable t now).withRawOffset r).withId ((ofTable t now).overrideAll os).id := by
  have hraw : ((ofTable t now).overrideAll os).rawOffset = r := by
    rw [rawOffset_overrideAll, hlast, Option.getD_some]
  have hr := inRange_of_exact hlast h
  have hsingle : Exact (ofTable t now) (ofTable t now) [.rawOffset r] := ⟨hr, hr, trivial⟩
  have hshift : ((ofTable t now).overrideAll os).rawShift =
      ((ofTable t now).withRawOffset r).rawShift := rawShift_eq_of_exact h hsingle rfl hraw
  have htable := table_overrideAll (ofTable t now) os
  have hsnapshot := snapshot_overrideAll (ofTable t now) os
  rw [hraw] at hsnapshot
  calc (ofTable t now).overrideAll os
      = ⟨((ofTable t now).overrideAll os).table, ((ofTable t now).overrideAll os).snapshot,
          ((ofTable t now).overrideAll os).rawShift⟩ := rfl
    _ = ((ofTable t now).withRawOffset r).withId ((ofTable t now).overrideAll os).id := by
      rw [htable, hsnapshot, hshift]
      rfl

/-- There and back again, if the way back is not cut off either. -/
theorem withRawOffset_back
    (hr : InRange (r.toInt - (ofTable t now).rawOffset.toInt))
    (hback : InRange ((ofTable t now).rawOffset.toInt - r.toInt)) :
    ((ofTable t now).withRawOffset r).withRawOffset (ofTable t now).rawOffset = ofTable t now := by
  have hzero : InRange ((ofTable t now).rawOffset.toInt - (ofTable t now).rawOffset.toInt) := by
    rw [Int.sub_self]
    decide
  let os : List Override := [.rawOffset r, .rawOffset (ofTable t now).rawOffset]
  have hlast : lastRawOffset? os = some (ofTable t now).rawOffset := rfl
  have hexact : Exact (ofTable t now) (ofTable t now) os := ⟨hr, hr, hback, hzero, trivial⟩
  have heq := overrideAll_eq hlast hexact
  rw [withRawOffset_rawOffset] at heq
  exact heq

theorem offset_eq_total (z : Zone) (m : Int) : z.offsetAtMillis m = (z.offsetsAtMillis m).total := by
  rw [offsetAtMillis, offsetsAtMillis, Offsets.shift, Table.total_offsetsAtMillis]

/-- However many overrides there have been, the last raw offset decides all answers but the
identifier. The offsets in the table have moved by its difference to the raw offset at first, and
nothing else has changed. With the first raw offset again the zone is the one that it was. -/
theorem overrideAll_exact (t : Shared Table) (now : Int) (os : List Override) (r : Int32)
    (hlast : lastRawOffset? os = some r) (hexact : Exact (ofTable t now) (ofTable t now) os) :
    let z := ofTable t now
    let a := z.overrideAll os
    a = (z.withRawOffset r).withId a.id ∧
      a.rawOffset = r ∧
      (∀ m, a.offsetAtMillis m = (a.offsetsAtMillis m).total ∧
        (a.offsetAtMillis m).toInt = max Int32.minValue.toInt (min Int32.maxValue.toInt
          ((t.value.offsetAtMillis m).utcOffset.toInt + (r.toInt - z.rawOffset.toInt)))) ∧
      (a.offsetsAtMillis now).raw = r ∧
      a.usesDst = z.usesDst ∧
      a.dstSavings = z.dstSavings ∧
      (∀ m, a.inDaylightTime m = z.inDaylightTime m) ∧
      a.table = z.table ∧
      (r = z.rawOffset → a = z.withId a.id) ∧
      (InRange (z.rawOffset.toInt - r.toInt) → a.withRawOffset z.rawOffset = z.withId a.id) := by
  intro z a
  have ha : a = (z.withRawOffset r).withId a.id := overrideAll_eq hlast hexact
  have hr : InRange (r.toInt - z.rawOffset.toInt) := inRange_of_exact hlast hexact
  have hraw : a.rawOffset = r := congrArg rawOffset ha
  have htable : a.table = t := congrArg table ha
  have hshift : a.rawShift.toInt = r.toInt - z.rawOffset.toInt := by
    rw [← hraw]
    exact rawShift_of_exact hexact
  refine ⟨ha, hraw, ?_, ?_, (congrArg usesDst ha).trans rfl, (congrArg dstSavings ha).trans rfl, ?_,
    htable, ?_, ?_⟩
  · intro m
    refine ⟨a.offset_eq_total m, ?_⟩
    rw [offsetAtMillis, satAdd, toInt_ofIntClamp, htable, hshift]
  · -- the raw part at the instant of the summary is the raw offset at first
    have hsum : z.rawOffset.toInt + a.rawShift.toInt = r.toInt := by omega
    have hnow : (a.offsetsAtMillis now).raw = satAdd z.rawOffset a.rawShift := by
      rw [offsetsAtMillis, htable]
      rfl
    rw [hnow, ← Int32.toInt_inj, toInt_satAdd (hsum.symm ▸ inRange_toInt r), hsum]
  · intro m
    rw [inDaylightTime, htable]
    rfl
  · intro heq
    rwa [heq, withRawOffset_rawOffset] at ha
  · intro hback
    have hundo : (z.withRawOffset r).withRawOffset z.rawOffset = z := withRawOffset_back hr hback
    rw [ha]
    exact congrArg (·.withId a.id) hundo

/-- The raw offset goes from the least offset to the middle of the range and back down. The greatest
offset stays where it is, and moves back with the others. -/
theorem overrideAll_exact_farApart :
    let z := ofTable ⟨0, Table.farApart⟩ 0
    let os := [Override.rawOffset (-1), .id "Test/Other", .rawOffset (-2147483638)]
    let a := z.overrideAll os
    lastRawOffset? os = some (-2147483638) ∧ Exact z z os ∧
      (a.offsetAtMillis 0).toInt = -2147483638 ∧
      (a.offsetAtMillis 5000).toInt = 2147483647 ∧
      (a.offsetsAtMillis 0).raw = -2147483638 ∧
      a.withRawOffset z.rawOffset = z.withId "Test/Other" := by
  intro z os a
  have hexact : Exact z z os := by decide +kernel
  obtain ⟨-, -, hoffset, hraw, -, -, -, -, -, hback⟩ :=
    overrideAll_exact ⟨0, Table.farApart⟩ 0 os (-2147483638) rfl hexact
  refine ⟨rfl, hexact, ?_, ?_, hraw, hback (by decide +kernel)⟩
  · rw [(hoffset 0).2]
    decide +kernel
  · rw [(hoffset 5000).2]
    decide +kernel

end Zone

end TimeZones
