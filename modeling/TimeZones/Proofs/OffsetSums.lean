import TimeZones.Proofs.RawOffsets

/-! When the parts of an offset add up to the total. The difference between total and raw part is
cut off where it does not fit, and so are both of them once overrides have moved them. -/
namespace TimeZones

/-- Cutting off a sum gives the sum of the cut off parts if there is nothing to add or nothing to
cut. Otherwise it does so only where the second part is too large and the rest makes up for it. -/
theorem cutOff_add_iff {a d : Int} :
    max Int32.minValue.toInt (min Int32.maxValue.toInt (a + d)) =
        max Int32.minValue.toInt (min Int32.maxValue.toInt a) +
          max Int32.minValue.toInt (min Int32.maxValue.toInt d) ↔
      d = 0 ∨ InRange d ∧ InRange a ∧ InRange (a + d) ∨ ¬ InRange d ∧ (a = 0 ∨ a + d = -1) := by
  have hmin : Int32.minValue.toInt = -2147483648 := rfl
  have hmax : Int32.maxValue.toInt = 2147483647 := rfl
  simp only [InRange, hmin, hmax]
  omega

namespace Zone

theorem toInt_total_offsetsAtMillis (z : Zone) (m : Int) :
    (z.offsetsAtMillis m).total.toInt = max Int32.minValue.toInt (min Int32.maxValue.toInt
      ((z.table.value.offsetsAtMillis m).total.toInt + z.rawShift.toInt)) :=
  toInt_ofIntClamp _

theorem toInt_raw_offsetsAtMillis (z : Zone) (m : Int) :
    (z.offsetsAtMillis m).raw.toInt = max Int32.minValue.toInt (min Int32.maxValue.toInt
      ((z.table.value.offsetsAtMillis m).raw.toInt + z.rawShift.toInt)) :=
  toInt_ofIntClamp _

/-- Overrides do not move the part that daylight saving time adds. -/
theorem toInt_dst_offsetsAtMillis (z : Zone) (m : Int) :
    (z.offsetsAtMillis m).dst.toInt = max Int32.minValue.toInt (min Int32.maxValue.toInt
      ((z.table.value.offsetsAtMillis m).total.toInt -
        (z.table.value.offsetsAtMillis m).raw.toInt)) := by
  rw [offsetsAtMillis, Offsets.shift, Table.dst_offsetsAtMillis]
  exact toInt_ofIntClamp _

/-- The parts add up to the total if daylight saving time adds nothing, or if neither the total nor
a part of it is cut off. Where what it adds does not fit, they do so only by chance. As long as both
parts are as they should be, a sum that does not fit is the one exception. -/
theorem total_eq_raw_add_dst_iff (t : Shared Table) (now : Int) (os : List Override) (m : Int) :
    let z := (ofTable t now).overrideAll os
    let o := z.offsetsAtMillis m
    let plain := t.value.offsetsAtMillis m
    let dst := plain.total.toInt - plain.raw.toInt
    let raw := plain.raw.toInt + z.rawShift.toInt
    let total := plain.total.toInt + z.rawShift.toInt
    (o.total.toInt = o.raw.toInt + o.dst.toInt ↔
      plain.total = plain.raw ∨
      InRange dst ∧ InRange raw ∧ InRange total ∨
      ¬ InRange dst ∧ (raw = 0 ∨ total = -1)) ∧
    (InRange dst → InRange raw →
      (o.total.toInt = o.raw.toInt + o.dst.toInt ↔ InRange (o.raw.toInt + o.dst.toInt))) := by
  intro z o plain dst raw total
  have htable : z.table = t := table_overrideAll (ofTable t now) os
  have hsum : total = raw + dst := by omega
  have htotal : o.total.toInt =
      max Int32.minValue.toInt (min Int32.maxValue.toInt (raw + dst)) := by
    rw [← hsum, z.toInt_total_offsetsAtMillis m, htable]
  have hraw : o.raw.toInt = max Int32.minValue.toInt (min Int32.maxValue.toInt raw) := by
    rw [z.toInt_raw_offsetsAtMillis m, htable]
  have hdst : o.dst.toInt = max Int32.minValue.toInt (min Int32.maxValue.toInt dst) := by
    rw [z.toInt_dst_offsetsAtMillis m, htable]
  have hzero : dst = 0 ↔ plain.total = plain.raw := by
    rw [← Int32.toInt_inj]
    exact Int.sub_eq_zero
  constructor
  · rw [htotal, hraw, hdst, cutOff_add_iff, hzero, hsum]
  · intro hd hr
    rw [htotal, hraw, hdst, inRange_iff_max_min.mp hd, inRange_iff_max_min.mp hr,
      inRange_iff_max_min]

/-- Standard time is put back by ten seconds, and then daylight saving time adds one hour. -/
def putBack : Table where
  id := "Test/Zone"
  transitions := #[⟨-1000, 0⟩, ⟨0, 1⟩, ⟨1000, 2⟩]
  types := #[⟨0, false⟩, ⟨-10, false⟩, ⟨3590, true⟩]
  firstStandard := 0

theorem putBack_obtained : putBack.Obtained := by
  refine Or.inl ⟨"Test/Zone", Record.magic ++ List.replicate 28 0 ++
    [0, 0, 0, 3, 0, 0, 0, 3, 0, 0, 0, 4,
     255, 255, 252, 24, 0, 0, 0, 0, 0, 0, 3, 232, 0, 1, 2,
     0, 0, 0, 0, 0, 0, 255, 255, 255, 246, 0, 0, 0, 0, 14, 6, 1, 0], ?_⟩
  rfl

/-- That the sum of the parts fits is not enough. What daylight saving time adds may have been cut
off in the table already, and the raw part of a zone that is put as far back as can be is cut off
where standard time is put back further. -/
theorem total_ne_raw_add_dst :
    let plain := ((ofTable ⟨0, Table.farApart⟩ 0).overrideAll []).offsetsAtMillis 5000
    let overridden := ((ofTable ⟨0, putBack⟩ (-500000)).overrideAll
      [.rawOffset Int32.minValue]).offsetsAtMillis 2000000
    Table.farApart.Obtained ∧ InRange (plain.raw.toInt + plain.dst.toInt) ∧
      plain.total.toInt ≠ plain.raw.toInt + plain.dst.toInt ∧
      putBack.Obtained ∧ InRange (overridden.raw.toInt + overridden.dst.toInt) ∧
      overridden.total.toInt ≠ overridden.raw.toInt + overridden.dst.toInt := by
  intro plain overridden
  have hplain : InRange (plain.raw.toInt + plain.dst.toInt) ∧
      plain.total.toInt ≠ plain.raw.toInt + plain.dst.toInt := by decide +kernel
  have hoverridden : InRange (overridden.raw.toInt + overridden.dst.toInt) ∧
      overridden.total.toInt ≠ overridden.raw.toInt + overridden.dst.toInt := by decide +kernel
  exact ⟨Table.farApart_obtained, hplain.1, hplain.2, putBack_obtained, hoverridden⟩

end Zone

end TimeZones
