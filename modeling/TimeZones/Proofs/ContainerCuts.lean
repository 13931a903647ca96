import TimeZones.Proofs.Transcripts

/-! Containers that are cut short or go on behind their end. The header says how far the records
reach, so that a container without all of them is refused, and only the text at the end can be
longer or shorter unnoticed. -/
namespace TimeZones.Container
open Bytes

variable {a b : Bytes} {i d f n : Nat} {c : Catalog}

/-- Up to the text at the end all of a catalog is read from the bytes before it. -/
theorem catalogOf_congr (h : Format b i d f n) (hab : AgreeOn a b 0 f) :
    catalogOf a i d f n = { catalogOf b i d f n with zoneTab := a.drop f } := by
  have hversion : a.slice 6 5 = b.slice 6 5 :=
    hab.slice (by decide) (Nat.le_trans (Nat.le_trans (by decide) h.data_ge) h.offsets.data_le)
  have hentries := entriesOf_congr h.index (hab.mono (Nat.le_refl 0) h.offsets.data_le)
  simp only [catalogOf, hversion, hentries, Catalog.mk.injEq, true_and, and_true]
  congr 1
  apply List.map_congr_left
  intro e he
  obtain ⟨-, hle, hstop⟩ := h.record_le he
  rw [hab.slice (Nat.zero_le _) (by omega)]

/-- With all of the zone data there, the zones are the same. -/
theorem ofBytes_of_agreeOn (h : Format b i d f n) (hab : AgreeOn a b 0 f) (hf : f ≤ a.length) :
    Catalog.ofBytes a = .ok { catalogOf b i d f n with zoneTab := a.drop f } := by
  have ha : Format a i d f n := h.congr (hab.mono (Nat.le_refl 0) h.offsets.data_le) hf
  rw [← catalogOf_congr h hab]
  exact catalog_ofBytes_eq_ok.mpr ⟨i, d, f, n, ha, rfl⟩

/-- The blocks are looked for in the order in which they come. -/
theorem readBlocks_congr (h : Offsets b i d f) (hab : AgreeOn a b 0 24) (hl : 24 ≤ a.length) :
    readBlocks a = if a.length < d then .error .indexBlock
      else if a.length < f then .error .dataBlock else .ok ⟨i, d, f⟩ := by
  have hindex : (a.int32At 12).toInt = i := by
    rw [toInt_int32At (by omega), hab.signedAt (by decide) (by decide), h.index]
  have hdata : (a.int32At 16).toInt = d := by
    rw [toInt_int32At (by omega), hab.signedAt (by decide) (by decide), h.data]
  have hfinal : (a.int32At 20).toInt = f := by
    rw [toInt_int32At (by omega), hab.signedAt (by decide) (by decide), h.final]
  have hge := h.index_ge
  have hle := h.index_le
  have hle' := h.data_le
  simp only [readBlocks, headerLength, hindex, hdata, hfinal]
  rw [if_neg (by omega), if_neg (by omega), if_neg (by omega), if_neg (by omega)]
  by_cases hd : a.length < d
  · rw [if_pos (by omega), if_pos hd]
  · rw [if_neg (by omega), if_neg hd, if_neg (by omega)]
    by_cases hf : a.length < f
    · rw [if_pos (by omega), if_pos hf]
    · rw [if_neg (by omega), if_neg hf]
      rfl

theorem ofBytes_of_readVersion {fault : Fault} (h : readVersion a = .error fault) :
    Catalog.ofBytes a = .error fault := by
  rw [Catalog.ofBytes, Container.ofBytes, h]
  rfl

theorem ofBytes_of_readBlocks {fault : Fault} (hv : VersionHeader a)
    (h : readBlocks a = .error fault) : Catalog.ofBytes a = .error fault := by
  rw [Catalog.ofBytes, Container.ofBytes, readVersion_eq_ok.mpr ⟨hv, rfl⟩, h]
  rfl

/-- A header that is cut short is reported as such, wherever it is cut. -/
theorem ofBytes_of_length_lt (hv : 12 ≤ a.length → VersionHeader a) (hl : a.length < 24) :
    Catalog.ofBytes a = .error .header := by
  by_cases h : 12 ≤ a.length
  · exact ofBytes_of_readBlocks (hv h) (if_pos hl)
  · exact ofBytes_of_readVersion (if_pos (Nat.lt_of_not_le h))

/-- Of a container of which the zone data starts at `d` and ends at `f`, the first bytes are no
container if they do not reach up to `f`: what is missing is reported, the header, the index or the
zone data. If they do, or if there are more bytes, then all zones are read as before, and only the
text at the end is another one. -/
theorem ofBytes_cut (h : Catalog.ofBytes b = .ok c) (hd : b.signedAt 16 = d)
    (hf : b.signedAt 20 = f) (n : Nat) (rest : Bytes) :
    (n < 24 → Catalog.ofBytes (b.take n) = .error .header) ∧
      (24 ≤ n → n < d → Catalog.ofBytes (b.take n) = .error .indexBlock) ∧
      (d ≤ n → n < f → Catalog.ofBytes (b.take n) = .error .dataBlock) ∧
      (f ≤ n →
        Catalog.ofBytes (b.take n) = .ok { c with zoneTab := c.zoneTab.take (n - f) }) ∧
      Catalog.ofBytes (b ++ rest) = .ok { c with zoneTab := c.zoneTab ++ rest } := by
  obtain ⟨i, d', f', k, hformat, rfl⟩ := catalog_ofBytes_eq_ok.mp h
  have hoffsets := hformat.offsets
  obtain rfl : d' = d := Int.ofNat_inj.mp (hoffsets.data.symm.trans hd)
  obtain rfl : f' = f := Int.ofNat_inj.mp (hoffsets.final.symm.trans hf)
  have hdata := hformat.data_ge
  have hle := hoffsets.data_le
  have hfinal := hoffsets.final_le
  have htake := agreeOn_take b n
  have hlength : (b.take n).length = min n b.length := List.length_take
  have hblocks (hn : 24 ≤ n) := readBlocks_congr hoffsets (htake.mono (Nat.le_refl 0) hn) (by omega)
  have hversion (hn : 12 ≤ n) : VersionHeader (b.take n) :=
    hformat.header.congr (htake.mono (Nat.le_refl 0) hn)
  refine ⟨?_, ?_, ?_, ?_, ?_⟩
  · intro hn
    exact ofBytes_of_length_lt (fun h => hversion (by omega)) (by omega)
  · intro hn hlt
    refine ofBytes_of_readBlocks (hversion (by omega)) ?_
    rw [hblocks hn, if_pos (by omega)]
  · intro hn hlt
    refine ofBytes_of_readBlocks (hversion (by omega)) ?_
    rw [hblocks (by omega), if_neg (by omega), if_pos (by omega)]
  · intro hn
    have hab : AgreeOn (b.take n) b 0 f' := htake.mono (Nat.le_refl 0) hn
    rw [ofBytes_of_agreeOn hformat hab (by omega), List.drop_take]
    rfl
  · have hab : AgreeOn (b ++ rest) b 0 f' := (agreeOn_append b rest).mono (Nat.le_refl 0) hfinal
    have hlonger : f' ≤ (b ++ rest).length := by
      rw [List.length_append]
      omega
    rw [ofBytes_of_agreeOn hformat hab hlonger, List.drop_append_of_le_length hfinal]
    rfl

/-- Of two zones with 55 bytes of zone data, behind which there is one more byte. -/
theorem ofBytes_cut_sample :
    let b := World.sampleContainer
    let c := World.sampleCatalog.value
    Catalog.ofBytes b = .ok c ∧ b.signedAt 16 = 128 ∧ b.signedAt 20 = 183 ∧
      Catalog.ofBytes (b.take 23) = .error .header ∧
      Catalog.ofBytes (b.take 127) = .error .indexBlock ∧
      Catalog.ofBytes (b.take 182) = .error .dataBlock ∧
      Catalog.ofBytes (b.take 183) = .ok { c with zoneTab := [] } ∧
      Catalog.ofBytes (b ++ [10]) = .ok { c with zoneTab := c.zoneTab ++ [10] } := by
  intro b c
  have hb : Catalog.ofBytes b = .ok c := World.ofBytes_sampleContainer
  have hd : b.signedAt 16 = 128 := by decide +kernel
  have hf : b.signedAt 20 = 183 := by decide +kernel
  have hcut (n : Nat) := ofBytes_cut hb hd hf n [10]
  obtain ⟨-, -, -, hall, hmore⟩ := hcut 183
  exact ⟨hb, hd, hf, (hcut 23).1 (by decide), (hcut 127).2.1 (by decide) (by decide),
    (hcut 182).2.2.1 (by decide) (by decide), hall (Nat.le_refl _), hmore⟩

end TimeZones.Container
