import TimeZones.Proofs.ContainerCuts
import TimeZones.Proofs.FinderSources

/-! The version of a container without the rest of it. It is read from the first bytes of a file,
in which every fault is one of the whole container, but not the other way round. -/
namespace TimeZones

namespace Container
open Bytes

variable {a b : Bytes}

/-- What is read of a version, or wrong with it, is in the first twelve bytes. -/
theorem readVersion_congr (h : AgreeOn a b 0 12) : readVersion a = readVersion b := by
  have hshort : a.length < versionHeaderLength ↔ b.length < versionHeaderLength := by
    have hlast : a[11]? = b[11]? := h 11 (by decide) (by decide)
    rw [versionHeaderLength, Nat.lt_succ_iff, Nat.lt_succ_iff, ← List.getElem?_eq_none_iff, hlast,
      List.getElem?_eq_none_iff]
  have hletters : a.take 6 = b.take 6 := h.take (by decide)
  have hversion : a.slice 6 5 = b.slice 6 5 := h.slice (by decide) (by decide)
  rw [readVersion, readVersion, hletters, hversion, h 11 (by decide) (by decide)]
  simp only [hshort]

theorem readVersion_take (b : Bytes) : readVersion (b.take versionHeaderLength) = readVersion b :=
  readVersion_congr (agreeOn_take b versionHeaderLength)

end Container

namespace Catalog

variable {b : Bytes} {files : FileTree} {path : String}

theorem rulesVersion_of_read (h : files.read path = .ok b) : rulesVersion files path =
    (Container.readVersion b).mapError fun f => (Failure.root (.container f)).atPath path := by
  rw [rulesVersion, h]
  dsimp only
  rw [Container.readVersion_take]
  cases Container.readVersion b <;> rfl

theorem rulesVersion_eq_ok (h : files.read path = .ok b) {v : String} :
    rulesVersion files path = .ok v ↔ Container.readVersion b = .ok v := by
  rw [rulesVersion_of_read h, mapError_eq_ok]

theorem rulesVersion_eq_error (h : files.read path = .ok b) {f : Failure} :
    rulesVersion files path = .error f ↔ ∃ fault, Container.readVersion b = .error fault ∧
      f = (Failure.root (.container fault)).atPath path := by
  rw [rulesVersion_of_read h, mapError_eq_error]

end Catalog

namespace World
open Catalog

/-- The version of the rules in a file is that of its first twelve bytes, whatever comes behind
them. Where there is a catalog, this is its version. Where there is none because of these bytes, the
version is refused for the same reason, and from this file alone the built-in catalog is loaded. -/
theorem rulesVersion_exact (w : World) {files : FileTree} {path : String} {b : Bytes}
    (h : files.read path = .ok b) :
    (∀ files' b', files'.read path = .ok b' → b'.take 12 = b.take 12 →
        rulesVersion files' path = rulesVersion files path) ∧
      (∀ v, rulesVersion files path = .ok v ↔
        Container.VersionHeader b ∧ v = Bytes.text (b.slice 6 5)) ∧
      (∀ c, ofBytes? b = .ok c → rulesVersion files path = .ok c.version) ∧
      ∀ f, rulesVersion files path = .error f →
        ∃ fault, ofBytes? b = .error (.root (.container fault)) ∧
          f = (Failure.root (.container fault)).atPath path ∧
          (w.value (ofPaths files [path])).value = builtin := by
  refine ⟨?_, ?_, ?_, ?_⟩
  · intro files' b' h' htake
    have hsame : Container.readVersion b' = Container.readVersion b := by
      rw [← Container.readVersion_take b', ← Container.readVersion_take b]
      exact congrArg Container.readVersion htake
    rw [rulesVersion_of_read h', rulesVersion_of_read h, hsame]
  · intro v
    rw [rulesVersion_eq_ok h, Container.readVersion_eq_ok]
  · intro c hc
    obtain ⟨i, d, f, n, hformat, hc⟩ := Container.ofBytes_eq_ok_iff.mp (ofBytes?_eq_ok.mp hc)
    rw [rulesVersion_eq_ok h, Container.readVersion_eq_ok]
    exact ⟨hformat.header, hc.version⟩
  · intro f hf
    obtain ⟨fault, hfault, rfl⟩ := (rulesVersion_eq_error h).mp hf
    have hbytes := Container.ofBytes_of_readVersion hfault
    refine ⟨fault, ofBytes?_eq_error.mpr ⟨fault, hbytes, rfl⟩, rfl, ?_⟩
    have hfound : (w.value (ofPaths files [path])).value = (firstIn files [path]).getD builtin :=
      ofPaths_answers files [path] w.registry
    rw [hfound, firstIn, List.findSome?_cons, inFile?_eq_none h hbytes]
    rfl

/-- A container, its first twelve bytes alone, and these with another byte at their end. -/
def sampleVersions : FileTree where
  entries := [(["b"], some sampleContainer), (["d"], some (sampleContainer.take 12)),
    (["n"], some (sampleContainer.take 11 ++ [1]))]
  workingDirectory := []

/-- Without the rest there is a version but no catalog, and with a fault in the version neither. -/
theorem rulesVersion_exact_sample :
    let damaged := sampleContainer.take 11 ++ [1]
    rulesVersion sampleVersions "b" = .ok sampleCatalog.value.version ∧
      rulesVersion sampleVersions "d" = .ok sampleCatalog.value.version ∧
      ofBytes? (sampleContainer.take 12) = .error (.root (.container .header)) ∧
      rulesVersion sampleVersions "n" =
        .error ((Failure.root (.container .versionEnd)).atPath "n") ∧
      ofBytes? damaged = .error (.root (.container .versionEnd)) ∧
      (initial.value (ofPaths sampleVersions ["n"])).value = builtin := by
  intro damaged
  have hwhole : sampleVersions.read "b" = .ok sampleContainer := rfl
  have hcut : sampleVersions.read "d" = .ok (sampleContainer.take 12) := rfl
  have hdamaged : sampleVersions.read "n" = .ok damaged := rfl
  have hheader : Container.VersionHeader (sampleContainer.take 12) := by
    constructor <;> decide +kernel
  obtain ⟨-, -, hcatalog, -⟩ := rulesVersion_exact initial hwhole
  obtain ⟨-, hversion, -, -⟩ := rulesVersion_exact initial hcut
  obtain ⟨-, -, -, herror⟩ := rulesVersion_exact initial hdamaged
  have hrefused : rulesVersion sampleVersions "n" =
      .error ((Failure.root (.container .versionEnd)).atPath "n") :=
    (rulesVersion_eq_error hdamaged).mpr ⟨.versionEnd, by decide +kernel, rfl⟩
  obtain ⟨fault, hfault, hf, hbuiltin⟩ := herror _ hrefused
  obtain rfl : .versionEnd = fault := by cases hf; rfl
  refine ⟨hcatalog _ (ofBytes?_eq_ok.mpr ofBytes_sampleContainer), ?_, ?_, hrefused, hfault,
    hbuiltin⟩
  · exact (hversion _).mpr ⟨hheader, by decide +kernel⟩
  · exact ofBytes?_eq_error.mpr
      ⟨.header, Container.ofBytes_of_length_lt (fun _ => hheader) (by decide +kernel), rfl⟩

end World

end TimeZones
