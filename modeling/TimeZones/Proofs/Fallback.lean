import TimeZones.Proofs.Sources
import TimeZones.Proofs.Transcripts

/-! Loading catalogs at any point of a run: from byte strings, from files, and from what the
environment names. -/
namespace TimeZones

namespace World
open Catalog

/-- Loading with the built-in catalog to fall back on comes to what loading without it does. -/
theorem value_load (w : World) (primary secondary : Option Bytes) :
    (∀ s, w.value (tryLoad primary secondary) = .ok s → w.value (load primary secondary) = s) ∧
      ∀ f, w.value (tryLoad primary secondary) = .error f →
        (w.value (load primary secondary)).value = builtin := by
  constructor
  · intro s hs
    have hrun : ((tryLoad primary secondary).run w.registry).1 = .ok s := hs
    rw [value, load, Session.run_bind, hrun]
    rfl
  · intro f hf
    have hrun : ((tryLoad primary secondary).run w.registry).1 = .error f := hf
    rw [value, load, Session.run_bind, hrun]
    rfl

/-- Whatever the sources are, the first one that can be read is loaded: primary bytes before
secondary ones, files in the order of their paths, and what the environment names before the usual
locations. If there is none, then the failure is that of the last source, or else the built-in
catalog is loaded. So there is a catalog with zones in any case, which is the built-in one exactly
where no source can be read. -/
theorem fallback_exact (w : World) (primary secondary : Option Bytes) (files : FileTree)
    (paths : List String) (env : Environment) :
    let sources := primary.toList ++ secondary.toList
    let tried := w.value (tryLoad primary secondary)
    let loaded := w.value (load primary secondary)
    let found := w.value (ofPaths files paths)
    let configured := w.value (ofEnvironment env)
    let usual := env.catalogPath.toList ++ locations
    TakesFirst sources (.root .noCatalogSource) tried ∧
      (∀ s, tried = .ok s → loaded = s) ∧
      (∀ f, tried = .error f → loaded.value = builtin) ∧
      found.value = (firstIn files paths).getD builtin ∧
      configured.value = (w.value (ofPaths env.files usual)).value ∧
      (∀ s, tried = .ok s → s.value.Stocked (firstOf sources)) ∧
      loaded.value.Stocked (firstOf sources) ∧
      found.value.Stocked (firstIn files paths) ∧
      configured.value.Stocked (firstIn env.files usual) := by
  intro sources tried loaded found configured usual
  have htried : TakesFirst sources (.root .noCatalogSource) tried :=
    tryLoad_answers primary secondary w.registry
  have hfound (files : FileTree) (paths : List String) :
      (w.value (ofPaths files paths)).value = (firstIn files paths).getD builtin :=
    ofPaths_answers files paths w.registry
  have hconfigured : configured.value = (firstIn env.files usual).getD builtin :=
    ofEnvironment_answers env w.registry
  obtain ⟨hok, herror⟩ : (∀ s, tried = .ok s → loaded = s) ∧
      ∀ f, tried = .error f → loaded.value = builtin := w.value_load primary secondary
  have hstocked (s : Shared Catalog) (hs : tried = .ok s) : s.value.Stocked (firstOf sources) := by
    rw [hs] at htried
    obtain ⟨b, hb⟩ := exists_ofBytes_of_firstOf htried.firstOf_eq_some
    rw [htried.firstOf_eq_some]
    exact stocked_of_ofBytes hb
  refine ⟨htried, hok, herror, hfound files paths, ?_, hstocked, ?_, ?_, ?_⟩
  · rw [hconfigured, hfound]
  · cases hx : tried with
    | ok s =>
      rw [hok s hx]
      exact hstocked s hx
    | error f =>
      rw [hx] at htried
      rw [herror f hx, htried.firstOf_eq_none]
      exact stocked_builtin
  · rw [hfound]
    exact stocked_getD fun _ => exists_ofBytes_of_firstIn
  · rw [hconfigured]
    exact stocked_getD fun _ => exists_ofBytes_of_firstIn

/-- An empty file in the working directory, and a container at the last of the usual locations. -/
def sampleDisk : FileTree where
  entries := [(["home", "b"], some []),
    (["system", "usr", "share", "zoneinfo", "tzdata"], some sampleContainer)]
  workingDirectory := ["home"]

theorem inFile?_sampleDisk :
    (∀ path ∈ ["b", "/home/b", "c", "/"], inFile? sampleDisk path = none) ∧
      ∀ path ∈ ["/system/usr/share/zoneinfo/tzdata", "../system/usr/share/zoneinfo/tzdata"],
        inFile? sampleDisk path = some sampleCatalog.value := by
  have hbad : ofBytes [] = .error .header := rfl
  constructor
  · simp only [List.forall_mem_cons]
    exact ⟨inFile?_eq_none rfl hbad, inFile?_eq_none rfl hbad, rfl, rfl, List.forall_mem_nil _⟩
  · simp only [List.forall_mem_cons]
    exact ⟨inFile?_eq_some rfl ofBytes_sampleContainer,
      inFile?_eq_some rfl ofBytes_sampleContainer, List.forall_mem_nil _⟩

/-- The secondary bytes are loaded where the primary ones are no container, and the built-in catalog
where there are no others. Of paths the one behind the empty file counts. Where the environment
names the empty file, it is the last of the usual locations that does. -/
theorem fallback_exact_sample :
    let files := sampleDisk
    (initial.value (load (some []) (some sampleContainer))).value = sampleCatalog.value ∧
      initial.value (tryLoad (some []) none) = .error (.root (.container .header)) ∧
      (initial.value (load (some []) none)).value.isBuiltin = true ∧
      (initial.value (ofPaths files ["c", "b", "../system/usr/share/zoneinfo/tzdata"])).value =
        sampleCatalog.value ∧
      (initial.value (ofPaths files ["c", "b", "/"])).value.isBuiltin = true ∧
      (initial.value (ofEnvironment ⟨files, some "/home/b", none⟩)).value = sampleCatalog.value ∧
      (initial.value (ofEnvironment ⟨⟨[], []⟩, some "/home/b", none⟩)).value.isBuiltin = true := by
  intro files
  obtain ⟨hempty, hfull⟩ := inFile?_sampleDisk
  have hbad : ofBytes [] = .error .header := rfl
  have hsecond : firstOf [[], sampleContainer] = some sampleCatalog.value := by
    simp [firstOf, hbad, ofBytes_sampleContainer, Except.toOption]
  have hnone : firstOf [[]] = none := by simp [firstOf, hbad, Except.toOption]
  have hbehind : firstIn files ["c", "b", "../system/usr/share/zoneinfo/tzdata"] =
      some sampleCatalog.value := by
    rw [firstIn_cons, firstIn_cons, firstIn_cons, hempty "c" (by simp), hempty "b" (by simp),
      hfull _ (by simp)]
    rfl
  have husual : firstIn files ("/home/b" :: locations) = some sampleCatalog.value := by
    have happ : inFile? files "/apex/com.android.tzdata/etc/tz/tzdata" = none := rfl
    have hdata : inFile? files "/data/misc/zoneinfo/current/tzdata" = none := rfl
    rw [locations, firstIn_cons, firstIn_cons, firstIn_cons, firstIn_cons,
      hempty "/home/b" (by simp), happ, hdata, hfull _ (by simp)]
    rfl
  have hnowhere : firstIn files ["c", "b", "/"] = none := by
    rw [firstIn_cons, firstIn_cons, firstIn_cons, hempty "c" (by simp), hempty "b" (by simp),
      hempty "/" (by simp)]
    rfl
  obtain ⟨hboth, hsame, -, hfound, hconfigured, -⟩ :=
    fallback_exact initial (some []) (some sampleContainer) files
      ["c", "b", "../system/usr/share/zoneinfo/tzdata"] ⟨files, some "/home/b", none⟩
  obtain ⟨-, -, -, hpaths, -⟩ := fallback_exact initial none none files ("/home/b" :: locations)
    ⟨files, none, none⟩
  obtain ⟨hone, -, -, -, -, -, hloaded, hlost, hmissing⟩ :=
    fallback_exact initial (some []) none files ["c", "b", "/"] ⟨⟨[], []⟩, some "/home/b", none⟩
  refine ⟨?_, ?_, hloaded.isBuiltin_iff.mpr hnone, ?_, hlost.isBuiltin_iff.mpr hnowhere, ?_,
    hmissing.isBuiltin_iff.mpr rfl⟩
  · obtain ⟨s, hs, hvalue⟩ := map_eq_ok.mp ((hboth.ok_iff _).mpr hsecond)
    rw [hsame s hs, hvalue]
  · cases hx : initial.value (tryLoad (some []) none) with
    | ok s =>
      rw [hx] at hone
      cases hnone.symm.trans hone.firstOf_eq_some
    | error f =>
      rcases hone.of_error f hx with ⟨hnil, -⟩ | ⟨b, hb, fault, hfault, rfl⟩
      · cases hnil
      · obtain rfl : [] = b := Option.some.inj hb
        rw [← Except.error.inj (hbad.symm.trans hfault)]
  · rw [hfound, hbehind]
    rfl
  · exact hconfigured.trans (hpaths.trans (by rw [husual]; rfl))

end World

end TimeZones
