import TimeZones.Finder.Load
import TimeZones.Proofs.Sessions

/-! Loading catalogs and building finders. Each catalog that comes out is held from then on, and so is
the one that a finder is over. -/
namespace TimeZones

variable {catalogs : List (Shared Catalog)} {catalog : Shared Catalog} {x : CountryIndex}

namespace Catalog
open Session

theorem ofBytes?_eq_ok {b : Bytes} {c : Catalog} : ofBytes? b = .ok c ↔ ofBytes b = .ok c :=
  mapError_eq_ok

theorem ofBytes?_eq_error {b : Bytes} {f : Failure} :
    ofBytes? b = .error f ↔ ∃ fault, ofBytes b = .error fault ∧ f = .root (.container fault) :=
  mapError_eq_error

theorem obtained_of_ofBytes? {b : Bytes} {c : Catalog} (h : ofBytes? b = .ok c) : c.Obtained :=
  Or.inl ⟨b, ofBytes?_eq_ok.mp h⟩

theorem makeBuiltin_spec : Triple (Registry.Sound catalogs) makeBuiltin fun c r =>
    r.Sound (c :: catalogs) :=
  share_catalog_spec (Or.inr rfl)

theorem firstSource_spec (last : Failure) (sources : List (Source × Bytes)) :
    Triple (Registry.Sound catalogs) (firstSource last sources) fun x r =>
      r.Sound (x.toOption.toList ++ catalogs) := by
  induction sources generalizing last with
  | nil => exact Triple.pure fun _ h => h
  | cons p rest ih =>
    obtain ⟨source, b⟩ := p
    rw [firstSource]
    cases hb : ofBytes? b with
    | error f => exact Triple.bind (note_keeps _) fun _ => ih f
    | ok c =>
      refine Triple.bind (note_keeps _) fun _ => ?_
      exact Triple.bind (share_catalog_spec (obtained_of_ofBytes? hb)) fun s =>
        Triple.pure fun _ h => h

theorem tryLoad_spec (primary secondary : Option Bytes) :
    Triple (Registry.Sound catalogs) (tryLoad primary secondary) fun x r =>
      r.Sound (x.toOption.toList ++ catalogs) :=
  firstSource_spec _ _

theorem load_spec (primary secondary : Option Bytes) :
    Triple (Registry.Sound catalogs) (load primary secondary) fun c r =>
      r.Sound (c :: catalogs) := by
  refine Triple.bind (tryLoad_spec primary secondary) fun x => ?_
  cases x with
  | ok c => exact Triple.pure fun _ h => h
  | error f => exact Triple.bind (note_keeps _) fun _ => makeBuiltin_spec

theorem ofFile_spec (files : FileTree) (path : String) :
    Triple (Registry.Sound catalogs) (ofFile files path) fun x r =>
      r.Sound (x.toOption.toList ++ catalogs) := by
  unfold ofFile
  cases files.read path with
  | error f => exact Triple.pure fun _ h => h
  | ok b =>
    dsimp only
    cases hb : ofBytes? b with
    | error f => exact Triple.pure fun _ h => h
    | ok c =>
      refine Triple.bind (note_keeps _) fun _ => ?_
      exact Triple.bind (share_catalog_spec (obtained_of_ofBytes? hb)) fun s =>
        Triple.pure fun _ h => h

theorem firstFile_spec (files : FileTree) (paths : List String) :
    Triple (Registry.Sound catalogs) (firstFile files paths) fun c r =>
      r.Sound (c.toList ++ catalogs) := by
  induction paths with
  | nil => exact Triple.pure fun _ h => h
  | cons path paths ih =>
    refine Triple.bind (ofFile_spec files path) fun x => ?_
    cases x with
    | ok c => exact Triple.pure fun _ h => h
    | error f => exact Triple.bind (note_keeps _) fun _ => ih

theorem ofPaths_spec (files : FileTree) (paths : List String) :
    Triple (Registry.Sound catalogs) (ofPaths files paths) fun c r => r.Sound (c :: catalogs) := by
  refine Triple.bind (firstFile_spec files paths) fun c => ?_
  cases c with
  | some c => exact Triple.pure fun _ h => h
  | none => exact Triple.bind (note_keeps _) fun _ => makeBuiltin_spec

theorem firstLocation_spec (files : FileTree) (paths : List String) :
    Triple (Registry.Sound catalogs) (firstLocation files paths) fun c r =>
      r.Sound (c.toList ++ catalogs) := by
  induction paths with
  | nil => exact Triple.pure fun _ h => h
  | cons path paths ih =>
    refine Triple.bind (note_keeps _) fun _ => Triple.bind (ofFile_spec files path) fun x => ?_
    cases x with
    | ok c => exact Triple.pure fun _ h => h
    | error f => exact Triple.bind (note_keeps _) fun _ => ih

theorem ofLocations_spec (files : FileTree) :
    Triple (Registry.Sound catalogs) (ofLocations files) fun c r => r.Sound (c :: catalogs) := by
  refine Triple.bind (firstLocation_spec files locations) fun c => ?_
  cases c with
  | some c => exact Triple.pure fun _ h => h
  | none => exact Triple.bind (note_keeps _) fun _ => makeBuiltin_spec

theorem ofEnvironment_spec (env : Environment) :
    Triple (Registry.Sound catalogs) (ofEnvironment env) fun c r => r.Sound (c :: catalogs) := by
  unfold ofEnvironment
  cases env.catalogPath with
  | none => exact ofLocations_spec env.files
  | some path =>
    refine Triple.bind (note_keeps _) fun _ => Triple.bind (ofFile_spec env.files path) fun x => ?_
    cases x with
    | ok c => exact Triple.pure fun _ h => h
    | error f => exact Triple.bind (note_keeps _) fun _ => ofLocations_spec env.files

theorem useCatalog_keeps (hc : catalog ∈ catalogs) :
    Keeps (Registry.Sound catalogs) (useCatalog catalog) :=
  fun _ hr => hr.use hc

/-- The catalog in use is held already, and one that is loaded for want of another is held from then
on. -/
theorem current_spec (env : Environment) :
    Triple (Registry.Sound catalogs) (current env) fun c r => r.Sound (c :: catalogs) := by
  refine Triple.get_bind fun s hs => ?_
  cases hinUse : s.catalog with
  | some c => exact Triple.pure fun _ hr => hr.cons_of_mem (hs.catalog_mem c hinUse)
  | none =>
    refine Triple.bind (ofEnvironment_spec env) fun c => ?_
    exact Triple.bind (useCatalog_keeps List.mem_cons_self) fun _ => Triple.pure fun _ hr => hr

theorem install_spec (hc : catalog ∈ catalogs) :
    Triple (Registry.Sound catalogs) (install catalog) fun old r =>
      r.Sound (old.toList ++ catalogs) := by
  refine Triple.get_bind fun s hs => ?_
  cases hinUse : s.catalog with
  | none => exact Triple.bind (useCatalog_keeps hc) fun _ => Triple.pure fun _ hr => hr
  | some old =>
    refine Triple.bind (note_keeps _) fun _ => Triple.bind (useCatalog_keeps hc) fun _ => ?_
    exact Triple.pure fun _ hr => hr.cons_of_mem (hs.catalog_mem old hinUse)

end Catalog

namespace Finder
open Session

/-- No configuration is discarded: of each one what the catalog has is kept. -/
theorem ofIndex_run {y : CountryIndex} (r : Registry)
    (h : (x.validated catalog.value .lenient).value = .ok y) :
    (ofIndex catalog x).run r =
      (⟨catalog, y⟩, { r with log := r.log ++ (x.validated catalog.value .lenient).notes }) := by
  have hlogged : (logged (x.validated catalog.value .lenient)).run r =
      (.ok y, { r with log := r.log ++ (x.validated catalog.value .lenient).notes }) := by
    rw [← h]
    rfl
  rw [ofIndex, StateT.run_bind, hlogged]
  rfl

theorem ofIndex_spec (hc : catalog ∈ catalogs) (hx : x.Obtained) :
    Triple (Registry.Sound catalogs) (ofIndex catalog x) fun f r =>
      r.Sound catalogs ∧ f.IsOver catalogs ∧ f.catalog = catalog := by
  obtain ⟨y, hy⟩ := x.validated_lenient catalog.value
  intro r hr
  rw [ofIndex_run r hy]
  exact ⟨hr.log _, ⟨hc, .validated hx hy, CountryIndex.knownTo_of_validated hy⟩, rfl⟩

theorem ofText_spec (hc : catalog ∈ catalogs) (primary secondary : Option String) :
    Triple (Registry.Sound catalogs) (ofText catalog primary secondary) fun x r =>
      r.Sound catalogs ∧ ∀ f ∈ x.toOption, f.IsOver catalogs := by
  unfold ofText
  cases primary.or secondary with
  | none => exact Triple.pure fun _ hr => ⟨hr, by simp [Except.toOption]⟩
  | some text =>
    refine Gives.bind_triple (logged_gives _) ?_
    cases h : (CountryIndex.parse text .lenient).value with
    | error f => exact Triple.pure fun _ hr => ⟨hr, by simp [Except.toOption]⟩
    | ok x =>
      refine Triple.bind (ofIndex_spec hc (.parsed h)) fun f => Triple.pure ?_
      rintro r ⟨hr, hf, -⟩
      exact ⟨hr, by simpa [Except.toOption] using hf⟩

theorem ofPaths_spec (hc : catalog ∈ catalogs) (files : FileTree) (paths : List String) :
    Triple (Registry.Sound catalogs) (ofPaths files catalog paths) fun f r =>
      r.Sound catalogs ∧ f.IsOver catalogs ∧ f.catalog = catalog := by
  have hgo (rest : List String) :
      Triple (Registry.Sound catalogs) (ofPaths.go files catalog paths rest) fun f r =>
        r.Sound catalogs ∧ f.IsOver catalogs ∧ f.catalog = catalog := by
    induction rest with
    | nil => exact Triple.bind (note_keeps _) fun _ => ofIndex_spec hc .empty
    | cons path rest ih =>
      rw [ofPaths.go]
      cases files.readText path with
      | error f => exact Triple.bind (note_keeps _) fun _ => ih
      | ok text =>
        refine Gives.bind_triple (logged_gives _) ?_
        cases h : (CountryIndex.parse text .lenient).value with
        | ok x => exact Triple.bind (note_keeps _) fun _ => ofIndex_spec hc (.parsed h)
        | error f => exact Triple.bind (note_keeps _) fun _ => ofIndex_spec hc .empty
  exact hgo paths

/-- With a finder its catalog is held, which may be new. -/
theorem ofEnvironment_spec (env : Environment) :
    Triple (Registry.Sound catalogs) (ofEnvironment env) fun f r =>
      r.Sound (f.catalog :: catalogs) ∧ f.IsOver (f.catalog :: catalogs) := by
  refine Triple.bind (Catalog.current_spec env) fun c => ?_
  refine (ofPaths_spec List.mem_cons_self env.files _).weaken ?_
  rintro f r ⟨hr, hf, rfl⟩
  exact ⟨hr, hf⟩

theorem current_spec (env : Environment) :
    Triple (Registry.Sound catalogs) (current env) fun f r =>
      r.Sound (f.catalog :: catalogs) ∧ f.IsOver (f.catalog :: catalogs) := by
  refine Triple.get_bind fun s hs => ?_
  cases hinUse : s.finder with
  | some f =>
    have hf := hs.finder f hinUse
    refine Triple.pure fun _ hr => ⟨hr.cons_of_mem hf.catalog_mem, ?_⟩
    exact hf.mono (List.subset_cons_self _ _)
  | none =>
    refine Triple.bind (ofEnvironment_spec env) fun f => ?_
    rintro r ⟨hr, hf⟩
    exact ⟨hr.useFinder hf, hf⟩

theorem install_spec {f : Finder} (hf : f.IsOver catalogs) :
    Triple (Registry.Sound catalogs) (install f) fun old r =>
      r.Sound catalogs ∧ ∀ g ∈ old, g.IsOver catalogs :=
  fun _ hr => ⟨hr.useFinder hf, hr.finder⟩

end Finder

end TimeZones
