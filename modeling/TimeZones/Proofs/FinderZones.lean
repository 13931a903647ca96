import Mathlib.Logic.Relation
import TimeZones.Proofs.Resolution
import TimeZones.Proofs.Transcripts

/-! Finders in the course of a run. However one is built, its configuration names only zones of its
own catalog, whichever catalogs are put in use later on. -/
namespace TimeZones

namespace World
open Catalog Relation

variable {α : Type} {w u v : World} {f : Finder} {m : Session α}

/-- What callers hold, they hold from then on. -/
structure GrowsTo (w v : World) : Prop where
  catalogs : w.catalogs ⊆ v.catalogs
  finders : w.finders ⊆ v.finders

theorem GrowsTo.refl (w : World) : w.GrowsTo w := ⟨List.Subset.refl _, List.Subset.refl _⟩

theorem GrowsTo.trans (huw : u.GrowsTo w) (hwv : w.GrowsTo v) : u.GrowsTo v :=
  ⟨List.Subset.trans huw.catalogs hwv.catalogs, List.Subset.trans huw.finders hwv.finders⟩

theorem growsTo_after : w.GrowsTo (w.after m) := ⟨List.Subset.refl _, List.Subset.refl _⟩

theorem growsTo_gain {catalogs : α → List (Shared Catalog)} : w.GrowsTo (w.gain m catalogs) :=
  ⟨List.subset_append_right _ _, List.Subset.refl _⟩

theorem growsTo_gainFinders {finders : α → List Finder} : w.GrowsTo (w.gainFinders m finders) :=
  ⟨List.subset_append_right _ _, List.subset_append_right _ _⟩

theorem Step.growsTo (h : Step w v) : w.GrowsTo v := by
  cases h <;> first | exact growsTo_after | exact growsTo_gain | exact growsTo_gainFinders

theorem growsTo_of_run (h : ReflTransGen Step w v) : w.GrowsTo v := by
  induction h with
  | refl => exact .refl w
  | tail _ hs ih => exact ih.trans hs.growsTo

/-- The finders that callers can have at a point of a run, and the world from which on they have
them: those that they hold, the one in use, and those that they can build there. Building one from
the environment, or asking for the one in use before there is any, may put a catalog in use. -/
inductive Provides (w : World) : Finder → World → Prop where
  | held {f : Finder} : f ∈ w.finders → Provides w f w
  | inUse {f : Finder} : f ∈ w.registry.finder → Provides w f w
  | ofIndex {c : Shared Catalog} (x : CountryIndex) : c ∈ w.catalogs →
      Provides w (w.value (Finder.ofIndex c x)) w
  | ofText {c : Shared Catalog} {f : Finder} (primary secondary : Option String) :
      c ∈ w.catalogs → w.value (Finder.ofText c primary secondary) = .ok f → Provides w f w
  | ofPaths {c : Shared Catalog} (files : FileTree) (paths : List String) : c ∈ w.catalogs →
      Provides w (w.value (Finder.ofPaths files c paths)) w
  | ofEnvironment (env : Environment) :
      Provides w (w.value (Finder.ofEnvironment env))
        (w.gainFinders (Finder.ofEnvironment env) fun f => [f])
  | current (env : Environment) :
      Provides w (w.value (Finder.current env)) (w.gainFinders (Finder.current env) fun f => [f])

theorem Provides.knownTo (hw : w.Reachable) (hf : w.Provides f u) :
    f.catalog ∈ u.catalogs ∧ f.index.KnownTo f.catalog.value := by
  have hover {f : Finder} {u : World} (h : f.IsOver u.catalogs) :
      f.catalog ∈ u.catalogs ∧ f.index.KnownTo f.catalog.value := ⟨h.catalog_mem, h.known⟩
  have hregistry := hw.sound.registry
  cases hf with
  | held h => exact hover (hw.sound.finders f h)
  | inUse h => exact hover (hregistry.finder f h)
  | ofIndex x hc =>
    obtain ⟨y, hy⟩ := x.validated_lenient _
    rw [value, Finder.ofIndex_run w.registry hy]
    exact ⟨hc, CountryIndex.knownTo_of_validated hy⟩
  | ofText primary secondary hc h =>
    have hspec := (Finder.ofText_spec hc primary secondary w.registry hregistry).2
    exact hover (hspec f (toOption_eq_some.mpr h))
  | ofPaths files paths hc =>
    exact hover (Finder.ofPaths_spec hc files paths w.registry hregistry).2.1
  | ofEnvironment env => exact hover (Finder.ofEnvironment_spec env w.registry hregistry).2
  | current env => exact hover (Finder.current_spec env w.registry hregistry).2

/-- At every later point of a run a finder is still held, and its catalog has all zones and defaults
of its configuration. Building a finder never fails to validate, whatever the configuration and the
catalog are, so that none is discarded. -/
theorem hasZone_of_provides (hw : w.Reachable) (hf : w.Provides f u)
    (hrun : ReflTransGen Step u v) :
    (f ∈ u.finders → f ∈ v.finders) ∧ f.catalog ∈ v.catalogs ∧
      (∀ c ∈ f.index.countries, ∀ id, id ∈ c.zoneIds ∨ id ∈ c.defaultZoneId →
        v.value (Call.hasZone f.catalog id).run = .known true) ∧
      ∀ (catalog : Shared Catalog) (x : CountryIndex) (r : Registry), ∃ y notes,
        x.validated catalog.value .lenient = ⟨.ok y, notes⟩ ∧
          (Finder.ofIndex catalog x).run r = (⟨catalog, y⟩, { r with log := r.log ++ notes }) ∧
          ∀ n ∈ notes, n.LeavesOut catalog.value := by
  have hgrows := growsTo_of_run hrun
  obtain ⟨hcatalog, hknown⟩ := hf.knownTo hw
  refine ⟨fun h => hgrows.finders h, hgrows.catalogs hcatalog, ?_, ?_⟩
  · intro c hc id hid
    have hzone : f.catalog.value.hasZone id = true :=
      hid.elim ((hknown c hc).zones id) ((hknown c hc).default id)
    exact congrArg Answer.known hzone
  · intro catalog x r
    obtain ⟨y, hy⟩ := x.validated_lenient catalog.value
    refine ⟨y, (x.validated catalog.value .lenient).notes, ?_, Finder.ofIndex_run r hy, ?_⟩
    · rw [← hy]
    · exact fun n hn => CountryIndex.leavesOut_of_validated hn

def greenwich : CountryIndex := oneCountry ["GMT"]

/-- A finder over the built-in catalog. -/
def greenwichFinder : Finder := ⟨⟨1, .builtin⟩, greenwich⟩

theorem greenwich_obtained : greenwich.Obtained := by
  have h : (CountryIndex.parse ("<timezones><countryzones><country code='GB'>" ++
      "<id>GMT</id></country></countryzones></timezones>") .lenient).value.toOption =
      some greenwich := by decide +kernel
  exact .parsed (toOption_eq_some.mp h)

/-- A finder keeps its own catalog when another one is put in use that does not have its zone. -/
theorem hasZone_of_provides_greenwich :
    let held := (initial.gain (Session.share sampleCatalog.value) fun c => [c]).gain makeBuiltin
      fun c => [c]
    let w := held.gainFinders (Finder.ofIndex greenwichFinder.catalog greenwich) fun f => [f]
    let v := w.gain (Catalog.install sampleCatalog) fun old => old.toList
    w.Reachable ∧ w.Provides greenwichFinder w ∧ ReflTransGen Step w v ∧
      v.value (Call.hasZone greenwichFinder.catalog "GMT").run = .known true ∧
      v.registry.catalog = some sampleCatalog ∧
      v.value (Call.hasZone sampleCatalog "GMT").run = .known false := by
  intro held w v
  have hkept : (greenwich.validated greenwichFinder.catalog.value .lenient).value.toOption =
      some greenwich := by decide +kernel
  have hw : w.Reachable :=
    .step (.step (.step .initial (.ofBytes ofBytes_sampleContainer)) .makeBuiltin)
      (.finderOfIndex List.mem_cons_self greenwich_obtained)
  have hf : w.Provides greenwichFinder w := by
    refine .held ?_
    have hvalue : ((Finder.ofIndex greenwichFinder.catalog greenwich).run held.registry).1 =
        greenwichFinder := ofIndex_value held.registry (toOption_eq_some.mp hkept)
    rw [← hvalue]
    exact List.mem_cons_self
  have hheld : sampleCatalog ∈ held.catalogs := List.mem_cons_of_mem _ List.mem_cons_self
  have hrun : ReflTransGen Step w v := .single (.install (List.mem_append_right _ hheld))
  have hmissing : sampleCatalog.value.hasZone "GMT" = false := by decide +kernel
  obtain ⟨-, -, hzone, -⟩ := hasZone_of_provides hw hf hrun
  refine ⟨hw, hf, hrun, ?_, rfl, congrArg Answer.known hmissing⟩
  exact hzone ⟨"gb", none, false, [⟨"GMT", true, none⟩]⟩
    (by simp [greenwichFinder, greenwich, oneCountry]) "GMT" (Or.inl List.mem_cons_self)

end World

end TimeZones
