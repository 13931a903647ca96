import TimeZones.Proofs.Fallback
import TimeZones.Proofs.FinderZones

/-! Where finders get their configurations from. The first file that is text counts, even if the
text is no configuration, and of two texts the primary one, likewise. Catalogs are different: what
is no container is passed over. -/
namespace TimeZones

namespace FileTree

variable {t : FileTree} {path text : String} {paths : List String}

/-- At the end of a path there is a file, and its contents are a text in UTF-8. -/
def HasText (t : FileTree) (path text : String) : Prop :=
  t.open? path = .ok (.file text.toUTF8.data.toList)

/-- There is no file, or one with other contents than text. -/
def IsUnreadable (t : FileTree) (path : String) : Prop := ∀ text, ¬ t.HasText path text

theorem fromUTF8?_eq_some_iff {b : ByteArray} :
    String.fromUTF8? b = some text ↔ text.toUTF8 = b := by
  rw [String.fromUTF8?]
  constructor
  · intro h
    split at h
    · rw [← Option.some.inj h]
      rfl
    · cases h
  · rintro rfl
    exact Container.fromUTF8?_toUTF8 text

theorem read_eq_ok {b : Bytes} : t.read path = .ok b ↔ t.open? path = .ok (.file b) := by
  rw [read]
  split
  · rename_i f h
    simp [h]
  · rename_i h
    simp [h]
  · rename_i contents h
    simp [h]

theorem readText_eq_ok : t.readText path = .ok text ↔ t.HasText path text := by
  rw [HasText, ← read_eq_ok, readText]
  cases t.read path with
  | error f => simp
  | ok b =>
    have htext : String.fromUTF8? ⟨b.toArray⟩ = some text ↔ text.toUTF8 = ⟨b.toArray⟩ :=
      fromUTF8?_eq_some_iff
    have hbytes : text.toUTF8 = ⟨b.toArray⟩ ↔ b = text.toUTF8.data.toList := by
      constructor
      · intro h
        rw [h]
      · rintro rfl
        rfl
    dsimp only
    rw [Except.ok.injEq, ← hbytes, ← htext]
    cases String.fromUTF8? ⟨b.toArray⟩ with
    | none => simp
    | some s => simp

theorem isUnreadable_of_error {f : Fault} (h : t.readText path = .error f) :
    t.IsUnreadable path := by
  intro text htext
  rw [readText_eq_ok.mpr htext] at h
  cases h

end FileTree

/-- What a text has a finder know: what the catalog has of the configuration, or nothing if the text
is no configuration. -/
structure CountryIndex.ComesOf (catalog : Catalog) (text : String) (y : CountryIndex) : Prop where
  of_ok : ∀ x, (parse text .lenient).value = .ok x → (x.validated catalog .lenient).value = .ok y
  of_error : ∀ f, (parse text .lenient).value = .error f → y = .empty

namespace CountryIndex

variable {catalog : Catalog} {text : String} {x y : CountryIndex} {f : Country.Fault}

theorem comesOf_of_ok (h : (parse text .lenient).value = .ok x)
    (hy : (x.validated catalog .lenient).value = .ok y) : y.ComesOf catalog text := by
  refine ⟨fun x' hx' => ?_, fun f hf => ?_⟩
  · obtain rfl := Except.ok.inj (h.symm.trans hx')
    exact hy
  · cases h.symm.trans hf

theorem comesOf_of_error (h : (parse text .lenient).value = .error f) :
    empty.ComesOf catalog text := by
  refine ⟨fun x hx => ?_, fun _ _ => rfl⟩
  cases h.symm.trans hx

end CountryIndex

namespace Finder
open Session

variable {files : FileTree} {catalog : Shared Catalog} {paths : List String} {path text : String}
  {f : Finder} {x : CountryIndex}

/-- The first text in files counts, whatever comes before and behind it. Without any the finder
knows no countries. -/
structure UsesFirst (files : FileTree) (catalog : Shared Catalog) (paths : List String)
    (f : Finder) : Prop where
  catalog_eq : f.catalog = catalog
  index_of_first : ∀ before path after text, paths = before ++ path :: after →
    (∀ p ∈ before, files.IsUnreadable p) → files.HasText path text →
    f.index.ComesOf catalog.value text
  index_of_none : (∀ p ∈ paths, files.IsUnreadable p) → f.index = .empty

theorem UsesFirst.skip (h : UsesFirst files catalog paths f) (hpath : files.IsUnreadable path) :
    UsesFirst files catalog (path :: paths) f := by
  refine ⟨h.catalog_eq, ?_, fun hnone => h.index_of_none (List.forall_mem_cons.mp hnone).2⟩
  intro before p after text heq hbefore htext
  cases before with
  | nil =>
    obtain ⟨rfl, -⟩ := List.cons.inj heq
    exact (hpath text htext).elim
  | cons q before =>
    obtain ⟨-, rfl⟩ := List.cons.inj heq
    exact h.index_of_first before p after text rfl (List.forall_mem_cons.mp hbefore).2 htext

theorem usesFirst_cons (hcatalog : f.catalog = catalog) (htext : files.HasText path text)
    (hindex : f.index.ComesOf catalog.value text) : UsesFirst files catalog (path :: paths) f := by
  refine ⟨hcatalog, ?_, fun hnone => ((List.forall_mem_cons.mp hnone).1 text htext).elim⟩
  intro before p after text' heq hbefore htext'
  cases before with
  | nil =>
    obtain ⟨rfl, -⟩ := List.cons.inj heq
    have hread := FileTree.readText_eq_ok.mpr htext'
    obtain rfl := Except.ok.inj ((FileTree.readText_eq_ok.mpr htext).symm.trans hread)
    exact hindex
  | cons q before =>
    obtain ⟨rfl, -⟩ := List.cons.inj heq
    exact ((List.forall_mem_cons.mp hbefore).1 text htext).elim

/-- What a finder is built to does not depend on the registry. -/
theorem ofIndex_settled (catalog : Shared Catalog) (x : CountryIndex) :
    ∃ f : Finder, f.catalog = catalog ∧
      (x.validated catalog.value .lenient).value = .ok f.index ∧
      Answers (ofIndex catalog x) (· = f) := by
  obtain ⟨y, hy⟩ := x.validated_lenient catalog.value
  exact ⟨⟨catalog, y⟩, rfl, hy, fun r => ofIndex_value r hy⟩

theorem ofIndex_empty_settled (catalog : Shared Catalog) :
    ∃ f : Finder, f.catalog = catalog ∧ f.index = .empty ∧
      Answers (ofIndex catalog .empty) (· = f) := by
  obtain ⟨f, hcatalog, hindex, hf⟩ := ofIndex_settled catalog .empty
  exact ⟨f, hcatalog, (Except.ok.inj hindex).symm, hf⟩

theorem ofPaths_settled (files : FileTree) (catalog : Shared Catalog) (paths : List String) :
    ∃ f, UsesFirst files catalog paths f ∧ Answers (ofPaths files catalog paths) (· = f) := by
  have hgo (rest : List String) : ∃ f, UsesFirst files catalog rest f ∧
      Answers (ofPaths.go files catalog paths rest) (· = f) := by
    induction rest with
    | nil =>
      obtain ⟨f, hcatalog, hindex, hf⟩ := ofIndex_empty_settled catalog
      exact ⟨f, ⟨hcatalog, by simp, fun _ => hindex⟩, Answers.note_bind hf⟩
    | cons path rest ih =>
      rw [ofPaths.go]
      cases htext : files.readText path with
      | error f =>
        have hpath := FileTree.isUnreadable_of_error htext
        exact ih.imp fun _ h => ⟨h.1.skip hpath, Answers.note_bind h.2⟩
      | ok text =>
        have htext := FileTree.readText_eq_ok.mp htext
        cases hparse : (CountryIndex.parse text .lenient).value with
        | ok x =>
          obtain ⟨f, hcatalog, hindex, hf⟩ := ofIndex_settled catalog x
          have hcomes := CountryIndex.comesOf_of_ok hparse hindex
          refine ⟨f, usesFirst_cons hcatalog htext hcomes, Answers.logged_bind ?_⟩
          rw [hparse]
          exact Answers.note_bind hf
        | error fault =>
          obtain ⟨f, hcatalog, hindex, hf⟩ := ofIndex_empty_settled catalog
          have hcomes : f.index.ComesOf catalog.value text :=
            hindex ▸ CountryIndex.comesOf_of_error hparse
          refine ⟨f, usesFirst_cons hcatalog htext hcomes, Answers.logged_bind ?_⟩
          rw [hparse]
          exact Answers.note_bind hf
  exact hgo paths

/-- The primary text counts if there is one, and otherwise the secondary one. -/
inductive Chooses : Option String → Option String → String → Prop where
  | primary {text : String} {secondary : Option String} : Chooses (some text) secondary text
  | secondary {text : String} : Chooses none (some text) text

theorem or_eq_some_iff_chooses {primary secondary : Option String} :
    primary.or secondary = some text ↔ Chooses primary secondary text := by
  constructor
  · intro h
    cases primary with
    | some s =>
      obtain rfl := Option.some.inj h
      exact .primary
    | none =>
      rw [Option.none_or] at h
      rw [h]
      exact .secondary
  · intro h
    cases h with
    | primary => rfl
    | secondary => rfl

/-- Of two texts one is read, and if that fails then so does building the finder. -/
structure Heeds (catalog : Shared Catalog) (primary secondary : Option String)
    (x : Except Failure Finder) : Prop where
  of_none : primary = none → secondary = none → x = .error (.root .noFinderSource)
  of_error : ∀ text fault, Chooses primary secondary text →
    (CountryIndex.parse text .lenient).value = .error fault → x = .error (.root (.country fault))
  of_ok : ∀ text y, Chooses primary secondary text →
    (CountryIndex.parse text .lenient).value = .ok y →
    ∃ f, x = .ok f ∧ f.catalog = catalog ∧ (y.validated catalog.value .lenient).value = .ok f.index

theorem ofText_answers (catalog : Shared Catalog) (primary secondary : Option String) :
    Answers (ofText catalog primary secondary) (Heeds catalog primary secondary) := by
  rw [ofText]
  cases hor : primary.or secondary with
  | none =>
    refine Answers.pure ⟨fun _ _ => rfl, ?_, ?_⟩
    · intro text fault hchooses
      cases hor.symm.trans (or_eq_some_iff_chooses.mpr hchooses)
    · intro text y hchooses
      cases hor.symm.trans (or_eq_some_iff_chooses.mpr hchooses)
  | some text =>
    have honly {text' : String} (h : Chooses primary secondary text') : text = text' :=
      Option.some.inj (hor.symm.trans (or_eq_some_iff_chooses.mpr h))
    have hpresent (hp : primary = none) (hs : secondary = none) : False := by
      rw [hp, hs] at hor
      cases hor
    refine Answers.logged_bind ?_
    cases hparse : (CountryIndex.parse text .lenient).value with
    | error fault =>
      refine Answers.pure ⟨fun hp hs => (hpresent hp hs).elim, ?_, ?_⟩
      · intro text' fault' hchooses hparse'
        obtain rfl := honly hchooses
        rw [Except.error.inj (hparse.symm.trans hparse')]
      · intro text' y hchooses hparse'
        obtain rfl := honly hchooses
        cases hparse.symm.trans hparse'
    | ok x =>
      obtain ⟨f, hcatalog, hindex, hf⟩ := ofIndex_settled catalog x
      refine Answers.bind hf ?_
      rintro _ rfl
      refine Answers.pure ⟨fun hp hs => (hpresent hp hs).elim, ?_, ?_⟩
      · intro text' fault hchooses hparse'
        obtain rfl := honly hchooses
        cases hparse.symm.trans hparse'
      · intro text' y hchooses hparse'
        obtain rfl := honly hchooses
        obtain rfl := Except.ok.inj (hparse.symm.trans hparse')
        exact ⟨_, rfl, hcatalog, hindex⟩

end Finder

namespace World
open Catalog

theorem value_ofEnvironment (w : World) (env : Environment) :
    w.value (Finder.ofEnvironment env) = w.value (Finder.ofPaths env.files (w.value (current env))
      (env.configurationPath.toList ++ Finder.locations)) := by
  obtain ⟨f, -, hf⟩ := Finder.ofPaths_settled env.files (w.value (current env))
    (env.configurationPath.toList ++ Finder.locations)
  exact (hf ((current env).run w.registry).2).trans (hf w.registry).symm

theorem value_current_of_none {w : World} (h : w.registry.catalog = none) (env : Environment) :
    w.value (current env) = w.value (ofEnvironment env) := by
  obtain ⟨notes, -, hrun⟩ := current_of_none h env
  obtain ⟨notes', -, hloads⟩ := ofEnvironment_loads env
  exact (congrArg Prod.fst hrun).trans (congrArg Prod.fst (hloads w.registry)).symm

/-- Whatever the files and texts are, a finder uses the first text: of files the first that can be
read as text, without regard to those behind it if the text is no configuration, and the primary one
of two, which must be a configuration. The environment only puts a path in front of the usual
locations, and the catalog is the one in use, which is that of the environment if there was none. A
catalog in turn is looked for in the files behind one that is no container. -/
theorem finderSources_exact (w : World) (files : FileTree) (catalog : Shared Catalog)
    (paths : List String) (env : Environment) (primary secondary : Option String) :
    let inUse := w.value (current env)
    Finder.UsesFirst files catalog paths (w.value (Finder.ofPaths files catalog paths)) ∧
      w.value (Finder.ofEnvironment env) = w.value (Finder.ofPaths env.files inUse
        (env.configurationPath.toList ++ Finder.locations)) ∧
      (∀ c ∈ w.registry.catalog, inUse = c) ∧
      (w.registry.catalog = none → inUse = w.value (ofEnvironment env)) ∧
      Finder.Heeds catalog primary secondary (w.value (Finder.ofText catalog primary secondary)) ∧
      ∀ path b fault, files.read path = .ok b → ofBytes b = .error fault →
        (w.value (ofPaths files (path :: paths))).value =
          (w.value (ofPaths files paths)).value := by
  intro inUse
  refine ⟨?_, w.value_ofEnvironment env, ?_, fun h => value_current_of_none h env,
    Finder.ofText_answers catalog primary secondary w.registry, ?_⟩
  · obtain ⟨f, hfirst, hf⟩ := Finder.ofPaths_settled files catalog paths
    rw [value, hf w.registry]
    exact hfirst
  · intro c hc
    exact congrArg Prod.fst (current_of_some hc env)
  · intro path b fault hread hfault
    have hfound (paths : List String) :
        (w.value (ofPaths files paths)).value = (firstIn files paths).getD builtin :=
      ofPaths_answers files paths w.registry
    rw [hfound, hfound, firstIn_cons, inFile?_eq_none hread hfault, Option.none_or]

def sampleText : String :=
  "<timezones><countryzones><country code='GB'>" ++
    "<id>GMT</id><id>Etc/UTC</id></country></countryzones></timezones>"

/-- In the working directory there are a file that is not text, a directory, a text that is no
configuration and one that is. A container and the same configuration are at the last of the usual
locations. -/
def sampleFiles : FileTree where
  entries := [(["home", "b"], some [0xFF]), (["home", "d"], none),
    (["home", "n"], some "GMT".toUTF8.data.toList),
    (["home", "z"], some sampleText.toUTF8.data.toList),
    (["system", "usr", "share", "zoneinfo", "tzdata"], some sampleContainer),
    (["system", "usr", "share", "zoneinfo", "tzlookup.xml"], some sampleText.toUTF8.data.toList)]
  workingDirectory := ["home"]

theorem value_ofEnvironment_sampleFiles :
    (initial.value (ofEnvironment ⟨sampleFiles, none, some "b"⟩)).value = sampleCatalog.value := by
  have hfirst : firstIn sampleFiles locations = some sampleCatalog.value := by
    have happ : inFile? sampleFiles "/apex/com.android.tzdata/etc/tz/tzdata" = none := rfl
    have hdata : inFile? sampleFiles "/data/misc/zoneinfo/current/tzdata" = none := rfl
    have hlast : inFile? sampleFiles "/system/usr/share/zoneinfo/tzdata" =
        some sampleCatalog.value := inFile?_eq_some rfl ofBytes_sampleContainer
    rw [locations, firstIn_cons, firstIn_cons, firstIn_cons, happ, hdata, hlast]
    rfl
  rw [value, ofEnvironment_answers _ initial.registry, Option.toList_none, List.nil_append, hfirst]
  rfl

/-- The configuration is found behind what is no text, but not behind a text that is none. Where the
environment names a file that is no text, both the catalog and the configuration are found at the
usual locations. -/
theorem finderSources_exact_sample :
    let catalog : Shared Catalog := ⟨0, .builtin⟩
    let found := initial.value (Finder.ofPaths sampleFiles catalog ["b", "d", "z", "n"])
    let lost := initial.value (Finder.ofPaths sampleFiles catalog ["d", "n", "z"])
    let configured := initial.value (Finder.ofEnvironment ⟨sampleFiles, none, some "b"⟩)
    found.index = oneCountry ["GMT"] ∧ lost.index = .empty ∧
      configured.catalog.value = sampleCatalog.value ∧ configured.index = oneCountry ["Etc/UTC"] ∧
      initial.value (Finder.ofText catalog (some "GMT") (some sampleText)) =
        .error (.root (.country .missingRoot)) := by
  intro catalog found lost configured
  have hbytes : sampleFiles.IsUnreadable "b" := FileTree.isUnreadable_of_error (f := .notText) rfl
  have hdirectory : sampleFiles.IsUnreadable "d" :=
    FileTree.isUnreadable_of_error (f := .isDirectory) rfl
  have happ : sampleFiles.IsUnreadable "/apex/com.android.tzdata/etc/tz/tzlookup.xml" :=
    FileTree.isUnreadable_of_error (f := .notFound) rfl
  have hdata : sampleFiles.IsUnreadable "/data/misc/zoneinfo/current/tzlookup.xml" :=
    FileTree.isUnreadable_of_error (f := .notFound) rfl
  have hparse : (CountryIndex.parse sampleText .lenient).value =
      .ok (oneCountry ["GMT", "Etc/UTC"]) := toOption_eq_some.mp (by decide +kernel)
  have hrefused : (CountryIndex.parse "GMT" .lenient).value = .error .missingRoot := by
    decide +kernel
  obtain ⟨hfound, -, -, -, htext, -⟩ := finderSources_exact initial sampleFiles catalog
    ["b", "d", "z", "n"] ⟨sampleFiles, none, none⟩ (some "GMT") (some sampleText)
  obtain ⟨hlost, hsame, -, hnone, -⟩ := finderSources_exact initial sampleFiles catalog
    ["d", "n", "z"] ⟨sampleFiles, none, some "b"⟩ none none
  obtain ⟨hconfigured, -⟩ := finderSources_exact initial sampleFiles
    (initial.value (current ⟨sampleFiles, none, some "b"⟩))
    ((some "b").toList ++ Finder.locations) ⟨sampleFiles, none, none⟩ none none
  rw [← hsame, hnone rfl] at hconfigured
  have hcatalog : configured.catalog.value = sampleCatalog.value := by
    rw [← value_ofEnvironment_sampleFiles]
    exact congrArg Shared.value hconfigured.catalog_eq
  refine ⟨?_, ?_, hcatalog, ?_, htext.of_error _ _ .primary hrefused⟩
  · have hkept : ((oneCountry ["GMT", "Etc/UTC"]).validated catalog.value .lenient).value =
        .ok (oneCountry ["GMT"]) := toOption_eq_some.mp (by decide +kernel)
    have hcomes := hfound.index_of_first ["b", "d"] "z" ["n"] sampleText rfl
      (List.forall_mem_cons.mpr ⟨hbytes, List.forall_mem_singleton.mpr hdirectory⟩) rfl
    exact (Except.ok.inj (hkept.symm.trans (hcomes.of_ok _ hparse))).symm
  · have hcomes := hlost.index_of_first ["d"] "n" ["z"] "GMT" rfl
      (List.forall_mem_singleton.mpr hdirectory) rfl
    exact hcomes.of_error _ hrefused
  · have hkept : ((oneCountry ["GMT", "Etc/UTC"]).validated sampleCatalog.value .lenient).value =
        .ok (oneCountry ["Etc/UTC"]) := toOption_eq_some.mp (by decide +kernel)
    have hcomes := hconfigured.index_of_first
      ["b", "/apex/com.android.tzdata/etc/tz/tzlookup.xml",
        "/data/misc/zoneinfo/current/tzlookup.xml"]
      "/system/usr/share/zoneinfo/tzlookup.xml" [] sampleText rfl
      (List.forall_mem_cons.mpr ⟨hbytes, List.forall_mem_cons.mpr ⟨happ,
        List.forall_mem_singleton.mpr hdata⟩⟩) rfl
    rw [value_ofEnvironment_sampleFiles] at hcomes
    exact (Except.ok.inj (hkept.symm.trans (hcomes.of_ok _ hparse))).symm

end World

end TimeZones
