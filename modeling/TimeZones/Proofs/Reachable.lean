import TimeZones.Proofs.Loads
import TimeZones.Proofs.Matching

/-! The states that callers can bring about. In all of them the registry is sound, since each call
leaves it so. -/
namespace TimeZones
open Session

/-- The registry, and what callers have got hold of so far. -/
structure World where
  registry : Registry
  catalogs : List (Shared Catalog)
  finders : List Finder

namespace World

variable {α : Type} {w v : World}

/-- At first callers hold nothing. -/
def initial : World where
  registry := .initial
  catalogs := []
  finders := []

/-- What a call answers. -/
def value (w : World) (m : Session α) : α := (m.run w.registry).1

/-- After a call that hands nothing to hold to its caller. -/
def after (w : World) (m : Session α) : World := { w with registry := (m.run w.registry).2 }

/-- After a call whose value is, or may hold, catalogs. -/
def gain (w : World) (m : Session α) (catalogs : α → List (Shared Catalog)) : World where
  registry := (m.run w.registry).2
  catalogs := catalogs (m.run w.registry).1 ++ w.catalogs
  finders := w.finders

/-- After a call whose value is, or may hold, finders. With a finder callers hold its catalog. -/
def gainFinders (w : World) (m : Session α) (finders : α → List Finder) : World where
  registry := (m.run w.registry).2
  catalogs := (finders (m.run w.registry).1).map (·.catalog) ++ w.catalogs
  finders := finders (m.run w.registry).1 ++ w.finders

/-- One call, with arguments that callers can have. -/
inductive Step (w : World) : World → Prop where
  | readRecord (id : String) (b : Bytes) : Step w (w.after (Session.readRecord id b))
  | share {α : Type} (a : α) : Step w (w.after (Session.share a))
  | logged {α : Type} (x : Logged α) : Step w (w.after (Session.logged x))
  | ofBytes {b : Bytes} {c : Catalog} : Catalog.ofBytes b = .ok c →
      Step w (w.gain (Session.share c) fun s => [s])
  | makeBuiltin : Step w (w.gain Catalog.makeBuiltin fun c => [c])
  | tryLoad (primary secondary : Option Bytes) :
      Step w (w.gain (Catalog.tryLoad primary secondary) fun x => x.toOption.toList)
  | load (primary secondary : Option Bytes) :
      Step w (w.gain (Catalog.load primary secondary) fun c => [c])
  | ofPaths (files : FileTree) (paths : List String) :
      Step w (w.gain (Catalog.ofPaths files paths) fun c => [c])
  | ofEnvironment (env : Environment) :
      Step w (w.gain (Catalog.ofEnvironment env) fun c => [c])
  | current (env : Environment) : Step w (w.gain (Catalog.current env) fun c => [c])
  | install {c : Shared Catalog} : c ∈ w.catalogs →
      Step w (w.gain (Catalog.install c) fun old => old.toList)
  | lookup {c : Shared Catalog} (id : String) : c ∈ w.catalogs →
      Step w (w.after (Catalog.lookup c id))
  | makeZone {c : Shared Catalog} (id : String) (now : Int) : c ∈ w.catalogs →
      Step w (w.after (Catalog.makeZone c id now))
  | snapshot {c : Shared Catalog} (id : String) (now : Int) : c ∈ w.catalogs →
      Step w (w.after (Catalog.snapshot c id now))
  | validate {c : Shared Catalog} : c ∈ w.catalogs → Step w (w.after (Catalog.validate c))
  | resolveIn {c : Shared Catalog} (country : CountryZones) (wanted : OffsetType) (millis : Int)
      (bias : Option String) : c ∈ w.catalogs →
      Step w (w.after (country.resolve c wanted millis bias))
  | lookupByOffsetIn {c : Shared Catalog} (country : CountryZones) (q : OffsetQuery) (millis : Int)
      (bias : Option String) : c ∈ w.catalogs →
      Step w (w.after (country.lookupByOffset c q millis bias))
  | hasUtcZoneIn {c : Shared Catalog} (country : CountryZones) (millis : Int) : c ∈ w.catalogs →
      Step w (w.after (country.hasUtcZone c millis))
  | isDefaultOkayAtIn {c : Shared Catalog} (country : CountryZones) (millis : Int) :
      c ∈ w.catalogs → Step w (w.after (country.isDefaultOkayAt c millis))
  | finderOfIndex {c : Shared Catalog} {x : CountryIndex} : c ∈ w.catalogs → x.Obtained →
      Step w (w.gainFinders (Finder.ofIndex c x) fun f => [f])
  | finderOfText {c : Shared Catalog} (primary secondary : Option String) : c ∈ w.catalogs →
      Step w (w.gainFinders (Finder.ofText c primary secondary) fun x => x.toOption.toList)
  | finderOfPaths {c : Shared Catalog} (files : FileTree) (paths : List String) : c ∈ w.catalogs →
      Step w (w.gainFinders (Finder.ofPaths files c paths) fun f => [f])
  | finderOfEnvironment (env : Environment) :
      Step w (w.gainFinders (Finder.ofEnvironment env) fun f => [f])
  | currentFinder (env : Environment) : Step w (w.gainFinders (Finder.current env) fun f => [f])
  | installFinder {f : Finder} : f ∈ w.finders →
      Step w (w.gainFinders (Finder.install f) fun old => old.toList)
  | resolve {f : Finder} (code : String) (wanted : OffsetType) (millis : Int)
      (bias : Option String) : f ∈ w.finders → Step w (w.after (f.resolve code wanted millis bias))
  | lookupByOffset {f : Finder} (code : String) (q : OffsetQuery) (millis : Int)
      (bias : Option String) : f ∈ w.finders →
      Step w (w.after (f.lookupByOffset code q millis bias))
  | hasUtcZone {f : Finder} (code : String) (millis : Int) : f ∈ w.finders →
      Step w (w.after (f.hasUtcZone code millis))
  | isDefaultOkayAt {f : Finder} (code : String) (millis : Int) : f ∈ w.finders →
      Step w (w.after (f.isDefaultOkayAt code millis))

/-- What any number of calls can lead to. -/
inductive Reachable : World → Prop where
  | initial : Reachable .initial
  | step {w v : World} : Reachable w → Step w v → Reachable v

/-- The registry is sound for the catalogs that are held, and finders are over these. -/
structure Sound (w : World) : Prop where
  registry : w.registry.Sound w.catalogs
  finders : ∀ f ∈ w.finders, f.IsOver w.catalogs

theorem sound_initial : initial.Sound := by
  refine ⟨⟨?_, ?_, ?_, ?_, ?_, ?_, ?_⟩, ?_⟩ <;> simp [initial, Registry.initial]

theorem Sound.after {m : Session α} (hw : w.Sound) (hm : Keeps (Registry.Sound w.catalogs) m) :
    (w.after m).Sound :=
  ⟨hm w.registry hw.registry, hw.finders⟩

theorem Sound.gain {m : Session α} {catalogs : α → List (Shared Catalog)} (hw : w.Sound)
    (hm : Triple (Registry.Sound w.catalogs) m fun a r => r.Sound (catalogs a ++ w.catalogs)) :
    (w.gain m catalogs).Sound := by
  refine ⟨hm w.registry hw.registry, ?_⟩
  intro f hf
  exact (hw.finders f hf).mono (List.subset_append_right _ _)

theorem Sound.gainFinders {m : Session α} {finders : α → List Finder} (hw : w.Sound)
    (hm : Triple (Registry.Sound w.catalogs) m fun a r =>
      let held := (finders a).map (·.catalog) ++ w.catalogs
      r.Sound held ∧ ∀ f ∈ finders a, f.IsOver held) : (w.gainFinders m finders).Sound := by
  obtain ⟨hr, hf⟩ := hm w.registry hw.registry
  refine ⟨hr, ?_⟩
  intro f hmem
  rcases List.mem_append.mp hmem with h | h
  · exact hf f h
  · exact (hw.finders f h).mono (List.subset_append_right _ _)

/-- Finders over catalogs that are held already bring no others. -/
theorem Sound.gainFinders_held {m : Session α} {finders : α → List Finder} (hw : w.Sound)
    (hm : Triple (Registry.Sound w.catalogs) m fun a r =>
      r.Sound w.catalogs ∧ ∀ f ∈ finders a, f.IsOver w.catalogs) :
    (w.gainFinders m finders).Sound := by
  refine hw.gainFinders (hm.weaken ?_)
  rintro a r ⟨hr, hf⟩
  refine ⟨hr.append_of_subset ?_, fun f h => (hf f h).mono (List.subset_append_right _ _)⟩
  intro c hc
  obtain ⟨f, h, rfl⟩ := List.mem_map.mp hc
  exact (hf f h).catalog_mem

theorem Sound.gainFinders_new {m : Session Finder} (hw : w.Sound)
    (hm : Triple (Registry.Sound w.catalogs) m fun f r =>
      r.Sound (f.catalog :: w.catalogs) ∧ f.IsOver (f.catalog :: w.catalogs)) :
    (w.gainFinders m fun f => [f]).Sound :=
  hw.gainFinders (hm.weaken fun _ _ h => ⟨h.1, List.forall_mem_singleton.mpr h.2⟩)

theorem Sound.gainFinders_over {m : Session Finder} {c : Shared Catalog} (hw : w.Sound)
    (hm : Triple (Registry.Sound w.catalogs) m fun f r =>
      r.Sound w.catalogs ∧ f.IsOver w.catalogs ∧ f.catalog = c) :
    (w.gainFinders m fun f => [f]).Sound :=
  hw.gainFinders_held (hm.weaken fun _ _ h => ⟨h.1, List.forall_mem_singleton.mpr h.2.1⟩)

theorem Step.sound (hw : w.Sound) (h : Step w v) : v.Sound := by
  cases h with
  | readRecord id b => exact hw.after (readRecord_gives id b).keeps
  | share a => exact hw.after (share_spec a).keeps
  | logged x => exact hw.after (logged_gives x).keeps
  | ofBytes hb => exact hw.gain (share_catalog_spec (Or.inl ⟨_, hb⟩))
  | makeBuiltin => exact hw.gain Catalog.makeBuiltin_spec
  | tryLoad primary secondary => exact hw.gain (Catalog.tryLoad_spec primary secondary)
  | load primary secondary => exact hw.gain (Catalog.load_spec primary secondary)
  | ofPaths files paths => exact hw.gain (Catalog.ofPaths_spec files paths)
  | ofEnvironment env => exact hw.gain (Catalog.ofEnvironment_spec env)
  | current env => exact hw.gain (Catalog.current_spec env)
  | install hc => exact hw.gain (Catalog.install_spec hc)
  | lookup id hc => exact hw.after (Catalog.lookup_spec hc id).keeps
  | makeZone id now hc => exact hw.after (Catalog.makeZone_spec hc id now).keeps
  | snapshot id now hc => exact hw.after (Catalog.snapshot_gives hc id now).keeps
  | validate hc => exact hw.after (Catalog.validate_gives hc).keeps
  | resolveIn country wanted millis bias hc =>
    exact hw.after (CountryZones.resolve_gives hc country wanted millis bias).keeps
  | lookupByOffsetIn country q millis bias hc =>
    exact hw.after (CountryZones.lookupByOffset_gives hc country q millis bias).keeps
  | hasUtcZoneIn country millis hc =>
    exact hw.after (CountryZones.hasUtcZone_gives hc country millis).keeps
  | isDefaultOkayAtIn country millis hc =>
    exact hw.after (CountryZones.isDefaultOkayAt_gives hc country millis).keeps
  | finderOfIndex hc hx => exact hw.gainFinders_over (Finder.ofIndex_spec hc hx)
  | finderOfText primary secondary hc =>
    refine hw.gainFinders_held ((Finder.ofText_spec hc primary secondary).weaken fun x _ h => ?_)
    exact ⟨h.1, fun f hf => h.2 f (Option.mem_toList.mp hf)⟩
  | finderOfPaths files paths hc => exact hw.gainFinders_over (Finder.ofPaths_spec hc files paths)
  | finderOfEnvironment env => exact hw.gainFinders_new (Finder.ofEnvironment_spec env)
  | currentFinder env => exact hw.gainFinders_new (Finder.current_spec env)
  | installFinder hf =>
    refine hw.gainFinders_held ((Finder.install_spec (hw.finders _ hf)).weaken fun x _ h => ?_)
    exact ⟨h.1, fun f hf => h.2 f (Option.mem_toList.mp hf)⟩
  | resolve code wanted millis bias hf =>
    exact hw.after (Finder.resolve_gives (hw.finders _ hf) code wanted millis bias).keeps
  | lookupByOffset code q millis bias hf =>
    exact hw.after (Finder.lookupByOffset_keeps (hw.finders _ hf) code q millis bias)
  | hasUtcZone code millis hf =>
    exact hw.after (Finder.hasUtcZone_keeps (hw.finders _ hf) code millis)
  | isDefaultOkayAt code millis hf =>
    exact hw.after (Finder.isDefaultOkayAt_keeps (hw.finders _ hf) code millis)

theorem Reachable.sound (h : Reachable w) : w.Sound := by
  induction h with
  | initial => exact sound_initial
  | step _ hs ih => exact hs.sound ih

/-- What a call gives is what it answers in a state that can be reached. -/
theorem value_of_gives {m : Session α} {a : α} (hw : w.Reachable)
    (h : Gives (Registry.Sound w.catalogs) m a) : w.value m = a :=
  (h w.registry hw.sound.registry).2

theorem value_lookup {catalog : Shared Catalog} (hw : w.Reachable) (hc : catalog ∈ w.catalogs)
    (id : String) : (w.value (Catalog.lookup catalog id)).map (·.value) = catalog.value.table? id :=
  (Catalog.lookup_spec hc id w.registry hw.sound.registry).2

end World

end TimeZones
