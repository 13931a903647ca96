import TimeZones.Proofs.Decoding
import TimeZones.Proofs.Loads

/-! Loading catalogs from several sources. The first one that can be read counts, whether the
sources are byte strings, files, or what the environment names. Where none can be read there is the
built-in catalog, so that there are always zones. -/
namespace TimeZones

/-- Which files are tried, and with what success. Nothing is said about zones. -/
def Note.IsOnFile : Note → Prop
  | .fileLoaded _ _ _ | .variableTried _ | .variableRefused _ _ | .locationTried _
  | .locationRefused _ _ | .noLocationLoaded _ => True
  | _ => False

/-- The registry after loading: a catalog that has been found has got the next key. -/
def Registry.loaded (r : Registry) (found : Option Catalog) (notes : List Note) : Registry :=
  { r with nextKey := r.nextKey + (found.elim 0 fun _ => 1), log := r.log ++ notes }

namespace Session

variable {α β : Type} {m : Session α} {f : α → Session β} {found : Option Catalog}
  {value : Nat → α} {value' : Nat → β} {n : Note}

/-- Whatever the registry is, `m` writes about files only, and what it comes to depends on nothing
but the next key, which is given to a catalog that has been found. -/
def Loads (m : Session α) (found : Option Catalog) (value : Nat → α) : Prop :=
  ∃ notes : List Note, (∀ n ∈ notes, n.IsOnFile) ∧
    ∀ r, m.run r = (value r.nextKey, r.loaded found notes)

theorem run_bind (m : Session α) (f : α → Session β) (r : Registry) :
    (m >>= f).run r = (f (m.run r).1).run (m.run r).2 := rfl

theorem Loads.pure (a : α) : Loads (pure a) none fun _ => a := by
  refine ⟨[], List.forall_mem_nil _, fun r => ?_⟩
  rw [Registry.loaded, List.append_nil]
  rfl

theorem Loads.share (c : Catalog) : Loads (share c) (some c) (⟨·, c⟩) := by
  refine ⟨[], List.forall_mem_nil _, fun r => ?_⟩
  rw [Registry.loaded, List.append_nil]
  rfl

theorem Loads.note_bind (hn : n.IsOnFile) (hm : Loads m found value) :
    Loads (note n >>= fun _ => m) found value := by
  obtain ⟨notes, hnotes, hrun⟩ := hm
  refine ⟨n :: notes, List.forall_mem_cons.mpr ⟨hn, hnotes⟩, fun r => ?_⟩
  have hnote : (note n).run r = ((), { r with log := r.log ++ [n] }) := rfl
  rw [run_bind, hnote, hrun, Registry.loaded, Registry.loaded, List.append_assoc,
    List.singleton_append]

/-- As long as nothing has been found, loading goes on. -/
theorem Loads.bind_none {a : α} (hm : Loads m none fun _ => a) (hf : Loads (f a) found value') :
    Loads (m >>= f) found value' := by
  obtain ⟨notes, hnotes, hrun⟩ := hm
  obtain ⟨rest, hrest, hf⟩ := hf
  refine ⟨notes ++ rest, List.forall_mem_append.mpr ⟨hnotes, hrest⟩, fun r => ?_⟩
  rw [run_bind, hrun, hf, Registry.loaded, Registry.loaded, Registry.loaded, List.append_assoc]
  rfl

theorem Loads.bind_pure (hm : Loads m found value)
    (hf : ∀ key r, (f (value key)).run r = (value' key, r)) :
    Loads (m >>= f) found value' := by
  obtain ⟨notes, hnotes, hrun⟩ := hm
  refine ⟨notes, hnotes, fun r => ?_⟩
  rw [run_bind, hrun, hf]

theorem Loads.answers (hm : Loads m found value) : Answers m fun a => ∃ key, a = value key := by
  obtain ⟨notes, -, hrun⟩ := hm
  intro r
  exact ⟨r.nextKey, congrArg Prod.fst (hrun r)⟩

end Session

namespace Catalog
open Session

variable {c : Catalog} {b : Bytes} {sources : List Bytes} {files : FileTree} {path : String}
  {paths : List String} {first : Option Catalog}

/-- The catalog in a file, if the file can be read and its contents are a container. -/
def inFile? (files : FileTree) (path : String) : Option Catalog :=
  (files.read path).toOption.bind fun b => (ofBytes b).toOption

/-- The catalog of the first source that can be read. -/
def firstOf (sources : List Bytes) : Option Catalog :=
  sources.findSome? fun b => (ofBytes b).toOption

/-- The catalog of the first file that can be read. -/
def firstIn (files : FileTree) (paths : List String) : Option Catalog :=
  paths.findSome? (inFile? files)

theorem inFile?_eq_none {fault : Container.Fault} (hread : files.read path = .ok b)
    (hfault : ofBytes b = .error fault) : inFile? files path = none := by
  rw [inFile?, hread]
  simp [Except.toOption, hfault]

theorem inFile?_eq_some (hread : files.read path = .ok b) (hb : ofBytes b = .ok c) :
    inFile? files path = some c := by
  rw [inFile?, hread]
  simp [Except.toOption, hb]

theorem firstIn_cons (files : FileTree) (path : String) (paths : List String) :
    firstIn files (path :: paths) = (inFile? files path).or (firstIn files paths) := by
  rw [firstIn, List.findSome?_cons]
  cases inFile? files path <;> rfl

/-- The first source that can be read is taken. If none can, then the failure is that of the last
one, or `otherwise` if there is no source. -/
structure TakesFirst (sources : List Bytes) (otherwise : Failure)
    (x : Except Failure (Shared Catalog)) : Prop where
  ok_iff : ∀ c, x.map (·.value) = .ok c ↔ firstOf sources = some c
  of_error : ∀ f, x = .error f →
    sources = [] ∧ f = otherwise ∨
      ∃ b ∈ sources.getLast?, ∃ fault, ofBytes b = .error fault ∧ f = .root (.container fault)

theorem TakesFirst.firstOf_eq_some {otherwise : Failure} {s : Shared Catalog}
    (h : TakesFirst sources otherwise (.ok s)) : firstOf sources = some s.value :=
  (h.ok_iff s.value).mp rfl

theorem TakesFirst.firstOf_eq_none {otherwise f : Failure}
    (h : TakesFirst sources otherwise (.error f)) : firstOf sources = none := by
  rw [Option.eq_none_iff_forall_ne_some]
  intro c hc
  cases (h.ok_iff c).mpr hc

/-- A catalog to work with: it has zones, with identifiers in increasing order, and it is the
built-in one if and only if nothing was `loaded`. -/
structure Stocked (c : Catalog) (loaded : Option Catalog) : Prop where
  size_pos : 0 < c.size
  increasing : c.availableIds.Pairwise (· < ·)
  isBuiltin_iff : c.isBuiltin = true ↔ loaded = none

theorem stocked_of_ofBytes (h : ofBytes b = .ok c) : c.Stocked (some c) := by
  have hobtained : c.Obtained := Or.inl ⟨b, h⟩
  obtain ⟨i, d, f, n, -, hc⟩ := Container.ofBytes_eq_ok_iff.mp h
  refine ⟨hobtained.size_pos, List.pairwise_map.mpr hobtained.increasing, ?_⟩
  simp [hc.isBuiltin]

theorem stocked_builtin : builtin.Stocked none := by
  have hobtained : builtin.Obtained := Or.inr rfl
  exact ⟨hobtained.size_pos, List.pairwise_map.mpr hobtained.increasing, by simp [builtin]⟩

theorem stocked_getD (h : ∀ c ∈ first, ∃ b, ofBytes b = .ok c) :
    (first.getD builtin).Stocked first := by
  cases first with
  | none => exact stocked_builtin
  | some c =>
    obtain ⟨b, hb⟩ := h c rfl
    exact stocked_of_ofBytes hb

theorem exists_ofBytes_of_firstOf (h : c ∈ firstOf sources) : ∃ b, ofBytes b = .ok c := by
  obtain ⟨b, -, hb⟩ := List.exists_of_findSome?_eq_some h
  exact ⟨b, toOption_eq_some.mp hb⟩

theorem exists_ofBytes_of_firstIn (h : c ∈ firstIn files paths) : ∃ b, ofBytes b = .ok c := by
  obtain ⟨path, -, hpath⟩ := List.exists_of_findSome?_eq_some h
  obtain ⟨b, -, hb⟩ := Option.bind_eq_some_iff.mp hpath
  exact ⟨b, toOption_eq_some.mp hb⟩

theorem takesFirst_nil (otherwise : Failure) : TakesFirst [] otherwise (.error otherwise) := by
  refine ⟨fun c => ?_, fun f hf => Or.inl ⟨rfl, (Except.error.inj hf).symm⟩⟩
  simp [firstOf, Except.map]

theorem takesFirst_of_ok (hb : ofBytes b = .ok c) {s : Shared Catalog} (hs : s.value = c)
    (otherwise : Failure) : TakesFirst (b :: sources) otherwise (.ok s) := by
  refine ⟨fun d => ?_, fun f hf => by cases hf⟩
  simp [firstOf, hb, hs, Except.map, Except.toOption]

/-- Behind a source that cannot be read the others are tried, and its own failure is the one to be
reported if there are none. -/
theorem TakesFirst.cons {fault : Container.Fault} {x : Except Failure (Shared Catalog)}
    (hb : ofBytes b = .error fault) (h : TakesFirst sources (.root (.container fault)) x)
    (otherwise : Failure) : TakesFirst (b :: sources) otherwise x := by
  have hfirst : firstOf (b :: sources) = firstOf sources := by
    simp [firstOf, hb, Except.toOption]
  refine ⟨fun c => by rw [hfirst, h.ok_iff], fun f hf => Or.inr ?_⟩
  rcases h.of_error f hf with ⟨rfl, rfl⟩ | ⟨a, ha, hfault⟩
  · exact ⟨b, rfl, fault, hb, rfl⟩
  · refine ⟨a, ?_, hfault⟩
    rw [List.getLast?_cons, Option.mem_def.mp ha]
    rfl

theorem firstSource_answers (last : Failure) (sources : List (Source × Bytes)) :
    Answers (firstSource last sources) (TakesFirst (sources.map (·.2)) last) := by
  induction sources generalizing last with
  | nil => exact Answers.pure (takesFirst_nil last)
  | cons p rest ih =>
    obtain ⟨source, b⟩ := p
    rw [firstSource, List.map_cons]
    cases hb : ofBytes? b with
    | error f =>
      obtain ⟨fault, hfault, rfl⟩ := ofBytes?_eq_error.mp hb
      exact Answers.note_bind ((ih _).weaken fun _ hx => hx.cons hfault last)
    | ok c =>
      refine Answers.note_bind (Answers.bind (Answers.share c) fun s hs => Answers.pure ?_)
      exact takesFirst_of_ok (ofBytes?_eq_ok.mp hb) hs last

theorem tryLoad_answers (primary secondary : Option Bytes) :
    Answers (tryLoad primary secondary)
      (TakesFirst (primary.toList ++ secondary.toList) (.root .noCatalogSource)) := by
  have hsources : ((primary.map ((Source.primary, ·))).toList ++
      (secondary.map ((Source.secondary, ·))).toList).map (·.2) =
        primary.toList ++ secondary.toList := by
    cases primary <;> cases secondary <;> rfl
  rw [← hsources]
  exact firstSource_answers _ _

theorem makeBuiltin_answers : Answers makeBuiltin fun c => c.value = builtin := Answers.share _

theorem ofFile_loads (files : FileTree) (path : String) :
    ∃ x : Except Failure Catalog, x.toOption = inFile? files path ∧
      Loads (ofFile files path) x.toOption fun key => x.map (⟨key, ·⟩) := by
  rw [ofFile, inFile?]
  cases files.read path with
  | error f => exact ⟨.error ((Failure.root (.file f)).atPath path), rfl, Loads.pure _⟩
  | ok b =>
    dsimp only
    cases hb : ofBytes? b with
    | error f =>
      obtain ⟨fault, hfault, rfl⟩ := ofBytes?_eq_error.mp hb
      refine ⟨.error ((Failure.root (.container fault)).atPath path), ?_, Loads.pure _⟩
      simp [hfault, Except.toOption]
    | ok c =>
      refine ⟨.ok c, ?_, Loads.note_bind trivial ((Loads.share c).bind_pure fun _ _ => rfl)⟩
      simp [ofBytes?_eq_ok.mp hb, Except.toOption]

theorem ofFile_answers (files : FileTree) (path : String) :
    Answers (ofFile files path) fun x => x.toOption.map (·.value) = inFile? files path := by
  obtain ⟨x, hx, hloads⟩ := ofFile_loads files path
  refine hloads.answers.weaken ?_
  rintro _ ⟨key, rfl⟩
  rw [← hx]
  cases x <;> rfl

/-- A file is tried before others. -/
theorem ofFile_bind_answers {rest : Failure → Session (Option (Shared Catalog))}
    (hrest : ∀ f, Answers (rest f) fun x => x.map (·.value) = firstIn files paths) (path : String) :
    Answers (do match ← ofFile files path with | .ok c => return some c | .error f => rest f)
      fun x => x.map (·.value) = firstIn files (path :: paths) := by
  refine Answers.bind (ofFile_answers files path) fun x hx => ?_
  rw [firstIn_cons, ← hx]
  cases x with
  | ok c => exact Answers.pure rfl
  | error f => exact hrest f

theorem firstFile_answers (files : FileTree) (paths : List String) :
    Answers (firstFile files paths) fun x => x.map (·.value) = firstIn files paths := by
  induction paths with
  | nil => exact Answers.pure rfl
  | cons path paths ih => exact ofFile_bind_answers (fun _ => Answers.note_bind ih) path

/-- If nothing is found, the built-in catalog is taken. -/
theorem orBuiltin_answers {m : Session (Option (Shared Catalog))} {n : Note}
    (hm : Answers m fun x => x.map (·.value) = first) :
    Answers (do match ← m with | some c => return c | none => note n; makeBuiltin)
      fun c => c.value = first.getD builtin := by
  refine Answers.bind hm fun x hx => ?_
  rw [← hx]
  cases x with
  | some c => exact Answers.pure rfl
  | none => exact Answers.note_bind makeBuiltin_answers

theorem ofPaths_answers (files : FileTree) (paths : List String) :
    Answers (ofPaths files paths) fun c => c.value = (firstIn files paths).getD builtin :=
  orBuiltin_answers (firstFile_answers files paths)

theorem firstLocation_loads (files : FileTree) (paths : List String) :
    Loads (firstLocation files paths) (firstIn files paths) fun key =>
      (firstIn files paths).map (⟨key, ·⟩) := by
  induction paths with
  | nil => exact Loads.pure none
  | cons path paths ih =>
    obtain ⟨x, hx, hfile⟩ := ofFile_loads files path
    rw [firstIn_cons, ← hx]
    cases x with
    | ok c => exact Loads.note_bind trivial (hfile.bind_pure fun _ _ => rfl)
    | error f => exact Loads.note_bind trivial (hfile.bind_none (Loads.note_bind trivial ih))

theorem ofLocations_loads (files : FileTree) :
    let c := (firstIn files locations).getD builtin
    Loads (ofLocations files) (some c) (⟨·, c⟩) := by
  intro c
  have hfirst := firstLocation_loads files locations
  cases hc : firstIn files locations with
  | some d =>
    rw [hc] at hfirst
    have hd : c = d := by simp [c, hc]
    rw [hd]
    exact hfirst.bind_pure fun _ _ => rfl
  | none =>
    rw [hc] at hfirst
    have hbuiltin : c = builtin := by simp [c, hc]
    rw [hbuiltin]
    exact hfirst.bind_none (Loads.note_bind trivial (Loads.share builtin))

/-- What the environment names comes before the usual locations. -/
theorem ofEnvironment_loads (env : Environment) :
    let c := (firstIn env.files (env.catalogPath.toList ++ locations)).getD builtin
    Loads (ofEnvironment env) (some c) (⟨·, c⟩) := by
  rw [ofEnvironment]
  cases env.catalogPath with
  | none => exact ofLocations_loads env.files
  | some path =>
    obtain ⟨x, hx, hfile⟩ := ofFile_loads env.files path
    rw [Option.toList_some, List.singleton_append, firstIn_cons, ← hx]
    cases x with
    | ok c => exact Loads.note_bind trivial (hfile.bind_pure fun _ _ => rfl)
    | error f =>
      exact Loads.note_bind trivial
        (hfile.bind_none (Loads.note_bind trivial (ofLocations_loads env.files)))

theorem ofEnvironment_answers (env : Environment) :
    Answers (ofEnvironment env) fun c =>
      c.value = (firstIn env.files (env.catalogPath.toList ++ locations)).getD builtin := by
  refine (ofEnvironment_loads env).answers.weaken ?_
  rintro _ ⟨key, rfl⟩
  rfl

theorem current_of_some {r : Registry} {s : Shared Catalog} (h : r.catalog = some s)
    (env : Environment) : (current env).run r = (s, r) := by
  rw [current, run_get_bind, h]
  rfl

/-- The first one to ask for the catalog in use has it loaded. -/
theorem current_of_none {r : Registry} (h : r.catalog = none) (env : Environment) :
    let c := (firstIn env.files (env.catalogPath.toList ++ locations)).getD builtin
    ∃ notes : List Note, (∀ n ∈ notes, n.IsOnFile) ∧
      (current env).run r =
        (⟨r.nextKey, c⟩, { r.loaded (some c) notes with catalog := some ⟨r.nextKey, c⟩ }) := by
  intro c
  obtain ⟨notes, hnotes, hrun⟩ := ofEnvironment_loads env
  refine ⟨notes, hnotes, ?_⟩
  rw [current, run_get_bind, h]
  dsimp only
  rw [run_bind, hrun]
  rfl

end Catalog

end TimeZones
