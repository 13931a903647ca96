import TimeZones.Catalog.Lookup
import TimeZones.Proofs.Sessions

/-! What looking a zone up does to the registry: its record is read at most once, and then the table
is known for good. -/
namespace TimeZones

namespace Catalog

variable {r : Registry} {c : Shared Catalog} {id : String} {e : Entry}

/-- What is written when an entry is read. -/
def Entry.readNotes (e : Entry) : List Note :=
  match e.payload, e.read with
  | .record _, .ok t => [.recordDecoded e.id t.transitions.size t.types.size]
  | _, _ => []

/-- What is written besides when an entry is read for good: a warning, if that fails. -/
def Entry.outcomeNotes (e : Entry) : List Note :=
  match e.payload, e.read with
  | .record _, .ok t => [.zoneDecoded e.id t.transitions.size]
  | .record _, .error f => [.failed ((Failure.root (.record f)).inContext (.root (.zone e.id)))]
  | .table _, _ => []

/-- What an entry comes to when it is read for good: a table under the next key. -/
def Entry.shared (e : Entry) (nextKey : Nat) : Option (Shared Table) :=
  e.read.toOption.map fun t => ⟨nextKey, t⟩

theorem Entry.decode_run (e : Entry) (r : Registry) :
    e.decode.run r =
      (e.read.mapError fun f => (Failure.root (.record f)).inContext (.root (.zone e.id)),
        { r with log := r.log ++ e.readNotes }) := by
  obtain ⟨id, payload⟩ := e
  cases payload with
  | table t =>
    rw [Entry.readNotes, List.append_nil]
    rfl
  | record b =>
    simp only [Entry.decode, Entry.readNotes, Entry.read, Session.readRecord]
    cases Table.ofRecord id b with
    | error f =>
      dsimp only
      rw [List.append_nil]
      rfl
    | ok t => rfl

theorem Entry.decodeShared_run (e : Entry) (r : Registry) :
    e.decodeShared.run r = (e.shared r.nextKey,
      { r with
        nextKey := r.nextKey + (e.read.toOption.elim 0 fun _ => 1)
        log := r.log ++ (e.readNotes ++ e.outcomeNotes) }) := by
  obtain ⟨id, payload⟩ := e
  rw [← List.append_assoc]
  cases payload with
  | table t =>
    rw [Entry.readNotes, Entry.outcomeNotes, List.append_nil, List.append_nil]
    rfl
  | record b =>
    simp only [Entry.decodeShared, StateT.run_bind, Entry.decode_run, Entry.readNotes,
      Entry.outcomeNotes, Entry.read, Entry.shared]
    cases Table.ofRecord id b with
    | error f => rfl
    | ok t => rfl

/-- The registry after an entry of a catalog has been read for good. -/
def Entry.remembered (e : Entry) (catalog : Nat) (r : Registry) : Registry :=
  { r with
    nextKey := r.nextKey + (e.read.toOption.elim 0 fun _ => 1)
    decoded := ((catalog, e.id), e.shared r.nextKey) :: r.decoded
    log := r.log ++ (e.readNotes ++ e.outcomeNotes) }

theorem lookup_of_absent (h : c.value.find? id = none) (r : Registry) :
    (lookup c id).run r = (none, r) := by
  rw [lookup, h]
  rfl

theorem run_get_bind {α : Type} (f : Registry → Session α) (r : Registry) :
    (get >>= f).run r = (f r).run r := rfl

theorem lookup_of_known (he : c.value.find? id = some e) {t : Option (Shared Table)}
    (h : r.decoded.lookup (c.key, id) = some t) : (lookup c id).run r = (t, r) := by
  obtain rfl := (mem_of_find? he).2
  rw [lookup, he]
  dsimp only
  rw [run_get_bind, h]
  rfl

theorem lookup_of_new (he : c.value.find? id = some e) (h : r.decoded.lookup (c.key, id) = none) :
    (lookup c id).run r = (e.shared r.nextKey, e.remembered c.key r) := by
  obtain rfl := (mem_of_find? he).2
  rw [lookup, he]
  dsimp only
  rw [run_get_bind, h]
  dsimp only
  rw [StateT.run_bind, Entry.decodeShared_run]
  rfl

end Catalog

namespace Registry

variable {r s : Registry} {c : Shared Catalog} {inUse : Option (Shared Catalog)} {id : String}
  {t : Option (Shared Table)} {P : List Note → Prop}

/-- What calls on catalogs make of a registry: nothing known is lost, and notes as `P` says are
added to the log. -/
structure Becomes (inUse : Option (Shared Catalog)) (P : List Note → Prop) (r s : Registry) : Prop where
  catalog : s.catalog = inUse
  known : ∀ zone t, r.decoded.lookup zone = some t → s.decoded.lookup zone = some t
  log : ∃ notes, s.log = r.log ++ notes ∧ P notes

theorem Becomes.refl (h : P []) : r.Becomes r.catalog P r :=
  ⟨rfl, fun _ _ ht => ht, [], (List.append_nil _).symm, h⟩

/-- Looking a zone up comes to `t`, without its record. -/
def Knows (r : Registry) (c : Shared Catalog) (id : String) (t : Option (Shared Table)) : Prop :=
  match c.value.find? id with
  | none => t = none
  | some _ => r.decoded.lookup (c.key, id) = some t

theorem Knows.becomes (h : r.Knows c id t) (hs : r.Becomes inUse P s) : s.Knows c id t := by
  rw [Knows] at h ⊢
  cases he : c.value.find? id with
  | none =>
    rw [he] at h
    exact h
  | some e =>
    rw [he] at h
    exact hs.known _ _ h

theorem Knows.lookup (h : r.Knows c id t) : (Catalog.lookup c id).run r = (t, r) := by
  rw [Knows] at h
  cases he : c.value.find? id with
  | none =>
    rw [he] at h
    rw [Catalog.lookup_of_absent he, h]
  | some e =>
    rw [he] at h
    exact Catalog.lookup_of_known he h

end Registry

namespace Catalog
open Session

variable {r : Registry} {c : Shared Catalog} {inUse : Option (Shared Catalog)} {id : String}

/-- Once a zone has been looked up, it is known. -/
theorem lookup_knows (c : Shared Catalog) (id : String) (r : Registry) :
    ((lookup c id).run r).2.Knows c id ((lookup c id).run r).1 := by
  rw [Registry.Knows]
  cases he : c.value.find? id with
  | none => rw [lookup_of_absent he]
  | some e =>
    cases hk : r.decoded.lookup (c.key, id) with
    | some t =>
      rw [lookup_of_known he hk]
      exact hk
    | none =>
      rw [lookup_of_new he hk, Entry.remembered, (mem_of_find? he).2]
      exact List.lookup_cons_self

/-- What looking a zone up writes: nothing, or what reading its entry for good does. -/
def LookupNotes (catalog : Catalog) (id : String) (notes : List Note) : Prop :=
  notes = [] ∨ ∃ e ∈ catalog.entries, e.id = id ∧ notes = e.readNotes ++ e.outcomeNotes

theorem lookup_becomes (c : Shared Catalog) (id : String) (r : Registry) :
    r.Becomes r.catalog (c.value.LookupNotes id) ((lookup c id).run r).2 := by
  cases he : c.value.find? id with
  | none =>
    rw [lookup_of_absent he]
    exact .refl (Or.inl rfl)
  | some e =>
    cases hk : r.decoded.lookup (c.key, id) with
    | some t =>
      rw [lookup_of_known he hk]
      exact .refl (Or.inl rfl)
    | none =>
      obtain ⟨hmem, hid⟩ := mem_of_find? he
      rw [lookup_of_new he hk]
      refine ⟨rfl, ?_, _, rfl, Or.inr ⟨e, hmem, hid, rfl⟩⟩
      intro zone t ht
      -- only the new zone is put before the known ones
      have hne : zone ≠ (c.key, id) := by
        rintro rfl
        rw [hk] at ht
        cases ht
      rw [Entry.remembered, List.lookup_cons, hid, beq_eq_false_iff_ne.mpr hne]
      exact ht

/-- Checking writes that records have been read, and nothing else. -/
def CheckNotes (notes : List Note) : Prop := ∀ n ∈ notes, ∃ id m k, n = .recordDecoded id m k

theorem Entry.checkNotes_readNotes (e : Entry) : CheckNotes e.readNotes := by
  intro n hn
  rw [Entry.readNotes] at hn
  split at hn
  · exact ⟨_, _, _, List.mem_singleton.mp hn⟩
  · cases hn

theorem Entry.decode_keeps_becomes (e : Entry) :
    Keeps (r.Becomes inUse CheckNotes) e.decode := by
  rintro s ⟨hcatalog, hknown, notes, hlog, hnotes⟩
  rw [Entry.decode_run]
  refine ⟨hcatalog, hknown, notes ++ e.readNotes, ?_, ?_⟩
  · rw [hlog, List.append_assoc]
  · exact List.forall_mem_append.mpr ⟨hnotes, e.checkNotes_readNotes⟩

/-- Checking does to the registry what reading entries does to it. -/
theorem firstFailure?_keeps {P : Registry → Prop} (h : ∀ e : Entry, Keeps P e.decode) (key : Nat)
    (es : List Entry) : Keeps P (firstFailure? key es) := by
  induction es with
  | nil => exact Keeps.pure none
  | cons e es ih =>
    refine Triple.get_bind fun s _ => ?_
    split
    · exact ih
    · refine Keeps.bind (h e) fun x => ?_
      cases x with
      | error f => exact Keeps.pure _
      | ok t => exact ih

theorem validate_keeps {P : Registry → Prop} (h : ∀ e : Entry, Keeps P e.decode)
    (c : Shared Catalog) : Keeps P (validate c) := by
  refine Keeps.bind (firstFailure?_keeps h c.key c.value.entries.toList) fun f => ?_
  cases f with
  | some f => exact Keeps.pure _
  | none => exact Keeps.pure _

theorem validate_becomes (c : Shared Catalog) (r : Registry) :
    r.Becomes r.catalog CheckNotes ((validate c).run r).2 :=
  validate_keeps Entry.decode_keeps_becomes c r (.refl (List.forall_mem_nil _))

end Catalog

end TimeZones
