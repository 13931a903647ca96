import TimeZones.Proofs.Decoding

/-! Looking zones up in a held catalog. What is found is what the record says, whether or not it has
been decoded before. -/
namespace TimeZones.Catalog
open Session

variable {catalogs : List (Shared Catalog)} {c : Shared Catalog}

theorem Entry.decode_gives (e : Entry) : Gives (Registry.Sound catalogs) e.decode
    (e.read.mapError fun f => (Failure.root (.record f)).inContext (.root (.zone e.id))) := by
  intro r hr
  rw [e.decode_run]
  exact ⟨hr.log _, rfl⟩

theorem Entry.value_shared (e : Entry) (nextKey : Nat) :
    (e.shared nextKey).map (·.value) = e.read.toOption := by
  rw [Entry.shared, Option.map_map]
  exact Option.map_id'

theorem Entry.sound_remembered {r : Registry} {e : Entry} (hr : r.Sound catalogs)
    (hc : c ∈ catalogs) (he : c.value.table? e.id = e.read.toOption) :
    (e.remembered c.key r).Sound catalogs :=
  ((hr.nextKey _).log _).remember hc ((e.value_shared r.nextKey).trans he.symm)

theorem mem_availableIds_of_hasZone {catalog : Catalog} {id : String}
    (h : catalog.hasZone id = true) : id ∈ catalog.availableIds := by
  obtain ⟨e, he⟩ := Option.isSome_iff_exists.mp h
  obtain ⟨hmem, rfl⟩ := mem_of_find? he
  exact List.mem_map_of_mem (Array.mem_toList_iff.mpr hmem)

theorem lookup_spec (hc : c ∈ catalogs) (id : String) :
    Triple (Registry.Sound catalogs) (lookup c id) fun t r =>
      r.Sound catalogs ∧ t.map (·.value) = c.value.table? id := by
  intro r hr
  cases he : c.value.find? id with
  | none =>
    rw [lookup_of_absent he, table?, he]
    exact ⟨hr, rfl⟩
  | some e =>
    have ht : c.value.table? id = e.read.toOption := by rw [table?, he]; rfl
    obtain rfl := (mem_of_find? he).2
    cases hk : r.decoded.lookup (c.key, e.id) with
    | some t =>
      rw [lookup_of_known he hk]
      exact ⟨hr, hr.decoded_eq c hc e.id t hk⟩
    | none =>
      rw [lookup_of_new he hk]
      exact ⟨e.sound_remembered hr hc ht, (e.value_shared r.nextKey).trans ht.symm⟩

theorem makeZone_spec (hc : c ∈ catalogs) (id : String) (now : Int) :
    Triple (Registry.Sound catalogs) (makeZone c id now) fun z r =>
      r.Sound catalogs ∧ z.map (·.snapshot) = (c.value.table? id).map (Snapshot.ofTable · now) := by
  refine Triple.bind (lookup_spec hc id) fun t => ?_
  rintro r ⟨hr, ht⟩
  refine ⟨hr, ?_⟩
  rw [← ht]
  cases t <;> rfl

theorem snapshot_gives (hc : c ∈ catalogs) (id : String) (now : Int) :
    Gives (Registry.Sound catalogs) (snapshot c id now)
      ((c.value.table? id).map (Snapshot.ofTable · now)) :=
  Triple.bind (makeZone_spec hc id now) fun _ _ h => h

/-- Why an entry cannot be read, if it cannot. -/
def Entry.failure? (e : Entry) : Option Failure :=
  match e.read with
  | .error f => some ((Failure.root (.record f)).inContext (.root (.zone e.id)))
  | .ok _ => none

/-- What checking comes to when all records are read: the first failure counts. -/
def checked (catalog : Catalog) : Except Failure Unit :=
  (catalog.entries.toList.findSome? Entry.failure?).elim (.ok ()) .error

/-- Entries that are known to be good would not have failed. -/
theorem firstFailure?_gives (hc : c ∈ catalogs) {es : List Entry}
    (hes : ∀ e ∈ es, e ∈ c.value.entries) :
    Gives (Registry.Sound catalogs) (firstFailure? c.key es) (es.findSome? Entry.failure?) := by
  induction es with
  | nil => exact Gives.pure none
  | cons e es ih =>
    obtain ⟨he, hes⟩ := List.forall_mem_cons.mp hes
    refine Triple.get_bind fun s hs => ?_
    rw [List.findSome?_cons, Entry.failure?]
    split
    · rename_i t hk
      have hread := hs.decoded_eq c hc e.id _ hk
      rw [(hs.obtained c hc).table?_of_mem he] at hread
      rw [toOption_eq_some.mp hread.symm]
      exact ih hes
    · refine Gives.bind_triple e.decode_gives ?_
      cases e.read with
      | error f => exact Gives.pure _
      | ok t => exact ih hes

theorem validate_gives (hc : c ∈ catalogs) :
    Gives (Registry.Sound catalogs) (validate c) c.value.checked := by
  refine Gives.bind_triple (firstFailure?_gives hc fun e he => Array.mem_toList_iff.mp he) ?_
  rw [checked]
  cases c.value.entries.toList.findSome? Entry.failure? with
  | some f => exact Gives.pure _
  | none => exact Gives.pure _

end TimeZones.Catalog
