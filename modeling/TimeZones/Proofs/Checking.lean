import TimeZones.Proofs.Transcripts

/-! Checking catalogs. It finds the first zone that cannot be looked up, whatever has been decoded
before, and leaves nothing behind but notes, which no later call reads. -/
namespace TimeZones
open Session

/-- Two registries that differ in the log at most. -/
def Registry.SameButLog (r s : Registry) : Prop := ∃ log, s = { r with log }

namespace Session

variable {α β : Type} {m : Session α} {f : α → Session β}

/-- What `m` comes to does not depend on the log, nor does the registry that it leaves, apart from
its log. -/
def Blind (m : Session α) : Prop := ∀ r s, r.SameButLog s →
  (m.run r).1 = (m.run s).1 ∧ (m.run r).2.SameButLog (m.run s).2

theorem Blind.pure (a : α) : Blind (pure a) := fun _ _ h => ⟨rfl, h⟩

theorem Blind.bind (hm : Blind m) (hf : ∀ a, Blind (f a)) : Blind (m >>= f) := by
  intro r s h
  obtain ⟨hvalue, hsame⟩ := hm r s h
  rw [run_bind, run_bind, ← hvalue]
  exact hf _ _ _ hsame

/-- The registry may be read as long as the log makes no difference. -/
theorem Blind.get_bind {g : Registry → Session α} (hg : ∀ r log, g { r with log } = g r)
    (h : ∀ r, Blind (g r)) : Blind (get >>= g) := by
  rintro r _ ⟨log, rfl⟩
  rw [Catalog.run_get_bind, Catalog.run_get_bind, hg r log]
  exact h r r _ ⟨log, rfl⟩

theorem share_blind (a : α) : Blind (share a) := by
  rintro r _ ⟨log, rfl⟩
  exact ⟨rfl, _, rfl⟩

end Session

namespace Catalog

theorem Entry.decode_blind (e : Entry) : Blind e.decode := by
  rintro r _ ⟨log, rfl⟩
  rw [Entry.decode_run, Entry.decode_run]
  exact ⟨rfl, _, rfl⟩

theorem Entry.decode_sameButLog {r : Registry} (e : Entry) : Keeps r.SameButLog e.decode := by
  rintro _ ⟨log, rfl⟩
  rw [Entry.decode_run]
  exact ⟨_, rfl⟩

theorem lookup_blind (c : Shared Catalog) (id : String) : Blind (lookup c id) := by
  rintro r _ ⟨log, rfl⟩
  cases he : c.value.find? id with
  | none =>
    rw [lookup_of_absent he, lookup_of_absent he]
    exact ⟨rfl, _, rfl⟩
  | some e =>
    cases hk : r.decoded.lookup (c.key, id) with
    | some t =>
      rw [lookup_of_known he hk, lookup_of_known (r := { r with log }) he hk]
      exact ⟨rfl, _, rfl⟩
    | none =>
      rw [lookup_of_new he hk, lookup_of_new (r := { r with log }) he hk]
      exact ⟨rfl, _, rfl⟩

theorem makeZone_blind (c : Shared Catalog) (id : String) (now : Int) :
    Blind (makeZone c id now) :=
  (lookup_blind c id).bind fun _ => Blind.pure _

theorem firstFailure?_blind (key : Nat) (es : List Entry) : Blind (firstFailure? key es) := by
  induction es with
  | nil => exact Blind.pure none
  | cons e es ih =>
    refine Blind.get_bind (fun _ _ => rfl) fun r => ?_
    split
    · exact ih
    · refine e.decode_blind.bind fun x => ?_
      cases x with
      | error f => exact Blind.pure _
      | ok t => exact ih

theorem validate_blind (c : Shared Catalog) : Blind (validate c) := by
  refine (firstFailure?_blind c.key c.value.entries.toList).bind fun f => ?_
  cases f with
  | some f => exact Blind.pure _
  | none => exact Blind.pure _

theorem install_blind (c : Shared Catalog) : Blind (install c) := by
  rintro r _ ⟨log, rfl⟩
  rw [install_run, install_run]
  exact ⟨rfl, _, rfl⟩

theorem current_blind (env : Environment) : Blind (current env) := by
  rintro r _ ⟨log, rfl⟩
  obtain h | ⟨c, h⟩ := Option.eq_none_or_eq_some r.catalog
  · obtain ⟨notes, -, hrun⟩ := current_of_none h env
    obtain ⟨notes', -, hrun'⟩ := current_of_none (r := { r with log }) h env
    rw [hrun, hrun']
    exact ⟨rfl, _, rfl⟩
  · rw [current_of_some h, current_of_some (r := { r with log }) h]
    exact ⟨rfl, _, rfl⟩

theorem Call.run_blind (call : Call) : Blind call.run := by
  cases call with
  | ofBytes b =>
    rw [Call.run]
    cases ofBytes? b with
    | error f => exact Blind.pure _
    | ok c => exact (share_blind c).bind fun _ => Blind.pure _
  | hasZone c id => exact Blind.pure _
  | zone c id => exact (lookup_blind c id).bind fun _ => Blind.pure _
  | makeZone c id now => exact (makeZone_blind c id now).bind fun _ => Blind.pure _
  | snapshot c id now =>
    exact ((makeZone_blind c id now).bind fun _ => Blind.pure _).bind fun _ => Blind.pure _
  | validate c => exact (validate_blind c).bind fun _ => Blind.pure _
  | install c => exact (install_blind c).bind fun _ => Blind.pure _
  | current env => exact (current_blind env).bind fun _ => Blind.pure _

/-- Checking changes nothing but the log. -/
theorem validate_sameButLog (c : Shared Catalog) (r : Registry) :
    r.SameButLog ((validate c).run r).2 :=
  validate_keeps Entry.decode_sameButLog c r ⟨r.log, rfl⟩

theorem checked_eq_ok {catalog : Catalog} :
    catalog.checked = .ok () ↔ ∀ e ∈ catalog.entries.toList, e.failure? = none := by
  rw [← List.findSome?_eq_none_iff, checked]
  cases catalog.entries.toList.findSome? Entry.failure? <;> simp

/-- The failure is that of the first entry that cannot be read. -/
theorem checked_eq_error {catalog : Catalog} {f : Failure} :
    catalog.checked = .error f ↔ ∃ before e after,
      catalog.entries.toList = before ++ e :: after ∧ e.failure? = some f ∧
        ∀ d ∈ before, d.failure? = none := by
  rw [← List.findSome?_eq_some_iff, checked]
  cases catalog.entries.toList.findSome? Entry.failure? <;> simp

/-- What comes before an entry has a smaller identifier, and nothing else has. -/
theorem Obtained.mem_before {catalog : Catalog} {before after : List Entry} {d e : Entry}
    (h : catalog.Obtained) (hsplit : catalog.entries.toList = before ++ e :: after)
    (hd : d ∈ catalog.entries.toList) (hlt : d.id < e.id) : d ∈ before := by
  have hincreasing := h.increasing
  rw [hsplit] at hincreasing hd
  rcases List.mem_append.mp hd with hd | hd
  · exact hd
  rcases List.mem_cons.mp hd with rfl | hd
  · exact (String.lt_irrefl _ hlt).elim
  · have hrest := (List.pairwise_append.mp hincreasing).2.1
    have hlater := (List.pairwise_cons.mp hrest).1 d hd
    exact (String.lt_irrefl _ (String.lt_trans hlt hlater)).elim

theorem Entry.failure?_eq_none_iff {e : Entry} :
    e.failure? = none ↔ e.read.toOption.isSome = true := by
  rw [Entry.failure?]
  cases e.read with
  | error f => simp [Except.toOption]
  | ok t => simp [Except.toOption]

/-- Only records fail. -/
theorem Entry.failure?_eq_some_iff {e : Entry} {f : Failure} :
    e.failure? = some f ↔ ∃ record fault, e.payload = .record record ∧
      Table.ofRecord e.id record = .error fault ∧
      f = .because (.zone e.id) (.root (.record fault)) := by
  obtain ⟨id, payload⟩ := e
  rw [Entry.failure?, Entry.read]
  cases payload with
  | table t => simp
  | record b =>
    cases h : Table.ofRecord id b with
    | error fault => simp [h, Failure.inContext, eq_comm]
    | ok t => simp [h]

end Catalog

namespace World
open Catalog

variable {w v : World} {c : Shared Catalog}

/-- No call answers otherwise because of what is in the log. -/
theorem answers_of_sameButLog (h : w.registry.SameButLog v.registry) (calls : List Call) :
    (w.transcript calls).map (·.answer) = (v.transcript calls).map (·.answer) := by
  induction calls generalizing w v with
  | nil => rfl
  | cons call calls ih =>
    obtain ⟨hanswer, hsame⟩ := call.run_blind w.registry v.registry h
    have hrest := ih (w := w.perform call) (v := v.perform call) hsame
    rw [transcript, transcript, List.map_cons, List.map_cons, hrest]
    exact congrArg (· :: _) hanswer

theorem value_validate (hw : w.Reachable) (hc : c ∈ w.catalogs) :
    w.value (validate c) = c.value.checked :=
  value_of_gives hw (validate_gives hc)

theorem isSome_lookup_iff (hw : w.Reachable) (hc : c ∈ w.catalogs) {e : Entry}
    (he : e ∈ c.value.entries) :
    (w.value (lookup c e.id)).isSome = true ↔ e.failure? = none := by
  have hlookup := value_lookup hw hc e.id
  rw [(hw.sound.registry.obtained c hc).table?_of_mem he] at hlookup
  rw [Entry.failure?_eq_none_iff, ← hlookup, Option.isSome_map]

/-- Checking agrees with looking up in every state that can be reached. It succeeds if all zones can
be looked up, and fails with the first one that cannot, for the fault of its record. It comes to the
same at every point of every run, and makes no difference to what is answered later. -/
theorem validate_exact (hw : w.Reachable) (hc : c ∈ w.catalogs) :
    let zone := fun id => w.value (lookup c id)
    let outcome := w.value (validate c)
    let after := w.after (validate c)
    (outcome = .ok () ↔ ∀ id ∈ c.value.availableIds, (zone id).isSome = true) ∧
      (∀ f, outcome = .error f → ∃ id ∈ c.value.availableIds, zone id = none ∧
        (∀ other ∈ c.value.availableIds, other < id → (zone other).isSome = true) ∧
        ∃ record fault, ⟨id, .record record⟩ ∈ c.value.entries ∧
          Table.ofRecord id record = .error fault ∧
          f.text = (Cause.zone id).text ++ ": " ++ fault.message ∧
          f.formatKind = some fault.kind) ∧
      (∀ (v : World) (d : Shared Catalog), v.Reachable → d ∈ v.catalogs → d.value = c.value →
        v.value (validate d) = outcome) ∧
      w.registry.SameButLog after.registry ∧
      ∀ calls, (after.transcript calls).map (·.answer) = (w.transcript calls).map (·.answer) := by
  intro zone outcome after
  have houtcome : outcome = c.value.checked := value_validate hw hc
  have hzone {e : Entry} (he : e ∈ c.value.entries.toList) :
      (zone e.id).isSome = true ↔ e.failure? = none :=
    isSome_lookup_iff hw hc (Array.mem_toList_iff.mp he)
  have hsame : w.registry.SameButLog after.registry := validate_sameButLog c w.registry
  refine ⟨?_, ?_, ?_, hsame, fun calls => (answers_of_sameButLog hsame calls).symm⟩
  · rw [houtcome, checked_eq_ok, availableIds, List.forall_mem_map]
    exact forall₂_congr fun e he => (hzone he).symm
  · intro f hf
    rw [houtcome, checked_eq_error] at hf
    obtain ⟨before, e, after, hsplit, hfails, hbefore⟩ := hf
    obtain ⟨record, fault, hpayload, hfault, rfl⟩ := Entry.failure?_eq_some_iff.mp hfails
    have he : e ∈ c.value.entries.toList := by simp [hsplit]
    have hnone : zone e.id = none := by
      rw [← Option.not_isSome_iff_eq_none, hzone he, hfails]
      simp
    refine ⟨e.id, List.mem_map_of_mem he, hnone, ?_, record, fault, ?_, hfault, rfl, rfl⟩
    · intro other hother hlt
      obtain ⟨d, hd, rfl⟩ := List.mem_map.mp hother
      have hobtained := hw.sound.registry.obtained c hc
      exact (hzone hd).mpr (hbefore d (hobtained.mem_before hsplit hd hlt))
    · rw [← hpayload]
      exact Array.mem_toList_iff.mp he
  · intro v d hv hd hvalue
    rw [value_validate hv hd, hvalue, houtcome]

/-- A catalog is checked of which one zone has been looked up and another one cannot be. -/
theorem validate_exact_sample :
    let w := (initial.perform (.ofBytes sampleContainer)).perform (.zone sampleCatalog "Etc/UTC")
    w.Reachable ∧ sampleCatalog ∈ w.catalogs ∧
      ∃ f, w.value (validate sampleCatalog) = .error f ∧ f.formatKind = some .badMagic := by
  intro w
  have hheld : sampleCatalog ∈ (initial.perform (.ofBytes sampleContainer)).catalogs := by
    rw [perform, Call.run, ofBytes?_eq_ok.mpr ofBytes_sampleContainer]
    exact List.mem_cons_self
  have hw : w.Reachable := by
    refine reachable_perform (reachable_perform .initial ?_) ?_
    · rintro c ⟨⟩
    · rintro c ⟨⟩
      exact hheld
  have hc : sampleCatalog ∈ w.catalogs := List.mem_append_right _ hheld
  obtain ⟨hok, herror, -⟩ := validate_exact hw hc
  refine ⟨hw, hc, ?_⟩
  cases hx : w.value (validate sampleCatalog) with
  | ok =>
    -- the second zone could be looked up, but its record is empty
    have hbad : ⟨Bytes.text (List.replicate 40 0x5A), .record []⟩ ∈ sampleCatalog.value.entries :=
      List.mem_toArray.mpr (List.mem_cons_of_mem _ List.mem_cons_self)
    have hzone := hok.mp hx _ (List.mem_map_of_mem (Array.mem_toList_iff.mpr hbad))
    rw [isSome_lookup_iff hw hc hbad, Entry.failure?_eq_none_iff] at hzone
    cases hzone
  | error f =>
    obtain ⟨id, -, -, -, record, fault, hmem, hfault, -, hkind⟩ := herror f hx
    obtain ⟨z, hz, heq⟩ := List.mem_map.mp (List.mem_toArray.mp hmem)
    obtain ⟨rfl, hrecord⟩ := Entry.mk.inj heq
    obtain rfl := Payload.record.inj hrecord
    refine ⟨f, rfl, ?_⟩
    rw [hkind]
    rcases List.mem_cons.mp hz with rfl | hz
    · have hgood : (Table.ofRecord (Bytes.text Container.utcZone.1)
        Container.utcZone.2).toOption.isSome = true := by decide +kernel
      rw [hfault] at hgood
      cases hgood
    · obtain rfl := List.mem_singleton.mp hz
      obtain rfl := Except.error.inj hfault
      rfl

end World

end TimeZones
