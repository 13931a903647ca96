import TimeZones.Proofs.ContainerLayout
import TimeZones.Proofs.Sources

/-! Runs of calls on catalogs. What is answered is what reading every record anew would give, so
that nothing shows what has been decoded before. -/
namespace TimeZones
open Session

namespace Catalog

/-- What callers ask of catalogs that they hold, and of the one in use. -/
inductive Call where
  | ofBytes (b : Bytes)
  | hasZone (c : Shared Catalog) (id : String)
  | zone (c : Shared Catalog) (id : String)
  | makeZone (c : Shared Catalog) (id : String) (now : Int)
  | snapshot (c : Shared Catalog) (id : String) (now : Int)
  | validate (c : Shared Catalog)
  | install (c : Shared Catalog)
  | current (env : Environment)

inductive Answer where
  | read (x : Except Failure (Shared Catalog))
  | known (b : Bool)
  | table (t : Option (Shared Table))
  | zone (z : Option Zone)
  | summary (s : Option Snapshot)
  | checked (x : Except Failure Unit)
  | replaced (old : Option (Shared Catalog))
  | inUse (c : Shared Catalog)

/-- Catalogs that callers hold from then on. -/
def Answer.catalogs : Answer → List (Shared Catalog)
  | read x => x.toOption.toList
  | replaced old => old.toList
  | inUse c => [c]
  | known _ | table _ | zone _ | summary _ | checked _ => []

/-- The table that callers get hold of. -/
def Answer.table? : Answer → Option (Shared Table)
  | table t => t
  | zone z => z.map (·.table)
  | read _ | known _ | summary _ | checked _ | replaced _ | inUse _ => none

theorem install_run (c : Shared Catalog) (r : Registry) :
    (install c).run r = (r.catalog, { r with
      log := r.log ++ r.catalog.toList.map fun old =>
        .catalogReplaced old.value.version c.value.version
      catalog := some c }) := by
  rw [install, run_get_bind]
  cases hinUse : r.catalog with
  | none =>
    rw [Option.toList_none, List.map_nil, List.append_nil]
    rfl
  | some old => rfl

/-- A zone comes to `t` when its record is read anew. -/
def Yields (c : Catalog) (id : String) (t : Option Table) : Prop :=
  ∀ table, t = some table ↔ c.Holds id table

namespace Call

def run : Call → Session Answer
  | ofBytes b =>
    match ofBytes? b with
    | .error f => return .read (.error f)
    | .ok c => return .read (.ok (← Session.share c))
  | hasZone c id => return .known (c.value.hasZone id)
  | zone c id => return .table (← lookup c id)
  | makeZone c id now => return .zone (← Catalog.makeZone c id now)
  | snapshot c id now => return .summary (← Catalog.snapshot c id now)
  | validate c => return .checked (← Catalog.validate c)
  | install c => return .replaced (← Catalog.install c)
  | current env => return .inUse (← Catalog.current env)

/-- The catalog that a call is on. -/
def catalog? : Call → Option (Shared Catalog)
  | hasZone c _ | zone c _ | makeZone c _ _ | snapshot c _ _ | validate c | install c => some c
  | ofBytes _ | current _ => none

/-- The zone whose table a call needs: a catalog and an identifier. -/
def wanted : Call → Option (Shared Catalog × String)
  | zone c id | makeZone c id _ | snapshot c id _ => some (c, id)
  | ofBytes _ | hasZone _ _ | validate _ | install _ | current _ => none

/-- What is in use after a call: what it has installed, or else what was in use before or has been
put in use for this call. -/
def inUseAfter (inUse : Option (Shared Catalog)) : Call → Answer → Option (Shared Catalog)
  | install c, _ => some c
  | current _, .inUse c => some c
  | _, _ => inUse

/-- What a call is to answer when `inUse` is in use. This says nothing about what has been decoded
before, and leaves open under which key something new is shared. Only if nothing is in use does it
depend on the environment which catalog is. -/
def Expects (inUse : Option (Shared Catalog)) : Call → Answer → Prop
  | ofBytes b, a => ∃ x, a = .read x ∧ x.map (·.value) = ofBytes? b
  | hasZone c id, a => ∃ known, a = .known known ∧ (known = true ↔ id ∈ c.value.availableIds)
  | zone c id, a => ∃ t, a = .table t ∧ c.value.Yields id (t.map (·.value))
  | makeZone c id now, a =>
    ∃ t : Option (Shared Table),
      a = .zone (t.map (Zone.ofTable · now)) ∧ c.value.Yields id (t.map (·.value))
  | snapshot c id now, a =>
    ∃ t, a = .summary (t.map (Snapshot.ofTable · now)) ∧ c.value.Yields id t
  | validate c, a => a = .checked c.value.checked
  | install _, a => a = .replaced inUse
  | current env, a =>
    match inUse with
    | some c => a = .inUse c
    | none => ∃ c, a = .inUse c ∧
        c.value = (firstIn env.files (env.catalogPath.toList ++ locations)).getD builtin

end Call

/-- What a call may write to the log when `inUse` is in use. -/
def Call.Writes (inUse : Option (Shared Catalog)) : Call → List Note → Prop
  | zone c id, notes | makeZone c id _, notes | snapshot c id _, notes =>
    c.value.LookupNotes id notes
  | validate _, notes => CheckNotes notes
  | install c, notes =>
    notes = inUse.toList.map fun old => .catalogReplaced old.value.version c.value.version
  | current _, notes => (inUse.isSome → notes = []) ∧ ∀ n ∈ notes, n.IsOnFile
  | ofBytes _, notes | hasZone _ _, notes => notes = []

/-- One call in a run. -/
structure Exchange where
  before : Registry
  call : Call
  answer : Answer
  after : Registry

/-- If both exchanges are about one zone, then the second one leaves everything as it is, so that
nothing is decoded again or written to the log, and its table is the one of the first. A question
that is asked again has the same answer. -/
def Exchange.Recalls (x y : Exchange) : Prop :=
  ∀ c d id, x.call.wanted = some (c, id) → y.call.wanted = some (d, id) → c.isSame d →
    y.after = y.before ∧ (∀ s ∈ x.answer.table?, ∀ t ∈ y.answer.table?, s = t) ∧
      (x.call = y.call → x.answer = y.answer)

/-- On the catalog of a container, a zone is answered exactly if the index has it and its record can
be read, and then with the table of the record. -/
def Exchange.ReadsRecord (x : Exchange) : Prop :=
  ∀ c id b, x.call = .zone c id → ofBytes b = .ok c.value → ∀ table,
    (∃ t, x.answer = .table (some t) ∧ t.value = table) ↔
      ∃ record, ⟨id, .record record⟩ ∈ c.value.entries ∧ Table.ofRecord id record = .ok table

/-- What is written in an exchange is what may be written. -/
def Exchange.WritesNotes (x : Exchange) : Prop :=
  ∃ notes, x.after.log = x.before.log ++ notes ∧ x.call.Writes x.before.catalog notes

/-- All answers in a run are as expected when `inUse` is in use at first, and then the catalog that
was installed last. -/
def AllExpected : Option (Shared Catalog) → List Exchange → Prop
  | _, [] => True
  | inUse, x :: xs =>
    x.call.Expects inUse x.answer ∧ AllExpected (x.call.inUseAfter inUse x.answer) xs

end Catalog

namespace World
open Catalog

def perform (w : World) (call : Call) : World := w.gain call.run Answer.catalogs

/-- The calls are on catalogs that callers hold when they make them. -/
def Admits : World → List Call → Prop
  | _, [] => True
  | w, call :: calls => (∀ c ∈ call.catalog?, c ∈ w.catalogs) ∧ (w.perform call).Admits calls

/-- A run of calls, one after the other. -/
def transcript : World → List Call → List Exchange
  | _, [] => []
  | w, call :: calls =>
    ⟨w.registry, call, w.value call.run, (w.perform call).registry⟩ ::
      (w.perform call).transcript calls

variable {w : World} {c : Shared Catalog} {id : String} {call : Call} {calls : List Call}
  {t : Option (Shared Table)}

theorem reachable_perform (hw : w.Reachable) (hcall : ∀ c ∈ call.catalog?, c ∈ w.catalogs) :
    (w.perform call).Reachable := by
  cases call with
  | ofBytes b =>
    rw [perform, Call.run]
    cases hb : ofBytes? b with
    | error f => exact hw
    | ok c => exact .step hw (.ofBytes (ofBytes?_eq_ok.mp hb))
  | hasZone c id => exact hw
  | zone c id => exact .step hw (.lookup id (hcall c rfl))
  | makeZone c id now => exact .step hw (.makeZone id now (hcall c rfl))
  | snapshot c id now => exact .step hw (.snapshot id now (hcall c rfl))
  | validate c => exact .step hw (.validate (hcall c rfl))
  | install c => exact .step hw (.install (hcall c rfl))
  | current env => exact .step hw (.current env)

theorem yields_of_mem (hw : w.Reachable) (hc : c ∈ w.catalogs) :
    c.value.Yields id (c.value.table? id) :=
  fun _ => (hw.sound.registry.obtained c hc).table?_eq_some_iff

theorem yields_lookup (hw : w.Reachable) (hc : c ∈ w.catalogs) :
    c.value.Yields id ((w.value (lookup c id)).map (·.value)) := by
  rw [value_lookup hw hc]
  exact yields_of_mem hw hc

/-- Whatever has been decoded before, a call answers as expected. -/
theorem expects (hw : w.Reachable) (hcall : ∀ c ∈ call.catalog?, c ∈ w.catalogs) :
    call.Expects w.registry.catalog (w.value call.run) := by
  have hsound := hw.sound.registry
  cases call with
  | ofBytes b =>
    rw [value, Call.run]
    cases hb : ofBytes? b with
    | error f => exact ⟨.error f, rfl, hb.symm⟩
    | ok c => exact ⟨_, rfl, hb.symm⟩
  | hasZone c id => exact ⟨_, rfl, (hsound.obtained c (hcall c rfl)).hasZone_iff⟩
  | zone c id => exact ⟨_, rfl, yields_lookup hw (hcall c rfl)⟩
  | makeZone c id now => exact ⟨_, rfl, yields_lookup hw (hcall c rfl)⟩
  | snapshot c id now =>
    have hsnapshot := (snapshot_gives (hcall c rfl) id now w.registry hsound).2
    exact ⟨_, congrArg Answer.summary hsnapshot, yields_of_mem hw (hcall c rfl)⟩
  | validate c =>
    exact congrArg Answer.checked (validate_gives (hcall c rfl) w.registry hsound).2
  | install c =>
    exact congrArg Answer.replaced (congrArg Prod.fst (install_run c w.registry))
  | current env =>
    simp only [Call.Expects]
    cases hinUse : w.registry.catalog with
    | some c =>
      exact congrArg Answer.inUse (congrArg Prod.fst (current_of_some hinUse env))
    | none =>
      obtain ⟨notes, -, hrun⟩ := current_of_none hinUse env
      exact ⟨_, congrArg Answer.inUse (congrArg Prod.fst hrun), rfl⟩

/-- What a call makes of the registry, and what it writes. -/
theorem becomes_perform (w : World) (call : Call) :
    w.registry.Becomes (call.inUseAfter w.registry.catalog (w.value call.run))
      (call.Writes w.registry.catalog) (w.perform call).registry := by
  cases call with
  | ofBytes b =>
    rw [perform, Call.run]
    cases ofBytes? b with
    | error f => exact .refl rfl
    | ok c => exact ⟨rfl, fun _ _ ht => ht, [], (List.append_nil _).symm, rfl⟩
  | hasZone c id => exact .refl rfl
  | zone c id => exact lookup_becomes c id w.registry
  | makeZone c id now => exact lookup_becomes c id w.registry
  | snapshot c id now => exact lookup_becomes c id w.registry
  | validate c => exact validate_becomes c w.registry
  | install c =>
    have hafter : (w.perform (.install c)).registry = ((install c).run w.registry).2 := rfl
    rw [hafter, install_run]
    exact ⟨rfl, fun _ _ ht => ht, _, rfl, rfl⟩
  | current env =>
    have hafter : (w.perform (.current env)).registry = ((current env).run w.registry).2 := rfl
    have hanswer : w.value (Call.current env).run = .inUse ((current env).run w.registry).1 := rfl
    rw [hafter, hanswer]
    cases hinUse : w.registry.catalog with
    | some c =>
      rw [current_of_some hinUse]
      exact ⟨hinUse, fun _ _ ht => ht, [], (List.append_nil _).symm, fun _ => rfl,
        List.forall_mem_nil _⟩
    | none =>
      obtain ⟨notes, hnotes, hrun⟩ := current_of_none hinUse env
      rw [hrun]
      exact ⟨rfl, fun _ _ ht => ht, notes, rfl, fun h => (Bool.false_ne_true h).elim, hnotes⟩

theorem catalog?_of_wanted (h : call.wanted = some (c, id)) : call.catalog? = some c := by
  cases call with
  | zone d id' => cases h; rfl
  | makeZone d id' now => cases h; rfl
  | snapshot d id' now => cases h; rfl
  | ofBytes _ => cases h
  | hasZone _ _ => cases h
  | validate _ => cases h
  | install _ => cases h
  | current _ => cases h

/-- Calls that need a zone's table look it up, and answer with what they make of it. -/
theorem run_of_wanted (h : call.wanted = some (c, id)) :
    ∃ f : Option (Shared Table) → Answer,
      call.run = f <$> lookup c id ∧ ∀ t, ∀ s ∈ (f t).table?, t = some s := by
  cases call with
  | zone d id' =>
    cases h
    exact ⟨Answer.table, rfl, fun _ _ hs => hs⟩
  | makeZone d id' now =>
    cases h
    refine ⟨fun t => .zone (t.map (Zone.ofTable · now)), rfl, ?_⟩
    intro t s hs
    obtain ⟨z, hz, rfl⟩ := Option.map_eq_some_iff.mp hs
    obtain ⟨u, rfl, rfl⟩ := Option.map_eq_some_iff.mp hz
    rfl
  | snapshot d id' now =>
    cases h
    refine ⟨fun t => .summary ((t.map (Zone.ofTable · now)).map (·.snapshot)), rfl, ?_⟩
    intro t s hs
    cases hs
  | ofBytes _ => cases h
  | hasZone _ _ => cases h
  | validate _ => cases h
  | install _ => cases h
  | current _ => cases h

theorem perform_of_run {f : Option (Shared Table) → Answer} (h : call.run = f <$> lookup c id)
    (w : World) : w.value call.run = f (w.value (lookup c id)) ∧
      (w.perform call).registry = ((lookup c id).run w.registry).2 := by
  rw [perform, h]
  exact ⟨rfl, rfl⟩

/-- Under one key callers hold one catalog. -/
theorem eq_of_isSame {d : Shared Catalog} (hw : w.Reachable) (hc : c ∈ w.catalogs)
    (hd : d ∈ w.catalogs) (h : c.isSame d = true) : c = d := by
  have hkey : c.key = d.key := of_decide_eq_true h
  have hvalue := hw.sound.registry.key_inj c hc d hd hkey
  cases c
  cases d
  rw [Shared.mk.injEq]
  exact ⟨hkey, hvalue⟩

/-- A zone that is known stays as it is: no later call decodes it or answers with another table. -/
theorem recalls_of_knows (hw : w.Reachable) (hcalls : w.Admits calls) (hc : c ∈ w.catalogs)
    (hk : w.registry.Knows c id t) {y : Exchange} (hy : y ∈ w.transcript calls)
    {d : Shared Catalog} (hd : y.call.wanted = some (d, id)) (hcd : c.isSame d = true) :
    d = c ∧ y.after = y.before ∧ ∀ f, y.call.run = f <$> lookup c id → y.answer = f t := by
  induction calls generalizing w with
  | nil => cases hy
  | cons call calls ih =>
    obtain ⟨hcall, hcalls⟩ := hcalls
    rcases List.mem_cons.mp hy with rfl | hy
    · obtain rfl := eq_of_isSame hw hc (hcall d (catalog?_of_wanted hd)) hcd
      obtain ⟨f, hf, -⟩ := run_of_wanted hd
      refine ⟨rfl, ?_, ?_⟩
      · exact (perform_of_run hf w).2.trans (congrArg Prod.snd hk.lookup)
      · intro g hg
        exact (perform_of_run hg w).1.trans (congrArg (g ·.1) hk.lookup)
    · exact ih (reachable_perform hw hcall) hcalls (List.mem_append_right _ hc)
        (hk.becomes (becomes_perform w call)) hy

theorem recalls_transcript (hw : w.Reachable) (hcalls : w.Admits calls) :
    (w.transcript calls).Pairwise Exchange.Recalls := by
  induction calls generalizing w with
  | nil => exact List.Pairwise.nil
  | cons call calls ih =>
    obtain ⟨hcall, hcalls⟩ := hcalls
    refine List.Pairwise.cons ?_ (ih (reachable_perform hw hcall) hcalls)
    intro y hy c d id hc hd hcd
    have hcw : c ∈ w.catalogs := hcall c (catalog?_of_wanted hc)
    obtain ⟨f, hf, hftable⟩ := run_of_wanted hc
    obtain ⟨hanswer, hregistry⟩ := perform_of_run hf w
    -- the first call makes the zone known, and the rest of the run starts from there
    have hk : (w.perform call).registry.Knows c id (w.value (lookup c id)) := by
      rw [hregistry]
      exact lookup_knows c id w.registry
    obtain ⟨rfl, hsame, hagain⟩ := recalls_of_knows (reachable_perform hw hcall) hcalls
      (List.mem_append_right _ hcw) hk hy hd hcd
    obtain ⟨g, hg, hgtable⟩ := run_of_wanted hd
    refine ⟨hsame, ?_, ?_⟩
    · intro s hs t ht
      rw [hanswer] at hs
      rw [hagain g hg] at ht
      exact Option.some.inj ((hftable _ s hs).symm.trans (hgtable _ t ht))
    · rintro rfl
      exact hanswer.trans (hagain f hf).symm

theorem allExpected_transcript (hw : w.Reachable) (hcalls : w.Admits calls) :
    AllExpected w.registry.catalog (w.transcript calls) := by
  induction calls generalizing w with
  | nil => trivial
  | cons call calls ih =>
    obtain ⟨hcall, hcalls⟩ := hcalls
    refine ⟨expects hw hcall, ?_⟩
    have hrest := ih (reachable_perform hw hcall) hcalls
    rw [(becomes_perform w call).catalog] at hrest
    exact hrest

theorem writesNotes_transcript {x : Exchange} (hx : x ∈ w.transcript calls) : x.WritesNotes := by
  induction calls generalizing w with
  | nil => cases hx
  | cons call calls ih =>
    rcases List.mem_cons.mp hx with rfl | hx
    · exact (becomes_perform w call).log
    · exact ih hx

end World

namespace Catalog

theorem exists_expects {inUse : Option (Shared Catalog)} {x : Exchange} {xs : List Exchange}
    (h : AllExpected inUse xs) (hx : x ∈ xs) : ∃ c, x.call.Expects c x.answer := by
  induction xs generalizing inUse with
  | nil => cases hx
  | cons y ys ih =>
    rcases List.mem_cons.mp hx with rfl | hx
    · exact ⟨inUse, h.1⟩
    · exact ih h.2 hx

theorem readsRecord_of_expects {inUse : Option (Shared Catalog)} {x : Exchange}
    (h : x.call.Expects inUse x.answer) : x.ReadsRecord := by
  intro c id b hcall hb table
  rw [hcall] at h
  obtain ⟨t, hanswer, ht⟩ := h
  rw [← holds_iff_of_ofBytes hb, ← ht, hanswer, Option.map_eq_some_iff]
  constructor
  · rintro ⟨s, hs, hvalue⟩
    exact ⟨s, Answer.table.inj hs, hvalue⟩
  · rintro ⟨s, rfl, hvalue⟩
    exact ⟨s, rfl, hvalue⟩

end Catalog

namespace World
open Catalog

variable {w : World} {calls : List Call}

/-- In every run of calls all answers are as expected, as if each record were decoded anew. Zones of
containers come to what their records say. Each zone is decoded at most once, and from then on its
table is the same one and nothing more is written. -/
theorem transcript_exact (hw : w.Reachable) (hcalls : w.Admits calls) :
    AllExpected w.registry.catalog (w.transcript calls) ∧
      (∀ x ∈ w.transcript calls, x.ReadsRecord) ∧
      (w.transcript calls).Pairwise Exchange.Recalls ∧
      ∀ x ∈ w.transcript calls, x.WritesNotes := by
  have hexpected := allExpected_transcript hw hcalls
  refine ⟨hexpected, ?_, recalls_transcript hw hcalls, fun x hx => writesNotes_transcript hx⟩
  intro x hx
  obtain ⟨c, hc⟩ := exists_expects hexpected hx
  exact readsRecord_of_expects hc

theorem admits_of_held (h : ∀ call ∈ calls, ∀ c ∈ call.catalog?, c ∈ w.catalogs) :
    w.Admits calls := by
  induction calls generalizing w with
  | nil => trivial
  | cons call calls ih =>
    obtain ⟨hcall, hcalls⟩ := List.forall_mem_cons.mp h
    refine ⟨hcall, ih fun other hother c hc => ?_⟩
    exact List.mem_append_right _ (hcalls other hother c hc)

/-- The catalog that a container is read as, the first one that callers get hold of. -/
def sampleCatalog : Shared Catalog :=
  ⟨0, Container.writtenCatalog Container.sampleVersion Container.sample "#"⟩

def sampleContainer : Bytes := Container.write Container.sampleVersion Container.sample "#"

/-- A zone is looked up twice, while its catalog is put in use and checked. The environment is not
asked for another one. -/
def sampleCalls (env : Environment) : List Call :=
  [.zone sampleCatalog "Etc/UTC", .install sampleCatalog, .validate sampleCatalog, .current env,
    .zone sampleCatalog "Etc/UTC"]

theorem ofBytes_sampleContainer : Catalog.ofBytes sampleContainer = .ok sampleCatalog.value := by
  have horder : Container.disorder? none (Container.sample.map fun z => Bytes.text z.1) = none := by
    decide +kernel
  have hread := Container.ofBytes_write_eq Container.writable_sample.1
  rw [horder] at hread
  exact hread

theorem transcript_exact_sample :
    let calls := .ofBytes sampleContainer :: sampleCalls ⟨⟨[], []⟩, some "/tzdata", none⟩
    let answers := (initial.transcript calls).map (·.answer)
    initial.Reachable ∧ initial.Admits calls ∧ answers[2]? = some (.replaced none) ∧
      answers[4]? = some (.inUse sampleCatalog) ∧
      ∃ t, answers[1]? = some (.table (some t)) ∧ answers[5]? = some (.table (some t)) ∧
        Table.ofRecord "Etc/UTC" Container.utcZone.2 = .ok t.value := by
  intro calls answers
  have hread := ofBytes?_eq_ok.mpr ofBytes_sampleContainer
  have hheld : sampleCatalog ∈ (initial.perform (.ofBytes sampleContainer)).catalogs := by
    rw [perform, Call.run, hread]
    exact List.mem_cons_self
  have hadmits : initial.Admits calls := by
    refine ⟨?_, admits_of_held ?_⟩
    · rintro c ⟨⟩
    · simp [sampleCalls, Call.catalog?, hheld]
  obtain ⟨hexpected, hrecord, hrecalls, -⟩ := transcript_exact Reachable.initial hadmits
  obtain ⟨-, -, hinstalled, -, hinUse, -⟩ := hexpected
  refine ⟨.initial, hadmits, congrArg some hinstalled, congrArg some hinUse, ?_⟩
  have hgood : (Table.ofRecord "Etc/UTC" Container.utcZone.2).toOption.isSome = true := by
    decide +kernel
  obtain ⟨table, htable⟩ := Option.isSome_iff_exists.mp hgood
  have hmem : ⟨"Etc/UTC", .record Container.utcZone.2⟩ ∈ sampleCatalog.value.entries := by
    rw [← Container.text_utcZone]
    exact List.mem_toArray.mpr (List.mem_map.mpr ⟨Container.utcZone, List.mem_cons_self, rfl⟩)
  have hlength : (initial.transcript calls).length = 6 := rfl
  have hone : 1 < (initial.transcript calls).length := by rw [hlength]; decide
  have hfive : 5 < (initial.transcript calls).length := by rw [hlength]; decide
  obtain ⟨t, hfirst, rfl⟩ := (hrecord _ (List.getElem_mem hone) sampleCatalog "Etc/UTC"
    sampleContainer rfl ofBytes_sampleContainer table).mpr ⟨_, hmem, toOption_eq_some.mp htable⟩
  have hpair := List.pairwise_iff_getElem.mp hrecalls 1 5 hone hfive (by decide)
  obtain ⟨-, -, hsame⟩ := hpair sampleCatalog sampleCatalog "Etc/UTC" rfl rfl (decide_eq_true rfl)
  have hagain := (hsame rfl).symm.trans hfirst
  exact ⟨t, congrArg some hfirst, congrArg some hagain, toOption_eq_some.mp htable⟩

end World

end TimeZones
