import TimeZones.Proofs.CatalogInvariant
import TimeZones.Proofs.KnownZones
import TimeZones.Registry

/-! What computations on the registry leave it in, and the state of the registry that all of them
rely on: what has been decoded of a held catalog is what its records say. -/
namespace TimeZones

namespace Session

variable {α β : Type} {P : Registry → Prop} {Q Q' : α → Registry → Prop}
  {R : β → Registry → Prop} {m : Session α} {f : α → Session β}

/-- From where `P` holds, `m` comes to a value and a registry for which `Q` holds. -/
def Triple (P : Registry → Prop) (m : Session α) (Q : α → Registry → Prop) : Prop :=
  ∀ r, P r → Q (m.run r).1 (m.run r).2

/-- `m` stays where `P` holds. -/
def Keeps (P : Registry → Prop) (m : Session α) : Prop := Triple P m fun _ => P

/-- `m` stays where `P` holds and its value is `a`. -/
def Gives (P : Registry → Prop) (m : Session α) (a : α) : Prop := Triple P m fun x r => P r ∧ x = a

theorem Triple.pure {a : α} (h : ∀ r, P r → Q a r) : Triple P (pure a) Q := h

theorem Triple.bind (hm : Triple P m Q) (hf : ∀ a, Triple (Q a) (f a) R) : Triple P (m >>= f) R :=
  fun r hr => hf _ _ (hm r hr)

theorem Triple.weaken (hm : Triple P m Q) (h : ∀ a r, Q a r → Q' a r) : Triple P m Q' :=
  fun r hr => h _ _ (hm r hr)

/-- What holds before, whatever the registry is, can be used as it is. -/
theorem Triple.assume {p : Prop} (h : p → Triple P m Q) : Triple (fun r => P r ∧ p) m Q :=
  fun r hr => h hr.2 r hr.1

/-- Of the registry that is read, what holds there can be used later on. -/
theorem Triple.get_bind {g : Registry → Session α} (h : ∀ s, P s → Triple P (g s) Q) :
    Triple P (get >>= g) Q :=
  fun r hr => h r hr r hr

theorem Triple.keeps (hm : Triple P m fun a r => P r ∧ Q a r) : Keeps P m :=
  Triple.weaken hm fun _ _ h => h.1

theorem Keeps.pure (a : α) : Keeps P (pure a) := fun _ hr => hr

theorem Keeps.bind (hm : Keeps P m) (hf : ∀ a, Keeps P (f a)) : Keeps P (m >>= f) :=
  Triple.bind hm hf

theorem Gives.pure (a : α) : Gives P (pure a) a := fun _ hr => ⟨hr, rfl⟩

theorem Gives.bind_triple {a : α} (hm : Gives P m a) (hf : Triple P (f a) R) :
    Triple P (m >>= f) R := by
  refine Triple.bind hm ?_
  rintro _ r ⟨hr, rfl⟩
  exact hf r hr

theorem Gives.bind {a : α} {b : β} (hm : Gives P m a) (hf : Gives P (f a) b) :
    Gives P (m >>= f) b :=
  Gives.bind_triple hm hf

theorem Gives.keeps {a : α} (h : Gives P m a) : Keeps P m := Triple.keeps h

/-- `m` comes to a value for which `p` holds, whatever the registry is. -/
def Answers (m : Session α) (p : α → Prop) : Prop := ∀ r, p (m.run r).1

theorem Answers.pure {p : α → Prop} {a : α} (h : p a) : Answers (pure a) p := fun _ => h

theorem Answers.bind {p : α → Prop} {q : β → Prop} (hm : Answers m p)
    (hf : ∀ a, p a → Answers (f a) q) : Answers (m >>= f) q :=
  fun r => hf _ (hm r) _

theorem Answers.weaken {p q : α → Prop} (hm : Answers m p) (h : ∀ a, p a → q a) : Answers m q :=
  fun r => h _ (hm r)

/-- What is written to the log does not show in the value. -/
theorem Answers.note_bind {p : α → Prop} {n : Note} (hm : Answers m p) :
    Answers (note n >>= fun _ => m) p :=
  fun _ => hm _

theorem Answers.share (a : α) : Answers (share a) fun s => s.value = a := fun _ => rfl

theorem Answers.logged_bind {p : β → Prop} {x : Logged α} (hf : Answers (f x.value) p) :
    Answers (logged x >>= f) p :=
  fun _ => hf _

/-- A loop that asks for each element what `p` says comes to what `List.any` says. -/
theorem Gives.anyM {p : α → Bool} {g : α → Session Bool} {as : List α}
    (h : ∀ a ∈ as, Gives P (g a) (p a)) : Gives P (as.anyM g) (as.any p) := by
  induction as with
  | nil => exact Gives.pure false
  | cons a as ih =>
    obtain ⟨ha, has⟩ := List.forall_mem_cons.mp h
    refine Gives.bind ha ?_
    rw [List.any_cons]
    cases p a with
    | true => exact Gives.pure true
    | false => exact ih has

theorem Gives.allM {p : α → Bool} {g : α → Session Bool} {as : List α}
    (h : ∀ a ∈ as, Gives P (g a) (p a)) : Gives P (as.allM g) (as.all p) := by
  induction as with
  | nil => exact Gives.pure true
  | cons a as ih =>
    obtain ⟨ha, has⟩ := List.forall_mem_cons.mp h
    refine Gives.bind ha ?_
    rw [List.all_cons]
    cases p a with
    | true => exact ih has
    | false => exact Gives.pure false

end Session

/-- A finder over one of several catalogs, with a configuration that can be obtained and of which
that catalog has all zones. -/
structure Finder.IsOver (catalogs : List (Shared Catalog)) (f : Finder) : Prop where
  catalog_mem : f.catalog ∈ catalogs
  index : f.index.Obtained
  known : f.index.KnownTo f.catalog.value

theorem Finder.IsOver.mono {catalogs more : List (Shared Catalog)} {f : Finder}
    (h : f.IsOver catalogs) (hmore : catalogs ⊆ more) : f.IsOver more :=
  ⟨hmore h.catalog_mem, h.index, h.known⟩

namespace Registry

variable {catalogs : List (Shared Catalog)} {r : Registry}

/-- What every call relies on and leaves as it was, when callers hold `catalogs`. Keys tell them
apart, what has been decoded of them is what their records say, and what is in use is held. -/
structure Sound (catalogs : List (Shared Catalog)) (r : Registry) : Prop where
  obtained : ∀ c ∈ catalogs, c.value.Obtained
  key_lt : ∀ c ∈ catalogs, c.key < r.nextKey
  key_inj : ∀ c ∈ catalogs, ∀ d ∈ catalogs, c.key = d.key → c.value = d.value
  decoded_lt : ∀ p ∈ r.decoded, p.1.1 < r.nextKey
  decoded_eq : ∀ c ∈ catalogs, ∀ id t,
    r.decoded.lookup (c.key, id) = some t → t.map (·.value) = c.value.table? id
  catalog_mem : ∀ c ∈ r.catalog, c ∈ catalogs
  finder : ∀ f ∈ r.finder, f.IsOver catalogs

theorem Sound.log (h : r.Sound catalogs) (notes : List Note) :
    Sound catalogs { r with log := notes } :=
  ⟨h.obtained, h.key_lt, h.key_inj, h.decoded_lt, h.decoded_eq, h.catalog_mem, h.finder⟩

theorem Sound.nextKey (h : r.Sound catalogs) (n : Nat) :
    Sound catalogs { r with nextKey := r.nextKey + n } :=
  ⟨h.obtained, fun c hc => Nat.lt_add_right n (h.key_lt c hc), h.key_inj,
    fun p hp => Nat.lt_add_right n (h.decoded_lt p hp), h.decoded_eq, h.catalog_mem, h.finder⟩

theorem Sound.use (h : r.Sound catalogs) {c : Shared Catalog} (hc : c ∈ catalogs) :
    Sound catalogs { r with catalog := some c } :=
  ⟨h.obtained, h.key_lt, h.key_inj, h.decoded_lt, h.decoded_eq, fun _ hd => Option.some.inj hd ▸ hc,
    h.finder⟩

theorem Sound.useFinder (h : r.Sound catalogs) {f : Finder} (hf : f.IsOver catalogs) :
    Sound catalogs { r with finder := some f } :=
  ⟨h.obtained, h.key_lt, h.key_inj, h.decoded_lt, h.decoded_eq, h.catalog_mem,
    fun _ hg => Option.some.inj hg ▸ hf⟩

/-- A catalog under a new key is one of which nothing has been decoded. -/
theorem Sound.lookup_nextKey (h : r.Sound catalogs) (id : String) :
    r.decoded.lookup (r.nextKey, id) = none := by
  rw [List.lookup_eq_none_iff]
  intro p hp
  have hlt := h.decoded_lt p hp
  rw [bne_iff_ne]
  intro heq
  rw [← heq] at hlt
  exact Nat.lt_irrefl _ hlt

theorem Sound.add (h : r.Sound catalogs) {c : Catalog} (hc : c.Obtained) :
    Sound (⟨r.nextKey, c⟩ :: catalogs) { r with nextKey := r.nextKey + 1 } := by
  have hne {d : Shared Catalog} (hd : d ∈ catalogs) : d.key ≠ r.nextKey :=
    Nat.ne_of_lt (h.key_lt d hd)
  refine ⟨?_, ?_, ?_, ?_, ?_, fun d hd => List.mem_cons_of_mem _ (h.catalog_mem d hd), ?_⟩
  · rintro d (_ | ⟨_, hd⟩)
    · exact hc
    · exact h.obtained d hd
  · rintro d (_ | ⟨_, hd⟩)
    · exact Nat.lt_succ_self _
    · exact Nat.lt_succ_of_lt (h.key_lt d hd)
  · rintro d (_ | ⟨_, hd⟩) e (_ | ⟨_, he⟩) hkey
    · rfl
    · exact (hne he hkey.symm).elim
    · exact (hne hd hkey).elim
    · exact h.key_inj d hd e he hkey
  · intro p hp
    exact Nat.lt_succ_of_lt (h.decoded_lt p hp)
  · rintro d (_ | ⟨_, hd⟩) id t ht
    · have hnone := h.lookup_nextKey id
      simp [hnone] at ht
    · exact h.decoded_eq d hd id t ht
  · exact fun f hf => (h.finder f hf).mono fun _ => List.mem_cons_of_mem _

/-- It makes no difference to hold catalogs twice. -/
theorem Sound.append_of_subset (h : r.Sound catalogs) {more : List (Shared Catalog)}
    (hmore : more ⊆ catalogs) : Sound (more ++ catalogs) r := by
  have hmem {d : Shared Catalog} (hd : d ∈ more ++ catalogs) : d ∈ catalogs :=
    (List.mem_append.mp hd).elim (@hmore d) id
  exact ⟨fun d hd => h.obtained d (hmem hd), fun d hd => h.key_lt d (hmem hd),
    fun d hd e he => h.key_inj d (hmem hd) e (hmem he), h.decoded_lt,
    fun d hd => h.decoded_eq d (hmem hd), fun d hd => List.mem_append_right _ (h.catalog_mem d hd),
    fun f hf => (h.finder f hf).mono (List.subset_append_right _ _)⟩

theorem Sound.cons_of_mem (h : r.Sound catalogs) {c : Shared Catalog} (hc : c ∈ catalogs) :
    Sound (c :: catalogs) r :=
  h.append_of_subset (List.cons_subset.mpr ⟨hc, List.nil_subset _⟩)

/-- Keeping what a record of a held catalog says is sound for all catalogs that are held. -/
theorem Sound.remember (h : r.Sound catalogs) {c : Shared Catalog} (hc : c ∈ catalogs) {id : String}
    {t : Option (Shared Table)} (ht : t.map (·.value) = c.value.table? id) :
    Sound catalogs { r with decoded := ((c.key, id), t) :: r.decoded } := by
  refine ⟨h.obtained, h.key_lt, h.key_inj, ?_, ?_, h.catalog_mem, h.finder⟩
  · intro p hp
    rcases List.mem_cons.mp hp with rfl | hp
    · exact h.key_lt c hc
    · exact h.decoded_lt p hp
  · intro d hd id' t' ht'
    by_cases hp : (d.key, id') = (c.key, id)
    · obtain ⟨hkey, rfl⟩ := Prod.mk.inj hp
      rw [hp, List.lookup_cons_self] at ht'
      obtain rfl := Option.some.inj ht'
      rw [ht, h.key_inj c hc d hd hkey.symm]
    · rw [List.lookup_cons, beq_eq_false_iff_ne.mpr hp] at ht'
      exact h.decoded_eq d hd id' t' ht'

end Registry

namespace Session

variable {α : Type} {catalogs : List (Shared Catalog)}

theorem note_keeps (n : Note) : Keeps (Registry.Sound catalogs) (note n) := fun _ h => h.log _

theorem logged_gives (x : Logged α) : Gives (Registry.Sound catalogs) (logged x) x.value :=
  fun _ h => ⟨h.log _, rfl⟩

theorem share_spec (a : α) : Triple (Registry.Sound catalogs) (share a) fun s r =>
    r.Sound catalogs ∧ s.value = a := fun _ h => ⟨h.nextKey 1, rfl⟩

theorem share_catalog_spec {c : Catalog} (hc : c.Obtained) :
    Triple (Registry.Sound catalogs) (share c) fun s r => r.Sound (s :: catalogs) :=
  fun _ h => h.add hc

theorem readRecord_gives (id : String) (b : Bytes) :
    Gives (Registry.Sound catalogs) (readRecord id b) (Table.ofRecord id b) := by
  unfold readRecord
  cases Table.ofRecord id b with
  | error f => exact Gives.pure _
  | ok t => exact Triple.bind (note_keeps _) fun _ => Gives.pure _

end Session

end TimeZones
