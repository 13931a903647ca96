import Mathlib.Data.Multiset.Count
import Mathlib.Data.Multiset.OrderedMonoid
import TimeZones.Failure.Store

/-! What handles to failures stand for, while links are added, changed in place and given up. Each
link counts all handles to it, so that one that is counted once can be changed without notice. -/
namespace TimeZones.Failure.Store

variable {s t u : Store} {a : Nat} {h context : Handle} {l : Link} {c : Cell} {f g : Failure}
  {held old : Multiset Handle} {link? link?' : Nat → Option Link}

/-- What a handle stands for, link by link. -/
inductive Reads (link? : Nat → Option Link) : Handle → Failure → Prop where
  | unknown : Reads link? none (.root .unknown)
  | root {a : Nat} {cause : Cause} : link? a = some ⟨cause, none⟩ →
      Reads link? (some a) (.root cause)
  | because {a : Nat} {cause : Cause} {h : Handle} {f : Failure} :
      link? a = some ⟨cause, some h⟩ → Reads link? h f →
      Reads link? (some a) (.because cause f)

theorem Reads.unique (hf : Reads link? h f) (hg : Reads link? h g) : f = g := by
  induction hf generalizing g with
  | unknown =>
    cases hg
    rfl
  | root hl =>
    cases hg with
    | root hl' =>
      cases hl.symm.trans hl'
      rfl
    | because hl' _ => cases hl.symm.trans hl'
  | because hl _ ih =>
    cases hg with
    | root hl' => cases hl.symm.trans hl'
    | because hl' hg =>
      cases hl.symm.trans hl'
      rw [ih hg]

/-- A link does not matter to a failure that is a source of the link's own. -/
theorem Reads.within (hr : Reads link? h f) (hg : Reads link? (some a) g) (hlt : sizeOf f < sizeOf g)
    (hsame : ∀ b, b ≠ a → link?' b = link? b) : Reads link?' h f := by
  have hne {b : Nat} {f : Failure} (hb : Reads link? (some b) f) (hlt : sizeOf f < sizeOf g) :
      b ≠ a := by
    rintro rfl
    rw [hb.unique hg] at hlt
    exact Nat.lt_irrefl _ hlt
  induction hr with
  | unknown => exact .unknown
  | root hl => exact .root ((hsame _ (hne (.root hl) hlt)).trans hl)
  | because hl hr ih =>
    refine .because ((hsame _ (hne (.because hl hr) hlt)).trans hl) (ih ?_)
    rw [Failure.because.sizeOf_spec] at hlt
    omega

theorem Reads.read?_eq (hr : Reads s.link? h f) : s.read? h = some f := by
  induction f generalizing s h with
  | root cause =>
    cases hr with
    | unknown => rw [read?]
    | root hl =>
      obtain ⟨n, hc⟩ := link?_eq_some.mp hl
      exact read?_of_root hc
  | because cause f ih =>
    cases hr with
    | because hl hf =>
      obtain ⟨n, hc⟩ := link?_eq_some.mp hl
      have hlt : sizeOf f < sizeOf (Failure.because cause f) := by
        rw [Failure.because.sizeOf_spec]
        omega
      -- the link is not passed again, as it would lead to a longer failure than its source
      have hrest : Reads (s.put _ none).link? _ f := hf.within (.because hl hf) hlt fun b hb => by
        rw [link?_put hc, if_neg hb]
      rw [read?_of_because hc, ih hrest, Option.map_some]

theorem Reads.exists_link (hr : Reads link? (some a) f) : ∃ l, link? a = some l := by
  cases hr with
  | root hl => exact ⟨_, hl⟩
  | because hl _ => exact ⟨_, hl⟩

theorem reads_of_source (hl : link? a = some l)
    (hs : ∀ h, l.source = some h → ∃ f, Reads link? h f) : ∃ f, Reads link? (some a) f := by
  obtain ⟨cause, _ | h⟩ := l
  · exact ⟨_, .root hl⟩
  · obtain ⟨f, hf⟩ := hs h rfl
    exact ⟨_, .because hl hf⟩

/-- What is kept at a place that no link came from does not matter to other handles. -/
theorem Reads.elsewhere (hr : Reads link? h f) (hne : h ≠ some a)
    (hsame : ∀ b, b ≠ a → link?' b = link? b)
    (hfree : ∀ b l, link? b = some l → l.source ≠ some (some a)) : Reads link?' h f := by
  induction hr with
  | unknown => exact .unknown
  | root hl => exact .root ((hsame _ fun hb => hne (congrArg some hb)).trans hl)
  | because hl _ ih =>
    refine .because ((hsame _ fun hb => hne (congrArg some hb)).trans hl) (ih ?_)
    rintro rfl
    exact hfree _ _ hl rfl

/-- The handle in a cell. -/
def sourceOf (c : Option Cell) : Option Handle := c.bind (·.link.source)

/-- The handles in all links. -/
def inner (s : Store) : Multiset Handle := s.cells.filterMap sourceOf

theorem mem_inner : h ∈ s.inner ↔ ∃ a l, s.link? a = some l ∧ l.source = some h := by
  rw [inner, Multiset.mem_coe, List.mem_filterMap]
  constructor
  · rintro ⟨c, hc, hs⟩
    obtain ⟨c, rfl, hs⟩ := Option.bind_eq_some_iff.mp hs
    obtain ⟨a, ha⟩ := List.mem_iff_getElem?.mp hc
    refine ⟨a, c.link, ?_, hs⟩
    rw [link?, cell?, ha]
    rfl
  · rintro ⟨a, l, hl, hs⟩
    obtain ⟨n, hc⟩ := link?_eq_some.mp hl
    exact ⟨some ⟨n, l⟩, List.mem_iff_getElem?.mpr ⟨a, getElem?_cells hc⟩, hs⟩

theorem coe_filterMap_cons (c : Option Cell) (cs : List (Option Cell)) :
    ((c :: cs).filterMap sourceOf : Multiset Handle) =
      ((sourceOf c).toList : Multiset Handle) + (cs.filterMap sourceOf : Multiset Handle) := by
  rw [List.filterMap_cons]
  cases sourceOf c <;> rfl

theorem inner_add (s : Store) (l : Link) :
    (s.add l).2.inner = s.inner + (l.source.toList : Multiset Handle) := by
  rw [inner, inner, add, List.filterMap_append, ← Multiset.coe_add, coe_filterMap_cons]
  exact congrArg _ (Multiset.add_zero _)

/-- The handle in the old link goes, and the one in the new link comes. -/
theorem inner_put (hc : s.cell? a = some c) (c' : Option Cell) :
    (s.put a c').inner + (c.link.source.toList : Multiset Handle) =
      s.inner + ((sourceOf c').toList : Multiset Handle) := by
  obtain ⟨hlt, hget⟩ := List.getElem?_eq_some_iff.mp (getElem?_cells hc)
  have hcells : s.cells = s.cells.take a ++ some c :: s.cells.drop (a + 1) := by
    rw [← hget, List.getElem_cons_drop, List.take_append_drop]
  rw [inner, inner, put, List.set_eq_take_append_cons_drop, if_pos hlt]
  conv => rhs; rw [hcells]
  rw [List.filterMap_append, List.filterMap_append, ← Multiset.coe_add, ← Multiset.coe_add,
    coe_filterMap_cons, coe_filterMap_cons]
  change _ + _ + (c.link.source.toList : Multiset Handle) =
    _ + ((c.link.source.toList : Multiset Handle) + _) + _
  ac_rfl

/-- All handles, those that callers hold and those in links, are counted by the links that they lead
to, and stand for some failure. -/
structure Sound (s : Store) (held : Multiset Handle) : Prop where
  counted : ∀ a c, s.cell? a = some c → c.holders = (held + s.inner).count (some a)
  readable : ∀ h ∈ held + s.inner, ∃ f, Reads s.link? h f

/-- What handles stand for in one store they stand for in another. -/
def Keeps (s t : Store) (held : Multiset Handle) : Prop :=
  ∀ h ∈ held, ∀ f, Reads s.link? h f → Reads t.link? h f

theorem Keeps.refl (s : Store) (held : Multiset Handle) : s.Keeps s held := fun _ _ _ hf => hf

theorem Keeps.trans (hst : s.Keeps t held) (htu : t.Keeps u held) : s.Keeps u held :=
  fun h hh f hf => htu h hh f (hst h hh f hf)

theorem Keeps.mono (hst : s.Keeps t old) (hsub : held ⊆ old) : s.Keeps t held :=
  fun h hh => hst h (hsub hh)

theorem Sound.exists_reads (hs : s.Sound held) (hh : h ∈ held) : ∃ f, Reads s.link? h f :=
  hs.readable h (Multiset.mem_add.mpr (.inl hh))

theorem Sound.exists_cell (hs : s.Sound held) (hh : some a ∈ held + s.inner) :
    ∃ c, s.cell? a = some c := by
  obtain ⟨f, hf⟩ := hs.readable _ hh
  obtain ⟨l, hl⟩ := hf.exists_link
  obtain ⟨n, hc⟩ := link?_eq_some.mp hl
  exact ⟨_, hc⟩

theorem Sound.exists_cell_head (hs : s.Sound (some a ::ₘ held)) : ∃ c, s.cell? a = some c :=
  hs.exists_cell (Multiset.mem_add.mpr (.inl (Multiset.mem_cons_self _ _)))

theorem Sound.read?_eq_of_keeps (hs : s.Sound old) (hsub : held ⊆ old) (hst : s.Keeps t held) :
    ∀ h ∈ held, t.read? h = s.read? h := by
  intro h hh
  obtain ⟨f, hf⟩ := hs.exists_reads (hsub hh)
  rw [hf.read?_eq, (hst h hh f hf).read?_eq]

theorem Sound.length_notMem (hs : s.Sound held) : some s.cells.length ∉ held + s.inner := by
  intro h
  obtain ⟨c, hc⟩ := hs.exists_cell h
  rw [cell?_length] at hc
  cases hc

/-- If a link is held once, then neither another caller nor another link holds it. -/
theorem Sound.alone (hs : s.Sound (some a ::ₘ held)) (hc : s.cell? a = some ⟨1, l⟩) :
    some a ∉ held + s.inner := by
  have hcount := hs.counted a _ hc
  rw [Multiset.cons_add, Multiset.count_cons_self] at hcount
  rw [← Multiset.count_eq_zero]
  exact (Nat.succ.inj hcount).symm

/-- A change at one place that no link came from is not seen through other handles. -/
theorem Reads.change (hr : Reads s.link? h f) (hne : h ≠ some a)
    (hsame : ∀ b, b ≠ a → t.cell? b = s.cell? b) (hfree : some a ∉ s.inner) :
    Reads t.link? h f := by
  refine hr.elsewhere hne (fun b hb => ?_) (fun b l hl hsource => ?_)
  · rw [link?, link?, hsame b hb]
  · exact hfree (mem_inner.mpr ⟨b, l, hl, hsource⟩)

theorem keeps_change (hsame : ∀ b, b ≠ a → t.cell? b = s.cell? b)
    (halone : some a ∉ held + s.inner) : s.Keeps t held := by
  rw [Multiset.mem_add, not_or] at halone
  intro h hh f hf
  refine hf.change ?_ hsame halone.2
  rintro rfl
  exact halone.1 hh

/-- The store stays sound if it changes at one place that no link came from, as long as no handle to
another place comes or goes. -/
theorem Sound.change (a : Nat) (hs : s.Sound old) (hsame : ∀ b, b ≠ a → t.cell? b = s.cell? b)
    (hfree : some a ∉ s.inner)
    (hcount : ∀ h, h ≠ some a → (held + t.inner).count h = (old + s.inner).count h)
    (hcounted : ∀ c, t.cell? a = some c → c.holders = (held + t.inner).count (some a))
    (hsource : ∀ l, t.link? a = some l → l.source ≠ some (some a))
    (hkept : some a ∈ held + t.inner → ∃ l, t.link? a = some l) : t.Sound held := by
  have helse : ∀ h ∈ held + t.inner, h ≠ some a → ∃ f, Reads t.link? h f := by
    intro h hh hne
    rw [← Multiset.count_pos, hcount h hne, Multiset.count_pos] at hh
    obtain ⟨f, hf⟩ := hs.readable h hh
    exact ⟨f, hf.change hne hsame hfree⟩
  constructor
  · intro b c hc
    by_cases hb : b = a
    · subst hb
      exact hcounted c hc
    · rw [hcount _ (by simpa using hb)]
      exact hs.counted b c ((hsame b hb).symm.trans hc)
  · intro h hh
    by_cases hne : h = some a
    · subst hne
      obtain ⟨l, hl⟩ := hkept hh
      refine reads_of_source hl fun h hh => helse h ?_ ?_
      · exact Multiset.mem_add.mpr (.inr (mem_inner.mpr ⟨a, l, hl, hh⟩))
      · rintro rfl
        exact hsource l hl hh
    · exact helse h hh hne

theorem sound_empty : Sound empty 0 := by
  constructor
  · intro a c hc
    cases hc
  · intro h hh
    cases hh

/-- Unknown failures are kept nowhere. -/
theorem sound_cons_none : s.Sound (none ::ₘ held) ↔ s.Sound held := by
  have hcount (a : Nat) : (none ::ₘ held + s.inner).count (some a) =
      (held + s.inner).count (some a) := by
    rw [Multiset.cons_add, Multiset.count_cons_of_ne (Option.some_ne_none a)]
  constructor
  · intro hs
    refine ⟨fun a c hc => (hs.counted a c hc).trans (hcount a), fun h hh => hs.readable h ?_⟩
    rw [Multiset.cons_add]
    exact Multiset.mem_cons_of_mem hh
  · intro hs
    refine ⟨fun a c hc => (hs.counted a c hc).trans (hcount a).symm, fun h hh => ?_⟩
    rw [Multiset.cons_add, Multiset.mem_cons] at hh
    rcases hh with rfl | hh
    · exact ⟨_, .unknown⟩
    · exact hs.readable h hh

/-- A new link takes the handle to the failure that it came from. -/
theorem Sound.add (hs : s.Sound (l.source.toList + held)) :
    (s.add l).2.Sound (some s.cells.length ::ₘ held) := by
  have hnew := hs.length_notMem
  have hlink : (s.add l).2.link? s.cells.length = some l := by rw [link?_add, if_pos rfl]
  have htotal : some s.cells.length ::ₘ held + (s.add l).2.inner =
      some s.cells.length ::ₘ ((l.source.toList : Multiset Handle) + held + s.inner) := by
    rw [inner_add, Multiset.cons_add]
    congr 1
    ac_rfl
  refine hs.change s.cells.length ?_ ?_ ?_ ?_ ?_ ?_
  · intro b hb
    rw [cell?_add, if_neg hb]
  · exact fun h => hnew (Multiset.mem_add.mpr (.inr h))
  · intro h hne
    rw [htotal, Multiset.count_cons_of_ne hne]
  · intro c hc
    rw [cell?_add, if_pos rfl] at hc
    obtain rfl := Option.some.inj hc
    rw [htotal, Multiset.count_cons_self, Multiset.count_eq_zero.mpr hnew]
  · intro l' hl hsource
    obtain rfl := Option.some.inj (hlink.symm.trans hl)
    rw [hsource] at hnew
    simp at hnew
  · exact fun _ => ⟨l, hlink⟩

theorem Sound.keeps_add (hs : s.Sound held) (l : Link) : s.Keeps (s.add l).2 held := by
  apply keeps_change (fun b hb => ?_) hs.length_notMem
  rw [cell?_add, if_neg hb]

theorem Sound.reads_add (hs : s.Sound held) (hh : h ∈ held) (hr : Reads s.link? h f)
    (cause : Cause) :
    Reads (s.add ⟨cause, some h⟩).2.link? (some s.cells.length) (.because cause f) := by
  refine .because ?_ (hs.keeps_add ⟨cause, some h⟩ h hh f hr)
  rw [link?_add, if_pos rfl]

theorem Sound.make (hs : s.Sound held) (cause : Cause) :
    (s.add ⟨cause, none⟩).2.Sound (some s.cells.length ::ₘ held) := by
  apply Sound.add
  rwa [Option.toList_none, Multiset.coe_nil, Multiset.zero_add]

/-- A link that is held once and has no source takes the handle to the failure that it is to have
come from. -/
theorem Sound.setSource {cause : Cause} (hs : s.Sound (h ::ₘ some a ::ₘ held))
    (hc : s.cell? a = some ⟨1, ⟨cause, none⟩⟩) :
    (s.put a (some ⟨1, ⟨cause, some h⟩⟩)).Sound (some a ::ₘ held) := by
  have halone := (Multiset.cons_swap (some a) h held ▸ hs).alone hc
  have hlink : (s.put a (some ⟨1, ⟨cause, some h⟩⟩)).link? a = some ⟨cause, some h⟩ := by
    rw [link?_put hc, if_pos rfl]
    rfl
  have htotal : some a ::ₘ held + (s.put a (some ⟨1, ⟨cause, some h⟩⟩)).inner =
      h ::ₘ some a ::ₘ held + s.inner := by
    have hinner : (s.put a (some ⟨1, ⟨cause, some h⟩⟩)).inner = s.inner + {h} :=
      (Multiset.add_zero _).symm.trans (inner_put hc (some ⟨1, ⟨cause, some h⟩⟩))
    rw [hinner, ← Multiset.singleton_add h]
    ac_rfl
  refine hs.change a ?_ ?_ ?_ ?_ ?_ ?_
  · intro b hb
    rw [cell?_put hc, if_neg hb]
  · exact fun hin => halone (Multiset.mem_add.mpr (.inr hin))
  · intro x _
    rw [htotal]
  · intro c hc'
    rw [cell?_put hc, if_pos rfl] at hc'
    obtain rfl := Option.some.inj hc'
    rw [htotal, ← hs.counted a _ hc]
  · -- the new source is another link, or this one would be held twice
    intro l hl hsource
    obtain rfl := Option.some.inj (hlink.symm.trans hl)
    obtain rfl := Option.some.inj hsource
    exact halone (Multiset.mem_add.mpr (.inl (Multiset.mem_cons_self _ _)))
  · exact fun _ => ⟨_, hlink⟩

theorem keeps_put (hc : s.cell? a = some c) (halone : some a ∉ held + s.inner) (c' : Option Cell) :
    s.Keeps (s.put a c') held := by
  apply keeps_change (fun b hb => ?_) halone
  rw [cell?_put hc, if_neg hb]

/-- With the last handle to a link, the handle in the link goes to the caller. -/
theorem Sound.free (hs : s.Sound (some a ::ₘ held)) (hc : s.cell? a = some ⟨1, l⟩) :
    (s.put a none).Sound (l.source.toList + held) := by
  have halone := hs.alone hc
  have htotal : l.source.toList + held + (s.put a none).inner = held + s.inner := by
    have hinner : (s.put a none).inner + (l.source.toList : Multiset Handle) = s.inner :=
      (inner_put hc none).trans (Multiset.add_zero _)
    rw [← hinner]
    ac_rfl
  have hlink : (s.put a none).link? a = none := by rw [link?_put hc, if_pos rfl, Option.map_none]
  refine hs.change a ?_ ?_ ?_ ?_ ?_ ?_
  · intro b hb
    rw [cell?_put hc, if_neg hb]
  · exact fun hin => halone (Multiset.mem_add.mpr (.inr hin))
  · intro h hne
    rw [htotal, Multiset.cons_add, Multiset.count_cons_of_ne hne]
  · intro c hc'
    rw [cell?_put hc, if_pos rfl] at hc'
    cases hc'
  · intro l' hl
    rw [hlink] at hl
    cases hl
  · intro hmem
    rw [htotal] at hmem
    exact absurd hmem halone

/-- Only the count of a link changes. -/
theorem Sound.recount {n m : Nat} (hs : s.Sound old) (hc : s.cell? a = some ⟨n, l⟩)
    (hheld : held ⊆ old) (hcount : ∀ b, b ≠ a → held.count (some b) = old.count (some b))
    (hm : m = (held + s.inner).count (some a)) :
    (s.put a (some ⟨m, l⟩)).Sound held ∧ s.Keeps (s.put a (some ⟨m, l⟩)) old := by
  have hinner : (s.put a (some ⟨m, l⟩)).inner = s.inner :=
    Multiset.add_left_inj.mp (inner_put hc (some ⟨m, l⟩))
  have hlink : (s.put a (some ⟨m, l⟩)).link? = s.link? := by
    funext b
    rw [link?_put hc]
    split
    · rename_i hb
      rw [hb, link?, hc]
      rfl
    · rfl
  refine ⟨⟨?_, ?_⟩, ?_⟩
  · intro b c hc'
    rw [cell?_put hc] at hc'
    rw [hinner]
    split at hc'
    · rename_i hb
      obtain rfl := Option.some.inj hc'
      rw [hb]
      exact hm
    · rename_i hb
      rw [hs.counted b c hc', Multiset.count_add, Multiset.count_add, hcount b hb]
  · intro h hh
    rw [hinner] at hh
    rw [hlink]
    apply hs.readable h
    rcases Multiset.mem_add.mp hh with hh | hh
    · exact Multiset.mem_add.mpr (.inl (hheld hh))
    · exact Multiset.mem_add.mpr (.inr hh)
  · intro h _ f hf
    rw [hlink]
    exact hf

theorem Sound.share (hs : s.Sound (h ::ₘ held)) :
    (s.share h).Sound (h ::ₘ h ::ₘ held) ∧ s.Keeps (s.share h) (h ::ₘ held) := by
  cases h with
  | none => exact ⟨sound_cons_none.mpr hs, .refl _ _⟩
  | some a =>
    obtain ⟨c, hc⟩ := hs.exists_cell_head
    have heq : s.share (some a) = s.put a (some ⟨c.holders + 1, c.link⟩) := by
      rw [Store.share, hc]
    rw [heq]
    apply hs.recount hc
    · simp
    · intro b hb
      rw [Multiset.count_cons_of_ne (by simpa using hb)]
    · rw [hs.counted a c hc, Multiset.cons_add (some a) (some a ::ₘ held),
        Multiset.count_cons_self]

/-- Giving a handle up leaves all others as they are, however many links go with it. -/
theorem Sound.release (hs : s.Sound (h ::ₘ held)) :
    (s.release h).Sound held ∧ s.Keeps (s.release h) held := by
  fun_induction Store.release s h with
  | case1 s => exact ⟨sound_cons_none.mp hs, .refl _ _⟩
  | case2 s a hc =>
    obtain ⟨c, hc'⟩ := hs.exists_cell_head
    cases hc.symm.trans hc'
  | case3 s a c hc h1 hsource =>
    obtain ⟨n, cause, source⟩ := c
    obtain ⟨rfl, rfl⟩ : n = 1 ∧ source = none := ⟨h1, hsource⟩
    exact ⟨by simpa using hs.free hc, keeps_put hc (hs.alone hc) none⟩
  | case4 s a c hc h1 next hsource ih =>
    obtain ⟨n, cause, source⟩ := c
    obtain ⟨rfl, rfl⟩ : n = 1 ∧ source = some next := ⟨h1, hsource⟩
    obtain ⟨hsound, hkeeps⟩ := ih (by simpa using hs.free hc)
    exact ⟨hsound, (keeps_put hc (hs.alone hc) none).trans hkeeps⟩
  | case5 s a c hc h1 =>
    have hm : c.holders - 1 = (held + s.inner).count (some a) := by
      rw [hs.counted a c hc, Multiset.cons_add, Multiset.count_cons_self, Nat.add_sub_cancel]
    have hcount : ∀ b, b ≠ a → held.count (some b) = (some a ::ₘ held).count (some b) := by
      intro b hb
      rw [Multiset.count_cons_of_ne (by simpa using hb)]
    have hsub := Multiset.subset_cons held (some a)
    obtain ⟨hsound, hkeeps⟩ := hs.recount hc hsub hcount hm
    exact ⟨hsound, hkeeps.mono hsub⟩

end TimeZones.Failure.Store
