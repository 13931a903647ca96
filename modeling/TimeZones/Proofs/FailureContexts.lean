import Mathlib.Logic.Relation
import TimeZones.Proofs.FailureStore

/-! Failures in context. However the handles to a failure and to its context are shared, the text of
the context comes to stand in front, the root stays the same, and no other handle notices. -/
namespace TimeZones.Failure

theorem text_inContext (f context : Failure) :
    (f.inContext context).text = context.text ++ ": " ++ f.text := by
  cases context with
  | root c => rfl
  | because c g => rfl

theorem rootCause_inContext (f context : Failure) :
    (f.inContext context).rootCause = f.rootCause := by
  cases context with
  | root c => rfl
  | because c g => rfl

/-- Whether two failures are of the same sort. -/
def SameKinds (f g : Failure) : Prop :=
  f.formatKind = g.formatKind ∧ f.parseKind = g.parseKind ∧ f.isIo = g.isIo

theorem sameKinds_of_rootCause {f g : Failure} (h : f.rootCause = g.rootCause) : SameKinds f g := by
  refine ⟨?_, ?_, ?_⟩
  · rw [formatKind, formatKind, h]
  · rw [parseKind, parseKind, h]
  · rw [isIo, isIo, h]

/-- What comes of a failure in a context. Where the context cannot be changed in place, its text
stands for it. -/
def Adds (f context r : Failure) : Prop :=
  r = f.inContext context ∨ r = f.inContext (.root (.message context.text))

theorem Adds.text_eq {f context r : Failure} (h : Adds f context r) :
    r.text = context.text ++ ": " ++ f.text := by
  rcases h with rfl | rfl
  · exact text_inContext _ _
  · exact text_inContext _ _

theorem Adds.rootCause_eq {f context r : Failure} (h : Adds f context r) :
    r.rootCause = f.rootCause := by
  rcases h with rfl | rfl
  · exact rootCause_inContext _ _
  · exact rootCause_inContext _ _

namespace Store

variable {s t : Store} {a : Nat} {h context new : Handle} {c : Cell} {f g : Failure}
  {held : Multiset Handle} {contexts : List Handle} {gs : List Failure}

/-- A context that is held once, and that has no source, is changed in place. -/
theorem inContext_of_alone {cause : Cause} (hc : s.cell? a = some ⟨1, ⟨cause, none⟩⟩) (h : Handle) :
    s.inContext h (some a) = some (some a, s.put a (some ⟨1, ⟨cause, some h⟩⟩)) := by
  simp [inContext, hc]

/-- Any other context is kept as its text. -/
theorem inContext_of_not_alone (hc : s.cell? a = some c) (hr : s.read? (some a) = some g)
    (halone : ¬ (c.holders = 1 ∧ c.link.source = none)) (h : Handle) :
    s.inContext h (some a) =
      some (some s.cells.length, (s.add ⟨.message g.text, some h⟩).2.release (some a)) := by
  simp only [inContext, hc, hr, Option.bind_eq_bind, Option.bind_some, if_neg halone]
  rfl

/-- Both handles are given up for one to what comes of the failure. -/
theorem Sound.inContext (hs : s.Sound (h ::ₘ context ::ₘ held)) (hf : Reads s.link? h f)
    (hg : Reads s.link? context g) :
    ∃ new t r, s.inContext h context = some (new, t) ∧ t.Sound (new ::ₘ held) ∧ s.Keeps t held ∧
      Reads t.link? new r ∧ Adds f g r := by
  cases context with
  | none =>
    cases hg
    rw [Multiset.cons_swap, sound_cons_none] at hs
    have hkeeps := (hs.keeps_add ⟨.unknown, some h⟩).mono (Multiset.subset_cons _ _)
    have hreads := hs.reads_add (Multiset.mem_cons_self _ _) hf .unknown
    exact ⟨_, _, _, rfl, Sound.add hs, hkeeps, hreads, .inl rfl⟩
  | some a =>
    have hswap := Multiset.cons_swap (some a) h held ▸ hs
    obtain ⟨⟨n, cause, source⟩, hc⟩ := hswap.exists_cell_head
    by_cases halone : n = 1 ∧ source = none
    · obtain ⟨rfl, rfl⟩ := halone
      have hkeeps := keeps_put hc (hswap.alone hc) (some ⟨1, ⟨cause, some h⟩⟩)
      have hlink : (s.put a (some ⟨1, ⟨cause, some h⟩⟩)).link? a = some ⟨cause, some h⟩ := by
        rw [link?_put hc, if_pos rfl]
        rfl
      have hreads := Reads.because hlink (hkeeps h (Multiset.mem_cons_self _ _) f hf)
      refine ⟨_, _, _, inContext_of_alone hc h, hs.setSource hc,
        hkeeps.mono (Multiset.subset_cons _ _), hreads, .inl ?_⟩
      cases hg with
      | root hl =>
        cases hl.symm.trans (link?_eq_some.mpr ⟨1, hc⟩)
        rfl
      | because hl _ => cases hl.symm.trans (link?_eq_some.mpr ⟨1, hc⟩)
    · -- the text is kept in a new link before the handle to the context is given up
      have hadd := hs.keeps_add ⟨.message g.text, some h⟩
      have hsound : (s.add ⟨.message g.text, some h⟩).2.Sound
          (some s.cells.length ::ₘ some a ::ₘ held) := Sound.add hs
      rw [Multiset.cons_swap] at hsound
      obtain ⟨hreleased, hkeeps⟩ := hsound.release
      have hreads := hs.reads_add (Multiset.mem_cons_self _ _) hf (.message g.text)
      refine ⟨_, _, _, inContext_of_not_alone hc hg.read?_eq halone h, hreleased, ?_,
        hkeeps _ (Multiset.mem_cons_self _ _) _ hreads, .inr rfl⟩
      have hold : held ⊆ h ::ₘ some a ::ₘ held :=
        fun x hx => Multiset.mem_cons_of_mem (Multiset.mem_cons_of_mem hx)
      exact (hadd.mono hold).trans (hkeeps.mono (Multiset.subset_cons _ _))

/-- Puts a failure in one context after another. -/
def inContexts (s : Store) (h : Handle) : List Handle → Option (Handle × Store)
  | [] => some (h, s)
  | context :: contexts => do
    let (new, t) ← s.inContext h context
    t.inContexts new contexts

theorem intercalate_concat (sep a b : String) (xs : List String) :
    sep.intercalate (xs ++ [a ++ sep ++ b]) = sep.intercalate (xs ++ [a, b]) := by
  by_cases hxs : xs = []
  · simp [hxs]
  · rw [String.intercalate_append_of_ne_nil hxs (List.cons_ne_nil _ _),
      String.intercalate_append_of_ne_nil hxs (List.cons_ne_nil _ _)]
    simp

theorem Keeps.forall₂ (hst : s.Keeps t held) (hsub : ∀ h ∈ contexts, h ∈ held)
    (hg : List.Forall₂ (Reads s.link?) contexts gs) :
    List.Forall₂ (Reads t.link?) contexts gs := by
  induction hg with
  | nil => exact .nil
  | cons hr _ ih =>
    exact .cons (hst _ (hsub _ List.mem_cons_self) _ hr)
      (ih fun h hh => hsub h (List.mem_cons_of_mem _ hh))

theorem Sound.exists_forall₂ (hs : s.Sound held) (hsub : ∀ h ∈ contexts, h ∈ held) :
    ∃ gs, List.Forall₂ (Reads s.link?) contexts gs := by
  induction contexts with
  | nil => exact ⟨[], .nil⟩
  | cons c cs ih =>
    obtain ⟨g, hg⟩ := hs.exists_reads (hsub c List.mem_cons_self)
    obtain ⟨gs, hgs⟩ := ih fun h hh => hsub h (List.mem_cons_of_mem _ hh)
    exact ⟨g :: gs, .cons hg hgs⟩

theorem map_read?_eq (h : List.Forall₂ (Reads s.link?) contexts gs) :
    contexts.map s.read? = gs.map some := by
  induction h with
  | nil => rfl
  | cons hf _ ih => rw [List.map_cons, List.map_cons, hf.read?_eq, ih]

/-- Of contexts that are added one after another the last comes first. -/
theorem Sound.inContexts (hs : s.Sound (h ::ₘ (contexts + held))) (hf : Reads s.link? h f)
    (hg : List.Forall₂ (Reads s.link?) contexts gs) :
    ∃ new t r, s.inContexts h contexts = some (new, t) ∧ s.Keeps t held ∧ Reads t.link? new r ∧
      r.text = ": ".intercalate (gs.reverse.map text ++ [f.text]) ∧ r.rootCause = f.rootCause := by
  induction contexts generalizing s h f gs with
  | nil =>
    cases hg
    exact ⟨h, s, f, rfl, .refl _ _, hf, by simp, rfl⟩
  | cons context contexts ih =>
    obtain _ | ⟨hg, hgs⟩ := hg
    rename_i g gs
    have hs : s.Sound (h ::ₘ context ::ₘ (contexts + held)) := by
      simpa [← Multiset.cons_coe] using hs
    obtain ⟨new, t, r, hrun, hsound, hkeeps, hr, hadds⟩ := hs.inContext hf hg
    have hgs := hkeeps.forall₂ (fun x hx => Multiset.mem_add.mpr (.inl hx)) hgs
    obtain ⟨new', u, r', hruns, hkeeps', hr', htext, hroot⟩ := ih hsound hr hgs
    refine ⟨new', u, r', ?_, ?_, hr', ?_, hroot.trans hadds.rootCause_eq⟩
    · rw [Store.inContexts, hrun]
      exact hruns
    · exact (hkeeps.mono (Multiset.subset_of_le (Multiset.le_add_left _ _))).trans hkeeps'
    · rw [htext, hadds.text_eq, intercalate_concat]
      simp

end Store

/-- A store, and the handles to it that callers have. -/
structure State where
  store : Store
  held : Multiset Handle

namespace State

open Store

variable {st st' : State}

def initial : State := ⟨.empty, 0⟩

/-- What callers can do with the handles that they have. -/
inductive Step : State → State → Prop where
  | unknown {s : Store} {held : Multiset Handle} : Step ⟨s, held⟩ ⟨s, none ::ₘ held⟩
  | make {s : Store} {held : Multiset Handle} (cause : Cause) :
      Step ⟨s, held⟩ ⟨(s.add ⟨cause, none⟩).2, (s.add ⟨cause, none⟩).1 ::ₘ held⟩
  | share {s : Store} {h : Handle} {held : Multiset Handle} :
      Step ⟨s, h ::ₘ held⟩ ⟨s.share h, h ::ₘ h ::ₘ held⟩
  | release {s : Store} {h : Handle} {held : Multiset Handle} :
      Step ⟨s, h ::ₘ held⟩ ⟨s.release h, held⟩
  | inContext {s t : Store} {h context new : Handle} {held : Multiset Handle} :
      s.inContext h context = some (new, t) →
      Step ⟨s, h ::ₘ context ::ₘ held⟩ ⟨t, new ::ₘ held⟩

def Reachable (st : State) : Prop := Relation.ReflTransGen Step initial st

theorem Step.sound (hstep : Step st st') (hs : st.store.Sound st.held) :
    st'.store.Sound st'.held := by
  cases hstep with
  | unknown => exact sound_cons_none.mpr hs
  | make cause => exact hs.make cause
  | share => exact hs.share.1
  | release => exact hs.release.1
  | inContext hrun =>
    obtain ⟨f, hf⟩ := hs.exists_reads (Multiset.mem_cons_self _ _)
    obtain ⟨g, hg⟩ := hs.exists_reads (Multiset.mem_cons_of_mem (Multiset.mem_cons_self _ _))
    obtain ⟨new', t', r, hrun', hsound, -⟩ := hs.inContext hf hg
    cases hrun.symm.trans hrun'
    exact hsound

theorem Reachable.sound (hr : Reachable st) : st.store.Sound st.held := by
  induction hr with
  | refl => exact sound_empty
  | tail _ hstep ih => exact hstep.sound ih

end State

open Store

/-- In every state that callers can bring about, a failure can be put in the context of another, and
in one context after another. The text lists the contexts from the last one added to the root, the
sort of failure is that of the root, and all other handles stand for the same failures as before. -/
theorem inContext_exact :
    (∀ (s : Store) (h context : Handle) (held : Multiset Handle),
      State.Reachable ⟨s, h ::ₘ context ::ₘ held⟩ →
      ∃ (f g r : Failure) (new : Handle) (t : Store),
        s.read? h = some f ∧ s.read? context = some g ∧
        s.inContext h context = some (new, t) ∧ t.read? new = some r ∧
        Adds f g r ∧ r.text = g.text ++ ": " ++ f.text ∧ SameKinds r f ∧
        ∀ other ∈ held, t.read? other = s.read? other) ∧
    ∀ (s : Store) (h : Handle) (contexts : List Handle) (held : Multiset Handle),
      State.Reachable ⟨s, h ::ₘ (contexts + held)⟩ →
      ∃ (f : Failure) (gs : List Failure) (r : Failure) (new : Handle) (t : Store),
        s.read? h = some f ∧ contexts.map s.read? = gs.map some ∧
        s.inContexts h contexts = some (new, t) ∧ t.read? new = some r ∧
        r.text = ": ".intercalate (gs.reverse.map text ++ [f.text]) ∧ SameKinds r f ∧
        ∀ other ∈ held, t.read? other = s.read? other := by
  constructor
  · intro s h context held hr
    have hs := hr.sound
    obtain ⟨f, hf⟩ := hs.exists_reads (Multiset.mem_cons_self _ _)
    obtain ⟨g, hg⟩ := hs.exists_reads (Multiset.mem_cons_of_mem (Multiset.mem_cons_self _ _))
    obtain ⟨new, t, r, hrun, -, hkeeps, hread, hadds⟩ := hs.inContext hf hg
    have hsub : held ⊆ h ::ₘ context ::ₘ held :=
      fun x hx => Multiset.mem_cons_of_mem (Multiset.mem_cons_of_mem hx)
    exact ⟨f, g, r, new, t, hf.read?_eq, hg.read?_eq, hrun, hread.read?_eq, hadds, hadds.text_eq,
      sameKinds_of_rootCause hadds.rootCause_eq, hs.read?_eq_of_keeps hsub hkeeps⟩
  · intro s h contexts held hr
    have hs := hr.sound
    obtain ⟨f, hf⟩ := hs.exists_reads (Multiset.mem_cons_self _ _)
    obtain ⟨gs, hgs⟩ := hs.exists_forall₂ fun x hx =>
      Multiset.mem_cons_of_mem (Multiset.mem_add.mpr (.inl (Multiset.mem_coe.mpr hx)))
    obtain ⟨new, t, r, hrun, hkeeps, hread, htext, hroot⟩ := hs.inContexts hf hgs
    have hsub : held ⊆ h ::ₘ (contexts + held) :=
      fun x hx => Multiset.mem_cons_of_mem (Multiset.mem_add.mpr (.inr hx))
    exact ⟨f, gs, r, new, t, hf.read?_eq, map_read?_eq hgs, hrun, hread.read?_eq, htext,
      sameKinds_of_rootCause hroot, hs.read?_eq_of_keeps hsub hkeeps⟩

/-- The root of a failure, and a context for it that is held twice. -/
def sharedContext : Store :=
  ⟨[some ⟨2, ⟨.message "consequent", none⟩⟩, some ⟨1, ⟨.record .badMagic, none⟩⟩]⟩

theorem sharedContext_reachable :
    State.Reachable ⟨sharedContext, some 1 ::ₘ some 0 ::ₘ some 0 ::ₘ 0⟩ :=
  .tail (.tail (.tail .refl (.make (.message "consequent"))) .share) (.make (.record .badMagic))

theorem read?_sharedContext : sharedContext.read? (some 1) = some (.root (.record .badMagic)) ∧
    sharedContext.read? (some 0) = some (.root (.message "consequent")) :=
  ⟨(Reads.root rfl).read?_eq, (Reads.root rfl).read?_eq⟩

/-- The context is kept as its text the first time, and changed in place the second time. -/
theorem inContext_exact_sharedContext :
    (∃ r new t, sharedContext.inContext (some 1) (some 0) = some (new, t) ∧ t.read? new = some r ∧
      r.text = "consequent: " ++ Cause.text (.record .badMagic) ∧
      r.formatKind = some .badMagic ∧
      t.read? (some 0) = some (.root (.message "consequent"))) ∧
    ∃ r new t, sharedContext.inContexts (some 1) [some 0, some 0] = some (new, t) ∧
      t.read? new = some r ∧
      r.text = "consequent: consequent: " ++ Cause.text (.record .badMagic) ∧
      r.formatKind = some .badMagic := by
  obtain ⟨hroot, hcontext⟩ := read?_sharedContext
  constructor
  · obtain ⟨f, g, r, new, t, hf, hg, hrun, hr, -, htext, hkinds, hothers⟩ :=
      inContext_exact.1 sharedContext (some 1) (some 0) (some 0 ::ₘ 0) sharedContext_reachable
    obtain rfl := Option.some.inj (hf.symm.trans hroot)
    obtain rfl := Option.some.inj (hg.symm.trans hcontext)
    refine ⟨r, new, t, hrun, hr, htext, hkinds.1, ?_⟩
    rw [hothers _ (Multiset.mem_cons_self _ _), hcontext]
  · obtain ⟨f, gs, r, new, t, hf, hgs, hrun, hr, htext, hkinds, -⟩ :=
      inContext_exact.2 sharedContext (some 1) [some 0, some 0] 0 sharedContext_reachable
    obtain rfl := Option.some.inj (hf.symm.trans hroot)
    obtain rfl : gs = [.root (.message "consequent"), .root (.message "consequent")] := by
      apply List.map_injective_iff.mpr (Option.some_injective _)
      rw [← hgs, List.map_cons, List.map_cons, hcontext]
      rfl
    exact ⟨r, new, t, hrun, hr, htext, hkinds.1⟩

end TimeZones.Failure
