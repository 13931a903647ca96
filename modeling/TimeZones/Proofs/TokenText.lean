import TimeZones.Proofs.Results
import TimeZones.Markup.Event

/-! How tokens are written. Markup and references are found again whatever follows them, and text
ends where they begin, so that a text is read piece by piece. -/
namespace TimeZones.Markup

variable {σ : Type} {step : σ → Char → Option σ} {st : σ} {cs a rest : List Char}

/-- The state of an automaton that has not stopped. -/
def runFrom (step : σ → Char → Option σ) : σ → List Char → Option σ
  | s, [] => some s
  | s, c :: cs => (step s c).bind fun s => runFrom step s cs

/-- The automaton stops at the last character of what is split off. -/
theorem splitAfter_eq_ok : splitAfter step st cs = .ok (a, rest) ↔ cs = a ++ rest ∧
    ∃ v c st', a = v ++ [c] ∧ runFrom step st v = some st' ∧ step st' c = none := by
  induction cs generalizing st a with
  | nil =>
    constructor
    · intro h
      cases h
    · rintro ⟨hnil, v, c, st', rfl, -⟩
      simp at hnil
  | cons c cs ih =>
    rw [splitAfter]
    split
    · rename_i hstop
      rw [Except.ok.injEq, Prod.mk.injEq]
      constructor
      · rintro ⟨rfl, rfl⟩
        exact ⟨rfl, [], c, st, rfl, rfl, hstop⟩
      · rintro ⟨hcs, v, d, st', rfl, hrun, hd⟩
        cases v with
        | nil =>
          obtain ⟨rfl, rfl⟩ := List.cons.inj hcs
          exact ⟨rfl, rfl⟩
        | cons e v =>
          obtain ⟨rfl, -⟩ := List.cons.inj hcs
          rw [runFrom, hstop] at hrun
          cases hrun
    · rename_i st₁ hstep
      rw [map_eq_ok]
      constructor
      · rintro ⟨⟨b, r⟩, hb, hpair⟩
        obtain ⟨rfl, rfl⟩ := Prod.mk.inj hpair
        obtain ⟨rfl, v, d, st', rfl, hrun, hd⟩ := ih.mp hb
        refine ⟨rfl, c :: v, d, st', rfl, ?_, hd⟩
        rw [runFrom, hstep]
        exact hrun
      · rintro ⟨hcs, v, d, st', rfl, hrun, hd⟩
        cases v with
        | nil =>
          obtain ⟨rfl, -⟩ := List.cons.inj hcs
          obtain rfl := Option.some.inj hrun
          rw [hstep] at hd
          cases hd
        | cons e v =>
          obtain ⟨rfl, htail⟩ := List.cons.inj hcs
          rw [runFrom, hstep] at hrun
          exact ⟨(v ++ [d], rest), ih.mpr ⟨htail, v, d, st', rfl, hrun, hd⟩, rfl⟩

/-- Where an automaton stops does not depend on what follows. -/
theorem splitAfter_append (h : splitAfter step st cs = .ok (a, rest)) (s : List Char) :
    splitAfter step st (a ++ s) = .ok (a, s) :=
  splitAfter_eq_ok.mpr ⟨rfl, (splitAfter_eq_ok.mp h).2⟩

namespace Token

variable {t : Token} {c : Char}

/-- A token is read of the first part of the input, and of that part alone. -/
def IsLocal (read : List Char → Except Stop (Token × List Char)) (cs : List Char) (t : Token)
    (rest : List Char) : Prop :=
  ∃ u, cs = u ++ rest ∧ ∀ s, read (u ++ s) = .ok (t, s)

theorem reference?_local (h : reference? cs = .ok (t, rest)) : IsLocal reference? cs t rest := by
  unfold reference? at h
  split at h
  · rename_i rest' hrest
    obtain ⟨rfl, rfl⟩ := Prod.mk.inj (Except.ok.inj h)
    have hname := List.takeWhile_append_dropWhile (l := cs)
      (p := fun c => c ≠ ';' && c ≠ '&' && c ≠ '<')
    rw [hrest] at hname
    refine ⟨cs.takeWhile (fun c => c ≠ ';' && c ≠ '&' && c ≠ '<') ++ [';'], ?_, ?_⟩
    · rw [List.append_assoc, List.singleton_append, hname]
    · intro s
      have hall : ∀ c ∈ cs.takeWhile (fun c => c ≠ ';' && c ≠ '&' && c ≠ '<'),
          (c ≠ ';' && c ≠ '&' && c ≠ '<') = true := by
        intro c hc
        exact List.all_eq_true.mp List.all_takeWhile c hc
      rw [reference?, List.append_assoc, List.singleton_append,
        List.dropWhile_append_of_pos hall, List.takeWhile_append_of_pos hall]
      simp
  · cases h

/-- A token that an automaton ends. -/
theorem isLocal_of_splitAfter {read : List Char → Except Stop (Token × List Char)}
    (h : splitAfter step st cs = .ok (a, rest))
    (hread : ∀ s, splitAfter step st (a ++ s) = .ok (a, s) → read (a ++ s) = .ok (t, s)) :
    IsLocal read cs t rest :=
  ⟨a, (splitAfter_eq_ok.mp h).1, fun s => hread s (splitAfter_append h s)⟩

theorem comment?_local (h : comment? cs = .ok (t, rest)) : IsLocal comment? cs t rest := by
  unfold comment? at h
  split at h
  · cases h
  · rename_i a rest' ha
    split at h
    · rename_i hopen
      obtain ⟨rfl, rfl⟩ := Prod.mk.inj (Except.ok.inj h)
      -- the automaton starts behind the three characters that open a comment
      obtain ⟨body, rfl⟩ := List.isPrefixOf_iff_prefix.mp hopen
      have hbody : body = a ++ rest' := (splitAfter_eq_ok.mp ha).1
      refine ⟨"!--".toList ++ a, ?_, ?_⟩
      · rw [hbody, List.append_assoc]
      · intro s
        rw [comment?, List.append_assoc]
        have hsplit := splitAfter_append ha s
        rw [show ("!--".toList ++ (a ++ s)).drop 3 = a ++ s from rfl, hsplit]
        dsimp only
        rw [if_pos (List.isPrefixOf_iff_prefix.mpr (List.prefix_append _ _))]
    · cases h

theorem cdata?_local (h : cdata? cs = .ok (t, rest)) : IsLocal cdata? cs t rest := by
  unfold cdata? at h
  split at h
  · cases h
  · rename_i a rest' ha
    split at h
    · rename_i hopen
      obtain ⟨rfl, rfl⟩ := Prod.mk.inj (Except.ok.inj h)
      refine isLocal_of_splitAfter ha fun s hs => ?_
      rw [cdata?, hs]
      dsimp only
      rw [if_pos hopen]
    · cases h

theorem doctype?_local (h : doctype? cs = .ok (t, rest)) : IsLocal doctype? cs t rest := by
  unfold doctype? at h
  split at h
  · cases h
  · rename_i a rest' ha
    split at h
    · cases h
    · rename_i hopen
      split at h
      · cases h
      · rename_i hname
        obtain ⟨rfl, rfl⟩ := Prod.mk.inj (Except.ok.inj h)
        refine isLocal_of_splitAfter ha fun s hs => ?_
        rw [doctype?, hs]
        dsimp only
        rw [if_neg hopen, if_neg hname]

theorem instruction?_local (h : instruction? cs = .ok (t, rest)) :
    IsLocal instruction? cs t rest := by
  unfold instruction? at h
  split at h
  · cases h
  · rename_i a rest' ha
    split at h
    · cases h
    · rename_i hlength
      obtain ⟨rfl, rfl⟩ := Prod.mk.inj (Except.ok.inj h)
      refine isLocal_of_splitAfter ha fun s hs => ?_
      rw [instruction?, hs]
      dsimp only
      rw [if_neg hlength]

/-- Outside quotes a tag stops at an angle bracket. -/
def tagStep (quote : Option Char) (c : Char) : Option (Option Char) :=
  if c = '>' ∧ quote = none then none else some (quoteAfter quote c)

theorem tagStep_eq_none {quote : Option Char} :
    tagStep quote c = none ↔ c = '>' ∧ quote = none := by
  rw [tagStep]
  split
  · simp_all
  · simp_all

/-- The token of a tag with the given text before its closing angle bracket. -/
def ofTag (content : List Char) : Token :=
  match content with
  | '/' :: name => .close (closingName name)
  | _ => if content.getLast? = some '/' then .empty content.dropLast else .start content

theorem ofTag_of_not_close {content : List Char} (h : ∀ name, content ≠ '/' :: name) :
    ofTag content =
      if content.getLast? = some '/' then .empty content.dropLast else .start content := by
  unfold ofTag
  split
  · exact (h _ rfl).elim
  · rfl

theorem splitAfter_tagStep : splitAfter tagStep none cs = .ok (a, rest) ↔ ∃ content,
    a = content ++ ['>'] ∧ cs = content ++ '>' :: rest ∧
      runFrom tagStep none content = some none := by
  rw [splitAfter_eq_ok]
  constructor
  · rintro ⟨rfl, content, c, quote, rfl, hrun, hstop⟩
    obtain ⟨rfl, rfl⟩ := tagStep_eq_none.mp hstop
    exact ⟨content, rfl, List.append_assoc .., hrun⟩
  · rintro ⟨content, rfl, rfl, hrun⟩
    exact ⟨List.append_cons .., content, '>', none, rfl, hrun, rfl⟩

theorem tag?_eq (cs : List Char) : tag? cs = match splitAfter tagStep none cs with
    | .error none => .error ⟨.tagNotClosed, []⟩
    | .error (some q) => .error ⟨.quoteNotClosed q, []⟩
    | .ok (a, rest) => .ok (ofTag a.dropLast, rest) := by
  unfold tag?
  change (match splitAfter tagStep none cs with
    | .error none => _
    | .error (some q) => _
    | .ok (a, rest) => _) = _
  split
  · rfl
  · rfl
  · dsimp only
    split
    · rename_i hclose
      rw [hclose]
      rfl
    · rename_i hclose
      rw [ofTag_of_not_close hclose]
      split <;> rfl

theorem tag?_eq_ok : tag? cs = .ok (t, rest) ↔ ∃ content,
    cs = content ++ '>' :: rest ∧ runFrom tagStep none content = some none ∧ t = ofTag content := by
  rw [tag?_eq]
  constructor
  · intro h
    split at h
    · cases h
    · cases h
    · rename_i b rest' hsplit
      obtain ⟨content, rfl, rfl, hrun⟩ := splitAfter_tagStep.mp hsplit
      obtain ⟨rfl, rfl⟩ := Prod.mk.inj (Except.ok.inj h)
      exact ⟨content, rfl, hrun, by rw [List.dropLast_concat]⟩
  · rintro ⟨content, hcs, hrun, rfl⟩
    rw [splitAfter_tagStep.mpr ⟨content, rfl, hcs, hrun⟩]
    dsimp only
    rw [List.dropLast_concat]

theorem tag?_local (h : tag? cs = .ok (t, rest)) : IsLocal tag? cs t rest := by
  obtain ⟨content, rfl, hrun, rfl⟩ := tag?_eq_ok.mp h
  refine ⟨content ++ ['>'], ?_, fun s => ?_⟩
  · rw [List.append_assoc, List.singleton_append]
  · rw [List.append_assoc, List.singleton_append]
    exact tag?_eq_ok.mpr ⟨content, rfl, hrun, rfl⟩

section Dispatch

variable {read : List Char → Except Stop (Token × List Char)} {x y : Char}

theorem markup?_local_of_one (h : IsLocal read (x :: cs) t rest) (hnil : ∀ p, read [] ≠ .ok p)
    (hread : ∀ s, markup? (x :: s) = read (x :: s)) : IsLocal markup? (x :: cs) t rest := by
  obtain ⟨u, hu, hlocal⟩ := h
  cases u with
  | nil => exact (hnil _ (hlocal [])).elim
  | cons z u =>
    obtain ⟨rfl, -⟩ := List.cons.inj hu
    exact ⟨x :: u, hu, fun s => (hread _).trans (hlocal s)⟩

theorem markup?_local_of_two (h : IsLocal read (x :: y :: cs) t rest)
    (hnil : ∀ p, read [] ≠ .ok p) (hone : ∀ p, read [x] ≠ .ok p)
    (hread : ∀ s, markup? (x :: y :: s) = read (x :: y :: s)) :
    IsLocal markup? (x :: y :: cs) t rest := by
  obtain ⟨u, hu, hlocal⟩ := h
  match u with
  | [] => exact (hnil _ (hlocal [])).elim
  | [z] =>
    obtain ⟨rfl, -⟩ := List.cons.inj hu
    exact (hone _ (hlocal [])).elim
  | z :: w :: u =>
    obtain ⟨rfl, htail⟩ := List.cons.inj hu
    obtain ⟨rfl, -⟩ := List.cons.inj htail
    exact ⟨x :: y :: u, hu, fun s => (hread _).trans (hlocal s)⟩

end Dispatch

/-- Which token markup is depends on its first two characters. -/
theorem markup?_local (h : markup? cs = .ok (t, rest)) : IsLocal markup? cs t rest := by
  unfold markup? at h
  split at h
  · cases h
  · exact markup?_local_of_two (comment?_local h) (by intro p hp; cases hp)
      (by intro p hp; cases hp) fun s => rfl
  · exact markup?_local_of_two (cdata?_local h) (by intro p hp; cases hp) (by intro p hp; cases hp)
      fun s => rfl
  · exact markup?_local_of_two (doctype?_local h) (by intro p hp; cases hp)
      (by intro p hp; cases hp) fun s => rfl
  · exact markup?_local_of_two (doctype?_local h) (by intro p hp; cases hp)
      (by intro p hp; cases hp) fun s => rfl
  · cases h
  · exact markup?_local_of_one (instruction?_local h) (by intro p hp; cases hp) fun s => rfl
  · rename_i hnil _ _ _ _ hbang hquestion
    cases cs with
    | nil => exact (hnil rfl).elim
    | cons x cs =>
      refine markup?_local_of_one (tag?_local h) (by intro p hp; cases hp) fun s => ?_
      unfold markup?
      split <;> simp_all

/-- Markup is a tag or says nothing about elements. -/
theorem tag?_of_markup? (h : markup? cs = .ok (t, rest)) :
    t = .ignored ∨ (∃ s, t = .text s) ∨
      (∀ c ∈ cs.head?, c ≠ '!' ∧ c ≠ '?') ∧ tag? cs = .ok (t, rest) := by
  have hdoctype (h : doctype? cs = .ok (t, rest)) : t = .ignored := by
    unfold doctype? at h
    split at h
    · cases h
    · split at h
      · cases h
      · split at h
        · cases h
        · exact (Prod.mk.inj (Except.ok.inj h)).1.symm
  unfold markup? at h
  split at h
  · cases h
  · unfold comment? at h
    split at h
    · cases h
    · split at h
      · exact Or.inl (Prod.mk.inj (Except.ok.inj h)).1.symm
      · cases h
  · unfold cdata? at h
    split at h
    · cases h
    · split at h
      · exact Or.inr (Or.inl ⟨_, (Prod.mk.inj (Except.ok.inj h)).1.symm⟩)
      · cases h
  · exact Or.inl (hdoctype h)
  · exact Or.inl (hdoctype h)
  · cases h
  · unfold instruction? at h
    split at h
    · cases h
    · split at h
      · cases h
      · exact Or.inl (Prod.mk.inj (Except.ok.inj h)).1.symm
  · rename_i hbang hquestion
    refine Or.inr (Or.inr ⟨?_, h⟩)
    cases cs with
    | nil => exact fun c hc => (by cases hc)
    | cons c cs =>
      rintro _ ⟨⟩
      exact ⟨fun heq => hbang cs (by rw [heq]), fun heq => hquestion cs (by rw [heq])⟩

theorem ofTag_eq_close {content name : List Char} (h : ofTag content = .close name) :
    ∃ written, content = '/' :: written ∧ name = closingName written := by
  unfold ofTag at h
  split at h
  · exact ⟨_, rfl, (close.inj h).symm⟩
  · split at h
    · cases h
    · cases h

theorem ofTag_eq_start {content z : List Char} (h : ofTag content = .start z) :
    content = z ∧ (∀ name, z ≠ '/' :: name) ∧ z.getLast? ≠ some '/' := by
  unfold ofTag at h
  split at h
  · cases h
  · rename_i hclose
    split at h
    · cases h
    · rename_i hlast
      obtain rfl := start.inj h
      exact ⟨rfl, hclose, hlast⟩

theorem ofTag_eq_empty {content z : List Char} (h : ofTag content = .empty z) :
    content = z ++ ['/'] ∧ ∀ name, z ++ ['/'] ≠ '/' :: name := by
  unfold ofTag at h
  split at h
  · cases h
  · rename_i hclose
    split at h
    · rename_i hlast
      obtain ⟨v, rfl⟩ := List.getLast?_eq_some_iff.mp hlast
      rw [List.dropLast_concat] at h
      obtain rfl := empty.inj h
      exact ⟨rfl, hclose⟩
    · cases h

end Token

end TimeZones.Markup
