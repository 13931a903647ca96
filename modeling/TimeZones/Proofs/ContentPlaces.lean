import TimeZones.Proofs.WrittenEvents

/-! Places in the content of an element: what comes in front of a place, which elements are open
there, and what can stand there instead. -/
namespace TimeZones.Markup

/-- A content without what stands from some place on, in the innermost element around it. -/
inductive Place where
  | here
  | text (s : String) (place : Place)
  | empty (tag : Tag) (place : Place)
  | element (tag : Tag) (content : Content) (place : Place)
  | inside (tag : Tag) (place : Place) (next : Content)

namespace Place

/-- The content with `d` at the place. -/
def fill : Place → Content → Content
  | here, d => d
  | text s p, d => .text s (p.fill d)
  | empty t p, d => .empty t (p.fill d)
  | element t content p, d => .element t content (p.fill d)
  | inside t p next, d => .element t (p.fill d) next

/-- The events in front of the place. -/
def before : Place → List Event
  | here => []
  | text s p => .text s :: p.before
  | empty t p => .empty t :: p.before
  | element t content p => .start t :: (content.events ++ .close :: p.before)
  | inside t p _ => .start t :: p.before

/-- The events that come when the innermost element around the place has ended. -/
def behind : Place → List Event
  | here => []
  | text _ p | empty _ p | element _ _ p => p.behind
  | inside _ p next => p.behind ++ .close :: next.events

/-- The names of the elements around the place, outermost first. -/
def names : Place → List String
  | here => []
  | text _ p | empty _ p | element _ _ p => p.names
  | inside t p _ => t.name :: p.names

variable {p : Place} {name : String} {names : List String}

theorem events_fill (p : Place) (d : Content) (rest : List Event) :
    (p.fill d).events ++ rest = p.before ++ (d.events ++ (p.behind ++ rest)) := by
  induction p generalizing rest with
  | here => rfl
  | text s p ih => exact congrArg (Event.text s :: ·) (ih rest)
  | empty t p ih => exact congrArg (Event.empty t :: ·) (ih rest)
  | element t content p ih =>
    rw [fill, Content.events_element_append, ih, before, behind, List.cons_append,
      List.append_assoc, List.cons_append]
  | inside t p next ih =>
    rw [fill, Content.events_element_append, ih, before, behind, List.cons_append,
      List.append_assoc, List.cons_append]

theorem openAfter_before (p : Place) (o : List String) :
    openAfter o p.before = p.names.reverse ++ o := by
  induction p generalizing o with
  | here => rfl
  | text s p ih => exact ih o
  | empty t p ih => exact ih o
  | element t content p ih =>
    rw [before, openAfter, openAfter_append, Content.openAfter_events, openAfter, List.tail_cons]
    exact ih o
  | inside t p next ih =>
    rw [before, openAfter, ih, Place.names, List.reverse_cons, List.append_assoc]
    rfl

/-- Within an element the next to come is its end. -/
theorem behind_cases (p : Place) :
    p.names = [] ∧ p.behind = [] ∨ p.names ≠ [] ∧ ∃ tail, p.behind = .close :: tail := by
  induction p with
  | here => exact Or.inl ⟨rfl, rfl⟩
  | text s p ih => exact ih
  | empty t p ih => exact ih
  | element t content p ih => exact ih
  | inside t p next ih =>
    refine Or.inr ⟨List.cons_ne_nil _ _, ?_⟩
    rw [behind]
    rcases ih with ⟨-, hnil⟩ | ⟨-, tail, hclose⟩
    · exact ⟨_, by rw [hnil, List.nil_append]⟩
    · exact ⟨_, by rw [hclose, List.cons_append]⟩

theorem exists_behind_eq_close (h : p.names ≠ []) : ∃ tail, p.behind = .close :: tail := by
  rcases p.behind_cases with ⟨hnil, -⟩ | ⟨-, hclose⟩
  · exact (h hnil).elim
  · exact hclose

/-- The place behind a content. -/
def after : Content → Place
  | .done => here
  | .text s next => text s (after next)
  | .empty t next => empty t (after next)
  | .element t content next => element t content (after next)

theorem fill_after (c d : Content) : (after c).fill d = c.append d := by
  induction c with
  | done => rfl
  | text s next ih => rw [after, fill, ih, Content.append]
  | empty t next ih => rw [after, fill, ih, Content.append]
  | element t content next _ ih => rw [after, fill, ih, Content.append]

theorem before_after (c : Content) : (after c).before = c.events := by
  induction c with
  | done => rfl
  | text s next ih => rw [after, before, ih, Content.events]
  | empty t next ih => rw [after, before, ih, Content.events]
  | element t content next _ ih => rw [after, before, ih, Content.events]

theorem behind_after (c : Content) : (after c).behind = [] := by
  induction c with
  | done => rfl
  | text s next ih => exact ih
  | empty t next ih => exact ih
  | element t content next _ ih => exact ih

/-- Where no element is open, the place is behind some content. -/
theorem exists_append (h : p.names = []) : ∃ c : Content, ∀ d, p.fill d = c.append d := by
  induction p with
  | here => exact ⟨.done, fun d => rfl⟩
  | text s p ih =>
    obtain ⟨c, hc⟩ := ih h
    exact ⟨.text s c, fun d => congrArg (Content.text s) (hc d)⟩
  | empty t p ih =>
    obtain ⟨c, hc⟩ := ih h
    exact ⟨.empty t c, fun d => congrArg (Content.empty t) (hc d)⟩
  | element t content p ih =>
    obtain ⟨c, hc⟩ := ih h
    exact ⟨.element t content c, fun d => congrArg (Content.element t content) (hc d)⟩
  | inside t p next => cases h

/-- Where elements are open, the place is within the outermost of them. -/
theorem exists_inside (h : p.names = name :: names) :
    ∃ (c : Content) (t : Tag) (q : Place) (next : Content), t.name = name ∧ q.names = names ∧
      ∀ d, p.fill d = c.append (.element t (q.fill d) next) := by
  induction p with
  | here => cases h
  | text s p ih =>
    obtain ⟨c, t, q, next, hname, hnames, hfill⟩ := ih h
    exact ⟨.text s c, t, q, next, hname, hnames, fun d => congrArg (Content.text s) (hfill d)⟩
  | empty t p ih =>
    obtain ⟨c, u, q, next, hname, hnames, hfill⟩ := ih h
    exact ⟨.empty t c, u, q, next, hname, hnames, fun d => congrArg (Content.empty t) (hfill d)⟩
  | element t content p ih =>
    obtain ⟨c, u, q, next, hname, hnames, hfill⟩ := ih h
    exact ⟨.element t content c, u, q, next, hname, hnames,
      fun d => congrArg (Content.element t content) (hfill d)⟩
  | inside t p next =>
    obtain ⟨hname, hnames⟩ := List.cons.inj h
    exact ⟨.done, t, p, next, hname, hnames, fun d => rfl⟩

end Place

variable {c d : Content} {es fs rest : List Event}

/-- Events that begin with those of a content are divided behind it or at a place in it. -/
theorem exists_place (c : Content) (h : c.events ++ rest = es ++ fs) :
    (∃ more, es = c.events ++ more ∧ rest = more ++ fs) ∨
      ∃ (p : Place) (d : Content), c = p.fill d ∧ es = p.before ∧
        fs = d.events ++ (p.behind ++ rest) ∧ (d = .done → p.names ≠ []) := by
  induction c generalizing rest es with
  | done => exact Or.inl ⟨es, rfl, h⟩
  | text s next ih =>
    cases es with
    | nil => exact Or.inr ⟨.here, .text s next, rfl, rfl, h.symm, fun h => (by cases h)⟩
    | cons e es =>
      obtain ⟨rfl, htail⟩ := List.cons.inj h
      rcases ih htail with ⟨more, rfl, hrest⟩ | ⟨p, d, rfl, rfl, hfs, hdone⟩
      · exact Or.inl ⟨more, rfl, hrest⟩
      · exact Or.inr ⟨.text s p, d, rfl, rfl, hfs, hdone⟩
  | empty t next ih =>
    cases es with
    | nil => exact Or.inr ⟨.here, .empty t next, rfl, rfl, h.symm, fun h => (by cases h)⟩
    | cons e es =>
      obtain ⟨rfl, htail⟩ := List.cons.inj h
      rcases ih htail with ⟨more, rfl, hrest⟩ | ⟨p, d, rfl, rfl, hfs, hdone⟩
      · exact Or.inl ⟨more, rfl, hrest⟩
      · exact Or.inr ⟨.empty t p, d, rfl, rfl, hfs, hdone⟩
  | element t content next ihc ihn =>
    cases es with
    | nil => exact Or.inr ⟨.here, .element t content next, rfl, rfl, h.symm, fun h => (by cases h)⟩
    | cons e es =>
      rw [Content.events_element_append, List.cons_append] at h
      obtain ⟨rfl, htail⟩ := List.cons.inj h
      rcases ihc htail with ⟨more, rfl, hmore⟩ | ⟨p, d, rfl, rfl, hfs, hdone⟩
      · cases more with
        | nil =>
          -- the place is behind all of the content, in front of the end tag
          refine Or.inr ⟨.inside t (.after content) next, .done, ?_, ?_, ?_, ?_⟩
          · rw [Place.fill, Place.fill_after, Content.append_done]
          · rw [Place.before, Place.before_after, List.append_nil]
          · rw [Place.behind, Place.behind_after]
            exact hmore.symm
          · exact fun _ => List.cons_ne_nil _ _
        | cons e more =>
          obtain ⟨rfl, hnext⟩ := List.cons.inj hmore
          rcases ihn hnext with ⟨more, rfl, hrest⟩ | ⟨p, d, rfl, rfl, hfs, hdone⟩
          · refine Or.inl ⟨more, ?_, hrest⟩
            rw [Content.events_element_append]
          · exact Or.inr ⟨.element t content p, d, rfl, rfl, hfs, hdone⟩
      · refine Or.inr ⟨.inside t p next, d, rfl, rfl, ?_, fun _ => List.cons_ne_nil _ _⟩
        rw [hfs, Place.behind, List.append_assoc, List.cons_append]

/-- A content that goes up to an end, and whose events begin with those of another content, begins
with that content. -/
theorem Content.exists_append_of_events (h : c.events ++ es = d.events ++ .close :: fs) :
    ∃ next, d = c.append next ∧ es = next.events ++ .close :: fs := by
  induction c generalizing d es fs with
  | done => exact ⟨d, rfl, h⟩
  | text s next ih =>
    cases d with
    | text s' next' =>
      obtain ⟨hs, htail⟩ := List.cons.inj h
      obtain rfl := Event.text.inj hs
      obtain ⟨more, rfl, hes⟩ := ih htail
      exact ⟨more, rfl, hes⟩
    | done => cases (List.cons.inj h).1
    | empty t next => cases (List.cons.inj h).1
    | element t content next => cases (List.cons.inj h).1
  | empty t next ih =>
    cases d with
    | empty t' next' =>
      obtain ⟨ht, htail⟩ := List.cons.inj h
      obtain rfl := Event.empty.inj ht
      obtain ⟨more, rfl, hes⟩ := ih htail
      exact ⟨more, rfl, hes⟩
    | done => cases (List.cons.inj h).1
    | text s next => cases (List.cons.inj h).1
    | element t content next => cases (List.cons.inj h).1
  | element t content next ihc ihn =>
    cases d with
    | element t' content' next' =>
      rw [events_element_append, events_element_append] at h
      obtain ⟨ht, htail⟩ := List.cons.inj h
      obtain rfl := Event.start.inj ht
      -- both elements end with the first end tag that is not within them
      obtain ⟨rest, rfl, hrest⟩ := ihc htail
      cases rest with
      | done =>
        obtain ⟨more, rfl, hes⟩ := ihn (List.cons.inj hrest).2
        exact ⟨more, by rw [append, append_done], hes⟩
      | text s next => cases (List.cons.inj hrest).1
      | empty t next => cases (List.cons.inj hrest).1
      | element t content next => cases (List.cons.inj hrest).1
    | done => cases (List.cons.inj h).1
    | text s next => cases (List.cons.inj h).1
    | empty t next => cases (List.cons.inj h).1

/-- Events with a root are those of a content whose first element it is, and what comes behind. -/
theorem hasRoot_iff {root : Element} : HasRoot es root ↔
    ∃ (c : Content) (rest : List Event), es = c.events ++ rest ∧ c.elements.head? = some root := by
  constructor
  · intro h
    induction h with
    | text s _ ih =>
      obtain ⟨c, rest, rfl, hroot⟩ := ih
      exact ⟨.text s c, rest, rfl, hroot⟩
    | element t content rest =>
      refine ⟨.element t content .done, rest, ?_, rfl⟩
      rw [Content.events_element_append]
      rfl
    | empty t rest => exact ⟨.empty t .done, rest, rfl, rfl⟩
  · rintro ⟨c, rest, rfl, hroot⟩
    induction c with
    | done => cases hroot
    | element t content next =>
      obtain rfl := Option.some.inj hroot
      rw [Content.events_element_append]
      exact .element t content _
    | empty t next =>
      obtain rfl := Option.some.inj hroot
      exact .empty t _
    | text s next ih => exact .text s (ih hroot)

/-- Content within open elements can be changed for other content. If it stands behind the root,
that stays as it is. -/
theorem HasRoot.exists_place {root : Element} {names : List String}
    (h : HasRoot (es ++ (c.events ++ rest)) root) (hopen : openAfter [] es = names.reverse)
    (hnames : names ≠ []) :
    (∀ d : Content, HasRoot (es ++ (d.events ++ rest)) root) ∨
      ∃ (p : Place) (next : Content), p.names = names ∧
        (p.fill (c.append next)).elements.head? = some root ∧
        ∀ (d : Content) (root' : Element),
          (p.fill (d.append next)).elements.head? = some root' →
            HasRoot (es ++ (d.events ++ rest)) root' := by
  obtain ⟨whole, out, hitems, hroot⟩ := hasRoot_iff.mp h
  rcases Markup.exists_place whole hitems.symm with ⟨more, rfl, -⟩ | ⟨p, d, rfl, rfl, hafter, -⟩
  · left
    intro d
    exact hasRoot_iff.mpr ⟨whole, more ++ (d.events ++ rest), List.append_assoc .., hroot⟩
  · rw [Place.openAfter_before, List.append_nil, List.reverse_inj] at hopen
    obtain ⟨tail, htail⟩ := p.exists_behind_eq_close (hopen ▸ hnames)
    rw [htail, List.cons_append] at hafter
    obtain ⟨next, rfl, rfl⟩ := Content.exists_append_of_events hafter
    refine Or.inr ⟨p, next, hopen, hroot, ?_⟩
    intro d root' hroot'
    refine hasRoot_iff.mpr ⟨_, out, ?_, hroot'⟩
    rw [p.events_fill, Content.events_append, List.append_assoc, htail, List.cons_append]

end TimeZones.Markup
