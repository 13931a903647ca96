import TimeZones.Markup.Event

/-! The elements of a document. Where as many elements have been closed as opened, the events that
have been read are those of a tree. -/
namespace TimeZones.Markup

/-- What stands inside an element from some place on: elements, with content of their own, and
text. -/
inductive Content where
  | done
  | element (tag : Tag) (content next : Content)
  | empty (tag : Tag) (next : Content)
  | text (s : String) (next : Content)

structure Element where
  tag : Tag
  content : Content

namespace Content

/-- Elements without content may have one tag or two. -/
def events : Content → List Event
  | done => []
  | element tag content next => .start tag :: (content.events ++ .close :: next.events)
  | empty tag next => .empty tag :: next.events
  | text s next => .text s :: next.events

/-- The child elements, in order. -/
def elements : Content → List Element
  | done => []
  | element tag content next => ⟨tag, content⟩ :: next.elements
  | empty tag next => ⟨tag, done⟩ :: next.elements
  | text _ next => next.elements

def named (c : Content) (name : String) : List Element := c.elements.filter (·.tag.name = name)

/-- The text that stands next to the child elements, without theirs. -/
def chars : Content → String
  | done => ""
  | element _ _ next | empty _ next => next.chars
  | text s next => s ++ next.chars

variable (t : Tag) (s name : String) (content next : Content) (rest : List Event)

theorem events_element_append : (element t content next).events ++ rest =
    .start t :: (content.events ++ .close :: (next.events ++ rest)) := by
  rw [events, List.cons_append, List.append_assoc, List.cons_append]

theorem named_element : (element t content next).named name =
    if t.name = name then ⟨t, content⟩ :: next.named name else next.named name := by
  rw [named, elements, List.filter_cons]
  simp only [decide_eq_true_eq]
  rfl

theorem named_empty : (empty t next).named name =
    if t.name = name then ⟨t, done⟩ :: next.named name else next.named name := by
  rw [named, elements, List.filter_cons]
  simp only [decide_eq_true_eq]
  rfl

section Append

/-- One content behind the other. -/
def append : Content → Content → Content
  | done, d => d
  | element t content next, d => element t content (next.append d)
  | empty t next, d => empty t (next.append d)
  | text s next, d => text s (next.append d)

variable (c d e : Content) (name : String)

theorem append_done : c.append done = c := by
  induction c with
  | done => rfl
  | element t content next _ ih => rw [append, ih]
  | empty t next ih => rw [append, ih]
  | text s next ih => rw [append, ih]

theorem append_assoc : (c.append d).append e = c.append (d.append e) := by
  induction c with
  | done => rfl
  | element t content next _ ih => rw [append, append, append, ih]
  | empty t next ih => rw [append, append, append, ih]
  | text s next ih => rw [append, append, append, ih]

theorem events_append : (c.append d).events = c.events ++ d.events := by
  induction c with
  | done => rfl
  | element t content next _ ih =>
    rw [append, events, events, ih, List.cons_append, List.append_assoc, List.cons_append]
  | empty t next ih => rw [append, events, events, ih, List.cons_append]
  | text s next ih => rw [append, events, events, ih, List.cons_append]

theorem elements_append : (c.append d).elements = c.elements ++ d.elements := by
  induction c with
  | done => rfl
  | element t content next _ ih => rw [append, elements, elements, ih, List.cons_append]
  | empty t next ih => rw [append, elements, elements, ih, List.cons_append]
  | text s next ih => rw [append, elements, elements, ih]

theorem named_append : (c.append d).named name = c.named name ++ d.named name := by
  rw [named, elements_append, List.filter_append]
  rfl

theorem chars_append : (c.append d).chars = c.chars ++ d.chars := by
  induction c with
  | done => exact String.empty_append.symm
  | element t content next _ ih => rw [append, chars, chars, ih]
  | empty t next ih => rw [append, chars, chars, ih]
  | text s next ih => rw [append, chars, chars, ih, String.append_assoc]

end Append

end Content

namespace Event

def isStart : Event → Bool
  | start _ => true
  | empty _ | close | text _ => false

def isClose : Event → Bool
  | close => true
  | start _ | empty _ | text _ => false

def isTag : Event → Bool
  | start _ | empty _ => true
  | close | text _ => false

end Event

/-- Events begin with text and then those of the element `root`. -/
inductive HasRoot : List Event → Element → Prop where
  | text {es : List Event} {root : Element} (s : String) :
      HasRoot es root → HasRoot (.text s :: es) root
  | element (tag : Tag) (content : Content) (rest : List Event) :
      HasRoot (.start tag :: (content.events ++ .close :: rest)) ⟨tag, content⟩
  | empty (tag : Tag) (rest : List Event) : HasRoot (.empty tag :: rest) ⟨tag, .done⟩

theorem HasRoot.cases {es : List Event} {root : Element} (h : HasRoot es root) :
    ∃ before rest, (∀ e ∈ before, ∃ s, e = .text s) ∧
      (es = before ++ .start root.tag :: (root.content.events ++ .close :: rest) ∨
        root.content = .done ∧ es = before ++ .empty root.tag :: rest) := by
  induction h with
  | text s _ ih =>
    obtain ⟨before, rest, hbefore, hes⟩ := ih
    refine ⟨.text s :: before, rest, List.forall_mem_cons.mpr ⟨⟨s, rfl⟩, hbefore⟩, ?_⟩
    rcases hes with rfl | ⟨hdone, rfl⟩
    · exact Or.inl rfl
    · exact Or.inr ⟨hdone, rfl⟩
  | element tag content rest => exact ⟨[], rest, List.forall_mem_nil _, Or.inl rfl⟩
  | empty tag rest => exact ⟨[], rest, List.forall_mem_nil _, Or.inr ⟨rfl, rfl⟩⟩

theorem HasRoot.append_left {before es : List Event} {root : Element}
    (hbefore : ∀ e ∈ before, ∃ s, e = .text s) (h : HasRoot es root) :
    HasRoot (before ++ es) root := by
  induction before with
  | nil => exact h
  | cons e before ih =>
    obtain ⟨⟨s, rfl⟩, htail⟩ := List.forall_mem_cons.mp hbefore
    exact .text s (ih htail)

/-- How many elements have been opened. -/
def opened (es : List Event) : Nat := es.countP Event.isStart

/-- How many elements with two tags have been closed. -/
def closed (es : List Event) : Nat := es.countP Event.isClose

section Counts

variable (t : Tag) (s : String) (es rest : List Event)

@[simp] theorem opened_start : opened (.start t :: es) = opened es + 1 :=
  List.countP_cons_of_pos rfl

@[simp] theorem opened_empty : opened (.empty t :: es) = opened es :=
  List.countP_cons_of_neg Bool.false_ne_true

@[simp] theorem opened_close : opened (.close :: es) = opened es :=
  List.countP_cons_of_neg Bool.false_ne_true

@[simp] theorem opened_text : opened (.text s :: es) = opened es :=
  List.countP_cons_of_neg Bool.false_ne_true

@[simp] theorem closed_start : closed (.start t :: es) = closed es :=
  List.countP_cons_of_neg Bool.false_ne_true

@[simp] theorem closed_empty : closed (.empty t :: es) = closed es :=
  List.countP_cons_of_neg Bool.false_ne_true

@[simp] theorem closed_close : closed (.close :: es) = closed es + 1 := List.countP_cons_of_pos rfl

@[simp] theorem closed_text : closed (.text s :: es) = closed es :=
  List.countP_cons_of_neg Bool.false_ne_true

@[simp] theorem opened_append : opened (es ++ rest) = opened es + opened rest := List.countP_append

@[simp] theorem closed_append : closed (es ++ rest) = closed es + closed rest := List.countP_append

end Counts

/-- At some place a tag has been read and all elements that were opened have been closed. -/
def ReadsRoot (items : List Event) : Prop :=
  ∃ es rest, items = es ++ rest ∧ es.any Event.isTag = true ∧ opened es = closed es

variable {es rest : List Event}

/-- The tags of a tree match. -/
theorem Content.opened_events (c : Content) : opened c.events = closed c.events := by
  induction c with
  | done => rfl
  | element tag content next ihc ihn =>
    simp only [events, opened_start, opened_append, opened_close, closed_start, closed_append,
      closed_close]
    omega
  | empty tag next ih => simpa only [events, opened_empty, closed_empty] using ih
  | text s next ih => simpa only [events, opened_text, closed_text] using ih

/-- Up to the first end of an element that has been opened before, events are those of a tree. -/
theorem exists_content (h : opened es < closed es) :
    ∃ (c : Content) (rest : List Event), es = c.events ++ .close :: rest := by
  induction hn : es.length using Nat.strongRecOn generalizing es with
  | ind n ih =>
    cases es with
    | nil => cases h
    | cons e es =>
      subst hn
      have hlt : es.length < (e :: es).length := Nat.lt_succ_self _
      cases e with
      | close => exact ⟨.done, es, rfl⟩
      | text s =>
        rw [opened_text, closed_text] at h
        obtain ⟨c, rest, rfl⟩ := ih _ hlt h rfl
        exact ⟨.text s c, rest, rfl⟩
      | empty t =>
        rw [opened_empty, closed_empty] at h
        obtain ⟨c, rest, rfl⟩ := ih _ hlt h rfl
        exact ⟨.empty t c, rest, rfl⟩
      | start t =>
        -- The element that begins here ends first, and what is left has one end too many again.
        rw [opened_start, closed_start] at h
        obtain ⟨content, rest, rfl⟩ := ih _ hlt (by omega) rfl
        rw [opened_append, closed_append, opened_close, closed_close, content.opened_events] at h
        have hrest : rest.length <
            (Event.start t :: (content.events ++ .close :: rest)).length := by
          simp
          omega
        obtain ⟨next, rest, rfl⟩ := ih _ hrest (by omega) rfl
        refine ⟨.element t content next, rest, ?_⟩
        simp [Content.events]

/-- Before the first tag there is only text. -/
inductive TextFirst : List Event → Prop where
  | nil : TextFirst []
  | text {es : List Event} (s : String) : TextFirst es → TextFirst (.text s :: es)
  | tag {e : Event} (es : List Event) : e.isTag = true → TextFirst (e :: es)

/-- Where no element is open none can be closed. -/
theorem textFirst_ofTokens (ts : List (Token × List Char)) :
    TextFirst (Event.ofTokens [] ts).items := by
  induction ts with
  | nil => exact .nil
  | cons p ts ih =>
    obtain ⟨token, rest⟩ := p
    cases token with
    | ignored => exact ih
    | text s => exact .text _ ih
    | reference name =>
      rw [Event.ofTokens]
      split
      · exact .nil
      · exact .nil
      · exact .text _ ih
    | start content =>
      rw [Event.ofTokens]
      split
      · exact .nil
      · exact .tag _ rfl
    | empty content =>
      rw [Event.ofTokens]
      split
      · exact .nil
      · exact .tag _ rfl
    | close name => exact .nil

theorem exists_root_of_tag {e : Event} (he : e.isTag = true)
    (h : opened (e :: es) = closed (e :: es)) :
    ∃ root, HasRoot (e :: (es ++ rest)) root := by
  cases e with
  | start t =>
    rw [opened_start, closed_start] at h
    have hopen : opened es < closed es := by omega
    obtain ⟨content, after, rfl⟩ := exists_content hopen
    rw [List.append_assoc, List.cons_append]
    exact ⟨_, .element t content _⟩
  | empty t => exact ⟨_, .empty t _⟩
  | close => cases he
  | text s => cases he

/-- If the reader gets so far that a tag has been read and no element is open, then what it has read
is a root element. -/
theorem exists_root {text : String} (h : ReadsRoot (events text).items) :
    ∃ root, HasRoot (events text).items root := by
  obtain ⟨es, rest, hitems, htag, hclosed⟩ := h
  have hfirst : TextFirst (es ++ rest) := hitems ▸ textFirst_ofTokens _
  rw [hitems]
  clear hitems
  induction es with
  | nil => cases htag
  | cons e es ih =>
    cases hfirst with
    | text s hfirst =>
      rw [opened_text, closed_text] at hclosed
      obtain ⟨root, hroot⟩ := ih htag hclosed hfirst
      exact ⟨root, .text s hroot⟩
    | tag _ he => exact exists_root_of_tag he hclosed

end TimeZones.Markup
