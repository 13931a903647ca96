import TimeZones.Proofs.WrittenContent

/-! Places in a text where something can be added, and what is read there. Whole markup can stand
between tokens or in plain text, which it divides, and an attribute in a tag behind others. -/
namespace TimeZones.Markup

variable {a u v w x y s : List Char} {o : List String} {d next : Content} {es tail : List Event}
  {t : Tag} {name key : String}

/-- The text `a` is read to its end, where the elements `o` are open, innermost first. -/
structure OpenAt (a : List Char) (o : List String) : Prop where
  read : (events (String.ofList a)).error = none
  opened : openAfter [] (events (String.ofList a)).items = o

instance : Decidable (OpenAt a o) :=
  decidable_of_iff ((events (String.ofList a)).error.isNone = true ∧
      openAfter [] (events (String.ofList a)).items = o)
    ⟨fun h => ⟨Option.isNone_iff_eq_none.mp h.1, h.2⟩,
      fun h => ⟨Option.isNone_iff_eq_none.mpr h.read, h.opened⟩⟩

namespace OpenAt

theorem yields (h : OpenAt a o) : ∃ es, Yields [] (dropMark a) es o := by
  have hevents : events (String.ofList a) = ⟨(events (String.ofList a)).items, none⟩ :=
    congrArg (Reading.mk _) h.read
  obtain ⟨o', hyields⟩ := events_eq_iff.mpr hevents
  rw [String.toList_ofList] at hyields
  obtain ⟨ts, hlexes, hread⟩ := hyields
  obtain rfl : o' = o := hread.openAfter_eq.symm.trans h.opened
  exact ⟨_, ts, hlexes, hread⟩

theorem ne_nil (h : OpenAt a (name :: o)) : a ≠ [] := by
  rintro rfl
  have hopened := h.opened
  have hmark : dropMark [] = [] := rfl
  rw [items_events, String.toList_ofList, hmark, tokenList_nil] at hopened
  cases hopened

/-- What is read of a text behind `a` is what is read of the plain text in which `a` may end and
what follows it. -/
theorem exists_items (h : OpenAt a o) : ∃ es v, IsPlain v ∧ openAfter [] es = o ∧
    ∀ s, (a = [] → dropMark s = s) →
      (events (String.ofList (a ++ s))).items = es ++ eventList o (tokenList (v ++ s)) := by
  obtain ⟨fs, hyields⟩ := h.yields
  obtain ⟨q, v, es, hq, hv, hopen, hes⟩ := hyields.exists_plain
  refine ⟨es, v, hv, hopen, fun s hs => ?_⟩
  have hmark : dropMark (a ++ s) = q ++ (v ++ s) := by
    by_cases ha : a = []
    · subst ha
      obtain ⟨rfl, rfl⟩ := List.append_eq_nil_iff.mp hq.symm
      exact hs rfl
    · rw [dropMark_append ha, hq, List.append_assoc]
  rw [items_events, String.toList_ofList, hmark, hes]

end OpenAt

/-- The text `u` is read as `m`, wherever it stands. -/
def IsPiece (u : List Char) (m : Content) : Prop :=
  ∀ s, AtMarkup (u ++ s) ∧
    ∀ o, eventList o (tokenList (u ++ s)) = m.events ++ eventList o (tokenList s)

theorem IsAside.isPiece (h : IsAside u) : IsPiece u .done :=
  fun s => ⟨h.isMarkup.atMarkup s, fun _ => h.isMarkup.eventList_append rfl s⟩

/-- An element is read as one element of its name. -/
theorem IsElement.isPiece (h : IsElement name u) :
    ∃ m, IsPiece u m ∧ ∀ e ∈ m.elements, e.tag.name = name := by
  cases h with
  | @empty attrs as hname has hdistinct =>
    refine ⟨.empty ⟨name, as⟩ .done, fun s => ⟨?_, fun o => ?_⟩, ?_⟩
    · exact (isMarkup_empty hname has).atMarkup s
    · exact (isMarkup_empty hname has).eventList_append (tokenEvents_empty hname has hdistinct o) s
    · exact List.forall_mem_singleton.mpr rfl
  | @content attrs body w as hname has hdistinct hbody hw =>
    obtain ⟨c, hc⟩ := hbody.yields
    have hstart := isMarkup_start hname has
    have hclose := isMarkup_close hname hw
    have htext (s : List Char) : elementText name.toList attrs body w ++ s =
        '<' :: (name.toList ++ (attrs ++ ['>'])) ++
          (body ++ ('<' :: '/' :: (name.toList ++ (w ++ ['>'])) ++ s)) := by
      simp only [elementText, List.append_assoc, List.cons_append, List.nil_append]
    refine ⟨.element ⟨name, as⟩ c .done, fun s => ⟨?_, fun o => ?_⟩, ?_⟩
    · rw [htext]
      exact hstart.atMarkup _
    · rw [htext, hstart.eventList_append (tokenEvents_start hname has hdistinct o),
        (hc (name :: o)).eventList_append (hclose.atMarkup s),
        hclose.eventList_append (tokenEvents_close name o), Content.events_element_append]
      rfl
    · exact List.forall_mem_singleton.mpr rfl

/-- A text is plain up to the first markup. -/
theorem exists_plain_append (b : List Char) : ∃ v s, b = v ++ s ∧ IsPlain v ∧ AtMarkup s := by
  obtain ⟨v, s, hb, -, -, hv, hs⟩ := span_cases (fun c => c ≠ '<' && c ≠ '&') b
  refine ⟨v, s, hb, fun c hc => by simpa using hv c hc, fun c hc => ?_⟩
  have := hs c hc
  rw [Bool.and_eq_false_iff] at this
  simpa using this

namespace Content

/-- A content whose first events are those of plain text begins with that text. -/
theorem exists_withText (h : textEvents v ++ es = d.events ++ tail)
    (hdone : d = .done → tail.head? = some .close) :
    ∃ next, d = (withText v .done).append next ∧ es = next.events ++ tail := by
  rw [textEvents] at h
  rw [withText]
  cases hv : v.dropWhile isSpace with
  | nil =>
    rw [hv] at h
    exact ⟨d, rfl, h⟩
  | cons c v' =>
    rw [hv] at h
    cases d with
    | done =>
      rw [events, List.nil_append] at h
      rw [← h] at hdone
      cases hdone rfl
    | text s next =>
      obtain ⟨hs, hes⟩ := List.cons.inj h
      obtain rfl := Event.text.inj hs
      exact ⟨next, rfl, hes⟩
    | empty t next => cases (List.cons.inj h).1
    | element t content next => cases (List.cons.inj h).1

/-- Between characters other than space text can be divided. -/
theorem chars_withText_append {c : Char} (hc : isSpace c = false)
    (hw : ∀ d ∈ w.head?, isSpace d = false) :
    (withText (v ++ c :: w) .done).chars =
      (withText (v ++ [c]) .done).chars ++ (withText w .done).chars := by
  obtain ⟨v', hv'⟩ : ∃ v', ∀ s, (v ++ c :: s).dropWhile isSpace = v' ++ [c] ++ s := by
    have hstop (s : List Char) : (c :: s).dropWhile isSpace = c :: s := by
      rw [List.dropWhile_cons, hc]
      rfl
    simp only [List.dropWhile_append, hstop, List.append_assoc, List.singleton_append]
    split
    · exact ⟨[], fun s => rfl⟩
    · exact ⟨_, fun s => rfl⟩
  have hw' : w.dropWhile isSpace = w := by
    cases w with
    | nil => rfl
    | cons d w =>
      rw [List.dropWhile_cons, hw d rfl]
      rfl
  have hdone (s : String) : s ++ done.chars = s := String.append_empty
  rw [chars_withText, chars_withText, chars_withText, hv', hv', hw', List.append_nil,
    trimEnd_append (trimEnd_concat hc), trimEnd_concat hc, String.ofList_append, hdone, hdone,
    hdone]

end Content

/-- What comes before the closing angle bracket of an empty tag, and of no start tag. -/
def slash (isEmpty : Bool) : List Char := if isEmpty then ['/'] else []

/-- The token of an empty tag or of a start tag. -/
def tagToken (isEmpty : Bool) (content : List Char) : Token :=
  if isEmpty then .empty content else .start content

/-- The text of a tag, whose ends tell it from other markup and other tags. -/
structure IsTagText (isEmpty : Bool) (z : List Char) : Prop where
  balanced : Balanced (z ++ slash isEmpty)
  first : ∀ c ∈ (z ++ slash isEmpty).head?, c ≠ '/' ∧ c ≠ '!' ∧ c ≠ '?'
  last : isEmpty = false → NoSlashAtEnd z

theorem ofTag_eq_tagToken {isEmpty : Bool} {content z : List Char} :
    Token.ofTag content = tagToken isEmpty z ↔ content = z ++ slash isEmpty ∧
      (∀ name, content ≠ '/' :: name) ∧ (isEmpty = false → NoSlashAtEnd z) := by
  cases isEmpty with
  | true =>
    constructor
    · intro h
      obtain ⟨rfl, hclose⟩ := Token.ofTag_eq_empty h
      exact ⟨rfl, hclose, fun h => (by cases h)⟩
    · rintro ⟨rfl, hclose, -⟩
      have hlast : (z ++ slash true).getLast? = some '/' := List.getLast?_concat
      have hdrop : (z ++ slash true).dropLast = z := List.dropLast_concat
      rw [Token.ofTag_of_not_close hclose, if_pos hlast, hdrop]
      rfl
  | false =>
    rw [slash, if_neg Bool.false_ne_true, List.append_nil]
    constructor
    · intro h
      obtain ⟨rfl, hclose, hlast⟩ := Token.ofTag_eq_start h
      exact ⟨rfl, hclose, fun _ => hlast⟩
    · rintro ⟨rfl, hclose, hlast⟩
      rw [Token.ofTag_of_not_close hclose]
      exact if_neg (hlast rfl)

/-- Where a tag is read, and what is left behind it. -/
theorem next_eq_tagToken {isEmpty : Bool} {z rest : List Char} :
    Token.next '<' s = .ok (tagToken isEmpty z, rest) ↔
      s = z ++ (slash isEmpty ++ '>' :: rest) ∧ IsTagText isEmpty z := by
  constructor
  · intro h
    have hmarkup : Token.markup? s = .ok (tagToken isEmpty z, rest) := h
    rcases Token.tag?_of_markup? hmarkup with h | ⟨t, h⟩ | ⟨hfirst, htag⟩
    · cases isEmpty <;> cases h
    · cases isEmpty <;> cases h
    · obtain ⟨content, rfl, hbalanced, htoken⟩ := Token.tag?_eq_ok.mp htag
      obtain ⟨rfl, hclose, hlast⟩ := ofTag_eq_tagToken.mp htoken.symm
      refine ⟨List.append_assoc .., hbalanced, fun c hc => ⟨?_, hfirst c ?_⟩, hlast⟩
      · rintro rfl
        obtain ⟨name, hname⟩ := List.head?_eq_some_iff.mp hc
        exact hclose name hname
      · rw [List.head?_append, hc]
        rfl
  · rintro ⟨rfl, hbalanced, hfirst, hlast⟩
    have hclose : ∀ name, z ++ slash isEmpty ≠ '/' :: name := by
      intro name hname
      rw [hname] at hfirst
      exact (hfirst '/' rfl).1 rfl
    obtain ⟨c, v, hcv, -, hnext⟩ := isMarkup_tag hbalanced fun c hc => (hfirst c hc).2
    obtain ⟨rfl, rfl⟩ := List.cons.inj hcv
    have := hnext rest
    rw [ofTag_eq_tagToken.mpr ⟨rfl, hclose, hlast⟩] at this
    simpa only [List.append_assoc, List.singleton_append] using this

/-- In a tag with the name and attributes `x` and `y` the text `v` is put between them, which adds
an attribute with a new key. It has space in front, and perhaps behind. -/
structure PutsAttribute (x v y : List Char) (key : String) (t : Tag) : Prop where
  whole : ∃ t₁, Tag.ofContent x = .ok t₁ ∧ t₁.name = t.name
  tag : Tag.ofContent (x ++ y) = .ok t
  fresh : t.attribute? key = none
  written : ∃ w u w' value, v = w ++ (u ++ w') ∧ IsBlank w ∧
    (x ++ w).getLast?.any isSpace = true ∧ WritesAttribute u key value ∧ IsBlank w'

namespace PutsAttribute

/-- The tag has one attribute more, and its others are the same. -/
theorem exists_tag (h : PutsAttribute x v y key t) :
    ∃ t', Tag.ofContent (x ++ (v ++ y)) = .ok t' ∧ t.name = t'.name ∧
      ∀ k, k ≠ key → t.attribute? k = t'.attribute? k := by
  obtain ⟨t₁, hx, hname⟩ := h.whole
  obtain ⟨w, u, w', value, rfl, hw, hspace, hu, hw'⟩ := h.written
  have hnew : key.toList ∉ Tag.keysOf t.attributes := by
    intro hmem
    obtain ⟨p, hp, hkey⟩ := List.mem_map.mp hmem
    have := List.lookup_eq_none_iff.mp h.fresh p hp
    rw [String.toList_injective hkey] at this
    simp at this
  obtain ⟨as, as', has, hcontent⟩ :=
    Tag.ofContent_insert hx h.tag hname hw hspace hw' hu.isAttribute hnew
  rw [List.append_assoc, List.append_assoc]
  refine ⟨_, hcontent, rfl, fun k hk => ?_⟩
  have hne : (k == key) = false := beq_eq_false_iff_ne.mpr hk
  rw [Tag.attribute?, Tag.attribute?, has, List.lookup_append, List.lookup_append,
    String.ofList_toList, List.lookup_cons, hne]

theorem noSlashAtEnd (h : PutsAttribute x v y key t) : NoSlashAtEnd v := by
  obtain ⟨w, u, w', value, rfl, hw, -, hu, hw'⟩ := h.written
  exact hw.noSlashAtEnd.append (hu.noSlashAtEnd.append hw'.noSlashAtEnd)

/-- Where the quotes in front pair up they are kept. -/
theorem keepsQuotes (h : PutsAttribute x v y key t) (hx : Balanced x) : KeepsQuotes x v := by
  obtain ⟨w, u, w', value, rfl, hw, -, hu, hw'⟩ := h.written
  exact hx.keepsQuotes (hw.balanced.append (hu.balanced.append hw'.balanced))

/-- In a tag whose name and keys have no quotes in them the quotes pair up at every place. -/
theorem keepsQuotes_of_keys {isEmpty : Bool} (h : PutsAttribute x v y key t)
    (htag : IsTagText isEmpty (x ++ y)) (hname : ∀ c ∈ t.name.toList, ¬ IsQuote c)
    (hkeys : ∀ k ∈ Tag.keysOf t.attributes, ∀ c ∈ k, ¬ IsQuote c) : KeepsQuotes x v := by
  apply h.keepsQuotes
  have hx : Continues x := by
    have hbalanced := htag.balanced
    rw [List.append_assoc] at hbalanced
    exact Continues.left ⟨none, hbalanced⟩
  obtain ⟨t₁, ht₁, hname₁⟩ := h.whole
  obtain ⟨name, r, rfl, -, -, hname', has₁, has⟩ :=
    Tag.exists_of_ofContent_append ht₁ h.tag hname₁
  obtain ⟨as', hattributes, -⟩ := has₁.append_iff.mp has
  rw [hname', String.toList_ofList] at hname
  rw [hattributes, Tag.keysOf, List.map_append] at hkeys
  have hbalanced : Balanced name := hx.left.balanced hname
  exact hbalanced.append ((hx.append hbalanced).balanced_attributes has₁ fun k hk =>
    hkeys k (List.mem_append_left _ hk))

/-- The first character of the tag is the same, or there is space in its place. -/
theorem head_append (h : PutsAttribute x v y key t) {p : Char → Prop}
    (hs : ∀ c ∈ (x ++ s).head?, p c) (hspace : ∀ c, isSpace c = true → p c) :
    ∀ c ∈ (x ++ (v ++ s)).head?, p c := by
  cases x with
  | nil =>
    obtain ⟨w, u, w', value, rfl, hw, hlast, -⟩ := h.written
    cases w with
    | nil => cases hlast
    | cons c w =>
      rintro _ ⟨⟩
      exact hspace c (hw c List.mem_cons_self)
  | cons c x =>
    rintro _ ⟨⟩
    exact hs c rfl

theorem isTagText {isEmpty : Bool} (h : PutsAttribute x v y key t)
    (htag : IsTagText isEmpty (x ++ y)) (hquotes : KeepsQuotes x v) :
    IsTagText isEmpty (x ++ (v ++ y)) := by
  obtain ⟨hbalanced, hfirst, hlast⟩ := htag
  rw [List.append_assoc] at hbalanced hfirst
  refine ⟨?_, ?_, fun hstart => ?_⟩
  · simpa only [List.append_assoc] using hquotes.balanced hbalanced
  · have := h.head_append hfirst fun c hc => by
      refine ⟨?_, ?_, ?_⟩
      all_goals
        rintro rfl
        cases hc
    simpa only [List.append_assoc] using this
  · -- what is last in the tag is the end of `y`, if that is not empty, or of `v`
    rcases List.eq_nil_or_concat y with rfl | ⟨y, c, rfl⟩
    · rw [List.append_nil] at hlast ⊢
      exact (hlast hstart).append h.noSlashAtEnd
    · rw [List.concat_eq_append] at hlast ⊢
      have := hlast hstart
      rw [NoSlashAtEnd, ← List.append_assoc, List.getLast?_concat] at this
      rwa [NoSlashAtEnd, ← List.append_assoc, ← List.append_assoc, List.getLast?_concat]

/-- The tag ends where it did, if the quotes are kept. -/
theorem next_eq {isEmpty : Bool} {rest : List Char} (h : PutsAttribute x v y key t)
    (htag : Token.next '<' (x ++ (y ++ s)) = .ok (tagToken isEmpty (x ++ y), rest))
    (hquotes : KeepsQuotes x v) :
    Token.next '<' (x ++ (v ++ (y ++ s))) = .ok (tagToken isEmpty (x ++ (v ++ y)), rest) := by
  obtain ⟨hs, htext⟩ := next_eq_tagToken.mp htag
  rw [← List.append_assoc] at hs
  obtain rfl := List.append_cancel_left hs
  refine next_eq_tagToken.mpr ⟨?_, h.isTagText htext hquotes⟩
  simp only [List.append_assoc]

end PutsAttribute

/-- The event of an empty tag or of a start tag. -/
def tagEvent (isEmpty : Bool) (t : Tag) : Event := if isEmpty then .empty t else .start t

theorem tokenEvents_tagToken {isEmpty : Bool} {z : List Char} (ht : Tag.ofContent z = .ok t)
    (o : List String) : tokenEvents o (tagToken isEmpty z) =
      some ([tagEvent isEmpty t], if isEmpty then o else t.name :: o) := by
  cases isEmpty with
  | true =>
    change tokenEvents o (.empty z) = _
    rw [tokenEvents, ht]
    rfl
  | false =>
    change tokenEvents o (.start z) = _
    rw [tokenEvents, ht]
    rfl

theorem eventList_tag {isEmpty : Bool} {z rest : List Char} (ht : Tag.ofContent z = .ok t)
    (h : Token.next '<' s = .ok (tagToken isEmpty z, rest)) (o : List String) :
    eventList o (tokenList ('<' :: s)) =
      tagEvent isEmpty t :: eventList (if isEmpty then o else t.name :: o) (tokenList rest) := by
  obtain ⟨u, rfl, hu⟩ := isMarkup_of_next (Or.inl rfl) h
  exact hu.eventList_append (tokenEvents_tagToken ht o) rest

end TimeZones.Markup
