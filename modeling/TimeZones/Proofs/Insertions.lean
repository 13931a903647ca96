import Mathlib.Logic.Relation
import TimeZones.Proofs.AddedMarkup
import TimeZones.Proofs.EditedTree

/-! Additions to a document. Comments and instructions, elements and attributes that are not looked
for can be put into the text of an accepted document, any number of them, and what is read stays the
same. -/
namespace TimeZones.Country
open Markup

variable {a b u v w x y s : List Char} {o : List String} {m : Content} {t : Tag}
  {parent child name key : String} {mode : Mode} {out : CountryIndex}

/-- Within an element other elements than those that are looked for say nothing. -/
theorem alikeIn_of_named (v w : List Char) (hchild : childName? parent = some child)
    (hm : m.named child = []) :
    AlikeIn parent (.withText (v ++ w) .done)
      ((Content.withText v .done).append (m.append (.withText w .done))) := by
  refine ⟨fun c hc => ?_, fun hid => ?_⟩
  · obtain rfl := Option.some.inj (hchild.symm.trans hc)
    rw [Content.named_append, Content.named_append, hm, Content.named, Content.named,
      Content.named, Content.elements_withText, Content.elements_withText,
      Content.elements_withText]
    rfl
  · rw [hid] at hchild
    cases hchild

/-- In the text of a zone it does not matter where it is divided, but at space. -/
theorem alikeIn_id {c : Char} (v : List Char) (hc : isSpace c = false)
    (hw : ∀ d ∈ w.head?, isSpace d = false) :
    AlikeIn "id" (.withText (v ++ c :: w) .done)
      ((Content.withText (v ++ [c]) .done).append (.withText w .done)) := by
  refine ⟨fun c hc => (by cases hc), fun _ => ⟨?_, ?_⟩⟩
  · rw [Content.elements_append, Content.elements_withText, Content.elements_withText,
      Content.elements_withText]
    rfl
  · rw [Content.chars_append, Content.chars_withText_append hc hw]

/-- What says nothing in the innermost open element can be put in plain text, or beside it. -/
theorem parse_insert_piece (h : OpenAt a (name :: o)) (hw : IsPlain w) (hu : IsPiece u m)
    (halike : ∀ v s, s <+: b → AlikeIn name (.withText (v ++ (w ++ s)) .done)
      ((Content.withText (v ++ w) .done).append (m.append (.withText s .done))))
    (hparse : (CountryIndex.parse (String.ofList (a ++ (w ++ b))) mode).value = .ok out) :
    (CountryIndex.parse (String.ofList (a ++ (w ++ (u ++ b)))) mode).value = .ok out := by
  obtain ⟨es, v, hv, hopen, hitems⟩ := h.exists_items
  obtain ⟨r, s, rfl, hr, hs⟩ := exists_plain_append b
  have hmark (s : List Char) : a = [] → dropMark s = s := fun ha => (h.ne_nil ha).elim
  have hbefore : (events (String.ofList (a ++ (w ++ (r ++ s))))).items =
      es ++ (textEvents (v ++ (w ++ r)) ++ eventList (name :: o) (tokenList s)) := by
    rw [hitems _ (hmark _), ← (hv.append (hw.append hr)).eventList_append hs]
    simp only [List.append_assoc]
  have hafter : (events (String.ofList (a ++ (w ++ (u ++ (r ++ s)))))).items =
      es ++ (textEvents (v ++ w) ++
        (m.events ++ (textEvents r ++ eventList (name :: o) (tokenList s)))) := by
    rw [hitems _ (hmark _), ← hr.eventList_append hs, ← (hu (r ++ s)).2,
      ← (hv.append hw).eventList_append (hu (r ++ s)).1, List.append_assoc]
  refine parse_of_edited hparse hbefore hafter fun d tail hd hdone => ?_
  obtain ⟨next, rfl, hnext⟩ := Content.exists_withText hd hdone
  rw [hopen]
  refine ⟨_, .part (halike v r (List.prefix_append r s)) (.refl next), ?_⟩
  rw [hnext]
  simp only [Content.events_append, Content.events_withText, Content.events, List.append_nil,
    List.append_assoc]

/-- Where a tag begins it can be changed for one that says the same. -/
theorem exists_edited_of_tag {isEmpty : Bool} {t t' : Tag} {d : Content} {es tail : List Event}
    {outer : Option String} (ht : AlikeTags t t') (h : tagEvent isEmpty t :: es = d.events ++ tail)
    (hdone : d = .done → tail.head? = some .close) :
    ∃ d', Edited outer d d' ∧ tagEvent isEmpty t' :: es = d'.events ++ tail := by
  cases d with
  | done =>
    rw [Content.events, List.nil_append] at h
    rw [← h] at hdone
    cases isEmpty <;> cases hdone rfl
  | text s next => cases isEmpty <;> cases (List.cons.inj h).1
  | empty t₁ next =>
    obtain ⟨htag, rfl⟩ := List.cons.inj h
    cases isEmpty with
    | true =>
      obtain rfl := Event.empty.inj htag
      exact ⟨.empty t' next, .empty ht (.refl next), rfl⟩
    | false => cases htag
  | element t₁ content next =>
    obtain ⟨htag, rfl⟩ := List.cons.inj h
    cases isEmpty with
    | true => cases htag
    | false =>
      obtain rfl := Event.start.inj htag
      exact ⟨.element t' content next, .element ht (.refl content) (.refl next), rfl⟩

/-- An attribute that is not looked for can be put into a tag. -/
theorem parse_insert_attribute {isEmpty : Bool} {rest : List Char} (h : OpenAt a o)
    (htag : Token.next '<' (x ++ (y ++ s)) = .ok (tagToken isEmpty (x ++ y), rest))
    (hput : PutsAttribute x v y key t) (hquotes : KeepsQuotes x v) (hunused : key ∉ usedKeys t.name)
    (hparse : (CountryIndex.parse (String.ofList (a ++ '<' :: (x ++ (y ++ s)))) mode).value =
      .ok out) :
    (CountryIndex.parse (String.ofList (a ++ '<' :: (x ++ (v ++ (y ++ s))))) mode).value =
      .ok out := by
  obtain ⟨es, p, hp, hopen, hitems⟩ := h.exists_items
  obtain ⟨t', hcontent, hname, hattributes⟩ := hput.exists_tag
  have halike : AlikeTags t t' :=
    ⟨hname, fun k hk => hattributes k fun heq => hunused (heq ▸ hk)⟩
  have hat (s : List Char) : AtMarkup ('<' :: s) := by
    rintro _ ⟨⟩
    exact Or.inl rfl
  have hbefore : (events (String.ofList (a ++ '<' :: (x ++ (y ++ s))))).items =
      (es ++ textEvents p) ++ tagEvent isEmpty t ::
        eventList (if isEmpty then o else t.name :: o) (tokenList rest) := by
    rw [hitems _ fun _ => rfl, hp.eventList_append (hat _), eventList_tag hput.tag htag,
      List.append_assoc]
  have hafter : (events (String.ofList (a ++ '<' :: (x ++ (v ++ (y ++ s)))))).items =
      (es ++ textEvents p) ++ tagEvent isEmpty t' ::
        eventList (if isEmpty then o else t.name :: o) (tokenList rest) := by
    rw [hitems _ fun _ => rfl, hp.eventList_append (hat _),
      eventList_tag hcontent (hput.next_eq htag hquotes), ← hname, List.append_assoc]
  exact parse_of_edited hparse hbefore hafter fun d tail hd hdone =>
    exists_edited_of_tag halike hd hdone

/-- The text on the right is that on the left with something put into it that says nothing. -/
inductive Inserts : List Char → List Char → Prop where
  /-- Among the children of an element in which others are looked for. -/
  | aside {a u b : List Char} {parent child : String} {o : List String} :
      OpenAt a (parent :: o) → childName? parent = some child → IsAside u →
      Inserts (a ++ b) (a ++ (u ++ b))
  /-- Between two characters of the text of a zone. -/
  | inText {a u b : List Char} {c d : Char} {o : List String} : OpenAt a ("id" :: o) →
      IsPlain [c, d] → isSpace c = false → isSpace d = false → IsAside u →
      Inserts (a ++ c :: d :: b) (a ++ c :: (u ++ d :: b))
  /-- A child that is not looked for in its element. -/
  | element {a u b : List Char} {parent child name : String} {o : List String} :
      OpenAt a (parent :: o) → childName? parent = some child → IsElement name u → name ≠ child →
      Inserts (a ++ b) (a ++ (u ++ b))
  /-- In a tag, behind the name or whole attributes. -/
  | inTag {a x v y s rest : List Char} {key : String} {t : Tag} {o : List String}
      {isEmpty : Bool} : OpenAt a o →
      Token.next '<' (x ++ (y ++ s)) = .ok (tagToken isEmpty (x ++ y), rest) →
      PutsAttribute x v y key t → KeepsQuotes x v → key ∉ usedKeys t.name →
      Inserts (a ++ '<' :: (x ++ (y ++ s))) (a ++ '<' :: (x ++ (v ++ (y ++ s))))

theorem Inserts.parse {cs cs' : List Char} (h : Inserts cs cs')
    (hparse : (CountryIndex.parse (String.ofList cs) mode).value = .ok out) :
    (CountryIndex.parse (String.ofList cs') mode).value = .ok out := by
  have hchildren {name child : String} {m : Content} (hchild : childName? name = some child)
      (hm : m.named child = []) (v s : List Char) :
      AlikeIn name (.withText (v ++ ([] ++ s)) .done)
        ((Content.withText (v ++ []) .done).append (m.append (.withText s .done))) := by
    rw [List.append_nil]
    exact alikeIn_of_named v s hchild hm
  cases h with
  | aside hopen hchild hu =>
    exact parse_insert_piece (w := []) hopen isPlain_nil hu.isPiece
      (fun v s _ => hchildren hchild rfl v s) hparse
  | @inText a u b c d o hopen hplain hc hd hu =>
    obtain ⟨hplain, -⟩ := List.forall_mem_cons.mp hplain
    refine parse_insert_piece (w := [c]) (b := d :: b) hopen (List.forall_mem_singleton.mpr hplain)
      hu.isPiece (fun v s hs => alikeIn_id v hc ?_) hparse
    cases s with
    | nil => exact fun c hc => (by cases hc)
    | cons e s =>
      obtain ⟨rfl, -⟩ := List.cons_prefix_cons.mp hs
      rintro _ ⟨⟩
      exact hd
  | element hopen hchild hu hname =>
    obtain ⟨m, hm, hall⟩ := hu.isPiece
    have hnone : m.named _ = [] := List.filter_eq_nil_iff.mpr fun e he => by
      rw [hall e he]
      simpa using hname
    exact parse_insert_piece (w := []) hopen isPlain_nil hm
      (fun v s _ => hchildren hchild hnone v s) hparse
  | inTag hopen htag hput hquotes hunused =>
    exact parse_insert_attribute hopen htag hput hquotes hunused hparse

/-- What is read of an accepted document stays the same whatever is put into it that says nothing,
any number of times. -/
theorem parse_inserts {text text' : String}
    (hparse : (CountryIndex.parse text mode).value = .ok out)
    (h : Relation.ReflTransGen Inserts text.toList text'.toList) :
    (CountryIndex.parse text' mode).value = .ok out := by
  generalize htext' : text'.toList = cs at h
  obtain rfl : text' = String.ofList cs := by rw [← htext', String.ofList_toList]
  clear htext'
  induction h with
  | refl => rwa [String.ofList_toList]
  | tail _ hstep ih => exact hstep.parse ih

/-- A document, written of pieces between which something is added. -/
def rootSample : List Char := "<timezones>".toList

def zonesSample : List Char := "<countryzones>".toList

def tagSample : List Char := "country code='gb'".toList

def defaultSample : List Char := " default='AB'".toList

def endSample : List Char := "</id></country></countryzones></timezones>".toList

def noteSample : List Char := "<?".toList ++ ("note".toList ++ "?>".toList)

def splitSample : List Char := "<!--".toList ++ (" split ".toList ++ "-->".toList)

def futureSample : List Char := elementText "future".toList [] "<id>N</id>".toList []

def plainSample : List Char :=
  rootSample ++ (zonesSample ++ '<' :: (tagSample ++ (defaultSample ++
    ("><id>".toList ++ 'A' :: 'B' :: endSample))))

def addedSample : List Char :=
  rootSample ++ (noteSample ++ (zonesSample ++ (futureSample ++ '<' :: (tagSample ++
    (" extra='1'".toList ++ (defaultSample ++
      ("><id>".toList ++ 'A' :: (splitSample ++ 'B' :: endSample))))))))

theorem isElement_futureSample : IsElement "future" futureSample := by
  have hid : WellFormed ([] ++ (elementText "id".toList [] ['N'] [] ++ [])) :=
    .element isPlain_nil (by decide) writesAttributes_nil List.nodup_nil (.text (by decide))
      isBlank_nil (.text isPlain_nil)
  exact .content (by decide) writesAttributes_nil List.nodup_nil hid isBlank_nil

theorem putsAttribute_sample : PutsAttribute tagSample " extra='1'".toList defaultSample "extra"
    ⟨"country", [("code", "gb"), ("default", "AB")]⟩ := by
  have hname : IsName "country".toList := by decide
  have hdefault := WritesAttributes.quoted "default" (by decide)
    (spells_self "AB".toList (by decide)) writesAttributes_nil
  have hcode := WritesAttributes.quoted "code" (by decide) (spells_self "gb".toList (by decide))
    writesAttributes_nil
  have hboth := WritesAttributes.quoted "code" (by decide) (spells_self "gb".toList (by decide))
    hdefault
  have hextra := @WritesAttribute.mk "extra" "1" [] [] "1".toList '\'' (by decide) isBlank_nil
    isBlank_nil (Or.inr rfl) (spells_self "1".toList (by decide))
  refine ⟨⟨_, ofContent_written hname hcode (by decide), rfl⟩, ?_, rfl, ?_⟩
  · exact ofContent_written hname hboth (by decide)
  · exact ⟨[' '], _, [], _, rfl, by decide, rfl, hextra, isBlank_nil⟩

theorem inserts_sample : Relation.ReflTransGen Inserts plainSample addedSample := by
  have hid : OpenAt (rootSample ++ (zonesSample ++ '<' :: (tagSample ++ (defaultSample ++
      "><id>".toList)))) ["id", "country", "countryzones", "timezones"] := by
    decide +kernel
  have hzones : OpenAt (rootSample ++ zonesSample) ["countryzones", "timezones"] := by
    decide +kernel
  have hroot : OpenAt rootSample ["timezones"] := by
    decide +kernel
  have hsplit := Inserts.inText (b := endSample) hid (c := 'A') (d := 'B') (by decide) rfl rfl
    (@IsAside.comment " split ".toList (by decide +kernel))
  have htag : Token.next '<' (tagSample ++ (defaultSample ++ ("><id>".toList ++
      'A' :: (splitSample ++ 'B' :: endSample)))) =
      .ok (tagToken false (tagSample ++ defaultSample),
        "<id>".toList ++ 'A' :: (splitSample ++ 'B' :: endSample)) :=
    next_eq_tagToken.mpr ⟨by simp [slash], by decide +kernel, by rintro _ ⟨⟩; decide,
      fun _ => by decide⟩
  have hname : IsName "country".toList := by decide
  have hcode : IsName "code".toList := by decide
  have hdefault : IsName "default".toList := by decide
  have hquotes := putsAttribute_sample.keepsQuotes_of_keys (next_eq_tagToken.mp htag).2
    hname.not_isQuote (List.forall_mem_cons.mpr
      ⟨hcode.not_isQuote, List.forall_mem_singleton.mpr hdefault.not_isQuote⟩)
  have hextra := Inserts.inTag hzones htag putsAttribute_sample hquotes (by decide)
  have hfuture := Inserts.element (b := '<' :: (tagSample ++ (" extra='1'".toList ++
    (defaultSample ++ ("><id>".toList ++ 'A' :: (splitSample ++ 'B' :: endSample))))))
    hzones rfl isElement_futureSample (by decide)
  have hnote := Inserts.aside (b := zonesSample ++ (futureSample ++ '<' :: (tagSample ++
    (" extra='1'".toList ++ (defaultSample ++
      ("><id>".toList ++ 'A' :: (splitSample ++ 'B' :: endSample)))))))
    hroot rfl (@IsAside.instruction "note".toList (by decide +kernel))
  simp only [List.append_assoc, List.cons_append] at hsplit hextra hfuture
  exact .tail (.tail (.tail (.single hsplit) hextra) hfuture) hnote

theorem parse_inserts_sample : Relation.ReflTransGen Inserts plainSample addedSample ∧
    ∃ out, (CountryIndex.parse (String.ofList plainSample) .strict).value = .ok out ∧
      (CountryIndex.parse (String.ofList addedSample) .strict).value = .ok out := by
  have hsome : (CountryIndex.parse (String.ofList plainSample) .strict).value.toOption.isSome =
      true := by
    decide +kernel
  obtain ⟨x, hx⟩ := Option.isSome_iff_exists.mp hsome
  have hparse := toOption_eq_some.mp hx
  refine ⟨inserts_sample, x, hparse, parse_inserts hparse ?_⟩
  rw [String.toList_ofList, String.toList_ofList]
  exact inserts_sample

/-- The text of a tag with quotes in its keys, which are part of them. -/
def oddSample : List Char := "timezones a'='1'".toList

def oddEndSample : List Char := "><countryzones/></timezones>".toList

/-- Where quotes in keys are open an attribute with quotes can do harm: the tag does not end. -/
theorem not_parse_unless_keepsQuotes :
    OpenAt [] [] ∧
      Token.next '<' (oddSample ++ (" b'='2'".toList ++ oddEndSample)) =
        .ok (tagToken false (oddSample ++ " b'='2'".toList), "<countryzones/></timezones>".toList) ∧
      PutsAttribute oddSample " c=\"'\"".toList " b'='2'".toList "c"
        ⟨"timezones", [("a'", "1"), ("b'", "2")]⟩ ∧
      "c" ∉ usedKeys "timezones" ∧
      (∃ out, (CountryIndex.parse (String.ofList ('<' :: (oddSample ++
        (" b'='2'".toList ++ oddEndSample)))) .strict).value = .ok out) ∧
      ∃ f, (CountryIndex.parse (String.ofList ('<' :: (oddSample ++ (" c=\"'\"".toList ++
        (" b'='2'".toList ++ oddEndSample))))) .strict).value = .error f := by
  have hadded := @WritesAttribute.mk "c" "'" [] [] "'".toList '"' (by decide) isBlank_nil
    isBlank_nil (Or.inl rfl) (spells_self "'".toList (by decide))
  have hput : PutsAttribute oddSample " c=\"'\"".toList " b'='2'".toList "c"
      ⟨"timezones", [("a'", "1"), ("b'", "2")]⟩ := by
    refine ⟨⟨⟨"timezones", [("a'", "1")]⟩, toOption_eq_some.mp (by decide +kernel), rfl⟩,
      toOption_eq_some.mp (by decide +kernel), rfl, [' '], _, [], _, rfl, by decide, rfl, hadded,
      isBlank_nil⟩
  have haccepts : (CountryIndex.parse (String.ofList ('<' :: (oddSample ++
      (" b'='2'".toList ++ oddEndSample)))) .strict).value.toOption.isSome = true := by
    decide +kernel
  have hrefuses : (CountryIndex.parse (String.ofList ('<' :: (oddSample ++ (" c=\"'\"".toList ++
      (" b'='2'".toList ++ oddEndSample))))) .strict).value.toOption.isSome = false := by
    decide +kernel
  obtain ⟨out, hout⟩ := Option.isSome_iff_exists.mp haccepts
  refine ⟨by decide +kernel, ?_, hput, by decide, ⟨out, toOption_eq_some.mp hout⟩, ?_⟩
  · exact next_eq_tagToken.mpr ⟨rfl, by decide +kernel, by rintro _ ⟨⟩; decide,
      fun _ => by decide⟩
  · generalize (CountryIndex.parse _ .strict).value = result at hrefuses
    cases result with
    | error f => exact ⟨f, rfl⟩
    | ok out => cases hrefuses

end TimeZones.Country
