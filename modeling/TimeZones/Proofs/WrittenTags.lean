import TimeZones.Proofs.Attributes

/-! How well-formed tags are written. Quotes are closed within a tag, so that it ends where it
should, and it is read as it is written. -/
namespace TimeZones.Markup

/-- Up to the end of the text every quote is closed, and no tag ends. -/
def Balanced (v : List Char) : Prop := runFrom Token.tagStep none v = some none

instance : DecidablePred Balanced := fun _ => inferInstanceAs (Decidable (_ = _))

/-- Names are written of other characters than markup. -/
def isNameChar (c : Char) : Bool := !isSpace c && c ∉ "<>&\"'=/!?".toList

def IsName (name : List Char) : Prop := name ≠ [] ∧ ∀ c ∈ name, isNameChar c = true

instance : DecidablePred IsName := fun name =>
  have := List.decidableBAll (isNameChar · = true) name
  inferInstanceAs (Decidable (_ ∧ _))

/-- What can stand for itself in a value between the quotes `q`. -/
def InQuotes (q c : Char) : Prop := c ≠ '<' ∧ c ≠ '&' ∧ c ≠ q

instance (q : Char) : DecidablePred (InQuotes q) := fun _ => inferInstanceAs (Decidable (_ ∧ _ ∧ _))

/-- A well-formed attribute. -/
inductive WritesAttribute : List Char → String → String → Prop where
  | mk {key value : String} {w₁ w₂ us : List Char} {q : Char} : IsName key.toList → IsBlank w₁ →
      IsBlank w₂ → IsQuote q → Spells (InQuotes q) us value.toList →
      WritesAttribute (key.toList ++ (w₁ ++ '=' :: (w₂ ++ q :: (us ++ [q])))) key value

/-- Well-formed attributes, each with space in front, and perhaps space behind. -/
inductive WritesAttributes : List Char → List (String × String) → Prop where
  | nil {w : List Char} : IsBlank w → WritesAttributes w []
  | cons {w u cs : List Char} {key value : String} {as : List (String × String)} : IsBlank w →
      w ≠ [] → WritesAttribute u key value → WritesAttributes cs as →
      WritesAttributes (w ++ (u ++ cs)) ((key, value) :: as)

section Balanced
variable {v w us vs : List Char} {q : Char}

theorem runFrom_append {σ : Type} {step : σ → Char → Option σ} (st : σ) (v w : List Char) :
    runFrom step st (v ++ w) = (runFrom step st v).bind fun st => runFrom step st w := by
  induction v generalizing st with
  | nil => rfl
  | cons c v ih =>
    rw [List.cons_append, runFrom, runFrom, Option.bind_assoc]
    exact Option.bind_congr fun st _ => ih st

theorem Balanced.append_iff (hv : Balanced v) : Balanced (v ++ w) ↔ Balanced w := by
  rw [Balanced, runFrom_append, hv]
  rfl

theorem Balanced.append (hv : Balanced v) (hw : Balanced w) : Balanced (v ++ w) :=
  hv.append_iff.mpr hw

/-- With `v` put behind `x` a tag ends where it did: a quote that is open before `v` is open behind
it, and no other. -/
def KeepsQuotes (x v : List Char) : Prop :=
  ∀ quote, runFrom Token.tagStep none x = some quote → runFrom Token.tagStep quote v = some quote

theorem Balanced.keepsQuotes (hv : Balanced v) (hw : Balanced w) : KeepsQuotes v w := by
  intro quote h
  obtain rfl := Option.some.inj (hv.symm.trans h)
  exact hw

/-- Text that keeps the quotes can be put into balanced text. -/
theorem KeepsQuotes.balanced {x y : List Char} (h : KeepsQuotes x v) (hxy : Balanced (x ++ y)) :
    Balanced (x ++ (v ++ y)) := by
  rw [Balanced, runFrom_append] at hxy ⊢
  obtain ⟨quote, hx, hy⟩ := Option.bind_eq_some_iff.mp hxy
  rw [hx, Option.bind_some, runFrom_append, h quote hx]
  exact hy

theorem balanced_of_forall (hv : ∀ c ∈ v, c ≠ '>' ∧ ¬ IsQuote c) : Balanced v := by
  induction v with
  | nil => rfl
  | cons c v ih =>
    obtain ⟨⟨hend, hquote⟩, hv⟩ := List.forall_mem_cons.mp hv
    have hstep : Token.tagStep none c = some none := by
      rw [Token.tagStep, if_neg fun h => hend h.1, quoteAfter]
      exact congrArg some (if_neg hquote)
    rw [Balanced, runFrom, hstep]
    exact ih hv

theorem IsBlank.balanced (hw : IsBlank w) : Balanced w := by
  refine balanced_of_forall fun c hc => ?_
  have := hw c hc
  refine ⟨?_, ?_⟩
  · rintro rfl
    cases this
  · intro hquote
    rw [IsQuote.not_isSpace hquote] at this
    cases this

theorem runFrom_quoted (hus : ∀ c ∈ us, c ≠ q) :
    runFrom Token.tagStep (some q) us = some (some q) := by
  induction us with
  | nil => rfl
  | cons c us ih =>
    obtain ⟨hc, hus⟩ := List.forall_mem_cons.mp hus
    have hstep : Token.tagStep (some q) c = some (some q) := by
      rw [Token.tagStep, if_neg fun h => (by cases h.2), quoteAfter]
      exact congrArg some (if_neg hc)
    rw [runFrom, hstep]
    exact ih hus

theorem balanced_quoted (hq : IsQuote q) (hus : ∀ c ∈ us, c ≠ q) :
    Balanced (q :: (us ++ [q])) := by
  have hopen : Token.tagStep none q = some (some q) := by
    rcases hq with rfl | rfl
    · rfl
    · rfl
  have hclose : Token.tagStep (some q) q = some none := by
    rw [Token.tagStep, if_neg fun h => (by cases h.2), quoteAfter]
    exact congrArg some (if_pos rfl)
  rw [Balanced, runFrom, hopen, Option.bind_some, runFrom_append, runFrom_quoted hus,
    Option.bind_some, runFrom, hclose]
  rfl

/-- Text has no end of a tag in it, that is, a tag can go on behind it. -/
def Continues (v : List Char) : Prop := ∃ quote, runFrom Token.tagStep none v = some quote

theorem Continues.append (hv : Balanced v) (h : Continues (v ++ w)) : Continues w := by
  obtain ⟨quote, hquote⟩ := h
  rw [runFrom_append, hv] at hquote
  exact ⟨quote, hquote⟩

theorem Continues.left (h : Continues (v ++ w)) : Continues v := by
  obtain ⟨quote, hquote⟩ := h
  rw [runFrom_append] at hquote
  obtain ⟨quote', hv, -⟩ := Option.bind_eq_some_iff.mp hquote
  exact ⟨quote', hv⟩

/-- Without quotes none is open. -/
theorem Continues.balanced (h : Continues v) (hv : ∀ c ∈ v, ¬ IsQuote c) : Balanced v := by
  induction v with
  | nil => rfl
  | cons c v ih =>
    obtain ⟨hc, hv⟩ := List.forall_mem_cons.mp hv
    have hend : c ≠ '>' := by
      rintro rfl
      obtain ⟨quote, hquote⟩ := h
      cases hquote
    have hsingle : Balanced [c] :=
      balanced_of_forall (List.forall_mem_singleton.mpr ⟨hend, hc⟩)
    exact hsingle.append (ih (h.append hsingle) hv)

/-- If no key has quotes in it, they pair up. -/
theorem Continues.balanced_attributes {keys : List (List Char)} {as : List (String × String)}
    (h : Continues v) (has : Tag.Attributes keys v as)
    (hkeys : ∀ k ∈ Tag.keysOf as, ∀ c ∈ k, ¬ IsQuote c) : Balanced v := by
  induction has with
  | nil hw => exact hw.balanced
  | @cons keys w u rest key vs as hw hu _ _ ih =>
    rw [Tag.keysOf, List.map_cons, String.toList_ofList] at hkeys
    obtain ⟨hkey, hkeys⟩ := List.forall_mem_cons.mp hkeys
    have hu' : Balanced u := by
      have hfirst := (h.append hw.balanced).left
      obtain ⟨-, hw₁, hw₂, hq, hus, -⟩ := hu
      have hequals : Balanced ['='] := rfl
      exact (hfirst.left.balanced hkey).append (hw₁.balanced.append
        (hequals.append (hw₂.balanced.append (balanced_quoted hq hus))))
    have hrest := (h.append hw.balanced).append hu'
    exact hw.balanced.append (hu'.append (ih hrest hkeys))

/-- Markup in angle brackets is a tag, if its first character is none of two. -/
theorem isMarkup_tag (hv : Balanced v) (hfirst : ∀ c ∈ v.head?, c ≠ '!' ∧ c ≠ '?') :
    IsMarkup ('<' :: (v ++ ['>'])) (Token.ofTag v) := by
  refine ⟨'<', v ++ ['>'], rfl, Or.inl rfl, fun s => ?_⟩
  have htag : Token.tag? (v ++ '>' :: s) = .ok (Token.ofTag v, s) :=
    Token.tag?_eq_ok.mpr ⟨v, rfl, hv, rfl⟩
  rw [List.append_assoc, List.singleton_append]
  change Token.markup? (v ++ '>' :: s) = _
  rw [← htag]
  cases v with
  | nil => rfl
  | cons c v =>
    obtain ⟨hbang, hquestion⟩ := hfirst c rfl
    rw [List.cons_append]
    unfold Token.markup?
    split <;> simp_all

end Balanced

section Written
variable {u v w cs name : List Char} {key value : String} {as : List (String × String)} {c : Char}

theorem isNameChar_eq_true (h : isNameChar c = true) : isSpace c = false ∧
    ∀ d ∈ "<>&\"'=/!?".toList, c ≠ d := by
  rw [isNameChar, Bool.and_eq_true] at h
  refine ⟨by simpa using h.1, ?_⟩
  rintro d hd rfl
  exact of_decide_eq_true h.2 hd

theorem IsName.not_isSpace (h : IsName name) : ∀ c ∈ name, isSpace c = false :=
  fun c hc => (isNameChar_eq_true (h.2 c hc)).1

theorem IsName.ne (h : IsName name) {d : Char} (hd : d ∈ "<>&\"'=/!?".toList) :
    ∀ c ∈ name, c ≠ d :=
  fun c hc => (isNameChar_eq_true (h.2 c hc)).2 d hd

theorem IsName.not_isQuote (h : IsName name) : ∀ c ∈ name, ¬ IsQuote c := by
  rintro c hc (rfl | rfl)
  · exact h.ne (d := '"') (by decide) _ hc rfl
  · exact h.ne (d := '\'') (by decide) _ hc rfl

theorem IsName.balanced (h : IsName name) : Balanced name :=
  balanced_of_forall fun c hc => ⟨h.ne (by decide) c hc, h.not_isQuote c hc⟩

theorem IsName.isKey (h : IsName name) : Tag.IsKey name := by
  obtain ⟨k, cs, rfl⟩ := List.exists_cons_of_ne_nil h.1
  refine ⟨k, cs, rfl, h.not_isSpace k List.mem_cons_self, fun c hc => ?_⟩
  have hmem := List.mem_cons_of_mem k hc
  simp [Tag.inKey, h.not_isSpace c hmem, h.ne (d := '=') (by decide) c hmem]

/-- A spelling avoids what may not stand for itself and is in no reference. -/
theorem Spells.ne {literal : Char → Prop} {us vs : List Char} (h : Spells literal us vs) {d : Char}
    (hd : ¬ literal d) (hinert : ¬ IsInert d) (hamp : d ≠ '&') (hend : d ≠ ';') :
    ∀ c ∈ us, c ≠ d := by
  induction h with
  | nil => exact List.forall_mem_nil _
  | literal hc _ ih =>
    refine List.forall_mem_cons.mpr ⟨?_, ih⟩
    rintro rfl
    exact hd hc
  | reference hname _ ih =>
    refine List.forall_mem_cons.mpr ⟨hamp.symm, List.forall_mem_append.mpr ⟨?_, ?_⟩⟩
    · rintro c hc rfl
      exact hinert (hname.isInert c hc)
    · exact List.forall_mem_cons.mpr ⟨hend.symm, ih⟩

theorem Spells.ne_quote {us vs : List Char} {q : Char} (h : Spells (InQuotes q) us vs)
    (hq : IsQuote q) : ∀ c ∈ us, c ≠ q := by
  apply h.ne (fun hlit => hlit.2.2 rfl)
  · rintro ⟨-, -, -, -, hdouble, hsingle⟩
    rcases hq with rfl | rfl
    · exact hdouble rfl
    · exact hsingle rfl
  · rcases hq with rfl | rfl
    · decide
    · decide
  · rcases hq with rfl | rfl
    · decide
    · decide

namespace WritesAttribute

theorem isAttribute (h : WritesAttribute u key value) :
    Tag.IsAttribute u key.toList value.toList := by
  obtain ⟨hkey, hw₁, hw₂, hq, hvalue⟩ := h
  exact .mk hkey.isKey hw₁ hw₂ hq (hvalue.ne_quote hq)
    (hvalue.unescape_eq (fun hlit => hlit.2.1 rfl) _)

theorem balanced (h : WritesAttribute u key value) : Balanced u := by
  obtain ⟨hkey, hw₁, hw₂, hq, hvalue⟩ := h
  have hequals : Balanced ['='] := rfl
  exact hkey.balanced.append (hw₁.balanced.append
    (hequals.append (hw₂.balanced.append (balanced_quoted hq (hvalue.ne_quote hq)))))

end WritesAttribute

/-- There is no slash at the end. -/
def NoSlashAtEnd (v : List Char) : Prop := v.getLast? ≠ some '/'

instance : DecidablePred NoSlashAtEnd := fun _ => inferInstanceAs (Decidable (_ ≠ _))

theorem NoSlashAtEnd.append (hv : NoSlashAtEnd v) (hw : NoSlashAtEnd w) :
    NoSlashAtEnd (v ++ w) := by
  rw [NoSlashAtEnd, List.getLast?_append]
  cases h : w.getLast? with
  | none => exact hv
  | some c =>
    rw [Option.some_or, ← h]
    exact hw

theorem noSlashAtEnd_of_forall (hv : ∀ c ∈ v, c ≠ '/') : NoSlashAtEnd v :=
  fun h => hv '/' (List.mem_of_getLast? h) rfl

theorem IsBlank.noSlashAtEnd (hw : IsBlank w) : NoSlashAtEnd w := by
  refine noSlashAtEnd_of_forall fun c hc => ?_
  rintro rfl
  cases hw _ hc

theorem WritesAttribute.noSlashAtEnd (h : WritesAttribute u key value) : NoSlashAtEnd u := by
  obtain @⟨key, value, w₁, w₂, us, q, -, -, -, hq, -⟩ := h
  have hlast : key.toList ++ (w₁ ++ '=' :: (w₂ ++ q :: (us ++ [q]))) =
      key.toList ++ (w₁ ++ '=' :: (w₂ ++ q :: us)) ++ [q] := by
    simp only [List.append_assoc, List.cons_append]
  rw [NoSlashAtEnd, hlast, List.getLast?_concat]
  rcases hq with rfl | rfl
  · decide
  · decide

theorem writesAttributes_nil : WritesAttributes [] [] := .nil isBlank_nil

namespace WritesAttributes

/-- The usual way to write an attribute. -/
theorem quoted {us : List Char} (key : String) (hkey : IsName key.toList)
    (hvalue : Spells (InQuotes '\'') us value.toList) (h : WritesAttributes cs as) :
    WritesAttributes (' ' :: (key.toList ++ '=' :: '\'' :: (us ++ '\'' :: cs)))
      ((key, value) :: as) := by
  have hspace : IsBlank [' '] := by decide
  have hu := WritesAttribute.mk hkey isBlank_nil isBlank_nil (Or.inr rfl) hvalue
  have := cons hspace (List.cons_ne_nil _ _) hu h
  simpa only [List.append_assoc, List.cons_append, List.nil_append] using this

theorem balanced (h : WritesAttributes cs as) : Balanced cs := by
  induction h with
  | nil hw => exact hw.balanced
  | cons hw _ hu _ ih => exact hw.balanced.append (hu.balanced.append ih)

theorem noSlashAtEnd (h : WritesAttributes cs as) : NoSlashAtEnd cs := by
  induction h with
  | nil hw => exact hw.noSlashAtEnd
  | cons hw _ hu _ ih => exact hw.noSlashAtEnd.append (hu.noSlashAtEnd.append ih)

theorem head_isSpace (h : WritesAttributes cs as) : ∀ c ∈ cs.head?, isSpace c = true := by
  cases h with
  | nil hw => exact fun c hc => hw c (List.mem_of_mem_head? hc)
  | cons hw hne =>
    obtain ⟨d, w, rfl⟩ := List.exists_cons_of_ne_nil hne
    rintro _ ⟨⟩
    exact hw d List.mem_cons_self

theorem attributes {keys : List (List Char)} (h : WritesAttributes cs as)
    (hdistinct : (Tag.keysOf as).Nodup) (hnew : ∀ k ∈ Tag.keysOf as, k ∉ keys) :
    Tag.Attributes keys cs as := by
  induction h generalizing keys with
  | nil hw => exact .nil hw
  | @cons w u cs key value as hw _ hu _ ih =>
    obtain ⟨hkey, hdistinct⟩ := List.nodup_cons.mp hdistinct
    obtain ⟨hkeys, hnew⟩ := List.forall_mem_cons.mp hnew
    have hrest : Tag.Attributes (key.toList :: keys) cs as := by
      refine ih hdistinct fun k hk => ?_
      rw [List.mem_cons, not_or]
      refine ⟨?_, hnew k hk⟩
      rintro rfl
      exact hkey hk
    have := Tag.Attributes.cons hw hu.isAttribute hkeys hrest
    rwa [String.ofList_toList, String.ofList_toList] at this

end WritesAttributes

/-- A name and attributes with different keys are read as a tag. -/
theorem ofContent_written (hname : IsName name) (has : WritesAttributes cs as)
    (hdistinct : (Tag.keysOf as).Nodup) :
    Tag.ofContent (name ++ cs) = .ok ⟨String.ofList name, as⟩ :=
  Tag.ofContent_eq_ok.mpr ⟨name, cs, rfl, hname.not_isSpace, has.head_isSpace, rfl,
    has.attributes hdistinct fun _ _ => List.not_mem_nil⟩

theorem IsName.head_ne (hname : IsName name) : ∀ c ∈ (name ++ v).head?,
    c ≠ '/' ∧ c ≠ '!' ∧ c ≠ '?' := by
  obtain ⟨d, ds, rfl⟩ := List.exists_cons_of_ne_nil hname.1
  rintro _ ⟨⟩
  exact ⟨hname.ne (by decide) d List.mem_cons_self, hname.ne (by decide) d List.mem_cons_self,
    hname.ne (by decide) d List.mem_cons_self⟩

theorem isMarkup_written (hname : IsName name) (hv : Balanced v) :
    IsMarkup ('<' :: (name ++ v ++ ['>'])) (Token.ofTag (name ++ v)) :=
  isMarkup_tag (hname.balanced.append hv) fun c hc => (hname.head_ne c hc).2

theorem ofTag_written (hname : IsName name) : Token.ofTag (name ++ v) =
    if (name ++ v).getLast? = some '/' then .empty (name ++ v).dropLast
    else .start (name ++ v) := by
  apply Token.ofTag_of_not_close
  intro rest h
  apply (hname.head_ne (v := v) '/' _).1 rfl
  rw [h]
  rfl

/-- A start tag. -/
theorem isMarkup_start (hname : IsName name) (has : WritesAttributes cs as) :
    IsMarkup ('<' :: (name ++ (cs ++ ['>']))) (.start (name ++ cs)) := by
  have hlast : NoSlashAtEnd (name ++ cs) :=
    (noSlashAtEnd_of_forall (hname.ne (by decide))).append has.noSlashAtEnd
  have := isMarkup_written hname has.balanced
  rwa [ofTag_written hname, if_neg hlast, List.append_assoc] at this

/-- An empty tag. -/
theorem isMarkup_empty (hname : IsName name) (has : WritesAttributes cs as) :
    IsMarkup ('<' :: (name ++ (cs ++ ['/', '>']))) (.empty (name ++ cs)) := by
  have hslash : Balanced ['/'] := rfl
  have hlast : (name ++ (cs ++ ['/'])).getLast? = some '/' := by
    rw [← List.append_assoc, List.getLast?_concat]
  have hdrop : (name ++ (cs ++ ['/'])).dropLast = name ++ cs := by
    rw [← List.append_assoc, List.dropLast_concat]
  have := isMarkup_written hname (has.balanced.append hslash)
  rw [ofTag_written hname, if_pos hlast, hdrop] at this
  rwa [List.append_assoc, List.append_assoc] at this

theorem trimEnd_append_blank (hw : IsBlank w) : trimEnd (v ++ w) = trimEnd v := by
  rw [trimEnd, List.reverse_append, List.dropWhile_append_of_pos, trimEnd]
  exact fun c hc => hw c (List.mem_reverse.mp hc)

theorem trimEnd_concat (hc : isSpace c = false) : trimEnd (v ++ [c]) = v ++ [c] := by
  rw [trimEnd, List.reverse_concat, List.dropWhile_cons, hc]
  exact List.reverse_reverse (v ++ [c]) ▸ congrArg List.reverse List.reverse_concat.symm

/-- Where text does not end with space, space is dropped behind it as it would be without it. -/
theorem trimEnd_append (hv : trimEnd v = v) : trimEnd (v ++ w) = v ++ trimEnd w := by
  have hw : trimEnd w = (w.reverse.dropWhile isSpace).reverse := rfl
  have hv' : (v.reverse.dropWhile isSpace).reverse = v := hv
  rw [trimEnd, List.reverse_append, List.dropWhile_append]
  split
  · rename_i hnil
    rw [hv', hw, List.isEmpty_iff.mp hnil, List.reverse_nil, List.append_nil]
  · rw [List.reverse_append, List.reverse_reverse, hw]

theorem closingName_written (hname : IsName name) (hw : IsBlank w) :
    Token.closingName (name ++ w) = name := by
  obtain ⟨v, c, rfl⟩ := (List.eq_nil_or_concat name).resolve_left hname.1
  rw [List.concat_eq_append] at hname ⊢
  have hc := hname.not_isSpace c (by simp)
  have hall : ¬ (v ++ [c] ++ w).all isSpace = true := by
    simp [hc]
  rw [Token.closingName, if_neg hall, trimEnd_append_blank hw, trimEnd_concat hc]

/-- An end tag. -/
theorem isMarkup_close (hname : IsName name) (hw : IsBlank w) :
    IsMarkup ('<' :: '/' :: (name ++ (w ++ ['>']))) (.close name) := by
  have hslash : Balanced ['/'] := rfl
  have := isMarkup_tag (hslash.append (hname.balanced.append hw.balanced))
    (by rintro _ ⟨⟩; decide)
  rw [List.singleton_append, Token.ofTag, closingName_written hname hw] at this
  rwa [List.cons_append, List.append_assoc] at this

end Written

end TimeZones.Markup
