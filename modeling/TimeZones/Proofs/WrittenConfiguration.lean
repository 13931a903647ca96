import TimeZones.Proofs.DocumentMeaning
import TimeZones.Proofs.SpelledText

/-! Configurations as they are written. Whatever countries there are, and however they are written,
they are read back. -/
namespace TimeZones.Country
open Markup

/-- A number in decimal, perhaps with a sign, and perhaps with zeros in front. -/
inductive Decimal : Int → String → Prop where
  | unsigned {ds : List Char} {n : Nat} : Numeral 10 ds n → Decimal n (String.ofList ds)
  | plus {ds : List Char} {n : Nat} : Numeral 10 ds n → Decimal n (String.ofList ('+' :: ds))
  | minus {ds : List Char} {n : Nat} : Numeral 10 ds n → Decimal (-n) (String.ofList ('-' :: ds))

/-- The attributes that say yes or no. What holds without an attribute need not be said. -/
inductive SaysFlag (key : String) (absent : Bool) : Bool → List (String × String) → Prop where
  | absent : SaysFlag key absent absent []
  | yes : SaysFlag key absent true [(key, "y")]
  | no : SaysFlag key absent false [(key, "n")]

/-- The attributes that say until when a zone is used. -/
inductive SaysNotAfter : Option Int → List (String × String) → Prop where
  | never : SaysNotAfter none []
  | after {n : Int} {s : String} : Decimal n s → SaysNotAfter (some n) [("notafter", s)]

/-- How an element is written: with attributes in any order. -/
inductive WritesElement (name : String) (as : List (String × String)) (body : List Char) :
    List Char → Prop where
  | mk {attrs w : List Char} {as' : List (String × String)} : as'.Perm as →
      WritesAttributes attrs as' → IsBlank w →
      WritesElement name as body (elementText name.toList attrs body w)

/-- How elements are written one after the other. -/
inductive WritesAll {α : Type} (writes : α → List Char → Prop) : List α → List Char → Prop where
  | nil {w : List Char} : Gap w → WritesAll writes [] w
  | cons {w u cs : List Char} {a : α} {as : List α} : Gap w → writes a u →
      WritesAll writes as cs → WritesAll writes (a :: as) (w ++ (u ++ cs))

/-- How an element `id` is written. -/
inductive WritesId (m : Mapping) : List Char → Prop where
  | mk {w us w' cs : List Char} {picker after : List (String × String)} :
      SaysFlag "picker" true m.showInPicker picker → SaysNotAfter m.notUsedAfter after →
      IsBlank w → Spells (fun c => c ≠ '<' ∧ c ≠ '&') us m.id.toList → IsBlank w' →
      WritesElement "id" (picker ++ after) (w ++ (us ++ w')) cs → WritesId m cs

/-- How an element `country` is written. -/
inductive WritesCountry (c : CountryZones) : List Char → Prop where
  | mk {body cs : List Char} {defaultId : String} {everUtc : List (String × String)} :
      c.defaultZoneId = some defaultId → SaysFlag "everutc" false c.everUsesUtc everUtc →
      WritesAll WritesId c.mappings body →
      WritesElement "country" (("code", c.code) :: ("default", defaultId) :: everUtc) body cs →
      WritesCountry c cs

/-- How a document is written around the countries in it. -/
inductive WritesAround (version : Option String) (countries : List Char) : List Char → Prop where
  | mk {w₁ w₂ w₃ w₄ zones root : List Char} : WritesElement "countryzones" [] countries zones →
      WritesElement "timezones" (version.map ("ianaversion", ·)).toList (w₂ ++ (zones ++ w₃)) root →
      Gap w₁ → Gap w₂ → Gap w₃ → Gap w₄ → WritesAround version countries (w₁ ++ (root ++ w₄))

/-- How a configuration is written. -/
inductive WritesConfiguration (version : Option String) (cs : List CountryZones) :
    List Char → Prop where
  | mk {w₁ w₂ w₃ w₄ countries zones root : List Char} : WritesAll WritesCountry cs countries →
      WritesElement "countryzones" [] countries zones →
      WritesElement "timezones" (version.map ("ianaversion", ·)).toList (w₂ ++ (zones ++ w₃)) root →
      Gap w₁ → Gap w₂ → Gap w₃ → Gap w₄ →
      WritesConfiguration version cs (w₁ ++ (root ++ w₄))

/-- Printable characters of ASCII other than space. -/
def IsGraphic (s : String) : Prop := ∀ c ∈ s.toList, 0x21 ≤ c.toNat ∧ c.toNat ≤ 0x7E

instance : DecidablePred IsGraphic := fun s => List.decidableBAll _ s.toList

/-- A country that can be configured: its zones have names, its times fit in 64 bits, and its
default is one of its zones. -/
structure IsConfigurable (c : CountryZones) : Prop where
  named : ∀ m ∈ c.mappings, m.id ≠ ""
  graphic : ∀ m ∈ c.mappings, IsGraphic m.id
  times : ∀ m ∈ c.mappings, ∀ n ∈ m.notUsedAfter,
    Int64.minValue.toInt ≤ n ∧ n ≤ Int64.maxValue.toInt
  default : ∃ m ∈ c.mappings, c.defaultZoneId = some m.id

/-- A country as it is read. -/
def lowered (c : CountryZones) : CountryZones := { c with code := c.code.toLower }

section Values
variable {n k : Nat} {d : Char} {ds : List Char} {s : String}

theorem digit?_ten (h : digit? 10 d = some k) : d.isDigit = true ∧ k = d.toNat - '0'.toNat := by
  obtain ⟨hvalue, hk⟩ := Option.filter_eq_some_iff.mp h
  have hlt : k < 10 := of_decide_eq_true hk
  split at hvalue
  · rename_i hd
    exact ⟨by rw [Char.isDigit, Bool.and_eq_true]; exact ⟨decide_eq_true hd.1, decide_eq_true hd.2⟩,
      (Option.some.inj hvalue).symm⟩
  · split at hvalue
    · have := Option.some.inj hvalue
      omega
    · split at hvalue
      · have := Option.some.inj hvalue
        omega
      · cases hvalue

theorem decimal?_eq (h : Numeral 10 ds n) : decimal? ds = some n := by
  have hall : ds.all Char.isDigit = true := by
    refine List.all_eq_true.mpr fun d hd => ?_
    obtain ⟨k, hk⟩ := h.digits d hd
    exact (digit?_ten hk).1
  have hfold : ds.foldl (fun n c => 10 * n + (c.toNat - '0'.toNat)) 0 = n := by
    clear hall
    induction h with
    | digit hd =>
      rw [List.foldl_cons, List.foldl_nil, (digit?_ten hd).2, Nat.mul_zero, Nat.zero_add]
    | more _ hd ih =>
      rw [List.foldl_append, ih, List.foldl_cons, List.foldl_nil, (digit?_ten hd).2, Nat.mul_comm]
  rw [decimal?, if_neg, hfold]
  simp [h.ne_nil, hall]

/-- A sign belongs to no numeral. -/
theorem Numeral.head_ne (h : Numeral 10 ds n) : ∀ rest, ds ≠ '-' :: rest ∧ ds ≠ '+' :: rest := by
  obtain ⟨d, ds, rfl, k, hk⟩ := h.exists_cons
  refine fun rest => ⟨?_, ?_⟩
  · intro heq
    obtain ⟨rfl, -⟩ := List.cons.inj heq
    cases hk
  · intro heq
    obtain ⟨rfl, -⟩ := List.cons.inj heq
    cases hk

/-- Every number in range is read, in all the ways to write it. -/
theorem int64?_eq {n : Int} (h : Decimal n s)
    (hn : Int64.minValue.toInt ≤ n ∧ n ≤ Int64.maxValue.toInt) : int64? s = some n := by
  have hfilter : (some n).filter
      (fun n => decide (Int64.minValue.toInt ≤ n ∧ n ≤ Int64.maxValue.toInt)) = some n :=
    Option.filter_eq_some_iff.mpr ⟨rfl, decide_eq_true hn⟩
  cases h with
  | @unsigned ds n hds =>
    rw [int64?, String.toList_ofList]
    split
    · exact ((Numeral.head_ne hds _).1 rfl).elim
    · exact ((Numeral.head_ne hds _).2 rfl).elim
    · rw [decimal?_eq hds]
      exact hfilter
  | @plus ds n hds =>
    rw [int64?, String.toList_ofList]
    simp only [decimal?_eq hds]
    exact hfilter
  | @minus ds n hds =>
    rw [int64?, String.toList_ofList]
    simp only [decimal?_eq hds]
    exact hfilter

theorem digit?_digitChar (h : n < 10) : digit? 10 n.digitChar = some n := by
  have hall : ∀ n < 10, digit? 10 n.digitChar = some n := by decide
  exact hall n h

theorem numeral_toDigits (n : Nat) : Numeral 10 (Nat.toDigits 10 n) n := by
  induction n using Nat.strongRecOn with
  | ind n ih =>
    by_cases hn : n < 10
    · rw [Nat.toDigits_of_lt_base hn]
      exact .digit (digit?_digitChar hn)
    · have hdiv : n / 10 < n := Nat.div_lt_self (by omega) (by decide)
      have := Numeral.more (ih (n / 10) hdiv) (digit?_digitChar (Nat.mod_lt n (by decide)))
      rw [Nat.toDigits_of_base_le (by decide) (by omega)]
      rwa [Nat.div_add_mod'] at this

/-- The usual way to write a number is one of them. -/
theorem decimal_toString (n : Int) : Decimal n (toString n) := by
  cases n with
  | ofNat n => exact .unsigned (numeral_toDigits n)
  | negSucc n =>
    have := Decimal.minus (numeral_toDigits (n + 1))
    rw [String.ofList_cons] at this
    exact this

theorem not_isBlank {c : Char} (h : 0x21 ≤ c.toNat ∧ c.toNat ≤ 0x7E) :
    Text.isBlank c = false := by
  simp only [Text.isBlank, Bool.or_eq_false_iff, Bool.and_eq_false_iff, decide_eq_false_iff_not]
  omega

theorem trim_eq_iff {s v : String} :
    Text.trim s = v ↔ stripped Text.isBlank s.toList = v.toList := by
  have htrim : Text.trim s = String.ofList (stripped Text.isBlank s.toList) := rfl
  rw [htrim, ← String.toList_inj, String.toList_ofList]

theorem trim_eq_self (h : IsGraphic s) : Text.trim s = s := by
  refine trim_eq_iff.mpr (stripped_eq_self_iff.mpr ⟨fun c hc => ?_, fun c hc => ?_⟩)
  · exact not_isBlank (h c (List.mem_of_mem_head? hc))
  · exact not_isBlank (h c (List.mem_of_getLast? hc))

theorem not_isSpace_of_not_isBlank {c : Char} (h : Text.isBlank c = false) : isSpace c = false := by
  rw [Bool.eq_false_iff] at h ⊢
  intro hspace
  simp only [isSpace, Bool.or_eq_true, decide_eq_true_eq] at hspace
  obtain ((rfl | rfl) | rfl) | rfl := hspace
  all_goals exact h (by decide)

end Values

section Elements
variable {name key : String} {as as' : List (String × String)} {body u cs : List Char}
  {absent b : Bool} {t : Tag} {c : Content} {m : Mapping} {mode : Mode}

theorem lookup_eq_some_iff_mem {v : String} (hdistinct : (Tag.keysOf as).Nodup) :
    as.lookup key = some v ↔ (key, v) ∈ as := by
  induction as with
  | nil => simp
  | cons a as ih =>
    obtain ⟨k, w⟩ := a
    rw [Tag.keysOf, List.map_cons, List.nodup_cons] at hdistinct
    by_cases hk : key = k
    · subst hk
      have hnot : (key, v) ∉ as := by
        intro hmem
        have := List.mem_map_of_mem (f := fun a : String × String => a.1.toList) hmem
        exact hdistinct.1 this
      simp [hnot, eq_comm]
    · have hhead : (key, v) ≠ (k, w) := fun heq => hk (Prod.mk.inj heq).1
      rw [List.lookup_cons, beq_eq_false_iff_ne.mpr hk, List.mem_cons, or_iff_right hhead]
      exact ih hdistinct.2

/-- What a tag says does not depend on the order of its attributes. -/
theorem attribute?_of_perm (name key : String) (h : as'.Perm as)
    (hdistinct : (Tag.keysOf as).Nodup) : Tag.attribute? ⟨name, as'⟩ key = as.lookup key := by
  have hdistinct' : (Tag.keysOf as').Nodup := (h.map _).nodup_iff.mpr hdistinct
  apply Option.ext
  intro v
  rw [Tag.attribute?, lookup_eq_some_iff_mem hdistinct', lookup_eq_some_iff_mem hdistinct,
    h.mem_iff]

/-- The text is that of an element, wherever it stands. -/
structure IsWritten (u : List Char) (e : Element) : Prop where
  atMarkup : ∀ s, AtMarkup (u ++ s)
  yields : ∀ {o o₁ : List String} {cs : List Char} {fs : List Event}, Yields o cs fs o₁ →
    Yields o (u ++ cs) (.start e.tag :: (e.content.events ++ .close :: fs)) o₁

theorem WritesElement.isWritten (h : WritesElement name as body u) (hname : IsName name.toList)
    (hdistinct : (Tag.keysOf as).Nodup) (hbody : ∀ o, Yields o body c.events o) :
    ∃ as', as'.Perm as ∧ IsWritten u ⟨⟨name, as'⟩, c⟩ := by
  obtain @⟨attrs, w, as', hperm, hattrs, hw⟩ := h
  have hdistinct' : (Tag.keysOf as').Nodup := (hperm.map _).nodup_iff.mpr hdistinct
  refine ⟨as', hperm, ?_, ?_⟩
  · rintro s _ ⟨⟩
    exact Or.inl rfl
  · intro o o₁ cs fs h
    exact Yields.element isPlain_nil hname hattrs hdistinct' (hbody (name :: o)) hw h

/-- Elements that are written one after the other are those of a tree. -/
theorem WritesAll.content {α : Type} {writes : α → List Char → Prop} {reads : Element → α → Prop}
    {as : List α} (h : WritesAll writes as cs) (hwrites : ∀ a ∈ as, ∀ u, writes a u →
      ∃ e, IsWritten u e ∧ e.tag.name = name ∧ reads e a) :
    ∃ c : Content, (∀ o, Yields o cs c.events o) ∧ List.Forall₂ reads (c.named name) as := by
  induction h with
  | nil hw => exact ⟨.done, fun o => hw.yields o, .nil⟩
  | @cons w u cs a as hw hu _ ih =>
    obtain ⟨ha, has⟩ := List.forall_mem_cons.mp hwrites
    obtain ⟨next, hnext, hall⟩ := ih has
    obtain ⟨e, he, hname, hreads⟩ := ha u hu
    refine ⟨.element e.tag e.content next, fun o => ?_, ?_⟩
    · exact (hw.yields o).append (he.yields (hnext o)) (he.atMarkup cs)
    · rw [Content.named_element, if_pos hname]
      exact .cons hreads hall

theorem forall₂_map {α β : Type} {p : Element → Prop} {f : Element → β} {g : α → β}
    {es : List Element} {as : List α} (h : List.Forall₂ (fun e a => p e ∧ f e = g a) es as) :
    (∀ e ∈ es, p e) ∧ es.map f = as.map g := by
  induction h with
  | nil => exact ⟨List.forall_mem_nil _, rfl⟩
  | cons hhead _ ih =>
    rw [List.map_cons, List.map_cons, hhead.2, ih.2]
    exact ⟨List.forall_mem_cons.mpr ⟨hhead.1, ih.1⟩, rfl⟩

theorem SaysFlag.reads (h : SaysFlag key absent b as) (ht : t.attribute? key = as.lookup key) :
    SaysYesOrNo t key ∧ isYes t key absent = b := by
  rw [SaysYesOrNo, isYes, ht]
  cases h with
  | absent => exact ⟨fun _ hv => (by cases hv), rfl⟩
  | yes => simp
  | no => simp

theorem SaysFlag.eq (h : SaysFlag key absent b as) : as = [] ∨ ∃ v, as = [(key, v)] := by
  cases h with
  | absent => exact Or.inl rfl
  | yes => exact Or.inr ⟨_, rfl⟩
  | no => exact Or.inr ⟨_, rfl⟩

theorem SaysNotAfter.eq {n : Option Int} (h : SaysNotAfter n as) :
    as = [] ∨ ∃ v, as = [("notafter", v)] := by
  cases h with
  | never => exact Or.inl rfl
  | after => exact Or.inr ⟨_, rfl⟩

theorem SaysNotAfter.reads {n : Option Int} (h : SaysNotAfter n as)
    (hn : ∀ k ∈ n, Int64.minValue.toInt ≤ k ∧ k ≤ Int64.maxValue.toInt)
    (ht : t.attribute? "notafter" = as.lookup "notafter") :
    (∀ v ∈ t.attribute? "notafter", (int64? v).isSome = true) ∧
      (t.attribute? "notafter").bind int64? = n := by
  rw [ht]
  cases h with
  | never => exact ⟨fun _ hv => (by cases hv), rfl⟩
  | after hs =>
    have := int64?_eq hs (hn _ rfl)
    simp [this]

/-- An element `id` is read from its tag and the text in it. -/
theorem isWritten_id {picker after : List (String × String)} {n : Option Int}
    (hpicker : SaysFlag "picker" true b picker) (hafter : SaysNotAfter n after)
    (htimes : ∀ k ∈ n, Int64.minValue.toInt ≤ k ∧ k ≤ Int64.maxValue.toInt)
    (hu : WritesElement "id" (picker ++ after) body u) (hbody : ∀ o, Yields o body c.events o)
    (helements : c.elements = []) (hnamed : Text.trim c.chars ≠ "") :
    ∃ e, IsWritten u e ∧ e.tag.name = "id" ∧ IsId e ∧ mappingOf e = ⟨Text.trim c.chars, b, n⟩ := by
  have hkeys : (Tag.keysOf (picker ++ after)).Nodup ∧
      (picker ++ after).lookup "picker" = picker.lookup "picker" ∧
      (picker ++ after).lookup "notafter" = after.lookup "notafter" := by
    rcases hpicker.eq with rfl | ⟨v, rfl⟩
    · rcases hafter.eq with rfl | ⟨s, rfl⟩
      · exact ⟨List.nodup_nil, rfl, rfl⟩
      · exact ⟨List.pairwise_singleton _ _, rfl, rfl⟩
    · rcases hafter.eq with rfl | ⟨s, rfl⟩
      · exact ⟨List.pairwise_singleton _ _, rfl, rfl⟩
      · exact ⟨by simp [Tag.keysOf], rfl, rfl⟩
  obtain ⟨hdistinct, hpick, hnotafter⟩ := hkeys
  obtain ⟨as', hperm, hwritten⟩ := hu.isWritten (by decide) hdistinct hbody
  have htag (key : String) := attribute?_of_perm "id" key hperm hdistinct
  obtain ⟨hyesno, hyes⟩ := hpicker.reads ((htag "picker").trans hpick)
  obtain ⟨hsome, hn⟩ := hafter.reads htimes ((htag "notafter").trans hnotafter)
  refine ⟨_, hwritten, rfl, ⟨hyesno, hsome, helements, hnamed⟩, ?_⟩
  rw [mappingOf, hyes, hn]
  rfl

/-- An element `id` is read as it is written. -/
theorem WritesId.isWritten (h : WritesId m u) (hnamed : m.id ≠ "") (hgraphic : IsGraphic m.id)
    (htimes : ∀ n ∈ m.notUsedAfter, Int64.minValue.toInt ≤ n ∧ n ≤ Int64.maxValue.toInt) :
    ∃ e, IsWritten u e ∧ e.tag.name = "id" ∧ IsId e ∧ mappingOf e = m := by
  obtain @⟨w, us, w', u, picker, after, hpicker, hafter, hw, hid, hw', hu⟩ := h
  have hspace : ∀ c ∈ m.id.toList, isSpace c = false := fun c hc =>
    not_isSpace_of_not_isBlank (not_isBlank (hgraphic c hc))
  obtain ⟨c, helements, hchars, hyields⟩ := Spells.yields hid hspace hw hw'
  have htrim : Text.trim c.chars = m.id := by
    rw [hchars, String.ofList_toList, trim_eq_self hgraphic]
  have := isWritten_id hpicker hafter htimes hu hyields helements (htrim ▸ hnamed)
  rwa [htrim] at this

/-- An element `country` is read from its tag and the elements in it. -/
theorem isWritten_country {code defaultId : String} {everUtc : List (String × String)}
    (hflag : SaysFlag "everutc" false b everUtc)
    (hu : WritesElement "country" (("code", code) :: ("default", defaultId) :: everUtc) body u)
    (hbody : ∀ o, Yields o body c.events o) (hids : ∀ i ∈ c.named "id", IsId i) :
    ∃ e, IsWritten u e ∧ e.tag.name = "country" ∧ e.content = c ∧ IsCountry .lenient e ∧
      e.tag.attribute? "default" = some defaultId ∧
      countryOf e = ⟨code.toLower, some defaultId, b, (c.named "id").map mappingOf⟩ := by
  have hkeys : (Tag.keysOf (("code", code) :: ("default", defaultId) :: everUtc)).Nodup ∧
      (("code", code) :: ("default", defaultId) :: everUtc).lookup "everutc" =
        everUtc.lookup "everutc" := by
    rcases hflag.eq with rfl | ⟨v, rfl⟩
    · exact ⟨by simp [Tag.keysOf], rfl⟩
    · exact ⟨by simp [Tag.keysOf], rfl⟩
  obtain ⟨hdistinct, hutc⟩ := hkeys
  obtain ⟨as', hperm, hwritten⟩ := hu.isWritten (by decide) hdistinct hbody
  have htag (key : String) := attribute?_of_perm "country" key hperm hdistinct
  have hcode : Tag.attribute? ⟨"country", as'⟩ "code" = some code := htag "code"
  have hdefault : Tag.attribute? ⟨"country", as'⟩ "default" = some defaultId := htag "default"
  obtain ⟨hyesno, hyes⟩ := hflag.reads ((htag "everutc").trans hutc)
  refine ⟨_, hwritten, rfl, rfl, ⟨?_, hyesno, hids, fun hmode => (by cases hmode)⟩, hdefault, ?_⟩
  · rw [hcode]
    rfl
  · rw [countryOf, codeOf, hcode, hdefault, hyes]
    rfl

/-- An element `country` is read as it is written. -/
theorem WritesCountry.isWritten {z : CountryZones} (h : WritesCountry z u)
    (hz : IsConfigurable z) :
    ∃ e, IsWritten u e ∧ e.tag.name = "country" ∧ (∀ mode, IsCountry mode e) ∧
      countryOf e = lowered z := by
  obtain @⟨body, u, defaultId, everUtc, hdefault, hflag, hbody, hu⟩ := h
  obtain ⟨c, hyields, hids⟩ := hbody.content fun m hm u hu =>
    hu.isWritten (hz.named m hm) (hz.graphic m hm) (hz.times m hm)
  obtain ⟨hall, hmappings⟩ := forall₂_map hids
  rw [List.map_id'] at hmappings
  obtain ⟨e, hwritten, hname, rfl, hcountry, hdefault', hzones⟩ :=
    isWritten_country hflag hu hyields hall
  refine ⟨e, hwritten, hname, fun mode => { hcountry with default := fun _ => ?_ }, ?_⟩
  · -- the default is one of the zones, which have been read
    obtain ⟨m, hm, hzone⟩ := hz.default
    rw [← hmappings] at hm
    obtain ⟨i, hi, rfl⟩ := List.mem_map.mp hm
    exact ⟨i, hi, hdefault'.trans (hdefault.symm.trans hzone)⟩
  · rw [hzones, ← hdefault, hmappings]
    rfl

end Elements

/-- A gap does not begin with a byte order mark. -/
theorem dropMark_gap_append {w s : List Char} (hw : Gap w) (hs : ∀ c ∈ s.head?, c ≠ '\uFEFF') :
    dropMark (w ++ s) = w ++ s := by
  have hhead : ∀ c ∈ (w ++ s).head?, c ≠ '\uFEFF' := by
    have hblank {v x : List Char} (hv : IsBlank v) (hx : ∀ c ∈ x.head?, c ≠ '\uFEFF') :
        ∀ c ∈ (v ++ x).head?, c ≠ '\uFEFF' := by
      cases v with
      | nil => exact hx
      | cons c v =>
        rintro _ ⟨⟩ rfl
        cases hv _ List.mem_cons_self
    cases hw with
    | blank hw => exact hblank hw hs
    | aside hw hu =>
      rw [List.append_assoc]
      refine hblank hw ?_
      cases hu with
      | comment =>
        rintro _ ⟨⟩
        decide
      | instruction =>
        rintro _ ⟨⟩
        decide
  generalize w ++ s = cs at hhead
  unfold dropMark
  split
  · exact (hhead _ rfl rfl).elim
  · rfl

variable {version : Option String} {cs : List CountryZones} {text : String}

/-- Around countries the root of a document is read as it is written. -/
theorem WritesAround.hasRoot {countries : List Char} {c : Content}
    (h : WritesAround version countries text.toList)
    (hcountries : ∀ o, Yields o countries c.events o) :
    ∃ root, HasRoot (events text).items root ∧ root.tag.name = "timezones" ∧
      root.tag.attribute? "ianaversion" = version ∧
      countriesOf root = some (c.named "country") := by
  generalize htext : text.toList = written at h
  obtain @⟨w₁, w₂, w₃, w₄, zones, root, hzones, hroot, h₁, h₂, h₃, h₄⟩ := h
  obtain ⟨zs, -, hzones⟩ := hzones.isWritten (by decide) List.nodup_nil hcountries
  have hbody (o : List String) : Yields o (w₂ ++ (zones ++ w₃))
      (Content.element ⟨"countryzones", zs⟩ c .done).events o :=
    (h₂.yields o).append (hzones.yields (h₃.yields o)) (hzones.atMarkup w₃)
  have hdistinct : (Tag.keysOf (version.map ("ianaversion", ·)).toList).Nodup := by
    cases version with
    | none => exact List.nodup_nil
    | some v => exact List.pairwise_singleton _ _
  obtain ⟨rs, hperm, hroot⟩ := hroot.isWritten (by decide) hdistinct hbody
  have hdocument := (h₁.yields []).append (hroot.yields (h₄.yields [])) (hroot.atMarkup w₄)
  have hmark : dropMark text.toList = w₁ ++ (root ++ w₄) := by
    rw [htext]
    refine dropMark_gap_append h₁ fun d hd => ?_
    rcases hroot.atMarkup w₄ d hd with rfl | rfl
    · decide
    · decide
  have hevents := events_eq_iff.mp ⟨[], hmark ▸ hdocument⟩
  refine ⟨⟨⟨"timezones", rs⟩, .element ⟨"countryzones", zs⟩ c .done⟩, ?_, rfl, ?_, rfl⟩
  · rw [hevents]
    exact .element _ _ _
  · rw [attribute?_of_perm _ _ hperm hdistinct]
    cases version with
    | none => rfl
    | some v => rfl

/-- The root of a configuration is read as it is written. -/
theorem WritesConfiguration.hasRoot (h : WritesConfiguration version cs text.toList)
    (hcs : ∀ c ∈ cs, IsConfigurable c) :
    ∃ root es, HasRoot (events text).items root ∧ root.tag.name = "timezones" ∧
      root.tag.attribute? "ianaversion" = version ∧ countriesOf root = some es ∧
      (∀ e ∈ es, ∀ mode, IsCountry mode e) ∧ es.map countryOf = cs.map lowered := by
  generalize htext : text.toList = written at h
  obtain @⟨w₁, w₂, w₃, w₄, countries, zones, root, hcountries, hzones, hroot, h₁, h₂, h₃, h₄⟩ := h
  obtain ⟨c, hyields, hall⟩ := hcountries.content fun z hz u hu => hu.isWritten (hcs z hz)
  obtain ⟨hes, hmap⟩ := forall₂_map hall
  have haround : WritesAround version countries text.toList :=
    htext ▸ .mk hzones hroot h₁ h₂ h₃ h₄
  obtain ⟨r, hroot, hname, hversion, hcountriesOf⟩ := haround.hasRoot hyields
  exact ⟨r, c.named "country", hroot, hname, hversion, hcountriesOf, hes, hmap⟩

/-- Everything that can be configured can be written, in any way that is well-formed, and is read
back: the same countries in the order of their codes, each with its default, its flag, and its
mappings in the order given. -/
theorem parse_written (hcs : ∀ c ∈ cs, IsConfigurable c)
    (hdistinct : cs.Pairwise (·.code.toLower ≠ ·.code.toLower))
    (h : WritesConfiguration version cs text.toList) (mode : Mode) :
    ∃ x, (CountryIndex.parse text mode).value = .ok x ∧ x.ianaVersion = version ∧
      x.countries.toList.Perm (cs.map lowered) ∧ x.countries.toList.Pairwise (·.code < ·.code) := by
  obtain ⟨root, es, hroot, hname, hversion, hes, hcountry, hmap⟩ := h.hasRoot hcs
  have hcodes : es.Pairwise (codeOf · ≠ codeOf ·) := by
    have := List.pairwise_map (f := lowered) (R := (·.code ≠ ·.code)) |>.mpr hdistinct
    rw [← hmap] at this
    exact (List.pairwise_map (f := countryOf)).mp this
  have hconf : IsConfiguration mode root := by
    refine ⟨hname, ?_, ?_, ?_⟩
    · rw [hes]
      rfl
    · rw [hes]
      rintro _ ⟨⟩ e he
      exact hcountry e he mode
    · rw [hes]
      rintro _ _ ⟨⟩
      exact hcodes
  refine ⟨indexOf root es, (parse_eq_ok hroot).mpr ⟨hconf, es, hes, rfl⟩, hversion, ?_,
    (describes_indexOf hes).increasing⟩
  have hfirst : firstOfCode [] (es.map countryOf) = es.map countryOf :=
    firstOfCode_eq_self [] (fun _ _ => List.not_mem_nil) (List.pairwise_map.mpr hcodes)
  rw [← hmap, ← hfirst]
  exact List.mergeSort_perm _ _

/-- A country with a zone that has a character which cannot stand for itself. -/
def sampleUs : CountryZones := ⟨"US", some "A&B", false, [⟨"A&B", true, some (-5)⟩]⟩

def sampleGb : CountryZones := ⟨"gb", some "C", true, [⟨"C", true, none⟩]⟩

def writtenUs : List Char :=
  "<country default='A&amp;B' code='US'>".toList ++
    ("<id notafter='-5'>A&#x26;B</id>".toList ++ "</country>".toList)

def writtenGb : List Char :=
  "<country code='gb' default='C' everutc='y'>".toList ++
    ("<id>C</id>".toList ++ "</country>".toList)

def writtenSample : List Char :=
  "<timezones><countryzones>".toList ++
    (writtenUs ++ ([' '] ++ (writtenGb ++ "</countryzones></timezones>".toList)))

theorem writtenUs_eq : WritesCountry sampleUs writtenUs := by
  have hnumeral : Numeral 16 ['2', '6'] '&'.toNat := @Numeral.more 16 ['2'] '6' 2 6 (.digit rfl) rfl
  have hid : Spells (fun c => c ≠ '<' ∧ c ≠ '&') "A&#x26;B".toList "A&B".toList :=
    .literal (by decide) (.reference (.hexadecimal hnumeral (by decide))
      (.literal (by decide) .nil))
  have hafter := WritesAttributes.quoted "notafter" (by decide)
    (spells_self "-5".toList (by decide)) writesAttributes_nil
  have hmapping := WritesId.mk (m := ⟨"A&B", true, some (-5)⟩) .absent
    (.after (decimal_toString (-5))) isBlank_nil hid isBlank_nil (.mk (.refl _) hafter isBlank_nil)
  have hdefault : Spells (InQuotes '\'') "A&amp;B".toList "A&B".toList :=
    .literal (by decide) (@Spells.reference _ "amp".toList _ _ _ (.entity rfl)
      (.literal (by decide) .nil))
  have htag := WritesAttributes.quoted "default" (by decide) hdefault
    (.quoted "code" (by decide) (spells_self "US".toList (by decide)) writesAttributes_nil)
  exact .mk rfl .absent (.cons gap_nil hmapping (.nil gap_nil))
    (.mk (List.Perm.swap _ _ _) htag isBlank_nil)

theorem writtenGb_eq : WritesCountry sampleGb writtenGb := by
  have hmapping := WritesId.mk (m := ⟨"C", true, none⟩) .absent .never isBlank_nil
    (spells_self "C".toList (by decide)) isBlank_nil
    (.mk (.refl _) writesAttributes_nil isBlank_nil)
  have htag := WritesAttributes.quoted "code" (by decide) (spells_self "gb".toList (by decide))
    (.quoted "default" (by decide) (spells_self "C".toList (by decide))
      (.quoted "everutc" (by decide) (spells_self "y".toList (by decide)) writesAttributes_nil))
  exact .mk rfl .yes (.cons gap_nil hmapping (.nil gap_nil)) (.mk (.refl _) htag isBlank_nil)

theorem writtenSample_eq : WritesConfiguration none [sampleUs, sampleGb] writtenSample := by
  have hspace : Gap [' '] := .blank (by decide)
  have hcountries := WritesAll.cons gap_nil writtenUs_eq
    (.cons hspace writtenGb_eq (.nil gap_nil))
  have hwritten := @WritesConfiguration.mk none _ _ _ _ _ _ _ _ hcountries
    (.mk (.refl _) writesAttributes_nil isBlank_nil)
    (.mk (.refl _) writesAttributes_nil isBlank_nil) gap_nil gap_nil gap_nil gap_nil
  exact hwritten

theorem parse_written_sample :
    (∀ c ∈ [sampleUs, sampleGb], IsConfigurable c) ∧
      [sampleUs, sampleGb].Pairwise (·.code.toLower ≠ ·.code.toLower) ∧
      WritesConfiguration none [sampleUs, sampleGb] (String.ofList writtenSample).toList ∧
      ∃ x, (CountryIndex.parse (String.ofList writtenSample) .strict).value = .ok x ∧
        x.ianaVersion = none ∧
        x.countries.toList.Perm ([sampleUs, sampleGb].map lowered) ∧
        x.countries.toList.Pairwise (·.code < ·.code) := by
  have hus : IsConfigurable sampleUs :=
    ⟨by decide, by decide, List.forall_mem_singleton.mpr (by rintro _ ⟨⟩; decide),
      _, List.mem_cons_self, rfl⟩
  have hgb : IsConfigurable sampleGb :=
    ⟨by decide, by decide, List.forall_mem_singleton.mpr (by rintro _ ⟨⟩),
      _, List.mem_cons_self, rfl⟩
  have hconfigurable : ∀ c ∈ [sampleUs, sampleGb], IsConfigurable c :=
    List.forall_mem_cons.mpr ⟨hus, List.forall_mem_singleton.mpr hgb⟩
  have hdistinct : [sampleUs, sampleGb].Pairwise (·.code.toLower ≠ ·.code.toLower) := by
    decide +kernel
  have hwritten : WritesConfiguration none [sampleUs, sampleGb]
      (String.ofList writtenSample).toList := by
    rw [String.toList_ofList]
    exact writtenSample_eq
  exact ⟨hconfigurable, hdistinct, hwritten, parse_written hconfigurable hdistinct hwritten .strict⟩

end TimeZones.Country
