import TimeZones.Proofs.References

/-! The text of a tag: a name, and attributes with values in quotes. Which attributes are read is
told by how the text is written, one attribute after the other. -/
namespace TimeZones.Markup

/-- Up to the first character without a property, all have it. -/
theorem span_eq {p : Char → Bool} {v s : List Char} (hv : ∀ c ∈ v, p c = true)
    (hs : ∀ c ∈ s.head?, p c = false) :
    (v ++ s).takeWhile p = v ∧ (v ++ s).dropWhile p = s := by
  rw [List.takeWhile_append_of_pos hv, List.dropWhile_append_of_pos hv]
  cases s with
  | nil => exact ⟨List.append_nil v, rfl⟩
  | cons c s =>
    rw [List.takeWhile_cons, List.dropWhile_cons, hs c rfl]
    exact ⟨List.append_nil v, rfl⟩

theorem span_cases (p : Char → Bool) (cs : List Char) :
    ∃ v s, cs = v ++ s ∧ cs.takeWhile p = v ∧ cs.dropWhile p = s ∧ (∀ c ∈ v, p c = true) ∧
      ∀ c ∈ s.head?, p c = false := by
  refine ⟨_, _, List.takeWhile_append_dropWhile.symm, rfl, rfl,
    fun c hc => List.mem_takeWhile_imp hc, ?_⟩
  intro c hc
  have := List.head?_dropWhile_not p cs
  rw [hc] at this
  simpa using this

def IsQuote (q : Char) : Prop := q = '"' ∨ q = '\''

theorem IsQuote.not_isSpace {q : Char} (hq : IsQuote q) : isSpace q = false := by
  rcases hq with rfl | rfl
  · rfl
  · rfl

namespace Tag

/-- The characters of a key up to the equals sign or space. What comes first is not looked at but
for space. -/
def IsKey (key : List Char) : Prop :=
  ∃ k cs, key = k :: cs ∧ isSpace k = false ∧ ∀ c ∈ cs, inKey c = true

variable {n m : Nat} {cs x y w key value us vs rest : List Char} {q : Char}
  {seen : List (List Char × Nat)} {keys : List (List Char)} {as bs : List (String × String)}

theorem keyEnd_eq_ok : keyEnd n cs = .ok (key, rest) ↔
    ∃ w, cs = key ++ (w ++ '=' :: rest) ∧ (∀ c ∈ key, inKey c = true) ∧ IsBlank w := by
  constructor
  · intro h
    obtain ⟨key', s, rfl, htake, hdrop, hkey, -⟩ := span_cases inKey cs
    obtain ⟨w, s', rfl, -, hdrop', hw, -⟩ := span_cases isSpace s
    unfold keyEnd at h
    rw [hdrop, hdrop', htake] at h
    split at h
    · obtain ⟨rfl, rfl⟩ := Prod.mk.inj (Except.ok.inj h)
      exact ⟨w, rfl, hkey, hw⟩
    · cases h
  · rintro ⟨w, rfl, hkey, hw⟩
    have hstop : ∀ c ∈ (w ++ '=' :: rest).head?, inKey c = false := by
      cases w with
      | nil =>
        rintro _ ⟨⟩
        rfl
      | cons c w =>
        rintro _ ⟨⟩
        simp [inKey, hw c List.mem_cons_self]
    obtain ⟨htake, hdrop⟩ := span_eq hkey hstop
    have hequals : ∀ c ∈ ('=' :: rest).head?, isSpace c = false := by
      rintro _ ⟨⟩
      rfl
    rw [keyEnd, hdrop, htake, (span_eq hw hequals).2]
    rfl

theorem quotedValue_eq_ok : quotedValue n cs = .ok (value, rest) ↔
    ∃ w q, cs = w ++ q :: (value ++ q :: rest) ∧ IsBlank w ∧ IsQuote q ∧ ∀ c ∈ value, c ≠ q := by
  constructor
  · intro h
    obtain ⟨w, s, rfl, -, hdrop, hw, -⟩ := span_cases isSpace cs
    unfold quotedValue at h
    rw [hdrop] at h
    split at h
    · cases h
    · rename_i q s'
      obtain ⟨us, s'', rfl, htake, hdrop', hus, hstop⟩ := span_cases (· ≠ q) s'
      rw [hdrop', htake] at h
      split at h
      · rename_i hq
        split at h
        · cases h
        · rename_i c _
          obtain ⟨rfl, rfl⟩ := Prod.mk.inj (Except.ok.inj h)
          have hc : c = q := by simpa using hstop c rfl
          subst hc
          exact ⟨w, c, rfl, hw, hq, fun d hd => by simpa using hus d hd⟩
      · cases h
  · rintro ⟨w, q, rfl, hw, hq, hvalue⟩
    have hquote : ∀ c ∈ (q :: (value ++ q :: rest)).head?, isSpace c = false := by
      rintro _ ⟨⟩
      exact IsQuote.not_isSpace hq
    have hall : ∀ c ∈ value, (decide (c ≠ q)) = true := fun c hc => decide_eq_true (hvalue c hc)
    have hstop : ∀ c ∈ (q :: rest).head?, (decide (c ≠ q)) = false := by
      rintro _ ⟨⟩
      simp
    obtain ⟨htake, hdrop⟩ := span_eq hall hstop
    rw [quotedValue, (span_eq hw hquote).2]
    dsimp only
    rw [hdrop, htake]
    exact if_pos hq

/-- How one attribute can be written. -/
inductive IsAttribute : List Char → List Char → List Char → Prop where
  | mk {key w₁ w₂ us vs : List Char} {q : Char} : IsKey key → IsBlank w₁ → IsBlank w₂ → IsQuote q →
      (∀ c ∈ us, c ≠ q) → unescape (byteLength us) us = .ok vs →
      IsAttribute (key ++ (w₁ ++ '=' :: (w₂ ++ q :: (us ++ [q])))) key vs

/-- The attributes that are written in a text, of which none may have one of the keys before. -/
inductive Attributes : List (List Char) → List Char → List (String × String) → Prop where
  | nil {keys : List (List Char)} {w : List Char} : IsBlank w → Attributes keys w []
  | cons {keys : List (List Char)} {w u rest key vs : List Char} {as : List (String × String)} :
      IsBlank w → IsAttribute u key vs → key ∉ keys → Attributes (key :: keys) rest as →
      Attributes keys (w ++ (u ++ rest)) ((String.ofList key, String.ofList vs) :: as)

theorem lookup_eq_none {seen : List (List Char × Nat)} :
    seen.lookup key = none ↔ key ∉ seen.map (·.1) := by
  rw [List.lookup_eq_none_iff]
  simp only [List.mem_map, not_exists, not_and, bne_iff_ne, ne_eq]
  exact ⟨fun h p hp heq => h p hp heq.symm, fun h p hp heq => h p hp heq.symm⟩

/-- One attribute is read, and then those behind it. -/
theorem readAttributes_step {k : Char} {cs₁ cs₂ : List Char}
    (hdrop : cs.dropWhile isSpace = k :: cs₁) (hkey : keyEnd n cs₁ = .ok (key, cs₂))
    (hnew : seen.lookup (k :: key) = none) (hvalue : quotedValue n cs₂ = .ok (us, rest))
    (hvs : unescape (byteLength us) us = .ok vs) :
    ∃ position, readAttributes n seen cs =
      (readAttributes n ((k :: key, position) :: seen) rest).map
        ((String.ofList (k :: key), String.ofList vs) :: ·) := by
  refine ⟨n - byteLength (k :: cs₁), ?_⟩
  rw [readAttributes]
  split
  · rename_i h
    cases hdrop.symm.trans h
  · rename_i h
    obtain ⟨rfl, rfl⟩ := List.cons.inj (hdrop.symm.trans h)
    split
    · rename_i h
      cases hkey.symm.trans h
    · rename_i h
      obtain ⟨rfl, rfl⟩ := Prod.mk.inj (Except.ok.inj (hkey.symm.trans h))
      dsimp only
      split
      · rename_i h
        cases hnew.symm.trans h
      · split
        · rename_i h
          cases hvalue.symm.trans h
        · rename_i h
          obtain ⟨rfl, rfl⟩ := Prod.mk.inj (Except.ok.inj (hvalue.symm.trans h))
          rw [hvs]

theorem readAttributes_attribute {u : List Char} (hw : IsBlank w) (hu : IsAttribute u key vs)
    (hnew : key ∉ seen.map (·.1)) :
    ∃ position, readAttributes n seen (w ++ (u ++ rest)) =
      (readAttributes n ((key, position) :: seen) rest).map
        ((String.ofList key, String.ofList vs) :: ·) := by
  obtain @⟨key, w₁, w₂, us, vs, q, ⟨k, cs, rfl, hk, hcs⟩, hw₁, hw₂, hq, hus, hvs⟩ := hu
  have hstart : ∀ c ∈ (k :: (cs ++ (w₁ ++ '=' :: (w₂ ++ q :: (us ++ q :: rest))))).head?,
      isSpace c = false := by
    rintro _ ⟨⟩
    exact hk
  simp only [List.append_assoc, List.cons_append, List.nil_append]
  exact readAttributes_step (span_eq hw hstart).2 (keyEnd_eq_ok.mpr ⟨w₁, rfl, hcs, hw₁⟩)
    (lookup_eq_none.mpr hnew) (quotedValue_eq_ok.mpr ⟨w₂, q, rfl, hw₂, hq, hus⟩) hvs

theorem readAttributes_eq_ok :
    readAttributes n seen cs = .ok as ↔ Attributes (seen.map (·.1)) cs as := by
  constructor
  · intro h
    fun_induction readAttributes n seen cs generalizing as with
    | case1 seen cs hdrop =>
      obtain rfl := Except.ok.inj h
      exact .nil (List.dropWhile_eq_nil_iff.mp hdrop)
    | case2 => cases h
    | case3 => cases h
    | case4 => cases h
    | case5 => cases h
    | case6 seen cs k cs₁ hdrop key cs₂ hkeyEnd position hnew us rest hvalue vs hvs =>
      rename_i ih
      obtain ⟨bs, hbs, rfl⟩ := map_eq_ok.mp h
      obtain ⟨w, s, rfl, -, hs, hw, hstop⟩ := span_cases isSpace cs
      obtain rfl := hs.symm.trans hdrop
      obtain ⟨w₁, rfl, hkey, hw₁⟩ := keyEnd_eq_ok.mp hkeyEnd
      obtain ⟨w₂, q, rfl, hw₂, hq, hus⟩ := quotedValue_eq_ok.mp hvalue
      have hu := IsAttribute.mk ⟨k, key, rfl, hstop k rfl, hkey⟩ hw₁ hw₂ hq hus hvs
      have := Attributes.cons hw hu (lookup_eq_none.mp hnew) (ih hbs)
      simpa only [List.append_assoc, List.cons_append, List.nil_append] using this
  · intro h
    generalize hkeys : seen.map (·.1) = keys at h
    induction h generalizing seen with
    | nil hw =>
      rw [readAttributes]
      split
      · rfl
      · rename_i hdrop
        rw [List.dropWhile_eq_nil_iff.mpr hw] at hdrop
        cases hdrop
    | cons hw hu hnew _ ih =>
      subst hkeys
      obtain ⟨position, hread⟩ := readAttributes_attribute hw hu hnew
      rw [hread, ih rfl]
      rfl

def keysOf (as : List (String × String)) : List (List Char) := as.map (·.1.toList)

/-- What is read of the attributes behind one does not depend on how that is written. -/
theorem attributes_cons_iff {u : List Char} (hw : IsBlank w) (hu : IsAttribute u key vs)
    (hnew : key ∉ keys) : Attributes keys (w ++ (u ++ rest)) bs ↔
      ∃ as, bs = (String.ofList key, String.ofList vs) :: as ∧
        Attributes (key :: keys) rest as := by
  constructor
  · intro h
    obtain ⟨seen, rfl⟩ : ∃ seen : List (List Char × Nat), seen.map (·.1) = keys :=
      ⟨keys.map (·, 0), by rw [List.map_map]; exact List.map_id keys⟩
    have hbs := (readAttributes_eq_ok (n := 0)).mpr h
    obtain ⟨position, hread⟩ := readAttributes_attribute hw hu hnew
    rw [hread] at hbs
    obtain ⟨as, has, rfl⟩ := map_eq_ok.mp hbs
    exact ⟨as, rfl, readAttributes_eq_ok.mp has⟩
  · rintro ⟨as, rfl, h⟩
    exact .cons hw hu hnew h

theorem IsAttribute.exists_cons {u : List Char} (hu : IsAttribute u key vs) :
    ∃ k cs, u = k :: cs ∧ isSpace k = false := by
  obtain @⟨key, w₁, w₂, us, vs, q, ⟨k, cs, rfl, hk, -⟩, -⟩ := hu
  exact ⟨k, _, rfl, hk⟩

theorem attributes_blank_append (hw : IsBlank w) :
    Attributes keys (w ++ x) as ↔ Attributes keys x as := by
  have hblank {v : List Char} (hv : IsBlank v) : IsBlank (w ++ v) :=
    List.forall_mem_append.mpr ⟨hw, hv⟩
  constructor
  · intro h
    generalize hcs : w ++ x = cs at h
    cases h with
    | nil hv =>
      subst hcs
      exact .nil fun c hc => hv c (List.mem_append_right w hc)
    | @cons _ v u rest key vs as hv hu hnew h =>
      obtain ⟨k, cs, rfl, hk⟩ := hu.exists_cons
      -- an attribute begins with a character that is not space
      rcases List.append_eq_append_iff.mp hcs with ⟨r, rfl, rfl⟩ | ⟨r, rfl, hr⟩
      · exact .cons (fun c hc => hv c (List.mem_append_right w hc)) hu hnew h
      · cases r with
        | nil =>
          rw [List.nil_append] at hr
          rw [← hr, ← List.nil_append (k :: cs ++ rest)]
          exact .cons isBlank_nil hu hnew h
        | cons d r =>
          rw [List.cons_append, List.cons_append] at hr
          obtain ⟨rfl, -⟩ := List.cons.inj hr
          have := hw k (List.mem_append_right v List.mem_cons_self)
          rw [hk] at this
          cases this
  · intro h
    cases h with
    | nil hv => exact .nil (hblank hv)
    | cons hv hu hnew h =>
      rw [← List.append_assoc]
      exact .cons (hblank hv) hu hnew h

/-- Behind whole attributes others are read. -/
theorem Attributes.append_iff (h : Attributes keys x as) : Attributes keys (x ++ y) bs ↔
    ∃ as', bs = as ++ as' ∧ Attributes ((keysOf as).reverse ++ keys) y as' := by
  induction h generalizing bs with
  | nil hw =>
    rw [attributes_blank_append hw]
    simp [keysOf]
  | @cons keys w u rest key vs as hw hu hnew _ ih =>
    rw [List.append_assoc, List.append_assoc, attributes_cons_iff hw hu hnew]
    simp only [ih, keysOf, List.map_cons, String.toList_ofList, List.reverse_cons,
      List.append_assoc, List.singleton_append]
    constructor
    · rintro ⟨_, rfl, as', rfl, h⟩
      exact ⟨as', rfl, h⟩
    · rintro ⟨as', rfl, h⟩
      exact ⟨_, rfl, as', rfl, h⟩

/-- Only the keys that are there matter. -/
theorem Attributes.of_keys {keys' : List (List Char)} (h : Attributes keys x as)
    (hkeys : ∀ k ∈ keys', k ∈ keys ∨ k ∉ keysOf as) : Attributes keys' x as := by
  induction h generalizing keys' with
  | nil hw => exact .nil hw
  | @cons keys w u rest key vs as hw hu hnew _ ih =>
    have hcons : keysOf ((String.ofList key, String.ofList vs) :: as) = key :: keysOf as := by
      rw [keysOf, List.map_cons, String.toList_ofList]
      rfl
    rw [hcons] at hkeys
    refine .cons hw hu ?_ (ih ?_)
    · intro hmem
      rcases hkeys key hmem with h | h
      · exact hnew h
      · exact h List.mem_cons_self
    · intro k hk
      rcases List.mem_cons.mp hk with rfl | hk
      · exact Or.inl List.mem_cons_self
      · rcases hkeys k hk with h | h
        · exact Or.inl (List.mem_cons_of_mem _ h)
        · exact Or.inr fun hmem => h (List.mem_cons_of_mem _ hmem)

/-- An attribute with a new key can be put behind whole attributes. -/
theorem Attributes.insert {u w' : List Char} (hx : Attributes [] x as)
    (hxy : Attributes [] (x ++ y) bs) (hw : IsBlank w) (hw' : IsBlank w')
    (hu : IsAttribute u key vs) (hnew : key ∉ keysOf bs) : ∃ as', bs = as ++ as' ∧
      Attributes [] (x ++ (w ++ (u ++ (w' ++ y))))
        (as ++ (String.ofList key, String.ofList vs) :: as') := by
  obtain ⟨as', rfl, hy⟩ := hx.append_iff.mp hxy
  rw [keysOf, List.map_append, List.mem_append, not_or] at hnew
  have hy' : Attributes (key :: ((keysOf as).reverse ++ [])) y as' := by
    refine hy.of_keys fun k hk => ?_
    rcases List.mem_cons.mp hk with rfl | hk
    · exact Or.inr hnew.2
    · exact Or.inl hk
  refine ⟨as', rfl, hx.append_iff.mpr ⟨_, rfl, .cons hw hu ?_ ?_⟩⟩
  · rw [List.append_nil, List.mem_reverse]
    exact hnew.1
  · exact (attributes_blank_append hw').mpr hy'

/-- A tag is a name up to the first space, and attributes. -/
theorem ofContent_eq_ok {t : Tag} : ofContent cs = .ok t ↔
    ∃ name rest, cs = name ++ rest ∧ (∀ c ∈ name, isSpace c = false) ∧
      (∀ c ∈ rest.head?, isSpace c = true) ∧ t.name = String.ofList name ∧
      Attributes [] rest t.attributes := by
  rw [ofContent, map_eq_ok]
  constructor
  · rintro ⟨as, has, rfl⟩
    obtain ⟨name, rest, rfl, htake, hdrop, hname, hrest⟩ := span_cases (!isSpace ·) cs
    rw [hdrop] at has
    refine ⟨name, rest, rfl, ?_, ?_, ?_, readAttributes_eq_ok.mp has⟩
    · exact fun c hc => by simpa using hname c hc
    · exact fun c hc => by simpa using hrest c hc
    · rw [htake]
  · rintro ⟨name, rest, rfl, hname, hrest, htag, has⟩
    have hspan := span_eq (p := (!isSpace ·)) (v := name) (s := rest)
      (fun c hc => by simp [hname c hc]) (fun c hc => by simp [hrest c hc])
    refine ⟨t.attributes, ?_, ?_⟩
    · rw [hspan.2]
      exact readAttributes_eq_ok.mpr has
    · rw [hspan.1, ← htag]

/-- The attributes of the first part of a tag come first. -/
theorem exists_of_ofContent_append {t₁ t : Tag} (hx : ofContent x = .ok t₁)
    (hxy : ofContent (x ++ y) = .ok t) (hname : t₁.name = t.name) :
    ∃ name r, x = name ++ r ∧ (∀ c ∈ name, isSpace c = false) ∧
      (∀ c ∈ r.head?, isSpace c = true) ∧ t.name = String.ofList name ∧
      Attributes [] r t₁.attributes ∧ Attributes [] (r ++ y) t.attributes := by
  obtain ⟨name, r, rfl, hnospace, hr, hname₁, has₁⟩ := ofContent_eq_ok.mp hx
  obtain ⟨name', r', hcs, -, -, hname', has⟩ := ofContent_eq_ok.mp hxy
  obtain rfl : name = name' := by
    rw [hname₁, hname'] at hname
    exact String.ofList_injective hname
  rw [List.append_assoc] at hcs
  obtain rfl := List.append_cancel_left hcs
  exact ⟨name, r, rfl, hnospace, hr, hname', has₁, has⟩

/-- A tag with one attribute more, which has space in front. -/
theorem ofContent_insert {t₁ t : Tag} {u w' : List Char} (hx : ofContent x = .ok t₁)
    (hxy : ofContent (x ++ y) = .ok t) (hname : t₁.name = t.name) (hw : IsBlank w)
    (hspace : (x ++ w).getLast?.any isSpace = true) (hw' : IsBlank w')
    (hu : IsAttribute u key vs) (hnew : key ∉ keysOf t.attributes) :
    ∃ as as', t.attributes = as ++ as' ∧ ofContent (x ++ (w ++ (u ++ (w' ++ y)))) =
      .ok ⟨t.name, as ++ (String.ofList key, String.ofList vs) :: as'⟩ := by
  obtain ⟨name, r, rfl, hnospace, hr, hname', has₁, has⟩ :=
    exists_of_ofContent_append hx hxy hname
  obtain ⟨as', hattributes, hinsert⟩ := has₁.insert has hw hw' hu hnew
  refine ⟨t₁.attributes, as', hattributes, ofContent_eq_ok.mpr ?_⟩
  refine ⟨name, r ++ (w ++ (u ++ (w' ++ y))), List.append_assoc .., hnospace, ?_, hname', hinsert⟩
  cases r with
  | nil =>
    cases w with
    | nil =>
      -- the name does not end with space, so there is some behind it
      rw [List.append_nil, List.append_nil] at hspace
      obtain ⟨c, hc, hlast⟩ := (Option.any_eq_true _ _).mp hspace
      rw [hnospace c (List.mem_of_getLast? hc)] at hlast
      cases hlast
    | cons c w =>
      rintro _ ⟨⟩
      exact hw c List.mem_cons_self
  | cons c r =>
    rintro _ ⟨⟩
    exact hr c rfl

end Tag

end TimeZones.Markup
