import TimeZones.Proofs.WrittenTokens

/-! Ways to write a character: as it stands, or by a reference with its number or with one of the
five names. However the characters of a value are written, the value is read back. -/
namespace TimeZones.Markup

/-- Digits of a radix and the number that they write. Zeros may come first. -/
inductive Numeral (radix : Nat) : List Char → Nat → Prop where
  | digit {d : Char} {n : Nat} : digit? radix d = some n → Numeral radix [d] n
  | more {ds : List Char} {d : Char} {n k : Nat} : Numeral radix ds n → digit? radix d = some k →
      Numeral radix (ds ++ [d]) (n * radix + k)

/-- What stands between ampersand and semicolon in a reference to a character. -/
inductive Names : List Char → Char → Prop where
  | entity {name : List Char} {c : Char} : entity? (String.ofList name) = some c → Names name c
  | decimal {ds : List Char} {c : Char} : Numeral 10 ds c.toNat → c.toNat ≠ 0 →
      Names ('#' :: ds) c
  | hexadecimal {ds : List Char} {c : Char} : Numeral 16 ds c.toNat → c.toNat ≠ 0 →
      Names ('#' :: 'x' :: ds) c

/-- How a value is written, with the characters that may stand for themselves given. -/
inductive Spells (literal : Char → Prop) : List Char → List Char → Prop where
  | nil : Spells literal [] []
  | literal {c : Char} {us vs : List Char} : literal c → Spells literal us vs →
      Spells literal (c :: us) (c :: vs)
  | reference {name us vs : List Char} {c : Char} : Names name c → Spells literal us vs →
      Spells literal ('&' :: (name ++ ';' :: us)) (c :: vs)

/-- Characters that neither delimit markup nor are in any reference but as its delimiters. -/
def IsInert (c : Char) : Prop :=
  c ≠ '<' ∧ c ≠ '>' ∧ c ≠ '&' ∧ c ≠ ';' ∧ c ≠ '"' ∧ c ≠ '\''

instance : DecidablePred IsInert := fun _ => inferInstanceAs (Decidable (_ ∧ _ ∧ _ ∧ _ ∧ _ ∧ _))

variable {radix n k : Nat} {ds es us vs name : List Char} {c d : Char} {literal : Char → Prop}

theorem digit?_lt (h : digit? radix d = some k) : k < radix := by
  rw [digit?, Option.filter_eq_some_iff] at h
  exact of_decide_eq_true h.2

theorem isInert_of_digit? (h : digit? radix d = some k) : IsInert d := by
  refine ⟨?_, ?_, ?_, ?_, ?_, ?_⟩
  all_goals
    rintro rfl
    cases h

theorem number_append (m : Nat) (ds es : List Char) :
    number radix m (ds ++ es) = number radix m ds >>= fun n => number radix n es := by
  induction ds generalizing m with
  | nil => rfl
  | cons d ds ih =>
    rw [List.cons_append, number, number]
    cases digit? radix d with
    | none => rfl
    | some k =>
      dsimp only
      split
      · rfl
      · exact ih _

namespace Numeral

theorem number_eq (h : Numeral radix ds n) (hn : n < UInt32.size) : number radix 0 ds = .ok n := by
  induction h with
  | digit hd =>
    rw [number, hd]
    dsimp only
    rw [Nat.zero_mul, Nat.zero_add, if_neg (by omega), number]
  | @more ds d n k _ hd ih =>
    have hle : n ≤ n * radix := Nat.le_mul_of_pos_right n (Nat.zero_lt_of_lt (digit?_lt hd))
    rw [number_append, ih (by omega)]
    change number radix n [d] = _
    rw [number, hd]
    dsimp only
    rw [if_neg (by omega), number]

theorem digits (h : Numeral radix ds n) : ∀ d ∈ ds, ∃ k, digit? radix d = some k := by
  induction h with
  | digit hd => exact List.forall_mem_singleton.mpr ⟨_, hd⟩
  | more _ hd ih =>
    exact List.forall_mem_append.mpr ⟨ih, List.forall_mem_singleton.mpr ⟨_, hd⟩⟩

theorem ne_nil (h : Numeral radix ds n) : ds ≠ [] := by
  cases h with
  | digit => exact List.cons_ne_nil _ _
  | more => exact List.append_ne_nil_of_right_ne_nil _ (List.cons_ne_nil _ _)

theorem exists_cons (h : Numeral radix ds n) :
    ∃ d ds', ds = d :: ds' ∧ ∃ k, digit? radix d = some k := by
  obtain ⟨d, ds', rfl⟩ := List.exists_cons_of_ne_nil h.ne_nil
  exact ⟨d, ds', rfl, h.digits d List.mem_cons_self⟩

theorem isInert (h : Numeral radix ds n) : ∀ d ∈ ds, IsInert d := by
  intro d hd
  obtain ⟨k, hk⟩ := h.digits d hd
  exact isInert_of_digit? hk

theorem unsigned_eq (h : Numeral radix ds n) (hn : n < UInt32.size) :
    unsigned radix ds = .ok n := by
  obtain ⟨d, ds, rfl, k, hk⟩ := h.exists_cons
  have hplus : d ≠ '+' := by
    rintro rfl
    cases hk
  have hminus : d ≠ '-' := by
    rintro rfl
    cases hk
  rw [← h.number_eq hn]
  unfold unsigned
  split
  · rename_i hnil
    cases hnil
  · rename_i heq
    exact (hplus (List.cons.inj heq).1).elim
  · rename_i heq
    exact (hminus (List.cons.inj heq).1).elim
  · rfl

end Numeral

theorem isValidChar_toNat (c : Char) : c.toNat.isValidChar := c.valid

theorem toNat_lt (c : Char) : c.toNat < UInt32.size := c.val.toNat_lt_size

theorem numbered_decimal (h : Numeral 10 ds c.toNat) (hc : c.toNat ≠ 0) :
    numbered ds = .ok c := by
  have hvalue := h.unsigned_eq (toNat_lt c)
  obtain ⟨d, ds, rfl, k, hk⟩ := h.exists_cons
  have hx : d ≠ 'x' := by
    rintro rfl
    cases hk
  simp [numbered, hx, hvalue, hc, isValidChar_toNat]

theorem numbered_hexadecimal (h : Numeral 16 ds c.toNat) (hc : c.toNat ≠ 0) :
    numbered ('x' :: ds) = .ok c := by
  have hvalue := h.unsigned_eq (toNat_lt c)
  simp only [numbered, hvalue, hc, if_false, isValidChar_toNat, if_true, Char.ofNat_toNat]

theorem mem_of_entity? (h : entity? (String.ofList name) = some c) :
    name ∈ ["lt".toList, "gt".toList, "amp".toList, "apos".toList, "quot".toList] := by
  have hname {s : String} (hs : String.ofList name = s) : name = s.toList := by
    rw [← hs, String.toList_ofList]
  unfold entity? at h
  split at h
  · rename_i hs
    simp [hname hs]
  · rename_i hs
    simp [hname hs]
  · rename_i hs
    simp [hname hs]
  · rename_i hs
    simp [hname hs]
  · rename_i hs
    simp [hname hs]
  · cases h

theorem resolve_entity (h : entity? (String.ofList name) = some c) :
    resolve name = .ok (some c) := by
  unfold resolve
  split
  · have := mem_of_entity? h
    simp at this
  · rw [h]

namespace Names

theorem resolve_eq (h : Names name c) : resolve name = .ok (some c) := by
  cases h with
  | entity he => exact resolve_entity he
  | decimal hds hc =>
    rw [resolve, numbered_decimal hds hc]
    rfl
  | hexadecimal hds hc =>
    rw [resolve, numbered_hexadecimal hds hc]
    rfl

theorem isInert (h : Names name c) : ∀ d ∈ name, IsInert d := by
  cases h with
  | entity he =>
    have hall : ∀ w ∈ ["lt".toList, "gt".toList, "amp".toList, "apos".toList, "quot".toList],
        w.all (IsInert ·) = true := by decide
    have hname := List.all_eq_true.mp (hall name (mem_of_entity? he))
    exact fun d hd => of_decide_eq_true (hname d hd)
  | decimal hds hc =>
    exact List.forall_mem_cons.mpr ⟨by decide, hds.isInert⟩
  | hexadecimal hds hc =>
    exact List.forall_mem_cons.mpr ⟨by decide,
      List.forall_mem_cons.mpr ⟨by decide, hds.isInert⟩⟩

theorem isMarkup (h : Names name c) : IsMarkup ('&' :: (name ++ [';'])) (.reference name) := by
  refine ⟨'&', _, rfl, Or.inr rfl, fun s => ?_⟩
  have hall : ∀ d ∈ name, (d ≠ ';' && d ≠ '&' && d ≠ '<') = true := by
    intro d hd
    obtain ⟨h1, -, h2, h3, -⟩ := h.isInert d hd
    simp [h1, h2, h3]
  rw [List.append_assoc, List.singleton_append]
  change Token.reference? (name ++ ';' :: s) = _
  rw [Token.reference?, List.dropWhile_append_of_pos hall, List.takeWhile_append_of_pos hall]
  simp

end Names

/-- A value can be spelled as it stands, if all its characters can. -/
theorem spells_self [DecidablePred literal] (vs : List Char) (h : vs.all (literal ·) = true) :
    Spells literal vs vs := by
  induction vs with
  | nil => exact .nil
  | cons c vs ih =>
    rw [List.all_cons, Bool.and_eq_true] at h
    exact .literal (of_decide_eq_true h.1) (ih h.2)

/-- A value is read as it is spelled. -/
theorem Spells.unescape_eq (h : Spells literal us vs) (hamp : ¬ literal '&') (n : Nat) :
    Tag.unescape n us = .ok vs := by
  induction h with
  | nil => rw [Tag.unescape]
  | @literal c us vs hc _ ih =>
    have hne : c ≠ '&' := by
      rintro rfl
      exact hamp hc
    unfold Tag.unescape
    split
    · rename_i heq
      cases heq
    · rename_i heq
      exact (hne (List.cons.inj heq).1).elim
    · rename_i heq
      obtain ⟨rfl, rfl⟩ := List.cons.inj heq
      rw [ih]
      rfl
  | @reference name us vs c hname _ ih =>
    have hall : ∀ d ∈ name, Tag.inReference d = true := by
      intro d hd
      obtain ⟨-, -, h1, h2, -⟩ := hname.isInert d hd
      simp [Tag.inReference, h1, h2]
    have hdrop : (name ++ ';' :: us).dropWhile Tag.inReference = ';' :: us := by
      rw [List.dropWhile_append_of_pos hall]
      rfl
    have htake : (name ++ ';' :: us).takeWhile Tag.inReference = name := by
      rw [List.takeWhile_append_of_pos hall]
      exact List.append_nil name
    rw [Tag.unescape]
    split
    · rename_i rest heq
      obtain ⟨-, rfl⟩ := List.cons.inj (hdrop.symm.trans heq)
      dsimp only
      rw [htake, hname.resolve_eq]
      dsimp only
      rw [ih]
      rfl
    · rename_i hne
      exact (hne us hdrop).elim

end TimeZones.Markup
