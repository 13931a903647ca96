import Mathlib.Data.List.TakeWhile
import TimeZones.Proofs.TokenText

/-! Texts as sequences of pieces: plain text, and markup or references. The pieces tell the tokens,
of the whole text and of every beginning of it. -/
namespace TimeZones.Markup

variable {cs p q s u v w : List Char} {t : Token} {ts us : List Token}

/-- The tokens of a text, without the input that is left after each. -/
def tokenList (cs : List Char) : List Token := (tokens cs).items.map (·.1)

def IsBlank (w : List Char) : Prop := ∀ c ∈ w, isSpace c = true

instance : DecidablePred IsBlank := fun w => List.decidableBAll _ w

/-- Text in which no markup and no reference begins. -/
def IsPlain (v : List Char) : Prop := ∀ c ∈ v, c ≠ '<' ∧ c ≠ '&'

instance : DecidablePred IsPlain := fun v => List.decidableBAll _ v

/-- Where markup or a reference begins, or nothing is left. -/
def AtMarkup (s : List Char) : Prop := ∀ c ∈ s.head?, c = '<' ∨ c = '&'

/-- Markup or a reference, which is one token whatever follows. -/
def IsMarkup (u : List Char) (t : Token) : Prop :=
  ∃ c v, u = c :: v ∧ (c = '<' ∨ c = '&') ∧ ∀ s, Token.next c (v ++ s) = .ok (t, s)

/-- The token of plain text, if there is more in it than space. -/
def plainTokens (v : List Char) : List Token :=
  match v.dropWhile isSpace with
  | [] => []
  | c :: v => [.text (trimEnd (c :: v))]

/-- The text `cs` is written of whole pieces, with the tokens `ts`. -/
inductive Lexes : List Char → List Token → Prop where
  | plain {v : List Char} : IsPlain v → Lexes v (plainTokens v)
  | markup {v u cs : List Char} {t : Token} {ts : List Token} : IsPlain v → IsMarkup u t →
      Lexes cs ts → Lexes (v ++ (u ++ cs)) (plainTokens v ++ t :: ts)

theorem IsBlank.isPlain (h : IsBlank w) : IsPlain w := by
  intro c hc
  have := h c hc
  constructor
  · rintro rfl
    cases this
  · rintro rfl
    cases this

theorem IsPlain.append (hv : IsPlain v) (hw : IsPlain w) : IsPlain (v ++ w) :=
  List.forall_mem_append.mpr ⟨hv, hw⟩

theorem isBlank_nil : IsBlank [] := List.forall_mem_nil _

theorem isPlain_nil : IsPlain [] := List.forall_mem_nil _

theorem atMarkup_nil : AtMarkup [] := fun c hc => (by cases hc)

theorem AtMarkup.dropWhile (h : AtMarkup s) : s.dropWhile isSpace = s := by
  cases s with
  | nil => rfl
  | cons c s =>
    have : isSpace c = false := by
      rcases h c rfl with rfl | rfl
      · rfl
      · rfl
    rw [List.dropWhile_cons, this]
    rfl

theorem IsMarkup.atMarkup (h : IsMarkup u t) (s : List Char) : AtMarkup (u ++ s) := by
  obtain ⟨c, v, rfl, hc, -⟩ := h
  rintro _ ⟨⟩
  exact hc

theorem plainTokens_of_blank (h : IsBlank w) : plainTokens w = [] := by
  rw [plainTokens, List.dropWhile_eq_nil_iff.mpr h]

theorem plainTokens_nil : plainTokens [] = [] := rfl

/-- Plain text ends before markup. -/
theorem plainText_append {c : Char} (hv : IsPlain (c :: v)) (hs : AtMarkup s) :
    Token.plainText (c :: (v ++ s)) = (.text (trimEnd (c :: v)), s) := by
  have hall : ∀ d ∈ c :: v, (d ≠ '<' && d ≠ '&') = true := by
    intro d hd
    simpa using hv d hd
  have hstop : s.takeWhile (fun d => d ≠ '<' && d ≠ '&') = [] ∧
      s.dropWhile (fun d => d ≠ '<' && d ≠ '&') = s := by
    cases s with
    | nil => exact ⟨rfl, rfl⟩
    | cons d s =>
      rcases hs d rfl with rfl | rfl
      · exact ⟨rfl, rfl⟩
      · exact ⟨rfl, rfl⟩
  rw [Token.plainText, ← List.cons_append, List.takeWhile_append_of_pos hall,
    List.dropWhile_append_of_pos hall, hstop.1, hstop.2, List.append_nil]

theorem tokens_of_blank (h : cs.dropWhile isSpace = []) : tokens cs = ⟨[], none⟩ := by
  rw [tokens]
  split
  · rfl
  · rename_i h'
    rw [h] at h'
    cases h'

theorem tokens_of_next {c : Char} {cs₁ rest : List Char} (h : cs.dropWhile isSpace = c :: cs₁)
    (hn : Token.next c cs₁ = .ok (t, rest)) : tokens cs = (tokens rest).push (t, rest) := by
  rw [tokens]
  split
  · rename_i h'
    rw [h] at h'
    cases h'
  · rename_i h'
    rw [h] at h'
    obtain ⟨rfl, rfl⟩ := List.cons.inj h'
    split
    · rename_i hs
      rw [hn] at hs
      cases hs
    · rename_i hs
      rw [hn] at hs
      obtain ⟨rfl, rfl⟩ := Prod.mk.inj (Except.ok.inj hs)
      rfl

theorem tokens_of_stop {c : Char} {cs₁ : List Char} {e : Stop}
    (h : cs.dropWhile isSpace = c :: cs₁) (hn : Token.next c cs₁ = .error e) :
    tokens cs = ⟨[], some e⟩ := by
  rw [tokens]
  split
  · rename_i h'
    rw [h] at h'
    cases h'
  · rename_i h'
    rw [h] at h'
    obtain ⟨rfl, rfl⟩ := List.cons.inj h'
    split
    · rename_i hs
      rw [hn] at hs
      obtain rfl := Except.error.inj hs
      rfl
    · rename_i hs
      rw [hn] at hs
      cases hs

theorem tokens_of_isBlank (h : IsBlank w) : tokens w = ⟨[], none⟩ :=
  tokens_of_blank (List.dropWhile_eq_nil_iff.mpr h)

theorem tokenList_of_isBlank (h : IsBlank w) : tokenList w = [] := by
  rw [tokenList, tokens_of_isBlank h, List.map_nil]

theorem tokenList_nil : tokenList [] = [] := tokenList_of_isBlank isBlank_nil

theorem tokens_blank_append (hw : IsBlank w) : tokens (w ++ s) = tokens s := by
  have hdrop : (w ++ s).dropWhile isSpace = s.dropWhile isSpace := List.dropWhile_append_of_pos hw
  cases hs : s.dropWhile isSpace with
  | nil => rw [tokens_of_blank (hdrop.trans hs), tokens_of_blank hs]
  | cons c s' =>
    cases hn : Token.next c s' with
    | error e => rw [tokens_of_stop (hdrop.trans hs) hn, tokens_of_stop hs hn]
    | ok p => rw [tokens_of_next (hdrop.trans hs) hn, tokens_of_next hs hn]

/-- In front of the first token there is space. -/
theorem blank_append_of_dropWhile {c : Char} (h : cs.dropWhile isSpace = c :: p) :
    ∃ w, IsBlank w ∧ cs = w ++ c :: p ∧ isSpace c = false := by
  refine ⟨cs.takeWhile isSpace, fun d hd => List.mem_takeWhile_imp hd, ?_, ?_⟩
  · rw [← h, List.takeWhile_append_dropWhile]
  · have := List.head?_dropWhile_not isSpace cs
    rwa [h] at this

theorem plainTokens_blank_append {c : Char} (hw : IsBlank w) (hc : isSpace c = false) :
    plainTokens (w ++ c :: v) = [.text (trimEnd (c :: v))] := by
  rw [plainTokens, List.dropWhile_append_of_pos hw, List.dropWhile_cons, hc]
  rfl

/-- The tokens of `p` come before those of `s`, where what stops the reading is, if anything. -/
def Precedes (p : List Char) (ts : List Token) (s : List Char) : Prop :=
  tokenList (p ++ s) = ts ++ tokenList s ∧ (tokens (p ++ s)).error = (tokens s).error

theorem precedes_of_next {c : Char} (h : (p ++ s).dropWhile isSpace = c :: q)
    (hn : Token.next c q = .ok (t, s)) : Precedes p [t] s := by
  rw [Precedes, tokenList, tokens_of_next h hn]
  exact ⟨rfl, rfl⟩

theorem Precedes.append (h : Precedes p ts (q ++ s)) (h' : Precedes q us s) :
    Precedes (p ++ q) (ts ++ us) s := by
  rw [Precedes, List.append_assoc, List.append_assoc, ← h'.1, ← h'.2]
  exact h

theorem IsMarkup.precedes (h : IsMarkup u t) (s : List Char) : Precedes u [t] s := by
  have hdrop := (h.atMarkup s).dropWhile
  obtain ⟨c, v, rfl, -, hnext⟩ := h
  exact precedes_of_next hdrop (hnext s)

theorem IsBlank.precedes (hw : IsBlank w) (s : List Char) : Precedes w [] s := by
  rw [Precedes, tokenList, tokens_blank_append hw]
  exact ⟨rfl, rfl⟩

theorem IsPlain.precedes (hv : IsPlain v) (hs : AtMarkup s) : Precedes v (plainTokens v) s := by
  cases hd : v.dropWhile isSpace with
  | nil =>
    have hblank : IsBlank v := List.dropWhile_eq_nil_iff.mp hd
    rw [plainTokens_of_blank hblank]
    exact hblank.precedes s
  | cons c v' =>
    obtain ⟨w, hw, rfl, hspace⟩ := blank_append_of_dropWhile hd
    have hplain : IsPlain (c :: v') := fun d hd' => hv d (List.mem_append_right _ hd')
    have hc := hplain c List.mem_cons_self
    rw [plainTokens_blank_append hw hspace]
    apply precedes_of_next (c := c) (q := v' ++ s)
    · rw [List.append_assoc, List.dropWhile_append_of_pos hw, List.cons_append,
        List.dropWhile_cons, hspace]
      rfl
    · rw [Token.next, if_neg hc.1, if_neg hc.2, plainText_append hplain hs]

theorem Lexes.precedes (h : Lexes p ts) (hs : AtMarkup s) : Precedes p ts s := by
  induction h with
  | plain hv => exact hv.precedes hs
  | @markup v u cs t ts hv hu _ ih =>
    have hus : Precedes (u ++ cs) ([t] ++ ts) s := (hu.precedes (cs ++ s)).append ih
    have hat : AtMarkup (u ++ cs ++ s) := by
      rw [List.append_assoc]
      exact hu.atMarkup _
    exact (hv.precedes hat).append hus

/-- What is written of whole pieces may end in plain text, which may go on. -/
theorem Lexes.exists_plain (h : Lexes p ts) : ∃ q v us, p = q ++ v ∧ IsPlain v ∧
    ts = us ++ plainTokens v ∧ ∀ s, Precedes q us s := by
  induction h with
  | @plain v hv => exact ⟨[], v, [], rfl, hv, rfl, fun s => ⟨rfl, rfl⟩⟩
  | @markup v u cs t ts hv hu _ ih =>
    obtain ⟨q, w, us, rfl, hw, rfl, hq⟩ := ih
    refine ⟨v ++ (u ++ q), w, plainTokens v ++ t :: us, ?_, hw, ?_, fun s => ?_⟩
    · simp only [List.append_assoc]
    · rw [List.append_assoc, List.cons_append]
    · have hus : Precedes (u ++ q) ([t] ++ us) s := (hu.precedes (q ++ s)).append (hq s)
      have hat : AtMarkup (u ++ q ++ s) := by
        rw [List.append_assoc]
        exact hu.atMarkup _
      exact (hv.precedes hat).append hus

theorem Lexes.tokenList_eq (h : Lexes p ts) : tokenList p = ts ∧ (tokens p).error = none := by
  have hp := h.precedes atMarkup_nil
  rw [Precedes, List.append_nil] at hp
  rw [hp.1, hp.2, tokenList_nil, List.append_nil, tokens_of_blank rfl]
  exact ⟨rfl, rfl⟩

/-- There is no plain text where markup begins. -/
theorem IsPlain.eq_nil (hv : IsPlain v) (h : AtMarkup (v ++ s)) : v = [] := by
  cases v with
  | nil => rfl
  | cons c v =>
    have hc := hv c List.mem_cons_self
    rcases h c rfl with rfl | rfl
    · exact (hc.1 rfl).elim
    · exact (hc.2 rfl).elim

theorem Lexes.plain_append (hv : IsPlain v) (h : Lexes p ts) (hp : AtMarkup p) :
    Lexes (v ++ p) (plainTokens v ++ ts) := by
  cases h with
  | plain hw =>
    rw [← List.append_nil p] at hp
    obtain rfl := hw.eq_nil hp
    rw [List.append_nil, plainTokens_nil, List.append_nil]
    exact .plain hv
  | markup hw hu hcs =>
    obtain rfl := hw.eq_nil hp
    have := Lexes.markup hv hu hcs
    exact this

/-- Texts that are written of whole pieces can be joined where markup begins. -/
theorem Lexes.append (h : Lexes p ts) (h' : Lexes q us) (hq : AtMarkup q) :
    Lexes (p ++ q) (ts ++ us) := by
  induction h with
  | plain hv => exact Lexes.plain_append hv h' hq
  | @markup v u cs t ts hv hu _ ih =>
    have := Lexes.markup hv hu ih
    simpa only [List.append_assoc, List.cons_append] using this

theorem isMarkup_of_next {c : Char} {rest : List Char} (hc : c = '<' ∨ c = '&')
    (h : Token.next c cs = .ok (t, rest)) : ∃ u, cs = u ++ rest ∧ IsMarkup (c :: u) t := by
  rcases hc with rfl | rfl
  · obtain ⟨u, hu, hread⟩ := Token.markup?_local h
    exact ⟨u, hu, '<', u, rfl, Or.inl rfl, hread⟩
  · obtain ⟨u, hu, hread⟩ := Token.reference?_local h
    exact ⟨u, hu, '&', u, rfl, Or.inr rfl, hread⟩

/-- Text that is read as a token goes up to markup. -/
theorem plain_of_next {c : Char} {rest : List Char} (hc : ¬ (c = '<' ∨ c = '&'))
    (h : Token.next c cs = .ok (t, rest)) :
    ∃ v, c :: cs = v ++ rest ∧ IsPlain v ∧ AtMarkup rest ∧ t = .text (trimEnd v) := by
  rw [not_or] at hc
  rw [Token.next, if_neg hc.1, if_neg hc.2] at h
  obtain ⟨rfl, rfl⟩ := Prod.mk.inj (Except.ok.inj h)
  refine ⟨_, List.takeWhile_append_dropWhile.symm, ?_, ?_, rfl⟩
  · intro d hd
    simpa using List.mem_takeWhile_imp hd
  · intro d hd
    have := List.head?_dropWhile_not (fun d => d ≠ '<' && d ≠ '&') (c :: cs)
    rw [hd] at this
    by_contra hneither
    rw [not_or] at hneither
    simp [hneither.1, hneither.2] at this

/-- How a text begins: it is blank, or begins with what is no token, or with markup behind space,
or with plain text up to markup. -/
theorem tokens_cases (cs : List Char) :
    IsBlank cs ∨ (tokenList cs = [] ∧ (tokens cs).error ≠ none) ∨
      (∃ w u rest t, cs = w ++ (u ++ rest) ∧ IsBlank w ∧ IsMarkup u t) ∨
      ∃ v rest s, cs = v ++ rest ∧ v ≠ [] ∧ IsPlain v ∧ AtMarkup rest ∧
        plainTokens v = [.text s] := by
  cases hd : cs.dropWhile isSpace with
  | nil => exact Or.inl (List.dropWhile_eq_nil_iff.mp hd)
  | cons c cs₁ =>
    right
    cases hn : Token.next c cs₁ with
    | error e =>
      left
      rw [tokenList, tokens_of_stop hd hn]
      exact ⟨rfl, fun h => (by cases h)⟩
    | ok p =>
      obtain ⟨t, rest⟩ := p
      right
      obtain ⟨w, hw, rfl, hspace⟩ := blank_append_of_dropWhile hd
      by_cases hc : c = '<' ∨ c = '&'
      · left
        obtain ⟨u, rfl, hu⟩ := isMarkup_of_next hc hn
        exact ⟨w, c :: u, rest, t, rfl, hw, hu⟩
      · right
        obtain ⟨v, hv, hplain, hrest, rfl⟩ := plain_of_next hc hn
        cases v with
        | nil =>
          rw [List.nil_append] at hv
          rw [← hv] at hrest
          exact (hc (hrest c rfl)).elim
        | cons d v =>
          obtain ⟨rfl, rfl⟩ := List.cons.inj hv
          refine ⟨w ++ c :: v, rest, _, (List.append_assoc w (c :: v) rest).symm, ?_,
            hw.isPlain.append hplain, hrest, plainTokens_blank_append hw hspace⟩
          exact List.append_ne_nil_of_right_ne_nil w (List.cons_ne_nil c v)

theorem length_of_isMarkup (h : IsMarkup u t) : 0 < u.length := by
  obtain ⟨c, v, rfl, -⟩ := h
  exact Nat.succ_pos _

/-- What can be read to its end is written of whole pieces. -/
theorem lexes_of_tokens (h : (tokens cs).error = none) : Lexes cs (tokenList cs) := by
  induction hn : cs.length using Nat.strongRecOn generalizing cs with
  | ind n ih =>
    subst hn
    rcases tokens_cases cs with hblank | ⟨-, herror⟩ | ⟨w, u, rest, t, rfl, hw, hu⟩ |
      ⟨v, rest, s, rfl, hne, hv, hrest, htext⟩
    · rw [tokenList_of_isBlank hblank, ← plainTokens_of_blank hblank]
      exact .plain hblank.isPlain
    · exact (herror h).elim
    · have hlt : rest.length < (w ++ (u ++ rest)).length := by
        have := length_of_isMarkup hu
        rw [List.length_append, List.length_append]
        omega
      obtain ⟨htokens, herror⟩ := (hw.precedes (u ++ rest)).append (hu.precedes rest)
      rw [List.append_assoc] at htokens herror
      rw [htokens]
      rw [herror] at h
      have := Lexes.markup hw.isPlain hu (ih _ hlt h rfl)
      rwa [plainTokens_of_blank hw] at this
    · have hlt : rest.length < (v ++ rest).length := by
        have := List.length_pos_iff.mpr hne
        rw [List.length_append]
        omega
      obtain ⟨htokens, herror⟩ := hv.precedes hrest
      rw [htokens]
      rw [herror] at h
      exact Lexes.plain_append hv (ih _ hlt h rfl) hrest

/-- What comes before a token other than text is written of whole pieces. -/
theorem exists_lexes (h : tokenList cs = ts ++ t :: us) (ht : ∀ s, t ≠ .text s) :
    ∃ p u rest, cs = p ++ (u ++ rest) ∧ Lexes p ts ∧ IsMarkup u t := by
  induction hn : cs.length using Nat.strongRecOn generalizing cs ts with
  | ind n ih =>
    subst hn
    rcases tokens_cases cs with hblank | ⟨hnil, -⟩ | ⟨w, u, rest, t', rfl, hw, hu⟩ |
      ⟨v, rest, s, rfl, hne, hv, hrest, htext⟩
    · rw [tokenList_of_isBlank hblank] at h
      simp at h
    · rw [hnil] at h
      simp at h
    · have hlt : rest.length < (w ++ (u ++ rest)).length := by
        have := length_of_isMarkup hu
        rw [List.length_append, List.length_append]
        omega
      have htokens := ((hw.precedes (u ++ rest)).append (hu.precedes rest)).1
      rw [List.append_assoc] at htokens
      rw [htokens] at h
      cases ts with
      | nil =>
        obtain ⟨rfl, -⟩ := List.cons.inj h
        refine ⟨w, u, rest, rfl, ?_, hu⟩
        rw [← plainTokens_of_blank hw]
        exact .plain hw.isPlain
      | cons t₁ ts =>
        obtain ⟨rfl, htail⟩ := List.cons.inj h
        obtain ⟨p, u', rest', rfl, hp, hu'⟩ := ih _ hlt htail rfl
        refine ⟨w ++ (u ++ p), u', rest', by simp only [List.append_assoc], ?_, hu'⟩
        have := Lexes.markup hw.isPlain hu hp
        rwa [plainTokens_of_blank hw] at this
    · have hlt : rest.length < (v ++ rest).length := by
        have := List.length_pos_iff.mpr hne
        rw [List.length_append]
        omega
      rw [(hv.precedes hrest).1, htext] at h
      cases ts with
      | nil =>
        obtain ⟨rfl, -⟩ := List.cons.inj h
        exact (ht s rfl).elim
      | cons t₁ ts =>
        obtain ⟨rfl, htail⟩ := List.cons.inj h
        obtain ⟨p, u', rest', rfl, hp, hu'⟩ := ih _ hlt htail rfl
        refine ⟨v ++ p, u', rest', by simp only [List.append_assoc], ?_, hu'⟩
        have hat : AtMarkup p := by
          intro c hc
          apply hrest c
          rw [List.head?_append, hc]
          rfl
        have := Lexes.plain_append hv hp hat
        rwa [htext] at this

/-- Markup that is cut off is no token. -/
theorem tokenList_of_cut (hu : IsMarkup (p ++ s) t) (hs : s ≠ []) :
    tokenList p = [] ∧ AtMarkup p := by
  obtain ⟨c, v, hcv, hc, hnext⟩ := hu
  cases p with
  | nil => exact ⟨tokenList_nil, atMarkup_nil⟩
  | cons d q =>
    rw [List.cons_append] at hcv
    obtain ⟨rfl, rfl⟩ := List.cons.inj hcv
    have hat : AtMarkup (d :: q) := by
      rintro _ ⟨⟩
      exact hc
    refine ⟨?_, hat⟩
    cases hn : Token.next d q with
    | error e => rw [tokenList, tokens_of_stop hat.dropWhile hn, List.map_nil]
    | ok r =>
      -- a token in what is left would leave some of the markup unread
      obtain ⟨t', rest⟩ := r
      obtain ⟨u, rfl, d', w, hw, -, hlocal⟩ := isMarkup_of_next hc hn
      obtain ⟨rfl, rfl⟩ := List.cons.inj hw
      have hfull := hnext []
      rw [List.append_nil, List.append_assoc, hlocal] at hfull
      obtain ⟨-, hrest⟩ := Prod.mk.inj (Except.ok.inj hfull)
      exact (hs (List.append_eq_nil_iff.mp hrest).2).elim

theorem IsPlain.tokenList_eq (hv : IsPlain v) : tokenList v = plainTokens v :=
  (Lexes.plain hv).tokenList_eq.1

/-- The tokens of the beginning `us`, perhaps with text that is cut off. -/
def IsCut (ts us : List Token) : Prop := ts = us ∨ ∃ r, ts = us ++ [.text r]

theorem isCut_plainTokens (v : List Char) : IsCut (plainTokens v) [] := by
  unfold plainTokens
  split
  · exact Or.inl rfl
  · exact Or.inr ⟨_, rfl⟩

theorem IsCut.append_left (vs : List Token) (h : IsCut ts us) : IsCut (vs ++ ts) (vs ++ us) := by
  rcases h with rfl | ⟨r, rfl⟩
  · exact Or.inl rfl
  · exact Or.inr ⟨r, (List.append_assoc ..).symm⟩

/-- Of the tokens of a text, those of a beginning of it are the first. -/
theorem Lexes.cut (h : Lexes cs ts) (hcs : cs = p ++ s) :
    ∃ us, us <+: ts ∧ IsCut (tokenList p) us := by
  induction h generalizing p with
  | @plain v hv =>
    have hp : IsPlain p := fun c hc => hv c (hcs ▸ List.mem_append_left s hc)
    exact ⟨[], List.nil_prefix, hp.tokenList_eq ▸ isCut_plainTokens p⟩
  | @markup v u cs t ts hv hu _ ih =>
    rcases List.append_eq_append_iff.mp hcs with ⟨q, rfl, hq⟩ | ⟨q, rfl, -⟩
    · rcases List.append_eq_append_iff.mp hq with ⟨r, rfl, hr⟩ | ⟨r, rfl, -⟩
      · obtain ⟨us, hpre, hus⟩ := ih hr
        refine ⟨plainTokens v ++ t :: us, ?_, ?_⟩
        · exact (List.prefix_append_right_inj _).mpr (List.cons_prefix_cons.mpr ⟨rfl, hpre⟩)
        · rw [(hv.precedes (hu.atMarkup r)).1, (hu.precedes r).1]
          exact IsCut.append_left _ (IsCut.append_left [t] hus)
      · by_cases hr : r = []
        · subst hr
          rw [List.append_nil] at hu
          refine ⟨plainTokens v ++ [t], ?_, Or.inl ?_⟩
          · exact (List.prefix_append_right_inj _).mpr
              (List.cons_prefix_cons.mpr ⟨rfl, List.nil_prefix⟩)
          · rw [← List.append_nil q, (hv.precedes (hu.atMarkup [])).1, (hu.precedes []).1,
              tokenList_nil]
            rfl
        · obtain ⟨hnil, hat⟩ := tokenList_of_cut hu hr
          refine ⟨plainTokens v, List.prefix_append _ _, Or.inl ?_⟩
          rw [(hv.precedes hat).1, hnil, List.append_nil]
    · have hp : IsPlain p := fun c hc => hv c (List.mem_append_left q hc)
      exact ⟨[], List.nil_prefix, hp.tokenList_eq ▸ isCut_plainTokens p⟩

/-- How an end tag is written. -/
theorem eq_of_isMarkup_close {u name : List Char} (h : IsMarkup u (.close name)) :
    ∃ written, u = '<' :: '/' :: (written ++ ['>']) ∧ name = Token.closingName written := by
  obtain ⟨c, v, rfl, rfl | rfl, hnext⟩ := h
  · have hmarkup : Token.markup? v = .ok (.close name, []) := by
      rw [← List.append_nil v]
      exact hnext []
    rcases Token.tag?_of_markup? hmarkup with h | ⟨s, h⟩ | ⟨-, htag⟩
    · cases h
    · cases h
    · obtain ⟨content, rfl, -, hcontent⟩ := Token.tag?_eq_ok.mp htag
      obtain ⟨written, rfl, hname⟩ := Token.ofTag_eq_close hcontent.symm
      exact ⟨written, rfl, hname⟩
  · have hreference : Token.reference? v = .ok (.close name, []) := by
      rw [← List.append_nil v]
      exact hnext []
    unfold Token.reference? at hreference
    split at hreference
    · cases hreference
    · cases hreference

end TimeZones.Markup
