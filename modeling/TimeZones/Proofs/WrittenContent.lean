import Mathlib.Data.List.Induction
import TimeZones.Proofs.WrittenEvents
import TimeZones.Proofs.WrittenTags

/-! How well-formed content is written: text, references, character data, comments, instructions and
elements. It is read as a tree. -/
namespace TimeZones.Markup

section Counting
variable {m : Char} {k : Nat} {p v body : List Char}

/-- One more character in a search for `k` marks in a row before an angle bracket. -/
def countStep (m : Char) (k n : Nat) (c : Char) : Option Nat :=
  if c = '>' ∧ k ≤ n then none else some (countAfter m n c)

/-- The state says how many marks come last. Up to an angle bracket behind `k` of them the search
goes on. -/
theorem runFrom_countStep (hbody : ¬ List.replicate k m ++ ['>'] <:+: body) :
    ∃ n, runFrom (countStep m k) 0 body = some n ∧ List.replicate n m <:+ body := by
  induction body using List.reverseRecOn with
  | nil => exact ⟨0, rfl, List.nil_suffix⟩
  | append_singleton v c ih =>
    obtain ⟨n, hrun, hsuffix⟩ := ih fun h => hbody (h.trans (List.prefix_append v [c]).isInfix)
    have hgo : ¬ (c = '>' ∧ k ≤ n) := by
      rintro ⟨rfl, hk⟩
      have hmarks : List.replicate k m <:+ List.replicate n m :=
        List.suffix_replicate_iff.mpr ⟨by simpa using hk, by simp⟩
      obtain ⟨w, rfl⟩ := hmarks.trans hsuffix
      exact hbody ⟨w, [], by rw [List.append_nil, List.append_assoc]⟩
    have hstep : countStep m k n c = some (countAfter m n c) := if_neg hgo
    refine ⟨countAfter m n c, ?_, ?_⟩
    · rw [runFrom_append, hrun, Option.bind_some, runFrom, hstep]
      rfl
    · rw [countAfter]
      split
      · rename_i hc
        subst hc
        obtain ⟨w, rfl⟩ := hsuffix
        exact ⟨w, by rw [List.replicate_succ', List.append_assoc]⟩
      · exact List.nil_suffix

theorem runFrom_marks (hmark : m ≠ '>') (n l : Nat) :
    runFrom (countStep m k) n (List.replicate l m) = some (n + l) := by
  induction l generalizing n with
  | zero => rfl
  | succ l ih =>
    have hstep : countStep m k n m = some (n + 1) := by
      rw [countStep, if_neg fun h => hmark h.1, countAfter, if_pos rfl]
    rw [List.replicate_succ, runFrom, hstep, Option.bind_some, ih]
    congr 1
    omega

/-- The search ends behind a body in which the end does not come, whatever follows. -/
theorem splitAfter_countStep (hmark : m ≠ '>') (hp : runFrom (countStep m k) 0 p = some 0)
    (hbody : ¬ List.replicate k m ++ ['>'] <:+: body) (s : List Char) :
    splitAfter (countStep m k) 0 (p ++ (body ++ (List.replicate k m ++ '>' :: s))) =
      .ok (p ++ (body ++ (List.replicate k m ++ ['>'])), s) := by
  obtain ⟨n, hrun, -⟩ := runFrom_countStep hbody
  refine splitAfter_eq_ok.mpr ⟨?_, p ++ (body ++ List.replicate k m), '>', n + k, ?_, ?_, ?_⟩
  · simp only [List.append_assoc, List.cons_append, List.nil_append]
  · simp only [List.append_assoc]
  · rw [runFrom_append, hp, Option.bind_some, runFrom_append, hrun, Option.bind_some,
      runFrom_marks hmark]
  · exact if_pos ⟨rfl, Nat.le_add_left k n⟩

end Counting

/-- A comment or a processing instruction. Each ends where its end first comes. -/
inductive IsAside : List Char → Prop where
  | comment {body : List Char} : ¬ "-->".toList <:+: body →
      IsAside ("<!--".toList ++ (body ++ "-->".toList))
  | instruction {body : List Char} : ¬ "?>".toList <:+: '?' :: body →
      IsAside ("<?".toList ++ (body ++ "?>".toList))

variable {u v w cs name body attrs : List Char} {o o₁ : List String} {es fs : List Event}
  {as : List (String × String)}

theorem comment?_eq_ok {cs a rest : List Char}
    (h : splitAfter (countStep '-' 2) 0 cs = .ok (a, rest)) :
    Token.comment? ("!--".toList ++ cs) = .ok (.ignored, rest) := by
  have hsplit : splitAfter (fun n c => if c = '>' ∧ 2 ≤ n then none
      else some (countAfter '-' n c)) 0 (("!--".toList ++ cs).drop 3) = .ok (a, rest) := h
  rw [Token.comment?, hsplit]
  exact if_pos (List.isPrefixOf_iff_prefix.mpr (List.prefix_append _ cs))

theorem instruction?_eq_ok {cs a rest : List Char}
    (h : splitAfter (countStep '?' 1) 0 cs = .ok (a, rest)) (hlength : a.length ≠ 2) :
    Token.instruction? cs = .ok (.ignored, rest) := by
  have hsplit : splitAfter (fun n c => if c = '>' ∧ 1 ≤ n then none
      else some (countAfter '?' n c)) 0 cs = .ok (a, rest) := h
  rw [Token.instruction?, hsplit]
  exact if_neg hlength

theorem cdata?_eq_ok {cs a rest : List Char}
    (h : splitAfter (countStep ']' 2) 0 cs = .ok (a, rest))
    (hopen : "![CDATA[".toList.isPrefixOf a = true) :
    Token.cdata? cs = .ok (.text ((a.take (a.length - 3)).drop 8), rest) := by
  have hsplit : splitAfter (fun n c => if c = '>' ∧ 2 ≤ n then none
      else some (countAfter ']' n c)) 0 cs = .ok (a, rest) := h
  rw [Token.cdata?, hsplit]
  exact if_pos hopen

theorem IsAside.isMarkup (h : IsAside u) : IsMarkup u .ignored := by
  cases h with
  | @comment body hbody =>
    refine ⟨'<', "!--".toList ++ (body ++ "-->".toList), rfl, Or.inl rfl, fun s => ?_⟩
    have hsplit := splitAfter_countStep (m := '-') (k := 2) (p := []) (by decide) rfl hbody s
    rw [List.append_assoc, List.append_assoc]
    exact comment?_eq_ok hsplit
  | @instruction body hbody =>
    refine ⟨'<', '?' :: (body ++ "?>".toList), rfl, Or.inl rfl, fun s => ?_⟩
    have hsplit := splitAfter_countStep (m := '?') (k := 1) (p := []) (by decide) rfl hbody s
    rw [List.cons_append, List.append_assoc]
    exact instruction?_eq_ok hsplit (by simp)

/-- Character data is text as it stands. -/
theorem isMarkup_data (hbody : ¬ "]]>".toList <:+: body) :
    IsMarkup ("<![CDATA[".toList ++ (body ++ "]]>".toList)) (.text body) := by
  refine ⟨'<', "![CDATA[".toList ++ (body ++ "]]>".toList), rfl, Or.inl rfl, fun s => ?_⟩
  have hsplit := splitAfter_countStep (m := ']') (k := 2) (p := "![CDATA[".toList) (by decide) rfl
    hbody s
  have htake : ("![CDATA[".toList ++ (body ++ (List.replicate 2 ']' ++ ['>']))).take
      (("![CDATA[".toList ++ (body ++ (List.replicate 2 ']' ++ ['>']))).length - 3) =
        "![CDATA[".toList ++ body := by
    rw [← List.append_assoc, List.length_append]
    exact List.take_left
  have htext := cdata?_eq_ok hsplit (List.isPrefixOf_iff_prefix.mpr (List.prefix_append _ _))
  rw [htake] at htext
  rw [List.append_assoc, List.append_assoc]
  exact htext

/-- An element with two tags. -/
def elementText (name attrs body w : List Char) : List Char :=
  '<' :: (name ++ (attrs ++ '>' :: (body ++ '<' :: '/' :: (name ++ (w ++ ['>'])))))

/-- An element with one tag. -/
def emptyText (name attrs : List Char) : List Char := '<' :: (name ++ (attrs ++ ['/', '>']))

/-- Well-formed content. In front of each piece, and at the end, there may be plain text. -/
inductive WellFormed : List Char → Prop where
  | text {v : List Char} : IsPlain v → WellFormed v
  | aside {v u cs : List Char} : IsPlain v → IsAside u → WellFormed cs → WellFormed (v ++ (u ++ cs))
  | reference {v name cs : List Char} {c : Char} : IsPlain v → Names name c → WellFormed cs →
      WellFormed (v ++ ('&' :: (name ++ [';']) ++ cs))
  | data {v body cs : List Char} : IsPlain v → ¬ "]]>".toList <:+: body → WellFormed cs →
      WellFormed (v ++ ("<![CDATA[".toList ++ (body ++ "]]>".toList) ++ cs))
  | empty {v attrs cs : List Char} {name : String} {as : List (String × String)} : IsPlain v →
      IsName name.toList → WritesAttributes attrs as → (Tag.keysOf as).Nodup → WellFormed cs →
      WellFormed (v ++ (emptyText name.toList attrs ++ cs))
  | element {v attrs body w cs : List Char} {name : String} {as : List (String × String)} :
      IsPlain v → IsName name.toList → WritesAttributes attrs as → (Tag.keysOf as).Nodup →
      WellFormed body → IsBlank w → WellFormed cs →
      WellFormed (v ++ (elementText name.toList attrs body w ++ cs))

/-- A well-formed element of a name. -/
inductive IsElement (name : String) : List Char → Prop where
  | empty {attrs : List Char} {as : List (String × String)} : IsName name.toList →
      WritesAttributes attrs as → (Tag.keysOf as).Nodup →
      IsElement name (emptyText name.toList attrs)
  | content {attrs body w : List Char} {as : List (String × String)} : IsName name.toList →
      WritesAttributes attrs as → (Tag.keysOf as).Nodup → WellFormed body → IsBlank w →
      IsElement name (elementText name.toList attrs body w)

theorem tokenEvents_start {name : String} {attrs : List Char} (hname : IsName name.toList)
    (has : WritesAttributes attrs as) (hdistinct : (Tag.keysOf as).Nodup) (o : List String) :
    tokenEvents o (.start (name.toList ++ attrs)) = some ([.start ⟨name, as⟩], name :: o) := by
  rw [tokenEvents, ofContent_written hname has hdistinct, String.ofList_toList]
  rfl

theorem tokenEvents_empty {name : String} {attrs : List Char} (hname : IsName name.toList)
    (has : WritesAttributes attrs as) (hdistinct : (Tag.keysOf as).Nodup) (o : List String) :
    tokenEvents o (.empty (name.toList ++ attrs)) = some ([.empty ⟨name, as⟩], o) := by
  rw [tokenEvents, ofContent_written hname has hdistinct, String.ofList_toList]
  rfl

theorem tokenEvents_close (name : String) (o : List String) :
    tokenEvents (name :: o) (.close name.toList) = some ([.close], o) := by
  rw [tokenEvents, String.ofList_toList, if_pos rfl]

theorem tokenEvents_reference {c : Char} (h : Names name c) (o : List String) :
    tokenEvents o (.reference name) = some ([.text (String.ofList [c])], o) := by
  rw [tokenEvents, h.resolve_eq]

/-- An element is read as its tags and what is read of its content. -/
theorem Yields.element {name : String} {cs : List Char} (hv : IsPlain v)
    (hname : IsName name.toList) (has : WritesAttributes attrs as)
    (hdistinct : (Tag.keysOf as).Nodup) (hbody : Yields (name :: o) body es (name :: o))
    (hw : IsBlank w) (h : Yields o cs fs o₁) :
    Yields o (v ++ (elementText name.toList attrs body w ++ cs))
      (textEvents v ++ .start ⟨name, as⟩ :: (es ++ .close :: fs)) o₁ := by
  have hclose := Yields.cons isPlain_nil (isMarkup_close hname hw) (tokenEvents_close name o) h
  have hat : AtMarkup ([] ++ ('<' :: '/' :: (name.toList ++ (w ++ ['>'])) ++ cs)) := by
    rintro _ ⟨⟩
    exact Or.inl rfl
  have := Yields.cons hv (isMarkup_start hname has) (tokenEvents_start hname has hdistinct o)
    (hbody.append hclose hat)
  simpa only [elementText, textEvents_nil, List.cons_append, List.append_assoc, List.nil_append]
    using this

/-- Plain text in front of other content. -/
def Content.withText (v : List Char) (next : Content) : Content :=
  match v.dropWhile isSpace with
  | [] => next
  | c :: v => .text (String.ofList (trimEnd (c :: v))) next

theorem Content.events_withText (v : List Char) (next : Content) :
    (Content.withText v next).events = textEvents v ++ next.events := by
  rw [withText, textEvents]
  cases v.dropWhile isSpace with
  | nil => rfl
  | cons c v => rfl

theorem Content.elements_withText (v : List Char) (next : Content) :
    (Content.withText v next).elements = next.elements := by
  rw [withText]
  cases v.dropWhile isSpace with
  | nil => rfl
  | cons c v => rfl

/-- Of plain text the space around it is not kept. -/
theorem Content.chars_withText (v : List Char) (next : Content) :
    (Content.withText v next).chars =
      String.ofList (trimEnd (v.dropWhile isSpace)) ++ next.chars := by
  rw [withText]
  cases v.dropWhile isSpace with
  | nil => exact String.empty_append.symm
  | cons c v => rfl

/-- Well-formed content is a tree, wherever it stands. -/
theorem WellFormed.yields {cs : List Char} (h : WellFormed cs) :
    ∃ c : Content, ∀ o, Yields o cs c.events o := by
  induction h with
  | @text v hv =>
    refine ⟨.withText v .done, fun o => ?_⟩
    rw [Content.events_withText, Content.events, List.append_nil]
    exact hv.yields o
  | @aside v u cs hv hu _ ih =>
    obtain ⟨c, hc⟩ := ih
    refine ⟨.withText v c, fun o => ?_⟩
    rw [Content.events_withText]
    exact .cons hv hu.isMarkup rfl (hc o)
  | @reference v name cs d hv hname _ ih =>
    obtain ⟨c, hc⟩ := ih
    refine ⟨.withText v (.text (String.ofList [d]) c), fun o => ?_⟩
    rw [Content.events_withText]
    exact .cons hv hname.isMarkup (tokenEvents_reference hname o) (hc o)
  | @data v body cs hv hbody _ ih =>
    obtain ⟨c, hc⟩ := ih
    refine ⟨.withText v (.text (String.ofList body) c), fun o => ?_⟩
    rw [Content.events_withText]
    exact .cons hv (isMarkup_data hbody) rfl (hc o)
  | @empty v attrs cs name as hv hname has hdistinct _ ih =>
    obtain ⟨c, hc⟩ := ih
    refine ⟨.withText v (.empty ⟨name, as⟩ c), fun o => ?_⟩
    rw [Content.events_withText]
    exact .cons hv (isMarkup_empty hname has) (tokenEvents_empty hname has hdistinct o) (hc o)
  | @element v attrs body w cs name as hv hname has hdistinct _ hw _ ihb ih =>
    obtain ⟨b, hb⟩ := ihb
    obtain ⟨c, hc⟩ := ih
    refine ⟨.withText v (.element ⟨name, as⟩ b c), fun o => ?_⟩
    rw [Content.events_withText]
    exact .element hv hname has hdistinct (hb (name :: o)) hw (hc o)

/-- Space, comments and instructions. -/
inductive Gap : List Char → Prop where
  | blank {w : List Char} : IsBlank w → Gap w
  | aside {w u cs : List Char} : IsBlank w → IsAside u → Gap cs → Gap (w ++ (u ++ cs))

theorem gap_nil : Gap [] := .blank isBlank_nil

theorem Gap.yields {cs : List Char} (h : Gap cs) (o : List String) : Yields o cs [] o := by
  induction h with
  | blank hw =>
    rw [← textEvents_of_blank hw]
    exact hw.isPlain.yields o
  | @aside w u cs hw hu _ ih =>
    have := Yields.cons hw.isPlain hu.isMarkup rfl ih
    rwa [textEvents_of_blank hw] at this

end TimeZones.Markup
