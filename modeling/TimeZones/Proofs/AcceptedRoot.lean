import TimeZones.Proofs.DocumentMeaning

/-! What the readers of elements consume. Each stops behind the end of its element, so that an
accepted document has a root that has been read to its end. -/
namespace TimeZones.Country
open Markup

/-- From some place on events are read up to `rest`, and in them as many elements end as begin, and
`n` more. -/
def Consumes (es rest : List Event) (n : Int) : Prop :=
  ∃ used, es = used ++ rest ∧ (closed used : Int) = opened used + n

namespace Consumes
variable {es rest out : List Event} {n m : Int}

theorem nil (es : List Event) : Consumes es es 0 := ⟨[], rfl, rfl⟩

theorem start (t : Tag) (h : Consumes es rest n) : Consumes (.start t :: es) rest (n - 1) := by
  obtain ⟨used, rfl, hn⟩ := h
  refine ⟨.start t :: used, rfl, ?_⟩
  rw [closed_start, opened_start]
  omega

theorem close (h : Consumes es rest n) : Consumes (.close :: es) rest (n + 1) := by
  obtain ⟨used, rfl, hn⟩ := h
  refine ⟨.close :: used, rfl, ?_⟩
  rw [closed_close, opened_close]
  omega

theorem empty (t : Tag) (h : Consumes es rest n) : Consumes (.empty t :: es) rest n := by
  obtain ⟨used, rfl, hn⟩ := h
  refine ⟨.empty t :: used, rfl, ?_⟩
  rwa [closed_empty, opened_empty]

theorem text (s : String) (h : Consumes es rest n) : Consumes (.text s :: es) rest n := by
  obtain ⟨used, rfl, hn⟩ := h
  refine ⟨.text s :: used, rfl, ?_⟩
  rwa [closed_text, opened_text]

theorem trans (h : Consumes es rest n) (h' : Consumes rest out m) : Consumes es out (n + m) := by
  obtain ⟨used, rfl, hn⟩ := h
  obtain ⟨used', rfl, hm⟩ := h'
  refine ⟨used ++ used', (List.append_assoc ..).symm, ?_⟩
  rw [closed_append, opened_append]
  omega

/-- A child element is read to its end, and then the events behind it. -/
theorem child (t : Tag) (h : Consumes es rest 1) (h' : Consumes rest out n) :
    Consumes (.start t :: es) out n := by
  have := (h.trans h').start t
  rwa [show 1 + n - 1 = n by omega] at this

end Consumes

variable {ended : Fault} {mode : Mode} {t : Tag} {es rest : List Event} {x : CountryIndex}

theorem skip_consumes {depth : Nat} (h : skip ended depth es = .ok rest) :
    Consumes es rest (depth + 1) := by
  obtain ⟨inner, hinner, rfl⟩ := skip_eq_ok_iff.mp h
  refine ⟨inner ++ [.close], by rw [List.append_assoc, List.singleton_append], ?_⟩
  rw [closed_append, opened_append, hinner.closed_eq]
  have hclose : closed [.close] = opened [.close] + 1 := rfl
  omega

theorem idText_consumes {text : String} (h : idText ended es = .ok (text, rest)) :
    Consumes es rest 1 := by
  fun_induction idText ended es generalizing text with
  | case1 => cases h
  | case2 s es ih =>
    obtain ⟨p, hp, hpair⟩ := map_eq_ok.mp h
    obtain ⟨-, rfl⟩ := Prod.mk.inj hpair
    exact (ih hp).text s
  | case3 => cases h
  | case4 => cases h
  | case5 es =>
    obtain ⟨-, rfl⟩ := Prod.mk.inj (Except.ok.inj h)
    exact (Consumes.nil _).close

theorem readMapping_consumes {m : Mapping} (h : readMapping ended t es = .ok (m, rest)) :
    Consumes es rest 1 := by
  simp only [readMapping, bind_eq_ok, pure_eq_ok, Prod.mk.injEq] at h
  obtain ⟨_, -, p, hp, _, -, -, rfl⟩ := h
  exact idText_consumes hp

theorem readMappings_consumes {ms : List Mapping} (h : readMappings ended es = .ok (ms, rest)) :
    Consumes es rest 1 := by
  fun_induction readMappings ended es generalizing ms with
  | case1 => cases h
  | case2 es =>
    obtain ⟨-, rfl⟩ := Prod.mk.inj (Except.ok.inj h)
    exact (Consumes.nil _).close
  | case3 s es ih => exact (ih h).text s
  | case4 => cases h
  | case5 => cases h
  | case6 t es hname ih => exact (ih h).empty t
  | case7 => cases h
  | case8 t es hname m es' hm ih =>
    obtain ⟨p, hp, hpair⟩ := map_eq_ok.mp h
    obtain ⟨-, rfl⟩ := Prod.mk.inj hpair
    exact (readMapping_consumes hm).child t (ih hp)
  | case9 => cases h
  | case10 t es hname es' hs ih => exact (skip_consumes hs).child t (ih h)

theorem readCountry_consumes {c : CountryZones}
    (h : readCountry ended mode t es = .ok (c, rest)) : Consumes es rest 1 := by
  simp only [readCountry, bind_eq_ok, pure_eq_ok, Prod.mk.injEq] at h
  obtain ⟨_, -, p, hp, _, -, -, rfl⟩ := h
  exact readMappings_consumes hp

theorem readCountries_consumes (h : (readCountries ended mode es).outcome = .ok rest) :
    Consumes es rest 1 := by
  fun_induction readCountries ended mode es with
  | case1 => cases h
  | case2 es =>
    obtain rfl := Except.ok.inj h
    exact (Consumes.nil es).close
  | case3 s es ih => exact (ih h).text s
  | case4 => cases h
  | case5 t es hname c hc next ih => exact (ih h).empty t
  | case6 t es hname ih => exact (ih h).empty t
  | case7 => cases h
  | case8 t es hname c es' hc next ih => exact (readCountry_consumes hc).child t (ih h)
  | case9 => cases h
  | case10 t es hname es' hs ih => exact (skip_consumes hs).child t (ih h)

/-- If there are countries to read, their element is open behind its tag. -/
theorem findCountryZones_consumes {hasCountries : Bool}
    (h : findCountryZones ended es = .ok (hasCountries, rest)) :
    Consumes es rest (if hasCountries then -1 else 0) := by
  fun_induction findCountryZones ended es with
  | case1 => cases h
  | case2 => cases h
  | case3 s es ih => exact (ih h).text s
  | case4 t es hname =>
    obtain ⟨rfl, rfl⟩ := Prod.mk.inj (Except.ok.inj h)
    exact (Consumes.nil _).empty t
  | case5 t es hname ih => exact (ih h).empty t
  | case6 t es hname =>
    obtain ⟨rfl, rfl⟩ := Prod.mk.inj (Except.ok.inj h)
    exact (Consumes.nil _).start t
  | case7 => cases h
  | case8 t es hname es' hs ih => exact (skip_consumes hs).child t (ih h)

/-- The root is the first element, and events up to its tag are text or belong to no element. -/
theorem root?_consumes {hasContent : Bool} (h : root? es = some (t, hasContent, rest))
    (hfirst : TextFirst es) :
    ∃ before, before.any Event.isTag = true ∧ es = before ++ rest ∧
      opened before = closed before + if hasContent then 1 else 0 := by
  induction hfirst with
  | nil => cases h
  | text s _ ih =>
    obtain ⟨before, htag, rfl, hcount⟩ := ih h
    exact ⟨.text s :: before, htag, rfl, by rwa [opened_text, closed_text]⟩
  | @tag e es he =>
    cases e with
    | start t =>
      obtain ⟨rfl, rfl, rfl⟩ := by simpa only [root?, Option.some.injEq, Prod.mk.injEq] using h
      exact ⟨[.start t], rfl, rfl, rfl⟩
    | empty t =>
      obtain ⟨rfl, rfl, rfl⟩ := by simpa only [root?, Option.some.injEq, Prod.mk.injEq] using h
      exact ⟨[.empty t], rfl, rfl, rfl⟩
    | close => cases he
    | text s => cases he

/-- An accepted document has been read up to the end of its root. -/
theorem readsRoot_of_parse {text : String} (h : (CountryIndex.parse text mode).value = .ok x) :
    ReadsRoot (events text).items := by
  cases hread : readRoot (events text) mode with
  | error f =>
    rw [CountryIndex.parse] at h
    dsimp only at h
    rw [hread] at h
    cases h
  | ok p =>
    obtain ⟨t, e⟩ := p
    obtain ⟨⟨out, hout⟩, -⟩ := index_eq_ok.mp ((parse_of_readRoot hread).mp h).2
    obtain ⟨es, hes, hskip⟩ := bind_eq_ok.mp hout
    have hend := skip_consumes hskip
    rw [readRoot] at hread
    dsimp only at hread
    split at hread
    · cases hread
    rename_i t' hasContent es' hroot
    obtain ⟨before, htag, hitems, hcount⟩ := root?_consumes hroot (textFirst_ofTokens _)
    split at hread
    · cases hread
    split at hread
    · cases hread
    rename_i hcontent
    obtain ⟨⟨hasCountries, es''⟩, hfind, hpair⟩ := map_eq_ok.mp hread
    obtain ⟨-, rfl⟩ := Prod.mk.inj hpair
    have hcontent : hasContent = true := by simpa using hcontent
    have hfind := findCountryZones_consumes hfind
    have hcountries : Consumes es'' es (if hasCountries then 1 else 0) := by
      cases hasCountries with
      | true => exact readCountries_consumes hes
      | false =>
        obtain rfl := Except.ok.inj hes
        exact Consumes.nil _
    obtain ⟨used, hused, hclosed⟩ := (hfind.trans hcountries).trans hend
    refine ⟨before ++ used, out, ?_, ?_, ?_⟩
    · rw [hitems, hused, List.append_assoc]
    · rw [List.any_append, htag, Bool.true_or]
    · rw [opened_append, closed_append]
      cases hasCountries <;> simp [hcontent] at hcount hclosed <;> omega

/-- What an accepted document says is what its root says. -/
theorem exists_root_of_parse {text : String} (h : (CountryIndex.parse text mode).value = .ok x) :
    ∃ root, HasRoot (events text).items root ∧ IsConfiguration mode root ∧
      ∃ es, countriesOf root = some es ∧ x = indexOf root es := by
  obtain ⟨root, hroot⟩ := exists_root (readsRoot_of_parse h)
  exact ⟨root, hroot, (parse_eq_ok hroot).mp h⟩

end TimeZones.Country
