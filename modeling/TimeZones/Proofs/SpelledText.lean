import Mathlib.Data.List.Chain
import Mathlib.Data.List.DropRight
import TimeZones.Proofs.WrittenContent

/-! What is read of text in an element, in which some characters are written as references. Between
references the text is read in parts, and of each the space at its ends is not kept. So space is
lost next to a reference, unless it is written as a reference itself. -/
namespace TimeZones.Markup

section Stripped
variable {α : Type} {p : α → Bool} {v w w' : List α} {c : α}

/-- What is left without the elements at both ends that have a property. -/
def stripped (p : α → Bool) (v : List α) : List α := (v.dropWhile p).rdropWhile p

theorem stripped_sublist (p : α → Bool) (v : List α) : (stripped p v).Sublist v :=
  (List.rdropWhile_prefix p _).sublist.trans (List.dropWhile_sublist p)

theorem dropWhile_eq_self : v.dropWhile p = v ↔ ∀ c ∈ v.head?, p c = false := by
  rw [List.dropWhile_eq_self_iff]
  cases v with
  | nil => simp
  | cons c v => simp

theorem rdropWhile_eq_self : v.rdropWhile p = v ↔ ∀ c ∈ v.getLast?, p c = false := by
  rw [List.rdropWhile, List.reverse_eq_iff, dropWhile_eq_self, List.head?_reverse]

/-- Nothing is lost if the elements at the ends do not have the property. -/
theorem stripped_eq_self_iff : stripped p v = v ↔
    (∀ c ∈ v.head?, p c = false) ∧ ∀ c ∈ v.getLast?, p c = false := by
  rw [← dropWhile_eq_self, ← rdropWhile_eq_self]
  constructor
  · intro h
    have hle : v.length ≤ (v.dropWhile p).length :=
      calc v.length = (stripped p v).length := by rw [h]
        _ ≤ (v.dropWhile p).length := (List.rdropWhile_prefix p _).length_le
    have hdrop : v.dropWhile p = v := (List.dropWhile_sublist p).eq_of_length_le hle
    refine ⟨hdrop, ?_⟩
    rwa [stripped, hdrop] at h
  · rintro ⟨hdrop, hrdrop⟩
    rw [stripped, hdrop, hrdrop]

theorem mem_stripped (hc : p c = false) (hv : c ∈ v) : c ∈ stripped p v := by
  have hdrop : c ∈ v.dropWhile p := by
    rw [← List.takeWhile_append_dropWhile (p := p) (l := v)] at hv
    refine (List.mem_append.mp hv).resolve_left fun h => ?_
    rw [List.mem_takeWhile_imp h] at hc
    cases hc
  rw [← List.rdropWhile_append_rtakeWhile (p := p) (l := v.dropWhile p)] at hdrop
  refine (List.mem_append.mp hdrop).resolve_right fun h => ?_
  rw [List.mem_rtakeWhile_imp h] at hc
  cases hc

theorem stripped_padded (hw : ∀ c ∈ w, p c = true) (hw' : ∀ c ∈ w', p c = true) :
    stripped p (w ++ (v ++ w')) = stripped p v := by
  have hright (x : List α) : (x ++ w').rdropWhile p = x.rdropWhile p := by
    rw [List.rdropWhile, List.reverse_append, List.dropWhile_append_of_pos, List.rdropWhile]
    exact fun c hc => hw' c (List.mem_reverse.mp hc)
  rw [stripped, List.dropWhile_append_of_pos hw, List.dropWhile_append, stripped]
  split
  · rename_i hnil
    rw [List.isEmpty_iff.mp hnil, List.dropWhile_eq_nil_iff.mpr hw']
  · exact hright _

end Stripped

/-- One character of a value, as it is written. -/
inductive Piece where
  | literal (c : Char)
  | reference (name : List Char) (c : Char)

namespace Piece

def char : Piece → Char
  | literal c => c
  | reference _ c => c

def written : Piece → List Char
  | literal c => [c]
  | reference name _ => '&' :: (name ++ [';'])

/-- With the characters that may stand for themselves given, a piece stands for its character. -/
def IsProper (mayStand : Char → Prop) : Piece → Prop
  | literal c => mayStand c
  | reference name c => Names name c

/-- Space that stands for itself. -/
def IsSpace : Piece → Prop
  | literal c => isSpace c = true
  | reference _ _ => False

instance : DecidablePred IsSpace
  | literal c => inferInstanceAs (Decidable (isSpace c = true))
  | reference _ _ => inferInstanceAs (Decidable False)

def IsReference : Piece → Prop
  | literal _ => False
  | reference _ _ => True

instance : DecidablePred IsReference
  | literal _ => inferInstanceAs (Decidable False)
  | reference _ _ => inferInstanceAs (Decidable True)

theorem not_isSpace {p : Piece} (h : Markup.isSpace p.char = false) : ¬ p.IsSpace := by
  cases p with
  | literal c => exact Bool.eq_false_iff.mp h
  | reference name c => exact id

/-- The two are not a reference and a space. -/
def Apart (p q : Piece) : Prop := ¬ (p.IsSpace ∧ q.IsReference) ∧ ¬ (p.IsReference ∧ q.IsSpace)

instance : DecidableRel Apart := fun _ _ => inferInstanceAs (Decidable (_ ∧ _))

end Piece

variable {mayStand : Char → Prop} {us vs v w w' : List Char} {ps : List Piece} {c : Char}

/-- A value is spelled by pieces, one for each character. -/
theorem spells_iff : Spells mayStand us vs ↔
    ∃ ps : List Piece, (∀ p ∈ ps, p.IsProper mayStand) ∧ us = ps.flatMap Piece.written ∧
      vs = ps.map Piece.char := by
  constructor
  · intro h
    induction h with
    | nil => exact ⟨[], List.forall_mem_nil _, rfl, rfl⟩
    | @literal c us vs hc _ ih =>
      obtain ⟨ps, hps, rfl, rfl⟩ := ih
      exact ⟨.literal c :: ps, List.forall_mem_cons.mpr ⟨hc, hps⟩, rfl, rfl⟩
    | @reference name us vs c hname _ ih =>
      obtain ⟨ps, hps, rfl, rfl⟩ := ih
      refine ⟨.reference name c :: ps, List.forall_mem_cons.mpr ⟨hname, hps⟩, ?_, rfl⟩
      rw [List.flatMap_cons, Piece.written, List.cons_append, List.append_assoc]
      rfl
  · rintro ⟨ps, hps, rfl, rfl⟩
    induction ps with
    | nil => exact .nil
    | cons p ps ih =>
      obtain ⟨hp, htail⟩ := List.forall_mem_cons.mp hps
      cases p with
      | literal c => exact .literal hp (ih htail)
      | reference name c =>
        have := Spells.reference hp (ih htail)
        rw [List.flatMap_cons, Piece.written, List.cons_append, List.append_assoc]
        exact this

/-- What is read of pieces behind the literal characters `v`: the parts between references without
the space at their ends, and what the references stand for. -/
def heard (v : List Char) : List Piece → List Char
  | [] => stripped isSpace v
  | .literal c :: ps => heard (v ++ [c]) ps
  | .reference _ c :: ps => stripped isSpace v ++ c :: heard [] ps

theorem heard_sublist (v : List Char) (ps : List Piece) :
    (heard v ps).Sublist (v ++ ps.map Piece.char) := by
  induction ps generalizing v with
  | nil =>
    rw [List.map_nil, List.append_nil]
    exact stripped_sublist isSpace v
  | cons p ps ih =>
    cases p with
    | literal c =>
      have := ih (v ++ [c])
      rwa [List.append_assoc] at this
    | reference name c => exact (stripped_sublist isSpace v).append ((ih []).cons_cons c)

/-- Other characters than space are all read. -/
theorem mem_heard (hc : isSpace c = false) (h : c ∈ v ++ ps.map Piece.char) : c ∈ heard v ps := by
  induction ps generalizing v with
  | nil =>
    rw [List.map_nil, List.append_nil] at h
    exact mem_stripped hc h
  | cons p ps ih =>
    cases p with
    | literal d => exact ih (by rwa [List.append_assoc])
    | reference name d =>
      rw [heard, List.mem_append, List.mem_cons]
      rw [List.map_cons, List.mem_append, List.mem_cons] at h
      rcases h with h | rfl | h
      · exact Or.inl (mem_stripped hc h)
      · exact Or.inr (Or.inl rfl)
      · exact Or.inr (Or.inr (ih h))

/-- No space stands for itself at the ends or next to a reference. -/
structure KeepsSpace (ps : List Piece) : Prop where
  head : ∀ p ∈ ps.head?, ¬ p.IsSpace
  last : ∀ p ∈ ps.getLast?, ¬ p.IsSpace
  apart : ps.IsChain Piece.Apart

theorem isChain_literals (v : List Char) : (v.map Piece.literal).IsChain Piece.Apart := by
  have hall : v.Pairwise fun c d => Piece.Apart (.literal c) (.literal d) :=
    List.pairwise_of_forall fun _ _ => ⟨fun h => h.2, fun h => h.1⟩
  exact (List.pairwise_map.mpr hall).isChain

theorem keepsSpace_literals : KeepsSpace (v.map Piece.literal) ↔ stripped isSpace v = v := by
  have hliteral (c : Char) : ¬ (Piece.literal c).IsSpace ↔ isSpace c = false :=
    Bool.not_eq_true (isSpace c) ▸ Iff.rfl
  have hends (o : Option Char) :
      (∀ p ∈ o.map Piece.literal, ¬ p.IsSpace) ↔ ∀ c ∈ o, isSpace c = false := by
    simp [hliteral]
  rw [stripped_eq_self_iff, ← hends, ← hends, ← List.head?_map, ← List.getLast?_map]
  exact ⟨fun h => ⟨h.head, h.last⟩, fun h => ⟨h.1, h.2, isChain_literals v⟩⟩

/-- What comes before a reference and what comes behind it keep their space on their own. -/
theorem keepsSpace_reference {name : List Char} :
    KeepsSpace (v.map Piece.literal ++ .reference name c :: ps) ↔
      stripped isSpace v = v ∧ KeepsSpace ps := by
  rw [← keepsSpace_literals]
  have hlast : (v.map Piece.literal ++ .reference name c :: ps).getLast? =
      some (ps.getLast?.getD (.reference name c)) := by
    rw [List.getLast?_append, List.getLast?_cons, Option.some_or]
  constructor
  · intro h
    obtain ⟨hliterals, hrest, hbefore⟩ := List.isChain_append.mp h.apart
    obtain ⟨hbehind, hps⟩ := List.isChain_cons.mp hrest
    refine ⟨⟨?_, ?_, hliterals⟩, ?_, ?_, hps⟩
    · intro p hp
      refine h.head p ?_
      rw [List.head?_append, hp]
      rfl
    · exact fun p hp hspace => (hbefore p hp _ rfl).1 ⟨hspace, trivial⟩
    · exact fun p hp hspace => (hbehind p hp).2 ⟨trivial, hspace⟩
    · intro p hp
      refine h.last p ?_
      rw [hlast, hp]
      rfl
  · rintro ⟨hv, hps⟩
    refine ⟨?_, ?_, List.isChain_append.mpr ⟨hv.apart, List.isChain_cons.mpr ⟨?_, hps.apart⟩, ?_⟩⟩
    · cases v with
      | nil =>
        rintro _ ⟨⟩
        exact id
      | cons d v => exact hv.head
    · rw [hlast]
      rintro _ ⟨⟩
      cases hp : ps.getLast? with
      | none => exact id
      | some p => exact hps.last p hp
    · exact fun p hp => ⟨fun h => h.1, fun h => hps.head p hp h.2⟩
    · rintro p hp _ ⟨⟩
      exact ⟨fun h => hv.last p hp h.1, fun h => h.2⟩

/-- Everything is read if and only if no space is lost. -/
theorem heard_eq_iff : heard v ps = v ++ ps.map Piece.char ↔
    KeepsSpace (v.map Piece.literal ++ ps) := by
  induction ps generalizing v with
  | nil => rw [List.append_nil, keepsSpace_literals, heard, List.map_nil, List.append_nil]
  | cons p ps ih =>
    cases p with
    | literal c =>
      have := ih (v := v ++ [c])
      rwa [List.append_assoc, List.map_append, List.append_assoc] at this
    | reference name c =>
      have hps : heard [] ps = ps.map Piece.char ↔ KeepsSpace ps := ih (v := [])
      rw [keepsSpace_reference, ← hps, heard, List.map_cons]
      constructor
      · intro h
        have hsum := congrArg List.length h
        have hle := (stripped_sublist isSpace v).length_le
        have hle' := (heard_sublist [] ps).length_le
        simp only [List.length_append, List.length_cons, List.nil_append] at hsum hle'
        obtain ⟨hv, htail⟩ := List.append_inj h (by omega)
        exact ⟨hv, (List.cons.inj htail).2⟩
      · rintro ⟨hv, hheard⟩
        rw [hv, hheard]
        rfl

/-- What may stand for itself in the text of an element. -/
def InText (c : Char) : Prop := c ≠ '<' ∧ c ≠ '&'

instance : DecidablePred InText := fun _ => inferInstanceAs (Decidable (_ ∧ _))

/-- Text is read as it is heard, with space around it or not. -/
theorem exists_content_heard (hps : ∀ p ∈ ps, p.IsProper InText) (hw : IsBlank w)
    (hw' : IsBlank w') (hv : IsPlain v) :
    ∃ c : Content, c.elements = [] ∧ c.chars = String.ofList (heard v ps) ∧
      ∀ o, Yields o (w ++ (v ++ (ps.flatMap Piece.written ++ w'))) c.events o := by
  induction ps generalizing w v with
  | nil =>
    refine ⟨.withText (w ++ (v ++ w')) .done, Content.elements_withText _ _, ?_, fun o => ?_⟩
    · rw [Content.chars_withText, Content.chars, String.append_empty]
      exact congrArg String.ofList (stripped_padded hw hw')
    · rw [Content.events_withText, Content.events, List.append_nil]
      exact (hw.isPlain.append (hv.append hw'.isPlain)).yields o
  | cons p ps ih =>
    obtain ⟨hp, htail⟩ := List.forall_mem_cons.mp hps
    cases p with
    | literal c =>
      obtain ⟨content, helements, hchars, hyields⟩ :=
        ih htail hw (hv.append (List.forall_mem_singleton.mpr hp))
      refine ⟨content, helements, hchars, fun o => ?_⟩
      simpa only [Piece.written, List.flatMap_cons, List.append_assoc] using hyields o
    | reference name c =>
      obtain ⟨next, helements, hchars, hyields⟩ := ih htail (w := []) isBlank_nil isPlain_nil
      refine ⟨.withText (w ++ v) (.text (String.ofList [c]) next),
        (Content.elements_withText _ _).trans helements, ?_, fun o => ?_⟩
      · have hstripped : stripped isSpace (w ++ v) = stripped isSpace v := by
          have := stripped_padded (v := v) hw isBlank_nil
          rwa [List.append_nil] at this
        rw [Content.chars_withText, Content.chars, hchars, ← String.ofList_append,
          ← String.ofList_append]
        exact congrArg (fun x => String.ofList (x ++ c :: heard [] ps)) hstripped
      · rw [Content.events_withText]
        have := Yields.cons (hw.isPlain.append hv) (Names.isMarkup hp) (tokenEvents_reference hp o)
          (hyields o)
        simpa only [Content.events, Piece.written, List.flatMap_cons, List.append_assoc,
          List.cons_append, List.nil_append] using this

/-- Where no space stands for itself none is lost. -/
theorem keepsSpace_of_forall (h : ∀ p ∈ ps, ¬ p.IsSpace) : KeepsSpace ps := by
  refine ⟨fun p hp => h p (List.mem_of_mem_head? hp), fun p hp => h p (List.mem_of_getLast? hp), ?_⟩
  refine (List.pairwise_of_forall_mem_list fun p hp q hq => ?_).isChain
  exact ⟨fun hspace => h p hp hspace.1, fun hspace => h q hq hspace.2⟩

/-- A value with no space in it is found again in text, however it is spelled. -/
theorem Spells.yields (h : Spells InText us vs) (hvs : ∀ c ∈ vs, isSpace c = false)
    (hw : IsBlank w) (hw' : IsBlank w') :
    ∃ c : Content, c.elements = [] ∧ c.chars = String.ofList vs ∧
      ∀ o, Yields o (w ++ (us ++ w')) c.events o := by
  obtain ⟨ps, hps, rfl, rfl⟩ := spells_iff.mp h
  have hspace : ∀ p ∈ ps, ¬ p.IsSpace :=
    fun p hp => Piece.not_isSpace (hvs p.char (List.mem_map_of_mem hp))
  have hheard : heard [] ps = ps.map Piece.char := heard_eq_iff.mpr (keepsSpace_of_forall hspace)
  obtain ⟨c, helements, hchars, hyields⟩ := exists_content_heard hps hw hw' isPlain_nil
  exact ⟨c, helements, hheard ▸ hchars, hyields⟩

end TimeZones.Markup
