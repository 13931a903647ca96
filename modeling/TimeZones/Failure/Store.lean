import TimeZones.Failure

/-! Failures as callers hold them. A failure may be held in several places, and all of them share
its links. A link can be changed only while it is held in one place. -/
namespace TimeZones.Failure

/-- Where the first link of a failure is kept. One that is kept nowhere is an unknown failure. -/
abbrev Handle := Option Nat

/-- A link, and the failure it came from if there is one. -/
structure Link where
  cause : Cause
  source : Option Handle

/-- A link in the store. `holders` counts the handles to it, those in other links included. -/
structure Cell where
  holders : Nat
  link : Link

/-- The links of all failures. A cell is empty once nobody holds its link any more. -/
structure Store where
  cells : List (Option Cell)

namespace Store

def empty : Store := ⟨[]⟩

def cell? (s : Store) (a : Nat) : Option Cell := s.cells[a]?.join

def link? (s : Store) (a : Nat) : Option Link := (s.cell? a).map (·.link)

def put (s : Store) (a : Nat) (c : Option Cell) : Store := ⟨s.cells.set a c⟩

theorem getElem?_cells {s : Store} {a : Nat} {c : Cell} (h : s.cell? a = some c) :
    s.cells[a]? = some (some c) := Option.join_eq_some_iff.mp h

theorem cell?_length (s : Store) : s.cell? s.cells.length = none := by
  rw [cell?, List.getElem?_eq_none (Nat.le_refl _)]
  rfl

theorem cell?_put {s : Store} {a : Nat} {c : Cell} (h : s.cell? a = some c) (c' : Option Cell)
    (b : Nat) : (s.put a c').cell? b = if b = a then c' else s.cell? b := by
  have hlt := (List.getElem?_eq_some_iff.mp (getElem?_cells h)).1
  rw [cell?, put, List.getElem?_set]
  by_cases hb : b = a
  · rw [if_pos hb, if_pos hb.symm, if_pos hlt]
    rfl
  · rw [if_neg hb, if_neg (Ne.symm hb)]
    rfl

theorem link?_put {s : Store} {a : Nat} {c : Cell} (h : s.cell? a = some c) (c' : Option Cell)
    (b : Nat) : (s.put a c').link? b = if b = a then c'.map (·.link) else s.link? b := by
  rw [link?, cell?_put h]
  split
  · rfl
  · rfl

theorem link?_eq_some {s : Store} {a : Nat} {l : Link} :
    s.link? a = some l ↔ ∃ n, s.cell? a = some ⟨n, l⟩ := by
  rw [link?, Option.map_eq_some_iff]
  constructor
  · rintro ⟨⟨n, _⟩, hc, rfl⟩
    exact ⟨n, hc⟩
  · rintro ⟨n, hc⟩
    exact ⟨_, hc, rfl⟩

/-- How many links there are. -/
def size (s : Store) : Nat := s.cells.countP Option.isSome

theorem size_put_none_lt {s : Store} {a : Nat} {c : Cell} (h : s.cell? a = some c) :
    (s.put a none).size < s.size := by
  obtain ⟨hlt, hget⟩ := List.getElem?_eq_some_iff.mp (getElem?_cells h)
  have hpos : 0 < s.cells.countP Option.isSome := by
    rw [List.countP_pos_iff]
    exact ⟨some c, hget ▸ List.getElem_mem hlt, rfl⟩
  rw [size, size, put, List.countP_set hlt, hget]
  simp only [Option.isSome_some, Option.isSome_none, if_true]
  exact Nat.sub_lt hpos Nat.one_pos

/-- Keeps a new link, with one handle to it. -/
def add (s : Store) (l : Link) : Handle × Store :=
  (some s.cells.length, ⟨s.cells ++ [some ⟨1, l⟩]⟩)

theorem cell?_add (s : Store) (l : Link) (b : Nat) :
    (s.add l).2.cell? b = if b = s.cells.length then some ⟨1, l⟩ else s.cell? b := by
  rw [cell?, add, List.getElem?_append]
  split
  · rename_i hlt
    rw [if_neg (Nat.ne_of_lt hlt)]
    rfl
  · rename_i hge
    by_cases hb : b = s.cells.length
    · rw [if_pos hb, hb, Nat.sub_self]
      rfl
    · rw [if_neg hb, cell?, List.getElem?_eq_none (by simp only [List.length_singleton]; omega),
        List.getElem?_eq_none (by omega)]

theorem link?_add (s : Store) (l : Link) (b : Nat) :
    (s.add l).2.link? b = if b = s.cells.length then some l else s.link? b := by
  rw [link?, cell?_add]
  split
  · rfl
  · rfl

/-- Makes another handle to the same failure. -/
def share (s : Store) : Handle → Store
  | none => s
  | some a =>
    match s.cell? a with
    | none => s
    | some c => s.put a (some { c with holders := c.holders + 1 })

/-- Gives a handle up. With the last one to a link, the link gives up the failure it came from. -/
def release (s : Store) : Handle → Store
  | none => s
  | some a =>
    match _h : s.cell? a with
    | none => s
    | some c =>
      if c.holders = 1 then
        match c.link.source with
        | none => s.put a none
        | some source => (s.put a none).release source
      else s.put a (some { c with holders := c.holders - 1 })
termination_by s.size
decreasing_by exact size_put_none_lt _h

/-- Follows the links from a handle to the root, and passes none of them twice. There is no failure
if they do not come to an end. -/
def read? (s : Store) : Handle → Option Failure
  | none => some (.root .unknown)
  | some a =>
    match _h : s.cell? a with
    | none => none
    | some c =>
      match c.link.source with
      | none => some (.root c.link.cause)
      | some source => ((s.put a none).read? source).map (.because c.link.cause)
termination_by s.size
decreasing_by exact size_put_none_lt _h

theorem read?_of_root {s : Store} {a n : Nat} {cause : Cause}
    (h : s.cell? a = some ⟨n, ⟨cause, none⟩⟩) : s.read? (some a) = some (.root cause) := by
  rw [read?]
  split
  · rename_i hc
    cases h.symm.trans hc
  · rename_i hc
    cases h.symm.trans hc
    rfl

theorem read?_of_because {s : Store} {a n : Nat} {cause : Cause} {source : Handle}
    (h : s.cell? a = some ⟨n, ⟨cause, some source⟩⟩) :
    s.read? (some a) = ((s.put a none).read? source).map (.because cause) := by
  rw [read?]
  split
  · rename_i hc
    cases h.symm.trans hc
  · rename_i hc
    cases h.symm.trans hc
    rfl

/-- Puts a failure in the context of another, for which both handles are given up. A context that
is held nowhere else and has no source gets one. Any other is kept as its text. -/
def inContext (s : Store) (h context : Handle) : Option (Handle × Store) :=
  match context with
  | none => some (s.add ⟨.unknown, some h⟩)
  | some a => do
    let c ← s.cell? a
    if c.holders = 1 ∧ c.link.source = none then
      return (some a, s.put a (some { c with link := ⟨c.link.cause, some h⟩ }))
    else
      let f ← s.read? context
      let (new, t) := s.add ⟨.message f.text, some h⟩
      return (new, t.release context)

end Store

end TimeZones.Failure
