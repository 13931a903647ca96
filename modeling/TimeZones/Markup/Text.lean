/-! Characters of marked-up text, and splitting it where an automaton stops. -/
namespace TimeZones.Markup

/-- Space between the parts of markup. -/
def isSpace (c : Char) : Bool := c = ' ' || c = '\t' || c = '\r' || c = '\n'

/-- The number of bytes that characters take in UTF-8. -/
def byteLength (cs : List Char) : Nat := cs.foldr (fun c n => c.utf8Size + n) 0

def trimEnd (cs : List Char) : List Char := (cs.reverse.dropWhile isSpace).reverse

/-- Splits the input after the first character at which the automaton stops. If there is none, the
state at the end is given. -/
def splitAfter {σ : Type} (step : σ → Char → Option σ) :
    σ → List Char → Except σ (List Char × List Char)
  | s, [] => .error s
  | s, c :: cs =>
    match step s c with
    | none => .ok ([c], cs)
    | some s => (splitAfter step s cs).map fun (a, b) => (c :: a, b)

/-- Nothing is lost or reordered. -/
theorem append_of_splitAfter {σ : Type} {step : σ → Char → Option σ} {s : σ}
    {cs a b : List Char} (h : splitAfter step s cs = .ok (a, b)) : a ++ b = cs := by
  induction cs generalizing s a with
  | nil => simp [splitAfter] at h
  | cons c cs ih =>
    unfold splitAfter at h
    split at h
    · simp only [Except.ok.injEq, Prod.mk.injEq] at h
      obtain ⟨rfl, rfl⟩ := h
      rfl
    · rename_i s' _
      cases hs : splitAfter step s' cs with
      | error e => simp [hs, Except.map] at h
      | ok p =>
        simp only [hs, Except.map, Except.ok.injEq, Prod.mk.injEq] at h
        obtain ⟨rfl, rfl⟩ := h
        simp [ih hs]

theorem length_dropWhile_le {α : Type} (p : α → Bool) (l : List α) :
    (l.dropWhile p).length ≤ l.length :=
  (List.dropWhile_sublist p).length_le

/-- The rest is what the split leaves of the input. -/
theorem length_of_splitAfter {σ : Type} {step : σ → Char → Option σ} {s : σ}
    {cs a rest : List Char} (h : splitAfter step s cs = .ok (a, rest)) :
    rest.length ≤ cs.length := by
  have := congrArg List.length (append_of_splitAfter h)
  simp at this
  omega

end TimeZones.Markup
