import TimeZones.Markup.Token

/-! Reading a token takes at least one character of the input. -/
namespace TimeZones.Markup.Token
variable {cs rest : List Char} {t : Token}

theorem reference?_length (h : reference? cs = .ok (t, rest)) : rest.length ≤ cs.length := by
  have hd := length_dropWhile_le (fun c => c ≠ ';' && c ≠ '&' && c ≠ '<') cs
  unfold reference? at h
  split at h
  · simp_all
    omega
  · simp at h

theorem comment?_length (h : comment? cs = .ok (t, rest)) : rest.length ≤ cs.length := by
  unfold comment? at h
  split at h
  · simp at h
  · rename_i a b hs
    have := length_of_splitAfter hs
    split at h
    · simp only [Except.ok.injEq, Prod.mk.injEq] at h
      simp_all
      omega
    · simp at h

theorem cdata?_length (h : cdata? cs = .ok (t, rest)) : rest.length ≤ cs.length := by
  unfold cdata? at h
  split at h
  · simp at h
  · rename_i a b hs
    have := length_of_splitAfter hs
    split at h
    · simp_all
    · simp at h

theorem doctype?_length (h : doctype? cs = .ok (t, rest)) : rest.length ≤ cs.length := by
  unfold doctype? at h
  split at h
  · simp at h
  · rename_i a b hs
    have := length_of_splitAfter hs
    split at h
    · simp at h
    · split at h <;> simp_all

theorem instruction?_length (h : instruction? cs = .ok (t, rest)) :
    rest.length ≤ cs.length := by
  unfold instruction? at h
  split at h
  · simp at h
  · rename_i a b hs
    have := length_of_splitAfter hs
    split at h <;> simp_all

theorem tag?_length (h : tag? cs = .ok (t, rest)) : rest.length ≤ cs.length := by
  unfold tag? at h
  split at h
  · simp at h
  · simp at h
  · rename_i a b hs
    have := length_of_splitAfter hs
    simp only at h
    split at h
    · simp_all
    · split at h <;> simp_all

theorem markup?_length (h : markup? cs = .ok (t, rest)) : rest.length ≤ cs.length := by
  unfold markup? at h
  split at h
  · simp at h
  · exact comment?_length h
  · exact cdata?_length h
  · exact doctype?_length h
  · exact doctype?_length h
  · simp at h
  · exact instruction?_length h
  · exact tag?_length h

theorem next_length {c : Char} (h : next c cs = .ok (t, rest)) : rest.length ≤ cs.length := by
  unfold next at h
  split at h
  · exact markup?_length h
  · split at h
    · exact reference?_length h
    · have := length_dropWhile_le (fun c => c ≠ '<' && c ≠ '&') cs
      simp_all [plainText]

end TimeZones.Markup.Token
