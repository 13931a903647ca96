import TimeZones.Note

/-! Results that come with notes for the log. -/
namespace TimeZones

/-- A value, and the notes written on the way to it. -/
structure Logged (α : Type) where
  value : α
  notes : List Note

namespace Logged
variable {ε α β : Type}

/-- Goes on after a success, and writes the notes of both. -/
def andThen (x : Logged (Except ε α)) (f : α → Logged (Except ε β)) : Logged (Except ε β) :=
  match x.value with
  | .error e => ⟨.error e, x.notes⟩
  | .ok a => ⟨(f a).value, x.notes ++ (f a).notes⟩

end Logged

end TimeZones
