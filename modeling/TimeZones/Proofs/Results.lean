import TimeZones.Logged

/-! Successes and failures: what they come of, in computations that can fail. -/
namespace TimeZones

variable {ε α β : Type}

theorem map_eq_ok {f : α → β} {x : Except ε α} {b : β} :
    x.map f = .ok b ↔ ∃ a, x = .ok a ∧ f a = b := by
  cases x <;> simp [Except.map]

theorem bind_eq_ok {f : α → Except ε β} {x : Except ε α} {b : β} :
    (x >>= f) = .ok b ↔ ∃ a, x = .ok a ∧ f a = .ok b := by
  cases x <;> simp [bind, Except.bind]

theorem bind_eq_error {f : α → Except ε β} {x : Except ε α} {e : ε} :
    (x >>= f) = .error e ↔ x = .error e ∨ ∃ a, x = .ok a ∧ f a = .error e := by
  cases x <;> simp [bind, Except.bind]

theorem pure_eq_ok {a b : α} : (pure a : Except ε α) = .ok b ↔ a = b :=
  Except.ok.injEq a b ▸ Iff.rfl

theorem mapError_error {δ : Type} {f : ε → δ} {e : ε} :
    (Except.error e : Except ε α).mapError f = .error (f e) := rfl

theorem mapError_ok {δ : Type} {f : ε → δ} {a : α} :
    (Except.ok a : Except ε α).mapError f = .ok a := rfl

theorem mapError_eq_ok {δ : Type} {f : ε → δ} {x : Except ε α} {a : α} :
    x.mapError f = .ok a ↔ x = .ok a := by
  cases x with
  | error e => simp [mapError_error]
  | ok b => rw [mapError_ok, Except.ok.injEq, Except.ok.injEq]

theorem mapError_eq_error {δ : Type} {f : ε → δ} {x : Except ε α} {d : δ} :
    x.mapError f = .error d ↔ ∃ e, x = .error e ∧ d = f e := by
  cases x with
  | error e => simp [mapError_error, eq_comm]
  | ok b => simp [mapError_ok]

theorem toOption_eq_some {x : Except ε α} {a : α} : x.toOption = some a ↔ x = .ok a := by
  cases x <;> simp [Except.toOption]

theorem Logged.value_andThen_eq_ok {f : α → Logged (Except ε β)} {x : Logged (Except ε α)} {b : β} :
    (x.andThen f).value = .ok b ↔ ∃ a, x.value = .ok a ∧ (f a).value = .ok b := by
  rw [Logged.andThen]
  cases x.value <;> simp

theorem Logged.mem_notes_andThen {f : α → Logged (Except ε β)} {x : Logged (Except ε α)}
    {n : Note} :
    n ∈ (x.andThen f).notes ↔ n ∈ x.notes ∨ ∃ a, x.value = .ok a ∧ n ∈ (f a).notes := by
  rw [Logged.andThen]
  cases x.value <;> simp

end TimeZones
