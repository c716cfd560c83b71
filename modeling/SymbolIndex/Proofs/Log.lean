import SymbolIndex.Log

/-!
# Results and events of a computation

What comes of a sequence of steps, and what is told on the way. `Logged` is a lawful monad, and so
is `Attempt`; the result of an attempt and its events are read off step by step
(`Attempt.result_bind`, `Attempt.events_bind`). An attempt that fails tells nothing after the
failure.
-/

namespace SymbolIndex

variable {α β ε : Type}

/-! ### Results -/

theorem map_eq_error_iff {r : Except ε α} {f : α → β} {e : ε} :
    r.map f = .error e ↔ r = .error e := by
  cases r with
  | error e' =>
    show Except.error e' = .error e ↔ _
    rw [Except.error.injEq, Except.error.injEq]
  | ok x =>
    constructor
    · intro h
      cases h
    · intro h
      cases h

theorem toOption_eq_some_iff {r : Except ε α} {x : α} : r.toOption = some x ↔ r = .ok x := by
  cases r with
  | error e =>
    constructor
    · intro h
      cases h
    · intro h
      cases h
  | ok y =>
    show some y = some x ↔ _
    rw [Option.some.injEq, Except.ok.injEq]

/-! ### Results with events -/

namespace Logged

@[ext] protected theorem ext {a b : Logged α} (hvalue : a.value = b.value)
    (hevents : a.events = b.events) : a = b := by
  obtain ⟨value, events⟩ := a
  obtain ⟨value', events'⟩ := b
  cases hvalue
  cases hevents
  rfl

@[simp] theorem events_pure (x : α) : (pure x : Logged α).events = [] := rfl

@[simp] theorem value_bind (a : Logged α) (f : α → Logged β) :
    (a >>= f).value = (f a.value).value := rfl

@[simp] theorem events_bind (a : Logged α) (f : α → Logged β) :
    (a >>= f).events = a.events ++ (f a.value).events := rfl

instance : LawfulMonad Logged := LawfulMonad.mk' Logged
  (fun a => Logged.ext rfl (List.append_nil a.events))
  (fun _ _ => rfl)
  (fun a f g => Logged.ext rfl (List.append_assoc a.events _ _))

end Logged

namespace Attempt

@[simp] theorem result_pure (x : α) : (pure x : Attempt α).result = .ok x := rfl

@[simp] theorem events_pure (x : α) : (pure x : Attempt α).events = [] := rfl

@[simp] theorem result_throw (e : Error) : (throw e : Attempt α).result = .error e := rfl

@[simp] theorem result_ofExcept (r : Except Error α) : (ofExcept r).result = r := rfl

/-- What comes of two steps. -/
theorem result_bind (a : Attempt α) (f : α → Attempt β) :
    (a >>= f).result = a.result >>= fun x => (f x).result := by
  show (Logged.andThen a.run (ExceptT.bindCont f)).value = _
  rw [Logged.andThen]
  show (ExceptT.bindCont f a.result).value = _
  cases a.result with
  | ok x => rfl
  | error e => rfl

/-- What two steps tell: the second only if the first succeeds. -/
theorem events_bind (a : Attempt α) (f : α → Attempt β) :
    (a >>= f).events = a.events ++ match a.result with
      | .ok x => (f x).events
      | .error _ => [] := by
  show a.events ++ (ExceptT.bindCont f a.result).events = _
  cases a.result with
  | ok x => rfl
  | error e => rfl

theorem result_bind_of_ok {a : Attempt α} {x : α} (h : a.result = .ok x) (f : α → Attempt β) :
    (a >>= f).result = (f x).result := by
  rw [result_bind, h]
  rfl

theorem events_bind_of_ok {a : Attempt α} {x : α} (h : a.result = .ok x) (f : α → Attempt β) :
    (a >>= f).events = a.events ++ (f x).events := by
  rw [events_bind, h]

theorem result_bind_of_error {a : Attempt α} {e : Error} (h : a.result = .error e)
    (f : α → Attempt β) : (a >>= f).result = .error e := by
  rw [result_bind, h]
  rfl

/-- A result of two steps is one that both steps agree to. -/
theorem result_bind_eq_ok_iff {a : Attempt α} {f : α → Attempt β} {y : β} :
    (a >>= f).result = .ok y ↔ ∃ x, a.result = .ok x ∧ (f x).result = .ok y := by
  rw [result_bind]
  cases a.result with
  | ok x =>
    show (f x).result = .ok y ↔ _
    constructor
    · intro h
      exact ⟨x, rfl, h⟩
    · rintro ⟨x', hx, h⟩
      cases hx
      exact h
  | error e =>
    show Except.error e = .ok y ↔ _
    constructor
    · intro h
      cases h
    · rintro ⟨x, hx, -⟩
      cases hx

end Attempt

end SymbolIndex
