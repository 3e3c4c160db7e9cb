import Mathlib
/-!
# Computations that may fail

How a computation in `Except` that ended well decomposes: the rules that take a `do` block apart
into its steps.
-/

namespace Outcome

variable {ε α β : Type}

theorem ok_bind (a : α) (f : α → Except ε β) : Except.ok a >>= f = f a := rfl

theorem error_bind (e : ε) (f : α → Except ε β) : Except.error e >>= f = .error e := rfl

/-- A sequence ends well when both of its halves do. -/
theorem bind_eq_ok {x : Except ε α} {f : α → Except ε β} {b : β} :
    x >>= f = .ok b ↔ ∃ a, x = .ok a ∧ f a = .ok b := by
  cases x with
  | error e =>
      constructor
      · intro h
        cases h
      · rintro ⟨_, h, _⟩
        cases h
  | ok a =>
      constructor
      · intro h
        exact ⟨a, rfl, h⟩
      · rintro ⟨_, h, hb⟩
        cases h
        exact hb

theorem pure_eq_ok {a b : α} : (pure a : Except ε α) = .ok b ↔ a = b := by
  constructor
  · intro h
    cases h
    rfl
  · rintro rfl
    rfl

theorem map_eq_ok {x : Except ε α} {f : α → β} {b : β} :
    x.map f = .ok b ↔ ∃ a, x = .ok a ∧ f a = b := by
  cases x with
  | error e => simp [Except.map]
  | ok a => simp [Except.map]

/-- A guard that throws lets through exactly what it does not throw at. -/
theorem guard_bind_eq_ok {p : Prop} [Decidable p] {e : ε} {x : Except ε β} {b : β} :
    ((if p then throw e else pure PUnit.unit) >>= fun _ => x) = .ok b ↔ ¬p ∧ x = .ok b := by
  by_cases hp : p
  · simp only [hp, if_true, not_true_eq_false, false_and, iff_false]
    intro h
    cases h
  · simp only [hp, if_false, not_false_eq_true, true_and]
    rfl

/-- A guard that answers with an error lets through exactly what it does not answer. -/
theorem if_ok_iff {p : Prop} [Decidable p] {e : ε} {x : Except ε β} {b : β} :
    (if p then .error e else x) = .ok b ↔ ¬p ∧ x = .ok b := by
  by_cases hp : p
  · simp [hp]
  · simp [hp]

/-- Mapping a computation over a list ends well when it does on every element. -/
theorem mapM_eq_ok {f : α → Except ε β} {g : α → β} {l : List α}
    (h : ∀ a ∈ l, f a = .ok (g a)) : l.mapM f = .ok (l.map g) := by
  induction l with
  | nil => rfl
  | cons a l ih =>
      rw [List.mapM_cons, h a List.mem_cons_self]
      have ih' := ih fun b hb => h b (List.mem_cons_of_mem a hb)
      show (l.mapM f >>= fun bs => pure (g a :: bs)) = _
      rw [ih']
      rfl

/-- What one computation finds on every element of a list, any that finds as much does. -/
theorem mapM_ok_mono {f g : α → Except ε β} (h : ∀ a b, f a = .ok b → g a = .ok b) {l : List α}
    {bs : List β} (hf : l.mapM f = .ok bs) : l.mapM g = .ok bs := by
  induction l generalizing bs with
  | nil => exact hf
  | cons a l ih =>
      rw [List.mapM_cons, bind_eq_ok] at hf ⊢
      obtain ⟨b, hb, hf⟩ := hf
      rw [bind_eq_ok] at hf
      obtain ⟨bs', hbs, hf⟩ := hf
      refine ⟨b, h a b hb, ?_⟩
      rw [ih hbs]
      exact hf

end Outcome
