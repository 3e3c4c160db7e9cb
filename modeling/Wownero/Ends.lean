import Wownero.Outcome
/-!
# How a computation may end

Postconditions of computations that may fail: a value has to satisfy one predicate and an error
another.  With the errors that must not occur left out of the second, a postcondition says at once
what is found and what never goes wrong.
-/

namespace Outcome

variable {ε α β : Type} {E E' : ε → Prop} {Q Q' : α → Prop} {R : β → Prop}

/-- A value satisfies `Q`, an error `E`. -/
def Ends (E : ε → Prop) (Q : α → Prop) : Except ε α → Prop
  | .ok a => Q a
  | .error e => E e

theorem ends_ok {a : α} : Ends E Q (.ok a) ↔ Q a := Iff.rfl

theorem ends_error {e : ε} : Ends E Q (.error e) ↔ E e := Iff.rfl

theorem ends_pure {a : α} : Ends E Q (pure a) ↔ Q a := Iff.rfl

theorem ends_throw {e : ε} : Ends E Q (throw e) ↔ E e := Iff.rfl

theorem Ends.bind {x : Except ε α} {f : α → Except ε β} (hx : Ends E Q x)
    (hf : ∀ a, Q a → Ends E R (f a)) : Ends E R (x >>= f) := by
  cases x with
  | ok a => exact hf a hx
  | error e => exact hx

/-- The same, with what the computation is at hand. -/
theorem Ends.bind_eq {x : Except ε α} {f : α → Except ε β} (hx : Ends E Q x)
    (hf : ∀ a, x = .ok a → Q a → Ends E R (f a)) : Ends E R (x >>= f) := by
  cases x with
  | ok a => exact hf a rfl hx
  | error e => exact hx

theorem Ends.mono {x : Except ε α} (hx : Ends E Q x) (hq : ∀ a, Q a → Q' a) : Ends E Q' x := by
  cases x with
  | ok a => exact hq a hx
  | error e => exact hx

theorem Ends.widen {x : Except ε α} (hx : Ends E Q x) (he : ∀ e, E e → E' e) : Ends E' Q x := by
  cases x with
  | ok a => exact hx
  | error e => exact he e hx

/-- A computation that ends with a value in any case. -/
def Yields (Q : α → Prop) (x : Except ε α) : Prop := Ends (fun _ => False) Q x

theorem Yields.ends {x : Except ε α} (hx : Yields Q x) : Ends E Q x := hx.widen fun _ h => h.elim

theorem yields_iff {x : Except ε α} : Yields Q x ↔ ∃ a, x = .ok a ∧ Q a := by
  cases x with
  | ok a => simp [Yields, Ends]
  | error e => simp [Yields, Ends]

/-- What is known of a computation that ended well. -/
theorem Ends.of_ok {x : Except ε α} (hx : Ends E Q x) {a : α} (h : x = .ok a) : Q a := by
  rw [h] at hx
  exact hx

theorem Ends.of_error {x : Except ε α} (hx : Ends E Q x) {e : ε} (h : x = .error e) : E e := by
  rw [h] at hx
  exact hx

theorem ends_of_ok {x : Except ε α} {a : α} (h : x = .ok a) (hq : Q a) : Ends E Q x := by
  rw [h]
  exact hq

/-- The two ways a computation may go on. -/
theorem ends_ite {p : Prop} [Decidable p] {x y : Except ε α} (hx : p → Ends E Q x)
    (hy : ¬ p → Ends E Q y) : Ends E Q (if p then x else y) := by
  by_cases hp : p
  · rw [if_pos hp]
    exact hx hp
  · rw [if_neg hp]
    exact hy hp

/-- A computation over each element of a list. -/
theorem ends_mapM {f : α → Except ε β} {P : α → β → Prop} {l : List α}
    (h : ∀ a ∈ l, Ends E (P a) (f a)) : Ends E (fun bs => List.Forall₂ P l bs) (l.mapM f) := by
  induction l with
  | nil =>
      rw [List.mapM_nil]
      exact List.Forall₂.nil
  | cons a l ih =>
      rw [List.mapM_cons]
      apply (h a List.mem_cons_self).bind
      intro b hb
      apply (ih fun c hc => h c (List.mem_cons_of_mem a hc)).bind
      intro bs hbs
      exact List.Forall₂.cons hb hbs

end Outcome
