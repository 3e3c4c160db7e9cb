import Mathlib.Data.List.Induction
import Wownero.RankedTable
/-!
# Numbering by count

A member of a list that grows at its end is numbered by how many came before it, of all members or
only of those that meet a condition.  Both numbers are functions of the list, so that whoever has
the list has the numbers, whatever was added and taken off again on the way.
-/

namespace Numbering

section

variable {α : Type}

/-- The members of a list that meet a condition, each with its place. -/
def places (p : α → Bool) (l : List α) : List (α × Nat) := l.zipIdx.filter fun x => p x.1

variable {p : α → Bool} {l : List α}

@[simp] theorem places_nil : places p [] = [] := rfl

theorem places_concat (a : α) :
    places p (l ++ [a]) = places p l ++ if p a then [(a, l.length)] else [] := by
  rw [places, List.zipIdx_append, List.filter_append]
  apply congrArg
  cases hp : p a <;> simp [hp]

theorem length_places : (places p l).length = l.countP p := by
  induction l using List.reverseRecOn with
  | nil => rfl
  | append_singleton l a ih =>
      rw [places_concat, List.length_append, ih, List.countP_append, List.countP_singleton]
      cases p a <;> rfl

theorem countP_places (q : α → Bool) :
    ((places p l).countP fun x => q x.1) = l.countP fun a => p a && q a := by
  induction l using List.reverseRecOn with
  | nil => rfl
  | append_singleton l a ih =>
      rw [places_concat, List.countP_append, ih, List.countP_append, List.countP_singleton]
      cases p a <;> simp

/-- A member that meets the condition stands where the count of those before it says. -/
theorem places_countP {n : Nat} {a : α} (ha : l[n]? = some a) (hp : p a = true) :
    (places p l)[(l.take n).countP p]? = some (a, n) := by
  induction l using List.reverseRecOn with
  | nil => cases ha
  | append_singleton l b ih =>
      rw [places_concat]
      rcases Nat.lt_or_ge n l.length with hlt | hge
      · rw [List.getElem?_append_left hlt] at ha
        have hfound := ih ha
        rw [List.take_append_of_le_length hlt.le]
        obtain ⟨hbound, _⟩ := List.getElem?_eq_some_iff.mp hfound
        rw [List.getElem?_append_left hbound]
        exact hfound
      · have hn : n = l.length := by
          have hbound := (List.getElem?_eq_some_iff.mp ha).1
          rw [List.length_append, List.length_singleton] at hbound
          omega
        subst hn
        rw [List.getElem?_concat_length, Option.some.injEq] at ha
        subst ha
        rw [List.take_left, if_pos hp, ← length_places, List.getElem?_concat_length]

/-- What is listed stands at its place and meets the condition. -/
theorem of_mem_places {x : α × Nat} (h : x ∈ places p l) : l[x.2]? = some x.1 ∧ p x.1 = true := by
  obtain ⟨hmem, hp⟩ := List.mem_filter.mp h
  exact ⟨List.mem_zipIdx_iff_getElem?.mp hmem, hp⟩

/-- The numbers among some increase with the numbers among all. -/
theorem places_increasing {i j : Nat} {x y : α × Nat} (hij : i < j)
    (hx : (places p l)[i]? = some x) (hy : (places p l)[j]? = some y) : x.2 < y.2 := by
  have hall : l.zipIdx.Pairwise fun x y => x.2 < y.2 := by
    rw [List.pairwise_iff_getElem]
    intro i j hi hj hij
    rw [List.getElem_zipIdx, List.getElem_zipIdx]
    omega
  have hplaces : (places p l).Pairwise fun x y => x.2 < y.2 := hall.sublist List.filter_sublist
  obtain ⟨hi, rfl⟩ := List.getElem?_eq_some_iff.mp hx
  obtain ⟨hj, rfl⟩ := List.getElem?_eq_some_iff.mp hy
  exact List.pairwise_iff_getElem.mp hplaces i j hi hj hij

end

end Numbering

/-- A dense table that holds a list, in order, has as many rows as the list has members. -/
theorem Table.Dense.size_eq {α ν : Type} {t : Table Nat ν} (h : t.Dense) {l : List α} {f : α → ν}
    (hget : ∀ n, t.get n = (l[n]?).map f) : t.size = l.length := by
  have hiff : ∀ n, n < t.size ↔ n < l.length := by
    intro n
    rw [← h n, hget, Option.isSome_map, isSome_getElem?]
  rcases Nat.lt_trichotomy t.size l.length with hlt | heq | hgt
  · exact absurd ((hiff _).mpr hlt) (Nat.lt_irrefl _)
  · exact heq
  · exact absurd ((hiff _).mp hgt) (Nat.lt_irrefl _)
