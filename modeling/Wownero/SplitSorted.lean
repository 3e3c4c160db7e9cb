import Mathlib
/-!
# A sorted sequence kept as two halves

A multiset under insertion and removal whose middle has to be at hand at every moment is kept
sorted and cut in two: a lower half and an upper half, equally long or the lower one longer by
one.  Moving the cut never changes the sequence, only where it is cut, so two such
representations of the same multiset are equal.
-/

namespace SplitSorted

variable {α : Type} [LinearOrder α]

/-- The two halves, each ascending. -/
structure Halves (α : Type) where
  lower : List α
  upper : List α
  deriving DecidableEq, Repr

namespace Halves

def empty : Halves α := ⟨[], []⟩

/-- The whole sequence. -/
def values (h : Halves α) : List α := h.lower ++ h.upper

/-- Move the greatest of the lower half up. -/
def shiftUp (h : Halves α) : Halves α :=
  match h.lower.getLast? with
  | some v => ⟨h.lower.dropLast, h.upper.orderedInsert (· ≤ ·) v⟩
  | none => h

/-- Move the least of the upper half down. -/
def shiftDown (h : Halves α) : Halves α :=
  match h.upper with
  | v :: rest => ⟨h.lower.orderedInsert (· ≤ ·) v, rest⟩
  | [] => h

/-- While the lower half is too long, move its greatest up. -/
def raise : Nat → Halves α → Halves α
  | 0, h => h
  | fuel + 1, h =>
      if h.lower.length > h.upper.length + 1 then raise fuel h.shiftUp else h

/-- While the upper half is the longer, move its least down. -/
def sink : Nat → Halves α → Halves α
  | 0, h => h
  | fuel + 1, h => if h.upper.length > h.lower.length then sink fuel h.shiftDown else h

def rebalance (h : Halves α) : Halves α :=
  let h := raise h.lower.length h
  sink h.upper.length h

/-- Insert a value on the side of the greatest of the lower half it belongs to. -/
def insert (v : α) (h : Halves α) : Halves α :=
  match h.lower.getLast? with
  | some lo =>
      if v > lo then rebalance ⟨h.lower, h.upper.orderedInsert (· ≤ ·) v⟩
      else rebalance ⟨h.lower.orderedInsert (· ≤ ·) v, h.upper⟩
  | none => rebalance ⟨h.lower.orderedInsert (· ≤ ·) v, h.upper⟩

/-- Remove one occurrence of a value, from the lower half if it is there. -/
def remove (v : α) (h : Halves α) : Halves α :=
  if v ∈ h.lower then rebalance ⟨h.lower.erase v, h.upper⟩
  else rebalance ⟨h.lower, h.upper.erase v⟩

/-- The sequence is sorted across the cut and the cut is in the middle. -/
structure Balanced (h : Halves α) : Prop where
  sorted : h.values.Pairwise (· ≤ ·)
  middle : h.lower.length = h.upper.length ∨ h.lower.length = h.upper.length + 1

/-! ### Moving the cut -/

theorem sorted_iff (h : Halves α) : h.values.Pairwise (· ≤ ·) ↔
    h.lower.Pairwise (· ≤ ·) ∧ h.upper.Pairwise (· ≤ ·) ∧
      ∀ a ∈ h.lower, ∀ b ∈ h.upper, a ≤ b :=
  List.pairwise_append

/-- Inserting a value no smaller than the rest appends it. -/
theorem orderedInsert_eq_append {l : List α} {v : α} (hl : l.Pairwise (· ≤ ·))
    (hv : ∀ a ∈ l, a ≤ v) : l.orderedInsert (· ≤ ·) v = l ++ [v] := by
  have hperm : List.Perm (l.orderedInsert (· ≤ ·) v) (l ++ [v]) :=
    (List.perm_orderedInsert _ v l).trans (List.perm_append_singleton v l).symm
  refine hperm.eq_of_pairwise' (hl.orderedInsert v l) ?_
  refine List.pairwise_append.mpr ⟨hl, List.pairwise_singleton _ _, ?_⟩
  intro a ha b hb
  rw [List.mem_singleton.mp hb]
  exact hv a ha

/-- Inserting a value no greater than the rest puts it in front. -/
theorem orderedInsert_eq_cons {l : List α} {v : α} (hv : ∀ a ∈ l, v ≤ a) :
    l.orderedInsert (· ≤ ·) v = v :: l := by
  cases l with
  | nil => rfl
  | cons a l => exact List.orderedInsert_cons_of_le _ l (hv a List.mem_cons_self)

theorem shiftUp_values {h : Halves α} (hs : h.values.Pairwise (· ≤ ·)) :
    h.shiftUp.values = h.values := by
  obtain ⟨_, _, hcross⟩ := (sorted_iff h).mp hs
  unfold shiftUp
  cases hlast : h.lower.getLast? with
  | none => rfl
  | some v =>
      have hmem : v ∈ h.lower := List.mem_of_getLast? hlast
      have hsplit : h.lower.dropLast ++ [v] = h.lower :=
        List.dropLast_append_getLast? v hlast
      simp only [values]
      rw [orderedInsert_eq_cons (fun b hb => hcross v hmem b hb)]
      rw [← List.singleton_append, ← List.append_assoc, hsplit]

theorem shiftUp_lengths {h : Halves α} (hne : h.lower ≠ []) :
    h.shiftUp.lower.length + 1 = h.lower.length ∧
      h.shiftUp.upper.length = h.upper.length + 1 := by
  unfold shiftUp
  have hpos : 0 < h.lower.length := List.length_pos_iff.mpr hne
  rw [List.getLast?_eq_some_getLast hne]
  refine ⟨?_, List.orderedInsert_length _ _ _⟩
  show h.lower.dropLast.length + 1 = h.lower.length
  rw [List.length_dropLast]
  omega

theorem shiftDown_values {h : Halves α} (hs : h.values.Pairwise (· ≤ ·)) :
    h.shiftDown.values = h.values := by
  obtain ⟨hlow, _, hcross⟩ := (sorted_iff h).mp hs
  unfold shiftDown
  cases hup : h.upper with
  | nil => rfl
  | cons v rest =>
      have hv : ∀ a ∈ h.lower, a ≤ v := fun a ha =>
        hcross a ha v (by rw [hup]; exact List.mem_cons_self)
      simp only [values]
      rw [orderedInsert_eq_append hlow hv, hup, List.append_assoc, List.singleton_append]

theorem shiftDown_lengths {h : Halves α} (hne : h.upper ≠ []) :
    h.shiftDown.lower.length = h.lower.length + 1 ∧
      h.shiftDown.upper.length + 1 = h.upper.length := by
  unfold shiftDown
  cases hup : h.upper with
  | nil => exact absurd hup hne
  | cons v rest => simp [List.orderedInsert_length]

/-- The first loop ends with the lower half longer by at most one, and changes no value. -/
theorem raise_spec (fuel : Nat) (h : Halves α) (hs : h.values.Pairwise (· ≤ ·))
    (hfuel : h.lower.length ≤ fuel) :
    (raise fuel h).values = h.values ∧
      (raise fuel h).lower.length ≤ (raise fuel h).upper.length + 1 := by
  induction fuel generalizing h with
  | zero => exact ⟨rfl, by simp only [raise]; omega⟩
  | succ fuel ih =>
      unfold raise
      split
      · rename_i hlong
        have hne : h.lower ≠ [] := by
          intro hnil
          rw [hnil] at hlong
          simp at hlong
        have hlen := shiftUp_lengths hne
        have hvals := shiftUp_values hs
        obtain ⟨h₁, h₂⟩ := ih h.shiftUp (by rw [hvals]; exact hs) (by omega)
        exact ⟨h₁.trans hvals, h₂⟩
      · rename_i hshort
        exact ⟨rfl, by omega⟩

/-- The second loop ends balanced, and changes no value. -/
theorem sink_spec (fuel : Nat) (h : Halves α) (hs : h.values.Pairwise (· ≤ ·))
    (hlow : h.lower.length ≤ h.upper.length + 1) (hfuel : h.upper.length ≤ fuel) :
    (sink fuel h).values = h.values ∧ (sink fuel h).Balanced := by
  induction fuel generalizing h with
  | zero => exact ⟨rfl, hs, by simp only [sink]; omega⟩
  | succ fuel ih =>
      unfold sink
      split
      · rename_i hlong
        have hne : h.upper ≠ [] := by
          intro hnil
          rw [hnil] at hlong
          simp at hlong
        have hlen := shiftDown_lengths hne
        have hvals := shiftDown_values hs
        obtain ⟨h₁, h₂⟩ := ih h.shiftDown (by rw [hvals]; exact hs) (by omega) (by omega)
        exact ⟨h₁.trans hvals, h₂⟩
      · rename_i hshort
        exact ⟨rfl, hs, by omega⟩

/-- **Rebalancing.**  It moves the cut to the middle of the same sequence. -/
theorem rebalance_spec (h : Halves α) (hs : h.values.Pairwise (· ≤ ·)) :
    (rebalance h).values = h.values ∧ (rebalance h).Balanced := by
  obtain ⟨hvals, hlow⟩ := raise_spec h.lower.length h hs le_rfl
  obtain ⟨hvals', hbal⟩ :=
    sink_spec _ (raise h.lower.length h) (by rw [hvals]; exact hs) hlow le_rfl
  exact ⟨hvals'.trans hvals, hbal⟩

/-! ### The operations -/

theorem empty_balanced : (empty : Halves α).Balanced := ⟨List.Pairwise.nil, Or.inl rfl⟩

theorem insert_spec {h : Halves α} (hb : h.Balanced) (v : α) :
    (h.insert v).Balanced ∧ List.Perm (h.insert v).values (v :: h.values) := by
  obtain ⟨hlow, hup, hcross⟩ := (sorted_iff h).mp hb.sorted
  have into_lower : (∀ b ∈ h.upper, v ≤ b) →
      (rebalance ⟨h.lower.orderedInsert (· ≤ ·) v, h.upper⟩).Balanced ∧
        List.Perm (rebalance ⟨h.lower.orderedInsert (· ≤ ·) v, h.upper⟩).values
          (v :: h.values) := by
    intro hv
    have hs : (⟨h.lower.orderedInsert (· ≤ ·) v, h.upper⟩ : Halves α).values.Pairwise
        (· ≤ ·) := by
      refine (sorted_iff _).mpr ⟨hlow.orderedInsert v _, hup, ?_⟩
      intro a ha b hb'
      rcases (List.mem_orderedInsert _).mp ha with rfl | ha
      · exact hv b hb'
      · exact hcross a ha b hb'
    obtain ⟨hvals, hbal⟩ := rebalance_spec _ hs
    refine ⟨hbal, ?_⟩
    rw [hvals]
    exact (List.perm_orderedInsert _ v h.lower).append_right h.upper
  unfold insert
  cases hlast : h.lower.getLast? with
  | none =>
      have hnil : h.lower = [] := List.getLast?_eq_none_iff.mp hlast
      have hupnil : h.upper = [] := by
        have hmid := hb.middle
        rw [hnil, List.length_nil] at hmid
        exact List.length_eq_zero_iff.mp (by omega)
      exact into_lower (by rw [hupnil]; simp)
  | some lo =>
      have hlo : lo ∈ h.lower := List.mem_of_getLast? hlast
      by_cases hgt : v > lo
      · simp only [if_pos hgt]
        have hmax : ∀ a ∈ h.lower, a ≤ lo := by
          have hsplit := List.dropLast_append_getLast? lo hlast
          have hpair : (h.lower.dropLast ++ [lo]).Pairwise (· ≤ ·) := by
            rw [hsplit]
            exact hlow
          intro a ha
          rw [← hsplit] at ha
          rcases List.mem_append.mp ha with ha | ha
          · exact (List.pairwise_append.mp hpair).2.2 a ha lo (List.mem_singleton.mpr rfl)
          · exact le_of_eq (List.mem_singleton.mp ha)
        have hs : (⟨h.lower, h.upper.orderedInsert (· ≤ ·) v⟩ : Halves α).values.Pairwise
            (· ≤ ·) := by
          refine (sorted_iff _).mpr ⟨hlow, hup.orderedInsert v _, ?_⟩
          intro a ha b hb'
          rcases (List.mem_orderedInsert _).mp hb' with rfl | hb'
          · exact (hmax a ha).trans (le_of_lt hgt)
          · exact hcross a ha b hb'
        obtain ⟨hvals, hbal⟩ := rebalance_spec _ hs
        refine ⟨hbal, ?_⟩
        rw [hvals]
        exact ((List.perm_orderedInsert _ v h.upper).append_left h.lower).trans
          List.perm_middle
      · simp only [if_neg hgt]
        exact into_lower fun b hb' => (not_lt.mp hgt).trans (hcross lo hlo b hb')

theorem remove_spec {h : Halves α} (hb : h.Balanced) {v : α} (hv : v ∈ h.values) :
    (h.remove v).Balanced ∧ List.Perm (v :: (h.remove v).values) h.values := by
  obtain ⟨hlow, hup, hcross⟩ := (sorted_iff h).mp hb.sorted
  unfold remove
  by_cases hmem : v ∈ h.lower
  · rw [if_pos hmem]
    have hs : (⟨h.lower.erase v, h.upper⟩ : Halves α).values.Pairwise (· ≤ ·) :=
      (sorted_iff _).mpr ⟨hlow.sublist List.erase_sublist, hup,
        fun a ha b hb' => hcross a (List.mem_of_mem_erase ha) b hb'⟩
    obtain ⟨hvals, hbal⟩ := rebalance_spec _ hs
    refine ⟨hbal, ?_⟩
    rw [hvals]
    exact ((List.perm_cons_erase hmem).symm).append_right h.upper
  · rw [if_neg hmem]
    have hmem' : v ∈ h.upper := (List.mem_append.mp hv).resolve_left hmem
    have hs : (⟨h.lower, h.upper.erase v⟩ : Halves α).values.Pairwise (· ≤ ·) :=
      (sorted_iff _).mpr ⟨hlow, hup.sublist List.erase_sublist,
        fun a ha b hb' => hcross a ha b (List.mem_of_mem_erase hb')⟩
    obtain ⟨hvals, hbal⟩ := rebalance_spec _ hs
    refine ⟨hbal, ?_⟩
    rw [hvals]
    exact List.perm_middle.symm.trans
      ((List.perm_cons_erase hmem').symm.append_left h.lower)

/-- **Canonicity.**  The multiset determines the halves. -/
theorem Balanced.eq_of_perm {h h' : Halves α} (hb : h.Balanced) (hb' : h'.Balanced)
    (hp : List.Perm h.values h'.values) : h = h' := by
  have heq : h.values = h'.values := hp.eq_of_pairwise' hb.sorted hb'.sorted
  have hlen : h.lower.length = h'.lower.length := by
    have htotal := congrArg List.length heq
    simp only [values, List.length_append] at htotal
    have hm := hb.middle
    have hm' := hb'.middle
    omega
  obtain ⟨hl, hu⟩ := List.append_inj heq hlen
  cases h
  cases h'
  simp_all

end Halves

end SplitSorted
