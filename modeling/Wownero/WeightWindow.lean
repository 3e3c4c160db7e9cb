import Wownero.Consensus
import Wownero.SplitSorted
/-!
# The long-term weight window

The last hundred thousand long-term weights with their median at hand.  The source keeps them in
arrival order and, for the median, in two count maps; a count map is the sorted list of its keys
here, each as often as it is counted.

The window is determined by its contents: whatever pushes led to them, the halves are the same.
-/

namespace Wownero

open SplitSorted

structure LongTermWeightWindow where
  capacity : Nat
  order : List Nat
  halves : Halves Nat
  deriving DecidableEq, Repr

namespace LongTermWeightWindow

/-- `with_capacity`. -/
def withCapacity (capacity : Nat) : LongTermWeightWindow := ⟨capacity, [], Halves.empty⟩

/-- `new`. -/
def new : LongTermWeightWindow := withCapacity longTermBlockWeightWindowSize

/-- `push`: the oldest weight leaves a full window. -/
def push (w : LongTermWeightWindow) (weight : Nat) : LongTermWeightWindow :=
  if w.order.length = w.capacity then
    match w.order with
    | old :: order => ⟨w.capacity, order ++ [weight], (w.halves.remove old).insert weight⟩
    | [] => ⟨w.capacity, [weight], w.halves.insert weight⟩
  else ⟨w.capacity, w.order ++ [weight], w.halves.insert weight⟩

/-- `median`. -/
def median (w : LongTermWeightWindow) : Nat :=
  match w.halves.lower.getLast?, w.halves.upper.head? with
  | none, _ => 0
  | some lo, some hi =>
      if (w.halves.lower.length + w.halves.upper.length) % 2 = 1 then lo else getMid lo hi
  | some lo, none => lo

/-- A window built by pushing weights one after another. -/
def pushAll (w : LongTermWeightWindow) (weights : List Nat) : LongTermWeightWindow :=
  weights.foldl push w

/-! ### The contents determine the window -/

/-- The halves hold what arrived, no more than fits. -/
structure Wf (w : LongTermWeightWindow) : Prop where
  balanced : w.halves.Balanced
  perm : List.Perm w.halves.values w.order
  fits : w.order.length ≤ w.capacity
  pos : 0 < w.capacity

theorem wf_new : new.Wf :=
  ⟨Halves.empty_balanced, List.Perm.refl _, Nat.zero_le _, by decide⟩

theorem push_capacity (w : LongTermWeightWindow) (weight : Nat) :
    (w.push weight).capacity = w.capacity := by
  unfold push
  split
  · split <;> rfl
  · rfl

theorem wf_push {w : LongTermWeightWindow} (h : w.Wf) (weight : Nat) : (w.push weight).Wf := by
  have hpos := h.pos
  have hfits := h.fits
  unfold push
  split
  · rename_i hfull
    split
    · rename_i old order horder
      rw [horder] at hfull hfits
      have hmem : old ∈ w.halves.values :=
        h.perm.symm.subset (by rw [horder]; exact List.mem_cons_self)
      obtain ⟨hrem, hremPerm⟩ := Halves.remove_spec h.balanced hmem
      obtain ⟨hins, hinsPerm⟩ := Halves.insert_spec hrem weight
      refine ⟨hins, ?_, ?_, hpos⟩
      · have hrest : List.Perm (w.halves.remove old).values order :=
          (hremPerm.trans (horder ▸ h.perm)).cons_inv
        exact hinsPerm.trans ((hrest.cons weight).trans (List.perm_append_singleton _ _).symm)
      · simp only [List.length_append, List.length_cons, List.length_nil] at hfull ⊢
        omega
    · rename_i horder
      rw [horder, List.length_nil] at hfull
      omega
  · rename_i hroom
    obtain ⟨hins, hinsPerm⟩ := Halves.insert_spec h.balanced weight
    refine ⟨hins, ?_, ?_, hpos⟩
    · exact hinsPerm.trans ((h.perm.cons weight).trans (List.perm_append_singleton _ _).symm)
    · simp only [List.length_append, List.length_cons, List.length_nil]
      omega

theorem wf_pushAll {w : LongTermWeightWindow} (h : w.Wf) (weights : List Nat) :
    (w.pushAll weights).Wf := by
  induction weights generalizing w with
  | nil => exact h
  | cons a as ih => exact ih (wf_push h a)

/-- **Canonicity.**  Two windows of one capacity with the same contents are equal. -/
theorem Wf.ext {w w' : LongTermWeightWindow} (h : w.Wf) (h' : w'.Wf)
    (hcap : w.capacity = w'.capacity) (horder : w.order = w'.order) : w = w' := by
  have hhalves : w.halves = w'.halves :=
    h.balanced.eq_of_perm h'.balanced (h.perm.trans (horder ▸ h'.perm.symm))
  cases w
  cases w'
  simp_all

/-- What a push leaves: the newest weights, as many as fit. -/
theorem push_order {w : LongTermWeightWindow} (h : w.Wf) (weight : Nat) :
    (w.push weight).order =
      (w.order ++ [weight]).drop (w.order.length + 1 - w.capacity) := by
  have hpos := h.pos
  have hfits := h.fits
  unfold push
  split
  · rename_i hfull
    split
    · rename_i old order horder
      rw [hfull, Nat.add_sub_cancel_left, horder, List.cons_append, List.drop_succ_cons,
        List.drop_zero]
    · rename_i horder
      rw [horder, List.length_nil] at hfull
      omega
  · rename_i hroom
    rw [show w.order.length + 1 - w.capacity = 0 by omega, List.drop_zero]

theorem pushAll_capacity (w : LongTermWeightWindow) (weights : List Nat) :
    (w.pushAll weights).capacity = w.capacity := by
  induction weights generalizing w with
  | nil => rfl
  | cons a as ih => exact (ih (w.push a)).trans (push_capacity w a)

/-- A window filled from empty with no more weights than fit holds just those. -/
theorem pushAll_order {w : LongTermWeightWindow} (h : w.Wf) (weights : List Nat)
    (hfit : w.order.length + weights.length ≤ w.capacity) :
    (w.pushAll weights).order = w.order ++ weights := by
  induction weights generalizing w with
  | nil => exact (List.append_nil _).symm
  | cons a as ih =>
      simp only [List.length_cons] at hfit
      have horder : (w.push a).order = w.order ++ [a] := by
        rw [push_order h, show w.order.length + 1 - w.capacity = 0 by omega, List.drop_zero]
      have hfit' : (w.push a).order.length + as.length ≤ (w.push a).capacity := by
        rw [horder, push_capacity, List.length_append, List.length_singleton]
        omega
      show ((w.push a).pushAll as).order = w.order ++ a :: as
      rw [ih (wf_push h a) hfit', horder, List.append_assoc, List.singleton_append]

end LongTermWeightWindow

end Wownero
