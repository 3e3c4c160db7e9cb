import Wownero.Affording
/-!
# When few inputs suffice

A payment of one destination that one output covers, or two of one subaddress.  `plan` prefers such
picks, and takes them before it looks at anything else.  With picks there is one way it does not
succeed: the first pick to be taken leaves the group in front empty while the other, worth less than an
input costs, stands in no group.
-/

namespace Wownero.Planning

open Outcome

variable {transfers : List Transfer} {options : SpendOptions} {indices : List UInt32}

/-! ### That there are picks -/

/-- An output that may pay, and is in the range asked for. -/
structure MayPay (transfers : List Transfer) (options : SpendOptions) (indices : List UInt32) (i : Nat)
    (t : Transfer) : Prop where
  is : transfers[i]? = some t
  eligible : eligible options indices t = true
  inRange : outsideRange options t = false

/-- Two outputs of one subaddress that cover what is needed. -/
structure PairSuffices (transfers : List Transfer) (options : SpendOptions) (indices : List UInt32)
    (needed i j : Nat) (t t₂ : Transfer) : Prop where
  first : MayPay transfers options indices i t
  second : MayPay transfers options indices j t₂
  distinct : i ≠ j
  together : t₂.subaddress = t.subaddress
  covers : needed ≤ t.amount + t₂.amount

theorem MayPay.within {i : Nat} {t : Transfer} (h : MayPay transfers options indices i t) :
    Within transfers [i] := by
  intro k hk
  rw [List.mem_singleton] at hk
  subst hk
  exact (List.getElem?_eq_some_iff.mp h.is).1

theorem MayPay.held {i : Nat} {t : Transfer} (h : MayPay transfers options indices i t) :
    heldBy transfers [i] = t.amount := by
  simp [heldBy, h.is]

theorem PairSuffices.nodup {needed i j : Nat} {t t₂ : Transfer}
    (h : PairSuffices transfers options indices needed i j t t₂) : [i, j].Nodup := by
  simpa using h.distinct

theorem PairSuffices.within {needed i j : Nat} {t t₂ : Transfer}
    (h : PairSuffices transfers options indices needed i j t t₂) : Within transfers [i, j] := by
  intro k hk
  rcases List.mem_cons.mp hk with rfl | hk
  · exact h.first.within k (List.mem_singleton_self k)
  · exact h.second.within k hk

theorem PairSuffices.held {needed i j : Nat} {t t₂ : Transfer}
    (h : PairSuffices transfers options indices needed i j t t₂) :
    heldBy transfers [i, j] = t.amount + t₂.amount := by
  simp [heldBy, h.first.is, h.second.is]

theorem PairSuffices.swap {needed i j : Nat} {t t₂ : Transfer}
    (h : PairSuffices transfers options indices needed i j t t₂) :
    PairSuffices transfers options indices needed j i t₂ t :=
  ⟨h.second, h.first, h.distinct.symm, h.together.symm, by
    rw [Nat.add_comm]
    exact h.covers⟩

/-- What one destination has been paid: nothing, a part, or all. -/
inductive PaysOne (d : Nat) : List Nat → List Nat → Nat → Prop
  | nothing : PaysOne d [] [d] 0
  | part {x y : Nat} (h : x + y = d) (hy : 0 < y) : PaysOne d [x] [y] 0
  | all : PaysOne d [d] [] 1

theorem PaysOne.owing {d : Nat} {s : PlanState}
    (h : PaysOne d s.txDsts s.dsts s.originalOutputIndex) : s.owing = decide (0 < s.dsts.sum) := by
  unfold PlanState.owing
  generalize s.txDsts = txDsts at h
  generalize s.originalOutputIndex = index at h
  generalize s.dsts = dsts at h ⊢
  cases h with
  | nothing => simp
  | part _ hy => simp
  | all => simp

section Pays

variable {d : Nat} {s : PlanState}

end Pays

section Turns

variable {d : Nat} {s : PlanState}

/-- A plan has been made that covers the destination and the fee of two inputs. -/
structure Settled (transfers : List Transfer) (options : SpendOptions) (indices : List UInt32) (d : Nat)
    (s : PlanState) : Prop where
  running : Running transfers options indices [d] s
  paid : s.txDsts = [d] ∧ s.dsts = [] ∧ s.originalOutputIndex = 1
  noPicks : s.preferred = []
  notAdding : s.addingFee = false
  made : s.made.isSome = true
  covers : d + twoInputFee options ≤ heldBy transfers s.selected

theorem Settled.owing (h : Settled transfers options indices d s) : s.owing = false := by
  simp [PlanState.owing, h.paid.2.1]

end Turns

/-! ### What the picks find in front -/

theorem goesOn_owing {s : PlanState} (h : s.owing = true) : s.goesOn = .ok true := by
  unfold PlanState.goesOn
  rw [h]
  rfl

section Payment

variable {d : Nat}

/-- With two picks: the first leaves the group in front empty, and no other group takes its place. -/
def Stuck (transfers : List Transfer) (options : SpendOptions) (indices : List UInt32) (d j : Nat)
    (t₂ : Transfer) : Prop :=
  (∀ (k : Nat) (t : Transfer), transfers[k]? = some t → groupable options indices t = true →
      t.subaddress.minor = t₂.subaddress.minor → k = j) ∧
    (d ≤ t₂.amount ∨ ∀ (k : Nat) (t : Transfer), transfers[k]? = some t →
      groupable options indices t = true → k = j)

end Payment

end Wownero.Planning

namespace Wownero.Sample

open Planning

end Wownero.Sample
