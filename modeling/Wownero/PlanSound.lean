import Mathlib.Algebra.BigOperators.Group.Finset.Basic
import Mathlib.Algebra.Order.BigOperators.Group.Finset
import Wownero.Picking
import Wownero.Supply
/-!
# Plans are sound

The invariant of the loop of `plan`: what it may still pick from, what it has picked, what the
destinations have been paid and whatever plan it has made.  One turn keeps it and leaves less to pick
from, so the loop ends, and it ends with a plan of distinct outputs that may be spent, whose amounts,
change and fee are what they hold.  The sweeps are sound for the same reasons.
-/

namespace Wownero.Planning

open Outcome

/-! ### What outputs hold -/

/-- What the outputs at these indices hold. -/
def heldBy (transfers : List Transfer) (l : List Nat) : Nat :=
  (l.map fun i => (transfers[i]?.map (·.amount)).getD 0).sum

/-- Distinct transfers add up to no more than all of them do, whatever is added up. -/
theorem sum_picked_le (g : Transfer → Nat) {transfers : List Transfer} {l : List Nat}
    (hnodup : l.Nodup) (hwithin : Within transfers l) :
    (l.map fun i => (transfers[i]?.map g).getD 0).sum ≤ (transfers.map g).sum := by
  have hrange := List.nodup_range (n := transfers.length)
  have hall : ((List.range transfers.length).map fun i => (transfers[i]?.map g).getD 0).sum =
      (transfers.map g).sum := by
    congr 1
    apply List.ext_getElem
    · simp
    · intro i h₁ h₂
      simp at h₁
      simp [h₁]
  rw [← hall, ← List.sum_toFinset _ hnodup, ← List.sum_toFinset _ hrange]
  apply Finset.sum_le_sum_of_subset
  intro i hi
  simpa using hwithin i (List.mem_toFinset.mp hi)

/-- Distinct outputs hold no more than all of them. -/
theorem heldBy_le {transfers : List Transfer} {l : List Nat} (hnodup : l.Nodup)
    (hwithin : Within transfers l) : heldBy transfers l ≤ (transfers.map (·.amount)).sum :=
  sum_picked_le (·.amount) hnodup hwithin

/-- The sum over the selected outputs does not wrap. -/
theorem yields_foundBy {transfers : List Transfer} {selected : List Nat} (hnodup : selected.Nodup)
    (hwithin : Within transfers selected) (hfits : (transfers.map (·.amount)).sum < 2 ^ 64) :
    Yields (· = heldBy transfers selected) (foundBy transfers selected) := by
  unfold foundBy
  have hall : selected.mapM (elemAt transfers) = .ok (selected.filterMap (transfers[·]?)) := by
    clear hnodup
    induction selected with
    | nil => rfl
    | cons i selected ih =>
        have hi := List.getElem?_eq_getElem (hwithin i List.mem_cons_self)
        rw [List.mapM_cons, elemAt_of_getElem? hi, ok_bind,
          ih (hwithin.subset (List.subset_cons_self i selected)), List.filterMap_cons, hi]
        rfl
  have hsum : ((selected.filterMap (transfers[·]?)).map (·.amount)).sum = heldBy transfers selected := by
    clear hnodup hall
    induction selected with
    | nil => rfl
    | cons i selected ih =>
        have hi := List.getElem?_eq_getElem (hwithin i List.mem_cons_self)
        have ih := ih (hwithin.subset (List.subset_cons_self i selected))
        simp [heldBy, hi] at ih ⊢
        omega
  rw [hall, ok_bind, hsum]
  have hle := heldBy_le hnodup hwithin
  show wrap64 (heldBy transfers selected) = heldBy transfers selected
  exact Nat.mod_eq_of_lt (by omega)

/-! ### What the loop picks from -/

section

variable {transfers : List Transfer} {options : SpendOptions} {indices : List UInt32}

/-- The groups, the picks and what is selected. -/
structure Stocked (transfers : List Transfer) (options : SpendOptions) (indices : List UInt32)
    (groups : List (UInt32 × List Nat)) (preferred selected : List Nat) : Prop where
  standing : groups ≠ []
  apart : (selected ++ groups.flatMap (·.2)).Nodup
  picks : (selected ++ preferred).Nodup
  frontOnly : ∀ p ∈ preferred, ∀ g ∈ groups.tail, p ∉ g.2
  members : ∀ i ∈ selected ++ (preferred ++ groups.flatMap (·.2)), ∃ t, transfers[i]? = some t ∧
    eligible options indices t = true

/-- How many outputs there are to take. -/
def leftOf (groups : List (UInt32 × List Nat)) (preferred : List Nat) : Nat :=
  preferred.length + (groups.map (·.2.length)).sum

section Stocked

variable {groups : List (UInt32 × List Nat)} {preferred selected : List Nat}

theorem Stocked.within (h : Stocked transfers options indices groups preferred selected) :
    Within transfers (selected ++ (preferred ++ groups.flatMap (·.2))) := by
  intro i hi
  obtain ⟨t, ht, -⟩ := h.members i hi
  exact (List.getElem?_eq_some_iff.mp ht).1

theorem Stocked.within_selected (h : Stocked transfers options indices groups preferred selected) :
    Within transfers selected := h.within.subset (List.subset_append_left ..)

/-- An output goes from the front group, or from the picks, to the selected. -/
theorem Stocked.take {minor : UInt32} {front front' : List Nat} {tail : List (UInt32 × List Nat)}
    {preferred' : List Nat} {idx : Nat}
    (h : Stocked transfers options indices ((minor, front) :: tail) preferred selected)
    (htaken : idx ∉ front ∧ front' = front ∨ front.Perm (idx :: front'))
    (hsub : preferred' ⊆ preferred) (hpicks : (selected ++ idx :: preferred').Nodup)
    (htail : ∀ g ∈ tail, idx ∉ g.2) (hidx : idx ∈ preferred ∨ idx ∈ front) :
    Stocked transfers options indices ((minor, front') :: tail) preferred' (selected ++ [idx]) := by
  have hsubFront : front' ⊆ front := by
    rcases htaken with ⟨-, rfl⟩ | hperm
    · exact List.Subset.refl _
    · exact fun i hi => hperm.symm.subset (List.mem_cons_of_mem idx hi)
  have hapart := h.apart
  simp only [List.flatMap_cons] at hapart
  refine ⟨by simp, ?_, ?_, fun p hp => h.frontOnly p (hsub hp), ?_⟩
  · -- What is left of the front group and the groups behind it is apart from the output taken.
    have hnot : idx ∉ front' := by
      rcases htaken with ⟨hnot, rfl⟩ | hperm
      · exact hnot
      · have hnodup : front.Nodup :=
          (List.nodup_append.mp (List.nodup_append.mp hapart).2.1).1
        rw [hperm.nodup_iff, List.nodup_cons] at hnodup
        exact hnodup.1
    have hsublist : (selected ++ (front' ++ tail.flatMap (·.2))).Nodup := by
      rcases htaken with ⟨-, rfl⟩ | hperm
      · exact hapart
      · have hmoved : (selected ++ (front ++ tail.flatMap (·.2))).Perm
            (idx :: (selected ++ (front' ++ tail.flatMap (·.2)))) :=
          ((hperm.append_right _).append_left selected).trans List.perm_middle
        exact (List.nodup_cons.mp (hmoved.nodup_iff.mp hapart)).2
    have hselected : idx ∉ selected := by
      intro hin
      exact (List.nodup_append.mp hpicks).2.2 idx hin idx List.mem_cons_self rfl
    have hbehind : idx ∉ tail.flatMap (·.2) := by
      intro hin
      obtain ⟨g, hg, hmem⟩ := List.mem_flatMap.mp hin
      exact htail g hg hmem
    simp only [List.flatMap_cons]
    have hperm : (selected ++ [idx] ++ (front' ++ tail.flatMap (·.2))).Perm
        (idx :: (selected ++ (front' ++ tail.flatMap (·.2)))) := by
      rw [List.append_assoc]
      exact List.perm_middle
    rw [hperm.nodup_iff, List.nodup_cons]
    refine ⟨?_, hsublist⟩
    simp only [List.mem_append, not_or]
    exact ⟨hselected, hnot, hbehind⟩
  · rw [List.append_assoc]
    exact hpicks
  · intro i hi
    apply h.members i
    simp only [List.mem_append, List.mem_singleton, List.flatMap_cons] at hi ⊢
    rcases hi with (hi | rfl) | hi | hi | hi
    · exact .inl hi
    · rcases hidx with hin | hin
      · exact .inr (.inl hin)
      · exact .inr (.inr (.inl hin))
    · exact .inr (.inl (hsub hi))
    · exact .inr (.inr (.inl (hsubFront hi)))
    · exact .inr (.inr (.inr hi))

/-- An empty front group can go. -/
theorem Stocked.next {g g' : UInt32 × List Nat} {tail : List (UInt32 × List Nat)}
    (h : Stocked transfers options indices (g :: g' :: tail) preferred selected) (hempty : g.2 = []) :
    Stocked transfers options indices (g' :: tail) preferred selected := by
  have hflat : (g :: g' :: tail).flatMap (·.2) = (g' :: tail).flatMap (·.2) := by
    rw [List.flatMap_cons, hempty, List.nil_append]
  refine ⟨by simp, ?_, h.picks, ?_, ?_⟩
  · rw [← hflat]
    exact h.apart
  · intro p hp g'' hg''
    exact h.frontOnly p hp g'' (List.mem_cons_of_mem g' hg'')
  · rw [← hflat]
    exact h.members

end Stocked

/-- What `plan` starts with. -/
theorem stocked_start (transfers : List Transfer) (options : SpendOptions) (needed : Nat)
    (destinations : List Nat) (rng : RandomSource)
    (hne : collectGroups transfers options (planIndices transfers options) ≠ []) :
    Yields (fun s => Stocked transfers options (planIndices transfers options) s.groups s.preferred [] ∧
        s = { groups := s.groups, preferred := s.preferred, dsts := destinations, rng := rng })
      (planStart transfers options needed destinations rng) := by
  have hgrouped := (grouped_collectGroups transfers options (planIndices transfers options)).1.perm
    (sortGroups_perm (unlockedPerSubaddress transfers options) _)
  have hsorted : sortGroups (unlockedPerSubaddress transfers options)
      (collectGroups transfers options (planIndices transfers options)) ≠ [] := by
    intro hnil
    apply hne
    have hperm := sortGroups_perm (unlockedPerSubaddress transfers options)
      (collectGroups transfers options (planIndices transfers options))
    rw [hnil] at hperm
    exact hperm.nil_eq.symm
  revert hgrouped hsorted
  unfold planStart
  dsimp only
  generalize sortGroups (unlockedPerSubaddress transfers options)
    (collectGroups transfers options (planIndices transfers options)) = groups
  intro hgrouped hsorted
  have hmember : ∀ i ∈ groups.flatMap (·.2), ∃ t, transfers[i]? = some t ∧
      eligible options (planIndices transfers options) t = true := by
    intro i hi
    obtain ⟨g, hg, hin⟩ := List.mem_flatMap.mp hi
    obtain ⟨t, ht, hgroupable, -⟩ := hgrouped.filed g hg i hin
    simp only [groupable, Bool.and_eq_true] at hgroupable
    exact ⟨t, ht, hgroupable.1.2⟩
  -- Every pick is of the subaddress of the first, whose group is brought to the front.
  have hpicked : ∀ first t rest, transfers[first]? = some t →
      pickPreferredInputs transfers needed options (planIndices transfers options) = first :: rest →
      (first :: rest).Nodup → (∀ i ∈ first :: rest, ∃ t', transfers[i]? = some t' ∧
        eligible options (planIndices transfers options) t' = true ∧
        t'.subaddress.minor = t.subaddress.minor) →
      Stocked transfers options (planIndices transfers options)
        (bringToFront t.subaddress.minor groups) (first :: rest) [] := by
    intro first t rest ht _ hnodup hall
    have hperm := bringToFront_perm t.subaddress.minor groups
    have hfront := hgrouped.perm hperm
    refine ⟨?_, ?_, hnodup, ?_, ?_⟩
    · intro hnil
      rw [hnil] at hperm
      exact hsorted hperm.nil_eq.symm
    · exact hfront.nodup
    · intro p hp g hg hin
      obtain ⟨t', ht', -, hminor⟩ := hall p hp
      obtain ⟨t'', ht'', -, hminor'⟩ := hfront.filed g (List.mem_of_mem_tail hg) p hin
      rw [ht', Option.some.injEq] at ht''
      subst ht''
      exact bringToFront_front hgrouped.minors g hg (hminor'.symm.trans hminor)
    · intro i hi
      simp only [List.nil_append, List.mem_append] at hi
      rcases hi with hi | hi
      · obtain ⟨t', ht', heligible, -⟩ := hall i hi
        exact ⟨t', ht', heligible⟩
      · exact hmember i ((hperm.flatMap_right _).mem_iff.mp hi)
  rcases pickPreferredInputs_cases transfers needed options (planIndices transfers options) with hnone |
    ⟨i, t, hone, hsingle⟩ | ⟨i, j, t, t₂, htwo, hpair⟩
  · rw [hnone]
    refine ⟨⟨hsorted, hgrouped.nodup, List.nodup_nil, by simp, ?_⟩, rfl⟩
    intro i hi
    exact hmember i (by simpa using hi)
  · rw [hone]
    simp only [List.head?_cons, elemAt_of_getElem? hsingle.first, ok_bind]
    refine ⟨hpicked i t [] hsingle.first hone (List.nodup_singleton i) ?_, rfl⟩
    intro k hk
    rw [List.mem_singleton] at hk
    subst hk
    exact ⟨t, hsingle.first, hsingle.eligible, rfl⟩
  · rw [htwo]
    simp only [List.head?_cons, elemAt_of_getElem? hpair.first, ok_bind]
    refine ⟨hpicked i t [j] hpair.first htwo (by simpa using hpair.distinct) ?_, rfl⟩
    intro k hk
    rcases List.mem_cons.mp hk with rfl | hk
    · exact ⟨t, hpair.first, hpair.eligible, rfl⟩
    · rw [List.mem_singleton] at hk
      subst hk
      refine ⟨t₂, hpair.second, hpair.eligible_second, ?_⟩
      rw [(pairs_iff.mp hpair.pairs).2.2.2]

/-! ### Paying the destinations -/

/-- What the destinations have been paid so far: some in full, and the next one perhaps in part. -/
inductive Settles (destinations : List Nat) : List Nat → List Nat → Nat → Prop
  | whole {paid dsts : List Nat} (h : paid ++ dsts = destinations) :
      Settles destinations paid dsts paid.length
  | part {paid dsts : List Nat} {x y : Nat} (h : paid ++ (x + y) :: dsts = destinations) :
      Settles destinations (paid ++ [x]) (y :: dsts) paid.length

theorem Settles.done {destinations txDsts : List Nat} {index : Nat}
    (h : Settles destinations txDsts [] index) : txDsts = destinations := by
  cases h with
  | whole h => simpa using h

/-- The estimate for one output for each destination, or for one more, is below the limit. -/
def LimitMet (options : SpendOptions) (destinations : List Nat) (inputs : Nat) : Prop :=
  ∃ outputs, (outputs = destinations.length ∨ outputs = destinations.length + 1) ∧
    weightWith options inputs outputs < options.weightLimit

theorem addDestination_next (txDsts : List Nat) (amount : Nat) :
    addDestination txDsts amount txDsts.length =
      .ok (if txDsts.length ≥ maxOutputs - 1 then none else some (txDsts ++ [amount])) := by
  unfold addDestination
  by_cases hfull : txDsts.length ≥ maxOutputs - 1
  · rw [if_pos ⟨rfl, hfull⟩, if_pos hfull]
    rfl
  · rw [if_neg (fun h => hfull h.2), if_neg hfull]
    simp [elemAt]

theorem addDestination_part (paid : List Nat) (x amount : Nat) :
    addDestination (paid ++ [x]) amount paid.length = .ok (some (paid ++ [x + amount])) := by
  unfold addDestination
  have hne : paid.length ≠ (paid ++ [x]).length := by simp
  rw [if_neg (fun h => hne h.1), if_neg hne]
  simp [elemAt]

theorem yields_payFully {destinations txDsts dsts : List Nat} {index : Nat}
    (h : Settles destinations txDsts dsts index) (inputs available : Nat) :
    Yields (fun p => Settles destinations p.txDsts p.dsts p.originalOutputIndex ∧
        (p.dsts = [] → dsts = [] ∨ LimitMet options destinations inputs) ∧
        (p.outSlotsExhausted = false → ∀ d ∈ p.dsts.head?, p.available < d ∨
          options.weightLimit ≤ weightWith options inputs (p.txDsts.length + 1)))
      (payFully options inputs txDsts index available dsts) := by
  induction dsts generalizing txDsts index available with
  | nil => exact ⟨h, fun _ => .inl rfl, by simp⟩
  | cons d dsts ih =>
      rw [payFully]
      split
      · rename_i hstop
        refine ⟨h, by simp, fun _ d' hd' => ?_⟩
        simp only [List.head?_cons, Option.mem_def, Option.some.injEq] at hd'
        subst hd'
        exact hstop
      · rename_i hgo
        simp only [not_or, Nat.not_lt, ge_iff_le, Nat.not_le] at hgo
        -- A destination paid in full is an output of its own, or ends the one begun before.
        have hpaid (paid : List Nat) (hnext : Settles destinations paid dsts (index + 1))
            (hlast : dsts = [] → LimitMet options destinations inputs) :
            Yields (fun p => Settles destinations p.txDsts p.dsts p.originalOutputIndex ∧
                (p.dsts = [] → d :: dsts = [] ∨ LimitMet options destinations inputs) ∧
                (p.outSlotsExhausted = false → ∀ d ∈ p.dsts.head?, p.available < d ∨
                  options.weightLimit ≤ weightWith options inputs (p.txDsts.length + 1)))
              (payFully options inputs paid (index + 1) (available - d) dsts) := by
          apply (ih hnext (available - d)).mono
          rintro p ⟨hsettles, hmet, hleft⟩
          refine ⟨hsettles, fun hnil => .inr ?_, hleft⟩
          rcases hmet hnil with hdsts | hlimit
          · exact hlast hdsts
          · exact hlimit
        cases h with
        | whole h =>
            rw [addDestination_next, ok_bind]
            split
            · rename_i hfull
              split at hfull
              · exact ⟨.whole h, by simp, by simp⟩
              · cases hfull
            · rename_i paid hroom
              split at hroom
              · cases hroom
              · cases hroom
                rw [less_of_le hgo.1, ok_bind]
                apply hpaid
                · have hwhole : (txDsts ++ [d]) ++ dsts = destinations := by simpa using h
                  have hsettles := Settles.whole hwhole
                  rwa [List.length_append, List.length_singleton] at hsettles
                · rintro rfl
                  refine ⟨_, .inl rfl, ?_⟩
                  rw [← h]
                  simpa using hgo.2
        | @part paid _ x _ h =>
            rw [addDestination_part, ok_bind]
            simp only
            rw [less_of_le hgo.1, ok_bind]
            apply hpaid
            · have hwhole : (paid ++ [x + d]) ++ dsts = destinations := by simpa using h
              have hsettles := Settles.whole hwhole
              rwa [List.length_append, List.length_singleton] at hsettles
            · rintro rfl
              refine ⟨_, .inr rfl, ?_⟩
              rw [← h]
              simpa using hgo.2

theorem yields_payPartly {destinations : List Nat} {inputs : Nat} {p : Paid}
    (h : Settles destinations p.txDsts p.dsts p.originalOutputIndex)
    (hleft : p.outSlotsExhausted = false → ∀ d ∈ p.dsts.head?, p.available < d ∨
      options.weightLimit ≤ weightWith options inputs (p.txDsts.length + 1)) :
    Yields (fun p' => Settles destinations p'.txDsts p'.dsts p'.originalOutputIndex ∧
        (p'.dsts = [] → p.dsts = []))
      (payPartly options inputs p) := by
  obtain ⟨dsts, txDsts, index, available, exhausted⟩ := p
  dsimp only at h hleft
  unfold payPartly
  cases dsts with
  | nil => exact ⟨h, fun _ => rfl⟩
  | cons d dsts =>
      simp only
      split
      · rename_i hguard
        simp only [Bool.and_eq_true, Bool.not_eq_true', decide_eq_true_eq] at hguard
        have hlt : available < d := by
          rcases hleft hguard.1.1 d rfl with hlt | hheavy
          · exact hlt
          · exact absurd hguard.2 (Nat.not_lt.mpr hheavy)
        cases h with
        | whole h =>
            rw [addDestination_next, ok_bind]
            split
            · rename_i paid hroom
              split at hroom
              · cases hroom
              · cases hroom
                rw [less_of_le (Nat.le_of_lt hlt), ok_bind]
                have hsum : available + (d - available) = d := Nat.add_sub_cancel' (Nat.le_of_lt hlt)
                exact ⟨.part (by rw [hsum]; exact h), by simp⟩
            · exact ⟨.whole h, by simp⟩
        | @part paid _ x _ h =>
            rw [addDestination_part, ok_bind]
            simp only
            rw [less_of_le (Nat.le_of_lt hlt), ok_bind]
            have hsum : x + available + (d - available) = x + d := by omega
            exact ⟨.part (by rw [hsum]; exact h), by simp⟩
      · exact ⟨h, by simp⟩

/-! ### The invariant -/

/-- A refusal, which is how planning may end without a plan. -/
def Stop.Refusal : Stop → Prop
  | .refused _ => True
  | _ => False

/-- What a plan made by `plan` is. -/
structure MadeSound (transfers : List Transfer) (options : SpendOptions) (indices : List UInt32)
    (destinations : List Nat) (p : SpendPlan) : Prop where
  distinct : p.inputs.Nodup
  members : ∀ i ∈ p.inputs, ∃ t, transfers[i]? = some t ∧ eligible options indices t = true
  amounts : p.amounts = destinations
  fits : p.amounts.sum < 2 ^ 64
  balance : heldBy transfers p.inputs = saturatingAdd p.amounts.sum p.fee + p.change
  weight : p.estimatedWeight =
    weightWith options p.inputs.length (numOutputs p.amounts (heldBy transfers p.inputs))
  fee : p.fee = feeFromWeight options.feePerByte p.estimatedWeight
  limit : ∃ k ≤ p.inputs.length, LimitMet options destinations k
  kind : p.sweep = false ∧ p.leftBehind = 0

/-- The invariant of the loop. -/
structure Running (transfers : List Transfer) (options : SpendOptions) (indices : List UInt32)
    (destinations : List Nat) (s : PlanState) : Prop where
  stocked : Stocked transfers options indices s.groups s.preferred s.selected
  settles : Settles destinations s.txDsts s.dsts s.originalOutputIndex
  begun : s.owing = true ∨ s.selected ≠ []
  limit : s.dsts = [] → ∃ k ≤ s.selected.length, LimitMet options destinations k
  made : ∀ p, s.made = some p → MadeSound transfers options indices destinations p

section Loop

variable {destinations : List Nat} {s : PlanState}

/-- The new state differs in what is left to pick from. -/
structure Chose (transfers : List Transfer) (options : SpendOptions) (indices : List UInt32)
    (s : PlanState) (idx : Nat) (s' : PlanState) : Prop where
  stocked : Stocked transfers options indices s'.groups s'.preferred (s.selected ++ [idx])
  left : s'.left < s.left
  picks : s'.preferred = s.preferred.dropLast
  rest : s' = { s with groups := s'.groups, preferred := s'.preferred, rng := s'.rng }

/-- An output that was in the front group is taken out of it. -/
theorem Stocked.chose_front {g : UInt32 × List Nat} {tail : List (UInt32 × List Nat)}
    (h : Stocked transfers options indices s.groups s.preferred s.selected)
    (hgroups : s.groups = g :: tail) (hnone : s.preferred = []) {idx : Nat} {front' : List Nat}
    (hperm : g.2.Perm (idx :: front')) (rng : RandomSource) :
    Chose transfers options indices s idx ({ s with rng := rng }.setFront front') := by
  have hin : idx ∈ g.2 := hperm.symm.subset List.mem_cons_self
  have hset : ({ s with rng := rng }.setFront front').groups = (g.1, front') :: tail := by
    simp [PlanState.setFront, hgroups]
  rw [hgroups, hnone] at h
  have hapart := h.apart
  rw [List.flatMap_cons] at hapart
  refine ⟨?_, ?_, ?_, rfl⟩
  · rw [hset]
    show Stocked transfers options indices ((g.1, front') :: tail) s.preferred (s.selected ++ [idx])
    rw [hnone]
    apply h.take (.inr hperm) (List.Subset.refl _) ?_ ?_ (.inr hin)
    · have hselected : idx ∉ s.selected := by
        intro hmem
        exact (List.nodup_append.mp hapart).2.2 idx hmem idx (List.mem_append_left _ hin) rfl
      have hnodup : s.selected.Nodup := (List.nodup_append.mp hapart).1
      have hmiddle : (s.selected ++ [idx]).Perm (idx :: s.selected) := List.perm_append_singleton _ _
      rw [hmiddle.nodup_iff, List.nodup_cons]
      exact ⟨hselected, hnodup⟩
    · intro g' hg' hmem
      have hrest := (List.nodup_append.mp (List.nodup_append.mp hapart).2.1).2.2
      exact hrest idx hin idx (List.mem_flatMap.mpr ⟨g', hg', hmem⟩) rfl
  · have hlen := hperm.length_eq
    simp only [List.length_cons] at hlen
    show s.preferred.length + (({ s with rng := rng }.setFront front').groups.map
        fun g : UInt32 × List Nat => g.2.length).sum <
      s.preferred.length + (s.groups.map (·.2.length)).sum
    rw [hset, hgroups]
    simp only [List.map_cons, List.sum_cons]
    omega
  · show s.preferred = s.preferred.dropLast
    rw [hnone]
    rfl

theorem front_eq {g : UInt32 × List Nat} {tail : List (UInt32 × List Nat)}
    (hgroups : s.groups = g :: tail) : s.front = .ok g.2 := by
  simp [PlanState.front, hgroups, elemAt]

/-- **The next input** comes out of what is left to pick from. -/
theorem yields_chooseInput (h : Running transfers options indices destinations s)
    {g : UInt32 × List Nat} {tail : List (UInt32 × List Nat)} (hgroups : s.groups = g :: tail)
    (hfront : g.2 ≠ []) :
    Yields (fun out => ∀ idx s', out = some (idx, s') → Chose transfers options indices s idx s')
      (chooseInput transfers options s) := by
  have hwithin := h.stocked.within
  have hselected := h.stocked.within_selected
  have hfrontIn : Within transfers g.2 := by
    apply hwithin.subset
    intro i hi
    rw [hgroups, List.flatMap_cons]
    simp [hi]
  unfold chooseInput
  rw [front_eq hgroups, ok_bind]
  cases hlast : s.preferred.getLast? with
  | some p =>
      simp only
      have hsplit : s.preferred.dropLast ++ [p] = s.preferred := List.dropLast_append_getLast? p hlast
      rintro idx s' heq
      cases heq
      have hmem : p ∈ s.preferred := by
        rw [← hsplit]
        simp
      have hset : ({ s with preferred := s.preferred.dropLast }.setFront (popIfPresent g.2 p)).groups =
          (g.1, popIfPresent g.2 p) :: tail := by
        simp [PlanState.setFront, hgroups]
      have hcases := popIfPresent_cases g.2 p
      have hstocked := h.stocked
      have hpicks := hstocked.picks
      have htail := hstocked.frontOnly p hmem
      rw [hgroups] at hstocked htail
      refine ⟨?_, ?_, rfl, rfl⟩
      · rw [hset]
        apply hstocked.take hcases (List.dropLast_subset _) ?_ htail (.inl hmem)
        have hperm : (s.selected ++ p :: s.preferred.dropLast).Perm (s.selected ++ s.preferred) := by
          apply List.Perm.append_left
          conv_rhs => rw [← hsplit]
          exact (List.perm_append_singleton _ _).symm
        rw [hperm.nodup_iff]
        exact hpicks
      · have hshort : s.preferred.length = s.preferred.dropLast.length + 1 := by
          conv_lhs => rw [← hsplit]
          simp
        have hle : (popIfPresent g.2 p).length ≤ g.2.length := by
          rcases hcases with ⟨-, heq⟩ | hperm
          · rw [heq]
          · rw [hperm.length_eq]
            simp
        show s.preferred.dropLast.length + (({ s with preferred := s.preferred.dropLast }.setFront
          (popIfPresent g.2 p)).groups.map fun g : UInt32 × List Nat => g.2.length).sum <
            s.preferred.length + (s.groups.map (·.2.length)).sum
        rw [hset, hgroups]
        simp only [List.map_cons, List.sum_cons]
        omega
  | none =>
      have hnone : s.preferred = [] := List.getLast?_eq_none_iff.mp hlast
      simp only
      split
      · rename_i hidle
        simp only [Bool.and_eq_true, Bool.not_eq_true'] at hidle
        apply (yields_popBestValue hfrontIn hselected hfront true s.rng).bind
        rintro ⟨⟨second, rest⟩, rng⟩ hperm
        have hin : second ∈ g.2 := hperm.symm.subset List.mem_cons_self
        simp only
        have hheld : Yields (fun _ => True) (g.2.mapM (elemAt transfers)) :=
          (ends_mapM (P := fun _ _ => True) fun i hi =>
            (yields_elemAt (hfrontIn i hi)).mono fun _ _ => trivial).mono fun _ _ => trivial
        apply hheld.bind
        intro held _
        apply (yields_elemAt (hfrontIn second hin)).bind
        intro t _
        split
        · rintro idx s' heq
          cases heq
        · have hbegun : s.selected ≠ [] := by
            rcases h.begun with howing | hne
            · rw [hidle.1] at howing
              cases howing
            · exact hne
          apply (yields_elemAt (List.length_pos_iff.mpr hbegun)).bind
          intro first hfirst
          apply (yields_elemAt (hselected first (List.mem_of_getElem? hfirst))).bind
          intro u _
          split
          · rintro idx s' heq
            cases heq
          · rintro idx s' heq
            cases heq
            rcases popIfPresent_cases g.2 second with ⟨hnot, -⟩ | htaken
            · exact absurd hin hnot
            · exact h.stocked.chose_front hgroups hnone htaken _
      · apply (yields_popBestValue hfrontIn hselected hfront false s.rng).bind
        rintro ⟨⟨idx, rest⟩, rng⟩ hperm idx' s' heq
        cases heq
        exact h.stocked.chose_front hgroups hnone hperm rng

/-- The new input pays destinations, or goes to the fee. -/
theorem yields_spendInput {s : PlanState}
    (h : Settles destinations s.txDsts s.dsts s.originalOutputIndex) (available : Nat) :
    Yields (fun out => Settles destinations out.1.txDsts out.1.dsts out.1.originalOutputIndex ∧
        (out.1.dsts = [] → s.dsts = [] ∨ LimitMet options destinations s.selected.length) ∧
        out.1.groups = s.groups ∧ out.1.preferred = s.preferred ∧ out.1.selected = s.selected ∧
        out.1.made = s.made)
      (spendInput options s available) := by
  unfold spendInput
  split
  · exact ⟨h, .inl, rfl, rfl, rfl, rfl⟩
  · apply (yields_payFully h s.selected.length available).bind
    rintro p ⟨hsettles, hmet, hleft⟩
    apply (yields_payPartly hsettles hleft).bind
    rintro p' ⟨hsettles', hnil⟩
    exact ⟨hsettles', fun hp' => hmet (hnil hp'), rfl, rfl, rfl, rfl⟩

theorem ends_tryTx (s : PlanState) (exhausted : Bool) :
    Ends Stop.Refusal (fun _ => True) (tryTx options s exhausted) := by
  unfold tryTx
  split
  · exact trivial
  · split
    · exact trivial
    · split
      · exact trivial
      · simp only
        split
        · exact trivial
        · exact trivial

/-- **An attempt** makes a plan of what is selected, or begins to add to the fee, or refuses. -/
theorem ends_attempt (hfits : (transfers.map (·.amount)).sum < 2 ^ 64)
    (hpaid : destinations.sum < 2 ^ 64) (h : Running transfers options indices destinations s) :
    Ends Stop.Refusal (fun s' => Running transfers options indices destinations s' ∧ s'.left = s.left)
      (attempt transfers options s) := by
  have hwithin := h.stocked.within_selected
  have hnodup : s.selected.Nodup := (List.nodup_append.mp h.stocked.apart).1
  unfold attempt
  apply (yields_foundBy hnodup hwithin hfits).ends.bind
  rintro found rfl
  generalize hfee : feeFromWeight options.feePerByte (weightWith options s.selected.length
    (numOutputs s.txDsts (heldBy transfers s.selected))) = fee
  simp only [hfee]
  by_cases hcovers : heldBy transfers s.selected < saturatingAdd (wrap64 s.txDsts.sum) fee
  · rw [if_pos hcovers]
    exact ⟨⟨h.stocked, h.settles, h.begun, h.limit, h.made⟩, rfl⟩
  · rw [if_neg hcovers]
    split
    · exact trivial
    · rename_i hnone
      have hdsts : s.dsts = [] := by simpa using hnone
      have hamounts : s.txDsts = destinations := by
        have hsettles := h.settles
        rw [hdsts] at hsettles
        exact hsettles.done
      have hsum : wrap64 s.txDsts.sum = destinations.sum := by
        rw [hamounts]
        exact Nat.mod_eq_of_lt hpaid
      rw [hsum] at hcovers ⊢
      have hheld : heldBy transfers s.selected < 2 ^ 64 :=
        Nat.lt_of_le_of_lt (heldBy_le hnodup hwithin) hfits
      have hcovers := Nat.le_of_not_lt hcovers
      have hspare : destinations.sum ≤ heldBy transfers s.selected := by
        apply Nat.le_trans ?_ hcovers
        simp only [saturatingAdd, u64Max]
        omega
      rw [less_of_le hspare, less_of_le hcovers, ok_bind, ok_bind]
      refine ⟨⟨h.stocked, h.settles, h.begun, h.limit, ?_⟩, rfl⟩
      rintro p heq
      cases heq
      refine ⟨hnodup, ?_, hamounts, ?_, ?_, rfl, hfee.symm, h.limit hdsts, rfl, rfl⟩
      · intro i hi
        exact h.stocked.members i (List.mem_append_left _ hi)
      · simp only [hamounts]
        exact hpaid
      · simp only [hamounts]
        exact (Nat.add_sub_cancel' hcovers).symm

theorem running_nextGroup (h : Running transfers options indices destinations s) :
    Running transfers options indices destinations (nextGroup s) ∧ (nextGroup s).left = s.left := by
  unfold nextGroup
  split
  · rename_i g g' tail hgroups
    split
    · rename_i hnext
      simp only [Bool.and_eq_true, List.isEmpty_iff] at hnext
      have hstocked := h.stocked
      rw [hgroups] at hstocked
      refine ⟨⟨hstocked.next hnext.2, h.settles, h.begun, h.limit, h.made⟩, ?_⟩
      simp [PlanState.left, hgroups, hnext.2]
    · exact ⟨h, rfl⟩
  · exact ⟨h, rfl⟩

/-- **One turn** keeps the invariant, and leaves less to take. -/
theorem ends_planTurn (hfits : (transfers.map (·.amount)).sum < 2 ^ 64)
    (hpaid : destinations.sum < 2 ^ 64) (h : Running transfers options indices destinations s)
    (unlockedSubtotal neededMoney : Nat) :
    Ends Stop.Refusal (fun out => ∀ s', out = some s' →
        Running transfers options indices destinations s' ∧ s'.left < s.left)
      (planTurn transfers options unlockedSubtotal neededMoney s) := by
  obtain ⟨g, tail, hgroups⟩ := List.exists_cons_of_ne_nil h.stocked.standing
  unfold planTurn
  rw [front_eq hgroups, ok_bind]
  split
  · exact trivial
  · rename_i hne
    have hfront : g.2 ≠ [] := by simpa using hne
    apply (yields_chooseInput h hgroups hfront).ends.bind
    intro out hchose
    cases out with
    | none =>
        rintro s' heq
        cases heq
    | some chosen =>
        obtain ⟨idx, s₁⟩ := chosen
        have hchose := hchose idx s₁ rfl
        obtain ⟨groups, preferred, rng, rfl⟩ : ∃ groups preferred rng,
            s₁ = { s with groups := groups, preferred := preferred, rng := rng } :=
          ⟨_, _, _, hchose.rest⟩
        have hidx : idx < transfers.length := by
          apply hchose.stocked.within_selected
          simp
        simp only
        apply (yields_elemAt hidx).ends.bind
        intro t _
        apply (yields_spendInput (s := { s with
            groups := groups, preferred := preferred, rng := rng, selected := s.selected ++ [idx] })
          h.settles t.amount).ends.bind
        rintro ⟨s₂, exhausted⟩ ⟨hsettles, hmet, hsame, hsame', hsel, hmade⟩
        simp only at hsettles hmet hsame hsame' hsel hmade ⊢
        have hrunning : Running transfers options indices destinations s₂ := by
          refine ⟨?_, hsettles, ?_, ?_, ?_⟩
          · rw [hsame, hsame', hsel]
            exact hchose.stocked
          · right
            rw [hsel]
            simp
          · intro hnil
            rw [hsel, List.length_append, List.length_singleton]
            rcases hmet hnil with hdsts | hlimit
            · obtain ⟨k, hk, hlimit⟩ := h.limit hdsts
              exact ⟨k, by omega, hlimit⟩
            · rw [List.length_append, List.length_singleton] at hlimit
              exact ⟨_, Nat.le_refl _, hlimit⟩
          · rw [hmade]
            exact h.made
        have hleft : s₂.left < s.left := by
          have hleft := hchose.left
          unfold PlanState.left at hleft ⊢
          rw [hsame, hsame']
          exact hleft
        apply (ends_tryTx s₂ exhausted).bind
        intro attempted _
        have hlast (s₃ : PlanState) (h₃ : Running transfers options indices destinations s₃ ∧
            s₃.left = s₂.left) : Ends Stop.Refusal (fun out => ∀ s', out = some s' →
              Running transfers options indices destinations s' ∧ s'.left < s.left)
            (pure (some (nextGroup s₃)) : Except Stop (Option PlanState)) := by
          rintro s' hs'
          cases hs'
          obtain ⟨hnext, hsame⟩ := running_nextGroup h₃.1
          refine ⟨hnext, ?_⟩
          omega
        cases attempted with
        | false => exact hlast s₂ ⟨hrunning, rfl⟩
        | true => exact (ends_attempt hfits hpaid hrunning).bind hlast

theorem yields_goesOn (h : Running transfers options indices destinations s) :
    Yields (fun _ => True) s.goesOn := by
  obtain ⟨g, tail, hgroups⟩ := List.exists_cons_of_ne_nil h.stocked.standing
  unfold PlanState.goesOn
  split
  · exact trivial
  · split
    · rw [front_eq hgroups]
      exact trivial
    · exact trivial

/-- **The loop** ends, as there is less to take at every turn. -/
theorem ends_planLoop (hfits : (transfers.map (·.amount)).sum < 2 ^ 64)
    (hpaid : destinations.sum < 2 ^ 64) (unlockedSubtotal neededMoney : Nat) {fuel : Nat}
    (h : Running transfers options indices destinations s) (hfuel : s.left < fuel) :
    Ends Stop.Refusal (Running transfers options indices destinations)
      (planLoop transfers options unlockedSubtotal neededMoney fuel s) := by
  induction fuel generalizing s with
  | zero => exact absurd hfuel (Nat.not_lt_zero _)
  | succ fuel ih =>
      rw [planLoop]
      apply (yields_goesOn h).ends.bind
      intro goesOn _
      split
      · apply (ends_planTurn hfits hpaid h unlockedSubtotal neededMoney).bind
        intro out hout
        cases out with
        | none => exact h
        | some s' =>
            obtain ⟨hrunning, hless⟩ := hout s' rfl
            exact ih hrunning (by omega)
      · exact h

/-- What is made of the state the loop starts in. -/
theorem running_start (hdestinations : destinations ≠ []) (hpositive : 0 ∉ destinations)
    (h : Stocked transfers options indices s.groups s.preferred [])
    {rng : RandomSource} (heq : s = { groups := s.groups, preferred := s.preferred,
                                      dsts := destinations, rng := rng }) :
    Running transfers options indices destinations s := by
  obtain ⟨d, dsts, rfl⟩ := List.exists_cons_of_ne_nil hdestinations
  have hpos : 0 < d := Nat.pos_of_ne_zero fun h => hpositive (h ▸ List.mem_cons_self)
  rw [heq]
  refine ⟨h, .whole rfl, .inl ?_, ?_, ?_⟩
  · simpa [PlanState.owing] using hpos
  · intro hnil
    cases hnil
  · intro p hp
    cases hp

/-- **`plan`** ends with a refusal or with a plan that is sound. -/
theorem ends_plan (hfits : (transfers.map (·.amount)).sum < 2 ^ 64) (destinations : List Nat)
    (rng : RandomSource) :
    Ends Stop.Refusal
      (MadeSound transfers options (planIndices transfers options) destinations)
      (plan transfers options destinations rng) := by
  unfold plan
  dsimp only
  refine ends_ite (fun _ => trivial) fun hdestinations => ?_
  refine ends_ite (fun _ => trivial) fun hpositive => ?_
  refine ends_ite (fun _ => trivial) fun _ => ?_
  cases hchecked : checkedSum 0 destinations with
  | none => exact trivial
  | some sum =>
      rw [checkedSum_eq_some (Nat.zero_le _), Nat.zero_add] at hchecked
      obtain ⟨rfl, hmax⟩ := hchecked
      have hpaid : destinations.sum < 2 ^ 64 := by
        unfold u64Max at hmax
        omega
      dsimp only
      -- What the early check compares is of no matter to the plan.
      generalize min (subtotal (planIndices transfers options) (planBalance transfers options))
        (subtotal (planIndices transfers options) (unlockedPerSubaddress transfers options)) = funds
      generalize saturatingMul options.feePerByte _ = minFee
      refine ends_ite (fun _ => trivial) fun _ => ?_
      refine ends_ite (fun _ => trivial) fun hgroups => ?_
      apply (stocked_start transfers options _ destinations rng (by simpa using hgroups)).ends.bind
      rintro start ⟨hstocked, heq⟩
      have hrunning :=
        running_start (by simpa using hdestinations) (by simpa using hpositive) hstocked heq
      apply (ends_planLoop hfits hpaid _ _ hrunning (Nat.lt_succ_self _)).bind
      intro s hs
      refine ends_ite (fun _ => trivial) fun _ => ?_
      cases hmade : s.made with
      | none => exact trivial
      | some p => exact hs.made p hmade

end Loop

end

end Wownero.Planning
