import Wownero.PlanSound
/-!
# Sweeps are sound

A sweep files the outputs it may take by subaddress, chooses some and takes them one at a time until
they weigh too much.  What it takes is distinct and may be spent, the one amount and the fee are what
it holds, and there is less to take at every turn, so it ends.
-/

namespace Wownero.Planning

open Outcome

variable {transfers : List Transfer} {options : SpendOptions}

/-! ### What a sweep takes from -/

theorem sweepable_spendable {t : Transfer} (h : sweepable options t = true) :
    spendableNow options t = true ∧ t.subaddress.major = options.account := by
  simp only [sweepable, Bool.and_eq_true, beq_iff_eq] at h
  exact ⟨h.1.1.2, h.1.2⟩

/-- Outputs that may be swept, each once. -/
structure Sweepables (transfers : List Transfer) (options : SpendOptions) (l : List Nat) : Prop where
  nodup : l.Nodup
  members : ∀ i ∈ l, ∃ t, transfers[i]? = some t ∧ sweepable options t = true

theorem Sweepables.within {l : List Nat} (h : Sweepables transfers options l) :
    Within transfers l := by
  intro i hi
  obtain ⟨t, ht, -⟩ := h.members i hi
  exact (List.getElem?_eq_some_iff.mp ht).1

theorem Sweepables.sublist {l l' : List Nat} (h : Sweepables transfers options l)
    (hsub : l'.Sublist l) : Sweepables transfers options l' :=
  ⟨h.nodup.sublist hsub, fun i hi => h.members i (hsub.subset hi)⟩

theorem Sweepables.perm {l l' : List Nat} (h : Sweepables transfers options l) (hperm : l'.Perm l) :
    Sweepables transfers options l' :=
  ⟨hperm.nodup_iff.mpr h.nodup, fun i hi => h.members i (hperm.subset hi)⟩

theorem sweepables_nil : Sweepables transfers options [] := ⟨List.nodup_nil, by simp⟩

/-- Each subaddress is filed with outputs of its own among the first `n`. -/
structure FiledByMinor (transfers : List Transfer) (options : SpendOptions) (n : Nat)
    (byMinor : Table UInt32 (List Nat)) : Prop where
  nodup : ∀ minor l, byMinor.get minor = some l → l.Nodup
  members : ∀ minor l, byMinor.get minor = some l → ∀ i ∈ l, i < n ∧ ∃ t, transfers[i]? = some t ∧
    sweepable options t = true ∧ t.subaddress.minor = minor

theorem FiledByMinor.file {n : Nat} {byMinor : Table UInt32 (List Nat)}
    (h : FiledByMinor transfers options n byMinor) {t : Transfer} (ht : transfers[n]? = some t)
    (hsweepable : sweepable options t = true) :
    FiledByMinor transfers options (n + 1) (byMinor.put t.subaddress.minor
      ((byMinor.get t.subaddress.minor).getD [] ++ [n])) := by
  -- What is filed there already lies below the output's index.
  have hheld : ∀ i ∈ (byMinor.get t.subaddress.minor).getD [], i < n ∧ ∃ t', transfers[i]? = some t' ∧
      sweepable options t' = true ∧ t'.subaddress.minor = t.subaddress.minor := by
    intro i hi
    cases hget : byMinor.get t.subaddress.minor with
    | none => simp [hget] at hi
    | some l =>
        rw [hget, Option.getD_some] at hi
        exact h.members _ l hget i hi
  have hnodup : ((byMinor.get t.subaddress.minor).getD []).Nodup := by
    cases hget : byMinor.get t.subaddress.minor with
    | none => exact List.nodup_nil
    | some l => exact h.nodup _ l hget
  constructor
  · intro minor l hget
    rw [Table.get_put] at hget
    split at hget
    · cases hget
      apply hnodup.append (List.nodup_singleton n)
      intro i hi hn
      rw [List.mem_singleton] at hn
      have hlt := (hheld i hi).1
      omega
    · exact h.nodup minor l hget
  · intro minor l hget i hi
    rw [Table.get_put] at hget
    split at hget
    · rename_i hminor
      cases hget
      rcases List.mem_append.mp hi with hi | hi
      · obtain ⟨hlt, t', ht', hs, hm⟩ := hheld i hi
        exact ⟨by omega, t', ht', hs, hm.trans hminor.symm⟩
      · rw [List.mem_singleton] at hi
        subst hi
        exact ⟨by omega, t, ht, hsweepable, hminor.symm⟩
    · obtain ⟨hlt, t', ht', hrest⟩ := h.members minor l hget i hi
      exact ⟨by omega, t', ht', hrest⟩

theorem filedByMinor_foldl {before rest : List Transfer} (hsplit : transfers = before ++ rest)
    {byMinor : Table UInt32 (List Nat)}
    (h : FiledByMinor transfers options before.length byMinor) :
    FiledByMinor transfers options transfers.length
      ((rest.zipIdx before.length).foldl (fun byMinor p =>
        if sweepable options p.1 &&
            (options.sweepBelow == 0 || decide (p.1.amount < options.sweepBelow)) then
          byMinor.put p.1.subaddress.minor ((byMinor.get p.1.subaddress.minor).getD [] ++ [p.2])
        else byMinor) byMinor) := by
  induction rest generalizing before byMinor with
  | nil =>
      rw [List.append_nil] at hsplit
      rw [hsplit] at h ⊢
      exact h
  | cons t rest ih =>
      have ht : transfers[before.length]? = some t := by simp [hsplit]
      have hnext : transfers = (before ++ [t]) ++ rest := by simpa using hsplit
      have hlength : (before ++ [t]).length = before.length + 1 := by simp
      rw [List.zipIdx_cons, List.foldl_cons, ← hlength]
      apply ih hnext
      rw [hlength]
      split
      · rename_i htaken
        simp only [Bool.and_eq_true] at htaken
        exact h.file ht htaken.1
      · exact ⟨h.nodup, fun minor l hget i hi =>
          ⟨Nat.lt_succ_of_lt (h.members minor l hget i hi).1, (h.members minor l hget i hi).2⟩⟩

theorem filedByMinor_outputsByMinor (transfers : List Transfer) (options : SpendOptions) :
    FiledByMinor transfers options transfers.length (outputsByMinor transfers options) := by
  have hsplit : transfers = [] ++ transfers := rfl
  apply filedByMinor_foldl hsplit
  exact ⟨by simp, by simp⟩

theorem FiledByMinor.sweepables_get {n : Nat} {byMinor : Table UInt32 (List Nat)}
    (h : FiledByMinor transfers options n byMinor) {minor : UInt32} {l : List Nat}
    (hget : byMinor.get minor = some l) : Sweepables transfers options l := by
  refine ⟨h.nodup minor l hget, fun i hi => ?_⟩
  obtain ⟨-, t, ht, hs, -⟩ := h.members minor l hget i hi
  exact ⟨t, ht, hs⟩

/-- No output is filed under two subaddresses. -/
theorem FiledByMinor.sweepables_all {n : Nat} {byMinor : Table UInt32 (List Nat)}
    (h : FiledByMinor transfers options n byMinor) :
    Sweepables transfers options (byMinor.rows.flatMap (·.2)) := by
  have hrow : ∀ row ∈ byMinor.rows, byMinor.get row.1 = some row.2 := fun row hmem =>
    (byMinor.mem_iff row.1 row.2).mp hmem
  constructor
  · rw [List.nodup_flatMap]
    refine ⟨fun row hmem => h.nodup row.1 row.2 (hrow row hmem), ?_⟩
    apply byMinor.ascending.imp_of_mem
    intro a b ha hb hlt i hia hib
    obtain ⟨-, t, ht, -, hminor⟩ := h.members a.1 a.2 (hrow a ha) i hia
    obtain ⟨-, t', ht', -, hminor'⟩ := h.members b.1 b.2 (hrow b hb) i hib
    rw [ht, Option.some.injEq] at ht'
    subst ht'
    rw [RowLt, ← hminor, ← hminor'] at hlt
    exact absurd hlt (Nat.lt_irrefl _)
  · intro i hi
    obtain ⟨row, hmem, hin⟩ := List.mem_flatMap.mp hi
    exact (h.sweepables_get (hrow row hmem)).members i hin

/-- **What a sweep chooses** may all be swept. -/
theorem sweepables_chooseSwept (transfers : List Transfer) (options : SpendOptions)
    (rng : RandomSource) :
    Sweepables transfers options (chooseSwept options (outputsByMinor transfers options) rng).1 := by
  have hfiled := filedByMinor_outputsByMinor transfers options
  unfold chooseSwept
  split
  · dsimp only
    generalize hkept : (if (outputsByMinor transfers options).size > 1 then
      (outputsByMinor transfers options).del 0 else outputsByMinor transfers options) = kept
    have hget : ∀ minor l, kept.get minor = some l →
        (outputsByMinor transfers options).get minor = some l := by
      intro minor l hl
      rw [← hkept] at hl
      split at hl
      · rw [Table.get_del] at hl
        split at hl
        · cases hl
        · exact hl
      · exact hl
    generalize (rng.below kept.size).1 = pick
    cases hpick : (kept.rows.map (·.2))[pick]? with
    | none =>
        rw [List.getD_eq_getElem?_getD, hpick]
        exact sweepables_nil
    | some l =>
        rw [List.getD_eq_getElem?_getD, hpick]
        obtain ⟨row, hmem, rfl⟩ := List.mem_map.mp (List.mem_of_getElem? hpick)
        exact hfiled.sweepables_get (hget row.1 row.2 ((kept.mem_iff row.1 row.2).mp hmem))
  · exact hfiled.sweepables_all

/-! ### Taking them -/

/-- **The loop of `plan_sweep`** ends, with outputs that may all be swept. -/
theorem yields_sweepLoop {fuel : Nat} {unused selected : List Nat} (hfuel : unused.length ≤ fuel)
    (h : Sweepables transfers options (selected ++ unused)) (rng : RandomSource) :
    Yields (fun out => Sweepables transfers options out.1)
      (sweepLoop transfers options fuel unused selected rng) := by
  have hselected := h.sublist (List.sublist_append_left selected unused)
  have hunused := h.sublist (List.sublist_append_right selected unused)
  induction fuel generalizing unused selected rng with
  | zero =>
      have hnil : unused = [] := List.length_eq_zero_iff.mp (Nat.le_zero.mp hfuel)
      subst hnil
      rw [sweepLoop]
      exact hselected
  | succ fuel ih =>
      rw [sweepLoop]
      split
      · exact hselected
      · rename_i hne
        apply (yields_popBestValue hunused.within hselected.within (by simpa using hne) false rng).bind
        rintro ⟨⟨idx, rest⟩, rng'⟩ hperm
        dsimp only at hperm ⊢
        have hmoved : Sweepables transfers options ((selected ++ [idx]) ++ rest) := by
          apply h.perm
          rw [List.append_assoc]
          exact (hperm.symm.append_left selected)
        have htaken := hmoved.sublist (List.sublist_append_left (selected ++ [idx]) rest)
        refine ends_ite (fun _ => htaken) fun _ => ?_
        have hshorter : rest.length ≤ fuel := by
          have hlength := hperm.length_eq
          simp only [List.length_cons] at hlength
          omega
        exact ih hshorter hmoved rng' htaken
          (hmoved.sublist (List.sublist_append_right (selected ++ [idx]) rest))

/-- What a plan of a sweep is: everything its inputs hold goes to the fee and to one amount. -/
structure SweepSound (transfers : List Transfer) (options : SpendOptions) (p : SpendPlan) : Prop where
  distinct : p.inputs.Nodup
  one : ∃ amount, p.amounts = [amount]
  change : p.change = 0
  balance : heldBy transfers p.inputs = p.amounts.sum + p.fee
  weight : p.estimatedWeight = weightWith options p.inputs.length p.outputCount
  fee : p.fee = feeFromWeight options.feePerByte p.estimatedWeight
  kind : p.sweep = true

/-- The plan both sweeps answer with. -/
theorem sweepSound {inputs : List Nat} (hdistinct : inputs.Nodup) {amount fee left : Nat}
    (hheld : heldBy transfers inputs = amount + fee)
    (hfee : fee = feeFromWeight options.feePerByte (weightWith options inputs.length minOutputs)) :
    SweepSound transfers options
      ⟨⟨inputs, [amount], 0, fee⟩, weightWith options inputs.length minOutputs, true, left⟩ :=
  ⟨hdistinct, ⟨amount, rfl⟩, rfl, by simpa using hheld, rfl, hfee, rfl⟩

/-- **`plan_sweep`** ends with a refusal or with a plan that is sound. -/
theorem ends_planSweep (hfits : (transfers.map (·.amount)).sum < 2 ^ 64) (rng : RandomSource) :
    Ends Stop.Refusal (fun p => SweepSound transfers options p ∧ ∀ i ∈ p.inputs, ∃ t,
        transfers[i]? = some t ∧ spendableNow options t = true ∧ t.subaddress.major = options.account)
      (planSweep transfers options rng) := by
  unfold planSweep
  dsimp only
  generalize wrap64 (List.sum _) = unlockedBalance
  refine ends_ite (fun _ => trivial) fun _ => ?_
  refine ends_ite (fun _ => trivial) fun _ => ?_
  refine ends_ite (fun _ => trivial) fun _ => ?_
  have hchosen := sweepables_chooseSwept transfers options rng
  generalize chooseSwept options (outputsByMinor transfers options) rng = chosen at hchosen ⊢
  obtain ⟨unused, rng'⟩ := chosen
  dsimp only at hchosen ⊢
  apply (yields_sweepLoop (Nat.le_refl _) (by simpa using hchosen) rng').ends.bind
  rintro ⟨selected, left⟩ hselected
  dsimp only at hselected ⊢
  apply (yields_foundBy hselected.nodup hselected.within hfits).ends.bind
  rintro found rfl
  generalize hfee : feeFromWeight options.feePerByte
    (weightWith options selected.length minOutputs) = fee
  refine ends_ite (fun _ => trivial) fun hcovers => ?_
  have hcovers : fee ≤ heldBy transfers selected := Nat.le_of_not_le hcovers
  rw [less_of_le hcovers, ok_bind]
  refine ⟨sweepSound hselected.nodup (Nat.sub_add_cancel hcovers).symm hfee.symm, ?_⟩
  intro i hi
  obtain ⟨t, ht, hsweepable⟩ := hselected.members i hi
  exact ⟨t, ht, sweepable_spendable hsweepable⟩

/-- **`plan_sweep_single`** ends with a refusal or with a plan of the output asked for. -/
theorem ends_planSweepSingle (keyImage : KeyImage) :
    Ends Stop.Refusal (fun p => SweepSound transfers options p ∧ ∀ i ∈ p.inputs, ∃ t,
        transfers[i]? = some t ∧ t.keyImage = some keyImage ∧ t.spent = false ∧
          unlocked t options = true)
      (planSweepSingle transfers options keyImage) := by
  unfold planSweepSingle
  cases hfind : transfers.findIdx? fun t => t.keyImage == some keyImage with
  | none => exact trivial
  | some index =>
      obtain ⟨hindex, hat, -⟩ := List.findIdx?_eq_some_iff_getElem.mp hfind
      have ht : transfers[index]? = some transfers[index] := List.getElem?_eq_getElem hindex
      dsimp only
      rw [pure_bind, elemAt_of_getElem? ht, ok_bind]
      refine ends_ite (fun _ => trivial) fun hspent => ?_
      refine ends_ite (fun _ => trivial) fun hlocked => ?_
      generalize hfee : feeFromWeight options.feePerByte (weightWith options 1 minOutputs) = fee
      refine ends_ite (fun _ => trivial) fun hcovers => ?_
      have hcovers : fee ≤ transfers[index].amount := Nat.le_of_not_le hcovers
      have hheld : heldBy transfers [index] = transfers[index].amount - fee + fee := by
        rw [Nat.sub_add_cancel hcovers]
        simp [heldBy, ht]
      rw [less_of_le hcovers, ok_bind]
      refine ⟨sweepSound (List.nodup_singleton index) hheld hfee.symm, ?_⟩
      intro i hi
      rw [List.mem_singleton] at hi
      subst hi
      exact ⟨_, ht, by simpa using hat, by simpa using hspent, by simpa using hlocked⟩

/-! ### All three -/

/-- The clawback is no difference below zero. -/
theorem bpSize_le {log : Nat} (h : 2 ≤ log) : bpSize log ≤ bpBase * 2 ^ log := by
  induction log, h using Nat.le_induction with
  | base => decide
  | succ log h ih =>
      have hpow : 1 ≤ 2 ^ log := Nat.one_le_two_pow
      simp only [bpSize, bpBase, Nat.pow_succ] at ih ⊢
      omega

theorem clawbackNlr_ge (n fuel log : Nat) : log ≤ clawbackNlr n fuel log := by
  induction fuel generalizing log with
  | zero => exact Nat.le_refl log
  | succ fuel ih =>
      rw [clawbackNlr]
      split
      · exact Nat.le_trans (Nat.le_succ log) (ih (log + 1))
      · exact Nat.le_refl log

/-- Short of the most a `u64` holds, the inputs hold the amounts, the change and the fee. -/
theorem MadeSound.exact {indices : List UInt32} {destinations : List Nat} {p : SpendPlan}
    (h : MadeSound transfers options indices destinations p)
    (hheld : heldBy transfers p.inputs < u64Max) :
    heldBy transfers p.inputs = p.amounts.sum + p.change + p.fee := by
  have hbalance := h.balance
  unfold saturatingAdd at hbalance
  omega

/-- The fee is for the plan's own outputs, but where two amounts or more leave no change. -/
theorem MadeSound.outputs {indices : List UInt32} {destinations : List Nat} {p : SpendPlan}
    (h : MadeSound transfers options indices destinations p)
    (hcount : 0 < p.change ∨ p.fee = 0 ∨ p.amounts.length = 1) :
    p.estimatedWeight = weightWith options p.inputs.length p.outputCount := by
  have hsum : wrap64 p.amounts.sum = p.amounts.sum := Nat.mod_eq_of_lt h.fits
  have hle : p.amounts.sum ≤ u64Max := Nat.le_of_lt_succ h.fits
  have hbalance := h.balance
  unfold saturatingAdd at hbalance
  rw [h.weight]
  congr 1
  unfold numOutputs SpendPlan.outputCount
  rw [hsum]
  rcases hcount with hchange | hfee | hone
  · rw [if_pos (by omega), if_pos hchange]
  · by_cases hchange : 0 < p.change
    · rw [if_pos (by omega), if_pos hchange]
    · rw [if_neg (by omega), if_neg hchange]
  · rw [hone, minOutputs]
    split <;> split <;> rfl

/-- **Plans are sound**, of all three planners: they end, without a panic, in a refusal or in a plan of
    distinct outputs that may be spent, which hold its amounts, its change and its fee. -/
theorem planners_sound (transfers : List Transfer) (hfits : (transfers.map (·.amount)).sum < 2 ^ 64)
    (options : SpendOptions) (rng : RandomSource) :
    (∀ destinations, Ends Stop.Refusal (fun p =>
        MadeSound transfers options (planIndices transfers options) destinations p ∧
        (heldBy transfers p.inputs < u64Max →
          heldBy transfers p.inputs = p.amounts.sum + p.change + p.fee) ∧
        (0 < p.change ∨ p.fee = 0 ∨ p.amounts.length = 1 →
          p.estimatedWeight = weightWith options p.inputs.length p.outputCount))
      (plan transfers options destinations rng)) ∧
    Ends Stop.Refusal (fun p => SweepSound transfers options p ∧ ∀ i ∈ p.inputs, ∃ t,
        transfers[i]? = some t ∧ spendableNow options t = true ∧ t.subaddress.major = options.account)
      (planSweep transfers options rng) ∧
    (∀ keyImage, Ends Stop.Refusal (fun p => SweepSound transfers options p ∧ ∀ i ∈ p.inputs, ∃ t,
        transfers[i]? = some t ∧ t.keyImage = some keyImage ∧ t.spent = false ∧
          unlocked t options = true)
      (planSweepSingle transfers options keyImage)) ∧
    ∀ n, bpSize (clawbackLog n) ≤ bpBase * 2 ^ clawbackLog n := by
  refine ⟨fun destinations => ?_, ends_planSweep hfits rng, ends_planSweepSingle, fun n => ?_⟩
  · apply (ends_plan hfits destinations rng).mono
    intro p hmade
    exact ⟨hmade, hmade.exact, hmade.outputs⟩
  · exact bpSize_le (clawbackNlr_ge n 64 2)

end Wownero.Planning

namespace Wownero.Sample

open Planning

/-- An output of the main address. -/
def ownOutput (amount : Nat) (frozen : Bool) : Transfer :=
  { blockHeight := 1, txid := 1, internalOutputIndex := 0, globalOutputIndex := 1, publicKey := 1
    derivation := 0, txPublicKey := 1, additionalTxKeys := [], keyImage := some 1
    keyImageRequest := false, mask := 0, amount := amount, subaddress := ⟨0, 0⟩, spent := false
    spentHeight := 0, unlockTime := 0, isCoinbase := false, timestamp := 0, paymentId := none
    frozen := frozen }

def atThousand : SpendOptions := { feePerByte := 1, chainHeight := 1000, now := 1 }

def firstDraws : Planning.RandomSource := { draws := fun _ => 0 }

theorem planners_sound_ownOutput :
    Outcome.Ends Stop.Refusal (fun p => SweepSound [ownOutput 10000 false] atThousand p ∧
        ∀ i ∈ p.inputs, ∃ t, [ownOutput 10000 false][i]? = some t ∧
          spendableNow atThousand t = true ∧ t.subaddress.major = atThousand.account)
      (planSweep [ownOutput 10000 false] atThousand firstDraws) :=
  (planners_sound [ownOutput 10000 false] (by decide) atThousand firstDraws).2.1

/-- Two amounts that leave no change pay for an output more than there are; one output that is swept
    may be frozen; the estimate may pass the limit, as change is not counted where the limit is looked
    at; and amounts and fee may be more than the most a `u64` holds. -/
theorem plans_not_as_counted :
    (∃ p, plan [ownOutput 10000 false] atThousand [1000, 6000] firstDraws = .ok p ∧
      p.fee ≠ feeFromWeight atThousand.feePerByte
        (weightWith atThousand p.inputs.length p.outputCount)) ∧
    (∃ p, planSweepSingle [ownOutput 10000 true] atThousand 1 = .ok p ∧
      ∃ i ∈ p.inputs, ∃ t, [ownOutput 10000 true][i]? = some t ∧ t.frozen = true) ∧
    (∃ p, plan [ownOutput 10000 false] { atThousand with weightLimit := 1700 } [1000] firstDraws =
        .ok p ∧ 1700 ≤ p.estimatedWeight) ∧
    ∃ p, plan [ownOutput u64Max false] { atThousand with feePerByte := u64Max } [1000] firstDraws =
        .ok p ∧ heldBy [ownOutput u64Max false] p.inputs ≠ p.amounts.sum + p.change + p.fee := by
  refine ⟨⟨⟨⟨[0], [1000, 6000], 0, 3000⟩, 2343, false, 0⟩, ?_, ?_⟩,
    ⟨⟨⟨[0], [8000], 0, 2000⟩, 1740, true, 0⟩, ?_, 0, ?_, ownOutput 10000 true, ?_, ?_⟩,
    ⟨⟨⟨[0], [1000], 7000, 2000⟩, 1740, false, 0⟩, ?_, ?_⟩,
    ⟨⟨⟨[0], [1000], 0, 18446744073709551000⟩, 1740, false, 0⟩, ?_, ?_⟩⟩
  all_goals decide +kernel

end Wownero.Sample
