import Wownero.Block
import Wownero.Codec
import Wownero.Fee
import Wownero.Varint
/-!
# The weight of a transaction

The bytes of the transaction and, for a batched range proof over more than two outputs, most of what
single proofs would have taken.  The padded number of outputs is a power of two that the sender chooses
with the length of the proof, so the sums are followed to their extremes.
-/

namespace Wownero

open Outcome Wownero.Archive

/-! ### Words -/

/-- The `while (1 << nlr) < n_padded_outputs` of the clawback; `none` is a shift that overflows. -/
def clawbackNlrChecked (nPadded : Nat) : Nat → Nat → Option Nat
  | 0, _ => none
  | fuel + 1, nlr => do
      if (← checkedShl 64 1 nlr) < nPadded then clawbackNlrChecked nPadded fuel (nlr + 1)
      else some nlr

/-- `clawback`, or `none` where a shift or a product overflows. -/
def clawbackChecked (ty : RctType) (nPadded : Nat) : Option Nat :=
  let fields := if ty.isBulletproofPlus then 6 else 9
  let bpBase := 32 * (fields + 7 * 2) / 2
  if nPadded ≤ 2 then some 0
  else do
    let nlr ← clawbackNlrChecked nPadded 65 0
    let bpSize := 32 * (fields + 2 * (nlr + 6))
    return (← checkedMul (saturatingMul bpBase nPadded - bpSize) 4) / 5

/-- `get_transaction_weight`, or `none` where it overflows. -/
def getTransactionWeightChecked (tx : Transaction) (blobSize : Nat) : Option Nat :=
  let ty := tx.rctSignatures.ty
  if tx.txPrefix.version < 2 then some blobSize
  else if !ty.isBulletproof && !ty.isBulletproofPlus then some blobSize
  else if tx.txPrefix.vout.length ≤ 2 then some blobSize
  else if ty.isOldBulletproof then some blobSize
  else
    match tx.rctSignatures.nPaddedOutputs with
    | none => some blobSize
    | some nPadded => do checkedAdd blobSize (← clawbackChecked ty nPadded)

/-! ### The formula -/

/-- The types whose range proofs are batched behind a count. -/
def RctType.isBatched (ty : RctType) : Bool :=
  (ty.isBulletproof || ty.isBulletproofPlus) && !ty.isOldBulletproof

/-- The `L` of each range proof. -/
def RctSignatures.proofLs (rv : RctSignatures) : List (List EcPoint) :=
  if rv.ty.isBulletproofPlus then rv.bulletproofsPlus.map (·.l) else rv.bulletproofs.map (·.l)

/-- A transaction that pays for its padded outputs. -/
structure Transaction.Charged (tx : Transaction) : Prop where
  version : 2 ≤ tx.txPrefix.version
  batched : tx.rctSignatures.ty.isBatched = true
  outputs : 2 < tx.txPrefix.vout.length

/-- What `2 ^ k` padded outputs cost over the bytes. -/
def charge (ty : RctType) (k : Nat) : Nat :=
  let fields := if ty.isBulletproofPlus then 6 else 9
  let base := if ty.isBulletproofPlus then 320 else 368
  4 * (base * 2 ^ k - 32 * (fields + 2 * (k + 6))) / 5

theorem charge_mono (ty : RctType) {k k' : Nat} (h : k ≤ k') : charge ty k ≤ charge ty k' := by
  induction h with
  | refl => exact Nat.le_refl _
  | @step m _ ih =>
      have hpos : 1 ≤ 2 ^ m := Nat.one_le_two_pow
      refine Nat.le_trans ih ?_
      unfold charge
      rw [Nat.pow_succ]
      cases ty.isBulletproofPlus <;> simp only [if_true, if_false, Bool.false_eq_true] <;> omega

/-! ### The clawback in words -/

/-- The shifts find the exponent. -/
theorem clawbackNlr_pow {k fuel nlr : Nat} (hle : nlr ≤ k) (hfuel : k ≤ nlr + fuel) :
    clawbackNlr (2 ^ k) fuel nlr = k := by
  induction fuel generalizing nlr with
  | zero =>
      obtain rfl : nlr = k := by omega
      rfl
  | succ fuel ih =>
      rw [clawbackNlr]
      split
      · next hlt => exact ih ((Nat.pow_lt_pow_iff_right (by decide)).mp hlt) (by omega)
      · next hge =>
          rw [Nat.pow_lt_pow_iff_right (by decide)] at hge
          omega

theorem clawbackNlrChecked_pow {k fuel nlr : Nat} (hk : k < 64) (hle : nlr ≤ k)
    (hfuel : k < nlr + fuel) : clawbackNlrChecked (2 ^ k) fuel nlr = some k := by
  induction fuel generalizing nlr with
  | zero => omega
  | succ fuel ih =>
      have hpow : 1 * 2 ^ nlr < 2 ^ 64 := by
        rw [Nat.one_mul]
        exact Nat.pow_lt_pow_right (by decide) (by omega)
      rw [clawbackNlrChecked, checkedShl_eq (by omega) hpow, Option.bind_eq_bind, Option.bind_some,
        Nat.one_mul]
      split
      · next hlt => exact ih ((Nat.pow_lt_pow_iff_right (by decide)).mp hlt) (by omega)
      · next hge =>
          rw [Nat.pow_lt_pow_iff_right (by decide)] at hge
          rw [Option.some.injEq]
          omega

/-- The words of the clawback at `2 ^ k`, whatever the constants of the type. -/
theorem clawback_words {base size k : Nat} (hlo : 320 ≤ base) (hhi : base < 512) (hsize : size < 2 ^ 13) :
    checkedMul (saturatingMul base (2 ^ k) - size) 4 =
      if k ≤ 53 then some (4 * (base * 2 ^ k - size)) else none := by
  by_cases hk : k ≤ 53
  · have hpow : 2 ^ k ≤ 2 ^ 53 := Nat.pow_le_pow_right (by decide) hk
    have hprod : base * 2 ^ k ≤ 511 * 2 ^ 53 := Nat.mul_le_mul (by omega) hpow
    have hsat : saturatingMul base (2 ^ k) = base * 2 ^ k := saturatingMul_exact (by omega)
    rw [checkedMul, hsat, if_pos (by unfold u64Max; omega), if_pos hk, Nat.mul_comm]
  · have hpow : 2 ^ 54 ≤ 2 ^ k := Nat.pow_le_pow_right (by decide) (by omega)
    have hprod : 320 * 2 ^ 54 ≤ base * 2 ^ k := Nat.mul_le_mul hlo hpow
    have hsat : 320 * 2 ^ 54 ≤ saturatingMul base (2 ^ k) :=
      Nat.le_min.mpr ⟨hprod, by decide⟩
    rw [checkedMul, if_neg (by unfold u64Max; omega), if_neg hk]

theorem charge_small (ty : RctType) {k : Nat} (h : 2 ^ k ≤ 2) : charge ty k = 0 := by
  have hle : k ≤ 1 := (Nat.pow_le_pow_iff_right (Nat.lt_succ_self 1)).mp h
  unfold charge
  obtain rfl | rfl : k = 0 ∨ k = 1 := by omega
  · cases ty.isBulletproofPlus <;> rfl
  · cases ty.isBulletproofPlus <;> rfl

/-- Up to `2 ^ 53` padded outputs no product overflows, and from `2 ^ 54` on one does. -/
theorem clawbackChecked_pow (ty : RctType) {k : Nat} (hk : k < 64) :
    clawbackChecked ty (2 ^ k) = if k ≤ 53 then some (charge ty k) else none := by
  by_cases hsmall : 2 ^ k ≤ 2
  · have hle : k ≤ 1 := (Nat.pow_le_pow_iff_right (Nat.lt_succ_self 1)).mp hsmall
    rw [clawbackChecked, if_pos hsmall, charge_small ty hsmall, if_pos (by omega)]
  · rw [clawbackChecked, if_neg hsmall, clawbackNlrChecked_pow hk (Nat.zero_le k) (by omega),
      Option.bind_eq_bind, Option.bind_some]
    cases hplus : ty.isBulletproofPlus
    · have hwords := @clawback_words 368 (32 * (9 + 2 * (k + 6))) k (by decide) (by decide) (by omega)
      simp only [if_false, Bool.false_eq_true, hwords, charge, hplus]
      split <;> rfl
    · have hwords := @clawback_words 320 (32 * (6 + 2 * (k + 6))) k (by decide) (by decide) (by omega)
      simp only [if_true, hwords, charge, hplus]
      split <;> rfl

theorem clawback_pow (ty : RctType) {k : Nat} (hk : k ≤ 53) : clawback ty (2 ^ k) = charge ty k := by
  by_cases hsmall : 2 ^ k ≤ 2
  · rw [clawback, if_pos hsmall, charge_small ty hsmall]
  · have hpow : 2 ^ k ≤ 2 ^ 53 := Nat.pow_le_pow_right (by decide) hk
    rw [clawback, if_neg hsmall, clawbackNlr_pow (Nat.zero_le k) (by omega)]
    cases hplus : ty.isBulletproofPlus
    · simp only [charge, hplus, if_false, Bool.false_eq_true]
      rw [saturatingMul_exact (by omega), wrap64, Nat.mod_eq_of_lt (by omega), Nat.mul_comm 4]
    · simp only [charge, hplus, if_true]
      rw [saturatingMul_exact (by omega), wrap64, Nat.mod_eq_of_lt (by omega), Nat.mul_comm 4]

/-! ### What a parse leaves -/

theorem maxAmounts_eq_some {l : List EcPoint} {n : Nat} :
    maxAmounts l = some n ↔ 6 ≤ l.length ∧ l.length < 70 ∧ n = 2 ^ (l.length - 6) := by
  unfold maxAmounts checkedSub
  by_cases hsix : 6 ≤ l.length
  · rw [if_pos hsix, Option.bind_eq_bind, Option.bind_some]
    split
    · next hge => exact ⟨fun h => (by cases h), fun h => absurd h.2.1 (by omega)⟩
    · next hlt =>
        rw [Option.some.injEq]
        exact ⟨fun h => ⟨hsix, by omega, h.symm⟩, fun h => h.2.2.symm⟩
  · rw [if_neg hsix]
    exact ⟨fun h => (by cases h), fun h => absurd h.1 hsix⟩

/-- The capacities as `max_amounts().unwrap_or(0)` sees them. -/
def capacities (ls : List (List EcPoint)) : List Nat := ls.map fun l => (maxAmounts l).getD 0

/-- What the range proofs of a batched type have passed when they are read. -/
def RctSignatures.Counted (rv : RctSignatures) (outputs : Nat) : Prop :=
  rv.ty.isBatched = true → outputs ≤ totalMaxAmounts rv.proofLs

theorem RctType.isBatched_of_null {ty : RctType} (h : ty.isNull = true) : ty.isBatched = false := by
  cases ty with
  | null => rfl
  | _ => exact nomatch h

theorem finds_rangeProofs (rv : RctSignatures) (outputs : Nat) :
    Finds (rv.readRangeProofs outputs) fun rv' => rv'.Counted outputs := by
  unfold RctSignatures.readRangeProofs
  obtain ⟨ty, fee, pseudo, ecdh, outPk, sigs, bps, bpps, mgs, clsags, pseudoOuts⟩ := rv
  cases ty with
  | null => exact finds_pure fun h => (nomatch h)
  | full | simple =>
      refine (finds_any _).bind fun sigs _ => finds_pure fun h => (nomatch h)
  | fullBulletproof | simpleBulletproof =>
      refine (finds_any _).bind fun proofs _ => finds_pure fun h => (nomatch h)
  | bulletproof | bulletproof2 | clsag =>
      refine (finds_any _).bind fun nbp _ => (finds_any _).bind fun proofs _ => ?_
      exact finds_guard fun henough => finds_pure fun _ => Nat.le_of_not_lt henough
  | bulletproofPlus | bulletproofPlusFullCommit =>
      refine (finds_any _).bind fun nbp _ => (finds_any _).bind fun proofs _ => ?_
      exact finds_guard fun henough => finds_pure fun _ => Nat.le_of_not_lt henough

/-- The rest of the prunable part leaves the range proofs as they are. -/
theorem finds_ringSigs (rv : RctSignatures) (inputs mixin outputs : Nat) (h : rv.Counted outputs) :
    Finds (rv.readRingSigs inputs mixin) fun rv' => rv'.Counted outputs := by
  unfold RctSignatures.readRingSigs
  split_ifs
  · exact (finds_any _).bind fun clsags _ => finds_pure h
  · exact finds_pure h
  · exact (finds_any _).bind fun mgs _ => finds_pure h

theorem finds_prunable (rv : RctSignatures) (inputs outputs mixin : Nat) :
    Finds (rv.readPrunable inputs outputs mixin) fun rv' => rv'.Counted outputs := by
  unfold RctSignatures.readPrunable
  refine (finds_rangeProofs rv outputs).bind fun rv₁ hproofs => ?_
  refine (finds_ringSigs rv₁ inputs mixin outputs hproofs).bind fun rv₂ hsigs => ?_
  split_ifs
  · exact (finds_any _).bind fun pseudoOuts _ => finds_pure hsigs
  · exact finds_pure hsigs

theorem Transaction.finds_counted :
    Finds Transaction.read fun tx => tx.rctSignatures.Counted tx.txPrefix.vout.length := by
  unfold Transaction.read
  refine (finds_any _).bind fun start _ => (finds_any _).bind fun p _ => (finds_any _).bind fun now _ => ?_
  split_ifs
  · exact (finds_any _).bind fun signatures _ => finds_pure fun h => (nomatch h)
  · exact finds_pure fun h => (nomatch h)
  · refine finds_guard fun _ => ?_
    refine (finds_any _).bind fun base _ => (finds_any _).bind fun unprunable _ => ?_
    split_ifs with hnull
    · exact finds_pure fun h => absurd (h.symm.trans (RctType.isBatched_of_null hnull)) (by decide)
    · exact (finds_prunable base _ _ _).bind fun rv hrv => finds_pure hrv

theorem expandBulletproofPlus_single {rv : RctSignatures} {n : Nat}
    (hplus : rv.ty.isBulletproofPlus = true) (h : expandBulletproofPlus rv n = .ok ()) :
    ∃ bp, rv.bulletproofsPlus = [bp] ∧ 6 ≤ bp.l.length := by
  rw [expandBulletproofPlus, if_pos hplus] at h
  split at h
  · next bp hone =>
      refine ⟨bp, hone, ?_⟩
      by_contra hshort
      rw [if_pos (by omega)] at h
      nomatch h
  · nomatch h

theorem expandBulletproof_single {rv : RctSignatures} {n : Nat}
    (hty : rv.ty = .bulletproof ∨ rv.ty = .bulletproof2 ∨ rv.ty = .clsag)
    (h : expandBulletproof rv n = .ok ()) : ∃ bp, rv.bulletproofs = [bp] ∧ 6 ≤ bp.l.length := by
  rw [expandBulletproof, if_pos hty] at h
  split at h
  · next bp hone =>
      refine ⟨bp, hone, ?_⟩
      by_contra hshort
      rw [if_pos (by omega)] at h
      nomatch h
  · nomatch h

theorem RctType.cases_of_isBatched {ty : RctType} (h : ty.isBatched = true) :
    ty.isBulletproofPlus = true ∨ ty = .bulletproof ∨ ty = .bulletproof2 ∨ ty = .clsag := by
  cases ty with
  | bulletproofPlus | bulletproofPlusFullCommit => exact .inl rfl
  | bulletproof | bulletproof2 | clsag => simp
  | null | full | simple | fullBulletproof | simpleBulletproof => exact nomatch h

/-- `expand` lets one aggregated proof through. -/
theorem expand_single {tx : Transaction} (hversion : 2 ≤ tx.txPrefix.version)
    (hbatched : tx.rctSignatures.ty.isBatched = true) (h : tx.expand = .ok ()) :
    ∃ l, tx.rctSignatures.proofLs = [l] ∧ 6 ≤ l.length := by
  have hold : ¬tx.txPrefix.version < 2 := by omega
  simp only [Transaction.expand, if_neg hold, bind_eq_ok] at h
  obtain ⟨_, hbpp, _, hbp, -⟩ := h
  unfold RctSignatures.proofLs
  by_cases hplus : tx.rctSignatures.ty.isBulletproofPlus = true
  · obtain ⟨bp, hone, hsix⟩ := expandBulletproofPlus_single hplus hbpp
    exact ⟨bp.l, by rw [if_pos hplus, hone, List.map_singleton], hsix⟩
  · have hty := (RctType.cases_of_isBatched hbatched).resolve_left hplus
    obtain ⟨bp, hone, hsix⟩ := expandBulletproof_single hty hbp
    exact ⟨bp.l, by rw [if_neg hplus, hone, List.map_singleton], hsix⟩

theorem nPaddedOutputs_eq (rv : RctSignatures) (h : rv.ty.isBatched = true) :
    rv.nPaddedOutputs = sumMaxAmounts rv.proofLs 0 := by
  unfold RctSignatures.nPaddedOutputs RctSignatures.proofLs
  split
  · rfl
  · next hplus =>
      rw [if_pos]
      simp only [RctType.isBatched, hplus, Bool.or_false, Bool.and_eq_true] at h
      exact h.1

theorem expand_of_fromBlob {blob : Blob} {tx : Transaction} (h : Transaction.fromBlob blob = .ok tx) :
    tx.expand = .ok () := by
  simp only [Transaction.fromBlob, parse, bind_eq_ok, pure_eq_ok] at h
  obtain ⟨_, ⟨⟨parsed, r'⟩, hread, rfl⟩, _, hexpand, rfl⟩ := h
  exact hexpand

/-- The batched proof of a parsed transaction holds a power of two. -/
theorem fromBlob_padded {blob : Blob} {tx : Transaction} (h : Transaction.fromBlob blob = .ok tx)
    (hcharged : tx.Charged) :
    ∃ l, tx.rctSignatures.proofLs = [l] ∧ maxAmounts l = some (2 ^ (l.length - 6)) ∧ l.length - 6 < 64 := by
  obtain ⟨l, hone, hsix⟩ := expand_single hcharged.version hcharged.batched (expand_of_fromBlob h)
  obtain ⟨r', hread⟩ := fromBlob_read h
  have hcounted := Transaction.finds_counted.found hread hcharged.batched
  rw [hone] at hcounted
  have hsome : maxAmounts l ≠ none := by
    intro hnone
    have hzero : totalMaxAmounts [l] = 0 := by simp [totalMaxAmounts, hnone, wrap64]
    have houtputs := hcharged.outputs
    omega
  obtain ⟨n, hn⟩ := Option.ne_none_iff_exists'.mp hsome
  obtain ⟨-, hlt, rfl⟩ := maxAmounts_eq_some.mp hn
  exact ⟨l, hone, hn, by omega⟩

/-! ### The weight -/

/-- Parsing and weighing a transaction of `n` bytes stays within the words. -/
structure WeightSound (tx : Transaction) (n : Nat) : Prop where
  counted : tx.rctSignatures.ty.isBatched = true → (capacities tx.rctSignatures.proofLs).sum ≤ u64Max
  computed : getTransactionWeightChecked tx n = some (getTransactionWeight tx n)
  least : n ≤ getTransactionWeight tx n
  charged : tx.Charged → ∃ k, tx.rctSignatures.nPaddedOutputs = some (2 ^ k) ∧
    getTransactionWeight tx n = n + charge tx.rctSignatures.ty k

/-- Nothing is added to a transaction that is not charged. -/
theorem weight_uncharged {tx : Transaction} (h : ¬tx.Charged) (n : Nat) :
    getTransactionWeightChecked tx n = some n ∧ getTransactionWeight tx n = n := by
  unfold getTransactionWeightChecked getTransactionWeight
  by_cases hversion : tx.txPrefix.version < 2
  · exact ⟨if_pos hversion, if_pos hversion⟩
  by_cases hplain : (!tx.rctSignatures.ty.isBulletproof && !tx.rctSignatures.ty.isBulletproofPlus) = true
  · simp only [if_neg hversion, if_pos hplain, and_self]
  by_cases houtputs : tx.txPrefix.vout.length ≤ 2
  · simp only [if_neg hversion, if_neg hplain, if_pos houtputs, and_self]
  by_cases hold : tx.rctSignatures.ty.isOldBulletproof = true
  · simp only [if_neg hversion, if_neg hplain, if_neg houtputs, if_pos hold, and_self]
  refine absurd ⟨by omega, ?_, by omega⟩ h
  simp only [Bool.and_eq_true, Bool.not_eq_true', not_and, Bool.not_eq_false] at hplain
  simp only [RctType.isBatched, Bool.and_eq_true, Bool.or_eq_true, Bool.not_eq_true', Bool.eq_false_iff]
  exact ⟨or_iff_not_imp_left.mpr fun hbp => hplain (Bool.eq_false_iff.mpr hbp), hold⟩

theorem weight_charged {tx : Transaction} (h : tx.Charged) (n : Nat) {k : Nat}
    (hpadded : tx.rctSignatures.nPaddedOutputs = some (2 ^ k)) :
    getTransactionWeightChecked tx n = (clawbackChecked tx.rctSignatures.ty (2 ^ k)).bind (checkedAdd n) ∧
      getTransactionWeight tx n = wrap64 (n + clawback tx.rctSignatures.ty (2 ^ k)) := by
  have hversion : ¬tx.txPrefix.version < 2 := by have := h.version; omega
  have houtputs : ¬tx.txPrefix.vout.length ≤ 2 := by have := h.outputs; omega
  have hbatched := h.batched
  simp only [RctType.isBatched, Bool.and_eq_true, Bool.or_eq_true, Bool.not_eq_true'] at hbatched
  have hplain : ¬(!tx.rctSignatures.ty.isBulletproof && !tx.rctSignatures.ty.isBulletproofPlus) = true := by
    rcases hbatched.1 with hty | hty <;> simp [hty]
  have hold : ¬tx.rctSignatures.ty.isOldBulletproof = true := by simp [hbatched.2]
  unfold getTransactionWeightChecked getTransactionWeight
  simp only [if_neg hversion, if_neg hplain, if_neg houtputs, if_neg hold, hpadded, and_true]
  rfl

/-- `max_amounts` of the one proof cannot overflow its sum. -/
theorem fromBlob_counted {blob : Blob} {tx : Transaction} (h : Transaction.fromBlob blob = .ok tx)
    (hbatched : tx.rctSignatures.ty.isBatched = true) :
    (capacities tx.rctSignatures.proofLs).sum ≤ u64Max := by
  have hbundled : tx.rctSignatures.ty ≠ .null := by
    intro hnull
    rw [hnull] at hbatched
    nomatch hbatched
  have hversion : 2 ≤ tx.txPrefix.version := ((fromBlob_fits h).2 hbundled).1.ge
  obtain ⟨l, hone, -⟩ := expand_single hversion hbatched (expand_of_fromBlob h)
  rw [hone, capacities, List.map_singleton, List.sum_singleton]
  cases hmax : maxAmounts l with
  | none => exact Nat.zero_le _
  | some n =>
      obtain ⟨-, hlt, rfl⟩ := maxAmounts_eq_some.mp hmax
      have hpow : 2 ^ (l.length - 6) ≤ 2 ^ 63 := Nat.pow_le_pow_right (by decide) (by omega)
      exact Nat.le_trans hpow (by decide)

theorem charge_le (ty : RctType) {k : Nat} (hk : k ≤ 53) : charge ty k < 2 ^ 62 := by
  have hpow : 2 ^ k ≤ 2 ^ 53 := Nat.pow_le_pow_right (by decide) hk
  unfold charge
  cases ty.isBulletproofPlus <;> simp only [if_true, if_false, Bool.false_eq_true] <;> omega

theorem weight_within {tx : Transaction} {n k : Nat} (h : tx.Charged) (hn : n < 2 ^ 63) (hk : k ≤ 53)
    (hpadded : tx.rctSignatures.nPaddedOutputs = some (2 ^ k)) :
    getTransactionWeightChecked tx n = some (n + charge tx.rctSignatures.ty k) ∧
      getTransactionWeight tx n = n + charge tx.rctSignatures.ty k := by
  have hcharge := charge_le tx.rctSignatures.ty hk
  obtain ⟨hchecked, hweight⟩ := weight_charged h n hpadded
  rw [hchecked, hweight, clawbackChecked_pow _ (by omega), if_pos hk, Option.bind_some, clawback_pow _ hk]
  exact ⟨checkedAdd_eq_some.mpr ⟨rfl, by unfold u64Max; omega⟩, Nat.mod_eq_of_lt (by omega)⟩

/-- Parsing and weighing a transaction stays within the words exactly while its batched proof covers at
    most `2 ^ 53` outputs, and a longer proof never costs less. -/
theorem weight_exact {blob : Blob} {tx : Transaction} (h : Transaction.fromBlob blob = .ok tx)
    (hlen : blob.length < 2 ^ 63) :
    (WeightSound tx blob.length ↔ ¬tx.Charged ∨ ∀ l ∈ tx.rctSignatures.proofLs, l.length ≤ 59) ∧
      ∀ k k', k ≤ k' → charge tx.rctSignatures.ty k ≤ charge tx.rctSignatures.ty k' := by
  refine ⟨?_, fun k k' => charge_mono tx.rctSignatures.ty⟩
  have hcounted := fromBlob_counted h
  by_cases hcharged : tx.Charged
  · obtain ⟨l, hone, hmax, hlt⟩ := fromBlob_padded h hcharged
    have hpadded : tx.rctSignatures.nPaddedOutputs = some (2 ^ (l.length - 6)) := by
      rw [nPaddedOutputs_eq _ hcharged.batched, hone, sumMaxAmounts, hmax, Option.bind_eq_bind,
        Option.bind_some, checkedAdd_eq_some.mpr ⟨Nat.zero_add _, ?_⟩]
      · rfl
      · exact Nat.le_trans (Nat.pow_le_pow_right (by decide) (show l.length - 6 ≤ 63 by omega)) (by decide)
    have hcover : (∀ l ∈ tx.rctSignatures.proofLs, l.length ≤ 59) ↔ l.length - 6 ≤ 53 := by
      rw [hone, List.forall_mem_singleton]
      omega
    rw [hcover]
    constructor
    · intro hsound
      by_contra hlong
      have hcomputed := hsound.computed
      rw [(weight_charged hcharged _ hpadded).1, clawbackChecked_pow _ hlt, if_neg (by tauto)] at hcomputed
      nomatch hcomputed
    · intro hfits
      have hk : l.length - 6 ≤ 53 := hfits.resolve_left (not_not_intro hcharged)
      obtain ⟨hchecked, hweight⟩ := weight_within hcharged hlen hk hpadded
      exact ⟨hcounted, by rw [hchecked, hweight], by rw [hweight]; exact Nat.le_add_right _ _,
        fun _ => ⟨_, hpadded, hweight⟩⟩
  · obtain ⟨hchecked, hweight⟩ := weight_uncharged hcharged blob.length
    refine ⟨fun _ => .inl hcharged, fun _ => ?_⟩
    exact ⟨hcounted, by rw [hchecked, hweight], Nat.le_of_eq hweight.symm, fun hpays => absurd hpays hcharged⟩

/-- Three outputs under one proof with `n` points in its `L`. -/
def batchWith (n : Nat) : Transaction :=
  { txPrefix := ⟨2, 0, [.toKey 0 [0] 8], List.replicate 3 ⟨0, .toKey 8⟩, []⟩
    signatures := []
    rctSignatures :=
      { ty := .bulletproofPlus
        ecdhInfo := List.replicate 3 ⟨0, 0⟩
        outPk := List.replicate 3 0
        bulletproofsPlus := [⟨0, 0, 0, 0, 0, 0, List.replicate n 0, []⟩]
        clsags := [⟨[0], 0, 0⟩]
        pseudoOuts := [0] }
    prefixSize := 143
    unprunableSize := 265 }

theorem batchWith_parsed :
    Transaction.fromBlob (batchWith 8).write = .ok (batchWith 8) ∧
      Transaction.fromBlob (batchWith 60).write = .ok (batchWith 60) := by
  decide +kernel

/-- A proof for four outputs is charged for four. -/
theorem weight_exact_four :
    (WeightSound (batchWith 8) (batchWith 8).write.length ↔
      ¬(batchWith 8).Charged ∨ ∀ l ∈ (batchWith 8).rctSignatures.proofLs, l.length ≤ 59) ∧
      ∀ k k', k ≤ k' → charge (batchWith 8).rctSignatures.ty k ≤ charge (batchWith 8).rctSignatures.ty k' :=
  weight_exact batchWith_parsed.1 (by decide +kernel)

/-- A proof with sixty points parses, and its product by four leaves the word: what is left is less
    than one point fewer would cost. -/
theorem weight_overflows :
    Transaction.fromBlob (batchWith 60).write = .ok (batchWith 60) ∧
      ¬WeightSound (batchWith 60) (batchWith 60).write.length ∧
      getTransactionWeightChecked (batchWith 60) (batchWith 60).write.length = none ∧
      getTransactionWeight (batchWith 60) (batchWith 60).write.length <
        getTransactionWeight (batchWith 59) (batchWith 59).write.length := by
  have hnone : getTransactionWeightChecked (batchWith 60) (batchWith 60).write.length = none := by
    decide
  refine ⟨batchWith_parsed.2, fun hsound => ?_, hnone, by decide +kernel⟩
  have hcomputed := hsound.computed
  rw [hnone] at hcomputed
  nomatch hcomputed

end Wownero
