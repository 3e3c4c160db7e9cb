import Wownero.ChainTxs
import Wownero.Codec
import Wownero.Signatures
import Wownero.Validation
/-!
# What the rules of step 9 ask of a transaction

Each rule as a fact about the inputs, the outputs and the rings of a transaction, and two things
the rules do not ask: that the outputs are of the kind the version calls for, and that a ring
counted under a declared amount is as large as one counted under none.
-/

namespace Wownero

open Outcome Wownero.TxRules

/-! ### Inputs -/

/-- The key images of a list of inputs. -/
def inputImages (vin : List TxIn) : List KeyImage :=
  vin.filterMap fun
    | .toKey _ _ kImage => some kImage
    | _ => none

theorem keyImages_eq (tx : Transaction) : tx.keyImages = inputImages tx.txPrefix.vin := rfl

@[simp] theorem inputImages_toKey (amount : Nat) (keyOffsets : List Nat) (kImage : KeyImage)
    (vin : List TxIn) :
    inputImages (.toKey amount keyOffsets kImage :: vin) = kImage :: inputImages vin := rfl

/-- An input that spends a key. -/
def TxIn.IsToKey (input : TxIn) : Prop :=
  ∃ amount keyOffsets kImage, input = .toKey amount keyOffsets kImage

theorem checkSemanticInputs_of_not_toKey {i sum total : Nat} {seen : List KeyImage} {input : TxIn}
    {vin : List TxIn} (h : ¬ input.IsToKey) :
    checkSemanticInputs i seen sum (input :: vin) = .ok total ↔ False := by
  cases input with
  | toKey amount keyOffsets kImage => exact absurd ⟨amount, keyOffsets, kImage, rfl⟩ h
  | gen height => simp [checkSemanticInputs]
  | toScript prev prevout sigset => simp [checkSemanticInputs]
  | toScriptHash prev prevout script sigset => simp [checkSemanticInputs]

/-- The first loop of `check_tx_semantic`. -/
theorem checkSemanticInputs_ok {i sum total : Nat} {seen : List KeyImage} {vin : List TxIn}
    (hsum : sum ≤ u64Max) :
    checkSemanticInputs i seen sum vin = .ok total ↔
      (∀ input ∈ vin, input.IsToKey) ∧ (inputImages vin).Nodup ∧
        (∀ image ∈ inputImages vin, image ∉ seen) ∧
        sum + (vin.map TxIn.spentAmount).sum ≤ u64Max ∧
        total = sum + (vin.map TxIn.spentAmount).sum := by
  induction vin generalizing i sum seen with
  | nil =>
      simp only [checkSemanticInputs, Except.ok.injEq]
      constructor
      · rintro rfl
        exact ⟨nofun, List.nodup_nil, nofun, by simpa using hsum, by simp⟩
      · rintro ⟨_, _, _, _, rfl⟩
        simp
  | cons input vin ih =>
      by_cases hkey : input.IsToKey
      · obtain ⟨amount, keyOffsets, kImage, rfl⟩ := hkey
        rw [checkSemanticInputs]
        by_cases hseen : kImage ∈ seen
        · simp only [List.contains_iff_mem, hseen, if_true, reduceCtorEq, false_iff]
          rintro ⟨_, _, hnew, _⟩
          exact hnew kImage (by simp) hseen
        · simp only [List.contains_iff_mem, hseen, if_false]
          by_cases hfits : sum + amount ≤ u64Max
          · rw [checkedAdd_eq_some.mpr ⟨rfl, hfits⟩]
            simp only
            rw [ih hfits]
            simp only [List.forall_mem_cons, inputImages_toKey, List.nodup_cons, List.map_cons,
              List.sum_cons, TxIn.spentAmount, List.mem_append, List.mem_singleton, not_or,
              Nat.add_assoc]
            constructor
            · rintro ⟨hkeys, hnodup, hnew, hsum', rfl⟩
              exact ⟨⟨⟨amount, keyOffsets, kImage, rfl⟩, hkeys⟩,
                ⟨fun hmem => (hnew kImage hmem).2 rfl, hnodup⟩,
                ⟨hseen, fun image hmem => (hnew image hmem).1⟩, hsum', rfl⟩
            · rintro ⟨⟨_, hkeys⟩, ⟨hnot, hnodup⟩, ⟨_, hnew⟩, hsum', rfl⟩
              refine ⟨hkeys, hnodup, fun image hmem => ⟨hnew image hmem, ?_⟩, hsum', rfl⟩
              rintro rfl
              exact hnot hmem
          · have hnone : checkedAdd sum amount = none := by
              unfold checkedAdd
              rw [if_neg hfits]
            rw [hnone]
            simp only [reduceCtorEq, List.map_cons, List.sum_cons, TxIn.spentAmount, false_iff]
            rintro ⟨_, _, _, hsum', _⟩
            omega
      · rw [checkSemanticInputs_of_not_toKey hkey, false_iff]
        rintro ⟨hkeys, _⟩
        exact hkey (hkeys input List.mem_cons_self)

/-- `check_inputs_sorted`, of inputs that spend keys: the images fall. -/
theorem checkInputsSortedFrom_ok {i : Nat} {last : Option KeyImage} {vin : List TxIn}
    (hkeys : ∀ input ∈ vin, input.IsToKey) :
    checkInputsSortedFrom i last vin = .ok () ↔
      (∀ prev, last = some prev → ∀ image ∈ inputImages vin, image < prev) ∧
        (inputImages vin).Pairwise (· > ·) := by
  induction vin generalizing i last with
  | nil => simp [checkInputsSortedFrom, inputImages]
  | cons input vin ih =>
      obtain ⟨amount, keyOffsets, kImage, rfl⟩ := hkeys input List.mem_cons_self
      rw [checkInputsSortedFrom, if_ok_iff,
        ih fun input hin => hkeys input (List.mem_cons_of_mem _ hin), inputImages_toKey,
        List.pairwise_cons]
      constructor
      · rintro ⟨hlast, hbelow, hfall⟩
        refine ⟨?_, hbelow kImage rfl, hfall⟩
        rintro prev rfl image himage
        have hfirst : kImage < prev := by simpa [BitVec.not_le] using hlast
        rcases List.mem_cons.mp himage with rfl | himage
        · exact hfirst
        · exact BitVec.lt_trans (hbelow kImage rfl image himage) hfirst
      · rintro ⟨hlast, hbelow, hfall⟩
        refine ⟨?_, ?_, hfall⟩
        · cases last with
          | none => simp
          | some prev => simpa [BitVec.not_le] using hlast prev rfl kImage List.mem_cons_self
        · rintro prev hprev image himage
          cases hprev
          exact hbelow image himage

/-! ### Outputs -/

/-- The second loop of `check_tx_semantic`. -/
theorem checkSemanticOutputs_ok {version i : Nat} {vout : List TxOut} :
    checkSemanticOutputs version i vout = .ok () ↔
      ∀ o ∈ vout, o.target.publicKey.isSome = true ∧ (2 ≤ version → o.amount = 0) := by
  induction vout generalizing i with
  | nil => simp [checkSemanticOutputs]
  | cons o vout ih =>
      rw [checkSemanticOutputs, if_ok_iff, if_ok_iff, ih, List.forall_mem_cons]
      simp only [Option.isNone_iff_eq_none, not_and, not_not, ge_iff_le, Option.isSome_iff_ne_none,
        and_assoc]

/-- A target with a key is of one of two kinds. -/
theorem publicKey_isSome {target : TxOutTarget} :
    target.publicKey.isSome = true ↔ isToKey target = true ∨ isTaggedKey target = true := by
  cases target <;> simp [TxOutTarget.publicKey, isToKey, isTaggedKey]

theorem targetTag_of_isToKey {target : TxOutTarget} (h : isToKey target = true) :
    targetTag target = 0x02 := by
  cases target <;> first | rfl | cases h

theorem targetTag_of_isTaggedKey {target : TxOutTarget} (h : isTaggedKey target = true) :
    targetTag target = 0x03 := by
  cases target <;> first | rfl | cases h

theorem not_isToKey_and_isTaggedKey {target : TxOutTarget} :
    ¬(isToKey target = true ∧ isTaggedKey target = true) := by
  cases target <;> simp [isToKey, isTaggedKey]

theorem checkOutputTypesFrom_ok {hfVersion i : Nat} {first : UInt8} {vout : List TxOut} :
    checkOutputTypesFrom hfVersion first i vout = .ok () ↔
      ∀ o ∈ vout, checkOutputType hfVersion first 0 o = .ok () := by
  have hindex : ∀ j o, checkOutputType hfVersion first j o = .ok () ↔
      checkOutputType hfVersion first 0 o = .ok () := by
    intro j o
    unfold checkOutputType
    simp only
    split_ifs <;> simp
  induction vout generalizing i with
  | nil => simp [checkOutputTypesFrom]
  | cons o vout ih =>
      rw [checkOutputTypesFrom, bind_eq_ok, List.forall_mem_cons]
      constructor
      · rintro ⟨u, hone, hrest⟩
        exact ⟨(hindex i o).mp hone, ih.mp hrest⟩
      · rintro ⟨hone, hrest⟩
        exact ⟨(), (hindex i o).mpr hone, ih.mpr hrest⟩

/-- No output is of a kind its version does not take: none tagged below version 20, none untagged
    above, not both at 20. -/
structure KindsFit (version : Nat) (vout : List TxOut) : Prop where
  below : version < hfVersionViewTags → ∀ o ∈ vout, isTaggedKey o.target = false
  above : hfVersionViewTags < version → ∀ o ∈ vout, isToKey o.target = false
  mixed : version = hfVersionViewTags →
    ¬((∃ o ∈ vout, isToKey o.target = true) ∧ ∃ o ∈ vout, isTaggedKey o.target = true)

/-- `check_output_types`, of outputs that have keys. -/
theorem checkOutputTypes_ok {version : Nat} {vout : List TxOut}
    (hkeys : ∀ o ∈ vout, o.target.publicKey.isSome = true) :
    checkOutputTypes vout version = .ok () ↔ KindsFit version vout := by
  rw [checkOutputTypes, checkOutputTypesFrom_ok]
  have hkind : ∀ o ∈ vout, isToKey o.target = true ∨ isTaggedKey o.target = true :=
    fun o ho => publicKey_isSome.mp (hkeys o ho)
  rcases Nat.lt_trichotomy version hfVersionViewTags with hlt | heq | hgt
  · have hone : ∀ first o, checkOutputType version first 0 o = .ok () ↔
        isToKey o.target = true := by
      intro first o
      simp only [checkOutputType, if_neg (Nat.lt_asymm hlt), if_pos hlt]
      split_ifs with h <;> simp [h]
    simp only [hone]
    constructor
    · intro h
      refine ⟨fun _ o ho => ?_, fun h' => absurd h' (by omega), fun h' => absurd h' (by omega)⟩
      by_contra htag
      exact not_isToKey_and_isTaggedKey ⟨h o ho, by simpa using htag⟩
    · intro h o ho
      rcases hkind o ho with hk | hk
      · exact hk
      · rw [h.below hlt o ho] at hk
        cases hk
  · have hone : ∀ first, ∀ o ∈ vout, (checkOutputType version first 0 o = .ok () ↔
        targetTag o.target = first) := by
      intro first o ho
      have hk := hkind o ho
      simp only [checkOutputType, heq, lt_self_iff_false, if_false]
      rw [if_neg (by rcases hk with hk | hk <;> simp [hk])]
      split_ifs with h <;> simp_all
    cases vout with
    | nil =>
        simp only [List.not_mem_nil, false_imp_iff, implies_true, true_iff]
        exact ⟨fun _ => nofun, fun _ => nofun, fun _ h => by simpa using h.1⟩
    | cons o vout =>
        have hall : (∀ p ∈ o :: vout, checkOutputType version
            (((o :: vout).head?.map fun o => targetTag o.target).getD 0) 0 p = .ok ()) ↔
            ∀ p ∈ o :: vout, targetTag p.target = targetTag o.target :=
          forall₂_congr fun p hp => hone _ p hp
        rw [hall]
        constructor
        · intro h
          refine ⟨fun h' => absurd h' (by omega), fun h' => absurd h' (by omega), fun _ => ?_⟩
          rintro ⟨⟨p, hp, hpk⟩, q, hq, hqk⟩
          have hsame := (h p hp).trans (h q hq).symm
          rw [targetTag_of_isToKey hpk, targetTag_of_isTaggedKey hqk] at hsame
          exact absurd hsame (by decide)
        · intro h p hp
          rcases hkind p hp with hpk | hpk <;> rcases hkind o List.mem_cons_self with hok | hok
          · rw [targetTag_of_isToKey hpk, targetTag_of_isToKey hok]
          · exact absurd ⟨⟨p, hp, hpk⟩, o, List.mem_cons_self, hok⟩ (h.mixed heq)
          · exact absurd ⟨⟨o, List.mem_cons_self, hok⟩, p, hp, hpk⟩ (h.mixed heq)
          · rw [targetTag_of_isTaggedKey hpk, targetTag_of_isTaggedKey hok]
  · have hone : ∀ first o, checkOutputType version first 0 o = .ok () ↔
        isTaggedKey o.target = true := by
      intro first o
      simp only [checkOutputType, if_pos hgt]
      split_ifs with h <;> simp [h]
    simp only [hone]
    constructor
    · intro h
      refine ⟨fun h' => absurd h' (by omega), fun _ o ho => ?_, fun h' => absurd h' (by omega)⟩
      by_contra hkey
      exact not_isToKey_and_isTaggedKey ⟨by simpa using hkey, h o ho⟩
    · intro h o ho
      rcases hkind o ho with hk | hk
      · rw [h.above hgt o ho] at hk
        cases hk
      · exact hk

/-! ### Rings -/

/-- The size of an input's ring, less one. -/
def TxIn.mixin : TxIn → Nat
  | .toKey _ keyOffsets _ => keyOffsets.length - 1
  | _ => 0

/-- What `summarise_mixin` has gathered from inputs that spend keys. -/
structure Summarised (version : Nat) (numOutputs : Nat → Nat) (vin : List TxIn)
    (before after : MixinSummary) : Prop where
  le_min : after.minActualMixin ≤ before.minActualMixin
  min_le : ∀ input ∈ vin, after.minActualMixin ≤ input.mixin
  min_eq : after.minActualMixin = before.minActualMixin ∨
    ∃ input ∈ vin, input.mixin = after.minActualMixin
  le_max : ∀ input ∈ vin, input.mixin ≤ after.maxActualMixin
  max_eq : after.maxActualMixin = before.maxActualMixin ∨
    ∃ input ∈ vin, input.mixin = after.maxActualMixin
  unmixable : after.nUnmixable =
    before.nUnmixable + vin.countP fun input => isUnmixable version numOutputs input.spentAmount
  mixable : after.nMixable =
    before.nMixable + vin.countP fun input => !isUnmixable version numOutputs input.spentAmount
  before_le_max : before.maxActualMixin ≤ after.maxActualMixin

theorem summarised {version : Nat} {numOutputs : Nat → Nat} {vin : List TxIn}
    (hkeys : ∀ input ∈ vin, input.IsToKey) (before : MixinSummary) :
    Summarised version numOutputs vin before
      (vin.foldl (summariseInput version numOutputs) before) := by
  induction vin generalizing before with
  | nil => exact ⟨Nat.le_refl _, nofun, Or.inl rfl, nofun, Or.inl rfl, rfl, rfl, Nat.le_refl _⟩
  | cons input vin ih =>
      obtain ⟨amount, keyOffsets, kImage, rfl⟩ := hkeys input List.mem_cons_self
      have hrest := ih (fun input hin => hkeys input (List.mem_cons_of_mem _ hin))
        (summariseInput version numOutputs before (.toKey amount keyOffsets kImage))
      rw [List.foldl_cons]
      generalize vin.foldl (summariseInput version numOutputs) _ = after at hrest ⊢
      have hmin := hrest.le_min
      have hmax := hrest.before_le_max
      simp only [summariseInput] at hmin hmax
      refine ⟨by omega, ?_, ?_, ?_, ?_, ?_, ?_, by omega⟩
      · refine List.forall_mem_cons.mpr ⟨?_, hrest.min_le⟩
        rw [TxIn.mixin]
        omega
      · rcases hrest.min_eq with h | ⟨input, hin, h⟩
        · simp only [summariseInput] at h
          by_cases hle : before.minActualMixin ≤ keyOffsets.length - 1
          · exact Or.inl (by omega)
          · exact Or.inr ⟨_, List.mem_cons_self, by rw [TxIn.mixin]; omega⟩
        · exact Or.inr ⟨input, List.mem_cons_of_mem _ hin, h⟩
      · refine List.forall_mem_cons.mpr ⟨?_, hrest.le_max⟩
        rw [TxIn.mixin]
        omega
      · rcases hrest.max_eq with h | ⟨input, hin, h⟩
        · simp only [summariseInput] at h
          by_cases hle : keyOffsets.length - 1 ≤ before.maxActualMixin
          · exact Or.inl (by omega)
          · exact Or.inr ⟨_, List.mem_cons_self, by rw [TxIn.mixin]; omega⟩
        · exact Or.inr ⟨input, List.mem_cons_of_mem _ hin, h⟩
      · rw [hrest.unmixable, List.countP_cons, TxIn.spentAmount]
        simp only [summariseInput]
        split_ifs <;> omega
      · rw [hrest.mixable, List.countP_cons, TxIn.spentAmount]
        simp only [summariseInput]
        cases isUnmixable version numOutputs amount
        · simp
          omega
        · simp

/-- Every ring has one size: the full one, or a smaller one that an unmixable input excuses while
    at most one other input is there. -/
structure RingsFit (version : Nat) (numOutputs : Nat → Nat) (vin : List TxIn) : Prop where
  same : ∀ a ∈ vin, ∀ b ∈ vin, a.mixin = b.mixin
  size : (∀ input ∈ vin, input.mixin = 21) ∨
    (∀ input ∈ vin, input.mixin < 21) ∧
      (∃ input ∈ vin, isUnmixable version numOutputs input.spentAmount = true) ∧
      (vin.countP fun input => !isUnmixable version numOutputs input.spentAmount) ≤ 1

/-- `check_ring_size` at the versions that demand one size of all rings. -/
theorem checkRingSize_summary {s : MixinSummary} {version : Nat}
    (hversion : hfVersionSameMixin ≤ version) :
    checkRingSize s version = .ok () ↔
      s.minActualMixin = s.maxActualMixin ∧
        (s.minActualMixin = 21 ∨ s.minActualMixin < 21 ∧ s.nUnmixable ≠ 0 ∧ s.nMixable ≤ 1) := by
  have h15 : hfVersionSameMixin = 15 := rfl
  have h9 : hfVersionMinMixin21 = 9 := rfl
  have h7 : hfVersionMinMixin7 = 7 := rfl
  have hminMixin : minMixin version = 21 := if_pos (by omega)
  unfold checkRingSize
  simp only [hminMixin]
  split_ifs <;> simp only [false_iff, true_iff] <;> omega

/-- The same, of a transaction whose inputs spend keys. -/
theorem checkRingSize_ok {version : Nat} {numOutputs : Nat → Nat} {tx : Transaction}
    (hversion : hfVersionSameMixin ≤ version) (hne : tx.txPrefix.vin ≠ [])
    (hkeys : ∀ input ∈ tx.txPrefix.vin, input.IsToKey)
    (hfits : ∀ input ∈ tx.txPrefix.vin, input.mixin < u64Max) :
    checkRingSize (summariseMixin tx version numOutputs) version = .ok () ↔
      RingsFit version numOutputs tx.txPrefix.vin := by
  have hs : Summarised version numOutputs tx.txPrefix.vin ⟨u64Max, 0, 0, 0⟩
      (summariseMixin tx version numOutputs) := summarised hkeys _
  generalize summariseMixin tx version numOutputs = s at hs
  obtain ⟨first, hfirst⟩ := List.exists_mem_of_ne_nil _ hne
  have hminAttained : ∃ input ∈ tx.txPrefix.vin, input.mixin = s.minActualMixin := by
    rcases hs.min_eq with h | h
    · have h₁ := hs.min_le first hfirst
      have h₂ := hfits first hfirst
      simp only at h
      omega
    · exact h
  have hmaxAttained : ∃ input ∈ tx.txPrefix.vin, input.mixin = s.maxActualMixin := by
    rcases hs.max_eq with h | h
    · have h₁ := hs.le_max first hfirst
      simp only at h
      exact ⟨first, hfirst, by omega⟩
    · exact h
  have hequal : s.minActualMixin = s.maxActualMixin ↔
      ∀ a ∈ tx.txPrefix.vin, ∀ b ∈ tx.txPrefix.vin, a.mixin = b.mixin := by
    constructor
    · intro h a ha b hb
      have h₁ := hs.min_le a ha
      have h₂ := hs.le_max a ha
      have h₃ := hs.min_le b hb
      have h₄ := hs.le_max b hb
      omega
    · intro h
      obtain ⟨a, ha, hae⟩ := hminAttained
      obtain ⟨b, hb, hbe⟩ := hmaxAttained
      rw [← hae, ← hbe]
      exact h a ha b hb
  have hunmixable : s.nUnmixable = 0 ↔
      ¬∃ input ∈ tx.txPrefix.vin, isUnmixable version numOutputs input.spentAmount = true := by
    rw [hs.unmixable, Nat.zero_add, List.countP_eq_zero]
    push Not
    rfl
  have hmixable : s.nMixable = tx.txPrefix.vin.countP
      fun input => !isUnmixable version numOutputs input.spentAmount := by
    rw [hs.mixable, Nat.zero_add]
  obtain ⟨low, hlow, hlowEq⟩ := hminAttained
  rw [checkRingSize_summary hversion, hequal]
  constructor
  · rintro ⟨hall, hsize⟩
    refine ⟨hall, ?_⟩
    rcases hsize with hfull | ⟨hsmall, hsome, hmany⟩
    · refine Or.inl fun input hin => ?_
      rw [hall input hin low hlow, hlowEq, hfull]
    · refine Or.inr ⟨fun input hin => ?_, not_not.mp fun h => hsome (hunmixable.mpr h),
        hmixable ▸ hmany⟩
      rw [hall input hin low hlow, hlowEq]
      exact hsmall
  · rintro ⟨hall, hsize⟩
    refine ⟨hall, ?_⟩
    rcases hsize with hfull | ⟨hsmall, hsome, hmany⟩
    · exact Or.inl (hlowEq ▸ hfull low hlow)
    · exact Or.inr ⟨hlowEq ▸ hsmall low hlow, fun h => hunmixable.mp h hsome, hmixable ▸ hmany⟩

/-! ### RingCT types -/

/-- The range proofs this node verifies, at the versions that allow them. -/
structure TypeFits (version : Nat) (ty : RctType) : Prop where
  legacy : ty = .bulletproofPlus → hfVersionBulletproofPlus ≤ version ∧
    version ≤ hfVersionBpPlusFullCommit
  full : ty = .bulletproofPlusFullCommit → hfVersionBpPlusFullCommit ≤ version

/-- `check_tx_rct_type`, of a transaction `verify` accepts. -/
theorem checkTxRctType_ok {tx : Transaction} {version : Nat} (hshaped : Mempool.Shaped tx)
    (htwo : tx.txPrefix.version = 2) :
    checkTxRctType tx version = .ok () ↔ TypeFits version tx.rctSignatures.ty := by
  have hproofs : tx.rctSignatures.bulletproofsPlus.isEmpty = false := by
    simpa using hshaped.proof
  have hty : tx.rctSignatures.ty = .bulletproofPlus ∨
      tx.rctSignatures.ty = .bulletproofPlusFullCommit := by
    have h := hshaped.bulletproofPlus
    revert h
    cases tx.rctSignatures.ty <;> simp [RctType.isBulletproofPlus]
  have h13 : hfVersionSmallerBp = 13 := rfl
  have h16 : hfVersionClsag = 16 := rfl
  have h18 : hfVersionBulletproofPlus = 18 := rfl
  have h21 : hfVersionBpPlusFullCommit = 21 := rfl
  unfold checkTxRctType checkRctTypeAllowed
  rw [if_ok_iff, htwo, hproofs]
  rcases hty with hty | hty
  · have hfits : TypeFits version .bulletproofPlus ↔ 18 ≤ version ∧ version ≤ 21 :=
      ⟨fun h => h.legacy rfl, fun h => ⟨fun _ => h, nofun⟩⟩
    rw [hty, hfits]
    simp [RctType.isOldBulletproof, RctType.isBpPlusLegacy, RctType.isBulletproof, RctType.toU8]
    omega
  · have hfits : TypeFits version .bulletproofPlusFullCommit ↔ 21 ≤ version :=
      ⟨fun h => h.full rfl, fun h => ⟨nofun, fun _ => h⟩⟩
    rw [hty, hfits]
    simp [RctType.isOldBulletproof, RctType.isBpPlusLegacy, RctType.isBulletproof, RctType.toU8]
    omega

/-- The version that a verified type fits is a late one. -/
theorem TypeFits.late {version : Nat} {tx : Transaction} (h : TypeFits version tx.rctSignatures.ty)
    (hshaped : Mempool.Shaped tx) : hfVersionBulletproofPlus ≤ version := by
  have h18 : hfVersionBulletproofPlus = 18 := rfl
  have h21 : hfVersionBpPlusFullCommit = 21 := rfl
  have hbp := hshaped.bulletproofPlus
  cases hty : tx.rctSignatures.ty <;> rw [hty] at hbp h <;> cases hbp
  · exact (h.legacy rfl).1
  · have := h.full rfl
    omega

/-! ### Accepted transactions -/

section

variable {σ : Type} {P : Params σ}

/-- The rules of step 9, one by one. -/
theorem checkTxRules_ok {t : MainTables} {version : Nat} {tx : Transaction} {fee : Option Nat} :
    checkTxRules t version tx = .ok fee ↔
      checkTxSemantic tx = .ok fee ∧ checkMinOutputs tx version = .ok () ∧
        checkInputsSorted tx = .ok () ∧ checkTxRctType tx version = .ok () ∧
        checkRingSize (summariseMixin tx version t.getNumOutputs) version = .ok () ∧
        checkTxVersion tx.txPrefix.version version
          (summariseMixin tx version t.getNumOutputs).nUnmixable = .ok () := by
  simp only [checkTxRules, bind_eq_ok, pure_eq_ok]
  constructor
  · rintro ⟨_, h₁, ⟨⟩, h₂, ⟨⟩, h₃, ⟨⟩, h₄, ⟨⟩, h₅, ⟨⟩, h₆, rfl⟩
    exact ⟨h₁, h₂, h₃, h₄, h₅, h₆⟩
  · rintro ⟨h₁, h₂, h₃, h₄, h₅, h₆⟩
    exact ⟨fee, h₁, (), h₂, (), h₃, (), h₄, (), h₅, (), h₆, rfl⟩

/-- `check_tx_semantic` has looked at every input and every output. -/
theorem checkTxSemantic_ok {tx : Transaction} {fee : Option Nat}
    (h : checkTxSemantic tx = .ok fee) :
    tx.txPrefix.vin ≠ [] ∧ (∀ input ∈ tx.txPrefix.vin, input.IsToKey) ∧
      ∀ o ∈ tx.txPrefix.vout, o.target.publicKey.isSome = true := by
  rw [checkTxSemantic, if_ok_iff] at h
  obtain ⟨hne, h⟩ := h
  simp only [bind_eq_ok] at h
  obtain ⟨sum, hinputs, ⟨⟩, houtputs, _⟩ := h
  refine ⟨by simpa using hne, ?_, fun o ho => (checkSemanticOutputs_ok.mp houtputs o ho).1⟩
  exact ((checkSemanticInputs_ok (Nat.zero_le _)).mp hinputs).1

/-- The transactions of an accepted block have passed the rules, unless their height is
    trusted. -/
theorem accepted_rules {c c' : Chain σ} {blk : Block} {blob : Blob}
    {txs : List (Transaction × Blob)} {now : Nat} {added : Added}
    (h : Chain.addBlock P c blk blob txs now = (.ok added, c'))
    (habove : P.trustedBelow ≤ c.height) {p : Transaction × Blob} (hp : p ∈ txs) :
    ∃ fee, checkTxRules c.db.main blk.header.majorVersion p.1 = .ok fee := by
  obtain ⟨_, fees, reward, v, haccepted⟩ := addBlock_ok h
  obtain ⟨hlen, _, hpassed⟩ := checkTransactions_ok haccepted.transactions
  obtain ⟨q, hq, hqe⟩ := exists_mem_zip hlen hp
  obtain ⟨i, v, fee, v', hcheck⟩ := hpassed q hq
  rw [checkTx, if_neg (by exact Nat.not_lt.mpr habove), hqe] at hcheck
  cases hrules : checkTxRules c.db.main blk.header.majorVersion p.1 with
  | ok fee => exact ⟨fee, rfl⟩
  | error e =>
      rw [hrules] at hcheck
      cases hcheck

/-- **The kinds of outputs.**  Nothing on the way of a block asks for them: a transaction of an
    accepted block has outputs that fit its version exactly when it was handed in so. -/
theorem accepted_outputTypes_iff {c c' : Chain σ} {blk : Block} {blob : Blob}
    {txs : List (Transaction × Blob)} {now : Nat} {added : Added}
    (h : Chain.addBlock P c blk blob txs now = (.ok added, c'))
    (habove : P.trustedBelow ≤ c.height) {p : Transaction × Blob} (hp : p ∈ txs) :
    checkOutputTypes p.1.txPrefix.vout blk.header.majorVersion = .ok () ↔
      KindsFit blk.header.majorVersion p.1.txPrefix.vout := by
  obtain ⟨fee, hrules⟩ := accepted_rules h habove hp
  exact checkOutputTypes_ok (checkTxSemantic_ok (checkTxRules_ok.mp hrules).1).2.2

end

/-! ### Rings -/

section

variable {σ : Type} {P : Params σ}

/-- A transaction the node's verification has accepted, here or ahead. -/
def Verified (C : Crypto) (tx : Transaction) : Prop :=
  ∃ t hfVersion chainHeight now, Mempool.verify C t tx hfVersion chainHeight now = .ok ()

theorem mixin_lt {blob : Blob} {tx : Transaction} (h : Transaction.fromBlob blob = .ok tx) :
    ∀ input ∈ tx.txPrefix.vin, input.mixin < u64Max := by
  have hmax : u64Max = 18446744073709551615 := rfl
  intro input hin
  have hfits := (fromBlob_fits h).1.vin.2 input hin
  cases input with
  | toKey amount keyOffsets kImage =>
      have hlen := hfits.2.1
      rw [TxIn.mixin]
      omega
  | gen height => exact Nat.zero_lt_succ _
  | toScript prev prevout sigset => exact Nat.zero_lt_succ _
  | toScriptHash prev prevout script sigset => exact Nat.zero_lt_succ _

/-- What a verified transaction that was read off the wire looks like. -/
structure WellSigned (tx : Transaction) : Prop where
  shaped : Mempool.Shaped tx
  two : tx.txPrefix.version = 2
  inputs : tx.txPrefix.vin ≠ []
  keys : ∀ input ∈ tx.txPrefix.vin, input.IsToKey
  mixins : ∀ input ∈ tx.txPrefix.vin, input.mixin < u64Max

theorem wellSigned {C : Crypto} {blob : Blob} {tx : Transaction}
    (hparse : Transaction.fromBlob blob = .ok tx) (hverified : Verified C tx) : WellSigned tx := by
  obtain ⟨t, v, height, n, hverify⟩ := hverified
  obtain ⟨hshape, hinputs⟩ := Mempool.verify_ok.mp hverify
  have hshaped := Mempool.shaped_of_checkShape hshape
  have hnull : tx.rctSignatures.ty ≠ .null := by
    intro hnull
    have hbp := hshaped.bulletproofPlus
    rw [hnull] at hbp
    cases hbp
  obtain ⟨htwo, hne⟩ := (fromBlob_fits hparse).2 hnull
  refine ⟨hshaped, htwo, hne, ?_, mixin_lt hparse⟩
  intro input hin
  obtain ⟨p, hp, rfl⟩ := hshaped.signed hin
  obtain ⟨amount, keyOffsets, kImage, _, heq, _⟩ := hinputs p hp
  exact ⟨amount, keyOffsets, kImage, heq⟩

/-- **The ring that is verified and the ring that is counted.**  A transaction of an accepted
    block whose rings were verified has full rings exactly when every input that declares an
    unmixable amount has one: that declaration is all that lets a smaller ring through. -/
theorem accepted_rings_iff {c c' : Chain σ} {blk : Block} {blob : Blob}
    {txs : List (Transaction × Blob)} {now : Nat} {added : Added}
    (h : Chain.addBlock P c blk blob txs now = (.ok added, c'))
    (habove : P.trustedBelow ≤ c.height) {p : Transaction × Blob} (hp : p ∈ txs)
    (hparse : Transaction.fromBlob p.2 = .ok p.1) (hverified : Verified P.crypto p.1) :
    (∀ amount keyOffsets kImage, .toKey amount keyOffsets kImage ∈ p.1.txPrefix.vin →
        keyOffsets.length = 22) ↔
      ∀ amount keyOffsets kImage, .toKey amount keyOffsets kImage ∈ p.1.txPrefix.vin →
        isUnmixable blk.header.majorVersion c.db.main.getNumOutputs amount = true →
        keyOffsets.length = 22 := by
  obtain ⟨fee, hrules⟩ := accepted_rules h habove hp
  obtain ⟨_, _, _, htype, hrings, _⟩ := checkTxRules_ok.mp hrules
  have hsigned := wellSigned hparse hverified
  have hversion : hfVersionSameMixin ≤ blk.header.majorVersion := by
    have h15 : hfVersionSameMixin = 15 := rfl
    have h18 : hfVersionBulletproofPlus = 18 := rfl
    have hlate := ((checkTxRctType_ok hsigned.shaped hsigned.two).mp htype).late hsigned.shaped
    omega
  have hfit := (checkRingSize_ok hversion hsigned.inputs hsigned.keys hsigned.mixins).mp hrings
  constructor
  · intro hfull amount keyOffsets kImage hin _
    exact hfull amount keyOffsets kImage hin
  · intro hunmixable amount keyOffsets kImage hin
    have hmixin : (TxIn.toKey amount keyOffsets kImage).mixin = 21 := by
      rcases hfit.size with hfull | ⟨_, ⟨input, hinput, hdust⟩, _⟩
      · exact hfull _ hin
      · -- The excusing input has a full ring, and all rings have one size.
        obtain ⟨amount', keyOffsets', kImage', rfl⟩ := hsigned.keys input hinput
        have hlen := hunmixable amount' keyOffsets' kImage' hinput hdust
        rw [hfit.same _ hin _ hinput, TxIn.mixin, hlen]
    rw [TxIn.mixin] at hmixin
    omega

end

end Wownero
