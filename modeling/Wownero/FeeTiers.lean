import Mathlib.Data.Nat.Digits.Lemmas
import Mathlib.Order.Bounds.Basic
import Wownero.Fee
import Wownero.Penalty
/-!
# The fees a wallet is told of

Four fees per byte, worked out from the reward and the medians, and rounded up to two decimal digits.
The rounding goes through the decimal digits of the amount.  What a transaction needs to be relayed is
worked out by another formula, which never asks for less than one unit a byte.
-/

namespace Wownero

/-! ### Rounding up to a few digits -/

/-- One more, by the decimal digits from the lowest: a nine becomes a zero and carries, and a carry out
    of the highest digit puts a one in front. -/
def bumpDigits : List Nat → List Nat
  | [] => [1]
  | d :: ds => if d = 9 then 0 :: bumpDigits ds else (d + 1) :: ds

/-- `round_money_up`, over the digits of `to_string` from the lowest: those past the kept ones become
    zeros, and if one of them was none already the kept ones are bumped.  A text that is no `u64` is
    the largest one. -/
def roundMoneyUp (amount significantDigits : Nat) : Option Nat :=
  if significantDigits = 0 then none
  else
    let digits := Nat.digits 10 amount
    if digits.length ≤ significantDigits then some amount
    else
      let cut := digits.length - significantDigits
      let kept := digits.drop cut
      let bump := (digits.take cut).any (· ≠ 0)
      let kept := if bump then bumpDigits kept else kept
      some (min (Nat.ofDigits 10 (List.replicate cut 0 ++ kept)) u64Max)

/-- At most so many significant decimal digits. -/
def HasDigits (k n : Nat) : Prop := ∃ m e, m < 10 ^ k ∧ n = m * 10 ^ e

theorem ofDigits_bumpDigits (ds : List Nat) :
    Nat.ofDigits 10 (bumpDigits ds) = Nat.ofDigits 10 ds + 1 := by
  induction ds with
  | nil => rfl
  | cons d ds ih =>
      rw [bumpDigits]
      split
      case isTrue hnine =>
        rw [Nat.ofDigits_cons, Nat.ofDigits_cons, ih, hnine]
        ring
      case isFalse =>
        rw [Nat.ofDigits_cons, Nat.ofDigits_cons]
        ring

theorem ofDigits_eq_zero_iff {ds : List Nat} :
    Nat.ofDigits 10 ds = 0 ↔ ds.any (· ≠ 0) = false := by
  induction ds with
  | nil => exact ⟨fun _ => rfl, fun _ => rfl⟩
  | cons d ds ih =>
      rw [Nat.ofDigits_cons, List.any_cons, Bool.or_eq_false_iff, ← ih, decide_eq_false_iff_not,
        Decidable.not_not]
      omega

section

variable {a b k c : Nat}

/-- `a` up to a multiple of `10 ^ c`. -/
def ceilTo (a c : Nat) : Nat := (a / 10 ^ c + if a % 10 ^ c = 0 then 0 else 1) * 10 ^ c

theorem le_ceilTo : a ≤ ceilTo a c := by
  have hpos : 0 < 10 ^ c := Nat.pow_pos (by decide)
  have hdiv := Nat.div_add_mod a (10 ^ c)
  have hmod := Nat.mod_lt a hpos
  unfold ceilTo
  split
  · rw [Nat.add_zero, Nat.mul_comm]
    omega
  · rw [Nat.add_mul, Nat.one_mul, Nat.mul_comm]
    omega

/-- No multiple lies between. -/
theorem ceilTo_le {m : Nat} (h : a ≤ m * 10 ^ c) : ceilTo a c ≤ m * 10 ^ c := by
  have hpos : 0 < 10 ^ c := Nat.pow_pos (by decide)
  unfold ceilTo
  apply Nat.mul_le_mul_right
  have hle : a / 10 ^ c ≤ m := Nat.div_le_of_le_mul (by rwa [Nat.mul_comm] at h)
  split
  case isTrue => exact hle
  case isFalse hmod =>
    have hdiv := Nat.div_add_mod a (10 ^ c)
    apply Nat.lt_of_le_of_ne hle
    intro heq
    rw [heq, Nat.mul_comm] at hdiv
    omega

theorem pow_le_of_length (h : k < (Nat.digits 10 a).length) : 10 ^ k ≤ a := by
  by_contra hlt
  have hlen := (Nat.digits_length_le_iff (by decide) a).mpr (Nat.not_le.mp hlt)
  omega

/-- A number of more digits has its least bound of `k` digits at the next multiple. -/
theorem ceilTo_isLeast (hk : 0 < k) (hlen : k < (Nat.digits 10 a).length) :
    IsLeast {n | a ≤ n ∧ HasDigits k n} (ceilTo a ((Nat.digits 10 a).length - k)) := by
  obtain ⟨c, hc⟩ : ∃ c, (Nat.digits 10 a).length = k + c := ⟨_, (Nat.add_sub_of_le hlen.le).symm⟩
  have hhigh : a < 10 ^ (k + c) := hc ▸ Nat.lt_base_pow_length_digits (by decide)
  have hlow : 10 ^ (k + c - 1) ≤ a := pow_le_of_length (by omega)
  rw [hc, Nat.add_sub_cancel_left]
  refine ⟨⟨le_ceilTo, ?_⟩, ?_⟩
  · have hquot : a / 10 ^ c < 10 ^ k :=
      Nat.div_lt_of_lt_mul (by rwa [← Nat.pow_add, Nat.add_comm])
    by_cases hroom : (a / 10 ^ c + if a % 10 ^ c = 0 then 0 else 1) < 10 ^ k
    · exact ⟨_, c, hroom, rfl⟩
    · -- the carry out of the highest digit leaves a power of ten
      have hfull : (a / 10 ^ c + if a % 10 ^ c = 0 then 0 else 1) = 10 ^ k := by
        split_ifs at hroom ⊢ <;> omega
      refine ⟨1, k + c, Nat.one_lt_pow (by omega) (by decide), ?_⟩
      rw [ceilTo, hfull, Nat.one_mul, Nat.pow_add]
  · rintro n ⟨hle, m, e, hm, rfl⟩
    by_cases he : c ≤ e
    · obtain ⟨f, rfl⟩ := Nat.exists_eq_add_of_le he
      rw [Nat.pow_add, Nat.mul_comm (10 ^ c), ← Nat.mul_assoc] at hle ⊢
      exact ceilTo_le hle
    · have hsmall : m * 10 ^ e < 10 ^ k * 10 ^ e :=
        Nat.mul_lt_mul_of_pos_right hm (Nat.pow_pos (by decide))
      rw [← Nat.pow_add] at hsmall
      have hpow : 10 ^ (k + e) ≤ 10 ^ (k + c - 1) := Nat.pow_le_pow_right (by decide) (by omega)
      omega

theorem isLeast_self (h : (Nat.digits 10 a).length ≤ k) : IsLeast {n | a ≤ n ∧ HasDigits k n} a := by
  refine ⟨⟨Nat.le_refl a, a, 0, ?_, (Nat.mul_one a).symm⟩, fun n hn => hn.1⟩
  exact Nat.lt_of_lt_of_le (Nat.lt_base_pow_length_digits (by decide)) (Nat.pow_le_pow_right (by decide) h)

/-- What the digits are put together to is the next multiple. -/
theorem ofDigits_kept (a c : Nat) :
    Nat.ofDigits 10 (List.replicate c 0 ++
      if ((Nat.digits 10 a).take c).any (· ≠ 0) then bumpDigits ((Nat.digits 10 a).drop c)
      else (Nat.digits 10 a).drop c) = ceilTo a c := by
  have hmod : Nat.ofDigits 10 ((Nat.digits 10 a).take c) = a % 10 ^ c :=
    (Nat.self_mod_pow_eq_ofDigits_take c a (by decide)).symm
  have hdiv : Nat.ofDigits 10 ((Nat.digits 10 a).drop c) = a / 10 ^ c :=
    (Nat.self_div_pow_eq_ofDigits_drop c a (by decide)).symm
  rw [Nat.ofDigits_append, Nat.ofDigits_replicate_zero, List.length_replicate, Nat.zero_add, ceilTo,
    Nat.mul_comm]
  congr 1
  by_cases hzero : a % 10 ^ c = 0
  · have hany := ofDigits_eq_zero_iff.mp (hmod.trans hzero)
    rw [if_neg (by rw [hany]; decide), if_pos hzero, hdiv, Nat.add_zero]
  · have hany : ((Nat.digits 10 a).take c).any (· ≠ 0) = true := by
      rw [← Bool.not_eq_false]
      exact fun h => hzero (hmod.symm.trans (ofDigits_eq_zero_iff.mpr h))
    rw [if_pos hany, if_neg hzero, ofDigits_bumpDigits, hdiv]

/-- The least number from `a` on with that few digits, or the largest `u64`. -/
theorem roundMoneyUp_spec (hk : 0 < k) (ha : a ≤ u64Max) :
    ∃ n, IsLeast {n | a ≤ n ∧ HasDigits k n} n ∧ roundMoneyUp a k = some (min n u64Max) := by
  unfold roundMoneyUp
  rw [if_neg (by omega)]
  dsimp only
  split
  case isTrue hlen => exact ⟨a, isLeast_self hlen, by rw [Nat.min_eq_left ha]⟩
  case isFalse hlen =>
    refine ⟨_, ceilTo_isLeast hk (by omega), ?_⟩
    rw [ofDigits_kept]

theorem roundMoneyUp_ge {n : Nat} (ha : a ≤ u64Max) (h : roundMoneyUp a k = some n) :
    a ≤ n ∧ n ≤ u64Max := by
  have hk : 0 < k := by
    by_contra hk
    rw [roundMoneyUp, if_pos (by omega)] at h
    exact Option.some_ne_none n h.symm
  obtain ⟨least, hleast, heq⟩ := roundMoneyUp_spec hk ha
  rw [heq, Option.some.injEq] at h
  subst h
  exact ⟨le_min hleast.1.1 ha, min_le_right _ _⟩

theorem roundMoneyUp_mono {n m : Nat} (hab : a ≤ b) (hb : b ≤ u64Max)
    (hn : roundMoneyUp a k = some n) (hm : roundMoneyUp b k = some m) : n ≤ m := by
  have hk : 0 < k := by
    by_contra hk
    rw [roundMoneyUp, if_pos (by omega)] at hn
    exact Option.some_ne_none n hn.symm
  obtain ⟨leastA, hleastA, heqA⟩ := roundMoneyUp_spec hk (Nat.le_trans hab hb)
  obtain ⟨leastB, hleastB, heqB⟩ := roundMoneyUp_spec hk hb
  rw [heqA, Option.some.injEq] at hn
  rw [heqB, Option.some.injEq] at hm
  subst hn hm
  exact min_le_min_right _ (hleastA.2 ⟨Nat.le_trans hab hleastB.1.1, hleastB.1.2⟩)

end

/-! ### The tiers -/

/-- `FeeTiers`. -/
structure FeeTiers where
  low : Nat
  normal : Nat
  medium : Nat
  high : Nat
  deriving DecidableEq, Repr

/-- `SCALING_2021_FEE_ROUNDING_PLACES`. -/
def scaling2021FeeRoundingPlaces : Nat := 2

/-- `fee_tiers_2021`; a median of zero divides by zero. -/
def feeTiers2021 (baseReward mnw mlw : Nat) : Option FeeTiers := do
  let mfw := min mnw mlw
  if mfw = 0 then none
  let mfw2 := mfw * mfw
  let fl := wrap64 (baseReward * 3000 / mfw2)
  let fnorm := wrap64 (4 * baseReward * 3000 / mfw2)
  let fm := wrap64 (16 * baseReward * 3000 / (fullRewardZoneV5 * mfw))
  let divisor := 32 * 3000 * mnw / fullRewardZoneV5
  let fhScaled := if divisor = 0 then 4 * fm else 4 * fm * mfw / divisor
  let fh := wrap64 (max (4 * fm) fhScaled)
  return {
    low := ← roundMoneyUp fl scaling2021FeeRoundingPlaces
    normal := ← roundMoneyUp fnorm scaling2021FeeRoundingPlaces
    medium := ← roundMoneyUp fm scaling2021FeeRoundingPlaces
    high := ← roundMoneyUp fh scaling2021FeeRoundingPlaces }

/-- `check_fee`. -/
def checkFee (ctx : FeeContext) (txWeight fee : Nat) : Option Bool := do
  return decide (fee ≥ (← requiredFee ctx txWeight).acceptedMinimum)

/-- The fees before they are rounded. -/
structure Unrounded (baseReward mnw mlw : Nat) (fl fnorm fm fh : Nat) : Prop where
  low : fl = baseReward * 3000 / (min mnw mlw * min mnw mlw)
  low_normal : fl ≤ fnorm
  normal_medium : fnorm ≤ fm
  medium_high : fm ≤ fh
  fits : fh ≤ u64Max

section

variable {baseReward mnw mlw : Nat}

theorem wrap64_self {n : Nat} (h : n < 2 ^ 64) : wrap64 n = n := Nat.mod_eq_of_lt h

/-- The scaled fee of a block is at most four times the reward. -/
theorem scaled_le {fm mfw mnw divisor : Nat} (hm : fm * mfw ≤ 2 ^ 62) (hmnw : 300000 ≤ mnw)
    (hdivisor : divisor = 32 * 3000 * mnw / 300000) : 4 * fm * mfw / divisor < 2 ^ 64 := by
  have hone : 1 < divisor := by omega
  calc 4 * fm * mfw / divisor ≤ 4 * (fm * mfw) / 2 := by
        rw [Nat.mul_assoc]
        exact Nat.div_le_div_left hone (by decide)
    _ < 2 ^ 64 := by omega

/-- No median from the zone on takes a fee out of its word or out of its order. -/
theorem unrounded (hreward : baseReward < 2 ^ 44) (hmnw : 300000 ≤ mnw) (hmlw : 300000 ≤ mlw) :
    ∃ fl fnorm fm fh, Unrounded baseReward mnw mlw fl fnorm fm fh ∧
      feeTiers2021 baseReward mnw mlw = (do
        let low ← roundMoneyUp fl scaling2021FeeRoundingPlaces
        let normal ← roundMoneyUp fnorm scaling2021FeeRoundingPlaces
        let medium ← roundMoneyUp fm scaling2021FeeRoundingPlaces
        let high ← roundMoneyUp fh scaling2021FeeRoundingPlaces
        return ⟨low, normal, medium, high⟩) := by
  obtain ⟨mfw, hmfw⟩ : ∃ mfw, min mnw mlw = mfw := ⟨_, rfl⟩
  have hzone : 300000 ≤ mfw := by omega
  have hsquare : 300000 * mfw ≤ mfw * mfw := Nat.mul_le_mul_right _ hzone
  have hlarge : 300000 * 300000 ≤ 300000 * mfw := Nat.mul_le_mul_left _ hzone
  have hfour : baseReward * 3000 ≤ 4 * baseReward * 3000 :=
    Nat.mul_le_mul_right _ (Nat.le_mul_of_pos_left _ (by decide))
  have hsixteen : 4 * baseReward * 3000 ≤ 16 * baseReward * 3000 :=
    Nat.mul_le_mul_right _ (Nat.mul_le_mul_right _ (by decide))
  have hlow : baseReward * 3000 / (mfw * mfw) < 2 ^ 64 :=
    Nat.lt_of_le_of_lt (Nat.div_le_self _ _) (by omega)
  have hnormal : 4 * baseReward * 3000 / (mfw * mfw) < 2 ^ 64 :=
    Nat.lt_of_le_of_lt (Nat.div_le_self _ _) (by omega)
  have hmedium : 16 * baseReward * 3000 / (300000 * mfw) < 2 ^ 61 :=
    Nat.lt_of_le_of_lt (Nat.div_le_self _ _) (by omega)
  obtain ⟨fm, hfm⟩ : ∃ fm, 16 * baseReward * 3000 / (300000 * mfw) = fm := ⟨_, rfl⟩
  have hproduct : fm * mfw ≤ 2 ^ 62 := by
    have h : fm * (300000 * mfw) ≤ 16 * baseReward * 3000 := hfm ▸ Nat.div_mul_le_self _ _
    have hassoc : fm * (300000 * mfw) = 300000 * (fm * mfw) := by ring
    omega
  rw [hfm] at hmedium
  obtain ⟨divisor, hdivisor⟩ : ∃ divisor, 32 * 3000 * mnw / 300000 = divisor := ⟨_, rfl⟩
  obtain ⟨fh, hfh⟩ : ∃ fh, max (4 * fm) (if divisor = 0 then 4 * fm
      else 4 * fm * mfw / divisor) = fh := ⟨_, rfl⟩
  have hhigh : 4 * fm ≤ fh ∧ fh < 2 ^ 64 := by
    have hscaled := scaled_le hproduct hmnw hdivisor.symm
    rw [if_neg (by omega)] at hfh
    omega
  refine ⟨baseReward * 3000 / (mfw * mfw), 4 * baseReward * 3000 / (mfw * mfw), fm, fh,
    ⟨by rw [hmfw], ?_, ?_, by omega, ?_⟩, ?_⟩
  · exact Nat.div_le_div_right hfour
  · calc 4 * baseReward * 3000 / (mfw * mfw) ≤ 4 * baseReward * 3000 / (300000 * mfw) :=
          Nat.div_le_div_left hsquare (by omega)
      _ ≤ 16 * baseReward * 3000 / (300000 * mfw) := Nat.div_le_div_right hsixteen
      _ = fm := hfm
  · unfold u64Max
    omega
  · unfold feeTiers2021
    dsimp only
    rw [hmfw, if_neg (by omega), wrap64_self hlow, wrap64_self hnormal, fullRewardZoneV5, hfm,
      wrap64_self (by omega), hdivisor, hfh, wrap64_self hhigh.2]

/-- The tiers ascend, and the low one is no less than the fee before it was rounded. -/
theorem feeTiers2021_spec (hreward : baseReward < 2 ^ 44) (hmnw : 300000 ≤ mnw)
    (hmlw : 300000 ≤ mlw) :
    ∃ tiers, feeTiers2021 baseReward mnw mlw = some tiers ∧ tiers.low ≤ tiers.normal ∧
      tiers.normal ≤ tiers.medium ∧ tiers.medium ≤ tiers.high ∧
      roundMoneyUp (baseReward * 3000 / (min mnw mlw * min mnw mlw)) scaling2021FeeRoundingPlaces
        = some tiers.low := by
  obtain ⟨fl, fnorm, fm, fh, horder, heq⟩ := unrounded hreward hmnw hmlw
  have hfits := horder.fits
  have hhigh := horder.medium_high
  have hmedium := horder.normal_medium
  have hnormal := horder.low_normal
  have hround {a : Nat} (ha : a ≤ u64Max) : ∃ n, roundMoneyUp a scaling2021FeeRoundingPlaces = some n :=
    let ⟨_, _, h⟩ := roundMoneyUp_spec (by decide) ha
    ⟨_, h⟩
  obtain ⟨low, hl⟩ := hround (Nat.le_trans hnormal (by omega))
  obtain ⟨normal, hn⟩ := hround (Nat.le_trans hmedium (by omega))
  obtain ⟨medium, hm⟩ := hround (Nat.le_trans hhigh hfits)
  obtain ⟨high, hh⟩ := hround hfits
  refine ⟨⟨low, normal, medium, high⟩, ?_, ?_, ?_, ?_, ?_⟩
  · rw [heq, hl, hn, hm, hh]
    rfl
  · exact roundMoneyUp_mono hnormal (by omega) hl hn
  · exact roundMoneyUp_mono hmedium (by omega) hn hm
  · exact roundMoneyUp_mono hhigh hfits hm hh
  · rw [← horder.low, hl]

end

/-! ### The advertised fee and the required one -/

/-- What the fee checks read of a chain from version 20 on, at medians of the full reward zone. -/
structure FeeContext.Scaled (ctx : FeeContext) : Prop where
  version : hfVersion2021Scaling ≤ ctx.version
  median : 300000 ≤ ctx.median
  longTerm : 300000 ≤ ctx.longTermEffectiveMedian

/-- Every tier, from the low one up, is enough for the transaction to be relayed. -/
def AdvertisedRelays (ctx : FeeContext) (weight : Nat) : Prop :=
  ∃ reward tiers, ctx.baseReward = some reward ∧
    feeTiers2021 reward ctx.median ctx.longTermEffectiveMedian = some tiers ∧
    tiers.low ≤ tiers.normal ∧ tiers.normal ≤ tiers.medium ∧ tiers.medium ≤ tiers.high ∧
    ∀ tier ∈ [tiers.low, tiers.normal, tiers.medium, tiers.high], weight * tier < 2 ^ 63 →
      checkFee ctx weight (quantizeUp (weight * tier)) = some true

namespace FeeContext.Scaled

variable {ctx : FeeContext}

theorem feeMedian (h : ctx.Scaled) : ctx.feeMedian = min ctx.median ctx.longTermEffectiveMedian := by
  have hversion := h.version
  unfold hfVersion2021Scaling at hversion
  rw [FeeContext.feeMedian, if_pos (by unfold hfVersionLongTermBlockWeight; omega)]

theorem baseReward (h : ctx.Scaled) :
    ctx.baseReward = some (Wownero.baseReward ctx.alreadyGeneratedCoins) := by
  have hversion := h.version
  have hmedian := h.median
  unfold hfVersion2021Scaling at hversion
  rw [FeeContext.baseReward, if_neg (by unfold hfVersionDynamicFee; omega), getBlockReward]
  dsimp only
  rw [if_pos (by omega), Wownero.baseReward]

/-- The fee a byte: the unrounded low tier less a twentieth, or one. -/
theorem getDynamicBaseFee (h : ctx.Scaled) {reward : Nat} (hreward : reward < 2 ^ 44) :
    getDynamicBaseFee reward ctx.feeMedian ctx.version =
      (let lo := reward * 3000 / (ctx.feeMedian * ctx.feeMedian)
       if lo - lo / 20 = 0 then 1 else lo - lo / 20) := by
  have hversion := h.version
  have hzone := (getMinBlockWeight_bounds ctx.version).2
  have hmedian : 300000 ≤ ctx.feeMedian := by
    rw [h.feeMedian]
    exact le_min h.median h.longTerm
  unfold hfVersion2021Scaling at hversion
  have hword : reward * 3000 / (ctx.feeMedian * ctx.feeMedian) < 2 ^ 64 :=
    Nat.lt_of_le_of_lt (Nat.div_le_self _ _) (by omega)
  rw [Wownero.getDynamicBaseFee]
  dsimp only
  rw [Nat.max_eq_left (by omega), if_pos (by unfold hfVersionPerByteFee; omega),
    if_pos (by unfold hfVersion2021Scaling; omega), Nat.div_div_eq_div_mul, wrap64_self hword]

theorem requiredFee (h : ctx.Scaled) (weight : Nat) {reward : Nat}
    (hreward : reward = Wownero.baseReward ctx.alreadyGeneratedCoins) :
    (requiredFee ctx weight).map (·.acceptedMinimum) =
      let needed := quantizeUp (saturatingMul weight
        (Wownero.getDynamicBaseFee reward ctx.feeMedian ctx.version))
      some (needed - needed / 50) := by
  have hversion := h.version
  unfold hfVersion2021Scaling at hversion
  rw [Wownero.requiredFee, h.baseReward, ← hreward, Option.bind_eq_bind, Option.bind_some, neededFee,
    if_pos (by unfold hfVersionPerByteFee; omega)]
  simp only [Option.pure_def, Option.map_some]

end FeeContext.Scaled

theorem quantizeUp_zero : quantizeUp 0 = 0 := quantizeUp_eq (by decide)

theorem quantizeUp_pos {v : Nat} (h : 0 < v) : 1000 ≤ quantizeUp v := by
  obtain hnone | ⟨sum, hsum⟩ : checkedAdd v (feeQuantizationMask - 1) = none ∨
      ∃ sum, checkedAdd v (feeQuantizationMask - 1) = some sum := Option.eq_none_or_eq_some _
  · unfold quantizeUp
    rw [hnone]
    show 1000 ≤ u64Max / feeQuantizationMask * feeQuantizationMask
    rw [Nat.mul_comm]
    exact Nat.le_mul_of_pos_right _ (by decide)
  · rw [quantizeUp_of_add hsum]
    rw [checkedAdd_eq_some, feeQuantizationMask] at hsum
    omega

/-- The fee a byte from version 20 on, of an unrounded low tier. -/
def unitFee (lo : Nat) : Nat := if lo - lo / 20 = 0 then 1 else lo - lo / 20

theorem unitFee_zero : unitFee 0 = 1 := rfl

/-- From one on the tier covers the fee. -/
theorem unitFee_le {lo : Nat} (h : 0 < lo) : unitFee lo ≤ lo := by
  unfold unitFee
  split <;> omega

section

variable {ctx : FeeContext} {weight : Nat}

theorem checkFee_iff (h : ctx.Scaled) {fee lo : Nat}
    (hlo : lo = baseReward ctx.alreadyGeneratedCoins * 3000 / (ctx.feeMedian * ctx.feeMedian)) :
    checkFee ctx weight fee = some true ↔
      quantizeUp (saturatingMul weight (unitFee lo)) -
        quantizeUp (saturatingMul weight (unitFee lo)) / 50 ≤ fee := by
  have hrequired := h.requiredFee weight rfl
  rw [h.getDynamicBaseFee (baseReward_lt _)] at hrequired
  dsimp only at hrequired
  rw [← hlo, ← unitFee] at hrequired
  obtain ⟨required, heq, hmin⟩ := Option.map_eq_some_iff.mp hrequired
  rw [checkFee, heq, Option.bind_eq_bind, Option.bind_some, hmin]
  exact ⟨fun hsome => of_decide_eq_true (Option.some.inj hsome), fun hle =>
    congrArg some (decide_eq_true hle)⟩

/-- A tier that covers the unit fee is relayed. -/
theorem checkFee_of_le (h : ctx.Scaled) {tier lo : Nat}
    (hlo : lo = baseReward ctx.alreadyGeneratedCoins * 3000 / (ctx.feeMedian * ctx.feeMedian))
    (hpos : 0 < lo) (htier : lo ≤ tier) (hfits : weight * tier < 2 ^ 63) :
    checkFee ctx weight (quantizeUp (weight * tier)) = some true := by
  rw [checkFee_iff h hlo]
  have hmul : weight * unitFee lo ≤ weight * tier :=
    Nat.mul_le_mul_left _ (Nat.le_trans (unitFee_le hpos) htier)
  rw [saturatingMul_exact (by omega)]
  exact Nat.le_trans (Nat.sub_le _ _) (quantizeUp_mono hmul (by omega))

/-- No fee at all is not relayed. -/
theorem checkFee_zero (h : ctx.Scaled) (hweight : 0 < weight)
    (hlo : 0 = baseReward ctx.alreadyGeneratedCoins * 3000 / (ctx.feeMedian * ctx.feeMedian)) :
    checkFee ctx weight 0 ≠ some true := by
  rw [ne_eq, checkFee_iff h hlo, unitFee_zero, saturatingMul, Nat.mul_one]
  have hone : 1000 ≤ quantizeUp (min weight u64Max) := quantizeUp_pos (by unfold u64Max; omega)
  omega

theorem checkFee_weightless (h : ctx.Scaled) (fee : Nat) : checkFee ctx 0 fee = some true := by
  rw [checkFee_iff h rfl, saturatingMul, Nat.zero_mul]
  exact Nat.zero_le fee

theorem advertisedRelays_iff (h : ctx.Scaled) :
    AdvertisedRelays ctx weight ↔ weight = 0 ∨
      ctx.feeMedian * ctx.feeMedian ≤ baseReward ctx.alreadyGeneratedCoins * 3000 := by
  have hmedian : 300000 ≤ ctx.feeMedian := by
    rw [h.feeMedian]
    exact le_min h.median h.longTerm
  have hsquare : 0 < ctx.feeMedian * ctx.feeMedian := Nat.mul_pos (by omega) (by omega)
  obtain ⟨tiers, htiers, hnormal, hmedium, hhigh, hlow⟩ :=
    feeTiers2021_spec (baseReward_lt ctx.alreadyGeneratedCoins) h.median h.longTerm
  rw [← h.feeMedian] at hlow
  obtain ⟨lo, hlo⟩ : ∃ lo, lo = baseReward ctx.alreadyGeneratedCoins * 3000 /
      (ctx.feeMedian * ctx.feeMedian) := ⟨_, rfl⟩
  rw [← hlo] at hlow
  have hword : lo ≤ u64Max := by
    have hreward := baseReward_lt ctx.alreadyGeneratedCoins
    have hdiv := Nat.div_le_self (baseReward ctx.alreadyGeneratedCoins * 3000)
      (ctx.feeMedian * ctx.feeMedian)
    unfold u64Max
    omega
  have hpos : 0 < lo ↔ ctx.feeMedian * ctx.feeMedian ≤ baseReward ctx.alreadyGeneratedCoins * 3000 := by
    rw [hlo, Nat.div_pos_iff]
    exact and_iff_right hsquare
  rw [← hpos]
  constructor
  · rintro ⟨reward, tiers', hreward, htiers', -, -, -, hall⟩
    rw [h.baseReward, Option.some.injEq] at hreward
    subst hreward
    obtain rfl : tiers = tiers' := Option.some.inj (htiers.symm.trans htiers')
    by_contra hnot
    rw [not_or, Nat.not_lt, Nat.le_zero] at hnot
    have hzero : tiers.low = 0 := by
      rw [hnot.2] at hlow
      exact (Option.some.inj hlow).symm
    have hfree := hall tiers.low (List.mem_cons_self ..) (by rw [hzero, Nat.mul_zero]; decide)
    rw [hzero, Nat.mul_zero, quantizeUp_zero] at hfree
    exact checkFee_zero h (Nat.pos_of_ne_zero hnot.1) (hnot.2.symm.trans hlo) hfree
  · intro hcase
    refine ⟨_, tiers, h.baseReward, htiers, hnormal, hmedium, hhigh, fun tier hmem hfits => ?_⟩
    rcases hcase with rfl | hpos
    · exact checkFee_weightless h _
    · have hge := (roundMoneyUp_ge hword hlow).1
      have htier : tiers.low ≤ tier := by
        simp only [List.mem_cons, List.not_mem_nil, or_false] at hmem
        omega
      exact checkFee_of_le h hlo hpos (Nat.le_trans hge htier) hfits

end

/-- The advertised fee is relayed wherever it does not round down to nothing: for a transaction without
    weight, and while the reward has not fallen below a 3000th of the squared median.  Rounding finds
    the least number above with that few digits, or the largest `u64`, and keeps the order. -/
theorem advertised_fee_relays (ctx : FeeContext) (weight a b k : Nat) :
    (ctx.Scaled →
      (AdvertisedRelays ctx weight ↔ weight = 0 ∨
        ctx.feeMedian * ctx.feeMedian ≤ baseReward ctx.alreadyGeneratedCoins * 3000)) ∧
    (0 < k → a ≤ u64Max → ∃ n, IsLeast {n | a ≤ n ∧ HasDigits k n} n ∧
      roundMoneyUp a k = some (min n u64Max)) ∧
    (∀ n m : Nat, a ≤ b → b ≤ u64Max → roundMoneyUp a k = some n → roundMoneyUp b k = some m →
      n ≤ m) :=
  ⟨fun h => advertisedRelays_iff h, roundMoneyUp_spec, fun _ _ => roundMoneyUp_mono⟩

/-- A chain at the smallest medians, at some supply. -/
def smallChain (coins : Nat) : FeeContext := ⟨20, 600000, 300000, coins⟩

theorem smallChain_scaled (coins : Nat) : (smallChain coins).Scaled :=
  ⟨Nat.le_refl 20, show 300000 ≤ 600000 / 2 by decide, Nat.le_refl 300000⟩

theorem advertised_fee_relays_small : AdvertisedRelays (smallChain 5000000000000000) 2000 :=
  ((advertised_fee_relays _ 2000 0 0 0).1 (smallChain_scaled _)).mpr (Or.inr (by decide))

/-- Once the supply is out, all four tiers are zero and a fee of nothing is turned away. -/
theorem free_tiers_refused :
    (smallChain u64Max).Scaled ∧ (smallChain u64Max).baseReward = some 0 ∧
      feeTiers2021 0 (smallChain u64Max).median (smallChain u64Max).longTermEffectiveMedian
        = some ⟨0, 0, 0, 0⟩ ∧
      checkFee (smallChain u64Max) 2000 (quantizeUp (2000 * 0)) = some false :=
  ⟨smallChain_scaled _, by decide, by decide, by decide⟩

end Wownero
