import Wownero.Chain
/-!
# Fees

The fee a transaction has to pay to be relayed, as a function of the weights and the supply the
chain stands at.  No block is refused over it.
-/

namespace Wownero

/-- `HF_VERSION_DYNAMIC_FEE`. -/
def hfVersionDynamicFee : Nat := 4

/-- `HF_VERSION_PER_BYTE_FEE`. -/
def hfVersionPerByteFee : Nat := 12

/-- `FEE_QUANTIZATION_MASK`. -/
def feeQuantizationMask : Nat := 1000

/-- `FEE_PER_KB`. -/
def feePerKb : Nat := 2000000000

/-- `quantize_up`: up to a multiple of the mask, or to the last one below the top of the type. -/
def quantizeUp (v : Nat) : Nat :=
  match checkedAdd v (feeQuantizationMask - 1) with
  | some x => x / feeQuantizationMask * feeQuantizationMask
  | none => u64Max / feeQuantizationMask * feeQuantizationMask

theorem quantizeUp_of_add {v sum : Nat} (h : checkedAdd v (feeQuantizationMask - 1) = some sum) :
    quantizeUp v = sum / 1000 * 1000 := by
  unfold quantizeUp
  rw [h]
  rw [feeQuantizationMask]

theorem quantizeUp_eq {v : Nat} (h : v + 1000 ≤ 2 ^ 64) : quantizeUp v = (v + 999) / 1000 * 1000 := by
  apply quantizeUp_of_add
  rw [checkedAdd_eq_some, u64Max, feeQuantizationMask]
  omega

theorem quantizeUp_mono {v w : Nat} (h : v ≤ w) (hw : w + 1000 ≤ 2 ^ 64) :
    quantizeUp v ≤ quantizeUp w := by
  rw [quantizeUp_eq hw, quantizeUp_eq (by omega)]
  exact Nat.mul_le_mul_right _ (Nat.div_le_div_right (by omega))

theorem saturatingMul_exact {a b : Nat} (h : a * b + 1000 ≤ 2 ^ 64) : saturatingMul a b = a * b := by
  unfold saturatingMul u64Max
  omega

/-- `get_dynamic_base_fee`: per byte from version 12, per kilobyte before. -/
def getDynamicBaseFee (blockReward medianBlockWeight version : Nat) : Nat :=
  let minBlockWeight := getMinBlockWeight version
  let median := max medianBlockWeight minBlockWeight
  if version ≥ hfVersionPerByteFee then
    let v := blockReward * 3000 / median
    if version ≥ hfVersion2021Scaling then
      let lo := wrap64 (v / median)
      let lo := lo - lo / 20
      if lo = 0 then 1 else lo
    else wrap64 (v / minBlockWeight) / 5
  else
    let feeBase := if version ≥ 5 then 400000000 else 2000000000
    let unscaled := feeBase * minBlockWeight / median
    quantizeUp (wrap64 (unscaled * blockReward / 10000000000000))

/-- `FeeContext`: what the fee checks read of the chain. -/
structure FeeContext where
  version : Nat
  cumulativeWeightLimit : Nat
  longTermEffectiveMedian : Nat
  alreadyGeneratedCoins : Nat
  deriving DecidableEq, Repr

def FeeContext.median (ctx : FeeContext) : Nat := ctx.cumulativeWeightLimit / 2

def FeeContext.feeMedian (ctx : FeeContext) : Nat :=
  if ctx.version ≥ hfVersionLongTermBlockWeight then min ctx.median ctx.longTermEffectiveMedian
  else ctx.median

/-- `base_reward`: the reward of a block of weight one. -/
def FeeContext.baseReward (ctx : FeeContext) : Option Nat :=
  if ctx.version < hfVersionDynamicFee then some 0
  else getBlockReward ctx.median 1 ctx.alreadyGeneratedCoins ctx.version

structure RequiredFee where
  needed : Nat
  acceptedMinimum : Nat
  unitFee : Nat
  deriving DecidableEq, Repr

/-- `needed_fee` and the unit it was computed from. -/
def neededFee (ctx : FeeContext) (baseReward txWeight : Nat) : Nat × Nat :=
  if ctx.version ≥ hfVersionPerByteFee then
    let feePerByte := getDynamicBaseFee baseReward ctx.feeMedian ctx.version
    (quantizeUp (saturatingMul txWeight feePerByte), feePerByte)
  else
    let unit := if ctx.version < hfVersionDynamicFee then feePerKb
      else getDynamicBaseFee baseReward ctx.median ctx.version
    let kb := txWeight / 1024 + if txWeight % 1024 = 0 then 0 else 1
    (saturatingMul kb unit, unit)

/-- `required_fee`. -/
def requiredFee (ctx : FeeContext) (txWeight : Nat) : Option RequiredFee := do
  let baseReward ← ctx.baseReward
  let needed := neededFee ctx baseReward txWeight
  return ⟨needed.1, needed.1 - needed.1 / 50, needed.2⟩

/-- `fee_context_of`. -/
def feeContextOf {σ : Type} (P : Params σ) (c : Chain σ) : FeeContext where
  version := currentVersion P c.db.main
  cumulativeWeightLimit := c.state.weights.limit
  longTermEffectiveMedian :=
    c.state.weights.longTermEffectiveMedian.getD c.state.weights.median
  alreadyGeneratedCoins := c.state.alreadyGeneratedCoins

end Wownero
