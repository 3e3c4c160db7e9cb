import Wownero.SweepSound
/-!
# What a payment costs and what is there for it

The estimates of one and of two inputs, the fee for them and the value below which an output counts as
fractional, where the machine's arithmetic is exact; and the early look at the balances, which finds at
least what any of the outputs hold.
-/

namespace Wownero.Planning

variable {transfers : List Transfer} {options : SpendOptions}

/-! ### Estimates -/

/-- What each input adds to the estimate. -/
def inputSize (options : SpendOptions) : Nat := 34 * (options.ringSize - 1 + 1) + 135

/-- What one destination and change add to the estimate, and what every transaction has. -/
def outputsSize (options : SpendOptions) : Nat := 813 + options.extraSize

/-- The fee that two inputs and two outputs need. -/
def twoInputFee (options : SpendOptions) : Nat :=
  feeFromWeight options.feePerByte (weightWith options 2 2)

/-- The arithmetic of a payment of one destination is exact. -/
structure Exact (transfers : List Transfer) (options : SpendOptions) : Prop where
  sizes : 2 * inputSize options + outputsSize options < 2 ^ 64
  fees : (2 * inputSize options + outputsSize options) * options.feePerByte + 1000 ≤ 2 ^ 64
  funds : (transfers.map (·.amount)).sum + options.pendingChange < 2 ^ 64

end Wownero.Planning
