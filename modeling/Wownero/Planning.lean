import Wownero.Fee
import Wownero.Wallet
/-!
# Choosing inputs and working out the fee

The three planners of the wallet: `plan`, which pays amounts out of one account, `plan_sweep`, which
sends all of one subaddress, and `plan_sweep_single`, which sends one output.  Each chooses outputs
and works a fee out of an estimated weight; none of them builds anything.

Whatever would stop the program rather than refuse the payment is kept apart from a refusal: an
index past the end of a list, a difference below zero, a loop that does not end.  Sums and products
wrap as they do in a release build.
-/

namespace Wownero.Planning

instance : Ranked UInt32 := ⟨UInt32.toNat, fun _ _ h => UInt32.toNat_inj.mp h⟩

/-! ### Estimates -/

/-- `MAX_OUTPUTS`. -/
def maxOutputs : Nat := 16

/-- `MIN_OUTPUTS`. -/
def minOutputs : Nat := 2

/-- `estimate_tx_size`, in `usize`. -/
def estimateTxSize (nInputs ringSize nOutputs extraSize : Nat) : Nat :=
  let mixin := ringSize - 1
  let logPaddedOutputs := clawbackNlr nOutputs 64 0
  wrap64 (1 + 6
    + nInputs * (1 + 6 + (mixin + 1) * 2 + 32)
    + nOutputs * (6 + 32)
    + extraSize
    + 1
    + ((2 * (6 + logPaddedOutputs) + 6) * 32 + 3)
    + nInputs * (32 * (mixin + 1) + 64)
    + nOutputs
    + 32 * nInputs
    + 8 * nOutputs
    + 32 * nOutputs
    + 4)

/-- `bp_base`: half the size of a proof of two outputs. -/
def bpBase : Nat := 32 * (6 + 7 * 2) / 2

/-- `bp_size`: the size of one proof over `2 ^ logPaddedOutputs` outputs. -/
def bpSize (logPaddedOutputs : Nat) : Nat := 32 * (6 + 2 * (6 + logPaddedOutputs))

/-- The `log_padded_outputs` of the clawback, which starts at two. -/
def clawbackLog (nOutputs : Nat) : Nat := clawbackNlr nOutputs 64 2

/-- `estimate_tx_weight`. -/
def estimateTxWeight (nInputs ringSize nOutputs extraSize : Nat) : Nat :=
  let size := estimateTxSize nInputs ringSize nOutputs extraSize
  if nOutputs > 2 then
    let log := clawbackLog nOutputs
    wrap64 (size + (bpBase * 2 ^ log - bpSize log) * 4 / 5)
  else size

/-- `fee_from_weight`. -/
def feeFromWeight (baseFeePerByte weight : Nat) : Nat :=
  quantizeUp (saturatingMul weight baseFeePerByte)

/-! ### Options and plans -/

/-- `default_weight_limit`. -/
def defaultWeightLimit : Nat := (fullRewardZoneV5 / 2 - 600) * 2 / 3

structure SpendOptions where
  ringSize : Nat := 22
  feePerByte : Nat := 0
  extraSize : Nat := 44
  account : UInt32 := 0
  subaddrIndices : List UInt32 := []
  ignoreAbove : Nat := u64Max
  ignoreBelow : Nat := 0
  ignoreFractionalOutputs : Bool := true
  minOutputCount : Nat := 0
  minOutputValue : Nat := 0
  pendingChange : Nat := 0
  sweepBelow : Nat := 0
  chainHeight : Nat := 0
  now : Nat := 0
  weightLimit : Nat := defaultWeightLimit

/-- `SpendPlan`, with what the record of a sent transaction does not read. -/
structure SpendPlan extends Wownero.SpendPlan where
  estimatedWeight : Nat
  sweep : Bool
  leftBehind : Nat
  deriving DecidableEq, Repr

/-- `output_count`. -/
def SpendPlan.outputCount (p : SpendPlan) : Nat :=
  max (p.amounts.length + if p.change > 0 then 1 else 0) minOutputs

inductive SpendError where
  | noDestinations
  | tooManyDestinations (destinations : Nat)
  | zeroAmount
  | notEnough (available needed fee : Nat)
  | feeDidNotSettle (attempts : Nat)
  | tooHeavy (weight limit : Nat)
  | noSuchOutput
  | outputSpent
  | outputLocked
  | nothingToSpend
  deriving DecidableEq, Repr

/-- How planning ends without a plan. -/
inductive Stop where
  | refused (error : SpendError)
  /-- An index or a difference that the program panics at. -/
  | panicked
  /-- A loop that has not ended. -/
  | outOfFuel
  deriving DecidableEq, Repr

/-- An indexing `v[i]`. -/
def elemAt {α : Type} (v : List α) (i : Nat) : Except Stop α :=
  match v[i]? with
  | some a => .ok a
  | none => .error .panicked

/-- A subtraction. -/
def less (a b : Nat) : Except Stop Nat := if b ≤ a then .ok (a - b) else .error .panicked

/-- `FEE_CALCULATION_MAX_RETRIES`. -/
def feeCalculationMaxRetries : Nat := 10

/-- `DEFAULT_MIN_OUTPUT_COUNT`. -/
def defaultMinOutputCount : Nat := 5

/-- `DEFAULT_MIN_OUTPUT_VALUE`. -/
def defaultMinOutputValue : Nat := 2 * 100000000000

/-! ### Randomness -/

/-- `RandomSource`: the values it has yet to draw, whatever they are. -/
structure RandomSource where
  draws : Nat → UInt64
  drawn : Nat := 0

/-- `below`. -/
def RandomSource.below (rng : RandomSource) (n : Nat) : Nat × RandomSource :=
  if n = 0 then (0, rng)
  else ((rng.draws rng.drawn).toNat % n, { rng with drawn := rng.drawn + 1 })

/-! ### Which outputs -/

/-- `SPENDABLE_AGE`. -/
def spendableAge : Nat := 4

/-- `Transfer::unlocked`. -/
def unlocked (t : Transfer) (options : SpendOptions) : Bool :=
  isTxSpendtimeUnlocked t.unlockTime options.chainHeight options.now &&
    decide (wrap64 (t.blockHeight + spendableAge) ≤ options.chainHeight)

/-- `output_relatedness`, in tenths. -/
def outputRelatedness (a b : Transfer) : Nat :=
  if a.txid = b.txid then 10
  else
    match max a.blockHeight b.blockHeight - min a.blockHeight b.blockHeight with
    | 0 => 9
    | 1 => 8
    | n => if n ≤ 9 then 2 else 0

/-- How related an output is to those selected: the loop that stops at the most it can be. -/
def relatednessTo (transfers : List Transfer) (t : Transfer) : Nat → List Nat → Except Stop Nat
  | relatedness, [] => .ok relatedness
  | relatedness, s :: selected => do
    let r := outputRelatedness t (← elemAt transfers s)
    if r > relatedness then
      if r = 10 then return r else relatednessTo transfers t r selected
    else relatednessTo transfers t relatedness selected

/-- The positions among `unused`, from `n` on, of those least related to the selected. -/
def leastRelated (transfers : List Transfer) (selected : List Nat) :
    Nat → List Nat → Nat → List Nat → Except Stop (List Nat)
  | _, [], _, candidates => .ok candidates
  | n, i :: unused, best, candidates => do
    let relatedness ← relatednessTo transfers (← elemAt transfers i) 0 selected
    if relatedness < best then leastRelated transfers selected (n + 1) unused relatedness [n]
    else if relatedness = best then
      leastRelated transfers selected (n + 1) unused best (candidates ++ [n])
    else leastRelated transfers selected (n + 1) unused best candidates

/-- The amount of the output at a candidate's position. -/
def amountAt (transfers : List Transfer) (unused : List Nat) (c : Nat) : Except Stop Nat := do
  return (← elemAt transfers (← elemAt unused c)).amount

/-- The first of the smallest candidates: the loop from `n` on, the smallest so far at `at`. -/
def smallestFrom (transfers : List Transfer) (unused candidates : List Nat) :
    Nat → List Nat → Nat → Except Stop Nat
  | _, [], best => .ok best
  | n, c :: rest, best => do
    let amount ← amountAt transfers unused c
    let held ← amountAt transfers unused (← elemAt candidates best)
    smallestFrom transfers unused candidates (n + 1) rest (if amount < held then n else best)

/-- `Vec::swap_remove`: the last element takes the removed one's place. -/
def swapRemove (v : List Nat) (i : Nat) : Except Stop (Nat × List Nat) := do
  let removed ← elemAt v i
  return (removed, (v.set i (v.getLastD removed)).dropLast)

/-- `pop_best_value`. -/
def popBestValue (transfers : List Transfer) (unused selected : List Nat) (smallest : Bool)
    (rng : RandomSource) : Except Stop ((Nat × List Nat) × RandomSource) := do
  let candidates ← leastRelated transfers selected 0 unused 10 []
  if smallest then
    let pick ← smallestFrom transfers unused candidates 0 candidates 0
    return (← swapRemove unused (← elemAt candidates pick), rng)
  else
    let (pick, rng) := rng.below candidates.length
    return (← swapRemove unused (← elemAt candidates pick), rng)

/-- `pop_if_present`. -/
def popIfPresent (unused : List Nat) (index : Nat) : List Nat :=
  match unused.findIdx? (· == index) with
  | some i => (unused.set i (unused.getLastD index)).dropLast
  | none => unused

/-- What every planner asks of an output but for where it is. -/
def spendableNow (options : SpendOptions) (t : Transfer) : Bool :=
  !t.spent && !t.frozen && t.keyImage.isSome && unlocked t options

/-- `eligible`. -/
def eligible (options : SpendOptions) (indices : List UInt32) (t : Transfer) : Bool :=
  spendableNow options t && t.subaddress.major == options.account &&
    indices.contains t.subaddress.minor

/-- `outside_range`. -/
def outsideRange (options : SpendOptions) (t : Transfer) : Bool :=
  decide (t.amount > options.ignoreAbove) || decide (t.amount < options.ignoreBelow)

/-- Whether an output may be paired with `t`, as the inner loop of `pick_preferred_inputs` asks. -/
def pairs (options : SpendOptions) (needed : Nat) (t t₂ : Transfer) : Bool :=
  !outsideRange options t₂ && spendableNow options t₂ &&
    decide (saturatingAdd t.amount t₂.amount ≥ needed) && t₂.subaddress == t.subaddress

/-- The inner loop: the picks and how related they are, and whether the search is over. -/
def pairWith (options : SpendOptions) (needed i : Nat) (t : Transfer) :
    List (Transfer × Nat) → List Nat × Nat → (List Nat × Nat) × Bool
  | [], found => (found, false)
  | (t₂, j) :: rest, found =>
      let relatedness := outputRelatedness t t₂
      if pairs options needed t t₂ && decide (relatedness < found.2) then
        if relatedness = 0 then (([i, j], 0), true)
        else pairWith options needed i t rest ([i, j], relatedness)
      else pairWith options needed i t rest found

/-- The outer loop. -/
def leastRelatedPair (options : SpendOptions) (indices : List UInt32) (needed : Nat) :
    List (Transfer × Nat) → List Nat × Nat → List Nat
  | [], found => found.1
  | (t, i) :: rest, found =>
      if !eligible options indices t || outsideRange options t then
        leastRelatedPair options indices needed rest found
      else
        let (found, done) := pairWith options needed i t rest found
        if done then found.1 else leastRelatedPair options indices needed rest found

/-- `pick_preferred_inputs`. -/
def pickPreferredInputs (transfers : List Transfer) (needed : Nat) (options : SpendOptions)
    (indices : List UInt32) : List Nat :=
  match transfers.findIdx? fun t =>
      eligible options indices t && decide (t.amount ≥ needed) && !outsideRange options t with
  | some i => [i]
  | none => leastRelatedPair options indices needed transfers.zipIdx ([], 10)

/-- `num_outputs`. -/
def numOutputs (destinations : List Nat) (found : Nat) : Nat :=
  max (destinations.length + if found ≠ wrap64 destinations.sum then 1 else 0) minOutputs

/-- `fractional_threshold`. -/
def fractionalThreshold (options : SpendOptions) : Nat :=
  let one := estimateTxWeight 1 options.ringSize 2 0
  let two := estimateTxWeight 2 options.ringSize 2 0
  saturatingMul options.feePerByte (wrap64 (two + 2 ^ 64 - one))

/-! ### Balances and groups -/

/-- `*map.entry(k).or_default() += amount`. -/
def addAmount (per : Table UInt32 Nat) (k : UInt32) (amount : Nat) : Table UInt32 Nat :=
  per.put k (wrap64 ((per.get k).getD 0 + amount))

/-- `balance_per_subaddress`, without change on its way back. -/
def balancePerSubaddress (transfers : List Transfer) (options : SpendOptions) : Table UInt32 Nat :=
  (transfers.filter fun t => t.subaddress.major == options.account && !t.spent && !t.frozen).foldl
    (fun per t => addAmount per t.subaddress.minor t.amount) .empty

/-- `unlocked_balance_per_subaddress`. -/
def unlockedPerSubaddress (transfers : List Transfer) (options : SpendOptions) : Table UInt32 Nat :=
  (transfers.filter fun t => t.subaddress.major == options.account && !t.spent && !t.frozen).foldl
    (fun per t => addAmount per t.subaddress.minor (if unlocked t options then t.amount else 0)) .empty

/-- The balances `plan` goes by: change on its way back counts toward the main address. -/
def planBalance (transfers : List Transfer) (options : SpendOptions) : Table UInt32 Nat :=
  let balance := balancePerSubaddress transfers options
  if options.pendingChange > 0 then addAmount balance 0 options.pendingChange else balance

/-- The minor indices to spend from. -/
def planIndices (transfers : List Transfer) (options : SpendOptions) : List UInt32 :=
  if options.subaddrIndices.isEmpty then (planBalance transfers options).rows.map (·.1)
  else options.subaddrIndices.dedup

/-- `subtotal`. -/
def subtotal (indices : List UInt32) (per : Table UInt32 Nat) : Nat :=
  wrap64 (indices.filterMap per.get).sum

/-- An output goes to the end of its subaddress's group, a new one if there is none yet. -/
def addToGroup (minor : UInt32) (i : Nat) : List (UInt32 × List Nat) → List (UInt32 × List Nat)
  | [] => [(minor, [i])]
  | g :: groups =>
      if g.1 = minor then (g.1, g.2 ++ [i]) :: groups else g :: addToGroup minor i groups

/-- Whether `plan` leaves an output out for being worth less than an input costs. -/
def fractional (options : SpendOptions) (t : Transfer) : Bool :=
  options.ignoreFractionalOutputs && decide (t.amount < fractionalThreshold options)

/-- What may stand in a group. -/
def groupable (options : SpendOptions) (indices : List UInt32) (t : Transfer) : Bool :=
  !fractional options t && eligible options indices t && !outsideRange options t

/-- The groups, in the order their first outputs came. -/
def collectGroups (transfers : List Transfer) (options : SpendOptions) (indices : List UInt32) :
    List (UInt32 × List Nat) :=
  transfers.zipIdx.foldl (fun groups p =>
    if groupable options indices p.1 then addToGroup p.1.subaddress.minor p.2 groups else groups) []

/-- The groups, the one with the most unlocked first. -/
def sortGroups (unlocked : Table UInt32 Nat) (groups : List (UInt32 × List Nat)) :
    List (UInt32 × List Nat) :=
  groups.insertionSort fun g h => (unlocked.get h.1).getD 0 ≤ (unlocked.get g.1).getD 0

/-- The group of a subaddress and the first one change places. -/
def bringToFront (minor : UInt32) : List (UInt32 × List Nat) → List (UInt32 × List Nat)
  | [] => []
  | g :: groups =>
      match groups.findIdx? (·.1 == minor) with
      | some n => groups.getD n g :: groups.set n g
      | none => g :: groups

/-! ### The loop of `plan` -/

/-- What the loop changes. -/
structure PlanState where
  groups : List (UInt32 × List Nat)
  preferred : List Nat
  dsts : List Nat
  txDsts : List Nat := []
  originalOutputIndex : Nat := 0
  selected : List Nat := []
  addingFee : Bool := false
  neededFee : Nat := 0
  availableForFee : Nat := 0
  made : Option SpendPlan := none
  rng : RandomSource

/-- `dsts.first().is_some_and(|d| *d > 0)`. -/
def PlanState.owing (s : PlanState) : Bool := s.dsts.head?.any (0 < ·)

/-- `groups[0].1`. -/
def PlanState.front (s : PlanState) : Except Stop (List Nat) := do
  return (← elemAt s.groups 0).2

/-- The front group with other outputs left. -/
def PlanState.setFront (s : PlanState) (group : List Nat) : PlanState :=
  { s with groups := s.groups.modify 0 fun g => (g.1, group) }

/-- `add_destination`: nothing where no output is left for it. -/
def addDestination (txDsts : List Nat) (amount index : Nat) : Except Stop (Option (List Nat)) := do
  if index = txDsts.length ∧ txDsts.length ≥ maxOutputs - 1 then return none
  else
    let txDsts := if index = txDsts.length then txDsts ++ [0] else txDsts
    let held ← elemAt txDsts index
    return some (txDsts.set index (held + amount))

/-- What paying destinations out of an input leaves. -/
structure Paid where
  dsts : List Nat
  txDsts : List Nat
  originalOutputIndex : Nat
  available : Nat
  outSlotsExhausted : Bool

section Loop

variable (transfers : List Transfer) (options : SpendOptions)

/-- `weight_with`. -/
def weightWith (inputs outputs : Nat) : Nat :=
  estimateTxWeight inputs options.ringSize outputs options.extraSize

/-- "We can fully pay that destination". -/
def payFully (inputs : Nat) (txDsts : List Nat) (index available : Nat) :
    List Nat → Except Stop Paid
  | [] => .ok ⟨[], txDsts, index, available, false⟩
  | d :: dsts =>
      if d > available ∨ weightWith options inputs (txDsts.length + 1) ≥ options.weightLimit then
        .ok ⟨d :: dsts, txDsts, index, available, false⟩
      else do
        match ← addDestination txDsts d index with
        | none => return ⟨d :: dsts, txDsts, index, available, true⟩
        | some txDsts => payFully inputs txDsts (index + 1) (← less available d) dsts

/-- "We can partially fill that destination". -/
def payPartly (inputs : Nat) (p : Paid) : Except Stop Paid :=
  match p.dsts with
  | [] => .ok p
  | d :: dsts =>
      if !p.outSlotsExhausted && decide (p.available > 0) &&
          decide (weightWith options inputs (p.txDsts.length + 1) < options.weightLimit) then do
        match ← addDestination p.txDsts p.available p.originalOutputIndex with
        | some txDsts => return { p with txDsts := txDsts, dsts := (← less d p.available) :: dsts }
        | none => return { p with outSlotsExhausted := true }
      else .ok p

/-- `(min_value, min_count)`: how many outputs of what value a second input is to leave. -/
def secondInputBounds : Nat × Nat :=
  if options.minOutputValue = 0 ∧ options.minOutputCount = 0 then
    (defaultMinOutputValue, defaultMinOutputCount)
  else (options.minOutputValue, options.minOutputCount)

/-- The next input and what is left without it; nothing where the loop is left instead. -/
def chooseInput (s : PlanState) : Except Stop (Option (Nat × PlanState)) := do
  let front ← s.front
  match s.preferred.getLast? with
  | some p =>
      return some (p, { s with preferred := s.preferred.dropLast }.setFront (popIfPresent front p))
  | none =>
      if !s.owing && !s.addingFee then
        let ((second, _), rng) ← popBestValue transfers front s.selected true s.rng
        let held ← front.mapM (elemAt transfers)
        let above := held.countP fun t => decide (t.amount ≥ (secondInputBounds options).1)
        let t ← elemAt transfers second
        if t.amount ≥ (secondInputBounds options).1 ∧ above < (secondInputBounds options).2 then
          return none
        else
          let first ← elemAt transfers (← elemAt s.selected 0)
          if outputRelatedness t first > 0 then return none
          else return some (second, { s with rng := rng }.setFront (popIfPresent front second))
      else
        let ((idx, rest), rng) ← popBestValue transfers front s.selected false s.rng
        return some (idx, { s with rng := rng }.setFront rest)

/-- The new input goes to the fee or to the destinations.  Answers whether the outputs ran out. -/
def spendInput (s : PlanState) (available : Nat) : Except Stop (PlanState × Bool) :=
  if s.addingFee then
    .ok ({ s with availableForFee := saturatingAdd s.availableForFee available }, false)
  else do
    let p ← payFully options s.selected.length s.txDsts s.originalOutputIndex available s.dsts
    let p ← payPartly options s.selected.length p
    return ({ s with dsts := p.dsts, txDsts := p.txDsts,
                     originalOutputIndex := p.originalOutputIndex }, p.outSlotsExhausted)

/-- `try_tx`. -/
def tryTx (s : PlanState) (outSlotsExhausted : Bool) : Except Stop Bool :=
  if outSlotsExhausted then .ok true
  else if !s.preferred.isEmpty then .ok false
  else if s.addingFee then .ok (decide (s.availableForFee ≥ s.neededFee))
  else
    let weight := weightWith options s.selected.length (s.txDsts.length + 1)
    let full := s.dsts.isEmpty || decide (weight ≥ options.weightLimit)
    if full && s.txDsts.isEmpty then .error (.refused (.tooHeavy weight options.weightLimit))
    else .ok full

/-- What the selected inputs hold. -/
def foundBy (selected : List Nat) : Except Stop Nat := do
  return wrap64 ((← selected.mapM (elemAt transfers)).map (·.amount)).sum

/-- An attempt: a plan, if the inputs cover the fee of what they weigh. -/
def attempt (s : PlanState) : Except Stop PlanState := do
  let found ← foundBy transfers s.selected
  let outputs := numOutputs s.txDsts found
  let weight := weightWith options s.selected.length outputs
  let neededFee := feeFromWeight options.feePerByte weight
  let paying := saturatingAdd (wrap64 s.txDsts.sum) neededFee
  if found < paying then return { s with neededFee := neededFee, addingFee := true }
  else if !s.dsts.isEmpty then
    throw (.refused (.tooHeavy (weightWith options s.selected.length (s.txDsts.length + 1))
      options.weightLimit))
  else
    let spare ← less found (wrap64 s.txDsts.sum)
    let change ← less found paying
    return { s with
      neededFee := neededFee
      addingFee := false
      availableForFee := spare
      made := some ⟨⟨s.selected, s.txDsts, change, neededFee⟩, weight, false, 0⟩ }

/-- A front group that has run out makes place for the next one while there is something to pay. -/
def nextGroup (s : PlanState) : PlanState :=
  match s.groups with
  | g :: h :: groups =>
      if (s.owing || s.addingFee) && g.2.isEmpty then { s with groups := h :: groups } else s
  | _ => s

/-- One turn of the loop: nothing where it is left. -/
def planTurn (unlockedSubtotal neededMoney : Nat) (s : PlanState) : Except Stop (Option PlanState) := do
  let front ← s.front
  if front.isEmpty then throw (.refused (.notEnough unlockedSubtotal neededMoney s.neededFee))
  else
    match ← chooseInput transfers options s with
    | none => return none
    | some (idx, s) =>
        let s := { s with selected := s.selected ++ [idx] }
        let (s, outSlotsExhausted) ← spendInput options s (← elemAt transfers idx).amount
        let s ← if ← tryTx options s outSlotsExhausted then attempt transfers options s else pure s
        return some (nextGroup s)

/-- The condition of the loop. -/
def PlanState.goesOn (s : PlanState) : Except Stop Bool :=
  if s.owing || s.addingFee || !s.preferred.isEmpty then .ok true
  else if s.selected.length ≤ 1 then do return !(← s.front).isEmpty
  else .ok false

/-- The loop, for so many turns at most. -/
def planLoop (unlockedSubtotal neededMoney : Nat) : Nat → PlanState → Except Stop PlanState
  | fuel, s => do
    if ← s.goesOn then
      match fuel with
      | 0 => throw .outOfFuel
      | fuel + 1 =>
          match ← planTurn transfers options unlockedSubtotal neededMoney s with
          | none => return s
          | some s => planLoop unlockedSubtotal neededMoney fuel s
    else return s

/-- How many outputs a state has left to take. -/
def PlanState.left (s : PlanState) : Nat := s.preferred.length + (s.groups.map (·.2.length)).sum

/-- The groups and picks that `plan` starts with: the group the first pick stands in is brought to the
    front. -/
def planStart (needed : Nat) (destinations : List Nat) (rng : RandomSource) : Except Stop PlanState := do
  let indices := planIndices transfers options
  let groups := sortGroups (unlockedPerSubaddress transfers options)
    (collectGroups transfers options indices)
  let preferred := pickPreferredInputs transfers needed options indices
  match preferred.head? with
  | some first =>
      let t ← elemAt transfers first
      return { groups := bringToFront t.subaddress.minor groups, preferred := preferred
               dsts := destinations, rng := rng }
  | none => return { groups := groups, preferred := preferred, dsts := destinations, rng := rng }

/-- `plan`. -/
def plan (destinations : List Nat) (rng : RandomSource) : Except Stop SpendPlan := do
  if destinations.isEmpty then throw (.refused .noDestinations)
  if destinations.contains 0 then throw (.refused .zeroAmount)
  if destinations.length + 1 > maxOutputs then
    throw (.refused (.tooManyDestinations destinations.length))
  let neededMoney ← match checkedSum 0 destinations with
    | some sum => pure sum
    | none => throw (.refused (.notEnough 0 u64Max 0))
  let indices := planIndices transfers options
  let minFee := saturatingMul options.feePerByte
    (estimateTxSize 1 options.ringSize 2 options.extraSize)
  let totalNeeded := saturatingAdd neededMoney minFee
  let balanceSubtotal := subtotal indices (planBalance transfers options)
  let unlockedSubtotal := subtotal indices (unlockedPerSubaddress transfers options)
  if totalNeeded > min balanceSubtotal unlockedSubtotal ∨
      minFee > min balanceSubtotal unlockedSubtotal then
    throw (.refused (.notEnough unlockedSubtotal neededMoney 0))
  if (collectGroups transfers options indices).isEmpty then throw (.refused .nothingToSpend)
  let twoInputFee := feeFromWeight options.feePerByte
    (estimateTxWeight 2 options.ringSize 2 options.extraSize)
  let start ← planStart transfers options (saturatingAdd neededMoney twoInputFee) destinations rng
  let s ← planLoop transfers options unlockedSubtotal neededMoney (start.left + 1) start
  if s.addingFee then throw (.refused (.notEnough unlockedSubtotal neededMoney s.neededFee))
  match s.made with
  | some p => return p
  | none => throw (.refused (.feeDidNotSettle feeCalculationMaxRetries))

/-! ### Sweeps -/

/-- Whether a sweep may take an output, whatever it is worth. -/
def sweepable (t : Transfer) : Bool :=
  !fractional options t && spendableNow options t && t.subaddress.major == options.account &&
    (options.subaddrIndices.isEmpty || options.subaddrIndices.contains t.subaddress.minor)

/-- `by_minor`. -/
def outputsByMinor : Table UInt32 (List Nat) :=
  transfers.zipIdx.foldl (fun byMinor p =>
    if sweepable options p.1 && (options.sweepBelow == 0 || decide (p.1.amount < options.sweepBelow)) then
      byMinor.put p.1.subaddress.minor ((byMinor.get p.1.subaddress.minor).getD [] ++ [p.2])
    else byMinor) .empty

/-- The outputs a sweep is to take: those of one subaddress chosen at random, the main address only
    if nothing else holds anything, or those of the subaddresses named. -/
def chooseSwept (byMinor : Table UInt32 (List Nat)) (rng : RandomSource) : List Nat × RandomSource :=
  if options.subaddrIndices.isEmpty then
    let byMinor := if byMinor.size > 1 then byMinor.del 0 else byMinor
    let (pick, rng) := rng.below byMinor.size
    ((byMinor.rows.map (·.2)).getD pick [], rng)
  else (byMinor.rows.flatMap (·.2), rng)

/-- The loop of `plan_sweep`: what is selected and what is left. -/
def sweepLoop : Nat → List Nat → List Nat → RandomSource → Except Stop (List Nat × List Nat)
  | fuel, unused, selected, rng => do
    if unused.isEmpty then return (selected, unused)
    else
      match fuel with
      | 0 => throw .outOfFuel
      | fuel + 1 =>
          let ((idx, unused), rng) ← popBestValue transfers unused selected false rng
          let selected := selected ++ [idx]
          if weightWith options selected.length minOutputs ≥ options.weightLimit then
            return (selected, unused)
          else sweepLoop fuel unused selected rng

/-- `plan_sweep`. -/
def planSweep (rng : RandomSource) : Except Stop SpendPlan := do
  let nothing := Stop.refused (.notEnough 0 0 0)
  let unlockedBalance := wrap64 ((transfers.filter fun t =>
    t.subaddress.major == options.account && !t.spent && !t.frozen && unlocked t options).map
      (·.amount)).sum
  if unlockedBalance = 0 then throw nothing
  if !transfers.any (sweepable options) then throw nothing
  let byMinor := outputsByMinor transfers options
  if byMinor.size = 0 then throw (.refused .nothingToSpend)
  let (unused, rng) := chooseSwept options byMinor rng
  let (selected, left) ← sweepLoop transfers options unused.length unused [] rng
  let inTotal ← foundBy transfers selected
  let weight := weightWith options selected.length minOutputs
  let fee := feeFromWeight options.feePerByte weight
  if fee ≥ inTotal then throw (.refused (.notEnough inTotal fee fee))
  return ⟨⟨selected, [← less inTotal fee], 0, fee⟩, weight, true, left.length⟩

/-- `plan_sweep_single`. -/
def planSweepSingle (keyImage : KeyImage) : Except Stop SpendPlan := do
  let index ← match transfers.findIdx? fun t => t.keyImage == some keyImage with
    | some i => pure i
    | none => throw (.refused .noSuchOutput)
  let transfer ← elemAt transfers index
  if transfer.spent then throw (.refused .outputSpent)
  if !unlocked transfer options then throw (.refused .outputLocked)
  let weight := weightWith options 1 minOutputs
  let fee := feeFromWeight options.feePerByte weight
  if fee ≥ transfer.amount then throw (.refused (.notEnough transfer.amount fee fee))
  return ⟨⟨[index], [← less transfer.amount fee], 0, fee⟩, weight, true, 0⟩

end Loop

end Wownero.Planning
