import Mathlib.Data.List.Sort
import Wownero.Block
/-!
# Consensus arithmetic

The rules that are arithmetic on a version, a height and a window of past values: the hard-fork
tables, the timestamp limits, the emission curve and the weight limits.  The node decides every
one of them without looking further than its arguments.
-/

namespace Wownero

/-! ### Networks and hard forks -/

inductive Network where
  | mainnet
  | testnet
  | stagenet
  | fakechain
  deriving DecidableEq, Repr

/-- One row of a hard-fork table. -/
structure Fork where
  version : Nat
  height : Nat
  deriving DecidableEq, Repr

def mainnetHardForks : List Fork :=
  [⟨7, 1⟩, ⟨8, 6969⟩, ⟨9, 53666⟩, ⟨10, 63469⟩, ⟨11, 81769⟩, ⟨12, 82069⟩, ⟨13, 114969⟩,
   ⟨14, 115257⟩, ⟨15, 160777⟩, ⟨16, 253999⟩, ⟨17, 254287⟩, ⟨18, 331170⟩, ⟨19, 331458⟩,
   ⟨20, 514000⟩]

def testnetHardForks : List Fork :=
  [⟨7, 1⟩, ⟨8, 5⟩, ⟨9, 10⟩, ⟨10, 15⟩, ⟨11, 20⟩, ⟨12, 25⟩, ⟨13, 30⟩, ⟨14, 35⟩, ⟨15, 40⟩,
   ⟨16, 45⟩, ⟨17, 50⟩, ⟨18, 55⟩, ⟨19, 60⟩, ⟨20, 65⟩, ⟨21, 70⟩]

def stagenetHardForks : List Fork :=
  [⟨7, 1⟩, ⟨8, 5⟩, ⟨9, 10⟩, ⟨10, 15⟩, ⟨11, 20⟩, ⟨12, 25⟩, ⟨13, 30⟩, ⟨14, 35⟩, ⟨15, 40⟩,
   ⟨16, 45⟩, ⟨17, 50⟩, ⟨18, 55⟩, ⟨19, 60⟩, ⟨20, 65⟩]

/-- `ORIGINAL_VERSION`. -/
def originalVersion : Nat := 1

/-- `hardfork::table`. -/
def hardForkTable : Network → List Fork
  | .mainnet | .fakechain => mainnetHardForks
  | .testnet => testnetHardForks
  | .stagenet => stagenetHardForks

/-- The loop of `required_version`: the last version of an ascending table whose height has
    been reached. -/
def requiredVersionFrom (height : Nat) : List Fork → Nat → Nat
  | [], v => v
  | fork :: forks, v =>
      if height ≥ fork.height then requiredVersionFrom height forks fork.version else v

/-- `HardFork::required_version`. -/
def requiredVersion (net : Network) (height : Nat) : Nat :=
  requiredVersionFrom height (hardForkTable net)
    (((hardForkTable net).head?.map (·.version)).getD originalVersion)

/-- `HardFork::check`. -/
def checkHardFork (net : Network) (height majorVersion blockVote : Nat) : Bool :=
  majorVersion == requiredVersion net height && blockVote ≥ requiredVersion net height

/-! ### Medians -/

/-- `get_mid`: the mean of two numbers without leaving `u64`. -/
def getMid (a b : Nat) : Nat := a / 2 + b / 2 + (a % 2 + b % 2) / 2

/-- `median`: of the sorted values the middle one, or the mean of the middle two. -/
def median (values : List Nat) : Nat :=
  match values with
  | [] => 0
  | [v] => v
  | values =>
      let sorted := values.insertionSort (· ≤ ·)
      let n := values.length / 2
      if values.length % 2 = 1 then sorted.getD n 0
      else getMid (sorted.getD (n - 1) 0) (sorted.getD n 0)

/-! ### Timestamps -/

/-- `future_time_limit`. -/
def futureTimeLimit (hfVersion : Nat) : Nat := if hfVersion ≥ 8 then 600 else 7200

/-- `timestamp_check_window`. -/
def timestampCheckWindow (hfVersion : Nat) : Nat := if hfVersion ≥ 10 then 11 else 60

inductive TimestampError where
  | tooFarInTheFuture (limit : Nat)
  | belowMedian (median : Nat)
  deriving DecidableEq, Repr

/-- `check_block_timestamp`. -/
def checkBlockTimestamp (hfVersion timestamp now : Nat) (recent : List Nat) :
    Except TimestampError Unit :=
  let limit := saturatingAdd now (futureTimeLimit hfVersion)
  if timestamp > limit then .error (.tooFarInTheFuture limit)
  else if recent.length < timestampCheckWindow hfVersion then .ok ()
  else if timestamp < median recent then .error (.belowMedian (median recent))
  else .ok ()

/-- `CRYPTONOTE_MAX_BLOCK_NUMBER`: an unlock time below it is a height, from it on a time. -/
def cryptonoteMaxBlockNumber : Nat := 500000000

/-- `is_tx_spendtime_unlocked`. -/
def isTxSpendtimeUnlocked (unlockTime dbHeight now : Nat) : Bool :=
  if unlockTime < cryptonoteMaxBlockNumber then wrap64 (dbHeight - 1 + 1) ≥ unlockTime
  else saturatingAdd now 300 ≥ unlockTime

/-! ### Emission -/

/-- `BLOCK_GRANTED_FULL_REWARD_ZONE_V5`. -/
def fullRewardZoneV5 : Nat := 300000

/-- `get_min_block_weight`. -/
def getMinBlockWeight (version : Nat) : Nat :=
  if version < 2 then 20000 else if version < 5 then 60000 else fullRewardZoneV5

/-- `get_block_reward`; `none` is `RewardError::BlockTooBig`. -/
def getBlockReward (medianWeight currentBlockWeight alreadyGenerated version : Nat) :
    Option Nat :=
  let baseReward := (u64Max - alreadyGenerated) / 2 ^ 20
  let medianWeight := max medianWeight (getMinBlockWeight version)
  if currentBlockWeight ≤ medianWeight then some baseReward
  else if currentBlockWeight > wrap64 (2 * medianWeight) then none
  else
    let multiplicand :=
      wrap64 (wrap64 (2 * medianWeight - currentBlockWeight) * currentBlockWeight)
    let product := wrap128 (baseReward * multiplicand)
    some (wrap64 (product / medianWeight / medianWeight))

inductive MinerRewardError where
  | overspend
  | notExact
  | overflow
  deriving DecidableEq, Repr

/-- `validate_miner_reward`: what the coinbase may claim, and by how much it moves the supply. -/
def validateMinerReward (version baseReward fee moneyInUse : Nat) :
    Except MinerRewardError Nat :=
  match checkedAdd baseReward fee with
  | none => .error .overflow
  | some total =>
      if total < moneyInUse then .error .overspend
      else if version < 2 ∨ version ≥ 16 then
        if total ≠ moneyInUse then .error .notExact else .ok baseReward
      else
        match checkedSub moneyInUse fee with
        | none => .error .overspend
        | some claimed => if claimed > baseReward then .error .overspend else .ok claimed

/-! ### Weight limits -/

/-- `HF_VERSION_LONG_TERM_BLOCK_WEIGHT`. -/
def hfVersionLongTermBlockWeight : Nat := 13

/-- `HF_VERSION_2021_SCALING`. -/
def hfVersion2021Scaling : Nat := 20

structure WeightLimits where
  median : Nat
  limit : Nat
  longTermEffectiveMedian : Option Nat
  deriving DecidableEq, Repr

/-- The median `update_next_cumulative_weight_limit` takes before it applies the floor. -/
def effectiveMedian (hfVersion : Nat) (shortTerm : List Nat) (longTermMedian : Nat) : Nat :=
  if hfVersion < hfVersionLongTermBlockWeight then median shortTerm
  else
    let ltem := max fullRewardZoneV5 longTermMedian
    let stm := median shortTerm
    if hfVersion ≥ hfVersion2021Scaling then min (max ltem stm) (wrap64 (50 * ltem))
    else min (max fullRewardZoneV5 stm) (wrap64 (50 * ltem))

/-- `update_next_cumulative_weight_limit`. -/
def updateNextCumulativeWeightLimit (hfVersion : Nat) (shortTerm : List Nat)
    (longTermMedian : Nat) : WeightLimits :=
  let m := max (effectiveMedian hfVersion shortTerm longTermMedian) (getMinBlockWeight hfVersion)
  { median := m
    limit := wrap64 (m * 2)
    longTermEffectiveMedian :=
      if hfVersion < hfVersionLongTermBlockWeight then none
      else some (max fullRewardZoneV5 longTermMedian) }

/-- `next_long_term_block_weight`. -/
def nextLongTermBlockWeight (hfVersion blockWeight longTermMedian : Nat) : Nat :=
  if hfVersion < hfVersionLongTermBlockWeight then blockWeight
  else
    let ltem := max fullRewardZoneV5 longTermMedian
    if hfVersion ≥ hfVersion2021Scaling then
      min (max blockWeight (wrap64 (ltem * 10) / 17)) (wrap64 (ltem + wrap64 (ltem * 7) / 10))
    else min blockWeight (wrap64 (ltem + wrap64 (ltem * 2) / 5))

/-- `LONG_TERM_BLOCK_WEIGHT_WINDOW_SIZE`. -/
def longTermBlockWeightWindowSize : Nat := 100000

/-- `long_term_window`. -/
def longTermWindow (dbHeight : Nat) : Nat := min longTermBlockWeightWindowSize dbHeight

/-- `CRYPTONOTE_REWARD_BLOCKS_WINDOW`. -/
def cryptonoteRewardBlocksWindow : Nat := 100

end Wownero
