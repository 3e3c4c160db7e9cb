import Wownero.Consensus
/-!
# Difficulty

The six algorithms, the window each of them reads and the table that chooses one by version.
Arithmetic is that of the source's types: `u64`, `u128` and `i64` all wrap in a release build,
and version 8 computes in floating point.
-/

namespace Wownero.Difficulty

open Wownero

def difficultyTargetV2 : Nat := 300
def difficultyWindow : Nat := 720
def difficultyWindowV2 : Nat := 60
def difficultyWindowV3 : Nat := 144
def difficultyCut : Nat := 60
def difficultyCutV2 : Nat := 12

/-- `DIFFICULTY_BLOCKS_COUNT`, the widest window of all. -/
def difficultyBlocksCountV1 : Nat := 735

/-- `difficulty_blocks_count`. -/
def difficultyBlocksCount (version : Nat) : Nat :=
  if version ≥ 20 then 147
  else if version ≤ 17 ∧ version ≥ 11 then 145
  else if version ≤ 10 ∧ version ≥ 8 then 61
  else difficultyBlocksCountV1

inductive Algorithm where
  | v1
  | v2
  | v3
  | v4
  | v5
  | v6
  deriving DecidableEq, Repr

/-- `select_algorithm`. -/
def selectAlgorithm (version : Nat) : Algorithm :=
  if version ≥ 20 then .v6
  else if version ≤ 17 ∧ version ≥ 11 then .v5
  else if version = 10 then .v4
  else if version = 9 then .v3
  else if version = 8 then .v2
  else .v1

/-- `TESTNET_EARLY_DIFFICULTY`. -/
def testnetEarlyDifficulty : Nat := 100

def isTestNetwork : Network → Bool
  | .testnet | .stagenet => true
  | _ => false

/-- The pin every algorithm begins with on the test networks. -/
def testnetPinned (net : Network) (height : Nat) : Bool :=
  isTestNetwork net && height ≤ difficultyWindow

/-- A plain or wrapping `u64` subtraction. -/
def sub64 (a b : Nat) : Nat := wrap64 (a + 18446744073709551616 - wrap64 b)

/-- A plain or wrapping `u128` subtraction. -/
def sub128 (a b : Nat) : Nat :=
  wrap128 (a + 340282366920938463463374607431768211456 - wrap128 b)

/-! ### Versions 1 and 6: the classic window -/

/-- `ceil_div_256`: `⌈total_work · target / time_span⌉`, and zero when that is no `u128`. -/
def ceilDiv256 (totalWork target timeSpan : Nat) : Nat :=
  let q := (totalWork * target + (timeSpan - 1)) / timeSpan
  if q ≤ u128Max then q else 0

/-- What `next_difficulty_v1` and `next_difficulty_v6` share: the window is cut to its oldest
    `window` entries, the outliers are cut off both ends of the sorted timestamps, and the work
    between the cuts is divided by the time between them. -/
def classicDifficulty (window cut target : Nat) (timestamps cumulative : List Nat) : Nat :=
  let timestamps := timestamps.take window
  let cumulative := cumulative.take window
  let length := timestamps.length
  let sorted := timestamps.insertionSort (· ≤ ·)
  let span := window - 2 * cut
  let cutBegin := if length ≤ span then 0 else (length - span + 1) / 2
  let cutEnd := if length ≤ span then length else cutBegin + span
  let timeSpan := sorted.getD (cutEnd - 1) 0 - sorted.getD cutBegin 0
  let timeSpan := if timeSpan = 0 then 1 else timeSpan
  ceilDiv256 (sub128 (cumulative.getD (cutEnd - 1) 0) (cumulative.getD cutBegin 0)) target timeSpan

/-- `next_difficulty_v1`. -/
def nextDifficultyV1 (timestamps cumulative : List Nat) (target height : Nat) (net : Network) :
    Nat :=
  if testnetPinned net height then testnetEarlyDifficulty
  else if timestamps.length ≤ 1 then 1
  else if net = .mainnet ∧ 331170 ≤ height ∧ height ≤ 331170 + difficultyWindow then 100000000
  else classicDifficulty difficultyWindow difficultyCut target timestamps cumulative

/-- `next_difficulty_v6`. -/
def nextDifficultyV6 (timestamps cumulative : List Nat) (target height : Nat) (net : Network) :
    Nat :=
  if testnetPinned net height then testnetEarlyDifficulty
  else if timestamps.length ≤ 1 then 1
  else classicDifficulty difficultyWindowV3 difficultyCutV2 target timestamps cumulative

/-! ### Version 2: LWMA in floating point -/

def i64ToFloat (x : Int) : Float := (Int64.ofInt x).toFloat

def u64ToFloat (x : Nat) : Float := (UInt64.ofNat x).toFloat

/-- `round_half_away_from_zero`. -/
def roundHalfAwayFromZero (x : Float) : Float :=
  if x < 0.0 then -(Float.floor (-x + 0.5)) else Float.floor (x + 0.5)

/-- The loop of `next_difficulty_v2` from index `i` on: the weighted solve times and the sum of
    inverse difficulties. -/
def lwmaV2Loop (t : Int) (k : Float) : Nat → List Nat → List Nat → Float → Float → Float × Float
  | i, ts₀ :: ts₁ :: ts, cd₀ :: cd₁ :: cds, lwma, sumInverse =>
      let solveTime := toI64 (toI64 ts₁ - toI64 ts₀)
      let solveTime := min (t * 7) (max solveTime (-7 * t))
      let difficulty := wrap64 (sub128 cd₁ cd₀)
      lwmaV2Loop t k (i + 1) (ts₁ :: ts) (cd₁ :: cds)
        (lwma + i64ToFloat (solveTime * i) / k) (sumInverse + 1.0 / u64ToFloat difficulty)
  | _, _, _, lwma, sumInverse => (lwma, sumInverse)

/-- `next_difficulty_v2`. -/
def nextDifficultyV2 (timestamps cumulative : List Nat) (targetSeconds height : Nat)
    (net : Network) : Nat :=
  if testnetPinned net height then testnetEarlyDifficulty
  else if timestamps.length < 4 then 1
  else
    let n := if timestamps.length < difficultyWindowV2 + 1 then timestamps.length - 1
      else difficultyWindowV2
    let t : Int := targetSeconds
    let k := u64ToFloat (n * (n + 1) / 2)
    let (lwma, sumInverse) :=
      lwmaV2Loop t k 1 (timestamps.take (n + 1)) (cumulative.take (n + 1)) 0 0
    let harmonicMean := u64ToFloat n / sumInverse
    let lwma :=
      if (roundHalfAwayFromZero lwma).toInt64.toInt < t.tdiv 20 then i64ToFloat (t.tdiv 20)
      else lwma
    (harmonicMean * i64ToFloat t / lwma * 0.998).toUInt64.toNat

/-! ### Version 3: LWMA-2 in `i64` -/

/-- The loop of `next_difficulty_v3`: `l`, and the last three solve times summed. -/
def lwmaV3Loop (t n : Int) : Nat → List Nat → Int → Int → Int × Int
  | i, ts₀ :: ts₁ :: ts, l, sum3 =>
      let st := toI64 (toI64 ts₁ - toI64 ts₀)
      let st := max (-4 * t) (min st (6 * t))
      lwmaV3Loop t n (i + 1) (ts₁ :: ts) (l + st * i) (if (i : Int) > n - 3 then sum3 + st else sum3)
  | _, _, l, sum3 => (l, sum3)

/-- `next_difficulty_v3`. -/
def nextDifficultyV3 (timestamps cumulative : List Nat) (height : Nat) (net : Network) : Nat :=
  let t : Int := difficultyTargetV2
  let n := difficultyWindowV2
  if testnetPinned net height then testnetEarlyDifficulty
  else if timestamps.length < n + 1 ∨ cumulative.length < n + 1 then 1
  else
    let (l, sum3) := lwmaV3Loop t n 1 (timestamps.take (n + 1)) 0 0
    if l = 0 then 1
    else
      let work := toI64 (sub128 (cumulative.getD n 0) (cumulative.getD 0 0))
      let nextD := (toI64 (toI64 (toI64 (work * t) * (n + 1)) * 99)).tdiv (100 * 2 * l)
      let prevD := toI64 (sub128 (cumulative.getD n 0) (cumulative.getD (n - 1) 0))
      let nextD := max ((toI64 (prevD * 67)).tdiv 100) (min nextD ((toI64 (prevD * 150)).tdiv 100))
      let nextD :=
        if sum3 < (8 * t).tdiv 10 then max nextD ((toI64 (prevD * 108)).tdiv 100) else nextD
      toU64 nextD

/-! ### Version 4 -/

/-- `zero_insignificant_digits`, over the powers of ten it tries, in the arithmetic of `wrap`. -/
def zeroInsignificantDigits (wrap : Nat → Nat) (d : Nat) : List Nat → Nat
  | [] => d
  | i :: is =>
      if d > i * 100 then wrap (wrap (d + i / 2) / i * i) else zeroInsignificantDigits wrap d is

/-- `1_000_000_000, 100_000_000, …, 10`. -/
def significantSteps : List Nat :=
  [1000000000, 100000000, 10000000, 1000000, 100000, 10000, 1000, 100, 10]

/-- The running maximum `ts[i] = max(timestamps[i], ts[i - 1])`. -/
def runningMax : Nat → List Nat → List Nat
  | _, [] => []
  | m, t :: ts => max t m :: runningMax (max t m) ts

/-- The solve time of step `i` in version 4, with its two outlier rules. -/
def solveTimeV4 (t : Nat) (ts : List Nat) (i : Nat) : Nat :=
  let stamp := fun j => ts.getD j 0
  if i > 4 ∧ stamp i - stamp (i - 1) > 5 * t ∧ stamp (i - 1) - stamp (i - 4) < 14 * t / 10 then 2 * t
  else if i > 7 ∧ stamp i - stamp (i - 1) > 5 * t ∧ stamp (i - 1) - stamp (i - 7) < 4 * t then 2 * t
  else min (5 * t) (stamp i - stamp (i - 1))

/-- `next_difficulty_v4`. -/
def nextDifficultyV4 (timestamps cumulative : List Nat) (height : Nat) (net : Network) : Nat :=
  let t := difficultyTargetV2
  let n := difficultyWindowV2
  if testnetPinned net height then testnetEarlyDifficulty
  else if net = .mainnet ∧ height ≤ 63469 + 1 then 100000069
  else if timestamps.length < n + 1 ∨ cumulative.length < n + 1 then 1
  else
    let ts := runningMax 0 (timestamps.take (n + 1))
    let stamp := fun j => ts.getD j 0
    let l := ((List.range n).map fun i => solveTimeV4 t ts (i + 1) * (i + 1)).sum
    let l := max l (n * n * t / 20)
    let avgD := wrap64 (sub128 (cumulative.getD n 0) (cumulative.getD 0 0) / n)
    let nextD :=
      if avgD > 2000000 * n * n * t then wrap64 (avgD / (200 * l) * (n * (n + 1) * t * 97))
      else wrap64 (wrap64 (wrap64 (wrap64 (avgD * n) * (n + 1)) * t) * 97) / (200 * l)
    let prevD := wrap64 (sub128 (cumulative.getD n 0) (cumulative.getD (n - 1) 0))
    let nextD :=
      if stamp n - stamp (n - 1) < 2 * t / 10 ∨ stamp n - stamp (n - 2) < 5 * t / 10
          ∨ stamp n - stamp (n - 3) < 8 * t / 10 then
        max nextD (min (wrap64 (prevD * 110) / 100) (wrap64 (105 * avgD) / 100))
      else nextD
    let nextD := zeroInsignificantDigits wrap64 nextD significantSteps
    if nextD > 100000 then
      wrap64 (wrap64 (wrap64 (nextD + 500) / 1000 * 1000)
        + min 999 ((stamp n - stamp (n - 10)) / 10))
    else nextD

/-! ### Version 5 -/

/-- The loop of `next_difficulty_v5`. -/
def lwmaV5Loop (t : Nat) : Nat → List Nat → Nat → Nat → Nat
  | _, [], _, l => l
  | i, ts :: tss, previous, l =>
      let this := if ts > previous then ts else wrap64 (previous + 1)
      lwmaV5Loop t (i + 1) tss this (l + i * min (6 * t) (sub64 this previous))

/-- `next_difficulty_v5`. -/
def nextDifficultyV5 (timestamps cumulative : List Nat) (height : Nat) (net : Network) : Nat :=
  let t := difficultyTargetV2
  let n := difficultyWindowV3
  if testnetPinned net height then testnetEarlyDifficulty
  else if net = .mainnet ∧ height ≥ 81769 ∧ height < 81769 + n then 10000000
  else if net = .mainnet ∧ height = 307686 then 25800000
  else if net = .mainnet ∧ height = 307692 then 1890000
  else if net = .mainnet ∧ height = 307735 then 17900000
  else if net = .mainnet ∧ height = 307742 then 21300000
  else if net = .mainnet ∧ height = 307750 then 10900000
  else if net = .mainnet ∧ height = 307766 then 2960000
  else if timestamps.length < n + 1 ∨ cumulative.length < n + 1 then 1
  else
    let first := timestamps.getD 0 0
    let l := lwmaV5Loop t 1 ((timestamps.take (n + 1)).drop 1) (sub64 first t) 0
    let l := max l (n * n * t / 20)
    let avgD := sub128 (cumulative.getD n 0) (cumulative.getD 0 0) / n
    let scale := n * (n + 1) * t * 99
    let nextD :=
      if avgD > 2000000 * (n * n * t) ∧ height < 307800 then wrap128 (avgD / (200 * l) * scale)
      else if avgD > u64Max / scale ∧ height > 307800 then wrap128 (avgD / (200 * l) * scale)
      else wrap128 (avgD * scale) / (200 * l)
    zeroInsignificantDigits wrap128 nextD significantSteps

/-- `next_difficulty`. -/
def nextDifficulty (version : Nat) (timestamps cumulative : List Nat) (height : Nat)
    (net : Network) : Nat :=
  let target := difficultyTargetV2
  match selectAlgorithm version with
  | .v6 => nextDifficultyV6 timestamps cumulative target height net
  | .v5 => nextDifficultyV5 timestamps cumulative height net
  | .v4 => nextDifficultyV4 timestamps cumulative height net
  | .v3 => nextDifficultyV3 timestamps cumulative height net
  | .v2 => nextDifficultyV2 timestamps cumulative target height net
  | .v1 => nextDifficultyV1 timestamps cumulative target height net

/-- No version reads a wider window than the cache holds. -/
theorem difficultyBlocksCount_le (version : Nat) :
    difficultyBlocksCount version ≤ difficultyBlocksCountV1 := by
  unfold difficultyBlocksCount difficultyBlocksCountV1
  split_ifs <;> omega

theorem difficultyBlocksCount_pos (version : Nat) : 0 < difficultyBlocksCount version := by
  unfold difficultyBlocksCount difficultyBlocksCountV1
  split_ifs <;> omega

end Wownero.Difficulty
