import Wownero.Decoys
/-!
# The gamma picker

A node says how many outputs each block has.  The wallet sums the counts, draws the age of an
output, finds the block an output of that age is in and picks one of that block's outputs.  Nothing
a node says about the counts is checked to be true, and their sums may wrap round, so the running
totals need not ascend.

The age is worked out in floating point and comes from a random source with it.  An arithmetic
operation on `u64` that overflows panics in a build that checks for it and wraps round in one that
does not; an index out of range panics in both.  Here a panic is `none`.
-/

namespace Wownero

/-- `DIFFICULTY_TARGET`. -/
def difficultyTarget : Nat := 300

/-- `BLOCKS_IN_A_YEAR`. -/
def blocksInAYear : Nat := 86400 * 365 / difficultyTarget

/-- `a - b`. -/
def sub64 (checks : Bool) (a b : UInt64) : Option UInt64 :=
  if checks && a < b then none else some (a - b)

/-- `a + b`. -/
def add64 (checks : Bool) (a b : UInt64) : Option UInt64 :=
  if checks && a + b < a then none else some (a + b)

theorem sub64_of_le {checks : Bool} {a b : UInt64} (h : b ≤ a) :
    sub64 checks a b = some (a - b) := by
  simp [sub64, UInt64.not_lt.mpr h]

theorem add64_of_le {checks : Bool} {a b : UInt64} (h : a ≤ a + b) :
    add64 checks a b = some (a + b) := by
  simp [add64, UInt64.not_lt.mpr h]

/-! ### The distribution -/

/-- One distribution as a node tells it: a count of outputs for each block. -/
structure OutputDistribution where
  amount : UInt64
  startHeight : UInt64
  distribution : List UInt64
  deriving DecidableEq, Repr

/-- The running totals of `RctDistribution`. -/
structure RctDistribution where
  startHeight : UInt64
  offsets : List UInt64
  deriving DecidableEq, Repr

inductive DistributionError where
  | notEnoughBlocks (blocks : Nat)
  | noOutputs
  | distribution (reason : String)
  deriving DecidableEq, Repr

/-- The text of a `DecoyError` about the distribution. -/
def DistributionError.text : DistributionError → String
  | .notEnoughBlocks blocks =>
      s!"the output distribution has {blocks} blocks, too few to pick from"
  | .noOutputs => "the chain has no RingCT outputs to pick from"
  | .distribution reason => s!"the output distribution cannot be used: {reason}"

/-- Each count added to the total before it, round the end of `u64`. -/
def runningTotals (total : UInt64) : List UInt64 → List UInt64
  | [] => []
  | n :: counts => (total + n) :: runningTotals (total + n) counts

/-- `rct_distribution_from`. -/
def rctDistributionFrom : List OutputDistribution → Except DistributionError RctDistribution
  | [d] =>
      if d.amount ≠ 0 then .error (.distribution "the result is not for amount 0")
      else .ok ⟨d.startHeight, runningTotals 0 d.distribution⟩
  | answer =>
      .error (.distribution s!"not the expected single result, but {answer.length}")

/-- `check_distribution`. -/
def checkDistribution (offsets : List UInt64) (maxRealIndex : UInt64) :
    Except DistributionError Unit :=
  if offsets.length ≤ spendableAge then .error (.distribution "not enough rct outputs")
  else if offsets.getLast?.all (· ≤ maxRealIndex) then
    .error (.distribution "the daemon reports a suspicious number of rct outputs")
  else .ok ()

/-! ### The picker -/

/-- Where random numbers come from: `next_u64`, and the age of an output that the gamma
    distribution suggests when outputs come one in so many seconds. -/
structure RandomSource (R : Type) where
  nextU64 : R → UInt64 × R
  ageInOutputs : (seconds : Nat) → (outputs : UInt64) → R → UInt64 × R

/-- `RandomSource::below`. -/
def RandomSource.below {R : Type} (src : RandomSource R) (n : UInt64) (rng : R) : UInt64 × R :=
  if n = 0 then (0, rng)
  else ((src.nextU64 rng).1 % n, (src.nextU64 rng).2)

/-- `GammaPicker`.  The average time between outputs is kept as the seconds and the outputs that
    it is a quotient of. -/
structure GammaPicker where
  offsets : List UInt64
  endBlock : Nat
  numRctOutputs : UInt64
  seconds : Nat
  outputs : UInt64
  endBlock_le : endBlock ≤ offsets.length
  numRctOutputs_pos : 0 < numRctOutputs

/-- The running total before a block, and zero before the first. -/
def totalBefore (offsets : List UInt64) (index : Nat) : Option UInt64 :=
  if index = 0 then some 0 else offsets[index - 1]?

/-- `GammaPicker::with_parameters`. -/
def GammaPicker.withParameters (checks : Bool) (offsets : List UInt64) :
    Option (Except DistributionError GammaPicker) :=
  if offsets.length ≤ spendableAge then some (.error (.notEnoughBlocks offsets.length))
  else do
    let blocksToConsider := min offsets.length blocksInAYear
    let last ← offsets[offsets.length - 1]?
    let before ← totalBefore offsets (offsets.length - blocksToConsider)
    let outputsToConsider ← sub64 checks last before
    let endBlock := offsets.length - (max spendableAge 1 - 1)
    let numRctOutputs ← offsets[endBlock - 1]?
    if h : numRctOutputs = 0 ∨ outputsToConsider = 0 then return .error .noOutputs
    else
      return .ok
        { offsets := offsets
          endBlock := endBlock
          numRctOutputs := numRctOutputs
          seconds := difficultyTarget * blocksToConsider
          outputs := outputsToConsider
          endBlock_le := Nat.sub_le _ _
          numRctOutputs_pos := UInt64.pos_iff_ne_zero.mpr (not_or.mp h).1 }

/-- The loop of `lower_bound`, between `lo` and `hi`. -/
def lowerBoundLoop (slice : List UInt64) (target : UInt64) (lo hi : Nat) : Option Nat :=
  if lo < hi then
    match slice[lo + (hi - lo) / 2]? with
    | none => none
    | some x =>
        if x < target then lowerBoundLoop slice target (lo + (hi - lo) / 2 + 1) hi
        else lowerBoundLoop slice target lo (lo + (hi - lo) / 2)
  else some lo
termination_by hi - lo

/-- `lower_bound`. -/
def lowerBound (slice : List UInt64) (target : UInt64) : Option (Option Nat) := do
  let lo ← lowerBoundLoop slice target 0 slice.length
  return if lo < slice.length then some lo else none

/-- `GammaPicker::pick`. -/
def GammaPicker.pick {R : Type} (g : GammaPicker) (checks : Bool) (src : RandomSource R) (rng : R) :
    Option (Option UInt64 × R) :=
  let (age, rng) := src.ageInOutputs g.seconds g.outputs rng
  if g.numRctOutputs ≤ age then some (none, rng)
  else do
    let newest ← sub64 checks g.numRctOutputs 1
    let target ← sub64 checks newest age
    match ← lowerBound (g.offsets.take g.endBlock) target with
    | none => return (none, rng)
    | some index =>
        let firstRct ← totalBefore g.offsets index
        let total ← g.offsets[index]?
        let nRct ← sub64 checks total firstRct
        if nRct = 0 then return (none, rng)
        else
          let (k, rng) := src.below nRct rng
          let i ← add64 checks firstRct k
          return (some i, rng)

/-! ### No pick panics -/

/-- The search is between two places of the slice: what is just below the first is too small, what
    is at the second is not. -/
structure Bracket (slice : List UInt64) (target : UInt64) (lo hi : Nat) : Prop where
  le : lo ≤ hi
  within : hi ≤ slice.length
  below : ∀ x, 0 < lo → slice[lo - 1]? = some x → x < target
  above : ∀ x, slice[hi]? = some x → target ≤ x

/-- The whole slice is such a place, whatever stands in it. -/
theorem Bracket.whole (slice : List UInt64) (target : UInt64) :
    Bracket slice target 0 slice.length where
  le := Nat.zero_le _
  within := le_rfl
  below := fun x hpos => absurd hpos (lt_irrefl 0)
  above := fun x hx => by simp at hx

theorem lowerBoundLoop_spec {slice : List UInt64} {target : UInt64} {lo hi : Nat}
    (h : Bracket slice target lo hi) :
    ∃ r, lowerBoundLoop slice target lo hi = some r ∧ Bracket slice target r r := by
  fun_induction lowerBoundLoop slice target lo hi with
  | case1 lo hi hlt hnone =>
      have hout := List.getElem?_eq_none_iff.mp hnone
      have hwithin := h.within
      omega
  | case2 lo hi hlt x hx hsmall ih =>
      exact ih
        { le := by omega
          within := h.within
          below := fun y _ hy => by
            rw [Nat.add_sub_cancel, hx] at hy
            rwa [← Option.some.inj hy]
          above := h.above }
  | case3 lo hi hlt x hx hlarge ih =>
      have hwithin := h.within
      exact ih
        { le := by omega
          within := by omega
          below := h.below
          above := fun y hy => by
            rw [hx] at hy
            rw [← Option.some.inj hy]
            exact UInt64.not_lt.mp hlarge }
  | case4 lo hi hge =>
      have heq : lo = hi := Nat.le_antisymm h.le (Nat.not_lt.mp hge)
      exact ⟨lo, rfl, by rw [← heq] at h; exact h⟩

/-- What the search finds is in the slice, large enough, and just behind a total that is not: the
    totals need not ascend for that. -/
theorem lowerBound_spec (slice : List UInt64) (target : UInt64) :
    lowerBound slice target = some none ∨
      ∃ index x, lowerBound slice target = some (some index) ∧ slice[index]? = some x ∧
        target ≤ x ∧ ∀ y, 0 < index → slice[index - 1]? = some y → y < target := by
  obtain ⟨r, hr, hbracket⟩ := lowerBoundLoop_spec (Bracket.whole slice target)
  by_cases hlt : r < slice.length
  · refine .inr ⟨r, slice[r], ?_, List.getElem?_eq_getElem hlt, ?_, hbracket.below⟩
    · simp [lowerBound, hr, hlt]
    · exact hbracket.above _ (List.getElem?_eq_getElem hlt)
  · exact .inl (by simp [lowerBound, hr, hlt])

theorem below_lt {R : Type} (src : RandomSource R) {n : UInt64} (hn : n ≠ 0) (rng : R) :
    (src.below n rng).1 < n := by
  rw [RandomSource.below, if_neg hn]
  exact UInt64.mod_lt _ (UInt64.pos_iff_ne_zero.mpr hn)

/-- Whatever the totals are and whatever the random source says, a pick goes through. -/
theorem GammaPicker.pick_isSome {R : Type} (g : GammaPicker) (checks : Bool) (src : RandomSource R)
    (rng : R) : (g.pick checks src rng).isSome := by
  unfold GammaPicker.pick
  generalize src.ageInOutputs g.seconds g.outputs rng = drawn
  obtain ⟨age, rng⟩ := drawn
  simp only
  split_ifs with hage
  · rfl
  have hage' : age < g.numRctOutputs := UInt64.not_le.mp hage
  have hone : (1 : UInt64) ≤ g.numRctOutputs := by
    have := g.numRctOutputs_pos
    simp only [UInt64.le_iff_toNat_le, UInt64.lt_iff_toNat_lt, UInt64.toNat_zero,
      UInt64.toNat_one] at this ⊢
    omega
  have hnewest : age ≤ g.numRctOutputs - 1 := by
    rw [UInt64.le_iff_toNat_le, UInt64.toNat_sub_of_le _ _ hone]
    rw [UInt64.lt_iff_toNat_lt] at hage'
    rw [UInt64.toNat_one]
    omega
  rw [sub64_of_le hone, Option.bind_eq_bind, Option.bind_some, sub64_of_le hnewest,
    Option.bind_eq_bind, Option.bind_some]
  generalize g.numRctOutputs - 1 - age = target
  rcases lowerBound_spec (g.offsets.take g.endBlock) target with
    hnone | ⟨index, total, hfound, htotal, hge, hbefore⟩
  · rw [hnone]
    rfl
  rw [hfound, Option.bind_some]
  have hindex : index < g.endBlock := by
    have := (List.getElem?_eq_some_iff.mp htotal).1
    rw [List.length_take] at this
    omega
  rw [List.getElem?_take_of_lt hindex] at htotal
  -- The total before the block is below the target, and the block's own is not.
  have hfirst : ∃ firstRct, totalBefore g.offsets index = some firstRct ∧ firstRct ≤ total := by
    by_cases hzero : index = 0
    · exact ⟨0, by rw [totalBefore, if_pos hzero], UInt64.zero_le⟩
    · have hprev : index - 1 < g.offsets.length := by
        have := g.endBlock_le
        omega
      refine ⟨g.offsets[index - 1], ?_, ?_⟩
      · rw [totalBefore, if_neg hzero, List.getElem?_eq_getElem hprev]
      · have hlt := hbefore g.offsets[index - 1] (Nat.pos_of_ne_zero hzero) (by
          rw [List.getElem?_take_of_lt (by omega), List.getElem?_eq_getElem hprev])
        exact UInt64.le_trans (UInt64.le_of_lt hlt) hge
  obtain ⟨firstRct, hfirst, hle⟩ := hfirst
  simp only [hfirst, htotal, Option.bind_some, sub64_of_le hle]
  split_ifs with hempty
  · rfl
  have hbelow := below_lt src hempty rng
  have hsum : firstRct ≤ firstRct + (src.below (total - firstRct) rng).1 := by
    simp only [UInt64.lt_iff_toNat_lt, UInt64.le_iff_toNat_le, UInt64.toNat_add] at hbelow hle ⊢
    rw [UInt64.toNat_sub_of_le _ _ (UInt64.le_iff_toNat_le.mpr hle)] at hbelow
    have := total.toNat_lt
    rw [Nat.mod_eq_of_lt (by omega)]
    omega
  rw [add64_of_le hsum]
  rfl

/-- The picker over a random source that every input of a spend is served from. -/
def GammaPicker.toPicker {R : Type} (g : GammaPicker) (checks : Bool) (src : RandomSource R) :
    Picker R where
  numRctOutputs := g.numRctOutputs.toNat
  pick := fun rng =>
    let (i, rng) := (g.pick checks src rng).get (g.pick_isSome checks src rng)
    (i.map UInt64.toNat, rng)

/-- The chain had more outputs a year before its last block than it has now. -/
def ShrankInAYear (offsets : List UInt64) : Prop :=
  ∃ last before, offsets.getLast? = some last ∧
    totalBefore offsets (offsets.length - min offsets.length blocksInAYear) = some before ∧
      last < before

theorem totalBefore_isSome {offsets : List UInt64} {index : Nat} (h : index ≤ offsets.length) :
    ∃ total, totalBefore offsets index = some total := by
  by_cases hzero : index = 0
  · exact ⟨0, by rw [totalBefore, if_pos hzero]⟩
  · refine ⟨offsets[index - 1], ?_⟩
    rw [totalBefore, if_neg hzero, List.getElem?_eq_getElem]

theorem not_shrankInAYear {offsets : List UInt64} (h : offsets.length ≤ blocksInAYear) :
    ¬ ShrankInAYear offsets := by
  rintro ⟨last, before, -, hbefore, hlt⟩
  rw [Nat.min_eq_left h, Nat.sub_self, totalBefore, if_pos rfl] at hbefore
  rw [← Option.some.inj hbefore] at hlt
  exact absurd hlt UInt64.not_lt_zero

/-- A picker is built or refused, except where a build that checks for overflow subtracts from the
    last total the larger one of a year before. -/
theorem withParameters_eq_none_iff (checks : Bool) (offsets : List UInt64) :
    GammaPicker.withParameters checks offsets = none ↔
      checks = true ∧ ShrankInAYear offsets := by
  unfold GammaPicker.withParameters
  split_ifs with hfew
  · have hshort : offsets.length ≤ blocksInAYear := hfew.trans (by decide)
    simp [not_shrankInAYear hshort]
  have hlen : 0 < offsets.length := by omega
  obtain ⟨before, hbefore⟩ := totalBefore_isSome
    (Nat.sub_le offsets.length (min offsets.length blocksInAYear))
  have hend : offsets.length - (max spendableAge 1 - 1) - 1 < offsets.length := by omega
  have hshrank : ShrankInAYear offsets ↔ offsets[offsets.length - 1] < before := by
    constructor
    · rintro ⟨last, before', hlast, hbefore', hlt⟩
      rw [List.getLast?_eq_getElem?, List.getElem?_eq_getElem (by omega)] at hlast
      rw [hbefore] at hbefore'
      rwa [Option.some.inj hlast, Option.some.inj hbefore']
    · intro hlt
      exact ⟨_, before, by rw [List.getLast?_eq_getElem?, List.getElem?_eq_getElem], hbefore, hlt⟩
  rw [hshrank]
  simp only [List.getElem?_eq_getElem hend, List.getElem?_eq_getElem (Nat.sub_lt hlen one_pos),
    hbefore, Option.bind_eq_bind, Option.bind_some, sub64]
  by_cases hpanic : (checks && decide (offsets[offsets.length - 1] < before)) = true
  · rw [if_pos hpanic, Option.bind_none]
    rw [Bool.and_eq_true, decide_eq_true_eq] at hpanic
    exact iff_of_true rfl hpanic
  · rw [if_neg hpanic, Option.bind_some]
    constructor
    · intro h
      split_ifs at h
    · rintro ⟨rfl, hlt⟩
      simp [hlt] at hpanic

end Wownero
