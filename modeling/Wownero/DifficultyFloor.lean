import Wownero.DifficultyChecked
import Wownero.Windows
/-!
# No difficulty bricks the chain

A difficulty of zero refuses every block.  The classic window cannot come to it.  The weighted ones
come to it, or overflow, only where the difficulty is all but nothing or the work is beyond what they
were written for.
-/

namespace Wownero.Difficulty

open Wownero

/-! ### The classic window, checked -/

/-- `mul_u128`, checked. -/
def mulU128Checked (a b : Nat) : Option (Nat × Nat) := do
  let ll ← fit 128 (wrap64 a * wrap64 b)
  let lh ← fit 128 (wrap64 a * (b >>> 64))
  let hl ← fit 128 (a >>> 64 * wrap64 b)
  let hh ← fit 128 (a >>> 64 * (b >>> 64))
  let column ← fit 128 ((ll >>> 64) + (lh &&& u64Max))
  let mid ← fit 128 (column + (hl &&& u64Max))
  let hi ← fit 128 (hh + (lh >>> 64))
  let hi ← fit 128 (hi + (hl >>> 64))
  let hi ← fit 128 (hi + (mid >>> 64))
  some (ll &&& u64Max ||| wrap128 (mid <<< 64), hi)

/-- `add_u256`, checked: the lower half carries, the upper must not. -/
def addU256Checked (lo hi add : Nat) : Option (Nat × Nat) := do
  let hi ← fit 128 (hi + if lo + add > u128Max then 1 else 0)
  some (wrap128 (lo + add), hi)

/-- `ceil_div_256`, checked. -/
def ceilDivChecked (totalWork target timeSpan : Nat) : Option Nat := do
  let (lo, hi) ← mulU128Checked totalWork target
  let less ← checkedSub timeSpan 1
  let (lo, hi) ← addU256Checked lo hi less
  if timeSpan = 0 then none
  else
    let (qLo, qHi) := divU256ByU64 lo hi timeSpan
    some (if qHi ≠ 0 then 0 else qLo)

/-- The classic window, checked. -/
def classicChecked (window cut target : Nat) (timestamps cumulative : List Nat) : Option Nat := do
  let (cutBegin, cutEnd) := cutsOf window cut (timestamps.take window).length
  let sorted := (timestamps.take window).insertionSort (· ≤ ·)
  let last ← checkedSub cutEnd 1
  let newest ← sorted[last]?
  let oldest ← sorted[cutBegin]?
  let span ← checkedSub newest oldest
  let done ← (cumulative.take window)[last]?
  let before ← (cumulative.take window)[cutBegin]?
  ceilDivChecked (sub128 done before) target (if span = 0 then 1 else span)

/-- `next_difficulty_v1`, checked. -/
def nextDifficultyV1Checked (timestamps cumulative : List Nat) (target height : Nat)
    (net : Network) : Option Nat :=
  if testnetPinned net height then some testnetEarlyDifficulty
  else if timestamps.length ≤ 1 then some 1
  else if net = .mainnet ∧ 331170 ≤ height ∧ height ≤ 331170 + difficultyWindow then some 100000000
  else classicChecked difficultyWindow difficultyCut target timestamps cumulative

/-- `next_difficulty_v6`, checked. -/
def nextDifficultyV6Checked (timestamps cumulative : List Nat) (target height : Nat)
    (net : Network) : Option Nat :=
  if testnetPinned net height then some testnetEarlyDifficulty
  else if timestamps.length ≤ 1 then some 1
  else classicChecked difficultyWindowV3 difficultyCutV2 target timestamps cumulative

/-- `next_difficulty`, checked.  Of version 8, which computes in floating point, it says nothing. -/
def nextDifficultyChecked (version : Nat) (timestamps cumulative : List Nat) (height : Nat)
    (net : Network) : Option Nat :=
  let target := difficultyTargetV2
  match selectAlgorithm version with
  | .v6 => nextDifficultyV6Checked timestamps cumulative target height net
  | .v5 => nextDifficultyV5Checked timestamps cumulative height net
  | .v4 => nextDifficultyV4Checked timestamps cumulative height net
  | .v3 => nextDifficultyV3Checked timestamps cumulative height net
  | .v2 => none
  | .v1 => nextDifficultyV1Checked timestamps cumulative target height net

theorem mulU128Checked_eq {a b : Nat} (ha : a < 2 ^ 128) (hb : b < 2 ^ 128) :
    mulU128Checked a b = some (mulU128 a b) := by
  have hlow (n : Nat) : wrap64 n < 2 ^ 64 := Nat.mod_lt _ (by decide)
  have hhigh {n : Nat} (hn : n < 2 ^ 128) : n >>> 64 < 2 ^ 64 := by
    rw [Nat.shiftRight_eq_div_pow]
    omega
  have hll := limb_mul_le (hlow a) (hlow b)
  have hlh := limb_mul_le (hlow a) (hhigh hb)
  have hhl := limb_mul_le (hhigh ha) (hlow b)
  have hhh := limb_mul_le (hhigh ha) (hhigh hb)
  unfold mulU128Checked mulU128
  dsimp only
  generalize wrap64 a * wrap64 b = ll at hll ⊢
  generalize wrap64 a * (b >>> 64) = lh at hlh ⊢
  generalize a >>> 64 * wrap64 b = hl at hhl ⊢
  generalize a >>> 64 * (b >>> 64) = hh at hhh ⊢
  simp only [and_u64Max, Nat.shiftRight_eq_div_pow]
  rw [wrap128_of_lt (by omega : ll < 2 ^ 128), wrap128_of_lt (by omega : lh < 2 ^ 128),
    wrap128_of_lt (by omega : hl < 2 ^ 128), wrap128_of_lt (by omega : hh < 2 ^ 128),
    wrap128_of_lt (by omega : ll / 2 ^ 64 + lh % 2 ^ 64 < 2 ^ 128),
    wrap128_of_lt (by omega : ll / 2 ^ 64 + lh % 2 ^ 64 + hl % 2 ^ 64 < 2 ^ 128)]
  have hmid : ll / 2 ^ 64 + lh % 2 ^ 64 + hl % 2 ^ 64 < 3 * 2 ^ 64 := by omega
  rw [fit_of_lt (by omega), Option.bind_eq_bind, Option.bind_some, fit_of_lt (by omega),
    Option.bind_some, fit_of_lt (by omega), Option.bind_some, fit_of_lt (by omega),
    Option.bind_some, fit_of_lt (by omega), Option.bind_some, fit_of_lt (by omega),
    Option.bind_some]
  generalize ll / 2 ^ 64 + lh % 2 ^ 64 + hl % 2 ^ 64 = mid at hmid ⊢
  have hcarry : mid / 2 ^ 64 ≤ 2 := by omega
  have hfirst : hh + lh / 2 ^ 64 < 2 ^ 128 := by omega
  have hsecond : hh + lh / 2 ^ 64 + hl / 2 ^ 64 < 2 ^ 128 := by omega
  have hthird : hh + lh / 2 ^ 64 + hl / 2 ^ 64 + mid / 2 ^ 64 < 2 ^ 128 := by omega
  rw [fit_of_lt hfirst, Option.bind_some, fit_of_lt hsecond, Option.bind_some, fit_of_lt hthird,
    Option.bind_some, wrap128_of_lt hfirst, wrap128_of_lt hsecond, wrap128_of_lt hthird]

/-- Where the quotient is a word, nothing on the way to it stops. -/
theorem ceilDivChecked_eq {work target span : Nat} (hwork : work < 2 ^ 128)
    (htarget : target < 2 ^ 64) (hpos : 0 < span) :
    ceilDivChecked work target span = some (ceilDivWords work target span) := by
  have hproduct : work * target ≤ (2 ^ 128 - 1) * (2 ^ 64 - 1) :=
    Nat.mul_le_mul (Nat.le_sub_one_of_lt hwork) (Nat.le_sub_one_of_lt htarget)
  have hmul := mulU128_eq hwork (htarget.trans (by norm_num) : target < 2 ^ 128)
  unfold ceilDivChecked ceilDivWords
  rw [mulU128Checked_eq hwork (htarget.trans (by norm_num)), Option.bind_eq_bind, Option.bind_some,
    checkedSub_of_le (Nat.one_le_of_lt hpos), hmul]
  dsimp only
  have hcarry : work * target / 2 ^ 128 +
      (if work * target % 2 ^ 128 + (span - 1) > u128Max then 1 else 0) < 2 ^ 128 := by
    split_ifs <;> omega
  rw [Option.bind_eq_bind, Option.bind_some, addU256Checked, addU256, fit_of_lt hcarry,
    wrap128_of_lt hcarry, Option.bind_eq_bind, Option.bind_some, Option.bind_some, if_neg (Nat.ne_of_gt hpos)]

section

variable {timestamps cumulative : List Nat} {height : Nat} {net : Network}

/-- **The classic window** divides a work of at least one: rounded up, that is no zero. -/
theorem classicChecked_ok (h : Window timestamps cumulative) (hlength : 2 ≤ timestamps.length)
    {window cut : Nat} (hwindow : 2 ≤ window) (hcut : cut < window / 2) :
    Settles (classicChecked window cut 300 timestamps cumulative)
      (classicDifficulty window cut 300 timestamps cumulative) := by
  have hsame := h.sameLength
  have htimes : ∀ t ∈ timestamps, t < 2 ^ 64 := fun t ht => by
    have := (h.times t ht).2
    omega
  have htake : (timestamps.take window).length = min window timestamps.length := List.length_take
  obtain ⟨cuts, hcuts⟩ : ∃ cuts, cuts = cutsOf window cut (timestamps.take window).length := ⟨_, rfl⟩
  obtain ⟨hbegin, hend⟩ : cuts.1 < cuts.2 - 1 ∧ cuts.2 ≤ (timestamps.take window).length := by
    rw [hcuts]
    exact cutsOf_bounds hcut (by omega)
  obtain ⟨sorted, hsorted⟩ : ∃ sorted, sorted = (timestamps.take window).insertionSort (· ≤ ·) :=
    ⟨_, rfl⟩
  have hsortedLength : sorted.length = (timestamps.take window).length := by
    rw [hsorted, List.length_insertionSort]
  have hordered : sorted.getD cuts.1 0 ≤ sorted.getD (cuts.2 - 1) 0 := by
    rw [hsorted]
    exact sorted_getD_mono (Nat.le_of_lt hbegin) (by omega)
  have hstamp : sorted.getD (cuts.2 - 1) 0 < 2 ^ 64 := by
    rw [hsorted]
    exact sorted_getD_lt (by decide) (fun t ht => htimes t (List.mem_of_mem_take ht)) _
  have hat {i : Nat} (hi : i < (timestamps.take window).length) :
      (cumulative.take window).getD i 0 = cumulative.getD i 0 := by
    rw [List.getD_eq_getElem?_getD, List.getD_eq_getElem?_getD, List.getElem?_take_of_lt (by omega)]
  have hworkLength : (cumulative.take window).length = (timestamps.take window).length := by
    rw [List.length_take, List.length_take, hsame]
  obtain ⟨-, -, -, hwrapped⟩ := h.difference hbegin (by omega)
  have hascends := h.getD_lt hbegin (by omega)
  have hfits := h.getD_works (i := cuts.2 - 1) (by omega)
  obtain ⟨work, hwork⟩ : ∃ work, work = cumulative.getD (cuts.2 - 1) 0 - cumulative.getD cuts.1 0 :=
    ⟨_, rfl⟩
  obtain ⟨span, hspan⟩ : ∃ span, span = sorted.getD (cuts.2 - 1) 0 - sorted.getD cuts.1 0 :=
    ⟨_, rfl⟩
  have hmax : (if span = 0 then 1 else span) = max 1 span := by
    split_ifs <;> omega
  have hvalue : classicDifficulty window cut 300 timestamps cumulative =
      ceilDiv256 work 300 (max 1 span) := by
    rw [classicDifficulty_eq_words (by decide) htimes,
      classicWords_eq (by decide) htimes hcuts hsorted hspan, hat (by omega), hat (by omega),
      hwrapped, hwork]
  have hchecked : classicChecked window cut 300 timestamps cumulative =
      ceilDivChecked work 300 (max 1 span) := by
    unfold classicChecked
    rw [← hcuts, ← hsorted]
    dsimp only
    rw [checkedSub_of_le (by omega), Option.bind_eq_bind, Option.bind_some,
      getElem?_eq_some_getD (by omega), Option.bind_some, getElem?_eq_some_getD (by omega),
      Option.bind_some, checkedSub_of_le hordered, Option.bind_some,
      getElem?_eq_some_getD (by omega), Option.bind_some, getElem?_eq_some_getD (by omega),
      Option.bind_some, hat (by omega), hat (by omega), hwrapped, ← hwork, ← hspan, hmax]
  have hsome : 1 ≤ (work * 300 + (max 1 span - 1)) / max 1 span := by
    rw [Nat.le_div_iff_mul_le (by omega)]
    omega
  have hbelow : (work * 300 + (max 1 span - 1)) / max 1 span ≤ u128Max := by
    refine (Nat.div_le_self _ _).trans ?_
    unfold u128Max
    omega
  rw [hchecked, hvalue, ceilDivChecked_eq (by omega) (by decide) (by omega),
    ceilDivWords_eq (by omega) (by decide) (by omega) (by omega)]
  refine ⟨rfl, ?_⟩
  unfold ceilDiv256
  rw [if_pos hbelow]
  exact hsome

theorem nextDifficultyV1_ok (h : Window timestamps cumulative) :
    Settles (nextDifficultyV1Checked timestamps cumulative 300 height net)
      (nextDifficultyV1 timestamps cumulative 300 height net) :=
  .ite (by decide) fun _ => .ite (by decide) fun hlength => .ite (by decide) fun _ =>
    classicChecked_ok h (by omega) (by decide) (by decide)

theorem nextDifficultyV6_ok (h : Window timestamps cumulative) :
    Settles (nextDifficultyV6Checked timestamps cumulative 300 height net)
      (nextDifficultyV6 timestamps cumulative 300 height net) :=
  .ite (by decide) fun _ => .ite (by decide) fun hlength =>
    classicChecked_ok h (by omega) (by decide) (by decide)

/-! ### Above a chain -/

/-- What an algorithm needs of a full window whose height is not overridden.  The third needs its
    product to fit and the last block a difficulty of two, the fourth an average it was written for,
    the fifth an average of seven; the classic ones need nothing. -/
def Workable (a : Algorithm) (timestamps cumulative : List Nat) (height : Nat) (net : Network) :
    Prop :=
  overridden a height net = false →
    match a with
    | .v3 => 61 ≤ timestamps.length → workTo cumulative 60 * 1811700 < 2 ^ 63 ∧
        2 ≤ cumulative.getD 60 0 - cumulative.getD 59 0
    | .v4 => 61 ≤ timestamps.length → fitsV4 (workTo cumulative 60 / 60) (workTo cumulative 60)
    | .v5 => 145 ≤ timestamps.length → 1008 ≤ workTo cumulative 144
    | _ => True

/-- The window `next_difficulty` collects above a chain of timestamps and cumulative difficulties:
    the last blocks, as many as the version asks for, and never the first. -/
def collected (version : Nat) (chain : List (Nat × Nat)) : List (Nat × Nat) :=
  chain.drop (max (chain.length - difficultyBlocksCount version) 1)

/-- It is the window the chain hands to the algorithm. -/
theorem difficultyBy_eq_collected {σ : Type} {P : Params σ} (hfixed : P.fixedDifficulty = none)
    (version : Nat) (stamps : List Stamp) :
    difficultyBy P version stamps =
      let window := collected version (stamps.map fun s => (s.timestamp, s.cumulativeDifficulty))
      nextDifficulty version (window.map (·.1)) (window.map (·.2)) stamps.length P.network := by
  unfold difficultyBy collected
  rw [hfixed]
  simp only [List.length_map, List.map_drop, List.map_map]
  rfl

/-- **A difficulty never bricks a chain**: above every chain it comes without a fault and is no zero,
    for every version but the one that computes in floating point. -/
theorem difficulty_never_bricks {version : Nat} (hversion : version ≠ 8) {chain : List (Nat × Nat)}
    (htimes : ∀ b ∈ chain, 300 ≤ b.1 ∧ b.1 ≤ 2 ^ 40)
    (hascending : (chain.map (·.2)).Pairwise (· < ·)) (htotal : ∀ b ∈ chain, b.2 < 2 ^ 96) :
    let timestamps := (collected version chain).map (·.1)
    let cumulative := (collected version chain).map (·.2)
    Workable (selectAlgorithm version) timestamps cumulative chain.length net →
      nextDifficultyChecked version timestamps cumulative chain.length net =
          some (nextDifficulty version timestamps cumulative chain.length net) ∧
        1 ≤ nextDifficulty version timestamps cumulative chain.length net := by
  intro timestamps cumulative hwork
  have hwindow : Window timestamps cumulative := by
    refine ⟨?_, ?_, ?_, ?_⟩
    · show ((collected version chain).map (·.2)).length = ((collected version chain).map (·.1)).length
      rw [List.length_map, List.length_map]
    · intro t ht
      obtain ⟨b, hb, rfl⟩ := List.mem_map.mp ht
      exact htimes b (List.mem_of_mem_drop hb)
    · show ((collected version chain).map (·.2)).Pairwise (· < ·)
      rw [collected, List.map_drop]
      exact hascending.sublist (List.drop_sublist _ _)
    · intro d hd
      obtain ⟨b, hb, rfl⟩ := List.mem_map.mp hd
      exact htotal b (List.mem_of_mem_drop hb)
  show Settles _ _
  unfold nextDifficultyChecked nextDifficulty
  unfold Workable at hwork
  have hfloat : selectAlgorithm version ≠ .v2 := by
    unfold selectAlgorithm
    split_ifs <;> simp
  generalize selectAlgorithm version = a at hwork hfloat ⊢
  cases a with
  | v1 => exact nextDifficultyV1_ok hwindow
  | v2 => exact absurd rfl hfloat
  | v3 => exact nextDifficultyV3_ok hwindow hwork
  | v4 => exact nextDifficultyV4_ok hwindow hwork
  | v5 => exact nextDifficultyV5_ok hwindow hwork
  | v6 => exact nextDifficultyV6_ok hwindow

/-- A chain of evenly spaced blocks of one difficulty. -/
def evenChain (length step work : Nat) : List (Nat × Nat) :=
  (List.range length).map fun i => (300 + step * i, work * i + 1)

theorem collected_evenChain (version length step work : Nat) :
    collected version (evenChain length step work) =
      (List.range' (max (length - difficultyBlocksCount version) 1)
        (length - max (length - difficultyBlocksCount version) 1)).map
        fun i => (300 + step * i, work * i + 1) := by
  rw [collected, evenChain, List.length_map, List.length_range, ← List.map_drop, List.range_eq_range',
    List.drop_range', Nat.mul_one, Nat.zero_add]

theorem mem_evenChain {length step work : Nat} {b : Nat × Nat} (h : b ∈ evenChain length step work) :
    ∃ i < length, b = (300 + step * i, work * i + 1) := by
  obtain ⟨i, hi, rfl⟩ := List.mem_map.mp h
  exact ⟨i, List.mem_range.mp hi, rfl⟩

theorem pairwise_evenChain (length step : Nat) {work : Nat} (hwork : 0 < work) :
    ((evenChain length step work).map (·.2)).Pairwise (· < ·) := by
  rw [evenChain, List.map_map, List.pairwise_map]
  refine List.pairwise_lt_range.imp fun {i j} hij => ?_
  show work * i + 1 < work * j + 1
  have := Nat.mul_lt_mul_of_pos_left hij hwork
  omega

/-- A block every ten minutes at a difficulty of ten. -/
theorem difficulty_never_bricks_even :
    1 ≤ nextDifficulty 12 ((collected 12 (evenChain 146 600 10)).map (·.1))
      ((collected 12 (evenChain 146 600 10)).map (·.2)) (evenChain 146 600 10).length .mainnet := by
  refine (difficulty_never_bricks (by decide) (fun b hb => ?_) (pairwise_evenChain 146 600 (by decide))
    (fun b hb => ?_) ?_).2
  · obtain ⟨i, hi, rfl⟩ := mem_evenChain hb
    constructor <;> dsimp only <;> omega
  · obtain ⟨i, hi, rfl⟩ := mem_evenChain hb
    dsimp only
    omega
  · intro _ _
    rw [collected_evenChain]
    show 1008 ≤ workTo _ 144
    decide

/-- Of a chain whose blocks are all of difficulty one, half an hour apart, version 12 demands
    nothing at all of the next block. -/
theorem slow_chain_bricked :
    ¬ ∀ (version : Nat) (net : Network) (chain : List (Nat × Nat)), version ≠ 8 →
      (∀ b ∈ chain, 300 ≤ b.1 ∧ b.1 ≤ 2 ^ 40) → (chain.map (·.2)).Pairwise (· < ·) →
      (∀ b ∈ chain, b.2 < 2 ^ 96) →
      1 ≤ nextDifficulty version ((collected version chain).map (·.1))
        ((collected version chain).map (·.2)) chain.length net := by
  intro h
  have hslow := h 12 .mainnet (evenChain 100000 1800 1) (by decide) (fun b hb => ?_)
    (pairwise_evenChain 100000 1800 (by decide)) (fun b hb => ?_)
  · rw [collected_evenChain, evenChain, List.length_map, List.length_range] at hslow
    exact absurd hslow (by decide +kernel)
  · obtain ⟨i, hi, rfl⟩ := mem_evenChain hb
    constructor <;> dsimp only <;> omega
  · obtain ⟨i, hi, rfl⟩ := mem_evenChain hb
    dsimp only
    omega

end

end Wownero.Difficulty
