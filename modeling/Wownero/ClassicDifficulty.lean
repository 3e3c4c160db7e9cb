import Mathlib.Algebra.Order.Floor.Div
import Mathlib.Data.List.GetD
import Wownero.Difficulty
import Wownero.Wide
/-!
# The classic difficulty

Versions 18 and 19 and those from 20 on ask for the work between two cuts of the window over the
time between them, rounded up.  The product and the quotient need more than a word, and are written
by hand on limbs of 64 bits.
-/

namespace Wownero.Difficulty

open Wownero

/-! ### Arithmetic in two hundred and fifty-six bits -/

/-- `mul_u128`: the low and the high half of a product. -/
def mulU128 (a b : Nat) : Nat × Nat :=
  let aLo := wrap64 a
  let aHi := a >>> 64
  let bLo := wrap64 b
  let bHi := b >>> 64
  let ll := wrap128 (aLo * bLo)
  let lh := wrap128 (aLo * bHi)
  let hl := wrap128 (aHi * bLo)
  let hh := wrap128 (aHi * bHi)
  let mid := wrap128 (wrap128 ((ll >>> 64) + (lh &&& u64Max)) + (hl &&& u64Max))
  (ll &&& u64Max ||| wrap128 (mid <<< 64),
    wrap128 (wrap128 (wrap128 (hh + (lh >>> 64)) + (hl >>> 64)) + (mid >>> 64)))

/-- `add_u256`. -/
def addU256 (lo hi add : Nat) : Nat × Nat :=
  (wrap128 (lo + add), wrap128 (hi + if lo + add > u128Max then 1 else 0))

/-- The loop of `div_u256_by_u64`, over the limbs from the most significant on. -/
def divLimbs (d : Nat) : Nat → List Nat → List Nat
  | _, [] => []
  | rem, limb :: limbs =>
      let cur := wrap128 (rem <<< 64) ||| limb
      wrap64 (cur / d) :: divLimbs d (cur % d) limbs

/-- `div_u256_by_u64`. -/
def divU256ByU64 (lo hi d : Nat) : Nat × Nat :=
  match divLimbs d 0 [wrap64 (hi >>> 64), wrap64 hi, wrap64 (lo >>> 64), wrap64 lo] with
  | [q₃, q₂, q₁, q₀] => (q₀ ||| wrap128 (q₁ <<< 64), q₂ ||| wrap128 (q₃ <<< 64))
  | _ => (0, 0)

/-- `ceil_div_256`, as it is written. -/
def ceilDivWords (totalWork target timeSpan : Nat) : Nat :=
  let (lo, hi) := mulU128 totalWork target
  let (lo, hi) := addU256 lo hi (timeSpan - 1)
  let (qLo, qHi) := divU256ByU64 lo hi timeSpan
  if qHi ≠ 0 then 0 else qLo

theorem and_u64Max (n : Nat) : n &&& u64Max = n % 2 ^ 64 := Nat.and_two_pow_sub_one_eq_mod n 64

/-- Two halves side by side; what the upper has too much of is shifted out. -/
theorem or_shiftLeft {lo : Nat} (hlo : lo < 2 ^ 64) (hi : Nat) :
    lo ||| wrap128 (hi <<< 64) = hi % 2 ^ 64 * 2 ^ 64 + lo := by
  have hwrap : wrap128 (hi <<< 64) = (hi % 2 ^ 64) <<< 64 := by
    rw [Nat.shiftLeft_eq, Nat.shiftLeft_eq, wrap128]
    omega
  rw [hwrap, Nat.or_comm, ← Nat.shiftLeft_add_eq_or_of_lt hlo, Nat.shiftLeft_eq]

theorem wrap64_of_lt {n : Nat} (h : n < 2 ^ 64) : wrap64 n = n := Nat.mod_eq_of_lt h

theorem wrap128_of_lt {n : Nat} (h : n < 2 ^ 128) : wrap128 n = n := Nat.mod_eq_of_lt h

/-- The product of two limbs. -/
theorem limb_mul_le {a b : Nat} (ha : a < 2 ^ 64) (hb : b < 2 ^ 64) :
    a * b ≤ (2 ^ 64 - 1) * (2 ^ 64 - 1) :=
  Nat.mul_le_mul (Nat.le_sub_one_of_lt ha) (Nat.le_sub_one_of_lt hb)

/-- The two halves of the product, with no carry lost. -/
theorem mulU128_eq {a b : Nat} (ha : a < 2 ^ 128) (hb : b < 2 ^ 128) :
    mulU128 a b = (a * b % 2 ^ 128, a * b / 2 ^ 128) := by
  have ha₀ : a % 2 ^ 64 < 2 ^ 64 := Nat.mod_lt _ (by decide)
  have hb₀ : b % 2 ^ 64 < 2 ^ 64 := Nat.mod_lt _ (by decide)
  have ha₁ : a / 2 ^ 64 < 2 ^ 64 := by omega
  have hb₁ : b / 2 ^ 64 < 2 ^ 64 := by omega
  have hll := limb_mul_le ha₀ hb₀
  have hlh := limb_mul_le ha₀ hb₁
  have hhl := limb_mul_le ha₁ hb₀
  have hhh := limb_mul_le ha₁ hb₁
  have hcolumns := Wide.columns_eq (2 ^ 64) (a % 2 ^ 64 * (b % 2 ^ 64)) (a % 2 ^ 64 * (b / 2 ^ 64))
    (a / 2 ^ 64 * (b % 2 ^ 64)) (a / 2 ^ 64 * (b / 2 ^ 64))
  rw [Wide.split_mul] at hcolumns
  have hlow : ∀ n : Nat, wrap64 n = n % 2 ^ 64 := fun _ => rfl
  unfold mulU128
  simp only [and_u64Max, Nat.shiftRight_eq_div_pow, hlow]
  generalize a % 2 ^ 64 * (b % 2 ^ 64) = ll at hll hcolumns ⊢
  generalize a % 2 ^ 64 * (b / 2 ^ 64) = lh at hlh hcolumns ⊢
  generalize a / 2 ^ 64 * (b % 2 ^ 64) = hl at hhl hcolumns ⊢
  generalize a / 2 ^ 64 * (b / 2 ^ 64) = hh at hhh hcolumns ⊢
  rw [wrap128_of_lt (by omega : ll < 2 ^ 128), wrap128_of_lt (by omega : lh < 2 ^ 128),
    wrap128_of_lt (by omega : hl < 2 ^ 128), wrap128_of_lt (by omega : hh < 2 ^ 128),
    wrap128_of_lt (by omega : ll / 2 ^ 64 + lh % 2 ^ 64 < 2 ^ 128),
    wrap128_of_lt (by omega : ll / 2 ^ 64 + lh % 2 ^ 64 + hl % 2 ^ 64 < 2 ^ 128)]
  have hmid : Wide.midColumn (2 ^ 64) ll lh hl = ll / 2 ^ 64 + lh % 2 ^ 64 + hl % 2 ^ 64 := rfl
  rw [← hmid]
  generalize Wide.midColumn (2 ^ 64) ll lh hl = mid at hmid hcolumns ⊢
  rw [or_shiftLeft (Nat.mod_lt _ (by decide)), wrap128_of_lt (by omega : hh + lh / 2 ^ 64 < 2 ^ 128),
    wrap128_of_lt (by omega : hh + lh / 2 ^ 64 + hl / 2 ^ 64 < 2 ^ 128),
    wrap128_of_lt (by omega : hh + lh / 2 ^ 64 + hl / 2 ^ 64 + mid / 2 ^ 64 < 2 ^ 128), ← hcolumns]
  refine Prod.ext ?_ ?_
  · show mid % 2 ^ 64 * 2 ^ 64 + ll % 2 ^ 64 = _ % 2 ^ 128
    omega
  · show hh + lh / 2 ^ 64 + hl / 2 ^ 64 + mid / 2 ^ 64 = _ / 2 ^ 128
    omega

theorem addU256_eq {v add : Nat} (hadd : add < 2 ^ 128) (hv : v + add < 2 ^ 256) :
    addU256 (v % 2 ^ 128) (v / 2 ^ 128) add = ((v + add) % 2 ^ 128, (v + add) / 2 ^ 128) := by
  unfold addU256 u128Max
  refine Prod.ext ?_ ?_
  · show (v % 2 ^ 128 + add) % 2 ^ 128 = (v + add) % 2 ^ 128
    omega
  · show wrap128 (v / 2 ^ 128 + if _ then 1 else 0) = (v + add) / 2 ^ 128
    split_ifs with hcarry
    · rw [wrap128_of_lt (by omega)]
      omega
    · rw [wrap128_of_lt (by omega)]
      omega

/-- The loop of limbs is a long division. -/
theorem divLimbs_eq {d r : Nat} (hd : d < 2 ^ 64) (hr : r < d) {limbs : List Nat}
    (hlimbs : ∀ l ∈ limbs, l < 2 ^ 64) : divLimbs d r limbs = Wide.longDiv (2 ^ 64) d r limbs := by
  have hpos : 0 < d := Nat.lt_of_le_of_lt (Nat.zero_le _) hr
  induction limbs generalizing r with
  | nil => rfl
  | cons l limbs ih =>
      obtain ⟨hl, hrest⟩ := List.forall_mem_cons.mp hlimbs
      have hquotient := Wide.longDiv_lt hr hlimbs _ List.mem_cons_self
      have hcur : wrap128 (r <<< 64) ||| l = r * 2 ^ 64 + l := by
        rw [Nat.or_comm, or_shiftLeft hl, Nat.mod_eq_of_lt (by omega)]
      rw [divLimbs, Wide.longDiv]
      simp only [hcur]
      rw [wrap64_of_lt hquotient, ih (Nat.mod_lt _ hpos) hrest]

theorem divU256ByU64_eq {v d : Nat} (hv : v < 2 ^ 256) (hpos : 0 < d) (hd : d < 2 ^ 64) :
    divU256ByU64 (v % 2 ^ 128) (v / 2 ^ 128) d = (v / d % 2 ^ 128, v / d / 2 ^ 128) := by
  obtain ⟨limbs, hlimbs⟩ : ∃ limbs, limbs = [wrap64 ((v / 2 ^ 128) >>> 64), wrap64 (v / 2 ^ 128),
    wrap64 ((v % 2 ^ 128) >>> 64), wrap64 (v % 2 ^ 128)] := ⟨_, rfl⟩
  have hsmall : ∀ l ∈ limbs, l < 2 ^ 64 := by
    intro l hl
    simp only [hlimbs, List.mem_cons, List.not_mem_nil, or_false] at hl
    rcases hl with rfl | rfl | rfl | rfl <;> exact Nat.mod_lt _ (by decide)
  have hvalue : Wide.valueFrom (2 ^ 64) 0 limbs = v := by
    simp only [hlimbs, Wide.valueFrom, wrap64, Nat.shiftRight_eq_div_pow]
    omega
  have hquotients := Wide.longDiv_lt hpos hsmall
  have hdivides := Wide.value_longDiv hpos limbs (B := 2 ^ 64)
  have hlength : (Wide.longDiv (2 ^ 64) d 0 limbs).length = 4 := by
    rw [Wide.length_longDiv, hlimbs]
    rfl
  rw [hvalue] at hdivides
  unfold divU256ByU64
  rw [← hlimbs, divLimbs_eq hd hpos hsmall]
  generalize Wide.longDiv (2 ^ 64) d 0 limbs = qs at hquotients hdivides hlength
  obtain ⟨q₃, q₂, q₁, q₀, rfl⟩ := List.length_eq_four.mp hlength
  simp only [List.mem_cons, List.not_mem_nil, or_false, forall_eq_or_imp, forall_eq] at hquotients
  obtain ⟨h₃, h₂, h₁, h₀⟩ := hquotients
  simp only [Wide.value, Wide.valueFrom] at hdivides
  show (q₀ ||| wrap128 (q₁ <<< 64), q₂ ||| wrap128 (q₃ <<< 64)) = _
  rw [or_shiftLeft h₀, or_shiftLeft h₂, Nat.mod_eq_of_lt h₁, Nat.mod_eq_of_lt h₃]
  have hlow : q₁ * 2 ^ 64 + q₀ < 2 ^ 128 := by omega
  have hsplit : v / d = q₁ * 2 ^ 64 + q₀ + 2 ^ 128 * (q₃ * 2 ^ 64 + q₂) := by
    rw [← hdivides]
    ring
  rw [hsplit, Nat.add_mul_mod_self_left, Nat.mod_eq_of_lt hlow,
    Nat.add_mul_div_left _ _ (by decide), Nat.div_eq_of_lt hlow, Nat.zero_add]

/-- **The words divide exactly**: the quotient rounded up, and zero when it is no `u128`. -/
theorem ceilDivWords_eq {work target span : Nat} (hwork : work < 2 ^ 128) (htarget : target < 2 ^ 64)
    (hpos : 0 < span) (hspan : span < 2 ^ 64) :
    ceilDivWords work target span = ceilDiv256 work target span := by
  have hproduct : work * target ≤ (2 ^ 128 - 1) * (2 ^ 64 - 1) :=
    Nat.mul_le_mul (Nat.le_sub_one_of_lt hwork) (Nat.le_sub_one_of_lt htarget)
  unfold ceilDivWords ceilDiv256
  rw [mulU128_eq hwork (htarget.trans (by norm_num))]
  simp only
  rw [addU256_eq (by omega) (by omega)]
  simp only
  rw [divU256ByU64_eq (by omega) hpos hspan]
  simp only
  generalize (work * target + (span - 1)) / span = q
  unfold u128Max
  by_cases hfits : q < 2 ^ 128
  · rw [Nat.div_eq_of_lt hfits, Nat.mod_eq_of_lt hfits, if_neg (by simp), if_pos (by omega)]
  · rw [if_pos (by omega), if_neg (by omega)]

/-! ### The window -/

/-- The first and the last place between the cuts of a window of so many timestamps. -/
def cutsOf (window cut length : Nat) : Nat × Nat :=
  let span := window - 2 * cut
  if length ≤ span then (0, length) else ((length - span + 1) / 2, (length - span + 1) / 2 + span)

/-- `classicDifficulty`, dividing on words. -/
def classicWords (window cut target : Nat) (timestamps cumulative : List Nat) : Nat :=
  let timestamps := timestamps.take window
  let cumulative := cumulative.take window
  let (cutBegin, cutEnd) := cutsOf window cut timestamps.length
  let sorted := timestamps.insertionSort (· ≤ ·)
  let timeSpan := sorted.getD (cutEnd - 1) 0 - sorted.getD cutBegin 0
  let timeSpan := if timeSpan = 0 then 1 else timeSpan
  ceilDivWords (sub128 (cumulative.getD (cutEnd - 1) 0) (cumulative.getD cutBegin 0)) target timeSpan

/-- `next_difficulty_v1`, on words. -/
def nextDifficultyV1Words (timestamps cumulative : List Nat) (target height : Nat) (net : Network) :
    Nat :=
  if testnetPinned net height then testnetEarlyDifficulty
  else if timestamps.length ≤ 1 then 1
  else if net = .mainnet ∧ 331170 ≤ height ∧ height ≤ 331170 + difficultyWindow then 100000000
  else classicWords difficultyWindow difficultyCut target timestamps cumulative

/-- `next_difficulty_v6`, on words. -/
def nextDifficultyV6Words (timestamps cumulative : List Nat) (target height : Nat) (net : Network) :
    Nat :=
  if testnetPinned net height then testnetEarlyDifficulty
  else if timestamps.length ≤ 1 then 1
  else classicWords difficultyWindowV3 difficultyCutV2 target timestamps cumulative

/-- `next_difficulty` of the versions that use the classic window last. -/
def nextDifficultyWords (version : Nat) (timestamps cumulative : List Nat) (height : Nat)
    (net : Network) : Nat :=
  if version ≥ 20 then nextDifficultyV6Words timestamps cumulative difficultyTargetV2 height net
  else nextDifficultyV1Words timestamps cumulative difficultyTargetV2 height net

/-- The window of a version from 18 on: how many entries, and how many of them are cut at an end. -/
def classicWindow (version : Nat) : Nat × Nat :=
  if version ≥ 20 then (difficultyWindowV3, difficultyCutV2) else (difficultyWindow, difficultyCut)

/-- The heights whose difficulty is pinned. -/
def pinned (version height : Nat) (net : Network) : Bool :=
  testnetPinned net height ||
    (version < 20 && net == .mainnet && 331170 ≤ height && height ≤ 331170 + difficultyWindow)

section

variable {window cut length : Nat}

/-- Both places are in the window, in order. -/
theorem cutsOf_bounds (hcut : cut < window / 2) (hlength : 2 ≤ length) :
    (cutsOf window cut length).1 < (cutsOf window cut length).2 - 1 ∧
      (cutsOf window cut length).2 ≤ length := by
  unfold cutsOf
  simp only
  split_ifs with hshort
  · exact ⟨by omega, Nat.le_refl _⟩
  · simp only
    omega

variable {timestamps cumulative timestamps' cumulative' : List Nat}

theorem sorted_getD_mono {l : List Nat} {i j : Nat} (hij : i ≤ j) (hj : j < l.length) :
    (l.insertionSort (· ≤ ·)).getD i 0 ≤ (l.insertionSort (· ≤ ·)).getD j 0 := by
  have hsorted := List.pairwise_insertionSort (· ≤ ·) l
  have hlength := List.length_insertionSort (· ≤ ·) l
  rw [List.getD_eq_getElem _ _ (by omega), List.getD_eq_getElem _ _ (by omega)]
  rcases Nat.lt_or_eq_of_le hij with hlt | rfl
  · exact List.pairwise_iff_getElem.mp hsorted i j (by omega) (by omega) hlt
  · exact Nat.le_refl _

/-- A timestamp between the cuts is one of the window. -/
theorem sorted_getD_lt {l : List Nat} {bound : Nat} (hpos : 0 < bound) (h : ∀ t ∈ l, t < bound)
    (i : Nat) : (l.insertionSort (· ≤ ·)).getD i 0 < bound := by
  by_cases hi : i < (l.insertionSort (· ≤ ·)).length
  · rw [List.getD_eq_getElem _ _ hi]
    exact h _ ((List.mem_insertionSort _).mp (List.getElem_mem hi))
  · rw [List.getD_eq_default _ _ (Nat.not_lt.mp hi)]
    exact hpos

/-- The quotient of a window, on words, is that of its cuts, rounded up in exact arithmetic. -/
theorem classicWords_eq {target : Nat} (htarget : target < 2 ^ 64)
    (htimes : ∀ t ∈ timestamps, t < 2 ^ 64) {cuts : Nat × Nat} {sorted : List Nat} {span : Nat}
    (hcuts : cuts = cutsOf window cut (timestamps.take window).length)
    (hsorted : sorted = (timestamps.take window).insertionSort (· ≤ ·))
    (hspan : span = sorted.getD (cuts.2 - 1) 0 - sorted.getD cuts.1 0) :
    classicWords window cut target timestamps cumulative =
      ceilDiv256 (sub128 ((cumulative.take window).getD (cuts.2 - 1) 0)
        ((cumulative.take window).getD cuts.1 0)) target (max 1 span) := by
  have hstamp : ∀ i, sorted.getD i 0 < 2 ^ 64 := by
    rw [hsorted]
    exact sorted_getD_lt (by decide) fun t ht => htimes t (List.mem_of_mem_take ht)
  have hmax : (if span = 0 then 1 else span) = max 1 span := by
    split_ifs <;> omega
  have hsmall : max 1 span < 2 ^ 64 := by
    have := hstamp (cuts.2 - 1)
    omega
  have hwork : ∀ a b, sub128 a b < 2 ^ 128 := fun a b => Nat.mod_lt _ (by decide)
  rw [← ceilDivWords_eq (hwork _ _) htarget (by omega) hsmall, ← hmax, hspan, hsorted, hcuts]
  rfl

/-- Nothing but the first entries of a window is read, the timestamps in any order. -/
theorem classicWords_congr {target : Nat}
    (htimes : (timestamps'.take window).Perm (timestamps.take window))
    (hworks : cumulative'.take window = cumulative.take window) :
    classicWords window cut target timestamps' cumulative' =
      classicWords window cut target timestamps cumulative := by
  have hsort : (timestamps'.take window).insertionSort (· ≤ ·) =
      (timestamps.take window).insertionSort (· ≤ ·) := by
    refine List.Perm.eq_of_sortedLE List.sortedLE_insertionSort List.sortedLE_insertionSort ?_
    exact (List.perm_insertionSort _ _).trans (htimes.trans (List.perm_insertionSort _ _).symm)
  simp only [classicWords, hsort, hworks, htimes.length_eq]

end

/-! ### The versions -/

section

variable {version height : Nat} {net : Network} {timestamps cumulative : List Nat}

theorem nextDifficultyWords_eq_classic (hpinned : pinned version height net = false)
    (hlength : 2 ≤ timestamps.length) :
    nextDifficultyWords version timestamps cumulative height net =
      classicWords (classicWindow version).1 (classicWindow version).2 difficultyTargetV2 timestamps
        cumulative := by
  unfold pinned at hpinned
  rw [Bool.or_eq_false_iff] at hpinned
  obtain ⟨htest, hreset⟩ := hpinned
  unfold nextDifficultyWords classicWindow
  by_cases hnew : version ≥ 20
  · rw [if_pos hnew, if_pos hnew, nextDifficultyV6Words, htest, if_neg (by decide),
      if_neg (by omega)]
  · have hnot : ¬ (net = .mainnet ∧ 331170 ≤ height ∧ height ≤ 331170 + difficultyWindow) := by
      rintro ⟨hnet, hfrom, hto⟩
      simp [Nat.not_le.mp hnew, hnet, hfrom, hto] at hreset
    rw [if_neg hnew, if_neg hnew, nextDifficultyV1Words, htest, if_neg (by decide),
      if_neg (by omega), if_neg hnot]

theorem classicDifficulty_eq_words {window cut target : Nat} (htarget : target < 2 ^ 64)
    (htimes : ∀ t ∈ timestamps, t < 2 ^ 64) :
    classicDifficulty window cut target timestamps cumulative =
      classicWords window cut target timestamps cumulative := by
  rw [classicWords_eq htarget htimes rfl rfl rfl]
  unfold classicDifficulty cutsOf
  by_cases hshort : (timestamps.take window).length ≤ window - 2 * cut
  · simp only [if_pos hshort]
    congr 1
    split_ifs <;> omega
  · simp only [if_neg hshort]
    congr 1
    split_ifs <;> omega

/-- The words give what the algorithms of the model give. -/
theorem nextDifficulty_eq_words (hversion : 18 ≤ version) (htimes : ∀ t ∈ timestamps, t < 2 ^ 64) :
    nextDifficulty version timestamps cumulative height net =
      nextDifficultyWords version timestamps cumulative height net := by
  have hsame (window cut : Nat) := @classicDifficulty_eq_words timestamps cumulative window cut
    difficultyTargetV2 (by decide) htimes
  unfold nextDifficulty nextDifficultyWords selectAlgorithm
  by_cases hnew : version ≥ 20
  · simp only [if_pos hnew]
    rw [nextDifficultyV6, nextDifficultyV6Words, hsame]
  · have hlate : ¬ (version ≤ 17 ∧ version ≥ 11) := by omega
    simp only [if_neg hnew, if_neg hlate, if_neg (by omega : ¬ version = 10),
      if_neg (by omega : ¬ version = 9), if_neg (by omega : ¬ version = 8)]
    rw [nextDifficultyV1, nextDifficultyV1Words, hsame]

/-- **The classic difficulty is exact.**  Between the cuts of the first entries of the window, which
    are in range, it is the work done times the target over the time it took, at least a second,
    rounded up, or zero where that is no `u128`.  The order of those timestamps does not matter, nor
    does what comes behind them. -/
theorem classic_difficulty_exact (hversion : 18 ≤ version)
    (hpinned : pinned version height net = false) (hlength : 2 ≤ timestamps.length)
    (hsame : cumulative.length = timestamps.length) (htimes : ∀ t ∈ timestamps, t < 2 ^ 64)
    (hworks : ∀ d ∈ cumulative, d < 2 ^ 128) :
    let window := (classicWindow version).1
    let cuts := cutsOf window (classicWindow version).2 (min window timestamps.length)
    let sorted := (timestamps.take window).insertionSort (· ≤ ·)
    let S := sorted.getD (cuts.2 - 1) 0 - sorted.getD cuts.1 0
    let W := (cumulative.getD (cuts.2 - 1) 0 + 2 ^ 128 - cumulative.getD cuts.1 0) % 2 ^ 128
    let q := (W * 300) ⌈/⌉ max 1 S
    (cuts.1 < cuts.2 - 1 ∧ cuts.2 ≤ sorted.length ∧ cuts.2 ≤ cumulative.length) ∧
      sorted.getD cuts.1 0 ≤ sorted.getD (cuts.2 - 1) 0 ∧
      nextDifficultyWords version timestamps cumulative height net =
        (if q < 2 ^ 128 then q else 0) ∧
      nextDifficulty version timestamps cumulative height net =
        (if q < 2 ^ 128 then q else 0) ∧
      ∀ timestamps' cumulative', (timestamps'.take window).Perm (timestamps.take window) →
        cumulative'.take window = cumulative.take window →
        nextDifficultyWords version timestamps' cumulative' height net =
          nextDifficultyWords version timestamps cumulative height net := by
  intro window cuts sorted S W q
  have hwindow : 2 ≤ window ∧ (classicWindow version).2 < window / 2 := by
    show 2 ≤ (classicWindow version).1 ∧ (classicWindow version).2 < (classicWindow version).1 / 2
    unfold classicWindow
    split_ifs <;> decide
  have htake : (timestamps.take window).length = min window timestamps.length := List.length_take
  obtain ⟨hbegin, hend⟩ : cuts.1 < cuts.2 - 1 ∧ cuts.2 ≤ min window timestamps.length :=
    cutsOf_bounds hwindow.2 (by omega)
  have hsortedLength : sorted.length = min window timestamps.length :=
    (List.length_insertionSort _ _).trans htake
  have hat {i : Nat} (hi : i < min window timestamps.length) :
      (cumulative.take window).getD i 0 = cumulative.getD i 0 := by
    rw [List.getD_eq_getElem?_getD, List.getD_eq_getElem?_getD, List.getElem?_take_of_lt (by omega)]
  have hexact : nextDifficultyWords version timestamps cumulative height net =
      if q < 2 ^ 128 then q else 0 := by
    have hlow : cumulative.getD cuts.1 0 < 2 ^ 128 := by
      rw [List.getD_eq_getElem _ _ (by omega)]
      exact hworks _ (List.getElem_mem _)
    have hwork : sub128 (cumulative.getD (cuts.2 - 1) 0) (cumulative.getD cuts.1 0) = W := by
      rw [sub128, wrap128_of_lt hlow]
      rfl
    have hquotient : (W * 300 + (max 1 S - 1)) / max 1 S = q := by
      show _ = (W * 300 + max 1 S - 1) / max 1 S
      rw [Nat.add_sub_assoc (by omega)]
    rw [nextDifficultyWords_eq_classic hpinned hlength,
      classicWords_eq (by decide) htimes (htake ▸ rfl : cuts = _) rfl rfl, hat (by omega),
      hat (by omega), hwork]
    unfold ceilDiv256
    show (if (W * 300 + (max 1 S - 1)) / max 1 S ≤ u128Max then _ else 0) = _
    rw [hquotient]
    exact if_congr Nat.lt_succ_iff.symm hquotient rfl
  refine ⟨⟨hbegin, by omega, by omega⟩, ?_, hexact, ?_, fun timestamps' cumulative' htimes' hworks' => ?_⟩
  · exact sorted_getD_mono (Nat.le_of_lt hbegin) (by omega)
  · rw [nextDifficulty_eq_words hversion htimes]
    exact hexact
  · have hlength' : 2 ≤ timestamps'.length := by
      have := htimes'.length_eq
      rw [List.length_take, List.length_take] at this
      omega
    rw [nextDifficultyWords_eq_classic hpinned hlength', nextDifficultyWords_eq_classic hpinned hlength]
    exact classicWords_congr htimes' hworks'

/-- Three blocks at difficulty seven, a minute apart. -/
theorem classic_difficulty_exact_three :
    nextDifficultyWords 20 [1000, 1060, 1120] [7, 14, 21] 600000 .mainnet = 35 := by
  have hexact := (@classic_difficulty_exact 20 600000 .mainnet [1000, 1060, 1120] [7, 14, 21]
    (by decide) (by decide) (by decide) rfl (by decide) (by decide)).2.2.1
  exact hexact.trans (by decide)

end

end Wownero.Difficulty
