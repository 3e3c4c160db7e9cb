import Wownero.ClassicDifficulty
/-!
# Difficulties without a fault

The same algorithms where every sum, difference, product, quotient and index is checked, as in a
build that stops at an overflow.  Where nothing stops, the answer is that of the wrapping build; what
a window must be like for that, and for the answer not to be zero, is read off them.
-/

namespace Wownero.Difficulty

open Wownero

/-! ### Checked arithmetic -/

/-- A number that fits a word of this width. -/
def fit (bits n : Nat) : Option Nat := if n < 2 ^ bits then some n else none

/-- An integer that fits an `i64`. -/
def fitI64 (n : Int) : Option Int := if -9223372036854775808 ≤ n ∧ n < 9223372036854775808 then some n else none

/-- A quotient by something that is not zero. -/
def checkedDiv (a b : Nat) : Option Nat := if b = 0 then none else some (a / b)

theorem fit_of_lt {bits n : Nat} (h : n < 2 ^ bits) : fit bits n = some n := if_pos h

theorem fitI64_of_mem {n : Int} (h : -9223372036854775808 ≤ n ∧ n < 9223372036854775808) :
    fitI64 n = some n := if_pos h

theorem checkedDiv_of_pos {a b : Nat} (h : 0 < b) : checkedDiv a b = some (a / b) :=
  if_neg (Nat.ne_of_gt h)

theorem checkedSub_of_le {a b : Nat} (h : b ≤ a) : checkedSub a b = some (a - b) := if_pos h

theorem toI64_of_mem {n : Int} (h : -9223372036854775808 ≤ n ∧ n < 9223372036854775808) :
    toI64 n = n := by
  unfold toI64
  exact Int.bmod_eq_of_le (by omega) (by omega)

theorem sub64_of_le {a b : Nat} (h : b ≤ a) (ha : a < 2 ^ 64) : sub64 a b = a - b := by
  unfold sub64 wrap64
  omega

theorem sub128_of_le {a b : Nat} (h : b ≤ a) (ha : a < 2 ^ 128) : sub128 a b = a - b := by
  unfold sub128 wrap128
  omega

/-! ### Digits -/

/-- `zero_insignificant_digits`, checked. -/
def zeroDigitsChecked (bits d : Nat) : List Nat → Option Nat
  | [] => some d
  | i :: is =>
      if d > i * 100 then do
        let sum ← fit bits (d + i / 2)
        fit bits (sum / i * i)
      else zeroDigitsChecked bits d is

theorem zeroDigits_ok {bits d : Nat} {wrap : Nat → Nat} {steps : List Nat}
    (hwrap : ∀ n < 2 ^ bits, wrap n = n) (hsteps : ∀ i ∈ steps, 0 < i ∧ i ≤ 1000000000)
    (hd : d + 1000000000 < 2 ^ bits) : ∃ r, zeroDigitsChecked bits d steps = some r ∧
      zeroInsignificantDigits wrap d steps = r ∧ (1 ≤ d → 1 ≤ r) ∧ r ≤ d + 500000000 := by
  induction steps with
  | nil => exact ⟨d, rfl, rfl, id, by omega⟩
  | cons i is ih =>
      obtain ⟨⟨hpos, hi⟩, hrest⟩ := List.forall_mem_cons.mp hsteps
      rw [zeroDigitsChecked, zeroInsignificantDigits]
      by_cases hover : d > i * 100
      · have hle : (d + i / 2) / i * i ≤ d + i / 2 := Nat.div_mul_le_self _ _
        have hhundred : 100 ≤ (d + i / 2) / i := by
          rw [Nat.le_div_iff_mul_le hpos]
          omega
        have hsome : 1 ≤ (d + i / 2) / i * i := Nat.mul_pos (by omega) hpos
        rw [if_pos hover, if_pos hover, hwrap (d + i / 2) (by omega),
          hwrap ((d + i / 2) / i * i) (by omega)]
        refine ⟨(d + i / 2) / i * i, ?_, rfl, fun _ => hsome, by omega⟩
        rw [fit_of_lt (by omega)]
        exact fit_of_lt (by omega)
      · rw [if_neg hover, if_neg hover]
        exact ih hrest

theorem significantSteps_bounds : ∀ i ∈ significantSteps, 0 < i ∧ i ≤ 1000000000 := by decide

/-! ### Overrides -/

/-- A difficulty an algorithm answers at some heights whatever the window. -/
structure Override where
  algorithm : Algorithm
  fromHeight : Nat
  toHeight : Nat
  difficulty : Nat
  mainnetOnly : Bool
  deriving DecidableEq, Repr

/-- `OVERRIDES`. -/
def overrides : List Override :=
  [⟨.v1, 331170, 331890, 100000000, true⟩, ⟨.v4, 0, 63470, 100000069, true⟩,
    ⟨.v5, 81769, 81912, 10000000, true⟩, ⟨.v5, 307686, 307686, 25800000, true⟩,
    ⟨.v5, 307692, 307692, 1890000, true⟩, ⟨.v5, 307735, 307735, 17900000, true⟩,
    ⟨.v5, 307742, 307742, 21300000, true⟩, ⟨.v5, 307750, 307750, 10900000, true⟩,
    ⟨.v5, 307766, 307766, 2960000, true⟩]

/-- Whether the height is one of the overridden ones, or an early one of a test network. -/
def overridden (a : Algorithm) (height : Nat) (net : Network) : Bool :=
  testnetPinned net height ||
    overrides.any fun o =>
      o.algorithm == a && o.fromHeight ≤ height && height ≤ o.toHeight && (!o.mainnetOnly || net == .mainnet)

/-! ### Windows -/

/-- What a difficulty algorithm is handed: as many works as times, every time past the first target,
    the works ascending. -/
structure Window (timestamps cumulative : List Nat) : Prop where
  sameLength : cumulative.length = timestamps.length
  times : ∀ t ∈ timestamps, 300 ≤ t ∧ t ≤ 2 ^ 40
  ascending : cumulative.Pairwise (· < ·)
  works : ∀ d ∈ cumulative, d < 2 ^ 96

/-- The work of the window up to its entry `n`. -/
def workTo (cumulative : List Nat) (n : Nat) : Nat := cumulative.getD n 0 - cumulative.getD 0 0

/-- A checked computation gives what the wrapping one gives, and that is no zero. -/
def Settles (checked : Option Nat) (d : Nat) : Prop := checked = some d ∧ 1 ≤ d

theorem Settles.ite {c : Prop} [Decidable c] {pin : Nat} {checked : Option Nat} {d : Nat}
    (hpin : 1 ≤ pin) (h : ¬ c → Settles checked d) :
    Settles (if c then some pin else checked) (if c then pin else d) := by
  split_ifs with hc
  · exact ⟨rfl, hpin⟩
  · exact h hc

section

variable {timestamps cumulative : List Nat} {height : Nat} {net : Network}

/-- An entry within a list is what its default lookup gives. -/
theorem getElem?_eq_some_getD {l : List Nat} {i : Nat} (h : i < l.length) :
    l[i]? = some (l.getD i 0) := by
  rw [List.getElem?_eq_getElem h, List.getD_eq_getElem _ _ h]

theorem Window.getD_lt (h : Window timestamps cumulative) {i j : Nat} (hij : i < j)
    (hj : j < timestamps.length) : cumulative.getD i 0 < cumulative.getD j 0 := by
  have hsame := h.sameLength
  rw [List.getD_eq_getElem _ _ (by omega), List.getD_eq_getElem _ _ (by omega)]
  exact List.pairwise_iff_getElem.mp h.ascending i j (by omega) (by omega) hij

theorem Window.getD_works (h : Window timestamps cumulative) {i : Nat} (hi : i < timestamps.length) :
    cumulative.getD i 0 < 2 ^ 96 := by
  have hsame := h.sameLength
  rw [List.getD_eq_getElem _ _ (by omega)]
  exact h.works _ (List.getElem_mem _)

theorem Window.getD_times (h : Window timestamps cumulative) {i : Nat} (hi : i < timestamps.length) :
    300 ≤ timestamps.getD i 0 ∧ timestamps.getD i 0 ≤ 2 ^ 40 := by
  rw [List.getD_eq_getElem _ _ hi]
  exact h.times _ (List.getElem_mem hi)

/-- The difference of two works is that of the source, checked or not. -/
theorem Window.difference (h : Window timestamps cumulative) {i j : Nat} (hij : i < j)
    (hj : j < timestamps.length) :
    cumulative[i]? = some (cumulative.getD i 0) ∧ cumulative[j]? = some (cumulative.getD j 0) ∧
      checkedSub (cumulative.getD j 0) (cumulative.getD i 0) =
        some (cumulative.getD j 0 - cumulative.getD i 0) ∧
      sub128 (cumulative.getD j 0) (cumulative.getD i 0) =
        cumulative.getD j 0 - cumulative.getD i 0 := by
  have hsame := h.sameLength
  have hlt := h.getD_lt hij hj
  have hworks := h.getD_works hj
  exact ⟨getElem?_eq_some_getD (by omega), getElem?_eq_some_getD (by omega),
    checkedSub_of_le (Nat.le_of_lt hlt), sub128_of_le (Nat.le_of_lt hlt) (by omega)⟩

end

/-! ### Version 3 -/

/-- An `i64` quotient toward zero: not by zero, and itself an `i64`. -/
def checkedTdiv (a b : Int) : Option Int := if b = 0 then none else fitI64 (a.tdiv b)

/-- The loop of `next_difficulty_v3`, checked. -/
def lwmaV3Checked (t n : Int) : Nat → List Nat → Int → Int → Option (Int × Int)
  | i, ts₀ :: ts₁ :: ts, l, sum3 => do
      let st ← fitI64 (toI64 ts₁ - toI64 ts₀)
      let term ← fitI64 (max (-4 * t) (min st (6 * t)) * i)
      let l ← fitI64 (l + term)
      let sum3 ← fitI64 (if (i : Int) > n - 3 then sum3 + max (-4 * t) (min st (6 * t)) else sum3)
      lwmaV3Checked t n (i + 1) (ts₁ :: ts) l sum3
  | _, _, l, sum3 => some (l, sum3)

/-- What `next_difficulty_v3` makes of its sums, checked. -/
def boundedV3 (t n l sum3 work prevD : Int) : Option Nat := do
  let byTarget ← fitI64 (work * t)
  let byWindow ← fitI64 (byTarget * (n + 1))
  let product ← fitI64 (byWindow * 99)
  let divisor ← fitI64 (100 * 2 * l)
  let nextD ← checkedTdiv product divisor
  let low ← fitI64 (prevD * 67)
  let high ← fitI64 (prevD * 150)
  if sum3 < (8 * t).tdiv 10 then do
    let raised ← fitI64 (prevD * 108)
    some (toU64 (max (max (low.tdiv 100) (min nextD (high.tdiv 100))) (raised.tdiv 100)))
  else some (toU64 (max (low.tdiv 100) (min nextD (high.tdiv 100))))

/-- `next_difficulty_v3`, checked. -/
def nextDifficultyV3Checked (timestamps cumulative : List Nat) (height : Nat) (net : Network) :
    Option Nat :=
  let t : Int := difficultyTargetV2
  let n := difficultyWindowV2
  if testnetPinned net height then some testnetEarlyDifficulty
  else if timestamps.length < n + 1 ∨ cumulative.length < n + 1 then some 1
  else do
    let (l, sum3) ← lwmaV3Checked t n 1 (timestamps.take (n + 1)) 0 0
    if l = 0 then some 1
    else do
      let newest ← cumulative[n]?
      let oldest ← cumulative[0]?
      let work ← checkedSub newest oldest
      let last ← cumulative[n - 1]?
      let prevD ← checkedSub newest last
      boundedV3 t n l sum3 (toI64 work) (toI64 prevD)

/-- The loop meets no overflow: sixty clamped solve times, none weighted by more than sixty. -/
theorem lwmaV3_ok {tss : List Nat} {i : Nat} {l sum3 : Int} (htimes : ∀ t ∈ tss, t ≤ 2 ^ 40)
    (hcount : i + tss.length ≤ 62) (hl : -108000 * (i : Int) ≤ l ∧ l ≤ 108000 * i)
    (hsum : -1800 * (i : Int) ≤ sum3 ∧ sum3 ≤ 1800 * i) :
    lwmaV3Checked 300 60 i tss l sum3 = some (lwmaV3Loop 300 60 i tss l sum3) ∧
      -6696000 ≤ (lwmaV3Loop 300 60 i tss l sum3).1 ∧
      (lwmaV3Loop 300 60 i tss l sum3).1 ≤ 6696000 := by
  induction tss generalizing i l sum3 with
  | nil => exact ⟨rfl, by show -6696000 ≤ l; omega, by show l ≤ 6696000; omega⟩
  | cons ts₀ tss ih =>
      rw [List.length_cons] at hcount
      obtain ⟨hts₀, hrest⟩ := List.forall_mem_cons.mp htimes
      cases tss with
      | nil => exact ⟨rfl, by show -6696000 ≤ l; omega, by show l ≤ 6696000; omega⟩
      | cons ts₁ tss =>
          have hts₁ := hrest ts₁ List.mem_cons_self
          have hlength : (ts₁ :: tss).length = tss.length + 1 := rfl
          rw [lwmaV3Checked, lwmaV3Loop]
          have hst : -9223372036854775808 ≤ toI64 ts₁ - toI64 ts₀ ∧
              toI64 ts₁ - toI64 ts₀ < 9223372036854775808 := by
            rw [toI64_of_mem (by omega), toI64_of_mem (by omega)]
            omega
          rw [fitI64_of_mem hst, toI64_of_mem hst]
          generalize toI64 ts₁ - toI64 ts₀ = solved
          obtain ⟨st, hclamped⟩ : ∃ st, st = max (-4 * 300) (min solved (6 * 300)) := ⟨_, rfl⟩
          have hlow : -1200 ≤ st := by omega
          have hhigh : st ≤ 1800 := by omega
          have htermLow : -1200 * (i : Int) ≤ st * i :=
            Int.mul_le_mul_of_nonneg_right hlow (Int.natCast_nonneg i)
          have htermHigh : st * i ≤ 1800 * (i : Int) :=
            Int.mul_le_mul_of_nonneg_right hhigh (Int.natCast_nonneg i)
          have hsum' : -1800 * ((i + 1 : Nat) : Int) ≤ (if (i : Int) > 60 - 3 then sum3 + st else sum3) ∧
              (if (i : Int) > 60 - 3 then sum3 + st else sum3) ≤ 1800 * ((i + 1 : Nat) : Int) := by
            split_ifs <;> omega
          rw [Option.bind_eq_bind, Option.bind_some, ← hclamped, fitI64_of_mem (by omega),
            Option.bind_some, fitI64_of_mem (by omega), Option.bind_some,
            fitI64_of_mem (by omega), Option.bind_some]
          exact ih hrest (by omega) (by omega) hsum'

theorem checkedTdiv_of_fits {a b : Int} (hb : b ≠ 0)
    (ha : -9223372036854775808 < a ∧ a < 9223372036854775808) :
    checkedTdiv a b = some (a.tdiv b) := by
  have hle : (a.tdiv b).natAbs ≤ a.natAbs := by
    rw [Int.natAbs_tdiv]
    exact Nat.div_le_self _ _
  rw [checkedTdiv, if_neg hb]
  exact fitI64_of_mem (by omega)

/-- The clamps hold the quotient: with a last difficulty of two or more the answer is no zero. -/
theorem boundedV3_ok {l sum3 work prevD : Int} (hl : l ≠ 0)
    (hsmall : -6696000 ≤ l ∧ l ≤ 6696000) (hwork : 0 ≤ work ∧ work * 1811700 < 9223372036854775808)
    (hprev : 2 ≤ prevD ∧ prevD ≤ work) :
    Settles (boundedV3 300 60 l sum3 work prevD)
      (let nextD := (toI64 (toI64 (toI64 (work * 300) * (60 + 1)) * 99)).tdiv (100 * 2 * l)
       let nextD := max ((toI64 (prevD * 67)).tdiv 100) (min nextD ((toI64 (prevD * 150)).tdiv 100))
       let nextD :=
         if sum3 < (8 * 300 : Int).tdiv 10 then max nextD ((toI64 (prevD * 108)).tdiv 100) else nextD
       toU64 nextD) := by
  have htdiv {k : Int} (hk : 0 ≤ k) : (prevD * k).tdiv 100 = prevD * k / 100 :=
    Int.tdiv_eq_ediv_of_nonneg (Int.mul_nonneg (by omega) hk)
  have hword {x : Int} (hx : 1 ≤ x) (hfits : x < 9223372036854775808) : 1 ≤ toU64 x := by
    unfold toU64
    omega
  unfold boundedV3
  rw [toI64_of_mem (by omega : _ ≤ work * 300 ∧ _), toI64_of_mem (by omega : _ ≤ work * 300 * _ ∧ _),
    toI64_of_mem (by omega : _ ≤ work * 300 * _ * 99 ∧ _), toI64_of_mem (by omega : _ ≤ prevD * 67 ∧ _),
    toI64_of_mem (by omega : _ ≤ prevD * 150 ∧ _), toI64_of_mem (by omega : _ ≤ prevD * 108 ∧ _),
    fitI64_of_mem (by omega), Option.bind_eq_bind, Option.bind_some, fitI64_of_mem (by omega),
    Option.bind_some, fitI64_of_mem (by omega), Option.bind_some, fitI64_of_mem (by omega),
    Option.bind_some, checkedTdiv_of_fits (by omega) (by omega), Option.bind_some,
    fitI64_of_mem (by omega), Option.bind_some, fitI64_of_mem (by omega), Option.bind_some,
    fitI64_of_mem (by omega), htdiv (by decide), htdiv (by decide), htdiv (by decide)]
  generalize (work * 300 * (60 + 1) * 99).tdiv (100 * 2 * l) = q
  simp only
  split_ifs with hquick
  · rw [Option.bind_some, htdiv (by decide)]
    exact ⟨rfl, hword (by omega) (by omega)⟩
  · exact ⟨rfl, hword (by omega) (by omega)⟩

section

variable {timestamps cumulative : List Nat} {height : Nat} {net : Network}

/-- **Version 3** meets no fault below the overflow of its product, and no zero where the last block
    had a difficulty of two. -/
theorem nextDifficultyV3_ok (h : Window timestamps cumulative)
    (hwork : overridden .v3 height net = false → 61 ≤ timestamps.length →
      workTo cumulative 60 * 1811700 < 2 ^ 63 ∧ 2 ≤ cumulative.getD 60 0 - cumulative.getD 59 0) :
    Settles (nextDifficultyV3Checked timestamps cumulative height net)
      (nextDifficultyV3 timestamps cumulative height net) := by
  have hsame := h.sameLength
  unfold nextDifficultyV3Checked nextDifficultyV3
  refine .ite (by decide) fun htest => .ite (by decide) fun hshort => ?_
  have hfree : overridden .v3 height net = false := by
    simp [overridden, overrides, Bool.eq_false_iff.mpr htest]
  have hfull : 61 ≤ timestamps.length := by
    have : ¬ (timestamps.length < 61 ∨ cumulative.length < 61) := hshort
    omega
  obtain ⟨hproduct, hlast⟩ := hwork hfree hfull
  unfold workTo at hproduct
  obtain ⟨holdest, hnewest, hchecked, hwrapped⟩ := h.difference (i := 0) (j := 60) (by omega) hfull
  obtain ⟨hbefore, -, hcheckedLast, hwrappedLast⟩ :=
    h.difference (i := 59) (j := 60) (by omega) hfull
  have hordered := h.getD_lt (i := 0) (j := 59) (by omega) (by omega)
  have htimes : ∀ t ∈ timestamps.take 61, t ≤ 2 ^ 40 := fun t ht =>
    (h.times t (List.mem_of_mem_take ht)).2
  obtain ⟨hloop, hlow, hhigh⟩ := @lwmaV3_ok _ 1 0 0 htimes
    (by rw [List.length_take]; omega) (by omega) (by omega)
  obtain ⟨⟨l, sum3⟩, hsums⟩ : ∃ sums, sums = lwmaV3Loop 300 60 1 (timestamps.take 61) 0 0 :=
    ⟨_, rfl⟩
  rw [← hsums] at hloop hlow hhigh
  rw [show difficultyWindowV2 = 60 from rfl, show difficultyTargetV2 = 300 from rfl,
    show 60 + 1 = 61 from rfl]
  show Settles ((lwmaV3Checked 300 60 1 (timestamps.take 61) 0 0).bind fun sums =>
    if sums.1 = 0 then some 1 else cumulative[60]?.bind fun newest => cumulative[0]?.bind fun oldest =>
      (checkedSub newest oldest).bind fun work => cumulative[59]?.bind fun last =>
      (checkedSub newest last).bind fun prevD =>
      boundedV3 300 60 sums.1 sums.2 (toI64 work) (toI64 prevD))
    (if (lwmaV3Loop 300 60 1 (timestamps.take 61) 0 0).1 = 0 then 1 else _)
  rw [hloop, Option.bind_some, ← hsums]
  refine .ite (by decide) fun hnonzero => ?_
  rw [hnewest, Option.bind_some, holdest, Option.bind_some, hchecked, Option.bind_some, hbefore,
    Option.bind_some, hcheckedLast, Option.bind_some, toI64_of_mem (by omega),
    toI64_of_mem (by omega)]
  have hbounded := @boundedV3_ok _ sum3 ((cumulative.getD 60 0 - cumulative.getD 0 0 : Nat) : Int)
    ((cumulative.getD 60 0 - cumulative.getD 59 0 : Nat) : Int) hnonzero ⟨hlow, hhigh⟩ (by omega)
    (by omega)
  rw [show ((300 : Nat) : Int) = 300 from rfl, show ((60 : Nat) : Int) = 60 from rfl, hwrapped,
    show 60 - 1 = 59 from rfl, hwrappedLast, ← hsums, toI64_of_mem (by omega),
    toI64_of_mem (n := ((cumulative.getD 60 0 - cumulative.getD 59 0 : Nat) : Int)) (by omega)]
  exact hbounded

end

/-! ### Version 4 -/

/-- The time between two entries. -/
def gap (ts : List Nat) (i j : Nat) : Option Nat := do
  let later ← ts[i]?
  let earlier ← ts[j]?
  checkedSub later earlier

/-- An outlier rule of `next_difficulty_v4`: a long step right after a run of fast ones. -/
def afterFast (t : Nat) (ts : List Nat) (back limit i : Nat) : Option Bool :=
  if i > back then do
    let step ← gap ts i (i - 1)
    if step > 5 * t then do
      let run ← gap ts (i - 1) (i - back)
      some (decide (run < limit))
    else some false
  else some false

/-- The solve time of step `i`, checked. -/
def solveTimeV4Checked (t : Nat) (ts : List Nat) (i : Nat) : Option Nat := do
  let afterFour ← afterFast t ts 4 (14 * t / 10) i
  if afterFour then some (2 * t)
  else do
    let afterSeven ← afterFast t ts 7 (4 * t) i
    if afterSeven then some (2 * t)
    else do
      let step ← gap ts i (i - 1)
      some (min (5 * t) step)

/-- The loop of `next_difficulty_v4`, checked. -/
def lwmaV4Checked (t : Nat) (ts : List Nat) : List Nat → Nat → Option Nat
  | [], l => some l
  | i :: is, l => do
      let st ← solveTimeV4Checked t ts (i + 1)
      let term ← fit 64 (st * (i + 1))
      let l ← fit 64 (l + term)
      lwmaV4Checked t ts is l

/-- The quotient of `next_difficulty_v4`, checked. -/
def quotientV4 (avgD n t l : Nat) : Option Nat := do
  let divisor ← fit 64 (200 * l)
  if avgD > 2000000 * n * n * t then do
    let q ← checkedDiv avgD divisor
    fit 64 (q * (n * (n + 1) * t * 97))
  else do
    let byWindow ← fit 64 (avgD * n)
    let byNext ← fit 64 (byWindow * (n + 1))
    let byTarget ← fit 64 (byNext * t)
    let product ← fit 64 (byTarget * 97)
    checkedDiv product divisor

/-- Whether the last blocks came quickly. -/
def quickV4 (t n : Nat) (ts : List Nat) : Option Bool := do
  let one ← gap ts n (n - 1)
  if one < 2 * t / 10 then some true
  else do
    let two ← gap ts n (n - 2)
    if two < 5 * t / 10 then some true
    else do
      let three ← gap ts n (n - 3)
      some (decide (three < 8 * t / 10))

/-- The raise of `next_difficulty_v4` after quick blocks, checked. -/
def raisedV4 (t n : Nat) (ts : List Nat) (avgD prevD nextD : Nat) : Option Nat := do
  let quick ← quickV4 t n ts
  if quick then do
    let byLast ← fit 64 (prevD * 110)
    let byMean ← fit 64 (105 * avgD)
    some (max nextD (min (byLast / 100) (byMean / 100)))
  else some nextD

/-- The trailing digits of `next_difficulty_v4`, checked. -/
def tailedV4 (n : Nat) (ts : List Nat) (nextD : Nat) : Option Nat :=
  if nextD > 100000 then do
    let sum ← fit 64 (nextD + 500)
    let rounded ← fit 64 (sum / 1000 * 1000)
    let late ← gap ts n (n - 10)
    fit 64 (rounded + min 999 (late / 10))
  else some nextD

/-- `next_difficulty_v4`, checked. -/
def nextDifficultyV4Checked (timestamps cumulative : List Nat) (height : Nat) (net : Network) :
    Option Nat :=
  let t := difficultyTargetV2
  let n := difficultyWindowV2
  if testnetPinned net height then some testnetEarlyDifficulty
  else if net = .mainnet ∧ height ≤ 63469 + 1 then some 100000069
  else if timestamps.length < n + 1 ∨ cumulative.length < n + 1 then some 1
  else do
    let ts := runningMax 0 (timestamps.take (n + 1))
    let l ← lwmaV4Checked t ts (List.range n) 0
    let newest ← cumulative[n]?
    let oldest ← cumulative[0]?
    let work ← checkedSub newest oldest
    let nextD ← quotientV4 (wrap64 (work / n)) n t (max l (n * n * t / 20))
    let last ← cumulative[n - 1]?
    let prevD ← checkedSub newest last
    let nextD ← raisedV4 t n ts (wrap64 (work / n)) (wrap64 prevD) nextD
    let nextD ← zeroDigitsChecked 64 nextD significantSteps
    tailedV4 n ts nextD

theorem le_of_mem_runningMax {l : List Nat} {m x : Nat} (h : x ∈ runningMax m l) : m ≤ x := by
  induction l generalizing m with
  | nil => exact absurd h List.not_mem_nil
  | cons t l ih =>
      rcases List.mem_cons.mp h with rfl | h
      · exact Nat.le_max_right t m
      · exact (Nat.le_max_right t m).trans (ih h)

theorem length_runningMax (l : List Nat) (m : Nat) : (runningMax m l).length = l.length := by
  induction l generalizing m with
  | nil => rfl
  | cons t l ih => exact congrArg (· + 1) (ih (max t m))

/-- The running maximum does not descend. -/
theorem pairwise_runningMax (l : List Nat) (m : Nat) : (runningMax m l).Pairwise (· ≤ ·) := by
  induction l generalizing m with
  | nil => exact List.Pairwise.nil
  | cons t l ih => exact List.pairwise_cons.mpr ⟨fun _ hx => le_of_mem_runningMax hx, ih _⟩

section

variable {ts : List Nat}

theorem gap_ok (hsorted : ts.Pairwise (· ≤ ·)) {i j : Nat} (hji : j < i) (hi : i < ts.length) :
    gap ts i j = some (ts.getD i 0 - ts.getD j 0) := by
  have hle : ts.getD j 0 ≤ ts.getD i 0 := by
    rw [List.getD_eq_getElem _ _ (by omega), List.getD_eq_getElem _ _ hi]
    exact List.pairwise_iff_getElem.mp hsorted j i (by omega) hi hji
  rw [gap, getElem?_eq_some_getD hi, getElem?_eq_some_getD (by omega : j < ts.length)]
  exact checkedSub_of_le hle

theorem afterFast_ok (hsorted : ts.Pairwise (· ≤ ·)) {t back limit i : Nat} (hback : 2 ≤ back)
    (hi : i < ts.length) : afterFast t ts back limit i =
      some (decide (i > back ∧ ts.getD i 0 - ts.getD (i - 1) 0 > 5 * t ∧
        ts.getD (i - 1) 0 - ts.getD (i - back) 0 < limit)) := by
  unfold afterFast
  by_cases hpast : i > back
  · rw [if_pos hpast, gap_ok hsorted (by omega) hi, Option.bind_eq_bind, Option.bind_some,
      gap_ok hsorted (by omega) (by omega)]
    by_cases hstep : ts.getD i 0 - ts.getD (i - 1) 0 > 5 * t
    · rw [if_pos hstep]
      simp only [hpast, hstep, true_and]
      rfl
    · rw [if_neg hstep, decide_eq_false (fun h => hstep h.2.1)]
  · rw [if_neg hpast, decide_eq_false (fun h => hpast h.1)]

/-- A solve time is read within the window, and is at most five targets. -/
theorem solveTimeV4_ok (hsorted : ts.Pairwise (· ≤ ·)) {t i : Nat} (hpos : 0 < i)
    (hi : i < ts.length) : solveTimeV4Checked t ts i = some (solveTimeV4 t ts i) ∧
      solveTimeV4 t ts i ≤ 5 * t := by
  unfold solveTimeV4Checked solveTimeV4
  rw [afterFast_ok hsorted (by decide) hi, afterFast_ok hsorted (by decide) hi,
    gap_ok hsorted (by omega) hi]
  simp only [Option.bind_eq_bind, Option.bind_some, decide_eq_true_eq]
  split_ifs with hfour hseven
  · exact ⟨rfl, by omega⟩
  · exact ⟨rfl, by omega⟩
  · exact ⟨rfl, Nat.min_le_left _ _⟩

/-- The loop meets no overflow, and is at most the weighted sum of the slowest blocks. -/
theorem lwmaV4_ok (hsorted : ts.Pairwise (· ≤ ·)) {is : List Nat} {t l : Nat}
    (his : ∀ i ∈ is, i + 1 < ts.length) (hfits : l + 5 * t * (is.map (· + 1)).sum < 2 ^ 64) :
    lwmaV4Checked t ts is l =
        some (l + (is.map fun i => solveTimeV4 t ts (i + 1) * (i + 1)).sum) ∧
      (is.map fun i => solveTimeV4 t ts (i + 1) * (i + 1)).sum ≤ 5 * t * (is.map (· + 1)).sum := by
  induction is generalizing l with
  | nil => exact ⟨rfl, Nat.zero_le _⟩
  | cons i is ih =>
      obtain ⟨hi, hrest⟩ := List.forall_mem_cons.mp his
      obtain ⟨hsolve, hle⟩ := solveTimeV4_ok (t := t) (i := i + 1) hsorted (Nat.succ_pos i) hi
      have hterm : solveTimeV4 t ts (i + 1) * (i + 1) ≤ 5 * t * (i + 1) :=
        Nat.mul_le_mul_right (i + 1) hle
      rw [List.map_cons, List.sum_cons, Nat.mul_add] at hfits
      rw [List.map_cons, List.sum_cons, List.map_cons, List.sum_cons, Nat.mul_add (5 * t)]
      obtain ⟨hloop, hsum⟩ := ih (l := l + solveTimeV4 t ts (i + 1) * (i + 1)) hrest (by omega)
      rw [lwmaV4Checked, hsolve, Option.bind_eq_bind, Option.bind_some, fit_of_lt (by omega),
        Option.bind_some, fit_of_lt (by omega), Option.bind_some, hloop, Nat.add_assoc]
      exact ⟨rfl, Nat.add_le_add hterm hsum⟩

theorem quickV4_ok (hsorted : ts.Pairwise (· ≤ ·)) {t n : Nat} (hn : 3 ≤ n) (hlength : n < ts.length) :
    quickV4 t n ts = some (decide (ts.getD n 0 - ts.getD (n - 1) 0 < 2 * t / 10 ∨
      ts.getD n 0 - ts.getD (n - 2) 0 < 5 * t / 10 ∨
      ts.getD n 0 - ts.getD (n - 3) 0 < 8 * t / 10)) := by
  unfold quickV4
  rw [gap_ok hsorted (by omega) hlength, gap_ok hsorted (by omega) hlength,
    gap_ok hsorted (by omega) hlength, Option.bind_eq_bind, Option.bind_some]
  split_ifs with hone
  · rw [decide_eq_true (.inl hone)]
  · rw [Option.bind_some]
    split_ifs with htwo
    · rw [decide_eq_true (.inr (.inl htwo))]
    · rw [Option.bind_some]
      refine congrArg some (decide_eq_decide.mpr ⟨fun h => .inr (.inr h), fun h => ?_⟩)
      exact (h.resolve_left hone).resolve_left htwo

/-- The raise takes nothing away and passes neither of its bounds. -/
theorem raisedV4_ok (hsorted : ts.Pairwise (· ≤ ·)) {t n avgD prevD nextD bound : Nat} (hn : 3 ≤ n)
    (hlength : n < ts.length) (hprev : prevD * 110 < 2 ^ 64) (havg : 105 * avgD < bound)
    (hbound : bound < 2 ^ 64) (hnext : nextD < bound) :
    ∃ raised, raisedV4 t n ts avgD prevD nextD = some raised ∧ nextD ≤ raised ∧ raised < bound ∧
      (if ts.getD n 0 - ts.getD (n - 1) 0 < 2 * t / 10 ∨
          ts.getD n 0 - ts.getD (n - 2) 0 < 5 * t / 10 ∨
          ts.getD n 0 - ts.getD (n - 3) 0 < 8 * t / 10 then
        max nextD (min (wrap64 (prevD * 110) / 100) (wrap64 (105 * avgD) / 100))
      else nextD) = raised := by
  unfold raisedV4
  rw [quickV4_ok hsorted hn hlength, Option.bind_eq_bind, Option.bind_some, wrap64_of_lt hprev,
    wrap64_of_lt (havg.trans hbound), fit_of_lt hprev, fit_of_lt (havg.trans hbound)]
  simp only [decide_eq_true_eq]
  split_ifs with hquick
  · exact ⟨_, rfl, Nat.le_max_left _ _, by omega, rfl⟩
  · exact ⟨_, rfl, Nat.le_refl _, hnext, rfl⟩

theorem tailedV4_ok (hsorted : ts.Pairwise (· ≤ ·)) {n nextD : Nat} (hn : 10 ≤ n)
    (hlength : n < ts.length) (hpos : 1 ≤ nextD) (hfits : nextD + 2000 < 2 ^ 64) :
    Settles (tailedV4 n ts nextD)
      (if nextD > 100000 then
        wrap64 (wrap64 (wrap64 (nextD + 500) / 1000 * 1000)
          + min 999 ((ts.getD n 0 - ts.getD (n - 10) 0) / 10))
      else nextD) := by
  unfold tailedV4
  have hlate : min 999 ((ts.getD n 0 - ts.getD (n - 10) 0) / 10) ≤ 999 := Nat.min_le_left _ _
  have hrounded : (nextD + 500) / 1000 * 1000 ≤ nextD + 500 := Nat.div_mul_le_self _ _
  rw [wrap64_of_lt (by omega : nextD + 500 < _), wrap64_of_lt (by omega : _ / 1000 * 1000 < _),
    wrap64_of_lt (by omega), fit_of_lt (by omega), Option.bind_eq_bind, Option.bind_some,
    fit_of_lt (by omega), Option.bind_some, gap_ok hsorted (by omega) hlength, Option.bind_some,
    fit_of_lt (by omega)]
  split_ifs with hlarge
  · exact ⟨rfl, by omega⟩
  · exact ⟨rfl, hpos⟩

end

/-- The averages at which the quotient of version 4 is neither zero nor over the word: from six up
    to the overflow of the exact product, or past the mark where it divides first. -/
def fitsV4 (avgD work : Nat) : Prop :=
  6 ≤ avgD ∧ avgD * 106506000 < 2 ^ 64 ∨ 2160000000000 < avgD ∧ work < 2 ^ 57

/-- A quotient times a scale is at most the quotient of the product. -/
theorem quotientV4_ok {avgD work l : Nat} (hfits : fitsV4 avgD work) (havg : avgD ≤ work)
    (hlow : 54000 ≤ l) (hhigh : l ≤ 2745000) :
    ∃ q, quotientV4 avgD 60 300 l = some q ∧ 1 ≤ q ∧ q < 2 ^ 62 ∧
      (if avgD > 2000000 * 60 * 60 * 300 then
          wrap64 (avgD / (200 * l) * (60 * (60 + 1) * 300 * 97))
        else wrap64 (wrap64 (wrap64 (wrap64 (avgD * 60) * (60 + 1)) * 300) * 97) / (200 * l)) = q := by
  have hcoarse : avgD / (200 * l) ≤ avgD / 10800000 := Nat.div_le_div_left (by omega) (by decide)
  unfold quotientV4
  rw [show 2000000 * 60 * 60 * 300 = 2160000000000 from rfl,
    show 60 * (60 + 1) * 300 * 97 = 106506000 from rfl, fit_of_lt (by omega), Option.bind_eq_bind,
    Option.bind_some]
  rcases hfits with ⟨hsome, hproduct⟩ | ⟨hlarge, hwork⟩
  · have hexact : avgD * 60 * 61 * 300 * 97 = avgD * 106506000 := by omega
    have hfourth : avgD * 60 * 61 * 300 * 97 < 2 ^ 64 := by rwa [hexact]
    have hthird := Nat.lt_of_le_of_lt (Nat.le_mul_of_pos_right _ (by decide)) hfourth
    have hsecond := Nat.lt_of_le_of_lt (Nat.le_mul_of_pos_right _ (by decide)) hthird
    have hfirst := Nat.lt_of_le_of_lt (Nat.le_mul_of_pos_right _ (by decide)) hsecond
    rw [if_neg (by omega), if_neg (by omega), show 60 + 1 = 61 from rfl, fit_of_lt hfirst,
      Option.bind_some, fit_of_lt hsecond, Option.bind_some, fit_of_lt hthird, Option.bind_some,
      fit_of_lt hfourth, Option.bind_some, checkedDiv_of_pos (by omega), wrap64_of_lt hfirst,
      wrap64_of_lt hsecond, wrap64_of_lt hthird, wrap64_of_lt hfourth, hexact]
    refine ⟨_, rfl, ?_, ?_, rfl⟩
    · rw [Nat.le_div_iff_mul_le (by omega)]
      omega
    · have hle : avgD * 106506000 / (200 * l) ≤ avgD * 106506000 / 10800000 :=
        Nat.div_le_div_left (by omega) (by decide)
      omega
  · have hone : 1 ≤ avgD / (200 * l) := by
      rw [Nat.le_div_iff_mul_le (by omega)]
      omega
    rw [if_pos hlarge, if_pos hlarge, checkedDiv_of_pos (by omega), Option.bind_some,
      fit_of_lt (by omega), wrap64_of_lt (by omega)]
    exact ⟨_, rfl, by omega, by omega, rfl⟩

section

variable {timestamps cumulative : List Nat} {height : Nat} {net : Network}

/-- **Version 4** meets no fault and no zero at the averages it was written for. -/
theorem nextDifficultyV4_ok (h : Window timestamps cumulative)
    (hwork : overridden .v4 height net = false → 61 ≤ timestamps.length →
      fitsV4 (workTo cumulative 60 / 60) (workTo cumulative 60)) :
    Settles (nextDifficultyV4Checked timestamps cumulative height net)
      (nextDifficultyV4 timestamps cumulative height net) := by
  have hsame := h.sameLength
  unfold nextDifficultyV4Checked nextDifficultyV4
  refine .ite (by decide) fun htest => .ite (by decide) fun hearly => .ite (by decide) fun hshort => ?_
  have hfree : overridden .v4 height net = false := by
    by_cases hnet : net = .mainnet
    · simp only [hnet, true_and] at hearly
      simp [overridden, overrides, Bool.eq_false_iff.mpr htest]
      omega
    · simp [overridden, overrides, Bool.eq_false_iff.mpr htest, hnet]
  have hfull : 61 ≤ timestamps.length := by
    have : ¬ (timestamps.length < 61 ∨ cumulative.length < 61) := hshort
    omega
  have hfits := hwork hfree hfull
  unfold workTo at hfits
  obtain ⟨holdest, hnewest, hchecked, hwrapped⟩ := h.difference (i := 0) (j := 60) (by omega) hfull
  obtain ⟨hbefore, -, hcheckedLast, hwrappedLast⟩ :=
    h.difference (i := 59) (j := 60) (by omega) hfull
  have hordered := h.getD_lt (i := 0) (j := 59) (by omega) (by omega)
  have hlast := h.getD_lt (i := 59) (j := 60) (by omega) (by omega)
  obtain ⟨work, hworkEq⟩ : ∃ work, work = cumulative.getD 60 0 - cumulative.getD 0 0 := ⟨_, rfl⟩
  obtain ⟨prev, hprevEq⟩ : ∃ prev, prev = cumulative.getD 60 0 - cumulative.getD 59 0 := ⟨_, rfl⟩
  rw [← hworkEq] at hfits hchecked hwrapped
  rw [← hprevEq] at hcheckedLast hwrappedLast
  have hprev : prev ≤ work := by omega
  have hsmall : work < 2 ^ 57 := by
    rcases hfits with ⟨-, hproduct⟩ | ⟨-, hbound⟩ <;> omega
  obtain ⟨ts, hts⟩ : ∃ ts, ts = runningMax 0 (timestamps.take (60 + 1)) := ⟨_, rfl⟩
  have hsorted : ts.Pairwise (· ≤ ·) := hts ▸ pairwise_runningMax _ 0
  have hlength : ts.length = 61 := by
    rw [hts, length_runningMax, List.length_take]
    omega
  obtain ⟨hloop, hle⟩ := @lwmaV4_ok ts hsorted (List.range 60) 300 0
    (fun i hi => by have := List.mem_range.mp hi; omega) (by decide)
  rw [Nat.zero_add] at hloop
  obtain ⟨l, hl⟩ : ∃ l, l = ((List.range 60).map fun i => solveTimeV4 300 ts (i + 1) * (i + 1)).sum :=
    ⟨_, rfl⟩
  rw [← hl] at hloop hle
  have hweights : ((List.range 60).map (· + 1)).sum = 1830 := by decide
  rw [hweights] at hle
  obtain ⟨q, hquotient, hsome, hqFits, hquotiented⟩ :=
    quotientV4_ok (l := max l 54000) hfits (Nat.div_le_self _ _) (by omega) (by omega)
  obtain ⟨raised, hraise, hkept, hraisedFits, hraised⟩ := @raisedV4_ok ts hsorted 300 60
    (work / 60) prev q (2 ^ 63) (by decide)
    (by omega) (by omega) (by omega) (by decide) (by omega)
  obtain ⟨d, hzero, hzeroed, hpos, hdFits⟩ := @zeroDigits_ok 64 raised wrap64 _
    (fun n hn => wrap64_of_lt hn) significantSteps_bounds (by omega)
  obtain ⟨htail, htailPos⟩ := @tailedV4_ok ts hsorted 60 d (by decide) (by omega)
    (hpos (hsome.trans hkept)) (by omega)
  have havgFits : wrap64 (work / 60) = work / 60 := wrap64_of_lt (by omega)
  have hprevFits : wrap64 prev = prev := wrap64_of_lt (by omega)
  dsimp only
  rw [show difficultyWindowV2 = 60 from rfl, show difficultyTargetV2 = 300 from rfl,
    show 60 * 60 * 300 / 20 = 54000 from rfl, show 60 - 1 = 59 from rfl, ← hts, ← hl, hwrapped,
    hwrappedLast, havgFits, hprevFits, hquotiented, hraised, hzeroed, hloop, Option.bind_eq_bind,
    Option.bind_some, hnewest, Option.bind_some, holdest, Option.bind_some, hchecked,
    Option.bind_some, havgFits, hquotient, Option.bind_some, hbefore, Option.bind_some,
    hcheckedLast, Option.bind_some, hprevFits, hraise, Option.bind_some, hzero, Option.bind_some]
  exact ⟨htail, htailPos⟩

end

/-! ### Version 5 -/

/-- A timestamp that does not pass the one before counts as one second later. -/
def laterThan (previous ts : Nat) : Option Nat :=
  if ts > previous then some ts else fit 64 (previous + 1)

/-- The loop of `next_difficulty_v5`, checked. -/
def lwmaV5Checked (t : Nat) : Nat → List Nat → Nat → Nat → Option Nat
  | _, [], _, l => some l
  | i, ts :: tss, previous, l => do
      let this ← laterThan previous ts
      let solveTime ← checkedSub this previous
      let term ← fit 128 (i * min (6 * t) solveTime)
      let l ← fit 128 (l + term)
      lwmaV5Checked t (i + 1) tss this l

/-- The quotient of `next_difficulty_v5`, in the branch its height and its average choose. -/
def quotientV5 (avgD scale divisor limit height : Nat) : Option Nat :=
  if avgD > limit ∧ height < 307800 then do
    let q ← checkedDiv avgD divisor
    fit 128 (q * scale)
  else if avgD > u64Max / scale ∧ height > 307800 then do
    let q ← checkedDiv avgD divisor
    fit 128 (q * scale)
  else do
    let product ← fit 128 (avgD * scale)
    checkedDiv product divisor

/-- `next_difficulty_v5`, checked. -/
def nextDifficultyV5Checked (timestamps cumulative : List Nat) (height : Nat) (net : Network) :
    Option Nat :=
  let t := difficultyTargetV2
  let n := difficultyWindowV3
  if testnetPinned net height then some testnetEarlyDifficulty
  else if net = .mainnet ∧ height ≥ 81769 ∧ height < 81769 + n then some 10000000
  else if net = .mainnet ∧ height = 307686 then some 25800000
  else if net = .mainnet ∧ height = 307692 then some 1890000
  else if net = .mainnet ∧ height = 307735 then some 17900000
  else if net = .mainnet ∧ height = 307742 then some 21300000
  else if net = .mainnet ∧ height = 307750 then some 10900000
  else if net = .mainnet ∧ height = 307766 then some 2960000
  else if timestamps.length < n + 1 ∨ cumulative.length < n + 1 then some 1
  else do
    let first ← timestamps[0]?
    let l ← lwmaV5Checked t 1 ((timestamps.take (n + 1)).drop 1) (sub64 first t) 0
    let newest ← cumulative[n]?
    let oldest ← cumulative[0]?
    let work ← checkedSub newest oldest
    let divisor ← fit 128 (200 * max l (n * n * t / 20))
    let nextD ← quotientV5 (work / n) (n * (n + 1) * t * 99) divisor (2000000 * (n * n * t)) height
    zeroDigitsChecked 128 nextD significantSteps

theorem laterThan_ok {previous ts bound : Nat} (hts : ts ≤ bound) (hprevious : previous ≤ bound)
    (hbound : bound < 2 ^ 63) :
    ∃ this, laterThan previous ts = some this ∧
      (if ts > previous then ts else wrap64 (previous + 1)) = this ∧
      previous < this ∧ this ≤ bound + 1 := by
  unfold laterThan
  split_ifs with hlater
  · exact ⟨ts, rfl, rfl, hlater, by omega⟩
  · exact ⟨previous + 1, fit_of_lt (by omega), wrap64_of_lt (by omega), by omega, by omega⟩

/-- The loop meets no overflow, and its weighted sum stays below that of the slowest blocks. -/
theorem lwmaV5_ok {tss : List Nat} {i previous l bound : Nat} (hbound : bound ≤ 2 ^ 62)
    (htimes : ∀ t ∈ tss, t ≤ bound) (hprevious : previous ≤ bound + i) (hcount : i + tss.length ≤ 145)
    (hl : 2 * l ≤ 1800 * (i * (i - 1))) :
    ∃ r, lwmaV5Checked 300 i tss previous l = some r ∧ lwmaV5Loop 300 i tss previous l = r ∧
      2 * r ≤ 1800 * ((i + tss.length) * (i + tss.length - 1)) := by
  induction tss generalizing i previous l with
  | nil => exact ⟨l, rfl, rfl, by simpa using hl⟩
  | cons ts tss ih =>
      obtain ⟨hts, hrest⟩ := List.forall_mem_cons.mp htimes
      rw [List.length_cons] at hcount ⊢
      obtain ⟨this, hchecked, hwrapped, hlater, hle⟩ :=
        laterThan_ok (hts.trans (Nat.le_add_right _ i)) hprevious (by omega)
      have hterm : i * min (6 * 300) (this - previous) ≤ i * 1800 :=
        Nat.mul_le_mul_left i (Nat.min_le_left _ _)
      have hsquare : i * (i - 1) ≤ 145 * 145 := Nat.mul_le_mul (by omega) (by omega)
      have hnext : 2 * (l + i * min (6 * 300) (this - previous)) ≤
          1800 * ((i + 1) * (i + 1 - 1)) := by
        obtain _ | i := i
        · omega
        · have hgrow : (i + 1 + 1) * (i + 1 + 1 - 1) = (i + 1) * (i + 1 - 1) + 2 * (i + 1) := by
            simp only [Nat.add_sub_cancel]
            ring
          omega
      obtain ⟨r, hr, hloop, hsum⟩ := ih hrest (by omega) (by omega) hnext
      refine ⟨r, ?_, ?_, ?_⟩
      · rw [lwmaV5Checked, hchecked, Option.bind_eq_bind, Option.bind_some,
          checkedSub_of_le (Nat.le_of_lt hlater), Option.bind_some, fit_of_lt (by omega),
          Option.bind_some, fit_of_lt (by omega), Option.bind_some]
        exact hr
      · rw [lwmaV5Loop, hwrapped, sub64_of_le (Nat.le_of_lt hlater) (by omega)]
        exact hloop
      · rwa [show i + (tss.length + 1) = i + 1 + tss.length by omega]

section

variable {timestamps cumulative : List Nat} {height : Nat} {net : Network}

/-- Whichever branch divides: where the divisor passes neither threshold, the quotient is no zero. -/
theorem quotientV5_ok {avgD scale divisor limit height : Nat} (hpos : 0 < divisor)
    (hlimit : divisor ≤ limit) (hlate : divisor ≤ u64Max / scale) (hscale : 1 ≤ scale)
    (hsome : divisor ≤ avgD * scale) (hfits : avgD * scale < 2 ^ 127) :
    Settles (quotientV5 avgD scale divisor limit height)
        (if avgD > limit ∧ height < 307800 then wrap128 (avgD / divisor * scale)
          else if avgD > u64Max / scale ∧ height > 307800 then wrap128 (avgD / divisor * scale)
          else wrap128 (avgD * scale) / divisor) ∧
      (if avgD > limit ∧ height < 307800 then wrap128 (avgD / divisor * scale)
          else if avgD > u64Max / scale ∧ height > 307800 then wrap128 (avgD / divisor * scale)
          else wrap128 (avgD * scale) / divisor) < 2 ^ 127 := by
  have hquotient : avgD / divisor * scale ≤ avgD * scale :=
    Nat.mul_le_mul_right scale (Nat.div_le_self _ _)
  have hfitsFirst : fit 128 (avgD / divisor * scale) = some (avgD / divisor * scale) :=
    fit_of_lt (by omega)
  have hlarge (h : divisor ≤ avgD) : 1 ≤ avgD / divisor * scale :=
    Nat.mul_pos (Nat.div_pos h hpos) hscale
  have hcoarse (h : divisor ≤ avgD) :
      Settles (fit 128 (avgD / divisor * scale)) (wrap128 (avgD / divisor * scale)) ∧
        wrap128 (avgD / divisor * scale) < 2 ^ 127 := by
    rw [hfitsFirst, wrap128_of_lt (by omega)]
    exact ⟨⟨rfl, hlarge h⟩, by omega⟩
  unfold quotientV5
  rw [checkedDiv_of_pos hpos, Option.bind_eq_bind, Option.bind_some]
  split_ifs with h₁ h₂
  · exact hcoarse (by omega)
  · exact hcoarse (by omega)
  · rw [fit_of_lt (by omega), Option.bind_some, checkedDiv_of_pos hpos, wrap128_of_lt (by omega)]
    exact ⟨⟨rfl, Nat.div_pos hsome hpos⟩, Nat.lt_of_le_of_lt (Nat.div_le_self _ _) hfits⟩

/-- **Version 5** meets no fault, and from an average of seven on no zero. -/
theorem nextDifficultyV5_ok (h : Window timestamps cumulative)
    (hwork : overridden .v5 height net = false → 145 ≤ timestamps.length →
      1008 ≤ workTo cumulative 144) :
    Settles (nextDifficultyV5Checked timestamps cumulative height net)
      (nextDifficultyV5 timestamps cumulative height net) := by
  have hsame := h.sameLength
  unfold nextDifficultyV5Checked nextDifficultyV5
  refine .ite (by decide) fun htest => .ite (by decide) fun hreset => .ite (by decide) fun h₁ =>
    .ite (by decide) fun h₂ => .ite (by decide) fun h₃ => .ite (by decide) fun h₄ =>
    .ite (by decide) fun h₅ => .ite (by decide) fun h₆ => .ite (by decide) fun hshort => ?_
  have hfree : overridden .v5 height net = false := by
    have hreset' : ¬ (net = .mainnet ∧ 81769 ≤ height ∧ height < 81913) := hreset
    by_cases hnet : net = .mainnet
    · simp only [hnet, true_and] at hreset' h₁ h₂ h₃ h₄ h₅ h₆
      simp [overridden, overrides, Bool.eq_false_iff.mpr htest]
      omega
    · simp [overridden, overrides, Bool.eq_false_iff.mpr htest, hnet]
  have hfull : 145 ≤ timestamps.length := by
    have : ¬ (timestamps.length < 145 ∨ cumulative.length < 145) := hshort
    omega
  have hdone := hwork hfree hfull
  obtain ⟨holdest, hnewest, hchecked, hwrapped⟩ := h.difference (i := 0) (j := 144) (by omega) hfull
  have hworks := h.getD_works (i := 144) hfull
  obtain ⟨hfirst, hfirstLe⟩ := h.getD_times (i := 0) (by omega)
  have hrest : ∀ t ∈ (timestamps.take 145).drop 1, t ≤ 2 ^ 40 := fun t ht =>
    (h.times t (List.mem_of_mem_take (List.mem_of_mem_drop ht))).2
  have hlength : 1 + ((timestamps.take 145).drop 1).length = 145 := by
    rw [List.length_drop, List.length_take]
    omega
  have hstart : sub64 (timestamps.getD 0 0) 300 ≤ 2 ^ 40 + 1 := by
    rw [sub64_of_le hfirst (by omega)]
    omega
  obtain ⟨l, hloop, hlwma, hle⟩ := lwmaV5_ok (l := 0) (by norm_num : 2 ^ 40 ≤ 2 ^ 62) hrest hstart
    (Nat.le_of_eq hlength) (by omega)
  rw [hlength] at hle
  have hfloor : 311040 ≤ max l 311040 := Nat.le_max_right _ _
  have hceiling : max l 311040 ≤ 18792000 := by omega
  unfold workTo at hdone
  obtain ⟨work, hwork'⟩ : ∃ work, work = cumulative.getD 144 0 - cumulative.getD 0 0 := ⟨_, rfl⟩
  rw [← hwork'] at hdone hchecked hwrapped
  have havg : work / 144 < 2 ^ 96 := by omega
  have hdivide : 7 ≤ work / 144 := by omega
  obtain ⟨⟨hquotient, hsome⟩, hbelow⟩ := @quotientV5_ok (work / 144) 620136000
    (200 * max l 311040) 12441600000000 height (by omega)
    (by omega) (by norm_num [u64Max]; omega) (by decide) (by omega) (by omega)
  obtain ⟨d, hzero, hzeroed, hpos, -⟩ := @zeroDigits_ok _ _ wrap128 _
    (fun n hn => wrap128_of_lt hn) significantSteps_bounds (Nat.lt_of_lt_of_le
      (Nat.add_lt_add_right hbelow 1000000000) (by norm_num))
  show Settles _ (zeroInsignificantDigits wrap128 _ significantSteps)
  rw [show difficultyWindowV3 = 144 from rfl, show difficultyTargetV2 = 300 from rfl,
    show 144 + 1 = 145 from rfl, show 144 * 145 * 300 * 99 = 620136000 from rfl,
    show 2000000 * (144 * 144 * 300) = 12441600000000 from rfl,
    show 144 * 144 * 300 / 20 = 311040 from rfl, hlwma, hwrapped, hzeroed,
    getElem?_eq_some_getD (by omega), Option.bind_eq_bind, Option.bind_some, hloop,
    Option.bind_some, hnewest, Option.bind_some, holdest, Option.bind_some,
    hchecked, Option.bind_some, fit_of_lt (by omega), Option.bind_some, hquotient, Option.bind_some]
  exact ⟨hzero, hpos hsome⟩

end

end Wownero.Difficulty
