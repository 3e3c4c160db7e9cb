import Mathlib.Tactic.Linarith
import Mathlib.Tactic.Ring
import Wownero.Consensus
/-!
# The penalty curve

A block over the median gives up a share of its reward, worked out in words: a product of `u64`s, one
of `u128`s, and two divisions that truncate.  Up to a median of `2 ^ 32` no product leaves its word
and the two divisions are one.
-/

namespace Wownero

/-- `base_reward`. -/
def baseReward (alreadyGeneratedCoins : Nat) : Nat := (u64Max - alreadyGeneratedCoins) / 2 ^ 20

theorem baseReward_lt (coins : Nat) : baseReward coins < 2 ^ 44 := by
  unfold baseReward u64Max
  omega

theorem baseReward_antitone {coins coins' : Nat} (h : coins ≤ coins') :
    baseReward coins' ≤ baseReward coins :=
  Nat.div_le_div_right (Nat.sub_le_sub_left h _)

theorem getMinBlockWeight_bounds (version : Nat) :
    20000 ≤ getMinBlockWeight version ∧ getMinBlockWeight version ≤ 300000 := by
  unfold getMinBlockWeight fullRewardZoneV5
  split_ifs <;> norm_num

/-! ### The curve -/

/-- The reward at a weight over a median, in one division: `a` over the median is as much as
    `a * a` off its square. -/
def penalised (R M weight : Nat) : Nat := R * (M * M - (weight - M) * (weight - M)) / (M * M)

section

variable {R R' M weight weight' : Nat}

/-- The reward in the penalty zone, `a` over the median. -/
theorem product_over {a : Nat} (ha : a ≤ M) : (2 * M - (M + a)) * (M + a) = M * M - a * a := by
  rw [Nat.mul_self_sub_mul_self_eq, Nat.mul_comm]
  congr 1
  omega

theorem penalised_over (h : M ≤ weight) (hle : weight ≤ 2 * M) :
    penalised R M weight = R * ((2 * M - weight) * weight) / (M * M) := by
  obtain ⟨a, rfl⟩ := Nat.exists_eq_add_of_le h
  rw [penalised, product_over (by omega), Nat.add_sub_cancel_left]

theorem penalised_free (hpos : 0 < M) (h : weight ≤ M) : penalised R M weight = R := by
  rw [penalised, Nat.sub_eq_zero_of_le h, Nat.mul_zero, Nat.sub_zero,
    Nat.mul_div_cancel _ (Nat.mul_pos hpos hpos)]

theorem penalised_le (hpos : 0 < M) : penalised R M weight ≤ R := by
  have hsquare : 0 < M * M := Nat.mul_pos hpos hpos
  calc penalised R M weight ≤ R * (M * M) / (M * M) :=
        Nat.div_le_div_right (Nat.mul_le_mul_left _ (Nat.sub_le _ _))
    _ = R := Nat.mul_div_cancel _ hsquare

/-- The reward does not rise with the weight. -/
theorem penalised_antitone (R M : Nat) (h : weight ≤ weight') :
    penalised R M weight' ≤ penalised R M weight := by
  have hsub : weight - M ≤ weight' - M := Nat.sub_le_sub_right h M
  have hsquare : (weight - M) * (weight - M) ≤ (weight' - M) * (weight' - M) :=
    Nat.mul_le_mul hsub hsub
  exact Nat.div_le_div_right (Nat.mul_le_mul_left _ (Nat.sub_le_sub_left hsquare _))

theorem penalised_mono (h : R ≤ R') : penalised R M weight ≤ penalised R' M weight :=
  Nat.div_le_div_right (Nat.mul_le_mul_right _ h)

/-- No product of the curve leaves its word. -/
structure PenaltyFits (R M weight : Nat) : Prop where
  twice : 2 * M < 2 ^ 64
  multiplicand : (2 * M - weight) * weight < 2 ^ 64
  product : R * ((2 * M - weight) * weight) < 2 ^ 128
  reward : R * ((2 * M - weight) * weight) / M / M < 2 ^ 64

theorem penaltyFits (hM : M ≤ 2 ^ 32) (hR : R < 2 ^ 44) (hover : M < weight)
    (hle : weight ≤ 2 * M) : PenaltyFits R M weight := by
  obtain ⟨a, rfl⟩ := Nat.exists_eq_add_of_le (Nat.le_of_lt hover)
  have hproduct : (2 * M - (M + a)) * (M + a) = M * M - a * a := product_over (by omega)
  have hsquare : M * M ≤ 2 ^ 64 := by
    calc M * M ≤ 2 ^ 32 * 2 ^ 32 := Nat.mul_le_mul hM hM
      _ = 2 ^ 64 := by norm_num
  have hone : 1 ≤ a * a := Nat.mul_pos (by omega) (by omega)
  have hpos : 0 < M * M := Nat.mul_pos (by omega) (by omega)
  have hmultiplicand : M * M - a * a < 2 ^ 64 := by omega
  refine ⟨by omega, by rw [hproduct]; exact hmultiplicand, ?_, ?_⟩
  · rw [hproduct]
    calc R * (M * M - a * a) ≤ 2 ^ 44 * 2 ^ 64 := Nat.mul_le_mul (by omega) (by omega)
      _ < 2 ^ 128 := by norm_num
  · rw [hproduct, Nat.div_div_eq_div_mul]
    calc R * (M * M - a * a) / (M * M) ≤ R * (M * M) / (M * M) :=
          Nat.div_le_div_right (Nat.mul_le_mul_left _ (Nat.sub_le _ _))
      _ = R := Nat.mul_div_cancel _ hpos
      _ < 2 ^ 64 := by omega

end

/-! ### The code and the curve -/

section

variable {median weight weight' coins coins' version M : Nat}

/-- Up to a median of `2 ^ 32` the reward is on the curve. -/
theorem getBlockReward_eq (hM : M = max median (getMinBlockWeight version)) (hlt : M ≤ 2 ^ 32)
    (hle : weight ≤ 2 * M) :
    getBlockReward median weight coins version = some (penalised (baseReward coins) M weight) := by
  have hzone := getMinBlockWeight_bounds version
  have hpos : 0 < M := by omega
  unfold getBlockReward
  rw [← hM]
  by_cases hfree : weight ≤ M
  · rw [penalised_free hpos hfree]
    simp only
    rw [if_pos hfree]
    rfl
  · have hover : M < weight := Nat.not_le.mp hfree
    obtain ⟨htwice, hmultiplicand, hproduct, hreward⟩ :=
      penaltyFits hlt (baseReward_lt coins) hover hle
    have hdouble : wrap64 (2 * M) = 2 * M := Nat.mod_eq_of_lt htwice
    have hunder : wrap64 (2 * M - weight) = 2 * M - weight := Nat.mod_eq_of_lt (by omega)
    have hmult : wrap64 ((2 * M - weight) * weight) = (2 * M - weight) * weight :=
      Nat.mod_eq_of_lt hmultiplicand
    have hprod : wrap128 (baseReward coins * ((2 * M - weight) * weight)) =
        baseReward coins * ((2 * M - weight) * weight) := Nat.mod_eq_of_lt hproduct
    simp only
    rw [if_neg hfree, hdouble, if_neg (by omega), hunder, hmult]
    change some (wrap64 (wrap128 (baseReward coins * ((2 * M - weight) * weight)) / M / M)) = _
    rw [hprod, penalised_over (Nat.le_of_lt hover) hle, ← Nat.div_div_eq_div_mul]
    congr 1
    exact Nat.mod_eq_of_lt hreward

theorem getBlockReward_eq_none (hM : M = max median (getMinBlockWeight version))
    (hlt : M ≤ 2 ^ 32) : getBlockReward median weight coins version = none ↔ 2 * M < weight := by
  constructor
  · intro h
    by_contra hle
    rw [getBlockReward_eq hM hlt (Nat.not_lt.mp hle)] at h
    cases h
  · intro hover
    have hdouble : wrap64 (2 * M) = 2 * M := Nat.mod_eq_of_lt (by omega)
    unfold getBlockReward
    rw [← hM]
    simp only
    rw [if_neg (by omega), hdouble, if_pos hover]

/-- What a block earns is what the curve gives, when it earns at all. -/
theorem getBlockReward_eq_some (hM : M = max median (getMinBlockWeight version)) (hlt : M ≤ 2 ^ 32)
    {reward : Nat} : getBlockReward median weight coins version = some reward ↔
      weight ≤ 2 * M ∧ reward = penalised (baseReward coins) M weight := by
  by_cases hle : weight ≤ 2 * M
  · rw [getBlockReward_eq hM hlt hle, Option.some.injEq]
    exact ⟨fun h => ⟨hle, h.symm⟩, fun h => h.2.symm⟩
  · rw [(getBlockReward_eq_none hM hlt).mpr (Nat.not_le.mp hle)]
    simp [hle]

end

/-- **The penalty curve.**  Up to a median of `2 ^ 32`, with `M` the median or the free zone: the
    whole reward up to `M`, nothing accepted above `2 * M`, and in between, without a product leaving
    its word, the exact quotient.  It never exceeds the base reward, falls with the weight and with
    the coins already out, and ends at zero. -/
theorem penalty_curve (median version : Nat) (hmedian : median ≤ 2 ^ 32) :
    let M := max median (getMinBlockWeight version)
    ∀ weight coins,
      (weight ≤ M → getBlockReward median weight coins version = some (baseReward coins)) ∧
      (getBlockReward median weight coins version = none ↔ 2 * M < weight) ∧
      (M < weight → weight ≤ 2 * M → PenaltyFits (baseReward coins) M weight ∧
        getBlockReward median weight coins version =
          some (baseReward coins * ((2 * M - weight) * weight) / (M * M))) ∧
      (∀ reward, getBlockReward median weight coins version = some reward →
        reward ≤ baseReward coins ∧
        (∀ lighter ≤ weight, ∃ more, getBlockReward median lighter coins version = some more ∧
          reward ≤ more) ∧
        ∀ earlier ≤ coins, ∃ more, getBlockReward median weight earlier version = some more ∧
          reward ≤ more) ∧
      getBlockReward median (2 * M) coins version = some 0 := by
  intro M weight coins
  have hzone := getMinBlockWeight_bounds version
  have hM : M = max median (getMinBlockWeight version) := rfl
  have hlt : M ≤ 2 ^ 32 := by omega
  have hpos : 0 < M := by omega
  refine ⟨fun hfree => ?_, getBlockReward_eq_none hM hlt, fun hover hle => ⟨?_, ?_⟩,
    fun reward hreward => ?_, ?_⟩
  · rw [getBlockReward_eq hM hlt (by omega), penalised_free hpos hfree]
  · exact penaltyFits hlt (baseReward_lt coins) hover hle
  · rw [getBlockReward_eq hM hlt hle, penalised_over (Nat.le_of_lt hover) hle]
  · obtain ⟨hle, rfl⟩ := (getBlockReward_eq_some hM hlt).mp hreward
    refine ⟨penalised_le hpos, fun lighter hlighter => ?_, fun earlier hearlier => ?_⟩
    · exact ⟨_, getBlockReward_eq hM hlt (hlighter.trans hle), penalised_antitone _ _ hlighter⟩
    · exact ⟨_, getBlockReward_eq hM hlt hle, penalised_mono (baseReward_antitone hearlier)⟩
  · rw [getBlockReward_eq hM hlt (Nat.le_refl _), penalised_over (by omega) (Nat.le_refl _),
      Nat.sub_self, Nat.zero_mul, Nat.mul_zero, Nat.zero_div]

/-- At the boundary, where the square of the median is one more than a word holds. -/
theorem penalty_curve_boundary : getBlockReward (2 ^ 32) (2 ^ 32 + 1) 0 20 =
    some (baseReward 0 * ((2 * 2 ^ 32 - (2 ^ 32 + 1)) * (2 ^ 32 + 1)) / (2 ^ 32 * 2 ^ 32)) :=
  ((penalty_curve (2 ^ 32) 20 (Nat.le_refl _) (2 ^ 32 + 1) 0).2.2.1 (by decide) (by decide)).2

end Wownero
