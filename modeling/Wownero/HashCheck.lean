import Mathlib.Data.Nat.Digits.Lemmas
import Wownero.Block
import Wownero.Codec
/-!
# The comparison of a proof of work

The product of the hash and the difficulty, limb by limb with its carries, is the product of the two
numbers, and the comparison asks whether it stays below `2 ^ 256`.
-/

namespace Wownero

open Wownero.Archive

/-- A word of `u128`, or `none` where it overflows. -/
def word128 (x : Nat) : Option Nat := if x < 2 ^ 128 then some x else none

/-- A row of the product with each sum and product in `u128`; the outer `none` is an overflow. -/
def mulRowWords (d : Nat) : List Nat → List Nat → Nat → Option (Option (List Nat))
  | [], [], carry => some (if carry = 0 then some [] else none)
  | [], p :: ps, carry =>
      if carry = 0 then some (some (p :: ps))
      else do
        let cur ← word128 (p + carry)
        return (← mulRowWords d [] ps (cur / 2 ^ 64)).map (cur % 2 ^ 64 :: ·)
  | _ :: _, [], _ => none
  | h :: hs, p :: ps, carry => do
      let product ← word128 (h * d)
      let sum ← word128 (p + product)
      let cur ← word128 (sum + carry)
      return (← mulRowWords d hs ps (cur / 2 ^ 64)).map (cur % 2 ^ 64 :: ·)

/-- A row in words, left out for a zero limb of the difficulty. -/
def rowWords (d : Nat) (h ps : List Nat) : Option (Option (List Nat)) :=
  if d = 0 then some (some ps) else mulRowWords d h ps 0

/-- `mul_256_by_128_fits` with the rows in words. -/
def mul256By128Words (hash : Hash256) (difficulty : Nat) : Option Bool := do
  let le := leNat (Bytes32.toBytes hash)
  let h := [le % 2 ^ 64, le / 2 ^ 64 % 2 ^ 64, le / 2 ^ 128 % 2 ^ 64, le / 2 ^ 192 % 2 ^ 64]
  let d0 := difficulty % 2 ^ 64
  let d1 := difficulty / 2 ^ 64 % 2 ^ 64
  let first ← rowWords d0 h [0, 0, 0, 0, 0, 0]
  match first with
  | none => return false
  | some prod =>
      let second ← rowWords d1 h (prod.drop 1)
      match second with
      | none => return false
      | some rest => return (prod.take 1 ++ rest).drop 4 == [0, 0]

/-- Limbs that are words of `u64`. -/
def Words (limbs : List Nat) : Prop := ∀ l ∈ limbs, l < 2 ^ 64

/-- What limbs are worth, the lowest first. -/
def limbValue (limbs : List Nat) : Nat := Nat.ofDigits (2 ^ 64) limbs

theorem limbValue_cons (l : Nat) (limbs : List Nat) :
    limbValue (l :: limbs) = l + 2 ^ 64 * limbValue limbs := Nat.ofDigits_cons

theorem limbValue_lt {limbs : List Nat} (h : Words limbs) : limbValue limbs < (2 ^ 64) ^ limbs.length :=
  Nat.ofDigits_lt_base_pow_length (by decide) h

theorem Words.head {l : Nat} {limbs : List Nat} (h : Words (l :: limbs)) : l < 2 ^ 64 :=
  h l (List.mem_cons_self ..)

theorem Words.tail {l : Nat} {limbs : List Nat} (h : Words (l :: limbs)) : Words limbs :=
  fun x hx => h x (List.mem_cons_of_mem _ hx)

theorem words_cons {l : Nat} {limbs : List Nat} (hl : l < 2 ^ 64) (h : Words limbs) :
    Words (l :: limbs) := by
  intro x hx
  rcases List.mem_cons.mp hx with rfl | hx
  · exact hl
  · exact h x hx

/-! ### One limb -/

/-- The product of two words with two more added to it is a double word. -/
theorem limb_lt {h d p carry : Nat} (hh : h < 2 ^ 64) (hd : d < 2 ^ 64) (hp : p < 2 ^ 64)
    (hcarry : carry < 2 ^ 64) : p + h * d + carry < 2 ^ 128 := by
  have hmul : h * d ≤ (2 ^ 64 - 1) * (2 ^ 64 - 1) := Nat.mul_le_mul (by omega) (by omega)
  omega

/-! ### One row -/

/-- What a row gives: the limbs of the sum, or a sum that has no place in them. -/
structure RowSum (n total : Nat) (out : Option (List Nat)) : Prop where
  value : ∀ limbs, out = some limbs → limbs.length = n ∧ Words limbs ∧ limbValue limbs = total
  overflow : out = none → (2 ^ 64) ^ n ≤ total

/-- The low half of a double word stays, and the high half goes on with the rest. -/
theorem RowSum.cons {n cur rest : Nat} {out : Option (List Nat)}
    (h : RowSum n (rest + cur / 2 ^ 64) out) :
    RowSum (n + 1) (cur + 2 ^ 64 * rest) (out.map (cur % 2 ^ 64 :: ·)) := by
  have hsum : cur % 2 ^ 64 + 2 ^ 64 * (rest + cur / 2 ^ 64) = cur + 2 ^ 64 * rest := by
    rw [Nat.mul_add, Nat.add_left_comm, Nat.mod_add_div, Nat.add_comm]
  rw [← hsum]
  constructor
  · intro limbs heq
    obtain ⟨rest, hrest, rfl⟩ := Option.map_eq_some_iff.mp heq
    obtain ⟨hlen, hwords, hvalue⟩ := h.value rest hrest
    refine ⟨by rw [List.length_cons, hlen], words_cons (Nat.mod_lt _ (by decide)) hwords, ?_⟩
    rw [limbValue_cons, hvalue]
  · intro hnone
    have hover := h.overflow (Option.map_eq_none_iff.mp hnone)
    rw [Nat.pow_succ, Nat.mul_comm]
    exact Nat.le_trans (Nat.mul_le_mul_left _ hover) (Nat.le_add_left _ _)

section

variable {d h p carry : Nat} {hs ps : List Nat}

theorem mulRow_carry (hcarry : carry ≠ 0) :
    mulRow d [] (p :: ps) carry =
      (mulRow d [] ps ((p + carry) / 2 ^ 64)).map ((p + carry) % 2 ^ 64 :: ·) := by
  rw [mulRow, if_neg hcarry]
  cases mulRow d [] ps ((p + carry) / 2 ^ 64) <;> rfl

theorem mulRow_cons :
    mulRow d (h :: hs) (p :: ps) carry =
      (mulRow d hs ps ((p + h * d + carry) / 2 ^ 64)).map ((p + h * d + carry) % 2 ^ 64 :: ·) := by
  rw [mulRow]
  cases mulRow d hs ps ((p + h * d + carry) / 2 ^ 64) <;> rfl

theorem mulRowWords_carry (hcarry : carry ≠ 0) (hword : p + carry < 2 ^ 128) :
    mulRowWords d [] (p :: ps) carry =
      (mulRowWords d [] ps ((p + carry) / 2 ^ 64)).map
        (Option.map ((p + carry) % 2 ^ 64 :: ·)) := by
  rw [mulRowWords, if_neg hcarry, word128, if_pos hword, Option.bind_eq_bind, Option.bind_some]
  cases mulRowWords d [] ps ((p + carry) / 2 ^ 64) <;> rfl

theorem mulRowWords_cons (hword : p + h * d + carry < 2 ^ 128) :
    mulRowWords d (h :: hs) (p :: ps) carry =
      (mulRowWords d hs ps ((p + h * d + carry) / 2 ^ 64)).map
        (Option.map ((p + h * d + carry) % 2 ^ 64 :: ·)) := by
  rw [mulRowWords, word128, if_pos (by omega), Option.bind_eq_bind, Option.bind_some, word128,
    if_pos (by omega), Option.bind_some, word128, if_pos hword, Option.bind_some]
  cases mulRowWords d hs ps ((p + h * d + carry) / 2 ^ 64) <;> rfl

/-- A row adds its product and its carry to the limbs, by induction along them, and no word of it
    overflows. -/
theorem mulRow_spec (hd : d < 2 ^ 64) (hhs : Words hs) (hps : Words ps) (hcarry : carry < 2 ^ 64)
    (hlen : hs.length ≤ ps.length) :
    RowSum ps.length (limbValue ps + d * limbValue hs + carry) (mulRow d hs ps carry) ∧
      mulRowWords d hs ps carry = some (mulRow d hs ps carry) := by
  induction ps generalizing hs carry with
  | nil =>
      obtain rfl := List.length_eq_zero_iff.mp (Nat.le_zero.mp hlen)
      rw [mulRow, mulRowWords]
      refine ⟨⟨fun limbs heq => ?_, fun hnone => ?_⟩, rfl⟩
      · split_ifs at heq with hzero
        obtain rfl := Option.some.inj heq
        exact ⟨rfl, hps, by rw [hzero]; rfl⟩
      · split_ifs at hnone with hzero
        rw [List.length_nil, Nat.pow_zero]
        omega
  | cons p ps ih =>
      have hp := hps.head
      cases hs with
      | nil =>
          by_cases hzero : carry = 0
          · rw [mulRow, mulRowWords, if_pos hzero, if_pos hzero]
            refine ⟨⟨fun limbs heq => ?_, fun hnone => absurd hnone (Option.some_ne_none _)⟩, rfl⟩
            obtain rfl := Option.some.inj heq
            exact ⟨rfl, hps, by rw [hzero]; rfl⟩
          · have hnext : (p + carry) / 2 ^ 64 < 2 ^ 64 := by omega
            obtain ⟨hrow, hwords⟩ := ih hhs hps.tail hnext (Nat.zero_le _)
            rw [mulRow_carry hzero, mulRowWords_carry hzero (by omega), hwords]
            refine ⟨?_, rfl⟩
            have htotal : limbValue (p :: ps) + d * limbValue [] + carry =
                p + carry + 2 ^ 64 * (limbValue ps + d * limbValue []) := by
              rw [limbValue_cons, show limbValue [] = 0 from rfl]
              ring
            rw [htotal]
            exact hrow.cons
      | cons h hs =>
          have hcur := limb_lt hhs.head hd hp hcarry
          have hnext : (p + h * d + carry) / 2 ^ 64 < 2 ^ 64 := by omega
          obtain ⟨hrow, hwords⟩ := ih hhs.tail hps.tail hnext (Nat.le_of_succ_le_succ hlen)
          rw [mulRow_cons, mulRowWords_cons hcur, hwords]
          refine ⟨?_, rfl⟩
          have htotal : limbValue (p :: ps) + d * limbValue (h :: hs) + carry =
              p + h * d + carry + 2 ^ 64 * (limbValue ps + d * limbValue hs) := by
            rw [limbValue_cons, limbValue_cons]
            ring
          rw [htotal]
          exact hrow.cons

end

/-! ### Both rows -/

/-- A row that is left out for a zero limb of the difficulty is the row of a zero. -/
theorem skipped_row {d : Nat} {hs ps : List Nat} (hd : d < 2 ^ 64) (hhs : Words hs) (hps : Words ps)
    (hlen : hs.length ≤ ps.length) (hroom : limbValue ps + d * limbValue hs < (2 ^ 64) ^ ps.length) :
    ∃ out, (if d = 0 then some ps else mulRow d hs ps 0) = some out ∧
      rowWords d hs ps = some (some out) ∧
      out.length = ps.length ∧ Words out ∧ limbValue out = limbValue ps + d * limbValue hs := by
  rw [rowWords]
  by_cases hzero : d = 0
  · rw [if_pos hzero, if_pos hzero]
    exact ⟨ps, rfl, rfl, rfl, hps, by rw [hzero, Nat.zero_mul, Nat.add_zero]⟩
  · obtain ⟨hrow, hwords⟩ := @mulRow_spec d 0 hs ps hd hhs hps (by decide) hlen
    rw [Nat.add_zero] at hrow
    cases hout : mulRow d hs ps 0 with
    | none => exact absurd (hrow.overflow hout) (Nat.not_le.mpr hroom)
    | some out =>
        rw [if_neg hzero, if_neg hzero, hwords, hout]
        exact ⟨out, rfl, rfl, hrow.value out hout⟩

theorem hash_limbs {H : Nat} (h : H < 2 ^ 256) :
    limbValue [H % 2 ^ 64, H / 2 ^ 64 % 2 ^ 64, H / 2 ^ 128 % 2 ^ 64, H / 2 ^ 192 % 2 ^ 64] = H := by
  simp only [limbValue_cons, show limbValue [] = 0 from rfl]
  omega

/-- The two limbs over the hash's width are zero exactly when the value has that width. -/
theorem high_limbs {limbs : List Nat} (hlen : limbs.length = 6) (hwords : Words limbs) :
    limbs.drop 4 = [0, 0] ↔ limbValue limbs < 2 ^ 256 := by
  match limbs, hlen with
  | [a, b, c, d, e, f], _ =>
    have ha := hwords a (by simp)
    have hb := hwords b (by simp)
    have hc := hwords c (by simp)
    have hd := hwords d (by simp)
    have hdrop : [a, b, c, d, e, f].drop 4 = [0, 0] ↔ e = 0 ∧ f = 0 := by simp
    rw [hdrop]
    simp only [limbValue_cons, show limbValue [] = 0 from rfl]
    omega

/-- The product as the two rows leave it: six limbs of it, whatever the words. -/
theorem product_spec {hash : Hash256} {difficulty : Nat} (hd : difficulty < 2 ^ 128) :
    ∃ out, out.length = 6 ∧ Words out ∧
      limbValue out = leNat (Bytes32.toBytes hash) * difficulty ∧
      mul256By128Fits hash difficulty = (out.drop 4 == [0, 0]) ∧
      mul256By128Words hash difficulty = some (out.drop 4 == [0, 0]) := by
  obtain ⟨H, hH⟩ : ∃ H, leNat (Bytes32.toBytes hash) = H := ⟨_, rfl⟩
  have hlt : H < 2 ^ 256 := by
    have h := leNat_lt (Bytes32.toBytes hash)
    rw [length_toBytes, hH] at h
    exact h
  obtain ⟨h, hh⟩ : ∃ h, [H % 2 ^ 64, H / 2 ^ 64 % 2 ^ 64, H / 2 ^ 128 % 2 ^ 64, H / 2 ^ 192 % 2 ^ 64] = h :=
    ⟨_, rfl⟩
  have hvalue : limbValue h = H := hh ▸ hash_limbs hlt
  have hlen : h.length = 4 := hh ▸ rfl
  have hwords : Words h := by
    rw [← hh]
    intro l hl
    simp only [List.mem_cons, List.not_mem_nil, or_false] at hl
    omega
  obtain ⟨d0, hd0⟩ : ∃ d0, difficulty % 2 ^ 64 = d0 := ⟨_, rfl⟩
  obtain ⟨d1, hd1⟩ : ∃ d1, difficulty / 2 ^ 64 % 2 ^ 64 = d1 := ⟨_, rfl⟩
  have hsplit : difficulty = d0 + 2 ^ 64 * d1 := by omega
  have hH4 : H < (2 ^ 64) ^ 4 := by rw [← Nat.pow_mul]; exact hlt
  have hproduct {d : Nat} (hd : d < 2 ^ 64) : d * H + H ≤ 2 ^ 64 * H := by
    rw [← Nat.succ_mul]
    exact Nat.mul_le_mul_right _ hd
  have hroom : 2 ^ 64 * H < (2 ^ 64) ^ 5 := by
    rw [Nat.pow_succ, Nat.mul_comm]
    exact Nat.mul_lt_mul_of_pos_right hH4 (by decide)
  have hzeros : Words [0, 0, 0, 0, 0, 0] := by
    intro l hl
    rw [List.eq_of_mem_replicate (n := 6) hl]
    decide
  -- the row of the low limb
  have hfirst := hproduct (show d0 < 2 ^ 64 by omega)
  obtain ⟨prod, hrow, hrowWords, hprodLen, hprod, hprodValue⟩ :=
    @skipped_row d0 h [0, 0, 0, 0, 0, 0] (by omega) hwords hzeros (by rw [hlen]; decide) (by
      rw [hvalue, show limbValue [0, 0, 0, 0, 0, 0] = 0 from rfl, Nat.zero_add]
      have hpow : (2 ^ 64) ^ 5 ≤ (2 ^ 64) ^ 6 := Nat.pow_le_pow_right (by decide) (by decide)
      exact Nat.lt_of_le_of_lt (Nat.le_trans (Nat.le_add_right _ _) hfirst)
        (Nat.lt_of_lt_of_le hroom hpow))
  rw [hvalue, show limbValue [0, 0, 0, 0, 0, 0] = 0 from rfl, Nat.zero_add] at hprodValue
  obtain ⟨p, rest, rfl⟩ : ∃ p rest, prod = p :: rest := List.exists_cons_of_length_eq_add_one hprodLen
  rw [limbValue_cons] at hprodValue
  have hrestLen : rest.length = 5 := Nat.succ.inj hprodLen
  -- the row of the high limb, over the limbs that are left
  have hsecond := hproduct (show d1 < 2 ^ 64 by omega)
  have hrest : limbValue rest ≤ H := by
    have hle : 2 ^ 64 * limbValue rest ≤ 2 ^ 64 * H := by omega
    exact Nat.le_of_mul_le_mul_left hle (by decide)
  obtain ⟨out, hrow', hrowWords', houtLen, hout, houtValue⟩ :=
    @skipped_row d1 h rest (by omega) hwords hprod.tail (by rw [hlen, hrestLen]; decide) (by
      rw [hvalue, hrestLen]
      omega)
  rw [hvalue] at houtValue
  refine ⟨p :: out, by rw [List.length_cons, houtLen, hrestLen], words_cons hprod.head hout, ?_, ?_, ?_⟩
  · rw [limbValue_cons, houtValue, hH, hsplit]
    have hmul : H * (d0 + 2 ^ 64 * d1) = d0 * H + 2 ^ 64 * (d1 * H) := by ring
    omega
  · unfold mul256By128Fits
    dsimp only
    rw [hH, hh, hd0, hd1]
    have hboth : (if d1 = 0 then some (p :: rest) else
        (mulRow d1 h ((p :: rest).drop 1) 0).bind fun row => pure ((p :: rest).take 1 ++ row)) =
          some (p :: out) := by
      by_cases hzero : d1 = 0
      · rw [if_pos hzero] at hrow' ⊢
        rw [Option.some.inj hrow']
      · rw [if_neg hzero] at hrow' ⊢
        rw [List.drop_one, List.tail_cons, hrow']
        rfl
    by_cases hzero : d0 = 0
    · rw [if_pos hzero] at hrow ⊢
      rw [hrow, Option.bind_eq_bind, Option.bind_some]
      rw [hboth]
    · rw [if_neg hzero] at hrow ⊢
      rw [hrow, Option.bind_eq_bind, Option.bind_some]
      rw [hboth]
  · unfold mul256By128Words
    dsimp only
    rw [hH, hh, hd0, hd1, hrowWords, Option.bind_eq_bind, Option.bind_some]
    dsimp only
    rw [List.drop_one, List.tail_cons, hrowWords', Option.bind_some]
    rfl

/-! ### The comparison -/

theorem checkHash_iff {hash : Hash256} {difficulty : Nat} (hd : difficulty < 2 ^ 128) :
    checkHash hash difficulty = true ↔
      difficulty ≠ 0 ∧ leNat (Bytes32.toBytes hash) * difficulty < 2 ^ 256 := by
  rw [checkHash]
  split
  case isTrue hzero => exact ⟨fun h => absurd h (by decide), fun h => absurd hzero h.1⟩
  case isFalse hzero =>
    obtain ⟨out, hlen, hwords, hvalue, hfits, -⟩ := @product_spec hash difficulty hd
    rw [hfits, beq_iff_eq, high_limbs hlen hwords, hvalue]
    exact (and_iff_right hzero).symm

/-- The comparison of a proof of work is exact: it passes for a difficulty other than zero whose product
    with the hash stays below `2 ^ 256`, no word of the limb loop overflows, each row adds its product
    to the limbs without loss, and a hash that passes a difficulty passes every smaller one but zero. -/
theorem checkHash_exact {hash : Hash256} {difficulty : Nat} (hd : difficulty < 2 ^ 128) :
    (checkHash hash difficulty = true ↔
      difficulty ≠ 0 ∧ leNat (Bytes32.toBytes hash) * difficulty < 2 ^ 256) ∧
    mul256By128Words hash difficulty = some (mul256By128Fits hash difficulty) ∧
    (∀ (d : Nat) (hs ps : List Nat), d < 2 ^ 64 → Words hs → Words ps → hs.length ≤ ps.length →
      ∀ out, mulRow d hs ps 0 = some out →
        Words out ∧ limbValue out = limbValue ps + d * limbValue hs) ∧
    ∀ smaller, smaller ≠ 0 → smaller ≤ difficulty → checkHash hash difficulty = true →
      checkHash hash smaller = true := by
  refine ⟨checkHash_iff hd, ?_, fun d hs ps hdigit hhs hps hlen out hout => ?_,
    fun smaller hne hle hpass => ?_⟩
  · obtain ⟨out, -, -, -, hfits, hwords⟩ := @product_spec hash difficulty hd
    rw [hfits, hwords]
  · obtain ⟨-, hwords, hvalue⟩ := (@mulRow_spec d 0 hs ps hdigit hhs hps (by decide) hlen).1.value out hout
    exact ⟨hwords, hvalue⟩
  · rw [checkHash_iff hd] at hpass
    rw [checkHash_iff (Nat.lt_of_le_of_lt hle hd)]
    exact ⟨hne, Nat.lt_of_le_of_lt (Nat.mul_le_mul_left _ hle) hpass.2⟩

/-- The largest hash passes the difficulty one. -/
theorem checkHash_exact_largest : checkHash (BitVec.allOnes 256) 1 = true :=
  (@checkHash_exact (BitVec.allOnes 256) 1 (by decide)).1.mpr ⟨by decide, by decide⟩

end Wownero
