import Mathlib
/-!
# Wide arithmetic on limbs

Numbers of several limbs over any base, the most significant limb first: what they are worth, long
division by a number of one limb, and the product of two numbers of two limbs.
-/

namespace Wide

/-! ### Values -/

section

variable {B : Nat}

/-- What limbs are worth behind a number. -/
def valueFrom (B : Nat) : Nat → List Nat → Nat
  | v, [] => v
  | v, l :: ls => valueFrom B (v * B + l) ls

def value (B : Nat) (limbs : List Nat) : Nat := valueFrom B 0 limbs

theorem valueFrom_eq (v : Nat) (limbs : List Nat) :
    valueFrom B v limbs = v * B ^ limbs.length + value B limbs := by
  induction limbs generalizing v with
  | nil => simp [valueFrom, value]
  | cons l limbs ih =>
      rw [value, valueFrom, valueFrom, ih, ih, List.length_cons, pow_succ]
      ring

theorem valueFrom_add (c v : Nat) (limbs : List Nat) :
    valueFrom B (c + v) limbs = c * B ^ limbs.length + valueFrom B v limbs := by
  rw [valueFrom_eq, valueFrom_eq v]
  ring

/-! ### Long division -/

/-- The quotient limbs of a long division that starts with this remainder. -/
def longDiv (B d : Nat) : Nat → List Nat → List Nat
  | _, [] => []
  | r, l :: ls => (r * B + l) / d :: longDiv B d ((r * B + l) % d) ls

@[simp] theorem length_longDiv (d r : Nat) (limbs : List Nat) :
    (longDiv B d r limbs).length = limbs.length := by
  induction limbs generalizing r with
  | nil => rfl
  | cons l limbs ih => rw [longDiv, List.length_cons, ih, List.length_cons]

/-- **Long division divides.** -/
theorem value_longDiv {d r : Nat} (hr : r < d) (limbs : List Nat) :
    value B (longDiv B d r limbs) = valueFrom B r limbs / d := by
  have hd : 0 < d := Nat.lt_of_le_of_lt (Nat.zero_le _) hr
  induction limbs generalizing r with
  | nil => exact (Nat.div_eq_of_lt hr).symm
  | cons l limbs ih =>
      have hsplit : r * B + l = (r * B + l) / d * d + (r * B + l) % d :=
        (Nat.div_add_mod' (r * B + l) d).symm
      rw [longDiv, value, valueFrom, valueFrom_eq, length_longDiv, ih (Nat.mod_lt _ hd), valueFrom,
        Nat.zero_mul, Nat.zero_add]
      conv_rhs => rw [hsplit, valueFrom_add]
      rw [Nat.mul_right_comm, Nat.mul_comm _ d, Nat.mul_add_div hd]

/-- Each quotient limb is a limb. -/
theorem longDiv_lt {d r : Nat} (hr : r < d) {limbs : List Nat} (hlimbs : ∀ l ∈ limbs, l < B) :
    ∀ q ∈ longDiv B d r limbs, q < B := by
  induction limbs generalizing r with
  | nil => exact nofun
  | cons l limbs ih =>
      obtain ⟨hl, hlimbs⟩ := List.forall_mem_cons.mp hlimbs
      have hd : 0 < d := Nat.lt_of_le_of_lt (Nat.zero_le _) hr
      refine List.forall_mem_cons.mpr ⟨?_, ih (Nat.mod_lt _ hd) hlimbs⟩
      rw [Nat.div_lt_iff_lt_mul hd]
      calc r * B + l < r * B + B := Nat.add_lt_add_left hl _
        _ = (r + 1) * B := (Nat.succ_mul r B).symm
        _ ≤ d * B := Nat.mul_le_mul_right B hr
        _ = B * d := Nat.mul_comm _ _

end

/-! ### The product of two numbers of two limbs -/

section

variable (B ll lh hl hh : Nat)

/-- The middle column of a schoolbook product, with what is carried into it. -/
def midColumn : Nat := ll / B + lh % B + hl % B

/-- **The columns of a schoolbook product** are the product. -/
theorem columns_eq :
    ll % B + midColumn B ll lh hl % B * B +
        B * B * (hh + lh / B + hl / B + midColumn B ll lh hl / B) =
      ll + B * (lh + hl) + B * B * hh := by
  have h₁ := Nat.div_add_mod ll B
  have h₂ := Nat.div_add_mod lh B
  have h₃ := Nat.div_add_mod hl B
  have h₄ := Nat.div_add_mod (midColumn B ll lh hl) B
  have hmid : midColumn B ll lh hl = ll / B + lh % B + hl % B := rfl
  generalize midColumn B ll lh hl = mid at h₄ hmid ⊢
  zify at *
  linear_combination h₁ + (B : ℤ) * h₂ + (B : ℤ) * h₃ + (B : ℤ) * h₄ + (B : ℤ) * hmid

theorem split_mul (a b : Nat) :
    a % B * (b % B) + B * (a % B * (b / B) + a / B * (b % B)) + B * B * (a / B * (b / B)) = a * b := by
  have ha := Nat.div_add_mod a B
  have hb := Nat.div_add_mod b B
  calc _ = (B * (a / B) + a % B) * (B * (b / B) + b % B) := by ring
    _ = a * b := by rw [ha, hb]

end

end Wide
