import Mathlib
/-!
# Bytes and machine integers

The fixed-width arithmetic the node computes with.  A `u64` or `u128` of the source is a `Nat`
here and every operation that can leave its range says what happens there: `saturating…`,
`checked…` or a reduction modulo the width.  The release profile has no overflow checks, so a
plain `+` of the source is the wrapping one.

A 32-byte array is a `BitVec 256` read big-endian, so that the order of the bit vector is the
byte order `memcmp` and `[u8; 32]: Ord` compare by.
-/

namespace Wownero

/-- A byte string: a blob, a transcript or a slice of one. -/
abbrev Blob := List UInt8

/-- `[u8; 32]`, read big-endian. -/
abbrev Bytes32 := BitVec 256

abbrev Hash256 := Bytes32
abbrev KeyImage := Bytes32
abbrev PublicKey := Bytes32
abbrev EcPoint := Bytes32
abbrev EcScalar := Bytes32

/-- `NULL_HASH`, `EcPoint::ZERO`, `EcScalar::ZERO`: thirty-two zero bytes. -/
def nullHash : Hash256 := 0

/-! ### Byte views -/

/-- The number whose big-endian bytes are `bs`. -/
def beNat (bs : List UInt8) : Nat :=
  bs.foldl (fun acc b => acc * 256 + b.toNat) 0

/-- The number whose little-endian bytes are `bs`. -/
def leNat : List UInt8 → Nat
  | [] => 0
  | b :: bs => b.toNat + 256 * leNat bs

/-- The `n` low little-endian bytes of `v`. -/
def leBytes : Nat → Nat → List UInt8
  | 0, _ => []
  | n + 1, v => UInt8.ofNat v :: leBytes n (v / 256)

/-- The thirty-two bytes of an array, in order. -/
def Bytes32.toBytes (b : Bytes32) : List UInt8 :=
  (leBytes 32 b.toNat).reverse

/-- The array holding `bs`, which the callers know to be thirty-two bytes long. -/
def Bytes32.ofBytes (bs : List UInt8) : Bytes32 :=
  BitVec.ofNat 256 (beNat bs)

/-- A Schnorr signature, two scalars side by side. -/
structure Signature where
  c : EcScalar
  r : EcScalar
  deriving DecidableEq, Repr

/-- `Signature::ZERO`. -/
def Signature.zero : Signature := ⟨0, 0⟩

def Signature.toBytes (s : Signature) : List UInt8 :=
  Bytes32.toBytes s.c ++ Bytes32.toBytes s.r

def Signature.ofBytes (bs : List UInt8) : Signature :=
  ⟨Bytes32.ofBytes (bs.take 32), Bytes32.ofBytes (bs.drop 32)⟩

/-! ### Unsigned arithmetic -/

/-- `u64::MAX`. -/
def u64Max : Nat := 18446744073709551615

/-- `u128::MAX`. -/
def u128Max : Nat := 340282366920938463463374607431768211455

/-- `u64::saturating_add`. -/
def saturatingAdd (a b : Nat) : Nat := min (a + b) u64Max

/-- `u64::saturating_mul`. -/
def saturatingMul (a b : Nat) : Nat := min (a * b) u64Max

/-- `u64::checked_add`. -/
def checkedAdd (a b : Nat) : Option Nat :=
  if a + b ≤ u64Max then some (a + b) else none

/-- `checked_sub`, of any unsigned width. -/
def checkedSub (a b : Nat) : Option Nat :=
  if b ≤ a then some (a - b) else none

/-- `checked_mul` of a `u64`. -/
def checkedMul (a b : Nat) : Option Nat :=
  if a * b ≤ u64Max then some (a * b) else none

/-- The `u64` a wrapping operation leaves. -/
def wrap64 (n : Nat) : Nat := n % 18446744073709551616

/-- The `u128` a wrapping operation leaves. -/
def wrap128 (n : Nat) : Nat := n % 340282366920938463463374607431768211456

/-- The `i64` with the same low sixty-four bits: an `as i64` cast, or what a wrapping signed
    operation leaves. -/
def toI64 (n : Int) : Int := Int.bmod n 18446744073709551616

/-- The `u64` with the same low sixty-four bits: an `as u64` cast of a signed value. -/
def toU64 (n : Int) : Nat := (n % 18446744073709551616).toNat

theorem wrap128_of_le {n : Nat} (h : n ≤ u128Max) : wrap128 n = n := by
  unfold wrap128
  unfold u128Max at h
  exact Nat.mod_eq_of_lt (by omega)

theorem checkedAdd_eq_some {a b sum : Nat} :
    checkedAdd a b = some sum ↔ a + b = sum ∧ sum ≤ u64Max := by
  unfold checkedAdd
  split_ifs with hle
  · simp only [Option.some.injEq]
    exact ⟨fun h => ⟨h, h ▸ hle⟩, And.left⟩
  · simp only [false_iff]
    rintro ⟨rfl, hle'⟩
    exact hle hle'

theorem saturatingAdd_le (a b : Nat) : saturatingAdd a b ≤ u64Max := Nat.min_le_right _ _

end Wownero
