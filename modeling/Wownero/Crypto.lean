import Mathlib.Algebra.Group.Defs
import Wownero.Block
/-!
# Curve arithmetic, commitments and ring signatures

The curve library, the hashes and the range proof are parameters, gathered in `Crypto`.  Points
form an abelian group that may have torsion; decoding is partial and admits whatever the library
admits.  A scalar is its representative below the order `ell` of the prime subgroup and acts on a
point by that many additions, as the library's multiplication does on a point of any order.

Over this interface the linkable ring signature and the commitment sums are computed step by
step as the node computes them.
-/

namespace Wownero

open Wownero.Archive

/-- A Bulletproof+ with the commitments it is about. -/
structure BppProof where
  v : List EcPoint
  wire : BulletproofPlus
  deriving DecidableEq, Repr

/-- What the node takes from the curve library, the hash functions and the range-proof
    verifier. -/
structure Crypto where
  /-- `EdwardsPoint`. -/
  Point : Type
  [group : AddCommGroup Point]
  [decEq : DecidableEq Point]
  /-- The order of the prime subgroup. -/
  ell : Nat
  /-- `8⁻¹` modulo `ell`. -/
  invEight : Nat
  /-- `ED25519_BASEPOINT_POINT`. -/
  basepoint : Point
  /-- The second generator, of amounts. -/
  hPoint : Point
  decodePoint : Bytes32 → Option Point
  encodePoint : Point → Bytes32
  /-- `cn_fast_hash`. -/
  cnFastHash : Blob → Hash256
  /-- `ge_fromfe_frombytes_vartime`. -/
  geFromfeFrombytes : Hash256 → EcPoint
  /-- `check_signature`. -/
  checkSignature : Hash256 → PublicKey → Signature → Bool
  /-- `bulletproofs_plus::verify`, with the text of its error. -/
  bppVerify : BppProof → Except String Unit

namespace Crypto

variable (C : Crypto)

instance : AddCommGroup C.Point := C.group

instance : DecidableEq C.Point := C.decEq

/-! ### Scalars and points -/

/-- `decode_scalar`: canonical representatives only. -/
def decodeScalar (bytes : Bytes32) : Option Nat :=
  let v := leNat (Bytes32.toBytes bytes)
  if v < C.ell then some v else none

/-- `hash_to_scalar_dalek`. -/
def hashToScalar (data : Blob) : Nat :=
  leNat (Bytes32.toBytes (C.cnFastHash data)) % C.ell

/-- `mul8`. -/
def mul8 (p : C.Point) : C.Point := 8 • p

/-- `hash_to_ec_point`. -/
def hashToEcPoint (key : Bytes32) : Option C.Point :=
  (C.decodePoint (C.geFromfeFrombytes (C.cnFastHash (writeArray32 key)))).map C.mul8

/-- `zero_commit`: the commitment to an amount under the identity mask. -/
def zeroCommit (amount : Nat) : EcPoint := C.encodePoint (C.basepoint + amount • C.hPoint)

/-- `scalarmult8`. -/
def scalarmult8 (p : EcPoint) : Option EcPoint :=
  (C.decodePoint p).map fun q => C.encodePoint (C.mul8 q)

/-- `div8`. -/
def div8 (p : EcPoint) : Option EcPoint :=
  (C.decodePoint p).map fun q => C.encodePoint (C.invEight • q)

/-- A sum of commitments, each of them multiplied by eight if the flag says so. -/
def sumPoints (timesEight : Bool) : List EcPoint → Option C.Point
  | [] => some 0
  | p :: ps => do
    let q ← C.decodePoint p
    let rest ← sumPoints timesEight ps
    return (if timesEight then C.mul8 q else q) + rest

/-- `balances`: the inputs commit to what the outputs and the fee commit to. -/
def balances (rct : RctSignatures) : Bool :=
  match C.sumPoints false rct.pseudoOuts, C.sumPoints rct.ty.isBpPlusLegacy rct.outPk with
  | some ins, some outs => ins == outs + rct.txnFee • C.hPoint
  | _, _ => false

/-! ### CLSAG -/

/-- A ring member: a one-time key and the commitment beside it. -/
structure RingMember where
  dest : PublicKey
  mask : EcPoint
  deriving DecidableEq, Repr

inductive ClsagError where
  | emptyRing
  | indexOutOfRange (index ringSize : Nat)
  | wrongScalarCount (got want : Nat)
  | nonCanonicalScalar
  | identityKeyImage
  | badPoint
  | badSignature
  deriving DecidableEq, Repr

/-- The text of a CLSAG failure. -/
def ClsagError.text : ClsagError → String
  | .emptyRing => "the ring is empty"
  | .indexOutOfRange index ringSize =>
      s!"the signing index {index} is outside a ring of {ringSize}"
  | .wrongScalarCount got want => s!"the signature has {got} scalars for a ring of {want}"
  | .nonCanonicalScalar => "a signature scalar is not canonical"
  | .identityKeyImage => "the key image is the identity"
  | .badPoint => "a point in the ring does not decode"
  | .badSignature => "the ring does not close"

/-- `domain_block`: a domain string padded to a block of thirty-two bytes. -/
def domainBlock (domain : Blob) : Blob := domain ++ List.replicate (32 - domain.length) 0

/-- `CLSAG_round`. -/
def domainRound : Blob := [0x43, 0x4c, 0x53, 0x41, 0x47, 0x5f, 0x72, 0x6f, 0x75, 0x6e, 0x64]

/-- `CLSAG_agg_0`. -/
def domainAgg0 : Blob := [0x43, 0x4c, 0x53, 0x41, 0x47, 0x5f, 0x61, 0x67, 0x67, 0x5f, 0x30]

/-- `CLSAG_agg_1`. -/
def domainAgg1 : Blob := [0x43, 0x4c, 0x53, 0x41, 0x47, 0x5f, 0x61, 0x67, 0x67, 0x5f, 0x31]

def ringKeys (ring : List RingMember) : Blob :=
  writeArrays (ring.map (·.dest)) ++ writeArrays (ring.map (·.mask))

/-- `aggregation_hashes`: the coefficients of the key image and of the commitment image. -/
def aggregationHashes (ring : List RingMember) (keyImage : KeyImage) (d8 cOffset : EcPoint) :
    Nat × Nat :=
  let tail := ringKeys ring ++ writeArrays [keyImage, d8, cOffset]
  (C.hashToScalar (domainBlock domainAgg0 ++ tail), C.hashToScalar (domainBlock domainAgg1 ++ tail))

/-- `round_prefix`. -/
def roundPrefix (ring : List RingMember) (cOffset : EcPoint) (message : Hash256) : Blob :=
  domainBlock domainRound ++ ringKeys ring ++ writeArrays [cOffset, message]

/-- `round_hash`. -/
def roundHash (pre : Blob) (l r : C.Point) : Nat :=
  C.hashToScalar (pre ++ writeArrays [C.encodePoint l, C.encodePoint r])

/-- A ring member as points: the key, the commitment less the offset, and the hashed key. -/
structure DecodedMember where
  dest : C.Point
  maskLessOffset : C.Point
  hp : C.Point

/-- `decode_ring`. -/
def decodeRing (cOffset : C.Point) : List RingMember → Option (List C.DecodedMember)
  | [] => some []
  | m :: ms => do
    let p ← C.decodePoint m.dest
    let c ← C.decodePoint m.mask
    let hp ← C.hashToEcPoint m.dest
    return ⟨p, c - cOffset, hp⟩ :: (← decodeRing cOffset ms)

/-- The loop of `verify`: the challenge after the whole ring, or `none` when it passes through
    zero. -/
def clsagRounds (pre : Blob) (muP muC : Nat) (image d : C.Point) :
    Nat → List Nat → List C.DecodedMember → Option Nat
  | c, s :: ss, m :: ms =>
      let cP := muP * c % C.ell
      let cC := muC * c % C.ell
      let l := s • C.basepoint + cP • m.dest + cC • m.maskLessOffset
      let r := s • m.hp + cP • image + cC • d
      let c := C.roundHash pre l r
      if c = 0 then none else clsagRounds pre muP muC image d c ss ms
  | c, _, _ => some c

/-- `clsag::verify`. -/
def clsagVerify (message : Hash256) (sig : Clsag) (keyImage : KeyImage) (ring : List RingMember)
    (cOffset : EcPoint) : Except ClsagError Unit :=
  if ring.isEmpty then .error .emptyRing
  else if sig.s.length ≠ ring.length then .error (.wrongScalarCount sig.s.length ring.length)
  else
    match sig.s.mapM C.decodeScalar, C.decodeScalar sig.c1 with
    | some s, some c1 =>
        match C.decodePoint keyImage with
        | none => .error .badPoint
        | some image =>
            if image = 0 then .error .identityKeyImage
            else
              match (C.decodePoint sig.d).map C.mul8 with
              | none => .error .badPoint
              | some d =>
                  if d = 0 then .error .identityKeyImage
                  else
                    match (C.decodePoint cOffset).bind fun o => C.decodeRing o ring with
                    | none => .error .badPoint
                    | some decoded =>
                        let (muP, muC) := C.aggregationHashes ring keyImage sig.d cOffset
                        let pre := roundPrefix ring cOffset message
                        match C.clsagRounds pre muP muC image d c1 s decoded with
                        | none => .error .badSignature
                        | some c => if c = c1 then .ok () else .error .badSignature
    | _, _ => .error .nonCanonicalScalar

end Crypto

end Wownero
