import Wownero.Crypto
/-!
# Key derivation, subaddresses and hidden amounts

The derivations a sender and a receiver share, over the curve and the hash of `Crypto`.  Every
buffer is laid out byte by byte as it is hashed: the varint of an output index takes the bytes
it needs and no more, `"SubAddr"` is hashed with its terminating zero and `"view_tag"` without.
-/

namespace Wownero

open Wownero.Archive

abbrev SecretKey := Bytes32
abbrev KeyDerivation := Bytes32

/-- `[u8; 8]`: a payment id. -/
abbrev Hash8 := Vector UInt8 8

structure AccountPublicAddress where
  spendPublicKey : PublicKey
  viewPublicKey : PublicKey
  deriving DecidableEq, Repr

structure SubaddressIndex where
  major : UInt32
  minor : UInt32
  deriving DecidableEq, Repr

/-- `SubaddressIndex::MAIN`. -/
def SubaddressIndex.main : SubaddressIndex := ⟨0, 0⟩

def SubaddressIndex.isMain (i : SubaddressIndex) : Bool := i.major == 0 && i.minor == 0

namespace Crypto

variable (C : Crypto)

/-! ### Scalars as bytes -/

/-- `Scalar::to_bytes`. -/
def scalarBytes (s : Nat) : EcScalar := Bytes32.ofBytes (leBytes 32 s)

/-- `decode_scalar_unreduced`. -/
def reduceScalar (b : EcScalar) : Nat := leNat (Bytes32.toBytes b) % C.ell

/-- `sc_add`. -/
def scAdd (a b : EcScalar) : EcScalar :=
  scalarBytes ((C.reduceScalar a + C.reduceScalar b) % C.ell)

/-- `secret_key_to_public_key`. -/
def secretKeyToPublicKey (sec : SecretKey) : Option PublicKey :=
  (C.decodeScalar sec).map fun s => C.encodePoint (s • C.basepoint)

/-- `generate_key_image`. -/
def generateKeyImage (pub : PublicKey) (sec : SecretKey) : Option KeyImage := do
  let s ← C.decodeScalar sec
  let point ← C.hashToEcPoint pub
  return C.encodePoint (s • point)

/-! ### Derivations -/

/-- `generate_key_derivation`. -/
def generateKeyDerivation (pub : PublicKey) (sec : SecretKey) : Option KeyDerivation := do
  let s ← C.decodeScalar sec
  let p ← C.decodePoint pub
  return C.encodePoint (C.mul8 (s • p))

/-- `derivation_index_buf`: the part of it that is hashed. -/
def derivationIndexBuf (d : KeyDerivation) (outputIndex : Nat) : Blob :=
  writeArray32 d ++ writeVarint outputIndex

/-- `derivation_to_scalar_dalek`. -/
def derivationScalar (d : KeyDerivation) (outputIndex : Nat) : Nat :=
  C.hashToScalar (derivationIndexBuf d outputIndex)

/-- `derivation_to_scalar`. -/
def derivationToScalar (d : KeyDerivation) (outputIndex : Nat) : EcScalar :=
  scalarBytes (C.derivationScalar d outputIndex)

/-- `derive_public_key`. -/
def derivePublicKey (d : KeyDerivation) (outputIndex : Nat) (base : PublicKey) :
    Option PublicKey :=
  (C.decodePoint base).map fun b =>
    C.encodePoint (b + C.derivationScalar d outputIndex • C.basepoint)

/-- `derive_secret_key`. -/
def deriveSecretKey (d : KeyDerivation) (outputIndex : Nat) (base : SecretKey) : SecretKey :=
  C.scAdd base (C.derivationToScalar d outputIndex)

/-- `derive_subaddress_public_key`. -/
def deriveSubaddressPublicKey (outKey : PublicKey) (d : KeyDerivation) (outputIndex : Nat) :
    Option PublicKey :=
  (C.decodePoint outKey).map fun p =>
    C.encodePoint (p - C.derivationScalar d outputIndex • C.basepoint)

/-- `VIEW_TAG_SALT`. -/
def viewTagSalt : Blob := [0x76, 0x69, 0x65, 0x77, 0x5f, 0x74, 0x61, 0x67]

/-- `derive_view_tag`. -/
def deriveViewTag (d : KeyDerivation) (outputIndex : Nat) : UInt8 :=
  (Bytes32.toBytes (C.cnFastHash (viewTagSalt ++ derivationIndexBuf d outputIndex))).headD 0

/-! ### Subaddresses -/

/-- `HASH_KEY_SUBADDRESS`. -/
def hashKeySubaddress : Blob := [0x53, 0x75, 0x62, 0x41, 0x64, 0x64, 0x72, 0x00]

/-- `subaddress_secret_key`, as the scalar. -/
def subaddressScalar (viewSecret : SecretKey) (index : SubaddressIndex) : Nat :=
  C.hashToScalar (hashKeySubaddress ++ writeArray32 viewSecret
    ++ leBytes 4 index.major.toNat ++ leBytes 4 index.minor.toNat)

/-- `subaddress_secret_key`. -/
def subaddressSecretKey (viewSecret : SecretKey) (index : SubaddressIndex) : EcScalar :=
  scalarBytes (C.subaddressScalar viewSecret index)

/-- `get_subaddress`. -/
def getSubaddress (keys : AccountPublicAddress) (viewSecret : SecretKey)
    (index : SubaddressIndex) : Option AccountPublicAddress :=
  if index.isMain then some keys
  else do
    let m := C.reduceScalar (C.subaddressSecretKey viewSecret index)
    let b ← C.decodePoint keys.spendPublicKey
    let d := b + m • C.basepoint
    let a ← C.decodeScalar viewSecret
    return ⟨C.encodePoint d, C.encodePoint (a • d)⟩

/-! ### Payment ids and amounts -/

/-- `HASH_KEY_ENCRYPTED_PAYMENT_ID`. -/
def hashKeyEncryptedPaymentId : UInt8 := 0x8d

/-- The first eight bytes of a hash, as a key to combine with. -/
def firstEight (h : Hash256) : Hash8 := Vector.ofFn fun i => (Bytes32.toBytes h).getD i 0

/-- `encrypt_payment_id`, which is its own inverse. -/
def encryptPaymentId (pid : Hash8) (derivation : KeyDerivation) : Hash8 :=
  let key := firstEight (C.cnFastHash (writeArray32 derivation ++ [hashKeyEncryptedPaymentId]))
  pid.zipWith (· ^^^ ·) key

/-- `commit`: the Pedersen commitment to an amount under a mask. -/
def commit (amount mask : Nat) : EcPoint :=
  C.encodePoint (mask • C.basepoint + amount • C.hPoint)

/-- `COMMITMENT_MASK`. -/
def commitmentMaskSalt : Blob :=
  [0x63, 0x6f, 0x6d, 0x6d, 0x69, 0x74, 0x6d, 0x65, 0x6e, 0x74, 0x5f, 0x6d, 0x61, 0x73, 0x6b]

/-- `AMOUNT`. -/
def amountSalt : Blob := [0x61, 0x6d, 0x6f, 0x75, 0x6e, 0x74]

/-- `commitment_mask`. -/
def commitmentMask (sharedSec : EcScalar) : Nat :=
  C.hashToScalar (commitmentMaskSalt ++ writeArray32 sharedSec)

/-- `amount_pad`. -/
def amountPad (sharedSec : EcScalar) : List UInt8 :=
  (Bytes32.toBytes (C.cnFastHash (amountSalt ++ writeArray32 sharedSec))).take 8

/-- `ecdh_decode_short`. -/
def ecdhDecodeShort (amountField sharedSec : EcScalar) : Nat × Nat :=
  (leNat (List.zipWith (· ^^^ ·) ((Bytes32.toBytes amountField).take 8) (C.amountPad sharedSec)),
    C.commitmentMask sharedSec)

/-- The amount field of an output, encoded the short way. -/
def ecdhEncodeShort (amount : Nat) (sharedSec : EcScalar) : EcScalar :=
  Bytes32.ofBytes
    (List.zipWith (· ^^^ ·) (leBytes 8 amount) (C.amountPad sharedSec) ++ List.replicate 24 0)

/-- A difference of scalars. -/
def scalarSub (a b : Nat) : Nat := (a + (C.ell - b % C.ell)) % C.ell

/-- `ecdh_decode_legacy`. -/
def ecdhDecodeLegacy (maskField amountField sharedSec : EcScalar) : Option (Nat × Nat) := do
  let s1 := C.hashToScalar (writeArray32 sharedSec)
  let s2 := C.hashToScalar (writeArray32 (scalarBytes s1))
  let mask := C.scalarSub (← C.decodeScalar maskField) s1
  let amount := C.scalarSub (← C.decodeScalar amountField) s2
  return (leNat ((leBytes 32 amount).take 8), mask)

/-- `commitment_matches`. -/
def commitmentMatches (amount mask : Nat) (outPk : EcPoint) : Bool := C.commit amount mask == outPk

end Crypto

end Wownero
