import Wownero.Archive
/-!
# Transactions

Inputs, outputs, the prefix, the RingCT signatures and the whole transaction, with the layout
each has in the binary archive.  There is no framing: the order of the fields is the format, and
the lengths inside the prunable half come from the already parsed prefix.
-/

namespace Wownero

open Wownero.Archive

/-! ### Limits -/

/-- `CURRENT_TRANSACTION_VERSION`. -/
def currentTransactionVersion : Nat := 2

/-- `CRYPTONOTE_MAX_TX_PER_BLOCK`. -/
def cryptonoteMaxTxPerBlock : Nat := 0x10000000

/-- `RCT_DIM_MAX`. -/
def rctDimMax : Nat := 0xffffffff

/-! ### Inputs and outputs -/

/-- `txout_target_v`. -/
inductive TxOutTarget where
  | toKey (key : PublicKey)
  | toTaggedKey (key : PublicKey) (viewTag : UInt8)
  | toScript (keys : List PublicKey) (script : Blob)
  | toScriptHash (hash : Hash256)
  deriving DecidableEq, Repr

/-- `TxOutTarget::public_key`. -/
def TxOutTarget.publicKey : TxOutTarget → Option PublicKey
  | .toKey key => some key
  | .toTaggedKey key _ => some key
  | _ => none

def TxOutTarget.write : TxOutTarget → Blob
  | .toKey key => 0x02 :: writeArray32 key
  | .toTaggedKey key viewTag => 0x03 :: writeArray32 key ++ [viewTag]
  | .toScript keys script =>
      0x00 :: writeVarint keys.length ++ writeArrays keys ++ writeBytesPrefixed script
  | .toScriptHash hash => 0x01 :: writeArray32 hash

def TxOutTarget.read : Parse TxOutTarget := do
  let tag ← readU8
  if tag = 0x02 then return .toKey (← readArray32)
  else if tag = 0x03 then
    let key ← readArray32
    return .toTaggedKey key (← readU8)
  else if tag = 0x00 then
    let n ← readLen ((← remaining) / 32) "txout keys"
    let keys ← readMany readArray32 n
    return .toScript keys (← readBytesPrefixed (← remaining) "script")
  else if tag = 0x01 then return .toScriptHash (← readArray32)
  else throw (.unknownVariantTag tag)

/-- `txin_v`. -/
inductive TxIn where
  | gen (height : Nat)
  | toKey (amount : Nat) (keyOffsets : List Nat) (kImage : KeyImage)
  | toScript (prev : Hash256) (prevout : Nat) (sigset : Blob)
  | toScriptHash (prev : Hash256) (prevout : Nat) (script : TxOutTarget) (sigset : Blob)
  deriving DecidableEq, Repr

/-- `TxIn::signature_size`: how many signatures a version-1 transaction carries for the
    input. -/
def TxIn.signatureSize : TxIn → Nat
  | .toKey _ keyOffsets _ => keyOffsets.length
  | _ => 0

/-- The running sum of relative offsets, which refuses to leave `u64`. -/
def absoluteOffsetsFrom : Nat → List Nat → Option (List Nat)
  | _, [] => some []
  | acc, rel :: rels => do
    let next ← checkedAdd acc rel
    return next :: (← absoluteOffsetsFrom next rels)

/-- `TxIn::absolute_key_offsets`.  The first offset is taken as it stands. -/
def TxIn.absoluteKeyOffsets : TxIn → Option (List Nat)
  | .toKey _ [] _ => some []
  | .toKey _ (first :: rels) _ => do return first :: (← absoluteOffsetsFrom first rels)
  | _ => none

def TxIn.write : TxIn → Blob
  | .gen height => 0xff :: writeVarint height
  | .toKey amount keyOffsets kImage =>
      0x02 :: writeVarint amount ++ writeVarint keyOffsets.length
        ++ keyOffsets.flatMap writeVarint ++ writeArray32 kImage
  | .toScript prev prevout sigset =>
      0x00 :: writeArray32 prev ++ writeVarint prevout ++ writeBytesPrefixed sigset
  | .toScriptHash prev prevout script sigset =>
      0x01 :: writeArray32 prev ++ writeVarint prevout ++ script.write
        ++ writeBytesPrefixed sigset

def TxIn.read : Parse TxIn := do
  let tag ← readU8
  if tag = 0xff then return .gen (← readVarint)
  else if tag = 0x02 then
    let amount ← readVarint
    let n ← readLen (← remaining) "key_offsets"
    let keyOffsets ← readMany readVarint n
    return .toKey amount keyOffsets (← readArray32)
  else if tag = 0x00 then
    let prev ← readArray32
    let prevout ← readVarint
    return .toScript prev prevout (← readBytesPrefixed (← remaining) "sigset")
  else if tag = 0x01 then
    let prev ← readArray32
    let prevout ← readVarint
    let script ← TxOutTarget.read
    return .toScriptHash prev prevout script (← readBytesPrefixed (← remaining) "sigset")
  else throw (.unknownVariantTag tag)

structure TxOut where
  amount : Nat
  target : TxOutTarget
  deriving DecidableEq, Repr

def TxOut.write (o : TxOut) : Blob := writeVarint o.amount ++ o.target.write

def TxOut.read : Parse TxOut := do
  let amount ← readVarint
  return ⟨amount, ← TxOutTarget.read⟩

/-! ### The prefix -/

structure TransactionPrefix where
  version : Nat
  unlockTime : Nat
  vin : List TxIn
  vout : List TxOut
  extra : Blob
  deriving DecidableEq, Repr

def TransactionPrefix.write (p : TransactionPrefix) : Blob :=
  writeVarint p.version ++ writeVarint p.unlockTime
    ++ writeVarint p.vin.length ++ p.vin.flatMap TxIn.write
    ++ writeVarint p.vout.length ++ p.vout.flatMap TxOut.write
    ++ writeBytesPrefixed p.extra

def TransactionPrefix.read : Parse TransactionPrefix := do
  let version ← readVarint
  if version = 0 ∨ version > currentTransactionVersion then
    throw (.invalidValue "transaction version")
  let unlockTime ← readVarint
  let nVin ← readLen (← remaining) "vin"
  let vin ← readMany TxIn.read nVin
  let nVout ← readLen (← remaining) "vout"
  let vout ← readMany TxOut.read nVout
  let extra ← readBytesPrefixed (← remaining) "tx_extra"
  return ⟨version, unlockTime, vin, vout, extra⟩

/-! ### RingCT -/

/-- `rctSig.type`. -/
inductive RctType where
  | null
  | full
  | simple
  | fullBulletproof
  | simpleBulletproof
  | bulletproof
  | bulletproof2
  | clsag
  | bulletproofPlus
  | bulletproofPlusFullCommit
  deriving DecidableEq, Repr

/-- `self.ty as u8`. -/
def RctType.toU8 : RctType → UInt8
  | .null => 0
  | .full => 1
  | .simple => 2
  | .fullBulletproof => 3
  | .simpleBulletproof => 4
  | .bulletproof => 5
  | .bulletproof2 => 6
  | .clsag => 7
  | .bulletproofPlus => 8
  | .bulletproofPlusFullCommit => 9

/-- `RctType::from_u8`. -/
def RctType.fromU8 (v : UInt8) : Parse RctType :=
  match v.toNat with
  | 0 => return .null
  | 1 => return .full
  | 2 => return .simple
  | 3 => return .fullBulletproof
  | 4 => return .simpleBulletproof
  | 5 => return .bulletproof
  | 6 => return .bulletproof2
  | 7 => return .clsag
  | 8 => return .bulletproofPlus
  | 9 => return .bulletproofPlusFullCommit
  | _ => throw (.invalidValue "unknown RCT type")

def RctType.isNull (ty : RctType) : Bool := ty == .null

def RctType.isBulletproof : RctType → Bool
  | .fullBulletproof | .simpleBulletproof | .bulletproof | .bulletproof2 | .clsag => true
  | _ => false

def RctType.isBulletproofPlus : RctType → Bool
  | .bulletproofPlus | .bulletproofPlusFullCommit => true
  | _ => false

def RctType.isOldBulletproof : RctType → Bool
  | .fullBulletproof | .simpleBulletproof => true
  | _ => false

def RctType.isClsag : RctType → Bool
  | .clsag | .bulletproofPlus | .bulletproofPlusFullCommit => true
  | _ => false

def RctType.isBpPlusLegacy (ty : RctType) : Bool := ty == .bulletproofPlus

def RctType.hasShortEcdh : RctType → Bool
  | .bulletproof2 | .clsag | .bulletproofPlus | .bulletproofPlusFullCommit => true
  | _ => false

def RctType.hasPrunablePseudoOuts : RctType → Bool
  | .simpleBulletproof | .bulletproof | .bulletproof2 | .clsag | .bulletproofPlus
  | .bulletproofPlusFullCommit => true
  | _ => false

/-- The types whose MLSAG is one per input, over two columns. -/
def RctType.isSimpleMg : RctType → Bool
  | .simple | .bulletproof | .bulletproof2 | .simpleBulletproof => true
  | _ => false

def RctType.mgElements (ty : RctType) (inputs : Nat) : Nat :=
  if ty.isSimpleMg then inputs else 1

def RctType.mgSs2 (ty : RctType) (inputs : Nat) : Nat :=
  if ty.isSimpleMg then 2 else inputs + 1

structure EcdhInfo where
  mask : EcScalar
  amount : EcScalar
  deriving DecidableEq, Repr

structure Bulletproof where
  a : EcPoint
  s : EcPoint
  t1 : EcPoint
  t2 : EcPoint
  taux : EcScalar
  mu : EcScalar
  l : List EcPoint
  r : List EcPoint
  aScalar : EcScalar
  b : EcScalar
  t : EcScalar
  deriving DecidableEq, Repr

structure BulletproofPlus where
  a : EcPoint
  a1 : EcPoint
  b : EcPoint
  r1 : EcScalar
  s1 : EcScalar
  d1 : EcScalar
  l : List EcPoint
  r : List EcPoint
  deriving DecidableEq, Repr

/-- `max_amounts` of either range proof: `2^(L.len() - 6)`, when that is a `usize`. -/
def maxAmounts (l : List EcPoint) : Option Nat := do
  let n ← checkedSub l.length 6
  if n ≥ 64 then none else some (2 ^ n)

structure RangeSig where
  asigS0 : List EcScalar
  asigS1 : List EcScalar
  asigEe : EcScalar
  ci : List EcPoint
  deriving DecidableEq, Repr

structure Clsag where
  s : List EcScalar
  c1 : EcScalar
  d : EcPoint
  deriving DecidableEq, Repr

structure MgSig where
  ss : List (List EcScalar)
  cc : EcScalar
  deriving DecidableEq, Repr

/-- `rctSigBase` and `rctSigPrunable` together. -/
structure RctSignatures where
  ty : RctType := .null
  txnFee : Nat := 0
  pseudoOutsBase : List EcPoint := []
  ecdhInfo : List EcdhInfo := []
  outPk : List EcPoint := []
  rangeSigs : List RangeSig := []
  bulletproofs : List Bulletproof := []
  bulletproofsPlus : List BulletproofPlus := []
  mgs : List MgSig := []
  clsags : List Clsag := []
  pseudoOuts : List EcPoint := []
  deriving DecidableEq, Repr

/-! ### RingCT on the wire -/

def readPointVec (what : String) : Parse (List EcPoint) := do
  let n ← readLen ((← remaining) / 32) what
  readMany readArray32 n

def writePointVec (v : List EcPoint) : Blob := writeVarint v.length ++ writeArrays v

def readBulletproof : Parse Bulletproof := do
  let a ← readArray32
  let s ← readArray32
  let t1 ← readArray32
  let t2 ← readArray32
  let taux ← readArray32
  let mu ← readArray32
  let l ← readPointVec "bp.L"
  let r ← readPointVec "bp.R"
  let aScalar ← readArray32
  let b ← readArray32
  let t ← readArray32
  return ⟨a, s, t1, t2, taux, mu, l, r, aScalar, b, t⟩

def writeBulletproof (p : Bulletproof) : Blob :=
  writeArrays [p.a, p.s, p.t1, p.t2, p.taux, p.mu] ++ writePointVec p.l ++ writePointVec p.r
    ++ writeArrays [p.aScalar, p.b, p.t]

def readBulletproofPlus : Parse BulletproofPlus := do
  let a ← readArray32
  let a1 ← readArray32
  let b ← readArray32
  let r1 ← readArray32
  let s1 ← readArray32
  let d1 ← readArray32
  let l ← readPointVec "bpp.L"
  let r ← readPointVec "bpp.R"
  return ⟨a, a1, b, r1, s1, d1, l, r⟩

def writeBulletproofPlus (p : BulletproofPlus) : Blob :=
  writeArrays [p.a, p.a1, p.b, p.r1, p.s1, p.d1] ++ writePointVec p.l ++ writePointVec p.r

/-- Borromean: fixed arrays of sixty-four, with no length in front. -/
def readRangeSig : Parse RangeSig := do
  let asigS0 ← readMany readArray32 64
  let asigS1 ← readMany readArray32 64
  let asigEe ← readArray32
  let ci ← readMany readArray32 64
  return ⟨asigS0, asigS1, asigEe, ci⟩

def writeRangeSig (rs : RangeSig) : Blob :=
  writeArrays rs.asigS0 ++ writeArrays rs.asigS1 ++ writeArray32 rs.asigEe ++ writeArrays rs.ci

/-- One entry of `ecdhInfo`: eight bytes of amount for the short types, mask and amount in full
    for the others. -/
def readEcdhInfo (ty : RctType) : Parse EcdhInfo := do
  if ty.hasShortEcdh then
    let amount ← take 8
    return ⟨0, Bytes32.ofBytes (amount ++ List.replicate 24 0)⟩
  else
    let mask ← readArray32
    return ⟨mask, ← readArray32⟩

def writeEcdhInfo (ty : RctType) (e : EcdhInfo) : Blob :=
  if ty.hasShortEcdh then (Bytes32.toBytes e.amount).take 8
  else writeArray32 e.mask ++ writeArray32 e.amount

/-- `RctSignatures::read_base`. -/
def RctSignatures.readBase (inputs outputs : Nat) : Parse RctSignatures := do
  let ty ← RctType.fromU8 (← readU8)
  if ty.isNull then return { ty := ty }
  let txnFee ← readVarint
  let pseudoOutsBase ← if ty = .simple then readMany readArray32 inputs else pure []
  let ecdhInfo ← readMany (readEcdhInfo ty) outputs
  let outPk ← readMany readArray32 outputs
  return { ty := ty, txnFee := txnFee, pseudoOutsBase := pseudoOutsBase,
           ecdhInfo := ecdhInfo, outPk := outPk }

/-- `RctSignatures::write_base`. -/
def RctSignatures.writeBase (rv : RctSignatures) : Blob :=
  if rv.ty.isNull then [rv.ty.toU8]
  else
    rv.ty.toU8 :: writeVarint rv.txnFee
      ++ (if rv.ty = .simple then writeArrays rv.pseudoOutsBase else [])
      ++ rv.ecdhInfo.flatMap (writeEcdhInfo rv.ty)
      ++ writeArrays rv.outPk

/-- The count in front of an aggregated range proof: a raw `u32` for type 5 alone, a varint of
    thirty-two bits for the others. -/
def readProofCount (ty : RctType) (outputs : Nat) : Parse Nat := do
  let nbp ← if ty = .bulletproof then readLe 4 else readVarintN 32
  if nbp > outputs then throw (.limitExceeded "nbp > outputs")
  return nbp

/-- The sum of `max_amounts().unwrap_or(0)`, in `usize`. -/
def totalMaxAmounts (ls : List (List EcPoint)) : Nat :=
  wrap64 (ls.map fun l => (maxAmounts l).getD 0).sum

/-- `RctSignatures::read_range_proofs`. -/
def RctSignatures.readRangeProofs (rv : RctSignatures) (outputs : Nat) : Parse RctSignatures := do
  match rv.ty with
  | .simpleBulletproof | .fullBulletproof =>
      return { rv with bulletproofs := ← readMany readBulletproof outputs }
  | .bulletproofPlus | .bulletproofPlusFullCommit =>
      let nbp ← readProofCount rv.ty outputs
      let proofs ← readMany readBulletproofPlus nbp
      if totalMaxAmounts (proofs.map (·.l)) < outputs then
        throw (.limitExceeded "n_bulletproof_plus_max_amounts < outputs")
      return { rv with bulletproofsPlus := proofs }
  | .bulletproof | .bulletproof2 | .clsag =>
      let nbp ← readProofCount rv.ty outputs
      let proofs ← readMany readBulletproof nbp
      if totalMaxAmounts (proofs.map (·.l)) < outputs then
        throw (.limitExceeded "n_bulletproof_max_amounts < outputs")
      return { rv with bulletproofs := proofs }
  | .full | .simple => return { rv with rangeSigs := ← readMany readRangeSig outputs }
  | .null => return rv

def readClsag (mixin : Nat) : Parse Clsag := do
  let s ← readMany readArray32 (mixin + 1)
  let c1 ← readArray32
  return ⟨s, c1, ← readArray32⟩

def readMgSig (ss2 mixin : Nat) : Parse MgSig := do
  let ss ← readMany (readMany readArray32 ss2) (mixin + 1)
  return ⟨ss, ← readArray32⟩

/-- `RctSignatures::read_ring_sigs`. -/
def RctSignatures.readRingSigs (rv : RctSignatures) (inputs mixin : Nat) :
    Parse RctSignatures := do
  if rv.ty.isClsag then return { rv with clsags := ← readMany (readClsag mixin) inputs }
  else if rv.ty.isNull then return rv
  else
    let mgs ← readMany (readMgSig (rv.ty.mgSs2 inputs) mixin) (rv.ty.mgElements inputs)
    return { rv with mgs := mgs }

/-- `RctSignatures::read_prunable`. -/
def RctSignatures.readPrunable (rv : RctSignatures) (inputs outputs mixin : Nat) :
    Parse RctSignatures := do
  let rv ← rv.readRangeProofs outputs
  let rv ← rv.readRingSigs inputs mixin
  if rv.ty.hasPrunablePseudoOuts then
    return { rv with pseudoOuts := ← readMany readArray32 inputs }
  else return rv

def writeClsag (c : Clsag) : Blob := writeArrays c.s ++ writeArray32 c.c1 ++ writeArray32 c.d

def writeMgSig (m : MgSig) : Blob := m.ss.flatMap writeArrays ++ writeArray32 m.cc

/-- The range proofs as `write_prunable` lays them out. -/
def RctSignatures.writeRangeProofs (rv : RctSignatures) : Blob :=
  match rv.ty with
  | .simpleBulletproof | .fullBulletproof => rv.bulletproofs.flatMap writeBulletproof
  | .bulletproofPlus | .bulletproofPlusFullCommit =>
      writeVarint rv.bulletproofsPlus.length ++ rv.bulletproofsPlus.flatMap writeBulletproofPlus
  | .bulletproof =>
      leBytes 4 rv.bulletproofs.length ++ rv.bulletproofs.flatMap writeBulletproof
  | .bulletproof2 | .clsag =>
      writeVarint rv.bulletproofs.length ++ rv.bulletproofs.flatMap writeBulletproof
  | .full | .simple => rv.rangeSigs.flatMap writeRangeSig
  | .null => []

/-- `RctSignatures::write_prunable`. -/
def RctSignatures.writePrunable (rv : RctSignatures) : Blob :=
  if rv.ty.isNull then []
  else
    rv.writeRangeProofs
      ++ (if rv.ty.isClsag then rv.clsags.flatMap writeClsag else rv.mgs.flatMap writeMgSig)
      ++ (if rv.ty.hasPrunablePseudoOuts then writeArrays rv.pseudoOuts else [])

/-- `try_fold` of `max_amounts` with `checked_add`. -/
def sumMaxAmounts : List (List EcPoint) → Nat → Option Nat
  | [], acc => some acc
  | l :: ls, acc => do
    let n ← maxAmounts l
    sumMaxAmounts ls (← checkedAdd acc n)

/-- `RctSignatures::n_padded_outputs`. -/
def RctSignatures.nPaddedOutputs (rv : RctSignatures) : Option Nat :=
  if rv.ty.isBulletproofPlus then sumMaxAmounts (rv.bulletproofsPlus.map (·.l)) 0
  else if rv.ty.isBulletproof then sumMaxAmounts (rv.bulletproofs.map (·.l)) 0
  else none

/-! ### The transaction -/

/-- A transaction, with the two region offsets recorded while it was parsed. -/
structure Transaction where
  txPrefix : TransactionPrefix
  signatures : List (List Signature) := []
  rctSignatures : RctSignatures := {}
  prefixSize : Nat := 0
  unprunableSize : Nat := 0
  deriving DecidableEq, Repr

/-- `vin[0].key_offsets.size() - 1` in `usize`: an empty ring wraps round to `usize::MAX`. -/
def mixinOf (vin : List TxIn) : Nat :=
  match vin with
  | .toKey _ keyOffsets _ :: _ => wrap64 (keyOffsets.length + u64Max)
  | _ => 0

/-- `Transaction::read`: the full read of `read_parts`. -/
def Transaction.read : Parse Transaction := do
  let start ← pos
  let p ← TransactionPrefix.read
  let prefixSize := (← pos) - start
  if p.version = 1 then
    let signatures ← p.vin.mapM fun input => readMany readSignature input.signatureSize
    return ⟨p, signatures, {}, prefixSize, prefixSize⟩
  else if p.vin.isEmpty then
    return ⟨p, [], {}, prefixSize, prefixSize⟩
  else
    let inputs := p.vin.length
    let outputs := p.vout.length
    let mixin := mixinOf p.vin
    if inputs ≥ rctDimMax ∨ outputs ≥ rctDimMax ∨ mixin ≥ rctDimMax then
      throw (.limitExceeded "rct dimension")
    let base ← RctSignatures.readBase inputs outputs
    let unprunableSize := (← pos) - start
    let rv ← if base.ty.isNull then pure base else base.readPrunable inputs outputs mixin
    return ⟨p, [], rv, prefixSize, unprunableSize⟩

/-- The first half of `expand`: one aggregated Bulletproof+ that covers every output. -/
def expandBulletproofPlus (rv : RctSignatures) (nOutputs : Nat) : Except Error Unit :=
  if rv.ty.isBulletproofPlus then
    match rv.bulletproofsPlus with
    | [bp] =>
        if bp.l.length < 6 then .error (.invalidValue "bulletproofs_plus[0].L.len() < 6")
        else
          match maxAmounts bp.l with
          | none => .error (.limitExceeded "bpp max_amounts")
          | some max =>
              if max < nOutputs then .error (.limitExceeded "bpp max outputs < vout") else .ok ()
    | _ => .error (.invalidValue "bulletproofs_plus.len() != 1")
  else .ok ()

/-- The same for types 5, 6 and 7; only type 5 has its capacity compared again. -/
def expandBulletproof (rv : RctSignatures) (nOutputs : Nat) : Except Error Unit :=
  if rv.ty = .bulletproof ∨ rv.ty = .bulletproof2 ∨ rv.ty = .clsag then
    match rv.bulletproofs with
    | [bp] =>
        if bp.l.length < 6 then .error (.invalidValue "bulletproofs[0].L.len() < 6")
        else if rv.ty = .bulletproof then
          match maxAmounts bp.l with
          | none => .error (.limitExceeded "bp max_amounts")
          | some max =>
              if max < nOutputs then .error (.limitExceeded "bp max outputs < vout") else .ok ()
        else .ok ()
    | _ => .error (.invalidValue "bulletproofs.len() != 1")
  else .ok ()

/-- `Transaction::expand`. -/
def Transaction.expand (tx : Transaction) : Except Error Unit := do
  if tx.txPrefix.version < 2 then return
  let rv := tx.rctSignatures
  let nOutputs := tx.txPrefix.vout.length
  expandBulletproofPlus rv nOutputs
  expandBulletproof rv nOutputs
  if !rv.ty.isNull && rv.outPk.length != nOutputs then
    throw (.invalidValue "outPk.len() != vout.len()")

/-- `Transaction::from_blob`. -/
def Transaction.fromBlob (blob : Blob) : Except Error Transaction := do
  let tx ← parse Transaction.read blob
  tx.expand
  return tx

/-- `Transaction::write`. -/
def Transaction.write (tx : Transaction) : Blob :=
  tx.txPrefix.write ++
    (if tx.txPrefix.version = 1 then tx.signatures.flatMap fun row => row.flatMap Signature.toBytes
     else if tx.txPrefix.vin.isEmpty then []
     else tx.rctSignatures.writeBase ++
       (if tx.rctSignatures.ty.isNull then [] else tx.rctSignatures.writePrunable))

/-- The amount an input brings to a version-1 sum. -/
def TxIn.spentAmount : TxIn → Nat
  | .toKey amount _ _ => amount
  | _ => 0

/-- A `checked_add` over a list, from an accumulator. -/
def checkedSum : Nat → List Nat → Option Nat
  | acc, [] => some acc
  | acc, a :: as => do checkedSum (← checkedAdd acc a) as

/-- `Transaction::fee`. -/
def Transaction.fee (tx : Transaction) : Option Nat :=
  if tx.txPrefix.version = 1 then do
    let inputSum ← checkedSum 0 (tx.txPrefix.vin.map TxIn.spentAmount)
    let outputSum ← checkedSum 0 (tx.txPrefix.vout.map (·.amount))
    checkedSub inputSum outputSum
  else some tx.rctSignatures.txnFee

/-- The key images a transaction spends, in input order. -/
def Transaction.keyImages (tx : Transaction) : List KeyImage :=
  tx.txPrefix.vin.filterMap fun
    | .toKey _ _ kImage => some kImage
    | _ => none

end Wownero
