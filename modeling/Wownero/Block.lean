import Wownero.Transaction
/-!
# Blocks and the hashes derived from them

The header, the block, the transaction id over the three regions of a blob, the Merkle root and
the block id, the transaction weight with its clawback, and the comparison of a proof of work
with a difficulty.

`cn_fast_hash` is a parameter throughout: nothing below depends on which function of the bytes
it is.
-/

namespace Wownero

open Wownero.Archive

variable (cnFastHash : Blob → Hash256)

/-! ### The tree hash -/

/-- `TREE_HASH_MAX_COUNT`. -/
def treeHashMaxCount : Nat := 0x10000000

def hashPair (a b : Hash256) : Hash256 := cnFastHash (writeArrays [a, b])

/-- The `while pow < count { pow <<= 1 }` of `tree_hash_cnt`. -/
def treeHashCntLoop (count : Nat) : Nat → Nat → Nat
  | 0, pow => pow
  | fuel + 1, pow => if pow < count then treeHashCntLoop count fuel (pow * 2) else pow

def treeHashCnt (count : Nat) : Nat := treeHashCntLoop count count 2 / 2

/-- One layer: the hash of each consecutive pair. -/
def hashPairs : List Hash256 → List Hash256
  | a :: b :: rest => hashPair cnFastHash a b :: hashPairs rest
  | _ => []

/-- The pairwise reduction down to the root. -/
def reduceTree : Nat → List Hash256 → Option Hash256
  | _, [a, b] => some (hashPair cnFastHash a b)
  | 0, _ => none
  | fuel + 1, ints => reduceTree fuel (hashPairs cnFastHash ints)

/-- `tree_hash`. -/
def treeHash (hashes : List Hash256) : Option Hash256 :=
  match hashes with
  | [] => none
  | [a] => some a
  | [a, b] => some (hashPair cnFastHash a b)
  | hashes =>
      if hashes.length > treeHashMaxCount then none
      else
        let cnt := treeHashCnt hashes.length
        let k := 2 * cnt - hashes.length
        reduceTree cnFastHash cnt (hashes.take k ++ hashPairs cnFastHash (hashes.drop k))

/-! ### Transaction hashes -/

/-- `tx_prefix_hash`. -/
def txPrefixHash (p : TransactionPrefix) : Hash256 := cnFastHash p.write

/-- `transaction_hash_from_blob`: version 1 hashes the blob, version 2 the hashes of the three
    regions the recorded offsets cut it into. -/
def transactionHashFromBlob (tx : Transaction) (blob : Blob) : Option Hash256 :=
  if tx.txPrefix.version = 1 then some (cnFastHash blob)
  else if blob.length < tx.unprunableSize ∨ tx.unprunableSize < tx.prefixSize then none
  else
    let h0 := cnFastHash (blob.take tx.prefixSize)
    let h1 := cnFastHash ((blob.take tx.unprunableSize).drop tx.prefixSize)
    let h2 :=
      if tx.rctSignatures.ty.isNull then nullHash else cnFastHash (blob.drop tx.unprunableSize)
    some (cnFastHash (writeArrays [h0, h1, h2]))

/-- `tx_prunable_hash_from_blob`. -/
def txPrunableHashFromBlob (tx : Transaction) (blob : Blob) : Option Hash256 :=
  if tx.rctSignatures.ty.isNull ∨ blob.length < tx.unprunableSize then none
  else some (cnFastHash (blob.drop tx.unprunableSize))

/-- `transaction_hash`: over a fresh serialization, with the offsets of that serialization. -/
def transactionHash (tx : Transaction) : Option Hash256 :=
  let blob := tx.write
  if tx.txPrefix.version = 1 then some (cnFastHash blob)
  else
    let prefixSize := tx.txPrefix.write.length
    let unprunableSize :=
      if tx.txPrefix.vin.isEmpty then prefixSize
      else (tx.txPrefix.write ++ tx.rctSignatures.writeBase).length
    transactionHashFromBlob cnFastHash
      { tx with prefixSize := prefixSize, unprunableSize := unprunableSize } blob

/-- The range proofs as `pre_mlsag_hash` flattens them. -/
def rangeProofKeys (rct : RctSignatures) : Blob :=
  if rct.ty.isBulletproofPlus then
    rct.bulletproofsPlus.flatMap fun p =>
      writeArrays ([p.a, p.a1, p.b, p.r1, p.s1, p.d1] ++ p.l ++ p.r)
  else if rct.ty.isBulletproof then
    rct.bulletproofs.flatMap fun p =>
      writeArrays ([p.a, p.s, p.t1, p.t2, p.taux, p.mu] ++ p.l ++ p.r ++ [p.aScalar, p.b, p.t])
  else
    rct.rangeSigs.flatMap fun r => writeArrays (r.asigS0 ++ r.asigS1 ++ [r.asigEe] ++ r.ci)

/-- `pre_mlsag_hash`: the message every ring signature of a transaction signs. -/
def preMlsagHash (message : Hash256) (rct : RctSignatures) : Hash256 :=
  cnFastHash (writeArrays
    [message, cnFastHash rct.writeBase, cnFastHash (rangeProofKeys rct)])

/-! ### The header and the block -/

/-- `HF_VERSION_BLOCK_HEADER_MINER_SIG`. -/
def hfVersionBlockHeaderMinerSig : Nat := 18

structure BlockHeader where
  majorVersion : Nat
  minorVersion : Nat
  timestamp : Nat
  prevId : Hash256
  nonce : Nat
  signature : Signature := Signature.zero
  vote : Nat := 0
  deriving DecidableEq, Repr

def BlockHeader.hardForkVote (h : BlockHeader) : Nat :=
  if h.minorVersion = 0 then 1 else h.minorVersion

def BlockHeader.hasMinerSignature (h : BlockHeader) : Bool :=
  h.majorVersion ≥ hfVersionBlockHeaderMinerSig

/-- `write_with_signature`: the miner signature is written as zero bytes when it is the thing
    being signed. -/
def BlockHeader.writeWithSignature (h : BlockHeader) (includeSignature : Bool) : Blob :=
  writeVarint h.majorVersion ++ writeVarint h.minorVersion ++ writeVarint h.timestamp
    ++ writeArray32 h.prevId ++ leBytes 4 h.nonce
    ++ (if h.hasMinerSignature then
          (if includeSignature then h.signature.toBytes else Signature.zero.toBytes)
            ++ leBytes 2 h.vote
        else [])

def BlockHeader.write (h : BlockHeader) : Blob := h.writeWithSignature true

def BlockHeader.read : Parse BlockHeader := do
  let majorVersion ← readVarintN 8
  let minorVersion ← readVarintN 8
  let timestamp ← readVarint
  let prevId ← readArray32
  let nonce ← readLe 4
  if majorVersion ≥ hfVersionBlockHeaderMinerSig then
    let signature ← readSignature
    return ⟨majorVersion, minorVersion, timestamp, prevId, nonce, signature, ← readLe 2⟩
  else return ⟨majorVersion, minorVersion, timestamp, prevId, nonce, Signature.zero, 0⟩

structure Block where
  header : BlockHeader
  minerTx : Transaction
  txHashes : List Hash256 := []
  deriving DecidableEq, Repr

/-- `Block::to_blob`. -/
def Block.toBlob (b : Block) : Blob :=
  b.header.write ++ b.minerTx.write ++ writeVarint b.txHashes.length ++ writeArrays b.txHashes

def Block.read : Parse Block := do
  let header ← BlockHeader.read
  let minerTx ← Transaction.read
  let n ← readVarint
  if n > cryptonoteMaxTxPerBlock then
    throw (.limitExceeded "tx_hashes > CRYPTONOTE_MAX_TX_PER_BLOCK")
  if n > (← remaining) / 32 then throw .unexpectedEof
  return ⟨header, minerTx, ← readMany readArray32 n⟩

/-- `Block::from_blob`. -/
def Block.fromBlob (blob : Blob) : Except Error Block := parse Block.read blob

/-- `Block::tx_tree_hash`. -/
def Block.txTreeHash (b : Block) : Option Hash256 := do
  treeHash cnFastHash ((← transactionHash cnFastHash b.minerTx) :: b.txHashes)

def Block.hashingBlobInner (b : Block) (includeSignature : Bool) : Option Blob := do
  let root ← b.txTreeHash cnFastHash
  return b.header.writeWithSignature includeSignature ++ writeArray32 root
    ++ writeVarint (b.txHashes.length + 1)

/-- `Block::hashing_blob`: what the proof of work is computed over. -/
def Block.hashingBlob (b : Block) : Option Blob := b.hashingBlobInner cnFastHash true

/-- `Block::block_id`: the hash of the hashing blob behind its own length. -/
def Block.blockId (b : Block) : Option Hash256 := do
  let blob ← b.hashingBlob cnFastHash
  return cnFastHash (writeBytesPrefixed blob)

/-- `Block::sig_data`: what the miner signs from version 18 on. -/
def Block.sigData (b : Block) : Option Hash256 :=
  if b.header.hasMinerSignature then (b.hashingBlobInner cnFastHash false).map cnFastHash
  else none

/-! ### Weight -/

/-- The `while (1 << nlr) < n_padded_outputs` of the clawback. -/
def clawbackNlr (nPadded : Nat) : Nat → Nat → Nat
  | 0, nlr => nlr
  | fuel + 1, nlr => if 2 ^ nlr < nPadded then clawbackNlr nPadded fuel (nlr + 1) else nlr

/-- `clawback`. -/
def clawback (ty : RctType) (nPadded : Nat) : Nat :=
  let fields := if ty.isBulletproofPlus then 6 else 9
  let bpBase := 32 * (fields + 7 * 2) / 2
  if nPadded ≤ 2 then 0
  else
    let nlr := clawbackNlr nPadded 64 0 + 6
    let bpSize := 32 * (fields + 2 * nlr)
    wrap64 ((saturatingMul bpBase nPadded - bpSize) * 4) / 5

/-- `get_transaction_weight`. -/
def getTransactionWeight (tx : Transaction) (blobSize : Nat) : Nat :=
  let ty := tx.rctSignatures.ty
  if tx.txPrefix.version < 2 then blobSize
  else if !ty.isBulletproof && !ty.isBulletproofPlus then blobSize
  else if tx.txPrefix.vout.length ≤ 2 then blobSize
  else if ty.isOldBulletproof then blobSize
  else
    match tx.rctSignatures.nPaddedOutputs with
    | none => blobSize
    | some nPadded => wrap64 (blobSize + clawback ty nPadded)

/-! ### The proof-of-work comparison -/

/-- One row of the schoolbook product: `prod[i + j] += h[j] * d`, with its carries, into the
    limbs from `i` on.  `none` is a carry out of the last limb. -/
def mulRow (d : Nat) : List Nat → List Nat → Nat → Option (List Nat)
  | [], [], carry => if carry = 0 then some [] else none
  | [], p :: ps, carry =>
      if carry = 0 then some (p :: ps)
      else do return (p + carry) % 2 ^ 64 :: (← mulRow d [] ps ((p + carry) / 2 ^ 64))
  | _ :: _, [], _ => none
  | h :: hs, p :: ps, carry => do
      let cur := p + h * d + carry
      return cur % 2 ^ 64 :: (← mulRow d hs ps (cur / 2 ^ 64))

/-- `mul_256_by_128_fits`: whether the product of the little-endian hash and the difficulty
    stays below `2^256`. -/
def mul256By128Fits (hash : Hash256) (difficulty : Nat) : Bool :=
  let le := leNat (Bytes32.toBytes hash)
  let h := [le % 2 ^ 64, le / 2 ^ 64 % 2 ^ 64, le / 2 ^ 128 % 2 ^ 64, le / 2 ^ 192 % 2 ^ 64]
  let d0 := difficulty % 2 ^ 64
  let d1 := difficulty / 2 ^ 64 % 2 ^ 64
  let prod : Option (List Nat) := do
    let prod ← if d0 = 0 then some [0, 0, 0, 0, 0, 0] else mulRow d0 h [0, 0, 0, 0, 0, 0] 0
    if d1 = 0 then some prod
    else return prod.take 1 ++ (← mulRow d1 h (prod.drop 1) 0)
  match prod with
  | none => false
  | some prod => prod.drop 4 == [0, 0]

/-- `check_hash`. -/
def checkHash (hash : Hash256) (difficulty : Nat) : Bool :=
  if difficulty = 0 then false else mul256By128Fits hash difficulty

/-- `BlockEntry`: a block as a peer sends it. -/
structure BlockEntry where
  block : Blob
  txs : List Blob
  blockWeight : Nat
  deriving DecidableEq, Repr

end Wownero
