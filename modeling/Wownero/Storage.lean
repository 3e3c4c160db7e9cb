import Wownero.Crypto
import Wownero.RankedTable
/-!
# The store

The tables of the database with the operations of its writer, `add_block` and `pop_block`, row
by row in the order the writer touches them.  Every id is an entry count taken at the moment the
row is written; no counter is stored.

A table whose rows sit under one zero key and are told apart by a prefix of the value is keyed
by that prefix here: writing an equal prefix again leaves the row that is there (`Table.add`).
A write transaction that fails leaves nothing behind, so a failed operation returns no store.
-/

namespace Wownero

/-! ### Records -/

/-- `mdb_block_info`. -/
structure BlockInfo where
  height : Nat
  timestamp : Nat
  coins : Nat
  weight : Nat
  cumulativeDifficulty : Nat
  hash : Hash256
  cumRct : Nat
  longTermBlockWeight : Nat
  deriving DecidableEq, Repr

structure TxIndex where
  txId : Nat
  unlockTime : Nat
  blockId : Nat
  deriving DecidableEq, Repr

structure OutTx where
  txHash : Hash256
  localIndex : Nat
  deriving DecidableEq, Repr

/-- An output as `output_amounts` keeps it, under its amount and the index within it. -/
structure OutKey where
  outputId : Nat
  pubkey : PublicKey
  unlockTime : Nat
  height : Nat
  commitment : Option EcPoint
  deriving DecidableEq, Repr

/-- `output_data_t`: an output as a ring member is read. -/
structure OutputData where
  pubkey : PublicKey
  unlockTime : Nat
  height : Nat
  commitment : EcPoint
  deriving DecidableEq, Repr

/-- `output_data`, with the commitment asked for: an output stored without one stands for its
    amount in the clear. -/
def outputData (C : Crypto) (k : OutKey) (amount : Nat) : OutputData :=
  ⟨k.pubkey, k.unlockTime, k.height, k.commitment.getD (C.zeroCommit amount)⟩

/-- `alt_block_data_t`. -/
structure AltBlockData where
  height : Nat
  cumulativeWeight : Nat
  cumulativeDifficulty : Nat
  alreadyGeneratedCoins : Nat
  deriving DecidableEq, Repr

/-- Why outputs cannot be stored. -/
inductive StoreError where
  | missingOutPk (index : Nat)
  | undecodableCommitment (index : Nat)
  deriving DecidableEq, Repr

inductive DbError where
  | notFound
  /-- A stored record does not have the length its type asks for. -/
  | wrongLength (expected found : Nat)
  /-- The offsets recorded on a transaction do not describe its blob. -/
  | offsetMismatch (blobLen prefixSize unprunableSize : Nat)
  | storeFailed (error : StoreError)
  | tipMismatch (what : String) (expected found : Nat)
  deriving DecidableEq, Repr

/-! ### Tables -/

/-- The twelve tables that hold the main chain. -/
structure MainTables where
  blocks : Table Nat Blob
  blockInfo : Table Nat BlockInfo
  blockHeights : Table Hash256 Nat
  hfVersions : Table Nat Nat
  txsPruned : Table Nat Blob
  txsPrunable : Table Nat Blob
  txsPrunableHash : Table Nat Hash256
  txIndices : Table Hash256 TxIndex
  txOutputs : Table Nat (List Nat)
  outputTxs : Table Nat OutTx
  outputAmounts : Table (Nat × Nat) OutKey
  spentKeys : Table KeyImage Unit
  deriving DecidableEq

/-- An empty database. -/
def MainTables.empty : MainTables :=
  ⟨.empty, .empty, .empty, .empty, .empty, .empty, .empty, .empty, .empty, .empty, .empty, .empty⟩

/-- The store: the main chain and the alternative blocks beside it. -/
structure Store where
  main : MainTables
  altBlocks : Table Hash256 (AltBlockData × Blob)
  deriving DecidableEq

def Store.empty : Store := ⟨.empty, .empty⟩

/-! ### Reading -/

namespace MainTables

/-- `height`: how many blocks there are. -/
def height (t : MainTables) : Nat := t.blocks.size

/-- `block_exists`. -/
def blockExists (t : MainTables) (h : Hash256) : Bool := t.blockHeights.has h

/-- A lookup whose absence is an error. -/
def orNotFound {α : Type} : Option α → Except DbError α
  | some a => .ok a
  | none => .error .notFound

/-- `get_block_info`. -/
def getBlockInfo (t : MainTables) (height : Nat) : Except DbError BlockInfo :=
  orNotFound (t.blockInfo.get height)

/-- `get_block_hash`. -/
def getBlockHash (t : MainTables) (height : Nat) : Except DbError Hash256 :=
  (t.getBlockInfo height).map (·.hash)

/-- `get_block_timestamp`. -/
def getBlockTimestamp (t : MainTables) (height : Nat) : Except DbError Nat :=
  (t.getBlockInfo height).map (·.timestamp)

/-- `get_block_long_term_weight`. -/
def getBlockLongTermWeight (t : MainTables) (height : Nat) : Except DbError Nat :=
  (t.getBlockInfo height).map (·.longTermBlockWeight)

/-- `get_block_height`. -/
def getBlockHeight (t : MainTables) (h : Hash256) : Except DbError Nat :=
  orNotFound (t.blockHeights.get h)

/-- `tx_exists`. -/
def txExists (t : MainTables) (h : Hash256) : Bool := t.txIndices.has h

/-- `get_tx_blob`. -/
def getTxBlob (t : MainTables) (h : Hash256) : Except DbError Blob := do
  let idx ← orNotFound (t.txIndices.get h)
  let pruned ← orNotFound (t.txsPruned.get idx.txId)
  return pruned ++ (t.txsPrunable.get idx.txId).getD []

/-- `has_key_image`. -/
def hasKeyImage (t : MainTables) (ki : KeyImage) : Bool := t.spentKeys.has ki

/-- `get_num_outputs`: how many outputs are filed under an amount. -/
def getNumOutputs (t : MainTables) (amount : Nat) : Nat :=
  t.outputAmounts.count fun key => key.1 == amount

/-- `get_output_keys` with `allow_partial` off, for outputs of one amount. -/
def getOutputKeys (C : Crypto) (t : MainTables) (amount : Nat) (offsets : List Nat) :
    Except DbError (List OutputData) :=
  offsets.mapM fun off => (orNotFound (t.outputAmounts.get (amount, off))).map fun k =>
    outputData C k amount

end MainTables

/-! ### Writing -/

/-- An output as it is stored: under which amount, with which commitment. -/
structure StoredOutput where
  amount : Nat
  commitment : Option EcPoint
  deriving DecidableEq, Repr

section Writer

variable (C : Crypto)

/-- What `stored_outputs` makes of the output at index `i`.  The outputs of a version-2 coinbase
    are filed under amount zero, like every RingCT output. -/
def storedOutput (tx : Transaction) (i : Nat) (o : TxOut) : Except StoreError StoredOutput :=
  let isMiner := match tx.txPrefix.vin with
    | .gen _ :: _ => true
    | _ => false
  if isMiner && tx.txPrefix.version == 2 then .ok ⟨0, some (C.zeroCommit o.amount)⟩
  else if tx.txPrefix.version > 1 then
    match tx.rctSignatures.outPk[i]? with
    | none => .error (.missingOutPk i)
    | some mask =>
        if tx.rctSignatures.ty = .bulletproofPlus then
          match C.scalarmult8 mask with
          | none => .error (.undecodableCommitment i)
          | some commitment => .ok ⟨o.amount, some commitment⟩
        else .ok ⟨o.amount, some mask⟩
  else .ok ⟨o.amount, none⟩

def storedOutputsFrom (tx : Transaction) : Nat → List TxOut → Except StoreError (List StoredOutput)
  | _, [] => .ok []
  | i, o :: os => do
    let s ← storedOutput C tx i o
    return s :: (← storedOutputsFrom tx (i + 1) os)

/-- `stored_outputs`. -/
def storedOutputs (tx : Transaction) : Except DbError (List StoredOutput) :=
  match storedOutputsFrom C tx 0 tx.txPrefix.vout with
  | .ok stored => .ok stored
  | .error e => .error (.storeFailed e)

/-- `add_output`: the amount index the output was given. -/
def addOutput (t : MainTables) (txHash : Hash256) (amount : Nat) (pubkey : PublicKey)
    (localIndex unlockTime height : Nat) (commitment : Option EcPoint) : Nat × MainTables :=
  let outputId := t.outputTxs.size
  let amountIndex := t.getNumOutputs amount
  (amountIndex,
    { t with
      outputTxs := t.outputTxs.add outputId ⟨txHash, localIndex⟩
      outputAmounts := t.outputAmounts.add (amount, amountIndex)
        ⟨outputId, pubkey, unlockTime, height, commitment⟩ })

/-- The loop over a transaction's outputs. -/
def addOutputs (txHash : Hash256) (unlockTime height : Nat) :
    Nat → List (StoredOutput × TxOut) → MainTables → Except DbError (List Nat × MainTables)
  | _, [], t => .ok ([], t)
  | i, (s, o) :: rest, t => do
    let pubkey ← MainTables.orNotFound o.target.publicKey
    let one := addOutput t txHash s.amount pubkey i unlockTime height s.commitment
    let others ← addOutputs txHash unlockTime height (i + 1) rest one.2
    return (one.1 :: others.1, others.2)

/-- `split_tx_blob`. -/
def splitTxBlob (blob : Blob) (unprunableSize : Nat) : Except DbError (Blob × Blob) :=
  if unprunableSize ≤ blob.length then .ok (blob.take unprunableSize, blob.drop unprunableSize)
  else .error (.wrongLength unprunableSize blob.length)

/-- The hash a transaction is stored under. -/
def storedTxHash (tx : Transaction) (blob : Blob) : Except DbError Hash256 :=
  match transactionHashFromBlob C.cnFastHash tx blob with
  | some h => .ok h
  | none => .error (.offsetMismatch blob.length tx.prefixSize tx.unprunableSize)

/-- The hash of a transaction's prunable half, for the versions that have one. -/
def addPrunableHash (hashes : Table Nat Hash256) (txId : Nat) (tx : Transaction) (blob : Blob) :
    Table Nat Hash256 :=
  if tx.txPrefix.version > 1 then
    match txPrunableHashFromBlob C.cnFastHash tx blob with
    | some h => hashes.put txId h
    | none => hashes
  else hashes

/-- The key images a transaction spends. -/
def addKeyImages (spent : Table KeyImage Unit) (images : List KeyImage) : Table KeyImage Unit :=
  images.foldl (fun keys ki => keys.add ki ()) spent

/-- `add_transaction`. -/
def addTransaction (t : MainTables) (height : Nat) (tx : Transaction) (blob : Blob) :
    Except DbError MainTables := do
  let txHash ← storedTxHash C tx blob
  let txId := t.txsPruned.size
  let halves ← splitTxBlob blob tx.unprunableSize
  let stored ← storedOutputs C tx
  let added ← addOutputs txHash tx.txPrefix.unlockTime height 0 (stored.zip tx.txPrefix.vout)
    { t with
      spentKeys := addKeyImages t.spentKeys tx.keyImages
      txsPruned := t.txsPruned.put txId halves.1
      txsPrunable := t.txsPrunable.put txId halves.2
      txsPrunableHash := addPrunableHash C t.txsPrunableHash txId tx blob
      txIndices := t.txIndices.add txHash ⟨txId, tx.txPrefix.unlockTime, height⟩ }
  return { added.2 with txOutputs := added.2.txOutputs.put txId added.1 }

def addTransactions (height : Nat) : List (Transaction × Blob) → MainTables →
    Except DbError MainTables
  | [], t => .ok t
  | (tx, blob) :: txs, t => do addTransactions height txs (← addTransaction C t height tx blob)

/-- The outputs a transaction brings to the RingCT total. -/
def rctOutputs (tx : Transaction) : Nat :=
  if tx.txPrefix.version = 2 then tx.txPrefix.vout.length else 0

/-- `cumulative_rct_outputs`. -/
def cumulativeRctOutputs (height : Nat) (blk : Block) (txs : List (Transaction × Blob))
    (previous : Nat) : Nat :=
  let n := rctOutputs blk.minerTx + (txs.map fun p => rctOutputs p.1).sum
  if height > 0 ∧ blk.header.majorVersion ≥ 4 then wrap64 (n + previous) else wrap64 n

/-- The RingCT total up to the tip. -/
def previousCumRct (t : MainTables) : Except DbError Nat :=
  if t.height > 0 then (t.getBlockInfo (t.height - 1)).map (·.cumRct) else .ok 0

/-- `Writer::add_block`.  The coinbase is added first. -/
def MainTables.addBlock (t : MainTables) (blk : Block) (blob : Blob)
    (weight longTermWeight cumulativeDifficulty coins : Nat) (txs : List (Transaction × Blob)) :
    Except DbError MainTables := do
  let height := t.blocks.size
  let hash ← MainTables.orNotFound (blk.blockId C.cnFastHash)
  let previous ← previousCumRct t
  let cumRct := cumulativeRctOutputs height blk txs previous
  let t ← addTransaction C t height blk.minerTx blk.minerTx.write
  let t ← addTransactions C height txs t
  return { t with
    blocks := t.blocks.put height blob
    blockInfo := t.blockInfo.add height
      ⟨height, blk.header.timestamp, coins, weight, cumulativeDifficulty, hash, cumRct,
        longTermWeight⟩
    blockHeights := t.blockHeights.add hash height
    hfVersions := t.hfVersions.put height blk.header.majorVersion }

/-! ### Removing -/

/-- One turn of the loop of `remove_transaction` over a transaction's outputs. -/
def removeOutput (t : MainTables) (amount amountIndex : Nat) : Except DbError MainTables := do
  let out ← MainTables.orNotFound (t.outputAmounts.get (amount, amountIndex))
  let total := t.outputTxs.size
  if out.outputId + 1 ≠ total then
    .error (.tipMismatch "pop_block: output_id is not the last one" (total - 1) out.outputId)
  else do
    let _ ← MainTables.orNotFound (t.outputTxs.get out.outputId)
    return { t with
      outputAmounts := t.outputAmounts.del (amount, amountIndex)
      outputTxs := t.outputTxs.del out.outputId }

/-- The loop itself, last output first. -/
def removeOutputs : List (StoredOutput × Option Nat) → MainTables → Except DbError MainTables
  | [], t => .ok t
  | (s, amountIndex) :: rest, t => do
    let t ← removeOutputs rest t
    removeOutput t s.amount (← MainTables.orNotFound amountIndex)

/-- A stored transaction, parsed. -/
def parseTransaction (blob : Blob) : Except DbError Transaction :=
  match Transaction.fromBlob blob with
  | .ok tx => .ok tx
  | .error _ => .error (.wrongLength 0 blob.length)

/-- A stored block, parsed. -/
def parseBlock (blob : Blob) : Except DbError Block :=
  match Block.fromBlob blob with
  | .ok blk => .ok blk
  | .error _ => .error (.wrongLength 0 blob.length)

/-- The key images a removed transaction had spent. -/
def delKeyImages (spent : Table KeyImage Unit) (images : List KeyImage) : Table KeyImage Unit :=
  images.foldl (fun keys ki => keys.del ki) spent

/-- `remove_transaction`: the transaction, rebuilt from its two halves. -/
def removeTransaction (t : MainTables) (txHash : Hash256) :
    Except DbError (Transaction × MainTables) := do
  let idx ← MainTables.orNotFound (t.txIndices.get txHash)
  let pruned ← MainTables.orNotFound (t.txsPruned.get idx.txId)
  let blob := pruned ++ (t.txsPrunable.get idx.txId).getD []
  let tx ← parseTransaction blob
  let indices ← MainTables.orNotFound (t.txOutputs.get idx.txId)
  let stored ← storedOutputs C tx
  let t ← removeOutputs (stored.zipIdx.map fun p => (p.1, indices[p.2]?)) t
  return (tx, { t with
    txOutputs := t.txOutputs.del idx.txId
    txIndices := t.txIndices.del txHash
    txsPruned := t.txsPruned.del idx.txId
    txsPrunable := t.txsPrunable.del idx.txId
    txsPrunableHash := t.txsPrunableHash.del idx.txId
    spentKeys := delKeyImages t.spentKeys tx.keyImages })

/-- The loop of `pop_block` over `tx_hashes`, last transaction first.  The transactions come out
    in block order. -/
def removeTransactions : List Hash256 → MainTables → Except DbError (List Transaction × MainTables)
  | [], t => .ok ([], t)
  | h :: hs, t => do
    let others ← removeTransactions hs t
    let one ← removeTransaction C others.2 h
    return (one.1 :: others.1, one.2)

/-- `Writer::pop_block`. -/
def MainTables.popBlock (t : MainTables) :
    Except DbError ((Block × List Transaction) × MainTables) :=
  if t.height = 0 then .error .notFound
  else do
    let tip := t.height - 1
    let blob ← MainTables.orNotFound (t.blocks.get tip)
    let blk ← parseBlock blob
    let popped ← removeTransactions C blk.txHashes t
    let minerHash ←
      MainTables.orNotFound (transactionHashFromBlob C.cnFastHash blk.minerTx blk.minerTx.write)
    let miner ← removeTransaction C popped.2 minerHash
    let info ← miner.2.getBlockInfo tip
    return ((blk, popped.1), { miner.2 with
      blockInfo := miner.2.blockInfo.del tip
      blockHeights := miner.2.blockHeights.del info.hash
      blocks := miner.2.blocks.del tip
      hfVersions := miner.2.hfVersions.del tip })

end Writer

/-! ### Alternative blocks -/

/-- `add_alt_block`. -/
def Store.addAltBlock (s : Store) (h : Hash256) (data : AltBlockData) (blob : Blob) : Store :=
  { s with altBlocks := s.altBlocks.put h (data, blob) }

/-- `remove_alt_block`. -/
def Store.removeAltBlock (s : Store) (h : Hash256) : Store :=
  { s with altBlocks := s.altBlocks.del h }

end Wownero
