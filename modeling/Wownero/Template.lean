import Wownero.Chain
import Wownero.Keys
import Wownero.Mempool
/-!
# Block templates

A block on the tip, without a nonce: its timestamp, the transactions that pay for their place in it
and a coinbase to one address.

The reward falls with the weight of the block, the weight has the coinbase in it, and the size of the
coinbase is that of the amount it pays.  So the coinbase is built again and again, each time for the
weight measured before, until that weight does not move.
-/

namespace Wownero.Mining

open Wownero Wownero.TxRules Wownero.Archive Wownero.Mempool

/-- `MAX_RESERVE_SIZE`. -/
def maxReserveSize : Nat := 255

/-- `WEIGHT_ROUNDS`. -/
def weightRounds : Nat := 10

/-- `COINBASE_BLOB_RESERVED_SIZE`. -/
def coinbaseBlobReservedSize : Nat := 600

/-- `NextBlock`: what the chain says about the block that would come next. -/
structure NextBlock where
  height : Nat
  prevId : Hash256
  difficulty : Nat
  medianWeight : Nat
  alreadyGeneratedCoins : Nat
  deriving DecidableEq, Repr

/-- `next_block_of`; `none` is a chain without a genesis block. -/
def nextBlockOf {σ : Type} (P : Params σ) (c : Chain σ) : Option NextBlock :=
  (topHash c.db.main).map fun tip =>
    ⟨c.height, tip, nextBlockDifficulty P c.state c.height, c.state.weights.median,
      c.state.alreadyGeneratedCoins⟩

/-- What the extra nonce of a coinbase holds. -/
inductive ExtraNonce where
  | reserve (n : Nat)
  | given (bytes : Blob)
  deriving DecidableEq, Repr

/-- The bytes of the nonce. -/
def ExtraNonce.bytes : ExtraNonce → Blob
  | .reserve n => List.replicate n 0
  | .given bytes => bytes

/-- Whether room is reserved for a pool to write in. -/
def ExtraNonce.reserving : ExtraNonce → Bool
  | .reserve n => n > 0
  | .given _ => false

inductive AddressKind where
  | standard
  | integrated
  | subaddress
  deriving DecidableEq, Repr

/-- The part of an `Address` that a template pays to. -/
structure Address where
  kind : AddressKind
  keys : AccountPublicAddress
  deriving DecidableEq, Repr

/-- `Template`. -/
structure Template where
  block : Block
  height : Nat
  difficulty : Nat
  expectedReward : Nat
  reservedOffset : Nat
  seedHeight : Nat
  seedHash : Hash256
  nextSeedHash : Hash256
  txPublic : PublicKey
  outputKey : PublicKey
  deriving DecidableEq, Repr

/-- `TemplateError`.  The last three are its `Chain`, by what it is about. -/
inductive TemplateError where
  | subaddress
  | reserveTooBig (size : Nat)
  | badAddress
  | chain (reason : String)
  | storage (error : DbError)
  | parse (error : Archive.Error)
  deriving DecidableEq, Repr

/-- The text of an error, given that of the store's. -/
def TemplateError.text (storageText : DbError → String) : TemplateError → String
  | .subaddress => "Mining to subaddress is not supported"
  | .reserveTooBig size => s!"Too big reserved size, maximum {maxReserveSize}, got {size}"
  | .badAddress => "the mining address's keys are not valid"
  | .chain reason => s!"cannot build a block template: {reason}"
  | .storage error => "cannot build a block template: " ++ storageText error
  | .parse error => "cannot build a block template: " ++ parseErrorText error

/-! ### The transactions -/

/-- `minable`. -/
def minable (entry : PoolEntry) (network : Network) : Bool :=
  match entry.relay with
  | .fluff | .block => true
  | .stem | .local => network == .fakechain
  | .none | .forward => false

/-- `by_fee`: the pool with the best fee by weight first.  Rates are compared in floating point; the
    order is any. -/
structure ByFee where
  pool : TxPool
  order : List (Hash256 × PoolEntry)
  perm : order.Perm pool.byId.rows

/-- What a block is filled with so far. -/
structure Filling where
  txHashes : List Hash256 := []
  spent : List KeyImage := []
  txsWeight : Nat := 0
  fees : Nat := 0
  best : Nat
  deriving DecidableEq, Repr

section

variable (t : MainTables) (network : Network) (maxWeight : Nat) (rewardAt : Nat → Option Nat)

/-- One turn of `fill_block_template`: the transaction goes in if it fits and pays for the reward it
    costs. -/
def consider (f : Filling) (id : Hash256) (entry : PoolEntry) : Filling :=
  if !minable entry network || f.txsWeight + entry.weight > maxWeight then f
  else
    match rewardAt (f.txsWeight + entry.weight) with
    | none => f
    | some reward =>
        let coinbase := saturatingAdd (saturatingAdd reward f.fees) entry.fee
        if coinbase < f.best then f
        else
          match Transaction.fromBlob entry.blob with
          | .error _ => f
          | .ok tx =>
              if tx.keyImages.any fun ki => f.spent.contains ki || t.hasKeyImage ki then f
              else
                { txHashes := f.txHashes ++ [id]
                  spent := tx.keyImages ++ f.spent
                  txsWeight := f.txsWeight + entry.weight
                  fees := saturatingAdd f.fees entry.fee
                  best := coinbase }

/-- `fill_block_template`. -/
def fill (order : List (Hash256 × PoolEntry)) : Filling :=
  order.foldl (fun f row => consider t network maxWeight rewardAt f row.1 row.2)
    { best := (rewardAt 0).getD 0 }

end

/-! ### The coinbase -/

/-- `coinbase_extra`: the length of the nonce is one byte. -/
def coinbaseExtra (txPublic : PublicKey) (nonce : Blob) : Blob :=
  0x01 :: writeArray32 txPublic ++
    if nonce = [] then [] else 0x02 :: UInt8.ofNat nonce.length :: nonce

/-- A coinbase before its regions are measured. -/
def coinbaseTx (version unlockTime height : Nat) (target : TxOutTarget) (extra : Blob)
    (amount : Nat) : Transaction where
  txPrefix := ⟨version, unlockTime, [.gen height], [⟨amount, target⟩], extra⟩
  prefixSize := 0
  unprunableSize := 0

/-- The rounds of the coinbase: the amount of a block of the weight measured before, until the
    measure is the same. -/
def settle (rewardAt : Nat → Option Nat) (txsWeight fees : Nat) (coinbaseOf : Nat → Transaction) :
    Nat → Nat → Except TemplateError (Transaction × Nat)
  | 0, _ => .error (.chain "the coinbase weight did not settle")
  | rounds + 1, coinbaseWeight =>
      match rewardAt (txsWeight + coinbaseWeight) with
      | none => .error (.chain "the block is over its weight limit")
      | some base =>
          let amount := saturatingAdd base fees
          let blob := (coinbaseOf amount).write
          if blob.length = coinbaseWeight then
            match Transaction.fromBlob blob with
            | .error e => .error (.parse e)
            | .ok tx => .ok (tx, amount)
          else settle rewardAt txsWeight fees coinbaseOf rounds blob.length

/-! ### The template -/

/-- `ideal_version_top`. -/
def idealVersionTop (network : Network) : Nat :=
  ((hardForkTable network).getLast?.map (·.version)).getD originalVersion

/-- The first place of thirty-two bytes in a blob. -/
def positionOf (key : Blob) (blob : Blob) : Option Nat :=
  (List.range (blob.length + 1 - 32)).find? fun p => (blob.drop p).take 32 == key

def orStorage {α : Type} : Except DbError α → Except TemplateError α
  | .ok a => .ok a
  | .error e => .error (.storage e)

section

variable (C : Crypto) (t : MainTables) (network : Network) (next : NextBlock)

/-- `reward_at`. -/
def NextBlock.rewardAt (weight : Nat) : Option Nat :=
  getBlockReward next.medianWeight weight next.alreadyGeneratedCoins
    (requiredVersion network next.height)

/-- Step 2: the clock, or the median of the recent timestamps if the clock is behind it. -/
def NextBlock.timestamp (now : Nat) : Except TemplateError Nat := do
  let window := timestampCheckWindow (requiredVersion network next.height)
  if next.height ≥ window then
    let recent ← orStorage
      ((List.range' (next.height - window) window).mapM t.getBlockTimestamp)
    return max now (median recent)
  else return now

/-- Step 3. -/
def NextBlock.filled (pool : ByFee) : Filling :=
  fill t network (wrap64 (2 * next.medianWeight) - coinbaseBlobReservedSize)
    (next.rewardAt network) pool.order

/-- The unlock time of the coinbase. -/
def NextBlock.unlockTime : Except TemplateError Nat :=
  let version := requiredVersion network next.height
  let demanded : Option Hash256 → Except TemplateError Nat := fun referenced =>
    match coinbaseUnlockTime version next.height referenced with
    | some unlock => .ok unlock
    | none => .error (.chain "HF 16-17 needs the referenced block id")
  if version ≥ hfVersionDynamicUnlock ∧ version < hfVersionFixedUnlock then
    match checkedSub next.height (dynamicUnlockLookback network) with
    | none => .error (.chain "the dynamic unlock window reaches below genesis")
    | some referenced => do demanded (some (← orStorage (t.getBlockHash referenced)))
  else demanded none

/-- The version of the coinbase. -/
def NextBlock.txVersion : Nat :=
  if requiredVersion network next.height ≥ hfVersionMinV2CoinbaseTx then 2 else 1

/-- The output of the coinbase: its key, and how it is written. -/
def NextBlock.output (address : Address) (txSecret : SecretKey) :
    Except TemplateError (PublicKey × TxOutTarget) :=
  match C.generateKeyDerivation address.keys.viewPublicKey txSecret with
  | none => .error .badAddress
  | some derivation =>
      match C.derivePublicKey derivation 0 address.keys.spendPublicKey with
      | none => .error .badAddress
      | some outputKey =>
          .ok (outputKey,
            if requiredVersion network next.height ≥ hfVersionViewTags then
              .toTaggedKey outputKey (C.deriveViewTag derivation 0)
            else .toKey outputKey)

/-- A seed hash, of a block that is on the chain. -/
def NextBlock.seedAt (height : Nat) : Except TemplateError Hash256 :=
  if height < next.height then orStorage (t.getBlockHash height) else .ok nullHash

/-- `build`.  `txKeys` are what `generate_keys` draws. -/
def build (pool : ByFee) (address : Address) (extra : ExtraNonce) (now : Nat)
    (txKeys : PublicKey × SecretKey) : Except TemplateError Template :=
  if address.kind = .subaddress then .error .subaddress
  else if extra.bytes.length > maxReserveSize then .error (.reserveTooBig extra.bytes.length)
  else do
    let timestamp ← next.timestamp t network now
    let filling := next.filled t network pool
    let (outputKey, target) ← next.output C network address txKeys.2
    let unlockTime ← next.unlockTime t network
    let (coinbase, expectedReward) ←
      settle (next.rewardAt network) filling.txsWeight filling.fees
        (coinbaseTx (next.txVersion network) unlockTime next.height target
          (coinbaseExtra txKeys.1 extra.bytes))
        weightRounds 0
    let block : Block :=
      { header := ⟨requiredVersion network next.height, idealVersionTop network, timestamp,
          next.prevId, 0, Signature.zero, 0⟩
        minerTx := coinbase
        txHashes := filling.txHashes }
    let reservedOffset :=
      if extra.reserving then
        ((positionOf (writeArray32 txKeys.1) block.toBlob).map (· + 32 + 2)).getD 0
      else 0
    let seedHeight := rxSeedheight next.height
    let seedHash ← next.seedAt t seedHeight
    let nextSeedHash ← next.seedAt t (rxSeedheight (next.height + 64))
    return { block := block
             height := next.height
             difficulty := next.difficulty
             expectedReward := expectedReward
             reservedOffset := reservedOffset
             seedHeight := seedHeight
             seedHash := seedHash
             nextSeedHash := nextSeedHash
             txPublic := txKeys.1
             outputKey := outputKey }

end

end Wownero.Mining
