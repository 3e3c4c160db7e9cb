import Wownero.Checkpoints
import Wownero.Difficulty
import Wownero.Storage
import Wownero.TxRules
import Wownero.WeightWindow
/-!
# The chain

The cached state a node carries between blocks, its rebuilding from the store, and the twelve
steps that take a block onto the main chain.  Steps 1 to 8 and 10 to 12 are functions of the
chain; step 9 also moves the verifier, which keeps a memory of its own.
-/

namespace Wownero

open Wownero.TxRules Wownero.Difficulty

/-! ### Rejections -/

/-- The twelve steps, in order. -/
inductive Step where
  | haveIt
  | parentIsTip
  | hardFork
  | timestamp
  | difficulty
  | proofOfWork
  | checkpoint
  | coinbasePrevalidation
  | transactions
  | coinbaseAmount
  | weightLimit
  | commit
  deriving DecidableEq, Repr

/-- Why a proof of work could not be computed. -/
inductive PowError where
  | cryptoNightNotImplemented (height : Nat) (variant : String)
  | randomWow (error : String)
  | noHashingBlob
  deriving DecidableEq, Repr

/-- Why a transaction did not verify: the sender's fault, or a rule this node has not got. -/
inductive TxCheckError where
  | invalid (why : String)
  | unsupported (why : String)
  deriving DecidableEq, Repr

/-- `BlockError`.  `Storage` carries a sentence in the source; the failures of the store and the
    one sentence that is not about the store are told apart here. -/
inductive BlockError where
  | alreadyExists (id : Hash256)
  | notOnTip (prev tip : Hash256)
  | orphan (prev : Hash256)
  | wrongVersion (height found required vote : Nat)
  | badTimestamp (error : TimestampError)
  | insufficientPow (difficulty : Nat)
  | pow (error : PowError)
  | checkpointMismatch (height : Nat) (expected found : Hash256)
  | altBelowCheckpoint (height : Nat)
  | coinbase (error : TxError)
  | duplicateTxInBlock (index : Nat)
  | txAlreadyInChain (hash : Hash256)
  | missingTx (hash : Hash256)
  | doubleSpend (image : KeyImage)
  | tx (index : Nat) (error : TxError)
  | txSignature (index : Nat) (error : TxCheckError)
  | minerReward (error : MinerRewardError)
  | blockTooBig (weight limit : Nat)
  | storage (error : DbError)
  /-- "a failed reorganisation could not restore block …" -/
  | notRestored (height : Nat) (step : Step) (error : BlockError)
  | malformed (what : String)
  deriving DecidableEq, Repr

structure Rejection where
  step : Step
  error : BlockError
  deriving DecidableEq, Repr

/-- What became of an accepted block. -/
inductive Added where
  | mainChain (height : Nat)
  | altChain (height : Nat)
  | reorg (height popped : Nat)
  deriving DecidableEq, Repr

/-! ### The parties a chain is built over -/

/-- `PowVerifier`. -/
structure PowVerifier where
  powHash : Nat → Nat → Blob → Hash256 → Except PowError Hash256
  maySkip : Nat → Bool

/-- `TrustingVerifier`. -/
def PowVerifier.trusting : PowVerifier := ⟨fun _ _ _ _ => .ok nullHash, fun _ => true⟩

/-- `TxVerifier`, with its memory made explicit.  `observe` is what other threads do to that
    memory between one store transaction and the next; a verifier nobody shares observes
    nothing. -/
structure TxVerifier (σ : Type) where
  verify : σ → MainTables → Hash256 → Transaction → (hfVersion chainHeight now : Nat) →
    Except TxCheckError Unit × σ
  observe : σ → MainTables → σ := fun s _ => s

/-- What is fixed when a chain is opened. -/
structure Params (σ : Type) where
  crypto : Crypto
  pow : PowVerifier
  network : Network
  trustedBelow : Nat := 0
  fixedDifficulty : Option Nat := none
  txVerifier : Option (TxVerifier σ) := none

/-- `ChainState`. -/
structure ChainState where
  weights : WeightLimits
  longTerm : LongTermWeightWindow
  recentWeights : List Nat
  alreadyGeneratedCoins : Nat
  cumulativeDifficulty : Nat
  difficultyWindow : List (Nat × Nat)
  deriving DecidableEq, Repr

/-- `ChainState::default`. -/
def ChainState.default : ChainState where
  weights := ⟨fullRewardZoneV5, fullRewardZoneV5 * 2, none⟩
  longTerm := LongTermWeightWindow.new
  recentWeights := []
  alreadyGeneratedCoins := 0
  cumulativeDifficulty := 0
  difficultyWindow := []

/-- `Blockchain`: the store, the caches, the transactions of alternative blocks, those a
    reorganisation displaced, and the verifier's memory. -/
structure Chain (σ : Type) where
  db : Store
  state : ChainState
  altTxs : Table Hash256 (List (Transaction × Blob))
  orphanedTxs : List (Transaction × Blob)
  verifier : σ

section

variable {σ : Type} (P : Params σ)

def Chain.height (c : Chain σ) : Nat := c.db.main.height

/-- `top_hash`. -/
def topHash (t : MainTables) : Option Hash256 :=
  if t.height = 0 then none else (t.getBlockHash (t.height - 1)).toOption

/-- `current_version`: the version the next block must carry. -/
def currentVersion (t : MainTables) : Nat := requiredVersion P.network t.height

/-! ### Rebuilding the caches -/

/-- `DIFFICULTY_WINDOW_CACHE`. -/
def difficultyWindowCache : Nat := difficultyBlocksCountV1

/-- The block records of the heights `first .. last`. -/
def readInfos (t : MainTables) (first last : Nat) : Except DbError (List BlockInfo) :=
  (List.range' first (last - first)).mapM t.getBlockInfo

/-- `compute_weight_limits`. -/
def computeWeightLimits (recentWeights : List Nat) (longTerm : LongTermWeightWindow)
    (version : Nat) : WeightLimits :=
  updateNextCumulativeWeightLimit version recentWeights longTerm.median

/-- `reload_state`: the caches as the store determines them. -/
def loadState (t : MainTables) : Except DbError ChainState := do
  let height := t.height
  if height = 0 then return ChainState.default
  let tip ← t.getBlockInfo (height - 1)
  let recent ← readInfos t (height - cryptonoteRewardBlocksWindow) height
  let long ← readInfos t (height - longTermWindow height) height
  let window ← readInfos t (height - difficultyWindowCache) height
  let recentWeights := recent.map (·.weight)
  let longTerm := LongTermWeightWindow.new.pushAll (long.map (·.longTermBlockWeight))
  return {
    weights := computeWeightLimits recentWeights longTerm (currentVersion P t)
    longTerm := longTerm
    recentWeights := recentWeights
    alreadyGeneratedCoins := tip.coins
    cumulativeDifficulty := tip.cumulativeDifficulty
    difficultyWindow := window.map fun i => (i.timestamp, i.cumulativeDifficulty) }

/-- `reload_state` on the chain. -/
def Chain.reloadState (c : Chain σ) : Except Rejection Unit × Chain σ :=
  match loadState P c.db.main with
  | .ok state => (.ok (), { c with state := state })
  | .error e => (.error ⟨.commit, .storage e⟩, c)

/-- `Blockchain::new`: open a chain over a store. -/
def Chain.new (db : Store) (verifier : σ) : Except DbError (Chain σ) := do
  let state ← loadState P db.main
  return ⟨db, state, .empty, [], verifier⟩

/-! ### Difficulty, timestamps, seeds -/

/-- `next_difficulty`: the tail of the cached window that the version asks for. -/
def nextBlockDifficulty (state : ChainState) (height : Nat) : Nat :=
  if height = 0 then 1
  else
    match P.fixedDifficulty with
    | some d => d
    | none =>
        let version := requiredVersion P.network height
        let o := height - min height (difficultyBlocksCount version)
        let offset := if o = 0 then 1 else o
        let start := height - state.difficultyWindow.length
        let window := state.difficultyWindow.drop (offset - start)
        nextDifficulty version (window.map (·.1)) (window.map (·.2)) height P.network

/-- `recent_timestamps`. -/
def recentTimestamps (t : MainTables) (version : Nat) : Except DbError (List Nat) :=
  let window := timestampCheckWindow version
  if t.height < window then .ok []
  else (readInfos t (t.height - window) t.height).map fun infos => infos.map (·.timestamp)

/-- `seed_hash_for`. -/
def seedHashFor (t : MainTables) (height : Nat) : Except DbError Hash256 :=
  if t.height > rxSeedheight height then t.getBlockHash (rxSeedheight height) else .ok nullHash

/-- `coinbase_unlock_time`. -/
def chainUnlockTime (t : MainTables) (height version : Nat) : Except BlockError Nat :=
  let demanded : Option Hash256 → Except BlockError Nat := fun referenced =>
    match coinbaseUnlockTime version height referenced with
    | some unlock => .ok unlock
    | none => .error (.malformed "HF 16-17 needs the referenced block id")
  if version ≥ hfVersionDynamicUnlock ∧ version < hfVersionFixedUnlock then
    match checkedSub height (dynamicUnlockLookback P.network) with
    | none => .error (.malformed "dynamic unlock below genesis")
    | some referenced =>
        match t.getBlockHash referenced with
        | .error e => .error (.storage e)
        | .ok id => demanded (some id)
  else demanded none

/-! ### Steps 1 to 8 -/

/-- Step 1. -/
def stepHaveIt (t : MainTables) (blk : Block) : Except Rejection Unit :=
  match blk.blockId P.crypto.cnFastHash with
  | none => .error ⟨.haveIt, .malformed "no block id"⟩
  | some id => if t.blockExists id then .error ⟨.haveIt, .alreadyExists id⟩ else .ok ()

/-- Step 2. -/
def stepParentIsTip (t : MainTables) (blk : Block) : Except Rejection Unit :=
  if t.height = 0 then .ok ()
  else
    match topHash t with
    | some tip =>
        if blk.header.prevId = tip then .ok ()
        else .error ⟨.parentIsTip, .notOnTip blk.header.prevId tip⟩
    | none => .error ⟨.parentIsTip, .malformed "no tip"⟩

/-- Step 3. -/
def stepHardFork (height : Nat) (blk : Block) : Except Rejection Unit :=
  let vote := blk.header.hardForkVote
  if checkHardFork P.network height blk.header.majorVersion vote then .ok ()
  else .error ⟨.hardFork, .wrongVersion height blk.header.majorVersion
    (requiredVersion P.network height) vote⟩

/-- Step 4. -/
def stepTimestamp (t : MainTables) (blk : Block) (now : Nat) : Except Rejection Unit :=
  let version := currentVersion P t
  match recentTimestamps t version with
  | .error e => .error ⟨.timestamp, .storage e⟩
  | .ok recent =>
      match checkBlockTimestamp version blk.header.timestamp now recent with
      | .error e => .error ⟨.timestamp, .badTimestamp e⟩
      | .ok () => .ok ()

/-- Step 6, once the seed is known. -/
def checkPow (height : Nat) (blk : Block) (seed : Except Rejection Hash256) (difficulty : Nat) :
    Except Rejection Unit :=
  if P.pow.maySkip height then .ok ()
  else
    match blk.hashingBlob P.crypto.cnFastHash with
    | none => .error ⟨.proofOfWork, .pow .noHashingBlob⟩
    | some hashingBlob =>
        match seed with
        | .error e => .error e
        | .ok seed =>
            match P.pow.powHash height blk.header.majorVersion hashingBlob seed with
            | .error e => .error ⟨.proofOfWork, .pow e⟩
            | .ok hash =>
                if checkHash hash difficulty then .ok ()
                else .error ⟨.proofOfWork, .insufficientPow difficulty⟩

/-- Step 6. -/
def stepProofOfWork (t : MainTables) (blk : Block) (difficulty : Nat) : Except Rejection Unit :=
  let seed := match seedHashFor t t.height with
    | .ok seed => .ok seed
    | .error e => .error ⟨.proofOfWork, .storage e⟩
  checkPow P t.height blk seed difficulty

/-- Step 7. -/
def stepCheckpoint (height : Nat) (blk : Block) : Except Rejection Unit :=
  match checkpointAt P.network height, blk.blockId P.crypto.cnFastHash with
  | some cp, some id =>
      if cp.hash = id then .ok ()
      else .error ⟨.checkpoint, .checkpointMismatch height cp.hash id⟩
  | _, _ => .ok ()

/-- Step 8. -/
def stepCoinbase (t : MainTables) (height : Nat) (blk : Block) : Except Rejection Unit :=
  match chainUnlockTime P t height blk.header.majorVersion with
  | .error e => .error ⟨.coinbasePrevalidation, e⟩
  | .ok unlock =>
      match prevalidateMinerTx P.crypto.cnFastHash P.crypto.checkSignature blk
          blk.header.majorVersion height unlock with
      | .error e => .error ⟨.coinbasePrevalidation, .coinbase e⟩
      | .ok () => .ok ()

/-- Steps 1 to 8 of `add_block`, in order, for a block at the chain's height. -/
def prechecks (c : Chain σ) (blk : Block) (now : Nat) : Except Rejection Unit := do
  let t := c.db.main
  stepHaveIt P t blk
  stepParentIsTip t blk
  stepHardFork P t.height blk
  stepTimestamp P t blk now
  stepProofOfWork P t blk (nextBlockDifficulty P c.state t.height)
  stepCheckpoint P t.height blk
  stepCoinbase P t t.height blk

/-! ### Step 9 -/

/-- The rules decided by reading one transaction, in the order step 9 applies them. -/
def checkTxRules (t : MainTables) (version : Nat) (tx : Transaction) :
    Except TxError (Option Nat) := do
  let fee ← checkTxSemantic tx
  checkMinOutputs tx version
  checkInputsSorted tx
  checkTxRctType tx version
  let summary := summariseMixin tx version t.getNumOutputs
  checkRingSize summary version
  checkTxVersion tx.txPrefix.version version summary.nUnmixable
  return fee

/-- One transaction's rules and signatures, unless its height is trusted.  The fee is that of a
    version-1 transaction. -/
def checkTx (t : MainTables) (version height now i : Nat) (hash : Hash256) (tx : Transaction)
    (v : σ) : Except BlockError (Option Nat) × σ :=
  if height < P.trustedBelow then
    match tx.fee with
    | some fee => (.ok (some fee), v)
    | none => (.error (.tx i .inputsOverflow), v)
  else
    match checkTxRules t version tx with
    | .error e => (.error (.tx i e), v)
    | .ok fee =>
        match P.txVerifier with
        | none => (.ok fee, v)
        | some verifier =>
            match verifier.verify v t hash tx version height now with
            | (.ok (), v) => (.ok fee, v)
            | (.error e, v) => (.error (.txSignature i e), v)

/-- The key images of one transaction against the block's own and the chain's. -/
def checkImages (t : MainTables) : List KeyImage → List KeyImage → Except BlockError (List KeyImage)
  | blockImages, [] => .ok blockImages
  | blockImages, image :: images =>
      if blockImages.contains image then .error (.doubleSpend image)
      else if t.hasKeyImage image then .error (.doubleSpend image)
      else checkImages t (image :: blockImages) images

/-- The loop of `check_transactions`. -/
def checkTransactionsFrom (t : MainTables) (version height now : Nat) :
    Nat → List (Hash256 × Transaction) → List Hash256 → List KeyImage → Nat → σ →
      Except BlockError Nat × σ
  | _, [], _, _, fees, v => (.ok fees, v)
  | i, (hash, tx) :: rest, seen, blockImages, fees, v =>
      if seen.contains hash then (.error (.duplicateTxInBlock i), v)
      else if t.txExists hash then (.error (.txAlreadyInChain hash), v)
      else
        match checkTx P t version height now i hash tx v with
        | (.error e, v) => (.error e, v)
        | (.ok semanticFee, v) =>
            match checkImages t blockImages tx.keyImages with
            | .error e => (.error e, v)
            | .ok blockImages =>
                checkTransactionsFrom t version height now (i + 1) rest (hash :: seen) blockImages
                  (saturatingAdd fees (semanticFee.getD tx.rctSignatures.txnFee)) v

/-- `check_transactions`: the total fee. -/
def checkTransactions (t : MainTables) (v : σ) (blk : Block) (txs : List (Transaction × Blob))
    (now : Nat) : Except Rejection Nat × σ :=
  if txs.length ≠ blk.txHashes.length then
    (.error ⟨.transactions, .malformed "transaction count does not match tx_hashes"⟩, v)
  else
    match checkTransactionsFrom P t blk.header.majorVersion t.height now 0
        (blk.txHashes.zip (txs.map (·.1))) [] [] 0 v with
    | (.ok fees, v) => (.ok fees, v)
    | (.error e, v) => (.error ⟨.transactions, e⟩, v)

/-! ### Steps 10 to 12 -/

/-- `cumulative_block_weight`. -/
def cumulativeBlockWeight (blk : Block) (txs : List (Transaction × Blob)) : Nat :=
  txs.foldl (fun total p => saturatingAdd total (getTransactionWeight p.1 p.2.length))
    blk.minerTx.write.length

/-- Steps 10 and 11: by how much the block moves the supply.  The weight limit is enforced
    through the reward. -/
def stepReward (state : ChainState) (blk : Block) (weight fees : Nat) : Except Rejection Nat :=
  let claimed := wrap64 (blk.minerTx.txPrefix.vout.map (·.amount)).sum
  match getBlockReward state.weights.median weight state.alreadyGeneratedCoins
      blk.header.majorVersion with
  | none => .error ⟨.weightLimit, .blockTooBig weight state.weights.limit⟩
  | some baseReward =>
      match validateMinerReward blk.header.majorVersion baseReward fees claimed with
      | .error e => .error ⟨.coinbaseAmount, .minerReward e⟩
      | .ok reward => .ok reward

/-- Drop from the front of a queue what is over its capacity. -/
def keepLast {α : Type} (capacity : Nat) (queue : List α) : List α :=
  queue.drop (queue.length - capacity)

/-- The caches after a block, advanced field by field. -/
def ChainState.advance (state : ChainState) (nextVersion timestamp weight longTermWeight
    cumulativeDifficulty coins : Nat) : ChainState :=
  let longTerm := state.longTerm.push longTermWeight
  let recentWeights := keepLast cryptonoteRewardBlocksWindow (state.recentWeights ++ [weight])
  { weights := computeWeightLimits recentWeights longTerm nextVersion
    longTerm := longTerm
    recentWeights := recentWeights
    alreadyGeneratedCoins := coins
    cumulativeDifficulty := cumulativeDifficulty
    difficultyWindow := keepLast difficultyWindowCache
      (state.difficultyWindow ++ [(timestamp, cumulativeDifficulty)]) }

/-- What other threads do after a store transaction. -/
def Chain.observed (c : Chain σ) : Chain σ :=
  match P.txVerifier with
  | none => c
  | some verifier => { c with verifier := verifier.observe c.verifier c.db.main }

/-- Steps 10 to 12 of `add_block`. -/
def Chain.commitBlock (c : Chain σ) (blk : Block) (blob : Blob) (txs : List (Transaction × Blob))
    (fees : Nat) : Except Rejection (Chain σ) := do
  let height := c.height
  let weight := cumulativeBlockWeight blk txs
  let reward ← stepReward c.state blk weight fees
  let longTermWeight :=
    nextLongTermBlockWeight blk.header.majorVersion weight c.state.longTerm.median
  let cumulativeDifficulty :=
    wrap128 (c.state.cumulativeDifficulty + nextBlockDifficulty P c.state height)
  let coins := saturatingAdd c.state.alreadyGeneratedCoins reward
  match c.db.main.addBlock P.crypto blk blob weight longTermWeight cumulativeDifficulty coins txs with
  | .error e => .error ⟨.commit, .storage e⟩
  | .ok main =>
      .ok { c with
        db := { c.db with main := main }
        state := c.state.advance (requiredVersion P.network (height + 1)) blk.header.timestamp
          weight longTermWeight cumulativeDifficulty coins }

/-- `add_block`: the twelve steps.  A refused block moves the verifier at most. -/
def Chain.addBlock (c : Chain σ) (blk : Block) (blob : Blob) (txs : List (Transaction × Blob))
    (now : Nat) : Except Rejection Added × Chain σ :=
  match prechecks P c blk now with
  | .error e => (.error e, c)
  | .ok () =>
      match checkTransactions P c.db.main c.verifier blk txs now with
      | (.error e, v) => (.error e, { c with verifier := v })
      | (.ok fees, v) =>
          match Chain.commitBlock P { c with verifier := v } blk blob txs fees with
          | .error e => (.error e, { c with verifier := v })
          | .ok c' => (.ok (.mainChain c.height), c'.observed P)

end

end Wownero
