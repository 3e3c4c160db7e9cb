import Wownero.Consensus
/-!
# Coinbase and transaction rules

The rules that are decided by reading a transaction, a version and, for one of them, how many
outputs of an amount the chain has.  Ring signatures and double spends are not among them.
-/

namespace Wownero.TxRules

open Wownero

/-- `TxIn::tag`. -/
def txInTag : TxIn → UInt8
  | .gen _ => 0xff
  | .toKey .. => 0x02
  | .toScript .. => 0x00
  | .toScriptHash .. => 0x01

/-- `TxOutTarget::tag`. -/
def targetTag : TxOutTarget → UInt8
  | .toKey _ => 0x02
  | .toTaggedKey .. => 0x03
  | .toScript .. => 0x00
  | .toScriptHash _ => 0x01

/-- `TxError`, the variants the block path can produce. -/
inductive TxError where
  | coinbaseOutputCount (found : Nat)
  | invalidVote (vote : Nat)
  | minerSignature
  | badCoinbaseInput
  | coinbaseVersionTooLow (version : Nat)
  | coinbaseHasRctSignatures (rctType : RctType)
  | coinbaseHeightMismatch (found expected : Nat)
  | coinbaseUnlockTime (found expected : Nat)
  | outputsOverflow
  | noInputs
  | duplicateKeyImage (index : Nat)
  | unsupportedInputType (index : Nat) (tag : UInt8)
  | nonZeroOutputAmountInV2 (index : Nat)
  | invalidOutputTarget (index : Nat) (tag : UInt8)
  | outputsExceedInputs
  | inputsOverflow
  | wrongSignatureCount (expected found : Nat)
  | varyingRingSize (min max : Nat)
  | ringTooSmall (mixin minMixin : Nat)
  | tooManyMixableInputs (mixable : Nat)
  | invalidRingSize (mixin minMixin : Nat)
  | txVersionTooHigh (version max : Nat)
  | txVersionTooLow (version min : Nat)
  | wrongOutputType (index : Nat) (tag : UInt8)
  | mixedOutputTypes (index : Nat) (tag first : UInt8)
  | tooFewOutputs (found : Nat)
  | unsortedInputs (index : Nat)
  | outputTooRecent (maxUsedBlockHeight chainHeight : Nat)
  | forbiddenRctType (rctType : RctType)
  deriving DecidableEq, Repr

/-! ### Hard-fork gates -/

def hfVersionEnforceRct : Nat := 6
def hfVersionMinMixin7 : Nat := 7
def hfVersionMinMixin21 : Nat := 9
def hfVersionSmallerBp : Nat := 13
def hfVersionMin2Outputs : Nat := 15
def hfVersionMinV2CoinbaseTx : Nat := 15
def hfVersionSameMixin : Nat := 15
def hfVersionRejectSigsInCoinbase : Nat := 15
def hfVersionEnforceMinAge : Nat := 15
def hfVersionClsag : Nat := 16
def hfVersionDynamicUnlock : Nat := 16
def hfVersionFixedUnlock : Nat := 18
def hfVersionBulletproofPlus : Nat := 18
def hfVersionViewTags : Nat := 20
def hfVersionBpPlusFullCommit : Nat := 21

/-- `MAX_VOTE`. -/
def maxVote : Nat := 2

/-! ### The coinbase unlock time -/

/-- `dynamic_unlock_window`: the first three hex digits of a block id, doubled, over 288. -/
def dynamicUnlockWindow (blockId : Hash256) : Nat := blockId.toNat / 2 ^ 244 * 2 + 288

/-- `coinbase_unlock_time`.  `none` is the panic of a missing block id at versions 16 and 17,
    which no caller provokes. -/
def coinbaseUnlockTime (hfVersion height : Nat) (referenced : Option Hash256) : Option Nat :=
  if hfVersion ≥ hfVersionFixedUnlock then some (wrap64 (height + 288))
  else if hfVersion ≥ hfVersionDynamicUnlock then
    referenced.map fun id => wrap64 (height + dynamicUnlockWindow id)
  else some (wrap64 (height + 60))

/-- `dynamic_unlock_lookback`. -/
def dynamicUnlockLookback : Network → Nat
  | .mainnet => 1337
  | _ => 5

/-! ### Outputs -/

/-- `check_outs_overflow`. -/
def checkOutsOverflow (vout : List TxOut) : Except TxError Nat :=
  match checkedSum 0 (vout.map (·.amount)) with
  | none => .error .outputsOverflow
  | some sum => .ok sum

def isToKey : TxOutTarget → Bool
  | .toKey _ => true
  | _ => false

def isTaggedKey : TxOutTarget → Bool
  | .toTaggedKey .. => true
  | _ => false

/-- What `check_output_types` asks of the output at index `i` of a transaction whose first
    output carries `first`. -/
def checkOutputType (hfVersion : Nat) (first : UInt8) (i : Nat) (o : TxOut) :
    Except TxError Unit :=
  let tag := targetTag o.target
  if hfVersion > hfVersionViewTags then
    if isTaggedKey o.target then .ok () else .error (.wrongOutputType i tag)
  else if hfVersion < hfVersionViewTags then
    if isToKey o.target then .ok () else .error (.wrongOutputType i tag)
  else if !(isToKey o.target || isTaggedKey o.target) then .error (.wrongOutputType i tag)
  else if tag ≠ first then .error (.mixedOutputTypes i tag first)
  else .ok ()

def checkOutputTypesFrom (hfVersion : Nat) (first : UInt8) : Nat → List TxOut →
    Except TxError Unit
  | _, [] => .ok ()
  | i, o :: os => do
    checkOutputType hfVersion first i o
    checkOutputTypesFrom hfVersion first (i + 1) os

/-- `check_output_types`: untagged keys below version 20, tagged ones above, one kind at 20. -/
def checkOutputTypes (vout : List TxOut) (hfVersion : Nat) : Except TxError Unit :=
  checkOutputTypesFrom hfVersion ((vout.head?.map fun o => targetTag o.target).getD 0) 0 vout

/-- `check_min_outputs`. -/
def checkMinOutputs (tx : Transaction) (hfVersion : Nat) : Except TxError Unit :=
  if hfVersion ≥ hfVersionMin2Outputs ∧ tx.txPrefix.version ≥ 2 ∧ tx.txPrefix.vout.length < 2 then
    .error (.tooFewOutputs tx.txPrefix.vout.length)
  else .ok ()

/-! ### Inputs -/

def checkInputsSortedFrom : Nat → Option KeyImage → List TxIn → Except TxError Unit
  | _, _, [] => .ok ()
  | i, last, .toKey _ _ kImage :: ins =>
      if last.any (fun prev => prev ≤ kImage) then .error (.unsortedInputs i)
      else checkInputsSortedFrom (i + 1) (some kImage) ins
  | i, last, _ :: ins => checkInputsSortedFrom (i + 1) last ins

/-- `check_inputs_sorted`: the key images strictly descend. -/
def checkInputsSorted (tx : Transaction) : Except TxError Unit :=
  checkInputsSortedFrom 0 none tx.txPrefix.vin

/-- `check_min_output_age`. -/
def checkMinOutputAge (hfVersion maxUsedBlockHeight chainHeight : Nat) : Except TxError Unit :=
  if hfVersion < hfVersionEnforceMinAge then .ok ()
  else if wrap64 (maxUsedBlockHeight + 4) > chainHeight then
    .error (.outputTooRecent maxUsedBlockHeight chainHeight)
  else .ok ()

/-! ### RingCT types -/

/-- `check_rct_type_allowed`. -/
def checkRctTypeAllowed (ty : RctType) (txVersion : Nat) (hasBulletproofsPlus : Bool)
    (hfVersion : Nat) : Except TxError Unit :=
  let forbidden : Bool :=
    (decide (txVersion ≥ 2) &&
      (decide (hfVersion < hfVersionSmallerBp ∧ ty = .bulletproof2)
        || decide (hfVersion > hfVersionSmallerBp ∧ ty = .bulletproof)
        || decide (hfVersion < hfVersionClsag ∧ ty = .clsag)
        || decide (hfVersion > hfVersionClsag ∧ ty.toU8 ≤ RctType.bulletproof2.toU8)
        || decide (hfVersion > 11 ∧ ty.isOldBulletproof)
        || decide (hfVersion < hfVersionBulletproofPlus ∧
            (ty.isBpPlusLegacy ∨ hasBulletproofsPlus))
        || decide (hfVersion > hfVersionBulletproofPlus ∧ ty.isBulletproof)
        || decide (hfVersion < hfVersionBpPlusFullCommit ∧ ty = .bulletproofPlusFullCommit)))
      || decide (hfVersion > hfVersionBpPlusFullCommit ∧ ty.isBpPlusLegacy)
  if forbidden then .error (.forbiddenRctType ty) else .ok ()

/-- `check_tx_rct_type`. -/
def checkTxRctType (tx : Transaction) (hfVersion : Nat) : Except TxError Unit :=
  checkRctTypeAllowed tx.rctSignatures.ty tx.txPrefix.version
    (!tx.rctSignatures.bulletproofsPlus.isEmpty) hfVersion

/-! ### Ring sizes -/

structure MixinSummary where
  minActualMixin : Nat
  maxActualMixin : Nat
  nMixable : Nat
  nUnmixable : Nat
  deriving DecidableEq, Repr

/-- `min_mixin`. -/
def minMixin (hfVersion : Nat) : Nat := if hfVersion ≥ hfVersionMinMixin21 then 21 else 7

/-- An amount that decoys are too few of: the escape that lets an input through with any
    ring. -/
def isUnmixable (hfVersion : Nat) (numOutputs : Nat → Nat) (amount : Nat) : Bool :=
  amount ≠ 0 && numOutputs amount ≤ minMixin hfVersion

/-- One turn of the loop of `summarise_mixin`. -/
def summariseInput (hfVersion : Nat) (numOutputs : Nat → Nat) (s : MixinSummary) :
    TxIn → MixinSummary
  | .toKey amount keyOffsets _ =>
      let ringMixin := keyOffsets.length - 1
      let unmixable := isUnmixable hfVersion numOutputs amount
      { minActualMixin := min s.minActualMixin ringMixin
        maxActualMixin := max s.maxActualMixin ringMixin
        nMixable := if unmixable then s.nMixable else s.nMixable + 1
        nUnmixable := if unmixable then s.nUnmixable + 1 else s.nUnmixable }
  | _ => s

/-- `summarise_mixin`. -/
def summariseMixin (tx : Transaction) (hfVersion : Nat) (numOutputs : Nat → Nat) : MixinSummary :=
  tx.txPrefix.vin.foldl (summariseInput hfVersion numOutputs) ⟨u64Max, 0, 0, 0⟩

/-- `check_ring_size`. -/
def checkRingSize (s : MixinSummary) (hfVersion : Nat) : Except TxError Unit :=
  let min := minMixin hfVersion
  if hfVersion ≥ hfVersionSameMixin ∧ s.minActualMixin ≠ s.maxActualMixin then
    .error (.varyingRingSize s.minActualMixin s.maxActualMixin)
  else if s.minActualMixin < min ∧ ¬(hfVersion = hfVersionMinMixin21 ∧ s.minActualMixin = 7) then
    if s.nUnmixable = 0 then .error (.ringTooSmall s.minActualMixin min)
    else if s.nMixable > 1 then .error (.tooManyMixableInputs s.nMixable)
    else .ok ()
  else if (hfVersion > hfVersionMinMixin21 ∧ s.minActualMixin > 21)
      ∨ (hfVersion = hfVersionMinMixin21 ∧ s.minActualMixin ≠ 21 ∧ s.minActualMixin ≠ 7)
      -- Never taken: version 7 + 2 is version 9.  The source keeps the clause, and so does this.
      ∨ (hfVersion < hfVersionMinMixin21 ∧ hfVersion ≥ hfVersionMinMixin7 + 2
          ∧ s.minActualMixin > 7)
      ∨ ((hfVersion = hfVersionMinMixin7 ∨ hfVersion = hfVersionMinMixin7 + 1)
          ∧ s.minActualMixin ≠ 7) then
    .error (.invalidRingSize s.minActualMixin min)
  else .ok ()

/-- `check_tx_version`. -/
def checkTxVersion (version hfVersion nUnmixable : Nat) : Except TxError Unit :=
  let max := if hfVersion ≤ 3 then 1 else 2
  let min := if nUnmixable > 0 then 1 else if hfVersion ≥ hfVersionEnforceRct then 2 else 1
  if version > max then .error (.txVersionTooHigh version max)
  else if version < min then .error (.txVersionTooLow version min)
  else .ok ()

/-! ### Semantics -/

/-- The first loop of `check_tx_semantic`: keys only, no image twice, a sum that fits. -/
def checkSemanticInputs : Nat → List KeyImage → Nat → List TxIn → Except TxError Nat
  | _, _, sum, [] => .ok sum
  | i, seen, sum, .toKey amount _ kImage :: ins =>
      if seen.contains kImage then .error (.duplicateKeyImage i)
      else
        match checkedAdd sum amount with
        | none => .error .inputsOverflow
        | some sum => checkSemanticInputs (i + 1) (seen ++ [kImage]) sum ins
  | i, _, _, input :: _ => .error (.unsupportedInputType i (txInTag input))

/-- The second: a key target, and no amount in the clear from version 2. -/
def checkSemanticOutputs (version : Nat) : Nat → List TxOut → Except TxError Unit
  | _, [] => .ok ()
  | i, o :: os =>
      if o.target.publicKey.isNone then .error (.invalidOutputTarget i (targetTag o.target))
      else if version ≥ 2 ∧ o.amount ≠ 0 then .error (.nonZeroOutputAmountInV2 i)
      else checkSemanticOutputs version (i + 1) os

/-- The end of `check_tx_semantic`, with the two sums at hand. -/
def semanticFee (tx : Transaction) (inputsSum outputsSum : Nat) : Except TxError (Option Nat) :=
  if tx.txPrefix.version ≥ 2 then .ok none
  else if outputsSum > inputsSum then .error .outputsExceedInputs
  else if tx.signatures.length ≠ tx.txPrefix.vin.length then
    .error (.wrongSignatureCount tx.txPrefix.vin.length tx.signatures.length)
  else .ok (some (inputsSum - outputsSum))

/-- `check_tx_semantic`: the fee of a version-1 transaction, nothing for version 2. -/
def checkTxSemantic (tx : Transaction) : Except TxError (Option Nat) :=
  if tx.txPrefix.vin.isEmpty then .error .noInputs
  else do
    let inputsSum ← checkSemanticInputs 0 [] 0 tx.txPrefix.vin
    checkSemanticOutputs tx.txPrefix.version 0 tx.txPrefix.vout
    let outputsSum ← checkOutsOverflow tx.txPrefix.vout
    semanticFee tx inputsSum outputsSum

/-! ### The coinbase -/

section Coinbase

variable (cnFastHash : Blob → Hash256) (checkSignature : Hash256 → PublicKey → Signature → Bool)

/-- The end of `check_miner_signature`: the header's signature under the output's key. -/
def checkHeaderSignature (block : Block) : Except TxError Unit :=
  match block.sigData cnFastHash,
      block.minerTx.txPrefix.vout.head?.bind (·.target.publicKey) with
  | some sigData, some outputKey =>
      if checkSignature sigData outputKey block.header.signature then .ok ()
      else .error .minerSignature
  | _, _ => .error .minerSignature

/-- `check_miner_signature`. -/
def checkMinerSignature (block : Block) (hfVersion : Nat) : Except TxError Unit :=
  let vout := block.minerTx.txPrefix.vout
  if hfVersion < hfVersionBlockHeaderMinerSig then .ok ()
  else if vout.length ≠ 1 then .error (.coinbaseOutputCount vout.length)
  else do
    checkOutputTypes vout hfVersion
    if block.header.vote > maxVote then .error (.invalidVote block.header.vote)
    else checkHeaderSignature cnFastHash checkSignature block

/-- `check_coinbase`. -/
def checkCoinbase (tx : Transaction) (hfVersion height expectedUnlockTime : Nat) :
    Except TxError Unit :=
  match tx.txPrefix.vin with
  | [.gen claimedHeight] =>
      if tx.txPrefix.version ≤ 1 ∧ hfVersion ≥ hfVersionMinV2CoinbaseTx then
        .error (.coinbaseVersionTooLow tx.txPrefix.version)
      else if hfVersion ≥ hfVersionRejectSigsInCoinbase ∧ tx.txPrefix.version ≥ 2
          ∧ tx.rctSignatures.ty ≠ .null then
        .error (.coinbaseHasRctSignatures tx.rctSignatures.ty)
      else if claimedHeight ≠ height then .error (.coinbaseHeightMismatch claimedHeight height)
      else if tx.txPrefix.unlockTime ≠ expectedUnlockTime then
        .error (.coinbaseUnlockTime tx.txPrefix.unlockTime expectedUnlockTime)
      else do
        let _ ← checkOutsOverflow tx.txPrefix.vout
        checkOutputTypes tx.txPrefix.vout hfVersion
  | _ => .error .badCoinbaseInput

/-- `prevalidate_miner_tx`. -/
def prevalidateMinerTx (block : Block) (hfVersion height expectedUnlockTime : Nat) :
    Except TxError Unit := do
  checkMinerSignature cnFastHash checkSignature block hfVersion
  checkCoinbase block.minerTx hfVersion height expectedUnlockTime

end Coinbase

end Wownero.TxRules
