import Wownero.Fee
/-!
# The transaction pool

Admission of a transaction: the policy of relaying, the key images of the chain and of the pool,
and the verification of every ring signature, of the range proof and of the balance.  The last
part, `verify`, is also what the transactions of a block are checked with.
-/

namespace Wownero.Mempool

open Wownero Wownero.TxRules Wownero.Archive

/-! ### Rejections -/

/-- Why a transaction was not admitted. -/
inductive Rejection where
  | tooBig (weight : Nat)
  | feeTooLow (got needed : Nat)
  | txExtraTooBig (len : Nat)
  | nonZeroUnlockTime (unlockTime : Nat)
  | doubleSpend
  | alreadyInPool
  | invalidInput (why : String)
  | invalidOutput (why : String)
  | overspend
  | tooFewOutputs (count : Nat)
  | notParseable (why : String)
  | unsupportedRctType (ty : RctType)
  deriving DecidableEq, Repr

/-- `CRYPTONOTE_MAX_TX_SIZE`. -/
def maxTxSize : Nat := 1000000

/-- `MAX_TX_EXTRA_SIZE`. -/
def maxTxExtraSize : Nat := 1060

/-- The name of a RingCT type as the source prints it. -/
def rctTypeName : RctType → String
  | .null => "Null"
  | .full => "Full"
  | .simple => "Simple"
  | .fullBulletproof => "FullBulletproof"
  | .simpleBulletproof => "SimpleBulletproof"
  | .bulletproof => "Bulletproof"
  | .bulletproof2 => "Bulletproof2"
  | .clsag => "Clsag"
  | .bulletproofPlus => "BulletproofPlus"
  | .bulletproofPlusFullCommit => "BulletproofPlusFullCommit"

/-- `Rejection::reason`. -/
def Rejection.reason : Rejection → String
  | .tooBig weight => s!"the transaction weighs {weight}, over the limit of {maxTxSize}"
  | .feeTooLow got needed => s!"the fee is {got}, and {needed} is needed"
  | .txExtraTooBig len => s!"tx_extra is {len} bytes, over the relay limit of {maxTxExtraSize}"
  | .nonZeroUnlockTime unlockTime =>
      s!"the unlock time is {unlockTime}; Wownero does not relay a transaction with a " ++
        "non-zero unlock time, though one is valid inside a block"
  | .doubleSpend => "double spend"
  | .alreadyInPool => "the transaction is already in the pool"
  | .invalidInput why => s!"an input is not valid: {why}"
  | .invalidOutput why => s!"an output is not valid: {why}"
  | .overspend => "the amounts do not balance"
  | .tooFewOutputs count => s!"{count} output(s); at least two are required"
  | .notParseable why => s!"the transaction does not parse: {why}"
  | .unsupportedRctType ty =>
      "RCT type " ++ rctTypeName ty ++ " is not one this node can verify yet, so the " ++
        "transaction is refused rather than taken on trust"

/-- The text of a parse error. -/
def parseErrorText : Archive.Error → String
  | .unexpectedEof => "unexpected end of input"
  | .varintOverflow => "varint overflows its destination type"
  | .varintNonCanonical => "non-canonical varint encoding"
  | .unknownVariantTag tag =>
      let digits := String.ofList (Nat.toDigits 16 tag.toNat)
      "unknown variant tag 0x" ++ (if tag.toNat < 16 then "0" else "") ++ digits
  | .limitExceeded what => s!"limit exceeded: {what}"
  | .invalidValue what => s!"invalid value: {what}"

/-! ### Verification -/

section Verify

variable (C : Crypto)

/-- The commitments the range proof is about: type 8 stores them over eight, type 9 whole. -/
def rangeProofCommitments (rct : RctSignatures) : Option (List EcPoint) :=
  if rct.ty.isBpPlusLegacy then some rct.outPk else rct.outPk.mapM C.div8

/-- The range proof. -/
def checkRangeProof (rct : RctSignatures) : Except Rejection Unit :=
  match rct.bulletproofsPlus.head? with
  | none => .error (.invalidOutput "there is no range proof")
  | some wire =>
      match rangeProofCommitments C rct with
      | none => .error (.invalidOutput "an outPk does not decode")
      | some v =>
          match C.bppVerify ⟨v, wire⟩ with
          | .error e => .error (.invalidOutput e)
          | .ok () => .ok ()

/-- `to_absolute`, after the first offset. -/
def toAbsoluteFrom : Nat → List Nat → Option (List Nat)
  | _, [] => some []
  | acc, r :: rs => do
    let next ← checkedAdd acc r
    return next :: (← toAbsoluteFrom next rs)

/-- `to_absolute`. -/
def toAbsolute : List Nat → Option (List Nat)
  | [] => some []
  | r :: rs => do return r :: (← toAbsoluteFrom r rs)

def lockedText (slot height unlockTime : Nat) : String :=
  s!"input {slot}: a ring member from block {height} is locked (unlock time {unlockTime})"

def tooYoungText (slot newest : Nat) : String :=
  s!"input {slot}: a ring member from block {newest} is younger than 4 blocks"

/-- The first ring member still locked, if any. -/
def lockedMember (chainHeight now : Nat) (members : List OutputData) : Option OutputData :=
  members.find? fun m => !isTxSpendtimeUnlocked m.unlockTime chainHeight now

/-- The height of the youngest ring member. -/
def newestMember (members : List OutputData) : Nat := (members.map (·.height)).foldl max 0

/-- `check_ring_members`: every member unlocked, and from version 15 none too young. -/
def checkRingMembers (members : List OutputData) (slot chainHeight hfVersion now : Nat) :
    Except Rejection Unit :=
  match lockedMember chainHeight now members with
  | some m => .error (.invalidInput (lockedText slot m.height m.unlockTime))
  | none =>
      match checkMinOutputAge hfVersion (newestMember members) chainHeight with
      | .ok () => .ok ()
      | .error _ => .error (.invalidInput (tooYoungText slot (newestMember members)))

/-- The ring of an input: its members under amount zero, whatever amount the input declares. -/
def resolveRing (t : MainTables) (keyOffsets : List Nat) : Except Rejection (List OutputData) :=
  match toAbsolute keyOffsets with
  | none => .error (.invalidInput "the key offsets overflow")
  | some absolute =>
      match t.getOutputKeys C 0 absolute with
      | .error _ => .error (.invalidInput "a ring member is unknown: not found")
      | .ok keys => .ok keys

def ringMembers (keys : List OutputData) : List Crypto.RingMember :=
  keys.map fun k => ⟨k.pubkey, k.commitment⟩

/-- One ring signature. -/
def checkSignature (full : Hash256) (slot : Nat) (keys : List OutputData) (kImage : KeyImage)
    (sig : Clsag) (pseudoOut : EcPoint) : Except Rejection Unit :=
  match C.clsagVerify full sig kImage (ringMembers keys) pseudoOut with
  | .ok () => .ok ()
  | .error e =>
      let text := e.text
      .error (.invalidInput s!"input {slot}: {text}")

/-- One turn of the loop of `verify`. -/
def checkInput (t : MainTables) (hfVersion chainHeight now : Nat) (full : Hash256) (slot : Nat)
    (input : TxIn) (sig : Clsag) (pseudoOut : EcPoint) : Except Rejection Unit :=
  match input with
  | .toKey _ keyOffsets kImage => do
      let keys ← resolveRing C t keyOffsets
      checkRingMembers keys slot chainHeight hfVersion now
      checkSignature C full slot keys kImage sig pseudoOut
  | _ => .error (.invalidInput "a non-RingCT input in a RingCT transaction")

def checkInputs (t : MainTables) (hfVersion chainHeight now : Nat) (full : Hash256) :
    Nat → List (TxIn × Clsag × EcPoint) → Except Rejection Unit
  | _, [] => .ok ()
  | slot, (input, sig, pseudoOut) :: rest => do
      checkInput C t hfVersion chainHeight now full slot input sig pseudoOut
      checkInputs t hfVersion chainHeight now full (slot + 1) rest

/-- The message the ring signatures of a transaction sign. -/
def signedMessage (tx : Transaction) : Hash256 :=
  preMlsagHash C.cnFastHash (txPrefixHash C.cnFastHash tx.txPrefix) tx.rctSignatures

/-- What `verify` checks without looking at the chain or the clock. -/
def checkShape (tx : Transaction) : Except Rejection Unit :=
  let rct := tx.rctSignatures
  let inputs := tx.txPrefix.vin.length
  if !rct.ty.isBulletproofPlus then .error (.unsupportedRctType rct.ty)
  else if tx.txPrefix.vout.length < 2 then .error (.tooFewOutputs tx.txPrefix.vout.length)
  else if rct.clsags.length ≠ inputs ∨ rct.pseudoOuts.length ≠ inputs then
    .error (.invalidInput "the signature count does not match the input count")
  else do
    checkRangeProof C rct
    if C.balances rct then .ok () else .error .overspend

/-- `verify`. -/
def verify (t : MainTables) (tx : Transaction) (hfVersion chainHeight now : Nat) :
    Except Rejection Unit := do
  checkShape C tx
  checkInputs C t hfVersion chainHeight now (signedMessage C tx) 0
    (tx.txPrefix.vin.zip (tx.rctSignatures.clsags.zip tx.rctSignatures.pseudoOuts))

end Verify

/-! ### The pool -/

/-- `RelayMethod`. -/
inductive RelayMethod where
  | none
  | local
  | forward
  | stem
  | block
  | fluff
  deriving DecidableEq, Repr

/-- `rank`: how far along a relay method is. -/
def RelayMethod.rank : RelayMethod → Nat
  | .none => 0
  | .local => 1
  | .forward => 2
  | .stem => 3
  | .fluff => 4
  | .block => 5

/-- `PoolEntry`. -/
structure PoolEntry where
  blob : Blob
  weight : Nat
  fee : Nat
  receiveTime : Nat
  relay : RelayMethod
  relayed : Bool
  doubleSpendSeen : Bool
  deriving DecidableEq, Repr

/-- `is_public`. -/
def PoolEntry.isPublic (e : PoolEntry) : Bool := e.relay == .fluff || e.relay == .block

/-- `is_legacy`. -/
def PoolEntry.isLegacy (e : PoolEntry) : Bool := e.isPublic || e.relay == .none

/-- `TxPool`. -/
structure TxPool where
  byId : Table Hash256 PoolEntry
  spent : Table KeyImage Hash256
  weight : Nat
  maxWeight : Nat
  relayedAt : Table Hash256 Nat

/-- `TxPool::new`. -/
def TxPool.new : TxPool := ⟨.empty, .empty, 0, 648000000, .empty⟩

structure Admitted where
  id : Hash256
  relay : RelayMethod
  deriving DecidableEq, Repr

/-- `remove`. -/
def TxPool.remove (p : TxPool) (id : Hash256) : TxPool :=
  match p.byId.get id with
  | none => p
  | some entry =>
      { p with
        byId := p.byId.del id
        relayedAt := p.relayedAt.del id
        weight := p.weight - entry.weight
        spent := (p.spent.rows.filter fun row => row.2 == id).foldl
          (fun spent row => spent.del row.1) p.spent }

/-- `expire`: three days in the pool, or a week for what came out of a block. -/
def TxPool.expire (p : TxPool) (now : Nat) : TxPool :=
  let stale := p.byId.rows.filter fun row =>
    now - row.2.receiveTime > (if row.2.relay = .block then 7 else 3) * 86400
  stale.foldl (fun p row => p.remove row.1) p

/-- `fee_rate`. -/
def feeRate (e : PoolEntry) : Float :=
  if e.weight = 0 then 0
  else (UInt64.ofNat e.fee).toFloat / (UInt64.ofNat e.weight).toFloat

/-- The loop of `evict_to_fit`. -/
def TxPool.evict (p : TxPool) : List Hash256 → TxPool
  | [] => p
  | id :: ids => if p.weight ≤ p.maxWeight then p else (p.remove id).evict ids

/-- `evict_to_fit`: the worst-paying first.  Among equals the source takes the order of its hash
    map, which is any; here it is that of the ids. -/
def TxPool.evictToFit (p : TxPool) : TxPool :=
  let order := p.byId.rows.mergeSort fun a b => feeRate a.2 ≤ feeRate b.2
  p.evict (order.map (·.1))

/-- `spent_in_pool`. -/
def TxPool.spentInPool (p : TxPool) (kImage : KeyImage) (id : Hash256) : Bool :=
  match p.spent.get kImage with
  | none => false
  | some owner => owner != id || (p.byId.get owner).any PoolEntry.isLegacy

/-- `check_unspent`. -/
def TxPool.checkUnspent (p : TxPool) (t : MainTables) (kImage : KeyImage) (id : Hash256) :
    Except Rejection Unit :=
  if t.hasKeyImage kImage || p.spentInPool kImage id then .error .doubleSpend else .ok ()

def TxPool.checkAllUnspent (p : TxPool) (t : MainTables) (id : Hash256) : List KeyImage →
    Except Rejection Unit
  | [] => .ok ()
  | kImage :: images => do
      p.checkUnspent t kImage id
      p.checkAllUnspent t id images

/-- `insert`. -/
def TxPool.insert (p : TxPool) (id : Hash256) (tx : Transaction) (entry : PoolEntry) : TxPool :=
  { p with
    byId := p.byId.put id entry
    spent := tx.keyImages.foldl (fun spent kImage => spent.put kImage id) p.spent
    weight := p.weight + entry.weight }

/-- The policy of relaying, which no block is held to: size, fee, extra and unlock time. -/
def checkPolicy (ctx : FeeContext) (tx : Transaction) (weight : Nat) : Except Rejection Unit :=
  if weight > maxTxSize then .error (.tooBig weight)
  else
    match requiredFee ctx weight with
    | none => .error (.invalidInput "BlockTooBig")
    | some required =>
        if tx.rctSignatures.txnFee < required.acceptedMinimum then
          .error (.feeTooLow tx.rctSignatures.txnFee required.needed)
        else if tx.txPrefix.extra.length > maxTxExtraSize then
          .error (.txExtraTooBig tx.txPrefix.extra.length)
        else if tx.txPrefix.unlockTime ≠ 0 then
          .error (.nonZeroUnlockTime tx.txPrefix.unlockTime)
        else .ok ()

/-- A transaction and its id, or why there is none. -/
def identify (C : Crypto) (blob : Blob) : Except Rejection (Transaction × Hash256) :=
  match Transaction.fromBlob blob with
  | .error e => .error (.notParseable (parseErrorText e))
  | .ok tx =>
      match transactionHashFromBlob C.cnFastHash tx blob with
      | none => .error (.notParseable "no transaction hash")
      | some id => .ok (tx, id)

/-- Whether the pool or the chain knows a transaction already. -/
def TxPool.knows (p : TxPool) (t : MainTables) (id : Hash256) : Bool :=
  (p.byId.get id).any PoolEntry.isLegacy || t.txExists id

def TxPool.checkNew (p : TxPool) (t : MainTables) (id : Hash256) : Except Rejection Unit :=
  if p.knows t id then .error .alreadyInPool else .ok ()

/-- The checks of `add`, in order: the transaction and its id. -/
def TxPool.admissible (C : Crypto) (p : TxPool) (t : MainTables) (blob : Blob) (ctx : FeeContext)
    (now : Nat) : Except Rejection (Transaction × Hash256) := do
  let parsed ← identify C blob
  p.checkNew t parsed.2
  checkPolicy ctx parsed.1 (getTransactionWeight parsed.1 blob.length)
  p.checkAllUnspent t parsed.2 parsed.1.keyImages
  verify C t parsed.1 ctx.version t.height now
  return parsed

/-- What `add` does with an admissible transaction: one held privately moves on, a new one is
    filed. -/
def TxPool.take (p : TxPool) (tx : Transaction) (id : Hash256) (blob : Blob) (now : Nat)
    (method : RelayMethod) : RelayMethod × TxPool :=
  let relayed := method == .stem || method == .fluff || method == .forward
  match p.byId.get id with
  | some entry =>
      let method := if method = .stem ∧ entry.relay = .stem then .fluff else method
      if entry.relay.rank < method.rank then
        (method, { p with byId := p.byId.put id { entry with
          relay := method, receiveTime := now, relayed := relayed, doubleSpendSeen := false } })
      else (method, p)
  | none =>
      let entry : PoolEntry := ⟨blob, getTransactionWeight tx blob.length,
        tx.rctSignatures.txnFee, now, method, relayed, false⟩
      (method, ((p.expire now).insert id tx entry).evictToFit)

/-- `TxPool::add`. -/
def TxPool.add (C : Crypto) (p : TxPool) (t : MainTables) (blob : Blob) (ctx : FeeContext)
    (now : Nat) (method : RelayMethod) : Except Rejection Admitted × TxPool :=
  match p.admissible C t blob ctx now with
  | .error e => (.error e, p)
  | .ok (tx, id) =>
      let taken := p.take tx id blob now method
      -- A transaction that pays nothing is never relayed.
      (.ok ⟨id, if tx.rctSignatures.txnFee > 0 then taken.1 else .none⟩, taken.2)

end Wownero.Mempool
