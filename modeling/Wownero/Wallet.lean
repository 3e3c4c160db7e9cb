import Wownero.Scan
/-!
# The wallet's money

The outputs a wallet holds, the transactions that spent them, and everything that marks an output
spent or gives it back: a block, a transaction handed to a node, one found in a node's pool, the
judgement that a transaction has failed, and blocks taken back by a reorganisation.

`spent_height` has three readings: the height of the block that spends the output, zero for an
output spent by a transaction not yet in a block, and zero for one that is not spent.
-/

namespace Wownero

open Wownero.Archive

/-! ### Outputs and sends -/

/-- One output the wallet owns. -/
structure Transfer where
  blockHeight : Nat
  txid : Hash256
  internalOutputIndex : Nat
  globalOutputIndex : Nat
  publicKey : PublicKey
  derivation : KeyDerivation
  txPublicKey : PublicKey
  additionalTxKeys : List PublicKey
  keyImage : Option KeyImage
  keyImageRequest : Bool
  mask : Bytes32
  amount : Nat
  subaddress : SubaddressIndex
  spent : Bool
  spentHeight : Nat
  unlockTime : Nat
  isCoinbase : Bool
  timestamp : Nat
  paymentId : Option Hash8
  frozen : Bool
  deriving DecidableEq, Repr

/-- `PROPAGATION_TIMEOUT`. -/
def propagationTimeout : Nat := 500

inductive SentState where
  | pending
  | failed
  | confirmed (height : Nat)
  deriving DecidableEq, Repr

structure SentDestination where
  address : String
  amount : Nat
  deriving DecidableEq, Repr

/-- A transaction that spent this wallet's outputs. -/
structure SentTx where
  txid : Hash256
  state : SentState
  amountIn : Nat
  amountOut : Nat
  change : Nat
  destinations : List SentDestination
  paymentId : Option Hash8
  timestamp : Nat
  sentTime : Nat
  unlockTime : Nat
  account : UInt32
  minors : List UInt32
  keyImages : List KeyImage
  deriving DecidableEq, Repr

/-- `SentTx::height`. -/
def SentTx.height (s : SentTx) : Option Nat :=
  match s.state with
  | .confirmed h => some h
  | _ => none

/-- What `record_sent` reads of a `SpendPlan`. -/
structure SpendPlan where
  inputs : List Nat
  amounts : List Nat
  change : Nat
  fee : Nat
  deriving DecidableEq, Repr

/-- A transaction waiting in a node's pool. -/
structure PooledTx where
  txid : Hash256
  tx : Transaction
  receiveTime : Nat
  deriving DecidableEq, Repr

/-- What a transaction in a block showed about this wallet's spending. -/
structure SeenSpend where
  txid : Hash256
  height : Nat
  timestamp : Nat
  spent : Nat
  received : Nat
  fee : Nat
  unlockTime : Nat
  account : UInt32
  minors : List UInt32
  keyImages : List KeyImage
  deriving DecidableEq, Repr

/-- `AccountKeys`.  The spend key of a view-only wallet is zero. -/
structure AccountKeys where
  accountAddress : AccountPublicAddress
  spendSecretKey : SecretKey
  viewSecretKey : SecretKey
  deriving DecidableEq, Repr

/-- `is_view_only`. -/
def AccountKeys.isViewOnly (k : AccountKeys) : Bool := k.spendSecretKey == 0

/-- An index of the transfers: the last entry filed for a key counts. -/
abbrev TransferIndex := List (Bytes32 × Nat)

/-! ### The rings spent with -/

/-- `RingDb`: rings as absolute indices, by key image. -/
abbrev RingDb := List (KeyImage × List Nat)

/-- `relative_to_absolute`. -/
def relativeToAbsolute : Nat → List Nat → List Nat
  | _, [] => []
  | sum, o :: os => wrap64 (sum + o) :: relativeToAbsolute (wrap64 (sum + o)) os

/-- `RingDb::set_ring`. -/
def RingDb.setRing (db : RingDb) (keyImage : KeyImage) (outs : List Nat) (relative : Bool) : RingDb :=
  let ring := if relative then relativeToAbsolute 0 outs else outs
  (keyImage, ring.insertionSort (· ≤ ·)) :: db.filter (·.1 != keyImage)

/-- `RingDb::add_rings`. -/
def RingDb.addRings (db : RingDb) (p : TransactionPrefix) : RingDb :=
  p.vin.foldl (fun db input =>
    match input with
    | .toKey _ keyOffsets kImage =>
        if keyOffsets.length > 1 then RingDb.setRing db kImage keyOffsets true else db
    | _ => db) db

/-! ### The state -/

/-- The wallet's view of the chain and of its own money. -/
structure WalletState where
  account : AccountKeys
  subaddresses : SubaddressTable
  hashes : List Hash256
  startHeight : Nat
  refreshFromHeight : Nat
  trustedDaemon : Bool := false
  transfers : List Transfer := []
  byKeyImage : TransferIndex := []
  byPublicKey : TransferIndex := []
  sent : List SentTx := []
  rings : RingDb := []
  maxReorgDepth : Nat := 0
  genesis : Hash256
  batchSize : Nat
  checkpoint : Option (Nat × Hash256)
  fill : List Hash256 := []
  firstRefreshDone : Bool := false
  everRefreshed : Bool := false
  deriving DecidableEq, Repr

/-- `MAX_BLOCKS_PER_CALL`. -/
def maxBlocksPerCall : Nat := 1000

/-- `WalletState::new`. -/
def WalletState.new (account : AccountKeys) (subaddresses : SubaddressTable) (startHeight : Nat)
    (genesis : Hash256) (checkpoint : Option (Nat × Hash256)) : WalletState :=
  { account := account
    subaddresses := subaddresses
    hashes := if startHeight = 0 then [genesis] else []
    startHeight := startHeight
    refreshFromHeight := startHeight
    genesis := genesis
    batchSize := maxBlocksPerCall
    checkpoint := checkpoint }

namespace WalletState

/-- `scan_height`. -/
def scanHeight (w : WalletState) : Nat := w.startHeight + w.hashes.length

/-- `WalletState::keys`. -/
def keys (w : WalletState) : ScanKeys :=
  { address := w.account.accountAddress
    viewSecretKey := w.account.viewSecretKey
    spendSecretKey := if w.account.isViewOnly then none else some w.account.spendSecretKey
    subaddresses := w.subaddresses }

/-- One transfer rewritten in place. -/
def modifyTransfer (w : WalletState) (i : Nat) (f : Transfer → Transfer) : WalletState :=
  { w with transfers := w.transfers.modify i f }

/-- `pending_change`. -/
def pendingChange (w : WalletState) : Nat :=
  wrap64 ((w.sent.filter (·.state == .pending)).map (·.change)).sum

/-- `balance`. -/
def balance (w : WalletState) : Nat :=
  wrap64 (((w.transfers.filter fun t => !t.spent && !t.frozen).map (·.amount)).sum
    + w.pendingChange)

/-! ### Spent by a transaction not yet in a block -/

/-- `is_pending_input`. -/
def isPendingInput (w : WalletState) (image : KeyImage) : Bool :=
  w.sent.any fun s => s.state == .pending && s.keyImages.contains image

/-- What `set_inputs_spent` does to one transfer. -/
def setSpent (spent : Bool) (t : Transfer) : Transfer :=
  if spent && !t.spent then { t with spent := true, spentHeight := 0 }
  else if !spent && t.spent && t.spentHeight == 0 then { t with spent := false }
  else t

/-- One turn of `set_inputs_spent`. -/
def setInputSpent (spent : Bool) (w : WalletState) (image : KeyImage) : WalletState :=
  match w.byKeyImage.lookup image with
  | none => w
  | some i => w.modifyTransfer i (setSpent spent)

/-- `set_inputs_spent`. -/
def setInputsSpent (w : WalletState) (images : List KeyImage) (spent : Bool) : WalletState :=
  images.foldl (setInputSpent spent) w

/-- The inputs of every transaction still waiting for a block. -/
def pendingInputs (w : WalletState) : List KeyImage :=
  (w.sent.filter (·.state == .pending)).flatMap (·.keyImages)

/-- `spend_pending_inputs`. -/
def spendPendingInputs (w : WalletState) : WalletState := w.setInputsSpent w.pendingInputs true

/-! ### Sending -/

/-- `sort_unstable` and `dedup` of minor indices. -/
def sortedMinors (minors : List UInt32) : List UInt32 := (minors.insertionSort (· ≤ ·)).dedup

/-- The transfers a plan spends. -/
def planned (w : WalletState) (plan : SpendPlan) : List Transfer :=
  plan.inputs.filterMap (w.transfers[·]?)

/-- `record_sent`. -/
def recordSent (w : WalletState) (txid : Hash256) (plan : SpendPlan) (payees : List String)
    (paymentId : Option Hash8) (now : Nat) : WalletState :=
  let inputs := w.planned plan
  let amountIn := wrap64 (inputs.map (·.amount)).sum
  let record : SentTx :=
    { txid := txid
      state := .pending
      amountIn := amountIn
      amountOut := amountIn - plan.fee
      change := plan.change
      destinations := List.zipWith SentDestination.mk payees plan.amounts
      paymentId := paymentId
      timestamp := now
      sentTime := max now 1
      unlockTime := 0
      account := (inputs.head?.map (·.subaddress.major)).getD 0
      minors := sortedMinors (inputs.map (·.subaddress.minor))
      keyImages := inputs.filterMap (·.keyImage) }
  let w := plan.inputs.foldl
    (fun w i => w.modifyTransfer i fun t => { t with spent := true, spentHeight := 0 }) w
  { w with
    sent :=
      match w.sent.findIdx? (·.txid == txid) with
      | some i => w.sent.set i record
      | none => w.sent ++ [record] }

/-- What `update_pending` decides about one record. -/
def judge (pool : List Hash256) (now : Nat) (s : SentTx) : SentTx :=
  if s.height.isSome then s
  else if pool.contains s.txid then { s with state := .pending }
  else if s.state == .pending && now > saturatingAdd s.sentTime propagationTimeout then
    { s with state := .failed }
  else s

/-- Whether `update_pending` judges a record failed just now. -/
def failsNow (pool : List Hash256) (now : Nat) (s : SentTx) : Bool :=
  s.state == .pending && (judge pool now s).state == .failed

/-- `update_pending`, with the transactions that failed just now. -/
def updatePending (w : WalletState) (pool : List Hash256) (now : Nat) :
    List Hash256 × WalletState :=
  let failed := w.sent.filter (failsNow pool now)
  let w := { w with sent := w.sent.map (judge pool now) }
  (failed.map (·.txid),
    (w.setInputsSpent (failed.flatMap (·.keyImages)) false).spendPendingInputs)

variable (C : Crypto)

/-- The transfers the inputs of a transaction name, with the images that name them. -/
def namedBy (w : WalletState) (tx : Transaction) : List (KeyImage × Transfer) :=
  tx.keyImages.filterMap fun k =>
    ((w.byKeyImage.lookup k).bind (w.transfers[·]?)).map fun t => (k, t)

/-- The record `note_pool_spends` makes of a pool transaction that spends the wallet's outputs. -/
def pooledRecord (w : WalletState) (p : PooledTx) (now : Nat) : Option SentTx :=
  let named := w.namedBy p.tx
  match named.getLast? with
  | none => none
  | some (_, last) =>
      let account := last.subaddress.major
      let amountIn := wrap64 (named.map (·.2.amount)).sum
      let back := ((scanTransaction C p.tx w.keys).toOption.getD []).filter fun r =>
        r.subaddress.major == account
      some
        { txid := p.txid
          state := .pending
          amountIn := amountIn
          amountOut := amountIn - (p.tx.fee).getD 0
          change := wrap64 (back.map (·.amount)).sum
          destinations := []
          paymentId := none
          timestamp := if p.receiveTime > 0 then p.receiveTime else now
          sentTime := max now 1
          unlockTime := p.tx.txPrefix.unlockTime
          account := account
          minors := sortedMinors (named.map (·.2.subaddress.minor))
          keyImages := named.map (·.1) }

/-- One turn of `note_pool_spends`, with the transactions recorded so far. -/
def notePoolTx (now : Nat) (found : List Hash256 × WalletState) (p : PooledTx) :
    List Hash256 × WalletState :=
  if found.2.sent.any (·.txid == p.txid) then found
  else
    match found.2.pooledRecord C p now with
    | none => found
    | some record => (found.1 ++ [p.txid], { found.2 with sent := found.2.sent ++ [record] })

/-- `note_pool_spends`. -/
def notePoolSpends (w : WalletState) (pool : List PooledTx) (now : Nat) :
    List Hash256 × WalletState :=
  let found := pool.foldl (notePoolTx C now) ([], w)
  (found.1, found.2.spendPendingInputs)

/-! ### Taking blocks back -/

/-- What `detach_sent` leaves of one record. -/
def detachRecord (height : Nat) (s : SentTx) : Option SentTx :=
  match s.state with
  | .confirmed h =>
      if h ≥ height then
        if s.sentTime = 0 then none
        else some { s with state := .pending, timestamp := s.sentTime }
      else some s
  | _ => some s

/-- `detach_sent`. -/
def detachSent (w : WalletState) (height : Nat) : WalletState :=
  { w with sent := w.sent.filterMap (detachRecord height) }.spendPendingInputs

/-- `reindex`. -/
def reindex (w : WalletState) : WalletState :=
  { w with
    byKeyImage := w.transfers.zipIdx.foldl
      (fun index p => match p.1.keyImage with
        | some k => (k, p.2) :: index
        | none => index) []
    byPublicKey := w.transfers.zipIdx.foldl (fun index p => (p.1.publicKey, p.2) :: index) [] }

/-- A spend in a block at `height` or above is undone. -/
def unspendFrom (height : Nat) (t : Transfer) : Transfer :=
  if t.spent && t.spentHeight ≥ height then { t with spent := false, spentHeight := 0 } else t

/-- `detach`. -/
def detach (w : WalletState) (height : Nat) : WalletState :=
  let kept : WalletState :=
    { w with
      hashes := w.hashes.take (height - w.startHeight)
      transfers := (w.transfers.filter fun t : Transfer => t.blockHeight < height).map (unspendFrom height) }
  kept.reindex.detachSent height

end WalletState

end Wownero
