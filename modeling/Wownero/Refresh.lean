import Wownero.Block
import Wownero.Wallet
/-!
# The refresh loop

One call of the wallet to a node, and what it makes of the answer.  The wallet names the blocks
it holds, newest first and thinning out; the node answers from the newest of them it has, that
block included.  A block the wallet holds already is compared, not scanned, and the first that
differs is where the chains split: what was scanned from there on is taken back.
-/

namespace Wownero

open Wownero.Archive

/-! ### What a node answers -/

/-- `MIN_BLOCKS_PER_CALL`. -/
def minBlocksPerCall : Nat := 2

/-- `FIRST_REFRESH_GRANULARITY`. -/
def firstRefreshGranularity : Nat := 1024

/-- A block and its transactions. -/
structure BlockBundle where
  block : Blob
  txs : List Blob := []
  outputIndices : List (List Nat) := []
  pruned : Bool := false
  deriving DecidableEq, Repr

/-- A run of blocks, as `getblocks.bin` answers. -/
structure BlockSource.Batch where
  blocks : List BlockBundle
  startHeight : Nat
  currentHeight : Nat
  deriving DecidableEq, Repr

/-- Block hashes, as `gethashes.bin` lists them. -/
structure Hashes where
  hashes : List Hash256
  startHeight : Nat
  currentHeight : Nat
  deriving DecidableEq, Repr

/-- An error of a source, with its text. -/
structure SourceError where
  text : String
  cutShort : Bool := false
  deriving DecidableEq, Repr

/-- `BlockSource`. -/
structure BlockSource where
  getBlocks : List Hash256 → Nat → Nat → Except SourceError BlockSource.Batch
  getHashes : List Hash256 → Except SourceError (Option Hashes) := fun _ => .ok none

/-- Why a block could not be read. -/
inductive BadBlock where
  | unparsed (e : Error)
  | noId
  | txCount (txs hashes : Nat)
  deriving DecidableEq, Repr

inductive RefreshError where
  | source (text : String)
  | badBlock (height : Nat) (reason : BadBlock)
  | badTransaction (height : Nat) (reason : Error)
  | gapInChain (got tip : Nat)
  | brokenChain (height : Nat) (names expected : Hash256)
  | reorgTooDeep (depth limit : Nat)
  | noProgress (start current : Nat)
  | unaskedHashes (got : Nat)
  | shortChain (top held : Nat)
  deriving DecidableEq, Repr

inductive RefreshEvent where
  | received (height : Nat) (txid : Hash256) (amount burnt : Nat) (subaddress : SubaddressIndex)
  | spent (height : Nat) (txid : Hash256) (amount : Nat) (subaddress : SubaddressIndex)
  deriving DecidableEq, Repr

structure RefreshSummary where
  blocksScanned : Nat := 0
  received : Nat := 0
  spent : Nat := 0
  reorgTo : Option Nat := none
  caughtUp : Bool := false
  currentHeight : Nat := 0
  events : List RefreshEvent := []
  deriving DecidableEq, Repr

/-- What recording an output did. -/
inductive Receipt where
  | new
  | replaced (burnt : Nat)
  | ignored
  deriving DecidableEq, Repr

/-- `Transaction::from_blob_base_only`: the prefix, and for version 2 the RingCT base. -/
def Transaction.readBaseOnly : Parse Transaction := do
  let start ← pos
  let p ← TransactionPrefix.read
  let prefixSize := (← pos) - start
  if p.version = 1 ∨ p.vin.isEmpty then
    return ⟨p, [], {}, prefixSize, prefixSize⟩
  else
    let inputs := p.vin.length
    let outputs := p.vout.length
    if inputs ≥ rctDimMax ∨ outputs ≥ rctDimMax ∨ mixinOf p.vin ≥ rctDimMax then
      throw (.limitExceeded "rct dimension")
    let base ← RctSignatures.readBase inputs outputs
    return ⟨p, [], base, prefixSize, (← pos) - start⟩

/-- The transaction a bundle carries in this blob. -/
def BlockBundle.parseTx (b : BlockBundle) (blob : Blob) : Except Error Transaction :=
  if b.pruned then parse Transaction.readBaseOnly blob else Transaction.fromBlob blob

namespace WalletState

/-! ### One transaction -/

/-- A transfer spent by a block.  Spent at height zero is spent by a transaction that was not in
    a block yet. -/
def spendAt (height : Nat) (t : Transfer) : Transfer :=
  if !t.spent || t.spentHeight == 0 then { t with spent := true, spentHeight := height } else t

/-- `add_transfer`. -/
def addTransfer (w : WalletState) (t : Transfer) : Receipt × WalletState :=
  match (w.byPublicKey.lookup t.publicKey).bind fun i => (w.transfers[i]?).map fun held => (i, held) with
  | some (i, held) =>
      if held.spent || held.amount ≥ t.amount then (.ignored, w)
      else
        let keyImage := held.keyImage.orElse fun _ => t.keyImage
        let kept :=
          { t with keyImage := keyImage, keyImageRequest := keyImage.isNone, frozen := held.frozen }
        (.replaced held.amount, w.modifyTransfer i fun _ => kept)
  | none =>
      let i := w.transfers.length
      (.new,
        { w with
          transfers := w.transfers ++ [t]
          byKeyImage := match t.keyImage with
            | some k => (k, i) :: w.byKeyImage
            | none => w.byKeyImage
          byPublicKey := (t.publicKey, i) :: w.byPublicKey })

/-- `spend_seen`. -/
def spendSeen (w : WalletState) (seen : SeenSpend) : WalletState :=
  let confirm (s : SentTx) : SentTx :=
    { s with
      state := .confirmed seen.height
      timestamp := seen.timestamp
      unlockTime := seen.unlockTime
      change := if seen.spent = wrap64 (seen.received + seen.fee) then seen.received else s.change }
  match w.sent.findIdx? (·.txid == seen.txid) with
  | some i => { w with sent := w.sent.modify i confirm }
  | none =>
      { w with
        sent := w.sent ++ [confirm
          { txid := seen.txid
            state := .confirmed seen.height
            amountIn := seen.spent
            amountOut := seen.spent - seen.fee
            change := seen.received
            destinations := []
            paymentId := none
            timestamp := seen.timestamp
            sentTime := 0
            unlockTime := seen.unlockTime
            account := seen.account
            minors := seen.minors
            keyImages := seen.keyImages }] }

/-- The loop over the inputs: every output of ours they consume is spent at this height. -/
def spendInputs (w : WalletState) (height : Nat) (images : List KeyImage) : WalletState :=
  images.foldl (fun w k =>
    match w.byKeyImage.lookup k with
    | none => w
    | some i => w.modifyTransfer i (spendAt height)) w

/-- The spends reported: of the inputs that name a transfer, those that find it unspent, or spent
    by a transaction not yet in a block. -/
def spendEvents (w : WalletState) (height : Nat) (txid : Hash256) : List KeyImage → List RefreshEvent
  | [] => []
  | k :: ks =>
      match w.byKeyImage.lookup k with
      | none => spendEvents w height txid ks
      | some i =>
          let rest := spendEvents (w.modifyTransfer i (spendAt height)) height txid ks
          match w.transfers[i]? with
          | none => rest
          | some t =>
              if !t.spent || t.spentHeight == 0 then
                .spent height txid t.amount t.subaddress :: rest
              else rest

section

variable (C : Crypto)

/-- The transfer made of an output a scan found. -/
def transferOf (w : WalletState) (height timestamp : Nat) (tx : Transaction) (txid : Hash256)
    (globalIndices : List Nat) (r : Received) : Transfer :=
  let extra := parseTxExtra tx.txPrefix.extra
  { blockHeight := height
    txid := txid
    internalOutputIndex := r.outputIndex
    globalOutputIndex := globalIndices.getD r.outputIndex 0
    publicKey := r.publicKey
    derivation := r.derivation
    txPublicKey := extra.txPubkey.getD 0
    additionalTxKeys := extra.additionalPubkeys
    keyImage := r.keyImage
    keyImageRequest := r.keyImage.isNone
    mask := r.mask
    amount := r.amount
    subaddress := r.subaddress
    spent := r.keyImage.any w.isPendingInput
    spentHeight := 0
    unlockTime := tx.txPrefix.unlockTime
    isCoinbase := tx.isCoinbase
    timestamp := timestamp
    paymentId := paymentId C tx w.account.viewSecretKey
    frozen := false }

/-- The loop over the outputs found, with what came back to the spending account. -/
def receiveOutputs (height timestamp : Nat) (tx : Transaction) (txid : Hash256)
    (globalIndices : List Nat) (account : Option UInt32) :
    List Received → WalletState → Nat → RefreshSummary → (WalletState × Nat) × RefreshSummary
  | [], w, received, summary => ((w, received), summary)
  | r :: found, w, received, summary =>
      match w.addTransfer (transferOf C w height timestamp tx txid globalIndices r) with
      | (.ignored, w) =>
          receiveOutputs height timestamp tx txid globalIndices account found w received summary
      | (receipt, w) =>
          let burnt := match receipt with
            | .replaced burnt => burnt
            | _ => 0
          let received :=
            if some r.subaddress.major = account then wrap64 (received + (r.amount - burnt))
            else received
          let summary :=
            { summary with
              received := if receipt = .new then summary.received + 1 else summary.received
              events := summary.events ++ [.received height txid r.amount burnt r.subaddress] }
          receiveOutputs height timestamp tx txid globalIndices account found w received summary

/-- `process_transaction`.  Spends come first, then receipts; derivations computed ahead of time
    find the same outputs (`scanTransactionWith_ready`). -/
def processTransaction (w : WalletState) (height timestamp : Nat) (tx : Transaction)
    (txid : Hash256) (globalIndices : List Nat) (summary : RefreshSummary) :
    WalletState × RefreshSummary :=
  let named := w.namedBy tx
  let account := named.getLast?.map (·.2.subaddress.major)
  let events := w.spendEvents height txid tx.keyImages
  let summary :=
    { summary with spent := summary.spent + events.length, events := summary.events ++ events }
  let w := w.spendInputs height tx.keyImages
  let found := (scanTransaction C tx w.keys).toOption.getD []
  let ((w, received), summary) :=
    receiveOutputs C height timestamp tx txid globalIndices account found w 0 summary
  match account with
  | none => (w, summary)
  | some account =>
      let w := { w with rings := RingDb.addRings w.rings tx.txPrefix }
      (w.spendSeen
        { txid := txid
          height := height
          timestamp := timestamp
          spent := wrap64 (named.map (·.2.amount)).sum
          received := received
          fee := (tx.fee).getD 0
          unlockTime := tx.txPrefix.unlockTime
          account := account
          minors := sortedMinors (named.map (·.2.subaddress.minor))
          keyImages := named.map (·.1) },
        summary)

/-! ### One block -/

/-- The loop over the transactions of a block.  What was scanned before one that does not parse
    stays. -/
def processTransactions (bundle : BlockBundle) (height timestamp : Nat) :
    Nat → List (Blob × Hash256) → WalletState → RefreshSummary →
      Except RefreshError RefreshSummary × WalletState
  | _, [], w, summary => (.ok summary, w)
  | slot, (blob, txid) :: rest, w, summary =>
      match bundle.parseTx blob with
      | .error e => (.error (.badTransaction height e), w)
      | .ok tx =>
          let (w, summary) := w.processTransaction C height timestamp tx txid
            (bundle.outputIndices.getD slot []) summary
          processTransactions bundle height timestamp (slot + 1) rest w summary

/-- The hash of a block put on the end. -/
def pushHash (w : WalletState) (height : Nat) (hash : Hash256) : WalletState :=
  if height = w.scanHeight then { w with hashes := w.hashes ++ [hash] } else w

/-- The parent a block at the tip has to name. -/
def breaksChain (w : WalletState) (height : Nat) (block : Block) : Option Hash256 :=
  w.hashes.getLast?.filter fun previous => height == w.scanHeight && block.header.prevId != previous

/-- `process_block`. -/
def processBlock (w : WalletState) (height : Nat) (block : Block) (blockHash : Hash256)
    (bundle : BlockBundle) (summary : RefreshSummary) :
    Except RefreshError RefreshSummary × WalletState :=
  match w.breaksChain height block with
  | some previous => (.error (.brokenChain height block.header.prevId previous), w)
  | none =>
      if height < w.refreshFromHeight then (.ok summary, w.pushHash height blockHash)
      else if bundle.txs.length ≠ block.txHashes.length then
        (.error (.badBlock height (.txCount bundle.txs.length block.txHashes.length)), w)
      else
        let timestamp := block.header.timestamp
        let (w, summary) := w.processTransaction C height timestamp block.minerTx
          ((transactionHash C.cnFastHash block.minerTx).getD nullHash)
          (bundle.outputIndices.headD []) summary
        match processTransactions C bundle height timestamp 1 (bundle.txs.zip block.txHashes) w
            summary with
        | (.error e, w) => (.error e, w)
        | (.ok summary, w) => (.ok summary, w.pushHash height blockHash)

/-- `parse_block`. -/
def parseBundle (height : Nat) (bundle : BlockBundle) : Except RefreshError (Block × Hash256) :=
  match Block.fromBlob bundle.block with
  | .error e => .error (.badBlock height (.unparsed e))
  | .ok block =>
      match block.blockId C.cnFastHash with
      | none => .error (.badBlock height .noId)
      | some id => .ok (block, id)

end

/-! ### The history a wallet sends -/

/-- The thinning loop of `history_at`: `i` is how far back from the tip, `out` how many hashes
    were sent already. -/
def historyLoop (held : List Hash256) : Nat → Nat → Nat → Nat → List Hash256
  | 0, _, _, _ => []
  | fuel + 1, i, step, out =>
      match held.reverse[i]? with
      | none => []
      | some hash =>
          let step := if out + 1 > 10 then step * 2 else step
          hash :: historyLoop held fuel (i + step) step (out + 1)

/-- An anchor put on the end of a history that does not end in it. -/
def pushAnchor (out : List Hash256) (anchor : Hash256) : List Hash256 :=
  if out.getLast? = some anchor then out else out ++ [anchor]

/-- `history_at`. -/
def historyAt (w : WalletState) (granularity : Nat) : List Hash256 :=
  match w.hashes with
  | [] => [w.genesis]
  | first :: _ =>
      let whole := w.scanHeight / max granularity 1 * max granularity 1
      let len := min (whole - w.startHeight) w.hashes.length
      let out := historyLoop (w.hashes.take len) len 0 1 0
      pushAnchor (pushAnchor out first) w.genesis

/-- `history_base`. -/
def historyBase (w : WalletState) : Nat :=
  match w.checkpoint with
  | some (height, _) => if w.refreshFromHeight > height then height else 0
  | none => 0

/-- `fill_target`. -/
def fillTarget (w : WalletState) : Option Nat :=
  let base := w.historyBase
  let target :=
    if w.hashes.isEmpty then max w.refreshFromHeight w.startHeight else w.startHeight
  if target > base ∧ (w.hashes.isEmpty ∨ w.startHeight > base) then some target else none

/-- `check_reorg_depth`. -/
def checkReorgDepth (w : WalletState) (depth : Nat) : Except RefreshError Unit :=
  if w.maxReorgDepth ≠ 0 ∧ depth > w.maxReorgDepth then
    .error (.reorgTooDeep depth w.maxReorgDepth)
  else .ok ()

/-- The hash the gathered ones start from. -/
def fillStart (w : WalletState) : Hash256 :=
  match w.checkpoint with
  | some (height, hash) => if w.historyBase > 0 ∧ height = w.historyBase then hash else w.genesis
  | none => w.genesis

/-- The loop of `fill_below` over the hashes listed: what is gathered then, and the hash listed at
    the target, if the list got that far. -/
def gatherHashes (base target : Nat) :
    Nat → List Hash256 → List Hash256 → Except RefreshError (List Hash256 × Option Hash256)
  | _, [], fill => .ok (fill, none)
  | height, hash :: rest, fill =>
      if height ≥ target then .ok (fill, some hash)
      else
        let at_ := height - base
        match fill[at_]? with
        | some held =>
            if held = hash then gatherHashes base target (height + 1) rest fill
            else if at_ = 0 then .error (.brokenChain height hash held)
            else gatherHashes base target (height + 1) rest (fill.take at_ ++ [hash])
        | none => gatherHashes base target (height + 1) rest (fill ++ [hash])

/-- The end of `fill_below`: the gathered hashes put under the held ones. -/
def joinFill (w : WalletState) (gathered : List Hash256) (reached : Bool)
    (atTarget : Option Hash256) (summary : RefreshSummary) :
    Except RefreshError RefreshSummary × WalletState :=
  let base := w.historyBase
  let join (w : WalletState) : WalletState :=
    { w with hashes := gathered ++ w.hashes, startHeight := base }
  match w.hashes with
  | [] => (.ok summary, join w)
  | first :: _ =>
      if !reached then (.error (.shortChain (base + gathered.length) w.startHeight), w)
      else if atTarget.any (· != first) then
        match w.checkReorgDepth (w.scanHeight - w.startHeight) with
        | .error e => (.error e, w)
        | .ok () =>
            (.ok { summary with reorgTo := some w.startHeight }, join (w.detach w.startHeight))
      else (.ok summary, join w)

/-- The history `fill_below` sends. -/
def fillHistory (w : WalletState) (fill : List Hash256) : List Hash256 :=
  pushAnchor (pushAnchor (fill.reverse.take 3) (fill.headD w.genesis)) w.genesis

/-- `fill_below`. -/
def fillBelow (w : WalletState) (source : BlockSource) (target : Nat) :
    Except RefreshError (Option RefreshSummary) × WalletState :=
  let base := w.historyBase
  let fill := if w.fill.isEmpty then [w.fillStart] else w.fill
  let w := { w with fill := fill }
  match source.getHashes (w.fillHistory fill) with
  | .error e => (.error (.source e.text), w)
  | .ok none => (.ok none, { w with fill := [] })
  | .ok (some listed) =>
      if listed.startHeight < base ∨ listed.startHeight ≥ base + fill.length then
        (.error (.unaskedHashes listed.startHeight), { w with fill := [] })
      else
        match gatherHashes base target listed.startHeight listed.hashes fill with
        | .error e => (.error e, { w with fill := [] })
        | .ok (gathered, atTarget) =>
            let reached := atTarget.isSome || base + gathered.length ≥ target
            let summary : RefreshSummary := { currentHeight := listed.currentHeight }
            if !reached && gathered.length > fill.length then
              (.ok (some summary), { w with fill := gathered })
            else
              match joinFill { w with fill := [] } gathered reached atTarget summary with
              | (.error e, w) => (.error e, w)
              | (.ok summary, w) => (.ok (some summary), w)

/-! ### One call -/

/-- The request, asked for again in smaller batches while the reply is cut short. -/
def requestBlocks (source : BlockSource) (history : List Hash256) (startHeight : Nat) :
    Nat → Nat → Except RefreshError BlockSource.Batch × Nat
  | 0, batchSize => (.error (.source "the reply was cut short"), batchSize)
  | fuel + 1, batchSize =>
      match source.getBlocks history startHeight batchSize with
      | .ok batch => (.ok batch, batchSize)
      | .error e =>
          if e.cutShort ∧ batchSize > minBlocksPerCall then
            requestBlocks source history startHeight fuel (max (batchSize / 2) minBlocksPerCall)
          else (.error (.source e.text), batchSize)

section

variable (C : Crypto)

/-- The loop of `refresh_once` over the blocks of a batch. -/
def processBlocks : Nat → List BlockBundle → WalletState → RefreshSummary →
    Except RefreshError RefreshSummary × WalletState
  | _, [], w, summary => (.ok summary, w)
  | height, bundle :: rest, w, summary =>
      if height < w.startHeight then processBlocks (height + 1) rest w summary
      else
        match parseBundle C height bundle with
        | .error e => (.error e, w)
        | .ok (block, hash) =>
            let add (w : WalletState) (summary : RefreshSummary) :
                Except RefreshError RefreshSummary × WalletState :=
              match w.processBlock C height block hash bundle summary with
              | (.error e, w) => (.error e, w)
              | (.ok summary, w) => processBlocks (height + 1) rest w
                  { summary with blocksScanned := summary.blocksScanned + 1 }
            if height < w.scanHeight then
              if w.hashes[height - w.startHeight]? = some hash then
                processBlocks (height + 1) rest w summary
              else
                match w.checkReorgDepth (w.scanHeight - height) with
                | .error e => (.error e, w)
                | .ok () => add (w.detach height) { summary with reorgTo := some height }
            else add w summary

/-- What `refresh_once` makes of a batch. -/
def processBatch (w : WalletState) (granularity : Nat) (batch : BlockSource.Batch) :
    Except RefreshError RefreshSummary × WalletState :=
  let summary : RefreshSummary := { currentHeight := batch.currentHeight }
  if batch.blocks.isEmpty then (.ok { summary with caughtUp := true }, w)
  else if batch.startHeight > w.scanHeight then
    (.error (.gapInChain batch.startHeight w.scanHeight), w)
  else if batch.startHeight < w.startHeight ∧ !w.hashes.isEmpty then
    match w.checkReorgDepth (w.scanHeight - w.startHeight) with
    | .error e => (.error e, w)
    | .ok () => (.ok { summary with reorgTo := some w.startHeight }, w.detach w.startHeight)
  else
    match processBlocks C batch.startHeight batch.blocks w summary with
    | (.error e, w) => (.error e, w)
    | (.ok summary, w) =>
        let summary := { summary with caughtUp := w.scanHeight ≥ batch.currentHeight }
        if summary.blocksScanned = 0 ∧ !summary.caughtUp ∧ granularity = 1 then
          (.error (.noProgress batch.startHeight batch.currentHeight), w)
        else (.ok summary, w)

/-- The rest of `refresh_once`, when no hashes are being filled in. -/
def refreshBlocks (w : WalletState) (source : BlockSource) :
    Except RefreshError RefreshSummary × WalletState :=
  let granularity := if w.firstRefreshDone || w.trustedDaemon then 1 else firstRefreshGranularity
  let startHeight := if w.hashes.isEmpty then w.startHeight else 0
  match requestBlocks source (w.historyAt granularity) startHeight (w.batchSize + 1) w.batchSize with
  | (.error e, batchSize) => (.error e, { w with batchSize := batchSize })
  | (.ok batch, batchSize) =>
      { w with
        batchSize := min (batchSize * 2) maxBlocksPerCall
        firstRefreshDone := true
        everRefreshed := true }.processBatch C granularity batch

/-- `refresh_once`. -/
def refreshOnce (w : WalletState) (source : BlockSource) :
    Except RefreshError RefreshSummary × WalletState :=
  match w.fillTarget with
  | none => w.refreshBlocks C source
  | some target =>
      match w.fillBelow source target with
      | (.error e, w) => (.error e, w)
      | (.ok (some summary), w) => (.ok summary, w)
      | (.ok none, w) => w.refreshBlocks C source

end

end WalletState

end Wownero
