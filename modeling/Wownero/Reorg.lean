import Wownero.Chain
/-!
# Alternative chains and reorganisations

The walk from a block back to the main chain, the checks an alternative block passes before it
is stored, the switch to a heavier alternative chain with its undo path, and the operations a
caller has: `handle_block`, `add_block` and `pop_blocks`.  At the end, runs of these operations
in any order.

An operation returns its result and the chain it leaves, also when the result is an error.
-/

namespace Wownero

open Wownero.TxRules Wownero.Difficulty

/-- One block of an alternative chain, as the walk back to the main chain finds it. -/
structure AltLink where
  id : Hash256
  block : Block
  blob : Blob
  data : AltBlockData
  deriving DecidableEq, Repr

/-- A main-chain block taken off during a reorganisation. -/
structure Popped where
  info : BlockInfo
  block : Block
  txs : List (Transaction × Blob)
  deriving DecidableEq, Repr

/-- `with_blob`: a transaction the store handed back, with its own serialisation. -/
def withBlob (tx : Transaction) : Transaction × Blob :=
  match Transaction.fromBlob tx.write with
  | .ok parsed => (parsed, tx.write)
  | .error _ => (tx, tx.write)

section

variable {σ : Type} (P : Params σ)

/-! ### The walk -/

/-- `have_block`. -/
def Store.haveBlock (s : Store) (id : Hash256) : Bool :=
  s.main.blockExists id || s.altBlocks.has id

/-- The loop of `alt_chain_to`, with the links found so far, oldest first. -/
def altWalk (s : Store) : Nat → Hash256 → List AltLink →
    Except BlockError (Option (List AltLink × Nat))
  | 0, _, _ => .error (.malformed "the stored alternative blocks do not descend in height")
  | fuel + 1, prev, links =>
      if s.main.blockExists prev then
        match s.main.getBlockHeight prev with
        | .ok split => .ok (some (links, split))
        | .error e => .error (.storage e)
      else
        match s.altBlocks.get prev with
        | none => .ok none
        | some (data, blob) =>
            if links.head?.any (fun l => data.height ≥ l.data.height) ∨ data.height = 0 then
              .error (.malformed "the stored alternative blocks do not descend in height")
            else
              match Block.fromBlob blob with
              | .error _ => .error (.malformed "a stored alternative block does not parse")
              | .ok block =>
                  altWalk s fuel block.header.prevId (⟨prev, block, blob, data⟩ :: links)

/-- As many turns as the walk can take: heights fall strictly and stay above zero. -/
def altFuel (s : Store) (prev : Hash256) : Nat :=
  match s.altBlocks.get prev with
  | none => 1
  | some (data, _) => data.height + 1

/-- `alt_chain_to`: the alternative blocks oldest first and the main-chain height they attach
    to, or `none` when the walk ends at a block this node has never seen. -/
def altChainTo (s : Store) (prev : Hash256) : Except BlockError (Option (List AltLink × Nat)) :=
  altWalk s (altFuel s prev) prev []

/-! ### The windows of an alternative block -/

/-- `alt_timestamps`: the alternative chain's own, newest first, then the main chain's from the
    split down until the window is full or the genesis block is reached. -/
def altTimestamps (t : MainTables) (links : List AltLink) (split version : Nat) :
    Except DbError (List Nat) :=
  let window := timestampCheckWindow version
  let own := links.reverse.map (·.block.header.timestamp)
  if own.length < window then do
    let stop := split - (window - own.length)
    let below ← (List.range' (stop + 1) (split - stop)).reverse.mapM t.getBlockTimestamp
    return own ++ below
  else .ok own

/-- The window `alt_difficulty` collects, as timestamps and cumulative difficulties. -/
def altWindow (t : MainTables) (links : List AltLink) (height version : Nat) :
    Except DbError (List (Nat × Nat)) :=
  let count := difficultyBlocksCount version
  let own := links.map fun l => (l.block.header.timestamp, l.data.cumulativeDifficulty)
  if links.length < count then do
    let stop := (links.head?.map (·.data.height)).getD height
    let fromMain := min (count - links.length) stop
    let start := max (stop - fromMain) 1
    let below ← readInfos t start stop
    return below.map (fun i => (i.timestamp, i.cumulativeDifficulty)) ++ own
  else .ok (own.drop (links.length - count))

/-- `alt_difficulty`. -/
def altDifficulty (t : MainTables) (links : List AltLink) (height version : Nat) :
    Except DbError Nat :=
  match P.fixedDifficulty with
  | some d => .ok (if t.height > 0 then d else 1)
  | none => do
      let window ← altWindow t links height version
      return nextDifficulty version (window.map (·.1)) (window.map (·.2)) height P.network

/-- The seed of an alternative block: on its own chain above the split, on the main chain
    below. -/
def altSeed (t : MainTables) (links : List AltLink) (split height : Nat) :
    Except Rejection Hash256 :=
  let seedHeight := rxSeedheight height
  match checkedSub seedHeight (split + 1) with
  | some i =>
      match links[i]? with
      | some l => .ok l.id
      | none => .error ⟨.proofOfWork, .malformed "seed height"⟩
  | none =>
      match t.getBlockHash seedHeight with
      | .ok seed => .ok seed
      | .error e => .error ⟨.proofOfWork, .storage e⟩

/-! ### The checks before an alternative block is stored -/

def altStepCheckpoint (height : Nat) : Except Rejection Unit :=
  if isAlternativeBlockAllowed P.network height then .ok ()
  else .error ⟨.checkpoint, .altBelowCheckpoint height⟩

/-- Only the median is compared: there is no limit on the future here. -/
def altStepTimestamp (t : MainTables) (blk : Block) (links : List AltLink) (split version : Nat) :
    Except Rejection Unit :=
  match altTimestamps t links split version with
  | .error e => .error ⟨.timestamp, .storage e⟩
  | .ok stamps =>
      if blk.header.timestamp < median stamps then
        .error ⟨.timestamp, .badTimestamp (.belowMedian (median stamps))⟩
      else .ok ()

def altStepDifficulty (t : MainTables) (links : List AltLink) (height version : Nat) :
    Except Rejection Nat :=
  match altDifficulty P t links height version with
  | .error e => .error ⟨.difficulty, .storage e⟩
  | .ok d => .ok d

def altStepCount (blk : Block) (txs : List (Transaction × Blob)) : Except Rejection Unit :=
  if txs.length ≠ blk.txHashes.length then
    .error ⟨.transactions, .malformed "transaction count does not match tx_hashes"⟩
  else .ok ()

/-- Everything `handle_alternative_block` asks of a block whose chain it has found, up to
    storing it: the difficulty the block has to be recorded with. -/
def altChecks (t : MainTables) (blk : Block) (txs : List (Transaction × Blob))
    (links : List AltLink) (split : Nat) : Except Rejection Nat := do
  let height := split + links.length + 1
  altStepCheckpoint P height
  stepHardFork P height blk
  let version := currentVersion P t
  altStepTimestamp t blk links split version
  let difficulty ← altStepDifficulty P t links height version
  checkPow P height blk (altSeed t links split height) difficulty
  stepCoinbase P t height blk
  altStepCount blk txs
  return difficulty

/-- The cumulative difficulty and the coins up to the parent of an alternative block. -/
def altParent (t : MainTables) (links : List AltLink) (split : Nat) :
    Except Rejection (Nat × Nat) :=
  match links.getLast? with
  | some l => .ok (l.data.cumulativeDifficulty, l.data.alreadyGeneratedCoins)
  | none =>
      match t.getBlockInfo split with
      | .ok info => .ok (info.cumulativeDifficulty, info.coins)
      | .error e => .error ⟨.commit, .storage e⟩

/-- What `alt_block_data_t` records of a block. -/
def altData (t : MainTables) (blk : Block) (txs : List (Transaction × Blob))
    (links : List AltLink) (split difficulty : Nat) : Except Rejection AltBlockData := do
  let parent ← altParent t links split
  let reward := blk.minerTx.txPrefix.vout.foldl (fun a o => saturatingAdd a o.amount) 0
  return {
    height := split + links.length + 1
    cumulativeWeight := cumulativeBlockWeight blk txs
    cumulativeDifficulty := wrap128 (parent.1 + difficulty)
    alreadyGeneratedCoins := saturatingAdd parent.2 reward }

/-! ### Taking blocks off -/

/-- `pop_block` on the chain's store. -/
def Chain.popBlock (c : Chain σ) : Except Rejection ((Block × List Transaction) × Chain σ) :=
  match c.db.main.popBlock P.crypto with
  | .error e => .error ⟨.commit, .storage e⟩
  | .ok (popped, main) => .ok (popped, { c with db := { c.db with main := main } }.observed P)

/-- The loop of `pop_blocks`. -/
def Chain.popMany : Nat → Chain σ → Except Rejection Unit × Chain σ
  | 0, c => (.ok (), c)
  | n + 1, c =>
      match Chain.popBlock P c with
      | .error e => (.error e, c)
      | .ok ((_, txs), c) =>
          popMany n { c with orphanedTxs := c.orphanedTxs ++ txs.map withBlob }

/-- `pop_blocks`. -/
def Chain.popBlocks (c : Chain σ) (n : Nat) : Except Rejection Nat × Chain σ :=
  let n := min n (c.height - 1)
  match Chain.popMany P n c with
  | (.error e, c) => (.error e, c)
  | (.ok (), c) =>
      match Chain.reloadState P c with
      | (.error e, c) => (.error e, c)
      | (.ok (), c) => (.ok n, c)

/-- Step 2 of the switch: pop the main chain down to the split, keeping each block whole. -/
def Chain.popTo (split : Nat) : Nat → Chain σ → List Popped → Except Rejection (List Popped) × Chain σ
  | 0, c, popped => (.ok popped, c)
  | fuel + 1, c, popped =>
      if c.height > split + 1 then
        match c.db.main.getBlockInfo (c.height - 1) with
        | .error e => (.error ⟨.commit, .storage e⟩, c)
        | .ok info =>
            match Chain.popBlock P c with
            | .error e => (.error e, c)
            | .ok ((block, txs), c) => popTo split fuel c (⟨info, block, txs.map withBlob⟩ :: popped)
      else (.ok popped, c)

/-- The first pops of the undo path, whose transactions nobody keeps. -/
def Chain.dropBlocks : Nat → Chain σ → Except Rejection Unit × Chain σ
  | 0, c => (.ok (), c)
  | n + 1, c =>
      match Chain.popBlock P c with
      | .error e => (.error e, c)
      | .ok (_, c) => dropBlocks n c

/-! ### The switch -/

/-- The transactions of every alternative block have to be at hand before the main chain is
    touched. -/
def gatherBodies (altTxs : Table Hash256 (List (Transaction × Blob))) : List AltLink →
    Except Rejection (List (List (Transaction × Blob)))
  | [] => .ok []
  | link :: links =>
      match altTxs.get link.id, link.block.txHashes with
      | some txs, _ => do return txs :: (← gatherBodies altTxs links)
      | none, [] => do return [] :: (← gatherBodies altTxs links)
      | none, hash :: _ => .error ⟨.transactions, .missingTx hash⟩

/-- Step 3: apply the alternative chain.  `some (i, r)` is the first block refused. -/
def Chain.applyAlt (now : Nat) : Nat → List (AltLink × List (Transaction × Blob)) → Chain σ →
    Option (Nat × Rejection) × Chain σ
  | _, [], c => (none, c)
  | i, (link, txs) :: rest, c =>
      match Chain.addBlock P c link.block link.blob txs now with
      | (.ok _, c) => applyAlt now (i + 1) rest c
      | (.error r, c) => (some (i, r), c)

/-- Put the popped blocks back, through the same twelve steps and the same clock. -/
def Chain.putBack (now : Nat) : List Popped → Chain σ → Except Rejection Unit × Chain σ
  | [], c => (.ok (), c)
  | p :: ps, c =>
      match Chain.addBlock P c p.block p.block.toBlob p.txs now with
      | (.ok _, c) => putBack now ps c
      | (.error r, c) => (.error ⟨.commit, .notRestored p.info.height r.step r.error⟩, c)

/-- Forget alternative blocks, their transactions included. -/
def Chain.removeAlts (links : List AltLink) (c : Chain σ) : Chain σ :=
  links.foldl (fun c l => { c with
    db := c.db.removeAltBlock l.id
    altTxs := c.altTxs.del l.id }) c

/-- The undo path, after `applied` blocks of the alternative chain were taken. -/
def Chain.restore (now applied : Nat) (chain : List AltLink) (popped : List Popped)
    (rejected : Rejection) (c : Chain σ) : Except Rejection Added × Chain σ :=
  match Chain.dropBlocks P applied c with
  | (.error e, c) => (.error e, c)
  | (.ok (), c) =>
      match Chain.reloadState P c with
      | (.error e, c) => (.error e, c)
      | (.ok (), c) =>
          match Chain.putBack P now popped c with
          | (.error e, c) => (.error e, c)
          | (.ok (), c) => (.error rejected, c.removeAlts (chain.drop applied))

/-- What came off the main chain is an alternative chain now. -/
def Chain.keepPopped (popped : List Popped) (c : Chain σ) : Chain σ :=
  popped.foldl (fun c p => { c with
    db := c.db.addAltBlock p.info.hash
      ⟨p.info.height, p.info.weight, p.info.cumulativeDifficulty, p.info.coins⟩ p.block.toBlob
    altTxs := c.altTxs.put p.info.hash p.txs }) c

/-- The transactions of popped blocks that the new chain does not contain. -/
def displacedTxs (t : MainTables) (popped : List Popped) : List (Transaction × Blob) :=
  (popped.flatMap (·.txs)).filter fun p =>
    !((transactionHashFromBlob P.crypto.cnFastHash p.1 p.2).any t.txExists)

/-- Step 5 and 4: the bookkeeping of a switch that went through. -/
def Chain.finishSwitch (chain : List AltLink) (popped : List Popped) (c : Chain σ) : Chain σ :=
  let c := (c.keepPopped popped).removeAlts chain
  { c with orphanedTxs := c.orphanedTxs ++ displacedTxs P c.db.main popped }

/-- `switch_to_alternative`. -/
def Chain.switchToAlternative (c : Chain σ) (chain : List AltLink) (split now : Nat) :
    Except Rejection Added × Chain σ :=
  match gatherBodies c.altTxs chain with
  | .error e => (.error e, c)
  | .ok bodies =>
      match Chain.popTo P split c.height c [] with
      | (.error e, c) => (.error e, c)
      | (.ok popped, c) =>
          match Chain.reloadState P c with
          | (.error e, c) => (.error e, c)
          | (.ok (), c) =>
              match Chain.applyAlt P now 0 (chain.zip bodies) c with
              | (some (i, rejected), c) => Chain.restore P now i chain popped rejected c
              | (none, c) =>
                  (.ok (.reorg (split + chain.length) popped.length),
                    Chain.finishSwitch P chain popped c)

/-! ### Handling a block -/

/-- Store a checked alternative block and switch to its chain if that has strictly more work. -/
def Chain.storeAlternative (c : Chain σ) (blk : Block) (blob : Blob)
    (txs : List (Transaction × Blob)) (now : Nat) (id : Hash256) (links : List AltLink)
    (split : Nat) (data : AltBlockData) : Except Rejection Added × Chain σ :=
  let c := { c with db := c.db.addAltBlock id data blob, altTxs := c.altTxs.put id txs }
  if data.cumulativeDifficulty ≤ c.state.cumulativeDifficulty then (.ok (.altChain data.height), c)
  else Chain.switchToAlternative P c (links ++ [⟨id, blk, blob, data⟩]) split now

/-- `handle_alternative_block`. -/
def Chain.handleAlternativeBlock (c : Chain σ) (blk : Block) (blob : Blob)
    (txs : List (Transaction × Blob)) (now : Nat) (id : Hash256) :
    Except Rejection Added × Chain σ :=
  match altChainTo c.db blk.header.prevId with
  | .error e => (.error ⟨.parentIsTip, e⟩, c)
  | .ok none => (.error ⟨.parentIsTip, .orphan blk.header.prevId⟩, c)
  | .ok (some (links, split)) =>
      match altChecks P c.db.main blk txs links split with
      | .error e => (.error e, c)
      | .ok difficulty =>
          match altData c.db.main blk txs links split difficulty with
          | .error e => (.error e, c)
          | .ok data => Chain.storeAlternative P c blk blob txs now id links split data

/-- `handle_block`. -/
def Chain.handleBlock (c : Chain σ) (blk : Block) (blob : Blob) (txs : List (Transaction × Blob))
    (now : Nat) : Except Rejection Added × Chain σ :=
  match blk.blockId P.crypto.cnFastHash with
  | none => (.error ⟨.haveIt, .malformed "no block id"⟩, c)
  | some id =>
      if c.db.haveBlock id then (.error ⟨.haveIt, .alreadyExists id⟩, c)
      else
        match topHash c.db.main with
        | some tip =>
            if blk.header.prevId ≠ tip then
              Chain.handleAlternativeBlock P c blk blob txs now id
            else Chain.addBlock P c blk blob txs now
        | none => Chain.addBlock P c blk blob txs now

end

end Wownero
