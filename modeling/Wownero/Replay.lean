import Wownero.Images
import Wownero.Progress
/-!
# Scanning and taking back

A wallet follows the chain of whatever node it asks, block by block, and takes blocks back by their
height when the chain changes.  What it should hold is what a scan of the blocks it has would find:
the money of a wallet is compared with a replay of its hashes.  Taking back undoes marks and drops
outputs and records by height alone, so it cannot bring back an output that a larger one with the
same key has replaced.
-/

namespace Wownero

open Wownero.Archive

/-! ### What a scan reads -/

/-- What a scan reads of a transaction, pruned or not. -/
def Transaction.bare (tx : Transaction) : Transaction :=
  { txPrefix := tx.txPrefix
    rctSignatures :=
      { ty := tx.rctSignatures.ty
        txnFee := tx.rctSignatures.txnFee
        ecdhInfo := tx.rctSignatures.ecdhInfo
        outPk := tx.rctSignatures.outPk } }

/-- A transaction as a scan reads it, with its id and the indices of its outputs. -/
structure SeenTx where
  tx : Transaction
  txid : Hash256
  indices : List Nat
  deriving DecidableEq, Repr

/-- A block as a scan reads it. -/
structure SeenBlock where
  parent : Hash256
  timestamp : Nat
  txs : List SeenTx
  deriving DecidableEq, Repr

/-- The transactions of a bundle from this slot on. -/
def BlockBundle.seenTxs (bundle : BlockBundle) : Nat → List (Blob × Hash256) → List SeenTx
  | _, [] => []
  | slot, (blob, txid) :: rest =>
      match bundle.parseTx blob with
      | .error _ => []
      | .ok tx => ⟨tx.bare, txid, bundle.outputIndices.getD slot []⟩ :: bundle.seenTxs (slot + 1) rest

/-- What a scan reads of a bundle. -/
def BlockBundle.seen (C : Crypto) (bundle : BlockBundle) (block : Block) : SeenBlock :=
  { parent := block.header.prevId
    timestamp := block.header.timestamp
    txs :=
      ⟨block.minerTx.bare, (transactionHash C.cnFastHash block.minerTx).getD nullHash,
        bundle.outputIndices.headD []⟩ :: bundle.seenTxs 1 (bundle.txs.zip block.txHashes) }

/-- The ids of the transactions of a block that have inputs with images. -/
def SeenBlock.spendingIds (b : SeenBlock) : List Hash256 :=
  (b.txs.filter fun t => !t.tx.keyImages.isEmpty).map (·.txid)

variable {C : Crypto}

theorem scanCandidates_bare (tx : Transaction) (keys : ScanKeys) (index clearAmount : Nat)
    (outKey : PublicKey) (viewTag : Option UInt8) (ds : List KeyDerivation) :
    scanCandidates C tx.bare keys index clearAmount outKey viewTag ds =
      scanCandidates C tx keys index clearAmount outKey viewTag ds := by
  induction ds with
  | nil => rfl
  | cons d ds ih =>
      rw [scanCandidates, scanCandidates, ih]
      rfl

theorem scanOutputs_bare (tx : Transaction) (keys : ScanKeys) (d : Derivations) (index : Nat)
    (outs : List TxOut) :
    scanOutputs C tx.bare keys d index outs = scanOutputs C tx keys d index outs := by
  induction outs generalizing index with
  | nil => rfl
  | cons out outs ih =>
      rw [scanOutputs, scanOutputs, ih]
      unfold scanOutput
      simp only [scanCandidates_bare]

theorem scanTransaction_bare (tx : Transaction) (keys : ScanKeys) :
    scanTransaction C tx.bare keys = scanTransaction C tx keys := by
  unfold scanTransaction scanTransactionWith
  simp only [scanOutputs_bare]
  rfl

namespace WalletState

/-! ### The money of a wallet -/

/-- The wallet without its chain and without how it asks for more: its keys, and what it holds. -/
def purse (w : WalletState) : WalletState :=
  { w with
    hashes := []
    startHeight := 0
    refreshFromHeight := 0
    trustedDaemon := false
    rings := []
    maxReorgDepth := 0
    genesis := 0
    batchSize := 0
    checkpoint := none
    fill := []
    firstRefreshDone := false
    everRefreshed := false }

/-- A wallet with these keys that holds nothing. -/
def blank (w : WalletState) : WalletState :=
  { w.purse with transfers := [], byKeyImage := [], byPublicKey := [], sent := [] }

theorem purse_purse (w : WalletState) : w.purse.purse = w.purse := rfl

theorem purse_spendInputs (w : WalletState) (height : Nat) (images : List KeyImage) :
    w.purse.spendInputs height images = (w.spendInputs height images).purse := by
  unfold spendInputs
  induction images generalizing w with
  | nil => rfl
  | cons k images ih =>
      rw [List.foldl_cons, List.foldl_cons, ← ih]
      congr 1
      have hlook : w.purse.byKeyImage = w.byKeyImage := rfl
      rw [hlook]
      split <;> rfl

theorem purse_addTransfer (w : WalletState) (t : Transfer) :
    w.purse.addTransfer t = ((w.addTransfer t).1, (w.addTransfer t).2.purse) := by
  unfold addTransfer
  simp only [show w.purse.byPublicKey = w.byPublicKey from rfl,
    show w.purse.transfers = w.transfers from rfl]
  split
  · split <;> rfl
  · rfl

theorem purse_spendSeen (w : WalletState) (seen : SeenSpend) :
    w.purse.spendSeen seen = (w.spendSeen seen).purse := by
  unfold spendSeen
  simp only [show w.purse.sent = w.sent from rfl]
  split <;> rfl

/-! ### One transaction in three steps -/

theorem receiveOutputs_fst (height timestamp : Nat) (tx : Transaction) (txid : Hash256)
    (indices : List Nat) (account : Option UInt32) (found : List Received) (w : WalletState)
    (received : Nat) (summary : RefreshSummary) :
    (receiveOutputs C height timestamp tx txid indices account found w received summary).1 =
      (receiveOutputs C height timestamp tx txid indices account found w received {}).1 := by
  suffices h : ∀ summary', (receiveOutputs C height timestamp tx txid indices account found w received
      summary).1 = (receiveOutputs C height timestamp tx txid indices account found w received
      summary').1 from h {}
  intro summary'
  induction found generalizing w received summary summary' with
  | nil => rfl
  | cons r found ih =>
      rw [receiveOutputs, receiveOutputs]
      rcases w.addTransfer (transferOf C w height timestamp tx txid indices r) with ⟨receipt, w'⟩
      cases receipt with
      | ignored => exact ih ..
      | new => exact ih ..
      | replaced burnt => exact ih ..

/-- The account whose outputs a transaction spends. -/
def spendingAccount (w : WalletState) (tx : Transaction) : Option UInt32 :=
  (w.namedBy tx).getLast?.map (·.2.subaddress.major)

/-- The wallet after the receipts of a transaction, and what came back to the spending account. -/
def receiveFrom (C : Crypto) (w : WalletState) (height timestamp : Nat) (tx : Transaction)
    (txid : Hash256) (indices : List Nat) : WalletState × Nat :=
  let spent := w.spendInputs height tx.keyImages
  (receiveOutputs C height timestamp tx txid indices (w.spendingAccount tx) (foundIn C spent.keys tx)
    spent 0 {}).1

/-- The end of `process_transaction`: what a transaction that spends the wallet's outputs leaves on
    record. -/
def recordSpend (w : WalletState) (height timestamp : Nat) (tx : Transaction) (txid : Hash256)
    (received : Nat) (named : List (KeyImage × Transfer)) : WalletState :=
  match named.getLast?.map (·.2.subaddress.major) with
  | none => w
  | some account =>
      let w := { w with rings := RingDb.addRings w.rings tx.txPrefix }
      w.spendSeen
        { txid := txid
          height := height
          timestamp := timestamp
          spent := wrap64 (named.map (·.2.amount)).sum
          received := received
          fee := (tx.fee).getD 0
          unlockTime := tx.txPrefix.unlockTime
          account := account
          minors := sortedMinors (named.map (·.2.subaddress.minor))
          keyImages := named.map (·.1) }

theorem processTransaction_fst (w : WalletState) (height timestamp : Nat) (tx : Transaction)
    (txid : Hash256) (indices : List Nat) (summary : RefreshSummary) :
    (w.processTransaction C height timestamp tx txid indices summary).1 =
      (w.receiveFrom C height timestamp tx txid indices).1.recordSpend height timestamp tx txid
        (w.receiveFrom C height timestamp tx txid indices).2 (w.namedBy tx) := by
  unfold receiveFrom
  simp only
  rw [← receiveOutputs_fst height timestamp tx txid indices (w.spendingAccount tx) _ _ _
    { summary with
      spent := summary.spent + (w.spendEvents height txid tx.keyImages).length
      events := summary.events ++ w.spendEvents height txid tx.keyImages }]
  unfold processTransaction recordSpend spendingAccount foundIn
  simp only
  cases (w.namedBy tx).getLast?.map (·.2.subaddress.major) <;> rfl

theorem purse_receiveOutputs (height timestamp : Nat) (tx : Transaction) (txid : Hash256)
    (indices : List Nat) (account : Option UInt32) (found : List Received) (w : WalletState)
    (received : Nat) (summary : RefreshSummary) :
    (receiveOutputs C height timestamp tx.bare txid indices account found w.purse received summary).1 =
      ((receiveOutputs C height timestamp tx txid indices account found w received summary).1.1.purse,
        (receiveOutputs C height timestamp tx txid indices account found w received summary).1.2) := by
  induction found generalizing w received summary with
  | nil => rfl
  | cons r found ih =>
      rw [receiveOutputs, receiveOutputs]
      have htransfer : transferOf C w.purse height timestamp tx.bare txid indices r =
          transferOf C w height timestamp tx txid indices r := rfl
      rw [htransfer, purse_addTransfer]
      rcases w.addTransfer (transferOf C w height timestamp tx txid indices r) with ⟨receipt, w'⟩
      cases receipt with
      | ignored => exact ih ..
      | new => exact ih ..
      | replaced burnt => exact ih ..

theorem purse_receiveFrom (w : WalletState) (height timestamp : Nat) (tx : Transaction)
    (txid : Hash256) (indices : List Nat) :
    w.purse.receiveFrom C height timestamp tx.bare txid indices =
      ((w.receiveFrom C height timestamp tx txid indices).1.purse,
        (w.receiveFrom C height timestamp tx txid indices).2) := by
  unfold receiveFrom foundIn
  simp only [show tx.bare.keyImages = tx.keyImages from rfl, purse_spendInputs, scanTransaction_bare]
  exact purse_receiveOutputs ..

theorem purse_recordSpend (w : WalletState) (height timestamp : Nat) (tx : Transaction)
    (txid : Hash256) (received : Nat) (named : List (KeyImage × Transfer)) :
    (w.purse.recordSpend height timestamp tx.bare txid received named).purse =
      (w.recordSpend height timestamp tx txid received named).purse := by
  unfold recordSpend
  split
  · rfl
  · rw [← purse_spendSeen, ← purse_spendSeen]
    rfl

/-- What a transaction does to the money depends on the money alone, and on what a scan reads. -/
theorem purse_processTransaction (w : WalletState) (height timestamp : Nat) (tx : Transaction)
    (txid : Hash256) (indices : List Nat) (summary summary' : RefreshSummary) :
    (w.purse.processTransaction C height timestamp tx.bare txid indices summary').1.purse =
      (w.processTransaction C height timestamp tx txid indices summary).1.purse := by
  rw [processTransaction_fst, processTransaction_fst, purse_receiveFrom, purse_recordSpend]
  rfl

/-! ### Replaying blocks -/

/-- One transaction as a scan reads it. -/
def scanSeenTx (C : Crypto) (height timestamp : Nat) (w : WalletState) (t : SeenTx) : WalletState :=
  (w.processTransaction C height timestamp t.tx t.txid t.indices {}).1.purse

/-- One block as a scan reads it. -/
def scanSeen (C : Crypto) (w : WalletState) (height : Nat) (b : SeenBlock) : WalletState :=
  b.txs.foldl (scanSeenTx C height b.timestamp) w

/-- The blocks with these ids, the first at this height. -/
def replay (C : Crypto) (world : Hash256 → SeenBlock) : WalletState → Nat → List Hash256 → WalletState
  | w, _, [] => w
  | w, height, id :: ids => replay C world (w.scanSeen C height (world id)) (height + 1) ids

theorem replay_append (world : Hash256 → SeenBlock) (w : WalletState) (height : Nat)
    (ids ids' : List Hash256) :
    replay C world w height (ids ++ ids') =
      replay C world (replay C world w height ids) (height + ids.length) ids' := by
  induction ids generalizing w height with
  | nil => rfl
  | cons id ids ih =>
      rw [List.cons_append, replay, replay, ih, List.length_cons,
        show height + 1 + ids.length = height + (ids.length + 1) by omega]

theorem purse_scanSeen {w : WalletState} (h : w.purse = w) (height : Nat) (b : SeenBlock) :
    (w.scanSeen C height b).purse = w.scanSeen C height b := by
  unfold scanSeen
  induction b.txs generalizing w with
  | nil => exact h
  | cons t txs ih => exact ih rfl

theorem purse_replay (world : Hash256 → SeenBlock) {w : WalletState} (h : w.purse = w) (height : Nat)
    (ids : List Hash256) : (replay C world w height ids).purse = replay C world w height ids := by
  induction ids generalizing w height with
  | nil => exact h
  | cons id ids ih => exact ih (purse_scanSeen h height (world id)) (height + 1)

theorem purse_processTransactions (bundle : BlockBundle) (height timestamp slot : Nat)
    (txs : List (Blob × Hash256)) (w : WalletState) (summary : RefreshSummary) :
    (processTransactions C bundle height timestamp slot txs w summary).2.purse =
      (bundle.seenTxs slot txs).foldl (scanSeenTx C height timestamp) w.purse := by
  induction txs generalizing slot w summary with
  | nil => rfl
  | cons p txs ih =>
      obtain ⟨blob, txid⟩ := p
      rw [processTransactions, BlockBundle.seenTxs]
      cases bundle.parseTx blob with
      | error e => rfl
      | ok tx =>
          simp only
          rw [ih (slot + 1), List.foldl_cons]
          congr 1
          exact (purse_processTransaction ..).symm

/-- A block that is not refused as it stands, and not below where the wallet's scan begins. -/
structure Scans (w : WalletState) (height : Nat) (block : Block) (bundle : BlockBundle) : Prop where
  unbroken : w.breaksChain height block = none
  from_ : w.refreshFromHeight ≤ height
  counted : bundle.txs.length = block.txHashes.length

theorem processTransactions_error {bundle : BlockBundle} (height timestamp slot : Nat)
    {txs : List (Blob × Hash256)} (h : ∃ p ∈ txs, ∀ tx, bundle.parseTx p.1 ≠ .ok tx)
    (w : WalletState) (summary : RefreshSummary) :
    ∃ e, (processTransactions C bundle height timestamp slot txs w summary).1 = .error e := by
  induction txs generalizing slot w summary with
  | nil =>
      rcases h with ⟨p, hp, -⟩
      cases hp
  | cons p txs ih =>
      obtain ⟨blob, txid⟩ := p
      rw [processTransactions]
      cases hparse : bundle.parseTx blob with
      | error e => exact ⟨_, rfl⟩
      | ok tx =>
          rcases h with ⟨q, hq, hbad⟩
          rcases List.mem_cons.mp hq with rfl | hq
          · exact absurd hparse (hbad tx)
          · exact ih (slot + 1) ⟨q, hq, hbad⟩ _ _

/-- A block above the tip is refused as it stands, put on the end unread, or scanned as far as its
    transactions can be read: it is put on the end if all of them can. -/
theorem processBlock_outcome (w : WalletState) (block : Block) (id : Hash256) (bundle : BlockBundle)
    (summary : RefreshSummary) :
    (¬ w.Scans w.scanHeight block bundle ∧
      ∃ e, w.processBlock C w.scanHeight block id bundle summary = (.error e, w)) ∨
    (∀ previous ∈ w.hashes.getLast?, block.header.prevId = previous) ∧
    ((w.scanHeight < w.refreshFromHeight ∧
      w.processBlock C w.scanHeight block id bundle summary =
        (.ok summary, { w with hashes := w.hashes ++ [id] })) ∨
    (w.Scans w.scanHeight block bundle ∧
      ∃ r w', w.processBlock C w.scanHeight block id bundle summary = (r, w') ∧
        w'.purse = w.purse.scanSeen C w.scanHeight (bundle.seen C block) ∧
        ((∀ blob ∈ bundle.txs, ∃ tx, bundle.parseTx blob = .ok tx) ∧ (∃ summary', r = .ok summary') ∧
            w'.chainPart = { w.chainPart with hashes := w.hashes ++ [id] } ∨
          (¬ ∀ blob ∈ bundle.txs, ∃ tx, bundle.parseTx blob = .ok tx) ∧ (∃ e, r = .error e) ∧
            w'.chainPart = w.chainPart))) := by
  cases hbreaks : w.breaksChain w.scanHeight block with
  | some previous =>
      refine .inl ⟨?_, .brokenChain w.scanHeight block.header.prevId previous, ?_⟩
      · intro hscans
        simp [hscans.unbroken] at hbreaks
      · simp only [processBlock, hbreaks]
  | none =>
      have hlast (previous : Hash256) (h : previous ∈ w.hashes.getLast?) :
          block.header.prevId = previous := by
        unfold breaksChain at hbreaks
        rw [Option.filter_eq_none_iff] at hbreaks
        simpa using hbreaks previous h
      have hpush (w₁ : WalletState) (h : w₁.chainPart = w.chainPart) :
          w₁.pushHash w.scanHeight id = { w₁ with hashes := w.hashes ++ [id] } := by
        have hhashes : w₁.hashes = w.hashes := (congrArg (fun v : WalletState => v.hashes) h :)
        have hstart : w₁.startHeight = w.startHeight :=
          (congrArg (fun v : WalletState => v.startHeight) h :)
        unfold pushHash
        rw [if_pos (by rw [scanHeight, scanHeight, hhashes, hstart]), ← hhashes]
      by_cases hbelow : w.scanHeight < w.refreshFromHeight
      · refine .inr ⟨hlast, .inl ⟨hbelow, ?_⟩⟩
        unfold processBlock
        rw [hbreaks]
        simp only
        rw [if_pos hbelow, hpush w rfl]
      by_cases hcount : bundle.txs.length = block.txHashes.length
      · refine .inr ⟨hlast, .inr ⟨⟨hbreaks, Nat.le_of_not_lt hbelow, hcount⟩, ?_⟩⟩
        obtain ⟨w₁, hw₁⟩ : ∃ w₁, w₁ = w.processTransaction C w.scanHeight block.header.timestamp
          block.minerTx ((transactionHash C.cnFastHash block.minerTx).getD nullHash)
          (bundle.outputIndices.headD []) summary := ⟨_, rfl⟩
        have hfirst : w₁.1.chainPart = w.chainPart := by
          rw [hw₁]
          exact chainPart_processTransaction ..
        have hpurse : w₁.1.purse = scanSeenTx C w.scanHeight block.header.timestamp w.purse
            ⟨block.minerTx.bare, (transactionHash C.cnFastHash block.minerTx).getD nullHash,
              bundle.outputIndices.headD []⟩ := by
          rw [hw₁]
          exact (purse_processTransaction ..).symm
        have hrest := chainPart_processTransactions (C := C) bundle w.scanHeight block.header.timestamp 1
          (bundle.txs.zip block.txHashes) w₁.1 w₁.2
        have hpurse' := purse_processTransactions (C := C) bundle w.scanHeight block.header.timestamp 1
          (bundle.txs.zip block.txHashes) w₁.1 w₁.2
        rw [hpurse] at hpurse'
        have hok : (∀ blob ∈ bundle.txs, ∃ tx, bundle.parseTx blob = .ok tx) →
            ∃ summary', (processTransactions C bundle w.scanHeight block.header.timestamp 1
              (bundle.txs.zip block.txHashes) w₁.1 w₁.2).1 = .ok summary' := by
          intro hparse
          obtain ⟨summary', hok, -⟩ := processTransactions_ok (C := C) w.scanHeight
            block.header.timestamp 1 (bundle.txs.zip block.txHashes)
            (fun p hp => hparse p.1 (List.of_mem_zip hp).1) w₁.1 w₁.2
          exact ⟨summary', hok⟩
        have herror : (¬ ∀ blob ∈ bundle.txs, ∃ tx, bundle.parseTx blob = .ok tx) →
            ∃ e, (processTransactions C bundle w.scanHeight block.header.timestamp 1
              (bundle.txs.zip block.txHashes) w₁.1 w₁.2).1 = .error e := by
          intro hbad
          apply processTransactions_error
          push Not at hbad
          rcases hbad with ⟨blob, hmem, hnone⟩
          have hzip : blob ∈ (bundle.txs.zip block.txHashes).map Prod.fst := by
            rwa [List.map_fst_zip (Nat.le_of_eq hcount)]
          rcases List.mem_map.mp hzip with ⟨p, hp, rfl⟩
          exact ⟨p, hp, hnone⟩
        unfold processBlock
        rw [hbreaks]
        simp only
        rw [if_neg hbelow, if_neg (not_not.mpr hcount), ← hw₁]
        generalize processTransactions C bundle w.scanHeight block.header.timestamp 1
          (bundle.txs.zip block.txHashes) w₁.1 w₁.2 = result at hrest hpurse' hok herror
        obtain ⟨r, w₂⟩ := result
        by_cases hparse : ∀ blob ∈ bundle.txs, ∃ tx, bundle.parseTx blob = .ok tx
        · rcases hok hparse with ⟨summary', hr⟩
          replace hr : r = .ok summary' := hr
          subst hr
          have hsame : w₂.chainPart = w.chainPart := hrest.trans hfirst
          refine ⟨_, _, rfl, ?_, .inl ⟨hparse, ⟨summary', rfl⟩, ?_⟩⟩
          · rw [hpush w₂ hsame]
            exact hpurse'
          · rw [hpush w₂ hsame, ← hsame]
            rfl
        · rcases herror hparse with ⟨e, hr⟩
          replace hr : r = .error e := hr
          subst hr
          exact ⟨_, _, rfl, hpurse', .inr ⟨hparse, ⟨e, rfl⟩, hrest.trans hfirst⟩⟩
      · refine .inl ⟨fun hscans => hcount hscans.counted,
          .badBlock w.scanHeight (.txCount bundle.txs.length block.txHashes.length), ?_⟩
        unfold processBlock
        rw [hbreaks]
        simp only
        rw [if_neg hbelow, if_pos hcount]

/-- A readable block is refused as it stands, or scanned and put on the end. -/
theorem processBlock_cases {w : WalletState} {block : Block} {id : Hash256} {bundle : BlockBundle}
    (hread : Readable C bundle block id) (summary : RefreshSummary) :
    (∃ e, w.processBlock C w.scanHeight block id bundle summary = (.error e, w)) ∨
    (∀ previous ∈ w.hashes.getLast?, block.header.prevId = previous) ∧
    ∃ summary' w', w.processBlock C w.scanHeight block id bundle summary = (.ok summary', w') ∧
      w'.chainPart = { w.chainPart with hashes := w.hashes ++ [id] } ∧
      w'.purse = if w.scanHeight < w.refreshFromHeight then w.purse
        else w.purse.scanSeen C w.scanHeight (bundle.seen C block) := by
  have hparse : ∀ blob ∈ bundle.txs, ∃ tx, bundle.parseTx blob = .ok tx := hread.txs
  rcases processBlock_outcome (C := C) w block id bundle summary with ⟨-, herror⟩ |
    ⟨hlast, ⟨hbelow, heq⟩ | ⟨hscans, r, w', heq, hpurse, ⟨-, ⟨summary', rfl⟩, hchain⟩ | ⟨hbad, -⟩⟩⟩
  · exact .inl herror
  · refine .inr ⟨hlast, summary, _, heq, rfl, ?_⟩
    rw [if_pos hbelow]
    rfl
  · refine .inr ⟨hlast, summary', w', heq, hchain, ?_⟩
    rw [if_neg (Nat.not_lt.mpr hscans.from_), hpurse]
  · exact absurd hparse hbad

/-! ### A wallet that only ever scanned -/

/-- The two lookups built from the outputs. -/
def imageIndex (transfers : List Transfer) : TransferIndex :=
  transfers.zipIdx.foldl
    (fun index p => match p.1.keyImage with
      | some k => (k, p.2) :: index
      | none => index) []

def keyIndex (transfers : List Transfer) : TransferIndex :=
  transfers.zipIdx.foldl (fun index p => (p.1.publicKey, p.2) :: index) []

theorem index_of_keys {transfers transfers' : List Transfer}
    (h : transfers'.map keysOf = transfers.map keysOf) :
    imageIndex transfers' = imageIndex transfers ∧ keyIndex transfers' = keyIndex transfers := by
  have himage (l : List Transfer) : imageIndex l = (l.map keysOf).zipIdx.foldl
      (fun index p => match p.1.2 with
        | some k => (k, p.2) :: index
        | none => index) [] := by
    rw [List.zipIdx_map, List.foldl_map]
    rfl
  have hkey (l : List Transfer) : keyIndex l = (l.map keysOf).zipIdx.foldl
      (fun index p => (p.1.1, p.2) :: index) [] := by
    rw [List.zipIdx_map, List.foldl_map]
    rfl
  rw [himage, himage, hkey, hkey, h]
  exact ⟨rfl, rfl⟩

theorem imageIndex_append (transfers : List Transfer) (t : Transfer) :
    imageIndex (transfers ++ [t]) = match t.keyImage with
      | some k => (k, transfers.length) :: imageIndex transfers
      | none => imageIndex transfers := by
  unfold imageIndex
  rw [List.zipIdx_append, List.foldl_append]
  simp only [List.zipIdx_singleton, List.foldl_cons, List.foldl_nil, Nat.zero_add]

theorem keyIndex_append (transfers : List Transfer) (t : Transfer) :
    keyIndex (transfers ++ [t]) = (t.publicKey, transfers.length) :: keyIndex transfers := by
  unfold keyIndex
  rw [List.zipIdx_append, List.foldl_append]
  simp only [List.zipIdx_singleton, List.foldl_cons, List.foldl_nil, Nat.zero_add]

theorem publicKey_of_lookup {transfers : List Transfer} {p : PublicKey} {i : Nat}
    (h : (keyIndex transfers).lookup p = some i) :
    ∃ t, transfers[i]? = some t ∧ t.publicKey = p := by
  obtain ⟨l₁, l₂, heq, -⟩ := List.lookup_eq_some_iff.mp h
  have hmem : (p, i) ∈ keyIndex transfers := by
    rw [heq]
    simp
  have hrow := (mem_foldl_index (g := fun t => some t.publicKey) transfers.zipIdx [] (p, i)).mp hmem
  simp only [List.not_mem_nil, false_or, Prod.exists, List.mem_zipIdx_iff_getElem?,
    Option.some.injEq] at hrow
  obtain ⟨t, n, hget, hkey, rfl⟩ := hrow
  exact ⟨t, hget, hkey⟩

theorem mem_keyIndex {transfers : List Transfer} {p : PublicKey} {i : Nat} :
    (p, i) ∈ keyIndex transfers ↔ ∃ t, transfers[i]? = some t ∧ t.publicKey = p := by
  unfold keyIndex
  have hrows := mem_foldl_index (g := fun t => some t.publicKey) transfers.zipIdx [] (p, i)
  simp only at hrows
  rw [hrows]
  simp only [List.not_mem_nil, false_or, Prod.exists, List.mem_zipIdx_iff_getElem?, Option.some.injEq]
  constructor
  · rintro ⟨t, n, hget, hkey, rfl⟩
    exact ⟨t, hget, hkey⟩
  · rintro ⟨t, hget, hkey⟩
    exact ⟨t, i, hget, hkey, rfl⟩

/-- A key that is not found among the outputs is the key of none. -/
theorem not_held_of_lookup {transfers : List Transfer} {p : PublicKey}
    (hnone : (keyIndex transfers).lookup p = none) : ∀ t ∈ transfers, t.publicKey ≠ p := by
  intro t ht hkey
  rcases List.mem_iff_getElem?.mp ht with ⟨i, hget⟩
  have hmem : (p, i) ∈ keyIndex transfers := mem_keyIndex.mpr ⟨t, hget, hkey⟩
  exact absurd (beq_self_eq_true p) (by simpa using List.lookup_eq_none_iff.mp hnone _ hmem)

/-! ### Recording an output -/

theorem keysFound_of_index {w : WalletState} (h : w.byPublicKey = keyIndex w.transfers) :
    w.KeysFound where
  found _ _ hlook := publicKey_of_lookup (h ▸ hlook)
  missing _ hlook := not_held_of_lookup (h ▸ hlook)

/-- The height of the output that recording this one would replace. -/
def replacedBy (w : WalletState) (t : Transfer) : Option Nat :=
  match w.addTransfer t with
  | (.replaced _, _) =>
      ((w.byPublicKey.lookup t.publicKey).bind (w.transfers[·]?)).map (·.blockHeight)
  | _ => none

/-- Marks come with heights, images belong to keys, the lookups are those of the outputs, and every
    record was made by a block. -/
structure Tidy (image : PublicKey → Option KeyImage) (w : WalletState) : Prop where
  marks : ∀ t ∈ w.transfers, t.spent = true ↔ 0 < t.spentHeight
  images : ∀ t ∈ w.transfers, t.keyImage = image t.publicKey
  byImage : w.byKeyImage = imageIndex w.transfers
  byKey : w.byPublicKey = keyIndex w.transfers
  seen : ∀ s ∈ w.sent, s.sentTime = 0 ∧ ∃ h, s.state = .confirmed h

variable {image : PublicKey → Option KeyImage}

theorem Tidy.not_pending {w : WalletState} (h : w.Tidy image) (k : KeyImage) :
    w.isPendingInput k = false := by
  rw [Bool.eq_false_iff]
  intro hpend
  obtain ⟨s, hs, hstate, -⟩ := (isPendingInput_iff w k).mp hpend
  obtain ⟨-, c, hc⟩ := h.seen s hs
  rw [hstate] at hc
  cases hc

theorem Tidy.addTransfer_cases {w : WalletState} (h : w.Tidy image) (t : Transfer) :
    w.addTransfer t = (.ignored, w) ∨
    (∃ i held, w.transfers[i]? = some held ∧ held.publicKey = t.publicKey ∧
      w.replacedBy t = some held.blockHeight ∧
      w.addTransfer t = (.replaced held.amount, w.modifyTransfer i fun _ => { t with
        keyImage := held.keyImage.orElse fun _ => t.keyImage
        keyImageRequest := (held.keyImage.orElse fun _ => t.keyImage).isNone
        frozen := held.frozen })) ∨
    w.addTransfer t = (.new,
      { w with
        transfers := w.transfers ++ [t]
        byKeyImage := match t.keyImage with
          | some k => (k, w.transfers.length) :: w.byKeyImage
          | none => w.byKeyImage
        byPublicKey := (t.publicKey, w.transfers.length) :: w.byPublicKey }) := by
  rcases WalletState.addTransfer_cases (keysFound_of_index h.byKey) t with
    ⟨_, _, -, -, -, heq⟩ | ⟨i, held, hget, hlook, hsame, -, heq⟩ | ⟨-, heq⟩
  · exact .inl heq
  · refine .inr (.inl ⟨i, held, hget, hsame, ?_, heq⟩)
    simp [replacedBy, heq, hlook, hget]
  · exact .inr (.inr heq)

theorem Tidy.modify {w : WalletState} (h : w.Tidy image) {i : Nat} {f : Transfer → Transfer}
    (hf : ∀ t, w.transfers[i]? = some t → keysOf (f t) = keysOf t ∧
      ((f t).spent = true ↔ 0 < (f t).spentHeight)) : (w.modifyTransfer i f).Tidy image := by
  have hkeys : (w.transfers.modify i f).map keysOf = w.transfers.map keysOf := by
    apply List.ext_getElem?
    intro j
    rw [List.getElem?_map, List.getElem?_map, List.getElem?_modify]
    cases hget : w.transfers[j]? with
    | none => rfl
    | some t =>
        by_cases hij : i = j
        · subst hij
          simp [(hf t hget).1]
        · simp [hij]
  have hmem (t : Transfer) (ht : t ∈ w.transfers.modify i f) :
      (t.spent = true ↔ 0 < t.spentHeight) ∧ t.keyImage = image t.publicKey := by
    obtain ⟨j, hget⟩ := List.mem_iff_getElem?.mp ht
    rw [List.getElem?_modify] at hget
    obtain ⟨t₀, hget₀, rfl⟩ := Option.map_eq_some_iff.mp hget
    have hmem₀ := List.mem_of_getElem? hget₀
    by_cases hij : i = j
    · subst hij
      obtain ⟨hsame, hmark⟩ := hf t₀ hget₀
      rw [if_pos rfl]
      refine ⟨hmark, ?_⟩
      rw [(Prod.mk.inj hsame).2, (Prod.mk.inj hsame).1]
      exact h.images t₀ hmem₀
    · rw [if_neg hij]
      exact ⟨h.marks t₀ hmem₀, h.images t₀ hmem₀⟩
  refine ⟨fun t ht => (hmem t ht).1, fun t ht => (hmem t ht).2, ?_, ?_, h.seen⟩
  · exact h.byImage.trans (index_of_keys hkeys).1.symm
  · exact h.byKey.trans (index_of_keys hkeys).2.symm

theorem Tidy.spendInputs {w : WalletState} (h : w.Tidy image) {height : Nat} (hpos : 0 < height)
    (images : List KeyImage) : (w.spendInputs height images).Tidy image := by
  unfold WalletState.spendInputs
  induction images generalizing w with
  | nil => exact h
  | cons k images ih =>
      rw [List.foldl_cons]
      apply ih
      split
      · exact h
      · apply h.modify
        intro t ht
        have hmark := h.marks t (List.mem_of_getElem? ht)
        refine ⟨Prod.ext ((keeps_spendAt height).publicKey t) ((keeps_spendAt height).keyImage t), ?_⟩
        unfold spendAt
        split
        · exact iff_of_true rfl hpos
        · exact hmark

theorem Tidy.addTransfer {w : WalletState} (h : w.Tidy image) {t : Transfer}
    (himage : t.keyImage = image t.publicKey) (hmark : t.spent = true ↔ 0 < t.spentHeight) :
    (w.addTransfer t).2.Tidy image := by
  rcases h.addTransfer_cases t with heq | ⟨i, held, hget, hsame, -, heq⟩ | heq
  · rw [heq]
    exact h
  · rw [heq]
    apply h.modify
    intro t' ht'
    obtain rfl : held = t' := Option.some.inj (hget.symm.trans ht')
    refine ⟨Prod.ext hsame.symm ?_, hmark⟩
    show (held.keyImage.orElse fun _ => t.keyImage) = held.keyImage
    rw [himage, h.images held (List.mem_of_getElem? hget), hsame]
    cases image t.publicKey <;> rfl
  · rw [heq]
    refine ⟨?_, ?_, ?_, ?_, h.seen⟩
    · intro t' ht'
      rcases List.mem_append.mp ht' with ht' | ht'
      · exact h.marks t' ht'
      · rw [List.mem_singleton.mp ht']
        exact hmark
    · intro t' ht'
      rcases List.mem_append.mp ht' with ht' | ht'
      · exact h.images t' ht'
      · rw [List.mem_singleton.mp ht']
        exact himage
    · show _ = imageIndex (w.transfers ++ [t])
      rw [imageIndex_append, ← h.byImage]
    · show _ = keyIndex (w.transfers ++ [t])
      rw [keyIndex_append, ← h.byKey]

theorem Tidy.transferOf_spent {w : WalletState} (h : w.Tidy image) (height timestamp : Nat)
    (tx : Transaction) (txid : Hash256) (indices : List Nat) (r : Received) :
    (transferOf C w height timestamp tx txid indices r).spent = false := by
  show r.keyImage.any w.isPendingInput = false
  cases r.keyImage with
  | none => rfl
  | some k => exact h.not_pending k

/-! ### What is undone by height -/

/-- Taking back the blocks from `h` on makes the money of `w` that of `v`. -/
structure Restores (h : Nat) (v w : WalletState) : Prop where
  transfers : (w.transfers.filter fun t => t.blockHeight < h).map (unspendFrom h) = v.transfers
  sent : w.sent.filterMap (detachRecord h) = v.sent
  account : w.account = v.account
  subaddresses : w.subaddresses = v.subaddresses

theorem filter_map_modify {l : List Transfer} {i h : Nat} {f : Transfer → Transfer}
    (hf : ∀ t, l[i]? = some t → ((f t).blockHeight < h ↔ t.blockHeight < h) ∧
      (t.blockHeight < h → unspendFrom h (f t) = unspendFrom h t)) :
    ((l.modify i f).filter fun t => t.blockHeight < h).map (unspendFrom h) =
      (l.filter fun t => t.blockHeight < h).map (unspendFrom h) := by
  induction l generalizing i with
  | nil => rw [List.modify_nil]
  | cons a l ih =>
      cases i with
      | zero =>
          obtain ⟨hheight, hmark⟩ := hf a rfl
          rw [List.modify_zero_cons, List.filter_cons, List.filter_cons]
          by_cases ha : a.blockHeight < h
          · simp [ha, hheight.mpr ha, hmark ha]
          · simp [ha, hheight.not.mpr ha]
      | succ i =>
          rw [List.modify_succ_cons, List.filter_cons, List.filter_cons]
          have hrest := ih (i := i) fun t ht => hf t ht
          split
          · rw [List.map_cons, List.map_cons, hrest]
          · exact hrest

theorem unspendFrom_spendAt {h height : Nat} (hle : h ≤ height) {t : Transfer}
    (hmark : t.spent = true ↔ 0 < t.spentHeight) :
    unspendFrom h (spendAt height t) = unspendFrom h t := by
  by_cases hspent : t.spent = true
  · have hkept : spendAt height t = t := by
      have := hmark.mp hspent
      unfold spendAt
      rw [if_neg]
      simp only [hspent, Bool.not_true, Bool.false_or, beq_iff_eq]
      omega
    rw [hkept]
  · have hzero : t.spentHeight = 0 := by
      rw [hmark] at hspent
      omega
    rw [Bool.not_eq_true] at hspent
    have hspend : spendAt height t = { t with spent := true, spentHeight := height } := by
      unfold spendAt
      rw [hspent]
      rfl
    rw [hspend]
    unfold unspendFrom
    simp only [Bool.true_and, decide_eq_true_eq, hspent, Bool.false_and, Bool.false_eq_true, if_false]
    rw [if_pos hle]
    cases t
    simp only at hzero hspent
    rw [hzero, hspent]

theorem spendAt_blockHeight (height : Nat) (t : Transfer) : (spendAt height t).blockHeight = t.blockHeight := by
  unfold spendAt
  split <;> rfl

section

variable {h height : Nat} {v w : WalletState}

theorem Restores.spendInputs (hr : Restores h v w) (htidy : w.Tidy image) (hle : h ≤ height)
    (hpos : 0 < height) (images : List KeyImage) : Restores h v (w.spendInputs height images) := by
  induction images generalizing w with
  | nil => exact hr
  | cons k images ih =>
      have hnext := htidy.spendInputs hpos [k]
      refine ih (w := w.spendInputs height [k]) ?_ hnext
      rw [WalletState.spendInputs, List.foldl_cons, List.foldl_nil]
      split
      · exact hr
      · refine ⟨?_, hr.sent, hr.account, hr.subaddresses⟩
        rw [← hr.transfers]
        apply filter_map_modify
        intro t ht
        rw [spendAt_blockHeight]
        exact ⟨Iff.rfl, fun _ => unspendFrom_spendAt hle (htidy.marks t (List.mem_of_getElem? ht))⟩

theorem Restores.addTransfer (hr : Restores h v w) (htidy : w.Tidy image) {t : Transfer}
    (hle : h ≤ t.blockHeight) (hspares : ∀ a ∈ w.replacedBy t, h ≤ a) :
    Restores h v (w.addTransfer t).2 := by
  rcases htidy.addTransfer_cases t with heq | ⟨i, held, hget, -, hreplaced, heq⟩ | heq
  · rw [heq]
    exact hr
  · rw [heq]
    refine ⟨?_, hr.sent, hr.account, hr.subaddresses⟩
    rw [← hr.transfers]
    apply filter_map_modify
    intro t' ht'
    obtain rfl : held = t' := Option.some.inj (hget.symm.trans ht')
    have hheld := hspares held.blockHeight hreplaced
    exact ⟨iff_of_false (by simpa using hle) (by omega), fun hlt => absurd hlt (by omega)⟩
  · rw [heq]
    refine ⟨?_, hr.sent, hr.account, hr.subaddresses⟩
    rw [← hr.transfers]
    simp only [List.filter_append]
    rw [List.filter_cons_of_neg (by simpa using hle), List.filter_nil, List.append_nil]

theorem Restores.spendSeen (hr : Restores h v w) (seen : SeenSpend) (hle : h ≤ seen.height)
    (hnew : ∀ s ∈ w.sent, s.txid ≠ seen.txid) : Restores h v (w.spendSeen seen) := by
  have hnone : w.sent.findIdx? (·.txid == seen.txid) = none := by
    rw [List.findIdx?_eq_none_iff]
    intro s hs
    simpa using hnew s hs
  unfold WalletState.spendSeen
  simp only [hnone]
  refine ⟨hr.transfers, ?_, hr.account, hr.subaddresses⟩
  simp only [List.filterMap_append]
  rw [hr.sent]
  simp [detachRecord, hle]

end

/-! ### What a scan adds -/

/-- Everything a wallet holds is of blocks from `lo` on and below `h`, and its records are of these
    transactions. -/
structure Within (lo h : Nat) (past : List Hash256) (w : WalletState) : Prop where
  transfers : ∀ t ∈ w.transfers, lo ≤ t.blockHeight ∧ t.blockHeight < h ∧ t.spentHeight < h
  sent : ∀ s ∈ w.sent, s.txid ∈ past ∧ ∀ c, s.state = .confirmed c → lo ≤ c ∧ c < h

section

variable {lo h h' : Nat} {past : List Hash256} {w : WalletState}

theorem Within.mono (hw : w.Within lo h past) (hle : h ≤ h') : w.Within lo h' past := by
  refine ⟨?_, ?_⟩
  · intro t ht
    obtain ⟨hlow, hblock, hspent⟩ := hw.transfers t ht
    exact ⟨hlow, by omega, by omega⟩
  · intro s hs
    refine ⟨(hw.sent s hs).1, ?_⟩
    intro c hc
    obtain ⟨hlow, hlt⟩ := (hw.sent s hs).2 c hc
    exact ⟨hlow, by omega⟩

/-- A wallet that holds only what is below `h` is restored by itself. -/
theorem Within.restores (hw : w.Within lo h past) : Restores h w w := by
  refine ⟨?_, ?_, rfl, rfl⟩
  · rw [List.filter_eq_self.mpr fun t ht => decide_eq_true (hw.transfers t ht).2.1]
    have hkept (t : Transfer) (ht : t ∈ w.transfers) : unspendFrom h t = id t := by
      have hlt := (hw.transfers t ht).2.2
      unfold unspendFrom
      rw [if_neg]
      · rfl
      · simp only [Bool.and_eq_true, decide_eq_true_eq, not_and]
        omega
    exact (List.map_congr_left hkept).trans (List.map_id _)
  · have hkept (s : SentTx) (hs : s ∈ w.sent) : detachRecord h s = some s := by
      have := (hw.sent s hs).2
      unfold detachRecord
      split
      · rename_i c hc
        rw [if_neg (by have := this c hc; omega)]
      · rfl
    rw [List.filterMap_congr hkept]
    exact List.filterMap_some

/-- Taking back everything from below where the wallet begins leaves nothing. -/
theorem Within.restores_blank (hw : w.Within lo h' past) (hle : h ≤ lo)
    (hseen : ∀ s ∈ w.sent, s.sentTime = 0 ∧ ∃ c, s.state = .confirmed c) : Restores h w.blank w := by
  refine ⟨?_, ?_, rfl, rfl⟩
  · have hnone : w.transfers.filter (fun t => t.blockHeight < h) = [] := by
      rw [List.filter_eq_nil_iff]
      intro t ht
      have := (hw.transfers t ht).1
      simp only [decide_eq_true_eq]
      omega
    rw [hnone]
    rfl
  · show w.sent.filterMap (detachRecord h) = []
    rw [List.filterMap_eq_nil_iff]
    intro s hs
    obtain ⟨htime, c, hc⟩ := hseen s hs
    have := ((hw.sent s hs).2 c hc).1
    unfold detachRecord
    rw [hc]
    simp only
    rw [if_pos (by omega), if_pos htime]

end

theorem mem_modify {l : List Transfer} {i : Nat} {f : Transfer → Transfer} {t : Transfer}
    (h : t ∈ l.modify i f) : t ∈ l ∨ ∃ t₀ ∈ l, l[i]? = some t₀ ∧ t = f t₀ := by
  obtain ⟨j, hget⟩ := List.mem_iff_getElem?.mp h
  rw [List.getElem?_modify] at hget
  obtain ⟨t₀, hget₀, rfl⟩ := Option.map_eq_some_iff.mp hget
  have hmem := List.mem_of_getElem? hget₀
  by_cases hij : i = j
  · subst hij
    exact .inr ⟨t₀, hmem, hget₀, if_pos rfl⟩
  · rw [if_neg hij]
    exact .inl hmem

section

variable {lo h height : Nat} {past : List Hash256} {w : WalletState}

theorem Within.spendInputs (hw : w.Within lo h past) (hlt : height < h) (images : List KeyImage) :
    (w.spendInputs height images).Within lo h past := by
  unfold WalletState.spendInputs
  induction images generalizing w with
  | nil => exact hw
  | cons k images ih =>
      rw [List.foldl_cons]
      apply ih
      split
      · exact hw
      · refine ⟨?_, hw.sent⟩
        intro t ht
        rcases mem_modify ht with ht | ⟨t₀, ht₀, -, rfl⟩
        · exact hw.transfers t ht
        · obtain ⟨hlow, hblock, hspent⟩ := hw.transfers t₀ ht₀
          rw [spendAt_blockHeight]
          refine ⟨hlow, hblock, ?_⟩
          unfold spendAt
          split
          · exact hlt
          · exact hspent

theorem Within.addTransfer (hw : w.Within lo h past) (htidy : w.Tidy image) {t : Transfer}
    (ht : lo ≤ t.blockHeight ∧ t.blockHeight < h ∧ t.spentHeight < h) :
    (w.addTransfer t).2.Within lo h past := by
  rcases htidy.addTransfer_cases t with heq | ⟨i, held, -, -, -, heq⟩ | heq
  · rw [heq]
    exact hw
  · rw [heq]
    refine ⟨?_, hw.sent⟩
    intro t' ht'
    rcases mem_modify ht' with ht' | ⟨t₀, -, -, rfl⟩
    · exact hw.transfers t' ht'
    · exact ht
  · rw [heq]
    refine ⟨?_, hw.sent⟩
    intro t' ht'
    rcases List.mem_append.mp ht' with ht' | ht'
    · exact hw.transfers t' ht'
    · rw [List.mem_singleton.mp ht']
      exact ht

/-- The record of a spend is that of a block, whether it is new or not. -/
theorem mem_spendSeen {seen : SeenSpend} {s : SentTx} (hs : s ∈ (w.spendSeen seen).sent) :
    s ∈ w.sent ∨ s.txid = seen.txid ∧ s.state = .confirmed seen.height ∧
      ((∃ s₀ ∈ w.sent, s.sentTime = s₀.sentTime) ∨ s.sentTime = 0) := by
  unfold WalletState.spendSeen at hs
  simp only at hs
  split at hs
  · rename_i i hfound
    obtain ⟨j, hget⟩ := List.mem_iff_getElem?.mp hs
    rw [List.getElem?_modify] at hget
    obtain ⟨s₀, hget₀, rfl⟩ := Option.map_eq_some_iff.mp hget
    have hmem := List.mem_of_getElem? hget₀
    by_cases hij : i = j
    · subst hij
      obtain ⟨hlt, hid, -⟩ := List.findIdx?_eq_some_iff_getElem.mp hfound
      have hsame : s₀ = w.sent[i] := (Option.some.inj ((List.getElem?_eq_getElem hlt).symm.trans hget₀)).symm
      rw [if_pos rfl]
      refine .inr ⟨?_, rfl, .inl ⟨s₀, hmem, rfl⟩⟩
      show s₀.txid = seen.txid
      rw [hsame]
      simpa using hid
    · rw [if_neg hij]
      exact .inl hmem
  · rcases List.mem_append.mp hs with hs | hs
    · exact .inl hs
    · rw [List.mem_singleton.mp hs]
      exact .inr ⟨rfl, rfl, .inr rfl⟩

end

/-! ### One transaction -/

theorem receiveOutputs_cons (height timestamp : Nat) (tx : Transaction) (txid : Hash256)
    (indices : List Nat) (account : Option UInt32) (r : Received) (found : List Received)
    (w : WalletState) (received : Nat) (summary : RefreshSummary) :
    ∃ received' summary',
      receiveOutputs C height timestamp tx txid indices account (r :: found) w received summary =
        receiveOutputs C height timestamp tx txid indices account found
          (w.addTransfer (transferOf C w height timestamp tx txid indices r)).2 received' summary' := by
  rw [receiveOutputs]
  rcases w.addTransfer (transferOf C w height timestamp tx txid indices r) with ⟨receipt, w'⟩
  cases receipt with
  | ignored => exact ⟨_, _, rfl⟩
  | new => exact ⟨_, _, rfl⟩
  | replaced burnt => exact ⟨_, _, rfl⟩

/-- A property that every receipt keeps is kept by the loop over them. -/
theorem receiveOutputs_induct {P : WalletState → Prop} {height timestamp : Nat} {tx : Transaction}
    {txid : Hash256} {indices : List Nat} {account : Option UInt32} {found : List Received}
    (hstep : ∀ w, ∀ r ∈ found, P w →
      P (w.addTransfer (transferOf C w height timestamp tx txid indices r)).2)
    {w : WalletState} (hw : P w) (received : Nat) (summary : RefreshSummary) :
    P (receiveOutputs C height timestamp tx txid indices account found w received summary).1.1 := by
  induction found generalizing w received summary with
  | nil => exact hw
  | cons r found ih =>
      have hnext := hstep w r List.mem_cons_self hw
      have hrest (w : WalletState) (r' : Received) (hr : r' ∈ found) (hw : P w) :
          P (w.addTransfer (transferOf C w height timestamp tx txid indices r')).2 :=
        hstep w r' (List.mem_cons_of_mem _ hr) hw
      obtain ⟨received', summary', heq⟩ := receiveOutputs_cons (C := C) height timestamp tx txid indices
        account r found w received summary
      rw [heq]
      exact ih hrest hnext received' summary'

/-- The heights of the outputs these receipts replace. -/
def replacedHeights (C : Crypto) (height timestamp : Nat) (tx : Transaction) (txid : Hash256)
    (indices : List Nat) : List Received → WalletState → List Nat
  | [], _ => []
  | r :: found, w =>
      let t := transferOf C w height timestamp tx txid indices r
      (w.replacedBy t).toList ++
        replacedHeights C height timestamp tx txid indices found (w.addTransfer t).2

/-- The heights of the outputs a transaction replaces. -/
def replacedIn (C : Crypto) (height timestamp : Nat) (w : WalletState) (t : SeenTx) : List Nat :=
  let spent := w.spendInputs height t.tx.keyImages
  replacedHeights C height timestamp t.tx t.txid t.indices (foundIn C spent.keys t.tx) spent

section

variable {lo height timestamp : Nat} {past : List Hash256}

theorem keys_spendInputs (w : WalletState) (height : Nat) (images : List KeyImage) :
    (w.spendInputs height images).keys = w.keys :=
  keys_of_frame (frame_of_chainPart (chainPart_spendInputs w height images))

/-- The money after the receipts of a transaction. -/
theorem Tidy.receiveFrom {w : WalletState} (hfinds : Finds C w.keys image) (h : w.Tidy image)
    (hwithin : w.Within lo (height + 1) past) (hlo : lo ≤ height) (hpos : 0 < height)
    (timestamp : Nat) (tx : Transaction) (txid : Hash256) (indices : List Nat) :
    (w.receiveFrom C height timestamp tx txid indices).1.Tidy image ∧
      (w.receiveFrom C height timestamp tx txid indices).1.Within lo (height + 1) past := by
  refine receiveOutputs_induct (P := fun w => w.Tidy image ∧ w.Within lo (height + 1) past) ?_ ?_ _ _
  · rintro w' r hr ⟨htidy, hb⟩
    have himage := hfinds tx r (by rwa [keys_spendInputs] at hr)
    have hspent := htidy.transferOf_spent (C := C) height timestamp tx txid indices r
    refine ⟨htidy.addTransfer himage ?_, hb.addTransfer htidy ⟨hlo, Nat.lt_succ_self _, Nat.succ_pos _⟩⟩
    rw [hspent]
    exact iff_of_false Bool.false_ne_true (Nat.lt_irrefl 0)
  · exact ⟨h.spendInputs hpos _, hwithin.spendInputs (Nat.lt_succ_self _) _⟩

/-- The receipts one by one, each of a block that is undone. -/
theorem Restores.receiveOutputs {h : Nat} {v w : WalletState} (hr : Restores h v w)
    (htidy : w.Tidy image) (hle : h ≤ height) {t : SeenTx} {found : List Received}
    (hfound : ∀ r ∈ found, r.keyImage = image r.publicKey)
    (hspares : ∀ a ∈ replacedHeights C height timestamp t.tx t.txid t.indices found w, h ≤ a)
    (account : Option UInt32) (received : Nat) (summary : RefreshSummary) :
    Restores h v (receiveOutputs C height timestamp t.tx t.txid t.indices account found w received
      summary).1.1 := by
  induction found generalizing w received summary with
  | nil => exact hr
  | cons r found ih =>
      rw [replacedHeights] at hspares
      simp only [List.mem_append, Option.mem_toList] at hspares
      have hspent := htidy.transferOf_spent (C := C) height timestamp t.tx t.txid t.indices r
      have hnext := hr.addTransfer htidy
        (t := transferOf C w height timestamp t.tx t.txid t.indices r) hle fun a ha => hspares a (.inl ha)
      have htidy' := htidy.addTransfer
        (t := transferOf C w height timestamp t.tx t.txid t.indices r) (hfound r List.mem_cons_self)
        (by rw [hspent]; exact iff_of_false Bool.false_ne_true (Nat.lt_irrefl 0))
      obtain ⟨received', summary', heq⟩ := receiveOutputs_cons (C := C) height timestamp t.tx t.txid
        t.indices account r found w received summary
      rw [heq]
      exact ih hnext htidy' (fun r' hr' => hfound r' (List.mem_cons_of_mem _ hr'))
        (fun a ha => hspares a (.inr ha)) received' summary'

theorem Restores.receiveFrom {h : Nat} {v w : WalletState} (hr : Restores h v w)
    (hfinds : Finds C w.keys image) (htidy : w.Tidy image) (hle : h ≤ height) (hpos : 0 < height)
    {t : SeenTx} (hspares : ∀ a ∈ w.replacedIn C height timestamp t, h ≤ a) :
    Restores h v (w.receiveFrom C height timestamp t.tx t.txid t.indices).1 := by
  refine (hr.spendInputs htidy hle hpos t.tx.keyImages).receiveOutputs
    (htidy.spendInputs hpos t.tx.keyImages) hle ?_ hspares _ _ _
  intro r hr
  rw [keys_spendInputs] at hr
  exact hfinds t.tx r hr

/-- The ids on record after a transaction. -/
def noteId (past : List Hash256) (t : SeenTx) : List Hash256 :=
  if t.tx.keyImages.isEmpty then past else past ++ [t.txid]

theorem namedBy_eq_nil {w : WalletState} {tx : Transaction} (h : tx.keyImages.isEmpty = true) :
    w.namedBy tx = [] := by
  rw [namedBy, List.isEmpty_iff.mp h]
  rfl

/-- The end of a transaction puts at most one record on the list, if the transaction has inputs with
    images. -/
theorem recordSpend_cases (w : WalletState) (height timestamp : Nat) (tx : Transaction) (txid : Hash256)
    (received : Nat) (named : List (KeyImage × Transfer)) :
    w.recordSpend height timestamp tx txid received named = w ∨
    named ≠ [] ∧ ∃ rings seen, seen.txid = txid ∧ seen.height = height ∧
      w.recordSpend height timestamp tx txid received named = { w with rings := rings }.spendSeen seen := by
  unfold recordSpend
  split
  · exact .inl rfl
  · rename_i account haccount
    refine .inr ⟨?_, _, _, rfl, rfl, rfl⟩
    rintro rfl
    cases haccount

/-- What a transaction leaves is tidy, and of its height at most. -/
theorem Tidy.scanSeenTx {w : WalletState} (hfinds : Finds C w.keys image) (h : w.Tidy image)
    (hwithin : w.Within lo (height + 1) past) (hlo : lo ≤ height) (hpos : 0 < height)
    (timestamp : Nat) (t : SeenTx) :
    (w.scanSeenTx C height timestamp t).Tidy image ∧
      (w.scanSeenTx C height timestamp t).Within lo (height + 1) (noteId past t) := by
  obtain ⟨htidy, hb⟩ := h.receiveFrom hfinds hwithin hlo hpos timestamp t.tx t.txid t.indices
  have hsub : past ⊆ noteId past t := by
    unfold noteId
    split
    · exact List.Subset.refl _
    · exact List.subset_append_left ..
  have hkeep (s : SentTx) (hs : s ∈ (w.receiveFrom C height timestamp t.tx t.txid t.indices).1.sent) :
      s.txid ∈ noteId past t ∧ ∀ c, s.state = .confirmed c → lo ≤ c ∧ c < height + 1 :=
    ⟨hsub (hb.sent s hs).1, (hb.sent s hs).2⟩
  unfold WalletState.scanSeenTx
  rw [processTransaction_fst]
  rcases recordSpend_cases (w.receiveFrom C height timestamp t.tx t.txid t.indices).1 height timestamp
    t.tx t.txid (w.receiveFrom C height timestamp t.tx t.txid t.indices).2 (w.namedBy t.tx) with
    heq | ⟨hnamed, rings, seen, hid, hheight, heq⟩
  · rw [heq]
    exact ⟨⟨htidy.marks, htidy.images, htidy.byImage, htidy.byKey, htidy.seen⟩, ⟨hb.transfers, hkeep⟩⟩
  · have hspends : t.txid ∈ noteId past t := by
      unfold noteId
      rw [if_neg fun hempty => hnamed (namedBy_eq_nil hempty)]
      simp
    obtain ⟨htransfers, himages, hkeys, -⟩ := spendSeen_transfers
      { (w.receiveFrom C height timestamp t.tx t.txid t.indices).1 with rings := rings } seen
    rw [heq]
    refine ⟨⟨?_, ?_, ?_, ?_, ?_⟩, ⟨?_, ?_⟩⟩
    · exact fun t' ht' => htidy.marks t' (htransfers ▸ ht')
    · exact fun t' ht' => htidy.images t' (htransfers ▸ ht')
    · exact himages.trans (htidy.byImage.trans (congrArg imageIndex htransfers.symm))
    · exact hkeys.trans (htidy.byKey.trans (congrArg keyIndex htransfers.symm))
    · intro s hs
      rcases mem_spendSeen hs with hs | ⟨-, hstate, ⟨s₀, hs₀, htime⟩ | htime⟩
      · exact htidy.seen s hs
      · exact ⟨htime.trans (htidy.seen s₀ hs₀).1, _, hstate⟩
      · exact ⟨htime, _, hstate⟩
    · exact fun t' ht' => hb.transfers t' (htransfers ▸ ht')
    · intro s hs
      rcases mem_spendSeen hs with hs | ⟨hsame, hstate, -⟩
      · exact hkeep s hs
      · refine ⟨by rw [hsame, hid]; exact hspends, ?_⟩
        intro c hc
        rw [hstate, SentState.confirmed.injEq] at hc
        omega

theorem Restores.scanSeenTx {h : Nat} {v w : WalletState} (hr : Restores h v w)
    (hfinds : Finds C w.keys image) (htidy : w.Tidy image) (hwithin : w.Within lo (height + 1) past)
    (hlo : lo ≤ height) (hle : h ≤ height) (hpos : 0 < height) {t : SeenTx}
    (hnew : t.tx.keyImages.isEmpty = false → t.txid ∉ past)
    (hspares : ∀ a ∈ w.replacedIn C height timestamp t, h ≤ a) :
    Restores h v (w.scanSeenTx C height timestamp t) := by
  have hreceive := hr.receiveFrom hfinds htidy hle hpos hspares
  obtain ⟨-, hb⟩ := htidy.receiveFrom hfinds hwithin hlo hpos timestamp t.tx t.txid t.indices
  unfold WalletState.scanSeenTx
  rw [processTransaction_fst]
  rcases recordSpend_cases (w.receiveFrom C height timestamp t.tx t.txid t.indices).1 height timestamp
    t.tx t.txid (w.receiveFrom C height timestamp t.tx t.txid t.indices).2 (w.namedBy t.tx) with
    heq | ⟨hnamed, rings, seen, hid, hheight, heq⟩
  · rw [heq]
    exact ⟨hreceive.transfers, hreceive.sent, hreceive.account, hreceive.subaddresses⟩
  · have hempty : t.tx.keyImages.isEmpty = false := by
      rw [Bool.eq_false_iff]
      exact fun h => hnamed (namedBy_eq_nil h)
    have hseen := Restores.spendSeen (h := h) (v := v)
      (w := { (w.receiveFrom C height timestamp t.tx t.txid t.indices).1 with rings := rings })
      ⟨hreceive.transfers, hreceive.sent, hreceive.account, hreceive.subaddresses⟩ seen (by omega) ?_
    · rw [heq]
      exact ⟨hseen.transfers, hseen.sent, hseen.account, hseen.subaddresses⟩
    · intro s hs hsame
      apply hnew hempty
      rw [← hid, ← hsame]
      exact (hb.sent s hs).1

end

/-! ### Blocks -/

/-- No transaction of these replaces an output of a block below `h`. -/
def SparesTxs (C : Crypto) (h height timestamp : Nat) : WalletState → List SeenTx → Prop
  | _, [] => True
  | w, t :: txs => (∀ a ∈ w.replacedIn C height timestamp t, h ≤ a) ∧
      SparesTxs C h height timestamp (w.scanSeenTx C height timestamp t) txs

/-- No block of these at `h` or above replaces an output of a block below. -/
def SparesBlocks (C : Crypto) (world : Hash256 → SeenBlock) (h : Nat) :
    WalletState → Nat → List Hash256 → Prop
  | _, _, [] => True
  | w, height, id :: ids =>
      (h ≤ height → SparesTxs C h height (world id).timestamp w (world id).txs) ∧
        SparesBlocks C world h (w.scanSeen C height (world id)) (height + 1) ids

theorem sparesBlocks_append {world : Hash256 → SeenBlock} {h : Nat} {w : WalletState} {height : Nat}
    {ids ids' : List Hash256} (hs : SparesBlocks C world h w height (ids ++ ids')) :
    SparesBlocks C world h (replay C world w height ids) (height + ids.length) ids' := by
  induction ids generalizing w height with
  | nil => exact hs
  | cons id ids ih =>
      rw [List.length_cons, show height + (ids.length + 1) = height + 1 + ids.length by omega]
      exact ih hs.2

theorem keys_scanSeenTx (w : WalletState) (height timestamp : Nat) (t : SeenTx) :
    (w.scanSeenTx C height timestamp t).keys = w.keys := by
  show (w.processTransaction C height timestamp t.tx t.txid t.indices {}).1.keys = w.keys
  exact keys_of_frame (frame_processTransaction ..)

theorem keys_scanSeen (w : WalletState) (height : Nat) (b : SeenBlock) :
    (w.scanSeen C height b).keys = w.keys :=
  foldl_kept (fun w t => w.keys_scanSeenTx height b.timestamp t) b.txs w

theorem foldl_noteId (past : List Hash256) (txs : List SeenTx) :
    txs.foldl noteId past = past ++ (txs.filter fun t => !t.tx.keyImages.isEmpty).map (·.txid) := by
  induction txs generalizing past with
  | nil => simp
  | cons t txs ih =>
      rw [List.foldl_cons, ih, List.filter_cons]
      unfold noteId
      cases t.tx.keyImages.isEmpty <;> simp

section

variable {lo height timestamp : Nat}

theorem Tidy.scanTxs {w : WalletState} {past : List Hash256} (hfinds : Finds C w.keys image)
    (h : w.Tidy image) (hwithin : w.Within lo (height + 1) past) (hlo : lo ≤ height) (hpos : 0 < height)
    (timestamp : Nat) (txs : List SeenTx) :
    (txs.foldl (WalletState.scanSeenTx C height timestamp) w).Tidy image ∧
      (txs.foldl (WalletState.scanSeenTx C height timestamp) w).Within lo (height + 1)
        (txs.foldl noteId past) := by
  induction txs generalizing w past with
  | nil => exact ⟨h, hwithin⟩
  | cons t txs ih =>
      obtain ⟨htidy, hb⟩ := h.scanSeenTx hfinds hwithin hlo hpos timestamp t
      exact ih (by rwa [keys_scanSeenTx]) htidy hb

theorem Restores.scanTxs {h : Nat} {v w : WalletState} {past : List Hash256} (hr : Restores h v w)
    (hfinds : Finds C w.keys image) (htidy : w.Tidy image) (hwithin : w.Within lo (height + 1) past)
    (hlo : lo ≤ height) (hle : h ≤ height) (hpos : 0 < height) (txs : List SeenTx) (hnodup : (txs.foldl noteId past).Nodup)
    (hspares : SparesTxs C h height timestamp w txs) :
    Restores h v (txs.foldl (WalletState.scanSeenTx C height timestamp) w) := by
  induction txs generalizing w past with
  | nil => exact hr
  | cons t txs ih =>
      obtain ⟨htidy', hb⟩ := htidy.scanSeenTx hfinds hwithin hlo hpos timestamp t
      refine ih (hr.scanSeenTx hfinds htidy hwithin hlo hle hpos ?_ hspares.1) (by rwa [keys_scanSeenTx])
        htidy' hb hnodup hspares.2
      intro hspends hmem
      rw [List.foldl_cons, foldl_noteId] at hnodup
      replace hnodup := (List.nodup_append.mp hnodup).1
      rw [noteId, hspends, if_neg Bool.false_ne_true] at hnodup
      exact (List.nodup_append.mp hnodup).2.2 t.txid hmem t.txid (List.mem_singleton_self _) rfl

variable {world : Hash256 → SeenBlock}

/-- What a replay leaves is tidy, and below where it ends. -/
theorem Tidy.replay (world : Hash256 → SeenBlock) {w : WalletState} {past : List Hash256}
    (hfinds : Finds C w.keys image) (h : w.Tidy image) (hwithin : w.Within lo height past) (hlo : lo ≤ height) (hpos : 0 < height) (ids : List Hash256) :
    (WalletState.replay C world w height ids).Tidy image ∧
      (WalletState.replay C world w height ids).Within lo (height + ids.length)
        (past ++ ids.flatMap fun id => (world id).spendingIds) ∧
      (WalletState.replay C world w height ids).keys = w.keys := by
  induction ids generalizing w height past with
  | nil => exact ⟨h, by simpa [WalletState.replay] using hwithin, rfl⟩
  | cons id ids ih =>
      obtain ⟨htidy, hb⟩ := h.scanTxs hfinds (hwithin.mono (Nat.le_succ _)) hlo hpos
        (world id).timestamp (world id).txs
      rw [foldl_noteId] at hb
      have hkeys := w.keys_scanSeen (C := C) height (world id)
      obtain ⟨htidy', hb', hkeys'⟩ := ih (w := w.scanSeen C height (world id)) (by rwa [hkeys]) htidy hb
        (by omega) (Nat.succ_pos _)
      refine ⟨htidy', ?_, hkeys'.trans hkeys⟩
      rw [List.length_cons, show height + (ids.length + 1) = height + 1 + ids.length by omega,
        List.flatMap_cons, ← List.append_assoc]
      exact hb'

theorem Restores.replay {h : Nat} {v w : WalletState} {past : List Hash256} (hr : Restores h v w)
    (hfinds : Finds C w.keys image) (htidy : w.Tidy image) (hwithin : w.Within lo height past)
    (hlo : lo ≤ height) (hle : h ≤ height) (hpos : 0 < height) {ids : List Hash256}
    (hnodup : (past ++ ids.flatMap fun id => (world id).spendingIds).Nodup)
    (hspares : SparesBlocks C world h w height ids) :
    Restores h v (WalletState.replay C world w height ids) := by
  induction ids generalizing w height past with
  | nil => exact hr
  | cons id ids ih =>
      rw [List.flatMap_cons, ← List.append_assoc] at hnodup
      have hmono := hwithin.mono (Nat.le_succ height)
      obtain ⟨htidy', hb⟩ := htidy.scanTxs hfinds hmono hlo hpos (world id).timestamp
        (world id).txs
      rw [foldl_noteId] at hb
      have hnext := hr.scanTxs hfinds htidy hmono hlo hle hpos (world id).txs
        (by rw [foldl_noteId]; exact (List.nodup_append.mp hnodup).1) (hspares.1 hle)
      exact ih (w := w.scanSeen C height (world id)) hnext (by rwa [keys_scanSeen]) htidy' hb (by omega) (by omega)
        (Nat.succ_pos _) hnodup hspares.2

end

/-- What a detach leaves of a wallet that only ever scanned. -/
theorem detach_eq {h : Nat} {v w : WalletState} (hr : Restores h v w) (hv : v.Tidy image) :
    w.detach h = { w with
      hashes := w.hashes.take (h - w.startHeight)
      transfers := v.transfers
      byKeyImage := v.byKeyImage
      byPublicKey := v.byPublicKey
      sent := v.sent } := by
  have hnone : v.sent.filter (fun s => s.state == .pending) = [] := by
    rw [List.filter_eq_nil_iff]
    intro s hs
    obtain ⟨-, c, hc⟩ := hv.seen s hs
    rw [hc]
    simp
  unfold WalletState.detach detachSent
  simp only [WalletState.reindex, hr.transfers, hr.sent]
  rw [spendPendingInputs, pendingInputs]
  simp only [hnone]
  rw [hv.byImage, hv.byKey]
  rfl

theorem purse_detach {h : Nat} {v w : WalletState} (hr : Restores h v w) (hv : v.Tidy image) :
    (w.detach h).purse = v.purse := by
  rw [detach_eq hr hv]
  unfold WalletState.purse
  simp only [hr.account, hr.subaddresses]

end WalletState

end Wownero
