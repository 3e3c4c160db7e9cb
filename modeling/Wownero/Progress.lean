import Wownero.Framed
import Wownero.Sample
/-!
# Whether a refresh gets anywhere

A source that serves a fixed chain, answering from the newest block of the history it has, and a
wallet whose own chain may have split from that one.  Every reply is cut at the batch size, so
whether it reaches past the split depends on how coarse the history is there: the history thins
out exponentially, and a reply that ends before the split brings nothing new.
-/

namespace Wownero

/-! ### An honest source -/

/-- Where a history meets a chain: the height of the newest of its blocks the chain has. -/
def servedFrom (ids history : List Hash256) : Nat :=
  (history.findSome? fun h => ids.findIdx? (· == h)).getD 0

/-- At most `most` blocks from where the history meets the chain, that block included, or from a
    height that is named. -/
def honestBatch (chain : List BlockBundle) (ids history : List Hash256) (start most : Nat) :
    BlockSource.Batch :=
  let first := if start > 0 then start else servedFrom ids history
  ⟨(chain.drop first).take most, first, chain.length⟩

/-- At most `most` hashes from where the history meets the chain. -/
def honestHashes (ids history : List Hash256) (most : Nat) : Hashes :=
  ⟨(ids.drop (servedFrom ids history)).take most, servedFrom ids history, ids.length⟩

/-- A block whose parts can all be read. -/
structure Readable (C : Crypto) (bundle : BlockBundle) (block : Block) (id : Hash256) : Prop where
  parsed : Block.fromBlob bundle.block = .ok block
  named : block.blockId C.cnFastHash = some id
  counted : bundle.txs.length = block.txHashes.length
  txs : ∀ blob ∈ bundle.txs, ∃ tx, bundle.parseTx blob = .ok tx

/-- A chain of readable blocks, each on its parent, no two alike. -/
structure Chained (C : Crypto) (chain : List BlockBundle) (ids : List Hash256) : Prop where
  readable : ∀ h bundle, chain[h]? = some bundle → ∃ block id, ids[h]? = some id ∧
    Readable C bundle block id ∧ ∀ parent, h = parent + 1 → ids[parent]? = some block.header.prevId
  length_eq : ids.length = chain.length
  nodup : ids.Nodup

/-- A source that serves this chain.  One that lists hashes lists up to so many of them at a time,
    and more than the known one. -/
structure Serves (C : Crypto) (source : BlockSource) (chain : List BlockBundle)
    (ids : List Hash256) (lists : Option Nat) : Prop where
  chained : Chained C chain ids
  blocks : ∀ history start most,
    source.getBlocks history start most = .ok (honestBatch chain ids history start most)
  hashes : ∀ history, source.getHashes history = .ok (lists.map (honestHashes ids history))
  listed : ∀ most ∈ lists, 2 ≤ most

namespace WalletState

/-! ### What scanning counts -/

variable {C : Crypto}

theorem blocksScanned_receiveOutputs (height timestamp : Nat) (tx : Transaction) (txid : Hash256)
    (indices : List Nat) (account : Option UInt32) (found : List Received) (w : WalletState)
    (received : Nat) (summary : RefreshSummary) :
    (receiveOutputs C height timestamp tx txid indices account found w received
      summary).2.blocksScanned = summary.blocksScanned := by
  induction found generalizing w received summary with
  | nil => rfl
  | cons r found ih =>
      rw [receiveOutputs]
      split
      · exact ih ..
      · exact ih ..

theorem blocksScanned_processTransaction (w : WalletState) (height timestamp : Nat)
    (tx : Transaction) (txid : Hash256) (indices : List Nat) (summary : RefreshSummary) :
    (w.processTransaction C height timestamp tx txid indices summary).2.blocksScanned =
      summary.blocksScanned := by
  unfold processTransaction
  simp only
  split
  · exact blocksScanned_receiveOutputs ..
  · exact blocksScanned_receiveOutputs ..

theorem processTransactions_ok {bundle : BlockBundle} (height timestamp slot : Nat)
    (txs : List (Blob × Hash256)) (h : ∀ p ∈ txs, ∃ tx, bundle.parseTx p.1 = .ok tx)
    (w : WalletState) (summary : RefreshSummary) :
    ∃ summary', (processTransactions C bundle height timestamp slot txs w summary).1 =
      .ok summary' ∧ summary'.blocksScanned = summary.blocksScanned := by
  induction txs generalizing slot w summary with
  | nil => exact ⟨summary, rfl, rfl⟩
  | cons p txs ih =>
      obtain ⟨tx, htx⟩ := h p List.mem_cons_self
      obtain ⟨blob, txid⟩ := p
      rw [processTransactions, htx]
      simp only
      obtain ⟨summary', hok, hscanned⟩ := ih (slot + 1) (fun p hp => h p (List.mem_cons_of_mem _ hp))
        _ (w.processTransaction C height timestamp tx txid (bundle.outputIndices.getD slot [])
          summary).2
      refine ⟨summary', hok, ?_⟩
      rw [hscanned, blocksScanned_processTransaction]

/-- A readable block on the tip is scanned, and its hash put on the end. -/
theorem processBlock_ok {w : WalletState} {block : Block} {id : Hash256} {bundle : BlockBundle}
    (hread : Readable C bundle block id)
    (hparent : ∀ previous, w.hashes.getLast? = some previous → block.header.prevId = previous)
    (summary : RefreshSummary) :
    ∃ summary' w', w.processBlock C w.scanHeight block id bundle summary = (.ok summary', w') ∧
      w'.frame = { w.frame with hashes := w.hashes ++ [id] } ∧
      summary'.blocksScanned = summary.blocksScanned := by
  have hbreaks : w.breaksChain w.scanHeight block = none := by
    unfold breaksChain
    rw [Option.filter_eq_none_iff]
    intro previous hlast
    simp [hparent previous hlast]
  have hpush (w₁ : WalletState) (hframe : w₁.frame = w.frame) :
      (w₁.pushHash w.scanHeight id).frame = { w.frame with hashes := w.hashes ++ [id] } := by
    have hhashes := hashes_of_frame hframe
    have hheight : w.scanHeight = w₁.scanHeight := by
      rw [scanHeight, scanHeight, hhashes, startHeight_of_frame hframe]
    unfold pushHash
    rw [if_pos hheight, ← hframe, ← hhashes]
    rfl
  unfold processBlock
  rw [hbreaks]
  simp only
  split
  · exact ⟨summary, _, rfl, hpush w rfl, rfl⟩
  rw [if_neg (not_not.mpr hread.counted)]
  obtain ⟨summary', hok, hscanned⟩ := processTransactions_ok (C := C) w.scanHeight
    block.header.timestamp 1 (bundle.txs.zip block.txHashes)
    (fun p hp => hread.txs p.1 (List.of_mem_zip hp).1) _
    (w.processTransaction C w.scanHeight block.header.timestamp block.minerTx
      ((transactionHash C.cnFastHash block.minerTx).getD nullHash) (bundle.outputIndices.headD [])
      summary).2
  have hframe := frame_processTransactions (C := C) bundle w.scanHeight block.header.timestamp 1
    (bundle.txs.zip block.txHashes)
    (w.processTransaction C w.scanHeight block.header.timestamp block.minerTx
      ((transactionHash C.cnFastHash block.minerTx).getD nullHash) (bundle.outputIndices.headD [])
      summary).1
    (w.processTransaction C w.scanHeight block.header.timestamp block.minerTx
      ((transactionHash C.cnFastHash block.minerTx).getD nullHash) (bundle.outputIndices.headD [])
      summary).2
  rw [frame_processTransaction] at hframe
  split
  · rename_i e w' heq
    rw [heq] at hok
    cases hok
  · rename_i summary₁ w₁ heq
    rw [heq] at hok hframe
    cases hok
    exact ⟨_, _, rfl, hpush w₁ hframe, hscanned.trans (blocksScanned_processTransaction ..)⟩

/-! ### Where two chains split -/

/-- The blocks the wallet holds are those of the chain up to the height `f`, and none of the chain
    from there on. -/
structure SplitsAt (w : WalletState) (ids : List Hash256) (f : Nat) : Prop where
  low : w.startHeight ≤ f
  high : f ≤ w.scanHeight
  inside : f ≤ max ids.length w.startHeight
  same : ∀ i, w.startHeight + i < f → w.hashes[i]? = ids[w.startHeight + i]?
  apart : ∀ i hash, f ≤ w.startHeight + i → w.hashes[i]? = some hash → hash ∉ ids

theorem SplitsAt.take_eq {w : WalletState} {ids : List Hash256} {f : Nat} (h : w.SplitsAt ids f) :
    w.hashes.take (f - w.startHeight) = (ids.drop w.startHeight).take (f - w.startHeight) := by
  apply List.ext_getElem?
  intro i
  have hlow := h.low
  by_cases hi : i < f - w.startHeight
  · rw [List.getElem?_take_of_lt hi, List.getElem?_take_of_lt hi, List.getElem?_drop]
    exact h.same i (by omega)
  · rw [List.getElem?_take_eq_none (by omega), List.getElem?_take_eq_none (by omega)]

/-- A wallet that holds the blocks of the chain up to its own tip. -/
theorem splitsAt_of_hashes {w : WalletState} {ids : List Hash256} {f : Nat} (hlow : w.startHeight ≤ f)
    (hinside : f ≤ max ids.length w.startHeight)
    (hhashes : w.hashes = (ids.drop w.startHeight).take (f - w.startHeight)) : w.SplitsAt ids f := by
  have hlen : w.hashes.length = f - w.startHeight := by
    rw [hhashes, List.length_take, List.length_drop]
    omega
  refine ⟨hlow, ?_, hinside, ?_, ?_⟩
  · rw [scanHeight, hlen]
    omega
  · intro i hi
    rw [hhashes, List.getElem?_take_of_lt (by omega), List.getElem?_drop]
  · intro i hash hi hget
    have := List.getElem?_eq_some_iff.mp hget
    obtain ⟨hlt, -⟩ := this
    omega

/-! ### One reply -/

/-- The block of the chain at the split is taken, whether the wallet ends there or goes on another
    way. -/
theorem processBlocks_split {chain : List BlockBundle} {ids : List Hash256}
    (hchain : Chained C chain ids) {w : WalletState} {f : Nat} (hsplit : w.SplitsAt ids f)
    (hdepth : w.maxReorgDepth = 0) {bundle : BlockBundle} (hget : chain[f]? = some bundle)
    (rest : List BlockBundle) (summary : RefreshSummary) :
    ∃ summary' w', processBlocks C f (bundle :: rest) w summary =
        processBlocks C (f + 1) rest w' summary' ∧
      w'.frame = { w.frame with hashes := (ids.drop w.startHeight).take (f + 1 - w.startHeight) } ∧
      summary'.blocksScanned = summary.blocksScanned + 1 := by
  obtain ⟨block, id, hid, hread, hparent⟩ := hchain.readable f bundle hget
  have hlow := hsplit.low
  have hparsed : parseBundle C f bundle = .ok (block, id) := by
    simp only [parseBundle, hread.parsed, hread.named]
  have hgrow : (ids.drop w.startHeight).take (f - w.startHeight) ++ [id] =
      (ids.drop w.startHeight).take (f + 1 - w.startHeight) := by
    rw [show f + 1 - w.startHeight = (f - w.startHeight) + 1 by omega, List.take_add_one,
      List.getElem?_drop, show w.startHeight + (f - w.startHeight) = f by omega, hid]
    rfl
  -- A wallet that ends at the split adds the block.
  have hadd (w₁ : WalletState) (hframe : w₁.frame = { w.frame with
      hashes := (ids.drop w.startHeight).take (f - w.startHeight) }) (summary₁ : RefreshSummary) :
      ∃ summary₂ w₂, w₁.processBlock C f block id bundle summary₁ = (.ok summary₂, w₂) ∧
        w₂.frame = { w.frame with
          hashes := (ids.drop w.startHeight).take (f + 1 - w.startHeight) } ∧
        summary₂.blocksScanned = summary₁.blocksScanned := by
    have hhashes : w₁.hashes = (ids.drop w.startHeight).take (f - w.startHeight) :=
      (congrArg (fun v : WalletState => v.hashes) hframe :)
    have hstart : w₁.startHeight = w.startHeight :=
      (congrArg (fun v : WalletState => v.startHeight) hframe :)
    have hlt := (List.getElem?_eq_some_iff.mp hid).1
    have hheight : f = w₁.scanHeight := by
      rw [scanHeight, hstart, hhashes, List.length_take, List.length_drop]
      omega
    have hlast (previous : Hash256) (h : w₁.hashes.getLast? = some previous) :
        block.header.prevId = previous := by
      rw [hhashes, List.getLast?_eq_getElem?, List.length_take, List.length_drop,
        Nat.min_eq_left (by omega)] at h
      by_cases hf : f - w.startHeight = 0
      · rw [hf, List.take_zero] at h
        exact absurd h (by simp)
      rw [List.getElem?_take_of_lt (by omega), List.getElem?_drop,
        show w.startHeight + (f - w.startHeight - 1) = f - 1 by omega,
        hparent (f - 1) (by omega)] at h
      exact Option.some.inj h
    obtain ⟨summary₂, w₂, hok, hframe₂, hscanned⟩ := processBlock_ok hread hlast summary₁
    rw [← hheight] at hok
    refine ⟨summary₂, w₂, hok, ?_, hscanned⟩
    rw [hframe₂, hframe, hhashes, hgrow]
  rw [processBlocks]
  rw [if_neg (by omega), hparsed]
  simp only
  have hhigh := hsplit.high
  by_cases hf : f < w.scanHeight
  · have hother : w.hashes[f - w.startHeight]? ≠ some id := fun h =>
      hsplit.apart _ _ (by omega) h (List.mem_of_getElem? hid)
    rw [if_pos hf, if_neg hother]
    simp only [checkReorgDepth, hdepth, ne_eq, not_true_eq_false, false_and, if_false]
    obtain ⟨summary₂, w₂, hok, hframe₂, hscanned⟩ := hadd (w.detach f)
      (by rw [frame_detach, hsplit.take_eq]) { summary with reorgTo := some f }
    rw [hok]
    refine ⟨_, w₂, rfl, hframe₂, ?_⟩
    simp only [hscanned]
  · have hheld : w.frame = { w.frame with
        hashes := (ids.drop w.startHeight).take (f - w.startHeight) } := by
      rw [← hsplit.take_eq, List.take_of_length_le]
      · rfl
      · rw [scanHeight] at hf
        omega
    rw [if_neg hf]
    obtain ⟨summary₂, w₂, hok, hframe₂, hscanned⟩ := hadd w hheld summary
    rw [hok]
    refine ⟨_, w₂, rfl, hframe₂, ?_⟩
    simp only [hscanned]

/-- The first blocks of a reply are those the wallet holds, up to the split; the rest it takes. -/
theorem processBlocks_served {chain : List BlockBundle} {ids : List Hash256}
    (hchain : Chained C chain ids) (height n : Nat) {w : WalletState} {f : Nat}
    (hsplit : w.SplitsAt ids f) (hdepth : w.maxReorgDepth = 0) (hlow : w.startHeight ≤ height)
    (hheight : height ≤ f) (hlen : height + n ≤ chain.length) (summary : RefreshSummary) :
    ∃ summary' w', processBlocks C height ((chain.drop height).take n) w summary =
        (.ok summary', w') ∧
      (height + n ≤ f → summary' = summary ∧ w' = w) ∧
      (f < height + n →
        w'.frame = { w.frame with
          hashes := (ids.drop w.startHeight).take (height + n - w.startHeight) } ∧
        summary.blocksScanned < summary'.blocksScanned) := by
  induction n generalizing w f height summary with
  | zero =>
      refine ⟨summary, w, by rw [List.take_zero, processBlocks], fun _ => ⟨rfl, rfl⟩, ?_⟩
      intro h
      omega
  | succ n ih =>
      have hlt : height < chain.length := by omega
      rw [List.drop_eq_getElem_cons hlt, List.take_succ_cons]
      have hget : chain[height]? = some chain[height] := List.getElem?_eq_getElem hlt
      by_cases hf : height < f
      · obtain ⟨block, id, hid, hread, -⟩ := hchain.readable height _ hget
        have hheld : w.hashes[height - w.startHeight]? = some id := by
          rw [hsplit.same _ (by omega), show w.startHeight + (height - w.startHeight) = height by
            omega, hid]
        have hparsed : parseBundle C height chain[height] = .ok (block, id) := by
          simp only [parseBundle, hread.parsed, hread.named]
        have hhigh := hsplit.high
        rw [processBlocks]
        rw [if_neg (by omega), hparsed]
        simp only
        rw [if_pos (by omega), if_pos hheld]
        obtain ⟨summary', w', hok, hkept, hnew⟩ := ih (height + 1) hsplit hdepth (by omega)
          (by omega) (by omega) summary
        rw [show height + 1 + n = height + (n + 1) by omega] at hkept hnew
        exact ⟨summary', w', hok, hkept, hnew⟩
      · obtain rfl : height = f := by omega
        obtain ⟨summary₁, w₁, heq, hframe, hscanned⟩ := processBlocks_split hchain hsplit hdepth hget
          ((chain.drop (height + 1)).take n) summary
        have hhashes : w₁.hashes = (ids.drop w.startHeight).take (height + 1 - w.startHeight) :=
          (congrArg (fun v : WalletState => v.hashes) hframe :)
        have hstart : w₁.startHeight = w.startHeight :=
          (congrArg (fun v : WalletState => v.startHeight) hframe :)
        have hdepth₁ : w₁.maxReorgDepth = 0 :=
          (congrArg (fun v : WalletState => v.maxReorgDepth) hframe :).trans hdepth
        rw [← hstart] at hhashes
        have hidlen := hchain.length_eq
        have hsplit₁ : w₁.SplitsAt ids (height + 1) :=
          splitsAt_of_hashes (by omega) (by omega) hhashes
        obtain ⟨summary', w', hok, hkept, hnew⟩ := ih (height + 1) hsplit₁ hdepth₁
          (by omega) (Nat.le_refl _) (by omega) summary₁
        rw [heq]
        refine ⟨summary', w', hok, ?_, ?_⟩
        · intro h
          omega
        · intro _
          by_cases hn : n = 0
          · obtain ⟨rfl, rfl⟩ := hkept (by omega)
            subst hn
            exact ⟨hframe, by omega⟩
          · obtain ⟨hframe', hscanned'⟩ := hnew (by omega)
            refine ⟨?_, by omega⟩
            rw [hframe', hframe, hstart, show height + 1 + n = height + (n + 1) by omega]

/-! ### Where a reply starts -/

theorem findIdx?_of_nodup {ids : List Hash256} (hnodup : ids.Nodup) {h : Nat} {hash : Hash256}
    (hget : ids[h]? = some hash) : ids.findIdx? (· == hash) = some h := by
  obtain ⟨hlt, heq⟩ := List.getElem?_eq_some_iff.mp hget
  rw [List.findIdx?_eq_some_iff_getElem]
  refine ⟨hlt, by simp [heq], ?_⟩
  intro j hj hbeq
  have hsame : ids[j] = ids[h] := by simpa [heq] using hbeq
  have := (List.Nodup.getElem_inj_iff hnodup).mp hsame
  omega

/-- A hash the chain has, in the history of a wallet, is one the wallet holds below the split. -/
theorem SplitsAt.findIdx?_eq {w : WalletState} {ids : List Hash256} {f : Nat}
    (hsplit : w.SplitsAt ids f) (hnodup : ids.Nodup) {hash : Hash256} {s : Nat}
    (hmem : hash ∈ w.hashes) (hfind : ids.findIdx? (· == hash) = some s) :
    w.startHeight ≤ s ∧ s < f := by
  obtain ⟨i, hi⟩ := List.mem_iff_getElem?.mp hmem
  have hin : hash ∈ ids := by
    obtain ⟨hlt, hbeq, -⟩ := List.findIdx?_eq_some_iff_getElem.mp hfind
    rw [← eq_of_beq hbeq]
    exact List.getElem_mem hlt
  have hlow : w.startHeight + i < f := by
    by_contra hge
    exact hsplit.apart i hash (by omega) hi hin
  have hat : ids[w.startHeight + i]? = some hash := by rw [← hsplit.same i hlow, hi]
  have := findIdx?_of_nodup hnodup hat
  rw [this, Option.some.injEq] at hfind
  omega

theorem mem_historyLoop {held : List Hash256} {hash : Hash256} (fuel i step out : Nat)
    (h : hash ∈ historyLoop held fuel i step out) : hash ∈ held := by
  induction fuel generalizing i step out with
  | zero =>
      rw [historyLoop] at h
      cases h
  | succ fuel ih =>
      rw [historyLoop] at h
      split at h
      · cases h
      · rename_i hash' hget
        rcases List.mem_cons.mp h with rfl | hrest
        · exact List.mem_reverse.mp (List.mem_of_getElem? hget)
        · exact ih _ _ _ hrest

theorem mem_pushAnchor {out : List Hash256} {anchor hash : Hash256} (h : hash ∈ pushAnchor out anchor) :
    hash ∈ out ∨ hash = anchor := by
  unfold pushAnchor at h
  split at h
  · exact .inl h
  · simpa using h

theorem anchor_mem_pushAnchor (out : List Hash256) (anchor : Hash256) :
    anchor ∈ pushAnchor out anchor := by
  unfold pushAnchor
  split
  · exact List.mem_of_getLast? ‹_›
  · simp

theorem findSome?_pushAnchor {β : Type} {f : Hash256 → Option β} {out : List Hash256} {b : β}
    (anchor : Hash256) (h : out.findSome? f = some b) :
    (pushAnchor out anchor).findSome? f = some b := by
  unfold pushAnchor
  split
  · exact h
  · rw [List.findSome?_append, h]
    rfl

/-- A history of blocks the wallet holds, down to its first, is answered from one of them below the
    split. -/
theorem SplitsAt.servedFrom_le {w : WalletState} {ids : List Hash256} {f : Nat}
    (hsplit : w.SplitsAt ids f) (hnodup : ids.Nodup) (hlow : w.startHeight < f) {out : List Hash256}
    (hout : ∀ hash ∈ out, hash ∈ w.hashes) {first : Hash256} (hfirst : w.hashes[0]? = some first)
    (genesis : Hash256) :
    w.startHeight ≤ servedFrom ids (pushAnchor (pushAnchor out first) genesis) ∧
      servedFrom ids (pushAnchor (pushAnchor out first) genesis) < f := by
  have hat : ids[w.startHeight]? = some first := by rw [← hfirst, hsplit.same 0 (by omega)]; rfl
  have hsome : ((pushAnchor out first).findSome? fun h => ids.findIdx? (· == h)).isSome := by
    rw [List.findSome?_isSome_iff]
    exact ⟨first, anchor_mem_pushAnchor _ _, by rw [findIdx?_of_nodup hnodup hat]; rfl⟩
  obtain ⟨s, hs⟩ := Option.isSome_iff_exists.mp hsome
  rw [servedFrom, findSome?_pushAnchor _ hs]
  obtain ⟨hash, hmem, hfind⟩ := List.exists_of_findSome?_eq_some hs
  refine hsplit.findIdx?_eq hnodup ?_ hfind
  rcases mem_pushAnchor hmem with hloop | rfl
  · exact hout hash hloop
  · exact List.mem_of_getElem? hfirst

/-- A history that starts with a block of the chain is answered from it. -/
theorem servedFrom_newest {ids : List Hash256} (hnodup : ids.Nodup) {newest : Hash256} {h : Nat}
    (hat : ids[h]? = some newest) (out : List Hash256) (first genesis : Hash256) :
    servedFrom ids (pushAnchor (pushAnchor (newest :: out) first) genesis) = h := by
  have hs : ((newest :: out).findSome? fun h => ids.findIdx? (· == h)) = some h := by
    rw [List.findSome?_cons, findIdx?_of_nodup hnodup hat]
  rw [servedFrom, findSome?_pushAnchor _ (findSome?_pushAnchor _ hs), Option.getD_some]

/-- The tip of a wallet that holds blocks of the chain only. -/
theorem SplitsAt.getLast?_hashes {w : WalletState} {ids : List Hash256}
    (hsplit : w.SplitsAt ids w.scanHeight) (hheld : w.hashes ≠ []) :
    ids[w.scanHeight - 1]? = w.hashes.getLast? := by
  have hpos : 0 < w.hashes.length := List.length_pos_iff.mpr hheld
  have hheight : w.scanHeight = w.startHeight + w.hashes.length := rfl
  rw [List.getLast?_eq_getElem?, hsplit.same _ (by omega)]
  congr 1
  omega

/-- The reply to a wallet that holds blocks starts at one of them, below the split. -/
theorem servedFrom_historyAt {w : WalletState} {ids : List Hash256} {f : Nat}
    (hsplit : w.SplitsAt ids f) (hnodup : ids.Nodup) (hheld : w.hashes ≠ []) (hlow : w.startHeight < f)
    (granularity : Nat) :
    w.startHeight ≤ servedFrom ids (w.historyAt granularity) ∧
      servedFrom ids (w.historyAt granularity) < f := by
  obtain ⟨first, rest, hcons⟩ := List.exists_cons_of_ne_nil hheld
  have hfirst : w.hashes[0]? = some first := by rw [hcons]; rfl
  rw [historyAt, hcons]
  simp only
  rw [← hcons]
  refine hsplit.servedFrom_le hnodup hlow (fun hash hmem => ?_) hfirst w.genesis
  exact List.mem_of_mem_take (mem_historyLoop _ _ _ _ hmem)

/-- A fine history of a wallet on the chain is answered from its tip. -/
theorem servedFrom_tip {w : WalletState} {ids : List Hash256} (hsplit : w.SplitsAt ids w.scanHeight)
    (hnodup : ids.Nodup) (hheld : w.hashes ≠ []) :
    servedFrom ids (w.historyAt 1) = w.scanHeight - 1 := by
  obtain ⟨first, rest, hcons⟩ := List.exists_cons_of_ne_nil hheld
  have hpos : 0 < w.hashes.length := List.length_pos_iff.mpr hheld
  have hlen : min (w.scanHeight / max 1 1 * max 1 1 - w.startHeight) w.hashes.length =
      w.hashes.length := by
    rw [scanHeight]
    simp
  have hlast : w.hashes.reverse[0]? = some (w.hashes.getLast hheld) := by
    rw [List.getElem?_reverse (by omega), Nat.sub_zero, ← List.getLast?_eq_getElem?,
      List.getLast?_eq_some_getLast hheld]
  have hat : ids[w.scanHeight - 1]? = some (w.hashes.getLast hheld) := by
    rw [hsplit.getLast?_hashes hheld, List.getLast?_eq_some_getLast hheld]
  rw [historyAt, hcons]
  simp only
  rw [← hcons, hlen, List.take_length]
  obtain ⟨n, hn⟩ : ∃ n, w.hashes.length = n + 1 := ⟨w.hashes.length - 1, by omega⟩
  rw [hn, historyLoop, hlast]
  exact servedFrom_newest hnodup hat _ _ _

/-! ### One call for blocks -/

/-- How coarse the history of the next request is. -/
def granularity (w : WalletState) : Nat :=
  if w.firstRefreshDone || w.trustedDaemon then 1 else firstRefreshGranularity

/-- Where the reply to a request of this granularity starts. -/
def replyStart (w : WalletState) (ids : List Hash256) (granularity : Nat) : Nat :=
  if w.hashes.isEmpty ∧ 0 < w.startHeight then w.startHeight
  else servedFrom ids (w.historyAt granularity)

/-- The wallet after a reply that arrived whole, before it is looked at. -/
def asked (w : WalletState) : WalletState :=
  { w with
    batchSize := min (w.batchSize * 2) maxBlocksPerCall
    firstRefreshDone := true
    everRefreshed := true }

/-- A wallet that asks for blocks of a chain it split from at the height `f`.  It shares genesis and
    the block it starts at, and has no hashes to fill in or none to get. -/
structure Asks (w : WalletState) (ids : List Hash256) (lists : Option Nat) (f : Nat) : Prop where
  phase : w.fillTarget = none ∨ lists = none
  splits : w.SplitsAt ids f
  shared : w.hashes ≠ [] → w.startHeight < f
  genesis : ids[0]? = some w.genesis
  least : minBlocksPerCall ≤ w.batchSize
  most : w.batchSize ≤ maxBlocksPerCall
  depth : w.maxReorgDepth = 0

theorem Asks.scanHeight_of_nil {w : WalletState} {ids : List Hash256} {f : Nat}
    {lists : Option Nat} (h : w.Asks ids lists f) (hnil : w.hashes = []) : f = w.startHeight ∧ w.scanHeight = w.startHeight := by
  have hlow := h.splits.low
  have hhigh := h.splits.high
  rw [scanHeight, hnil, List.length_nil] at hhigh
  rw [scanHeight, hnil, List.length_nil]
  omega

theorem Asks.replyStart_le {w : WalletState} {ids : List Hash256} {lists : Option Nat} {f : Nat}
    (h : w.Asks ids lists f) (hnodup : ids.Nodup) (granularity : Nat) :
    w.startHeight ≤ w.replyStart ids granularity ∧ w.replyStart ids granularity ≤ f := by
  unfold replyStart
  by_cases hnil : w.hashes = []
  · have hheights := h.scanHeight_of_nil hnil
    rw [hnil]
    split
    · omega
    · rename_i hzero
      simp only [List.isEmpty_nil, true_and] at hzero
      have hgenesis : servedFrom ids (w.historyAt granularity) = 0 := by
        rw [historyAt, hnil]
        simp only [servedFrom, List.findSome?_cons, findIdx?_of_nodup hnodup h.genesis,
          Option.getD_some]
      omega
  · rw [if_neg (by simp [hnil])]
    have := servedFrom_historyAt h.splits hnodup hnil (h.shared hnil) granularity
    omega

/-- The request of a call, answered. -/
theorem refreshBlocks_eq {source : BlockSource} {chain : List BlockBundle} {ids : List Hash256}
    {lists : Option Nat} (hserves : Serves C source chain ids lists) (w : WalletState) :
    w.refreshBlocks C source = w.asked.processBatch C w.granularity
      ⟨(chain.drop (w.replyStart ids w.granularity)).take w.batchSize,
        w.replyStart ids w.granularity, chain.length⟩ := by
  have hfirst : (if (if w.hashes.isEmpty then w.startHeight else 0) > 0 then
      (if w.hashes.isEmpty then w.startHeight else 0)
      else servedFrom ids (w.historyAt w.granularity)) = w.replyStart ids w.granularity := by
    unfold replyStart
    by_cases hnil : w.hashes.isEmpty
    · simp only [hnil, if_true, true_and, gt_iff_lt]
    · simp only [hnil, Bool.false_eq_true, if_false, false_and, gt_iff_lt, Nat.lt_irrefl]
  unfold refreshBlocks
  simp only
  rw [requestBlocks, hserves.blocks]
  simp only [honestBatch]
  rw [← hfirst]
  rfl

/-- What a call for blocks makes of an honest reply: the blocks past the split, if the reply gets
    that far, and otherwise nothing. -/
theorem refreshBlocks_served {source : BlockSource} {chain : List BlockBundle} {ids : List Hash256}
    {lists : Option Nat} (hserves : Serves C source chain ids lists) {w : WalletState} {f : Nat}
    (hasks : w.Asks ids lists f) :
    (f < min (w.replyStart ids w.granularity + w.batchSize) ids.length →
      ∃ summary w', w.refreshBlocks C source = (.ok summary, w') ∧
        w'.frame = { w.asked.frame with
          hashes := (ids.drop w.startHeight).take
            (min (w.replyStart ids w.granularity + w.batchSize) ids.length - w.startHeight) } ∧
        (summary.caughtUp = true ↔
          ids.length ≤ w.replyStart ids w.granularity + w.batchSize)) ∧
    (min (w.replyStart ids w.granularity + w.batchSize) ids.length ≤ f →
      (w.refreshBlocks C source).2 = w.asked ∧
        if w.scanHeight < ids.length ∧ w.granularity = 1 then
          ∃ e, (w.refreshBlocks C source).1 = .error e
        else ∃ summary, (w.refreshBlocks C source).1 = .ok summary ∧
          (summary.caughtUp = true ↔ ids.length ≤ w.scanHeight)) := by
  obtain ⟨hlow, hf⟩ := hasks.replyStart_le hserves.chained.nodup w.granularity
  have hhigh := hasks.splits.high
  have hlen := hserves.chained.length_eq
  have hleast : 2 ≤ w.batchSize := hasks.least
  have hsplit : w.asked.SplitsAt ids f := by
    obtain ⟨h₁, h₂, h₃, h₄, h₅⟩ := hasks.splits
    exact ⟨h₁, h₂, h₃, h₄, h₅⟩
  rw [refreshBlocks_eq hserves]
  generalize w.replyStart ids w.granularity = s at hlow hf ⊢
  by_cases hempty : chain.length ≤ s
  · -- Only a wallet that holds no block asks from past the end.
    have hnone : (chain.drop s).take w.batchSize = [] := by
      rw [List.drop_eq_nil_of_le hempty, List.take_nil]
    refine ⟨fun h => by omega, fun _ => ?_⟩
    have hreached : ¬ (w.scanHeight < ids.length ∧ w.granularity = 1) := by omega
    rw [hnone, if_neg hreached]
    unfold processBatch
    simp only [List.isEmpty_nil, if_true]
    refine ⟨trivial, _, rfl, ?_⟩
    simp only [true_iff]
    omega
  have htake : (chain.drop s).take w.batchSize =
      (chain.drop s).take (min w.batchSize (chain.length - s)) := by
    rw [← List.length_drop, ← List.take_take, List.take_of_length_le (Nat.le_refl _)]
  have hsome : ((chain.drop s).take w.batchSize).isEmpty = false := by
    rw [List.isEmpty_eq_false_iff, ne_eq, List.take_eq_nil_iff, List.drop_eq_nil_iff]
    omega
  obtain ⟨summary', w', hok, hkept, hnew⟩ := processBlocks_served hserves.chained s
    (min w.batchSize (chain.length - s)) hsplit hasks.depth hlow hf (by omega)
    { currentHeight := chain.length }
  have hbatch : w.asked.processBatch C w.granularity
      ⟨(chain.drop s).take w.batchSize, s, chain.length⟩ =
      if summary'.blocksScanned = 0 ∧ ¬ chain.length ≤ w'.scanHeight ∧ w.granularity = 1 then
        (.error (.noProgress s chain.length), w')
      else (.ok { summary' with caughtUp := chain.length ≤ w'.scanHeight }, w') := by
    unfold processBatch
    simp only [hsome]
    have hgap : ¬ s > w.asked.scanHeight := by
      have : w.asked.scanHeight = w.scanHeight := rfl
      omega
    have hbelow : ¬ (s < w.asked.startHeight ∧ (!w.asked.hashes.isEmpty) = true) := by
      have : w.asked.startHeight = w.startHeight := rfl
      omega
    rw [if_neg hgap, if_neg hbelow, htake, hok]
    simp
  rw [hbatch]
  constructor
  · intro hpast
    obtain ⟨hframe, hscanned⟩ := hnew (by omega)
    have hhashes : w'.hashes = (ids.drop w.startHeight).take
        (s + min w.batchSize (chain.length - s) - w.startHeight) :=
      (congrArg (fun v : WalletState => v.hashes) hframe :)
    have hstart : w'.startHeight = w.startHeight :=
      (congrArg (fun v : WalletState => v.startHeight) hframe :)
    have hheight : w'.scanHeight = min (s + w.batchSize) ids.length := by
      rw [scanHeight, hstart, hhashes, List.length_take, List.length_drop]
      omega
    rw [if_neg (by simp at hscanned; omega)]
    refine ⟨_, w', rfl, ?_, ?_⟩
    · rw [hframe, show s + min w.batchSize (chain.length - s) = min (s + w.batchSize) ids.length by
        omega]
      rfl
    · simp only [decide_eq_true_eq]
      omega
  · intro hshort
    obtain ⟨rfl, rfl⟩ := hkept (by omega)
    have hheight : w.asked.scanHeight = w.scanHeight := rfl
    rw [hheight, hlen]
    simp only [true_and, not_le]
    split
    · exact ⟨rfl, _, rfl⟩
    · exact ⟨rfl, _, rfl, by simp⟩

theorem frame_fields {w w' : WalletState} (h : w'.frame = w.frame) :
    w'.hashes = w.hashes ∧ w'.startHeight = w.startHeight ∧ w'.genesis = w.genesis ∧
      w'.batchSize = w.batchSize ∧ w'.granularity = w.granularity ∧
      w'.maxReorgDepth = w.maxReorgDepth ∧ w'.fillTarget = w.fillTarget :=
  ⟨(congrArg (fun v : WalletState => v.hashes) h :),
    (congrArg (fun v : WalletState => v.startHeight) h :),
    (congrArg (fun v : WalletState => v.genesis) h :),
    (congrArg (fun v : WalletState => v.batchSize) h :),
    (congrArg (fun v : WalletState => v.granularity) h :),
    (congrArg (fun v : WalletState => v.maxReorgDepth) h :),
    (congrArg (fun v : WalletState => v.fillTarget) h :)⟩

section

variable {source : BlockSource} {chain : List BlockBundle} {ids : List Hash256} {lists : Option Nat}

theorem Asks.of_frame {w w' : WalletState} {f : Nat} (h : w.Asks ids lists f)
    (hframe : w'.frame = w.frame) : w'.Asks ids lists f := by
  have hw : w.frame.Asks ids lists f :=
    ⟨h.phase, ⟨h.splits.low, h.splits.high, h.splits.inside, h.splits.same, h.splits.apart⟩,
      h.shared, h.genesis, h.least, h.most, h.depth⟩
  rw [← hframe] at hw
  exact ⟨hw.phase, ⟨hw.splits.low, hw.splits.high, hw.splits.inside, hw.splits.same,
    hw.splits.apart⟩, hw.shared, hw.genesis, hw.least, hw.most, hw.depth⟩

theorem Asks.asked {w : WalletState} {f : Nat} (h : w.Asks ids lists f) :
    w.asked.Asks ids lists f := by
  have hleast : 2 ≤ w.batchSize := h.least
  refine ⟨h.phase, ⟨h.splits.low, h.splits.high, h.splits.inside, h.splits.same, h.splits.apart⟩,
    h.shared, h.genesis, ?_, ?_, h.depth⟩
  · show 2 ≤ min (w.batchSize * 2) 1000
    omega
  · show min (w.batchSize * 2) 1000 ≤ 1000
    omega

theorem fillTarget_eq_none_iff (w : WalletState) : w.fillTarget = none ↔
    w.startHeight ≤ w.historyBase ∧ (w.hashes.isEmpty = true → w.refreshFromHeight ≤ w.historyBase) := by
  unfold fillTarget
  by_cases hnil : w.hashes.isEmpty = true
  · simp only [hnil, if_true, true_or, and_true, forall_const]
    rw [ite_eq_right_iff]
    constructor
    · intro h
      by_contra hnot
      exact absurd (h (by omega)) (by simp)
    · intro h habove
      omega
  · simp only [hnil, Bool.false_eq_true, if_false, false_or, and_self, false_implies, and_true]
    rw [ite_eq_right_iff]
    constructor
    · intro h
      by_contra hnot
      exact absurd (h (by omega)) (by simp)
    · intro h habove
      omega

/-- With the blocks of the chain up to a height past its start, a wallet asks for more. -/
theorem Asks.grown {w w' : WalletState} {f e : Nat} (h : w.Asks ids lists f)
    (hlow : w.startHeight < e) (hlen : e ≤ ids.length)
    (hframe : w'.frame = { w.frame with hashes := (ids.drop w.startHeight).take (e - w.startHeight) }) :
    w'.Asks ids lists e ∧ w'.scanHeight = e := by
  have hhashes : w'.hashes = (ids.drop w.startHeight).take (e - w.startHeight) :=
    (congrArg (fun v : WalletState => v.hashes) hframe :)
  have hstart : w'.startHeight = w.startHeight :=
    (congrArg (fun v : WalletState => v.startHeight) hframe :)
  have hbase : w'.historyBase = w.historyBase :=
    (congrArg (fun v : WalletState => v.historyBase) hframe :)
  have hlength : w'.hashes.length = e - w.startHeight := by
    rw [hhashes, List.length_take, List.length_drop]
    omega
  have hheld : w'.hashes.isEmpty = false := by
    rw [List.isEmpty_eq_false_iff, ← List.length_pos_iff]
    omega
  have hphase : w'.fillTarget = none ∨ lists = none := by
    rcases h.phase with hnone | hnone
    · left
      rw [fillTarget_eq_none_iff] at hnone ⊢
      rw [hstart, hbase, hheld]
      exact ⟨hnone.1, fun hempty => absurd hempty Bool.false_ne_true⟩
    · exact .inr hnone
  rw [← hstart] at hhashes
  refine ⟨⟨hphase, splitsAt_of_hashes (by omega) (by omega) hhashes, fun _ => by omega, ?_, ?_, ?_, ?_⟩,
    ?_⟩
  · exact h.genesis.trans (congrArg (fun v : WalletState => some v.genesis) hframe.symm :)
  · exact h.least.trans_eq (congrArg (fun v : WalletState => v.batchSize) hframe.symm :)
  · exact (congrArg (fun v : WalletState => v.batchSize) hframe :).trans_le h.most
  · exact (congrArg (fun v : WalletState => v.maxReorgDepth) hframe :).trans h.depth
  · rw [scanHeight]
    omega

/-- A call of a wallet with nothing to fill in. -/
theorem refreshOnce_eq (hserves : Serves C source chain ids lists) {w : WalletState} {f : Nat}
    (hasks : w.Asks ids lists f) :
    ∃ w₀ : WalletState, w₀.frame = w.frame ∧ w.refreshOnce C source = w₀.refreshBlocks C source := by
  unfold refreshOnce
  cases htarget : w.fillTarget with
  | none => exact ⟨w, rfl, rfl⟩
  | some target =>
      have hnone : lists = none := hasks.phase.resolve_left (by rw [htarget]; exact Option.some_ne_none _)
      refine ⟨{ w with fill := [] }, rfl, ?_⟩
      simp only [fillBelow, hserves.hashes, hnone, Option.map_none]

theorem refreshOnce_served (hserves : Serves C source chain ids lists) {w : WalletState} {f : Nat}
    (hasks : w.Asks ids lists f) :
    (f < min (w.replyStart ids w.granularity + w.batchSize) ids.length →
      ∃ summary w', w.refreshOnce C source = (.ok summary, w') ∧
        w'.Asks ids lists w'.scanHeight ∧ f < w'.scanHeight ∧ w'.scanHeight ≤ ids.length ∧
        (summary.caughtUp = true ↔ w'.scanHeight = ids.length)) ∧
    (min (w.replyStart ids w.granularity + w.batchSize) ids.length ≤ f →
      (w.refreshOnce C source).2.frame = w.asked.frame ∧
        if w.scanHeight < ids.length ∧ w.granularity = 1 then
          ∃ e, (w.refreshOnce C source).1 = .error e
        else ∃ summary, (w.refreshOnce C source).1 = .ok summary ∧
          (summary.caughtUp = true ↔ ids.length ≤ w.scanHeight)) := by
  obtain ⟨w₀, hframe, heq⟩ := refreshOnce_eq hserves hasks
  have hasked : w₀.asked.frame = w.asked.frame :=
    (congrArg (fun v : WalletState => v.asked) hframe :)
  have hreply : w₀.replyStart ids w₀.granularity = w.replyStart ids w.granularity :=
    (congrArg (fun v : WalletState => v.replyStart ids v.granularity) hframe :)
  obtain ⟨hhashes, hstart, -, hbatch, hgran, -⟩ := frame_fields hframe
  have hheight : w₀.scanHeight = w.scanHeight := by rw [scanHeight, scanHeight, hhashes, hstart]
  obtain ⟨hpast, hshort⟩ := refreshBlocks_served hserves (hasks.of_frame hframe)
  rw [hreply, hbatch] at hpast hshort
  rw [heq]
  constructor
  · intro h
    obtain ⟨summary, w', hok, hframe', hcaught⟩ := hpast h
    rw [hasked, hstart] at hframe'
    have hlow := hasks.splits.low
    obtain ⟨hasks', hheight'⟩ := hasks.asked.grown
      (e := min (w.replyStart ids w.granularity + w.batchSize) ids.length) (Nat.lt_of_le_of_lt hlow h)
      (Nat.min_le_right _ _) hframe'
    refine ⟨summary, w', hok, ?_, ?_, ?_, ?_⟩
    · rwa [hheight']
    · rwa [hheight']
    · omega
    · rw [hcaught]
      omega
  · intro h
    obtain ⟨hkept, hresult⟩ := hshort h
    rw [hkept, hasked]
    rw [hheight, hgran] at hresult
    exact ⟨rfl, hresult⟩

/-! ### Calls in a row -/

/-- The wallet after so many calls. -/
def calls (C : Crypto) (source : BlockSource) : Nat → WalletState → WalletState
  | 0, w => w
  | n + 1, w => calls C source n (w.refreshOnce C source).2

/-- No call fails, and one of them says it caught up and leaves the hashes of the chain. -/
structure CatchesUp (C : Crypto) (source : BlockSource) (ids : List Hash256) (w : WalletState) :
    Prop where
  ok : ∀ n, ∃ summary, ((w.calls C source n).refreshOnce C source).1 = .ok summary
  caught : ∃ n summary, ((w.calls C source n).refreshOnce C source).1 = .ok summary ∧
    summary.caughtUp = true ∧
    (w.calls C source (n + 1)).hashes = ids.drop (w.calls C source (n + 1)).startHeight

theorem calls_add_one (w : WalletState) (n : Nat) :
    w.calls C source (n + 1) = ((w.calls C source n).refreshOnce C source).2 := by
  induction n generalizing w with
  | zero => rfl
  | succ n ih =>
      rw [calls, ih]
      rfl

theorem CatchesUp.of_next {w : WalletState} {summary : RefreshSummary}
    (hok : (w.refreshOnce C source).1 = .ok summary)
    (hnext : (w.refreshOnce C source).2.CatchesUp C source ids) : w.CatchesUp C source ids := by
  constructor
  · intro n
    cases n with
    | zero => exact ⟨summary, hok⟩
    | succ n => exact hnext.ok n
  · obtain ⟨n, summary', h⟩ := hnext.caught
    exact ⟨n + 1, summary', h⟩

/-- A call that does not say it caught up, or does not leave the hashes of the chain, is not the
    last. -/
theorem catchesUp_next_iff (ids : List Hash256) {w : WalletState} {summary : RefreshSummary}
    (hok : (w.refreshOnce C source).1 = .ok summary)
    (hnot : summary.caughtUp = true →
      (w.refreshOnce C source).2.hashes ≠ ids.drop (w.refreshOnce C source).2.startHeight) :
    w.CatchesUp C source ids ↔ (w.refreshOnce C source).2.CatchesUp C source ids := by
  refine ⟨fun h => ⟨fun n => h.ok (n + 1), ?_⟩, CatchesUp.of_next hok⟩
  obtain ⟨n, summary', hok', hcaught, hhashes⟩ := h.caught
  cases n with
  | zero =>
      rw [calls, hok, Except.ok.injEq] at hok'
      subst hok'
      exact absurd hhashes (hnot hcaught)
  | succ n => exact ⟨n, summary', hok', hcaught, hhashes⟩

/-- A wallet that holds what the chain has holds no more and no less. -/
theorem Asks.hashes_eq_iff {w : WalletState} {f : Nat} (h : w.Asks ids lists f) :
    w.hashes = ids.drop w.startHeight ↔ f = w.scanHeight ∧ ids.length ≤ w.scanHeight := by
  have hlow := h.splits.low
  have hhigh := h.splits.high
  have htake := h.splits.take_eq
  rw [scanHeight] at hhigh ⊢
  constructor
  · intro heq
    have hlen : w.hashes.length = ids.length - w.startHeight := by rw [heq, List.length_drop]
    refine ⟨?_, by omega⟩
    by_contra hne
    have hlt : f - w.startHeight < w.hashes.length := by omega
    have hget : w.hashes[f - w.startHeight]? = some w.hashes[f - w.startHeight] :=
      List.getElem?_eq_getElem hlt
    refine h.splits.apart _ _ (by omega) hget (List.mem_of_mem_drop (i := w.startHeight) ?_)
    rw [← heq]
    exact List.getElem_mem hlt
  · rintro ⟨rfl, hall⟩
    rwa [Nat.add_sub_cancel_left, List.take_length, List.take_of_length_le] at htake
    rw [List.length_drop]
    omega

/-- A wallet on the chain keeps to it, and fails no call. -/
theorem Asks.next_of_tip (hserves : Serves C source chain ids lists) {w : WalletState}
    (hasks : w.Asks ids lists w.scanHeight) :
    (w.refreshOnce C source).2.Asks ids lists (w.refreshOnce C source).2.scanHeight ∧
      ∃ summary, (w.refreshOnce C source).1 = .ok summary ∧
        (ids.length ≤ w.scanHeight → summary.caughtUp = true ∧
          (w.refreshOnce C source).2.hashes = ids.drop (w.refreshOnce C source).2.startHeight) ∧
        (w.scanHeight < ids.length → summary.caughtUp = true →
          (w.refreshOnce C source).2.hashes = ids.drop (w.refreshOnce C source).2.startHeight) ∧
        (w.scanHeight < ids.length → w.scanHeight < (w.refreshOnce C source).2.scanHeight ∨
          w.granularity ≠ 1 ∧ (w.refreshOnce C source).2.granularity = 1 ∧
            (w.refreshOnce C source).2.scanHeight = w.scanHeight) := by
  obtain ⟨hpast, hshort⟩ := refreshOnce_served hserves hasks
  by_cases hreach : w.scanHeight < min (w.replyStart ids w.granularity + w.batchSize) ids.length
  · obtain ⟨summary, w', heq, hasks', hlt, hle, hcaught⟩ := hpast hreach
    rw [heq]
    refine ⟨hasks', summary, rfl, fun h => by omega, fun _ h => ?_, fun _ => .inl hlt⟩
    exact hasks'.hashes_eq_iff.mpr ⟨rfl, (hcaught.mp h).ge⟩
  · obtain ⟨hframe, hresult⟩ := hshort (by omega)
    have hasks' := hasks.asked.of_frame hframe
    obtain ⟨hhashes, hstart, -, -, hgran, -⟩ := frame_fields hframe
    have hheight : (w.refreshOnce C source).2.scanHeight = w.scanHeight := by
      rw [scanHeight, hhashes, hstart]
      rfl
    have hfine : w.scanHeight < ids.length → w.granularity ≠ 1 := by
      -- A fine request is answered from the tip, and gets at least the next block.
      intro hlt hone
      have hleast : 2 ≤ w.batchSize := hasks.least
      have hlow := hasks.splits.low
      rw [hone] at hreach
      by_cases hnil : w.hashes = []
      · have hheights := hasks.scanHeight_of_nil hnil
        have := hasks.replyStart_le hserves.chained.nodup 1
        omega
      · have htip := servedFrom_tip hasks.splits hserves.chained.nodup hnil
        rw [replyStart, if_neg (by simp [hnil]), htip] at hreach
        omega
    rw [if_neg (fun h => hfine h.1 h.2)] at hresult
    obtain ⟨summary, hok, hcaught⟩ := hresult
    have hhashes' (hall : ids.length ≤ w.scanHeight) :=
      hasks'.hashes_eq_iff.mpr ⟨hheight.symm, by omega⟩
    refine ⟨by rwa [hheight], summary, hok, ?_, ?_, ?_⟩
    · intro hall
      exact ⟨hcaught.mpr hall, hhashes' hall⟩
    · intro hlt h
      exact hhashes' (hcaught.mp h)
    · intro hlt
      exact .inr ⟨hfine hlt, hgran, hheight⟩

/-- A wallet that holds blocks of the chain only catches up. -/
theorem Asks.catchesUp_of_tip (hserves : Serves C source chain ids lists) {w : WalletState}
    (hasks : w.Asks ids lists w.scanHeight) : w.CatchesUp C source ids := by
  -- Each call gets a block more, but for the first, which may be coarse.
  induction hn : 2 * (ids.length - w.scanHeight) + (if w.granularity = 1 then 0 else 1)
    using Nat.strong_induction_on generalizing w with
  | _ n ih =>
      obtain ⟨hasks', summary, hok, hdone, -, hmore⟩ := hasks.next_of_tip hserves
      by_cases hlt : w.scanHeight < ids.length
      · refine CatchesUp.of_next hok (ih _ ?_ hasks' rfl)
        rcases hmore hlt with hgrew | ⟨hcoarse, hfine, hsame⟩
        · split <;> split at hn <;> omega
        · rw [if_pos hfine, hsame]
          rw [if_neg hcoarse] at hn
          omega
      · obtain ⟨hcaught, hhashes⟩ := hdone (by omega)
        refine ⟨fun n => ?_, 0, summary, hok, hcaught, hhashes⟩
        clear hok hdone hmore hcaught hhashes hasks' hn ih summary hlt
        induction n generalizing w with
        | zero =>
            obtain ⟨-, summary, hok, -⟩ := hasks.next_of_tip hserves
            exact ⟨summary, hok⟩
        | succ n ihn => exact ihn (hasks.next_of_tip hserves).1

/-- When calls for blocks get past the split: at once, with the finer history of the second call, or
    with the largest batch, if the chain is no longer than the wallet's own, so that nothing fails
    before. -/
def Reaches (w : WalletState) (ids : List Hash256) (f : Nat) : Prop :=
  f = w.scanHeight ∨ f < ids.length ∧
    (f < w.replyStart ids w.granularity + w.batchSize ∨
      w.granularity ≠ 1 ∧ f < w.replyStart ids 1 + min (w.batchSize * 2) maxBlocksPerCall ∨
      ids.length ≤ w.scanHeight ∧ f < w.replyStart ids 1 + maxBlocksPerCall)

theorem asked_next (ids : List Hash256) {w w' : WalletState} (hframe : w'.frame = w.asked.frame) :
    w'.hashes = w.hashes ∧ w'.startHeight = w.startHeight ∧ w'.scanHeight = w.scanHeight ∧
      w'.granularity = 1 ∧ w'.batchSize = min (w.batchSize * 2) maxBlocksPerCall ∧
      ∀ g, w'.replyStart ids g = w.replyStart ids g := by
  obtain ⟨hhashes, hstart, -, hbatch, hgran, -⟩ := frame_fields hframe
  refine ⟨hhashes, hstart, ?_, hgran, hbatch, ?_⟩
  · rw [scanHeight, hhashes, hstart]
    rfl
  · intro g
    exact (congrArg (fun v : WalletState => v.replyStart ids g) hframe :)

/-- Where not even the largest batch reaches, every call leaves the hashes alone. -/
theorem Asks.hashes_of_short (hserves : Serves C source chain ids lists) (n : Nat) {w : WalletState}
    {f : Nat} (hasks : w.Asks ids lists f)
    (hshort : min (w.replyStart ids w.granularity + maxBlocksPerCall) ids.length ≤ f)
    (hfine : min (w.replyStart ids 1 + maxBlocksPerCall) ids.length ≤ f) :
    (w.calls C source n).hashes = w.hashes ∧ (w.calls C source n).startHeight = w.startHeight := by
  induction n generalizing w with
  | zero => exact ⟨rfl, rfl⟩
  | succ n ih =>
      have hmost := hasks.most
      obtain ⟨hframe, -⟩ := (refreshOnce_served hserves hasks).2 (by omega)
      obtain ⟨hhashes, hstart, -, hgran, -, hreply⟩ := asked_next ids hframe
      obtain ⟨ih₁, ih₂⟩ := ih (hasks.asked.of_frame hframe) (by rwa [hreply, hgran]) (by rwa [hreply])
      rw [calls]
      exact ⟨ih₁.trans hhashes, ih₂.trans hstart⟩

/-- Off the chain, a fine request reaches past the split or fails; where it cannot fail, it is made
    again with a larger batch. -/
theorem Asks.catchesUp_fine_iff (hserves : Serves C source chain ids lists) {w : WalletState} {f : Nat}
    (hasks : w.Asks ids lists f) (hoff : f < w.scanHeight) (hone : w.granularity = 1) :
    w.CatchesUp C source ids ↔ f < ids.length ∧ (f < w.replyStart ids 1 + w.batchSize ∨
      ids.length ≤ w.scanHeight ∧ f < w.replyStart ids 1 + maxBlocksPerCall) := by
  induction hn : maxBlocksPerCall - w.batchSize using Nat.strong_induction_on generalizing w with
  | _ n ih =>
      have hmost := hasks.most
      have hleast : 2 ≤ w.batchSize := hasks.least
      obtain ⟨hpast, hshort⟩ := refreshOnce_served hserves hasks
      rw [hone] at hpast hshort
      by_cases hreach : f < min (w.replyStart ids 1 + w.batchSize) ids.length
      · obtain ⟨summary, w', heq, hasks', -⟩ := hpast hreach
        refine iff_of_true (CatchesUp.of_next (by rw [heq]) ?_) ⟨by omega, .inl (by omega)⟩
        rw [heq]
        exact hasks'.catchesUp_of_tip hserves
      obtain ⟨hframe, hresult⟩ := hshort (by omega)
      clear hpast hshort
      by_cases hlonger : w.scanHeight < ids.length
      · rw [if_pos ⟨hlonger, rfl⟩] at hresult
        obtain ⟨e, herror⟩ := hresult
        refine iff_of_false ?_ (by omega)
        intro h
        obtain ⟨summary, hok⟩ := h.ok 0
        rw [calls, herror] at hok
        cases hok
      rw [if_neg (fun h => hlonger h.1)] at hresult
      obtain ⟨summary, hok, -⟩ := hresult
      obtain ⟨hhashes, hstart, hheight, hgran, hbatch, hreply⟩ := asked_next ids hframe
      have hasks' := hasks.asked.of_frame hframe
      have hnext := catchesUp_next_iff ids hok fun _ => by
        rw [ne_eq, hasks'.hashes_eq_iff]
        omega
      by_cases hfull : w.batchSize = maxBlocksPerCall
      · refine iff_of_false ?_ (by omega)
        intro h
        obtain ⟨m, summary', -, -, heq⟩ := h.caught
        have hstays := hasks.hashes_of_short hserves (m + 1) (by rw [hone]; omega) (by omega)
        rw [hstays.1, hstays.2, hasks.hashes_eq_iff] at heq
        omega
      · rw [hnext, ih _ (by rw [hbatch]; omega) hasks' (by omega) hgran rfl, hreply, hheight, hbatch]
        have hcap : maxBlocksPerCall = 1000 := rfl
        omega

/-- Calls for blocks catch up exactly when they get past the split. -/
theorem Asks.catchesUp_iff (hserves : Serves C source chain ids lists) {w : WalletState} {f : Nat}
    (hasks : w.Asks ids lists f) : w.CatchesUp C source ids ↔ w.Reaches ids f := by
  have hhigh := hasks.splits.high
  unfold Reaches
  by_cases htip : f = w.scanHeight
  · refine iff_of_true ?_ (.inl htip)
    rw [htip] at hasks
    exact hasks.catchesUp_of_tip hserves
  have hoff : f < w.scanHeight := by omega
  have hmost := hasks.most
  by_cases hone : w.granularity = 1
  · rw [hasks.catchesUp_fine_iff hserves hoff hone, hone]
    have hcap : maxBlocksPerCall = 1000 := rfl
    omega
  obtain ⟨hpast, hshort⟩ := refreshOnce_served hserves hasks
  by_cases hreach : f < min (w.replyStart ids w.granularity + w.batchSize) ids.length
  · obtain ⟨summary, w', heq, hasks', -⟩ := hpast hreach
    refine iff_of_true (CatchesUp.of_next (by rw [heq]) ?_) (.inr ⟨by omega, .inl (by omega)⟩)
    rw [heq]
    exact hasks'.catchesUp_of_tip hserves
  -- The coarse request brings nothing and does not fail; the next is fine.
  obtain ⟨hframe, hresult⟩ := hshort (by omega)
  clear hpast hshort
  rw [if_neg (fun h => hone h.2)] at hresult
  obtain ⟨summary, hok, -⟩ := hresult
  obtain ⟨hhashes, hstart, hheight, hgran, hbatch, hreply⟩ := asked_next ids hframe
  have hasks' := hasks.asked.of_frame hframe
  have hnext := catchesUp_next_iff ids hok fun _ => by
    rw [ne_eq, hasks'.hashes_eq_iff]
    omega
  rw [hnext, hasks'.catchesUp_fine_iff hserves (by omega) hgran, hreply, hheight, hbatch]
  have hcap : maxBlocksPerCall = 1000 := rfl
  omega

/-! ### Filling in what lies below -/

/-- The hashes gathered so far, from where every wallet's begin. -/
def gathering (w : WalletState) : List Hash256 :=
  if w.fill.isEmpty then [w.fillStart] else w.fill

/-- The wallet with these hashes put under those it holds. -/
def joined (w : WalletState) (under : List Hash256) : WalletState :=
  { w with hashes := under ++ w.hashes, startHeight := w.historyBase, fill := [] }

/-- The listed hashes are the gathered ones up to the split; from there on they take their place. -/
theorem gatherHashes_served (target height n : Nat) {w : WalletState} {f : Nat}
    (hsplit : w.SplitsAt ids f) (hshared : w.startHeight < f) (hlow : w.startHeight ≤ height)
    (hheight : height ≤ f) (hlen : height + n ≤ ids.length) (htarget : height + n ≤ target)
    (rest : List Hash256) :
    gatherHashes w.startHeight target height ((ids.drop height).take n ++ rest) w.hashes =
      gatherHashes w.startHeight target (height + n) rest
        (if height + n ≤ f then w.hashes
          else (ids.drop w.startHeight).take (height + n - w.startHeight)) := by
  induction n generalizing w f height with
  | zero => rw [List.take_zero, List.nil_append, Nat.add_zero, if_pos hheight]
  | succ n ih =>
      have hlt : height < ids.length := by omega
      have hhigh := hsplit.high
      rw [scanHeight] at hhigh
      rw [List.drop_eq_getElem_cons hlt, List.take_succ_cons, List.cons_append, gatherHashes]
      rw [if_neg (by omega)]
      have hget : ids[height]? = some ids[height] := List.getElem?_eq_getElem hlt
      by_cases hf : height < f
      · have hheld : w.hashes[height - w.startHeight]? = some ids[height] := by
          rw [hsplit.same _ (by omega), show w.startHeight + (height - w.startHeight) = height by
            omega, hget]
        simp only [hheld, if_true]
        rw [ih (height + 1) hsplit hshared (by omega) (by omega) (by omega) (by omega),
          show height + 1 + n = height + (n + 1) by omega]
      · obtain rfl : height = f := by omega
        -- The hash at the split, in place of the one held there or after the last one.
        have hgrow : w.hashes.take (height - w.startHeight) ++ [ids[height]] =
            (ids.drop w.startHeight).take (height + 1 - w.startHeight) := by
          rw [hsplit.take_eq, show height + 1 - w.startHeight = (height - w.startHeight) + 1 by omega,
            List.take_add_one, List.getElem?_drop,
            show w.startHeight + (height - w.startHeight) = height by omega, hget]
          rfl
        have hsplit' : WalletState.SplitsAt { w with
            hashes := (ids.drop w.startHeight).take (height + 1 - w.startHeight) } ids (height + 1) :=
          splitsAt_of_hashes (Nat.le_succ_of_le hlow) (by omega) rfl
        have hnext := ih (height + 1) hsplit' (Nat.lt_succ_of_lt hshared)
          (Nat.le_succ_of_le hlow) (Nat.le_refl _) (by omega) (by omega)
        simp only [show height + 1 + n = height + (n + 1) by omega] at hnext
        have hresult : (if height + (n + 1) ≤ height + 1 then
              (ids.drop w.startHeight).take (height + 1 - w.startHeight)
            else (ids.drop w.startHeight).take (height + (n + 1) - w.startHeight)) =
            (ids.drop w.startHeight).take (height + (n + 1) - w.startHeight) := by
          split
          · rw [show n = 0 by omega]
          · rfl
        rw [hresult] at hnext
        rw [if_neg (by omega), ← hnext]
        cases hheld : w.hashes[height - w.startHeight]? with
        | some held =>
            have hne : held ≠ ids[height] := fun h =>
              hsplit.apart _ held (by omega) hheld (h ▸ List.getElem_mem hlt)
            simp only [hheld]
            rw [if_neg hne, if_neg (by omega), hgrow]
        | none =>
            simp only [hheld]
            rw [← hgrow, List.take_of_length_le (List.getElem?_eq_none_iff.mp hheld)]

/-- A wallet that fills in hashes below those it holds.  What it gathered splits from the chain at
    the height `f`; if it holds any, the chain has the first of them and all that was gathered. -/
structure Fills (w : WalletState) (ids : List Hash256) (target f : Nat) : Prop where
  aims : w.fillTarget = some target
  splits : SplitsAt { w with hashes := w.gathering, startHeight := w.historyBase } ids f
  shared : w.historyBase < f
  below : w.historyBase + w.gathering.length ≤ target
  held : w.hashes ≠ [] → ids[w.startHeight]? = w.hashes[0]? ∧
    f = w.historyBase + w.gathering.length

/-- The hashes gathered after a reply. -/
def gathered (w : WalletState) (ids : List Hash256) (most target f : Nat) : List Hash256 :=
  let upTo := min (min (servedFrom ids (w.fillHistory w.gathering) + most) ids.length) target
  if upTo ≤ f then w.gathering else (ids.drop w.historyBase).take (upTo - w.historyBase)

theorem gathering_ne_nil (w : WalletState) : w.gathering ≠ [] := by
  unfold gathering
  split
  · simp
  · rename_i h
    simpa using h

theorem fillTarget_of_held {w : WalletState} {target : Nat} (h : w.fillTarget = some target)
    (hheld : w.hashes ≠ []) : target = w.startHeight := by
  unfold fillTarget at h
  simp only [List.isEmpty_iff, hheld, if_false] at h
  split at h
  · exact (Option.some.inj h).symm
  · cases h

theorem Fills.servedFrom_le {w : WalletState} {target f : Nat} (h : w.Fills ids target f)
    (hnodup : ids.Nodup) : w.historyBase ≤ servedFrom ids (w.fillHistory w.gathering) ∧
      servedFrom ids (w.fillHistory w.gathering) < f := by
  obtain ⟨first, rest, hcons⟩ := List.exists_cons_of_ne_nil w.gathering_ne_nil
  have hfirst : w.gathering[0]? = some first := by rw [hcons]; rfl
  have hhead : w.gathering.headD w.genesis = first := by rw [hcons]; rfl
  rw [fillHistory, hhead]
  exact h.splits.servedFrom_le hnodup h.shared
    (fun hash hmem => List.mem_reverse.mp (List.mem_of_mem_take hmem)) hfirst w.genesis

/-- What was gathered of the chain only is answered from its end. -/
theorem Fills.servedFrom_eq {w : WalletState} {target f : Nat} (h : w.Fills ids target f)
    (hnodup : ids.Nodup) (hall : f = w.historyBase + w.gathering.length) :
    servedFrom ids (w.fillHistory w.gathering) = f - 1 := by
  have hne := w.gathering_ne_nil
  have hsplit := h.splits
  rw [hall] at hsplit
  have hat : ids[f - 1]? = some (w.gathering.getLast hne) := by
    rw [hall, ← List.getLast?_eq_some_getLast hne]
    exact hsplit.getLast?_hashes hne
  have hrev : w.gathering.reverse.take 3 =
      w.gathering.getLast hne :: (w.gathering.reverse.tail).take 2 := by
    have hcons : w.gathering.reverse = w.gathering.getLast hne :: w.gathering.reverse.tail := by
      conv_lhs => rw [← List.dropLast_append_getLast hne]
      rw [List.reverse_append, List.tail_reverse]
      rfl
    conv_lhs => rw [hcons]
    rfl
  rw [fillHistory, hrev]
  exact servedFrom_newest hnodup hat _ _ _

/-- What the loop over the listed hashes leaves. -/
theorem Fills.gatherHashes_eq {w : WalletState} {target f : Nat} (h : w.Fills ids target f)
    (most : Nat) (hnodup : ids.Nodup) :
    ∃ atTarget, gatherHashes w.historyBase target (servedFrom ids (w.fillHistory w.gathering))
        (honestHashes ids (w.fillHistory w.gathering) most).hashes w.gathering =
          .ok (w.gathered ids most target f, atTarget) ∧
      (atTarget.isSome = true → target ≤ w.historyBase + (w.gathered ids most target f).length) ∧
      ∀ hash ∈ atTarget, ids[target]? = some hash := by
  obtain ⟨hlow, hlt⟩ := h.servedFrom_le hnodup
  have hbelow := h.below
  have hhigh : f ≤ w.historyBase + w.gathering.length := h.splits.high
  have hinside : f ≤ max ids.length w.historyBase := h.splits.inside
  have hshared := h.shared
  unfold gathered honestHashes
  simp only
  generalize servedFrom ids (w.fillHistory w.gathering) = s at hlow hlt ⊢
  generalize he : min (min (s + most) ids.length) target = e
  have hsplit : (ids.drop s).take most = (ids.drop s).take (e - s) ++
      ((ids.drop e).take (most - (e - s))) := by
    by_cases hse : s ≤ e
    · have hcut : e - s ≤ most := by omega
      conv_lhs => rw [show most = (e - s) + (most - (e - s)) by omega]
      rw [List.take_add, List.drop_drop, show s + (e - s) = e by omega]
    · have hzero : most = 0 := by omega
      subst hzero
      rw [Nat.zero_sub, List.take_zero, List.take_zero, show e - s = 0 by omega, List.take_zero]
      rfl
  have hgather := gatherHashes_served target s (e - s) h.splits h.shared hlow (by omega) (by omega)
    (by omega) ((ids.drop e).take (most - (e - s)))
  rw [hsplit]
  simp only at hgather
  rw [hgather]
  have hlen : e ≤ f ∨ ((ids.drop w.historyBase).take (e - w.historyBase)).length =
      e - w.historyBase := by
    rw [List.length_take, List.length_drop]
    omega
  by_cases hse : s ≤ e
  swap
  · -- The source lists nothing.
    have hzero : most = 0 := by omega
    subst hzero
    refine ⟨none, ?_, by simp, by simp⟩
    rw [Nat.zero_sub, List.take_zero, if_pos (by omega), if_pos (by omega)]
    rfl
  rw [show s + (e - s) = e by omega]
  cases hrest : (ids.drop e).take (most - (e - s)) with
  | nil =>
      refine ⟨none, ?_, by simp, by simp⟩
      rw [gatherHashes]
  | cons hash rest =>
      have hpos : 0 < ((ids.drop e).take (most - (e - s))).length := by rw [hrest]; simp
      rw [List.length_take, List.length_drop] at hpos
      have hat : target = e := by omega
      refine ⟨some hash, ?_, ?_, ?_⟩
      · rw [gatherHashes, if_pos (by omega)]
      · intro _
        split
        · omega
        · rcases hlen with hle | hlen
          · omega
          · omega
      · rintro _ ⟨⟩
        have hget : ((ids.drop e).take (most - (e - s)))[0]? = some hash := by rw [hrest]; rfl
        rw [List.getElem?_take_of_lt (by omega), List.getElem?_drop, Nat.add_zero] at hget
        rw [hat, hget]

/-- Whether a reply leaves more to gather. -/
def MoreToFill (w : WalletState) (ids : List Hash256) (most target f : Nat) : Prop :=
  w.gathering.length < (w.gathered ids most target f).length ∧
    w.historyBase + (w.gathered ids most target f).length < target

instance (w : WalletState) (ids : List Hash256) (most target f : Nat) :
    Decidable (w.MoreToFill ids most target f) :=
  inferInstanceAs (Decidable (_ ∧ _))

/-- A wallet that holds hashes gathers more in every reply, until it reaches them. -/
theorem Fills.reaches_of_held {w : WalletState} {target f most : Nat} (h : w.Fills ids target f)
    (hnodup : ids.Nodup) (hmost : 2 ≤ most) (hheld : w.hashes ≠ [])
    (hnot : ¬ w.MoreToFill ids most target f) :
    target ≤ w.historyBase + (w.gathered ids most target f).length := by
  obtain ⟨hstart, hall⟩ := h.held hheld
  have hserved := h.servedFrom_eq hnodup hall
  have htarget := fillTarget_of_held h.aims hheld
  have hbelow := h.below
  have hshared := h.shared
  have hlen : target < ids.length := by
    obtain ⟨first, rest, hcons⟩ := List.exists_cons_of_ne_nil hheld
    rw [hcons] at hstart
    rw [htarget]
    exact (List.getElem?_eq_some_iff.mp hstart).1
  by_contra hshort
  apply hnot
  refine ⟨?_, by omega⟩
  unfold gathered at hshort ⊢
  rw [hserved] at hshort ⊢
  simp only at hshort ⊢
  split
  · rename_i hle
    rw [if_pos hle] at hshort
    omega
  · rw [List.length_take, List.length_drop]
    omega

/-- A call that fills in hashes gathers more, or puts what it has under the held ones. -/
theorem refreshOnce_fills {most : Nat} (hserves : Serves C source chain ids (some most))
    {w : WalletState} {target f : Nat} (h : w.Fills ids target f) :
    ∃ summary, summary.caughtUp = false ∧ w.refreshOnce C source =
      (.ok summary, if w.MoreToFill ids most target f
        then { w with fill := w.gathered ids most target f }
        else w.joined (w.gathered ids most target f)) := by
  have hnodup := hserves.chained.nodup
  obtain ⟨hlow, hlt⟩ := h.servedFrom_le hnodup
  have hhigh : f ≤ w.historyBase + w.gathering.length := h.splits.high
  obtain ⟨atTarget, hgather, hreach, hat⟩ := h.gatherHashes_eq most hnodup
  have hmore : (!(atTarget.isSome ||
        decide (w.historyBase + (w.gathered ids most target f).length ≥ target)) &&
      decide ((w.gathered ids most target f).length > w.gathering.length)) = true ↔
      w.MoreToFill ids most target f := by
    unfold MoreToFill
    cases hs : atTarget.isSome with
    | true =>
        have := hreach hs
        simp only [Bool.true_or, Bool.not_true, Bool.false_and, Bool.false_eq_true, false_iff]
        omega
    | false =>
        simp only [Bool.false_or, Bool.and_eq_true, Bool.not_eq_true', decide_eq_false_iff_not,
          decide_eq_true_eq]
        omega
  unfold refreshOnce
  rw [h.aims]
  simp only [fillBelow]
  rw [hserves.hashes]
  simp only [Option.map_some]
  have hsame : fillHistory { w with fill := w.gathering } w.gathering = w.fillHistory w.gathering := rfl
  have hgathering : (if w.fill.isEmpty = true then [w.fillStart] else w.fill) = w.gathering := rfl
  rw [hgathering, hsame]
  have hstart : (honestHashes ids (w.fillHistory w.gathering) most).startHeight =
      servedFrom ids (w.fillHistory w.gathering) := rfl
  rw [hstart, if_neg (by omega), hgather]
  simp only
  by_cases hyes : w.MoreToFill ids most target f
  · rw [if_pos (hmore.mpr hyes), if_pos hyes]
    exact ⟨_, rfl, rfl⟩
  · rw [if_neg (fun hm => hyes (hmore.mp hm)), if_neg hyes]
    cases hheld : w.hashes with
    | nil =>
        simp only [joinFill]
        exact ⟨_, rfl, by rw [joined, hheld]; rfl⟩
    | cons first rest =>
        have hne : w.hashes ≠ [] := by rw [hheld]; simp
        have hreached := h.reaches_of_held hnodup (hserves.listed most rfl) hne hyes
        have htarget := fillTarget_of_held h.aims hne
        have hfirst : atTarget.any (· != first) = false := by
          rw [Option.any_eq_false]
          intro hash hmem
          have hid := hat hash hmem
          rw [htarget, (h.held hne).1, hheld, List.getElem?_cons_zero, Option.some.injEq] at hid
          simp [hid]
        simp only [joinFill, ge_iff_le, hreached, decide_true, Bool.or_true, Bool.not_true,
          Bool.false_eq_true, if_false, hfirst]
        exact ⟨_, rfl, by rw [joined, hheld]; rfl⟩

/-- The joined wallet has nothing left to fill in. -/
theorem fillTarget_joined (w : WalletState) {under : List Hash256} (h : under ≠ []) :
    (w.joined under).fillTarget = none := by
  rw [fillTarget_eq_none_iff]
  refine ⟨Nat.le_refl _, fun hempty => absurd hempty ?_⟩
  simp [joined, h]

/-- What was gathered after a reply splits from the chain later, or where it did. -/
theorem Fills.gathered_splits {w : WalletState} {target f : Nat} (h : w.Fills ids target f)
    (most : Nat) : ∃ f', SplitsAt
        { w with hashes := w.gathered ids most target f, startHeight := w.historyBase } ids f' ∧
      w.historyBase < f' ∧ w.historyBase + (w.gathered ids most target f).length ≤ target ∧
      (min (servedFrom ids (w.fillHistory w.gathering) + most) ids.length ≤ f → f' = f ∧
        w.gathered ids most target f = w.gathering) ∧
      (f = w.historyBase + w.gathering.length ∨
          f < min (servedFrom ids (w.fillHistory w.gathering) + most) ids.length →
        f' = w.historyBase + (w.gathered ids most target f).length) := by
  have hshared := h.shared
  have hbelow := h.below
  have hhigh : f ≤ w.historyBase + w.gathering.length := h.splits.high
  unfold gathered
  simp only
  generalize servedFrom ids (w.fillHistory w.gathering) = s
  split
  · rename_i hle
    refine ⟨f, h.splits, hshared, hbelow, fun _ => ⟨rfl, rfl⟩, ?_⟩
    rintro (hall | hpast)
    · exact hall
    · omega
  · rename_i hle
    have hlen : ((ids.drop w.historyBase).take
        (min (min (s + most) ids.length) target - w.historyBase)).length =
        min (min (s + most) ids.length) target - w.historyBase := by
      rw [List.length_take, List.length_drop]
      omega
    refine ⟨min (min (s + most) ids.length) target, splitsAt_of_hashes ?_ (by omega) rfl, by omega, ?_,
      fun hshort => by omega, fun _ => ?_⟩
    · show w.historyBase ≤ _
      omega
    · rw [hlen]
      omega
    · rw [hlen]
      omega

theorem Fills.gathered_ne_nil {w : WalletState} {target f : Nat} (h : w.Fills ids target f)
    (most : Nat) : w.gathered ids most target f ≠ [] := by
  have hshared := h.shared
  have hinside : f ≤ max ids.length w.historyBase := h.splits.inside
  unfold gathered
  simp only
  split
  · exact w.gathering_ne_nil
  · rw [← List.length_pos_iff, List.length_take, List.length_drop]
    omega

theorem gathering_of_fill {w : WalletState} {fill : List Hash256} (h : fill ≠ []) :
    gathering { w with fill := fill } = fill := by
  simp [gathering, h]

/-- More gathered is more of the chain. -/
theorem Fills.more {w : WalletState} {target f most : Nat} (h : w.Fills ids target f)
    (hmore : w.MoreToFill ids most target f) :
    Fills { w with fill := w.gathered ids most target f } ids target
        (w.historyBase + (w.gathered ids most target f).length) ∧
      (w.gathered ids most target f) =
        (ids.drop w.historyBase).take (w.gathered ids most target f).length := by
  obtain ⟨f', hsplits, hbase, hbelow, hkept, hall⟩ := h.gathered_splits most
  have hgather := gathering_of_fill (w := w) (h.gathered_ne_nil most)
  have hpast : f < min (servedFrom ids (w.fillHistory w.gathering) + most) ids.length := by
    by_contra hshort
    obtain ⟨-, hsame⟩ := hkept (by omega)
    have := hmore.1
    rw [hsame] at this
    omega
  have hf' := hall (.inr hpast)
  subst hf'
  refine ⟨⟨h.aims, ?_, hbase, ?_, ?_⟩, ?_⟩
  · rw [hgather]
    obtain ⟨h₁, h₂, h₃, h₄, h₅⟩ := hsplits
    exact ⟨h₁, h₂, h₃, h₄, h₅⟩
  · rw [hgather]
    exact hbelow
  · intro hheld
    rw [hgather]
    exact ⟨(h.held hheld).1, rfl⟩
  · have htake := hsplits.take_eq
    simp only [Nat.add_sub_cancel_left, List.take_length] at htake
    exact htake

/-- What a wallet of this network asks with: its genesis, a batch size in the range it keeps to, and
    no bound on how deep a reorganisation may be. -/
structure Configured (w : WalletState) (ids : List Hash256) : Prop where
  genesis : ids[0]? = some w.genesis
  least : minBlocksPerCall ≤ w.batchSize
  most : w.batchSize ≤ maxBlocksPerCall
  depth : w.maxReorgDepth = 0

/-- The joined wallet asks for blocks. -/
theorem Configured.asks_joined {w : WalletState} (h : w.Configured ids) {under : List Hash256}
    (hunder : under ≠ []) {f : Nat} (hsplit : (w.joined under).SplitsAt ids f)
    (hshared : w.historyBase < f) : (w.joined under).Asks ids lists f :=
  ⟨.inl (w.fillTarget_joined hunder), hsplit, fun _ => hshared, h.genesis, h.least, h.most, h.depth⟩

/-- With hashes of the chain only, and none held, filling in leads to the tip. -/
theorem Fills.catchesUp_of_chain {most : Nat} (hserves : Serves C source chain ids (some most))
    {w : WalletState} {target f : Nat} (h : w.Fills ids target f) (hconf : w.Configured ids)
    (hnil : w.hashes = []) (hchain : f = w.historyBase + w.gathering.length ∨
      f < min (servedFrom ids (w.fillHistory w.gathering) + most) ids.length) :
    w.CatchesUp C source ids := by
  induction hn : target - (w.historyBase + w.gathering.length) using Nat.strong_induction_on
    generalizing w f with
  | _ n ih =>
      obtain ⟨summary, -, heq⟩ := refreshOnce_fills hserves h
      apply CatchesUp.of_next (by rw [heq])
      rw [heq]
      simp only
      split
      · rename_i hmore
        have hgather := gathering_of_fill (w := w) (h.gathered_ne_nil most)
        refine ih _ ?_ (h.more hmore).1 ⟨hconf.genesis, hconf.least, hconf.most, hconf.depth⟩ hnil
          (.inl (by rw [hgather]; rfl)) rfl
        obtain ⟨hlonger, hbelow⟩ := hmore
        rw [hgather]
        show target - (w.historyBase + _) < n
        omega
      · obtain ⟨f', hsplits, hbase, -, -, hall⟩ := h.gathered_splits most
        have hf' := hall hchain
        subst hf'
        have hjoined : (w.joined (w.gathered ids most target f)).SplitsAt ids
            (w.historyBase + (w.gathered ids most target f).length) := by
          rw [joined, hnil, List.append_nil]
          obtain ⟨h₁, h₂, h₃, h₄, h₅⟩ := hsplits
          exact ⟨h₁, h₂, h₃, h₄, h₅⟩
        have hasks : (w.joined (w.gathered ids most target f)).Asks ids (some most) _ :=
          hconf.asks_joined (h.gathered_ne_nil most) hjoined hbase
        refine Asks.catchesUp_of_tip hserves ?_
        have htip : (w.joined (w.gathered ids most target f)).scanHeight =
            w.historyBase + (w.gathered ids most target f).length := by
          rw [scanHeight, joined, hnil, List.append_nil]
        rw [htip]
        exact hasks

/-- A wallet that holds no hashes and gathered some of another chain: its replies get past the split
    while it gathers, or what it gathered is what it asks for blocks with. -/
theorem Fills.catchesUp_iff_of_nil {most : Nat} (hserves : Serves C source chain ids (some most))
    {w : WalletState} {target f : Nat} (h : w.Fills ids target f) (hconf : w.Configured ids)
    (hnil : w.hashes = []) : w.CatchesUp C source ids ↔
      f = w.historyBase + w.gathering.length ∨
      f < min (servedFrom ids (w.fillHistory w.gathering) + most) ids.length ∨
      (w.joined w.gathering).Reaches ids f := by
  by_cases hchain : f = w.historyBase + w.gathering.length ∨
      f < min (servedFrom ids (w.fillHistory w.gathering) + most) ids.length
  · refine iff_of_true (h.catchesUp_of_chain hserves hconf hnil hchain) ?_
    rcases hchain with hall | hpast
    · exact .inl hall
    · exact .inr (.inl hpast)
  · obtain ⟨f', -, -, -, hkept, -⟩ := h.gathered_splits most
    obtain ⟨-, hsame⟩ := hkept (by omega)
    have hdone : ¬ w.MoreToFill ids most target f := fun hmore => by
      have := hmore.1
      rw [hsame] at this
      omega
    obtain ⟨summary, hnot, heq⟩ := refreshOnce_fills hserves h
    rw [if_neg hdone, hsame] at heq
    rw [catchesUp_next_iff ids (by rw [heq]) (fun hcaught => by rw [hnot] at hcaught; cases hcaught),
      heq]
    have hjoined : (w.joined w.gathering).SplitsAt ids f := by
      rw [joined, hnil, List.append_nil]
      obtain ⟨h₁, h₂, h₃, h₄, h₅⟩ := h.splits
      exact ⟨h₁, h₂, h₃, h₄, h₅⟩
    have hasks : (w.joined w.gathering).Asks ids (some most) f :=
      hconf.asks_joined w.gathering_ne_nil hjoined h.shared
    rw [hasks.catchesUp_iff hserves]
    have hleft : ¬ f = w.historyBase + w.gathering.length := fun hall => hchain (.inl hall)
    have hright : ¬ f < min (servedFrom ids (w.fillHistory w.gathering) + most) ids.length :=
      fun hpast => hchain (.inr hpast)
    simp only [hleft, hright, false_or]

/-- Hashes put under the held ones, up to the first of them, split where these do. -/
theorem splitsAt_joined {w : WalletState} {f : Nat} (hsplit : w.SplitsAt ids f)
    (hbase : w.historyBase ≤ w.startHeight) (hlen : w.startHeight ≤ ids.length) :
    (w.joined ((ids.drop w.historyBase).take (w.startHeight - w.historyBase))).SplitsAt ids f := by
  have hlow := hsplit.low
  have hhigh := hsplit.high
  have hinside := hsplit.inside
  rw [scanHeight] at hhigh
  have hunder : ((ids.drop w.historyBase).take (w.startHeight - w.historyBase)).length =
      w.startHeight - w.historyBase := by
    rw [List.length_take, List.length_drop]
    omega
  refine ⟨?_, ?_, ?_, ?_, ?_⟩
  · show w.historyBase ≤ f
    omega
  · rw [scanHeight]
    show f ≤ w.historyBase + (_ ++ w.hashes).length
    rw [List.length_append, hunder]
    omega
  · show f ≤ max ids.length w.historyBase
    omega
  · intro i hi
    replace hi : w.historyBase + i < f := hi
    show (_ ++ w.hashes)[i]? = ids[w.historyBase + i]?
    by_cases hlt : i < w.startHeight - w.historyBase
    · rw [List.getElem?_append_left (by omega), List.getElem?_take_of_lt hlt, List.getElem?_drop]
    · rw [List.getElem?_append_right (by omega), hunder, hsplit.same _ (by omega)]
      congr 1
      omega
  · intro i hash hi hget
    replace hi : f ≤ w.historyBase + i := hi
    replace hget : (_ ++ w.hashes)[i]? = some hash := hget
    rw [List.getElem?_append_right (by omega), hunder] at hget
    exact hsplit.apart _ _ (by omega) hget

/-- A wallet that holds hashes fills in those of the chain below them, and then asks for blocks. -/
theorem Fills.catchesUp_iff_of_held {most : Nat} (hserves : Serves C source chain ids (some most))
    {w : WalletState} {target f f₀ : Nat} (h : w.Fills ids target f) (hconf : w.Configured ids)
    (hheld : w.hashes ≠ []) (hsplit : w.SplitsAt ids f₀) (hshared : w.startHeight < f₀) :
    w.CatchesUp C source ids ↔
      (w.joined ((ids.drop w.historyBase).take (w.startHeight - w.historyBase))).Reaches ids f₀ := by
  induction hn : target - (w.historyBase + w.gathering.length) using Nat.strong_induction_on
    generalizing w f with
  | _ n ih =>
      obtain ⟨summary, hnot, heq⟩ := refreshOnce_fills hserves h
      rw [catchesUp_next_iff ids (by rw [heq]) (fun hcaught => by rw [hnot] at hcaught; cases hcaught),
        heq]
      simp only
      split
      · rename_i hmore
        have hgather := gathering_of_fill (w := w) (h.gathered_ne_nil most)
        rw [ih _ ?_ (h.more hmore).1 ⟨hconf.genesis, hconf.least, hconf.most, hconf.depth⟩ hheld
          ⟨hsplit.low, hsplit.high, hsplit.inside, hsplit.same, hsplit.apart⟩ hshared rfl]
        · rfl
        · obtain ⟨hlonger, hbelow⟩ := hmore
          rw [hgather]
          show target - (w.historyBase + _) < n
          omega
      · rename_i hdone
        have hreached := h.reaches_of_held hserves.chained.nodup (hserves.listed most rfl) hheld hdone
        have htarget := fillTarget_of_held h.aims hheld
        obtain ⟨hfirst, hall⟩ := h.held hheld
        obtain ⟨f', hsplits, hbase, hbelow, -, hf'⟩ := h.gathered_splits most
        have htake := hsplits.take_eq
        rw [hf' (.inl hall)] at htake
        simp only [Nat.add_sub_cancel_left, List.take_length] at htake
        have hgathered : w.gathered ids most target f =
            (ids.drop w.historyBase).take (w.startHeight - w.historyBase) := by
          rw [htake]
          congr 1
          omega
        have hne := h.gathered_ne_nil most
        have hlen : w.startHeight < ids.length := by
          obtain ⟨first, rest, hcons⟩ := List.exists_cons_of_ne_nil hheld
          rw [hcons] at hfirst
          exact (List.getElem?_eq_some_iff.mp hfirst).1
        rw [hgathered] at hne ⊢
        have hasks : (w.joined ((ids.drop w.historyBase).take
            (w.startHeight - w.historyBase))).Asks ids (some most) f₀ :=
          hconf.asks_joined hne (splitsAt_joined hsplit (by omega) (by omega)) (by omega)
        exact hasks.catchesUp_iff hserves

/-! ### Any split -/

/-- A wallet whose hashes are those of another chain, which has the blocks of the served one below
    the height `f` and none of its blocks from there on.  Both have the genesis of the wallet, the
    block it starts at if it holds any and, where it fills in hashes, the block these begin at. -/
structure Forked (w : WalletState) (ids other : List Hash256) (f : Nat) : Prop where
  configured : w.Configured ids
  inside : f ≤ ids.length
  same : other.take f = ids.take f
  apart : ∀ hash ∈ other.drop f, hash ∉ ids
  held : w.hashes ≠ [] → w.hashes = other.drop w.startHeight ∧ w.startHeight < f
  begins : ∀ target, w.fillTarget = some target → w.historyBase < f ∧
    other[w.historyBase]? = some w.fillStart ∧
    w.fill = (other.drop w.historyBase).take w.fill.length ∧
    w.historyBase + w.fill.length ≤ target

/-- When the calls of a forked wallet get past the split.  A source that lists hashes may get it
    there while the wallet fills in those below; otherwise the requests for blocks have to, with the
    hashes the wallet has by then. -/
def GetsPast (w : WalletState) (ids : List Hash256) (lists : Option Nat) (f : Nat) : Prop :=
  match lists, w.fillTarget with
  | some most, some _ =>
      if w.hashes = [] then
        w.historyBase + w.gathering.length ≤ f ∨
          f < min (servedFrom ids (w.fillHistory w.gathering) + most) ids.length ∨
          (w.joined w.gathering).Reaches ids f
      else (w.joined ((ids.drop w.historyBase).take (w.startHeight - w.historyBase))).Reaches ids f
  | _, _ => w.hashes = [] ∨ w.Reaches ids f

theorem getsPast_of_asking {w : WalletState} {f : Nat} (h : w.fillTarget = none ∨ lists = none) :
    w.GetsPast ids lists f ↔ w.hashes = [] ∨ w.Reaches ids f := by
  unfold GetsPast
  rcases h with hnone | rfl
  · rw [hnone]
    cases lists <;> rfl
  · cases w.fillTarget <;> rfl

theorem Forked.getElem?_eq {w : WalletState} {other : List Hash256} {f h : Nat}
    (hfork : w.Forked ids other f) (hlt : h < f) : other[h]? = ids[h]? := by
  rw [← List.getElem?_take_of_lt hlt, hfork.same, List.getElem?_take_of_lt hlt]

theorem Forked.not_mem {w : WalletState} {other : List Hash256} {f h : Nat} {hash : Hash256}
    (hfork : w.Forked ids other f) (hle : f ≤ h) (hget : other[h]? = some hash) : hash ∉ ids := by
  apply hfork.apart
  apply List.mem_of_getElem? (i := h - f)
  rw [List.getElem?_drop, Nat.add_sub_cancel' hle, hget]

theorem Forked.le_length {w : WalletState} {other : List Hash256} {f : Nat}
    (hfork : w.Forked ids other f) : f ≤ other.length := by
  have hlen := congrArg List.length hfork.same
  have hinside := hfork.inside
  rw [List.length_take, List.length_take] at hlen
  omega

/-- Hashes of the other chain split from the served one where the chains do, or end before. -/
theorem Forked.splitsAt {w v : WalletState} {other : List Hash256} {f : Nat}
    (hfork : w.Forked ids other f)
    (hhashes : v.hashes = (other.drop v.startHeight).take v.hashes.length) (hlow : v.startHeight < f) :
    v.SplitsAt ids (min f v.scanHeight) := by
  have hinside := hfork.inside
  rw [scanHeight]
  refine ⟨by omega, Nat.min_le_right _ _, by omega, ?_, ?_⟩
  · intro i hi
    rw [hhashes, List.getElem?_take_of_lt (by omega), List.getElem?_drop]
    exact hfork.getElem?_eq (by omega)
  · intro i hash hi hget
    have hlt := (List.getElem?_eq_some_iff.mp hget).1
    rw [hhashes, List.getElem?_take_of_lt hlt, List.getElem?_drop] at hget
    exact hfork.not_mem (by omega) hget

theorem Forked.gathering_eq {w : WalletState} {other : List Hash256} {f target : Nat}
    (hfork : w.Forked ids other f) (htarget : w.fillTarget = some target) :
    w.gathering = (other.drop w.historyBase).take w.gathering.length ∧
      w.historyBase + w.gathering.length ≤ target := by
  obtain ⟨-, hbegin, hfill, hbelow⟩ := hfork.begins target htarget
  unfold gathering
  split
  · obtain ⟨hlt, hget⟩ := List.getElem?_eq_some_iff.mp hbegin
    refine ⟨?_, ?_⟩
    · rw [List.drop_eq_getElem_cons hlt, hget]
      rfl
    · unfold fillTarget at htarget
      simp only at htarget
      split at htarget
      all_goals
        rename_i hcond
        rw [List.length_singleton]
      · rw [Option.ite_none_right_eq_some] at htarget
        have := htarget.1.1
        have := Option.some.inj htarget.2
        omega
      · rw [Option.ite_none_right_eq_some] at htarget
        have := htarget.1.1
        have := Option.some.inj htarget.2
        omega
  · exact ⟨hfill, hbelow⟩

/-- A forked wallet with nothing to fill in asks for blocks. -/
theorem Forked.asks {w : WalletState} {other : List Hash256} {f : Nat} (hfork : w.Forked ids other f)
    (hphase : w.fillTarget = none ∨ lists = none) (hheld : w.hashes ≠ []) : w.Asks ids lists f := by
  obtain ⟨hhashes, hlow⟩ := hfork.held hheld
  have hle := hfork.le_length
  have hlen : w.hashes.length = other.length - w.startHeight := by rw [hhashes, List.length_drop]
  have hsplit := hfork.splitsAt (v := w)
    (by rw [List.take_of_length_le (by rw [List.length_drop, hlen]), ← hhashes]) hlow
  rw [show min f w.scanHeight = f by rw [scanHeight]; omega] at hsplit
  have hconf := hfork.configured
  exact ⟨hphase, hsplit, fun _ => hlow, hconf.genesis, hconf.least, hconf.most, hconf.depth⟩

/-- A forked wallet with hashes to fill in. -/
theorem Forked.fills {w : WalletState} {other : List Hash256} {f target : Nat}
    (hfork : w.Forked ids other f) (htarget : w.fillTarget = some target) :
    w.Fills ids target (min f (w.historyBase + w.gathering.length)) := by
  obtain ⟨hgather, hbelow⟩ := hfork.gathering_eq htarget
  obtain ⟨hbase, -⟩ := hfork.begins target htarget
  have hpos : 0 < w.gathering.length := List.length_pos_iff.mpr w.gathering_ne_nil
  refine ⟨htarget, ?_, by omega, hbelow, ?_⟩
  · exact hfork.splitsAt (v := { w with hashes := w.gathering, startHeight := w.historyBase }) hgather
      hbase
  · intro hheld
    obtain ⟨hhashes, hlow⟩ := hfork.held hheld
    have hstart := fillTarget_of_held htarget hheld
    refine ⟨?_, by omega⟩
    rw [hhashes, List.getElem?_drop, Nat.add_zero, hfork.getElem?_eq hlow]

/-- Calls for blocks with no hashes held start where the wallet starts. -/
theorem Forked.catchesUp_of_nil (hserves : Serves C source chain ids lists) {w : WalletState}
    {other : List Hash256} {f : Nat} (hfork : w.Forked ids other f)
    (hphase : w.fillTarget = none ∨ lists = none) (hnil : w.hashes = []) : w.CatchesUp C source ids := by
  have hconf := hfork.configured
  have hheight : w.scanHeight = w.startHeight := by rw [scanHeight, hnil]; rfl
  have hasks : w.Asks ids lists w.scanHeight := by
    refine ⟨hphase, ?_, fun hheld => absurd hnil hheld, hconf.genesis, hconf.least, hconf.most,
      hconf.depth⟩
    rw [hheight]
    exact splitsAt_of_hashes (Nat.le_refl _) (Nat.le_max_right _ _) (by rw [hnil, Nat.sub_self]; rfl)
  exact hasks.catchesUp_of_tip hserves

/-- Refreshing against a fixed chain catches up, without an error, exactly when the replies get past
    where the wallet's chain split from it. -/
theorem catchesUp_iff_getsPast (hserves : Serves C source chain ids lists) {w : WalletState}
    {other : List Hash256} {f : Nat} (hfork : w.Forked ids other f) :
    w.CatchesUp C source ids ↔ w.GetsPast ids lists f := by
  by_cases hphase : w.fillTarget = none ∨ lists = none
  · rw [getsPast_of_asking hphase]
    by_cases hnil : w.hashes = []
    · exact iff_of_true (hfork.catchesUp_of_nil hserves hphase hnil) (.inl hnil)
    · rw [(hfork.asks hphase hnil).catchesUp_iff hserves]
      simp only [hnil, false_or]
  · obtain ⟨target, htarget⟩ := Option.ne_none_iff_exists'.mp (fun h => hphase (.inl h))
    obtain ⟨most, rfl⟩ := Option.ne_none_iff_exists'.mp (fun h => hphase (.inr h))
    have hfills := hfork.fills htarget
    unfold GetsPast
    rw [htarget]
    simp only
    by_cases hnil : w.hashes = []
    · rw [if_pos hnil, hfills.catchesUp_iff_of_nil hserves hfork.configured hnil]
      by_cases hall : w.historyBase + w.gathering.length ≤ f
      · exact iff_of_true (.inl (by omega)) (.inl hall)
      · rw [show min f (w.historyBase + w.gathering.length) = f by omega]
        have hne : f ≠ w.historyBase + w.gathering.length := by omega
        simp only [hne, hall, false_or]
    · obtain ⟨hhashes, hlow⟩ := hfork.held hnil
      have hsplit := hfork.splitsAt (v := w) ?_ hlow
      · have hle := hfork.le_length
        have hlen : w.hashes.length = other.length - w.startHeight := by rw [hhashes, List.length_drop]
        rw [show min f w.scanHeight = f by rw [scanHeight]; omega] at hsplit
        rw [if_neg hnil, hfills.catchesUp_iff_of_held hserves hfork.configured hnil hsplit hlow]
      · rw [hhashes, List.take_of_length_le (Nat.le_refl _)]

end

end WalletState

/-! ### A split the history skips -/

namespace Sample

/-- A hash with few values, for blocks named by short numbers. -/
def tally (bytes : Blob) : Hash256 :=
  BitVec.ofNat 256 (bytes.foldl (fun acc b => (acc * 257 + b.toNat + 1) % 65521) 7)

def tallied : Crypto := { crypto with cnFastHash := tally }

/-- A block of this chain: its parent, and how far it is from genesis. -/
def link (nonce : Nat) (parent : Hash256 × Nat) : Block :=
  { header := ⟨11, 11, 300 * parent.2, parent.1, nonce, Signature.zero, 0⟩
    minerTx := coinbase parent.2 0 [⟨1, .toKey 8⟩] }

def idsOf (blocks : List Block) : List Hash256 :=
  blocks.map fun b => (b.blockId tally).getD nullHash

def bundlesOf (blocks : List Block) : List BlockBundle :=
  blocks.map fun b => ⟨b.toBlob, [], [], false⟩

/-- A node on these blocks, which lists no hashes. -/
def nodeOn (blocks : List Block) (ids : List Hash256) : BlockSource where
  getBlocks history start most := .ok (honestBatch (bundlesOf blocks) ids history start most)

theorem nodeOn_serves {C : Crypto} {blocks : List Block} {ids : List Hash256}
    (hnamed : blocks.map (·.blockId C.cnFastHash) = ids.map some)
    (hparse : blocks.map (fun b => Block.fromBlob b.toBlob) = blocks.map .ok)
    (hempty : ∀ b ∈ blocks, b.txHashes = [])
    (hlinks : blocks.tail.map (·.header.prevId) = ids.dropLast) (hnodup : ids.Nodup) :
    Serves C (nodeOn blocks ids) (bundlesOf blocks) ids none := by
  have hlen : ids.length = blocks.length := by
    have := congrArg List.length hnamed
    rw [List.length_map, List.length_map] at this
    exact this.symm
  refine ⟨⟨?_, by rw [bundlesOf, List.length_map, hlen], hnodup⟩, fun _ _ _ => rfl, fun _ => rfl,
    by simp⟩
  intro h bundle hget
  rw [bundlesOf, List.getElem?_map, Option.map_eq_some_iff] at hget
  obtain ⟨b, hb, rfl⟩ := hget
  have hlt := (List.getElem?_eq_some_iff.mp hb).1
  have hid : ids[h]? = some ids[h] := List.getElem?_eq_getElem (by omega)
  refine ⟨b, _, hid, ⟨?_, ?_, ?_, by simp⟩, ?_⟩
  · have := congrArg (·[h]?) hparse
    simp only [List.getElem?_map, hb, Option.map_some, Option.some.injEq] at this
    exact this
  · have := congrArg (·[h]?) hnamed
    simp only [List.getElem?_map, hb, hid, Option.map_some, Option.some.injEq] at this
    exact this
  · rw [hempty b (List.mem_of_getElem? hb)]
    rfl
  · rintro parent rfl
    have := congrArg (·[parent]?) hlinks
    simp only [List.getElem?_map, List.getElem?_tail, hb, Option.map_some] at this
    rw [this, List.getElem?_dropLast, if_pos (by omega)]

/-- The ids of eighteen blocks, and of seventeen that share the first four. -/
def servedIds : List Hash256 :=
  [56887, 48742, 58798, 57841, 11101, 41089, 29849, 15435, 51959, 44011, 24735, 63710, 3856, 25114,
    39921, 43943, 8224, 23302]

def rivalIds : List Hash256 :=
  [56887, 48742, 58798, 57841, 45276, 20076, 17586, 54013, 46593, 22979, 17934, 8626, 47920, 1950,
    14082, 51710, 52820]

def served : List Block := (nullHash :: servedIds.dropLast).zipIdx.map (link 0)

def rivals : List Block :=
  served.take 4 ++ ((nullHash :: rivalIds.dropLast).zipIdx.drop 4).map (link 1)

theorem served_serves :
    Serves tallied (nodeOn served servedIds) (bundlesOf served) servedIds none :=
  nodeOn_serves (by decide +kernel) (by decide +kernel) (by decide +kernel) (by decide +kernel)
    (by decide)

/-- A wallet on the rival blocks, which asks for so many blocks at a time. -/
def rivalWallet (batchSize : Nat) : WalletState :=
  { WalletState.new ⟨⟨8, 8⟩, 1, 1⟩ ⟨[(8, .main)], [1]⟩ 0 56887 none with
    hashes := rivalIds
    batchSize := batchSize
    firstRefreshDone := true }

theorem rivalWallet_forked {batchSize : Nat} (hleast : 2 ≤ batchSize) (hmost : batchSize ≤ 1000) :
    (rivalWallet batchSize).Forked servedIds rivalIds 4 := by
  refine ⟨⟨rfl, hleast, hmost, rfl⟩, by decide, by decide, ?_,
    fun _ => ⟨rfl, Nat.zero_lt_succ 3⟩, ?_⟩
  · have hnone : (rivalIds.drop 4).all (fun h => !servedIds.contains h) = true := by decide
    intro hash hmem hserved
    have := List.all_eq_true.mp hnone hash hmem
    simp [hserved] at this
  · intro target htarget
    cases htarget

/-- Thirteen blocks from the split to its tip, and a wallet that asks for four at a time: its history
    names every one of the last eleven, the block at the split and then genesis, and the reply from
    genesis ends before the split. -/
theorem rivalWallet_never_catches_up :
    Serves tallied (nodeOn served servedIds) (bundlesOf served) servedIds none ∧
    rivals.map (·.blockId tally) = rivalIds.map some ∧
    (rivalWallet 4).Forked servedIds rivalIds 4 ∧
    ((rivalWallet 4).refreshOnce tallied (nodeOn served servedIds)).1 = .error (.noProgress 0 18) ∧
    ¬ (rivalWallet 4).CatchesUp tallied (nodeOn served servedIds) servedIds := by
  have herror : ((rivalWallet 4).refreshOnce tallied (nodeOn served servedIds)).1 =
      .error (.noProgress 0 18) := by decide +kernel
  refine ⟨served_serves, by decide +kernel, rivalWallet_forked (by omega) (by omega), herror, ?_⟩
  intro h
  obtain ⟨summary, hok⟩ := h.ok 0
  rw [WalletState.calls, herror] at hok
  cases hok

/-- Asked for five at a time, the same reply has the block at the split. -/
theorem rivalWallet_catches_up :
    (rivalWallet 5).Forked servedIds rivalIds 4 ∧
    (rivalWallet 5).CatchesUp tallied (nodeOn served servedIds) servedIds := by
  have hfork : (rivalWallet 5).Forked servedIds rivalIds 4 := rivalWallet_forked (by omega) (by omega)
  refine ⟨hfork, (WalletState.catchesUp_iff_getsPast served_serves hfork).mpr ?_⟩
  rw [WalletState.getsPast_of_asking (.inr rfl)]
  exact .inr (.inr ⟨by decide, .inl (by decide)⟩)

end Sample

end Wownero
