import Wownero.Outcome
import Wownero.Storage
/-!
# What the writer does to each table

One statement per operation of the store, saying what it leaves in every table and what it
leaves alone.  The block tables are written by `add_block` and `pop_block` only: adding or
removing a transaction does not touch them.
-/

namespace Wownero

open Outcome

/-! ### Reading -/

theorem orNotFound_eq_ok {α : Type} {o : Option α} {a : α} :
    MainTables.orNotFound o = .ok a ↔ o = some a := by
  cases o <;> simp [MainTables.orNotFound]

theorem parseBlock_eq_ok {blob : Blob} {blk : Block} :
    parseBlock blob = .ok blk ↔ Block.fromBlob blob = .ok blk := by
  unfold parseBlock
  cases Block.fromBlob blob <;> simp

theorem parseTransaction_eq_ok {blob : Blob} {tx : Transaction} :
    parseTransaction blob = .ok tx ↔ Transaction.fromBlob blob = .ok tx := by
  unfold parseTransaction
  cases Transaction.fromBlob blob <;> simp

/-- The block tables agree: the tables a transaction does not touch. -/
structure SameBlocks (t t' : MainTables) : Prop where
  blocks : t'.blocks = t.blocks
  blockInfo : t'.blockInfo = t.blockInfo
  blockHeights : t'.blockHeights = t.blockHeights
  hfVersions : t'.hfVersions = t.hfVersions

theorem SameBlocks.refl (t : MainTables) : SameBlocks t t := ⟨rfl, rfl, rfl, rfl⟩

theorem SameBlocks.trans {t t' t'' : MainTables} (h : SameBlocks t t') (h' : SameBlocks t' t'') :
    SameBlocks t t'' :=
  ⟨h'.blocks.trans h.blocks, h'.blockInfo.trans h.blockInfo,
    h'.blockHeights.trans h.blockHeights, h'.hfVersions.trans h.hfVersions⟩

/-! ### Adding -/

section

variable {C : Crypto}

theorem addOutput_sameBlocks (t : MainTables) (txHash : Hash256) (amount : Nat)
    (pubkey : PublicKey) (localIndex unlockTime height : Nat) (commitment : Option EcPoint) :
    SameBlocks t
      (addOutput t txHash amount pubkey localIndex unlockTime height commitment).2 :=
  ⟨rfl, rfl, rfl, rfl⟩

theorem addOutputs_sameBlocks {txHash : Hash256} {unlockTime height : Nat}
    {outs : List (StoredOutput × TxOut)} {i : Nat} {t t' : MainTables} {indices : List Nat}
    (h : addOutputs txHash unlockTime height i outs t = .ok (indices, t')) :
    SameBlocks t t' := by
  induction outs generalizing i t indices with
  | nil =>
      simp only [addOutputs, Except.ok.injEq, Prod.mk.injEq] at h
      obtain ⟨_, rfl⟩ := h
      exact SameBlocks.refl t
  | cons out outs ih =>
      obtain ⟨s, o⟩ := out
      simp only [addOutputs, bind_eq_ok, pure_eq_ok] at h
      obtain ⟨pubkey, _, ⟨rest, t₁⟩, hrest, heq⟩ := h
      cases heq
      exact (addOutput_sameBlocks ..).trans (ih hrest)

/-- **Adding a transaction leaves the block tables alone.** -/
theorem addTransaction_sameBlocks {t t' : MainTables} {height : Nat} {tx : Transaction}
    {blob : Blob} (h : addTransaction C t height tx blob = .ok t') : SameBlocks t t' := by
  simp only [addTransaction, bind_eq_ok, pure_eq_ok] at h
  obtain ⟨txHash, _, halves, _, stored, _, ⟨indices, t₁⟩, hout, rfl⟩ := h
  obtain ⟨h₁, h₂, h₃, h₄⟩ := addOutputs_sameBlocks hout
  exact ⟨h₁, h₂, h₃, h₄⟩

theorem addTransactions_sameBlocks {height : Nat} {txs : List (Transaction × Blob)}
    {t t' : MainTables} (h : addTransactions C height txs t = .ok t') : SameBlocks t t' := by
  induction txs generalizing t with
  | nil =>
      simp only [addTransactions, Except.ok.injEq] at h
      exact h ▸ SameBlocks.refl t
  | cons p txs ih =>
      obtain ⟨tx, blob⟩ := p
      simp only [addTransactions, bind_eq_ok] at h
      obtain ⟨t₁, h₁, h₂⟩ := h
      exact (addTransaction_sameBlocks h₁).trans (ih h₂)

/-- What adding a block leaves in the block tables. -/
structure AddedBlock (C : Crypto) (t : MainTables) (blk : Block) (blob : Blob) (info : BlockInfo)
    (t' : MainTables) : Prop where
  hash : blk.blockId C.cnFastHash = some info.hash
  height : info.height = t.height
  timestamp : info.timestamp = blk.header.timestamp
  blocks : t'.blocks = t.blocks.put t.height blob
  blockInfo : t'.blockInfo = t.blockInfo.add t.height info
  blockHeights : t'.blockHeights = t.blockHeights.add info.hash t.height
  hfVersions : t'.hfVersions = t.hfVersions.put t.height blk.header.majorVersion

/-- **Adding a block.** -/
theorem addBlock_added {t t' : MainTables} {blk : Block} {blob : Blob}
    {weight longTermWeight cumulativeDifficulty coins : Nat} {txs : List (Transaction × Blob)}
    (h : t.addBlock C blk blob weight longTermWeight cumulativeDifficulty coins txs = .ok t') :
    ∃ info, AddedBlock C t blk blob info t' ∧ info.weight = weight ∧
      info.longTermBlockWeight = longTermWeight ∧
      info.cumulativeDifficulty = cumulativeDifficulty ∧ info.coins = coins := by
  simp only [MainTables.addBlock, bind_eq_ok, pure_eq_ok, orNotFound_eq_ok] at h
  obtain ⟨hash, hhash, previous, _, t₁, h₁, t₂, h₂, rfl⟩ := h
  obtain ⟨hb, hi, hh, hv⟩ := (addTransaction_sameBlocks h₁).trans (addTransactions_sameBlocks h₂)
  refine ⟨⟨t.height, blk.header.timestamp, coins, weight, cumulativeDifficulty, hash,
    cumulativeRctOutputs t.height blk txs previous, longTermWeight⟩,
    ⟨hhash, rfl, rfl, ?_, ?_, ?_, ?_⟩, rfl, rfl, rfl, rfl⟩
  · show t₂.blocks.put _ _ = _
    rw [hb]
    rfl
  · show t₂.blockInfo.add _ _ = _
    rw [hi]
    rfl
  · show t₂.blockHeights.add _ _ = _
    rw [hh]
    rfl
  · show t₂.hfVersions.put _ _ = _
    rw [hv]
    rfl

/-! ### Removing -/

theorem removeOutput_sameBlocks {t t' : MainTables} {amount amountIndex : Nat}
    (h : removeOutput t amount amountIndex = .ok t') : SameBlocks t t' := by
  simp only [removeOutput, bind_eq_ok] at h
  obtain ⟨out, _, h⟩ := h
  split_ifs at h with hlast
  simp only [bind_eq_ok, pure_eq_ok] at h
  obtain ⟨_, _, rfl⟩ := h
  exact ⟨rfl, rfl, rfl, rfl⟩

theorem removeOutputs_sameBlocks {outs : List (StoredOutput × Option Nat)} {t t' : MainTables}
    (h : removeOutputs outs t = .ok t') : SameBlocks t t' := by
  induction outs generalizing t' with
  | nil =>
      simp only [removeOutputs, Except.ok.injEq] at h
      exact h ▸ SameBlocks.refl t
  | cons out outs ih =>
      obtain ⟨s, amountIndex⟩ := out
      simp only [removeOutputs, bind_eq_ok] at h
      obtain ⟨t₁, h₁, _, _, h₂⟩ := h
      exact (ih h₁).trans (removeOutput_sameBlocks h₂)

theorem removeTransaction_sameBlocks {t t' : MainTables} {txHash : Hash256} {tx : Transaction}
    (h : removeTransaction C t txHash = .ok (tx, t')) : SameBlocks t t' := by
  simp only [removeTransaction, bind_eq_ok, pure_eq_ok] at h
  obtain ⟨idx, _, pruned, _, tx', _, indices, _, stored, _, t₁, h₁, heq⟩ := h
  cases heq
  obtain ⟨hb, hi, hh, hv⟩ := removeOutputs_sameBlocks h₁
  exact ⟨hb, hi, hh, hv⟩

theorem removeTransactions_sameBlocks {hashes : List Hash256} {t t' : MainTables}
    {txs : List Transaction} (h : removeTransactions C hashes t = .ok (txs, t')) :
    SameBlocks t t' := by
  induction hashes generalizing t' txs with
  | nil =>
      simp only [removeTransactions, Except.ok.injEq, Prod.mk.injEq] at h
      obtain ⟨_, rfl⟩ := h
      exact SameBlocks.refl t
  | cons hash hashes ih =>
      simp only [removeTransactions, bind_eq_ok, pure_eq_ok] at h
      obtain ⟨⟨rest, t₁⟩, h₁, ⟨tx, t₂⟩, h₂, heq⟩ := h
      cases heq
      exact (ih h₁).trans (removeTransaction_sameBlocks h₂)

/-- What popping a block leaves in the block tables. -/
structure PoppedBlock (t : MainTables) (info : BlockInfo) (t' : MainTables) : Prop where
  pos : 0 < t.height
  tip : t.blockInfo.get (t.height - 1) = some info
  blocks : t'.blocks = t.blocks.del (t.height - 1)
  blockInfo : t'.blockInfo = t.blockInfo.del (t.height - 1)
  blockHeights : t'.blockHeights = t.blockHeights.del info.hash
  hfVersions : t'.hfVersions = t.hfVersions.del (t.height - 1)

/-- **Popping a block.** -/
theorem popBlock_popped {t t' : MainTables} {popped : Block × List Transaction}
    (h : t.popBlock C = .ok (popped, t')) :
    ∃ info, PoppedBlock t info t' ∧
      ∃ blob, t.blocks.get (t.height - 1) = some blob ∧ Block.fromBlob blob = .ok popped.1 := by
  unfold MainTables.popBlock at h
  split_ifs at h with hzero
  simp only [bind_eq_ok, pure_eq_ok, orNotFound_eq_ok] at h
  obtain ⟨blob, hblob, blk, hblk, ⟨txs, t₁⟩, h₁, minerHash, _, ⟨tx, t₂⟩, h₂, info, hinfo, heq⟩ := h
  cases heq
  obtain ⟨hb, hi, hh, hv⟩ :=
    (removeTransactions_sameBlocks h₁).trans (removeTransaction_sameBlocks h₂)
  have hpos : 0 < t.height := Nat.pos_of_ne_zero hzero
  have hparse : Block.fromBlob blob = .ok blk := parseBlock_eq_ok.mp hblk
  simp only [MainTables.getBlockInfo, orNotFound_eq_ok] at hinfo
  refine ⟨info, ⟨hpos, ?_, ?_, ?_, ?_, ?_⟩, blob, hblob, hparse⟩
  · rw [← hi]
    exact hinfo
  · show t₂.blocks.del _ = _
    rw [hb]
  · show t₂.blockInfo.del _ = _
    rw [hi]
  · show t₂.blockHeights.del _ = _
    rw [hh]
  · show t₂.hfVersions.del _ = _
    rw [hv]

end

/-! ### Numbering -/

/-- The blocks and their records are numbered from zero to the tip. -/
structure MainTables.Numbered (t : MainTables) : Prop where
  blocks : t.blocks.Dense
  blockInfo : t.blockInfo.Dense
  same : t.blockInfo.size = t.blocks.size

theorem MainTables.numbered_empty : MainTables.empty.Numbered :=
  ⟨Table.dense_empty, Table.dense_empty, rfl⟩

section

variable {C : Crypto}

theorem AddedBlock.height_eq {t t' : MainTables} {blk : Block} {blob : Blob} {info : BlockInfo}
    (h : AddedBlock C t blk blob info t') (hn : t.Numbered) : t'.height = t.height + 1 := by
  show t'.blocks.size = t.blocks.size + 1
  rw [h.blocks]
  exact Table.size_put_of_get_none hn.blocks.get_size blob

theorem AddedBlock.numbered {t t' : MainTables} {blk : Block} {blob : Blob} {info : BlockInfo}
    (h : AddedBlock C t blk blob info t') (hn : t.Numbered) : t'.Numbered := by
  have hfree : t.blockInfo.get t.height = none := by
    rw [MainTables.height, ← hn.same]
    exact hn.blockInfo.get_size
  have hinfo : t'.blockInfo = t.blockInfo.put t.blockInfo.size info := by
    rw [h.blockInfo, Table.add_of_get_none hfree, hn.same]
    rfl
  refine ⟨?_, ?_, ?_⟩
  · rw [h.blocks]
    exact hn.blocks.put blob
  · rw [hinfo]
    exact hn.blockInfo.put info
  · rw [hinfo, h.blocks, Table.size_put_of_get_none hn.blockInfo.get_size, hn.same]
    exact (Table.size_put_of_get_none hn.blocks.get_size blob).symm

/-- The records below the new block are the old ones; its own is the new one. -/
theorem AddedBlock.get_info {t t' : MainTables} {blk : Block} {blob : Blob} {info : BlockInfo}
    (h : AddedBlock C t blk blob info t') (hn : t.Numbered) (k : Nat) :
    t'.blockInfo.get k = if k = t.height then some info else t.blockInfo.get k := by
  have hfree : t.blockInfo.get t.height = none := by
    rw [MainTables.height, ← hn.same]
    exact hn.blockInfo.get_size
  rw [h.blockInfo, Table.add_of_get_none hfree, Table.get_put]

theorem PoppedBlock.height_eq {t t' : MainTables} {info : BlockInfo} (h : PoppedBlock t info t')
    (hn : t.Numbered) : t'.height + 1 = t.height := by
  show t'.blocks.size + 1 = t.blocks.size
  rw [h.blocks]
  exact (hn.blocks.del h.pos).2

theorem PoppedBlock.numbered {t t' : MainTables} {info : BlockInfo} (h : PoppedBlock t info t')
    (hn : t.Numbered) : t'.Numbered := by
  have htip : t.height - 1 = t.blockInfo.size - 1 := by
    rw [hn.same]
    rfl
  have hpos : 0 < t.blockInfo.size := hn.same ▸ h.pos
  obtain ⟨hb, hbs⟩ := hn.blocks.del h.pos
  obtain ⟨hi, his⟩ := hn.blockInfo.del hpos
  refine ⟨?_, ?_, ?_⟩
  · rw [h.blocks]
    exact hb
  · rw [h.blockInfo, htip]
    exact hi
  · rw [h.blockInfo, htip, h.blocks]
    have hsame := hn.same
    show (t.blockInfo.del (t.blockInfo.size - 1)).size = (t.blocks.del (t.blocks.size - 1)).size
    omega

theorem MainTables.Numbered.info {t : MainTables} (hn : t.Numbered) {k : Nat}
    (hk : k < t.height) : ∃ info, t.blockInfo.get k = some info :=
  hn.blockInfo.get_some (hn.same ▸ hk)

theorem MainTables.Numbered.lt_height {t : MainTables} (hn : t.Numbered) {k : Nat}
    {info : BlockInfo} (hk : t.blockInfo.get k = some info) : k < t.height := by
  have hlt := (hn.blockInfo k).mp (by rw [hk]; rfl)
  rw [hn.same] at hlt
  exact hlt

end

end Wownero
