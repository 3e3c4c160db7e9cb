import Wownero.StoreSpecs
/-!
# Popping undoes adding

`pop_block` does not restore saved rows: it parses the stored bytes again and works out from
them what `add_block` wrote.  For a block whose bytes parse back to what was added, and whose
transactions and key images were new, every table is what it was before.

Each removal is stated for any tables that agree with the written ones where it reads, so that
the rows other parts of the block left behind need not be carried along.
-/

namespace Wownero

open Outcome

/-! ### Outputs -/

/-- The two tables of outputs, put back into other tables. -/
def MainTables.withOutputs (u t : MainTables) : MainTables :=
  { u with outputTxs := t.outputTxs, outputAmounts := t.outputAmounts }

/-- The rows of outputs are numbered. -/
structure OutSound (t : MainTables) : Prop where
  outputTxs : t.outputTxs.Dense
  outputAmounts : ∀ amount i,
    (t.outputAmounts.get (amount, i)).isSome ↔ i < t.getNumOutputs amount

section

variable {t : MainTables} {txHash : Hash256} {amount : Nat} {pubkey : PublicKey}
  {localIndex unlockTime height : Nat} {commitment : Option EcPoint}

private theorem OutSound.get_next (h : OutSound t) (amount : Nat) :
    t.outputAmounts.get (amount, t.getNumOutputs amount) = none := by
  rw [← Option.not_isSome_iff_eq_none, h.outputAmounts]
  exact Nat.lt_irrefl _

/-- What `add_output` writes, when the rows are numbered: two new rows. -/
theorem addOutput_eq (h : OutSound t) :
    addOutput t txHash amount pubkey localIndex unlockTime height commitment =
      (t.getNumOutputs amount,
        { t with
          outputTxs := t.outputTxs.put t.outputTxs.size ⟨txHash, localIndex⟩
          outputAmounts := t.outputAmounts.put (amount, t.getNumOutputs amount)
            ⟨t.outputTxs.size, pubkey, unlockTime, height, commitment⟩ }) := by
  rw [addOutput, Table.add_of_get_none h.outputTxs.get_size,
    Table.add_of_get_none (h.get_next amount)]

theorem addOutput_outSound (h : OutSound t) :
    OutSound (addOutput t txHash amount pubkey localIndex unlockTime height commitment).2 := by
  rw [addOutput_eq h]
  refine ⟨h.outputTxs.put _, ?_⟩
  intro a i
  show ((t.outputAmounts.put _ _).get (a, i)).isSome ↔ i < (t.outputAmounts.put _ _).count _
  rw [Table.count_put_of_get_none (h.get_next amount), Table.get_put]
  have hold := h.outputAmounts a i
  unfold MainTables.getNumOutputs at hold ⊢
  by_cases ha : a = amount
  · subst ha
    by_cases hi : i = t.outputAmounts.count fun key => key.1 == a
    · simp [hi]
    · rw [if_neg (by simp [hi]), hold]
      simp only [beq_self_eq_true, if_true]
      omega
  · rw [if_neg (by simp [ha]), hold]
    simp [Ne.symm ha]

/-- Removing the output just added. -/
theorem removeOutput_addOutput (h : OutSound t) {u : MainTables}
    (htxs : u.outputTxs =
      (addOutput t txHash amount pubkey localIndex unlockTime height commitment).2.outputTxs)
    (hamounts : u.outputAmounts =
      (addOutput t txHash amount pubkey localIndex unlockTime height commitment).2.outputAmounts) :
    removeOutput u amount (t.getNumOutputs amount) = .ok (u.withOutputs t) := by
  rw [addOutput_eq h] at htxs hamounts
  simp only at htxs hamounts
  have hsize : (t.outputTxs.put t.outputTxs.size ⟨txHash, localIndex⟩).size = t.outputTxs.size + 1 :=
    Table.size_put_of_get_none h.outputTxs.get_size _
  rw [removeOutput, hamounts, htxs, Table.get_put_self]
  show (if t.outputTxs.size + 1 ≠ _ then _ else _) = _
  rw [hsize, if_neg (by simp)]
  simp only [Table.get_put_self, MainTables.orNotFound]
  show Except.ok _ = _
  rw [Table.del_put_of_get_none (h.get_next amount), Table.del_put_of_get_none h.outputTxs.get_size]
  rfl

end

/-- **Outputs.**  Removing the outputs of a transaction, last first, undoes adding them. -/
theorem removeOutputs_addOutputs {txHash : Hash256} {unlockTime height : Nat}
    {outs : List (StoredOutput × TxOut)} {i : Nat} {t t' : MainTables} {indices : List Nat}
    (hadd : addOutputs txHash unlockTime height i outs t = .ok (indices, t')) (h : OutSound t) :
    OutSound t' ∧ indices.length = outs.length ∧
      ∀ u : MainTables, u.outputTxs = t'.outputTxs → u.outputAmounts = t'.outputAmounts →
        removeOutputs ((outs.map (·.1)).zip (indices.map some)) u = .ok (u.withOutputs t) := by
  induction outs generalizing i t indices with
  | nil =>
      simp only [addOutputs, Except.ok.injEq, Prod.mk.injEq] at hadd
      obtain ⟨rfl, rfl⟩ := hadd
      refine ⟨h, rfl, fun u htxs hamounts => ?_⟩
      simp only [List.map_nil, List.zip_nil_left, removeOutputs, MainTables.withOutputs]
      rw [← htxs, ← hamounts]
  | cons out outs ih =>
      obtain ⟨s, o⟩ := out
      simp only [addOutputs, bind_eq_ok, pure_eq_ok] at hadd
      obtain ⟨pubkey, _, ⟨rest, t₂⟩, hrest, heq⟩ := hadd
      cases heq
      obtain ⟨hsound, hlen, hback⟩ := ih hrest (addOutput_outSound h)
      refine ⟨hsound, by simp [hlen], fun u htxs hamounts => ?_⟩
      have hhead : (addOutput t txHash s.amount pubkey i unlockTime height s.commitment).1 =
          t.getNumOutputs s.amount := rfl
      simp only [List.map_cons, List.zip_cons_cons, removeOutputs, hback u htxs hamounts]
      show removeOutput _ s.amount _ = _
      rw [hhead]
      exact removeOutput_addOutput (u := u.withOutputs _) h rfl rfl

/-! ### Key images -/

theorem get_addKeyImages (spent : Table KeyImage Unit) (images : List KeyImage) (k : KeyImage) :
    (addKeyImages spent images).get k = if k ∈ images then some () else spent.get k := by
  unfold addKeyImages
  induction images generalizing spent with
  | nil => simp
  | cons image images ih =>
      rw [List.foldl_cons, ih]
      by_cases hmem : k ∈ images
      · simp [hmem]
      · rw [if_neg hmem]
        cases hget : spent.get image with
        | none =>
            rw [Table.add_of_get_none hget, Table.get_put]
            by_cases hk : k = image
            · simp [hk]
            · simp [hk, hmem]
        | some u =>
            have hsame : spent.add image () = spent := by simp [Table.add, hget]
            rw [hsame]
            by_cases hk : k = image
            · simp [hk, hget]
            · simp [hk, hmem]

theorem get_delKeyImages (spent : Table KeyImage Unit) (images : List KeyImage) (k : KeyImage) :
    (delKeyImages spent images).get k = if k ∈ images then none else spent.get k := by
  unfold delKeyImages
  induction images generalizing spent with
  | nil => simp
  | cons image images ih =>
      rw [List.foldl_cons, ih, Table.get_del]
      by_cases hmem : k ∈ images
      · simp [hmem]
      · by_cases hk : k = image <;> simp [hk, hmem]

theorem delKeyImages_addKeyImages {spent : Table KeyImage Unit} {images : List KeyImage}
    (hnew : ∀ image ∈ images, spent.get image = none) :
    delKeyImages (addKeyImages spent images) images = spent := by
  refine Table.ext fun k => ?_
  rw [get_delKeyImages, get_addKeyImages]
  by_cases hmem : k ∈ images
  · rw [if_pos hmem, hnew k hmem]
  · rw [if_neg hmem, if_neg hmem]

/-! ### Transactions -/

/-- The rows of transactions and outputs are numbered the way the writer counts them. -/
structure TxSound (t : MainTables) : Prop where
  txsPruned : t.txsPruned.Dense
  txsPrunable : ∀ k, t.txsPruned.size ≤ k → t.txsPrunable.get k = none
  txsPrunableHash : ∀ k, t.txsPruned.size ≤ k → t.txsPrunableHash.get k = none
  txOutputs : ∀ k, t.txsPruned.size ≤ k → t.txOutputs.get k = none
  outs : OutSound t

theorem txSound_empty : TxSound MainTables.empty := by
  refine ⟨Table.dense_empty, fun _ _ => rfl, fun _ _ => rfl, fun _ _ => rfl, Table.dense_empty, ?_⟩
  intro amount i
  simp [MainTables.empty, MainTables.getNumOutputs, Table.count, Table.empty, Table.get,
    Table.getRow]

/-- The tables of transactions agree. -/
structure SameTxs (t t' : MainTables) : Prop where
  txsPruned : t'.txsPruned = t.txsPruned
  txsPrunable : t'.txsPrunable = t.txsPrunable
  txsPrunableHash : t'.txsPrunableHash = t.txsPrunableHash
  txIndices : t'.txIndices = t.txIndices
  txOutputs : t'.txOutputs = t.txOutputs
  spentKeys : t'.spentKeys = t.spentKeys

theorem addOutputs_sameTxs {txHash : Hash256} {unlockTime height : Nat}
    {outs : List (StoredOutput × TxOut)} {i : Nat} {t t' : MainTables} {indices : List Nat}
    (h : addOutputs txHash unlockTime height i outs t = .ok (indices, t')) : SameTxs t t' := by
  induction outs generalizing i t indices with
  | nil =>
      simp only [addOutputs, Except.ok.injEq, Prod.mk.injEq] at h
      obtain ⟨_, rfl⟩ := h
      exact ⟨rfl, rfl, rfl, rfl, rfl, rfl⟩
  | cons out outs ih =>
      obtain ⟨s, o⟩ := out
      simp only [addOutputs, bind_eq_ok, pure_eq_ok] at h
      obtain ⟨pubkey, _, ⟨rest, t₁⟩, hrest, heq⟩ := h
      cases heq
      obtain ⟨h₁, h₂, h₃, h₄, h₅, h₆⟩ := ih hrest
      exact ⟨h₁, h₂, h₃, h₄, h₅, h₆⟩

section

variable {C : Crypto}

theorem storedOutputs_length {tx : Transaction} {stored : List StoredOutput}
    (h : storedOutputs C tx = .ok stored) : stored.length = tx.txPrefix.vout.length := by
  have hfrom : ∀ (os : List TxOut) (i : Nat) (ss : List StoredOutput),
      storedOutputsFrom C tx i os = .ok ss → ss.length = os.length := by
    intro os
    induction os with
    | nil =>
        intro i ss hss
        simp only [storedOutputsFrom, Except.ok.injEq] at hss
        rw [← hss]
        rfl
    | cons o os ih =>
        intro i ss hss
        simp only [storedOutputsFrom, bind_eq_ok, pure_eq_ok] at hss
        obtain ⟨s, _, rest, hrest, rfl⟩ := hss
        simp [ih (i + 1) rest hrest]
  unfold storedOutputs at h
  split at h
  · rename_i ss hss
    cases h
    exact hfrom _ _ _ hss
  · cases h

/-- The block tables, put into other tables. -/
def MainTables.withBlocks (u t : MainTables) : MainTables :=
  { u with
    blocks := t.blocks, blockInfo := t.blockInfo, blockHeights := t.blockHeights
    hfVersions := t.hfVersions }

/-- What adding a transaction has found on its way. -/
structure AddedTx (C : Crypto) (t : MainTables) (height : Nat) (tx : Transaction) (blob : Blob)
    (txHash : Hash256) (stored : List StoredOutput) (indices : List Nat) (t₁ t' : MainTables) :
    Prop where
  hash : storedTxHash C tx blob = .ok txHash
  fits : tx.unprunableSize ≤ blob.length
  storedOuts : storedOutputs C tx = .ok stored
  outputs : addOutputs txHash tx.txPrefix.unlockTime height 0 (stored.zip tx.txPrefix.vout)
    { t with
      spentKeys := addKeyImages t.spentKeys tx.keyImages
      txsPruned := t.txsPruned.put t.txsPruned.size (blob.take tx.unprunableSize)
      txsPrunable := t.txsPrunable.put t.txsPruned.size (blob.drop tx.unprunableSize)
      txsPrunableHash := addPrunableHash C t.txsPrunableHash t.txsPruned.size tx blob
      txIndices := t.txIndices.add txHash ⟨t.txsPruned.size, tx.txPrefix.unlockTime, height⟩ } =
    .ok (indices, t₁)
  tables : t' = { t₁ with txOutputs := t₁.txOutputs.put t.txsPruned.size indices }

theorem addTransaction_added {t t' : MainTables} {height : Nat} {tx : Transaction} {blob : Blob}
    (h : addTransaction C t height tx blob = .ok t') :
    ∃ txHash stored indices t₁, AddedTx C t height tx blob txHash stored indices t₁ t' := by
  simp only [addTransaction, bind_eq_ok, pure_eq_ok] at h
  obtain ⟨txHash, hhash, halves, hsplit, stored, hstored, ⟨indices, t₁⟩, hout, htables⟩ := h
  unfold splitTxBlob at hsplit
  split_ifs at hsplit with hfits
  cases hsplit
  exact ⟨txHash, stored, indices, t₁, hhash, hfits, hstored, hout, htables.symm⟩

private theorem get_addPrunableHash_of_ne {hashes : Table Nat Hash256} {txId k : Nat}
    {tx : Transaction} {blob : Blob} (hk : k ≠ txId) :
    (addPrunableHash C hashes txId tx blob).get k = hashes.get k := by
  unfold addPrunableHash
  split_ifs
  · split
    · exact Table.get_put_of_ne _ hk _
    · rfl
  · rfl

private theorem del_addPrunableHash {hashes : Table Nat Hash256} {txId : Nat}
    {tx : Transaction} {blob : Blob} (h : hashes.get txId = none) :
    (addPrunableHash C hashes txId tx blob).del txId = hashes := by
  unfold addPrunableHash
  split_ifs
  · split
    · exact Table.del_put_of_get_none h _
    · exact Table.del_of_get_none h
  · exact Table.del_of_get_none h

theorem AddedTx.txSound {t t₁ t' : MainTables} {height : Nat} {tx : Transaction} {blob : Blob}
    {txHash : Hash256} {stored : List StoredOutput} {indices : List Nat}
    (h : AddedTx C t height tx blob txHash stored indices t₁ t') (hs : TxSound t) :
    TxSound t' := by
  obtain ⟨hp, hq, hr, _, ho, _⟩ := addOutputs_sameTxs h.outputs
  obtain ⟨houts, _⟩ := removeOutputs_addOutputs h.outputs ⟨hs.outs.outputTxs, hs.outs.outputAmounts⟩
  have hsize : t'.txsPruned.size = t.txsPruned.size + 1 := by
    rw [h.tables]
    show t₁.txsPruned.size = _
    rw [hp]
    exact Table.size_put_of_get_none hs.txsPruned.get_size _
  refine ⟨?_, ?_, ?_, ?_, ?_⟩
  · rw [h.tables]
    show t₁.txsPruned.Dense
    rw [hp]
    exact hs.txsPruned.put _
  · intro k hk
    rw [hsize] at hk
    rw [h.tables]
    show t₁.txsPrunable.get k = none
    rw [hq]
    exact (Table.get_put_of_ne _ (by omega) _).trans (hs.txsPrunable k (by omega))
  · intro k hk
    rw [hsize] at hk
    rw [h.tables]
    show t₁.txsPrunableHash.get k = none
    rw [hr]
    exact (get_addPrunableHash_of_ne (by omega)).trans (hs.txsPrunableHash k (by omega))
  · intro k hk
    rw [hsize] at hk
    rw [h.tables]
    show (t₁.txOutputs.put _ _).get k = none
    rw [ho]
    exact (Table.get_put_of_ne _ (by omega) _).trans (hs.txOutputs k (by omega))
  · rw [h.tables]
    exact ⟨houts.outputTxs, houts.outputAmounts⟩

private theorem zipIdx_map_getElem? {α β : Type} (l : List α) (is : List β)
    (h : is.length = l.length) :
    (l.zipIdx.map fun p => (p.1, is[p.2]?)) = l.zip (is.map some) := by
  refine List.ext_getElem (by simp [h]) fun n h₁ h₂ => ?_
  simp at h₁ h₂
  simp [h₂.2]

/-- A transaction that the tables are filled alike from. -/
structure StoredAlike (C : Crypto) (tx tx' : Transaction) : Prop where
  outputs : storedOutputs C tx' = storedOutputs C tx
  keyImages : tx'.keyImages = tx.keyImages

theorem StoredAlike.refl (tx : Transaction) : StoredAlike C tx tx := ⟨rfl, rfl⟩

/-- Where the transaction just added is found again. -/
theorem AddedTx.rows {t t₁ t' : MainTables} {height : Nat} {tx : Transaction} {blob : Blob}
    {txHash : Hash256} {stored : List StoredOutput} {indices : List Nat}
    (h : AddedTx C t height tx blob txHash stored indices t₁ t')
    (hnew : t.txIndices.get txHash = none) :
    t'.txIndices.get txHash = some ⟨t.txsPruned.size, tx.txPrefix.unlockTime, height⟩ ∧
      t'.txsPruned.get t.txsPruned.size = some (blob.take tx.unprunableSize) ∧
      t'.txsPrunable.get t.txsPruned.size = some (blob.drop tx.unprunableSize) := by
  obtain ⟨hp, hq, _, hi, _, _⟩ := addOutputs_sameTxs h.outputs
  simp only at hp hq hi
  rw [Table.add_of_get_none hnew] at hi
  rw [h.tables]
  refine ⟨?_, ?_, ?_⟩
  · show t₁.txIndices.get txHash = _
    rw [hi, Table.get_put_self]
  · show t₁.txsPruned.get _ = _
    rw [hp, Table.get_put_self]
  · show t₁.txsPrunable.get _ = _
    rw [hq, Table.get_put_self]

/-- **Transactions.**  Removing the transaction just added gives back what its bytes are parsed as
    and undoes it, if that is stored alike. -/
theorem AddedTx.removed {t t₁ t' : MainTables} {height : Nat} {tx tx' : Transaction} {blob : Blob}
    {txHash : Hash256} {stored : List StoredOutput} {indices : List Nat}
    (h : AddedTx C t height tx blob txHash stored indices t₁ t') (hs : TxSound t)
    (hparse : Transaction.fromBlob blob = .ok tx') (halike : StoredAlike C tx tx')
    (hnew : t.txIndices.get txHash = none)
    (himages : ∀ image ∈ tx.keyImages, t.spentKeys.get image = none) :
    removeTransaction C t' txHash = .ok (tx', t) := by
  obtain ⟨hp, hq, hr, hi, ho, hk⟩ := addOutputs_sameTxs h.outputs
  obtain ⟨_, hlen, hback⟩ :=
    removeOutputs_addOutputs h.outputs ⟨hs.outs.outputTxs, hs.outs.outputAmounts⟩
  have hblocks := addOutputs_sameBlocks h.outputs
  simp only at hp hq hr hi ho hk
  rw [Table.add_of_get_none hnew] at hi
  obtain ⟨hidx, hpruned, hprunable⟩ := h.rows hnew
  have hindices : t'.txOutputs.get t.txsPruned.size = some indices := by
    rw [h.tables]
    exact Table.get_put_self _ _ _
  have hzip : (stored.zip tx.txPrefix.vout).map (·.1) = stored := by
    rw [List.map_fst_zip]
    exact (storedOutputs_length h.storedOuts).le
  have hlen' : indices.length = stored.length := by
    rw [hlen, List.length_zip, storedOutputs_length h.storedOuts, Nat.min_self]
  have hremove : removeOutputs (stored.zipIdx.map fun p => (p.1, indices[p.2]?)) t' =
      .ok (t'.withOutputs t) := by
    rw [zipIdx_map_getElem? stored indices hlen']
    rw [hzip] at hback
    refine hback t' ?_ ?_
    · rw [h.tables]
    · rw [h.tables]
  have hblob : blob.take tx.unprunableSize ++ (some (blob.drop tx.unprunableSize)).getD [] = blob :=
    List.take_append_drop _ _
  simp only [removeTransaction, bind_eq_ok, pure_eq_ok]
  refine ⟨_, orNotFound_eq_ok.mpr hidx, _, orNotFound_eq_ok.mpr hpruned, tx', ?_, indices,
    orNotFound_eq_ok.mpr hindices, stored, halike.outputs.trans h.storedOuts, _, hremove, ?_⟩
  · rw [hprunable, hblob]
    exact parseTransaction_eq_ok.mpr hparse
  · congr 1
    rw [h.tables, halike.keyImages]
    simp only [MainTables.withOutputs, hp, hq, hr, hi, ho, hk, hblocks.blocks, hblocks.blockInfo,
      hblocks.blockHeights, hblocks.hfVersions]
    rw [Table.del_put_of_get_none (hs.txOutputs _ (Nat.le_refl _)), Table.del_put_of_get_none hnew,
      Table.del_put_of_get_none hs.txsPruned.get_size,
      Table.del_put_of_get_none (hs.txsPrunable _ (Nat.le_refl _)),
      del_addPrunableHash (hs.txsPrunableHash _ (Nat.le_refl _)), delKeyImages_addKeyImages himages]

/-- What does not parse from its bytes is not removed, whatever the block tables are. -/
theorem AddedTx.not_removed {t t₁ t' : MainTables} {height : Nat} {tx : Transaction} {blob : Blob}
    {txHash : Hash256} {stored : List StoredOutput} {indices : List Nat} {e : Archive.Error}
    (h : AddedTx C t height tx blob txHash stored indices t₁ t')
    (hparse : Transaction.fromBlob blob = .error e) (hnew : t.txIndices.get txHash = none)
    (b : MainTables) :
    removeTransaction C (t'.withBlocks b) txHash = .error (.wrongLength 0 blob.length) := by
  obtain ⟨hidx, hpruned, hprunable⟩ := h.rows hnew
  have hblob : blob.take tx.unprunableSize ++ (some (blob.drop tx.unprunableSize)).getD [] = blob :=
    List.take_append_drop _ _
  have hfails : parseTransaction blob = .error (.wrongLength 0 blob.length) := by
    unfold parseTransaction
    rw [hparse]
  unfold removeTransaction
  simp only [MainTables.withBlocks, hidx, hpruned, hprunable, MainTables.orNotFound, ok_bind, hblob,
    hfails, error_bind]

theorem AddedTx.txIndices {t t₁ t' : MainTables} {height : Nat} {tx : Transaction} {blob : Blob}
    {txHash : Hash256} {stored : List StoredOutput} {indices : List Nat}
    (h : AddedTx C t height tx blob txHash stored indices t₁ t') :
    t'.txIndices = t.txIndices.add txHash ⟨t.txsPruned.size, tx.txPrefix.unlockTime, height⟩ := by
  rw [h.tables]
  exact (addOutputs_sameTxs h.outputs).txIndices

theorem AddedTx.spentKeys {t t₁ t' : MainTables} {height : Nat} {tx : Transaction} {blob : Blob}
    {txHash : Hash256} {stored : List StoredOutput} {indices : List Nat}
    (h : AddedTx C t height tx blob txHash stored indices t₁ t') :
    t'.spentKeys = addKeyImages t.spentKeys tx.keyImages := by
  rw [h.tables]
  exact (addOutputs_sameTxs h.outputs).spentKeys

/-! ### The block tables do not matter to a removal -/

theorem removeOutput_withBlocks {t t' : MainTables} {amount amountIndex : Nat}
    (h : removeOutput t amount amountIndex = .ok t') (b : MainTables) :
    removeOutput (t.withBlocks b) amount amountIndex = .ok (t'.withBlocks b) := by
  simp only [removeOutput, bind_eq_ok] at h ⊢
  obtain ⟨out, hout, h⟩ := h
  refine ⟨out, hout, ?_⟩
  split_ifs at h with hlast
  have hlast' : ¬out.outputId + 1 ≠ (t.withBlocks b).outputTxs.size := hlast
  rw [if_neg hlast']
  simp only [bind_eq_ok, pure_eq_ok] at h ⊢
  obtain ⟨o, ho, rfl⟩ := h
  exact ⟨o, ho, rfl⟩

theorem removeOutputs_withBlocks {outs : List (StoredOutput × Option Nat)} {t t' : MainTables}
    (h : removeOutputs outs t = .ok t') (b : MainTables) :
    removeOutputs outs (t.withBlocks b) = .ok (t'.withBlocks b) := by
  induction outs generalizing t' with
  | nil =>
      simp only [removeOutputs, Except.ok.injEq] at h ⊢
      rw [h]
  | cons out outs ih =>
      obtain ⟨s, amountIndex⟩ := out
      simp only [removeOutputs, bind_eq_ok] at h ⊢
      obtain ⟨t₁, h₁, i, hi, h₂⟩ := h
      exact ⟨_, ih h₁, i, hi, removeOutput_withBlocks h₂ b⟩

theorem removeTransaction_withBlocks {t t' : MainTables} {txHash : Hash256} {tx : Transaction}
    (h : removeTransaction C t txHash = .ok (tx, t')) (b : MainTables) :
    removeTransaction C (t.withBlocks b) txHash = .ok (tx, t'.withBlocks b) := by
  simp only [removeTransaction, bind_eq_ok, pure_eq_ok] at h ⊢
  obtain ⟨idx, hidx, pruned, hpruned, tx', htx, indices, hindices, stored, hstored, t₁, h₁, heq⟩ := h
  cases heq
  exact ⟨idx, hidx, pruned, hpruned, tx, htx, indices, hindices, stored, hstored, _,
    removeOutputs_withBlocks h₁ b, rfl⟩

theorem removeTransactions_withBlocks {hashes : List Hash256} {t t' : MainTables}
    {txs : List Transaction} (h : removeTransactions C hashes t = .ok (txs, t')) (b : MainTables) :
    removeTransactions C hashes (t.withBlocks b) = .ok (txs, t'.withBlocks b) := by
  induction hashes generalizing t' txs with
  | nil =>
      simp only [removeTransactions, Except.ok.injEq, Prod.mk.injEq] at h ⊢
      exact ⟨h.1, by rw [h.2]⟩
  | cons hash hashes ih =>
      simp only [removeTransactions, bind_eq_ok, pure_eq_ok] at h ⊢
      obtain ⟨⟨rest, t₁⟩, h₁, ⟨tx, t₂⟩, h₂, heq⟩ := h
      cases heq
      exact ⟨_, ih h₁, _, removeTransaction_withBlocks h₂ b, rfl⟩

/-! ### The transactions of a block -/

/-- Transactions that are new to the store, and to one another. -/
structure NewTxs (t : MainTables) (hashes : List Hash256) (txs : List (Transaction × Blob)) :
    Prop where
  unseen : ∀ h ∈ hashes, t.txIndices.get h = none
  nodup : hashes.Nodup
  images : ∀ p ∈ txs, ∀ image ∈ p.1.keyImages, t.spentKeys.get image = none
  apart : txs.Pairwise fun p q => ∀ image ∈ q.1.keyImages, image ∉ p.1.keyImages

/-- Transactions as the store needs them to find its way back: each parses from its bytes, and
    has the hash it is listed under. -/
structure ListedAs (C : Crypto) (hashes : List Hash256) (txs : List (Transaction × Blob)) :
    Prop where
  parses : ∀ p ∈ txs, Transaction.fromBlob p.2 = .ok p.1
  named : txs.map (fun p => storedTxHash C p.1 p.2) = hashes.map .ok

theorem get_txIndices_add_of_ne {indices : Table Hash256 TxIndex} {h h' : Hash256} {idx : TxIndex}
    (hne : h' ≠ h) : (indices.add h idx).get h' = indices.get h' := by
  unfold Table.add
  split_ifs
  · rfl
  · exact Table.get_put_of_ne _ hne _

theorem NewTxs.tail {t t₁ t' : MainTables} {height : Nat} {tx : Transaction} {blob : Blob}
    {hash : Hash256} {hashes : List Hash256} {txs : List (Transaction × Blob)}
    {stored : List StoredOutput} {indices : List Nat}
    (hnew : NewTxs t (hash :: hashes) ((tx, blob) :: txs))
    (h : AddedTx C t height tx blob hash stored indices t₁ t') : NewTxs t' hashes txs := by
  obtain ⟨hhash, hnodup⟩ := List.nodup_cons.mp hnew.nodup
  obtain ⟨hapart, happarts⟩ := List.pairwise_cons.mp hnew.apart
  refine ⟨?_, hnodup, ?_, happarts⟩
  · intro h' hmem
    rw [h.txIndices, get_txIndices_add_of_ne]
    · exact hnew.unseen h' (List.mem_cons_of_mem _ hmem)
    · rintro rfl
      exact hhash hmem
  · intro p hp image himage
    rw [h.spentKeys, get_addKeyImages, if_neg (hapart p hp image himage)]
    exact hnew.images p (List.mem_cons_of_mem _ hp) image himage

/-- Removing the transactions of a block, last first, undoes adding them. -/
theorem removeTransactions_addTransactions {height : Nat} {txs : List (Transaction × Blob)}
    {hashes : List Hash256} {t t' : MainTables} (hadd : addTransactions C height txs t = .ok t')
    (hs : TxSound t) (hlisted : ListedAs C hashes txs) (hnew : NewTxs t hashes txs) :
    TxSound t' ∧ removeTransactions C hashes t' = .ok (txs.map (·.1), t) := by
  induction txs generalizing t hashes with
  | nil =>
      have hnil : hashes = [] := List.map_eq_nil_iff.mp hlisted.named.symm
      subst hnil
      simp only [addTransactions, Except.ok.injEq] at hadd
      subst hadd
      exact ⟨hs, rfl⟩
  | cons p txs ih =>
      obtain ⟨tx, blob⟩ := p
      cases hashes with
      | nil => exact absurd hlisted.named (by simp)
      | cons hash hashes =>
          simp only [addTransactions, bind_eq_ok] at hadd
          obtain ⟨t₁, h₁, h₂⟩ := hadd
          obtain ⟨txHash, stored, indices, t₀, hadded⟩ := addTransaction_added h₁
          obtain ⟨hhead, htail⟩ := List.cons.inj hlisted.named
          have heq : txHash = hash := by
            have hboth := hadded.hash.symm.trans hhead
            exact Except.ok.inj hboth
          subst heq
          have hlisted' : ListedAs C hashes txs :=
            ⟨fun p hp => hlisted.parses p (List.mem_cons_of_mem _ hp), htail⟩
          obtain ⟨hs', hback⟩ := ih h₂ (hadded.txSound hs) hlisted' (hnew.tail hadded)
          have hremoved : removeTransaction C t₁ txHash = .ok (tx, t) :=
            hadded.removed hs (hlisted.parses (tx, blob) List.mem_cons_self) (.refl tx)
              (hnew.unseen txHash List.mem_cons_self)
              (hnew.images (tx, blob) List.mem_cons_self)
          refine ⟨hs', ?_⟩
          simp only [removeTransactions, bind_eq_ok, pure_eq_ok]
          exact ⟨_, hback, _, hremoved, rfl⟩

/-! ### Blocks -/

/-- The tables are numbered throughout. -/
structure Sound (t : MainTables) : Prop where
  numbered : t.Numbered
  txs : TxSound t
  hfVersions : ∀ k, t.height ≤ k → t.hfVersions.get k = none

theorem sound_empty : Sound MainTables.empty :=
  ⟨MainTables.numbered_empty, txSound_empty, fun _ _ => rfl⟩

/-- A block whose bytes and transactions the store can find its way back from. -/
structure Retrievable (C : Crypto) (blk : Block) (blob : Blob) (txs : List (Transaction × Blob)) :
    Prop where
  parses : Block.fromBlob blob = .ok blk
  minerParses : Transaction.fromBlob blk.minerTx.write = .ok blk.minerTx
  listed : ListedAs C blk.txHashes txs

/-- A block that brings nothing the store has already. -/
structure NewBlock (C : Crypto) (t : MainTables) (blk : Block) (txs : List (Transaction × Blob)) :
    Prop where
  id : ∀ id, blk.blockId C.cnFastHash = some id → t.blockHeights.get id = none
  miner : ∀ h, storedTxHash C blk.minerTx blk.minerTx.write = .ok h →
    t.txIndices.get h = none ∧ h ∉ blk.txHashes
  minerImages : blk.minerTx.keyImages = []
  txs : NewTxs t blk.txHashes txs

theorem storedTxHash_eq_ok {tx : Transaction} {blob : Blob} {h : Hash256} :
    storedTxHash C tx blob = .ok h ↔ transactionHashFromBlob C.cnFastHash tx blob = some h := by
  unfold storedTxHash
  cases transactionHashFromBlob C.cnFastHash tx blob <;> simp

/-- What adding a block has found on its way. -/
theorem addBlock_steps {t t' : MainTables} {blk : Block} {blob : Blob}
    {weight longTermWeight cumulativeDifficulty coins : Nat} {txs : List (Transaction × Blob)}
    (h : t.addBlock C blk blob weight longTermWeight cumulativeDifficulty coins txs = .ok t') :
    ∃ info t₁ t₂, blk.blockId C.cnFastHash = some info.hash ∧
      addTransaction C t t.height blk.minerTx blk.minerTx.write = .ok t₁ ∧
      addTransactions C t.height txs t₁ = .ok t₂ ∧
      t' = { t₂ with
        blocks := t₂.blocks.put t.height blob
        blockInfo := t₂.blockInfo.add t.height info
        blockHeights := t₂.blockHeights.add info.hash t.height
        hfVersions := t₂.hfVersions.put t.height blk.header.majorVersion } := by
  simp only [MainTables.addBlock, bind_eq_ok, pure_eq_ok, orNotFound_eq_ok] at h
  obtain ⟨hash, hhash, previous, _, t₁, h₁, t₂, h₂, rfl⟩ := h
  exact ⟨⟨t.height, blk.header.timestamp, coins, weight, cumulativeDifficulty, hash,
    cumulativeRctOutputs t.height blk txs previous, longTermWeight⟩, t₁, t₂, hhash, h₁, h₂, rfl⟩

/-- The transactions of a block, when none brings what the store has already and no two bring the
    same. -/
structure NewTransactions (C : Crypto) (t : MainTables) (blk : Block)
    (txs : List (Transaction × Blob)) : Prop where
  miner : ∀ h, storedTxHash C blk.minerTx blk.minerTx.write = .ok h →
    t.txIndices.get h = none ∧ h ∉ blk.txHashes
  minerImages : ∀ image ∈ blk.minerTx.keyImages,
    t.spentKeys.get image = none ∧ ∀ p ∈ txs, image ∉ p.1.keyImages
  txs : NewTxs t blk.txHashes txs

theorem NewBlock.transactions {t : MainTables} {blk : Block} {txs : List (Transaction × Blob)}
    (h : NewBlock C t blk txs) : NewTransactions C t blk txs := by
  refine ⟨h.miner, ?_, h.txs⟩
  rw [h.minerImages]
  intro image himage
  cases himage

/-- What popping a block just added meets: its own rows, and under them its transactions, which can
    be removed down to the coinbase. -/
structure AddedWhole (C : Crypto) (t : MainTables) (blk : Block) (blob : Blob)
    (txs : List (Transaction × Blob)) (info : BlockInfo) (minerHash : Hash256) (t₁ t' : MainTables) :
    Prop where
  id : blk.blockId C.cnFastHash = some info.hash
  sound : Sound t'
  height : t'.height = t.height + 1
  blocks : t'.blocks = t.blocks.put t.height blob
  blockInfo : t'.blockInfo = t.blockInfo.put t.height info
  blockHeights : t'.blockHeights = t.blockHeights.add info.hash t.height
  hfVersions : t'.hfVersions = t.hfVersions.put t.height blk.header.majorVersion
  fresh : t.txIndices.get minerHash = none
  miner : ∃ stored indices t₀,
    AddedTx C t t.height blk.minerTx blk.minerTx.write minerHash stored indices t₀ t₁
  undone : removeTransactions C blk.txHashes t' = .ok (txs.map (·.1), t₁.withBlocks t')

theorem addBlock_addedWhole {t t' : MainTables} {blk : Block} {blob : Blob}
    {weight longTermWeight cumulativeDifficulty coins : Nat} {txs : List (Transaction × Blob)}
    (h : t.addBlock C blk blob weight longTermWeight cumulativeDifficulty coins txs = .ok t')
    (hs : Sound t) (hlisted : ListedAs C blk.txHashes txs) (hnew : NewTransactions C t blk txs) :
    ∃ info minerHash t₁, AddedWhole C t blk blob txs info minerHash t₁ t' := by
  obtain ⟨info₀, hinfo₀, _⟩ := addBlock_added h
  have hnum := hinfo₀.numbered hs.numbered
  have hheight := hinfo₀.height_eq hs.numbered
  obtain ⟨info, t₁, t₂, hid, h₁, h₂, htables⟩ := addBlock_steps h
  obtain ⟨minerHash, stored, indices, t₀, hminer⟩ := addTransaction_added h₁
  obtain ⟨hfresh, hnotin⟩ := hnew.miner minerHash hminer.hash
  have hnew₁ : NewTxs t₁ blk.txHashes txs := by
    refine ⟨?_, hnew.txs.nodup, ?_, hnew.txs.apart⟩
    · intro h' hmem
      rw [hminer.txIndices, get_txIndices_add_of_ne]
      · exact hnew.txs.unseen h' hmem
      · rintro rfl
        exact hnotin hmem
    · intro p hp image himage
      rw [hminer.spentKeys, get_addKeyImages, if_neg]
      · exact hnew.txs.images p hp image himage
      · intro hin
        exact (hnew.minerImages image hin).2 p hp himage
  obtain ⟨hs₂, hback⟩ :=
    removeTransactions_addTransactions h₂ (hminer.txSound hs.txs) hlisted hnew₁
  have hsame := (addTransaction_sameBlocks h₁).trans (addTransactions_sameBlocks h₂)
  have hinfoFree : t.blockInfo.get t.height = none := by
    rw [MainTables.height, ← hs.numbered.same]
    exact hs.numbered.blockInfo.get_size
  have hv : t'.hfVersions = t.hfVersions.put t.height blk.header.majorVersion := by
    rw [htables, hsame.hfVersions]
  have hwith : t' = t₂.withBlocks t' := by
    rw [htables]
    rfl
  refine ⟨info, minerHash, t₁, ⟨hid, ⟨hnum, ?_, ?_⟩, hheight, by rw [htables, hsame.blocks],
    by rw [htables, hsame.blockInfo, Table.add_of_get_none hinfoFree],
    by rw [htables, hsame.blockHeights], hv, hfresh, ⟨stored, indices, t₀, hminer⟩, ?_⟩⟩
  · rw [htables]
    exact ⟨hs₂.txsPruned, hs₂.txsPrunable, hs₂.txsPrunableHash, hs₂.txOutputs,
      hs₂.outs.outputTxs, hs₂.outs.outputAmounts⟩
  · intro k hk
    rw [hheight] at hk
    rw [hv, Table.get_put_of_ne _ (by omega)]
    exact hs.hfVersions k (by omega)
  · rw [hwith]
    exact removeTransactions_withBlocks hback _

/-- The tables with other heights of blocks by id. -/
def MainTables.withHeights (t : MainTables) (heights : Table Hash256 Nat) : MainTables :=
  { t with blockHeights := heights }

section AddedWhole

variable {t t₁ t' : MainTables} {blk : Block} {blob : Blob} {txs : List (Transaction × Blob)}
  {info : BlockInfo} {minerHash : Hash256}

/-- Popping comes down to the coinbase, whatever the heights by id have become. -/
theorem AddedWhole.popBlock_eq (h : AddedWhole C t blk blob txs info minerHash t₁ t')
    (hparse : Block.fromBlob blob = .ok blk) (heights : Table Hash256 Nat) :
    (t'.withHeights heights).popBlock C =
      (do
        let miner ← removeTransaction C (t₁.withBlocks (t'.withHeights heights)) minerHash
        let tip ← miner.2.getBlockInfo t.height
        return ((blk, txs.map (·.1)), { miner.2 with
          blockInfo := miner.2.blockInfo.del t.height
          blockHeights := miner.2.blockHeights.del tip.hash
          blocks := miner.2.blocks.del t.height
          hfVersions := miner.2.hfVersions.del t.height })) := by
  obtain ⟨stored, indices, t₀, hminer⟩ := h.miner
  have hheight : (t'.withHeights heights).height = t.height + 1 := h.height
  have hblob : (t'.withHeights heights).blocks.get t.height = some blob := by
    show t'.blocks.get t.height = some blob
    rw [h.blocks, Table.get_put_self]
  have hback : removeTransactions C blk.txHashes (t'.withHeights heights) =
      .ok (txs.map (·.1), t₁.withBlocks (t'.withHeights heights)) :=
    removeTransactions_withBlocks h.undone (t'.withHeights heights)
  rw [MainTables.popBlock, if_neg (by omega), hheight, Nat.add_sub_cancel]
  simp only [hblob, MainTables.orNotFound, ok_bind, parseBlock_eq_ok.mpr hparse, hback,
    storedTxHash_eq_ok.mp hminer.hash]

/-- **Blocks.**  Where the coinbase parses from the bytes it was stored as, popping the block just
    added gives back the block and its transactions, and the store is what it was. -/
theorem AddedWhole.popped (h : AddedWhole C t blk blob txs info minerHash t₁ t') (hs : Sound t)
    (hparse : Block.fromBlob blob = .ok blk) (hnew : NewTransactions C t blk txs) {tx' : Transaction}
    (hminer : Transaction.fromBlob blk.minerTx.write = .ok tx') (halike : StoredAlike C blk.minerTx tx')
    (heights : Table Hash256 Nat) :
    (t'.withHeights heights).popBlock C =
      .ok ((blk, txs.map (·.1)), t.withHeights (heights.del info.hash)) := by
  obtain ⟨stored, indices, t₀, hadded⟩ := h.miner
  have hremoved := hadded.removed hs.txs hminer halike h.fresh
    fun image himage => (hnew.minerImages image himage).1
  have hinfo : (t.withBlocks (t'.withHeights heights)).getBlockInfo t.height = .ok info := by
    rw [MainTables.getBlockInfo, orNotFound_eq_ok]
    show t'.blockInfo.get t.height = some info
    rw [h.blockInfo, Table.get_put_self]
  have hinfoFree : t.blockInfo.get t.height = none := by
    rw [MainTables.height, ← hs.numbered.same]
    exact hs.numbered.blockInfo.get_size
  have hblockFree : t.blocks.get t.height = none := hs.numbered.blocks.get_size
  rw [h.popBlock_eq hparse, removeTransaction_withBlocks hremoved, ok_bind]
  simp only [hinfo, ok_bind]
  simp only [MainTables.withBlocks, MainTables.withHeights, h.blocks, h.blockInfo, h.hfVersions]
  rw [Table.del_put_of_get_none hinfoFree, Table.del_put_of_get_none hblockFree,
    Table.del_put_of_get_none (hs.hfVersions _ (Nat.le_refl _))]
  rfl

/-- Where it does not, the block is not popped. -/
theorem AddedWhole.not_popped (h : AddedWhole C t blk blob txs info minerHash t₁ t')
    (hparse : Block.fromBlob blob = .ok blk) {e : Archive.Error}
    (hminer : Transaction.fromBlob blk.minerTx.write = .error e) (heights : Table Hash256 Nat) :
    (t'.withHeights heights).popBlock C = .error (.wrongLength 0 blk.minerTx.write.length) := by
  obtain ⟨stored, indices, t₀, hadded⟩ := h.miner
  rw [h.popBlock_eq hparse, hadded.not_removed hminer h.fresh, error_bind]

end AddedWhole

/-- Popping the block just added gives back the block and its transactions, and the store is what
    it was. -/
theorem popBlock_addBlock {t t' : MainTables} {blk : Block} {blob : Blob}
    {weight longTermWeight cumulativeDifficulty coins : Nat} {txs : List (Transaction × Blob)}
    (h : t.addBlock C blk blob weight longTermWeight cumulativeDifficulty coins txs = .ok t')
    (hs : Sound t) (hretr : Retrievable C blk blob txs) (hnew : NewBlock C t blk txs) :
    Sound t' ∧ t'.popBlock C = .ok ((blk, txs.map (·.1)), t) := by
  obtain ⟨info, minerHash, t₁, hadded⟩ := addBlock_addedWhole h hs hretr.listed hnew.transactions
  refine ⟨hadded.sound, ?_⟩
  have hpop := hadded.popped hs hretr.parses hnew.transactions hretr.minerParses (.refl _) t'.blockHeights
  rw [hadded.blockHeights, Table.add_of_get_none (hnew.id _ hadded.id),
    Table.del_put_of_get_none (hnew.id _ hadded.id)] at hpop
  rw [← Table.add_of_get_none (hnew.id _ hadded.id), ← hadded.blockHeights] at hpop
  exact hpop

end

end Wownero
