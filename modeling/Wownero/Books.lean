import Wownero.Stepwise
/-!
# The books of a chain

A store that was written by blocks, one after another, each new to the store it was written to,
holds exactly what the blocks brought: their transactions under the ids they list, their
coinbases, and the key images they spend.  Nothing here depends on the caches, so that the books
also stand when an operation fails half-way.

The blocks are asked to come back from the store as they went in.
-/

namespace Wownero

open Outcome

section

variable {C : Crypto}

/-! ### Filing transactions -/

/-- Every indexed transaction has its rows. -/
def Indexed (t : MainTables) : Prop :=
  ∀ hash idx, t.txIndices.get hash = some idx → idx.txId < t.txsPruned.size

/-- What filing transactions under these ids does to a store. -/
structure Files (hashes : List Hash256) (txs : List (Transaction × Blob)) (t t' : MainTables) :
    Prop where
  indices : ∀ hash, (t'.txIndices.get hash).isSome ↔
    (t.txIndices.get hash).isSome ∨ hash ∈ hashes
  spent : ∀ image, (t'.spentKeys.get image).isSome ↔
    (t.spentKeys.get image).isSome ∨ ∃ p ∈ txs, image ∈ p.1.keyImages
  indexed : Indexed t'
  kept : ∀ hash, (t.txIndices.get hash).isSome → t'.getTxBlob hash = t.getTxBlob hash
  filed : ∀ x ∈ hashes.zip txs, t'.getTxBlob x.1 = .ok x.2.2

theorem getTxBlob_congr {t t' : MainTables} {hash : Hash256} {idx : TxIndex}
    (hidx : t.txIndices.get hash = some idx) (hidx' : t'.txIndices.get hash = some idx)
    (hpruned : t'.txsPruned.get idx.txId = t.txsPruned.get idx.txId)
    (hprunable : t'.txsPrunable.get idx.txId = t.txsPrunable.get idx.txId) :
    t'.getTxBlob hash = t.getTxBlob hash := by
  rw [MainTables.getTxBlob, MainTables.getTxBlob, hidx, hidx']
  show (MainTables.orNotFound (t'.txsPruned.get idx.txId) >>= _) =
    (MainTables.orNotFound (t.txsPruned.get idx.txId) >>= _)
  rw [hpruned, hprunable]

/-- One transaction. -/
theorem AddedTx.files {t t₁ t' : MainTables} {height : Nat} {tx : Transaction} {blob : Blob}
    {hash : Hash256} {stored : List StoredOutput} {indices : List Nat}
    (h : AddedTx C t height tx blob hash stored indices t₁ t') (hs : TxSound t) (hi : Indexed t)
    (hfresh : t.txIndices.get hash = none) : Files [hash] [(tx, blob)] t t' := by
  have hsame := addOutputs_sameTxs h.outputs
  have hpruned : t'.txsPruned =
      t.txsPruned.put t.txsPruned.size (blob.take tx.unprunableSize) := by
    rw [h.tables]
    exact hsame.txsPruned
  have hprunable : t'.txsPrunable =
      t.txsPrunable.put t.txsPruned.size (blob.drop tx.unprunableSize) := by
    rw [h.tables]
    exact hsame.txsPrunable
  have hget : ∀ hash', t'.txIndices.get hash' = if hash' = hash
      then some ⟨t.txsPruned.size, tx.txPrefix.unlockTime, height⟩
      else t.txIndices.get hash' := by
    intro hash'
    rw [h.txIndices, Table.add_of_get_none hfresh, Table.get_put]
  have hsize : t'.txsPruned.size = t.txsPruned.size + 1 := by
    rw [hpruned]
    exact Table.size_put_of_get_none hs.txsPruned.get_size _
  refine ⟨?_, ?_, ?_, ?_, ?_⟩
  · intro hash'
    rw [hget hash']
    split_ifs with heq
    · simp [heq]
    · simp [heq]
  · intro image
    rw [h.spentKeys, get_addKeyImages]
    split_ifs with himage
    · simp [himage]
    · simp [himage]
  · intro hash' idx hidx
    rw [hget hash'] at hidx
    split_ifs at hidx with heq
    · cases hidx
      rw [hsize]
      exact Nat.lt_succ_self _
    · have := hi hash' idx hidx
      omega
  · intro hash' hsome
    obtain ⟨idx, hidx⟩ := Option.isSome_iff_exists.mp hsome
    have hne : hash' ≠ hash := by
      rintro rfl
      rw [hfresh] at hidx
      cases hidx
    have hlt := hi hash' idx hidx
    refine getTxBlob_congr hidx (by rw [hget, if_neg hne]; exact hidx) ?_ ?_
    · rw [hpruned, Table.get_put_of_ne _ (by omega)]
    · rw [hprunable, Table.get_put_of_ne _ (by omega)]
  · intro x hx
    rw [List.zip_cons_cons, List.zip_nil_left, List.mem_singleton] at hx
    subst hx
    rw [MainTables.getTxBlob, hget, if_pos rfl, hpruned, hprunable]
    simp only [bind_eq_ok, pure_eq_ok, orNotFound_eq_ok]
    refine ⟨_, rfl, _, Table.get_put_self _ _ _, ?_⟩
    rw [Table.get_put_self, Option.getD_some, List.take_append_drop]

theorem Files.nil {t : MainTables} (hi : Indexed t) : Files [] [] t t := by
  refine ⟨?_, ?_, hi, fun _ _ => rfl, ?_⟩
  · simp
  · simp
  · intro x hx
    cases hx

theorem Files.append {hashes hashes' : List Hash256} {txs txs' : List (Transaction × Blob)}
    {t t₁ t' : MainTables} (hlen : hashes.length = txs.length) (h : Files hashes txs t t₁)
    (h' : Files hashes' txs' t₁ t') : Files (hashes ++ hashes') (txs ++ txs') t t' := by
  refine ⟨?_, ?_, h'.indexed, ?_, ?_⟩
  · intro hash
    rw [h'.indices, h.indices, List.mem_append, or_assoc]
  · intro image
    rw [h'.spent, h.spent, or_assoc]
    refine or_congr_right ?_
    constructor
    · rintro (⟨p, hp, himage⟩ | ⟨p, hp, himage⟩)
      · exact ⟨p, List.mem_append_left _ hp, himage⟩
      · exact ⟨p, List.mem_append_right _ hp, himage⟩
    · rintro ⟨p, hp, himage⟩
      exact (List.mem_append.mp hp).imp (fun hp => ⟨p, hp, himage⟩) fun hp => ⟨p, hp, himage⟩
  · intro hash hsome
    rw [h'.kept hash ((h.indices hash).mpr (Or.inl hsome)), h.kept hash hsome]
  · intro x hx
    rw [List.zip_append hlen] at hx
    rcases List.mem_append.mp hx with hx | hx
    · rw [h'.kept x.1 ((h.indices x.1).mpr (Or.inr (List.of_mem_zip hx).1))]
      exact h.filed x hx
    · exact h'.filed x hx

/-- A list of transactions, new to the store and to one another. -/
theorem addTransactions_files {height : Nat} {txs : List (Transaction × Blob)}
    {hashes : List Hash256} {t t' : MainTables} (hadd : addTransactions C height txs t = .ok t')
    (hs : TxSound t) (hi : Indexed t) (hlisted : ListedAs C hashes txs)
    (hnew : NewTxs t hashes txs) : Files hashes txs t t' := by
  induction txs generalizing t hashes with
  | nil =>
      have hnil : hashes = [] := List.map_eq_nil_iff.mp hlisted.named.symm
      simp only [addTransactions, Except.ok.injEq] at hadd
      subst hadd hnil
      exact .nil hi
  | cons p txs ih =>
      obtain ⟨tx, blob⟩ := p
      cases hashes with
      | nil => exact absurd hlisted.named (by simp)
      | cons hash hashes =>
          simp only [addTransactions, bind_eq_ok] at hadd
          obtain ⟨t₁, h₁, h₂⟩ := hadd
          obtain ⟨txHash, stored, indices, t₀, hadded⟩ := addTransaction_added h₁
          obtain ⟨hhead, htail⟩ := List.cons.inj hlisted.named
          have heq : txHash = hash := Except.ok.inj (hadded.hash.symm.trans hhead)
          subst heq
          have hlisted' : ListedAs C hashes txs :=
            ⟨fun p hp => hlisted.parses p (List.mem_cons_of_mem _ hp), htail⟩
          have hone := hadded.files hs hi (hnew.unseen _ List.mem_cons_self)
          exact hone.append rfl
            (ih h₂ (hadded.txSound hs) hone.indexed hlisted' (hnew.tail hadded))

/-! ### Writing blocks -/

/-- The block comes back from the store as it went in. -/
structure Handed.Faithful (C : Crypto) (b : Handed) : Prop where
  retrievable : Retrievable C b.blk b.blob b.txs
  rewritten : Block.fromBlob b.blk.toBlob = .ok b.blk
  txsWrite : ∀ p ∈ b.txs, p.1.write = p.2

instance (C : Crypto) (b : Handed) : Decidable (b.Faithful C) :=
  decidable_of_iff
    ((Block.fromBlob b.blob = .ok b.blk ∧
        Transaction.fromBlob b.blk.minerTx.write = .ok b.blk.minerTx ∧
        (∀ p ∈ b.txs, Transaction.fromBlob p.2 = .ok p.1) ∧
        b.txs.map (fun p => storedTxHash C p.1 p.2) = b.blk.txHashes.map .ok) ∧
      Block.fromBlob b.blk.toBlob = .ok b.blk ∧ ∀ p ∈ b.txs, p.1.write = p.2)
    ⟨fun ⟨⟨h₁, h₂, h₃, h₄⟩, h₅, h₆⟩ => ⟨⟨h₁, h₂, h₃, h₄⟩, h₅, h₆⟩,
      fun ⟨⟨h₁, h₂, h₃, h₄⟩, h₅, h₆⟩ => ⟨⟨h₁, h₂, h₃, h₄⟩, h₅, h₆⟩⟩

theorem withBlob_eq {tx : Transaction} {blob : Blob} (hwrite : tx.write = blob)
    (hparse : Transaction.fromBlob blob = .ok tx) : withBlob tx = (tx, blob) := by
  rw [withBlob, hwrite, hparse]

theorem Handed.Faithful.withBlob_txs {b : Handed} (h : b.Faithful C) :
    (b.txs.map (·.1)).map withBlob = b.txs := by
  rw [List.map_map]
  refine (List.map_congr_left fun p hp => ?_).trans (List.map_id _)
  exact withBlob_eq (h.txsWrite p hp) (h.retrievable.listed.parses p hp)

/-- The same block under its own bytes. -/
theorem Handed.Faithful.own {b : Handed} (h : b.Faithful C) :
    (⟨b.blk, b.blk.toBlob, b.txs⟩ : Handed).Faithful C :=
  ⟨⟨h.rewritten, h.retrievable.minerParses, h.retrievable.listed⟩, h.rewritten, h.txsWrite⟩

theorem ListedAs.length_eq {hashes : List Hash256} {txs : List (Transaction × Blob)}
    (h : ListedAs C hashes txs) : hashes.length = txs.length := by
  have hlen := congrArg List.length h.named
  rw [List.length_map, List.length_map] at hlen
  exact hlen.symm

/-- A block was written to one store and left another. -/
structure Booked (C : Crypto) (t : MainTables) (b : Handed) (t' : MainTables) : Prop where
  faithful : b.Faithful C
  new : NewBlock C t b.blk b.txs
  images : ∀ p ∈ b.txs, p.1.keyImages.Nodup
  genHeight : genHeight b.blk.minerTx = some t.height
  written : ∃ weight longTermWeight cumulativeDifficulty coins,
    t.addBlock C b.blk b.blob weight longTermWeight cumulativeDifficulty coins b.txs = .ok t'

variable {t t' : MainTables} {b : Handed}

theorem Booked.popped (h : Booked C t b t') (hs : Sound t) :
    Sound t' ∧ t'.popBlock C = .ok ((b.blk, b.txs.map (·.1)), t) := by
  obtain ⟨weight, longTermWeight, cumulativeDifficulty, coins, hadd⟩ := h.written
  exact popBlock_addBlock hadd hs h.faithful.retrievable h.new

theorem Booked.added (h : Booked C t b t') : ∃ info, AddedBlock C t b.blk b.blob info t' := by
  obtain ⟨weight, longTermWeight, cumulativeDifficulty, coins, hadd⟩ := h.written
  obtain ⟨info, hadded, _⟩ := addBlock_added hadd
  exact ⟨info, hadded⟩

/-- The transactions of the block were written one after another, the coinbase first. -/
theorem Booked.steps (h : Booked C t b t') :
    ∃ info minerHash stored indices t₀ t₁ t₂,
      AddedTx C t t.height b.blk.minerTx b.blk.minerTx.write minerHash stored indices t₀ t₁ ∧
      t.txIndices.get minerHash = none ∧ NewTxs t₁ b.blk.txHashes b.txs ∧
      addTransactions C t.height b.txs t₁ = .ok t₂ ∧
      t' = { t₂ with
        blocks := t₂.blocks.put t.height b.blob
        blockInfo := t₂.blockInfo.add t.height info
        blockHeights := t₂.blockHeights.add info.hash t.height
        hfVersions := t₂.hfVersions.put t.height b.blk.header.majorVersion } := by
  obtain ⟨weight, longTermWeight, cumulativeDifficulty, coins, hadd⟩ := h.written
  obtain ⟨info, t₁, t₂, _, h₁, h₂, htables⟩ := addBlock_steps hadd
  obtain ⟨minerHash, stored, indices, t₀, hminer⟩ := addTransaction_added h₁
  obtain ⟨hfresh, hnotin⟩ := h.new.miner minerHash hminer.hash
  refine ⟨info, minerHash, stored, indices, t₀, t₁, t₂, hminer, hfresh, ?_, h₂, htables⟩
  refine ⟨?_, h.new.txs.nodup, ?_, h.new.txs.apart⟩
  · intro hash hmem
    rw [hminer.txIndices, get_txIndices_add_of_ne]
    · exact h.new.txs.unseen hash hmem
    · rintro rfl
      exact hnotin hmem
  · intro p hp image himage
    rw [hminer.spentKeys, h.new.minerImages]
    exact h.new.txs.images p hp image himage

/-- The hash of the coinbase and the ids of the transactions, all filed. -/
theorem Booked.files (h : Booked C t b t') (hs : Sound t) (hi : Indexed t) :
    ∃ minerHash, b.minerHash C = .ok minerHash ∧
      Files (minerHash :: b.blk.txHashes) ((b.blk.minerTx, b.blk.minerTx.write) :: b.txs) t t' := by
  obtain ⟨info, minerHash, stored, indices, t₀, t₁, t₂, hminer, hfresh, hnew, h₂, htables⟩ := h.steps
  have hone := hminer.files hs.txs hi hfresh
  have hall := hone.append rfl (addTransactions_files h₂ (hminer.txSound hs.txs) hone.indexed
    h.faithful.retrievable.listed hnew)
  refine ⟨minerHash, hminer.hash, ?_⟩
  rw [htables]
  exact ⟨hall.indices, hall.spent, hall.indexed, hall.kept, hall.filed⟩

/-! ### Books -/

/-- A store was written by these blocks, oldest first. -/
inductive Books (C : Crypto) : List Handed → MainTables → Prop
  | empty : Books C [] MainTables.empty
  | block {blocks : List Handed} {t t' : MainTables} {b : Handed}
      (older : Books C blocks t) (booked : Booked C t b t') : Books C (blocks ++ [b]) t'

variable {blocks : List Handed}

theorem Books.sound (h : Books C blocks t) : Sound t := by
  induction h with
  | empty => exact sound_empty
  | block _ booked ih => exact (booked.popped ih).1

theorem Books.length_eq (h : Books C blocks t) : t.height = blocks.length := by
  induction h with
  | empty => rfl
  | block older booked ih =>
      obtain ⟨info, hadded⟩ := booked.added
      rw [hadded.height_eq older.sound.numbered, ih, List.length_append, List.length_singleton]

theorem Books.indexed (h : Books C blocks t) : Indexed t := by
  induction h with
  | empty =>
      intro hash idx hidx
      cases hidx
  | block older booked ih =>
      obtain ⟨minerHash, _, hfiles⟩ := booked.files older.sound ih
      exact hfiles.indexed

theorem Books.faithful (h : Books C blocks t) : ∀ b ∈ blocks, b.Faithful C := by
  induction h with
  | empty => exact List.forall_mem_nil _
  | block _ booked ih => exact List.forall_mem_append.mpr ⟨ih, by simpa using booked.faithful⟩

/-- Coinbases claim heights below. -/
theorem Books.genHeights (h : Books C blocks t) :
    ∀ b ∈ blocks, ∃ k, k < t.height ∧ genHeight b.blk.minerTx = some k := by
  induction h with
  | empty => exact List.forall_mem_nil _
  | block older booked ih =>
      obtain ⟨info, hadded⟩ := booked.added
      have hheight := hadded.height_eq older.sound.numbered
      refine List.forall_mem_append.mpr ⟨?_, ?_⟩
      · intro b hb
        obtain ⟨k, hk, hgen⟩ := ih b hb
        exact ⟨k, by omega, hgen⟩
      · intro b hb
        rw [List.mem_singleton.mp hb]
        exact ⟨_, by omega, booked.genHeight⟩

/-- **What is indexed**: the ids the blocks list, and their coinbases. -/
theorem Books.indices (h : Books C blocks t) (hash : Hash256) :
    (t.txIndices.get hash).isSome ↔
      ∃ b ∈ blocks, hash ∈ b.blk.txHashes ∨ b.minerHash C = .ok hash := by
  induction h with
  | empty => simp [MainTables.empty]
  | @block blocks t t' b older booked ih =>
      obtain ⟨minerHash, hminer, hfiles⟩ := booked.files older.sound older.indexed
      rw [hfiles.indices, ih, List.mem_cons]
      constructor
      · rintro (⟨b', hb', hhash⟩ | rfl | hlisted)
        · exact ⟨b', List.mem_append_left _ hb', hhash⟩
        · exact ⟨b, by simp, Or.inr hminer⟩
        · exact ⟨b, by simp, Or.inl hlisted⟩
      · rintro ⟨b', hb', hhash⟩
        rcases List.mem_append.mp hb' with hb' | hb'
        · exact Or.inl ⟨b', hb', hhash⟩
        · rw [List.mem_singleton.mp hb'] at hhash
          refine Or.inr (hhash.elim Or.inr fun hhash => Or.inl ?_)
          rw [hminer] at hhash
          exact (Except.ok.inj hhash).symm

/-- **What is spent**: the key images of the transactions of the blocks. -/
theorem Books.spent (h : Books C blocks t) (image : KeyImage) :
    (t.spentKeys.get image).isSome ↔ ∃ b ∈ blocks, ∃ p ∈ b.txs, image ∈ p.1.keyImages := by
  induction h with
  | empty => simp [MainTables.empty]
  | @block blocks t t' b older booked ih =>
      obtain ⟨minerHash, _, hfiles⟩ := booked.files older.sound older.indexed
      rw [hfiles.spent, ih]
      constructor
      · rintro (⟨b', hb', p, hp, himage⟩ | ⟨p, hp, himage⟩)
        · exact ⟨b', List.mem_append_left _ hb', p, hp, himage⟩
        · rcases List.mem_cons.mp hp with rfl | hp
          · rw [booked.new.minerImages] at himage
            cases himage
          · exact ⟨b, by simp, p, hp, himage⟩
      · rintro ⟨b', hb', p, hp, himage⟩
        rcases List.mem_append.mp hb' with hb' | hb'
        · exact Or.inl ⟨b', hb', p, hp, himage⟩
        · rw [List.mem_singleton.mp hb'] at hp
          exact Or.inr ⟨p, List.mem_cons_of_mem _ hp, himage⟩

/-- **What is filed**: the transactions of the blocks, under the ids they list. -/
theorem Books.filed (h : Books C blocks t) :
    ∀ b ∈ blocks, ∀ x ∈ b.blk.txHashes.zip b.txs, t.getTxBlob x.1 = .ok x.2.2 := by
  induction h with
  | empty => exact List.forall_mem_nil _
  | @block blocks t t' b older booked ih =>
      obtain ⟨minerHash, _, hfiles⟩ := booked.files older.sound older.indexed
      refine List.forall_mem_append.mpr ⟨?_, ?_⟩
      · intro b' hb' x hx
        have hindexed := (older.indices x.1).mpr ⟨b', hb', Or.inl (List.of_mem_zip hx).1⟩
        rw [hfiles.kept x.1 hindexed]
        exact ih b' hb' x hx
      · intro b' hb' x hx
        rw [List.mem_singleton.mp hb'] at hx
        exact hfiles.filed x (List.mem_cons_of_mem _ hx)

/-- The bytes of the blocks are in the store in order. -/
theorem Books.blobs (h : Books C blocks t) (k : Nat) :
    t.blocks.get k = (blocks[k]?).map (·.blob) := by
  induction h with
  | empty => simp [MainTables.empty]
  | @block blocks t t' b older booked ih =>
      obtain ⟨info, hadded⟩ := booked.added
      rw [hadded.blocks, Table.get_put, older.length_eq]
      split_ifs with hk
      · simp [hk]
      · rw [ih]
        by_cases hlt : k < blocks.length
        · rw [List.getElem?_append_left hlt]
        · rw [List.getElem?_eq_none (by omega), List.getElem?_eq_none (by simp; omega)]

/-- The ids the blocks list are distinct. -/
theorem Books.ids_nodup (h : Books C blocks t) : (blocks.flatMap (·.blk.txHashes)).Nodup := by
  induction h with
  | empty => exact List.nodup_nil
  | block older booked ih =>
      rw [List.flatMap_append, List.flatMap_singleton]
      refine List.nodup_append'.mpr ⟨ih, booked.new.txs.nodup, ?_⟩
      intro hash hold hnew
      obtain ⟨b', hb', hlisted⟩ := List.mem_flatMap.mp hold
      have hsome := (older.indices hash).mpr ⟨b', hb', Or.inl hlisted⟩
      rw [booked.new.txs.unseen hash hnew] at hsome
      cases hsome

/-- The key images the blocks spend are distinct. -/
theorem Books.images_nodup (h : Books C blocks t) :
    (blocks.flatMap fun b => b.txs.flatMap (·.1.keyImages)).Nodup := by
  induction h with
  | empty => exact List.nodup_nil
  | block older booked ih =>
      rw [List.flatMap_append, List.flatMap_singleton]
      refine List.nodup_append'.mpr ⟨ih, List.nodup_flatMap.mpr ⟨booked.images, ?_⟩, ?_⟩
      · refine booked.new.txs.apart.imp ?_
        intro p q hapart image hp hq
        exact hapart image hq hp
      · intro image hold hnew
        obtain ⟨b', hb', hold⟩ := List.mem_flatMap.mp hold
        obtain ⟨p', hp', himage'⟩ := List.mem_flatMap.mp hold
        obtain ⟨p, hp, himage⟩ := List.mem_flatMap.mp hnew
        have hsome := (older.spent image).mpr ⟨b', hb', p', hp', himage'⟩
        rw [booked.new.txs.images p hp image himage] at hsome
        cases hsome

end

end Wownero
