import Wownero.Books
/-!
# No double spend

On the main chain of every store a run can reach, no key image is spent twice and no transaction
is carried twice; the table of spent keys and the index of transactions are exactly what the
blocks of the chain determine.  This holds along pops, reorganisations and their undo paths, and
also after operations that fail half-way, as long as what the store hands back of a block is the
block: a transaction that was handed in with a byte too many is put back under another id.
-/

namespace Wownero

open Outcome

/-! ### The main chain as the store has it -/

/-- The block at a height. -/
def MainTables.blockAt (t : MainTables) (height : Nat) : Option Block :=
  (t.blocks.get height).bind fun blob => (Block.fromBlob blob).toOption

/-- The blocks of the main chain, as far as they parse. -/
def mainBlocks (t : MainTables) : List Block := (List.range t.height).filterMap t.blockAt

/-- The ids of the transactions of the main chain. -/
def mainTxIds (t : MainTables) : List Hash256 := (mainBlocks t).flatMap (·.txHashes)

/-- A transaction as the store has it. -/
def MainTables.storedTx (t : MainTables) (id : Hash256) : Option Transaction :=
  (t.getTxBlob id).toOption.bind fun blob => (Transaction.fromBlob blob).toOption

/-- The key images the transactions of the main chain spend. -/
def spentImages (t : MainTables) : List KeyImage :=
  ((mainTxIds t).filterMap t.storedTx).flatMap (·.keyImages)

/-- A transaction with its bytes, as the store has it under an id. -/
def StoredAs (C : Crypto) (t : MainTables) (id : Hash256) (p : Transaction × Blob) : Prop :=
  t.getTxBlob id = .ok p.2 ∧ Transaction.fromBlob p.2 = .ok p.1 ∧
    transactionHashFromBlob C.cnFastHash p.1 p.2 = some id

/-- The ids of the coinbases of the main chain. -/
def coinbaseIds (C : Crypto) (t : MainTables) : List Hash256 :=
  (mainBlocks t).filterMap fun blk =>
    transactionHashFromBlob C.cnFastHash blk.minerTx blk.minerTx.write

/-- Nothing is spent or carried twice, and the tables say what is. -/
structure NoDoubleSpend (C : Crypto) (t : MainTables) : Prop where
  parsed : (mainBlocks t).length = t.height
  stored : ∀ id ∈ mainTxIds t, ∃ p, StoredAs C t id p
  images : (spentImages t).Nodup
  spentKeys : ∀ image, t.hasKeyImage image = true ↔ image ∈ spentImages t
  ids : (mainTxIds t).Nodup
  txIndices : ∀ id, t.txExists id = true ↔ id ∈ mainTxIds t ∨ id ∈ coinbaseIds C t

private theorem filterMap_range_get {α β : Type} (f : α → β) (l : List α) :
    ((List.range l.length).filterMap fun k => (l[k]?).map f) = l.map f := by
  induction l with
  | nil => rfl
  | cons a l ih =>
      rw [List.length_cons, List.range_succ_eq_map, List.filterMap_cons, List.filterMap_map]
      simpa [Function.comp_def] using ih

section

variable {C : Crypto} {blocks : List Handed} {t : MainTables}

theorem Books.blockAt_eq (h : Books C blocks t) (k : Nat) :
    t.blockAt k = (blocks[k]?).map (·.blk) := by
  rw [MainTables.blockAt, h.blobs]
  cases hb : blocks[k]? with
  | none => rfl
  | some b =>
      have hparse := (h.faithful b (List.mem_of_getElem? hb)).retrievable.parses
      simp [hparse, Except.toOption]

theorem Books.mainBlocks_eq (h : Books C blocks t) : mainBlocks t = blocks.map (·.blk) := by
  rw [mainBlocks, h.length_eq, List.filterMap_congr fun k _ => h.blockAt_eq k, filterMap_range_get]

theorem Books.mainTxIds_eq (h : Books C blocks t) :
    mainTxIds t = blocks.flatMap (·.blk.txHashes) := by
  rw [mainTxIds, h.mainBlocks_eq, List.flatMap_map]

theorem ListedAs.forall₂ {hashes : List Hash256} {txs : List (Transaction × Blob)}
    (h : ListedAs C hashes txs) :
    List.Forall₂ (fun id (p : Transaction × Blob) => storedTxHash C p.1 p.2 = .ok id) hashes txs := by
  have hnamed := h.named
  rw [← List.forall₂_eq_eq_eq, List.forall₂_map_left_iff, List.forall₂_map_right_iff] at hnamed
  exact hnamed.flip

/-- The ids and the transactions of blocks a store was written by, side by side. -/
theorem Books.storedTxs (h : Books C blocks t) {bs : List Handed} (hbs : ∀ b ∈ bs, b ∈ blocks) :
    List.Forall₂ (StoredAs C t) (bs.flatMap (·.blk.txHashes)) (bs.flatMap (·.txs)) := by
  induction bs with
  | nil => exact .nil
  | cons b bs ih =>
      rw [List.forall_mem_cons] at hbs
      rw [List.flatMap_cons, List.flatMap_cons]
      refine List.rel_append ?_ (ih hbs.2)
      have hlisted := (h.faithful b hbs.1).retrievable.listed
      refine List.forall₂_iff_zip.mpr ⟨hlisted.length_eq, ?_⟩
      intro id p hmem
      refine ⟨h.filed b hbs.1 _ hmem, hlisted.parses p (List.of_mem_zip hmem).2, ?_⟩
      exact storedTxHash_eq_ok.mp (List.forall₂_zip hlisted.forall₂ hmem)

theorem filterMap_storedTx {ids : List Hash256} {txs : List (Transaction × Blob)}
    (h : List.Forall₂ (StoredAs C t) ids txs) : ids.filterMap t.storedTx = txs.map (·.1) := by
  induction h with
  | nil => rfl
  | @cons id p ids txs hfirst hrest ih =>
      have hfound : t.storedTx id = some p.1 := by
        rw [MainTables.storedTx, hfirst.1]
        simp [hfirst.2.1, Except.toOption]
      rw [List.filterMap_cons_some hfound, List.map_cons, ih]

theorem Books.spentImages_eq (h : Books C blocks t) :
    spentImages t = blocks.flatMap fun b => b.txs.flatMap (·.1.keyImages) := by
  rw [spentImages, h.mainTxIds_eq, filterMap_storedTx (h.storedTxs fun _ hb => hb),
    List.flatMap_map, List.flatMap_assoc]

theorem Books.mem_coinbaseIds (h : Books C blocks t) (id : Hash256) :
    id ∈ coinbaseIds C t ↔ ∃ b ∈ blocks, b.minerHash C = .ok id := by
  rw [coinbaseIds, h.mainBlocks_eq, List.mem_filterMap]
  simp only [List.mem_map, Handed.minerHash, storedTxHash_eq_ok]
  constructor
  · rintro ⟨_, ⟨b, hb, rfl⟩, hid⟩
    exact ⟨b, hb, hid⟩
  · rintro ⟨b, hb, hid⟩
    exact ⟨b.blk, ⟨b, hb, rfl⟩, hid⟩

/-- **A store with books** has no double spend. -/
theorem Books.noDoubleSpend (h : Books C blocks t) : NoDoubleSpend C t := by
  refine ⟨?_, ?_, ?_, ?_, ?_, ?_⟩
  · rw [h.mainBlocks_eq, List.length_map, h.length_eq]
  · intro id hid
    rw [h.mainTxIds_eq] at hid
    have hpairs := h.storedTxs fun _ hb => hb
    obtain ⟨k, hk, rfl⟩ := List.mem_iff_getElem.mp hid
    exact ⟨_, hpairs.get hk (hpairs.length_eq ▸ hk)⟩
  · rw [h.spentImages_eq]
    exact h.images_nodup
  · intro image
    rw [MainTables.hasKeyImage, Table.has_eq, h.spent, h.spentImages_eq]
    simp only [List.mem_flatMap]
  · rw [h.mainTxIds_eq]
    exact h.ids_nodup
  · intro id
    rw [MainTables.txExists, Table.has_eq, h.indices, h.mainTxIds_eq, h.mem_coinbaseIds,
      List.mem_flatMap]
    constructor
    · rintro ⟨b, hb, hid | hid⟩
      · exact Or.inl ⟨b, hb, hid⟩
      · exact Or.inr ⟨b, hb, hid⟩
    · rintro (⟨b, hb, hid⟩ | ⟨b, hb, hid⟩)
      · exact ⟨b, hb, Or.inl hid⟩
      · exact ⟨b, hb, Or.inr hid⟩

end

/-! ### Runs -/

/-- What is asked of the blocks handed in: they come back as they went in, and no coinbase has
    the id of another transaction. -/
structure FaithfullyHanded (C : Crypto) (handed : Handed → Prop) : Prop where
  faithful : ∀ b, handed b → b.Faithful C
  coinbaseHeights : ∀ b b' hash, handed b → handed b' → b.minerHash C = .ok hash →
    b'.minerHash C = .ok hash → genHeight b.blk.minerTx = genHeight b'.blk.minerTx
  coinbaseNotListed : ∀ b b' hash, handed b → handed b' → b.minerHash C = .ok hash →
    hash ∉ b'.blk.txHashes

theorem checkImages_nodup {t : MainTables} {before images after : List KeyImage}
    (h : checkImages t before images = .ok after) : images.Nodup := by
  induction images generalizing before with
  | nil => exact List.nodup_nil
  | cons image images ih =>
      unfold checkImages at h
      split_ifs at h with hblock hchain
      refine List.nodup_cons.mpr ⟨?_, ih h⟩
      intro hmem
      exact ((checkImages_ok h).2 image hmem).1 List.mem_cons_self

section

variable {σ : Type} {P : Params σ} {handed : Handed → Prop}

theorem checkTransactionsFrom_images {t : MainTables} {version height now : Nat}
    {list : List (Hash256 × Transaction)} {i : Nat} {seen : List Hash256}
    {images : List KeyImage} {fees total : Nat} {v v' : σ}
    (h : checkTransactionsFrom P t version height now i list seen images fees v =
      (.ok total, v')) : ∀ p ∈ list, p.2.keyImages.Nodup := by
  induction list generalizing i seen images fees v with
  | nil => exact List.forall_mem_nil _
  | cons p list ih =>
      obtain ⟨hash, tx⟩ := p
      obtain ⟨_, _, fee, v₁, images', _, himages, hrest⟩ := checkTransactionsFrom_cons.mp h
      exact List.forall_mem_cons.mpr ⟨checkImages_nodup himages, ih hrest⟩

/-- A block that was handed in, or is one again. -/
def Known (C : Crypto) (handed : Handed → Prop) (b : Handed) : Prop :=
  b.Faithful C ∧ ∃ blob, handed ⟨b.blk, blob, b.txs⟩

/-- The chain was written by blocks that were handed in. -/
def WellBooked (C : Crypto) (handed : Handed → Prop) (c : Chain σ) : Prop :=
  ∃ blocks, Books C blocks c.db.main ∧ ∀ b ∈ blocks, Known C handed b

/-- An accepted block is booked. -/
theorem Accepted.booked (hgood : FaithfullyHanded P.crypto handed) {c c' : Chain σ}
    {blocks : List Handed} (h : Books P.crypto blocks c.db.main)
    (hknown : ∀ b ∈ blocks, Known P.crypto handed b) {b : Handed} (hb : Known P.crypto handed b)
    {now fees reward : Nat} {v : σ}
    (haccepted : Accepted P c b.blk b.blob b.txs now fees reward v c') :
    Booked P.crypto c.db.main b c'.db.main := by
  obtain ⟨hfaithful, blob, hhanded⟩ := hb
  obtain ⟨hhave, _, _, _, _, _, hcoinbase⟩ := prechecks_ok.mp haccepted.prechecks
  obtain ⟨id, hid, hnew⟩ := stepHaveIt_ok hhave
  have hgen := stepCoinbase_genHeight hcoinbase
  obtain ⟨_, htxs, _⟩ := checkTransactions_ok haccepted.transactions
  obtain ⟨hlen, hloop⟩ := checkTransactions_loop.mp haccepted.transactions
  refine ⟨hfaithful, ⟨?_, ?_, keyImages_of_genHeight hgen, htxs⟩, ?_, hgen,
    ⟨_, _, _, _, haccepted.main⟩⟩
  · intro id' hid'
    rw [hid] at hid'
    cases hid'
    exact hnew
  · intro hash hhash
    have hnotListed : hash ∉ b.blk.txHashes :=
      hgood.coinbaseNotListed _ ⟨b.blk, blob, b.txs⟩ hash hhanded hhanded hhash
    refine ⟨?_, hnotListed⟩
    rw [← Option.not_isSome_iff_eq_none, h.indices]
    rintro ⟨b', hb', hlisted | hminer⟩
    · obtain ⟨_, blob', hhanded'⟩ := hknown b' hb'
      exact hgood.coinbaseNotListed _ _ hash hhanded hhanded' hhash hlisted
    · obtain ⟨_, blob', hhanded'⟩ := hknown b' hb'
      obtain ⟨k, hk, hgen'⟩ := h.genHeights b' hb'
      have heq := hgood.coinbaseHeights _ _ hash hhanded hhanded' hhash hminer
      simp only [hgen, hgen', Option.some.injEq] at heq
      rw [Chain.height] at heq
      omega
  · intro p hp
    obtain ⟨q, hq, hqe⟩ := exists_mem_zip hlen hp
    rw [← hqe]
    exact checkTransactionsFrom_images hloop q hq

/-- The chain was written by blocks that were handed in, and whatever else acceptance says of a
    block holds of each. -/
def WellBookedBy (C : Crypto) (handed accepted : Handed → Prop) (c : Chain σ) : Prop :=
  ∃ blocks, Books C blocks c.db.main ∧ ∀ b ∈ blocks, Known C handed b ∧ accepted b

theorem wellBooked_iff {C : Crypto} {c : Chain σ} :
    WellBooked C handed c ↔ WellBookedBy C handed (fun _ => True) c := by
  simp only [WellBooked, WellBookedBy, and_true]

theorem wellBookedBy_stepwise (hgood : FaithfullyHanded P.crypto handed) {accepted : Handed → Prop}
    (haccepts : ∀ {c c' : Chain σ} {b : Handed} {now : Nat} {added : Added},
      Chain.addBlock P c b.blk b.blob b.txs now = (.ok added, c') → accepted b) :
    Stepwise P (Known P.crypto handed) (WellBookedBy P.crypto handed accepted)
      (WellBookedBy P.crypto handed accepted) where
  weaken c h := h
  frame c c' hmain _ h := by
    unfold WellBookedBy
    rw [hmain]
    exact h
  frameM c c' hmain h := by
    unfold WellBookedBy
    rw [hmain]
    exact h
  add c b now result c' h hb hout := by
    obtain ⟨blocks, hbooks, hknown⟩ := h
    cases result with
    | ok added =>
        have hnow := haccepts hout
        obtain ⟨_, fees, reward, v, haccepted⟩ := addBlock_ok hout
        have hbooked := haccepted.booked hgood hbooks (fun b hb => (hknown b hb).1) hb
        refine ⟨blocks ++ [b], hbooks.block hbooked, ?_⟩
        exact List.forall_mem_append.mpr ⟨hknown, by simpa using And.intro hb hnow⟩
    | error r =>
        obtain ⟨v, rfl⟩ := addBlock_error hout
        exact ⟨blocks, hbooks, hknown⟩
  pop c block txs c' h hpop := by
    obtain ⟨blocks, hbooks, hknown⟩ := h
    obtain ⟨hpop, _⟩ := popBlock_ok hpop
    generalize c.db.main = t' at hbooks hpop
    cases hbooks with
    | empty => cases hpop
    | @block blocks t _ b older booked =>
        rw [(booked.popped older.sound).2] at hpop
        cases hpop
        obtain ⟨hfaithful, hhanded⟩ := (hknown b (by simp)).1
        have hb : Known P.crypto handed ⟨b.blk, b.blk.toBlob, (b.txs.map (·.1)).map withBlob⟩ := by
          rw [hfaithful.withBlob_txs]
          exact ⟨hfaithful.own, hhanded⟩
        refine ⟨⟨blocks, older, fun b hb => hknown b (List.mem_append_left _ hb)⟩, hb, ?_⟩
        intro blk hparse
        rw [hfaithful.rewritten] at hparse
        cases hparse
        exact hb
  reload c c' h hreload := by
    unfold Chain.reloadState at hreload
    split at hreload
    · cases hreload
      exact h
    · cases hreload
  unlisted blk blob txs h hempty := by
    have hlen := h.1.retrievable.listed.length_eq
    have hnil : txs = [] := by
      rw [hempty] at hlen
      exact List.eq_nil_of_length_eq_zero hlen.symm
    exact hnil ▸ h

/-- Whatever a run from an empty store does, the chain is written by blocks handed in that were
    accepted. -/
theorem run_wellBookedBy (hgood : FaithfullyHanded P.crypto handed) {accepted : Handed → Prop}
    (haccepts : ∀ {c c' : Chain σ} {b : Handed} {now : Nat} {added : Added},
      Chain.addBlock P c b.blk b.blob b.txs now = (.ok added, c') → accepted b) {v : σ}
    {c₀ : Chain σ} (hopen : Chain.new P Store.empty v = .ok c₀) (actions : List (Action σ))
    (hhanded : ∀ a ∈ actions, ∀ b, a.carried = some b → handed b) :
    WellBookedBy P.crypto handed accepted (c₀.run P actions) ∧
      Waiting (Known P.crypto handed) (c₀.run P actions) := by
  have hstart : WellBookedBy P.crypto handed accepted c₀ := by
    cases hopen
    exact ⟨[], .empty, List.forall_mem_nil _⟩
  refine run_stepwise_anyway (wellBookedBy_stepwise hgood haccepts) hstart (waiting_new hopen)
    actions ?_
  intro a ha b hb
  have hfaithful := hgood.faithful b (hhanded a ha b hb)
  exact ⟨⟨hfaithful, b.blob, hhanded a ha b hb⟩, hfaithful.retrievable.parses⟩

/-- Whatever a run from an empty store does, the chain is written by blocks handed in. -/
theorem run_wellBooked (hgood : FaithfullyHanded P.crypto handed) {v : σ} {c₀ : Chain σ}
    (hopen : Chain.new P Store.empty v = .ok c₀) (actions : List (Action σ))
    (hhanded : ∀ a ∈ actions, ∀ b, a.carried = some b → handed b) :
    WellBooked P.crypto handed (c₀.run P actions) ∧
      Waiting (Known P.crypto handed) (c₀.run P actions) := by
  rw [wellBooked_iff]
  exact run_wellBookedBy hgood (fun _ => trivial) hopen actions hhanded

theorem handedIn_of_carried {actions : List (Action σ)} {a : Action σ} (ha : a ∈ actions)
    {b : Handed} (hb : a.carried = some b) : handedIn actions b :=
  handedIn_iff.mpr (List.mem_filterMap.mpr ⟨a, ha, hb⟩)

/-- **No double spend.**  In every state any run from an empty store reaches, no key image and no
    transaction is on the main chain twice, the spent keys are exactly the images of the chain's
    transactions, and the index holds exactly their ids and those of the coinbases. -/
theorem no_double_spend {v : σ} {c₀ : Chain σ} (hopen : Chain.new P Store.empty v = .ok c₀)
    (actions : List (Action σ)) (hgood : FaithfullyHanded P.crypto (handedIn actions)) :
    NoDoubleSpend P.crypto (c₀.run P actions).db.main := by
  obtain ⟨⟨blocks, hbooks, _⟩, _⟩ := run_wellBooked hgood hopen actions
    fun _ ha _ hb => handedIn_of_carried ha hb
  exact hbooks.noDoubleSpend

end

/-- Canonical blocks come back as they went in. -/
theorem WellHanded.faithfullyHanded {C : Crypto} {handed : Handed → Prop}
    (h : WellHanded C handed) : FaithfullyHanded C handed where
  faithful b hb := by
    have hcanonical := h.canonical b hb
    refine ⟨hcanonical.retrievable, ?_, hcanonical.txsWrite⟩
    rw [hcanonical.writes]
    exact hcanonical.retrievable.parses
  coinbaseHeights := h.coinbaseHeights
  coinbaseNotListed := h.coinbaseNotListed

namespace Sample

/-- A transaction of version 1 that spends one key image and pays nobody. -/
def tiny (kImage : KeyImage) : Transaction :=
  let p : TransactionPrefix := ⟨1, 0, [.toKey 0 [0] kImage], [], []⟩
  { txPrefix := p
    signatures := [[Signature.zero]]
    prefixSize := p.write.length
    unprunableSize := p.write.length }

/-- Its bytes with one more after their end. -/
def paddedTiny : Blob := (tiny 1).write ++ [0]

/-- The first block, carrying a transaction under these bytes. -/
def tinyCarrier (blob : Blob) : Block :=
  { first with txHashes := [(storedTxHash crypto (tiny 1) blob).toOption.getD 0] }

/-- A chain that trusts its first two blocks switches to a rival, and back again when the second
    block of the rival turns out greedy. -/
def undone (blob : Blob) : List (Action Unit) :=
  [.handleBlock genesis genesis.toBlob [] clock,
    .handleBlock (tinyCarrier blob) (tinyCarrier blob).toBlob [(tiny 1, blob)] clock,
    .handleBlock rival rival.toBlob [] clock,
    .handleBlock greedy greedy.toBlob [] clock]

end Sample

section

open Sample

/-- The transaction a failed switch took off the chain and put back is on it once. -/
theorem no_double_spend_undone :
    ((opened ()).run trusting (undone (tiny 1).write)).db.main.hasKeyImage 1 = true ∧
      (spentImages ((opened ()).run trusting (undone (tiny 1).write)).db.main).Nodup := by
  refine ⟨by decide +kernel, ?_⟩
  have hwell : WellHanded crypto (handedIn (undone (tiny 1).write)) := by decide +kernel
  exact (no_double_spend (P := trusting) (new_empty trusting ()) _ hwell.faithfullyHanded).images

/-- A transaction handed in with a byte after its end, under the hash of those bytes, is put back
    under another id: its block lists an id that the index does not have. -/
theorem padded_tx_refiled :
    Transaction.fromBlob paddedTiny = .ok (tiny 1) ∧
      (tinyCarrier paddedTiny).txHashes.map .ok = [storedTxHash crypto (tiny 1) paddedTiny] ∧
      ∃ id ∈ mainTxIds ((opened ()).run trusting (undone paddedTiny)).db.main,
        ((opened ()).run trusting (undone paddedTiny)).db.main.txExists id = false := by
  have hheight : ((opened ()).run trusting (undone paddedTiny)).db.main.height = 2 := by
    decide +kernel
  have hblob : ((opened ()).run trusting (undone paddedTiny)).db.main.blocks.get 1 =
      some (tinyCarrier paddedTiny).toBlob := by decide +kernel
  have hparse : Block.fromBlob (tinyCarrier paddedTiny).toBlob = .ok (tinyCarrier paddedTiny) := by
    decide +kernel
  have hlost : ((opened ()).run trusting (undone paddedTiny)).db.main.txExists
      ((storedTxHash crypto (tiny 1) paddedTiny).toOption.getD 0) = false := by decide +kernel
  generalize ((opened ()).run trusting (undone paddedTiny)).db.main = t at hheight hblob hlost ⊢
  refine ⟨by decide +kernel, by decide +kernel, _, ?_, hlost⟩
  have hat : t.blockAt 1 = some (tinyCarrier paddedTiny) := by
    rw [MainTables.blockAt, hblob, Option.bind_some, hparse]
    rfl
  have hblock : tinyCarrier paddedTiny ∈ mainBlocks t :=
    List.mem_filterMap.mpr ⟨1, by rw [hheight]; decide, hat⟩
  exact List.mem_flatMap.mpr ⟨_, hblock, List.mem_singleton.mpr rfl⟩

end

end Wownero
