import Wownero.RingStore
import Wownero.Rules
/-!
# Ring references stay right

Whatever blocks were added, popped and put back, the numbers a store has given to transactions and
outputs are those of its main chain read from the bottom, and a ring member is found under the same
place in every store with that chain.  The running total of RingCT outputs is kept apart from the
table: it counts the outputs of version-2 transactions, while the table counts what is filed under
amount zero.  The two agree as long as no transaction of version 1 has an output of amount zero.
-/

namespace Wownero

open Outcome Numbering TxRules

/-! ### The main chain as the store has it -/

/-- The transactions of a block of the main chain, the coinbase first. -/
def blockTxs (C : Crypto) (t : MainTables) (height : Nat) (blk : Block) : List ChainTx :=
  ((transactionHashFromBlob C.cnFastHash blk.minerTx blk.minerTx.write).map
      fun hash => (⟨height, hash, blk.minerTx⟩ : ChainTx)).toList ++
    blk.txHashes.filterMap fun id => (t.storedTx id).map fun tx => ⟨height, id, tx⟩

/-- The transactions of the main chain. -/
def mainTxs (C : Crypto) (t : MainTables) : List ChainTx :=
  (mainBlocks t).zipIdx.flatMap fun x => blockTxs C t x.2 x.1

/-- The outputs of the main chain. -/
def mainOutputs (C : Crypto) (t : MainTables) : List FiledOutput := filedOutputs C (mainTxs C t)

/-- What the blocks of the main chain list, by height: the coinbase, then the ids. -/
def mainListed (C : Crypto) (t : MainTables) : List (Nat × Option Hash256) :=
  (mainBlocks t).zipIdx.flatMap fun x =>
    (x.2, transactionHashFromBlob C.cnFastHash x.1.minerTx x.1.minerTx.write) ::
      x.1.txHashes.map fun id => (x.2, some id)

/-- The records under an amount, by place. -/
def recordsUnder (t : MainTables) (amount : Nat) : List OutKey :=
  (List.range (t.getNumOutputs amount)).filterMap fun i => t.outputAmounts.get (amount, i)

/-- An output of a transaction is found again, by its place under its amount and by its number. -/
def OutputFound (C : Crypto) (t : MainTables) (x : ChainTx) (place i : Nat) (o : TxOut) : Prop :=
  ∃ stored s row, storedOutputs C x.tx = .ok stored ∧ stored[i]? = some s ∧
    t.outputAmounts.get (s.amount, place) = some row ∧
    o.target.publicKey = some row.pubkey ∧ row.unlockTime = x.tx.txPrefix.unlockTime ∧
    row.height = x.height ∧ row.commitment = s.commitment ∧
    t.outputTxs.get row.outputId = some ⟨x.hash, i⟩

/-- The tables that ring members are found by are those of the main chain. -/
structure RingsRight (C : Crypto) (t : MainTables) : Prop where
  parsed : (mainBlocks t).length = t.height
  listed : (mainTxs C t).map (fun x => (x.height, some x.hash)) = mainListed C t
  txIds : ∀ n, (∃ hash idx, t.txIndices.get hash = some idx ∧ idx.txId = n) ↔
    n < (mainTxs C t).length
  txIndices : ∀ k x, (mainTxs C t)[k]? = some x →
    t.txIndices.get x.hash = some ⟨k, x.tx.txPrefix.unlockTime, x.height⟩
  outputIds : ∀ n, t.outputTxs.get n = ((mainOutputs C t)[n]?).map FiledOutput.outTx
  outputAmounts : ∀ amount i, t.outputAmounts.get (amount, i) =
    ((underAmount amount (mainOutputs C t))[i]?).bind fun x => x.1.outKey x.2
  places : ∀ amount i, (t.outputAmounts.get (amount, i)).isSome ↔ i < t.getNumOutputs amount
  increasing : ∀ amount i j row row', i < j → t.outputAmounts.get (amount, i) = some row →
    t.outputAmounts.get (amount, j) = some row' → row.outputId < row'.outputId
  txOutputs : ∀ k x, (mainTxs C t)[k]? = some x → ∃ indices, t.txOutputs.get k = some indices ∧
    indices.length = x.tx.txPrefix.vout.length ∧
    ∀ i place o, indices[i]? = some place → x.tx.txPrefix.vout[i]? = some o →
      OutputFound C t x place i o
  committed : ∀ i row, t.outputAmounts.get (0, i) = some row → row.commitment.isSome = true
  cumRct : ∀ height info,
    (∀ k ≤ height, ∀ blk, t.blockAt k = some blk → 7 ≤ blk.header.majorVersion) →
    t.blockInfo.get height = some info →
    info.cumRct = wrap64 ((recordsUnder t 0).countP fun row => row.height ≤ height)

/-- The same blocks, with the same transactions under the ids they list. -/
structure SameMainChain (t t' : MainTables) : Prop where
  blocks : mainBlocks t = mainBlocks t'
  txs : ∀ id ∈ mainTxIds t, t.storedTx id = t'.storedTx id

theorem SameMainChain.mainTxs_eq {C : Crypto} {t t' : MainTables} (h : SameMainChain t t') :
    mainTxs C t = mainTxs C t' := by
  rw [mainTxs, mainTxs, ← h.blocks]
  refine List.flatMap_congr fun x hx => ?_
  have hmem : x.1 ∈ mainBlocks t :=
    List.mem_of_getElem? (List.mem_zipIdx_iff_getElem?.mp hx)
  rw [blockTxs, blockTxs]
  refine congrArg _ (List.filterMap_congr fun id hid => ?_)
  rw [h.txs id (List.mem_flatMap.mpr ⟨_, hmem, hid⟩)]

/-! ### Read from the books -/

section

variable {C : Crypto} {t t' : MainTables} {blocks : List Handed}

theorem filedAt_eq {ids : List Hash256} {txs : List (Transaction × Blob)} (height : Nat)
    (h : List.Forall₂ (StoredAs C t) ids txs) :
    (ids.filterMap fun id => (t.storedTx id).map fun tx => (⟨height, id, tx⟩ : ChainTx)) =
      filedAt height ids txs := by
  induction h with
  | nil => rfl
  | @cons id p ids txs hfirst hrest ih =>
      have hfound : t.storedTx id = some p.1 := by
        rw [MainTables.storedTx, hfirst.1]
        simp [hfirst.2.1, Except.toOption]
      rw [List.filterMap_cons, hfound, ih]
      rfl

theorem Books.blockTxs_eq (h : Books C blocks t) {b : Handed} (hb : b ∈ blocks) (height : Nat) :
    blockTxs C t height b.blk = b.filedTxs C height := by
  have hstored := h.storedTxs (show ∀ b' ∈ [b], b' ∈ blocks by simpa using hb)
  rw [List.flatMap_singleton, List.flatMap_singleton] at hstored
  rw [blockTxs, Handed.filedTxs, filedAt_eq height hstored, Handed.minerHash, storedTxHash]
  cases transactionHashFromBlob C.cnFastHash b.blk.minerTx b.blk.minerTx.write <;> rfl

/-- The transactions of the main chain are those of the blocks it was written by. -/
theorem Books.mainTxs_eq (h : Books C blocks t) : mainTxs C t = filedTxs C blocks := by
  rw [mainTxs, filedTxs, h.mainBlocks_eq, List.zipIdx_map, List.flatMap_map]
  refine List.flatMap_congr fun x hx => ?_
  exact h.blockTxs_eq (List.mem_of_getElem? (List.mem_zipIdx_iff_getElem?.mp hx)) _

theorem Books.mainTxsAre (h : Books C blocks t) : TxsAre C t (mainTxs C t) := by
  rw [h.mainTxs_eq]
  exact h.txsAre

/-- Every output of a transaction of the chain is found again. -/
theorem TxsAre.found {txs : List ChainTx} (h : TxsAre C t txs) {k : Nat} {x : ChainTx}
    (hx : txs[k]? = some x) : ∃ indices, t.txOutputs.get k = some indices ∧
      indices.length = x.tx.txPrefix.vout.length ∧
      ∀ i place o, indices[i]? = some place → x.tx.txPrefix.vout[i]? = some o →
        OutputFound C t x place i o := by
  obtain ⟨hk, hxk⟩ := List.getElem?_eq_some_iff.mp hx
  obtain ⟨stored, hstored⟩ := h.storable x (List.mem_of_getElem? hx)
  have hlen := storedOutputs_length hstored
  have houts : x.outputs C =
      filedFrom x.hash x.tx.txPrefix.unlockTime x.height 0 (stored.zip x.tx.txPrefix.vout) := by
    rw [ChainTx.outputs, hstored]
    rfl
  have hsplit : filedOutputs C txs = filedOutputs C (txs.take k) ++
      (x.outputs C ++ filedOutputs C (txs.drop (k + 1))) := by
    have hlist : txs = txs.take k ++ (x :: txs.drop (k + 1)) := by
      rw [← hxk, List.getElem_cons_drop, List.take_append_drop]
    conv_lhs => rw [hlist]
    rw [filedOutputs, List.flatMap_append, List.flatMap_cons]
    rfl
  have hall := h.outputs
  rw [hsplit] at hall
  have hresolves := hall.resolves_all
  refine ⟨amountIndices (filedOutputs C (txs.take k)) (x.outputs C), ?_, ?_, ?_⟩
  · rw [h.txOutputs, hx, Option.map_some]
  · rw [hresolves.length_eq, houts, length_filedFrom, List.length_zip, hlen, Nat.min_self]
  · intro i place o hplace ho
    have hi := (List.getElem?_eq_some_iff.mp ho).1
    obtain ⟨s, hs⟩ : ∃ s, stored[i]? = some s := ⟨_, List.getElem?_eq_getElem (hlen ▸ hi)⟩
    have hout : (x.outputs C)[i]? = some ⟨x.hash, i, s.amount, o.target,
        x.tx.txPrefix.unlockTime, x.height, s.commitment⟩ := by
      rw [houts, filedFrom_getElem?, (List.getElem?_zip_eq_some (z := (s, o))).mpr ⟨hs, ho⟩, Option.map_some,
        Nat.zero_add]
    obtain ⟨hp, rfl⟩ := List.getElem?_eq_some_iff.mp hplace
    obtain ⟨ho', heq⟩ := List.getElem?_eq_some_iff.mp hout
    obtain ⟨⟨id, pubkey, unlockTime, height, commitment⟩, hrow, hkey, htx⟩ := hresolves.get hp ho'
    simp only [List.get_eq_getElem] at hrow hkey htx
    rw [heq] at hrow hkey htx
    obtain ⟨key, htarget, hmade⟩ := Option.map_eq_some_iff.mp hkey
    simp only [OutKey.mk.injEq, true_and] at hmade
    obtain ⟨rfl, rfl, rfl, rfl⟩ := hmade
    exact ⟨stored, s, _, hstored, hs, hrow, htarget, rfl, rfl, rfl, htx⟩

/-- Numbers of transactions are the places of transactions. -/
theorem TxsAre.txIds {txs : List ChainTx} (h : TxsAre C t txs) (n : Nat) :
    (∃ hash idx, t.txIndices.get hash = some idx ∧ idx.txId = n) ↔ n < txs.length := by
  constructor
  · rintro ⟨hash, idx, hidx, rfl⟩
    obtain ⟨x, hx, _⟩ := h.indexed hash idx hidx
    exact (List.getElem?_eq_some_iff.mp hx).1
  · intro hn
    have hx : txs[n]? = some txs[n] := List.getElem?_eq_getElem hn
    exact ⟨_, _, h.indices n _ hx, rfl⟩

/-- Under an amount, numbers increase with places. -/
theorem OutputsAre.increasing {outs : List FiledOutput} (h : OutputsAre t outs)
    {amount i j : Nat} {row row' : OutKey} (hij : i < j)
    (hrow : t.outputAmounts.get (amount, i) = some row)
    (hrow' : t.outputAmounts.get (amount, j) = some row') : row.outputId < row'.outputId := by
  rw [h.outputAmounts, Option.bind_eq_some_iff] at hrow hrow'
  obtain ⟨x, hx, hkey⟩ := hrow
  obtain ⟨x', hx', hkey'⟩ := hrow'
  obtain ⟨_, _, rfl⟩ := Option.map_eq_some_iff.mp hkey
  obtain ⟨_, _, rfl⟩ := Option.map_eq_some_iff.mp hkey'
  exact places_increasing hij hx hx'

/-- The hashes of the coinbases are there. -/
theorem Books.minerHashes (h : Books C blocks t) : ∀ b ∈ blocks, ∃ hash, b.minerHash C = .ok hash := by
  induction h with
  | empty => exact List.forall_mem_nil _
  | block older booked ih =>
      obtain ⟨hash, hhash, _⟩ := booked.files older.sound older.indexed
      exact List.forall_mem_append.mpr ⟨ih, by simpa using ⟨hash, hhash⟩⟩

/-- The transactions of the chain are those its blocks list, none left out. -/
theorem Books.listed (h : Books C blocks t) :
    (mainTxs C t).map (fun x => (x.height, some x.hash)) = mainListed C t := by
  rw [h.mainTxs_eq, filedTxs, mainListed, h.mainBlocks_eq, List.zipIdx_map, List.flatMap_map,
    List.map_flatMap]
  refine List.flatMap_congr fun x hx => ?_
  have hmem : x.1 ∈ blocks := List.mem_of_getElem? (List.mem_zipIdx_iff_getElem?.mp hx)
  obtain ⟨hash, hhash⟩ := h.minerHashes x.1 hmem
  have hlen := (h.faithful x.1 hmem).retrievable.listed.length_eq
  rw [Handed.filedTxs, hhash, filedAt, List.map_append, List.map_map]
  show (x.2, some hash) :: _ = (x.2, transactionHashFromBlob C.cnFastHash x.1.blk.minerTx
    x.1.blk.minerTx.write) :: _
  rw [storedTxHash_eq_ok.mp hhash]
  refine congrArg _ ?_
  show _ = x.1.blk.txHashes.map fun id => (x.2, some id)
  conv_rhs => rw [← List.map_fst_zip hlen.le, List.map_map]
  rfl

/-! ### The running total -/

/-- The outputs a block brings to the RingCT total. -/
def Handed.rctCount (b : Handed) : Nat :=
  rctOutputs b.blk.minerTx + (b.txs.map fun p => rctOutputs p.1).sum

theorem addBlock_cumRct {blk : Block} {blob : Blob}
    {weight longTermWeight cumulativeDifficulty coins : Nat} {txs : List (Transaction × Blob)}
    (h : t.addBlock C blk blob weight longTermWeight cumulativeDifficulty coins txs = .ok t') :
    ∃ info previous, previousCumRct t = .ok previous ∧
      t'.blockInfo = t.blockInfo.add t.height info ∧
      info.cumRct = cumulativeRctOutputs t.height blk txs previous := by
  simp only [MainTables.addBlock, bind_eq_ok, pure_eq_ok, orNotFound_eq_ok] at h
  obtain ⟨hash, _, previous, hprevious, t₁, h₁, t₂, h₂, rfl⟩ := h
  obtain ⟨_, hinfo, _, _⟩ := (addTransaction_sameBlocks h₁).trans (addTransactions_sameBlocks h₂)
  refine ⟨⟨t.height, blk.header.timestamp, coins, weight, cumulativeDifficulty, hash,
    cumulativeRctOutputs t.height blk txs previous, longTermWeight⟩, previous, hprevious, ?_, rfl⟩
  show t₂.blockInfo.add _ _ = _
  rw [hinfo]
  rfl

/-- **The running total** is the sum over the blocks, from version 4 on. -/
theorem Books.cumRct (h : Books C blocks t) {height : Nat} {info : BlockInfo}
    (hversions : ∀ b ∈ blocks.take (height + 1), 4 ≤ b.blk.header.majorVersion)
    (hinfo : t.blockInfo.get height = some info) :
    info.cumRct = wrap64 ((blocks.take (height + 1)).map Handed.rctCount).sum := by
  induction h generalizing height info with
  | empty => cases hinfo
  | @block blocks t t' b older booked ih =>
      obtain ⟨weight, longTermWeight, cumulativeDifficulty, coins, hadd⟩ := booked.written
      obtain ⟨info', previous, hprevious, htable, hcum⟩ := addBlock_cumRct hadd
      have hnum := older.sound.numbered
      have hlen := older.length_eq
      have hfree : t.blockInfo.get t.height = none := by
        rw [MainTables.height, ← hnum.same]
        exact hnum.blockInfo.get_size
      rw [htable, Table.add_of_get_none hfree, Table.get_put] at hinfo
      split_ifs at hinfo with hk
      · cases hinfo
        subst hk
        have hall : (blocks ++ [b]).take (t.height + 1) = blocks ++ [b] :=
          List.take_of_length_le (by rw [List.length_append, List.length_singleton, hlen])
        rw [hall] at hversions ⊢
        have hversion : b.blk.header.majorVersion ≥ 4 := hversions b (by simp)
        rw [List.map_append, List.sum_append, List.map_singleton, List.sum_singleton, hcum,
          cumulativeRctOutputs]
        rcases Nat.eq_zero_or_pos t.height with hzero | hpos
        · have hnil : blocks = [] := List.eq_nil_of_length_eq_zero (by omega)
          rw [if_neg (by omega), hnil, List.map_nil, List.sum_nil, Nat.zero_add]
          rfl
        · rw [if_pos ⟨hpos, hversion⟩]
          rw [previousCumRct, if_pos hpos] at hprevious
          obtain ⟨last, hlast⟩ := hnum.info (k := t.height - 1) (by omega)
          have htake : blocks.take (t.height - 1 + 1) = blocks :=
            List.take_of_length_le (by omega)
          have hbelow := ih (by rw [htake]; exact fun b hb => hversions b (by simp [hb])) hlast
          rw [MainTables.getBlockInfo, hlast] at hprevious
          cases hprevious
          rw [htake] at hbelow
          show wrap64 (b.rctCount + last.cumRct) = _
          rw [hbelow, wrap64, wrap64, wrap64, Nat.add_mod_mod, Nat.add_comm]
      · have hlt : height < t.height := hnum.lt_height hinfo
        have htake : (blocks ++ [b]).take (height + 1) = blocks.take (height + 1) :=
          List.take_append_of_le_length (by omega)
        rw [htake] at hversions ⊢
        exact ih hversions hinfo

/-! ### What is filed under amount zero -/

/-- A transaction whose outputs are filed under amount zero exactly when it has commitments. -/
structure FiledByVersion (tx : Transaction) : Prop where
  version : tx.txPrefix.version = 1 ∨ tx.txPrefix.version = 2
  clear : tx.txPrefix.version = 1 → ∀ o ∈ tx.txPrefix.vout, o.amount ≠ 0
  hidden : tx.txPrefix.version = 2 → (genHeight tx).isSome ∨ ∀ o ∈ tx.txPrefix.vout, o.amount = 0

theorem storedOutput_filed {tx : Transaction} (h : FiledByVersion tx) {i : Nat} {o : TxOut}
    (ho : o ∈ tx.txPrefix.vout) {s : StoredOutput} (hs : storedOutput C tx i o = .ok s) :
    if tx.txPrefix.version = 2 then s.amount = 0 ∧ s.commitment.isSome = true
    else s.amount ≠ 0 := by
  rw [storedOutput] at hs
  rcases h.version with hv | hv
  · rw [if_neg (by omega)]
    simp only [hv, Nat.reduceBEq, Bool.and_false, Bool.false_eq_true, if_false, gt_iff_lt,
      Nat.lt_irrefl, Except.ok.injEq] at hs
    subst hs
    exact h.clear hv o ho
  · rw [if_pos hv]
    simp only [hv, beq_self_eq_true, Bool.and_true, gt_iff_lt, Nat.one_lt_ofNat, if_true] at hs
    rcases h.hidden hv with hgen | hzero
    · unfold genHeight at hgen
      split at hgen
      · rename_i height hvin
        simp only [hvin, if_true, Except.ok.injEq] at hs
        subst hs
        exact ⟨rfl, rfl⟩
      · cases hgen
    · split_ifs at hs with hminer htype
      · cases hs
        exact ⟨rfl, rfl⟩
      · split at hs
        · cases hs
        · split at hs <;> cases hs
          exact ⟨hzero o ho, rfl⟩
      · split at hs <;> cases hs
        exact ⟨hzero o ho, rfl⟩

theorem storedOutputsFrom_filed {tx : Transaction} (h : FiledByVersion tx) {i : Nat}
    {os : List TxOut} (hos : ∀ o ∈ os, o ∈ tx.txPrefix.vout) {stored : List StoredOutput}
    (hstored : storedOutputsFrom C tx i os = .ok stored) :
    ∀ s ∈ stored, if tx.txPrefix.version = 2 then s.amount = 0 ∧ s.commitment.isSome = true
      else s.amount ≠ 0 := by
  induction os generalizing i stored with
  | nil =>
      simp only [storedOutputsFrom, Except.ok.injEq] at hstored
      subst hstored
      exact List.forall_mem_nil _
  | cons o os ih =>
      simp only [storedOutputsFrom, bind_eq_ok, pure_eq_ok] at hstored
      obtain ⟨s, hs, rest, hrest, rfl⟩ := hstored
      rw [List.forall_mem_cons] at hos
      exact List.forall_mem_cons.mpr ⟨storedOutput_filed h hos.1 hs, ih hos.2 hrest⟩

theorem mem_filedFrom {txHash : Hash256} {unlockTime height i : Nat}
    {list : List (StoredOutput × TxOut)} {o : FiledOutput}
    (ho : o ∈ filedFrom txHash unlockTime height i list) :
    ∃ x ∈ list, o.amount = x.1.amount ∧ o.commitment = x.1.commitment ∧ o.height = height := by
  obtain ⟨n, hn⟩ := List.mem_iff_getElem?.mp ho
  rw [filedFrom_getElem?] at hn
  obtain ⟨x, hx, rfl⟩ := Option.map_eq_some_iff.mp hn
  exact ⟨x, List.mem_of_getElem? hx, rfl, rfl, rfl⟩

/-- A transaction of the chain at a height, filed as its version asks. -/
structure ChainTx.Filed (C : Crypto) (height : Nat) (x : ChainTx) : Prop where
  height : x.height = height
  storable : ∃ stored, storedOutputs C x.tx = .ok stored
  byVersion : FiledByVersion x.tx

/-- Under amount zero are the outputs of version 2, and they have commitments. -/
theorem ChainTx.Filed.outputs {x : ChainTx} {height : Nat} (h : x.Filed C height) :
    (x.outputs C).length = x.tx.txPrefix.vout.length ∧ ∀ o ∈ x.outputs C, o.height = height ∧
      if x.tx.txPrefix.version = 2 then o.amount = 0 ∧ o.commitment.isSome = true
      else o.amount ≠ 0 := by
  obtain ⟨stored, hstored⟩ := h.storable
  have hall : ∀ s ∈ stored, if x.tx.txPrefix.version = 2
      then s.amount = 0 ∧ s.commitment.isSome = true else s.amount ≠ 0 := by
    unfold storedOutputs at hstored
    split at hstored
    · rename_i hfrom
      cases hstored
      exact storedOutputsFrom_filed h.byVersion (fun _ ho => ho) hfrom
    · cases hstored
  rw [ChainTx.outputs, hstored]
  refine ⟨?_, ?_⟩
  · rw [length_filedFrom, List.length_zip]
    show min stored.length _ = _
    rw [storedOutputs_length hstored, Nat.min_self]
  · intro o ho
    obtain ⟨y, hy, hamount, hcommitment, hheight⟩ := mem_filedFrom ho
    rw [hamount, hcommitment, hheight]
    exact ⟨h.height, hall _ (List.of_mem_zip hy).1⟩

/-- Whether an output is filed under amount zero, up to a height. -/
def zeroUpTo (height : Nat) (o : FiledOutput) : Bool := o.amount == 0 && decide (o.height ≤ height)

theorem ChainTx.Filed.count {x : ChainTx} {k : Nat} (h : x.Filed C k) (height : Nat) :
    (x.outputs C).countP (zeroUpTo height) = if k ≤ height then rctOutputs x.tx else 0 := by
  obtain ⟨hlen, hall⟩ := h.outputs
  rw [rctOutputs]
  split_ifs with hk hversion
  · rw [← hlen, List.countP_eq_length]
    intro o ho
    obtain ⟨hheight, hrule⟩ := hall o ho
    rw [if_pos hversion] at hrule
    simp [zeroUpTo, hrule.1, hheight, hk]
  · rw [List.countP_eq_zero]
    intro o ho
    obtain ⟨_, hrule⟩ := hall o ho
    rw [if_neg hversion] at hrule
    simp [zeroUpTo, hrule]
  · rw [List.countP_eq_zero]
    intro o ho
    simp [zeroUpTo, (hall o ho).1, hk]

theorem count_filedOutputs {xs : List ChainTx} {k : Nat} (h : ∀ x ∈ xs, x.Filed C k)
    (height : Nat) : (filedOutputs C xs).countP (zeroUpTo height) =
      if k ≤ height then (xs.map fun x => rctOutputs x.tx).sum else 0 := by
  induction xs with
  | nil => simp [filedOutputs]
  | cons x xs ih =>
      rw [List.forall_mem_cons] at h
      have hrest := ih h.2
      rw [filedOutputs] at hrest ⊢
      rw [List.flatMap_cons, List.countP_append, h.1.count, hrest]
      split_ifs <;> simp

/-- A block at a height whose transactions are filed as their versions ask. -/
structure Handed.Filed (C : Crypto) (height : Nat) (b : Handed) : Prop where
  minerHash : ∃ hash, b.minerHash C = .ok hash
  length : b.blk.txHashes.length = b.txs.length
  txs : ∀ x ∈ b.filedTxs C height, x.Filed C height

theorem Handed.Filed.rctOutputs_eq {b : Handed} {height : Nat} (h : b.Filed C height) :
    ((b.filedTxs C height).map fun x => rctOutputs x.tx).sum = b.rctCount := by
  obtain ⟨hash, hhash⟩ := h.minerHash
  rw [Handed.filedTxs, hhash, filedAt, List.map_append, List.map_map, List.sum_append,
    Handed.rctCount]
  refine congrArg _ ?_
  conv_rhs => rw [← List.map_snd_zip h.length.ge, List.map_map]
  rfl

/-- **Under amount zero** are as many outputs as the running total counts. -/
theorem count_filedTxs {blocks : List Handed}
    (h : ∀ (k : Nat) (b : Handed), blocks[k]? = some b → b.Filed C k) (height : Nat) :
    (filedOutputs C (filedTxs C blocks)).countP (zeroUpTo height) =
      ((blocks.take (height + 1)).map Handed.rctCount).sum := by
  induction blocks using List.reverseRecOn with
  | nil => rfl
  | append_singleton blocks b ih =>
      have hb : b.Filed C blocks.length := h _ _ List.getElem?_concat_length
      have hold := ih fun k b hb => h k b (by
        rw [List.getElem?_append_left (List.getElem?_eq_some_iff.mp hb).1, hb])
      rw [filedTxs_concat, filedOutputs, List.flatMap_append, List.countP_append]
      rw [filedOutputs] at hold
      have hnew := count_filedOutputs hb.txs height
      rw [filedOutputs, hb.rctOutputs_eq] at hnew
      rw [hold, hnew, List.take_append, List.map_append, List.sum_append]
      split_ifs with hle
      · have htake : [b].take (height + 1 - blocks.length) = [b] :=
          List.take_of_length_le (by rw [List.length_singleton]; omega)
        rw [htake, List.map_singleton, List.sum_singleton]
      · have htake : height + 1 - blocks.length = 0 := by omega
        rw [htake, List.take_zero, List.map_nil, List.sum_nil]

private theorem filterMap_range_bind {α β : Type} (f : α → Option β) (l : List α) :
    ((List.range l.length).filterMap fun k => (l[k]?).bind f) = l.filterMap f := by
  induction l with
  | nil => rfl
  | cons a l ih =>
      rw [List.length_cons, List.range_succ_eq_map, List.filterMap_cons, List.filterMap_map,
        List.filterMap_cons]
      simp only [List.getElem?_cons_zero, Option.bind_some, Function.comp_def,
        List.getElem?_cons_succ, ih]

/-- The records under an amount are those of the outputs filed under it. -/
theorem OutputsAre.recordsUnder_eq {outs : List FiledOutput} (h : OutputsAre t outs)
    (hs : OutSound t) (amount : Nat) :
    recordsUnder t amount = (underAmount amount outs).filterMap fun x => x.1.outKey x.2 := by
  rw [recordsUnder, h.getNumOutputs hs]
  conv_rhs => rw [← filterMap_range_bind]
  exact List.filterMap_congr fun i _ => h.outputAmounts amount i

theorem OutputsAre.count_records {outs : List FiledOutput} (h : OutputsAre t outs)
    (hs : OutSound t) (height : Nat) :
    ((recordsUnder t 0).countP fun row => row.height ≤ height) = outs.countP (zeroUpTo height) := by
  rw [h.recordsUnder_eq hs, List.countP_filterMap]
  refine Eq.trans ?_ (countP_places fun o : FiledOutput => decide (o.height ≤ height))
  refine List.countP_congr fun x hx => ?_
  have hkey := h.keyed _ (List.mem_of_getElem? (of_mem_places hx).1)
  obtain ⟨key, hkey⟩ := Option.isSome_iff_exists.mp hkey
  simp [FiledOutput.outKey, hkey]

theorem mem_filedTxs_of_get {k : Nat} {b : Handed} (hb : blocks[k]? = some b) {x : ChainTx}
    (hx : x ∈ b.filedTxs C k) : x ∈ filedTxs C blocks :=
  List.mem_flatMap.mpr ⟨(b, k), List.mem_zipIdx_iff_getElem?.mpr hb, hx⟩

/-- An output of the chain is one of a transaction of some block. -/
theorem outputs_filed (h : ∀ (k : Nat) (b : Handed), blocks[k]? = some b → b.Filed C k) {o : FiledOutput}
    (ho : o ∈ filedOutputs C (filedTxs C blocks)) (hzero : o.amount = 0) :
    o.commitment.isSome = true := by
  obtain ⟨x, hx, ho⟩ := List.mem_flatMap.mp ho
  obtain ⟨⟨b, k⟩, hb, hx⟩ := List.mem_flatMap.mp hx
  obtain ⟨_, hall⟩ := ((h k b (List.mem_zipIdx_iff_getElem?.mp hb)).txs x hx).outputs
  obtain ⟨_, hrule⟩ := hall o ho
  split_ifs at hrule with hversion
  · exact hrule.2
  · exact absurd hzero hrule

/-- **A store with books** resolves ring references by its main chain alone, when the transactions
    of its blocks are filed as their versions ask. -/
theorem Books.ringsRight (h : Books C blocks t)
    (hfiled : ∀ (k : Nat) (b : Handed), blocks[k]? = some b → b.Filed C k) :
    RingsRight C t := by
  have hs : OutSound t := ⟨h.sound.txs.outs.outputTxs, h.sound.txs.outs.outputAmounts⟩
  have hare := h.mainTxsAre
  refine ⟨?_, h.listed, hare.txIds, hare.indices, hare.outputs.outputTxs,
    hare.outputs.outputAmounts, hs.outputAmounts, ?_, ?_, ?_, ?_⟩
  · rw [h.mainBlocks_eq, List.length_map, h.length_eq]
  · intro amount i j row row' hij hrow hrow'
    exact hare.outputs.increasing hij hrow hrow'
  · intro k x hx
    exact hare.found hx
  · intro i row hrow
    rw [h.txsAre.outputs.outputAmounts, Option.bind_eq_some_iff] at hrow
    obtain ⟨x, hx, hkey⟩ := hrow
    obtain ⟨hplace, hamount⟩ := of_mem_places (List.mem_of_getElem? hx)
    obtain ⟨key, _, rfl⟩ := Option.map_eq_some_iff.mp hkey
    exact outputs_filed hfiled (List.mem_of_getElem? hplace) (beq_iff_eq.mp hamount)
  · intro height info hversions hinfo
    rw [h.txsAre.outputs.count_records hs, count_filedTxs hfiled]
    refine h.cumRct ?_ hinfo
    intro b hb
    obtain ⟨k, hk, hbk⟩ := List.mem_iff_getElem.mp hb
    have hk' : k < height + 1 := lt_of_lt_of_le hk (List.length_take_le _ _)
    rw [List.getElem_take] at hbk
    have hat : t.blockAt k = some b.blk := by
      rw [h.blockAt_eq, List.getElem?_eq_some_iff.mpr ⟨_, hbk⟩, Option.map_some]
    exact le_trans (by decide) (hversions k (by omega) _ hat)

end

/-! ### Runs -/

/-- No output of a transaction of version 1, the coinbase included, is of amount zero. -/
def Handed.NoClearZero (b : Handed) : Prop :=
  ∀ tx ∈ b.blk.minerTx :: b.txs.map (·.1), tx.txPrefix.version = 1 →
    ∀ o ∈ tx.txPrefix.vout, o.amount ≠ 0

instance (b : Handed) : Decidable b.NoClearZero :=
  inferInstanceAs (Decidable (∀ tx ∈ b.blk.minerTx :: b.txs.map (·.1), tx.txPrefix.version = 1 →
    ∀ o ∈ tx.txPrefix.vout, o.amount ≠ 0))

/-- From version 2 on, no transaction but the coinbase has an amount in the clear. -/
def Handed.AmountsHidden (b : Handed) : Prop :=
  ∀ p ∈ b.txs, 2 ≤ p.1.txPrefix.version → ∀ o ∈ p.1.txPrefix.vout, o.amount = 0

theorem checkTxSemantic_hidden {tx : Transaction} {fee : Option Nat}
    (h : checkTxSemantic tx = .ok fee) (hversion : 2 ≤ tx.txPrefix.version) :
    ∀ o ∈ tx.txPrefix.vout, o.amount = 0 := by
  rw [checkTxSemantic, if_ok_iff] at h
  obtain ⟨_, h⟩ := h
  simp only [bind_eq_ok] at h
  obtain ⟨sum, _, ⟨⟩, houtputs, _⟩ := h
  intro o ho
  exact (checkSemanticOutputs_ok.mp houtputs o ho).2 hversion

section

variable {σ : Type} {P : Params σ}

/-- The node asks it of every block it does not trust. -/
theorem addBlock_amountsHidden (htrusted : P.trustedBelow = 0) {c c' : Chain σ} {b : Handed}
    {now : Nat} {added : Added}
    (h : Chain.addBlock P c b.blk b.blob b.txs now = (.ok added, c')) : b.AmountsHidden := by
  intro p hp hversion
  obtain ⟨fee, hrules⟩ := accepted_rules h (by rw [htrusted]; exact Nat.zero_le _) hp
  exact checkTxSemantic_hidden (checkTxRules_ok.mp hrules).1 hversion

theorem Books.filed_byVersion {C : Crypto} {t : MainTables} {blocks : List Handed}
    {handed : Handed → Prop} (h : Books C blocks t)
    (hblocks : ∀ b ∈ blocks, Known C handed b ∧ b.AmountsHidden)
    (hclear : ∀ b, handed b → b.NoClearZero) {k : Nat} {b : Handed} (hb : blocks[k]? = some b) :
    b.Filed C k := by
  have hmem := List.mem_of_getElem? hb
  obtain ⟨⟨hfaithful, blob, hhanded⟩, hhidden⟩ := hblocks b hmem
  have hclears : b.NoClearZero := hclear ⟨b.blk, blob, b.txs⟩ hhanded
  obtain ⟨gen, _, hgen⟩ := h.genHeights b hmem
  have hlisted := hfaithful.retrievable.listed
  refine ⟨h.minerHashes b hmem, hlisted.length_eq, ?_⟩
  intro x hx
  have hstorable := h.txsAre.storable x (mem_filedTxs_of_get hb hx)
  rw [Handed.filedTxs] at hx
  rcases List.mem_append.mp hx with hx | hx
  · obtain ⟨hash, _, rfl⟩ := Option.map_eq_some_iff.mp (Option.mem_toList.mp hx)
    refine ⟨rfl, hstorable, (fromBlob_fits hfaithful.retrievable.minerParses).1.version, ?_, ?_⟩
    · exact hclears b.blk.minerTx List.mem_cons_self
    · intro _
      rw [hgen]
      exact Or.inl rfl
  · obtain ⟨y, hy, rfl⟩ := List.mem_map.mp hx
    have hp : y.2 ∈ b.txs := (List.of_mem_zip hy).2
    refine ⟨rfl, hstorable, (fromBlob_fits (hlisted.parses _ hp)).1.version, ?_, ?_⟩
    · exact hclears y.2.1 (List.mem_cons_of_mem _ (List.mem_map_of_mem hp))
    · intro hversion
      exact Or.inr (hhidden _ hp hversion.ge)

/-- Stores with the same main chain resolve every ring alike. -/
theorem TxsAre.getOutputKeys_eq {C : Crypto} {t t' : MainTables} (h : TxsAre C t (mainTxs C t))
    (h' : TxsAre C t' (mainTxs C t')) (hsame : SameMainChain t t') (amount : Nat)
    (offsets : List Nat) : t.getOutputKeys C amount offsets = t'.getOutputKeys C amount offsets := by
  have hget : ∀ i, t.outputAmounts.get (amount, i) = t'.outputAmounts.get (amount, i) := by
    intro i
    rw [h.outputs.outputAmounts, h'.outputs.outputAmounts, hsame.mainTxs_eq]
  rw [MainTables.getOutputKeys, MainTables.getOutputKeys]
  simp only [hget]

/-- **Ring references stay right.**  After any run of blocks that come back from the store as they
    went in, none with an output of version 1 and amount zero, the tables are those of the main
    chain; and after two such runs that end on the same main chain, every ring is resolved alike. -/
theorem ring_references (htrusted : P.trustedBelow = 0) {v : σ} {c₀ : Chain σ}
    (hopen : Chain.new P Store.empty v = .ok c₀) (actions : List (Action σ))
    (hgood : FaithfullyHanded P.crypto (handedIn actions))
    (hclear : ∀ b, handedIn actions b → b.NoClearZero) :
    RingsRight P.crypto (c₀.run P actions).db.main ∧
      ∀ (v' : σ) (c₀' : Chain σ) (actions' : List (Action σ)),
        Chain.new P Store.empty v' = .ok c₀' →
        FaithfullyHanded P.crypto (handedIn actions') →
        SameMainChain (c₀.run P actions).db.main (c₀'.run P actions').db.main →
        ∀ amount offsets, (c₀.run P actions).db.main.getOutputKeys P.crypto amount offsets =
          (c₀'.run P actions').db.main.getOutputKeys P.crypto amount offsets := by
  obtain ⟨⟨blocks, hbooks, hblocks⟩, _⟩ := run_wellBookedBy hgood
    (addBlock_amountsHidden htrusted) hopen actions fun _ ha _ hb => handedIn_of_carried ha hb
  refine ⟨hbooks.ringsRight fun k b hb => hbooks.filed_byVersion hblocks hclear hb, ?_⟩
  intro v' c₀' actions' hopen' hgood' hsame amount offsets
  obtain ⟨⟨blocks', hbooks', _⟩, _⟩ := run_wellBooked hgood' hopen' actions'
    fun _ ha _ hb => handedIn_of_carried ha hb
  exact hbooks.mainTxsAre.getOutputKeys_eq hbooks'.mainTxsAre hsame amount offsets

end

namespace Sample

/-- A reorganisation: the first block gives way to its rival when a block follows that one. -/
def overtaken : List (Action Unit) :=
  fork first.toBlob ++ [.handleBlock second second.toBlob [] clock]

/-- The chain it ends on, without the detour. -/
def straight : List (Action Unit) :=
  [.addBlock genesis genesis.toBlob [] clock, .addBlock rival rival.toBlob [] clock,
    .addBlock second second.toBlob [] clock]

/-- The three outputs of the chain are found under the same places with and without the detour. -/
theorem ring_references_overtaken :
    RingsRight crypto ((opened ()).run bare overtaken).db.main ∧
      ((opened ()).run bare overtaken).db.main.getNumOutputs 0 = 3 ∧
      ((opened ()).run bare overtaken).db.main.getOutputKeys crypto 0 [0, 1, 2] =
        ((opened ()).run bare straight).db.main.getOutputKeys crypto 0 [0, 1, 2] := by
  have hgood : FaithfullyHanded crypto (handedIn overtaken) :=
    WellHanded.faithfullyHanded (by decide +kernel)
  have hgood' : FaithfullyHanded crypto (handedIn straight) :=
    WellHanded.faithfullyHanded (by decide +kernel)
  have hclear : ∀ b, handedIn overtaken b → b.NoClearZero := by
    simp only [handedIn_iff]
    decide
  have hmain : ((opened ()).run bare overtaken).db.main =
      ((opened ()).run bare straight).db.main := by decide +kernel
  have hsame : SameMainChain ((opened ()).run bare overtaken).db.main
      ((opened ()).run bare straight).db.main := by
    rw [hmain]
    exact ⟨rfl, fun _ _ => rfl⟩
  obtain ⟨hright, hrings⟩ :=
    ring_references (P := bare) rfl (new_empty bare ()) overtaken hgood hclear
  exact ⟨hright, by decide +kernel, hrings () _ straight (new_empty bare ()) hgood' hsame 0 [0, 1, 2]⟩

/-- A coinbase of version 1 that pays nothing to a second key. -/
def clearCoinbase : Transaction :=
  let p : TransactionPrefix :=
    ⟨1, 60, [.gen 0], [⟨17592186044415, .toKey 8⟩, ⟨0, .toKey 16⟩], []⟩
  { txPrefix := p
    signatures := [[]]
    prefixSize := p.write.length
    unprunableSize := p.write.length }

def clearGenesis : Block := { genesis with minerTx := clearCoinbase }

def clearStart : List (Action Unit) := [.addBlock clearGenesis clearGenesis.toBlob [] clock]

/-- A first block is accepted whose second output is filed under amount zero, without a commitment
    and without being counted. -/
theorem clear_zero_filed :
    bare.trustedBelow = 0 ∧ FaithfullyHanded crypto (handedIn clearStart) ∧
      ((opened ()).run bare clearStart).db.main.blockAt 0 = some clearGenesis ∧
      clearGenesis.header.majorVersion = 7 ∧
      recordsUnder ((opened ()).run bare clearStart).db.main 0 = [⟨1, 16, 60, 0, none⟩] ∧
      (((opened ()).run bare clearStart).db.main.blockInfo.get 0).map (·.cumRct) = some 0 ∧
      ¬ RingsRight crypto ((opened ()).run bare clearStart).db.main := by
  have hgood : FaithfullyHanded crypto (handedIn clearStart) :=
    WellHanded.faithfullyHanded (by decide +kernel)
  have hrow : ((opened ()).run bare clearStart).db.main.outputAmounts.get (0, 0) =
      some ⟨1, 16, 60, 0, none⟩ := by decide
  refine ⟨rfl, hgood, by decide +kernel, by decide +kernel, by decide +kernel, by decide +kernel, ?_⟩
  intro hright
  exact absurd (hright.committed 0 _ hrow) (by decide)

end Sample

end Wownero
