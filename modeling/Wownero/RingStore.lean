import Wownero.Numbering
import Wownero.Spends
/-!
# Where outputs are filed

A ring names its members by their place among the outputs of an amount.  The place is a count that
`add_output` takes in the middle of an update of many tables, and `pop_block` takes rows off again
so that later counts come out the same.  Here every row of these tables is read off the list of
transactions the store was written with: numbers of transactions, numbers of outputs, and the place
of each output under its amount.
-/

namespace Wownero

open Outcome Numbering

/-! ### Transactions and outputs as they are filed -/

/-- A transaction of the main chain, with the height of its block and the hash it is stored
    under. -/
structure ChainTx where
  height : Nat
  hash : Hash256
  tx : Transaction
  deriving DecidableEq, Repr

/-- An output as the store files it. -/
structure FiledOutput where
  txHash : Hash256
  localIndex : Nat
  amount : Nat
  target : TxOutTarget
  unlockTime : Nat
  height : Nat
  commitment : Option EcPoint
  deriving DecidableEq, Repr

namespace FiledOutput

/-- Its row in `output_txs`. -/
def outTx (o : FiledOutput) : OutTx := ⟨o.txHash, o.localIndex⟩

/-- Its row in `output_amounts`, under a number. -/
def outKey (o : FiledOutput) (outputId : Nat) : Option OutKey :=
  o.target.publicKey.map fun key => ⟨outputId, key, o.unlockTime, o.height, o.commitment⟩

end FiledOutput

/-- The outputs of a transaction as they are filed, from an index on. -/
def filedFrom (txHash : Hash256) (unlockTime height : Nat) :
    Nat → List (StoredOutput × TxOut) → List FiledOutput
  | _, [] => []
  | i, (s, o) :: rest =>
      ⟨txHash, i, s.amount, o.target, unlockTime, height, s.commitment⟩ ::
        filedFrom txHash unlockTime height (i + 1) rest

/-- The outputs of a transaction of the main chain as they are filed. -/
def ChainTx.outputs (C : Crypto) (x : ChainTx) : List FiledOutput :=
  filedFrom x.hash x.tx.txPrefix.unlockTime x.height 0
    (((storedOutputs C x.tx).toOption.getD []).zip x.tx.txPrefix.vout)

/-- The outputs filed under an amount, each with its number. -/
def underAmount (amount : Nat) (outs : List FiledOutput) : List (FiledOutput × Nat) :=
  places (fun o => o.amount == amount) outs

theorem underAmount_concat (amount : Nat) (outs : List FiledOutput) (o : FiledOutput) :
    underAmount amount (outs ++ [o]) =
      underAmount amount outs ++ if o.amount = amount then [(o, outs.length)] else [] := by
  rw [underAmount, places_concat]
  simp only [beq_iff_eq]
  rfl

/-- The places these outputs are given when those are filed already. -/
def amountIndices : List FiledOutput → List FiledOutput → List Nat
  | _, [] => []
  | filed, o :: rest =>
      (underAmount o.amount filed).length :: amountIndices (filed ++ [o]) rest

theorem length_filedFrom (txHash : Hash256) (unlockTime height i : Nat)
    (outs : List (StoredOutput × TxOut)) :
    (filedFrom txHash unlockTime height i outs).length = outs.length := by
  induction outs generalizing i with
  | nil => rfl
  | cons out outs ih => rw [filedFrom, List.length_cons, List.length_cons, ih]

theorem filedFrom_getElem? (txHash : Hash256) (unlockTime height i n : Nat)
    (outs : List (StoredOutput × TxOut)) :
    (filedFrom txHash unlockTime height i outs)[n]? = (outs[n]?).map fun x =>
      ⟨txHash, i + n, x.1.amount, x.2.target, unlockTime, height, x.1.commitment⟩ := by
  induction outs generalizing i n with
  | nil => rfl
  | cons out outs ih =>
      cases n with
      | zero => rfl
      | succ n =>
          rw [filedFrom, List.getElem?_cons_succ, List.getElem?_cons_succ, ih]
          simp only [Nat.add_assoc, Nat.add_comm 1]

/-! ### Outputs -/

/-- The two tables of outputs hold these, in order. -/
structure OutputsAre (t : MainTables) (outs : List FiledOutput) : Prop where
  keyed : ∀ o ∈ outs, o.target.publicKey.isSome = true
  outputTxs : ∀ n, t.outputTxs.get n = (outs[n]?).map FiledOutput.outTx
  outputAmounts : ∀ amount i, t.outputAmounts.get (amount, i) =
    ((underAmount amount outs)[i]?).bind fun x => x.1.outKey x.2

/-- This place under its amount leads to the output, and its number to the transaction. -/
def Resolves (t : MainTables) (amountIndex : Nat) (o : FiledOutput) : Prop :=
  ∃ row, t.outputAmounts.get (o.amount, amountIndex) = some row ∧
    o.outKey row.outputId = some row ∧ t.outputTxs.get row.outputId = some o.outTx

theorem outputsAre_empty : OutputsAre MainTables.empty [] :=
  ⟨List.forall_mem_nil _, fun _ => rfl, fun _ _ => rfl⟩

section

variable {t t' : MainTables} {outs : List FiledOutput}

theorem OutputsAre.of_eq (h : OutputsAre t outs) (htxs : t'.outputTxs = t.outputTxs)
    (hamounts : t'.outputAmounts = t.outputAmounts) : OutputsAre t' outs :=
  ⟨h.keyed, fun n => by rw [htxs, h.outputTxs], fun a i => by rw [hamounts, h.outputAmounts]⟩

/-- Numbers are given by count. -/
theorem OutputsAre.size (h : OutputsAre t outs) (hs : OutSound t) :
    t.outputTxs.size = outs.length :=
  hs.outputTxs.size_eq h.outputTxs

theorem OutputsAre.isSome_iff (h : OutputsAre t outs) (amount i : Nat) :
    (t.outputAmounts.get (amount, i)).isSome ↔ i < (underAmount amount outs).length := by
  rw [h.outputAmounts]
  cases hx : (underAmount amount outs)[i]? with
  | none => simpa using List.getElem?_eq_none_iff.mp hx
  | some x =>
      have hmem := List.mem_of_getElem? hx
      have hkey := h.keyed _ (List.mem_of_getElem? (of_mem_places hmem).1)
      have hlt := (List.getElem?_eq_some_iff.mp hx).1
      rw [Option.bind_some, FiledOutput.outKey, Option.isSome_map, hkey]
      exact iff_of_true rfl hlt

/-- Places are given by count. -/
theorem OutputsAre.getNumOutputs (h : OutputsAre t outs) (hs : OutSound t) (amount : Nat) :
    t.getNumOutputs amount = (underAmount amount outs).length := by
  have hiff : ∀ i, i < t.getNumOutputs amount ↔ i < (underAmount amount outs).length := by
    intro i
    rw [← hs.outputAmounts, h.isSome_iff]
  rcases Nat.lt_trichotomy (t.getNumOutputs amount) (underAmount amount outs).length with
    hlt | heq | hgt
  · exact absurd ((hiff _).mpr hlt) (Nat.lt_irrefl _)
  · exact heq
  · exact absurd ((hiff _).mp hgt) (Nat.lt_irrefl _)

/-- Every output is found under the place it was given. -/
theorem OutputsAre.resolves (h : OutputsAre t outs) {n : Nat} {o : FiledOutput}
    (ho : outs[n]? = some o) : Resolves t (underAmount o.amount (outs.take n)).length o := by
  obtain ⟨key, hkey⟩ := Option.isSome_iff_exists.mp (h.keyed o (List.mem_of_getElem? ho))
  have hplace : (underAmount o.amount outs)[(underAmount o.amount (outs.take n)).length]? =
      some (o, n) := by
    rw [underAmount, underAmount, length_places]
    exact places_countP ho (beq_self_eq_true _)
  refine ⟨⟨n, key, o.unlockTime, o.height, o.commitment⟩, ?_, ?_, ?_⟩
  · rw [h.outputAmounts, hplace, Option.bind_some, FiledOutput.outKey, hkey, Option.map_some]
  · rw [FiledOutput.outKey, hkey, Option.map_some]
  · rw [h.outputTxs, ho, Option.map_some]

/-- The places outputs were given lead to them. -/
theorem OutputsAre.resolves_all {filed added later : List FiledOutput}
    (h : OutputsAre t (filed ++ (added ++ later))) :
    List.Forall₂ (Resolves t) (amountIndices filed added) added := by
  induction added generalizing filed with
  | nil => exact .nil
  | cons o added ih =>
      have hfirst := h.resolves (n := filed.length) (o := o) (by simp)
      rw [List.take_left] at hfirst
      refine .cons hfirst (ih ?_)
      rw [List.append_assoc]
      exact h

/-- **One output.** -/
theorem OutputsAre.add (h : OutputsAre t outs) (hs : OutSound t) {o : FiledOutput}
    {pubkey : PublicKey} (hkey : o.target.publicKey = some pubkey) :
    OutputsAre (addOutput t o.txHash o.amount pubkey o.localIndex o.unlockTime o.height
      o.commitment).2 (outs ++ [o]) := by
  rw [addOutput_eq hs]
  refine ⟨?_, ?_, ?_⟩
  · refine List.forall_mem_append.mpr ⟨h.keyed, ?_⟩
    rw [List.forall_mem_singleton, hkey]
    rfl
  · intro n
    show (t.outputTxs.put _ _).get n = _
    rw [Table.get_put, h.size hs, List.getElem?_append]
    split_ifs with hn hlt hlt
    · omega
    · subst hn
      rw [Nat.sub_self]
      rfl
    · exact h.outputTxs n
    · rw [h.outputTxs, List.getElem?_eq_none (by omega), List.getElem?_eq_none]
      rw [List.length_singleton]
      omega
  · intro amount i
    show (t.outputAmounts.put _ _).get (amount, i) = _
    rw [Table.get_put, underAmount_concat, h.getNumOutputs hs, h.size hs, h.outputAmounts]
    by_cases ha : o.amount = amount
    · subst ha
      rw [if_pos rfl, List.getElem?_append]
      simp only [Prod.mk.injEq, true_and]
      split_ifs with hi hlt hlt
      · exact absurd hi (Nat.ne_of_lt hlt)
      · subst hi
        rw [Nat.sub_self, List.getElem?_cons_zero, Option.bind_some, FiledOutput.outKey, hkey,
          Option.map_some]
      · rfl
      · rw [List.getElem?_eq_none (Nat.le_of_not_lt hlt), List.getElem?_eq_none]
        rw [List.length_singleton]
        omega
    · have hkeys : (amount, i) ≠ (o.amount, (underAmount o.amount outs).length) := by
        intro heq
        exact ha (Prod.mk.inj heq).1.symm
      rw [if_neg hkeys, if_neg ha, List.append_nil]

/-- **The outputs of a transaction**, with the places they are given. -/
theorem OutputsAre.addOutputs {txHash : Hash256} {unlockTime height i : Nat}
    {list : List (StoredOutput × TxOut)} {indices : List Nat}
    (hadd : Wownero.addOutputs txHash unlockTime height i list t = .ok (indices, t'))
    (h : OutputsAre t outs) (hs : OutSound t) :
    OutputsAre t' (outs ++ filedFrom txHash unlockTime height i list) ∧
      indices = amountIndices outs (filedFrom txHash unlockTime height i list) := by
  induction list generalizing i t outs indices with
  | nil =>
      simp only [Wownero.addOutputs, Except.ok.injEq, Prod.mk.injEq] at hadd
      obtain ⟨rfl, rfl⟩ := hadd
      rw [filedFrom, List.append_nil]
      exact ⟨h, rfl⟩
  | cons out list ih =>
      obtain ⟨s, o⟩ := out
      simp only [Wownero.addOutputs, bind_eq_ok, pure_eq_ok, orNotFound_eq_ok] at hadd
      obtain ⟨pubkey, hkey, ⟨rest, t₁⟩, hrest, heq⟩ := hadd
      cases heq
      have hone := h.add hs
        (o := ⟨txHash, i, s.amount, o.target, unlockTime, height, s.commitment⟩) hkey
      obtain ⟨hall, hindices⟩ := ih hrest hone (addOutput_outSound hs)
      rw [List.append_assoc, List.singleton_append] at hall
      refine ⟨hall, ?_⟩
      rw [filedFrom, amountIndices, ← h.getNumOutputs hs]
      exact congrArg (_ :: ·) hindices

end

/-! ### Transactions -/

/-- The outputs of these transactions, in order. -/
def filedOutputs (C : Crypto) (txs : List ChainTx) : List FiledOutput :=
  txs.flatMap fun x => x.outputs C

/-- The tables of transactions and outputs hold these, in order. -/
structure TxsAre (C : Crypto) (t : MainTables) (txs : List ChainTx) : Prop where
  count : t.txsPruned.size = txs.length
  indices : ∀ k x, txs[k]? = some x →
    t.txIndices.get x.hash = some ⟨k, x.tx.txPrefix.unlockTime, x.height⟩
  indexed : ∀ hash idx, t.txIndices.get hash = some idx →
    ∃ x, txs[idx.txId]? = some x ∧ x.hash = hash
  storable : ∀ x ∈ txs, ∃ stored, storedOutputs C x.tx = .ok stored
  outputs : OutputsAre t (filedOutputs C txs)
  txOutputs : ∀ k, t.txOutputs.get k = (txs[k]?).map fun x =>
    amountIndices (filedOutputs C (txs.take k)) (x.outputs C)

section

variable {C : Crypto} {t t₁ t' : MainTables} {txs : List ChainTx}

theorem txsAre_empty : TxsAre C MainTables.empty [] :=
  ⟨rfl, nofun, nofun, List.forall_mem_nil _, outputsAre_empty, fun _ => rfl⟩

/-- The transaction that was added, as it is filed. -/
theorem AddedTx.outputs_eq {height : Nat} {tx : Transaction} {blob : Blob} {hash : Hash256}
    {stored : List StoredOutput} {indices : List Nat}
    (h : AddedTx C t height tx blob hash stored indices t₁ t') :
    (⟨height, hash, tx⟩ : ChainTx).outputs C =
      filedFrom hash tx.txPrefix.unlockTime height 0 (stored.zip tx.txPrefix.vout) := by
  rw [ChainTx.outputs, h.storedOuts]
  rfl

/-- **One transaction.** -/
theorem TxsAre.add {height : Nat} {tx : Transaction} {blob : Blob} {hash : Hash256}
    {stored : List StoredOutput} {indices : List Nat} (h : TxsAre C t txs)
    (hadded : AddedTx C t height tx blob hash stored indices t₁ t') (hs : TxSound t)
    (hfresh : t.txIndices.get hash = none) : TxsAre C t' (txs ++ [⟨height, hash, tx⟩]) := by
  have hsame := addOutputs_sameTxs hadded.outputs
  have hindex : ∀ hash', t'.txIndices.get hash' = if hash' = hash
      then some ⟨txs.length, tx.txPrefix.unlockTime, height⟩ else t.txIndices.get hash' := by
    intro hash'
    rw [hadded.txIndices, Table.add_of_get_none hfresh, Table.get_put, h.count]
  obtain ⟨houts, hindices⟩ := OutputsAre.addOutputs hadded.outputs
    ⟨h.outputs.keyed, h.outputs.outputTxs, h.outputs.outputAmounts⟩
    ⟨hs.outs.outputTxs, hs.outs.outputAmounts⟩
  rw [← hadded.outputs_eq] at houts hindices
  refine ⟨?_, ?_, ?_, ?_, ?_, ?_⟩
  · rw [hadded.tables]
    show t₁.txsPruned.size = _
    rw [hsame.txsPruned, Table.size_put_of_get_none hs.txsPruned.get_size, h.count,
      List.length_append, List.length_singleton]
  · intro k x hx
    rw [hindex]
    rcases Nat.lt_or_ge k txs.length with hlt | hge
    · rw [List.getElem?_append_left hlt] at hx
      have hold := h.indices k x hx
      have hne : x.hash ≠ hash := by
        intro heq
        rw [heq, hfresh] at hold
        cases hold
      rw [if_neg hne]
      exact hold
    · have hk : k = txs.length := by
        have hbound := (List.getElem?_eq_some_iff.mp hx).1
        rw [List.length_append, List.length_singleton] at hbound
        omega
      subst hk
      rw [List.getElem?_concat_length, Option.some.injEq] at hx
      subst hx
      rw [if_pos rfl]
  · intro hash' idx hidx
    rw [hindex] at hidx
    split_ifs at hidx with heq
    · cases hidx
      exact ⟨_, List.getElem?_concat_length .., heq.symm⟩
    · obtain ⟨x, hx, hhash⟩ := h.indexed hash' idx hidx
      exact ⟨x, by rw [List.getElem?_append_left (List.getElem?_eq_some_iff.mp hx).1, hx], hhash⟩
  · refine List.forall_mem_append.mpr ⟨h.storable, ?_⟩
    exact List.forall_mem_singleton.mpr ⟨stored, hadded.storedOuts⟩
  · rw [filedOutputs, List.flatMap_append, List.flatMap_singleton, hadded.tables]
    exact houts.of_eq rfl rfl
  · intro k
    rw [hadded.tables]
    show (t₁.txOutputs.put _ _).get k = _
    rw [Table.get_put, hsame.txOutputs, h.count]
    split_ifs with hk
    · subst hk
      rw [List.getElem?_concat_length, List.take_left, hindices]
      rfl
    · show t.txOutputs.get k = _
      rw [h.txOutputs]
      rcases Nat.lt_or_ge k txs.length with hlt | hge
      · rw [List.getElem?_append_left hlt, List.take_append_of_le_length hlt.le]
      · have hout : (txs ++ [(⟨height, hash, tx⟩ : ChainTx)]).length ≤ k := by
          rw [List.length_append, List.length_singleton]
          omega
        rw [List.getElem?_eq_none hge, List.getElem?_eq_none hout]
        rfl

/-- Transactions as they are filed, with the ids they are listed under. -/
def filedAt (height : Nat) (hashes : List Hash256) (txs : List (Transaction × Blob)) :
    List ChainTx :=
  (hashes.zip txs).map fun x => ⟨height, x.1, x.2.1⟩

/-- **The transactions of a block.** -/
theorem TxsAre.addTransactions {height : Nat} {list : List (Transaction × Blob)}
    {hashes : List Hash256} (hadd : Wownero.addTransactions C height list t = .ok t')
    (h : TxsAre C t txs) (hs : TxSound t) (hlisted : ListedAs C hashes list)
    (hnew : NewTxs t hashes list) : TxsAre C t' (txs ++ filedAt height hashes list) := by
  induction list generalizing t hashes txs with
  | nil =>
      have hnil : hashes = [] := List.map_eq_nil_iff.mp hlisted.named.symm
      simp only [Wownero.addTransactions, Except.ok.injEq] at hadd
      subst hadd hnil
      rw [filedAt, List.zip_nil_left, List.map_nil, List.append_nil]
      exact h
  | cons p list ih =>
      obtain ⟨tx, blob⟩ := p
      cases hashes with
      | nil => exact absurd hlisted.named (by simp)
      | cons hash hashes =>
          simp only [Wownero.addTransactions, bind_eq_ok] at hadd
          obtain ⟨t₁, h₁, h₂⟩ := hadd
          obtain ⟨txHash, stored, indices, t₀, hadded⟩ := addTransaction_added h₁
          obtain ⟨hhead, htail⟩ := List.cons.inj hlisted.named
          have heq : txHash = hash := Except.ok.inj (hadded.hash.symm.trans hhead)
          subst heq
          have hlisted' : ListedAs C hashes list :=
            ⟨fun p hp => hlisted.parses p (List.mem_cons_of_mem _ hp), htail⟩
          have hone := h.add hadded hs (hnew.unseen _ List.mem_cons_self)
          have hall := ih h₂ hone (hadded.txSound hs) hlisted' (hnew.tail hadded)
          rw [List.append_assoc, List.singleton_append] at hall
          exact hall

/-! ### Blocks -/

/-- The transactions of a block as they are filed: the coinbase first, then the others in the order
    of their ids. -/
def Handed.filedTxs (C : Crypto) (height : Nat) (b : Handed) : List ChainTx :=
  ((b.minerHash C).toOption.map fun hash => ⟨height, hash, b.blk.minerTx⟩).toList ++
    filedAt height b.blk.txHashes b.txs

/-- The transactions of blocks, oldest first. -/
def filedTxs (C : Crypto) (blocks : List Handed) : List ChainTx :=
  blocks.zipIdx.flatMap fun x => x.1.filedTxs C x.2

theorem filedTxs_concat (blocks : List Handed) (b : Handed) :
    filedTxs C (blocks ++ [b]) = filedTxs C blocks ++ b.filedTxs C blocks.length := by
  rw [filedTxs, List.zipIdx_append, List.flatMap_append]
  simp [filedTxs]

/-- **Writing a block** files its transactions. -/
theorem Booked.txsAre {b : Handed} (hbooked : Booked C t b t') (hs : Sound t)
    (h : TxsAre C t txs) : TxsAre C t' (txs ++ b.filedTxs C t.height) := by
  obtain ⟨info, minerHash, stored, indices, t₀, t₁, t₂, hminer, hfresh, hnew, h₂, htables⟩ :=
    hbooked.steps
  have hone := h.add hminer hs.txs hfresh
  have hall := hone.addTransactions h₂ (hminer.txSound hs.txs)
    hbooked.faithful.retrievable.listed hnew
  have hfiled : [⟨t.height, minerHash, b.blk.minerTx⟩] ++ filedAt t.height b.blk.txHashes b.txs =
      b.filedTxs C t.height := by
    rw [Handed.filedTxs, show b.minerHash C = .ok minerHash from hminer.hash]
    rfl
  rw [List.append_assoc, hfiled] at hall
  rw [htables]
  exact ⟨hall.count, hall.indices, hall.indexed, hall.storable, hall.outputs.of_eq rfl rfl,
    hall.txOutputs⟩

/-- **The tables are a function of the blocks**, whatever was written and popped on the way. -/
theorem Books.txsAre {blocks : List Handed} (h : Books C blocks t) :
    TxsAre C t (filedTxs C blocks) := by
  induction h with
  | empty => exact txsAre_empty
  | @block blocks t t' b older booked ih =>
      rw [filedTxs_concat, ← older.length_eq]
      exact booked.txsAre older.sound ih

end

end Wownero
