import Wownero.PoolRuns
/-!
# The node, as its peers see it

The chain and the pool together, and the answers that go back to a peer: the pool's complement,
its hashes, a block with transactions of it, and what of an announced block is still missing.

Transactions on their private way out are none of a peer's business.  Three of the answers read
only what is public.  The fourth completes an announced block out of the whole pool, before
anything of the block is checked, and so tells a peer which of the transactions it lists are held
here.
-/

namespace Wownero

open Outcome Mempool

/-- `NodeCore`. -/
structure NodeCore (σ : Type) where
  chain : Chain σ
  pool : TxPool

/-- `BlockVerdict`. -/
inductive BlockVerdict where
  | added
  | alternative
  | alreadyHave
  | orphan
  | missingTxs (indices : List Nat)
  | rejected (reason : String) (ban : Bool)
  deriving DecidableEq, Repr

section

variable {σ : Type} (C : Crypto)

/-! ### Completing a block -/

/-- The transactions an announcement supplies, under their hashes. -/
def suppliedTxs (supplied : Table Hash256 Blob) : List Blob →
    Except BlockVerdict (Table Hash256 Blob)
  | [] => .ok supplied
  | blob :: blobs =>
      match Transaction.fromBlob blob with
      | .error _ => .error (.rejected "a transaction does not parse" true)
      | .ok tx =>
          match transactionHashFromBlob C.cnFastHash tx blob with
          | none => .error (.rejected "a transaction has no hash" true)
          | some h => suppliedTxs (supplied.put h blob) blobs

/-- What `fill` reads before it looks at the pool: the block, and what came with it. -/
def openEntry (s : Store) (entry : BlockEntry) :
    Except BlockVerdict (Block × Table Hash256 Blob) :=
  match Block.fromBlob entry.block with
  | .error _ => .error (.rejected "the block does not parse" true)
  | .ok block =>
      match block.blockId C.cnFastHash with
      | none => .error (.rejected "the block has no id" true)
      | some id =>
          if s.haveBlock id then .error .alreadyHave
          else (suppliedTxs C .empty entry.txs).map fun supplied => (block, supplied)

/-- The loop of `fill`: the transactions found, and the indices of the others.  Each supplied
    transaction is used once. -/
def fillFrom (pool : TxPool) : Table Hash256 Blob → Nat → List Hash256 → List Blob × List Nat
  | _, _, [] => ([], [])
  | supplied, i, h :: hs =>
      match supplied.get h with
      | some blob =>
          let rest := fillFrom pool (supplied.del h) (i + 1) hs
          (blob :: rest.1, rest.2)
      | none =>
          let rest := fillFrom pool supplied (i + 1) hs
          match pool.byId.get h with
          | some e => (e.blob :: rest.1, rest.2)
          | none => (rest.1, i :: rest.2)

/-- `fill`. -/
def NodeCore.fill (n : NodeCore σ) (entry : BlockEntry) : Except BlockVerdict (List Blob) :=
  match openEntry C n.chain.db entry with
  | .error v => .error v
  | .ok (block, supplied) =>
      let found := fillFrom n.pool supplied 0 block.txHashes
      if found.2.isEmpty then .ok found.1 else .error (.missingTxs found.2)

/-! ### The answers to a peer -/

/-- `pool_txs_except`. -/
def NodeCore.poolTxsExcept (n : NodeCore σ) (known : List Hash256) : List Blob :=
  n.pool.publicTxsExcept known

/-- `pool_hashes`. -/
def NodeCore.poolHashes (n : NodeCore σ) : List Hash256 := n.pool.ids false

/-- The indices `new_block` asks for. -/
def NodeCore.missing (n : NodeCore σ) (entry : BlockEntry) : List Nat :=
  match n.fill C entry with
  | .error (.missingTxs indices) => indices
  | _ => []

/-- `block_with_txs`. -/
def NodeCore.blockWithTxs (n : NodeCore σ) (id : Hash256) (indices : List Nat) :
    Option BlockEntry := do
  let t := n.chain.db.main
  let height ← (t.getBlockHeight id).toOption
  let blob ← t.blocks.get height
  let block ← (Block.fromBlob blob).toOption
  let txs ← indices.mapM fun i => (block.txHashes[i]?).bind fun h => (t.getTxBlob h).toOption
  return ⟨blob, txs, ((t.getBlockInfo height).toOption.map (·.weight)).getD 0⟩

/-! ### Two nodes that differ in private -/

/-- The same node, but for pool entries that are not public. -/
structure NodeCore.SamePublic (n n' : NodeCore σ) : Prop where
  chain : n.chain = n'.chain
  pool : ∀ id e, e.isPublic = true →
    (n.pool.byId.get id = some e ↔ n'.pool.byId.get id = some e)

/-- The listed hashes that are left to the pool. -/
def leftToPool : Table Hash256 Blob → List Hash256 → List Hash256
  | _, [] => []
  | supplied, h :: hs =>
      match supplied.get h with
      | some _ => leftToPool (supplied.del h) hs
      | none => h :: leftToPool supplied hs

/-- Of what an announcement lists and does not supply, both nodes hold the same. -/
def NodeCore.HoldAlike (n n' : NodeCore σ) (entry : BlockEntry) : Prop :=
  ∀ block supplied, openEntry C n.chain.db entry = .ok (block, supplied) →
    ∀ h ∈ leftToPool supplied block.txHashes, n.pool.contains h = n'.pool.contains h

theorem le_of_mem_fillFrom {pool : TxPool} {supplied : Table Hash256 Blob} {i j : Nat}
    {hs : List Hash256} (h : j ∈ (fillFrom pool supplied i hs).2) : i ≤ j := by
  induction hs generalizing supplied i with
  | nil => cases h
  | cons x hs ih =>
      unfold fillFrom at h
      split at h
      · exact Nat.le_of_succ_le (ih h)
      · simp only at h
        split at h
        · exact Nat.le_of_succ_le (ih h)
        · rcases List.mem_cons.mp h with rfl | h
          · exact Nat.le_refl _
          · exact Nat.le_of_succ_le (ih h)

/-- The missing indices tell exactly which of the hashes left to the pool it holds. -/
theorem fillFrom_missing_iff (pool pool' : TxPool) (supplied : Table Hash256 Blob) (i : Nat)
    (hs : List Hash256) :
    (fillFrom pool supplied i hs).2 = (fillFrom pool' supplied i hs).2 ↔
      ∀ h ∈ leftToPool supplied hs, pool.contains h = pool'.contains h := by
  induction hs generalizing supplied i with
  | nil => simp [fillFrom, leftToPool]
  | cons x hs ih =>
      cases hget : supplied.get x with
      | some blob =>
          simp only [fillFrom, leftToPool, hget]
          exact ih (supplied.del x) (i + 1)
      | none =>
          simp only [fillFrom, leftToPool, hget, List.forall_mem_cons, TxPool.contains, Table.has]
          -- An index asked for by one node only is not among those the other asks for later.
          have hapart : ∀ (q : TxPool) (rest : List Nat),
              (fillFrom q supplied (i + 1) hs).2 ≠ i :: rest := by
            intro q rest heq
            exact Nat.not_succ_le_self i (le_of_mem_fillFrom (heq ▸ List.mem_cons_self))
          have hrest := ih supplied (i + 1)
          simp only [TxPool.contains, Table.has] at hrest
          cases pool.byId.get x with
          | some e =>
              cases pool'.byId.get x with
              | some e' => simpa using hrest
              | none => simpa using hapart pool _
          | none =>
              cases pool'.byId.get x with
              | some e' => simpa using (hapart pool' _).symm
              | none => simpa using hrest

theorem missing_eq (n : NodeCore σ) {entry : BlockEntry} {block : Block}
    {supplied : Table Hash256 Blob} (h : openEntry C n.chain.db entry = .ok (block, supplied)) :
    n.missing C entry = (fillFrom n.pool supplied 0 block.txHashes).2 := by
  simp only [NodeCore.missing, NodeCore.fill, h]
  split_ifs with hempty
  · exact (List.isEmpty_iff.mp hempty).symm
  · rfl

/-- **Private entries stay hidden** from a peer exactly as long as its announcements list none
    that only one of the nodes holds. -/
theorem private_entries_hidden_iff (n n' : NodeCore σ) (hsame : n.SamePublic n')
    (known : List Hash256) (entry : BlockEntry) (id : Hash256) (indices : List Nat) :
    (n.poolTxsExcept known = n'.poolTxsExcept known ∧ n.poolHashes = n'.poolHashes ∧
        n.missing C entry = n'.missing C entry ∧
        n.blockWithTxs id indices = n'.blockWithTxs id indices) ↔
      n.HoldAlike C n' entry := by
  have hexcept : n.poolTxsExcept known = n'.poolTxsExcept known := by
    unfold NodeCore.poolTxsExcept TxPool.publicTxsExcept
    rw [Table.filter_rows_eq fun id e he => hsame.pool id e (Bool.and_eq_true_iff.mp he).1]
  have hhashes : n.poolHashes = n'.poolHashes := by
    unfold NodeCore.poolHashes TxPool.ids
    rw [Table.filter_rows_eq fun id e he => hsame.pool id e (by simpa using he)]
  have hblock : n.blockWithTxs id indices = n'.blockWithTxs id indices := by
    unfold NodeCore.blockWithTxs
    rw [hsame.chain]
  have hmissing : n.missing C entry = n'.missing C entry ↔ n.HoldAlike C n' entry := by
    have hsame' : openEntry C n'.chain.db entry = openEntry C n.chain.db entry := by
      rw [hsame.chain]
    cases hopen : openEntry C n.chain.db entry with
    | error v =>
        rw [hopen] at hsame'
        refine iff_of_true ?_ ?_
        · simp only [NodeCore.missing, NodeCore.fill, hopen, hsame']
        · intro block supplied h
          rw [hopen] at h
          cases h
    | ok opened =>
        obtain ⟨block, supplied⟩ := opened
        rw [missing_eq C n hopen, missing_eq C n' (hsame'.trans hopen), fillFrom_missing_iff]
        constructor
        · intro h block' supplied' hopen'
          rw [hopen] at hopen'
          cases hopen'
          exact h
        · exact fun h => h block supplied hopen
  constructor
  · intro h
    exact hmissing.mp h.2.2.1
  · intro h
    exact ⟨hexcept, hhashes, hmissing.mpr h, hblock⟩

end

/-! ### A transaction in its stem -/

namespace Sample

/-- The payment, in its stem. -/
def stemPool : TxPool :=
  TxPool.new.insert (txId payment) payment (newEntry payment payment.write clock .stem)

/-- A chain of one block, with a pool beside it. -/
def withPool (pool : TxPool) : NodeCore Unit := ⟨afterGenesis, pool⟩

/-- A block on it that lists these transactions, without them. -/
def announced (txHashes : List Hash256) : BlockEntry :=
  ⟨({ first with txHashes := txHashes }).toBlob, [], 0⟩

/-- What each of the two nodes is missing of two announcements. -/
theorem announced_missing :
    (withPool stemPool).missing crypto (announced [txId payment]) = [] ∧
      (withPool .new).missing crypto (announced [txId payment]) = [0] ∧
      (withPool stemPool).missing crypto (announced [0]) = [0] ∧
      (withPool .new).missing crypto (announced [0]) = [0] := by
  decide +kernel

theorem stemPool_samePublic : (withPool stemPool).SamePublic (withPool .new) := by
  refine ⟨rfl, ?_⟩
  intro id e hpublic
  refine iff_of_false ?_ nofun
  intro hget
  have hentry : e = newEntry payment payment.write clock .stem := by
    rw [withPool, stemPool, byId_insert] at hget
    split_ifs at hget
    · exact (Option.some.inj hget).symm
    · cases hget
  rw [hentry] at hpublic
  cases hpublic

end Sample

section

open Sample

/-- An announcement that does not list the transaction in its stem tells nothing of it. -/
theorem private_entries_hidden_iff_stem :
    (withPool stemPool).poolHashes = (withPool .new).poolHashes ∧
      (withPool stemPool).missing crypto (announced [0]) =
        (withPool .new).missing crypto (announced [0]) := by
  have halike : (withPool stemPool).HoldAlike crypto (withPool .new) (announced [0]) := by
    intro block supplied hopen
    refine (fillFrom_missing_iff _ _ supplied 0 block.txHashes).mp ?_
    rw [← missing_eq crypto (withPool stemPool) hopen, ← missing_eq crypto (withPool .new) hopen]
    exact announced_missing.2.2.1.trans announced_missing.2.2.2.symm
  have hanswers := (private_entries_hidden_iff crypto _ _ stemPool_samePublic [] (announced [0]) 0
    []).mpr halike
  exact ⟨hanswers.2.1, hanswers.2.2.1⟩

/-- One that lists it is asked for it by the node that does not hold it, and by no other. -/
theorem stem_entry_revealed :
    ¬ ∀ (n n' : NodeCore Unit) (known : List Hash256) (entry : BlockEntry) (id : Hash256)
        (indices : List Nat), n.SamePublic n' →
      n.poolTxsExcept known = n'.poolTxsExcept known ∧ n.poolHashes = n'.poolHashes ∧
        n.missing crypto entry = n'.missing crypto entry ∧
        n.blockWithTxs id indices = n'.blockWithTxs id indices := by
  intro hclaim
  have hsame := (hclaim (withPool stemPool) (withPool .new) [] (announced [txId payment]) 0 []
    stemPool_samePublic).2.2.1
  rw [announced_missing.1, announced_missing.2.1] at hsame
  cases hsame

end

end Wownero
