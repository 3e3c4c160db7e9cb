import Wownero.Admission
/-!
# Runs of the pool

From an empty pool, through any operations in any order and over whatever the store is at each of
them, the pool stays well formed.  What `add` answers is another matter: it says a transaction is
admitted before it makes room, and the room may be made of that very transaction.
-/

namespace Wownero.Mempool

open Wownero Wownero.TxRules Wownero.Archive Outcome

/-! ### Runs -/

/-- What can happen to a pool.  The store is whatever it is at the time. -/
inductive PoolOp where
  | add (t : MainTables) (blob : Blob) (ctx : FeeContext) (now : Nat) (method : RelayMethod)
  | addKeptByBlock (t : MainTables) (r : ReturnedTx) (hfVersion now : Nat)
  | remove (id : Hash256)
  | removeMined (included : List Hash256) (spent : List KeyImage)
  | removeConfirmed (t : MainTables)
  | expire (now : Nat)
  | setRelayed (ids : List Hash256) (method : RelayMethod) (now : Nat)
  | flush (ids : List Hash256)
  | saveAndLoad (stored : StoredPool) (t : MainTables) (now : Nat)
  | setMaxWeight (maxWeight : Nat)

def TxPool.perform (C : Crypto) (p : TxPool) : PoolOp → TxPool
  | .add t blob ctx now method => (p.add C t blob ctx now method).2
  | .addKeptByBlock t r hfVersion now => (p.addKeptByBlock C t r hfVersion now).2
  | .remove id => p.remove id
  | .removeMined included spent => p.removeMined included spent
  | .removeConfirmed t => p.removeConfirmed t
  | .expire now => p.expire now
  | .setRelayed ids method now => (p.setRelayed method now ids).2
  | .flush ids => p.flush ids
  | .saveAndLoad stored t now => TxPool.load C (p.save stored) t now
  | .setMaxWeight maxWeight => p.setMaxWeight maxWeight

/-- **One operation** keeps the pool well formed, and no entry goes back. -/
theorem TxPool.WellFormed.perform {C : Crypto} {p : TxPool} (h : p.WellFormed C) (op : PoolOp) :
    (p.perform C op).WellFormed C ∧ p.RanksKept (p.perform C op) := by
  cases op with
  | add t blob ctx now method => exact h.add t blob ctx now method
  | addKeptByBlock t r hfVersion now => exact h.addKeptByBlock t r hfVersion now
  | remove id => exact ⟨h.remove id, (remove_within p id).ranksKept⟩
  | removeMined included spent =>
      exact ⟨h.removeMined included spent, (removeMined_within p included spent).ranksKept⟩
  | removeConfirmed t => exact ⟨h.removeAll id _, (removeAll_within id _ p).ranksKept⟩
  | expire now => exact ⟨h.expire now, (expire_within p now).ranksKept⟩
  | setRelayed ids method now => exact h.setRelayed method now ids
  | flush ids => exact ⟨(h.flush ids).1, (h.flush ids).2.ranksKept⟩
  | saveAndLoad stored t now =>
      exact ⟨(load_wellFormed C (p.save stored) t now).1, load_save_ranksKept p stored t now⟩
  | setMaxWeight maxWeight =>
      exact ⟨⟨h.identified, h.weight, h.spent, h.relayed⟩, fun id e e' he he' =>
        (TxPool.Within.refl p).ranksKept id e e' he he'⟩

def TxPool.run (C : Crypto) (p : TxPool) (ops : List PoolOp) : TxPool :=
  ops.foldl (TxPool.perform C) p

section

open Sample

end

end Wownero.Mempool
