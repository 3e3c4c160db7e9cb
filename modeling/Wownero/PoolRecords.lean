import Wownero.Codec
import Wownero.PoolRuns
/-!
# What a pool records

Beside each transaction the pool writes down its weight and its fee, and it never reads them off
the transaction again.  After any run they are still what the transaction says.
-/

namespace Wownero.Mempool

open Wownero Wownero.TxRules Wownero.Archive Outcome

/-- The weight and the fee of an entry are those of the transaction it holds. -/
def PoolEntry.Recorded (e : PoolEntry) : Prop :=
  ∀ tx, Transaction.fromBlob e.blob = .ok tx →
    e.weight = getTransactionWeight tx e.blob.length ∧ tx.fee = some e.fee

def TxPool.Recorded (p : TxPool) : Prop := ∀ id e, p.byId.get id = some e → e.Recorded

section

variable {C : Crypto} {p p' : TxPool}

theorem PoolEntry.Recorded.congr {e e' : PoolEntry} (h : e.Recorded) (hblob : e'.blob = e.blob)
    (hweight : e'.weight = e.weight) (hfee : e'.fee = e.fee) : e'.Recorded := by
  intro tx htx
  rw [hblob] at htx
  rw [hblob, hweight, hfee]
  exact h tx htx

theorem TxPool.Recorded.within (h : p.Recorded) (hwithin : p'.Within p) : p'.Recorded :=
  fun id e he => h id e (hwithin.entries id e he)

theorem TxPool.Recorded.put (h : p.Recorded) {id : Hash256} {e : PoolEntry} (hsame : ∀ id', p'.byId.get id' =
    if id' = id then some e else p.byId.get id') (he : e.Recorded) : p'.Recorded := by
  intro id' e' he'
  rw [hsame] at he'
  split_ifs at he'
  · cases he'
    exact he
  · exact h id' e' he'

/-- What was verified gives up the fee of its signatures. -/
theorem fee_of_verified {blob : Blob} {tx : Transaction} {t : MainTables}
    {hfVersion chainHeight now : Nat} (hparse : Transaction.fromBlob blob = .ok tx)
    (hverified : verify C t tx hfVersion chainHeight now = .ok ()) :
    tx.fee = some tx.rctSignatures.txnFee := by
  obtain ⟨u, hshape, -⟩ := bind_eq_ok.mp hverified
  have hplus := (if_ok_iff.mp hshape).1
  have hty : tx.rctSignatures.ty ≠ .null := by
    intro hnull
    rw [hnull] at hplus
    exact hplus rfl
  have hversion := ((fromBlob_fits hparse).2 hty).1
  rw [Transaction.fee, if_neg (by omega)]

theorem recorded_of_verified {blob : Blob} {tx : Transaction} {t : MainTables} {e : PoolEntry}
    {hfVersion chainHeight now : Nat} (hparse : Transaction.fromBlob blob = .ok tx)
    (hverified : verify C t tx hfVersion chainHeight now = .ok ()) (hblob : e.blob = blob)
    (hweight : e.weight = getTransactionWeight tx blob.length)
    (hfee : e.fee = tx.rctSignatures.txnFee) : e.Recorded := by
  intro tx' htx'
  rw [hblob] at htx'
  have hsame : tx' = tx := Except.ok.inj (htx'.symm.trans hparse)
  rw [hsame, hblob, hfee]
  exact ⟨hweight, fee_of_verified hparse hverified⟩

/-! ### One operation -/

theorem TxPool.Recorded.add (h : p.Recorded) (t : MainTables) (blob : Blob) (ctx : FeeContext)
    (now : Nat) (method : RelayMethod) : (p.add C t blob ctx now method).2.Recorded := by
  obtain ⟨e, heq⟩ | ⟨tx, id, relay, hadmits, heq⟩ := add_cases C p t blob ctx now method
  · rw [heq]
    exact h
  rw [heq]
  cases hget : p.byId.get id with
  | none =>
      rw [take_new hget]
      have hentry : (newEntry tx blob now method).Recorded :=
        recorded_of_verified (identify_ok hadmits.identified).1 hadmits.verified rfl rfl rfl
      have hfiled : (p.filed tx id blob now method).Recorded :=
        (h.within (expire_within p now)).put (fun id' => byId_insert _ id id' tx _) hentry
      exact hfiled.within (evict_within _ _)
  | some e =>
      simp only [TxPool.take, hget]
      split_ifs
      · exact h.put (fun id' => p.byId.get_put id id' _) ((h id e hget).congr rfl rfl rfl)
      · exact h
      · exact h.put (fun id' => p.byId.get_put id id' _) ((h id e hget).congr rfl rfl rfl)
      · exact h

theorem TxPool.Recorded.addKeptByBlock (h : p.Recorded) (t : MainTables) (r : ReturnedTx)
    (hfVersion now : Nat) : (p.addKeptByBlock C t r hfVersion now).2.Recorded := by
  unfold TxPool.addKeptByBlock
  cases hreturnable : p.returnable C t r hfVersion now with
  | error e => exact h
  | ok id =>
      simp only [TxPool.returnable, bind_eq_ok, pure_eq_ok] at hreturnable
      obtain ⟨id', -, ⟨⟩, -, ⟨⟩, -, ⟨⟩, hverified, rfl⟩ := hreturnable
      exact h.put (fun id'' => byId_insert p id' id'' r.tx _)
        (recorded_of_verified r.parses hverified rfl rfl rfl)

theorem TxPool.Recorded.setRelayed (h : p.Recorded) (method : RelayMethod) (now : Nat)
    (ids : List Hash256) : (p.setRelayed method now ids).2.Recorded := by
  induction ids generalizing p with
  | nil => exact h
  | cons id ids ih =>
      refine ih (p := p.markRelayed id method now) ?_
      unfold TxPool.markRelayed
      split
      · exact h
      · rename_i e hget
        have hsame : (e.upgrade method).blob = e.blob ∧ (e.upgrade method).weight = e.weight ∧
            (e.upgrade method).fee = e.fee := by
          unfold PoolEntry.upgrade
          split_ifs <;> exact ⟨rfl, rfl, rfl⟩
        exact h.put (fun id' => p.byId.get_put id id' _)
          ((h id e hget).congr hsame.1 hsame.2.1 hsame.2.2)

/-- What is read back was written down from an entry. -/
theorem TxPool.Recorded.load_save (h : p.Recorded) (s : StoredPool) (t : MainTables) (now : Nat) :
    (TxPool.load C (p.save s) t now).Recorded := by
  intro id e he
  obtain ⟨m, hm, hblob, heq⟩ := (load_wellFormed C (p.save s) t now).2 id e he
  obtain ⟨hmetas, hblobs⟩ := get_save p s id
  cases hget : p.byId.get id with
  | none =>
      rw [hmetas, hget] at hm
      cases hm
  | some held =>
      rw [hmetas, hget] at hm
      cases hm
      rw [hblobs held hget] at hblob
      rw [heq, ← Option.some.inj hblob, entryOf_metaOf]
      exact h id held hget

theorem TxPool.Recorded.perform (h : p.Recorded) (op : PoolOp) : (p.perform C op).Recorded := by
  cases op with
  | add t blob ctx now method => exact h.add t blob ctx now method
  | addKeptByBlock t r hfVersion now => exact h.addKeptByBlock t r hfVersion now
  | remove id => exact h.within (remove_within p id)
  | removeMined included spent => exact h.within (removeMined_within p included spent)
  | removeConfirmed t => exact h.within (removeAll_within id _ p)
  | expire now => exact h.within (expire_within p now)
  | setRelayed ids method now => exact h.setRelayed method now ids
  | flush ids =>
      simp only [TxPool.perform, TxPool.flush]
      split_ifs
      · exact fun id e he => by cases he
      · exact h.within (removeAll_within id ids p)
  | saveAndLoad stored t now => exact h.load_save stored t now
  | setMaxWeight maxWeight => exact h

/-- **After any run** every entry records what its transaction says. -/
theorem run_recorded (C : Crypto) (ops : List PoolOp) : (TxPool.new.run C ops).Recorded :=
  foldl_keeps (fun _ op h => h.perform op) ops fun id e he => by cases he

end

end Wownero.Mempool
