import Mathlib.Data.List.TakeWhile
import Wownero.Mempool
import Wownero.Outcome
/-!
# The life of the pool

What becomes of a pooled transaction after its admission: it is relayed, mined, dropped by a
reorganisation or with age, given back by a block that left the chain, written down when the node
stops and read again when it starts.

Every operation keeps the pool well formed.  The weight is that of the entries, the spent key
images are those of the pooled transactions and each names the one that spends it, what is
remembered of relaying is about pooled transactions, and no entry goes back on its way out.
Removing one transaction and filing one are the only two ways the four maps change together;
everything else is made of them.
-/

namespace Wownero.Mempool

open Wownero Wownero.TxRules Wownero.Archive Outcome

/-! ### Operations -/

/-- `set_max_weight`. -/
def TxPool.setMaxWeight (p : TxPool) (maxWeight : Nat) : TxPool := { p with maxWeight := maxWeight }

/-- `contains`. -/
def TxPool.contains (p : TxPool) (id : Hash256) : Bool := p.byId.has id

/-- `ids`. -/
def TxPool.ids (p : TxPool) (includeSensitive : Bool) : List Hash256 :=
  (p.byId.rows.filter fun row => includeSensitive || row.2.isPublic).map (·.1)

/-- `public_txs_except`. -/
def TxPool.publicTxsExcept (p : TxPool) (known : List Hash256) : List Blob :=
  (p.byId.rows.filter fun row => row.2.isPublic && !known.contains row.1).map (·.2.blob)

/-- A transaction a block gave back, as `with_blob` hands it over: parsed from these bytes. -/
structure ReturnedTx where
  tx : Transaction
  blob : Blob
  parses : Transaction.fromBlob blob = .ok tx

def ReturnedTx.id (C : Crypto) (r : ReturnedTx) : Except Rejection Hash256 :=
  match transactionHashFromBlob C.cnFastHash r.tx r.blob with
  | none => .error (.notParseable "no transaction hash")
  | some id => .ok id

def TxPool.checkNotHeld (p : TxPool) (id : Hash256) : Except Rejection Unit :=
  if p.contains id then .error .alreadyInPool else .ok ()

/-- The checks of `add_kept_by_block`, in order: the id. -/
def TxPool.returnable (C : Crypto) (p : TxPool) (t : MainTables) (r : ReturnedTx)
    (hfVersion now : Nat) : Except Rejection Hash256 := do
  let id ← r.id C
  p.checkNotHeld id
  p.checkAllUnspent t id r.tx.keyImages
  verify C t r.tx hfVersion t.height now
  return id

/-- `add_kept_by_block`. -/
def TxPool.addKeptByBlock (C : Crypto) (p : TxPool) (t : MainTables) (r : ReturnedTx)
    (hfVersion now : Nat) : Except Rejection Hash256 × TxPool :=
  match p.returnable C t r hfVersion now with
  | .error e => (.error e, p)
  | .ok id =>
      (.ok id, p.insert id r.tx ⟨r.blob, getTransactionWeight r.tx r.blob.length,
        r.tx.rctSignatures.txnFee, now, .block, true, false⟩)

/-- Take out whatever spends a key image. -/
def TxPool.removeSpending (p : TxPool) (kImage : KeyImage) : TxPool :=
  match p.spent.get kImage with
  | none => p
  | some owner => p.remove owner

/-- `remove_mined`. -/
def TxPool.removeMined (p : TxPool) (included : List Hash256) (spent : List KeyImage) : TxPool :=
  spent.foldl TxPool.removeSpending (included.foldl TxPool.remove p)

/-- `remove_confirmed`.  The source sorts the stale ids and drops repetitions for its count. -/
def TxPool.removeConfirmed (p : TxPool) (t : MainTables) : TxPool :=
  let confirmed := (p.byId.rows.map (·.1)).filter fun id => t.txExists id
  let spent := (p.spent.rows.filter fun row => t.hasKeyImage row.1).map (·.2)
  (confirmed ++ spent).foldl TxPool.remove p

/-- `upgrade`. -/
def PoolEntry.upgrade (e : PoolEntry) (method : RelayMethod) : PoolEntry :=
  if e.relay.rank < method.rank then { e with relay := method } else e

/-- One turn of the loop of `set_relayed`. -/
def TxPool.markRelayed (p : TxPool) (id : Hash256) (method : RelayMethod) (now : Nat) : TxPool :=
  match p.byId.get id with
  | none => p
  | some e =>
      { p with
        byId := p.byId.put id { e.upgrade method with relayed := true }
        relayedAt := p.relayedAt.put id now }

/-- Whether going out made a private transaction public. -/
def TxPool.becomesPublic (p : TxPool) (id : Hash256) (method : RelayMethod) : Bool :=
  (p.byId.get id).any fun e => !e.isPublic && (e.upgrade method).isPublic

/-- `set_relayed`: which transactions became public by it. -/
def TxPool.setRelayed (p : TxPool) (method : RelayMethod) (now : Nat) : List Hash256 →
    List Hash256 × TxPool
  | [] => ([], p)
  | id :: ids =>
      let rest := (p.markRelayed id method now).setRelayed method now ids
      (if p.becomesPublic id method then id :: rest.1 else rest.1, rest.2)

/-- `flush`. -/
def TxPool.flush (p : TxPool) (ids : List Hash256) : TxPool :=
  if ids.isEmpty then { p with byId := .empty, spent := .empty, relayedAt := .empty, weight := 0 }
  else ids.foldl TxPool.remove p

/-! ### The stored pool -/

/-- `TxPoolMeta`, as far as the pool reads and writes it. -/
structure TxPoolMeta where
  weight : Nat := 0
  fee : Nat := 0
  receiveTime : Nat := 0
  keptByBlock : Bool := false
  relayed : Bool := false
  doNotRelay : Bool := false
  doubleSpendSeen : Bool := false
  isLocal : Bool := false
  dandelionppStem : Bool := false
  isForwarding : Bool := false
  deriving DecidableEq, Repr

/-- `relay_method`: only the words with one flag name a method of their own. -/
def TxPoolMeta.relayMethod (m : TxPoolMeta) : RelayMethod :=
  let state := m.keptByBlock.toNat ||| m.doNotRelay.toNat <<< 1 ||| m.isLocal.toNat <<< 2 |||
    m.isForwarding.toNat <<< 3 ||| m.dandelionppStem.toNat <<< 4
  match state with
  | 1 => .block
  | 2 => .none
  | 4 => .local
  | 8 => .forward
  | 16 => .stem
  | _ => .fluff

/-- `set_relay_method`. -/
def TxPoolMeta.setRelayMethod (m : TxPoolMeta) (method : RelayMethod) : TxPoolMeta :=
  let cleared := { m with
    keptByBlock := false, doNotRelay := false, isLocal := false, isForwarding := false
    dandelionppStem := false }
  match method with
  | .none => { cleared with doNotRelay := true }
  | .local => { cleared with isLocal := true }
  | .forward => { cleared with isForwarding := true }
  | .stem => { cleared with dandelionppStem := true }
  | .block => { cleared with keptByBlock := true }
  | .fluff => cleared

/-- `meta_of`. -/
def metaOf (e : PoolEntry) : TxPoolMeta :=
  TxPoolMeta.setRelayMethod
    { weight := e.weight, fee := e.fee, receiveTime := e.receiveTime, relayed := e.relayed
      doubleSpendSeen := e.doubleSpendSeen } e.relay

/-- The entry a record stands for. -/
def entryOf (m : TxPoolMeta) (blob : Blob) : PoolEntry :=
  ⟨blob, m.weight, m.fee, m.receiveTime, m.relayMethod, m.relayed, m.doubleSpendSeen⟩

theorem relayMethod_setRelayMethod (m : TxPoolMeta) (method : RelayMethod) :
    (m.setRelayMethod method).relayMethod = method := by
  cases method <;> simp [TxPoolMeta.setRelayMethod, TxPoolMeta.relayMethod]

/-- The record keeps the entry, its place on the way out included. -/
theorem entryOf_metaOf (e : PoolEntry) : entryOf (metaOf e) e.blob = e := by
  obtain ⟨blob, weight, fee, receiveTime, relay, relayed, doubleSpendSeen⟩ := e
  unfold entryOf metaOf
  rw [relayMethod_setRelayMethod]
  cases relay <;> rfl

/-- `txpool_meta` and `txpool_blob`. -/
structure StoredPool where
  metas : Table Hash256 TxPoolMeta
  blobs : Table Hash256 Blob

def StoredPool.removeTxpoolTx (s : StoredPool) (id : Hash256) : StoredPool :=
  ⟨s.metas.del id, s.blobs.del id⟩

def StoredPool.addTxpoolTx (s : StoredPool) (id : Hash256) (e : PoolEntry) : StoredPool :=
  ⟨s.metas.put id (metaOf e), s.blobs.put id e.blob⟩

/-- `save`. -/
def TxPool.save (p : TxPool) (s : StoredPool) : StoredPool :=
  let stale := (s.metas.rows.map (·.1)).filter fun id => !p.byId.has id
  p.byId.rows.foldl (fun s row => s.addTxpoolTx row.1 row.2) (stale.foldl .removeTxpoolTx s)

/-- One turn of the loop of `load`. -/
def TxPool.loadOne (C : Crypto) (t : MainTables) (p : TxPool) (id : Hash256) (m : TxPoolMeta)
    (blob : Blob) : TxPool :=
  match Transaction.fromBlob blob with
  | .error _ => p
  | .ok tx =>
      if transactionHashFromBlob C.cnFastHash tx blob ≠ some id ∨ t.txExists id = true then p
      else if tx.keyImages.any fun kImage => t.hasKeyImage kImage || p.spent.has kImage then p
      else p.insert id tx (entryOf m blob)

def TxPool.loadRow (C : Crypto) (s : StoredPool) (t : MainTables) (p : TxPool)
    (row : Hash256 × TxPoolMeta) : TxPool :=
  match s.blobs.get row.1 with
  | none => p
  | some blob => p.loadOne C t row.1 row.2 blob

/-- `load`. -/
def TxPool.load (C : Crypto) (s : StoredPool) (t : MainTables) (now : Nat) : TxPool :=
  (s.metas.rows.foldl (TxPool.loadRow C s t) .new).expire now

/-! ### What the checks establish -/

/-- A transaction that passed every check of `add`. -/
structure Admissible (C : Crypto) (p : TxPool) (t : MainTables) (blob : Blob) (version now : Nat)
    (tx : Transaction) (id : Hash256) : Prop where
  identified : identify C blob = .ok (tx, id)
  unknown : p.knows t id = false
  unspent : ∀ image ∈ tx.keyImages, t.hasKeyImage image = false
  unspentHere : ∀ image ∈ tx.keyImages, p.spentInPool image id = false
  verified : verify C t tx version t.height now = .ok ()

theorem checkAllUnspent_ok {p : TxPool} {t : MainTables} {id : Hash256} {images : List KeyImage}
    (h : p.checkAllUnspent t id images = .ok ()) :
    ∀ image ∈ images, t.hasKeyImage image = false ∧ p.spentInPool image id = false := by
  induction images with
  | nil => nofun
  | cons image images ih =>
      rw [TxPool.checkAllUnspent, bind_eq_ok] at h
      obtain ⟨u, hone, hrest⟩ := h
      rw [TxPool.checkUnspent, if_ok_iff] at hone
      have hnot := hone.1
      simp only [Bool.or_eq_true, not_or, Bool.not_eq_true] at hnot
      exact List.forall_mem_cons.mpr ⟨hnot, ih hrest⟩

theorem admissible_ok {C : Crypto} {p : TxPool} {t : MainTables} {blob : Blob} {ctx : FeeContext}
    {now : Nat} {tx : Transaction} {id : Hash256}
    (h : p.admissible C t blob ctx now = .ok (tx, id)) :
    Admissible C p t blob ctx.version now tx id := by
  simp only [TxPool.admissible, bind_eq_ok, pure_eq_ok] at h
  obtain ⟨parsed, hid, ⟨⟩, hnew, ⟨⟩, hpolicy, ⟨⟩, hunspent, ⟨⟩, hverified, rfl⟩ := h
  rw [TxPool.checkNew, if_ok_iff] at hnew
  have himages := checkAllUnspent_ok hunspent
  exact ⟨hid, by simpa using hnew.1, fun image hm => (himages image hm).1,
    fun image hm => (himages image hm).2, hverified⟩

theorem identify_of_parsed {C : Crypto} {blob : Blob} {tx : Transaction} {id : Hash256}
    (hparse : Transaction.fromBlob blob = .ok tx)
    (hid : transactionHashFromBlob C.cnFastHash tx blob = some id) :
    identify C blob = .ok (tx, id) := by
  simp only [identify, hparse, hid]

theorem identify_ok {C : Crypto} {blob : Blob} {tx : Transaction} {id : Hash256}
    (h : identify C blob = .ok (tx, id)) :
    Transaction.fromBlob blob = .ok tx ∧ transactionHashFromBlob C.cnFastHash tx blob = some id := by
  unfold identify at h
  split at h
  · cases h
  · rename_i tx' hparse
    split at h
    · cases h
    · rename_i id' hid
      cases h
      exact ⟨hparse, hid⟩

/-! ### Well-formed pools -/

/-- The key images of the transaction a blob holds. -/
def imagesOf (blob : Blob) : List KeyImage :=
  match Transaction.fromBlob blob with
  | .ok tx => tx.keyImages
  | .error _ => []

/-- **The invariant.**  Every entry is the transaction its id names, and the other fields are
    what the entries make them. -/
structure TxPool.WellFormed (C : Crypto) (p : TxPool) : Prop where
  identified : ∀ id e, p.byId.get id = some e → ∃ tx, identify C e.blob = .ok (tx, id)
  weight : p.weight = p.byId.total fun _ e => e.weight
  spent : ∀ image id, p.spent.get image = some id ↔
    ∃ e, p.byId.get id = some e ∧ image ∈ imagesOf e.blob
  relayed : ∀ id, p.relayedAt.has id = true → p.byId.has id = true

/-- The entries of one pool are among those of another, under the same limit. -/
structure TxPool.Within (p' p : TxPool) : Prop where
  entries : ∀ id e, p'.byId.get id = some e → p.byId.get id = some e
  maxWeight : p'.maxWeight = p.maxWeight

theorem TxPool.Within.refl (p : TxPool) : p.Within p := ⟨fun _ _ h => h, rfl⟩

theorem TxPool.Within.trans {p₁ p₂ p₃ : TxPool} (h : p₁.Within p₂) (h' : p₂.Within p₃) :
    p₁.Within p₃ :=
  ⟨fun id e he => h'.entries id e (h.entries id e he), h.maxWeight.trans h'.maxWeight⟩

theorem TxPool.Within.get_none {p' p : TxPool} (h : p'.Within p) {id : Hash256}
    (hnone : p.byId.get id = none) : p'.byId.get id = none := by
  cases hget : p'.byId.get id with
  | none => rfl
  | some e =>
      rw [h.entries id e hget] at hnone
      cases hnone

/-- No entry that both pools have goes back on its way out. -/
def TxPool.RanksKept (p p' : TxPool) : Prop :=
  ∀ id e e', p.byId.get id = some e → p'.byId.get id = some e' → e.relay.rank ≤ e'.relay.rank

theorem TxPool.Within.ranksKept {p' p : TxPool} (h : p'.Within p) : p.RanksKept p' := by
  intro id e e' hget hget'
  rw [h.entries id e' hget'] at hget
  cases hget
  exact Nat.le_refl _

section

variable {C : Crypto} {p : TxPool}

theorem wellFormed_new : TxPool.new.WellFormed C := by
  refine ⟨nofun, rfl, ?_, nofun⟩
  intro image id
  constructor
  · intro h
    cases h
  · rintro ⟨e, h, _⟩
    cases h

/-! ### Taking one out -/

theorem byId_remove (p : TxPool) (id id' : Hash256) :
    (p.remove id).byId.get id' = if id' = id then none else p.byId.get id' := by
  unfold TxPool.remove
  cases hget : p.byId.get id with
  | none =>
      split_ifs with h
      · rw [h]
        exact hget
      · rfl
  | some e => exact p.byId.get_del id id'

theorem spent_remove {id : Hash256} (hpooled : p.byId.has id = true) (image : KeyImage) :
    (p.remove id).spent.get image =
      if p.spent.get image = some id then none else p.spent.get image := by
  obtain ⟨e, he⟩ := Option.isSome_iff_exists.mp hpooled
  simp only [TxPool.remove, he]
  rw [Table.get_foldl_del]
  have hmem : image ∈ (p.spent.rows.filter fun row => row.2 == id).map (·.1) ↔
      p.spent.get image = some id := by
    simp only [List.mem_map, List.mem_filter, Prod.exists, exists_and_right, exists_eq_right]
    constructor
    · rintro ⟨owner, hrow, howner⟩
      rw [← eq_of_beq howner]
      exact (p.spent.mem_iff image owner).mp hrow
    · intro h
      exact ⟨id, (p.spent.mem_iff image id).mpr h, beq_self_eq_true id⟩
  simp only [hmem]

theorem remove_of_none {id : Hash256} (h : p.byId.get id = none) : p.remove id = p := by
  simp only [TxPool.remove, h]

theorem remove_within (p : TxPool) (id : Hash256) : (p.remove id).Within p := by
  constructor
  · intro id' e h
    rw [byId_remove] at h
    split_ifs at h
    exact h
  · unfold TxPool.remove
    split <;> rfl

theorem weight_remove {id : Hash256} {e : PoolEntry} (h : p.byId.get id = some e) :
    (p.remove id).weight = p.weight - e.weight := by
  simp only [TxPool.remove, h]

theorem TxPool.WellFormed.remove (h : p.WellFormed C) (id : Hash256) :
    (p.remove id).WellFormed C := by
  cases hget : p.byId.get id with
  | none =>
      rw [remove_of_none hget]
      exact h
  | some e =>
      have hpooled : p.byId.has id = true := by simp [hget]
      refine ⟨?_, ?_, ?_, ?_⟩
      · intro id' e' he'
        exact h.identified id' e' ((remove_within p id).entries id' e' he')
      · have htotal := p.byId.total_del (fun _ e => e.weight) id
        rw [hget, Option.map_some, Option.getD_some] at htotal
        have hbyId : (p.remove id).byId = p.byId.del id := by simp only [TxPool.remove, hget]
        rw [weight_remove hget, hbyId, h.weight]
        omega
      · intro image id'
        rw [spent_remove hpooled, byId_remove]
        by_cases hid : id' = id
        · -- What the removed transaction spent is spent no more.
          rw [hid, if_pos rfl]
          constructor
          · intro himage
            split_ifs at himage with howner
            exact absurd himage howner
          · rintro ⟨e', he', _⟩
            cases he'
        · rw [if_neg hid, ← h.spent]
          constructor
          · intro himage
            split_ifs at himage
            exact himage
          · intro himage
            rw [if_neg (fun howner => hid (Option.some.inj (himage.symm.trans howner)))]
            exact himage
      · intro id' hrelayed
        have hrelayedAt : (p.remove id).relayedAt = p.relayedAt.del id := by
          simp only [TxPool.remove, hget]
        rw [hrelayedAt, Table.has, Table.get_del] at hrelayed
        rw [Table.has, byId_remove]
        split_ifs at hrelayed ⊢ with hid
        · cases hrelayed
        · exact h.relayed id' hrelayed

/-! ### Taking many out -/

/-- Whatever one step keeps, a loop of them keeps. -/
theorem foldl_keeps {α : Type} {I : TxPool → Prop} {f : TxPool → α → TxPool}
    (hf : ∀ p a, I p → I (f p a)) (l : List α) {p : TxPool} (h : I p) : I (l.foldl f p) := by
  induction l generalizing p with
  | nil => exact h
  | cons a l ih => exact ih (hf p a h)

theorem removeAll_within {α : Type} (f : α → Hash256) (l : List α) (p : TxPool) :
    (l.foldl (fun p a => p.remove (f a)) p).Within p :=
  foldl_keeps (I := fun q => q.Within p) (fun q a h => (remove_within q (f a)).trans h) l (.refl p)

theorem TxPool.WellFormed.removeAll (h : p.WellFormed C) {α : Type} (f : α → Hash256)
    (l : List α) : (l.foldl (fun p a => p.remove (f a)) p).WellFormed C :=
  foldl_keeps (fun _ a hq => hq.remove (f a)) l h

theorem removeSpending_within (p : TxPool) (image : KeyImage) :
    (p.removeSpending image).Within p := by
  unfold TxPool.removeSpending
  split
  · exact .refl p
  · exact remove_within p _

theorem TxPool.WellFormed.removeSpending (h : p.WellFormed C) (image : KeyImage) :
    (p.removeSpending image).WellFormed C := by
  unfold TxPool.removeSpending
  split
  · exact h
  · exact h.remove _

/-! ### Filing one -/

theorem byId_insert (p : TxPool) (id id' : Hash256) (tx : Transaction) (e : PoolEntry) :
    (p.insert id tx e).byId.get id' = if id' = id then some e else p.byId.get id' :=
  p.byId.get_put id id' e

theorem spent_insert (p : TxPool) (id : Hash256) (tx : Transaction) (e : PoolEntry)
    (image : KeyImage) :
    (p.insert id tx e).spent.get image =
      if image ∈ tx.keyImages then some id else p.spent.get image :=
  Table.get_foldl_put tx.keyImages id p.spent image

theorem TxPool.WellFormed.insert (h : p.WellFormed C) {id : Hash256} {tx : Transaction}
    {e : PoolEntry} (hid : identify C e.blob = .ok (tx, id)) (hnew : p.byId.get id = none)
    (hunspent : ∀ image ∈ tx.keyImages, p.spent.get image = none) :
    (p.insert id tx e).WellFormed C := by
  have himages : imagesOf e.blob = tx.keyImages := by
    simp only [imagesOf, (identify_ok hid).1]
  refine ⟨?_, ?_, ?_, ?_⟩
  · intro id' e' he'
    rw [byId_insert] at he'
    split_ifs at he' with heq
    · cases he'
      exact ⟨tx, heq ▸ hid⟩
    · exact h.identified id' e' he'
  · have htotal := p.byId.total_put (fun _ e => e.weight) id e
    rw [hnew, Option.map_none, Option.getD_none, Nat.add_zero] at htotal
    exact (congrArg (· + e.weight) h.weight).trans htotal.symm
  · intro image id'
    rw [spent_insert, byId_insert]
    by_cases heq : id' = id
    · rw [heq, if_pos rfl]
      simp only [Option.some.injEq, exists_eq_left', himages]
      constructor
      · intro himage
        split_ifs at himage with hmem
        · exact hmem
        · obtain ⟨e', he', _⟩ := (h.spent image id).mp himage
          rw [hnew] at he'
          cases he'
      · intro hmem
        rw [if_pos hmem]
    · rw [if_neg heq, ← h.spent]
      split_ifs with hmem
      · rw [hunspent image hmem]
        simp [Ne.symm heq]
      · exact Iff.rfl
  · intro id' hrelayed
    rw [Table.has, byId_insert]
    split_ifs
    · rfl
    · exact h.relayed id' hrelayed

theorem insert_ranksKept {p' : TxPool} (hwithin : p'.Within p) {id : Hash256}
    (hnew : p.byId.get id = none) (tx : Transaction) (e : PoolEntry) :
    p.RanksKept (p'.insert id tx e) := by
  intro id' e₁ e₂ h₁ h₂
  rw [byId_insert] at h₂
  split_ifs at h₂ with heq
  · rw [heq, hnew] at h₁
    cases h₁
  · exact hwithin.ranksKept id' e₁ e₂ h₁ h₂

/-- A transaction the pool does not hold spends nothing there. -/
theorem TxPool.WellFormed.unspent (h : p.WellFormed C) {id : Hash256} {image : KeyImage}
    (hnew : p.byId.get id = none) (hfree : p.spentInPool image id = false) :
    p.spent.get image = none := by
  cases hget : p.spent.get image with
  | none => rfl
  | some owner =>
      obtain ⟨e, he, _⟩ := (h.spent image owner).mp hget
      simp only [TxPool.spentInPool, hget, Bool.or_eq_false_iff, bne_eq_false_iff_eq] at hfree
      rw [hfree.1, hnew] at he
      cases he

/-- An entry that moves on keeps its place in every map. -/
theorem TxPool.WellFormed.moveOn (h : p.WellFormed C) {id : Hash256} {e e' : PoolEntry}
    (hget : p.byId.get id = some e) (hblob : e'.blob = e.blob) (hweight : e'.weight = e.weight)
    {relayedAt : Table Hash256 Nat}
    (hrelayed : ∀ id', relayedAt.has id' = true → p.relayedAt.has id' = true ∨ id' = id) :
    TxPool.WellFormed C { p with byId := p.byId.put id e', relayedAt := relayedAt } := by
  refine ⟨?_, ?_, ?_, ?_⟩
  · intro id' e₁ he₁
    rw [Table.get_put] at he₁
    split_ifs at he₁ with heq
    · cases he₁
      rw [hblob, heq]
      exact h.identified id e hget
    · exact h.identified id' e₁ he₁
  · have htotal := p.byId.total_put (fun _ e => e.weight) id e'
    rw [hget, Option.map_some, Option.getD_some, hweight] at htotal
    exact h.weight.trans (Nat.add_right_cancel htotal).symm
  · intro image id'
    rw [h.spent, Table.get_put]
    by_cases heq : id' = id
    · rw [heq, if_pos rfl, hget]
      simp only [Option.some.injEq, exists_eq_left', hblob]
    · rw [if_neg heq]
  · intro id' hat
    rw [Table.has, Table.get_put]
    split_ifs with heq
    · rfl
    · exact h.relayed id' ((hrelayed id' hat).resolve_right heq)

theorem moveOn_ranksKept {id : Hash256} {e e' : PoolEntry} (hget : p.byId.get id = some e)
    (hrank : e.relay.rank ≤ e'.relay.rank) (relayedAt : Table Hash256 Nat) :
    p.RanksKept { p with byId := p.byId.put id e', relayedAt := relayedAt } := by
  intro id' e₁ e₂ h₁ h₂
  rw [Table.get_put] at h₂
  split_ifs at h₂ with heq
  · cases h₂
    rw [heq, hget] at h₁
    cases h₁
    exact hrank
  · rw [h₁] at h₂
    cases h₂
    exact Nat.le_refl _

/-! ### Making room -/

theorem evict_within (ids : List Hash256) (p : TxPool) : (p.evict ids).Within p := by
  induction ids generalizing p with
  | nil => exact .refl p
  | cons id ids ih =>
      unfold TxPool.evict
      split_ifs
      · exact .refl p
      · exact (ih _).trans (remove_within p id)

theorem TxPool.WellFormed.evict (h : p.WellFormed C) (ids : List Hash256) :
    (p.evict ids).WellFormed C := by
  induction ids generalizing p with
  | nil => exact h
  | cons id ids ih =>
      unfold TxPool.evict
      split_ifs
      · exact h
      · exact ih (h.remove id)

theorem expire_within (p : TxPool) (now : Nat) : (p.expire now).Within p :=
  removeAll_within Prod.fst _ p

theorem TxPool.WellFormed.expire (h : p.WellFormed C) (now : Nat) : (p.expire now).WellFormed C :=
  h.removeAll Prod.fst _

/-- The entry `add` files. -/
def newEntry (tx : Transaction) (blob : Blob) (now : Nat) (method : RelayMethod) : PoolEntry :=
  ⟨blob, getTransactionWeight tx blob.length, tx.rctSignatures.txnFee, now, method,
    method == .stem || method == .fluff || method == .forward, false⟩

/-- The pool with a new transaction filed, before anything is evicted. -/
def TxPool.filed (p : TxPool) (tx : Transaction) (id : Hash256) (blob : Blob) (now : Nat)
    (method : RelayMethod) : TxPool :=
  (p.expire now).insert id tx (newEntry tx blob now method)

theorem take_new {id : Hash256} (hnew : p.byId.get id = none) (tx : Transaction) (blob : Blob)
    (now : Nat) (method : RelayMethod) :
    p.take tx id blob now method = (method, (p.filed tx id blob now method).evictToFit) := by
  simp only [TxPool.take, hnew]
  rfl

theorem TxPool.WellFormed.filed (h : p.WellFormed C) {t : MainTables} {blob : Blob}
    {version now : Nat} {tx : Transaction} {id : Hash256}
    (hadmits : Admissible C p t blob version now tx id) (hnew : p.byId.get id = none)
    (method : RelayMethod) : (p.filed tx id blob now method).WellFormed C := by
  have hnew' := (expire_within p now).get_none hnew
  refine (h.expire now).insert hadmits.identified hnew' ?_
  intro image hmem
  -- The key images were free before the stale entries went.
  have hfree := h.unspent hnew (hadmits.unspentHere image hmem)
  cases hget : (p.expire now).spent.get image with
  | none => rfl
  | some owner =>
      obtain ⟨e, he, himage⟩ := ((h.expire now).spent image owner).mp hget
      have hspent := (h.spent image owner).mpr
        ⟨e, (expire_within p now).entries owner e he, himage⟩
      rw [hfree] at hspent
      cases hspent

/-- A transaction held already moves on, or stays. -/
theorem take_held {id : Hash256} {e : PoolEntry} (hget : p.byId.get id = some e)
    (tx : Transaction) (blob : Blob) (now : Nat) (method : RelayMethod) :
    (p.take tx id blob now method).2 = p ∨
      ∃ e', e'.blob = e.blob ∧ e'.weight = e.weight ∧ e.relay.rank ≤ e'.relay.rank ∧
        (p.take tx id blob now method).2 = { p with byId := p.byId.put id e' } := by
  simp only [TxPool.take, hget]
  generalize (if method = .stem ∧ e.relay = .stem then RelayMethod.fluff else method) = method'
  split_ifs with hrank
  · exact Or.inr ⟨⟨e.blob, e.weight, e.fee, now, method', _, false⟩, rfl, rfl, Nat.le_of_lt hrank, rfl⟩
  · exact Or.inl rfl

/-- What `add` comes to. -/
theorem add_cases (C : Crypto) (p : TxPool) (t : MainTables) (blob : Blob) (ctx : FeeContext)
    (now : Nat) (method : RelayMethod) :
    (∃ e, p.add C t blob ctx now method = (.error e, p)) ∨
      ∃ tx id relay, Admissible C p t blob ctx.version now tx id ∧
        p.add C t blob ctx now method = (.ok ⟨id, relay⟩, (p.take tx id blob now method).2) := by
  unfold TxPool.add
  cases hadmissible : p.admissible C t blob ctx now with
  | error e => exact Or.inl ⟨e, rfl⟩
  | ok found => exact Or.inr ⟨found.1, found.2, _, admissible_ok hadmissible, rfl⟩

theorem TxPool.WellFormed.take (h : p.WellFormed C) {t : MainTables} {blob : Blob}
    {version now : Nat} {tx : Transaction} {id : Hash256}
    (hadmits : Admissible C p t blob version now tx id) (method : RelayMethod) :
    (p.take tx id blob now method).2.WellFormed C ∧
      p.RanksKept (p.take tx id blob now method).2 := by
  cases hget : p.byId.get id with
  | none =>
      rw [take_new hget]
      refine ⟨(h.filed hadmits hget method).evict _, ?_⟩
      intro id' e e' he he'
      exact insert_ranksKept (expire_within p now) hget tx _ id' e e' he
        ((evict_within _ _).entries id' e' he')
  | some e =>
      obtain heq | ⟨e', hblob, hweight, hrank, heq⟩ := take_held hget tx blob now method
      · rw [heq]
        exact ⟨h, (TxPool.Within.refl p).ranksKept⟩
      · rw [heq]
        exact ⟨h.moveOn hget hblob hweight fun _ => Or.inl, moveOn_ranksKept hget hrank _⟩

theorem TxPool.WellFormed.add (h : p.WellFormed C) (t : MainTables) (blob : Blob)
    (ctx : FeeContext) (now : Nat) (method : RelayMethod) :
    (p.add C t blob ctx now method).2.WellFormed C ∧
      p.RanksKept (p.add C t blob ctx now method).2 := by
  obtain ⟨e, heq⟩ | ⟨tx, id, relay, hadmits, heq⟩ := add_cases C p t blob ctx now method
  · rw [heq]
    exact ⟨h, (TxPool.Within.refl p).ranksKept⟩
  · rw [heq]
    exact h.take hadmits method

/-- What passed the checks of `add_kept_by_block`. -/
theorem returnable_ok {t : MainTables} {r : ReturnedTx} {hfVersion now : Nat} {id : Hash256}
    (h : p.returnable C t r hfVersion now = .ok id) :
    identify C r.blob = .ok (r.tx, id) ∧ p.byId.get id = none ∧
      ∀ image ∈ r.tx.keyImages, t.hasKeyImage image = false ∧ p.spentInPool image id = false := by
  simp only [TxPool.returnable, bind_eq_ok, pure_eq_ok] at h
  obtain ⟨id', hid, ⟨⟩, hnew, ⟨⟩, hunspent, ⟨⟩, hverified, rfl⟩ := h
  rw [TxPool.checkNotHeld, if_ok_iff] at hnew
  refine ⟨?_, ?_, checkAllUnspent_ok hunspent⟩
  · unfold ReturnedTx.id at hid
    split at hid
    · cases hid
    · rename_i id' hhash
      cases hid
      exact identify_of_parsed r.parses hhash
  · simpa [TxPool.contains] using hnew.1

theorem TxPool.WellFormed.addKeptByBlock (h : p.WellFormed C) (t : MainTables) (r : ReturnedTx)
    (hfVersion now : Nat) :
    (p.addKeptByBlock C t r hfVersion now).2.WellFormed C ∧
      p.RanksKept (p.addKeptByBlock C t r hfVersion now).2 := by
  unfold TxPool.addKeptByBlock
  cases hreturnable : p.returnable C t r hfVersion now with
  | error e => exact ⟨h, (TxPool.Within.refl p).ranksKept⟩
  | ok id =>
      obtain ⟨hid, hnew, hunspent⟩ := returnable_ok hreturnable
      exact ⟨h.insert hid hnew fun image hmem => h.unspent hnew (hunspent image hmem).2,
        insert_ranksKept (.refl p) hnew r.tx _⟩

theorem removeMined_within (p : TxPool) (included : List Hash256) (spent : List KeyImage) :
    (p.removeMined included spent).Within p :=
  foldl_keeps (I := fun q => q.Within p) (fun q image h => (removeSpending_within q image).trans h)
    spent (removeAll_within id included p)

theorem TxPool.WellFormed.removeMined (h : p.WellFormed C) (included : List Hash256)
    (spent : List KeyImage) : (p.removeMined included spent).WellFormed C :=
  foldl_keeps (fun _ image hq => hq.removeSpending image) spent (h.removeAll id included)

theorem upgrade_rank (e : PoolEntry) (method : RelayMethod) :
    e.relay.rank ≤ (e.upgrade method).relay.rank := by
  unfold PoolEntry.upgrade
  split_ifs with hrank
  · exact Nat.le_of_lt hrank
  · exact Nat.le_refl _

theorem TxPool.RanksKept.trans {p₁ p₂ p₃ : TxPool} (h : p₁.RanksKept p₂) (h' : p₂.RanksKept p₃)
    (hheld : ∀ id, p₁.byId.has id = true → p₂.byId.has id = true) : p₁.RanksKept p₃ := by
  intro id e e' he he'
  obtain ⟨e₂, he₂⟩ := Option.isSome_iff_exists.mp (hheld id (by simp [he]))
  exact Nat.le_trans (h id e e₂ he he₂) (h' id e₂ e' he₂ he')

theorem TxPool.WellFormed.markRelayed (h : p.WellFormed C) (id : Hash256) (method : RelayMethod)
    (now : Nat) :
    (p.markRelayed id method now).WellFormed C ∧ p.RanksKept (p.markRelayed id method now) ∧
      ∀ id', p.byId.has id' = true → (p.markRelayed id method now).byId.has id' = true := by
  cases hget : p.byId.get id with
  | none =>
      simp only [TxPool.markRelayed, hget]
      exact ⟨h, (TxPool.Within.refl p).ranksKept, fun _ hhas => hhas⟩
  | some e =>
      simp only [TxPool.markRelayed, hget]
      have hsame : (e.upgrade method).blob = e.blob ∧ (e.upgrade method).weight = e.weight := by
        unfold PoolEntry.upgrade
        split_ifs <;> exact ⟨rfl, rfl⟩
      refine ⟨?_, ?_, ?_⟩
      · refine h.moveOn hget ?_ ?_ ?_
        · exact hsame.1
        · exact hsame.2
        intro id' hat
        rw [Table.has, Table.get_put] at hat
        split_ifs at hat with heq
        · exact Or.inr heq
        · exact Or.inl hat
      · refine moveOn_ranksKept hget ?_ _
        exact upgrade_rank e method
      · intro id' hhas
        rw [Table.has, Table.get_put]
        split_ifs
        · rfl
        · exact hhas

theorem TxPool.WellFormed.setRelayed (h : p.WellFormed C) (method : RelayMethod) (now : Nat)
    (ids : List Hash256) :
    (p.setRelayed method now ids).2.WellFormed C ∧
      p.RanksKept (p.setRelayed method now ids).2 := by
  induction ids generalizing p with
  | nil => exact ⟨h, (TxPool.Within.refl p).ranksKept⟩
  | cons id ids ih =>
      obtain ⟨hwell, hranks, hheld⟩ := h.markRelayed id method now
      obtain ⟨hwell', hranks'⟩ := ih hwell
      exact ⟨hwell', hranks.trans hranks' hheld⟩

theorem TxPool.WellFormed.flush (h : p.WellFormed C) (ids : List Hash256) :
    (p.flush ids).WellFormed C ∧ (p.flush ids).Within p := by
  unfold TxPool.flush
  split_ifs
  · refine ⟨⟨nofun, rfl, ?_, nofun⟩, nofun, rfl⟩
    intro image id
    constructor
    · intro hspent
      cases hspent
    · rintro ⟨e, he, _⟩
      cases he
  · exact ⟨h.removeAll id ids, removeAll_within id ids p⟩

/-! ### Writing the pool down and reading it again -/

theorem metas_removeAll (ids : List Hash256) (s : StoredPool) (id : Hash256) :
    (ids.foldl StoredPool.removeTxpoolTx s).metas.get id =
      if id ∈ ids then none else s.metas.get id := by
  have hmetas : (ids.foldl StoredPool.removeTxpoolTx s).metas =
      ids.foldl (fun t id => t.del id) s.metas := by
    induction ids generalizing s with
    | nil => rfl
    | cons id ids ih => exact ih (s.removeTxpoolTx id)
  rw [hmetas, Table.get_foldl_del, List.map_id']

/-- What is written down is the entries of the pool and nothing else. -/
theorem get_save (p : TxPool) (s : StoredPool) (id : Hash256) :
    (p.save s).metas.get id = (p.byId.get id).map metaOf ∧
      ∀ e, p.byId.get id = some e → (p.save s).blobs.get id = some e.blob := by
  have hrows : ∀ (rows : List (Hash256 × PoolEntry)) (s : StoredPool),
      (rows.foldl (fun s row => s.addTxpoolTx row.1 row.2) s).metas =
        rows.foldl (fun t row => t.put row.1 (metaOf row.2)) s.metas ∧
      (rows.foldl (fun s row => s.addTxpoolTx row.1 row.2) s).blobs =
        rows.foldl (fun t row => t.put row.1 row.2.blob) s.blobs := by
    intro rows
    induction rows with
    | nil => exact fun s => ⟨rfl, rfl⟩
    | cons row rows ih => exact fun s => ih (s.addTxpoolTx row.1 row.2)
  unfold TxPool.save
  rw [(hrows _ _).1, (hrows _ _).2, Table.get_putAll, Table.get_putAll]
  constructor
  · cases hget : p.byId.get id with
    | some e => rfl
    | none =>
        rw [Option.map_none, Option.none_or, metas_removeAll]
        split_ifs with hstale
        · rfl
        · -- Whatever is stored and not pooled is stale.
          cases hstored : s.metas.get id with
          | none => rfl
          | some m =>
              refine absurd (List.mem_filter.mpr ⟨List.mem_map.mpr ⟨(id, m), ?_, rfl⟩, ?_⟩) hstale
              · exact (s.metas.mem_iff id m).mpr hstored
              · simp [hget]
  · intro e he
    rw [he]
    rfl

/-- Every entry is one that was written down. -/
def TxPool.From (p : TxPool) (s : StoredPool) : Prop :=
  ∀ id e, p.byId.get id = some e →
    ∃ m, s.metas.get id = some m ∧ s.blobs.get id = some e.blob ∧ e = entryOf m e.blob

theorem loadOne_cases (C : Crypto) (t : MainTables) (p : TxPool) (id : Hash256) (m : TxPoolMeta)
    (blob : Blob) :
    p.loadOne C t id m blob = p ∨
      ∃ tx, identify C blob = .ok (tx, id) ∧ (∀ image ∈ tx.keyImages, p.spent.get image = none) ∧
        p.loadOne C t id m blob = p.insert id tx (entryOf m blob) := by
  unfold TxPool.loadOne
  split
  · exact Or.inl rfl
  · rename_i tx hparse
    split_ifs with hstale hspent
    · exact Or.inl rfl
    · exact Or.inl rfl
    · refine Or.inr ⟨tx, ?_, ?_, rfl⟩
      · exact identify_of_parsed hparse (not_not.mp (not_or.mp hstale).1)
      · intro image hmem
        have hfree := mt (fun h => List.any_eq_true.mpr ⟨image, hmem, h⟩) hspent
        simp only [Bool.or_eq_true, not_or, Bool.not_eq_true, Table.has,
          Option.isSome_eq_false_iff, Option.isNone_iff_eq_none] at hfree
        exact hfree.2

theorem loadRows {s : StoredPool} {t : MainTables} {rows : List (Hash256 × TxPoolMeta)}
    (hasc : rows.Pairwise RowLt) (hstored : ∀ row ∈ rows, s.metas.get row.1 = some row.2)
    (hnew : ∀ row ∈ rows, p.byId.get row.1 = none) (h : p.WellFormed C) (hfrom : p.From s) :
    (rows.foldl (TxPool.loadRow C s t) p).WellFormed C ∧
      (rows.foldl (TxPool.loadRow C s t) p).From s := by
  induction rows generalizing p with
  | nil => exact ⟨h, hfrom⟩
  | cons row rows ih =>
      obtain ⟨hlt, hasc⟩ := List.pairwise_cons.mp hasc
      obtain ⟨hrow, hstored⟩ := List.forall_mem_cons.mp hstored
      obtain ⟨hnone, hnew⟩ := List.forall_mem_cons.mp hnew
      rw [List.foldl_cons, TxPool.loadRow]
      split
      · exact ih hasc hstored hnew h hfrom
      · rename_i blob hblob
        obtain hsame | ⟨tx, hid, hunspent, hinsert⟩ := loadOne_cases C t p row.1 row.2 blob
        · rw [hsame]
          exact ih hasc hstored hnew h hfrom
        · rw [hinsert]
          refine ih hasc hstored ?_ (h.insert hid hnone hunspent) ?_
          · -- The rows still to come have other ids.
            intro row' hrow'
            have hne : row'.1 ≠ row.1 := fun heq =>
              Nat.ne_of_lt (hlt row' hrow') (congrArg Ranked.rank heq.symm)
            rw [byId_insert, if_neg hne]
            exact hnew row' hrow'
          · intro id' e he
            rw [byId_insert] at he
            split_ifs at he with heq
            · cases he
              exact ⟨row.2, heq ▸ hrow, heq ▸ hblob, rfl⟩
            · exact hfrom id' e he

/-- What is read back is among what was written down. -/
theorem load_wellFormed (C : Crypto) (s : StoredPool) (t : MainTables) (now : Nat) :
    (TxPool.load C s t now).WellFormed C ∧ (TxPool.load C s t now).From s := by
  obtain ⟨hwell, hfrom⟩ := loadRows (t := t) s.metas.ascending
    (fun row hrow => (s.metas.mem_iff row.1 row.2).mp hrow) (fun _ _ => rfl) wellFormed_new
    (fun id e he => by cases he)
  refine ⟨hwell.expire now, ?_⟩
  intro id e he
  exact hfrom id e ((expire_within _ now).entries id e he)

/-- A pool that was written down comes back with entries of its own only. -/
theorem load_save_ranksKept (p : TxPool) (s : StoredPool) (t : MainTables) (now : Nat) :
    p.RanksKept (TxPool.load C (p.save s) t now) := by
  intro id e e' he he'
  obtain ⟨m, hm, hblob, heq⟩ := (load_wellFormed C (p.save s) t now).2 id e' he'
  obtain ⟨hmetas, hblobs⟩ := get_save p s id
  rw [hmetas, he] at hm
  cases hm
  rw [hblobs e he] at hblob
  rw [heq, ← Option.some.inj hblob, entryOf_metaOf]

end

end Wownero.Mempool
