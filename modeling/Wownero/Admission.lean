import Wownero.ChainTxs
import Wownero.Pool
import Wownero.Rules
/-!
# From the pool into a block

The pool admits a transaction on its signatures and on the policy of relaying; a block is held to
the rules of step 9 as well.  What the pool admits, a block may carry exactly when the
transaction meets five of those rules by itself: the others follow from its signatures.
-/

namespace Wownero

open Outcome Wownero.TxRules

/-! ### Rules that signatures do not imply -/

/-- What step 9 asks of a transaction beyond its signatures. -/
structure MeetsRules (version : Nat) (numOutputs : Nat → Nat) (tx : Transaction) : Prop where
  amounts : (tx.txPrefix.vin.map TxIn.spentAmount).sum ≤ u64Max
  outputs : ∀ o ∈ tx.txPrefix.vout, o.target.publicKey.isSome = true ∧ o.amount = 0
  images : (inputImages tx.txPrefix.vin).Pairwise (· > ·)
  type : TypeFits version tx.rctSignatures.ty
  rings : RingsFit version numOutputs tx.txPrefix.vin

theorem checkedSum_zero {amounts : List Nat} (h : ∀ a ∈ amounts, a = 0) :
    checkedSum 0 amounts = some 0 := by
  induction amounts with
  | nil => rfl
  | cons a amounts ih =>
      obtain ⟨rfl, hrest⟩ := List.forall_mem_cons.mp h
      exact ih hrest

/-- `check_tx_semantic`, of a version-2 transaction whose inputs spend keys. -/
theorem checkTxSemantic_two {tx : Transaction} (htwo : tx.txPrefix.version = 2)
    (hne : tx.txPrefix.vin ≠ []) (hkeys : ∀ input ∈ tx.txPrefix.vin, input.IsToKey)
    {fee : Option Nat} :
    checkTxSemantic tx = .ok fee ↔
      fee = none ∧ (inputImages tx.txPrefix.vin).Nodup ∧
        (tx.txPrefix.vin.map TxIn.spentAmount).sum ≤ u64Max ∧
        ∀ o ∈ tx.txPrefix.vout, o.target.publicKey.isSome = true ∧ o.amount = 0 := by
  have hfee : ∀ a b, semanticFee tx a b = .ok fee ↔ fee = none := by
    intro a b
    rw [semanticFee, if_pos (by omega)]
    simp [eq_comm]
  rw [checkTxSemantic, if_ok_iff]
  simp only [bind_eq_ok, checkSemanticInputs_ok (Nat.zero_le _), hfee]
  constructor
  · rintro ⟨_, total, ⟨_, hnodup, _, hsum, _⟩, ⟨⟩, houtputs, _, _, hnone⟩
    refine ⟨hnone, hnodup, by simpa using hsum, fun o ho => ?_⟩
    obtain ⟨hkey, hzero⟩ := checkSemanticOutputs_ok.mp houtputs o ho
    exact ⟨hkey, hzero (by omega)⟩
  · rintro ⟨hnone, hnodup, hsum, houtputs⟩
    refine ⟨by simpa using hne, _, ⟨hkeys, hnodup, by simp, by simpa using hsum, rfl⟩, (),
      checkSemanticOutputs_ok.mpr fun o ho => ⟨(houtputs o ho).1, fun _ => (houtputs o ho).2⟩,
      0, ?_, hnone⟩
    have hzero : ∀ a ∈ tx.txPrefix.vout.map (·.amount), a = 0 := by
      intro a ha
      obtain ⟨o, ho, rfl⟩ := List.mem_map.mp ha
      exact (houtputs o ho).2
    rw [checkOutsOverflow, checkedSum_zero hzero]

/-- **The rules of step 9**, of a transaction whose signatures verify. -/
theorem checkTxRules_iff {t : MainTables} {version : Nat} {tx : Transaction} (h : WellSigned tx) :
    (∃ fee, checkTxRules t version tx = .ok fee) ↔
      MeetsRules version t.getNumOutputs tx := by
  have h15 : hfVersionSameMixin = 15 := rfl
  have h18 : hfVersionBulletproofPlus = 18 := rfl
  have hsorted : checkInputsSorted tx = .ok () ↔
      (inputImages tx.txPrefix.vin).Pairwise (· > ·) := by
    rw [checkInputsSorted, checkInputsSortedFrom_ok h.keys]
    simp
  simp only [checkTxRules_ok, checkTxSemantic_two h.two h.inputs h.keys, hsorted,
    checkTxRctType_ok h.shaped h.two]
  constructor
  · rintro ⟨fee, ⟨_, _, hsum, houtputs⟩, _, himages, htype, hrings, _⟩
    have hlate := htype.late h.shaped
    exact ⟨hsum, houtputs, himages, htype,
      (checkRingSize_ok (by omega) h.inputs h.keys h.mixins).mp hrings⟩
  · rintro ⟨hsum, houtputs, himages, htype, hrings⟩
    have hlate := htype.late h.shaped
    have hnodup : (inputImages tx.txPrefix.vin).Nodup := by
      refine himages.imp ?_
      rintro a b hgt rfl
      exact BitVec.lt_irrefl a hgt
    refine ⟨none, ⟨rfl, hnodup, hsum, houtputs⟩, ?_, himages, htype,
      (checkRingSize_ok (by omega) h.inputs h.keys h.mixins).mpr hrings, ?_⟩
    · have htwo := h.shaped.twoOutputs
      rw [checkMinOutputs, if_neg (by omega)]
    · rw [checkTxVersion, h.two, if_neg, if_neg]
      · split_ifs <;> omega
      · rw [if_neg (by omega)]
        omega

/-! ### What admission has established -/

/-- A transaction the pool takes. -/
structure PoolAdmits (C : Crypto) (t : MainTables) (version now : Nat) (tx : Transaction)
    (id : Hash256) : Prop where
  fresh : t.txIndices.get id = none
  unspent : ∀ image ∈ tx.keyImages, t.hasKeyImage image = false
  verified : Mempool.verify C t tx version t.height now = .ok ()

theorem add_ok {C : Crypto} {p p' : Mempool.TxPool} {t : MainTables} {blob : Blob}
    {ctx : FeeContext} {now : Nat} {method : Mempool.RelayMethod} {admitted : Mempool.Admitted}
    {tx : Transaction} (h : p.add C t blob ctx now method = (.ok admitted, p'))
    (hparse : Transaction.fromBlob blob = .ok tx) :
    PoolAdmits C t ctx.version now tx admitted.id := by
  unfold Mempool.TxPool.add at h
  split at h
  · cases h
  · rename_i tx' id hadmissible
    cases h
    have hadmits := Mempool.admissible_ok hadmissible
    have hsame := (Mempool.identify_ok hadmits.identified).1
    rw [hparse] at hsame
    cases hsame
    refine ⟨?_, hadmits.unspent, hadmits.verified⟩
    have hunknown := hadmits.unknown
    simp only [Mempool.TxPool.knows, MainTables.txExists, Bool.or_eq_false_iff, Table.has,
      Option.isSome_eq_false_iff, Option.isNone_iff_eq_none] at hunknown
    exact hunknown.2

/-! ### The block -/

theorem checkImages_fresh {t : MainTables} (before : List KeyImage) {images : List KeyImage}
    (hnodup : images.Nodup)
    (hbefore : ∀ image ∈ images, image ∉ before)
    (hunspent : ∀ image ∈ images, t.hasKeyImage image = false) :
    ∃ after, checkImages t before images = .ok after := by
  induction images generalizing before with
  | nil => exact ⟨before, rfl⟩
  | cons image images ih =>
      obtain ⟨hnot, hnodup⟩ := List.nodup_cons.mp hnodup
      have himage := hbefore image List.mem_cons_self
      rw [checkImages, if_neg (by simpa using himage),
        if_neg (by simp [hunspent image List.mem_cons_self])]
      refine ih (image :: before) hnodup ?_ fun other hother => hunspent other (List.mem_cons_of_mem _ hother)
      intro other hother hin
      rcases List.mem_cons.mp hin with rfl | hin
      · exact hnot hother
      · exact hbefore other (List.mem_cons_of_mem _ hother) hin

/-- The node's verifier says yes to what verifies on the spot, whatever its peers are at. -/
theorem chainTxs_verify_of_verify {C : Crypto} (trustedBelow : Nat) (s : ChainTxs)
    {t : MainTables} (hash : Hash256) {tx : Transaction} {hfVersion chainHeight now : Nat}
    (h : Mempool.verify C t tx hfVersion chainHeight now = .ok ()) :
    ∃ s', (chainTxs C trustedBelow).verify s t hash tx hfVersion chainHeight now =
      (.ok (), s') := by
  show ∃ s', (s.interleave C trustedBelow t).answer C t hash tx hfVersion chainHeight now =
    (.ok (), s')
  unfold ChainTxs.answer
  split
  · exact ⟨_, rfl⟩
  · rw [h]
    exact ⟨_, rfl⟩

/-- **Admission and the block.**  A transaction the pool admits passes step 9 in a block of the
    next height exactly when it meets the rules its signatures do not imply. -/
theorem admitted_passes_iff {P : Params ChainTxs}
    (hverifier : P.txVerifier = some (chainTxs P.crypto P.trustedBelow)) {c : Chain ChainTxs}
    (habove : P.trustedBelow ≤ c.height) {p p' : Mempool.TxPool} {blob : Blob} {now : Nat}
    {method : Mempool.RelayMethod} {admitted : Mempool.Admitted}
    (hadd : p.add P.crypto c.db.main blob (feeContextOf P c) now method = (.ok admitted, p'))
    {tx : Transaction} (hparse : Transaction.fromBlob blob = .ok tx) {blk : Block}
    (hversion : blk.header.majorVersion = currentVersion P c.db.main)
    (hhashes : blk.txHashes = [admitted.id]) :
    (∃ fees v, checkTransactions P c.db.main c.verifier blk [(tx, blob)] now = (.ok fees, v)) ↔
      MeetsRules (currentVersion P c.db.main) c.db.main.getNumOutputs tx := by
  have hnot : ¬ c.db.main.height < P.trustedBelow := Nat.not_lt.mpr habove
  have hadmits := add_ok hadd hparse
  have hsigned := wellSigned hparse ⟨_, _, _, _, hadmits.verified⟩
  rw [← hversion]
  constructor
  · rintro ⟨fees, v, h⟩
    rw [checkTransactions_loop, hhashes] at h
    obtain ⟨_, _, _, fee, v₁, images, htx, _⟩ := h.imp_right checkTransactionsFrom_cons.mp
    rw [← checkTxRules_iff hsigned]
    rw [checkTx, if_neg hnot] at htx
    cases hrules : checkTxRules c.db.main blk.header.majorVersion tx with
    | ok fee => exact ⟨fee, rfl⟩
    | error e =>
        rw [hrules] at htx
        cases htx
  · intro hmeets
    obtain ⟨fee, hrules⟩ := (checkTxRules_iff hsigned).mpr hmeets
    have hnodup : tx.keyImages.Nodup := by
      rw [keyImages_eq]
      refine hmeets.images.imp ?_
      rintro a b hgt rfl
      exact BitVec.lt_irrefl a hgt
    obtain ⟨images, himages⟩ :=
      checkImages_fresh [] hnodup (by simp) hadmits.unspent
    have hverified : Mempool.verify P.crypto c.db.main tx blk.header.majorVersion
        c.db.main.height now = .ok () := by
      rw [hversion]
      exact hadmits.verified
    obtain ⟨v, hv⟩ :=
      chainTxs_verify_of_verify P.trustedBelow c.verifier admitted.id hverified
    have htx : checkTx P c.db.main blk.header.majorVersion c.db.main.height now 0 admitted.id tx
        c.verifier = (.ok fee, v) := by
      rw [checkTx, if_neg hnot, hrules, hverifier]
      simp only
      rw [hv]
    refine ⟨saturatingAdd 0 (fee.getD tx.rctSignatures.txnFee), v,
      checkTransactions_loop.mpr ⟨by rw [hhashes]; rfl, ?_⟩⟩
    rw [hhashes]
    exact checkTransactionsFrom_cons.mpr
      ⟨by simp, hadmits.fresh, fee, v, images, htx, himages, rfl⟩

namespace Sample

/-- What a payment is judged by in a chain of sixty blocks: how many there are, and the first
    coinbase's output, which is unlocked. -/
def unlockedStore : MainTables :=
  { MainTables.empty with
    blocks := (List.range 60).foldl (fun blocks k => blocks.put k []) .empty
    outputAmounts := Table.empty.put (0, 0)
      ⟨0, 8, 60, 0, some (crypto.zeroCommit 17592186044415)⟩ }

def unlocked : Chain ChainTxs := { start with db := ⟨unlockedStore, .empty⟩ }

/-- A block of height 60 with the payment in it. -/
def carrier : Block := nextBlock node unlocked fee [txId payment]

/-- The payment with a ring of one. -/
def slimPayment : Transaction := pay 0 ⟨0, [0], 8, [2], 4⟩

/-- A block of height 60 with the slim payment in it. -/
def slimCarrier : Block := nextBlock node unlocked fee [txId slimPayment]

/-- What the pool says of a payment. -/
def admits (tx : Transaction) : Except Mempool.Rejection Mempool.Admitted × Mempool.TxPool :=
  Mempool.TxPool.add crypto Mempool.TxPool.new unlocked.db.main tx.write
    (feeContextOf node unlocked) clock .fluff

/-- Both payments are admitted, and one of them passes step 9. -/
theorem unlocked_admits :
    (Transaction.fromBlob payment.write = .ok payment ∧
      (admits payment).1 = .ok ⟨txId payment, .fluff⟩ ∧
      (checkTransactions node unlocked.db.main unlocked.verifier carrier
        [(payment, payment.write)] clock).1.isOk = true) ∧
    Transaction.fromBlob slimPayment.write = .ok slimPayment ∧
      (admits slimPayment).1 = .ok ⟨txId slimPayment, .fluff⟩ ∧
      (checkTransactions node unlocked.db.main unlocked.verifier slimCarrier
        [(slimPayment, slimPayment.write)] clock).1.isOk = false := by
  constructor <;> decide +kernel

end Sample

section

open Sample

/-- The payment is admitted, passes step 9 and meets the rules. -/
theorem admitted_passes_iff_payment :
    (admits payment).1 = .ok ⟨txId payment, .fluff⟩ ∧
      MeetsRules (currentVersion node unlocked.db.main) unlocked.db.main.getNumOutputs payment := by
  obtain ⟨⟨hparse, hadmits, hpasses⟩, _⟩ := unlocked_admits
  have hadd : admits payment = (.ok ⟨txId payment, .fluff⟩, (admits payment).2) := by
    rw [← hadmits, Prod.mk.eta]
  unfold admits at hadd
  have hversion : carrier.header.majorVersion = currentVersion node unlocked.db.main := by
    rw [carrier, nextBlock]
  have hhashes : carrier.txHashes = [(⟨txId payment, .fluff⟩ : Mempool.Admitted).id] := by
    rw [carrier, nextBlock]
  have hiff := admitted_passes_iff (P := node) (c := unlocked) rfl (Nat.zero_le _) hadd hparse
    hversion hhashes
  refine ⟨hadmits, hiff.mp ?_⟩
  cases hcheck : checkTransactions node unlocked.db.main unlocked.verifier carrier
      [(payment, payment.write)] clock with
  | mk result v =>
      rw [hcheck] at hpasses
      cases result with
      | ok fees => exact ⟨fees, v, rfl⟩
      | error r => cases hpasses

/-- The slim payment is admitted and refused by step 9. -/
theorem admitted_payment_refused :
    (admits slimPayment).1 = .ok ⟨txId slimPayment, .fluff⟩ ∧
      ¬ ∃ fees v, checkTransactions node unlocked.db.main unlocked.verifier slimCarrier
        [(slimPayment, slimPayment.write)] clock = (.ok fees, v) := by
  obtain ⟨_, _, hadmits, hrefused⟩ := unlocked_admits
  refine ⟨hadmits, ?_⟩
  rintro ⟨fees, v, hcheck⟩
  rw [hcheck] at hrefused
  cases hrefused

end

end Wownero
