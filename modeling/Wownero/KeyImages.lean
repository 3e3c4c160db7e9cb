import Mathlib.GroupTheory.OrderOfElement
import Wownero.ChainTxs
import Wownero.Codec
import Wownero.StoreInverse
import Wownero.Upkeep
import Wownero.Validation
/-!
# The key images a chain records

A key image is recorded as it is spelled, and a second spend of an output is found by its
spelling.  That is sound for images of the prime-order subgroup: two of them that differ by a
point of small order are the same point, and the same bytes.  No check on the way of a block asks
for the subgroup, so a chain records images of it as long as it is handed no others.
-/

namespace Wownero

open Outcome

/-! ### Points of small order -/

/-- Two points that a number prime to eight annihilates and that differ by a point of order a
    divisor of eight are one point. -/
theorem eq_of_small_order {G : Type} [AddCommGroup G] {ell : Nat} (hell : Nat.Coprime 8 ell)
    {a b : G} (ha : ell • a = 0) (hb : ell • b = 0) (hab : 8 • (a - b) = 0) : a = b := by
  have hsub : ell • (a - b) = 0 := by rw [nsmul_sub, ha, hb, sub_zero]
  have hone : addOrderOf (a - b) ∣ 1 := by
    rw [← Nat.Coprime.gcd_eq_one hell]
    exact Nat.dvd_gcd (addOrderOf_dvd_of_nsmul_eq_zero hab) (addOrderOf_dvd_of_nsmul_eq_zero hsub)
  rw [Nat.dvd_one, AddMonoid.addOrderOf_eq_one_iff] at hone
  exact sub_eq_zero.mp hone

/-- A key image that is a point of the prime-order subgroup. -/
def InPrimeSubgroup (C : Crypto) (image : KeyImage) : Prop :=
  ∃ p, C.decodePoint image = some p ∧ C.ell • p = 0

/-- Images of the subgroup differ by no point of small order. -/
theorem InPrimeSubgroup.apart {C : Crypto} (hell : Nat.Coprime 8 C.ell)
    (hcanonical : ∀ a b p, C.decodePoint a = some p → C.decodePoint b = some p → a = b)
    {a b : KeyImage} (ha : InPrimeSubgroup C a) (hb : InPrimeSubgroup C b) (hne : a ≠ b)
    {p q : C.Point} (hp : C.decodePoint a = some p) (hq : C.decodePoint b = some q) :
    8 • (p - q) ≠ 0 := by
  obtain ⟨p', hp', hpell⟩ := ha
  obtain ⟨q', hq', hqell⟩ := hb
  rw [hp] at hp'
  rw [hq] at hq'
  cases hp'
  cases hq'
  intro hsmall
  cases eq_of_small_order hell hpell hqell hsmall
  exact hne (hcanonical a b p hp hq)

/-! ### Transactions and what is stored of them -/

/-- All key images of a transaction are of the subgroup. -/
def CleanImages (C : Crypto) (tx : Transaction) : Prop :=
  ∀ image ∈ tx.keyImages, InPrimeSubgroup C image

/-- So are those of whatever its bytes parse to. -/
def CleanBlob (C : Crypto) (blob : Blob) : Prop :=
  ∀ tx, Transaction.fromBlob blob = .ok tx → CleanImages C tx

def CleanPair (C : Crypto) (p : Transaction × Blob) : Prop := CleanImages C p.1 ∧ CleanBlob C p.2

/-- The bytes of a stored transaction. -/
def MainTables.txBlob (t : MainTables) (txId : Nat) (pruned : Blob) : Blob :=
  pruned ++ (t.txsPrunable.get txId).getD []

/-- What is recorded is of the subgroup, and what is stored brings nothing else back. -/
structure CleanStore (C : Crypto) (t : MainTables) : Prop where
  spent : ∀ image, t.spentKeys.get image = some () → InPrimeSubgroup C image
  stored : ∀ txId pruned, t.txsPruned.get txId = some pruned → CleanBlob C (t.txBlob txId pruned)

section

variable {C : Crypto}

theorem cleanStore_empty : CleanStore C MainTables.empty := by
  refine ⟨?_, ?_⟩
  · intro image h
    cases h
  · intro txId pruned h
    cases h

/-- Only the rows of transactions matter. -/
theorem CleanStore.of_eq {t t' : MainTables} (h : CleanStore C t)
    (hspent : t'.spentKeys = t.spentKeys) (hpruned : t'.txsPruned = t.txsPruned)
    (hprunable : t'.txsPrunable = t.txsPrunable) : CleanStore C t' := by
  refine ⟨?_, ?_⟩
  · rw [hspent]
    exact h.spent
  · unfold MainTables.txBlob
    rw [hpruned, hprunable]
    exact h.stored

theorem addKeyImages_get {spent : Table KeyImage Unit} {images : List KeyImage} {image : KeyImage}
    (h : (addKeyImages spent images).get image = some ()) :
    image ∈ images ∨ spent.get image = some () := by
  induction images generalizing spent with
  | nil => exact Or.inr h
  | cons first images ih =>
      have hfirst : (addKeyImages (spent.add first ()) images).get image = some () := h
      rcases ih hfirst with hmem | hget
      · exact Or.inl (List.mem_cons_of_mem _ hmem)
      · unfold Table.add at hget
        split_ifs at hget
        · exact Or.inr hget
        · rw [Table.get_put] at hget
          split_ifs at hget with heq
          · exact Or.inl (heq ▸ List.mem_cons_self)
          · exact Or.inr hget

theorem delKeyImages_get {spent : Table KeyImage Unit} {images : List KeyImage} {image : KeyImage}
    (h : (delKeyImages spent images).get image = some ()) : spent.get image = some () := by
  induction images generalizing spent with
  | nil => exact h
  | cons first images ih =>
      have hfirst : (delKeyImages (spent.del first) images).get image = some () := h
      have hget := ih hfirst
      rw [Table.get_del] at hget
      split_ifs at hget
      exact hget

/-- A transaction is stored. -/
theorem addTransaction_clean {t t' : MainTables} {height : Nat} {tx : Transaction} {blob : Blob}
    (h : CleanStore C t) (htx : CleanPair C (tx, blob))
    (hadd : addTransaction C t height tx blob = .ok t') : CleanStore C t' := by
  simp only [addTransaction, bind_eq_ok, pure_eq_ok] at hadd
  obtain ⟨txHash, _, ⟨pruned, prunable⟩, hsplit, stored, _, ⟨indices, t₁⟩, houts, rfl⟩ := hadd
  have hsame := addOutputs_sameTxs houts
  have hwhole : pruned ++ prunable = blob := by
    unfold splitTxBlob at hsplit
    split_ifs at hsplit
    cases hsplit
    exact List.take_append_drop _ _
  refine CleanStore.of_eq (t := t₁) ?_ rfl rfl rfl
  refine CleanStore.of_eq ?_ hsame.spentKeys hsame.txsPruned hsame.txsPrunable
  refine ⟨?_, ?_⟩
  · intro image hget
    rcases addKeyImages_get hget with hmem | hget
    · exact htx.1 image hmem
    · exact h.spent image hget
  · intro txId p hget
    unfold MainTables.txBlob
    simp only [Table.get_put] at hget ⊢
    split_ifs at hget ⊢ with hid
    · cases hget
      rw [Option.getD_some, hwhole]
      exact htx.2
    · exact h.stored txId p hget

theorem addTransactions_clean {height : Nat} {txs : List (Transaction × Blob)} {t t' : MainTables}
    (h : CleanStore C t) (htxs : ∀ p ∈ txs, CleanPair C p)
    (hadd : addTransactions C height txs t = .ok t') : CleanStore C t' := by
  induction txs generalizing t with
  | nil =>
      cases hadd
      exact h
  | cons p txs ih =>
      obtain ⟨hp, htxs⟩ := List.forall_mem_cons.mp htxs
      rw [addTransactions, bind_eq_ok] at hadd
      obtain ⟨t₁, hone, hrest⟩ := hadd
      exact ih (addTransaction_clean h hp hone) htxs hrest

/-- A coinbase spends no key, and its bytes parse to nothing that does. -/
theorem coinbase_clean {tx : Transaction} {height : Nat} (h : genHeight tx = some height) :
    CleanPair C (tx, tx.write) := by
  refine ⟨?_, ?_⟩
  · intro image himage
    rw [keyImages_of_genHeight h] at himage
    cases himage
  · intro tx' hparse image himage
    have hvin : tx.txPrefix.vin = [.gen height] := by
      unfold genHeight at h
      split at h
      · rename_i claimed hvin
        cases h
        exact hvin
      · cases h
    have hvin' := fromBlob_gen hvin hparse
    rw [Transaction.keyImages, hvin'] at himage
    cases himage

theorem addBlock_clean {t t' : MainTables} {blk : Block} {blob : Blob}
    {weight longTermWeight cumulativeDifficulty coins height : Nat} {txs : List (Transaction × Blob)}
    (h : CleanStore C t) (hminer : genHeight blk.minerTx = some height)
    (htxs : ∀ p ∈ txs, CleanPair C p)
    (hadd : t.addBlock C blk blob weight longTermWeight cumulativeDifficulty coins txs = .ok t') :
    CleanStore C t' := by
  simp only [MainTables.addBlock, bind_eq_ok, pure_eq_ok] at hadd
  obtain ⟨hash, _, previous, _, t₁, hcoinbase, t₂, hrest, rfl⟩ := hadd
  have h₁ := addTransaction_clean h (coinbase_clean hminer) hcoinbase
  exact (addTransactions_clean h₁ htxs hrest).of_eq rfl rfl rfl

/-! ### What comes back out -/

theorem removeOutputs_sameTxs {outs : List (StoredOutput × Option Nat)} {t t' : MainTables}
    (h : removeOutputs outs t = .ok t') : SameTxs t t' := by
  induction outs generalizing t' with
  | nil =>
      simp only [removeOutputs, Except.ok.injEq] at h
      subst h
      exact ⟨rfl, rfl, rfl, rfl, rfl, rfl⟩
  | cons out outs ih =>
      obtain ⟨s, amountIndex⟩ := out
      simp only [removeOutputs, removeOutput, bind_eq_ok] at h
      obtain ⟨t₁, h₁, _, _, _, _, h₂⟩ := h
      split_ifs at h₂ with hlast
      simp only [bind_eq_ok, pure_eq_ok] at h₂
      obtain ⟨_, _, rfl⟩ := h₂
      obtain ⟨hp, hpr, hph, hi, ho, hs⟩ := ih h₁
      exact ⟨hp, hpr, hph, hi, ho, hs⟩

theorem removeTransaction_clean {t t' : MainTables} {txHash : Hash256} {tx : Transaction}
    (h : CleanStore C t) (hremove : removeTransaction C t txHash = .ok (tx, t')) :
    CleanStore C t' ∧ CleanImages C tx ∧ ∃ blob, Transaction.fromBlob blob = .ok tx := by
  simp only [removeTransaction, bind_eq_ok, pure_eq_ok, orNotFound_eq_ok] at hremove
  obtain ⟨idx, _, pruned, hpruned, tx', hparse, indices, _, stored, _, t₁, houts, heq⟩ := hremove
  cases heq
  rw [parseTransaction_eq_ok] at hparse
  have hsame := removeOutputs_sameTxs houts
  have h₁ : CleanStore C t₁ := h.of_eq hsame.spentKeys hsame.txsPruned hsame.txsPrunable
  refine ⟨⟨?_, ?_⟩, h.stored _ _ hpruned _ hparse, _, hparse⟩
  · intro image hget
    exact h₁.spent image (delKeyImages_get hget)
  · intro txId p hget
    unfold MainTables.txBlob
    simp only [Table.get_del] at hget ⊢
    split_ifs at hget ⊢ with hid
    exact h₁.stored txId p hget

theorem removeTransactions_clean {hashes : List Hash256} {t t' : MainTables}
    {txs : List Transaction} (h : CleanStore C t)
    (hremove : removeTransactions C hashes t = .ok (txs, t')) :
    CleanStore C t' ∧
      ∀ tx ∈ txs, CleanImages C tx ∧ ∃ blob, Transaction.fromBlob blob = .ok tx := by
  induction hashes generalizing t' txs with
  | nil =>
      simp only [removeTransactions, Except.ok.injEq, Prod.mk.injEq] at hremove
      obtain ⟨rfl, rfl⟩ := hremove
      exact ⟨h, List.forall_mem_nil _⟩
  | cons hash hashes ih =>
      simp only [removeTransactions, bind_eq_ok, pure_eq_ok] at hremove
      obtain ⟨⟨rest, t₁⟩, h₁, ⟨tx, t₂⟩, h₂, heq⟩ := hremove
      cases heq
      obtain ⟨hclean, hrest⟩ := ih h₁
      obtain ⟨hclean', htx⟩ := removeTransaction_clean hclean h₂
      exact ⟨hclean', List.forall_mem_cons.mpr ⟨htx, hrest⟩⟩

/-- A transaction that came out of the store goes back in as it is. -/
theorem withBlob_clean {tx : Transaction} {blob : Blob} (hclean : CleanImages C tx)
    (hparse : Transaction.fromBlob blob = .ok tx) : CleanPair C (withBlob tx) := by
  unfold withBlob
  cases hagain : Transaction.fromBlob tx.write with
  | error e =>
      refine ⟨hclean, ?_⟩
      intro tx' h
      rw [hagain] at h
      cases h
  | ok parsed =>
      have himages : CleanImages C parsed := by
        have hsame := reparsed_prefix hparse hagain
        unfold CleanImages Transaction.keyImages at hclean ⊢
        rw [hsame]
        exact hclean
      refine ⟨himages, ?_⟩
      intro tx' h
      rw [hagain] at h
      cases h
      exact himages

theorem popBlock_clean {t t' : MainTables} {block : Block} {txs : List Transaction}
    (h : CleanStore C t) (hpop : t.popBlock C = .ok ((block, txs), t')) :
    CleanStore C t' ∧ ∀ tx ∈ txs, CleanPair C (withBlob tx) := by
  unfold MainTables.popBlock at hpop
  split_ifs at hpop with hzero
  simp only [bind_eq_ok, pure_eq_ok] at hpop
  obtain ⟨blob, _, blk, _, ⟨popped, t₁⟩, h₁, minerHash, _, ⟨miner, t₂⟩, h₂, info, _, heq⟩ := hpop
  cases heq
  obtain ⟨hclean, htxs⟩ := removeTransactions_clean h h₁
  refine ⟨(removeTransaction_clean hclean h₂).1.of_eq rfl rfl rfl, ?_⟩
  intro tx htx
  obtain ⟨himages, blob', hparse⟩ := htxs tx htx
  exact withBlob_clean himages hparse

end

/-! ### Runs -/

section

variable {σ : Type}

theorem clean_upkeep (P : Params σ) :
    Upkeep P (CleanPair P.crypto) fun _ t => CleanStore P.crypto t where
  add := by
    intro c blk blob txs now result c' h htxs hout
    cases result with
    | ok added =>
        obtain ⟨_, fees, reward, v, haccepted⟩ := addBlock_ok hout
        obtain ⟨_, _, _, _, _, _, hcoinbase⟩ := prechecks_ok.mp haccepted.prechecks
        exact addBlock_clean h (stepCoinbase_genHeight hcoinbase) htxs haccepted.main
    | error r =>
        obtain ⟨v, rfl⟩ := addBlock_error hout
        exact h
  pop := by
    intro c block txs c' h hpop
    exact popBlock_clean h (popBlock_ok hpop).1

/-- An operation hands in transactions that were parsed from their bytes and spend images of the
    subgroup. -/
def HandsClean (C : Crypto) (_ : Chain σ) : Action σ → Prop
  | .handleBlock _ _ txs _ | .addBlock _ _ txs _ =>
      ∀ p ∈ txs, Transaction.fromBlob p.2 = .ok p.1 ∧ CleanImages C p.1
  | _ => True

theorem HandsClean.brings {P : Params σ} {c : Chain σ} {a : Action σ}
    (h : Holds (CleanPair P.crypto) (fun _ t => CleanStore P.crypto t) c)
    (hhands : HandsClean P.crypto c a) :
    Brings (CleanPair P.crypto) (fun _ t => CleanStore P.crypto t) c a := by
  have hpair : ∀ txs : List (Transaction × Blob),
      (∀ p ∈ txs, Transaction.fromBlob p.2 = .ok p.1 ∧ CleanImages P.crypto p.1) →
      ∀ p ∈ txs, CleanPair P.crypto p := by
    intro txs htxs p hp
    obtain ⟨hparse, hclean⟩ := htxs p hp
    refine ⟨hclean, ?_⟩
    intro tx htx
    rw [hparse] at htx
    cases htx
    exact hclean
  cases a with
  | handleBlock blk blob txs now => exact hpair txs hhands
  | addBlock blk blob txs now => exact hpair txs hhands
  | popBlocks n => trivial
  | takeOrphanedTxs => trivial
  | reopen v => exact h.inv
  | others v => exact h.inv

/-- **One spelling for each output.**  In every run that is handed images of the prime-order
    subgroup only, every recorded image is one, and no two of them differ by a point of small
    order. -/
theorem recorded_images_apart (P : Params σ) (hell : Nat.Coprime 8 P.crypto.ell)
    (hcanonical : ∀ a b p, P.crypto.decodePoint a = some p → P.crypto.decodePoint b = some p →
      a = b)
    {v : σ} {c₀ : Chain σ} (hopen : Chain.new P Store.empty v = .ok c₀)
    (actions : List (Action σ)) (hhands : c₀.Along P (HandsClean P.crypto) actions) :
    (∀ image, (c₀.run P actions).db.main.spentKeys.get image = some () →
        InPrimeSubgroup P.crypto image) ∧
      ∀ a b, (c₀.run P actions).db.main.spentKeys.get a = some () →
        (c₀.run P actions).db.main.spentKeys.get b = some () → a ≠ b →
        ∀ p q, P.crypto.decodePoint a = some p → P.crypto.decodePoint b = some q →
          8 • (p - q) ≠ 0 := by
  have hholds := run_holds (clean_upkeep P) (fun _ _ h hhands => HandsClean.brings h hhands) hopen
    cleanStore_empty actions hhands
  have hspent := hholds.inv.spent
  refine ⟨hspent, ?_⟩
  intro a b ha hb hne p q hp hq
  exact (hspent a ha).apart hell hcanonical (hspent b hb) hne hp hq

end

end Wownero
