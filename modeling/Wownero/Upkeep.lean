import Wownero.AltChains
/-!
# What every block and every pop keeps

An operation of the chain is made of blocks added, blocks popped and bookkeeping beside the main
chain.  What holds of the store and of the verifier's memory, and is kept by the first two, is
therefore kept by every operation.  The transactions that are added again during a switch come
from the alternative blocks or from the store itself, so a property of all transactions handed
in reaches them too.
-/

namespace Wownero

open Outcome

section

variable {σ : Type} {P : Params σ} {good : Transaction × Blob → Prop} {I : σ → MainTables → Prop}

/-- A property of memory and store is kept: by blocks of good transactions, and by pops, which
    hand back good transactions. -/
structure Upkeep (P : Params σ) (good : Transaction × Blob → Prop)
    (I : σ → MainTables → Prop) : Prop where
  add : ∀ (c : Chain σ) blk blob txs now result c', I c.verifier c.db.main →
    (∀ p ∈ txs, good p) → Chain.addBlock P c blk blob txs now = (result, c') →
    I c'.verifier c'.db.main
  pop : ∀ (c : Chain σ) block txs c', I c.verifier c.db.main →
    Chain.popBlock P c = .ok ((block, txs), c') →
    I c'.verifier c'.db.main ∧ ∀ tx ∈ txs, good (withBlob tx)

/-! ### The verifier's memory -/

/-- What the verifier keeps of its memory and the store it looks at: at every question, and after
    every block and every pop. -/
structure MemoryKept (C : Crypto) (verifier : TxVerifier σ) (I : σ → MainTables → Prop) : Prop where
  verify : ∀ s t hash tx hfVersion now, I s t →
    I (verifier.verify s t hash tx hfVersion t.height now).2 t
  added : ∀ s t t' blk blob weight longTermWeight cumulativeDifficulty coins txs, I s t →
    t.addBlock C blk blob weight longTermWeight cumulativeDifficulty coins txs = .ok t' →
    I (verifier.observe s t') t'
  popped : ∀ s t t' popped, I s t → t.popBlock C = .ok (popped, t') → I (verifier.observe s t') t'

theorem checkTx_memory {verifier : TxVerifier σ} (hP : P.txVerifier = some verifier)
    (hk : MemoryKept P.crypto verifier I) {t : MainTables} {v : σ} (h : I v t)
    (version now i : Nat) (hash : Hash256) (tx : Transaction) :
    I (checkTx P t version t.height now i hash tx v).2 t := by
  unfold checkTx
  split_ifs
  · split
    · exact h
    · exact h
  · split
    · exact h
    · rw [hP]
      have hasked := hk.verify v t hash tx version now h
      dsimp only
      cases hout : verifier.verify v t hash tx version t.height now with
      | mk result v' =>
          rw [hout] at hasked
          cases result with
          | ok u => exact hasked
          | error e => exact hasked

theorem checkTransactionsFrom_memory {verifier : TxVerifier σ} (hP : P.txVerifier = some verifier)
    (hk : MemoryKept P.crypto verifier I) {t : MainTables} (version now : Nat)
    (txs : List (Hash256 × Transaction)) (i : Nat) (seen : List Hash256)
    (images : List KeyImage) (fees : Nat) {v : σ} (h : I v t) :
    I (checkTransactionsFrom P t version t.height now i txs seen images fees v).2 t := by
  induction txs generalizing i seen images fees v with
  | nil => exact h
  | cons p rest ih =>
      obtain ⟨hash, tx⟩ := p
      unfold checkTransactionsFrom
      split_ifs
      · exact h
      · exact h
      · have hone := checkTx_memory hP hk h version now i hash tx
        cases hout : checkTx P t version t.height now i hash tx v with
        | mk result v' =>
            rw [hout] at hone
            cases result with
            | error e => exact hone
            | ok fee =>
                simp only
                split
                · exact hone
                · exact ih _ _ _ _ hone

theorem checkTransactions_memory {verifier : TxVerifier σ} (hP : P.txVerifier = some verifier)
    (hk : MemoryKept P.crypto verifier I) {t : MainTables} {v : σ} (h : I v t) (blk : Block)
    (txs : List (Transaction × Blob)) (now : Nat) :
    I (checkTransactions P t v blk txs now).2 t := by
  unfold checkTransactions
  split_ifs
  · exact h
  · have hall := checkTransactionsFrom_memory hP hk blk.header.majorVersion now
      (blk.txHashes.zip (txs.map (·.1))) 0 [] [] 0 h
    split
    · rename_i heq
      rw [heq] at hall
      exact hall
    · rename_i heq
      rw [heq] at hall
      exact hall

/-- What the verifier keeps, blocks and pops keep. -/
theorem MemoryKept.upkeep {verifier : TxVerifier σ} (hP : P.txVerifier = some verifier)
    (hk : MemoryKept P.crypto verifier I) : Upkeep P (fun _ => True) I where
  add := by
    intro c blk blob txs now result c' h _ hout
    have hasked := checkTransactions_memory hP hk h blk txs now
    cases result with
    | ok added =>
        obtain ⟨_, fees, reward, v, haccepted⟩ := addBlock_ok hout
        rw [haccepted.transactions] at hasked
        have hobserved := hk.added _ _ _ _ _ _ _ _ _ _ hasked haccepted.main
        rw [haccepted.verifier, Chain.observed, hP]
        exact hobserved
    | error r =>
        obtain ⟨v, rfl⟩ := addBlock_error hout
        have hv := addBlock_error_verifier hout
        rcases hv with hv | hv
        · rw [hv]
          exact h
        · rw [hv]
          exact hasked
  pop := by
    intro c block txs c' h hpop
    refine ⟨?_, fun _ _ => trivial⟩
    have hmain := (popBlock_ok hpop).1
    have hobserved := hk.popped _ _ _ _ h hmain
    rw [popBlock_verifier hpop, Chain.observed, hP]
    exact hobserved

/-! ### Chains and what waits beside them -/

/-- The transactions kept beside the alternative blocks are good. -/
def AltsGood (good : Transaction × Blob → Prop) (c : Chain σ) : Prop :=
  ∀ id txs, c.altTxs.get id = some txs → ∀ p ∈ txs, good p

/-- The property holds of a chain, and of what waits beside it. -/
structure Holds (good : Transaction × Blob → Prop) (I : σ → MainTables → Prop) (c : Chain σ) :
    Prop where
  inv : I c.verifier c.db.main
  alts : AltsGood good c

theorem Holds.of_eq {c c' : Chain σ} (h : Holds good I c) (hmain : c'.db.main = c.db.main)
    (hverifier : c'.verifier = c.verifier) (haltTxs : AltsGood good c') : Holds good I c' :=
  ⟨by rw [hmain, hverifier]; exact h.inv, haltTxs⟩

theorem altsGood_empty {c : Chain σ} (h : c.altTxs = .empty) : AltsGood good c := by
  intro id txs hget
  rw [h] at hget
  cases hget

theorem addBlock_altTxs (c : Chain σ) (blk : Block) (blob : Blob) (txs : List (Transaction × Blob))
    (now : Nat) : (Chain.addBlock P c blk blob txs now).2.altTxs = c.altTxs := by
  cases hout : Chain.addBlock P c blk blob txs now with
  | mk result c' =>
      cases result with
      | ok added =>
          obtain ⟨_, fees, reward, v, haccepted⟩ := addBlock_ok hout
          exact haccepted.altTxs
      | error r =>
          obtain ⟨v, rfl⟩ := addBlock_error hout
          rfl

theorem addBlock_holds (hk : Upkeep P good I) {c : Chain σ} (h : Holds good I c) (blk : Block)
    (blob : Blob) {txs : List (Transaction × Blob)} (hgood : ∀ p ∈ txs, good p) (now : Nat) :
    Holds good I (Chain.addBlock P c blk blob txs now).2 := by
  have hinv := hk.add c blk blob txs now _ _ h.inv hgood Prod.mk.eta.symm
  refine ⟨hinv, ?_⟩
  unfold AltsGood
  rw [addBlock_altTxs]
  exact h.alts

theorem popBlock_holds (hk : Upkeep P good I) {c c' : Chain σ} (h : Holds good I c) {block : Block}
    {txs : List Transaction} (hpop : Chain.popBlock P c = .ok ((block, txs), c')) :
    Holds good I c' ∧ ∀ p ∈ txs.map withBlob, good p := by
  obtain ⟨hinv, hgood⟩ := hk.pop c block txs c' h.inv hpop
  refine ⟨⟨hinv, ?_⟩, ?_⟩
  · unfold AltsGood
    rw [(popBlock_ok hpop).2.2.2.1]
    exact h.alts
  · intro p hp
    obtain ⟨tx, htx, rfl⟩ := List.mem_map.mp hp
    exact hgood tx htx

theorem reloadState_holds {c : Chain σ} (h : Holds good I c) :
    Holds good I (Chain.reloadState P c).2 := by
  unfold Chain.reloadState
  split
  · exact h.of_eq rfl rfl h.alts
  · exact h

/-! ### The loops of the switch -/

theorem popMany_holds (hk : Upkeep P good I) (n : Nat) {c : Chain σ} (h : Holds good I c) :
    Holds good I (Chain.popMany P n c).2 := by
  induction n generalizing c with
  | zero => exact h
  | succ n ih =>
      unfold Chain.popMany
      cases hpop : Chain.popBlock P c with
      | error r => exact h
      | ok out =>
          obtain ⟨⟨block, txs⟩, c₁⟩ := out
          have h₁ := (popBlock_holds hk h hpop).1
          have h₂ : Holds good I { c₁ with orphanedTxs := c₁.orphanedTxs ++ txs.map withBlob } :=
            h₁.of_eq rfl rfl h₁.alts
          exact ih h₂

/-- The blocks a switch takes off keep good transactions. -/
def PoppedGood (good : Transaction × Blob → Prop) (popped : List Popped) : Prop :=
  ∀ b ∈ popped, ∀ p ∈ b.txs, good p

theorem popTo_holds (hk : Upkeep P good I) (split fuel : Nat) {c : Chain σ} (h : Holds good I c)
    {acc : List Popped} (hacc : PoppedGood good acc) :
    Holds good I (Chain.popTo P split fuel c acc).2 ∧
      ∀ popped, (Chain.popTo P split fuel c acc).1 = .ok popped → PoppedGood good popped := by
  induction fuel generalizing c acc with
  | zero =>
      refine ⟨h, ?_⟩
      intro popped hout
      cases hout
      exact hacc
  | succ fuel ih =>
      unfold Chain.popTo
      split_ifs
      · cases hinfo : c.db.main.getBlockInfo (c.height - 1) with
        | error e => exact ⟨h, fun _ h => by cases h⟩
        | ok info =>
            simp only
            cases hpop : Chain.popBlock P c with
            | error r => exact ⟨h, fun _ h => by cases h⟩
            | ok out =>
                obtain ⟨⟨block, txs⟩, c₁⟩ := out
                obtain ⟨h₁, hgood⟩ := popBlock_holds hk h hpop
                refine ih h₁ ?_
                intro b hb
                rcases List.mem_cons.mp hb with rfl | hb
                · exact hgood
                · exact hacc b hb
      · refine ⟨h, ?_⟩
        intro popped hout
        cases hout
        exact hacc

theorem dropBlocks_holds (hk : Upkeep P good I) (n : Nat) {c : Chain σ} (h : Holds good I c) :
    Holds good I (Chain.dropBlocks P n c).2 := by
  induction n generalizing c with
  | zero => exact h
  | succ n ih =>
      unfold Chain.dropBlocks
      cases hpop : Chain.popBlock P c with
      | error r => exact h
      | ok out =>
          obtain ⟨⟨block, txs⟩, c₁⟩ := out
          exact ih (popBlock_holds hk h hpop).1

theorem applyAlt_holds (hk : Upkeep P good I) (now : Nat)
    {blocks : List (AltLink × List (Transaction × Blob))}
    (hblocks : ∀ b ∈ blocks, ∀ p ∈ b.2, good p) (i : Nat) {c : Chain σ} (h : Holds good I c) :
    Holds good I (Chain.applyAlt P now i blocks c).2 := by
  induction blocks generalizing i c with
  | nil => exact h
  | cons b rest ih =>
      obtain ⟨link, txs⟩ := b
      have hadd := addBlock_holds hk h link.block link.blob
        (hblocks (link, txs) List.mem_cons_self) now
      unfold Chain.applyAlt
      cases hout : Chain.addBlock P c link.block link.blob txs now with
      | mk result c₁ =>
          rw [hout] at hadd
          cases result with
          | ok added => exact ih (fun b hb => hblocks b (List.mem_cons_of_mem _ hb)) (i + 1) hadd
          | error r => exact hadd

theorem putBack_holds (hk : Upkeep P good I) (now : Nat) {popped : List Popped}
    (hpopped : PoppedGood good popped) {c : Chain σ} (h : Holds good I c) :
    Holds good I (Chain.putBack P now popped c).2 := by
  induction popped generalizing c with
  | nil => exact h
  | cons p ps ih =>
      have hadd := addBlock_holds hk h p.block p.block.toBlob (hpopped p List.mem_cons_self) now
      unfold Chain.putBack
      cases hout : Chain.addBlock P c p.block p.block.toBlob p.txs now with
      | mk result c₁ =>
          rw [hout] at hadd
          cases result with
          | ok added => exact ih (fun b hb => hpopped b (List.mem_cons_of_mem _ hb)) hadd
          | error r => exact hadd

/-! ### Bookkeeping -/

theorem removeAlts_holds (links : List AltLink) {c : Chain σ} (h : Holds good I c) :
    Holds good I (c.removeAlts links) := by
  unfold Chain.removeAlts
  induction links generalizing c with
  | nil => exact h
  | cons l links ih =>
      refine ih (h.of_eq rfl rfl ?_)
      intro id txs hget
      rw [Table.get_del] at hget
      split_ifs at hget
      exact h.alts id txs hget

theorem keepPopped_holds {popped : List Popped} (hpopped : PoppedGood good popped) {c : Chain σ}
    (h : Holds good I c) : Holds good I (c.keepPopped popped) := by
  unfold Chain.keepPopped
  induction popped generalizing c with
  | nil => exact h
  | cons p popped ih =>
      refine ih (fun b hb => hpopped b (List.mem_cons_of_mem _ hb)) (h.of_eq rfl rfl ?_)
      intro id txs hget
      rw [Table.get_put] at hget
      split_ifs at hget
      · cases hget
        exact hpopped p List.mem_cons_self
      · exact h.alts id txs hget

theorem gatherBodies_good {c : Chain σ} (halts : AltsGood good c) {links : List AltLink}
    {bodies : List (List (Transaction × Blob))} (h : gatherBodies c.altTxs links = .ok bodies) :
    ∀ txs ∈ bodies, ∀ p ∈ txs, good p := by
  induction links generalizing bodies with
  | nil =>
      cases h
      exact List.forall_mem_nil _
  | cons link links ih =>
      unfold gatherBodies at h
      cases hget : c.altTxs.get link.id with
      | some txs =>
          simp only [hget, bind_eq_ok, Outcome.pure_eq_ok] at h
          obtain ⟨rest, hrest, rfl⟩ := h
          intro body hbody
          rcases List.mem_cons.mp hbody with rfl | hbody
          · exact halts link.id _ hget
          · exact ih hrest body hbody
      | none =>
          cases hhashes : link.block.txHashes with
          | cons hash hashes =>
              simp only [hget, hhashes] at h
              cases h
          | nil =>
              simp only [hget, hhashes, bind_eq_ok, Outcome.pure_eq_ok] at h
              obtain ⟨rest, hrest, rfl⟩ := h
              intro body hbody
              rcases List.mem_cons.mp hbody with rfl | hbody
              · exact List.forall_mem_nil _
              · exact ih hrest body hbody

/-! ### Whole operations -/

theorem restore_holds (hk : Upkeep P good I) (now applied : Nat) (chain : List AltLink)
    {popped : List Popped} (hpopped : PoppedGood good popped) (rejected : Rejection) {c : Chain σ}
    (h : Holds good I c) :
    Holds good I (Chain.restore P now applied chain popped rejected c).2 := by
  have hdropped := dropBlocks_holds hk applied h
  unfold Chain.restore
  cases hdrop : Chain.dropBlocks P applied c with
  | mk result c₁ =>
      rw [hdrop] at hdropped
      cases result with
      | error e => exact hdropped
      | ok u =>
          have hreloaded := reloadState_holds (P := P) hdropped
          simp only
          cases hreload : Chain.reloadState P c₁ with
          | mk result c₂ =>
              rw [hreload] at hreloaded
              cases result with
              | error e => exact hreloaded
              | ok u =>
                  have hback := putBack_holds hk now hpopped hreloaded
                  simp only
                  cases hput : Chain.putBack P now popped c₂ with
                  | mk result c₃ =>
                      rw [hput] at hback
                      cases result with
                      | error e => exact hback
                      | ok u => exact removeAlts_holds _ hback

theorem switchToAlternative_holds (hk : Upkeep P good I) {c : Chain σ} (h : Holds good I c)
    (chain : List AltLink) (split now : Nat) :
    Holds good I (Chain.switchToAlternative P c chain split now).2 := by
  unfold Chain.switchToAlternative
  cases hgather : gatherBodies c.altTxs chain with
  | error e => exact h
  | ok bodies =>
      have hbodies := gatherBodies_good h.alts hgather
      have hnone : PoppedGood good [] := nofun
      obtain ⟨hpop, hgood⟩ := popTo_holds hk split c.height h hnone
      simp only
      cases hout : Chain.popTo P split c.height c [] with
      | mk result c₁ =>
          rw [hout] at hpop hgood
          cases result with
          | error e => exact hpop
          | ok popped =>
              have hpopped := hgood popped rfl
              have hreloaded := reloadState_holds (P := P) hpop
              simp only
              cases hreload : Chain.reloadState P c₁ with
              | mk result c₂ =>
                  rw [hreload] at hreloaded
                  cases result with
                  | error e => exact hreloaded
                  | ok u =>
                      have hblocks : ∀ b ∈ chain.zip bodies, ∀ p ∈ b.2, good p :=
                        fun b hb => hbodies b.2 (List.of_mem_zip hb).2
                      have happlied := applyAlt_holds hk now hblocks 0 hreloaded
                      simp only
                      cases happly : Chain.applyAlt P now 0 (chain.zip bodies) c₂ with
                      | mk refused c₃ =>
                          rw [happly] at happlied
                          cases refused with
                          | some failure =>
                              obtain ⟨i, rejected⟩ := failure
                              exact restore_holds hk now i chain hpopped rejected happlied
                          | none =>
                              have hkept := removeAlts_holds chain
                                (keepPopped_holds hpopped happlied)
                              exact hkept.of_eq rfl rfl hkept.alts

theorem handleBlock_holds (hk : Upkeep P good I) {c : Chain σ} (h : Holds good I c) (blk : Block)
    (blob : Blob) {txs : List (Transaction × Blob)} (hgood : ∀ p ∈ txs, good p) (now : Nat) :
    Holds good I (Chain.handleBlock P c blk blob txs now).2 := by
  rcases handleBlock_cases P c blk blob txs now with
    ⟨r, hout⟩ | hout | ⟨id, links, split, difficulty, data, _, hout⟩
  · rw [hout]
    exact h
  · rw [hout]
    exact addBlock_holds hk h blk blob hgood now
  · have hstored : Holds good I
        { c with db := c.db.addAltBlock id data blob, altTxs := c.altTxs.put id txs } := by
      refine h.of_eq rfl rfl ?_
      intro id' txs' hget
      rw [Table.get_put] at hget
      split_ifs at hget
      · cases hget
        exact hgood
      · exact h.alts id' txs' hget
    rw [hout, Chain.storeAlternative]
    dsimp only
    split_ifs
    · exact hstored
    · exact switchToAlternative_holds hk hstored _ _ _

/-- What an operation has to bring along: good transactions, and a memory the property holds
    of. -/
def Brings (good : Transaction × Blob → Prop) (I : σ → MainTables → Prop) (c : Chain σ) :
    Action σ → Prop
  | .handleBlock _ _ txs _ | .addBlock _ _ txs _ => ∀ p ∈ txs, good p
  | .popBlocks _ | .takeOrphanedTxs => True
  | .reopen v | .others v => I v c.db.main

/-- **One operation** keeps what blocks and pops keep. -/
theorem act_holds (hk : Upkeep P good I) {c : Chain σ} (h : Holds good I c) {a : Action σ}
    (hbrings : Brings good I c a) : Holds good I (c.act P a).2 := by
  cases a with
  | handleBlock blk blob txs now => exact handleBlock_holds hk h blk blob hbrings now
  | addBlock blk blob txs now => exact addBlock_holds hk h blk blob hbrings now
  | popBlocks n =>
      have hmany := popMany_holds hk (min n (c.height - 1)) h
      show Holds good I (Chain.popBlocks P c n).2
      unfold Chain.popBlocks
      cases hout : Chain.popMany P (min n (c.height - 1)) c with
      | mk result c₁ =>
          rw [hout] at hmany
          cases result with
          | error e =>
              simp only [hout]
              exact hmany
          | ok u =>
              have hreloaded := reloadState_holds (P := P) hmany
              simp only [hout]
              cases hreload : Chain.reloadState P c₁ with
              | mk result c₂ =>
                  rw [hreload] at hreloaded
                  cases result with
                  | error e => exact hreloaded
                  | ok u => exact hreloaded
  | takeOrphanedTxs => exact h.of_eq rfl rfl h.alts
  | reopen v =>
      rw [Chain.act]
      cases hnew : Chain.new P c.db v with
      | error e => exact h
      | ok c' =>
          simp only [Chain.new, bind_eq_ok, Outcome.pure_eq_ok] at hnew
          obtain ⟨state, _, rfl⟩ := hnew
          exact ⟨hbrings, altsGood_empty rfl⟩
  | others v => exact ⟨hbrings, h.alts⟩

/-- **A run** keeps what blocks and pops keep, when its operations bring what they have to. -/
theorem run_holds (hk : Upkeep P good I) {cond : Chain σ → Action σ → Prop}
    (hcond : ∀ c a, Holds good I c → cond c a → Brings good I c a) {v : σ} {c₀ : Chain σ}
    (hopen : Chain.new P Store.empty v = .ok c₀) (hstart : I v MainTables.empty)
    (actions : List (Action σ)) (hmeets : c₀.Along P cond actions) :
    Holds good I (c₀.run P actions) := by
  simp only [Chain.new, bind_eq_ok, Outcome.pure_eq_ok] at hopen
  obtain ⟨state, _, rfl⟩ := hopen
  exact run_invariant (I := fun _ c => Holds good I c) ⟨hstart, altsGood_empty rfl⟩
    (fun _ a c h hmeets => act_holds hk h (hcond c a h hmeets)) actions hmeets

end

end Wownero
