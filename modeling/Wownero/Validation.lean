import Wownero.Runs
import Wownero.StoreInverse
/-!
# What an accepted block has passed

The loop of step 9 read backwards: the transactions of an accepted block are new to the chain and
to one another, each has passed its own checks, and its coinbase claims the height it is at.
Then the same block again: on the same chain a later clock accepts what an earlier one did, as
long as the verifier does not change its mind.
-/

namespace Wownero

open Outcome Wownero.TxRules

/-! ### Key images -/

theorem checkImages_ok {t : MainTables} {before images after : List KeyImage}
    (h : checkImages t before images = .ok after) :
    (∀ image, image ∈ after ↔ image ∈ images ∨ image ∈ before) ∧
      ∀ image ∈ images, image ∉ before ∧ t.hasKeyImage image = false := by
  induction images generalizing before with
  | nil =>
      simp only [checkImages, Except.ok.injEq] at h
      subst h
      simp
  | cons image images ih =>
      unfold checkImages at h
      split_ifs at h with hblock hchain
      obtain ⟨hafter, hnew⟩ := ih h
      refine ⟨?_, ?_⟩
      · intro other
        rw [hafter]
        simp only [List.mem_cons]
        tauto
      · intro other hother
        rcases List.mem_cons.mp hother with rfl | hmem
        · exact ⟨by simpa using hblock, by simpa using hchain⟩
        · obtain ⟨hnot, hspent⟩ := hnew other hmem
          exact ⟨fun hin => hnot (List.mem_cons_of_mem _ hin), hspent⟩

section

variable {σ : Type} {P : Params σ}

/-! ### The loop of step 9 -/

/-- A transaction has passed its own checks, at some index and with some memory of the
    verifier. -/
def TxPassed (P : Params σ) (t : MainTables) (version height now : Nat) (hash : Hash256)
    (tx : Transaction) : Prop :=
  ∃ i v fee v', checkTx P t version height now i hash tx v = (.ok fee, v')

/-- One turn of the loop. -/
theorem checkTransactionsFrom_cons {t : MainTables} {version height now : Nat} {hash : Hash256}
    {tx : Transaction} {list : List (Hash256 × Transaction)} {i : Nat} {seen : List Hash256}
    {images : List KeyImage} {fees total : Nat} {v v' : σ} :
    checkTransactionsFrom P t version height now i ((hash, tx) :: list) seen images fees v =
        (.ok total, v') ↔
      hash ∉ seen ∧ t.txIndices.get hash = none ∧ ∃ fee v₁ images',
        checkTx P t version height now i hash tx v = (.ok fee, v₁) ∧
        checkImages t images tx.keyImages = .ok images' ∧
        checkTransactionsFrom P t version height now (i + 1) list (hash :: seen) images'
          (saturatingAdd fees (fee.getD tx.rctSignatures.txnFee)) v₁ = (.ok total, v') := by
  rw [checkTransactionsFrom]
  by_cases hseen : hash ∈ seen
  · simp [hseen]
  · rw [if_neg (by simpa using hseen)]
    cases hexists : t.txIndices.get hash with
    | some idx => simp [MainTables.txExists, hexists]
    | none =>
        rw [if_neg (by simp [MainTables.txExists, hexists])]
        cases htx : checkTx P t version height now i hash tx v with
        | mk result v₁ =>
            cases result with
            | error e => simp
            | ok fee =>
                cases himg : checkImages t images tx.keyImages with
                | error e => simp
                | ok images' => simp [hseen]

/-- **Step 9.**  What the loop has established when it comes to its end. -/
theorem checkTransactionsFrom_ok {t : MainTables} {version height now : Nat}
    {list : List (Hash256 × Transaction)} {i : Nat} {seen : List Hash256}
    {images : List KeyImage} {fees total : Nat} {v v' : σ}
    (h : checkTransactionsFrom P t version height now i list seen images fees v =
      (.ok total, v')) :
    (∀ p ∈ list, p.1 ∉ seen ∧ t.txIndices.get p.1 = none) ∧ (list.map (·.1)).Nodup ∧
      (∀ p ∈ list, ∀ image ∈ p.2.keyImages, image ∉ images ∧ t.spentKeys.get image = none) ∧
      (list.Pairwise fun p q => ∀ image ∈ q.2.keyImages, image ∉ p.2.keyImages) ∧
      ∀ p ∈ list, TxPassed P t version height now p.1 p.2 := by
  induction list generalizing i seen images fees v with
  | nil => simp
  | cons p list ih =>
      obtain ⟨hash, tx⟩ := p
      obtain ⟨hunseen, hfresh, fee, v₁, images', htx, himg, hrest⟩ :=
        checkTransactionsFrom_cons.mp h
      obtain ⟨hafter, hnew⟩ := checkImages_ok himg
      obtain ⟨ih₁, ih₂, ih₃, ih₄, ih₅⟩ := ih hrest
      refine ⟨?_, ?_, ?_, ?_, ?_⟩
      · intro p hp
        rcases List.mem_cons.mp hp with rfl | hp
        · exact ⟨hunseen, hfresh⟩
        · obtain ⟨hns, hget⟩ := ih₁ p hp
          exact ⟨fun hin => hns (List.mem_cons_of_mem _ hin), hget⟩
      · rw [List.map_cons, List.nodup_cons]
        refine ⟨?_, ih₂⟩
        intro hmem
        obtain ⟨p, hp, hpe⟩ := List.mem_map.mp hmem
        exact (ih₁ p hp).1 (hpe ▸ List.mem_cons_self)
      · intro p hp image himage
        rcases List.mem_cons.mp hp with rfl | hp
        · obtain ⟨hnot, hspent⟩ := hnew image himage
          exact ⟨hnot, by simpa [MainTables.hasKeyImage] using hspent⟩
        · obtain ⟨hnot, hget⟩ := ih₃ p hp image himage
          exact ⟨fun hin => hnot ((hafter image).mpr (Or.inr hin)), hget⟩
      · refine List.pairwise_cons.mpr ⟨?_, ih₄⟩
        intro p hp image himage hin
        exact (ih₃ p hp image himage).1 ((hafter image).mpr (Or.inl hin))
      · intro p hp
        rcases List.mem_cons.mp hp with rfl | hp
        · exact ⟨i, v, fee, v₁, htx⟩
        · exact ih₅ p hp

/-- Step 9 runs its loop over as many transactions as the block has hashes. -/
theorem checkTransactions_loop {t : MainTables} {v v' : σ} {blk : Block}
    {txs : List (Transaction × Blob)} {now fees : Nat} :
    checkTransactions P t v blk txs now = (.ok fees, v') ↔
      txs.length = blk.txHashes.length ∧
        checkTransactionsFrom P t blk.header.majorVersion t.height now 0
          (blk.txHashes.zip (txs.map (·.1))) [] [] 0 v = (.ok fees, v') := by
  unfold checkTransactions
  by_cases hlen : txs.length = blk.txHashes.length
  · rw [if_neg (not_not.mpr hlen)]
    cases checkTransactionsFrom P t blk.header.majorVersion t.height now 0
        (blk.txHashes.zip (txs.map (·.1))) [] [] 0 v with
    | mk result v₁ => cases result <;> simp [hlen]
  · simp [hlen]

/-- Each of the transactions is checked under a hash. -/
theorem exists_mem_zip {hashes : List Hash256} {txs : List (Transaction × Blob)}
    (hlen : txs.length = hashes.length) {p : Transaction × Blob} (hp : p ∈ txs) :
    ∃ q ∈ hashes.zip (txs.map (·.1)), q.2 = p.1 := by
  have hsnd : (hashes.zip (txs.map (·.1))).map (·.2) = txs.map (·.1) :=
    List.map_snd_zip (by simp [hlen])
  refine List.mem_map.mp ?_
  rw [hsnd]
  exact List.mem_map_of_mem hp

/-- The transactions of a block that passed step 9. -/
theorem checkTransactions_ok {t : MainTables} {v v' : σ} {blk : Block}
    {txs : List (Transaction × Blob)} {now fees : Nat}
    (h : checkTransactions P t v blk txs now = (.ok fees, v')) :
    txs.length = blk.txHashes.length ∧ NewTxs t blk.txHashes txs ∧
      ∀ p ∈ blk.txHashes.zip (txs.map (·.1)),
        TxPassed P t blk.header.majorVersion t.height now p.1 p.2 := by
  obtain ⟨hlen, hloop⟩ := checkTransactions_loop.mp h
  obtain ⟨h₁, h₂, h₃, h₄, h₅⟩ := checkTransactionsFrom_ok hloop
  have hfst : (blk.txHashes.zip (txs.map (·.1))).map (·.1) = blk.txHashes :=
    List.map_fst_zip (by simp [hlen])
  have hsnd : (blk.txHashes.zip (txs.map (·.1))).map (·.2) = txs.map (·.1) :=
    List.map_snd_zip (by simp [hlen])
  refine ⟨hlen, ⟨?_, ?_, ?_, ?_⟩, h₅⟩
  · intro hash hmem
    rw [← hfst] at hmem
    obtain ⟨p, hp, rfl⟩ := List.mem_map.mp hmem
    exact (h₁ p hp).2
  · rw [← hfst]
    exact h₂
  · intro p hp image himage
    obtain ⟨q, hq, hqe⟩ := exists_mem_zip hlen hp
    exact (h₃ q hq image (hqe ▸ himage)).2
  · have hpair : (txs.map (·.1)).Pairwise fun p q => ∀ image ∈ q.keyImages, image ∉ p.keyImages := by
      rw [← hsnd, List.pairwise_map]
      exact h₄
    exact List.pairwise_map.mp hpair

/-! ### The coinbase -/

/-- The height a coinbase claims. -/
def genHeight (tx : Transaction) : Option Nat :=
  match tx.txPrefix.vin with
  | [.gen height] => some height
  | _ => none

theorem checkCoinbase_genHeight {tx : Transaction} {hfVersion height unlock : Nat}
    (h : checkCoinbase tx hfVersion height unlock = .ok ()) : genHeight tx = some height := by
  unfold checkCoinbase at h
  split at h
  · rename_i claimed hvin
    split_ifs at h with _ _ hclaimed
    rw [genHeight, hvin, not_not.mp hclaimed]
  · cases h

theorem stepCoinbase_genHeight {t : MainTables} {height : Nat} {blk : Block}
    (h : stepCoinbase P t height blk = .ok ()) : genHeight blk.minerTx = some height := by
  unfold stepCoinbase at h
  split at h
  · cases h
  · split at h
    · cases h
    · rename_i hpre
      simp only [prevalidateMinerTx, bind_eq_ok] at hpre
      obtain ⟨_, _, hcoinbase⟩ := hpre
      exact checkCoinbase_genHeight hcoinbase

theorem keyImages_of_genHeight {tx : Transaction} {height : Nat}
    (h : genHeight tx = some height) : tx.keyImages = [] := by
  unfold genHeight at h
  split at h
  · rename_i claimed hvin
    simp [Transaction.keyImages, hvin]
  · cases h

/-- Steps 1 to 8, one by one. -/
theorem prechecks_ok {c : Chain σ} {blk : Block} {now : Nat} :
    prechecks P c blk now = .ok () ↔
      stepHaveIt P c.db.main blk = .ok () ∧ stepParentIsTip c.db.main blk = .ok () ∧
        stepHardFork P c.height blk = .ok () ∧ stepTimestamp P c.db.main blk now = .ok () ∧
        stepProofOfWork P c.db.main blk (nextBlockDifficulty P c.state c.height) = .ok () ∧
        stepCheckpoint P c.height blk = .ok () ∧
        stepCoinbase P c.db.main c.height blk = .ok () := by
  simp only [prechecks, bind_eq_ok]
  constructor
  · rintro ⟨⟨⟩, h₁, ⟨⟩, h₂, ⟨⟩, h₃, ⟨⟩, h₄, ⟨⟩, h₅, ⟨⟩, h₆, h₇⟩
    exact ⟨h₁, h₂, h₃, h₄, h₅, h₆, h₇⟩
  · rintro ⟨h₁, h₂, h₃, h₄, h₅, h₆, h₇⟩
    exact ⟨(), h₁, (), h₂, (), h₃, (), h₄, (), h₅, (), h₆, h₇⟩

theorem stepHaveIt_ok {t : MainTables} {blk : Block} (h : stepHaveIt P t blk = .ok ()) :
    ∃ id, blk.blockId P.crypto.cnFastHash = some id ∧ t.blockHeights.get id = none := by
  unfold stepHaveIt at h
  split at h
  · cases h
  · rename_i id hid
    split_ifs at h with hexists
    exact ⟨id, hid, by simpa [MainTables.blockExists] using hexists⟩

/-! ### The same block again -/

/-- A verifier that stands by its word: from any of its quiet memories, what it accepted it
    accepts on the same chain at every later time. -/
structure Steady (P : Params σ) (quiet : σ → Prop) : Prop where
  verify : ∀ V, P.txVerifier = some V → ∀ s t hash tx version height now, quiet s →
    quiet (V.verify s t hash tx version height now).2
  observe : ∀ V, P.txVerifier = some V → ∀ s t, quiet s → quiet (V.observe s t)
  later : ∀ V, P.txVerifier = some V → ∀ s s' t hash tx version height now now', quiet s →
    quiet s' → now ≤ now' → (V.verify s t hash tx version height now).1 = .ok () →
    (V.verify s' t hash tx version height now').1 = .ok ()

/-- A chain without a verifier has nothing to be unsteady. -/
theorem steady_of_none (h : P.txVerifier = none) : Steady P (fun _ => True) := by
  refine ⟨?_, ?_, ?_⟩
  all_goals
    intro V hV
    rw [h] at hV
    cases hV

variable {quiet : σ → Prop}

theorem observed_quiet (hsteady : Steady P quiet) {c : Chain σ} (hv : quiet c.verifier) :
    quiet (c.observed P).verifier := by
  unfold Chain.observed
  split
  · exact hv
  · rename_i V hV
    exact hsteady.observe V hV _ _ hv

theorem checkTx_quiet (hsteady : Steady P quiet) {t : MainTables} {version height now i : Nat}
    {hash : Hash256} {tx : Transaction} {v : σ} (hv : quiet v) :
    quiet (checkTx P t version height now i hash tx v).2 := by
  unfold checkTx
  split_ifs
  · split <;> exact hv
  · split
    · exact hv
    · split
      · exact hv
      · rename_i V hV
        have hq := hsteady.verify V hV v t hash tx version height now hv
        split
        · rename_i v₁ hres
          rw [hres] at hq
          exact hq
        · rename_i e v₁ hres
          rw [hres] at hq
          exact hq

/-- At the second clock the verifier accepts of a transaction what it accepts at the first. -/
def Repeats (P : Params σ) (quiet : σ → Prop) (t : MainTables) (version height now now' : Nat)
    (tx : Transaction) : Prop :=
  ∀ V, P.txVerifier = some V → ∀ s s' hash, quiet s → quiet s' →
    (V.verify s t hash tx version height now).1 = .ok () →
    (V.verify s' t hash tx version height now').1 = .ok ()

theorem Steady.repeats (hsteady : Steady P quiet) {now now' : Nat} (hle : now ≤ now')
    (t : MainTables) (version height : Nat) (tx : Transaction) :
    Repeats P quiet t version height now now' tx :=
  fun V hV s s' hash hs hs' =>
    hsteady.later V hV s s' t hash tx version height now now' hs hs' hle

theorem checkTx_again {t : MainTables} {version height now now' i : Nat}
    {hash : Hash256} {tx : Transaction} {v v₁ v' : σ} {fee : Option Nat} (hv : quiet v)
    (hv' : quiet v') (hrepeats : Repeats P quiet t version height now now' tx)
    (h : checkTx P t version height now i hash tx v = (.ok fee, v₁)) :
    ∃ v₁', checkTx P t version height now' i hash tx v' = (.ok fee, v₁') := by
  unfold checkTx at h ⊢
  split_ifs at h ⊢
  · split at h
    · rename_i f hf
      cases h
      exact ⟨v', rfl⟩
    · cases h
  · split at h
    · cases h
    · rename_i f hf
      split at h
      · cases h
        exact ⟨v', rfl⟩
      · rename_i V hV
        split at h
        · rename_i v₂ hres
          cases h
          have hok : (V.verify v t hash tx version height now).1 = .ok () := by rw [hres]
          have hlater := hrepeats V hV v v' hash hv hv' hok
          refine ⟨(V.verify v' t hash tx version height now').2, ?_⟩
          cases hout : V.verify v' t hash tx version height now' with
          | mk result v₃ =>
              rw [hout] at hlater
              simp only at hlater
              rw [hlater]
        · cases h

theorem checkTransactionsFrom_quiet (hsteady : Steady P quiet) {t : MainTables}
    {version height now : Nat} {list : List (Hash256 × Transaction)} {i : Nat}
    {seen : List Hash256} {images : List KeyImage} {fees : Nat} {v : σ} (hv : quiet v) :
    quiet (checkTransactionsFrom P t version height now i list seen images fees v).2 := by
  induction list generalizing i seen images fees v with
  | nil => exact hv
  | cons p list ih =>
      obtain ⟨hash, tx⟩ := p
      rw [checkTransactionsFrom]
      split_ifs
      · exact hv
      · exact hv
      · have hq : quiet (checkTx P t version height now i hash tx v).2 := checkTx_quiet hsteady hv
        split
        · rename_i e v₁ hres
          rw [hres] at hq
          exact hq
        · rename_i fee v₁ hres
          rw [hres] at hq
          split
          · exact hq
          · exact ih hq

theorem checkTransactionsFrom_again (hsteady : Steady P quiet) {t : MainTables}
    {version height now now' : Nat} {list : List (Hash256 × Transaction)} {i : Nat}
    {seen : List Hash256} {images : List KeyImage} {fees total : Nat} {v v₁ v' : σ}
    (hv : quiet v) (hv' : quiet v')
    (hrepeats : ∀ p ∈ list, Repeats P quiet t version height now now' p.2)
    (h : checkTransactionsFrom P t version height now i list seen images fees v =
      (.ok total, v₁)) :
    ∃ v₁', checkTransactionsFrom P t version height now' i list seen images fees v' =
      (.ok total, v₁') := by
  induction list generalizing i seen images fees v v' with
  | nil =>
      simp only [checkTransactionsFrom, Prod.mk.injEq] at h ⊢
      exact ⟨v', h.1, rfl⟩
  | cons p list ih =>
      obtain ⟨hash, tx⟩ := p
      obtain ⟨hunseen, hfresh, fee, v₂, images', htx, himg, hrest⟩ :=
        checkTransactionsFrom_cons.mp h
      obtain ⟨hfirst, hothers⟩ := List.forall_mem_cons.mp hrepeats
      obtain ⟨v₂', htx'⟩ := checkTx_again hv hv' hfirst htx
      have hq : quiet v₂ := by
        have hafter : quiet (checkTx P t version height now i hash tx v).2 :=
          checkTx_quiet hsteady hv
        rwa [htx] at hafter
      have hq' : quiet v₂' := by
        have hafter : quiet (checkTx P t version height now' i hash tx v').2 :=
          checkTx_quiet hsteady hv'
        rwa [htx'] at hafter
      obtain ⟨v₁', hrest'⟩ := ih hq hq' hothers hrest
      exact ⟨v₁', checkTransactionsFrom_cons.mpr
        ⟨hunseen, hfresh, fee, v₂', images', htx', himg, hrest'⟩⟩

theorem checkTransactions_quiet (hsteady : Steady P quiet) {t : MainTables} {v : σ} {blk : Block}
    {txs : List (Transaction × Blob)} {now : Nat} (hv : quiet v) :
    quiet (checkTransactions P t v blk txs now).2 := by
  unfold checkTransactions
  split_ifs
  · exact hv
  · have hq : quiet (checkTransactionsFrom P t blk.header.majorVersion t.height now 0
        (blk.txHashes.zip (txs.map (·.1))) [] [] 0 v).2 := checkTransactionsFrom_quiet hsteady hv
    split
    · rename_i hres
      rw [hres] at hq
      exact hq
    · rename_i hres
      rw [hres] at hq
      exact hq

theorem checkTransactions_again (hsteady : Steady P quiet) {t : MainTables} {v v₁ v' : σ}
    {blk : Block} {txs : List (Transaction × Blob)} {now now' fees : Nat} (hv : quiet v)
    (hv' : quiet v')
    (hrepeats : ∀ p ∈ txs, Repeats P quiet t blk.header.majorVersion t.height now now' p.1)
    (h : checkTransactions P t v blk txs now = (.ok fees, v₁)) :
    ∃ v₁', checkTransactions P t v' blk txs now' = (.ok fees, v₁') := by
  obtain ⟨hlen, hloop⟩ := checkTransactions_loop.mp h
  have hlist : ∀ p ∈ blk.txHashes.zip (txs.map (·.1)),
      Repeats P quiet t blk.header.majorVersion t.height now now' p.2 := by
    intro p hp
    obtain ⟨q, hq, hqe⟩ := List.mem_map.mp (List.of_mem_zip hp).2
    exact hqe ▸ hrepeats q hq
  obtain ⟨v₁', hloop'⟩ := checkTransactionsFrom_again hsteady hv hv' hlist hloop
  exact ⟨v₁', checkTransactions_loop.mpr ⟨hlen, hloop'⟩⟩

/-- A later clock allows every timestamp an earlier one did. -/
theorem stepTimestamp_later {t : MainTables} {blk : Block} {now now' : Nat} (hle : now ≤ now')
    (h : stepTimestamp P t blk now = .ok ()) : stepTimestamp P t blk now' = .ok () := by
  unfold stepTimestamp at h ⊢
  simp only at h ⊢
  split at h
  · cases h
  · rename_i recent hrecent
    have hmono : saturatingAdd now (futureTimeLimit (currentVersion P t)) ≤
        saturatingAdd now' (futureTimeLimit (currentVersion P t)) := by
      unfold saturatingAdd
      omega
    unfold checkBlockTimestamp at h ⊢
    simp only at h ⊢
    by_cases hfar : blk.header.timestamp > saturatingAdd now (futureTimeLimit (currentVersion P t))
    · rw [if_pos hfar] at h
      cases h
    · rw [if_neg hfar] at h
      rw [if_neg (by omega)]
      exact h

theorem prechecks_later {c c' : Chain σ} {blk : Block} {now now' : Nat}
    (hmain : c'.db.main = c.db.main) (hstate : c'.state = c.state) (hle : now ≤ now')
    (h : prechecks P c blk now = .ok ()) : prechecks P c' blk now' = .ok () := by
  rw [prechecks_ok] at h ⊢
  obtain ⟨h₁, h₂, h₃, h₄, h₅, h₆, h₇⟩ := h
  rw [Chain.height, hmain, hstate]
  exact ⟨h₁, h₂, h₃, stepTimestamp_later hle h₄, h₅, h₆, h₇⟩

/-- A block that passes its checks again leaves the same store and the same caches. -/
theorem accepted_again {c c₁ c' : Chain σ} {blk : Block} {blob : Blob}
    {txs : List (Transaction × Blob)} {now now' fees reward : Nat} {v v' : σ}
    (h : Accepted P c blk blob txs now fees reward v c₁) (hmain : c'.db.main = c.db.main)
    (hstate : c'.state = c.state) (hpre : prechecks P c' blk now' = .ok ())
    (htx : checkTransactions P c.db.main c'.verifier blk txs now' = (.ok fees, v')) :
    ∃ added c₁', Chain.addBlock P c' blk blob txs now' = (.ok added, c₁') ∧
      c₁'.db = ⟨c₁.db.main, c'.db.altBlocks⟩ ∧ c₁'.state = c₁.state := by
  have hadd := h.main
  rw [Chain.height, ← hmain, ← hstate] at hadd
  have hreward := h.minerReward
  rw [← hstate] at hreward
  have hcommit : Chain.commitBlock P { c' with verifier := v' } blk blob txs fees = .ok
      { c' with db := { c'.db with main := c₁.db.main }, state := c₁.state, verifier := v' } := by
    simp only [Chain.commitBlock, bind_eq_ok]
    refine ⟨reward, hreward, ?_⟩
    rw [Chain.height]
    simp only [hadd]
    rw [h.state, ← hstate, Chain.height, ← hmain]
  refine ⟨.mainChain c'.height, Chain.observed P
    { c' with db := { c'.db with main := c₁.db.main }, state := c₁.state, verifier := v' },
    ?_, ?_, ?_⟩
  · rw [Chain.addBlock, hpre]
    simp only [hmain, htx, hcommit]
  · simp
  · simp

/-- **The same block again.**  On the same chain, at a later time, an accepted block is accepted
    and leaves the same store and the same caches. -/
theorem addBlock_again (hsteady : Steady P quiet) {c c₁ c' : Chain σ} {blk : Block} {blob : Blob}
    {txs : List (Transaction × Blob)} {now now' fees reward : Nat} {v : σ}
    (h : Accepted P c blk blob txs now fees reward v c₁) (hmain : c'.db.main = c.db.main)
    (hstate : c'.state = c.state) (hv : quiet c.verifier) (hv' : quiet c'.verifier)
    (hle : now ≤ now') :
    ∃ added c₁', Chain.addBlock P c' blk blob txs now' = (.ok added, c₁') ∧
      c₁'.db.main = c₁.db.main ∧ c₁'.state = c₁.state := by
  have hpre := prechecks_later hmain hstate hle h.prechecks
  obtain ⟨v', htx⟩ := checkTransactions_again hsteady hv hv'
    (fun p _ => hsteady.repeats hle _ _ _ p.1) h.transactions
  obtain ⟨added, c₁', hadd, hdb, hstate'⟩ := accepted_again h hmain hstate hpre htx
  exact ⟨added, c₁', hadd, by rw [hdb], hstate'⟩

/-- Blocks do not disturb a steady verifier. -/
theorem addBlock_quiet (hsteady : Steady P quiet) {c : Chain σ} (hv : quiet c.verifier)
    (blk : Block) (blob : Blob) (txs : List (Transaction × Blob)) (now : Nat) :
    quiet (Chain.addBlock P c blk blob txs now).2.verifier := by
  have hq : quiet (checkTransactions P c.db.main c.verifier blk txs now).2 :=
    checkTransactions_quiet hsteady hv
  cases hout : Chain.addBlock P c blk blob txs now with
  | mk result c' =>
      unfold Chain.addBlock at hout
      split at hout
      · cases hout
        exact hv
      · split at hout
        · rename_i e v₁ hres
          rw [hres] at hq
          cases hout
          exact hq
        · rename_i fees v₁ hres
          rw [hres] at hq
          split at hout
          · cases hout
            exact hq
          · rename_i c₁ hcommit
            cases hout
            have hv₁ : c₁.verifier = v₁ := by
              simp only [Chain.commitBlock, bind_eq_ok] at hcommit
              obtain ⟨reward, _, hcommit⟩ := hcommit
              split at hcommit
              · cases hcommit
              · cases hcommit
                rfl
            exact observed_quiet hsteady (hv₁ ▸ hq)

end

end Wownero
