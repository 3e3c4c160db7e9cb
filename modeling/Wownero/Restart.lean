import Wownero.Spends
/-!
# Restarts

The store keeps alternative blocks and not their transactions, which a chain has in memory only.
A chain that was opened over the store of another therefore knows the same blocks and fewer
transactions.  The two do the same with every block, until the one that was opened later would
have to switch to a block whose transactions it does not have: it refuses to, and stays where it
is.
-/

namespace Wownero

open Outcome

section

variable {σ : Type} {P : Params σ} {forgotten : Block → Prop}

/-! ### Memories that answer alike -/

/-- A relation of memories that the verifier's answers do not tell apart, now or later. -/
structure Indistinct (P : Params σ) (R : σ → σ → Prop) : Prop where
  verify : ∀ verifier, P.txVerifier = some verifier → ∀ v v', R v v' →
    ∀ t hash tx hfVersion chainHeight now,
      (verifier.verify v t hash tx hfVersion chainHeight now).1 =
          (verifier.verify v' t hash tx hfVersion chainHeight now).1 ∧
        R (verifier.verify v t hash tx hfVersion chainHeight now).2
          (verifier.verify v' t hash tx hfVersion chainHeight now).2
  observe : ∀ verifier, P.txVerifier = some verifier → ∀ v v' t, R v v' →
    R (verifier.observe v t) (verifier.observe v' t)

/-- Two memories with the same answers, now and later. -/
def Alike (P : Params σ) (v v' : σ) : Prop := ∃ R, Indistinct P R ∧ R v v'

theorem Alike.refl (v : σ) : Alike P v v := by
  refine ⟨Eq, ⟨?_, ?_⟩, rfl⟩
  · rintro verifier _ v _ rfl t hash tx hfVersion chainHeight now
    exact ⟨rfl, rfl⟩
  · rintro verifier _ v _ t rfl
    rfl

theorem alike_indistinct : Indistinct P (Alike P) := by
  constructor
  · rintro verifier hv v v' ⟨R, hR, hvv⟩ t hash tx hfVersion chainHeight now
    obtain ⟨hanswer, hnext⟩ := hR.verify verifier hv v v' hvv t hash tx hfVersion chainHeight now
    exact ⟨hanswer, R, hR, hnext⟩
  · rintro verifier hv v v' t ⟨R, hR, hvv⟩
    exact ⟨R, hR, hR.observe verifier hv v v' t hvv⟩

/-- Two computations with the same answer that end in related states. -/
def Matched {α β : Type} (R : β → β → Prop) (a b : α × β) : Prop := a.1 = b.1 ∧ R a.2 b.2

theorem Matched.outs {α β : Type} {R : β → β → Prop} {a b : α × β} (h : Matched R a b) :
    ∃ answer s s', a = (answer, s) ∧ b = (answer, s') ∧ R s s' :=
  ⟨a.1, a.2, b.2, rfl, Prod.ext h.1.symm rfl, h.2⟩

theorem checkTx_matched {v v' : σ} (h : Alike P v v') (t : MainTables)
    (version height now i : Nat) (hash : Hash256) (tx : Transaction) :
    Matched (Alike P) (checkTx P t version height now i hash tx v)
      (checkTx P t version height now i hash tx v') := by
  unfold checkTx
  split_ifs
  · cases tx.fee with
    | none => exact ⟨rfl, h⟩
    | some fee => exact ⟨rfl, h⟩
  · cases checkTxRules t version tx with
    | error e => exact ⟨rfl, h⟩
    | ok fee =>
        cases hverifier : P.txVerifier with
        | none => exact ⟨rfl, h⟩
        | some verifier =>
            have hmatched : Matched (Alike P) _ _ :=
              alike_indistinct.verify verifier hverifier v v' h t hash tx version height now
            obtain ⟨answer, v₁, v₁', hout, hout', hnext⟩ := hmatched.outs
            simp only [hout, hout']
            cases answer with
            | ok u => exact ⟨rfl, hnext⟩
            | error e => exact ⟨rfl, hnext⟩

theorem checkTransactionsFrom_matched (t : MainTables) (version height now : Nat)
    (txs : List (Hash256 × Transaction)) (i : Nat) (seen : List Hash256)
    (blockImages : List KeyImage) (fees : Nat) {v v' : σ} (h : Alike P v v') :
    Matched (Alike P) (checkTransactionsFrom P t version height now i txs seen blockImages fees v)
      (checkTransactionsFrom P t version height now i txs seen blockImages fees v') := by
  induction txs generalizing i seen blockImages fees v v' with
  | nil => exact ⟨rfl, h⟩
  | cons p txs ih =>
      obtain ⟨hash, tx⟩ := p
      unfold checkTransactionsFrom
      split_ifs
      · exact ⟨rfl, h⟩
      · exact ⟨rfl, h⟩
      · obtain ⟨answer, v₁, v₁', hout, hout', hnext⟩ :=
          (checkTx_matched h t version height now i hash tx).outs
        simp only [hout, hout']
        cases answer with
        | error e => exact ⟨rfl, hnext⟩
        | ok fee =>
            cases checkImages t blockImages tx.keyImages with
            | error e => exact ⟨rfl, hnext⟩
            | ok images => exact ih _ _ _ _ hnext

theorem checkTransactions_matched (t : MainTables) (blk : Block)
    (txs : List (Transaction × Blob)) (now : Nat) {v v' : σ} (h : Alike P v v') :
    Matched (Alike P) (checkTransactions P t v blk txs now)
      (checkTransactions P t v' blk txs now) := by
  unfold checkTransactions
  split_ifs
  · exact ⟨rfl, h⟩
  · obtain ⟨answer, v₁, v₁', hout, hout', hnext⟩ := (checkTransactionsFrom_matched t
      blk.header.majorVersion t.height now (blk.txHashes.zip (txs.map (·.1))) 0 [] [] 0 h).outs
    rw [hout, hout']
    cases answer with
    | ok fees => exact ⟨rfl, hnext⟩
    | error e => exact ⟨rfl, hnext⟩

/-! ### Twins -/

/-- A chain, and one over the same store that may lack the transactions of some alternative
    blocks.  Of those that list none, none were there to be lacking. -/
structure Twin (P : Params σ) (forgotten : Block → Prop) (c c' : Chain σ) : Prop where
  db : c'.db = c.db
  state : c'.state = c.state
  verifier : Alike P c.verifier c'.verifier
  bodies : ∀ id, c'.altTxs.get id = c.altTxs.get id ∨ c'.altTxs.get id = none ∧
    ∀ data blob blk, c.db.altBlocks.get id = some (data, blob) → Block.fromBlob blob = .ok blk →
      forgotten blk ∧ (blk.txHashes = [] → ∀ txs, c.altTxs.get id = some txs → txs = [])

theorem Twin.observed {c c' : Chain σ} (h : Twin P forgotten c c') :
    Twin P forgotten (c.observed P) (c'.observed P) := by
  refine ⟨by simp [h.db], by simp [h.state], ?_, by simpa using h.bodies⟩
  unfold Chain.observed
  cases hverifier : P.txVerifier with
  | none => exact h.verifier
  | some verifier =>
      dsimp only
      rw [h.db]
      exact alike_indistinct.observe verifier hverifier _ _ _ h.verifier

theorem Twin.with_verifier {c c' : Chain σ} (h : Twin P forgotten c c') {v v' : σ} (hv : Alike P v v') :
    Twin P forgotten { c with verifier := v } { c' with verifier := v' } :=
  ⟨h.db, h.state, hv, h.bodies⟩

/-- The main chain and the caches of both move together. -/
theorem Twin.with_main {c c' : Chain σ} (h : Twin P forgotten c c') (main : MainTables)
    (state : ChainState) :
    Twin P forgotten { c with db := { c.db with main := main }, state := state }
      { c' with db := { c'.db with main := main }, state := state } :=
  ⟨by simp [h.db], rfl, h.verifier, h.bodies⟩

theorem Twin.commitBlock {c c' : Chain σ} (h : Twin P forgotten c c') (blk : Block) (blob : Blob)
    (txs : List (Transaction × Blob)) (fees : Nat) :
    (∃ e, Chain.commitBlock P c blk blob txs fees = .error e ∧
        Chain.commitBlock P c' blk blob txs fees = .error e) ∨
      ∃ c₁ c₁', Chain.commitBlock P c blk blob txs fees = .ok c₁ ∧
        Chain.commitBlock P c' blk blob txs fees = .ok c₁' ∧ Twin P forgotten c₁ c₁' := by
  obtain ⟨db, state, altTxs, orphanedTxs, v⟩ := c
  obtain ⟨db', state', altTxs', orphanedTxs', v'⟩ := c'
  obtain rfl : db' = db := h.db
  obtain rfl : state' = state := h.state
  dsimp only [Chain.commitBlock, Chain.height]
  cases stepReward state' blk (cumulativeBlockWeight blk txs) fees with
  | error e => exact Or.inl ⟨e, rfl, rfl⟩
  | ok reward =>
      dsimp only [bind, Except.bind]
      split
      · exact Or.inl ⟨_, rfl, rfl⟩
      · exact Or.inr ⟨_, _, rfl, rfl, h.with_main _ _⟩

/-- **A block** put on the tip of both. -/
theorem Twin.addBlock {c c' : Chain σ} (h : Twin P forgotten c c') (blk : Block) (blob : Blob)
    (txs : List (Transaction × Blob)) (now : Nat) :
    Matched (Twin P forgotten) (Chain.addBlock P c blk blob txs now)
      (Chain.addBlock P c' blk blob txs now) := by
  obtain ⟨db, state, altTxs, orphanedTxs, v⟩ := c
  obtain ⟨db', state', altTxs', orphanedTxs', v'⟩ := c'
  obtain rfl : db' = db := h.db
  obtain rfl : state' = state := h.state
  have hpre : prechecks P ⟨db', state', altTxs', orphanedTxs', v'⟩ blk now =
      prechecks P ⟨db', state', altTxs, orphanedTxs, v⟩ blk now := rfl
  unfold Chain.addBlock
  rw [hpre]
  cases prechecks P ⟨db', state', altTxs, orphanedTxs, v⟩ blk now with
  | error e => exact ⟨rfl, h⟩
  | ok u =>
      obtain ⟨answer, v₁, v₁', hout, hout', hnext⟩ :=
        (checkTransactions_matched db'.main blk txs now h.verifier).outs
      dsimp only at hout hout' ⊢
      rw [hout, hout']
      have hmoved := h.with_verifier hnext
      cases answer with
      | error e => exact ⟨rfl, hmoved⟩
      | ok fees =>
          rcases hmoved.commitBlock blk blob txs fees with
            ⟨e, hout, hout'⟩ | ⟨c₁, c₁', hout, hout', htwin⟩
          · dsimp only at hout hout' ⊢
            rw [hout, hout']
            exact ⟨rfl, hmoved⟩
          · dsimp only at hout hout' ⊢
            rw [hout, hout']
            exact ⟨rfl, htwin.observed⟩

/-! ### Pops -/

theorem Twin.popBlock {c c' : Chain σ} (h : Twin P forgotten c c') :
    (∃ e, Chain.popBlock P c = .error e ∧ Chain.popBlock P c' = .error e) ∨
      ∃ popped c₁ c₁', Chain.popBlock P c = .ok (popped, c₁) ∧
        Chain.popBlock P c' = .ok (popped, c₁') ∧ Twin P forgotten c₁ c₁' := by
  unfold Chain.popBlock
  rw [h.db]
  cases c.db.main.popBlock P.crypto with
  | error e => exact Or.inl ⟨_, rfl, rfl⟩
  | ok out =>
      refine Or.inr ⟨out.1, _, _, rfl, rfl, ?_⟩
      have hmoved := h.with_main out.2 c.state
      rw [h.db] at hmoved
      refine Twin.observed ⟨rfl, h.state, hmoved.verifier, hmoved.bodies⟩

theorem Twin.popTo {c c' : Chain σ} (h : Twin P forgotten c c') (split fuel : Nat) (popped : List Popped) :
    Matched (Twin P forgotten) (Chain.popTo P split fuel c popped) (Chain.popTo P split fuel c' popped) := by
  induction fuel generalizing c c' popped with
  | zero => exact ⟨rfl, h⟩
  | succ fuel ih =>
      unfold Chain.popTo Chain.height
      rw [h.db]
      split_ifs
      · cases c.db.main.getBlockInfo (c.db.main.height - 1) with
        | error e => exact ⟨rfl, h⟩
        | ok info =>
            rcases h.popBlock with ⟨e, hout, hout'⟩ | ⟨⟨block, txs⟩, c₁, c₁', hout, hout', htwin⟩
            · simp only [hout, hout']
              exact ⟨rfl, h⟩
            · simp only [hout, hout']
              exact ih htwin _
      · exact ⟨rfl, h⟩

theorem Twin.dropBlocks {c c' : Chain σ} (h : Twin P forgotten c c') (n : Nat) :
    Matched (Twin P forgotten) (Chain.dropBlocks P n c) (Chain.dropBlocks P n c') := by
  induction n generalizing c c' with
  | zero => exact ⟨rfl, h⟩
  | succ n ih =>
      unfold Chain.dropBlocks
      rcases h.popBlock with ⟨e, hout, hout'⟩ | ⟨popped, c₁, c₁', hout, hout', htwin⟩
      · simp only [hout, hout']
        exact ⟨rfl, h⟩
      · simp only [hout, hout']
        exact ih htwin

theorem Twin.reloadState {c c' : Chain σ} (h : Twin P forgotten c c') :
    Matched (Twin P forgotten) (Chain.reloadState P c) (Chain.reloadState P c') := by
  have hload : loadState P c'.db.main = loadState P c.db.main := by rw [h.db]
  unfold Chain.reloadState
  rw [hload]
  cases loadState P c.db.main with
  | error e => exact ⟨rfl, h⟩
  | ok state => exact ⟨rfl, h.db, rfl, h.verifier, h.bodies⟩

/-! ### The switch -/

theorem Twin.applyAlt (now : Nat) (blocks : List (AltLink × List (Transaction × Blob)))
    (i : Nat) {c c' : Chain σ} (h : Twin P forgotten c c') :
    Matched (Twin P forgotten) (Chain.applyAlt P now i blocks c) (Chain.applyAlt P now i blocks c') := by
  induction blocks generalizing i c c' with
  | nil => exact ⟨rfl, h⟩
  | cons p blocks ih =>
      obtain ⟨link, txs⟩ := p
      obtain ⟨answer, c₁, c₁', hout, hout', htwin⟩ :=
        (h.addBlock link.block link.blob txs now).outs
      unfold Chain.applyAlt
      simp only [hout, hout']
      cases answer with
      | ok added => exact ih (i + 1) htwin
      | error r => exact ⟨rfl, htwin⟩

theorem Twin.putBack (now : Nat) (popped : List Popped) {c c' : Chain σ} (h : Twin P forgotten c c') :
    Matched (Twin P forgotten) (Chain.putBack P now popped c) (Chain.putBack P now popped c') := by
  induction popped generalizing c c' with
  | nil => exact ⟨rfl, h⟩
  | cons p popped ih =>
      obtain ⟨answer, c₁, c₁', hout, hout', htwin⟩ :=
        (h.addBlock p.block p.block.toBlob p.txs now).outs
      unfold Chain.putBack
      simp only [hout, hout']
      cases answer with
      | ok added => exact ih htwin
      | error r => exact ⟨rfl, htwin⟩

/-- An alternative block stored with its transactions in both. -/
theorem Twin.store {c c' : Chain σ} (h : Twin P forgotten c c') (id : Hash256) (data : AltBlockData)
    (blob : Blob) (txs : List (Transaction × Blob)) :
    Twin P forgotten { c with db := c.db.addAltBlock id data blob, altTxs := c.altTxs.put id txs }
      { c' with db := c'.db.addAltBlock id data blob, altTxs := c'.altTxs.put id txs } := by
  refine ⟨by simp [h.db], h.state, h.verifier, ?_⟩
  intro id'
  simp only [Store.addAltBlock, Table.get_put]
  split_ifs
  · exact Or.inl rfl
  · exact h.bodies id'

theorem Twin.keepPopped {c c' : Chain σ} (h : Twin P forgotten c c') (popped : List Popped) :
    Twin P forgotten (c.keepPopped popped) (c'.keepPopped popped) := by
  unfold Chain.keepPopped
  induction popped generalizing c c' with
  | nil => exact h
  | cons p popped ih => exact ih (h.store _ _ _ _)

theorem Twin.removeAlts {c c' : Chain σ} (h : Twin P forgotten c c') (links : List AltLink) :
    Twin P forgotten (c.removeAlts links) (c'.removeAlts links) := by
  unfold Chain.removeAlts
  induction links generalizing c c' with
  | nil => exact h
  | cons l links ih =>
      refine ih ⟨by simp [h.db], h.state, h.verifier, ?_⟩
      intro id
      simp only [Store.removeAltBlock, Table.get_del]
      split_ifs
      · exact Or.inl rfl
      · exact h.bodies id

theorem Twin.finishSwitch {c c' : Chain σ} (h : Twin P forgotten c c') (chain : List AltLink)
    (popped : List Popped) :
    Twin P forgotten (Chain.finishSwitch P chain popped c) (Chain.finishSwitch P chain popped c') := by
  have hkept := (h.keepPopped popped).removeAlts chain
  exact ⟨hkept.db, hkept.state, hkept.verifier, hkept.bodies⟩

theorem Twin.restore {c c' : Chain σ} (h : Twin P forgotten c c') (now applied : Nat)
    (chain : List AltLink) (popped : List Popped) (rejected : Rejection) :
    Matched (Twin P forgotten) (Chain.restore P now applied chain popped rejected c)
      (Chain.restore P now applied chain popped rejected c') := by
  unfold Chain.restore
  obtain ⟨answer, c₁, c₁', hout, hout', htwin⟩ :=
    (h.dropBlocks applied).outs
  simp only [hout, hout']
  cases answer with
  | error e => exact ⟨rfl, htwin⟩
  | ok u =>
      obtain ⟨answer, c₂, c₂', hout, hout', htwin₂⟩ :=
        (Twin.reloadState htwin).outs
      simp only [hout, hout']
      cases answer with
      | error e => exact ⟨rfl, htwin₂⟩
      | ok u =>
          obtain ⟨answer, c₃, c₃', hout, hout', htwin₃⟩ :=
            (Twin.putBack now popped htwin₂).outs
          simp only [hout, hout']
          cases answer with
          | error e => exact ⟨rfl, htwin₃⟩
          | ok u => exact ⟨rfl, htwin₃.removeAlts _⟩

/-- The bodies one has are those the other has, unless one is forgotten. -/
theorem Twin.gatherBodies {c c' : Chain σ} (h : Twin P forgotten c c') {links : List AltLink}
    (hlinks : ∀ l ∈ links, c'.altTxs.get l.id = c.altTxs.get l.id ∨
      c.db.altBlocks.get l.id = some (l.data, l.blob) ∧ Block.fromBlob l.blob = .ok l.block) :
    gatherBodies c'.altTxs links = gatherBodies c.altTxs links ∨
      ∃ hash, gatherBodies c'.altTxs links = .error ⟨.transactions, .missingTx hash⟩ ∧
        ∃ l ∈ links, forgotten l.block ∧ hash ∈ l.block.txHashes := by
  induction links with
  | nil => exact Or.inl rfl
  | cons l links ih =>
      obtain ⟨hl, hrest⟩ := List.forall_mem_cons.mp hlinks
      have hsame : c'.altTxs.get l.id = c.altTxs.get l.id ∨
          c'.altTxs.get l.id = none ∧ forgotten l.block ∧
            (l.block.txHashes = [] → ∀ txs, c.altTxs.get l.id = some txs → txs = []) := by
        rcases h.bodies l.id with heq | ⟨hnone, hlost⟩
        · exact Or.inl heq
        · rcases hl with heq | ⟨hget, hparse⟩
          · exact Or.inl heq
          · exact Or.inr ⟨hnone, hlost _ _ _ hget hparse⟩
      -- Once a body is found for the first link, the others decide.
      have hon : ∀ body : List (Transaction × Blob),
          ((do return body :: (← Wownero.gatherBodies c'.altTxs links)) =
            (do return body :: (← Wownero.gatherBodies c.altTxs links) :
              Except Rejection (List (List (Transaction × Blob))))) ∨
          ∃ hash, (do return body :: (← Wownero.gatherBodies c'.altTxs links)) =
              (.error ⟨.transactions, .missingTx hash⟩ :
                Except Rejection (List (List (Transaction × Blob)))) ∧
            ∃ l' ∈ l :: links, forgotten l'.block ∧ hash ∈ l'.block.txHashes := by
        intro body
        rcases ih hrest with heq | ⟨hash, hmissing, l', hl', hlost⟩
        · exact Or.inl (by rw [heq])
        · exact Or.inr ⟨hash, by rw [hmissing]; rfl, l', List.mem_cons_of_mem _ hl', hlost⟩
      unfold Wownero.gatherBodies
      rcases hsame with hget | ⟨hnone, hlost, hempty⟩
      · rw [hget]
        cases c.altTxs.get l.id with
        | some txs => exact hon txs
        | none =>
            cases l.block.txHashes with
            | nil => exact hon []
            | cons hash hashes => exact Or.inl rfl
      · rw [hnone]
        cases hhashes : l.block.txHashes with
        | nil =>
            cases hget : c.altTxs.get l.id with
            | none => exact hon []
            | some txs =>
                rw [hempty hhashes txs hget]
                exact hon []
        | cons hash hashes =>
            refine Or.inr ⟨hash, rfl, l, List.mem_cons_self, hlost, ?_⟩
            rw [hhashes]
            exact List.mem_cons_self

/-- The second of two chains refuses to switch for want of a forgotten block's transactions. -/
def Stuck (forgotten : Block → Prop) (c' : Chain σ) (out : Except Rejection Added × Chain σ) :
    Prop :=
  ∃ hash, out.1 = .error ⟨.transactions, .missingTx hash⟩ ∧ out.2.db.main = c'.db.main ∧
    out.2.state = c'.state ∧ ∃ blk, forgotten blk ∧ hash ∈ blk.txHashes

theorem Twin.switchToAlternative {c c' : Chain σ} (h : Twin P forgotten c c')
    {chain : List AltLink} (hlinks : ∀ l ∈ chain, c'.altTxs.get l.id = c.altTxs.get l.id ∨
      c.db.altBlocks.get l.id = some (l.data, l.blob) ∧ Block.fromBlob l.blob = .ok l.block)
    (split now : Nat) :
    Matched (Twin P forgotten) (Chain.switchToAlternative P c chain split now)
        (Chain.switchToAlternative P c' chain split now) ∨
      Stuck forgotten c' (Chain.switchToAlternative P c' chain split now) := by
  have hheight : c'.height = c.height := by rw [Chain.height, Chain.height, h.db]
  unfold Chain.switchToAlternative
  rw [hheight]
  rcases h.gatherBodies hlinks with heq | ⟨hash, hmissing, l, hl, hlost⟩
  · refine Or.inl ?_
    rw [heq]
    cases Wownero.gatherBodies c.altTxs chain with
    | error e => exact ⟨rfl, h⟩
    | ok bodies =>
        obtain ⟨answer, c₁, c₁', hout, hout', htwin⟩ := (h.popTo split c.height []).outs
        simp only [hout, hout']
        cases answer with
        | error e => exact ⟨rfl, htwin⟩
        | ok popped =>
            obtain ⟨answer, c₂, c₂', hout, hout', htwin₂⟩ := (Twin.reloadState htwin).outs
            simp only [hout, hout']
            cases answer with
            | error e => exact ⟨rfl, htwin₂⟩
            | ok u =>
                obtain ⟨answer, c₃, c₃', hout, hout', htwin₃⟩ :=
                  (Twin.applyAlt now (chain.zip bodies) 0 htwin₂).outs
                simp only [hout, hout']
                cases answer with
                | none => exact ⟨rfl, htwin₃.finishSwitch chain popped⟩
                | some refused => exact htwin₃.restore now refused.1 chain popped refused.2
  · refine Or.inr ?_
    rw [hmissing]
    exact ⟨hash, rfl, rfl, rfl, l.block, hlost⟩

/-! ### Blocks handed in -/

theorem Twin.storeAlternative {c c' : Chain σ} (h : Twin P forgotten c c') (blk : Block)
    (blob : Blob) (txs : List (Transaction × Blob)) (now : Nat) (id : Hash256)
    {links : List AltLink} {split : Nat}
    (hchain : altChainTo c.db blk.header.prevId = .ok (some (links, split)))
    (data : AltBlockData) :
    Matched (Twin P forgotten) (Chain.storeAlternative P c blk blob txs now id links split data)
        (Chain.storeAlternative P c' blk blob txs now id links split data) ∨
      Stuck forgotten c'
        (Chain.storeAlternative P c' blk blob txs now id links split data) := by
  have hstored := h.store id data blob txs
  have hwork : c'.state.cumulativeDifficulty = c.state.cumulativeDifficulty := by rw [h.state]
  unfold Chain.storeAlternative
  simp only [hwork]
  split_ifs
  · exact Or.inl ⟨rfl, hstored⟩
  · refine hstored.switchToAlternative ?_ split now
    intro l hl
    by_cases hid : l.id = id
    · exact Or.inl (by rw [hid, Table.get_put_self, Table.get_put_self])
    · rcases List.mem_append.mp hl with hl | hl
      · obtain ⟨hget, hparse⟩ := altWalk_links _ hchain nofun l hl
        refine Or.inr ⟨?_, hparse⟩
        rw [Store.addAltBlock, Table.get_put_of_ne _ hid]
        exact hget
      · rw [List.mem_singleton] at hl
        subst hl
        exact absurd rfl hid

/-- **A block handed in** to both: they do the same, or the second is stuck. -/
theorem Twin.handleBlock {c c' : Chain σ} (h : Twin P forgotten c c') (blk : Block) (blob : Blob)
    (txs : List (Transaction × Blob)) (now : Nat) :
    Matched (Twin P forgotten) (Chain.handleBlock P c blk blob txs now)
        (Chain.handleBlock P c' blk blob txs now) ∨
      Stuck forgotten c' (Chain.handleBlock P c' blk blob txs now) := by
  have hadd := h.addBlock blk blob txs now
  have halt : ∀ id, Matched (Twin P forgotten)
        (Chain.handleAlternativeBlock P c blk blob txs now id)
        (Chain.handleAlternativeBlock P c' blk blob txs now id) ∨
      Stuck forgotten c' (Chain.handleAlternativeBlock P c' blk blob txs now id) := by
    intro id
    unfold Chain.handleAlternativeBlock
    rw [h.db]
    cases hchain : altChainTo c.db blk.header.prevId with
    | error e => exact Or.inl ⟨rfl, h⟩
    | ok found =>
        cases found with
        | none => exact Or.inl ⟨rfl, h⟩
        | some walked =>
            obtain ⟨links, split⟩ := walked
            dsimp only
            cases altChecks P c.db.main blk txs links split with
            | error e => exact Or.inl ⟨rfl, h⟩
            | ok difficulty =>
                dsimp only
                cases altData c.db.main blk txs links split difficulty with
                | error e => exact Or.inl ⟨rfl, h⟩
                | ok data => exact h.storeAlternative blk blob txs now id hchain data
  unfold Chain.handleBlock
  rw [h.db]
  cases blk.blockId P.crypto.cnFastHash with
  | none => exact Or.inl ⟨rfl, h⟩
  | some id =>
      dsimp only
      split_ifs
      · exact Or.inl ⟨rfl, h⟩
      · cases topHash c.db.main with
        | none => exact Or.inl hadd
        | some tip =>
            dsimp only
            split_ifs
            · exact halt id
            · exact Or.inl hadd

/-- Blocks handed in one after another, each at its clock: the answers, and the chain they
    lead to. -/
def Chain.handleAll (P : Params σ) (c : Chain σ) :
    List (Handed × Nat) → List (Except Rejection Added) × Chain σ
  | [] => ([], c)
  | (b, now) :: rest =>
      let out := c.handleBlock P b.blk b.blob b.txs now
      let later := Chain.handleAll P out.2 rest
      (out.1 :: later.1, later.2)

/-- **Blocks handed in one after another** lead both chains to the same store and caches, or to a
    block the second is stuck at. -/
theorem Twin.handleAll {c c' : Chain σ} (h : Twin P forgotten c c') (blocks : List (Handed × Nat)) :
    Matched (Twin P forgotten) (c.handleAll P blocks) (c'.handleAll P blocks) ∨
      ∃ front b now rest, blocks = front ++ (b, now) :: rest ∧
        Matched (Twin P forgotten) (c.handleAll P front) (c'.handleAll P front) ∧
        Stuck forgotten (c'.handleAll P front).2
          ((c'.handleAll P front).2.handleBlock P b.blk b.blob b.txs now) := by
  induction blocks generalizing c c' with
  | nil => exact Or.inl ⟨rfl, h⟩
  | cons x blocks ih =>
      obtain ⟨b, now⟩ := x
      rcases h.handleBlock b.blk b.blob b.txs now with ⟨hanswer, htwin⟩ | hstuck
      · rcases ih htwin with ⟨hlater, htwin'⟩ | ⟨front, b', now', rest, rfl, ⟨hlater, htwin'⟩, hstuck⟩
        · refine Or.inl ⟨?_, htwin'⟩
          simp only [Chain.handleAll, hanswer, hlater]
        · refine Or.inr ⟨(b, now) :: front, b', now', rest, rfl, ⟨?_, htwin'⟩, hstuck⟩
          simp only [Chain.handleAll, hanswer, hlater]
      · exact Or.inr ⟨[], b, now, blocks, rfl, ⟨rfl, h⟩, hstuck⟩

/-! ### What waits with alternative blocks -/

/-- A block that comes with all of its transactions, and is what its bytes and its own
    serialisation parse to. -/
structure Handed.Whole (b : Handed) : Prop where
  parses : Block.fromBlob b.blob = .ok b.blk
  rewritten : Block.fromBlob b.blk.toBlob = .ok b.blk
  listed : b.txs.length = b.blk.txHashes.length

instance (b : Handed) : Decidable b.Whole :=
  decidable_of_iff (Block.fromBlob b.blob = .ok b.blk ∧ Block.fromBlob b.blk.toBlob = .ok b.blk ∧
      b.txs.length = b.blk.txHashes.length)
    ⟨fun ⟨h₁, h₂, h₃⟩ => ⟨h₁, h₂, h₃⟩, fun ⟨h₁, h₂, h₃⟩ => ⟨h₁, h₂, h₃⟩⟩

/-- The blocks of the main chain are what their own serialisations parse to. -/
def Rewritten (c : Chain σ) : Prop :=
  ∀ height blob blk, c.db.main.blocks.get height = some blob → Block.fromBlob blob = .ok blk →
    Block.fromBlob blk.toBlob = .ok blk

theorem removeTransactions_length {C : Crypto} {hashes : List Hash256} {t t' : MainTables}
    {txs : List Transaction} (h : removeTransactions C hashes t = .ok (txs, t')) :
    txs.length = hashes.length := by
  induction hashes generalizing txs t' with
  | nil =>
      cases h
      rfl
  | cons hash hashes ih =>
      simp only [removeTransactions, bind_eq_ok, pure_eq_ok] at h
      obtain ⟨⟨others, t₁⟩, hothers, ⟨tx, t₂⟩, _, heq⟩ := h
      cases heq
      simp [ih hothers]

theorem popBlock_listed {C : Crypto} {t t' : MainTables} {block : Block} {txs : List Transaction}
    (h : t.popBlock C = .ok ((block, txs), t')) : txs.length = block.txHashes.length := by
  unfold MainTables.popBlock at h
  split_ifs at h
  simp only [bind_eq_ok, pure_eq_ok] at h
  obtain ⟨_, _, blk, _, ⟨others, t₁⟩, hremoved, _, _, _, _, _, _, heq⟩ := h
  cases heq
  exact removeTransactions_length hremoved

theorem rewritten_stepwise : Stepwise P Handed.Whole Rewritten Rewritten where
  weaken c h := h
  frame c c' hmain _ h := by
    unfold Rewritten
    rw [hmain]
    exact h
  frameM c c' hmain h := by
    unfold Rewritten
    rw [hmain]
    exact h
  add c b now result c' h hb hout := by
    cases result with
    | error r =>
        obtain ⟨v, rfl⟩ := addBlock_error hout
        exact h
    | ok added =>
        obtain ⟨_, fees, reward, v, haccepted⟩ := addBlock_ok hout
        obtain ⟨info, hadded, _⟩ := haccepted.added
        intro height blob blk hget hparse
        rw [hadded.blocks, Table.get_put] at hget
        split_ifs at hget
        · cases hget
          rw [hb.parses] at hparse
          cases hparse
          exact hb.rewritten
        · exact h height blob blk hget hparse
  pop c block txs c' h hpop := by
    obtain ⟨hpop, _⟩ := popBlock_ok hpop
    obtain ⟨info, hpopped, blob, hget, hparse⟩ := popBlock_popped hpop
    have hown := h _ blob block hget hparse
    have hwhole : Handed.Whole ⟨block, block.toBlob, txs.map withBlob⟩ :=
      ⟨hown, hown, by rw [List.length_map]; exact popBlock_listed hpop⟩
    refine ⟨?_, hwhole, ?_⟩
    · intro height blob blk hget hparse
      rw [hpopped.blocks, Table.get_del] at hget
      split_ifs at hget
      exact h height blob blk hget hparse
    · intro blk hparse
      rw [hown] at hparse
      cases hparse
      exact hwhole
  reload c c' h hreload := by
    unfold Chain.reloadState at hreload
    split at hreload
    · cases hreload
      exact h
    · cases hreload
  unlisted blk blob txs h hempty := ⟨h.parses, h.rewritten, by rw [hempty]; rfl⟩

/-- An alternative block of a store. -/
def StoredAlternative (db : Store) (blk : Block) : Prop :=
  ∃ id data blob, db.altBlocks.get id = some (data, blob) ∧ Block.fromBlob blob = .ok blk

/-- **Restarts.**  A chain opened over the store of another that any run has led to, with a
    verifier that answers alike, answers every later block as the other does, and has the same
    store and caches after it; or there is a block up to which this is so and that it refuses to
    switch for, staying where it is, because an alternative block from before the restart lists a
    transaction it does not have. -/
theorem restart_follows {v : σ} {c₀ : Chain σ} (hopen : Chain.new P Store.empty v = .ok c₀)
    (actions : List (Action σ)) (hwhole : ∀ a ∈ actions, ∀ b, a.carried = some b → b.Whole)
    (hok : c₀.Along P (NoStorageError (P := P)) actions) {v' : σ}
    (halike : Alike P (c₀.run P actions).verifier v') :
    ∃ c', Chain.new P (c₀.run P actions).db v' = .ok c' ∧ ∀ later,
      ((c'.handleAll P later).1 = ((c₀.run P actions).handleAll P later).1 ∧
        (c'.handleAll P later).2.db = ((c₀.run P actions).handleAll P later).2.db ∧
        (c'.handleAll P later).2.state = ((c₀.run P actions).handleAll P later).2.state) ∨
      ∃ front b now rest, later = front ++ (b, now) :: rest ∧
        (c'.handleAll P front).1 = ((c₀.run P actions).handleAll P front).1 ∧
        (c'.handleAll P front).2.db = ((c₀.run P actions).handleAll P front).2.db ∧
        (c'.handleAll P front).2.state = ((c₀.run P actions).handleAll P front).2.state ∧
        Stuck (StoredAlternative (c₀.run P actions).db) (c'.handleAll P front).2
          ((c'.handleAll P front).2.handleBlock P b.blk b.blob b.txs now) := by
  have hwaiting : Waiting Handed.Whole (c₀.run P actions) := by
    have hstart : Rewritten c₀ := by
      cases hopen
      exact nofun
    refine (run_stepwise_anyway rewritten_stepwise hstart (waiting_new hopen) actions ?_).2
    intro a ha b hb
    exact ⟨hwhole a ha b hb, (hwhole a ha b hb).parses⟩
  have hin : InStep P (c₀.run P actions) :=
    run_invariant (I := fun _ c => InStep P c) (new_inStep MainTables.numbered_empty hopen)
      (fun _ _ _ hc hcond => act_inStep hc hcond) actions hok
  generalize c₀.run P actions = c at hwaiting hin halike ⊢
  have hload : loadState P c.db.main = .ok c.state := by
    rw [loadState_eq P hin.numbered, hin.state]
  refine ⟨⟨c.db, c.state, .empty, [], v'⟩, ?_, ?_⟩
  · rw [Chain.new, hload]
    rfl
  have htwin : Twin P (StoredAlternative c.db) c ⟨c.db, c.state, .empty, [], v'⟩ := by
    refine ⟨rfl, rfl, halike, fun id => Or.inr ⟨rfl, ?_⟩⟩
    intro data blob blk hget hparse
    refine ⟨⟨id, data, blob, hget, hparse⟩, fun hempty txs htxs => ?_⟩
    have hlen := (hwaiting.bodies id data blob txs hget htxs blk hparse).listed
    rw [hempty] at hlen
    exact List.eq_nil_of_length_eq_zero hlen
  intro later
  rcases htwin.handleAll later with ⟨hanswers, hends⟩ | ⟨front, b, now, rest, hsplit, hmatched, hstuck⟩
  · exact Or.inl ⟨hanswers.symm, hends.db, hends.state⟩
  · exact Or.inr ⟨front, b, now, rest, hsplit, hmatched.1.symm, hmatched.2.db, hmatched.2.state,
      hstuck⟩

end

namespace Sample

/-- The first block, with the carrier of a transaction beside it. -/
def lodged : List (Action Unit) :=
  [.handleBlock genesis genesis.toBlob [] clock, .handleBlock first first.toBlob [] clock,
    .handleBlock (tinyCarrier (tiny 1).write) (tinyCarrier (tiny 1).write).toBlob
      [(tiny 1, (tiny 1).write)] clock]

/-- A block on the carrier. -/
def follower : Block :=
  nextBlock trusting (afterGenesis.addBlock trusting (tinyCarrier (tiny 1).write)
    (tinyCarrier (tiny 1).write).toBlob [(tiny 1, (tiny 1).write)] clock).2 0 []

/-- The carrier once more, and the block on it. -/
def delivered : List (Handed × Nat) :=
  [(⟨tinyCarrier (tiny 1).write, (tinyCarrier (tiny 1).write).toBlob,
      [(tiny 1, (tiny 1).write)]⟩, clock),
    (⟨follower, follower.toBlob, []⟩, clock)]

end Sample

section

open Sample

/-- Opened again with a rival beside the first block, a chain still follows the rival. -/
theorem restart_follows_rival :
    ((opened ()).run bare (fork first.toBlob)).db.altBlocks.size = 1 ∧
      ∃ c', Chain.new bare ((opened ()).run bare (fork first.toBlob)).db () = .ok c' ∧
        (c'.handleAll bare [(⟨second, second.toBlob, []⟩, clock)]).2.state =
          (((opened ()).run bare (fork first.toBlob)).handleAll bare
            [(⟨second, second.toBlob, []⟩, clock)]).2.state := by
  refine ⟨by decide +kernel, ?_⟩
  have hwhole : ∀ b ∈ (fork first.toBlob).filterMap Action.carried, b.Whole := by decide +kernel
  have hok : (opened ()).Along bare (NoStorageError (P := bare)) (fork first.toBlob) := by
    decide +kernel
  have htaken : (Chain.new bare ((opened ()).run bare (fork first.toBlob)).db ()).toOption.map
      (fun c' => (c'.handleBlock bare second second.toBlob [] clock).1) =
        some (.ok (.reorg 2 1)) := by decide +kernel
  have halike : Alike bare ((opened ()).run bare (fork first.toBlob)).verifier () := by
    generalize ((opened ()).run bare (fork first.toBlob)).verifier = v
    exact Alike.refl v
  obtain ⟨c', hnew, hlater⟩ := restart_follows (P := bare) (new_empty bare ()) (fork first.toBlob)
    (fun a ha b hb => hwhole b (List.mem_filterMap.mpr ⟨a, ha, hb⟩)) hok halike
  refine ⟨c', hnew, ?_⟩
  rcases hlater [(⟨second, second.toBlob, []⟩, clock)] with
    ⟨_, _, hstate⟩ | ⟨front, b, now, rest, hsplit, _, _, _, hash, hrefused, _⟩
  · exact hstate
  · cases front with
    | nil =>
        rw [List.nil_append, List.cons.injEq, Prod.mk.injEq] at hsplit
        obtain ⟨⟨rfl, rfl⟩, _⟩ := hsplit
        rw [hnew] at htaken
        simp only [Except.toOption, Option.map_some, Option.some.injEq] at htaken
        simp only [Chain.handleAll, htaken] at hrefused
        cases hrefused
    | cons x front =>
        have hlen := congrArg List.length hsplit
        simp at hlen

/-- A chain that is opened again with the carrier of a transaction beside its first block does not
    take the carrier again, and stays on the first block where it would have switched. -/
theorem restart_forgets_carrier :
    ((opened ()).run trusting lodged).height = 2 ∧
      (((opened ()).run trusting lodged).handleAll trusting
        delivered).2.state.cumulativeDifficulty = 3 ∧
      (((opened ()).run trusting (lodged ++ [.reopen ()])).handleAll trusting
        delivered).2.state.cumulativeDifficulty = 2 := by
  decide +kernel

end

end Wownero
