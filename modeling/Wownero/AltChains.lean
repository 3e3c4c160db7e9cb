import Wownero.Caches
import Wownero.Validation
/-!
# The parts of the alternative path

What the walk finds, what the checks of an alternative block establish, and how the bookkeeping
around a switch moves the table of alternative blocks.
-/

namespace Wownero

open Outcome

/-! ### The walk -/

/-- Every link of the walk is a stored alternative block. -/
theorem altWalk_links {s : Store} (fuel : Nat) {prev : Hash256} {acc links : List AltLink}
    {split : Nat} (h : altWalk s fuel prev acc = .ok (some (links, split)))
    (hacc : ∀ l ∈ acc, s.altBlocks.get l.id = some (l.data, l.blob) ∧
      Block.fromBlob l.blob = .ok l.block) :
    ∀ l ∈ links, s.altBlocks.get l.id = some (l.data, l.blob) ∧
      Block.fromBlob l.blob = .ok l.block := by
  induction fuel generalizing prev acc with
  | zero => cases h
  | succ fuel ih =>
      unfold altWalk at h
      split_ifs at h with hexists
      · split at h
        · cases h
          exact hacc
        · cases h
      · split at h
        · cases h
        · rename_i data blob hget
          split_ifs at h with hdescend
          split at h
          · cases h
          · rename_i block hparse
            refine ih h ?_
            intro l hl
            rcases List.mem_cons.mp hl with rfl | hl
            · exact ⟨hget, hparse⟩
            · exact hacc l hl

/-- A chain of links from a block up to another, each on the one before. -/
def Connected : Hash256 → List AltLink → Hash256 → Prop
  | root, [], tip => root = tip
  | root, l :: links, tip => l.block.header.prevId = root ∧ Connected l.id links tip

/-- What the walk has found: a connected chain of stored alternative blocks, none of them at
    height zero, on a block of the main chain. -/
theorem altWalk_connected {s : Store} (fuel : Nat) {prev tip : Hash256} {acc links : List AltLink}
    {split : Nat} (h : altWalk s fuel prev acc = .ok (some (links, split)))
    (hconn : Connected prev acc tip) (hpos : ∀ l ∈ acc, l.data.height ≠ 0) :
    ∃ root, s.main.blockHeights.get root = some split ∧ Connected root links tip ∧
      ∀ l ∈ links, l.data.height ≠ 0 := by
  induction fuel generalizing prev acc with
  | zero => cases h
  | succ fuel ih =>
      unfold altWalk at h
      split_ifs at h with hexists
      · split at h
        · rename_i found hfound
          cases h
          refine ⟨prev, ?_, hconn, hpos⟩
          simpa [MainTables.getBlockHeight, orNotFound_eq_ok] using hfound
        · cases h
      · split at h
        · cases h
        · rename_i data blob hget
          split_ifs at h with hdescend
          split at h
          · cases h
          · rename_i block hparse
            refine ih h ⟨rfl, hconn⟩ ?_
            intro l hl
            rcases List.mem_cons.mp hl with rfl | hl
            · exact fun hz => hdescend (Or.inr hz)
            · exact hpos l hl

section

variable {σ : Type} {P : Params σ}

/-! ### The checks -/

theorem altChecks_ok {t : MainTables} {blk : Block} {txs : List (Transaction × Blob)}
    {links : List AltLink} {split difficulty : Nat}
    (h : altChecks P t blk txs links split = .ok difficulty) :
    altDifficulty P t links (split + links.length + 1) (currentVersion P t) = .ok difficulty ∧
      stepCoinbase P t (split + links.length + 1) blk = .ok () := by
  simp only [altChecks, bind_eq_ok, pure_eq_ok] at h
  obtain ⟨_, _, _, _, _, _, d, hd, _, _, ⟨⟩, hcoinbase, _, _, rfl⟩ := h
  refine ⟨?_, hcoinbase⟩
  unfold altStepDifficulty at hd
  split at hd
  · cases hd
  · rename_i d' hdiff
    cases hd
    exact hdiff

theorem altData_ok {t : MainTables} {blk : Block} {txs : List (Transaction × Blob)}
    {links : List AltLink} {split difficulty : Nat} {data : AltBlockData}
    (h : altData t blk txs links split difficulty = .ok data) :
    data.height = split + links.length + 1 ∧ ∃ parent,
      data.cumulativeDifficulty = wrap128 (parent + difficulty) ∧
      (∀ l, links.getLast? = some l → parent = l.data.cumulativeDifficulty) ∧
      (links = [] → ∃ info, t.blockInfo.get split = some info ∧
        parent = info.cumulativeDifficulty) := by
  simp only [altData, bind_eq_ok, pure_eq_ok] at h
  obtain ⟨parent, hparent, rfl⟩ := h
  refine ⟨rfl, parent.1, rfl, ?_, ?_⟩
  · intro l hl
    rw [altParent, hl] at hparent
    cases hparent
    rfl
  · intro hnil
    rw [altParent, hnil] at hparent
    simp only [List.getLast?_nil] at hparent
    cases hinfo : t.getBlockInfo split with
    | error e =>
        rw [hinfo] at hparent
        cases hparent
    | ok info =>
        rw [hinfo] at hparent
        cases hparent
        rw [MainTables.getBlockInfo, orNotFound_eq_ok] at hinfo
        exact ⟨info, hinfo, rfl⟩

theorem AltPassed.free {c : Chain σ} {blk : Block} {txs : List (Transaction × Blob)}
    {id : Hash256} {links : List AltLink} {split difficulty : Nat} {data : AltBlockData}
    (h : AltPassed P c blk txs id links split difficulty data) :
    c.db.altBlocks.get id = none := by
  have hnew := h.new
  simp only [Store.haveBlock, Bool.or_eq_false_iff, Table.has_eq] at hnew
  simpa using hnew.2

/-- The alternative chain with the block itself, once it is stored. -/
theorem AltPassed.links_stored {c : Chain σ} {blk : Block} {blob : Blob}
    {txs : List (Transaction × Blob)} {id : Hash256} {links : List AltLink}
    {split difficulty : Nat} {data : AltBlockData}
    (h : AltPassed P c blk txs id links split difficulty data)
    (hparse : Block.fromBlob blob = .ok blk) :
    ∀ l ∈ links ++ [⟨id, blk, blob, data⟩],
      (c.db.addAltBlock id data blob).altBlocks.get l.id = some (l.data, l.blob) ∧
        Block.fromBlob l.blob = .ok l.block := by
  intro l hl
  rcases List.mem_append.mp hl with hl | hl
  · obtain ⟨hget, hp⟩ := altWalk_links _ h.chain (fun _ hmem => by cases hmem) l hl
    refine ⟨?_, hp⟩
    rw [Store.addAltBlock, Table.get_put_of_ne]
    · exact hget
    · rintro rfl
      rw [h.free] at hget
      cases hget
  · rw [List.mem_singleton] at hl
    subst hl
    exact ⟨Table.get_put_self _ _ _, hparse⟩

/-! ### The switch -/

theorem applyAlt_snoc {now : Nat} {blocks : List (AltLink × List (Transaction × Blob))}
    {last : AltLink × List (Transaction × Blob)} {i : Nat} {c c' : Chain σ}
    (h : Chain.applyAlt P now i (blocks ++ [last]) c = (none, c')) :
    ∃ c₁ added, Chain.applyAlt P now i blocks c = (none, c₁) ∧
      Chain.addBlock P c₁ last.1.block last.1.blob last.2 now = (.ok added, c') := by
  induction blocks generalizing i c with
  | nil =>
      obtain ⟨link, txs⟩ := last
      rw [List.nil_append, Chain.applyAlt] at h
      cases hadd : Chain.addBlock P c link.block link.blob txs now with
      | mk result c₁ =>
          rw [hadd] at h
          cases result with
          | error r => cases h
          | ok added =>
              cases h
              exact ⟨c, added, rfl, hadd⟩
  | cons p blocks ih =>
      obtain ⟨link, txs⟩ := p
      rw [List.cons_append, Chain.applyAlt] at h
      rw [Chain.applyAlt]
      cases hadd : Chain.addBlock P c link.block link.blob txs now with
      | mk result c₁ =>
          rw [hadd] at h
          cases result with
          | error r => cases h
          | ok added => exact ih h

theorem gatherBodies_error {altTxs : Table Hash256 (List (Transaction × Blob))}
    {links : List AltLink} {r : Rejection} (h : gatherBodies altTxs links = .error r) :
    ∃ hash, r = ⟨.transactions, .missingTx hash⟩ := by
  induction links with
  | nil => cases h
  | cons l links ih =>
      unfold gatherBodies at h
      split at h
      · cases hrest : gatherBodies altTxs links with
        | ok others =>
            rw [hrest] at h
            cases h
        | error e =>
            rw [hrest] at h
            cases h
            exact ih hrest
      · cases hrest : gatherBodies altTxs links with
        | ok others =>
            rw [hrest] at h
            cases h
        | error e =>
            rw [hrest] at h
            cases h
            exact ih hrest
      · cases h
        exact ⟨_, rfl⟩

theorem gatherBodies_length {altTxs : Table Hash256 (List (Transaction × Blob))}
    {links : List AltLink} {bodies : List (List (Transaction × Blob))}
    (h : gatherBodies altTxs links = .ok bodies) : bodies.length = links.length := by
  induction links generalizing bodies with
  | nil =>
      cases h
      rfl
  | cons l links ih =>
      unfold gatherBodies at h
      split at h
      · simp only [bind_eq_ok, pure_eq_ok] at h
        obtain ⟨others, hothers, rfl⟩ := h
        simp [ih hothers]
      · simp only [bind_eq_ok, pure_eq_ok] at h
        obtain ⟨others, hothers, rfl⟩ := h
        simp [ih hothers]
      · cases h

/-! ### The table of alternative blocks -/

/-- Forgetting alternative blocks, in terms of lookups. -/
theorem removeAlts_get (links : List AltLink) (c : Chain σ) (k : Hash256) :
    ((c.removeAlts links).db.altBlocks.get k =
      if k ∈ links.map (·.id) then none else c.db.altBlocks.get k) ∧
    (c.removeAlts links).altTxs.get k =
      if k ∈ links.map (·.id) then none else c.altTxs.get k := by
  unfold Chain.removeAlts
  induction links generalizing c with
  | nil => simp
  | cons l links ih =>
      obtain ⟨h₁, h₂⟩ := ih { c with db := c.db.removeAltBlock l.id, altTxs := c.altTxs.del l.id }
      rw [List.foldl_cons, h₁, h₂]
      simp only [Store.removeAltBlock, Table.get_del, List.map_cons, List.mem_cons]
      constructor <;> by_cases hk : k = l.id <;> by_cases hm : k ∈ links.map (·.id) <;> simp [hk, hm]

theorem removeAlts_altBlocks_congr (links : List AltLink) {c c' : Chain σ}
    (h : c'.db.altBlocks = c.db.altBlocks) :
    (c'.removeAlts links).db.altBlocks = (c.removeAlts links).db.altBlocks := by
  refine Table.ext fun k => ?_
  rw [(removeAlts_get links c' k).1, (removeAlts_get links c k).1, h]

theorem removeAlts_rest (links : List AltLink) (c : Chain σ) :
    (c.removeAlts links).verifier = c.verifier ∧
      (c.removeAlts links).orphanedTxs = c.orphanedTxs := by
  unfold Chain.removeAlts
  induction links generalizing c with
  | nil => exact ⟨rfl, rfl⟩
  | cons l links ih => exact ih _

theorem keepPopped_verifier (popped : List Popped) (c : Chain σ) :
    (c.keepPopped popped).verifier = c.verifier := by
  unfold Chain.keepPopped
  induction popped generalizing c with
  | nil => rfl
  | cons p popped ih => exact ih _

theorem finishSwitch_verifier (chain : List AltLink) (popped : List Popped) (c : Chain σ) :
    (Chain.finishSwitch P chain popped c).verifier = c.verifier :=
  ((removeAlts_rest chain _).1).trans (keepPopped_verifier popped c)

end

end Wownero
