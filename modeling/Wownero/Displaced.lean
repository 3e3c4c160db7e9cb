import Wownero.Spends
/-!
# Displaced transactions

A switch that goes through hands on the transactions of the blocks it took off, except those the
new main chain carries; `pop_blocks` hands on all of them; a switch that fails hands on nothing.
Each comes once, and with the bytes its id is the hash of.
-/

namespace Wownero

open Outcome

/-- The last blocks of the main chain. -/
def topBlocks (t : MainTables) (n : Nat) : List Block := (mainBlocks t).drop (t.height - n)

/-- These are the transactions a store has under these ids, each once, with their bytes. -/
structure HandsOn (C : Crypto) (t : MainTables) (ids : List Hash256)
    (txs : List (Transaction × Blob)) : Prop where
  stored : List.Forall₂ (StoredAs C t) ids txs
  once : ids.Nodup

section

variable {C : Crypto} {blocks kept dropped : List Handed} {t : MainTables}

theorem Books.topBlocks_eq (h : Books C (kept ++ dropped) t) :
    topBlocks t dropped.length = dropped.map (·.blk) := by
  rw [topBlocks, h.mainBlocks_eq, h.length_eq, List.length_append, Nat.add_sub_cancel,
    List.map_append]
  exact List.drop_left' (List.length_map _)

/-- What the dropped blocks carried, oldest block first. -/
theorem Books.handsOn (h : Books C (kept ++ dropped) t) :
    HandsOn C t (dropped.flatMap (·.blk.txHashes)) (dropped.flatMap (·.txs)) := by
  refine ⟨h.storedTxs fun b hb => List.mem_append_right _ hb, ?_⟩
  have hnodup := h.ids_nodup
  rw [List.flatMap_append] at hnodup
  exact (List.nodup_append'.mp hnodup).2.1

/-- What is left of it by a choice among the ids. -/
theorem HandsOn.filter {ids : List Hash256} {txs : List (Transaction × Blob)}
    (h : HandsOn C t ids txs) (keepId : Hash256 → Bool) (keep : Transaction × Blob → Bool)
    (hsame : ∀ id p, id ∈ ids → StoredAs C t id p → keepId id = keep p) :
    HandsOn C t (ids.filter keepId) (txs.filter keep) := by
  refine ⟨?_, h.once.filter _⟩
  have hstored := h.stored
  have hsame' : ∀ id p, id ∈ ids → StoredAs C t id p → keepId id = keep p := hsame
  clear hsame h
  induction hstored with
  | nil => exact .nil
  | @cons id p ids txs hfirst hrest ih =>
      have hheads := hsame' id p List.mem_cons_self hfirst
      have htail := ih fun id' p' hmem => hsame' id' p' (List.mem_cons_of_mem _ hmem)
      rw [List.filter_cons, List.filter_cons, ← hheads]
      split_ifs
      · exact .cons hfirst htail
      · exact htail

end

section

variable {σ : Type} {P : Params σ} {handed : Handed → Prop}

/-! ### Popping -/

/-- A pop of a chain with books takes their last block. -/
theorem popBlock_books {blocks : List Handed} {b : Handed} {c : Chain σ}
    (h : Books P.crypto (blocks ++ [b]) c.db.main) :
    ∃ c', Chain.popBlock P c = .ok ((b.blk, b.txs.map (·.1)), c') ∧
      Books P.crypto blocks c'.db.main ∧ c'.orphanedTxs = c.orphanedTxs := by
  generalize hm : c.db.main = t' at h
  generalize hblocks : blocks ++ [b] = all at h
  cases h with
  | empty => simp at hblocks
  | @block older t _ last hbooks booked =>
      obtain ⟨rfl, hlast⟩ := List.append_inj' hblocks rfl
      cases hlast
      have hpop := (booked.popped hbooks.sound).2
      refine ⟨Chain.observed P { c with db := { c.db with main := t } }, ?_, ?_, ?_⟩
      · rw [Chain.popBlock, hm, hpop]
      · rw [observed_db]
        exact hbooks
      · rw [observed_orphanedTxs]

theorem Books.snoc {blocks : List Handed} {t : MainTables} (h : Books P.crypto blocks t)
    (hpos : 0 < t.height) : ∃ older b, blocks = older ++ [b] := by
  rw [h.length_eq] at hpos
  have hne : blocks ≠ [] := List.ne_nil_of_length_pos hpos
  exact ⟨blocks.dropLast, blocks.getLast hne, (List.dropLast_append_getLast hne).symm⟩

/-- The loop of `pop_blocks` hands on what it takes off, newest block first. -/
theorem popMany_books (n : Nat) {blocks : List Handed} {c : Chain σ}
    (h : Books P.crypto blocks c.db.main) (hn : n ≤ c.height) :
    ∃ kept dropped c', blocks = kept ++ dropped ∧ dropped.length = n ∧
      Chain.popMany P n c = (.ok (), c') ∧ Books P.crypto kept c'.db.main ∧
      c'.orphanedTxs = c.orphanedTxs ++ dropped.reverse.flatMap (·.txs) := by
  induction n generalizing blocks c with
  | zero => exact ⟨blocks, [], c, by simp, rfl, rfl, h, by simp⟩
  | succ n ih =>
      obtain ⟨older, b, rfl⟩ := h.snoc (by rw [Chain.height] at hn; omega)
      obtain ⟨c₁, hpop, hbooks, horphaned⟩ := popBlock_books h
      have hheight : n ≤ c₁.height := by
        have h₁ := hbooks.length_eq
        have h₂ := h.length_eq
        rw [Chain.height] at hn ⊢
        simp only [List.length_append, List.length_singleton] at h₂
        omega
      have hwith := (h.faithful b (by simp)).withBlob_txs
      obtain ⟨kept, dropped, c', rfl, hlen, hmany, hkept, horphaned'⟩ :=
        ih (c := { c₁ with orphanedTxs := c₁.orphanedTxs ++ (b.txs.map (·.1)).map withBlob })
          hbooks hheight
      refine ⟨kept, dropped ++ [b], c', by simp, by simp [hlen], ?_, hkept, ?_⟩
      · rw [Chain.popMany, hpop]
        exact hmany
      · rw [horphaned', hwith, horphaned, List.reverse_append, List.reverse_singleton,
          List.singleton_append, List.flatMap_cons, List.append_assoc]

/-- **`pop_blocks`** hands on every transaction of the blocks it takes off. -/
theorem popBlocks_books {blocks : List Handed} {c : Chain σ} (h : Books P.crypto blocks c.db.main)
    (n : Nat) :
    ∃ c' txs, c.popBlocks P n = (.ok (min n (c.height - 1)), c') ∧
      c'.orphanedTxs = c.orphanedTxs ++ txs ∧
      HandsOn P.crypto c.db.main
        ((topBlocks c.db.main (min n (c.height - 1))).reverse.flatMap (·.txHashes)) txs := by
  obtain ⟨kept, dropped, c₁, rfl, hlen, hmany, hbooks, horphaned⟩ :=
    popMany_books (min n (c.height - 1)) h (by omega)
  refine ⟨{ c₁ with state := stateOf P.network c₁.db.main.records },
    dropped.reverse.flatMap (·.txs), ?_, horphaned, ?_⟩
  · rw [Chain.popBlocks]
    simp only [hmany, reloadState_eq hbooks.sound.numbered]
  · rw [← hlen, h.topBlocks_eq, ← List.map_reverse, List.flatMap_map]
    refine ⟨h.storedTxs fun b hb => List.mem_append_right _ (List.mem_reverse.mp hb), ?_⟩
    exact (List.Perm.flatMap_right _ (List.reverse_perm dropped)).nodup_iff.mpr h.handsOn.once

/-! ### Switching -/

/-- What a switch keeps of the blocks it pops. -/
theorem popTo_books (split fuel : Nat) {blocks : List Handed} {c c' : Chain σ}
    (h : Books P.crypto blocks c.db.main) {acc popped : List Popped}
    (hout : Chain.popTo P split fuel c acc = (.ok popped, c')) :
    ∃ kept dropped front, blocks = kept ++ dropped ∧ popped = front ++ acc ∧
      front.map (·.txs) = dropped.map (·.txs) := by
  induction fuel generalizing blocks c acc with
  | zero =>
      cases hout
      exact ⟨blocks, [], [], by simp, rfl, rfl⟩
  | succ fuel ih =>
      unfold Chain.popTo at hout
      split_ifs at hout with habove
      · cases hinfo : c.db.main.getBlockInfo (c.height - 1) with
        | error e =>
            rw [hinfo] at hout
            cases hout
        | ok info =>
            rw [hinfo] at hout
            obtain ⟨older, b, rfl⟩ := h.snoc (by rw [Chain.height] at habove; omega)
            obtain ⟨c₁, hpop, hbooks, _⟩ := popBlock_books h
            have hwith := (h.faithful b (by simp)).withBlob_txs
            simp only [hpop, hwith] at hout
            obtain ⟨kept, dropped, front, rfl, rfl, hfront⟩ := ih hbooks hout
            refine ⟨kept, dropped ++ [b], front ++ [⟨info, b.blk, b.txs⟩], by simp, by simp, ?_⟩
            rw [List.map_append, List.map_append, hfront]
            rfl
      · cases hout
        exact ⟨blocks, [], [], by simp, rfl, rfl⟩

/-! ### What does not touch the displaced transactions -/

theorem addBlock_orphanedTxs (c : Chain σ) (blk : Block) (blob : Blob)
    (txs : List (Transaction × Blob)) (now : Nat) :
    (Chain.addBlock P c blk blob txs now).2.orphanedTxs = c.orphanedTxs := by
  cases hout : Chain.addBlock P c blk blob txs now with
  | mk result c' =>
      cases result with
      | ok added =>
          obtain ⟨_, fees, reward, v, haccepted⟩ := addBlock_ok hout
          exact haccepted.orphanedTxs
      | error r =>
          obtain ⟨v, rfl⟩ := addBlock_error hout
          rfl

theorem reloadState_orphanedTxs (c : Chain σ) :
    (Chain.reloadState P c).2.orphanedTxs = c.orphanedTxs := by
  unfold Chain.reloadState
  split
  · rfl
  · rfl

theorem popTo_orphanedTxs (split fuel : Nat) (c : Chain σ) (acc : List Popped) :
    (Chain.popTo P split fuel c acc).2.orphanedTxs = c.orphanedTxs := by
  induction fuel generalizing c acc with
  | zero => rfl
  | succ fuel ih =>
      unfold Chain.popTo
      split_ifs
      · split
        · rfl
        · cases hpop : Chain.popBlock P c with
          | error r => rfl
          | ok out =>
              obtain ⟨⟨block, txs⟩, c₁⟩ := out
              exact (ih c₁ _).trans (popBlock_ok hpop).2.2.2.2
      · rfl

theorem dropBlocks_orphanedTxs (n : Nat) (c : Chain σ) :
    (Chain.dropBlocks P n c).2.orphanedTxs = c.orphanedTxs := by
  induction n generalizing c with
  | zero => rfl
  | succ n ih =>
      unfold Chain.dropBlocks
      cases hpop : Chain.popBlock P c with
      | error r => rfl
      | ok out => exact (ih out.2).trans (popBlock_ok hpop).2.2.2.2

theorem applyAlt_orphanedTxs (now : Nat) (blocks : List (AltLink × List (Transaction × Blob)))
    (i : Nat) (c : Chain σ) :
    (Chain.applyAlt P now i blocks c).2.orphanedTxs = c.orphanedTxs := by
  induction blocks generalizing i c with
  | nil => rfl
  | cons p blocks ih =>
      obtain ⟨link, txs⟩ := p
      have hadd := addBlock_orphanedTxs (P := P) c link.block link.blob txs now
      unfold Chain.applyAlt
      cases hout : Chain.addBlock P c link.block link.blob txs now with
      | mk result c₁ =>
          rw [hout] at hadd
          cases result with
          | ok added => exact (ih (i + 1) c₁).trans hadd
          | error r => exact hadd

theorem putBack_orphanedTxs (now : Nat) (popped : List Popped) (c : Chain σ) :
    (Chain.putBack P now popped c).2.orphanedTxs = c.orphanedTxs := by
  induction popped generalizing c with
  | nil => rfl
  | cons p popped ih =>
      have hadd := addBlock_orphanedTxs (P := P) c p.block p.block.toBlob p.txs now
      unfold Chain.putBack
      cases hout : Chain.addBlock P c p.block p.block.toBlob p.txs now with
      | mk result c₁ =>
          rw [hout] at hadd
          cases result with
          | ok added => exact (ih c₁).trans hadd
          | error r => exact hadd

theorem removeAlts_orphanedTxs (links : List AltLink) (c : Chain σ) :
    (c.removeAlts links).orphanedTxs = c.orphanedTxs := by
  unfold Chain.removeAlts
  induction links generalizing c with
  | nil => rfl
  | cons l links ih => exact ih _

theorem keepPopped_orphanedTxs (popped : List Popped) (c : Chain σ) :
    (c.keepPopped popped).orphanedTxs = c.orphanedTxs := by
  unfold Chain.keepPopped
  induction popped generalizing c with
  | nil => rfl
  | cons p popped ih => exact ih _

theorem restore_orphanedTxs (now applied : Nat) (chain : List AltLink) (popped : List Popped)
    (rejected : Rejection) (c : Chain σ) :
    (Chain.restore P now applied chain popped rejected c).2.orphanedTxs = c.orphanedTxs := by
  have hdrop := dropBlocks_orphanedTxs (P := P) applied c
  unfold Chain.restore
  cases hout : Chain.dropBlocks P applied c with
  | mk result c₁ =>
      rw [hout] at hdrop
      cases result with
      | error e => exact hdrop
      | ok u =>
          have hreload := reloadState_orphanedTxs (P := P) c₁
          simp only
          cases hout₁ : Chain.reloadState P c₁ with
          | mk result c₂ =>
              rw [hout₁] at hreload
              cases result with
              | error e => exact hreload.trans hdrop
              | ok u =>
                  have hput := putBack_orphanedTxs (P := P) now popped c₂
                  simp only
                  cases hout₂ : Chain.putBack P now popped c₂ with
                  | mk result c₃ =>
                      rw [hout₂] at hput
                      have hall := hput.trans (hreload.trans hdrop)
                      cases result with
                      | error e => exact hall
                      | ok u => exact (removeAlts_orphanedTxs _ c₃).trans hall

/-- The undo path ends in a refusal. -/
theorem restore_refused (now applied : Nat) (chain : List AltLink) (popped : List Popped)
    (rejected : Rejection) (c : Chain σ) :
    ∃ r, (Chain.restore P now applied chain popped rejected c).1 = .error r := by
  unfold Chain.restore
  split
  · exact ⟨_, rfl⟩
  · split
    · exact ⟨_, rfl⟩
    · split
      · exact ⟨_, rfl⟩
      · exact ⟨_, rfl⟩

theorem finishSwitch_orphanedTxs (chain : List AltLink) (popped : List Popped) (c : Chain σ) :
    (Chain.finishSwitch P chain popped c).orphanedTxs =
      c.orphanedTxs ++ displacedTxs P c.db.main popped := by
  obtain ⟨hm, _⟩ := keepPopped_frame popped c
  obtain ⟨hm', _⟩ := removeAlts_frame chain (c.keepPopped popped)
  simp only [Chain.finishSwitch, removeAlts_orphanedTxs, keepPopped_orphanedTxs, hm', hm]

/-- How a switch ends: nothing is handed on, or what it took off and the new chain lacks. -/
theorem switchToAlternative_orphanedTxs {blocks : List Handed} {c c' : Chain σ}
    (h : Books P.crypto blocks c.db.main) {chain : List AltLink} {split now : Nat}
    {result : Except Rejection Added}
    (hout : Chain.switchToAlternative P c chain split now = (result, c')) :
    (∃ r, result = .error r) ∧ c'.orphanedTxs = c.orphanedTxs ∨
      ∃ kept dropped, blocks = kept ++ dropped ∧
        result = .ok (.reorg (split + chain.length) dropped.length) ∧
        c'.orphanedTxs = c.orphanedTxs ++ (dropped.flatMap (·.txs)).filter fun p =>
          !((transactionHashFromBlob P.crypto.cnFastHash p.1 p.2).any c'.db.main.txExists) := by
  unfold Chain.switchToAlternative at hout
  split at hout
  · cases hout
    exact Or.inl ⟨⟨_, rfl⟩, rfl⟩
  · rename_i bodies _
    have hpops := popTo_orphanedTxs (P := P) split c.height c []
    cases hpop : Chain.popTo P split c.height c [] with
    | mk popResult c₁ =>
        rw [hpop] at hpops
        simp only [hpop] at hout
        cases popResult with
        | error r =>
            cases hout
            exact Or.inl ⟨⟨_, rfl⟩, hpops⟩
        | ok popped =>
            obtain ⟨kept, dropped, front, rfl, hpopped, hfront⟩ := popTo_books split _ h hpop
            rw [List.append_nil] at hpopped
            subst hpopped
            have hreload := reloadState_orphanedTxs (P := P) c₁
            cases hreloaded : Chain.reloadState P c₁ with
            | mk reloadResult c₂ =>
                rw [hreloaded] at hreload
                simp only [hreloaded] at hout
                cases reloadResult with
                | error r =>
                    cases hout
                    exact Or.inl ⟨⟨_, rfl⟩, hreload.trans hpops⟩
                | ok u =>
                    have happly := applyAlt_orphanedTxs (P := P) now (chain.zip bodies) 0 c₂
                    cases happlied : Chain.applyAlt P now 0 (chain.zip bodies) c₂ with
                    | mk refused c₃ =>
                        rw [happlied] at happly
                        simp only [happlied] at hout
                        have hall := happly.trans (hreload.trans hpops)
                        cases refused with
                        | some failure =>
                            obtain ⟨i, rejected⟩ := failure
                            simp only at hout
                            obtain ⟨r, hr⟩ :=
                              restore_refused (P := P) now i chain popped rejected c₃
                            have hrestore :=
                              restore_orphanedTxs (P := P) now i chain popped rejected c₃
                            rw [hout] at hr hrestore
                            exact Or.inl ⟨⟨r, hr⟩, hrestore.trans hall⟩
                        | none =>
                            cases hout
                            refine Or.inr ⟨kept, dropped, rfl, ?_, ?_⟩
                            · have hlen := congrArg List.length hfront
                              rw [List.length_map, List.length_map] at hlen
                              rw [hlen]
                            · obtain ⟨hmain, _⟩ := finishSwitch_frame (P := P) chain popped c₃
                              have hflat : popped.flatMap (·.txs) = dropped.flatMap (·.txs) := by
                                rw [List.flatMap_def, List.flatMap_def, hfront]
                              rw [hmain, finishSwitch_orphanedTxs, hall, displacedTxs, hflat]

/-! ### Runs -/

/-- The transactions a switch hands on are those of the blocks it took off that the new main
    chain does not carry. -/
theorem handsOn_displaced (hgood : FaithfullyHanded P.crypto handed) {c c' : Chain σ}
    {kept dropped : List Handed} (h : Books P.crypto (kept ++ dropped) c.db.main)
    (hknown : ∀ b ∈ dropped, Known P.crypto handed b) (h' : WellBooked P.crypto handed c') :
    HandsOn P.crypto c.db.main
      (((topBlocks c.db.main dropped.length).flatMap (·.txHashes)).filter
        fun id => id ∉ mainTxIds c'.db.main)
      ((dropped.flatMap (·.txs)).filter fun p =>
        !((transactionHashFromBlob P.crypto.cnFastHash p.1 p.2).any c'.db.main.txExists)) := by
  obtain ⟨blocks', hbooks', hknown'⟩ := h'
  rw [h.topBlocks_eq, List.flatMap_map]
  refine h.handsOn.filter _ _ ?_
  intro id p hmem hstored
  obtain ⟨b, hb, hlisted⟩ := List.mem_flatMap.mp hmem
  have hiff := (hbooks'.noDoubleSpend.txIndices id)
  -- A listed id is nobody's coinbase.
  have hnot : id ∉ coinbaseIds P.crypto c'.db.main := by
    rw [hbooks'.mem_coinbaseIds]
    rintro ⟨b', hb', hminer⟩
    obtain ⟨_, blob, hhanded⟩ := hknown b hb
    obtain ⟨_, blob', hhanded'⟩ := hknown' b' hb'
    exact hgood.coinbaseNotListed _ _ id hhanded' hhanded hminer hlisted
  rw [hstored.2.2, Option.any_some, eq_comm, ← Bool.decide_eq_true (b := c'.db.main.txExists id),
    ← decide_not]
  refine decide_eq_decide.mpr (not_congr ?_)
  rw [hiff]
  exact or_iff_left hnot

/-- **Conservation of displaced transactions.**  From every state a run reaches, a block that
    makes the chain switch hands on exactly the transactions of the blocks taken off that the new
    main chain does not carry, each once and with the bytes of its id; a block that is refused
    hands on nothing; and `pop_blocks` hands on everything the blocks it takes off carried. -/
theorem displaced_txs_conserved {v : σ} {c₀ : Chain σ}
    (hopen : Chain.new P Store.empty v = .ok c₀) (actions : List (Action σ)) (blk : Block)
    (blob : Blob) (txs : List (Transaction × Blob)) (now n : Nat)
    (hgood : FaithfullyHanded P.crypto
      (handedIn (actions ++ [.handleBlock blk blob txs now]))) :
    (∀ height popped,
        ((c₀.run P actions).handleBlock P blk blob txs now).1 = .ok (.reorg height popped) →
        ∃ displaced, ((c₀.run P actions).handleBlock P blk blob txs now).2.orphanedTxs =
            (c₀.run P actions).orphanedTxs ++ displaced ∧
          HandsOn P.crypto (c₀.run P actions).db.main
            (((topBlocks (c₀.run P actions).db.main popped).flatMap (·.txHashes)).filter fun id =>
              id ∉ mainTxIds
                ((c₀.run P actions).handleBlock P blk blob txs now).2.db.main) displaced) ∧
      (∀ r, ((c₀.run P actions).handleBlock P blk blob txs now).1 = .error r →
        ((c₀.run P actions).handleBlock P blk blob txs now).2.orphanedTxs =
          (c₀.run P actions).orphanedTxs) ∧
      ∃ displaced,
        ((c₀.run P actions).popBlocks P n).1 = .ok (min n ((c₀.run P actions).height - 1)) ∧
        ((c₀.run P actions).popBlocks P n).2.orphanedTxs =
          (c₀.run P actions).orphanedTxs ++ displaced ∧
        HandsOn P.crypto (c₀.run P actions).db.main
          ((topBlocks (c₀.run P actions).db.main
            (min n ((c₀.run P actions).height - 1))).reverse.flatMap (·.txHashes)) displaced := by
  have hcarried : ∀ a ∈ actions ++ [.handleBlock blk blob txs now], ∀ b, a.carried = some b →
      handedIn (actions ++ [.handleBlock blk blob txs now]) b :=
    fun _ ha _ hb => handedIn_of_carried ha hb
  obtain ⟨⟨blocks, hbooks, hknown⟩, _⟩ := run_wellBooked hgood hopen actions
    fun a ha => hcarried a (List.mem_append_left _ ha)
  obtain ⟨hafter, _⟩ := run_wellBooked hgood hopen _ hcarried
  rw [run_snoc] at hafter
  generalize c₀.run P actions = c at hbooks hafter ⊢
  simp only [Chain.act] at hafter
  have hends : (∃ height popped displaced,
        (c.handleBlock P blk blob txs now).1 = .ok (.reorg height popped) ∧
        (c.handleBlock P blk blob txs now).2.orphanedTxs = c.orphanedTxs ++ displaced ∧
        HandsOn P.crypto c.db.main
          (((topBlocks c.db.main popped).flatMap (·.txHashes)).filter fun id =>
            id ∉ mainTxIds (c.handleBlock P blk blob txs now).2.db.main) displaced) ∨
      (∀ height popped, (c.handleBlock P blk blob txs now).1 ≠ .ok (.reorg height popped)) ∧
        (c.handleBlock P blk blob txs now).2.orphanedTxs = c.orphanedTxs := by
    rcases handleBlock_cases P c blk blob txs now with
      ⟨r, hout⟩ | hout | ⟨id, links, split, difficulty, data, _, hout⟩
    · rw [hout]
      exact Or.inr ⟨fun _ _ h => (by cases h), rfl⟩
    · rw [hout]
      refine Or.inr ⟨?_, addBlock_orphanedTxs c blk blob txs now⟩
      intro height popped hadded
      have hout : c.addBlock P blk blob txs now =
          (.ok (.reorg height popped), (c.addBlock P blk blob txs now).2) := Prod.ext hadded rfl
      obtain ⟨hmain, _⟩ := addBlock_ok hout
      cases hmain
    · rw [hout] at hafter ⊢
      rw [Chain.storeAlternative] at hafter ⊢
      dsimp only at hafter ⊢
      split_ifs at hafter ⊢
      · exact Or.inr ⟨fun _ _ h => (by cases h), rfl⟩
      · have hstored : Books P.crypto blocks { c with
            db := c.db.addAltBlock id data blob, altTxs := c.altTxs.put id txs }.db.main := hbooks
        rcases switchToAlternative_orphanedTxs hstored Prod.mk.eta.symm with
          ⟨⟨r, hr⟩, horphaned⟩ | ⟨kept, dropped, rfl, hr, horphaned⟩
        · exact Or.inr ⟨by rw [hr]; exact fun _ _ h => (by cases h), horphaned⟩
        · refine Or.inl ⟨_, _, _, hr, horphaned, ?_⟩
          exact handsOn_displaced hgood hbooks
            (fun b hb => hknown b (List.mem_append_right _ hb)) hafter
  refine ⟨?_, ?_, ?_⟩
  · intro height popped hreorg
    rcases hends with ⟨_, _, displaced, hout, horphaned, hhands⟩ | ⟨hnot, _⟩
    · rw [hreorg] at hout
      cases hout
      exact ⟨displaced, horphaned, hhands⟩
    · exact absurd hreorg (hnot height popped)
  · intro r hrefused
    rcases hends with ⟨_, _, _, hout, _⟩ | ⟨_, horphaned⟩
    · rw [hrefused] at hout
      cases hout
    · exact horphaned
  · obtain ⟨c', displaced, hpop, horphaned, hhands⟩ := popBlocks_books hbooks n
    rw [hpop]
    exact ⟨displaced, rfl, horphaned, hhands⟩

end

section

open Sample

/-- The carrier of a transaction on the main chain, its rival beside it. -/
def Sample.contested (blob : Blob) : List (Action Unit) := (undone blob).take 3

/-- The transaction of a block that its rival displaces is handed on. -/
theorem displaced_txs_conserved_carrier :
    (((opened ()).run trusting (contested (tiny 1).write)).handleBlock trusting second
        second.toBlob [] clock).1 = .ok (.reorg 2 1) ∧
      ∃ displaced, (((opened ()).run trusting (contested (tiny 1).write)).handleBlock trusting
          second second.toBlob [] clock).2.orphanedTxs =
        ((opened ()).run trusting (contested (tiny 1).write)).orphanedTxs ++ displaced := by
  have hreorg : (((opened ()).run trusting (contested (tiny 1).write)).handleBlock trusting
      second second.toBlob [] clock).1 = .ok (.reorg 2 1) := by decide +kernel
  have hwell : WellHanded crypto (handedIn (contested (tiny 1).write ++
      [.handleBlock second second.toBlob [] clock])) := by decide +kernel
  refine ⟨hreorg, ?_⟩
  obtain ⟨hswitch, _⟩ := displaced_txs_conserved (P := trusting) (new_empty trusting ())
    (contested (tiny 1).write) second second.toBlob [] clock 0 hwell.faithfullyHanded
  obtain ⟨displaced, horphaned, _⟩ := hswitch 2 1 hreorg
  exact ⟨displaced, horphaned⟩

/-- With a byte after its end, it is handed on under another id than it had. -/
theorem padded_tx_renamed :
    Transaction.fromBlob paddedTiny = .ok (tiny 1) ∧
      (((opened ()).run trusting (contested paddedTiny)).handleBlock trusting second
        second.toBlob [] clock).1 = .ok (.reorg 2 1) ∧
      ((opened ()).run trusting (contested paddedTiny)).orphanedTxs = [] ∧
      (tinyCarrier paddedTiny).txHashes.map some =
        [transactionHashFromBlob digest (tiny 1) paddedTiny] ∧
      (((opened ()).run trusting (contested paddedTiny)).handleBlock trusting second
        second.toBlob [] clock).2.orphanedTxs.map
          (fun p => transactionHashFromBlob digest p.1 p.2) ≠
        (tinyCarrier paddedTiny).txHashes.map some := by
  decide +kernel

end

end Wownero
