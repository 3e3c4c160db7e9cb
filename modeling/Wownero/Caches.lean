import Wownero.Sample
/-!
# The caches follow the store

`add_block` advances the caches field by field, and `reload_state` rebuilds them from the store.
The two agree after every operation that meets no failure of the store, along every exit of a
reorganisation: whatever was popped, the caches are reloaded before a block is added again.
-/

namespace Wownero

open Outcome

section

variable {σ : Type} {P : Params σ}

/-- The caches are those the records determine. -/
structure InStep (P : Params σ) (c : Chain σ) : Prop where
  numbered : c.db.main.Numbered
  state : c.state = stateOf P.network c.db.main.records

/-- How an operation ends: with a chain that satisfies `Q`, or in a failure of the store. -/
def EndsIn {α : Type} (Q : Chain σ → Prop) (out : Except Rejection α × Chain σ) : Prop :=
  Q out.2 ∨ ∃ r, out.1 = .error r ∧ r.error.isStorage = true

theorem EndsIn.of_storage {α : Type} {Q : Chain σ → Prop} {c : Chain σ} {r : Rejection}
    (h : r.error.isStorage = true) : EndsIn Q ((.error r, c) : Except Rejection α × Chain σ) :=
  Or.inr ⟨r, rfl, h⟩

/-! ### Blocks -/

theorem Accepted.inStep {c c' : Chain σ} {blk : Block} {blob : Blob}
    {txs : List (Transaction × Blob)} {now fees reward : Nat} {v : σ}
    (h : Accepted P c blk blob txs now fees reward v c') (hc : InStep P c) : InStep P c' := by
  obtain ⟨info, hadded, hstate, _⟩ := h.added
  refine ⟨hadded.numbered hc.numbered, ?_⟩
  rw [hstate, hadded.records_eq hc.numbered, stateOf_snoc, hc.state, hc.numbered.length_records]
  rfl

theorem InStep.of_eq {c c' : Chain σ} (hc : InStep P c) (hmain : c'.db.main = c.db.main)
    (hstate : c'.state = c.state) : InStep P c' := by
  refine ⟨hmain ▸ hc.numbered, ?_⟩
  rw [hstate, hmain]
  exact hc.state

/-- A block keeps the caches in step, accepted or refused. -/
theorem addBlock_inStep {c : Chain σ} (hc : InStep P c) (blk : Block) (blob : Blob)
    (txs : List (Transaction × Blob)) (now : Nat) :
    InStep P (Chain.addBlock P c blk blob txs now).2 := by
  cases hout : Chain.addBlock P c blk blob txs now with
  | mk result c' =>
      cases result with
      | ok added =>
          obtain ⟨_, fees, reward, v, haccepted⟩ := addBlock_ok hout
          exact haccepted.inStep hc
      | error r =>
          obtain ⟨v, rfl⟩ := addBlock_error hout
          exact hc.of_eq rfl rfl

/-! ### Pops -/

/-- What a pop does to a chain: the store loses its tip, the caches are not touched. -/
theorem popBlock_ok {c c' : Chain σ} {popped : Block × List Transaction}
    (h : Chain.popBlock P c = .ok (popped, c')) :
    c.db.main.popBlock P.crypto = .ok (popped, c'.db.main) ∧ c'.state = c.state ∧
      c'.db.altBlocks = c.db.altBlocks ∧ c'.altTxs = c.altTxs ∧
      c'.orphanedTxs = c.orphanedTxs := by
  unfold Chain.popBlock at h
  split at h
  · cases h
  · rename_i popped' main hpop
    cases h
    simp [hpop]

/-- A pop is observed. -/
theorem popBlock_verifier {c c' : Chain σ} {popped : Block × List Transaction}
    (h : Chain.popBlock P c = .ok (popped, c')) :
    c'.verifier = ({ c' with verifier := c.verifier }.observed P).verifier := by
  unfold Chain.popBlock at h
  split at h
  · cases h
  · cases h
    unfold Chain.observed
    split <;> simp

theorem popBlock_error {c : Chain σ} {r : Rejection} (h : Chain.popBlock P c = .error r) :
    r.error.isStorage = true := by
  unfold Chain.popBlock at h
  split at h
  · cases h
    rfl
  · cases h

theorem popBlock_numbered {c c' : Chain σ} {popped : Block × List Transaction}
    (h : Chain.popBlock P c = .ok (popped, c')) (hn : c.db.main.Numbered) :
    c'.db.main.Numbered := by
  obtain ⟨info, hpopped, _⟩ := popBlock_popped (popBlock_ok h).1
  exact hpopped.numbered hn

/-- The store's blocks are numbered. -/
def HasNumbered (c : Chain σ) : Prop := c.db.main.Numbered

theorem popMany_ends (n : Nat) {c : Chain σ} (hn : HasNumbered c) :
    (∃ c', Chain.popMany P n c = (.ok (), c') ∧ HasNumbered c') ∨
      ∃ r c', Chain.popMany P n c = (.error r, c') ∧ r.error.isStorage = true := by
  induction n generalizing c with
  | zero => exact Or.inl ⟨c, rfl, hn⟩
  | succ n ih =>
      unfold Chain.popMany
      cases hpop : Chain.popBlock P c with
      | error r => exact Or.inr ⟨r, c, rfl, popBlock_error hpop⟩
      | ok out =>
          obtain ⟨⟨block, txs⟩, c₁⟩ := out
          have hn₁ : HasNumbered c₁ := popBlock_numbered hpop hn
          exact ih (c := { c₁ with orphanedTxs := c₁.orphanedTxs ++ txs.map withBlob }) hn₁

theorem popTo_ends (split fuel : Nat) {c : Chain σ} (hn : HasNumbered c) (popped : List Popped) :
    (∃ popped' c', Chain.popTo P split fuel c popped = (.ok popped', c') ∧ HasNumbered c') ∨
      ∃ r c', Chain.popTo P split fuel c popped = (.error r, c') ∧ r.error.isStorage = true := by
  induction fuel generalizing c popped with
  | zero => exact Or.inl ⟨popped, c, rfl, hn⟩
  | succ fuel ih =>
      unfold Chain.popTo
      split_ifs
      · cases c.db.main.getBlockInfo (c.height - 1) with
        | error e => exact Or.inr ⟨_, c, rfl, rfl⟩
        | ok info =>
            cases hpop : Chain.popBlock P c with
            | error r => exact Or.inr ⟨r, c, rfl, popBlock_error hpop⟩
            | ok out =>
                obtain ⟨⟨block, txs⟩, c₁⟩ := out
                exact ih (popBlock_numbered hpop hn) _
      · exact Or.inl ⟨popped, c, rfl, hn⟩

theorem dropBlocks_ends (n : Nat) {c : Chain σ} (hn : HasNumbered c) :
    (∃ c', Chain.dropBlocks P n c = (.ok (), c') ∧ HasNumbered c') ∨
      ∃ r c', Chain.dropBlocks P n c = (.error r, c') ∧ r.error.isStorage = true := by
  induction n generalizing c with
  | zero => exact Or.inl ⟨c, rfl, hn⟩
  | succ n ih =>
      unfold Chain.dropBlocks
      cases hpop : Chain.popBlock P c with
      | error r => exact Or.inr ⟨r, c, rfl, popBlock_error hpop⟩
      | ok out =>
          obtain ⟨popped, c₁⟩ := out
          exact ih (popBlock_numbered hpop hn)

/-! ### Reloading -/

/-- Reloading a numbered store does not fail. -/
theorem reloadState_eq {c : Chain σ} (hn : HasNumbered c) :
    Chain.reloadState P c =
      (.ok (), { c with state := stateOf P.network c.db.main.records }) := by
  rw [Chain.reloadState, loadState_eq P hn]

theorem HasNumbered.reloaded {c : Chain σ} (hn : HasNumbered c) :
    InStep P { c with state := stateOf P.network c.db.main.records } :=
  ⟨hn, rfl⟩

/-- `pop_blocks` reloads after its pops. -/
theorem popBlocks_inStep {c : Chain σ} (hc : InStep P c) (n : Nat) :
    EndsIn (InStep P) (Chain.popBlocks P c n) := by
  unfold Chain.popBlocks
  rcases popMany_ends (P := P) (min n (c.height - 1)) hc.numbered with
    ⟨c₁, hout, hn₁⟩ | ⟨r, c₁, hout, hr⟩
  · simp only [hout, reloadState_eq hn₁]
    exact Or.inl hn₁.reloaded
  · simp only [hout]
    exact EndsIn.of_storage hr

/-! ### The switch -/

theorem applyAlt_inStep (now : Nat) (blocks : List (AltLink × List (Transaction × Blob)))
    (i : Nat) {c : Chain σ} (hc : InStep P c) : InStep P (Chain.applyAlt P now i blocks c).2 := by
  induction blocks generalizing i c with
  | nil => exact hc
  | cons b rest ih =>
      obtain ⟨link, txs⟩ := b
      have hadd := addBlock_inStep hc link.block link.blob txs now
      unfold Chain.applyAlt
      cases hout : Chain.addBlock P c link.block link.blob txs now with
      | mk result c₁ =>
          rw [hout] at hadd
          cases result with
          | ok added => exact ih (i + 1) hadd
          | error r => exact hadd

theorem putBack_inStep (now : Nat) (popped : List Popped) {c : Chain σ} (hc : InStep P c) :
    InStep P (Chain.putBack P now popped c).2 := by
  induction popped generalizing c with
  | nil => exact hc
  | cons p ps ih =>
      have hadd := addBlock_inStep hc p.block p.block.toBlob p.txs now
      unfold Chain.putBack
      cases hout : Chain.addBlock P c p.block p.block.toBlob p.txs now with
      | mk result c₁ =>
          rw [hout] at hadd
          cases result with
          | ok added => exact ih hadd
          | error r => exact hadd

/-- Forgetting alternative blocks touches neither the main chain nor the caches. -/
theorem removeAlts_frame (links : List AltLink) (c : Chain σ) :
    (c.removeAlts links).db.main = c.db.main ∧ (c.removeAlts links).state = c.state := by
  unfold Chain.removeAlts
  induction links generalizing c with
  | nil => exact ⟨rfl, rfl⟩
  | cons l links ih => exact ih _

theorem keepPopped_frame (popped : List Popped) (c : Chain σ) :
    (c.keepPopped popped).db.main = c.db.main ∧ (c.keepPopped popped).state = c.state := by
  unfold Chain.keepPopped
  induction popped generalizing c with
  | nil => exact ⟨rfl, rfl⟩
  | cons p popped ih => exact ih _

theorem finishSwitch_frame (chain : List AltLink) (popped : List Popped) (c : Chain σ) :
    (Chain.finishSwitch P chain popped c).db.main = c.db.main ∧
      (Chain.finishSwitch P chain popped c).state = c.state := by
  obtain ⟨hm, hs⟩ := keepPopped_frame popped c
  obtain ⟨hm', hs'⟩ := removeAlts_frame chain (c.keepPopped popped)
  exact ⟨hm'.trans hm, hs'.trans hs⟩

theorem restore_inStep (now applied : Nat) (chain : List AltLink) (popped : List Popped)
    (rejected : Rejection) {c : Chain σ} (hn : HasNumbered c) :
    EndsIn (InStep P) (Chain.restore P now applied chain popped rejected c) := by
  unfold Chain.restore
  rcases dropBlocks_ends (P := P) applied hn with ⟨c₁, hout, hn₁⟩ | ⟨r, c₁, hout, hr⟩
  · simp only [hout, reloadState_eq hn₁]
    have hback := putBack_inStep (P := P) now popped hn₁.reloaded
    cases hput : Chain.putBack P now popped
        { c₁ with state := stateOf P.network c₁.db.main.records } with
    | mk result c₂ =>
        rw [hput] at hback
        cases result with
        | error r => exact Or.inl hback
        | ok u =>
            obtain ⟨hm, hs⟩ := removeAlts_frame (chain.drop applied) c₂
            exact Or.inl (hback.of_eq hm hs)
  · simp only [hout]
    exact EndsIn.of_storage hr

theorem switchToAlternative_inStep {c : Chain σ} (hc : InStep P c) (chain : List AltLink)
    (split now : Nat) : EndsIn (InStep P) (Chain.switchToAlternative P c chain split now) := by
  unfold Chain.switchToAlternative
  cases gatherBodies c.altTxs chain with
  | error e => exact Or.inl hc
  | ok bodies =>
      rcases popTo_ends (P := P) split c.height hc.numbered [] with
        ⟨popped, c₁, hout, hn₁⟩ | ⟨r, c₁, hout, hr⟩
      · simp only [hout, reloadState_eq hn₁]
        have happly := applyAlt_inStep (P := P) now (chain.zip bodies) 0 hn₁.reloaded
        cases hal : Chain.applyAlt P now 0 (chain.zip bodies)
            { c₁ with state := stateOf P.network c₁.db.main.records } with
        | mk refused c₂ =>
            rw [hal] at happly
            cases refused with
            | none =>
                obtain ⟨hm, hs⟩ := finishSwitch_frame (P := P) chain popped c₂
                exact Or.inl (happly.of_eq hm hs)
            | some failure =>
                obtain ⟨i, rejected⟩ := failure
                exact restore_inStep now i chain popped rejected happly.numbered
      · simp only [hout]
        exact EndsIn.of_storage hr

/-! ### Whole operations -/

theorem handleBlock_inStep {c : Chain σ} (hc : InStep P c) (blk : Block) (blob : Blob)
    (txs : List (Transaction × Blob)) (now : Nat) :
    EndsIn (InStep P) (Chain.handleBlock P c blk blob txs now) := by
  rcases handleBlock_cases P c blk blob txs now with
    ⟨r, hout⟩ | hout | ⟨id, links, split, difficulty, data, _, hout⟩
  · rw [hout]
    exact Or.inl hc
  · rw [hout]
    exact Or.inl (addBlock_inStep hc blk blob txs now)
  · rw [hout, Chain.storeAlternative]
    dsimp only
    split_ifs
    · exact Or.inl (hc.of_eq rfl rfl)
    · refine switchToAlternative_inStep ?_ _ _ _
      exact hc.of_eq rfl rfl

/-- Opening a chain puts its caches in step. -/
theorem new_inStep {db : Store} {v : σ} {c : Chain σ} (hn : db.main.Numbered)
    (h : Chain.new P db v = .ok c) : InStep P c := by
  simp only [Chain.new, loadState_eq P hn] at h
  cases h
  exact ⟨hn, rfl⟩

/-- **One operation** that meets no failure of the store keeps the caches in step. -/
theorem act_inStep {c : Chain σ} (hc : InStep P c) {a : Action σ}
    (hok : NoStorageError (P := P) c a) : InStep P (c.act P a).2 := by
  have hends : ∀ {α : Type} {out : Except Rejection α × Chain σ}, EndsIn (InStep P) out →
      (∀ r, refusal out.1 = some r → r.error.isStorage = false) → InStep P out.2 := by
    intro α out hout hno
    rcases hout with hin | ⟨r, hr, hstorage⟩
    · exact hin
    · rw [hno r (by rw [hr]; rfl)] at hstorage
      cases hstorage
  cases a with
  | handleBlock blk blob txs now => exact hends (handleBlock_inStep hc blk blob txs now) hok
  | addBlock blk blob txs now => exact addBlock_inStep hc blk blob txs now
  | popBlocks n => exact hends (popBlocks_inStep hc n) hok
  | takeOrphanedTxs => exact hc.of_eq rfl rfl
  | reopen v =>
      rw [Chain.act]
      cases hnew : Chain.new P c.db v with
      | error e => exact hc
      | ok c' => exact new_inStep hc.numbered hnew
  | others v => exact hc.of_eq rfl rfl

/-- **The caches follow the store.**  After any run of operations without a failure of the
    store, from any store whose blocks are numbered, the caches are what `reload_state` would
    build, and a node that restarts there demands the same difficulty, weight limit and reward of
    every next block. -/
theorem caches_eq_reloaded (P : Params σ) {db : Store} (hn : db.main.Numbered) {v : σ}
    {c₀ : Chain σ} (hopen : Chain.new P db v = .ok c₀) (actions : List (Action σ))
    (hok : c₀.Along P (NoStorageError (P := P)) actions) :
    loadState P (c₀.run P actions).db.main = .ok (c₀.run P actions).state ∧
      ∀ v', ∃ c', Chain.new P (c₀.run P actions).db v' = .ok c' ∧
        nextBlockDifficulty P c'.state c'.height =
          nextBlockDifficulty P (c₀.run P actions).state (c₀.run P actions).height ∧
        c'.state.weights = (c₀.run P actions).state.weights ∧
        ∀ blk weight fees, stepReward c'.state blk weight fees =
          stepReward (c₀.run P actions).state blk weight fees := by
  have hin : InStep P (c₀.run P actions) :=
    run_invariant (I := fun _ c => InStep P c) (new_inStep hn hopen)
      (fun _ _ _ hc hcond => act_inStep hc hcond) actions hok
  have hload : loadState P (c₀.run P actions).db.main = .ok (c₀.run P actions).state := by
    rw [loadState_eq P hin.numbered, hin.state]
  refine ⟨hload, fun v' => ?_⟩
  refine ⟨⟨(c₀.run P actions).db, (c₀.run P actions).state, .empty, [], v'⟩, ?_, rfl, rfl,
    fun _ _ _ => rfl⟩
  rw [Chain.new, hload]
  rfl

end

section

open Sample

/-- The caches of a miner's chain of three blocks. -/
theorem caches_eq_reloaded_mined :
    ((opened ()).run bare (mined bare (opened ()) 3).1).height = 3 ∧
      loadState bare ((opened ()).run bare (mined bare (opened ()) 3).1).db.main =
        .ok ((opened ()).run bare (mined bare (opened ()) 3).1).state := by
  refine ⟨by decide +kernel, ?_⟩
  refine (caches_eq_reloaded bare MainTables.numbered_empty (new_empty bare ()) _ ?_).1
  decide +kernel

end

end Wownero
