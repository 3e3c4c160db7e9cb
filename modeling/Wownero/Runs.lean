import Mathlib.Data.List.Induction
import Wownero.Records
import Wownero.Reorg
/-!
# Runs of a chain

What one accepted and one refused block do, the operations a caller has, and runs of them in any
order: blocks handed in or put straight on the tip, blocks popped by hand, the store closed and
opened again, and whatever others do to the verifier's memory in between.
-/

namespace Wownero

open Outcome

/-! ### One block -/

section

variable {σ : Type} {P : Params σ}

/-- What a block that `add_block` accepted has passed, and what it left behind. -/
structure Accepted (P : Params σ) (c : Chain σ) (blk : Block) (blob : Blob)
    (txs : List (Transaction × Blob)) (now : Nat) (fees reward : Nat) (v : σ) (c' : Chain σ) :
    Prop where
  prechecks : prechecks P c blk now = .ok ()
  transactions : checkTransactions P c.db.main c.verifier blk txs now = (.ok fees, v)
  minerReward : stepReward c.state blk (cumulativeBlockWeight blk txs) fees = .ok reward
  main : c.db.main.addBlock P.crypto blk blob (cumulativeBlockWeight blk txs)
    (nextLongTermBlockWeight blk.header.majorVersion (cumulativeBlockWeight blk txs)
      c.state.longTerm.median)
    (wrap128 (c.state.cumulativeDifficulty + nextBlockDifficulty P c.state c.height))
    (saturatingAdd c.state.alreadyGeneratedCoins reward) txs = .ok c'.db.main
  state : c'.state = c.state.advance (requiredVersion P.network (c.height + 1))
    blk.header.timestamp (cumulativeBlockWeight blk txs)
    (nextLongTermBlockWeight blk.header.majorVersion (cumulativeBlockWeight blk txs)
      c.state.longTerm.median)
    (wrap128 (c.state.cumulativeDifficulty + nextBlockDifficulty P c.state c.height))
    (saturatingAdd c.state.alreadyGeneratedCoins reward)
  altBlocks : c'.db.altBlocks = c.db.altBlocks
  altTxs : c'.altTxs = c.altTxs
  orphanedTxs : c'.orphanedTxs = c.orphanedTxs
  verifier : c'.verifier = ({ c' with verifier := v }.observed P).verifier

@[simp] theorem observed_db (c : Chain σ) : (c.observed P).db = c.db := by
  unfold Chain.observed
  split <;> rfl

@[simp] theorem observed_state (c : Chain σ) : (c.observed P).state = c.state := by
  unfold Chain.observed
  split <;> rfl

@[simp] theorem observed_altTxs (c : Chain σ) : (c.observed P).altTxs = c.altTxs := by
  unfold Chain.observed
  split <;> rfl

@[simp] theorem observed_orphanedTxs (c : Chain σ) :
    (c.observed P).orphanedTxs = c.orphanedTxs := by
  unfold Chain.observed
  split <;> rfl

/-- **An accepted block** has passed the twelve steps, and the chain is moved by exactly them. -/
theorem addBlock_ok {c c' : Chain σ} {blk : Block} {blob : Blob} {txs : List (Transaction × Blob)}
    {now : Nat} {added : Added} (h : Chain.addBlock P c blk blob txs now = (.ok added, c')) :
    added = .mainChain c.height ∧ ∃ fees reward v, Accepted P c blk blob txs now fees reward v c' := by
  unfold Chain.addBlock at h
  cases hpre : prechecks P c blk now with
  | error e =>
      rw [hpre] at h
      cases h
  | ok u =>
      rw [hpre] at h
      cases htx : checkTransactions P c.db.main c.verifier blk txs now with
      | mk result v =>
          rw [htx] at h
          cases result with
          | error e => cases h
          | ok fees =>
              simp only at h
              cases hcommit : Chain.commitBlock P { c with verifier := v } blk blob txs fees with
              | error e =>
                  rw [hcommit] at h
                  cases h
              | ok c₁ =>
                  rw [hcommit] at h
                  cases h
                  refine ⟨rfl, fees, ?_⟩
                  simp only [Chain.commitBlock, bind_eq_ok] at hcommit
                  obtain ⟨reward, hreward, hcommit⟩ := hcommit
                  split at hcommit
                  · cases hcommit
                  · rename_i main hmain
                    cases hcommit
                    refine ⟨reward, v, hpre, htx, hreward, ?_, ?_, ?_, ?_, ?_, ?_⟩
                    · simpa [Chain.height] using hmain
                    all_goals simp [Chain.height]

/-- **A refused block** leaves everything but the verifier's memory as it was. -/
theorem addBlock_error {c c' : Chain σ} {blk : Block} {blob : Blob}
    {txs : List (Transaction × Blob)} {now : Nat} {r : Rejection}
    (h : Chain.addBlock P c blk blob txs now = (.error r, c')) :
    ∃ v, c' = { c with verifier := v } := by
  unfold Chain.addBlock at h
  split at h
  · cases h
    exact ⟨c.verifier, rfl⟩
  · split at h
    · cases h
      exact ⟨_, rfl⟩
    · split at h
      · cases h
        exact ⟨_, rfl⟩
      · cases h

/-- The memory a refused block leaves: untouched, or as the transactions left it. -/
theorem addBlock_error_verifier {c c' : Chain σ} {blk : Block} {blob : Blob}
    {txs : List (Transaction × Blob)} {now : Nat} {r : Rejection}
    (h : Chain.addBlock P c blk blob txs now = (.error r, c')) :
    c'.verifier = c.verifier ∨
      c'.verifier = (checkTransactions P c.db.main c.verifier blk txs now).2 := by
  unfold Chain.addBlock at h
  split at h
  · cases h
    exact Or.inl rfl
  · split at h
    · rename_i heq
      cases h
      exact Or.inr (by rw [heq])
    · rename_i heq
      split at h
      · cases h
        exact Or.inr (by rw [heq])
      · cases h

/-- The record an accepted block leaves. -/
theorem Accepted.added {c c' : Chain σ} {blk : Block} {blob : Blob}
    {txs : List (Transaction × Blob)} {now fees reward : Nat} {v : σ}
    (h : Accepted P c blk blob txs now fees reward v c') :
    ∃ info, AddedBlock P.crypto c.db.main blk blob info c'.db.main ∧
      c'.state = c.state.advance (requiredVersion P.network (c.height + 1)) info.timestamp
        info.weight info.longTermBlockWeight info.cumulativeDifficulty info.coins ∧
      info.cumulativeDifficulty =
        wrap128 (c.state.cumulativeDifficulty + nextBlockDifficulty P c.state c.height) := by
  obtain ⟨info, hadded, hw, hl, hd, hc⟩ := addBlock_added h.main
  refine ⟨info, hadded, ?_, hd⟩
  rw [h.state, hadded.timestamp, hw, hl, hd, hc]

end

/-! ### One block handed in -/

/-- What an alternative block has passed before it is stored. -/
structure AltPassed {σ : Type} (P : Params σ) (c : Chain σ) (blk : Block)
    (txs : List (Transaction × Blob)) (id : Hash256) (links : List AltLink) (split : Nat)
    (difficulty : Nat) (data : AltBlockData) : Prop where
  blockId : blk.blockId P.crypto.cnFastHash = some id
  new : c.db.haveBlock id = false
  chain : altChainTo c.db blk.header.prevId = .ok (some (links, split))
  checks : altChecks P c.db.main blk txs links split = .ok difficulty
  recorded : altData c.db.main blk txs links split difficulty = .ok data

/-- **What `handle_block` can do**: refuse a block with the chain untouched, take it as
    `add_block` does, or store it as an alternative and switch if that is heavier. -/
theorem handleBlock_cases {σ : Type} (P : Params σ) (c : Chain σ) (blk : Block) (blob : Blob)
    (txs : List (Transaction × Blob)) (now : Nat) :
    (∃ r, c.handleBlock P blk blob txs now = (.error r, c)) ∨
      c.handleBlock P blk blob txs now = c.addBlock P blk blob txs now ∨
      ∃ id links split difficulty data, AltPassed P c blk txs id links split difficulty data ∧
        c.handleBlock P blk blob txs now =
          c.storeAlternative P blk blob txs now id links split data := by
  unfold Chain.handleBlock
  cases hid : blk.blockId P.crypto.cnFastHash with
  | none => exact Or.inl ⟨_, rfl⟩
  | some id =>
      cases hhave : c.db.haveBlock id with
      | true => exact Or.inl ⟨⟨.haveIt, .alreadyExists id⟩, by simp [hhave]⟩
      | false =>
          simp only [hhave, Bool.false_eq_true, if_false]
          cases htop : topHash c.db.main with
          | none => exact Or.inr (Or.inl rfl)
          | some tip =>
              by_cases hprev : blk.header.prevId = tip
              · simp [hprev]
              · simp only [ne_eq, hprev, not_false_eq_true, if_true]
                unfold Chain.handleAlternativeBlock
                cases hchain : altChainTo c.db blk.header.prevId with
                | error e => exact Or.inl ⟨_, rfl⟩
                | ok found =>
                    cases found with
                    | none => exact Or.inl ⟨_, rfl⟩
                    | some walked =>
                        obtain ⟨links, split⟩ := walked
                        simp only
                        cases hchecks : altChecks P c.db.main blk txs links split with
                        | error e => exact Or.inl ⟨_, rfl⟩
                        | ok difficulty =>
                            simp only
                            cases hdata : altData c.db.main blk txs links split difficulty with
                            | error e => exact Or.inl ⟨_, rfl⟩
                            | ok data =>
                                exact Or.inr (Or.inr ⟨id, links, split, difficulty, data,
                                  ⟨hid, hhave, hchain, hchecks, hdata⟩, rfl⟩)

/-! ### Operations -/

/-- What a caller can do with a chain. -/
inductive Action (σ : Type) where
  | handleBlock (blk : Block) (blob : Blob) (txs : List (Transaction × Blob)) (now : Nat)
  | addBlock (blk : Block) (blob : Blob) (txs : List (Transaction × Blob)) (now : Nat)
  | popBlocks (n : Nat)
  | takeOrphanedTxs
  /-- The store is closed and a chain opened over it again. -/
  | reopen (verifier : σ)
  /-- Others move the verifier's memory. -/
  | others (verifier : σ)

section

variable {σ : Type} (P : Params σ)

/-- The refusal an operation answers with, if any. -/
def refusal {α : Type} : Except Rejection α → Option Rejection
  | .ok _ => none
  | .error r => some r

/-- One operation: what it refused with, and the chain it leaves. -/
def Chain.act (c : Chain σ) : Action σ → Option Rejection × Chain σ
  | .handleBlock blk blob txs now =>
      (refusal (c.handleBlock P blk blob txs now).1, (c.handleBlock P blk blob txs now).2)
  | .addBlock blk blob txs now =>
      (refusal (c.addBlock P blk blob txs now).1, (c.addBlock P blk blob txs now).2)
  | .popBlocks n => (refusal (c.popBlocks P n).1, (c.popBlocks P n).2)
  | .takeOrphanedTxs => (none, { c with orphanedTxs := [] })
  | .reopen verifier =>
      match Chain.new P c.db verifier with
      | .ok c' => (none, c')
      | .error e => (some ⟨.commit, .storage e⟩, c)
  | .others verifier => (none, { c with verifier := verifier })

/-- A run: one operation after another. -/
def Chain.run (c : Chain σ) (actions : List (Action σ)) : Chain σ :=
  actions.foldl (fun c a => (c.act P a).2) c

/-- Every operation of a run satisfies a condition on the chain it starts from. -/
def Chain.Along (cond : Chain σ → Action σ → Prop) (c : Chain σ) (actions : List (Action σ)) :
    Prop :=
  ∀ before a after, actions = before ++ a :: after → cond (c.run P before) a

variable {P}

theorem along_nil {cond : Chain σ → Action σ → Prop} (c : Chain σ) : c.Along P cond [] := by
  intro before a after heq
  simp at heq

theorem along_cons {cond : Chain σ → Action σ → Prop} {c : Chain σ} {a : Action σ}
    {actions : List (Action σ)} :
    c.Along P cond (a :: actions) ↔ cond c a ∧ (c.act P a).2.Along P cond actions := by
  constructor
  · intro h
    refine ⟨h [] a actions rfl, ?_⟩
    intro before a' after heq
    exact h (a :: before) a' after (by rw [heq]; rfl)
  · rintro ⟨hfirst, h⟩ before a' after heq
    cases before with
    | nil =>
        cases heq
        exact hfirst
    | cons a₀ before =>
        rw [List.cons_append, List.cons.injEq] at heq
        obtain ⟨rfl, heq⟩ := heq
        exact h before a' after heq

/-- A run in two parts. -/
theorem run_append (c : Chain σ) (first later : List (Action σ)) :
    c.run P (first ++ later) = (c.run P first).run P later := by
  rw [Chain.run, List.foldl_append]
  rfl

theorem run_snoc (c : Chain σ) (actions : List (Action σ)) (a : Action σ) :
    c.run P (actions ++ [a]) = ((c.run P actions).act P a).2 := by
  simp [Chain.run]

theorem along_append {cond : Chain σ → Action σ → Prop} {c : Chain σ}
    {first later : List (Action σ)} :
    c.Along P cond (first ++ later) ↔
      c.Along P cond first ∧ (c.run P first).Along P cond later := by
  induction first generalizing c with
  | nil => exact ⟨fun h => ⟨along_nil c, h⟩, fun h => h.2⟩
  | cons a first ih =>
      rw [List.cons_append, along_cons, along_cons, ih, and_assoc]
      rfl

theorem along_snoc {cond : Chain σ → Action σ → Prop} {c : Chain σ} {actions : List (Action σ)}
    {a : Action σ} :
    c.Along P cond (actions ++ [a]) ↔ c.Along P cond actions ∧ cond (c.run P actions) a := by
  rw [along_append, along_cons]
  exact ⟨fun h => ⟨h.1, h.2.1⟩, fun h => ⟨h.1, h.2, along_nil _⟩⟩

/-- A condition that can be computed can be followed along a run. -/
instance decidableAlong {cond : Chain σ → Action σ → Prop} [∀ c a, Decidable (cond c a)] :
    ∀ (actions : List (Action σ)) (c : Chain σ), Decidable (c.Along P cond actions)
  | [], c => .isTrue (along_nil c)
  | a :: actions, c =>
      letI : Decidable ((c.act P a).2.Along P cond actions) := decidableAlong actions (c.act P a).2
      decidable_of_iff (cond c a ∧ (c.act P a).2.Along P cond actions) along_cons.symm

/-- **Invariants of runs.**  What holds at the start and is kept by every operation that meets
    the condition holds at the end. -/
theorem run_invariant {cond : Chain σ → Action σ → Prop} {I : List (Action σ) → Chain σ → Prop}
    {c : Chain σ} (hstart : I [] c)
    (hstep : ∀ before a c', I before c' → cond c' a → I (before ++ [a]) (c'.act P a).2)
    (actions : List (Action σ)) (h : c.Along P cond actions) : I actions (c.run P actions) := by
  induction actions using List.reverseRecOn with
  | nil => exact hstart
  | append_singleton before a ih =>
      obtain ⟨hbefore, ha⟩ := along_snoc.mp h
      rw [run_snoc]
      exact hstep before a _ (ih hbefore) ha

/-- A failure of the store, also one met while a chain was being put back. -/
def BlockError.isStorage : BlockError → Bool
  | .storage _ => true
  | .notRestored _ _ e => e.isStorage
  | _ => false

/-- The operation meets no failure of the store. -/
def NoStorageError (c : Chain σ) (a : Action σ) : Prop :=
  ∀ r, (c.act P a).1 = some r → r.error.isStorage = false

instance (c : Chain σ) (a : Action σ) : Decidable (NoStorageError (P := P) c a) :=
  decidable_of_iff (((c.act P a).1.all fun r => !r.error.isStorage) = true) (by
    unfold NoStorageError
    cases (c.act P a).1 <;> simp)

end

end Wownero
